import Susanow.Crow.Spelling

/-! Making the trie smaller.

`optimizeNode` draws the letters of a node through its children as long as none of them has a
rule or a parameter. The keys of a node need not have one letter then; none is the start of
another, so that joining them overwrites nothing. -/
namespace Susanow.Crow.Routing.Trie
variable {T T' T'' : Trie} {i j k m f : Nat}

/-- What holds of a trie while it is made smaller. -/
structure Ordered (T : Trie) : Prop where
  up : ∀ i w j, T.graph.edge i w j → i < j ∧ j < T.size
  nonempty : ∀ i, ∀ kv ∈ (T.node i).children, kv.1 ≠ []
  apart : ∀ i, ∀ kv ∈ (T.node i).children, ∀ kv' ∈ (T.node i).children, kv.1 <+: kv'.1 → kv = kv'

theorem Grown.ordered (h : Grown T) : Ordered T where
  up := h.up
  nonempty := by
    rintro i ⟨s, j⟩ hmem rfl
    obtain ⟨a, ha⟩ := h.tree.letter i _ j (edge_key.mpr hmem)
    cases ha
  apart := by
    rintro i ⟨s, j⟩ hmem ⟨s', j'⟩ hmem' hpre
    obtain ⟨a, ha⟩ := h.tree.letter i _ j (edge_key.mpr hmem)
    obtain ⟨a', ha'⟩ := h.tree.letter i _ j' (edge_key.mpr hmem')
    have hlen := congrArg List.length ha
    have hlen' := congrArg List.length ha'
    simp only [List.length_map, List.length_singleton] at hlen hlen'
    obtain rfl : s = s' := hpre.eq_of_length (hlen.trans hlen'.symm)
    rw [h.tree.functional i _ j j' (edge_key.mpr hmem) (edge_key.mpr hmem')]

/-! ### Joining keys -/

/-- Pairs that are assigned one after the other are all there if no key comes with two values. -/
theorem mem_foldl_assign {ps : List (List Char × Nat)} (hps : ∀ p ∈ ps, ∀ q ∈ ps, p.1 = q.1 → p = q)
    (x : List Char × Nat) : x ∈ ps.foldl (fun m p => assign m p.1 p.2) [] ↔ x ∈ ps := by
  induction ps using List.reverseRecOn with
  | nil => rfl
  | append_singleton ps p ih =>
    have hps' : ∀ a ∈ ps, ∀ b ∈ ps, a.1 = b.1 → a = b := fun a ha b hb =>
      hps a (List.mem_append_left _ ha) b (List.mem_append_left _ hb)
    have ih := ih hps'
    rw [List.foldl_append]
    generalize ps.foldl (fun m p => assign m p.1 p.2) [] = m at ih
    simp only [List.foldl_cons, List.foldl_nil, assign, List.mem_cons, List.mem_filter, ih, bne_iff_ne,
      List.mem_append, List.not_mem_nil, or_false]
    constructor
    · rintro (rfl | ⟨hx, -⟩)
      · exact .inr rfl
      · exact .inl hx
    · rintro (hx | rfl)
      · by_cases heq : x.1 = p.1
        · exact .inl (hps x (List.mem_append_left _ hx) p (List.mem_append_right _ List.mem_cons_self) heq)
        · exact .inr ⟨hx, heq⟩
      · exact .inl rfl

/-- The pairs that `merged` assigns. -/
def joined (T : Trie) (children : List (List Char × Nat)) : List (List Char × Nat) :=
  children.flatMap fun kv => (T.node kv.2).children.map fun childKv => (kv.1 ++ childKv.1, childKv.2)

theorem merged_eq (T : Trie) (children : List (List Char × Nat)) :
    T.merged children = (T.joined children).foldl (fun m p => assign m p.1 p.2) [] := by
  unfold merged joined
  rw [List.foldl_flatMap]
  congr 1
  funext m kv
  rw [List.foldl_map]

theorem mem_joined {children : List (List Char × Nat)} {x : List Char × Nat} :
    x ∈ T.joined children ↔ ∃ s j t, (s, j) ∈ children ∧ (t, x.2) ∈ (T.node j).children ∧ x.1 = s ++ t := by
  unfold joined
  simp only [List.mem_flatMap, List.mem_map, Prod.exists]
  constructor
  · rintro ⟨s, j, hs, t, k, ht, rfl⟩
    exact ⟨s, j, t, hs, ht, rfl⟩
  · rintro ⟨s, j, t, hs, ht, hx⟩
    exact ⟨s, j, hs, t, x.2, ht, Prod.ext hx.symm rfl⟩

theorem joined_apart (h : Ordered T) (i : Nat) :
    ∀ p ∈ T.joined (T.node i).children, ∀ q ∈ T.joined (T.node i).children, p.1 <+: q.1 → p = q := by
  intro p hp q hq hpre
  obtain ⟨s, j, t, hs, ht, hpst⟩ := mem_joined.mp hp
  obtain ⟨s', j', t', hs', ht', hqst⟩ := mem_joined.mp hq
  rw [hpst, hqst] at hpre
  have hsj : (s, j) = (s', j') := by
    have hleft : s <+: s' ++ t' := (List.prefix_append s t).trans hpre
    rcases List.prefix_or_prefix_of_prefix hleft (List.prefix_append s' t') with hss | hss
    · exact h.apart i _ hs _ hs' hss
    · exact (h.apart i _ hs' _ hs hss).symm
  obtain ⟨rfl, rfl⟩ := Prod.mk.inj hsj
  rw [List.prefix_append_right_inj] at hpre
  have htt := h.apart j _ ht _ ht' hpre
  obtain ⟨rfl, hk⟩ := Prod.mk.inj htt
  exact Prod.ext (hpst.trans hqst.symm) hk

theorem mem_merged (h : Ordered T) {x : List Char × Nat} :
    x ∈ T.merged (T.node i).children ↔ x ∈ T.joined (T.node i).children := by
  rw [merged_eq]
  refine mem_foldl_assign (fun p hp q hq heq => joined_apart h i p hp q hq ?_) x
  rw [heq]

/-! ### One merge -/

theorem isSimple_iff {n : Node} : n.isSimple = true ↔ n.ruleIndex = 0 ∧ ∀ t, n.paramChildrens t = 0 := by
  simp [Node.isSimple, List.all_eq_true]

/-- The trie after the children of `i` have been merged. -/
def mergeAt (T : Trie) (i : Nat) : Trie :=
  T.setNode i { T.node i with children := T.merged (T.node i).children }

theorem mergeAt_contracts (h : Ordered T) (hsimple : ∀ kv ∈ (T.node i).children, (T.node kv.2).isSimple = true) :
    Words.Contracts T.graph (T.mergeAt i).graph i fun w _ => ∃ t, w = [.param t] where
  value := by
    funext k
    simp only [graph, mergeAt, node_setNode]
    split <;> simp_all
  other := by
    intro k hk w n
    simp only [graph, mergeAt, node_setNode, if_neg hk]
  through := by
    intro w k
    constructor
    · rintro (⟨t, rfl, hk, hk0⟩ | ⟨s, rfl, hmem⟩)
      · simp only [mergeAt, node_setNode, if_true] at hk
        exact .inl ⟨edge_param.mpr ⟨hk, hk0⟩, t, rfl⟩
      · simp only [mergeAt, node_setNode, if_true] at hmem
        obtain ⟨u, j, v, hu, hv, rfl⟩ := mem_joined.mp ((mem_merged h).mp hmem)
        refine .inr ⟨_, _, j, List.map_append, edge_key.mpr hu, ?_, edge_key.mpr hv⟩
        rintro ⟨t, ht⟩
        exact map_literal_ne_param ht
    · rintro (⟨he, t, rfl⟩ | ⟨u, v, j, rfl, hu, hkept, hv⟩)
      · have hk := edge_param.mp he
        refine edge_param.mpr ?_
        simp only [mergeAt, node_setNode, if_true]
        exact hk
      · rcases hu with ⟨t, rfl, -⟩ | ⟨s, rfl, hs⟩
        · exact absurd ⟨t, rfl⟩ hkept
        rcases hv with ⟨t, -, rfl, hk0⟩ | ⟨s', rfl, hs'⟩
        · exact absurd ((isSimple_iff.mp (hsimple _ hs)).2 t) hk0
        rw [← List.map_append]
        refine edge_key.mpr ?_
        simp only [mergeAt, node_setNode, if_true]
        exact (mem_merged h).mpr (mem_joined.mpr ⟨s, j, s', hs, hs', rfl⟩)
  bare := by
    rintro w j (⟨t, rfl, -⟩ | ⟨s, rfl, hs⟩) hkept
    · exact absurd ⟨t, rfl⟩ hkept
    · exact value_eq_none.mpr (isSimple_iff.mp (hsimple _ hs)).1

theorem mergeAt_ordered (h : Ordered T) (hsimple : ∀ kv ∈ (T.node i).children, (T.node kv.2).isSimple = true) :
    Ordered (T.mergeAt i) where
  up := by
    have hcontracts := mergeAt_contracts h hsimple
    intro k w n he
    by_cases hk : k = i
    · subst hk
      rcases (hcontracts.through w n).mp he with ⟨he, -⟩ | ⟨u, v, j, -, hu, -, hv⟩
      · exact h.up k w n he
      · exact ⟨(h.up k u j hu).1.trans (h.up j v n hv).1, (h.up j v n hv).2⟩
    · exact h.up k w n ((hcontracts.other k hk w n).mp he)
  nonempty := by
    intro k kv hmem
    by_cases hk : k = i
    · simp only [mergeAt, node_setNode, if_pos hk] at hmem
      obtain ⟨s, j, t, hs, -, hst⟩ := mem_joined.mp ((mem_merged h).mp hmem)
      rw [hst]
      exact List.append_ne_nil_of_left_ne_nil (h.nonempty i _ hs) t
    · simp only [mergeAt, node_setNode, if_neg hk] at hmem
      exact h.nonempty k kv hmem
  apart := by
    intro k kv hmem kv' hmem'
    by_cases hk : k = i
    · simp only [mergeAt, node_setNode, if_pos hk] at hmem hmem'
      exact joined_apart h i kv ((mem_merged h).mp hmem) kv' ((mem_merged h).mp hmem')
    · simp only [mergeAt, node_setNode, if_neg hk] at hmem hmem'
      exact h.apart k kv hmem kv' hmem'

/-! ### `optimizeNode` -/

/-- What a call for `i` does to a trie: the nodes before `i` are not touched. -/
structure Optimized (T : Trie) (i : Nat) (T' : Trie) : Prop where
  ordered : Ordered T'
  spells : T'.graph.Spells = T.graph.Spells
  size : T'.size = T.size
  before : ∀ k < i, T'.node k = T.node k

theorem Optimized.refl (h : Ordered T) (i : Nat) : Optimized T i T := ⟨h, rfl, rfl, fun _ _ => rfl⟩

theorem Optimized.trans (h : Optimized T j T') (h' : Optimized T' k T'') (hij : i ≤ j) (hik : i ≤ k) :
    Optimized T i T'' :=
  ⟨h'.ordered, h'.spells.trans h.spells, h'.size.trans h.size, fun n hn =>
    (h'.before n (hn.trans_le hik)).trans (h.before n (hn.trans_le hij))⟩

/-- What the calls for `i` need, if its children are not before `m`: as many as there are nodes
for each node from `i` on, and one for each place where the next children may be. -/
def cost (T : Trie) (i m : Nat) : Nat := (T.size - i) * (T.size + 1) + (T.size - m)

theorem cost_lt (hij : i < j) (hj : j < T.size) : T.cost j (j + 1) + 1 < T.cost i m := by
  have hmul : (T.size - j + 1) * (T.size + 1) ≤ (T.size - i) * (T.size + 1) :=
    Nat.mul_le_mul_right _ (by omega)
  rw [Nat.add_mul] at hmul
  unfold cost
  omega

/-- What is to be shown of a call with the bound `f`. -/
def Succeeds (f : Nat) : Prop :=
  ∀ T i m, Ordered T → i < m → m ≤ T.size → (∀ kv ∈ (T.node i).children, m ≤ kv.2) → T.cost i m < f →
    ∃ T', optimizeNode f T i = some T' ∧ Optimized T i T'

/-- A call for a node further behind. -/
theorem Succeeds.child (hf : Succeeds f) (h : Ordered T) (hij : i < j) (hj : j < T.size) (hcost : T.cost i m < f + 1) :
    ∃ T', optimizeNode f T j = some T' ∧ Optimized T j T' := by
  refine hf T j (j + 1) h (Nat.lt_succ_self j) hj ?_ ?_
  · intro kv hmem
    exact (h.up j _ kv.2 (edge_key.mpr hmem)).1
  · have hlt := cost_lt (m := m) hij hj
    omega

/-- The loops: calls for nodes behind `i`, one after the other. -/
theorem Succeeds.foldlM {α : Type} (hf : Succeeds f) (xs : List α) (index : Trie → α → Nat)
    (step : Trie → α → Option Trie) (h : Ordered T) (hcost : T.cost i m < f + 1)
    (hstep : ∀ T' x, Optimized T (i + 1) T' → x ∈ xs →
      step T' x = some T' ∨ step T' x = optimizeNode f T' (index T' x) ∧ i < index T' x ∧ index T' x < T.size) :
    ∃ T', xs.foldlM step T = some T' ∧ Optimized T (i + 1) T' := by
  suffices hall : ∀ (ys : List α) T₁, Optimized T (i + 1) T₁ → (∀ x ∈ ys, x ∈ xs) →
      ∃ T', ys.foldlM step T₁ = some T' ∧ Optimized T (i + 1) T' from
    hall xs T (.refl h _) fun _ hx => hx
  intro ys
  induction ys with
  | nil =>
    intro T₁ hT₁ _
    exact ⟨T₁, rfl, hT₁⟩
  | cons x ys ih =>
    intro T₁ hT₁ hsub
    have hrest : ∀ y ∈ ys, y ∈ xs := fun y hy => hsub y (List.mem_cons_of_mem _ hy)
    have hone : ∃ T₂, step T₁ x = some T₂ ∧ Optimized T (i + 1) T₂ := by
      rcases hstep T₁ x hT₁ (hsub x List.mem_cons_self) with heq | ⟨heq, hlt, hsize⟩
      · exact ⟨T₁, heq, hT₁⟩
      · have hcost₁ : T₁.cost i m < f + 1 := by
          unfold cost at hcost ⊢
          rw [hT₁.size]
          exact hcost
        obtain ⟨T₂, hcall, hT₂⟩ := hf.child hT₁.ordered hlt (hT₁.size ▸ hsize) hcost₁
        exact ⟨T₂, heq.trans hcall, hT₁.trans hT₂ le_rfl hlt⟩
    obtain ⟨T₂, hx, hT₂⟩ := hone
    obtain ⟨T', hys, hT'⟩ := ih T₂ hT₂ hrest
    refine ⟨T', ?_, hT'⟩
    rw [List.foldlM_cons, hx]
    exact hys

theorem succeeds (f : Nat) : Succeeds f := by
  induction f with
  | zero =>
    intro T i m _ _ _ _ hcost
    omega
  | succ f ih =>
    intro T i m h him hm hchildren hcost
    unfold optimizeNode
    obtain ⟨T₁, hparams, hT₁⟩ := ih.foldlM ParamType.all (fun T t => (T.node i).paramChildrens t)
      (fun T t => let x := (T.node i).paramChildrens t; if x = 0 then some T else optimizeNode f T x) h hcost <| by
        intro T' t hT' _
        dsimp only
        split
        · exact .inl rfl
        · rename_i hx
          have hup := hT'.ordered.up i _ _ (edge_param.mpr ⟨rfl, hx⟩)
          exact .inr ⟨rfl, hup.1, hT'.size ▸ hup.2⟩
    rw [hparams]
    have hnode : T₁.node i = T.node i := hT₁.before i (Nat.lt_succ_self i)
    have hcost₁ : T₁.cost i m < f + 1 := by
      unfold cost at hcost ⊢
      rw [hT₁.size]
      exact hcost
    show ∃ T', (if (T₁.node i).children = [] then some T₁
      else if (T₁.node i).children.all fun kv => (T₁.node kv.2).isSimple then optimizeNode f (T₁.mergeAt i) i
      else (T₁.node i).children.foldlM (fun T kv => optimizeNode f T kv.2) T₁) = some T' ∧ Optimized T i T'
    have hkeep : Optimized T i T₁ := (Optimized.refl h i).trans hT₁ le_rfl (Nat.le_succ i)
    split
    · exact ⟨T₁, rfl, hkeep⟩
    rename_i hne
    split
    · rename_i hall
      have hsimple : ∀ kv ∈ (T₁.node i).children, (T₁.node kv.2).isSimple = true := List.all_eq_true.mp hall
      have hcontracts := mergeAt_contracts hT₁.ordered hsimple
      have hmerged : Optimized T₁ i (T₁.mergeAt i) := by
        refine ⟨mergeAt_ordered hT₁.ordered hsimple, hcontracts.spells, rfl, fun k hk => ?_⟩
        simp only [mergeAt, node_setNode, if_neg hk.ne]
      -- the children of a child are behind it
      have hm' : m + 1 ≤ T₁.size := by
        obtain ⟨kv, hkv⟩ := List.exists_mem_of_ne_nil _ hne
        have hup := hT₁.ordered.up i _ kv.2 (edge_key.mpr hkv)
        have hle := hchildren kv (hnode ▸ hkv)
        omega
      have hbehind : ∀ kv ∈ ((T₁.mergeAt i).node i).children, m + 1 ≤ kv.2 := by
        intro kv hmem
        simp only [mergeAt, node_setNode, if_true] at hmem
        obtain ⟨s, j, t, hs, ht, -⟩ := mem_joined.mp ((mem_merged hT₁.ordered).mp hmem)
        have hle : m ≤ j := hchildren (s, j) (hnode ▸ hs)
        have hup := hT₁.ordered.up j _ kv.2 (edge_key.mpr ht)
        omega
      have hcost' : (T₁.mergeAt i).cost i (m + 1) < f := by
        unfold cost at hcost₁ ⊢
        show (T₁.size - i) * (T₁.size + 1) + (T₁.size - (m + 1)) < f
        omega
      obtain ⟨T', hcall, hT'⟩ := ih (T₁.mergeAt i) i (m + 1) hmerged.ordered (by omega) hm' hbehind hcost'
      exact ⟨T', hcall, hkeep.trans (hmerged.trans hT' le_rfl le_rfl) le_rfl le_rfl⟩
    · obtain ⟨T', hcall, hT'⟩ := ih.foldlM (T₁.node i).children (fun _ kv => kv.2)
        (fun T kv => optimizeNode f T kv.2) hT₁.ordered hcost₁ <| by
          intro T' kv _ hmem
          have hup := hT₁.ordered.up i _ kv.2 (edge_key.mpr hmem)
          exact .inr ⟨rfl, hup.1, hup.2⟩
      exact ⟨T', hcall, hkeep.trans hT' le_rfl (Nat.le_succ i)⟩

/-- Making a trie smaller ends, and leaves what it spells. -/
theorem optimize_spells (h : Ordered T) (hpos : 0 < T.size) :
    ∃ T', T.optimize = some T' ∧ Ordered T' ∧ T'.graph.Spells = T.graph.Spells := by
  obtain ⟨T', hcall, hT'⟩ := succeeds ((T.size + 1) * (T.size + 1)) T 0 1 h Nat.one_pos hpos
    (fun kv hmem => (h.up 0 _ kv.2 (edge_key.mpr hmem)).1) <| by
      unfold cost
      rw [Nat.add_mul T.size 1, Nat.sub_zero]
      omega
  exact ⟨T', hcall, hT'.ordered, hT'.spells⟩

end Susanow.Crow.Routing.Trie
