import Susanow.Crow.Routing

/-! What a trie spells.

The trie of a router spells the patterns of its rules, token by token, with their numbers.
`add` puts one pattern in, and `optimizeNode` leaves what is spelled as it is. -/
namespace Susanow.Crow.Routing

@[simp] theorem ParamType.mem_all (t : ParamType) : t ∈ ParamType.all := by
  cases t <;> decide

namespace Trie
variable {T T' : Trie} {i j k idx : Nat} {tok : Token} {toks l : List Token}

/-- The parameters and the letters of a child, as words. -/
def graph (T : Trie) : Words Nat Token Nat where
  edge i w j := (∃ t, w = [.param t] ∧ j = (T.node i).paramChildrens t ∧ j ≠ 0) ∨
    ∃ key, w = key.map Token.literal ∧ (key, j) ∈ (T.node i).children
  value i := if (T.node i).ruleIndex = 0 then none else some (T.node i).ruleIndex

theorem map_literal_injective : Function.Injective (List.map Token.literal) :=
  List.map_injective_iff.mpr fun _ _ => Token.literal.inj

theorem map_literal_ne_param {key : List Char} {t : ParamType} : key.map Token.literal ≠ [.param t] := by
  intro h
  match key with
  | [] => cases h
  | c :: key => cases h

theorem edge_param {t : ParamType} : T.graph.edge i [.param t] j ↔ j = (T.node i).paramChildrens t ∧ j ≠ 0 := by
  constructor
  · rintro (⟨t', ht, hj⟩ | ⟨key, hkey, -⟩)
    · obtain rfl : t = t' := by
        injection ht with ht
        exact Token.param.inj ht
      exact hj
    · exact absurd hkey.symm map_literal_ne_param
  · intro h
    exact .inl ⟨t, rfl, h⟩

theorem edge_key {s : List Char} :
    T.graph.edge i (s.map .literal) j ↔ (s, j) ∈ (T.node i).children := by
  constructor
  · rintro (⟨t, ht, -⟩ | ⟨key', hkey, hmem⟩)
    · exact absurd ht map_literal_ne_param
    · rw [map_literal_injective hkey]
      exact hmem
  · intro h
    exact .inr ⟨s, rfl, h⟩

theorem edge_literal {c : Char} : T.graph.edge i [.literal c] j ↔ ([c], j) ∈ (T.node i).children :=
  edge_key (s := [c])

theorem value_eq_some {r : Nat} : T.graph.value i = some r ↔ (T.node i).ruleIndex = r ∧ r ≠ 0 := by
  unfold graph
  dsimp only
  split <;> simp <;> omega

theorem value_eq_none : T.graph.value i = none ↔ (T.node i).ruleIndex = 0 := by
  unfold graph
  dsimp only
  split <;> simp_all

/-! ### Adding -/

/-- As `add` leaves a trie: a tree, with the edges from smaller numbers to larger ones. -/
structure Grown (T : Trie) : Prop where
  tree : T.graph.Tree 0
  up : ∀ i w j, T.graph.edge i w j → i < j ∧ j < T.size
  blank : ∀ i, T.size ≤ i → T.node i = {}
  pos : 0 < T.size

theorem grown_empty : Grown {} := by
  have hedge (i : Nat) (w : List Token) (j : Nat) : ¬(graph {}).edge i w j := by
    rintro (⟨t, -, rfl, hj⟩ | ⟨key, -, hmem⟩)
    · exact hj rfl
    · cases hmem
  refine ⟨⟨?_, ?_, ?_, ?_⟩, ?_, fun i _ => rfl, Nat.one_pos⟩
  · intro i w j h
    exact absurd h (hedge i w j)
  · intro i w j k h
    exact absurd h (hedge i w j)
  · intro i j w v k h
    exact absurd h (hedge i w k)
  · intro i w
    exact hedge i w 0
  · intro i w j h
    exact absurd h (hedge i w j)

theorem child_eq_some (h : T.child idx tok = some j) : T.graph.edge idx [tok] j := by
  cases tok with
  | param t =>
    simp only [child] at h
    split at h
    · cases h
    · obtain rfl := Option.some.inj h
      exact edge_param.mpr ⟨rfl, by assumption⟩
  | literal c =>
    obtain ⟨l₁, l₂, heq, -⟩ := List.lookup_eq_some_iff.mp h
    refine edge_literal.mpr ?_
    rw [heq]
    exact List.mem_append_right _ List.mem_cons_self

theorem child_eq_none (h : T.child idx tok = none) (k : Nat) : ¬T.graph.edge idx [tok] k := by
  cases tok with
  | param t =>
    simp only [child] at h
    split at h
    · rename_i h0
      rintro he
      obtain ⟨rfl, hk⟩ := edge_param.mp he
      exact hk h0
    · cases h
  | literal c =>
    intro he
    have hmem := edge_literal.mp he
    have hne := List.lookup_eq_none_iff.mp h _ hmem
    simp at hne

@[simp] theorem node_setNode (n : Node) : (T.setNode i n).node j = if j = i then n else T.node j := rfl

@[simp] theorem size_setNode (n : Node) : (T.setNode i n).size = T.size := rfl

/-- Nothing that was noted is lost. -/
theorem edge_link (hchild : T.child idx tok = none) (hj : j ≠ 0) (i : Nat) (w : List Token) (k : Nat) :
    (T.link idx tok j).graph.edge i w k ↔ T.graph.edge i w k ∨ (i = idx ∧ w = [tok] ∧ k = j) := by
  by_cases hi : i = idx
  swap
  · have hnode : (T.link idx tok j).node i = T.node i := by
      simp only [link, node_setNode, if_neg hi]
    unfold graph
    dsimp only
    rw [hnode]
    simp [hi]
  subst hi
  constructor
  · rintro (⟨u, rfl, hk, hk0⟩ | ⟨key, rfl, hmem⟩)
    · cases tok with
      | param t =>
        simp only [link, node_setNode, if_true] at hk
        split at hk
        · subst u
          exact .inr ⟨rfl, rfl, hk⟩
        · exact .inl (edge_param.mpr ⟨hk, hk0⟩)
      | literal c =>
        simp only [link, node_setNode, if_true] at hk
        exact .inl (edge_param.mpr ⟨hk, hk0⟩)
    · cases tok with
      | param t =>
        simp only [link, node_setNode, if_true] at hmem
        exact .inl (edge_key.mpr hmem)
      | literal c =>
        simp only [link, node_setNode, if_true] at hmem
        rcases List.mem_cons.mp hmem with heq | hmem
        · obtain ⟨rfl, rfl⟩ := Prod.mk.inj heq
          exact .inr ⟨rfl, rfl, rfl⟩
        · exact .inl (edge_key.mpr hmem)
  · rintro (he | ⟨-, rfl, rfl⟩)
    · have hne : w ≠ [tok] := by
        rintro rfl
        exact child_eq_none hchild k he
      rcases he with ⟨u, rfl, hk, hk0⟩ | ⟨key, rfl, hmem⟩
      · refine edge_param.mpr ⟨?_, hk0⟩
        cases tok with
        | param t =>
          have hu : u ≠ t := by
            rintro rfl
            exact hne rfl
          simp only [link, node_setNode, if_true, if_neg hu]
          exact hk
        | literal c =>
          simp only [link, node_setNode, if_true]
          exact hk
      · refine edge_key.mpr ?_
        cases tok with
        | param t =>
          simp only [link, node_setNode, if_true]
          exact hmem
        | literal c =>
          simp only [link, node_setNode, if_true]
          exact List.mem_cons_of_mem _ hmem
    · cases tok with
      | param t =>
        refine edge_param.mpr ⟨?_, hj⟩
        simp only [link, node_setNode, if_true]
      | literal c =>
        refine edge_literal.mpr ?_
        simp only [link, node_setNode, if_true]
        exact List.mem_cons_self

theorem value_link : (T.link idx tok j).graph.value = T.graph.value := by
  funext i
  unfold graph link
  cases tok <;> simp only [node_setNode] <;> split <;> simp_all

theorem link_hangs (hT : Grown T) (hidx : idx < T.size) (hchild : T.child idx tok = none) :
    Words.Hangs T.graph (({ T with size := T.size + 1 } : Trie).link idx tok T.size).graph idx tok T.size where
  value := value_link
  edge := edge_link (T := { T with size := T.size + 1 }) hchild hT.pos.ne'
  free := child_eq_none hchild
  blank := by
    rw [value_eq_none, hT.blank T.size le_rfl]
  unused := by
    rintro w k (⟨t, -, hk, hk0⟩ | ⟨key, -, hmem⟩)
    · rw [hT.blank T.size le_rfl] at hk
      exact hk0 hk
    · rw [hT.blank T.size le_rfl] at hmem
      cases hmem
  fresh := by
    intro j w he
    exact absurd (hT.up j w _ he).2 (lt_irrefl _)
  ne := hidx.ne

/-- A step of `add`: the trie spells what it did, and the child is there. -/
structure Entered (T : Trie) (idx : Nat) (toks : List Token) (T' : Trie) (j : Nat) : Prop where
  grown : Grown T'
  spells : T'.graph.Spells = T.graph.Spells
  mono : ∀ i l k, T.graph.Reaches i l k → T'.graph.Reaches i l k
  reaches : T'.graph.Reaches idx toks j
  lt : j < T'.size
  le : T.size ≤ T'.size
  leads : ∀ k, T.size ≤ k → k < T'.size → ∃ l, T'.graph.Reaches k l j

theorem enter_entered (hT : Grown T) (hidx : idx < T.size) (tok : Token) :
    Entered T idx [tok] (T.enter idx tok).1 (T.enter idx tok).2 := by
  cases hchild : T.child idx tok with
  | some j =>
    have henter : T.enter idx tok = (T, j) := by
      simp only [enter, hchild]
    rw [henter]
    have he := child_eq_some hchild
    exact ⟨hT, rfl, fun _ _ _ h => h, .edge he, (hT.up _ _ _ he).2, le_rfl, fun k hk hlt => absurd hlt (Nat.not_lt.mpr hk)⟩
  | none =>
    have henter : T.enter idx tok = (({ T with size := T.size + 1 } : Trie).link idx tok T.size, T.size) := by
      simp only [enter, hchild]
    rw [henter]
    have hhangs := link_hangs hT hidx hchild
    have hsize : (({ T with size := T.size + 1 } : Trie).link idx tok T.size).size = T.size + 1 := rfl
    dsimp only
    refine ⟨⟨hhangs.tree hT.tree hT.pos.ne', ?_, ?_, ?_⟩, hhangs.spells, fun _ _ _ h => hhangs.reaches_mono h,
      .edge hhangs.edge_new, ?_, ?_, ?_⟩
    · intro i w j he
      rcases (hhangs.edge i w j).mp he with he | ⟨rfl, -, rfl⟩
      · have hup := hT.up i w j he
        omega
      · omega
    · intro i hi
      have hne : i ≠ idx := by omega
      simp only [link, node_setNode, if_neg hne]
      exact hT.blank i (by omega)
    · omega
    · omega
    · omega
    · intro k hk hlt
      obtain rfl : k = T.size := by omega
      exact ⟨[], .here _⟩

/-- The steps of `add` along the tokens of a pattern. -/
def follow (T : Trie) (idx : Nat) : List Token → Trie × Nat
  | [] => (T, idx)
  | tok :: toks => (T.enter idx tok).1.follow (T.enter idx tok).2 toks

theorem follow_entered (hT : Grown T) (hidx : idx < T.size) (toks : List Token) :
    Entered T idx toks (T.follow idx toks).1 (T.follow idx toks).2 := by
  induction toks generalizing T idx with
  | nil => exact ⟨hT, rfl, fun _ _ _ h => h, .here idx, hidx, le_rfl,
      fun k hk hlt => absurd hlt (Nat.not_lt.mpr hk)⟩
  | cons tok toks ih =>
    have hfirst := enter_entered hT hidx tok
    have hrest := ih hfirst.grown hfirst.lt
    refine ⟨hrest.grown, hrest.spells.trans hfirst.spells, fun i l k h => hrest.mono i l k (hfirst.mono i l k h),
      (hrest.mono _ _ _ hfirst.reaches).trans hrest.reaches, hrest.lt, hfirst.le.trans hrest.le, ?_⟩
    intro k hk hlt
    by_cases hnew : k < (T.enter idx tok).1.size
    · obtain ⟨l, hl⟩ := hfirst.leads k hk hnew
      exact ⟨l ++ toks, (hrest.mono _ _ _ hl).trans hrest.reaches⟩
    · exact hrest.leads k (by omega) hlt

end Trie

/-- The tokens of a pattern, behind its first `skip` characters. There are none if `add` hangs. -/
def tokensFrom : Nat → List Char → Option (List Token)
  | _, [] => some []
  | skip + 1, _ :: s => tokensFrom skip s
  | 0, c :: s =>
    if c = '<' then
      match paramAt (c :: s) with
      | none => none
      | some (t, name) => (tokensFrom (name.length - 1) s).map (.param t :: ·)
    else (tokensFrom 0 s).map (.literal c :: ·)

def tokens (url : List Char) : Option (List Token) := tokensFrom 0 url

namespace Trie
variable {T T' : Trie} {i j k idx : Nat} {tok : Token} {toks l : List Token} {url : List Char}

theorem walk_eq (T : Trie) (idx skip : Nat) (s : List Char) :
    T.walk idx skip s = match tokensFrom skip s with
      | none => .error .hangs
      | some toks => .ok (T.follow idx toks) := by
  induction s generalizing T idx skip with
  | nil => cases skip <;> rfl
  | cons c s ih =>
    cases skip with
    | succ skip => exact ih T idx skip
    | zero =>
      unfold walk tokensFrom
      by_cases hc : c = '<'
      · rw [if_pos hc, if_pos hc]
        cases paramAt (c :: s) with
        | none => rfl
        | some x =>
          dsimp only
          rw [ih]
          cases tokensFrom (x.2.length - 1) s <;> rfl
      · rw [if_neg hc, if_neg hc, ih]
        cases tokensFrom 0 s <;> rfl

/-- Every node leads to a rule. -/
def Live (T : Trie) : Prop := ∀ k, 0 < k → k < T.size → ∃ l r, T.graph.Spells k l r

theorem add_hangs (h : tokens url = none) (T : Trie) (r : Nat) : T.add url r = .error .hangs := by
  unfold add
  rw [walk_eq, show tokensFrom 0 url = none from h]
  rfl

theorem setNode_gives {r : Nat} (hr : r ≠ 0) (h : (T.node i).ruleIndex = 0) :
    Words.Gives T.graph (T.setNode i { T.node i with ruleIndex := r }).graph i r where
  edge := by
    funext j w k
    unfold graph
    dsimp only [node_setNode]
    split <;> simp_all
  value := by
    intro k hk
    simp only [graph, node_setNode, if_neg hk]
  blank := value_eq_none.mpr h
  given := by
    rw [value_eq_some]
    simp [hr]

/-- A pattern that is spelled already is refused. -/
theorem add_throws (hT : Grown T) (h : tokens url = some toks) {s : Nat} (hs : T.graph.Spells 0 toks s) (r : Nat) :
    T.add url r = .error (.throws ("handler already exists for " ++ String.ofList url)) := by
  have hentered := follow_entered hT hT.pos toks
  rw [← hentered.spells] at hs
  obtain ⟨k, hk, hv⟩ := hs
  rw [hentered.grown.tree.reaches_functional hk hentered.reaches, value_eq_some] at hv
  unfold add
  rw [walk_eq, show tokensFrom 0 url = some toks from h]
  dsimp only [bind, Except.bind]
  rw [if_pos (by omega)]
  rfl

/-- Any other is spelled from then on, with its number. -/
theorem add_ok (hT : Grown T) (hlive : Live T) (h : tokens url = some toks) {r : Nat} (hr : r ≠ 0)
    (hs : ∀ s, ¬T.graph.Spells 0 toks s) :
    ∃ T', T.add url r = .ok T' ∧ Grown T' ∧ Live T' ∧
      ∀ l s, T'.graph.Spells 0 l s ↔ T.graph.Spells 0 l s ∨ (l = toks ∧ s = r) := by
  have hentered := follow_entered hT hT.pos toks
  generalize hf : T.follow 0 toks = p at hentered
  obtain ⟨T₁, j⟩ := p
  have hblank : (T₁.node j).ruleIndex = 0 := by
    by_contra hne
    refine hs (T₁.node j).ruleIndex ?_
    rw [← hentered.spells]
    exact ⟨j, hentered.reaches, value_eq_some.mpr ⟨rfl, hne⟩⟩
  have hgives := setNode_gives hr hblank
  have htree := hentered.grown.tree
  refine ⟨T₁.setNode j { T₁.node j with ruleIndex := r }, ?_, ⟨hgives.tree htree, ?_, ?_, hentered.grown.pos⟩, ?_, ?_⟩
  · unfold add
    rw [walk_eq, show tokensFrom 0 url = some toks from h]
    dsimp only [bind, Except.bind]
    rw [hf, if_neg (not_not.mpr hblank)]
    rfl
  · intro i w k he
    rw [hgives.edge] at he
    exact hentered.grown.up i w k he
  · intro i hi
    have hne : i ≠ j := by
      rintro rfl
      exact absurd hentered.lt (Nat.not_lt.mpr hi)
    rw [node_setNode, if_neg hne]
    exact hentered.grown.blank i hi
  · intro k hk hlt
    by_cases hnew : k < T.size
    · obtain ⟨l, s, hl⟩ := hlive k hk hnew
      rw [← hentered.spells] at hl
      obtain ⟨m, hm, hv⟩ := hl
      by_cases hmj : m = j
      · subst hmj
        exact ⟨l, r, m, hgives.reaches.mpr hm, hgives.given⟩
      · refine ⟨l, s, m, hgives.reaches.mpr hm, ?_⟩
        rw [hgives.value m hmj]
        exact hv
    · obtain ⟨l, hl⟩ := hentered.leads k (Nat.not_lt.mp hnew) hlt
      exact ⟨l, r, j, hgives.reaches.mpr hl, hgives.given⟩
  · intro l s
    rw [hgives.spells htree hentered.reaches, hentered.spells]

end Trie
end Susanow.Crow.Routing
