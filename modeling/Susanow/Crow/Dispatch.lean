import Susanow.Crow.Compacting

/-! Which rule a URL is handled by.

A pattern reads a URL from its start in one way at most (`reads`). `find` answers with the
least number whose pattern reads the URL, so that a router does what going through its rules
one after the other would do (`dispatch`). -/
namespace Susanow.Crow.Routing
open Decimal (signed)
variable {D : Type} {strtod : Strtod D}

/-- The pattern read along the URL: the parameters, if it goes up just to the end. -/
def reads (strtod : Strtod D) : List Token → List Char → RoutingParams D → Option (RoutingParams D)
  | [], [], params => some params
  | [], _ :: _, _ => none
  | .literal _ :: _, [], _ => none
  | .literal c :: toks, c' :: url, params => if c = c' then reads strtod toks url params else none
  | .param t :: toks, url, params =>
    match scan strtod t url with
    | none => none
    | some (p, rest) => reads strtod toks rest (params.push p)

theorem length_signed_le (s : List Char) : (signed s).2.length ≤ s.length := by
  unfold signed
  split <;> simp

theorem length_dropWhile_lt {p : Char → Bool} {s : List Char} (h : s.takeWhile p ≠ []) :
    (s.dropWhile p).length < s.length := by
  have hpos := List.length_pos_of_ne_nil h
  have hsplit := congrArg List.length (List.takeWhile_append_dropWhile (p := p) (l := s))
  rw [List.length_append] at hsplit
  omega

theorem strtoll_length {s rest : List Char} {v : Int} (h : strtoll s = some (v, rest)) : rest.length < s.length := by
  simp only [strtoll, Option.ite_none_left_eq_some, Option.some.injEq, Prod.mk.injEq, not_or] at h
  obtain ⟨⟨hne, -⟩, -, rfl⟩ := h
  exact (length_dropWhile_lt hne).trans_le (length_signed_le s)

theorem strtoull_length {s rest : List Char} {v : Nat} (h : strtoull s = some (v, rest)) : rest.length < s.length := by
  simp only [strtoull, Option.ite_none_left_eq_some, Option.some.injEq, Prod.mk.injEq, not_or] at h
  obtain ⟨⟨hne, -⟩, -, rfl⟩ := h
  exact (length_dropWhile_lt hne).trans_le (length_signed_le s)

/-- A parameter has one character at least. -/
theorem scan_length {t : ParamType} {url rest : List Char} {p : Param D} (h : scan strtod t url = some (p, rest)) :
    rest.length < url.length := by
  cases url with
  | nil => cases t <;> cases h
  | cons c s =>
    cases t with
    | int =>
      simp only [scan, Option.ite_none_right_eq_some, Option.map_eq_some_iff] at h
      obtain ⟨-, ⟨v, rest'⟩, hread, heq⟩ := h
      obtain ⟨-, rfl⟩ := Prod.mk.inj heq
      exact strtoll_length hread
    | uint =>
      simp only [scan, Option.ite_none_right_eq_some, Option.map_eq_some_iff] at h
      obtain ⟨-, ⟨v, rest'⟩, hread, heq⟩ := h
      obtain ⟨-, rfl⟩ := Prod.mk.inj heq
      exact strtoull_length hread
    | double =>
      simp only [scan, Option.ite_none_right_eq_some, Option.map_eq_some_iff] at h
      obtain ⟨-, ⟨v, rest'⟩, hread, heq⟩ := h
      obtain ⟨-, rfl⟩ := Prod.mk.inj heq
      exact strtod.forward _ _ _ hread
    | string =>
      simp only [scan, Option.ite_none_left_eq_some, Option.some.injEq, Prod.mk.injEq] at h
      obtain ⟨hc, -, rfl⟩ := h
      refine length_dropWhile_lt ?_
      simp [hc]
    | path =>
      obtain ⟨-, rfl⟩ := Prod.mk.inj (Option.some.inj h)
      exact Nat.succ_pos _

namespace Trie
variable {T : Trie} {i j : Nat} {toks : List Token} {url : List Char} {params : RoutingParams D}

theorem reads_literals (s : List Char) (toks : List Token) (url : List Char) (params : RoutingParams D) :
    reads strtod (s.map .literal ++ toks) url params =
      if s.isPrefixOf url then reads strtod toks (url.drop s.length) params else none := by
  induction s generalizing url with
  | nil => simp
  | cons c s ih =>
    cases url with
    | nil => rfl
    | cons c' url =>
      by_cases hc : c = c'
      · subst hc
        simp [reads, ih]
      · simp [reads, hc]

/-- What `find` is to answer: a least number among the patterns that read the URL, with what its
pattern reads; 0 if there is none. -/
structure Found (strtod : Strtod D) (T : Trie) (i : Nat) (url : List Char) (params : RoutingParams D)
    (ret : Nat × RoutingParams D) : Prop where
  reads : ret.1 ≠ 0 → ∃ toks, T.graph.Spells i toks ret.1 ∧ reads strtod toks url params = some ret.2
  least : ∀ toks r, T.graph.Spells i toks r → (Routing.reads strtod toks url params).isSome → ret.1 ≠ 0 ∧ ret.1 ≤ r

/-- The keys have letters. -/
def Keyed (T : Trie) : Prop := ∀ i, ∀ kv ∈ (T.node i).children, kv.1 ≠ []

theorem branches_length (hT : Keyed T) {b : Option (Param D) × Nat × List Char}
    (h : b ∈ T.branches strtod i url) (hne : url ≠ []) : b.2.2.length < url.length := by
  unfold branches at h
  simp only [List.mem_append, List.mem_filterMap] at h
  rcases h with ⟨t, -, ht⟩ | ⟨⟨s, j⟩, hmem, hs⟩
  · split at ht
    · cases ht
    · obtain ⟨⟨p, rest⟩, hscan, rfl⟩ := Option.map_eq_some_iff.mp ht
      exact scan_length hscan
  · split at hs
    · obtain rfl := Option.some.inj hs
      have hpos := List.length_pos_of_ne_nil (hT i _ hmem)
      have hpos' := List.length_pos_of_ne_nil hne
      simp only [List.length_drop]
      dsimp only at hpos
      omega
    · cases hs

/-- A pattern that reads the URL goes along a branch. -/
theorem branch_of_reads {r : Nat} {ps : RoutingParams D} (hspells : T.graph.Spells i toks r)
    (hreads : reads strtod toks url params = some ps) (hne : url ≠ []) :
    ∃ b ∈ T.branches strtod i url, ∃ toks', T.graph.Spells b.2.1 toks' r ∧
      reads strtod toks' b.2.2 (params.push? b.1) = some ps := by
  rcases Words.spells_iff.mp hspells with ⟨rfl, -⟩ | ⟨w, j, toks', rfl, he, hrest⟩
  · cases url with
    | nil => exact absurd rfl hne
    | cons c s => cases hreads
  rcases he with ⟨t, rfl, rfl, hj⟩ | ⟨s, rfl, hmem⟩
  · cases hscan : scan strtod t url with
    | none => simp [reads, hscan] at hreads
    | some x =>
      simp only [List.cons_append, List.nil_append, reads, hscan] at hreads
      refine ⟨(some x.1, (T.node i).paramChildrens t, x.2), ?_, toks', hrest, hreads⟩
      refine List.mem_append_left _ (List.mem_filterMap.mpr ⟨t, t.mem_all, ?_⟩)
      simp [hj, hscan]
  · rw [reads_literals] at hreads
    obtain ⟨hpre, hreads⟩ := Option.ite_none_right_eq_some.mp hreads
    refine ⟨(none, j, url.drop s.length), ?_, toks', hrest, hreads⟩
    refine List.mem_append_right _ (List.mem_filterMap.mpr ⟨(s, j), hmem, ?_⟩)
    simp [hpre]

/-- And the other way round. -/
theorem reads_of_branch {r : Nat} {ps : RoutingParams D} {b : Option (Param D) × Nat × List Char}
    (hb : b ∈ T.branches strtod i url) (hspells : T.graph.Spells b.2.1 toks r)
    (hreads : reads strtod toks b.2.2 (params.push? b.1) = some ps) :
    ∃ toks', T.graph.Spells i toks' r ∧ reads strtod toks' url params = some ps := by
  unfold branches at hb
  simp only [List.mem_append, List.mem_filterMap] at hb
  rcases hb with ⟨t, -, ht⟩ | ⟨⟨s, j⟩, hmem, hs⟩
  · split at ht
    · cases ht
    · rename_i hj
      obtain ⟨⟨p, rest⟩, hscan, rfl⟩ := Option.map_eq_some_iff.mp ht
      refine ⟨.param t :: toks,
        Words.spells_iff.mpr (.inr ⟨[.param t], _, toks, rfl, edge_param.mpr ⟨rfl, hj⟩, hspells⟩), ?_⟩
      simp only [reads, hscan]
      exact hreads
  · split at hs
    · rename_i hpre
      obtain rfl := Option.some.inj hs
      refine ⟨s.map .literal ++ toks, Words.spells_iff.mpr (.inr ⟨_, j, toks, rfl, edge_key.mpr hmem, hspells⟩), ?_⟩
      rw [reads_literals, if_pos hpre]
      exact hreads
    · cases hs

/-- The loop over the branches keeps a least number. -/
theorem foldlM_updateFound {β : Type} {bs : List β} {call : β → Option (Nat × RoutingParams D)}
    (hcall : ∀ b ∈ bs, ∃ ret, call b = some ret) (found : Nat × RoutingParams D) :
    ∃ ret, bs.foldlM (fun found b => do
        let ret ← call b
        pure (updateFound found ret)) found = some ret ∧
      (ret.1 ≠ 0 → ret = found ∨ ∃ b ∈ bs, call b = some ret) ∧
      (found.1 ≠ 0 → ret.1 ≠ 0 ∧ ret.1 ≤ found.1) ∧
      ∀ b ∈ bs, ∀ ret', call b = some ret' → ret'.1 ≠ 0 → ret.1 ≠ 0 ∧ ret.1 ≤ ret'.1 := by
  induction bs generalizing found with
  | nil => exact ⟨found, rfl, fun _ => .inl rfl, fun h => ⟨h, le_rfl⟩, fun _ hb => absurd hb List.not_mem_nil⟩
  | cons b bs ih =>
    obtain ⟨one, hone⟩ := hcall b List.mem_cons_self
    obtain ⟨ret, hfold, hsource, hle, hleast⟩ :=
      ih (fun b hb => hcall b (List.mem_cons_of_mem _ hb)) (updateFound found one)
    have hupdate : (updateFound found one = found ∧ (one.1 ≠ 0 → found.1 ≠ 0 ∧ found.1 ≤ one.1)) ∨
        (updateFound found one = one ∧ one.1 ≠ 0 ∧ (found.1 ≠ 0 → one.1 ≤ found.1)) := by
      unfold updateFound
      split
      · rename_i h
        exact .inr ⟨rfl, h.1, fun h0 => by omega⟩
      · rename_i h
        exact .inl ⟨rfl, fun h0 => by omega⟩
    refine ⟨ret, ?_, ?_, ?_, ?_⟩
    · rw [List.foldlM_cons, hone]
      exact hfold
    · intro h0
      rcases hsource h0 with rfl | ⟨b', hb', hret⟩
      · rcases hupdate with ⟨heq, -⟩ | ⟨heq, -⟩
        · exact .inl heq
        · rw [heq]
          exact .inr ⟨b, List.mem_cons_self, hone⟩
      · exact .inr ⟨b', List.mem_cons_of_mem _ hb', hret⟩
    · intro h0
      rcases hupdate with ⟨heq, -⟩ | ⟨heq, hne, hlt⟩
      · rw [heq] at hle
        exact hle h0
      · rw [heq] at hle
        exact ⟨(hle hne).1, (hle hne).2.trans (hlt h0)⟩
    · intro b' hb' ret' hret h0
      rcases List.mem_cons.mp hb' with rfl | hb'
      · obtain rfl := Option.some.inj (hone.symm.trans hret)
        rcases hupdate with ⟨heq, hlt⟩ | ⟨heq, -⟩
        · rw [heq] at hle
          exact ⟨(hle (hlt h0).1).1, (hle (hlt h0).1).2.trans (hlt h0).2⟩
        · rw [heq] at hle
          exact hle h0
      · exact hleast b' hb' ret' hret h0

/-- By induction on the bound, which the URL does not reach. -/
theorem findFrom_found (hT : Keyed T) {f : Nat} (hf : url.length < f) (i : Nat) (params : RoutingParams D) :
    ∃ ret, T.findFrom strtod f i url params = some ret ∧ Found strtod T i url params ret := by
  induction f generalizing url i params with
  | zero => omega
  | succ f ih =>
    cases url with
    | nil =>
      refine ⟨_, rfl, ?_, ?_⟩
      · intro h0
        exact ⟨[], Words.spells_iff.mpr (.inl ⟨rfl, value_eq_some.mpr ⟨rfl, h0⟩⟩), rfl⟩
      · intro toks r hspells hreads
        rcases Words.spells_iff.mp hspells with ⟨rfl, hv⟩ | ⟨w, j, toks', rfl, he, -⟩
        · obtain ⟨hr, h0⟩ := value_eq_some.mp hv
          exact ⟨hr ▸ h0, hr.le⟩
        · rcases he with ⟨t, rfl, -⟩ | ⟨s, rfl, hmem⟩
          · cases t <;> cases hreads
          · rw [reads_literals] at hreads
            have hne := hT i _ hmem
            cases s with
            | nil => exact absurd rfl hne
            | cons c s => cases hreads
    | cons c s =>
      have hcall : ∀ b ∈ T.branches strtod i (c :: s), ∃ ret,
          T.findFrom strtod f b.2.1 b.2.2 (params.push? b.1) = some ret ∧
            Found strtod T b.2.1 b.2.2 (params.push? b.1) ret := by
        intro b hb
        have hlen := branches_length hT hb (List.cons_ne_nil c s)
        exact ih (by omega) b.2.1 (params.push? b.1)
      obtain ⟨ret, hfold, hsource, -, hleast⟩ := foldlM_updateFound (D := D)
        (fun b hb => (hcall b hb).imp fun _ h => h.1) (0, {})
      refine ⟨ret, hfold, ?_, ?_⟩
      · intro h0
        rcases hsource h0 with rfl | ⟨b, hb, hret⟩
        · exact absurd rfl h0
        · obtain ⟨ret', hret', hfound⟩ := hcall b hb
          obtain rfl := Option.some.inj (hret'.symm.trans hret)
          obtain ⟨toks, hspells, hreads⟩ := hfound.reads h0
          exact reads_of_branch hb hspells hreads
      · intro toks r hspells hreads
        obtain ⟨ps, hps⟩ := Option.isSome_iff_exists.mp hreads
        obtain ⟨b, hb, toks', hspells', hreads'⟩ := branch_of_reads hspells hps (List.cons_ne_nil c s)
        obtain ⟨ret', hret', hfound⟩ := hcall b hb
        obtain ⟨h0, hle⟩ := hfound.least toks' r hspells' (Option.isSome_iff_exists.mpr ⟨ps, hreads'⟩)
        obtain ⟨hne, hle'⟩ := hleast b hb ret' hret' h0
        exact ⟨hne, hle'.trans hle⟩

theorem find_found (hT : Keyed T) (url : List Char) :
    ∃ ret, T.find strtod url = some ret ∧ Found strtod T 0 url {} ret :=
  findFrom_found hT (Nat.lt_succ_self _) 0 {}

end Trie

/-! ### The rules of a router -/

/-- What a rule puts in the trie. -/
def Rule.patterns (r : Rule) : List (List Char) := r.rule :: if r.directory then [r.rule.dropLast] else []

def patterns (rules : List Rule) : List (List Char) := rules.flatMap Rule.patterns

/-- The pattern can be read, and its first token is a letter. -/
def startsPlain (pattern : List Char) : Bool :=
  match tokens pattern with
  | some (.literal _ :: _) => true
  | _ => false

/-- No two patterns have the same tokens, whatever the names of their parameters. -/
def Admissible (rules : List Rule) : Prop :=
  (∀ p ∈ patterns rules, startsPlain p = true) ∧ ((patterns rules).map tokens).Nodup

instance (rules : List Rule) : Decidable (Admissible rules) := inferInstanceAs (Decidable (_ ∧ _))

/-- What one pattern reads of a URL. -/
def readsUrl (strtod : Strtod D) (pattern url : List Char) : Option (RoutingParams D) :=
  (tokens pattern).bind fun toks => reads strtod toks url {}

/-- The rules are tried in turn. A URL that lacks the slash of any of them is sent to itself
with a slash first. -/
def dispatch (strtod : Strtod D) (rules : List Rule) (req : Request) : Outcome D :=
  if rules.any fun r => r.directory && (readsUrl strtod r.rule.dropLast req.url).isSome then .redirect req.location
  else
    match rules.findSome? fun r => (readsUrl strtod r.rule req.url).map (r, ·) with
    | none => .notFound
    | some (r, params) => if r.methods.testBit req.method then .handler r params else .notFound

/-- The patterns with their numbers, in the order in which they are added. -/
def Rule.insertions (r : Rule) (n : Nat) : List (List Char × Nat) :=
  (r.rule, n) :: if r.directory then [(r.rule.dropLast, ruleSpecialRedirectSlash)] else []

def insertions (rules : List Rule) : List (List Char × Nat) :=
  (rules.zipIdx 2).flatMap fun x => x.1.insertions x.2

theorem insertions_append (rules : List Rule) (r : Rule) :
    insertions (rules ++ [r]) = insertions rules ++ r.insertions (rules.length + 2) := by
  simp [insertions, List.zipIdx_append, Nat.add_comm]

theorem map_fst_insertions (rules : List Rule) : (insertions rules).map Prod.fst = patterns rules := by
  induction rules using List.reverseRecOn with
  | nil => rfl
  | append_singleton rules r ih =>
    have hone : (r.insertions (rules.length + 2)).map Prod.fst = r.patterns := by
      unfold Rule.insertions Rule.patterns
      split <;> rfl
    rw [insertions_append, List.map_append, ih, hone]
    simp [patterns]

theorem mem_insertions {rules : List Rule} {p : List Char} {n : Nat} :
    (p, n) ∈ insertions rules ↔ (∃ k r, rules[k]? = some r ∧ p = r.rule ∧ n = k + 2) ∨
      (n = 1 ∧ ∃ r ∈ rules, r.directory = true ∧ p = r.rule.dropLast) := by
  unfold insertions Rule.insertions
  simp only [List.mem_flatMap, Prod.exists, List.mem_cons, Prod.mk.injEq]
  constructor
  · rintro ⟨r, k, hk, ⟨rfl, rfl⟩ | hslash⟩
    · obtain ⟨hle, hk⟩ := List.mk_mem_zipIdx_iff_le_and_getElem?_sub.mp hk
      exact .inl ⟨n - 2, r, hk, rfl, by omega⟩
    · split at hslash
      · rename_i hdir
        obtain ⟨rfl, rfl⟩ := Prod.mk.inj (List.mem_singleton.mp hslash)
        obtain ⟨-, hk⟩ := List.mk_mem_zipIdx_iff_le_and_getElem?_sub.mp hk
        exact .inr ⟨rfl, r, List.mem_of_getElem? hk, hdir, rfl⟩
      · cases hslash
  · rintro (⟨k, r, hk, rfl, rfl⟩ | ⟨rfl, r, hr, hdir, rfl⟩)
    · refine ⟨r, k + 2, List.mk_mem_zipIdx_iff_le_and_getElem?_sub.mpr ⟨by omega, hk⟩, .inl ⟨rfl, rfl⟩⟩
    · obtain ⟨k, hk⟩ := List.getElem?_of_mem hr
      refine ⟨r, k + 2, List.mk_mem_zipIdx_iff_le_and_getElem?_sub.mpr ⟨by omega, hk⟩, .inr ?_⟩
      rw [if_pos hdir]
      exact List.mem_singleton_self _

/-! ### Building -/

namespace Trie
variable {T : Trie}

def addAll (T : Trie) (ps : List (List Char × Nat)) : Except Refusal Trie := ps.foldlM (fun T p => T.add p.1 p.2) T

/-- As patterns are added one after the other: they spell themselves. -/
structure Holds (T : Trie) (ps : List (List Char × Nat)) : Prop where
  grown : Grown T
  live : Live T
  spells : ∀ l s, T.graph.Spells 0 l s ↔ ∃ p ∈ ps, tokens p.1 = some l ∧ s = p.2

theorem holds_nil : Holds {} [] := by
  refine ⟨grown_empty, ?_, ?_⟩
  · intro k hk hlt
    exact absurd hlt (Nat.not_lt.mpr hk)
  · intro l s
    constructor
    · intro h
      rcases Words.spells_iff.mp h with ⟨-, hv⟩ | ⟨w, j, -, -, he, -⟩
      · cases hv
      · have hup : 0 < j ∧ j < 1 := grown_empty.up 0 w j he
        omega
    · rintro ⟨p, hp, -⟩
      cases hp

/-- Every pattern can be read, and no two of them have the same tokens. -/
def Apart (ps : List (List Char × Nat)) : Prop :=
  (∀ p ∈ ps, tokens p.1 ≠ none) ∧ (ps.map fun p => tokens p.1).Nodup

theorem apart_append {ps : List (List Char × Nat)} {p : List Char × Nat} :
    Apart (ps ++ [p]) ↔ Apart ps ∧ tokens p.1 ≠ none ∧ ∀ q ∈ ps, tokens q.1 ≠ tokens p.1 := by
  unfold Apart
  simp only [List.mem_append, List.mem_singleton, List.map_append, List.map_cons, List.map_nil, List.nodup_append,
    List.nodup_singleton, List.mem_map]
  constructor
  · rintro ⟨hall, hnodup, -, hdisj⟩
    exact ⟨⟨fun q hq => hall q (.inl hq), hnodup⟩, hall p (.inr rfl), fun q hq => hdisj _ ⟨q, hq, rfl⟩ _ rfl⟩
  · rintro ⟨⟨hall, hnodup⟩, hp, hne⟩
    refine ⟨?_, hnodup, trivial, ?_⟩
    · rintro q (hq | rfl)
      · exact hall q hq
      · exact hp
    · rintro _ ⟨q, hq, rfl⟩ _ rfl
      exact hne q hq

/-- All is added, or something is refused. -/
theorem addAll_spec (ps : List (List Char × Nat)) (hps : ∀ p ∈ ps, p.2 ≠ 0) :
    (Apart ps ∧ ∃ T, addAll {} ps = .ok T ∧ Holds T ps) ∨ (¬Apart ps ∧ ∃ e, addAll {} ps = .error e) := by
  induction ps using List.reverseRecOn with
  | nil => exact .inl ⟨⟨fun p hp => absurd hp List.not_mem_nil, List.nodup_nil⟩, {}, rfl, holds_nil⟩
  | append_singleton ps p ih =>
    have hstep : addAll {} (ps ++ [p]) = addAll {} ps >>= fun T => T.add p.1 p.2 := by
      unfold addAll
      rw [List.foldlM_append]
      simp
    rw [apart_append, hstep]
    rcases ih fun q hq => hps q (List.mem_append_left _ hq) with ⟨hapart, T, hT, hholds⟩ | ⟨hapart, e, he⟩
    · rw [hT]
      show _ ∨ _ ∧ ∃ e, T.add p.1 p.2 = .error e
      cases htoks : tokens p.1 with
      | none => exact .inr ⟨fun h => h.2.1 rfl, _, add_hangs htoks T p.2⟩
      | some toks =>
        by_cases hq : ∃ q ∈ ps, tokens q.1 = some toks
        · obtain ⟨q, hq, hqt⟩ := hq
          exact .inr ⟨fun h => h.2.2 q hq hqt,
            _, add_throws hholds.grown htoks ((hholds.spells toks q.2).mpr ⟨q, hq, hqt, rfl⟩) p.2⟩
        · have hfresh : ∀ s, ¬T.graph.Spells 0 toks s := by
            intro s hs
            obtain ⟨q, hmem, hqt, -⟩ := (hholds.spells toks s).mp hs
            exact hq ⟨q, hmem, hqt⟩
          obtain ⟨T', hadd, hgrown, hlive, hspells⟩ := add_ok hholds.grown hholds.live htoks
            (hps p (List.mem_append_right _ List.mem_cons_self)) hfresh
          refine .inl ⟨⟨hapart, Option.some_ne_none _, fun q hmem hqt => hq ⟨q, hmem, hqt⟩⟩, T', hadd, hgrown, hlive, ?_⟩
          intro l s
          rw [hspells, hholds.spells]
          simp only [List.mem_append, List.mem_singleton]
          constructor
          · rintro (⟨q, hmem, hq⟩ | ⟨rfl, rfl⟩)
            · exact ⟨q, .inl hmem, hq⟩
            · exact ⟨p, .inr rfl, htoks, rfl⟩
          · rintro ⟨q, hmem | rfl, hqt, hs⟩
            · exact .inl ⟨q, hmem, hqt, hs⟩
            · exact .inr ⟨Option.some.inj (hqt.symm.trans htoks), hs⟩
    · rw [he]
      exact .inr ⟨fun h => hapart h.1, e, rfl⟩

end Trie

theorem addRule_eq (rules : List Rule) (T : Trie) (r : Rule) :
    Router.addRule ⟨rules, T⟩ r = (T.addAll (r.insertions (rules.length + 2))).map fun T => ⟨rules ++ [r], T⟩ := by
  unfold Router.addRule Rule.insertions Trie.addAll
  rw [List.foldlM_cons]
  dsimp only
  cases T.add r.rule (rules.length + 2) with
  | error e => rfl
  | ok T₁ =>
    show (do
      let T ← if r.directory then T₁.add r.rule.dropLast ruleSpecialRedirectSlash else pure T₁
      pure ({ rules := rules ++ [r], trie := T } : Router)) = _
    split
    · show _ = Except.map _ (T₁.add r.rule.dropLast ruleSpecialRedirectSlash >>= pure)
      cases T₁.add r.rule.dropLast ruleSpecialRedirectSlash <;> rfl
    · rfl

theorem foldlM_addRule (rules : List Rule) :
    rules.foldlM Router.addRule {} = (Trie.addAll {} (insertions rules)).map fun T => ⟨rules, T⟩ := by
  induction rules using List.reverseRecOn with
  | nil => rfl
  | append_singleton rules r ih =>
    have hsplit : Trie.addAll {} (insertions rules ++ r.insertions (rules.length + 2)) =
        Trie.addAll {} (insertions rules) >>= fun T => T.addAll (r.insertions (rules.length + 2)) :=
      List.foldlM_append
    rw [List.foldlM_append, ih, insertions_append, hsplit]
    cases Trie.addAll {} (insertions rules) with
    | error e => rfl
    | ok T =>
      show (Router.addRule ⟨rules, T⟩ r >>= pure) = (T.addAll (r.insertions (rules.length + 2))).map _
      rw [bind_pure, addRule_eq]

theorem startsPlain_iff {p : List Char} :
    startsPlain p = true ↔ ∃ c toks, tokens p = some (.literal c :: toks) := by
  unfold startsPlain
  split
  · rename_i c toks heq
    simp [heq]
  · rename_i hno
    simp only [Bool.false_eq_true, false_iff]
    rintro ⟨c, toks, heq⟩
    exact hno c toks heq

/-- The head is simple if no pattern is empty or starts with a parameter. -/
theorem head_isSimple_iff {T : Trie} {ps : List (List Char × Nat)} (h : T.Holds ps) (hapart : Trie.Apart ps)
    (hps : ∀ p ∈ ps, p.2 ≠ 0) : (T.node 0).isSimple = true ↔ ∀ p ∈ ps, startsPlain p.1 = true := by
  rw [Trie.isSimple_iff]
  constructor
  · rintro ⟨hrule, hparams⟩ p hp
    obtain ⟨toks, htoks⟩ := Option.ne_none_iff_exists'.mp (hapart.1 p hp)
    have hspells := (h.spells toks p.2).mpr ⟨p, hp, htoks, rfl⟩
    rw [startsPlain_iff]
    rcases Words.spells_iff.mp hspells with ⟨-, hv⟩ | ⟨w, j, toks', rfl, he, -⟩
    · rw [Trie.value_eq_some, hrule] at hv
      exact absurd hv.1.symm (hps p hp)
    · obtain ⟨tok, rfl⟩ := h.grown.tree.letter 0 w j he
      cases tok with
      | param t =>
        obtain ⟨hj, hj0⟩ := Trie.edge_param.mp he
        exact absurd (hj.trans (hparams t)) hj0
      | literal c => exact ⟨c, toks', htoks⟩
  · intro hplain
    have hno : ∀ l s, T.graph.Spells 0 l s → ∃ c toks, l = .literal c :: toks := by
      intro l s hl
      obtain ⟨p, hp, hpt, -⟩ := (h.spells l s).mp hl
      obtain ⟨c, toks, heq⟩ := startsPlain_iff.mp (hplain p hp)
      exact ⟨c, toks, Option.some.inj (hpt.symm.trans heq)⟩
    refine ⟨?_, ?_⟩
    · by_contra h0
      obtain ⟨c, toks, heq⟩ := hno [] _ (Words.spells_iff.mpr (.inl ⟨rfl, Trie.value_eq_some.mpr ⟨rfl, h0⟩⟩))
      cases heq
    · intro t
      by_contra h0
      have he : T.graph.edge 0 [.param t] ((T.node 0).paramChildrens t) := Trie.edge_param.mpr ⟨rfl, h0⟩
      have hup := h.grown.up 0 _ _ he
      obtain ⟨l, s, hl⟩ := h.live _ hup.1 hup.2
      obtain ⟨c, toks, heq⟩ := hno (.param t :: l) s (Words.spells_iff.mpr (.inr ⟨_, _, l, rfl, he, hl⟩))
      cases heq

theorem insertions_ne_zero (rules : List Rule) : ∀ p ∈ insertions rules, p.2 ≠ 0 := by
  rintro ⟨p, n⟩ hp
  rcases mem_insertions.mp hp with ⟨k, r, -, -, rfl⟩ | ⟨rfl, -⟩
  · exact Nat.succ_ne_zero _
  · exact Nat.one_ne_zero

theorem admissible_iff {rules : List Rule} :
    Admissible rules ↔ Trie.Apart (insertions rules) ∧ ∀ p ∈ insertions rules, startsPlain p.1 = true := by
  have hmap : (insertions rules).map (fun p => tokens p.1) = (patterns rules).map tokens := by
    rw [← map_fst_insertions, List.map_map]
    rfl
  have hall (P : List Char → Prop) : (∀ p ∈ patterns rules, P p) ↔ ∀ p ∈ insertions rules, P p.1 := by
    rw [← map_fst_insertions, List.forall_mem_map]
  unfold Admissible Trie.Apart
  rw [hmap, hall]
  constructor
  · rintro ⟨hplain, hnodup⟩
    refine ⟨⟨fun p hp hnone => ?_, hnodup⟩, hplain⟩
    obtain ⟨c, toks, heq⟩ := startsPlain_iff.mp (hplain p hp)
    rw [hnone] at heq
    cases heq
  · rintro ⟨⟨-, hnodup⟩, hplain⟩
    exact ⟨hplain, hnodup⟩

/-- What has been built: the patterns are spelled, and keys have letters. -/
theorem build_spec (rules : List Rule) :
    (Admissible rules ∧ ∃ T, Router.build rules = .ok ⟨rules, T⟩ ∧ T.Keyed ∧
      ∀ l s, T.graph.Spells 0 l s ↔ ∃ p ∈ insertions rules, tokens p.1 = some l ∧ s = p.2) ∨
    (¬Admissible rules ∧ ∃ e, Router.build rules = .error e) := by
  have hps := insertions_ne_zero rules
  unfold Router.build
  rw [foldlM_addRule, admissible_iff]
  rcases Trie.addAll_spec (insertions rules) hps with ⟨hapart, T, hT, hholds⟩ | ⟨hapart, e, he⟩
  · rw [hT]
    show _ ∧ (∃ T', (T.validate >>= fun T' => pure (⟨rules, T'⟩ : Router)) = _ ∧ _) ∨
      _ ∧ ∃ e, (T.validate >>= fun T' => pure (⟨rules, T'⟩ : Router)) = _
    unfold Trie.validate
    by_cases hplain : ∀ p ∈ insertions rules, startsPlain p.1 = true
    · rw [if_pos ((head_isSimple_iff hholds hapart hps).mpr hplain)]
      obtain ⟨T', hcall, hordered, hspells⟩ := Trie.optimize_spells hholds.grown.ordered hholds.grown.pos
      rw [hcall]
      refine .inl ⟨⟨hapart, hplain⟩, T', rfl, hordered.nonempty, ?_⟩
      rw [hspells]
      exact hholds.spells
    · rw [if_neg fun h => hplain ((head_isSimple_iff hholds hapart hps).mp h)]
      exact .inr ⟨fun h => hplain h.2, _, rfl⟩
  · rw [he]
    exact .inr ⟨fun h => hapart h.1, e, rfl⟩

theorem readsUrl_eq_some {p url : List Char} {ps : RoutingParams D} :
    readsUrl strtod p url = some ps ↔ ∃ toks, tokens p = some toks ∧ reads strtod toks url {} = some ps :=
  Option.bind_eq_some_iff

section
variable {rules : List Rule} {T : Trie} {url : List Char} {ret : Nat × RoutingParams D}

/-- What is found is the number of a pattern, with what the pattern reads. -/
theorem found_pattern (hT : ∀ l s, T.graph.Spells 0 l s ↔ ∃ p ∈ insertions rules, tokens p.1 = some l ∧ s = p.2)
    (hfound : T.Found strtod 0 url {} ret) (h0 : ret.1 ≠ 0) :
    ∃ p, (p, ret.1) ∈ insertions rules ∧ readsUrl strtod p url = some ret.2 := by
  obtain ⟨toks, hspells, hreads⟩ := hfound.reads h0
  obtain ⟨⟨p, n⟩, hp, htoks, hn⟩ := (hT toks ret.1).mp hspells
  exact ⟨p, hn ▸ hp, readsUrl_eq_some.mpr ⟨toks, htoks, hreads⟩⟩

theorem found_le (hT : ∀ l s, T.graph.Spells 0 l s ↔ ∃ p ∈ insertions rules, tokens p.1 = some l ∧ s = p.2)
    (hfound : T.Found strtod 0 url {} ret) {p : List Char} {n : Nat} (hp : (p, n) ∈ insertions rules)
    {ps : RoutingParams D} (hreads : readsUrl strtod p url = some ps) : ret.1 ≠ 0 ∧ ret.1 ≤ n := by
  obtain ⟨toks, htoks, hreads⟩ := readsUrl_eq_some.mp hreads
  exact hfound.least toks n ((hT toks n).mpr ⟨(p, n), hp, htoks, rfl⟩) (Option.isSome_iff_exists.mpr ⟨ps, hreads⟩)

end

/-- A router that was built does what trying its rules in turn does. -/
theorem handle_eq_dispatch {rules : List Rule} {R : Router} (h : Router.build rules = .ok R) (strtod : Strtod D)
    (req : Request) : R.handle strtod req = some (dispatch strtod rules req) := by
  rcases build_spec rules with ⟨-, T, hbuild, hkeyed, hT⟩ | ⟨-, e, he⟩
  swap
  · rw [he] at h
    cases h
  obtain rfl := Except.ok.inj (h.symm.trans hbuild)
  obtain ⟨ret, hfind, hfound⟩ : ∃ ret, T.find strtod req.url = some ret ∧ _ := Trie.find_found hkeyed req.url
  unfold Router.handle dispatch
  rw [show T.find strtod req.url = some ret from hfind]
  show (if ret.1 = 0 then some (Outcome.notFound : Outcome D) else _) = _
  by_cases hany : (rules.any fun r => r.directory && (readsUrl strtod r.rule.dropLast req.url).isSome) = true
  · rw [if_pos hany]
    obtain ⟨r, hr, hboth⟩ := List.any_eq_true.mp hany
    obtain ⟨hdir, hsome⟩ := Bool.and_eq_true_iff.mp hboth
    obtain ⟨ps, hps⟩ := Option.isSome_iff_exists.mp hsome
    obtain ⟨h0, hle⟩ := found_le hT hfound (mem_insertions.mpr (.inr ⟨rfl, r, hr, hdir, rfl⟩)) hps
    have h1 : ret.1 = ruleSpecialRedirectSlash := by
      unfold ruleSpecialRedirectSlash
      omega
    rw [if_neg h0, if_neg (by omega), if_pos h1]
    rfl
  rw [if_neg hany]
  have hnumber : ret.1 ≠ 0 → ∃ k r, rules[k]? = some r ∧ ret.1 = k + 2 ∧ readsUrl strtod r.rule req.url = some ret.2 := by
    intro h0
    obtain ⟨p, hp, hreads⟩ := found_pattern hT hfound h0
    rcases mem_insertions.mp hp with ⟨k, r, hk, rfl, hn⟩ | ⟨-, r, hr, hdir, rfl⟩
    · exact ⟨k, r, hk, hn, hreads⟩
    · refine absurd (List.any_eq_true.mpr ⟨r, hr, ?_⟩) hany
      rw [hdir, hreads]
      rfl
  cases hsome : rules.findSome? fun r => (readsUrl strtod r.rule req.url).map (r, ·) with
  | none =>
    have h0 : ret.1 = 0 := by
      by_contra h0
      obtain ⟨k, r, hk, -, hreads⟩ := hnumber h0
      have hno := List.findSome?_eq_none_iff.mp hsome r (List.mem_of_getElem? hk)
      rw [hreads] at hno
      cases hno
    rw [if_pos h0]
  | some x =>
    obtain ⟨before, r, after, rfl, hr, hbefore⟩ := List.findSome?_eq_some_iff.mp hsome
    obtain ⟨ps, hps, rfl⟩ := Option.map_eq_some_iff.mp hr
    have hthere : (before ++ r :: after)[before.length]? = some r := by
      rw [List.getElem?_append_right le_rfl, Nat.sub_self]
      rfl
    obtain ⟨h0, hle⟩ := found_le hT hfound (mem_insertions.mpr (.inl ⟨_, r, hthere, rfl, rfl⟩)) hps
    obtain ⟨k, r', hk, hnum, hreads⟩ := hnumber h0
    -- a rule before the first that reads the URL does not read it
    have hk' : k = before.length := by
      by_contra hne
      have hlt : k < before.length := by omega
      rw [List.getElem?_append_left hlt] at hk
      have hno := hbefore r' (List.mem_of_getElem? hk)
      rw [hreads] at hno
      cases hno
    subst hk'
    obtain rfl := Option.some.inj (hk.symm.trans hthere)
    obtain rfl := Option.some.inj (hreads.symm.trans hps)
    have hlen : ¬(before ++ r' :: after).length + 2 ≤ ret.1 := by
      rw [List.length_append, List.length_cons]
      omega
    have h1 : ret.1 ≠ ruleSpecialRedirectSlash := by
      unfold ruleSpecialRedirectSlash
      omega
    rw [if_neg h0, if_neg hlen, if_neg h1, show ret.1 - 2 = before.length by omega, hthere]
    rfl

/-- **A router starts exactly if its rules are admissible**, and then handles every request as if it
tried them in turn. -/
theorem starts_iff_admissible (rules : List Rule) :
    (∃ R, Router.build rules = .ok R ∧
      ∀ (D : Type) (strtod : Strtod D) (req : Request), R.handle strtod req = some (dispatch strtod rules req)) ∧
        Admissible rules ∨
    (∃ e, Router.build rules = .error e) ∧ ¬Admissible rules := by
  rcases build_spec rules with ⟨hadm, T, hT, -⟩ | ⟨hadm, he⟩
  · exact .inl ⟨⟨_, hT, fun _ strtod req => handle_eq_dispatch hT strtod req⟩, hadm⟩
  · exact .inr ⟨he, hadm⟩

/-! ### Patterns that never meet -/

/-- The patterns part at letters, at a slash that no string goes over, or as one of them ends. -/
def diverge : List Token → List Token → Bool
  | [], _ :: _ => true
  | _ :: _, [] => true
  | .literal c :: a, .literal d :: b => c != d || diverge a b
  | .param .string :: _, .literal '/' :: _ => true
  | .literal '/' :: _, .param .string :: _ => true
  | .param t :: a, .param u :: b => t == u && diverge a b
  | _, _ => false

section
variable {a b : List Token} {url : List Char} {params params' : RoutingParams D}

theorem eq_nil_of_reads (h : (reads strtod [] url params).isSome = true) : url = [] := by
  cases url with
  | nil => rfl
  | cons c s => cases h

theorem reads_literal {c : Char} (h : (reads strtod (.literal c :: a) url params).isSome = true) :
    ∃ s, url = c :: s ∧ (reads strtod a s params).isSome = true := by
  cases url with
  | nil => cases h
  | cons c' s =>
    unfold reads at h
    split at h
    · rename_i hc
      exact ⟨s, by rw [hc], h⟩
    · cases h

theorem reads_param {t : ParamType} (h : (reads strtod (.param t :: a) url params).isSome = true) :
    ∃ p rest, scan strtod t url = some (p, rest) ∧ (reads strtod a rest (params.push p)).isSome = true := by
  unfold reads at h
  split at h
  · cases h
  · exact ⟨_, _, by assumption, h⟩

theorem ne_nil_of_reads_cons {x : Token} (h : (reads strtod (x :: a) url params).isSome = true) : url ≠ [] := by
  rintro rfl
  cases x with
  | literal c => cases h
  | param t => cases t <;> cases h

/-- Then no URL is read by both. -/
theorem not_reads_of_diverge (h : diverge a b = true) (ha : (reads strtod a url params).isSome = true) :
    ¬(reads strtod b url params').isSome = true := by
  intro hb
  induction a, b using diverge.induct generalizing url params params' with
  | case1 x b => exact ne_nil_of_reads_cons hb (eq_nil_of_reads ha)
  | case2 x a => exact ne_nil_of_reads_cons ha (eq_nil_of_reads hb)
  | case3 c a d b ih =>
    obtain ⟨s, rfl, hrest⟩ := reads_literal ha
    obtain ⟨s', heq, hrest'⟩ := reads_literal hb
    obtain ⟨rfl, rfl⟩ := List.cons.inj heq
    rw [diverge, bne_self_eq_false, Bool.false_or] at h
    exact ih h hrest hrest'
  | case4 a b =>
    obtain ⟨s, rfl, -⟩ := reads_literal hb
    obtain ⟨p, rest, hscan, -⟩ := reads_param ha
    cases hscan
  | case5 a b =>
    obtain ⟨s, rfl, -⟩ := reads_literal ha
    obtain ⟨p, rest, hscan, -⟩ := reads_param hb
    cases hscan
  | case6 t a u b ih =>
    rw [diverge, Bool.and_eq_true, beq_iff_eq] at h
    obtain ⟨rfl, h⟩ := h
    obtain ⟨p, rest, hscan, hrest⟩ := reads_param ha
    obtain ⟨p', rest', hscan', hrest'⟩ := reads_param hb
    obtain ⟨rfl, rfl⟩ := Prod.mk.inj (Option.some.inj (hscan.symm.trans hscan'))
    exact ih h hrest hrest'
  | case7 a b h1 h2 h3 h4 h5 h6 =>
    rw [diverge] at h
    · cases h
    all_goals assumption

end

/-- No URL is read by two of the rules. -/
def Separate (strtod : Strtod D) (rules : List Rule) : Prop :=
  rules.Pairwise fun r r' => ∀ url, (readsUrl strtod r.rule url).isSome = true → ¬(readsUrl strtod r'.rule url).isSome = true

/-- The patterns of two rules part. -/
def Rule.diverges (r r' : Rule) : Bool :=
  match tokens r.rule, tokens r'.rule with
  | some a, some b => diverge a b
  | _, _ => true

theorem separate_of_diverges {rules : List Rule} (h : rules.Pairwise fun r r' => r.diverges r' = true) :
    Separate strtod rules := by
  refine h.imp fun {r r'} hdiv url hr hr' => ?_
  obtain ⟨ps, hps⟩ := Option.isSome_iff_exists.mp hr
  obtain ⟨ps', hps'⟩ := Option.isSome_iff_exists.mp hr'
  obtain ⟨a, ha, hreads⟩ := readsUrl_eq_some.mp hps
  obtain ⟨b, hb, hreads'⟩ := readsUrl_eq_some.mp hps'
  simp only [Rule.diverges, ha, hb] at hdiv
  exact not_reads_of_diverge hdiv (Option.isSome_iff_exists.mpr ⟨ps, hreads⟩) (Option.isSome_iff_exists.mpr ⟨ps', hreads'⟩)

/-- The one rule that reads a URL is found wherever it stands. -/
theorem Separate.findSome? {rules : List Rule} (h : Separate strtod rules) {r : Rule} (hr : r ∈ rules)
    {url : List Char} {ps : RoutingParams D} (hps : readsUrl strtod r.rule url = some ps) :
    rules.findSome? (fun r => (readsUrl strtod r.rule url).map (r, ·)) = some (r, ps) := by
  induction rules with
  | nil => cases hr
  | cons r' rules ih =>
    obtain ⟨hhead, htail⟩ := List.pairwise_cons.mp h
    rcases List.mem_cons.mp hr with rfl | hr
    · rw [List.findSome?_cons, hps]
      rfl
    · have hnone : readsUrl strtod r'.rule url = none := by
        by_contra hne
        refine hhead r hr url (Option.isSome_iff_ne_none.mpr hne) ?_
        rw [hps]
        rfl
      rw [List.findSome?_cons, hnone]
      exact ih htail hr

theorem Separate.perm {rules rules' : List Rule} (h : Separate strtod rules) (hperm : rules.Perm rules') :
    Separate strtod rules' :=
  hperm.pairwise h fun {_ _} hxy url hy hx => hxy url hx hy

/-- The order in which such rules are added does not matter. -/
theorem dispatch_perm {rules rules' : List Rule} (h : Separate strtod rules) (hperm : rules.Perm rules')
    (req : Request) : dispatch strtod rules req = dispatch strtod rules' req := by
  unfold dispatch
  rw [hperm.any_eq]
  congr 1
  have hfind : rules.findSome? (fun r => (readsUrl strtod r.rule req.url).map (r, ·)) =
      rules'.findSome? fun r => (readsUrl strtod r.rule req.url).map (r, ·) := by
    cases hsome : rules.findSome? fun r => (readsUrl strtod r.rule req.url).map (r, ·) with
    | none =>
      symm
      rw [List.findSome?_eq_none_iff] at hsome ⊢
      exact fun r hr => hsome r (hperm.mem_iff.mpr hr)
    | some x =>
      obtain ⟨r, hr, hx⟩ := List.exists_of_findSome?_eq_some hsome
      obtain ⟨ps, hps, rfl⟩ := Option.map_eq_some_iff.mp hx
      exact ((h.perm hperm).findSome? (hperm.mem_iff.mp hr) hps).symm
  rw [hfind]

theorem Admissible.perm {rules rules' : List Rule} (h : Admissible rules) (hperm : rules.Perm rules') :
    Admissible rules' := by
  have hpatterns : (patterns rules).Perm (patterns rules') := hperm.flatMap_right _
  exact ⟨fun p hp => h.1 p (hpatterns.mem_iff.mpr hp), (hpatterns.map tokens).nodup_iff.mp h.2⟩

end Susanow.Crow.Routing
