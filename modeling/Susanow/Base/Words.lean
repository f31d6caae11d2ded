import Mathlib.Data.List.Induction

/-! Graphs with words on their edges.

A node may carry a value, and spells the words that lead from it to one. Two ways to change
such a graph are known not to change what is spelled: an edge may be drawn through a node
without a value (`Contracts`), and a node without edges or value may be hung on. In a tree a
node is reached by one word, so that a value given to a node adds one word. -/
namespace Susanow

/-- Nodes `ν`, letters `α`, values `ρ`. -/
structure Words (ν α ρ : Type) where
  edge : ν → List α → ν → Prop
  value : ν → Option ρ

namespace Words
variable {ν α ρ : Type} {G G' : Words ν α ρ} {i j k n root : ν} {w l l' : List α} {r : ρ}

inductive Reaches (G : Words ν α ρ) : ν → List α → ν → Prop
  | here (i : ν) : Reaches G i [] i
  | down {i j k : ν} {w l : List α} (he : G.edge i w j) (hr : Reaches G j l k) : Reaches G i (w ++ l) k

/-- `l` leads from `i` to the value `r`. -/
def Spells (G : Words ν α ρ) (i : ν) (l : List α) (r : ρ) : Prop := ∃ j, G.Reaches i l j ∧ G.value j = some r

theorem Reaches.trans (h : G.Reaches i l j) (h' : G.Reaches j l' k) : G.Reaches i (l ++ l') k := by
  induction h with
  | here => exact h'
  | down he _ ih =>
    rw [List.append_assoc]
    exact .down he (ih h')

theorem Reaches.edge (he : G.edge i w j) : G.Reaches i w j := by
  have h := Reaches.down he (.here j)
  rwa [List.append_nil] at h

/-- Seen from its end, a way is empty or ends with an edge. -/
theorem Reaches.last (h : G.Reaches i l k) :
    l = [] ∧ i = k ∨ ∃ l₀ w j, l = l₀ ++ w ∧ G.Reaches i l₀ j ∧ G.edge j w k := by
  induction h with
  | here => exact .inl ⟨rfl, rfl⟩
  | @down i j k w l he hr ih =>
    right
    rcases ih with ⟨rfl, rfl⟩ | ⟨l₀, w', j', rfl, hr', he'⟩
    · exact ⟨[], w, i, List.append_nil w, .here i, he⟩
    · exact ⟨w ++ l₀, w', j', (List.append_assoc ..).symm, .down he hr', he'⟩

theorem spells_iff : G.Spells i l r ↔
    (l = [] ∧ G.value i = some r) ∨ ∃ w j l₀, l = w ++ l₀ ∧ G.edge i w j ∧ G.Spells j l₀ r := by
  constructor
  · rintro ⟨k, hr, hv⟩
    cases hr with
    | here => exact .inl ⟨rfl, hv⟩
    | down he hr => exact .inr ⟨_, _, _, rfl, he, k, hr, hv⟩
  · rintro (⟨rfl, hv⟩ | ⟨w, j, l₀, rfl, he, k, hr, hv⟩)
    · exact ⟨i, .here i, hv⟩
    · exact ⟨k, .down he hr, hv⟩

/-! ### Drawing edges through a node -/

/-- `G'` has the edges of `G`, but for those out of `i` that are not in `kept`: each of them
led to a node without a value, and is drawn through to where the edges of that node lead. -/
structure Contracts (G G' : Words ν α ρ) (i : ν) (kept : List α → ν → Prop) : Prop where
  value : G'.value = G.value
  other : ∀ j ≠ i, ∀ w k, G'.edge j w k ↔ G.edge j w k
  through : ∀ w k, G'.edge i w k ↔
    (G.edge i w k ∧ kept w k) ∨ ∃ u v j, w = u ++ v ∧ G.edge i u j ∧ ¬kept u j ∧ G.edge j v k
  bare : ∀ w j, G.edge i w j → ¬kept w j → G.value j = none

variable {kept : List α → ν → Prop}

/-- An edge that is drawn through was two edges. -/
theorem Contracts.reaches_of (h : Contracts G G' i kept) (hr : G'.Reaches n l k) : G.Reaches n l k := by
  induction hr with
  | here => exact .here _
  | @down n j k w l he _ ih =>
    by_cases hn : n = i
    · subst hn
      rcases (h.through w j).mp he with ⟨he, -⟩ | ⟨u, v, m, rfl, hu, -, hv⟩
      · exact .down he ih
      · rw [List.append_assoc]
        exact .down hu (.down hv ih)
    · exact .down ((h.other n hn w j).mp he) ih

/-- The way to a value does not end at a node that was drawn through. By induction on it,
with what is left of it behind its first edge. -/
theorem Contracts.reaches (h : Contracts G G' i kept) (hr : G.Reaches n l k) (hk : G.value k ≠ none) :
    G'.Reaches n l k ∧ (n = k ∨ ∃ v m l₀, l = v ++ l₀ ∧ G.edge n v m ∧ G'.Reaches m l₀ k) := by
  induction hr with
  | here => exact ⟨.here _, .inl rfl⟩
  | @down n j k w l he _ ih =>
    obtain ⟨hreach, hnext⟩ := ih hk
    refine ⟨?_, .inr ⟨w, j, l, rfl, he, hreach⟩⟩
    by_cases hn : n = i
    · subst hn
      by_cases hkept : kept w j
      · exact .down ((h.through w j).mpr (.inl ⟨he, hkept⟩)) hreach
      · rcases hnext with rfl | ⟨v, m, l₀, rfl, hv, hreach⟩
        · exact absurd (h.bare w j he hkept) hk
        · rw [← List.append_assoc]
          exact .down ((h.through _ m).mpr (.inr ⟨w, v, j, rfl, he, hkept, hv⟩)) hreach
    · exact .down ((h.other n hn w j).mpr he) hreach

theorem Contracts.spells (h : Contracts G G' i kept) : G'.Spells = G.Spells := by
  funext n l r
  apply propext
  constructor
  · rintro ⟨k, hr, hv⟩
    rw [h.value] at hv
    exact ⟨k, h.reaches_of hr, hv⟩
  · rintro ⟨k, hr, hv⟩
    have hk : G.value k ≠ none := by
      rw [hv]
      exact Option.some_ne_none r
    refine ⟨k, (h.reaches hr hk).1, ?_⟩
    rw [h.value]
    exact hv

/-! ### Growing a tree -/

/-- Every edge has one letter; no two from a node have the same, no two enter a node, and
none enters the root. -/
structure Tree (G : Words ν α ρ) (root : ν) : Prop where
  letter : ∀ i w j, G.edge i w j → ∃ a, w = [a]
  functional : ∀ i w j k, G.edge i w j → G.edge i w k → j = k
  entry : ∀ i j w v k, G.edge i w k → G.edge j v k → i = j ∧ w = v
  root : ∀ i w, ¬G.edge i w root

/-- By induction on one of the words, from its end. -/
theorem Tree.unique (h : G.Tree root) (hr : G.Reaches root l k) (hr' : G.Reaches root l' k) : l = l' := by
  induction l using List.reverseRecOn generalizing k l' with
  | nil =>
    rcases hr.last with ⟨-, rfl⟩ | ⟨l₀, w, j, heq, -, he⟩
    · rcases hr'.last with ⟨rfl, -⟩ | ⟨_, w, j, -, -, he⟩
      · rfl
      · exact absurd he (h.root j w)
    · obtain ⟨a, rfl⟩ := h.letter j w k he
      simp at heq
  | append_singleton l a ih =>
    rcases hr.last with ⟨hnil, -⟩ | ⟨l₀, w, j, heq, hj, he⟩
    · simp at hnil
    obtain ⟨b, rfl⟩ := h.letter j w k he
    obtain ⟨rfl, hab⟩ := List.append_inj' heq rfl
    rcases hr'.last with ⟨-, rfl⟩ | ⟨l₁, w', j', rfl, hj', he'⟩
    · exact absurd he (h.root j _)
    obtain ⟨rfl, rfl⟩ := h.entry j j' _ w' k he he'
    rw [ih hj hj', hab]

theorem Tree.reaches_nil (h : G.Tree root) (hr : G.Reaches i [] k) : k = i := by
  rcases hr.last with ⟨-, rfl⟩ | ⟨l₀, w, j, heq, -, he⟩
  · rfl
  · obtain ⟨a, rfl⟩ := h.letter j w k he
    simp at heq

theorem Tree.reaches_cons {a : α} (h : G.Tree root) (hr : G.Reaches i (a :: l) k) :
    ∃ j, G.edge i [a] j ∧ G.Reaches j l k := by
  generalize hl : a :: l = l₀ at hr
  cases hr with
  | here => cases hl
  | @down _ j _ w l' he hr =>
    obtain ⟨b, rfl⟩ := h.letter i w j he
    obtain ⟨rfl, rfl⟩ := List.cons.inj hl
    exact ⟨j, he, hr⟩

theorem Tree.reaches_functional (h : G.Tree root) (hr : G.Reaches i l j) (hr' : G.Reaches i l k) : j = k := by
  induction hr with
  | here => exact (h.reaches_nil hr').symm
  | down he _ ih =>
    obtain ⟨a, rfl⟩ := h.letter _ _ _ he
    obtain ⟨m, he', hr'⟩ := h.reaches_cons hr'
    rw [h.functional _ _ _ _ he' he] at hr'
    exact ih hr'

/-- A new node `n` is hung on `i`, by the letter `a`. -/
structure Hangs (G G' : Words ν α ρ) (i : ν) (a : α) (n : ν) : Prop where
  value : G'.value = G.value
  edge : ∀ j w k, G'.edge j w k ↔ G.edge j w k ∨ (j = i ∧ w = [a] ∧ k = n)
  free : ∀ k, ¬G.edge i [a] k
  blank : G.value n = none
  unused : ∀ w k, ¬G.edge n w k
  fresh : ∀ j w, ¬G.edge j w n
  ne : i ≠ n

variable {a : α}

theorem Hangs.tree (h : Hangs G G' i a n) (ht : G.Tree root) (hroot : n ≠ root) : G'.Tree root where
  letter := by
    intro j w k he
    rcases (h.edge j w k).mp he with he | ⟨-, rfl, -⟩
    · exact ht.letter j w k he
    · exact ⟨a, rfl⟩
  functional := by
    intro j w k k' he he'
    rcases (h.edge j w k).mp he with he | ⟨rfl, rfl, rfl⟩
    · rcases (h.edge j w k').mp he' with he' | ⟨rfl, rfl, -⟩
      · exact ht.functional j w k k' he he'
      · exact absurd he (h.free k)
    · rcases (h.edge j [a] k').mp he' with he' | ⟨-, -, rfl⟩
      · exact absurd he' (h.free k')
      · rfl
  entry := by
    intro j j' w v k he he'
    rcases (h.edge j w k).mp he with he | ⟨hj, hw, hk⟩
    · rcases (h.edge j' v k).mp he' with he' | ⟨-, -, rfl⟩
      · exact ht.entry j j' w v k he he'
      · exact absurd he (h.fresh j w)
    · subst hk
      rcases (h.edge j' v k).mp he' with he' | ⟨hj', hv, -⟩
      · exact absurd he' (h.fresh j' v)
      · exact ⟨hj.trans hj'.symm, hw.trans hv.symm⟩
  root := by
    intro j w he
    rcases (h.edge j w root).mp he with he | ⟨-, -, hn⟩
    · exact ht.root j w he
    · exact hroot hn.symm

theorem Hangs.reaches_mono (h : Hangs G G' i a n) (hr : G.Reaches j l k) : G'.Reaches j l k := by
  induction hr with
  | here => exact .here _
  | down he _ ih => exact .down ((h.edge _ _ _).mpr (.inl he)) ih

theorem Hangs.edge_new (h : Hangs G G' i a n) : G'.edge i [a] n := (h.edge i [a] n).mpr (.inr ⟨rfl, rfl, rfl⟩)

/-- Nothing is reached that was not, but for the new node. -/
theorem Hangs.reaches_of (h : Hangs G G' i a n) (hr : G'.Reaches j l k) : G.Reaches j l k ∨ k = n := by
  induction hr with
  | here => exact .inl (.here _)
  | @down j m k w l he hr ih =>
    rcases (h.edge j w m).mp he with he | ⟨-, -, rfl⟩
    · exact ih.imp_left (.down he)
    · cases hr with
      | here => exact .inr rfl
      | down he _ =>
        rcases (h.edge _ _ _).mp he with he | ⟨hmi, -⟩
        · exact absurd he (h.unused _ _)
        · exact absurd hmi.symm h.ne

theorem Hangs.spells (h : Hangs G G' i a n) : G'.Spells = G.Spells := by
  funext j l r
  apply propext
  constructor
  · rintro ⟨k, hr, hv⟩
    rw [h.value] at hv
    rcases h.reaches_of hr with hr | rfl
    · exact ⟨k, hr, hv⟩
    · rw [h.blank] at hv
      cases hv
  · rintro ⟨k, hr, hv⟩
    refine ⟨k, h.reaches_mono hr, ?_⟩
    rw [h.value]
    exact hv

/-- The node `n`, which had no value, is given the value `r`. -/
structure Gives (G G' : Words ν α ρ) (n : ν) (r : ρ) : Prop where
  edge : G'.edge = G.edge
  value : ∀ k, k ≠ n → G'.value k = G.value k
  blank : G.value n = none
  given : G'.value n = some r

theorem Gives.reaches (h : Gives G G' n r) : G'.Reaches i l k ↔ G.Reaches i l k := by
  constructor
  · intro hr
    induction hr with
    | here => exact .here _
    | down he _ ih =>
      rw [h.edge] at he
      exact .down he ih
  · intro hr
    induction hr with
    | here => exact .here _
    | down he _ ih =>
      rw [← h.edge] at he
      exact .down he ih

theorem Gives.tree (h : Gives G G' n r) (ht : G.Tree root) : G'.Tree root where
  letter := by
    rw [h.edge]
    exact ht.letter
  functional := by
    rw [h.edge]
    exact ht.functional
  entry := by
    rw [h.edge]
    exact ht.entry
  root := by
    rw [h.edge]
    exact ht.root

/-- One word more is spelled, the one that leads to `n`. -/
theorem Gives.spells (h : Gives G G' n r) (ht : G.Tree root) (hn : G.Reaches root l n) (l' : List α) (s : ρ) :
    G'.Spells root l' s ↔ G.Spells root l' s ∨ (l' = l ∧ s = r) := by
  constructor
  · rintro ⟨k, hr, hv⟩
    rw [h.reaches] at hr
    by_cases hk : k = n
    · subst hk
      rw [h.given] at hv
      exact .inr ⟨ht.unique hr hn, (Option.some.inj hv).symm⟩
    · rw [h.value k hk] at hv
      exact .inl ⟨k, hr, hv⟩
  · rintro (⟨k, hr, hv⟩ | ⟨rfl, rfl⟩)
    · refine ⟨k, h.reaches.mpr hr, ?_⟩
      have hk : k ≠ n := by
        rintro rfl
        rw [h.blank] at hv
        cases hv
      rw [h.value k hk]
      exact hv
    · exact ⟨n, h.reaches.mpr hn, h.given⟩

end Words
end Susanow
