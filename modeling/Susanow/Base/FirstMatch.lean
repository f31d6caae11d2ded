import Mathlib.Data.List.MinMax

/-! First match and best match.

A table is scanned for the first entry that covers a key. That entry is the best one that
does, by a rank, when no entry stands behind a lower one that covers a key in common. -/
namespace Susanow
variable {ρ κ ι : Type} [LinearOrder ι]

section
variable (covers : ρ → κ → Bool) (rank : ρ → ι)

def firstMatch (table : List ρ) (a : κ) : Option ρ := table.find? (covers · a)

/-- The first of the entries that cover `a` and rank highest. -/
def bestMatch (table : List ρ) (a : κ) : Option ρ := (table.filter (covers · a)).argmax rank

/-- No entry covers a key that an earlier one of lower rank covers. -/
def Ranked (table : List ρ) : Prop :=
  table.Pairwise fun q r => rank q < rank r → ∀ a, ¬(covers q a = true ∧ covers r a = true)

end

variable {covers : ρ → κ → Bool} {rank : ρ → ι} {table : List ρ} {a : κ}

theorem argmax_cons_of_le {r : ρ} {rest : List ρ} (h : ∀ q ∈ rest, rank q ≤ rank r) :
    (r :: rest).argmax rank = some r := by
  rw [List.argmax_cons]
  cases hmax : rest.argmax rank with
  | none => rfl
  | some q =>
    have hle := h q (List.argmax_mem hmax)
    show (if rank r < rank q then some q else some r) = some r
    rw [if_neg (not_lt.mpr hle)]

theorem firstMatch_eq_bestMatch (h : Ranked covers rank table) (a : κ) :
    firstMatch covers table a = bestMatch covers rank table a := by
  rw [firstMatch, bestMatch, ← List.head?_filter]
  cases hfilter : table.filter (covers · a) with
  | nil => rfl
  | cons r rest =>
    have hordered := h.filter (covers · a)
    rw [hfilter] at hordered
    have hcovers {q : ρ} (hq : q ∈ r :: rest) : covers q a = true := by
      rw [← hfilter] at hq
      exact (List.mem_filter.mp hq).2
    refine (argmax_cons_of_le fun q hq => ?_).symm
    by_contra hlt
    exact (List.pairwise_cons.mp hordered).1 q hq (not_le.mp hlt) a
      ⟨hcovers List.mem_cons_self, hcovers (List.mem_cons_of_mem _ hq)⟩

/-- What the best match is. -/
theorem bestMatch_eq_some {r : ρ} (h : bestMatch covers rank table a = some r) :
    r ∈ table ∧ covers r a = true ∧ ∀ q ∈ table, covers q a = true → rank q ≤ rank r := by
  obtain ⟨hr, hcovers⟩ := List.mem_filter.mp (List.argmax_mem h)
  exact ⟨hr, hcovers, fun q hq hqa => List.le_of_mem_argmax (List.mem_filter.mpr ⟨hq, hqa⟩) h⟩

theorem bestMatch_eq_none : bestMatch covers rank table a = none ↔ ∀ q ∈ table, covers q a = false := by
  rw [bestMatch, List.argmax_eq_none, List.filter_eq_nil_iff]
  simp only [Bool.not_eq_true]

end Susanow
