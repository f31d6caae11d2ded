import Mathlib.Order.Lattice
import Mathlib.Data.List.Induction

/-! The first maximum of a list.

`Leads xs k`: no entry is above the one at `k`, and those before it are below. A list has one
such place unless it is empty, and a scan that keeps the best place so far ends at it. -/
namespace Susanow
variable {α : Type} [LinearOrder α] {xs : List α} {k l : Nat}

def Leads (xs : List α) (k : Nat) : Prop :=
  ∃ m, xs[k]? = some m ∧ (∀ x ∈ xs, x ≤ m) ∧ ∀ x ∈ xs.take k, x < m

theorem Leads.not_before (h : Leads xs k) (h' : Leads xs l) : ¬k < l := by
  intro hkl
  obtain ⟨m, hm, -, hbefore⟩ := h'
  obtain ⟨m', hm', hall, -⟩ := h
  have hmem : m' ∈ xs.take l := List.mem_of_getElem? (i := k) (by rw [List.getElem?_take_of_lt hkl, hm'])
  exact absurd (hbefore m' hmem) (not_lt_of_ge (hall m (List.mem_of_getElem? hm)))

theorem Leads.unique (h : Leads xs k) (h' : Leads xs l) : k = l :=
  Nat.le_antisymm (Nat.not_lt.mp (h'.not_before h)) (Nat.not_lt.mp (h.not_before h'))

theorem Leads.lt_length (h : Leads xs k) : k < xs.length := by
  obtain ⟨m, hm, -⟩ := h
  exact (List.getElem?_eq_some_iff.mp hm).1

theorem leads_singleton (x : α) : Leads [x] 0 :=
  ⟨x, rfl, fun _ hy => (List.mem_singleton.mp hy).le, fun _ hy => absurd hy List.not_mem_nil⟩

/-- A new entry takes the lead only from above. -/
theorem Leads.snoc {m : α} (h : Leads xs k) (hm : xs[k]? = some m) (x : α) :
    Leads (xs ++ [x]) (if x > m then xs.length else k) := by
  obtain ⟨m', hm', hall, hbefore⟩ := h
  obtain rfl : m' = m := Option.some.inj (hm'.symm.trans hm)
  have hk : k < xs.length := (List.getElem?_eq_some_iff.mp hm).1
  split_ifs with hx
  · refine ⟨x, by simp, fun y hy => ?_, fun y hy => ?_⟩
    · rcases List.mem_append.mp hy with hy | hy
      · exact ((hall y hy).trans_lt hx).le
      · exact (List.mem_singleton.mp hy).le
    · rw [List.take_left] at hy
      exact (hall y hy).trans_lt hx
  · refine ⟨m', by rw [List.getElem?_append_left hk, hm], fun y hy => ?_, fun y hy => hbefore y ?_⟩
    · rcases List.mem_append.mp hy with hy | hy
      · exact hall y hy
      · exact List.mem_singleton.mp hy ▸ le_of_not_gt hx
    · rwa [List.take_append_of_le_length (Nat.le_of_lt hk)] at hy

/-- The place so far, and the entry there. -/
def lead (best : Nat × α) (xs : List α) : Nat × α :=
  xs.zipIdx.foldl (fun best c => if c.1 > best.2 then (c.2, c.1) else best) best

theorem lead_snoc (best : Nat × α) (xs : List α) (x : α) :
    lead best (xs ++ [x]) =
      if x > (lead best xs).2 then (xs.length, x) else lead best xs := by
  simp [lead, List.zipIdx_append]

/-- **The scan finds the leader.** -/
theorem leads_lead (m : α) (xs : List α) :
    Leads (m :: xs) (lead (0, m) (m :: xs)).1 ∧
      (m :: xs)[(lead (0, m) (m :: xs)).1]? = some (lead (0, m) (m :: xs)).2 := by
  induction xs using List.reverseRecOn with
  | nil => simpa [lead] using leads_singleton m
  | append_singleton xs x ih =>
    obtain ⟨hleads, hentry⟩ := ih
    have hnext := hleads.snoc hentry x
    rw [← List.cons_append, lead_snoc]
    split_ifs at hnext ⊢ with hx
    · exact ⟨hnext, by simp⟩
    · exact ⟨hnext, by rw [List.getElem?_append_left hleads.lt_length, hentry]⟩

end Susanow
