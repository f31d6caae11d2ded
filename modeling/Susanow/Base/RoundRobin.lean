import Mathlib.Data.List.Count
import Mathlib.Data.List.Range
import Mathlib.Data.List.Perm.Subperm
import Mathlib.Data.List.Nodup
import Mathlib.Logic.Function.Basic

/-! Dealing numbered items to servers, and serving them in turn.

`m * q` items are cut into slices of `q` consecutive ones, one slice a server
(`slice`). Every server walks its own slice round and round, however the calls
on different servers interleave (`turns`): the `k`-th call on server `a` is
answered with item `a * q + k % q`. What follows are the two facts a scheduler
wants of that: the slices partition the items, and any `q` consecutive answers
of one server are its slice in some order. -/
namespace Susanow.RoundRobin

/-! ### Slices -/

/-- The items of server `a`. -/
def slice (q a : Nat) : List Nat := List.range' (a * q) q

@[simp] theorem length_slice (q a : Nat) : (slice q a).length = q := List.length_range'

theorem mem_slice {q a x : Nat} : x ∈ slice q a ↔ a * q ≤ x ∧ x < a * q + q := by
  simp [slice, List.mem_range'_1]

theorem slice_sorted (q a : Nat) : (slice q a).Pairwise (· < ·) := List.pairwise_lt_range'

theorem getElem?_slice {q a k : Nat} (h : k < q) : (slice q a)[k]? = some (a * q + k) := by
  simp [slice, h]

/-- The slices in order are all the items, each once. -/
theorem flatMap_slice (m q : Nat) : (List.range m).flatMap (slice q) = List.range (m * q) := by
  induction m with
  | zero => simp
  | succ m ih =>
    rw [List.range_succ, List.flatMap_append, ih, Nat.succ_mul, List.range_add]
    simp [slice, List.range'_eq_map_range]

theorem slice_disjoint {q a b x : Nat} (hx : x ∈ slice q a) (hx' : x ∈ slice q b) : a = b := by
  rw [mem_slice] at hx hx'
  rcases Nat.lt_trichotomy a b with h | h | h
  · have := Nat.mul_le_mul_right q h
    rw [Nat.succ_mul] at this
    omega
  · exact h
  · have := Nat.mul_le_mul_right q h
    rw [Nat.succ_mul] at this
    omega

theorem mem_slice_lt {m q a x : Nat} (ha : a < m) (hx : x ∈ slice q a) : x < m * q := by
  rw [mem_slice] at hx
  have := Nat.mul_le_mul_right q (Nat.succ_le_of_lt ha)
  rw [Nat.succ_mul] at this
  omega

/-! ### Turns -/

/-- The item server `a` answers its `k`-th call with. -/
def item (q a k : Nat) : Nat := a * q + k % q

theorem item_mem {q a k : Nat} (hq : 0 < q) : item q a k ∈ slice q a := by
  have := Nat.mod_lt k hq
  rw [mem_slice, item]
  omega

/-- The answers to a list of calls, `seen a` calls on each server having come before. -/
def turns (q : Nat) (seen : Nat → Nat) : List Nat → List Nat
  | [] => []
  | a :: rest => item q a (seen a) :: turns q (Function.update seen a (seen a + 1)) rest

/-- The answers given by one server. -/
def answers (a : Nat) (calls outs : List Nat) : List Nat :=
  ((calls.zip outs).filter fun p => p.1 == a).map Prod.snd

@[simp] theorem length_turns (q : Nat) (seen : Nat → Nat) (calls : List Nat) :
    (turns q seen calls).length = calls.length := by
  induction calls generalizing seen with
  | nil => rfl
  | cons a rest ih => simp [turns, ih]

theorem getElem?_turns_mem {q : Nat} (hq : 0 < q) (seen : Nat → Nat) (calls : List Nat)
    {k x a : Nat} (hx : (turns q seen calls)[k]? = some x) (ha : calls[k]? = some a) :
    x ∈ slice q a := by
  induction calls generalizing seen k with
  | nil => simp at ha
  | cons b rest ih =>
    cases k with
    | zero =>
      simp only [turns, List.getElem?_cons_zero, Option.some.injEq] at hx ha
      subst hx ha
      exact item_mem hq
    | succ k =>
      simp only [turns, List.getElem?_cons_succ] at hx ha
      exact ih _ hx ha

/-- However the calls interleave, a server answers its own calls in its own order. -/
theorem answers_turns (q : Nat) (seen : Nat → Nat) (calls : List Nat) (a : Nat) :
    answers a calls (turns q seen calls) =
      (List.range' (seen a) (calls.count a)).map (item q a) := by
  induction calls generalizing seen with
  | nil => rfl
  | cons b rest ih =>
    have ih := ih (Function.update seen b (seen b + 1))
    by_cases hab : b = a
    · subst hab
      simp only [answers, turns, List.zip_cons_cons, List.filter_cons, beq_self_eq_true, if_true,
        List.map_cons, List.count_cons_self, List.range'_succ] at ih ⊢
      rw [ih, Function.update_self]
    · have hne : (b == a) = false := by simpa using hab
      simp only [answers, turns, List.zip_cons_cons, List.filter_cons, hne, Bool.false_eq_true,
        if_false, List.count_cons_of_ne hab] at ih ⊢
      rw [ih, Function.update_of_ne (Ne.symm hab)]

private theorem eq_of_mod_eq_of_le {q x y : Nat} (hle : x ≤ y) (hlt : y < x + q)
    (h : x % q = y % q) : x = y := by
  have hdvd : q ∣ y - x := Nat.dvd_of_mod_eq_zero (Nat.sub_mod_eq_zero_of_mod_eq h.symm)
  have := Nat.eq_zero_of_dvd_of_lt hdvd (by omega)
  omega

private theorem item_injective {q a s x y : Nat} (hx : s ≤ x ∧ x < s + q) (hy : s ≤ y ∧ y < s + q)
    (h : item q a x = item q a y) : x = y := by
  have hmod : x % q = y % q := by simpa [item] using h
  rcases Nat.le_total x y with hle | hle
  · exact eq_of_mod_eq_of_le hle (by omega) hmod
  · exact (eq_of_mod_eq_of_le hle (by omega) hmod.symm).symm

/-- Any `q` consecutive turns of a server are its slice in some order. -/
theorem map_item_perm (q a s : Nat) : ((List.range' s q).map (item q a)).Perm (slice q a) := by
  have hnodup : ((List.range' s q).map (item q a)).Nodup := by
    refine List.Nodup.map_on (fun x hx y hy h => ?_) List.nodup_range'
    rw [List.mem_range'_1] at hx hy
    exact item_injective hx hy h
  have hsub : (List.range' s q).map (item q a) ⊆ slice q a := by
    intro x hx
    obtain ⟨k, hk, rfl⟩ := List.mem_map.mp hx
    rw [List.mem_range'_1] at hk
    exact item_mem (by omega)
  exact (List.subperm_of_subset hnodup hsub).perm_of_length_le (by simp)

/-- Any `q` consecutive answers of one server are its slice in some order. -/
theorem answers_window (q : Nat) (seen : Nat → Nat) (calls : List Nat) (a i : Nat)
    (h : i + q ≤ calls.count a) :
    (((answers a calls (turns q seen calls)).drop i).take q).Perm (slice q a) := by
  rw [answers_turns, ← List.map_drop, ← List.map_take, List.drop_range',
    List.take_range'_of_length_ge (by omega)]
  exact map_item_perm q a _

end Susanow.RoundRobin
