import Susanow.Base.Proc
import Susanow.Base.RoundRobin

/-! The accessor: how one thread walks the queues it was given.

`ssn_ma_port` and `ssn_ma_ring` carry the same nested class `accessor`, a list of
queue ids and a cursor into it. `get` answers the queue under the cursor and
moves on, `set` replaces the list and goes back to its head. -/
namespace Susanow

/-- `std::vector::resize`: the tail is dropped, or copies of `d` are appended. -/
def resize {α : Type} (d : α) (n : Nat) (xs : List α) : List α :=
  xs.take n ++ List.replicate (n - xs.length) d

@[simp] theorem length_resize {α : Type} (d : α) (n : Nat) (xs : List α) :
    (resize d n xs).length = n := by
  simp only [resize, List.length_append, List.length_take, List.length_replicate]
  omega

structure Accessor where
  -- the constructor leaves it unset; with no queue no call reads it to any effect
  accessorIdx : Nat := 0
  ques : List Nat := []
  deriving DecidableEq, Repr

namespace Accessor

def set (vec : List Nat) : Accessor := ⟨0, vec⟩

/-- `% ques.size()` comes before the list is read: with no queue it divides by zero. -/
def get : Proc Accessor Nat := do
  let a ← Proc.get
  if a.ques.length = 0 then Proc.crash .divisionByZero
  else
    Proc.set {a with accessorIdx := (a.accessorIdx + 1) % a.ques.length}
    match a.ques[a.accessorIdx]? with
    | some q => pure q
    | none => Proc.crash .outOfBounds

def getCurrent (a : Accessor) : Option Nat := a.ques[a.accessorIdx]?

theorem get_run {a : Accessor} {q : Nat} (h : a.ques[a.accessorIdx]? = some q) :
    get a = .ret q {a with accessorIdx := (a.accessorIdx + 1) % a.ques.length} := by
  have hlt := (List.getElem?_eq_some_iff.mp h).1
  have hne : a.ques.length ≠ 0 := by omega
  simp only [get, Proc.get_bind, Proc.ite_run, if_neg hne, Proc.set_bind, h, Proc.pure_run]

theorem get_empty {a : Accessor} (h : a.ques = []) : get a = .crash .divisionByZero := by
  simp [get, h]

/-! ### An accessor that owns a slice -/

open RoundRobin (slice item)

/-- The accessor of server `a` after `k` calls of `get`. -/
def Turned (q a k : Nat) (acc : Accessor) : Prop := acc = ⟨k % q, slice q a⟩

theorem turned_set (q a : Nat) : Turned q a 0 (set (slice q a)) := by
  simp [Turned, set]

theorem Turned.current {q a k : Nat} {acc : Accessor} (h : Turned q a k acc) (hq : 0 < q) :
    acc.getCurrent = some (item q a k) := by
  subst h
  exact RoundRobin.getElem?_slice (Nat.mod_lt k hq)

theorem Turned.get {q a k : Nat} {acc : Accessor} (h : Turned q a k acc) (hq : 0 < q) :
    ∃ acc', acc.get = .ret (item q a k) acc' ∧ Turned q a (k + 1) acc' := by
  have hcur := h.current hq
  refine ⟨_, get_run hcur, ?_⟩
  subst h
  simp [Turned, Nat.add_mod]

/-! ### A vector of accessors -/

/-- `accessors[aid].get()` -/
def getAt (aid : Nat) : Proc (List Accessor) Nat := do
  let accs ← Proc.get
  match accs[aid]? with
  | none => Proc.crash .outOfBounds
  | some acc => Proc.zoom (fun _ => acc) (fun accs acc => accs.set aid acc) Accessor.get

def getCurrentAt (accs : List Accessor) (aid : Nat) : Option Nat := (accs[aid]?).bind getCurrent

/-- `n` accessors, accessor `a` on slice `a` and called `seen a` times. -/
def AllTurned (q n : Nat) (seen : Nat → Nat) (accs : List Accessor) : Prop :=
  accs.length = n ∧ ∀ aid < n, ∃ acc, accs[aid]? = some acc ∧ Turned q aid (seen aid) acc

theorem allTurned_set {q n : Nat} {accs : List Accessor} (hlen : accs.length = n)
    (h : ∀ aid < n, accs[aid]? = some (set (slice q aid))) : AllTurned q n (fun _ => 0) accs :=
  ⟨hlen, fun aid haid => ⟨_, h aid haid, turned_set q aid⟩⟩

variable {q n : Nat} {seen : Nat → Nat} {accs : List Accessor} {aid : Nat}

theorem AllTurned.current (h : AllTurned q n seen accs) (hq : 0 < q) (haid : aid < n) :
    getCurrentAt accs aid = some (item q aid (seen aid)) := by
  obtain ⟨acc, hacc, hturned⟩ := h.2 aid haid
  simp [getCurrentAt, hacc, hturned.current hq]

theorem AllTurned.getAt (h : AllTurned q n seen accs) (hq : 0 < q) (haid : aid < n) :
    ∃ accs', Accessor.getAt aid accs = .ret (item q aid (seen aid)) accs' ∧
      AllTurned q n (Function.update seen aid (seen aid + 1)) accs' := by
  obtain ⟨acc, hacc, hturned⟩ := h.2 aid haid
  obtain ⟨acc', hget, hturned'⟩ := hturned.get hq
  refine ⟨accs.set aid acc', ?_, by simpa using h.1, fun b hb => ?_⟩
  · simp [Accessor.getAt, hacc, Proc.zoom, hget]
  · by_cases hab : b = aid
    · subst hab
      exact ⟨acc', by simp [h.1, hb], by simpa using hturned'⟩
    · obtain ⟨accb, haccb, hturnedb⟩ := h.2 b hb
      refine ⟨accb, by simpa [List.getElem?_set, Ne.symm hab] using haccb, ?_⟩
      rwa [Function.update_of_ne hab]

/-- With no queue to walk, `get` divides by zero. -/
theorem AllTurned.getAt_crash (h : AllTurned 0 n seen accs) (haid : aid < n) :
    Accessor.getAt aid accs = .crash .divisionByZero := by
  obtain ⟨acc, hacc, rfl⟩ := h.2 aid haid
  simp [Accessor.getAt, hacc, Proc.zoom, get_empty, slice]

/-- Counting one more call after another is counting the list of them. -/
theorem update_add_count (seen : Nat → Nat) (aid : Nat) (rest : List Nat) :
    (fun a => Function.update seen aid (seen aid + 1) a + rest.count a) =
      fun a => seen a + (aid :: rest).count a := by
  funext a
  by_cases ha : a = aid
  · subst ha
    rw [Function.update_self, List.count_cons_self]
    omega
  · rw [Function.update_of_ne ha, List.count_cons_of_ne (Ne.symm ha)]

end Accessor

end Susanow
