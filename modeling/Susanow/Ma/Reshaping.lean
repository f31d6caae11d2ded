import Susanow.Base.Runs
import Susanow.Ma.Ring

/-! Rings and accessors that are changed apart.

Every operation on an `ssn_ma_ring` writes the rings or the accessors of one side, and none
looks whether the others still fit: rings may go while accessors have their indices, and
accessors are added before it is known whether there are queues for them. -/
namespace Susanow

inductive RingOp (α : Type)
  | configureQue (alloc : Nat → Bool) (nQue : Nat)
  | resetQue
  | configureAcc (nEnqAcc nDeqAcc : Nat)
  | configureDeqAcc (nDeqAcc : Nat)
  | configureEnqAcc (nEnqAcc : Nat)
  | enqueueBurst (aid : Nat) (objs : List α)
  | dequeueBurst (aid nb : Nat)

/-- The accessor walks a list that is not empty, of rings there are. -/
structure Accessor.Serves (nQue : Nat) (a : Accessor) : Prop where
  ques_ne : a.ques ≠ []
  ques_lt : ∀ q ∈ a.ques, q < nQue
  idx_lt : a.accessorIdx < a.ques.length

namespace MaRing
open Accessor (Serves AllTurned)
open Proc (Meets)
variable {α : Type}

/-- Both sides can be served. -/
structure Serving (x : MaRing α) : Prop where
  enq : ∀ a ∈ x.enqAccessors, Serves x.rings.length a
  deq : ∀ a ∈ x.deqAccessors, Serves x.rings.length a

/-- A burst on an accessor there is neither divides by zero nor indexes outside the rings. -/
structure Safe (x : MaRing α) : Prop where
  enq : ∀ aid < x.getNumEnqAcc, ∀ objs, ∀ c, enqueueBurst aid objs x = .crash c → c = .nullPointer
  deq : ∀ aid < x.getNumDeqAcc, ∀ nb, ∀ c, dequeueBurst aid nb x = .crash c → c = .nullPointer

def step (x : MaRing α) : RingOp α → Option (MaRing α)
  | .configureQue alloc nQue => (configureQue alloc nQue x).state?
  | .resetQue => some x.resetQue
  | .configureAcc nEnqAcc nDeqAcc => (configureAcc nEnqAcc nDeqAcc x).state?
  | .configureDeqAcc nDeqAcc => (configureDeqAcc nDeqAcc x).state?
  | .configureEnqAcc nEnqAcc => (configureEnqAcc nEnqAcc x).state?
  | .enqueueBurst aid objs => (enqueueBurst aid objs x).state?
  | .dequeueBurst aid nb => (dequeueBurst aid nb x).state?

/-- The indices that accessors hold are below `nQue`. -/
def Below (nQue : Nat) (accs : List Accessor) : Prop := ∀ a ∈ accs, ∀ q ∈ a.ques, q < nQue

/-- There is a ring for every new accessor, or the count does not divide and adds none. -/
def Dealable (nQue nAcc old : Nat) : Prop := if nAcc ∣ nQue then 0 < nQue else nAcc ≤ old

/-- Rings go when no accessor has them, and accessors come when there is something to deal. -/
def Matching (x : MaRing α) : RingOp α → Prop
  | .configureQue _ nQue => Below nQue x.enqAccessors ∧ Below nQue x.deqAccessors
  | .resetQue => x.enqAccessors = [] ∧ x.deqAccessors = []
  | .configureAcc nEnqAcc nDeqAcc => Dealable x.rings.length nDeqAcc x.getNumDeqAcc ∧
      (nDeqAcc ∣ x.rings.length → Dealable x.rings.length nEnqAcc x.getNumEnqAcc)
  | .configureDeqAcc nDeqAcc => Dealable x.rings.length nDeqAcc x.getNumDeqAcc
  | .configureEnqAcc nEnqAcc => Dealable x.rings.length nEnqAcc x.getNumEnqAcc
  | .enqueueBurst _ _ => True
  | .dequeueBurst _ _ => True

/-! ### A side -/

section Side
variable {nQue nAcc aid : Nat} {accs : List Accessor} {side : String}

theorem serves_of_allTurned {q : Nat} {seen : Nat → Nat} (hq : 0 < q) (hque : nAcc * q = nQue)
    (h : AllTurned q nAcc seen accs) : ∀ a ∈ accs, Serves nQue a := by
  intro a ha
  obtain ⟨aid, haid⟩ := List.getElem?_of_mem ha
  have hlt : aid < nAcc := h.1 ▸ (List.getElem?_eq_some_iff.mp haid).1
  obtain ⟨a', ha', rfl⟩ := h.2 aid hlt
  cases haid.symm.trans ha'
  have hlen : (RoundRobin.slice q aid).length = q := RoundRobin.length_slice q aid
  refine ⟨fun hnil => ?_, fun i hi => ?_, ?_⟩
  · rw [show RoundRobin.slice q aid = [] from hnil] at hlen
    exact absurd hlen (Nat.ne_of_lt hq)
  · rw [← hque]
    exact RoundRobin.mem_slice_lt hlt hi
  · show seen aid % q < (RoundRobin.slice q aid).length
    rw [hlen]
    exact Nat.mod_lt _ hq

/-- The side after a configuration that returned, and after one that threw. -/
theorem configureSide_meets (h : ∀ a ∈ accs, Serves nQue a) (hfits : Dealable nQue nAcc accs.length) :
    Meets (configureSide side nQue nAcc) accs (fun _ accs' => ∀ a ∈ accs', Serves nQue a)
      fun accs' => ∀ a ∈ accs', Serves nQue a := by
  rcases Nat.eq_zero_or_pos nAcc with rfl | hpos
  · exact Proc.meets_of_crash (configureSide_crash side nQue accs)
  · by_cases hdvd : nAcc ∣ nQue
    · rw [Dealable, if_pos hdvd] at hfits
      obtain ⟨⟨⟩, accs', hrun, hturned⟩ := configureSide_returns side nQue nAcc accs hpos hdvd
      have hq : 0 < nQue / nAcc := Nat.div_pos (Nat.le_of_dvd hfits hdvd) hpos
      exact Proc.meets_of_ret hrun (serves_of_allTurned hq (Nat.mul_div_cancel' hdvd) hturned)
    · rw [Dealable, if_neg hdvd] at hfits
      have hthrows := configureSide_throws side nQue nAcc accs hpos hdvd
      -- none was added
      have hkept : resize {} nAcc accs = accs.take nAcc := by
        rw [resize, Nat.sub_eq_zero_of_le hfits, List.replicate_zero, List.append_nil]
      refine ⟨fun a accs' hret => ?_, fun w accs' hret => ?_⟩
      · rw [hthrows] at hret
        cases hret
      · rw [hthrows, hkept] at hret
        cases hret
        exact fun a ha => h a (List.mem_of_mem_take ha)

theorem Accessor.Serves.get {a : Accessor} (h : Serves nQue a) :
    ∃ q a', Accessor.get a = .ret q a' ∧ q < nQue ∧ Serves nQue a' := by
  have hq := List.getElem?_eq_getElem h.idx_lt
  refine ⟨_, _, Accessor.get_run hq, h.ques_lt _ (List.getElem_mem h.idx_lt), h.ques_ne, h.ques_lt, ?_⟩
  exact Nat.mod_lt _ (List.length_pos_iff.mpr h.ques_ne)

/-- An access id there is leads to a ring there is, and the side can be served further. -/
theorem getAt_of_serves (h : ∀ a ∈ accs, Serves nQue a) (haid : aid < accs.length) :
    ∃ q accs', Accessor.getAt aid accs = .ret q accs' ∧ q < nQue ∧ ∀ a ∈ accs', Serves nQue a := by
  have hacc := List.getElem?_eq_getElem haid
  obtain ⟨q, a', hget, hq, ha'⟩ := Accessor.Serves.get (h _ (List.getElem_mem haid))
  refine ⟨q, accs.set aid a', ?_, hq, fun a ha => ?_⟩
  · simp only [Accessor.getAt, Proc.get_bind, hacc, Proc.zoom, hget]
  · rcases List.mem_or_eq_of_mem_set ha with ha | rfl
    · exact h a ha
    · exact ha'

theorem getAt_meets (h : ∀ a ∈ accs, Serves nQue a) :
    Meets (Accessor.getAt aid) accs (fun _ accs' => ∀ a ∈ accs', Serves nQue a)
      fun accs' => ∀ a ∈ accs', Serves nQue a := by
  by_cases haid : aid < accs.length
  · obtain ⟨q, accs', hget, -, h'⟩ := getAt_of_serves h haid
    exact Proc.meets_of_ret hget h'
  · have hnone := List.getElem?_eq_none (Nat.le_of_not_lt haid)
    have hcrash : Accessor.getAt aid accs = .crash .outOfBounds := by
      simp only [Accessor.getAt, Proc.get_bind, hnone, Proc.crash_run]
    exact Proc.meets_of_crash hcrash

end Side

/-! ### Operations -/

section Step
variable {x x' : MaRing α}

theorem Serving.onEnq (h : x.Serving) {β : Type} {p : Proc (List Accessor) β}
    (hp : Meets p x.enqAccessors (fun _ accs => ∀ a ∈ accs, Serves x.rings.length a)
      fun accs => ∀ a ∈ accs, Serves x.rings.length a) :
    Meets (onEnq p) x (fun _ y => Serving y ∧ y.rings.length = x.rings.length) Serving :=
  Proc.meets_zoom ⟨fun b accs hrun => ⟨⟨hp.1 b accs hrun, h.deq⟩, rfl⟩, fun w accs hrun => ⟨hp.2 w accs hrun, h.deq⟩⟩

theorem Serving.onDeq (h : x.Serving) {β : Type} {p : Proc (List Accessor) β}
    (hp : Meets p x.deqAccessors (fun _ accs => ∀ a ∈ accs, Serves x.rings.length a)
      fun accs => ∀ a ∈ accs, Serves x.rings.length a) :
    Meets (onDeq p) x (fun _ y => Serving y ∧ y.rings.length = x.rings.length) Serving :=
  Proc.meets_zoom ⟨fun b accs hrun => ⟨⟨h.enq, hp.1 b accs hrun⟩, rfl⟩, fun w accs hrun => ⟨h.enq, hp.2 w accs hrun⟩⟩

theorem Serving.configureDeqAcc (h : x.Serving) {nDeqAcc : Nat}
    (hfits : Dealable x.rings.length nDeqAcc x.getNumDeqAcc) :
    Meets (configureDeqAcc nDeqAcc) x (fun _ => Serving) Serving :=
  (Proc.meets_get_bind (h.onDeq (configureSide_meets h.deq hfits))).weaken fun _ _ hy => hy.1

theorem Serving.configureEnqAcc (h : x.Serving) {nEnqAcc : Nat}
    (hfits : Dealable x.rings.length nEnqAcc x.getNumEnqAcc) :
    Meets (configureEnqAcc nEnqAcc) x (fun _ => Serving) Serving :=
  (Proc.meets_get_bind (h.onEnq (configureSide_meets h.enq hfits))).weaken fun _ _ hy => hy.1

/-- The enqueue side is configured if the dequeue side was. -/
theorem Serving.configureAcc (h : x.Serving) {nEnqAcc nDeqAcc : Nat}
    (hdeq : Dealable x.rings.length nDeqAcc x.getNumDeqAcc)
    (henq : nDeqAcc ∣ x.rings.length → Dealable x.rings.length nEnqAcc x.getNumEnqAcc) :
    Meets (configureAcc nEnqAcc nDeqAcc) x (fun _ => Serving) Serving := by
  refine Proc.meets_bind_of_ret (h.configureDeqAcc hdeq).2 fun _ y hrun => ?_
  have hy := (h.configureDeqAcc hdeq).1 () y hrun
  obtain ⟨accs, rfl⟩ := (configureDeqAcc_writes x).1 () y hrun
  have hdvd : nDeqAcc ∣ x.rings.length := by
    by_contra hn
    rcases Nat.eq_zero_or_pos nDeqAcc with rfl | hpos
    · simp [MaRing.configureDeqAcc, MaRing.onDeq, Proc.zoom, configureSide_crash] at hrun
    · simp [MaRing.configureDeqAcc, MaRing.onDeq, Proc.zoom, configureSide_throws _ _ _ _ hpos hn] at hrun
  exact hy.configureEnqAcc (henq hdvd)

/-- Rings of another number, under accessors that fit them. -/
theorem Serving.reringed (h : x.Serving) {nQue : Nat} (hrings : x'.rings.length = nQue)
    (henq : x'.enqAccessors = x.enqAccessors) (hdeq : x'.deqAccessors = x.deqAccessors)
    (hbenq : Below nQue x.enqAccessors) (hbdeq : Below nQue x.deqAccessors) : x'.Serving := by
  refine ⟨fun a ha => ?_, fun a ha => ?_⟩
  · rw [henq] at ha
    rw [hrings]
    exact ⟨(h.enq a ha).ques_ne, hbenq a ha, (h.enq a ha).idx_lt⟩
  · rw [hdeq] at ha
    rw [hrings]
    exact ⟨(h.deq a ha).ques_ne, hbdeq a ha, (h.deq a ha).idx_lt⟩

theorem configureQue_length (alloc : Nat → Bool) (nQue : Nat) (x : MaRing α) :
    Meets (configureQue alloc nQue) x (fun _ y => y.rings.length = nQue)
      fun y => y.rings.length = nQue := by
  refine Proc.meets_bind_ret (Proc.modify_run _ _) ?_
  refine Proc.meets_forRange (fun _ (y : MaRing α) => y.rings.length = nQue) (length_resize _ _ _) fun i _ y hy => ?_
  refine Proc.meets_get_bind ?_
  split_ifs
  · exact Proc.meets_of_ret (Proc.set_run _ _) (by simpa using hy)
  · exact Proc.meets_throw hy

theorem Serving.configureQue (h : x.Serving) {alloc : Nat → Bool} {nQue : Nat}
    (henq : Below nQue x.enqAccessors) (hdeq : Below nQue x.deqAccessors) :
    Meets (configureQue alloc nQue) x (fun _ => Serving) Serving := by
  have hlen := configureQue_length alloc nQue x
  have hkept := configureQue_writes alloc nQue x
  refine ⟨fun a y hrun => ?_, fun w y hrun => ?_⟩
  · obtain ⟨h₁, h₂⟩ := Prod.mk.inj (hkept.1 a y hrun)
    exact h.reringed (hlen.1 a y hrun) h₁ h₂ henq hdeq
  · obtain ⟨h₁, h₂⟩ := Prod.mk.inj (hkept.2 w y hrun)
    exact h.reringed (hlen.2 w y hrun) h₁ h₂ henq hdeq

theorem within_ringAt {R : MaRing α → MaRing α → Prop} [IsPreorder (MaRing α) R] (idx : Nat) :
    Proc.Within R (ringAt idx) := by
  refine Proc.within_bind Proc.within_get fun r => ?_
  split
  · exact Proc.within_crash _
  · exact Proc.within_crash _
  · exact Proc.within_pure _

theorem Serving.ringAt (h : x.Serving) {idx : Nat} : Meets (ringAt idx) x (fun _ => Serving) Serving := by
  have hring : Proc.Preserves Serving (MaRing.ringAt idx : Proc (MaRing α) _) := within_ringAt idx
  exact ⟨fun r y hy => (hring x).1 r y hy h, fun w y hy => (hring x).2 w y hy h⟩

theorem Serving.enqueueBurst (h : x.Serving) (aid : Nat) (objs : List α) :
    Meets (enqueueBurst aid objs) x (fun _ => Serving) Serving := by
  refine Proc.meets_bind (h.onEnq (getAt_meets h.enq)) fun idx y hy => ?_
  refine Proc.meets_bind hy.1.ringAt fun r z hz => ?_
  refine Proc.meets_bind (Q := fun _ => Serving) (Proc.meets_modify ⟨?_, ?_⟩) fun _ z' hz' => Proc.meets_pure hz'
  · simpa using hz.enq
  · simpa using hz.deq

theorem Serving.dequeueBurst (h : x.Serving) (aid nb : Nat) :
    Meets (dequeueBurst aid nb) x (fun _ => Serving) Serving := by
  refine Proc.meets_bind (h.onDeq (getAt_meets h.deq)) fun idx y hy => ?_
  refine Proc.meets_bind hy.1.ringAt fun r z hz => ?_
  refine Proc.meets_bind (Q := fun _ => Serving) (Proc.meets_modify ⟨?_, ?_⟩) fun _ z' hz' => Proc.meets_pure hz'
  · simpa using hz.enq
  · simpa using hz.deq

/-- **What an operation keeps** if rings and accessors fit. -/
theorem Serving.step (h : x.Serving) {op : RingOp α} (hr : x.Matching op) (hs : x.step op = some x') :
    x'.Serving := by
  cases op with
  | configureQue alloc nQue => exact (h.configureQue hr.1 hr.2).state? hs
  | resetQue =>
    cases hs
    exact h.reringed rfl rfl rfl (by rw [hr.1]; exact fun _ ha => absurd ha List.not_mem_nil)
      (by rw [hr.2]; exact fun _ ha => absurd ha List.not_mem_nil)
  | configureAcc nEnqAcc nDeqAcc => exact (h.configureAcc hr.1 hr.2).state? hs
  | configureDeqAcc nDeqAcc => exact (h.configureDeqAcc hr).state? hs
  | configureEnqAcc nEnqAcc => exact (h.configureEnqAcc hr).state? hs
  | enqueueBurst aid objs => exact (h.enqueueBurst aid objs).state? hs
  | dequeueBurst aid nb => exact (h.dequeueBurst aid nb).state? hs

/-- What a burst may still run into is a ring that could not be allocated. -/
theorem ringAt_crash {idx : Nat} (hidx : idx < x.rings.length) {c : Crash} (h : ringAt idx x = .crash c) :
    c = .nullPointer := by
  rw [ringAt, Proc.get_bind, List.getElem?_eq_getElem hidx] at h
  cases hring : x.rings[idx] with
  | none =>
    simp only [hring] at h
    cases h
    rfl
  | some ring =>
    simp only [hring] at h
    cases h

theorem ringAt_bind_crash {β : Type} {idx : Nat} {f : RteRing α → Proc (MaRing α) β}
    (hidx : idx < x.rings.length) (hf : ∀ r y, ∃ b z, f r y = .ret b z) {c : Crash}
    (h : (ringAt idx >>= f) x = .crash c) : c = .nullPointer := by
  cases hring : ringAt idx x with
  | crash d =>
    rw [Proc.bind_crash hring] at h
    cases h
    exact ringAt_crash hidx hring
  | ret r y =>
    obtain ⟨b, z, hret⟩ := hf r y
    rw [Proc.bind_ret hring, hret] at h
    cases h
  | throws w y =>
    rw [Proc.bind_throws hring] at h
    cases h

theorem Serving.safe (h : x.Serving) : x.Safe := by
  refine ⟨fun aid haid objs c hc => ?_, fun aid haid nb c hc => ?_⟩
  · obtain ⟨q, accs, hget, hq, -⟩ := getAt_of_serves h.enq haid
    have hrun : MaRing.onEnq (Accessor.getAt aid) x = .ret q {x with enqAccessors := accs} := by
      rw [MaRing.onEnq, Proc.zoom, hget]
    rw [MaRing.enqueueBurst, Proc.bind_ret hrun] at hc
    exact ringAt_bind_crash (x := {x with enqAccessors := accs}) hq (fun _ _ => ⟨_, _, rfl⟩) hc
  · obtain ⟨q, accs, hget, hq, -⟩ := getAt_of_serves h.deq haid
    have hrun : MaRing.onDeq (Accessor.getAt aid) x = .ret q {x with deqAccessors := accs} := by
      rw [MaRing.onDeq, Proc.zoom, hget]
    rw [MaRing.dequeueBurst, Proc.bind_ret hrun] at hc
    exact ringAt_bind_crash (x := {x with deqAccessors := accs}) hq (fun _ _ => ⟨_, _, rfl⟩) hc

end Step

theorem serving_init (np : String) (prodPpsCur consPpsSum : Nat) :
    (init np prodPpsCur consPpsSum : MaRing α).Serving :=
  ⟨fun _ h => absurd h List.not_mem_nil, fun _ h => absurd h List.not_mem_nil⟩

/-- **Every accessor has rings to walk**, and bursts stay within them, after any operations that
leave rings and accessors fitting. -/
theorem serving_of_run {np : String} {prodPpsCur consPpsSum : Nat} {ops : List (RingOp α)} {x : MaRing α}
    (h : Runs step Matching (init np prodPpsCur consPpsSum) ops x) : x.Serving ∧ x.Safe := by
  have hserving : x.Serving := h.invariant (I := Serving) (serving_init _ _ _) fun _ _ _ h hr hs => h.step hr hs
  exact ⟨hserving, hserving.safe⟩

instance (nQue : Nat) (accs : List Accessor) : Decidable (Below nQue accs) :=
  inferInstanceAs (Decidable (∀ a ∈ accs, ∀ q ∈ a.ques, q < nQue))

instance (nQue nAcc old : Nat) : Decidable (Dealable nQue nAcc old) :=
  inferInstanceAs (Decidable (if nAcc ∣ nQue then 0 < nQue else nAcc ≤ old))

instance (x : MaRing α) (op : RingOp α) : Decidable (x.Matching op) :=
  match op with
  | .configureQue _ _ => inferInstanceAs (Decidable (_ ∧ _))
  | .resetQue => inferInstanceAs (Decidable (_ ∧ _))
  | .configureAcc _ _ => inferInstanceAs (Decidable (Dealable _ _ _ ∧ (_ ∣ _ → Dealable _ _ _)))
  | .configureDeqAcc _ => inferInstanceAs (Decidable (Dealable _ _ _))
  | .configureEnqAcc _ => inferInstanceAs (Decidable (Dealable _ _ _))
  | .enqueueBurst _ _ => isTrue trivial
  | .dequeueBurst _ _ => isTrue trivial

/-- Eight rings for two threads on each end, then for four that receive; three are refused, as
they are not more. -/
def reshapedRun : List (RingOp Nat) :=
  [.configureQue (fun _ => true) 8, .configureAcc 2 2, .enqueueBurst 1 [7, 8], .configureDeqAcc 4,
    .dequeueBurst 2 4, .configureDeqAcc 3]

theorem serving_of_reshapedRun :
    ∃ x, exec step (init "ring" 0 0) reshapedRun = some x ∧ x.getNumDeqAcc = 3 ∧ x.Serving ∧ x.Safe := by
  obtain ⟨x, hx, hnum⟩ := Option.map_eq_some_iff.mp
    (show (exec step (init "ring" 0 0) reshapedRun).map getNumDeqAcc = some 3 by decide +kernel)
  exact ⟨x, hx, hnum, serving_of_run (Runs.of_obeys (by decide +kernel) hx)⟩

/-- A third receiver is refused when there are two, and stands there without a ring. -/
theorem not_serving :
    ∃ x : MaRing Nat, Runs step Always (init "ring" 0 0)
        [.configureQue (fun _ => true) 8, .configureAcc 2 2, .configureDeqAcc 3] x ∧
      x.getNumDeqAcc = 3 ∧ dequeueBurst 2 4 x = .crash .divisionByZero ∧ ¬(x.Serving ∧ x.Safe) := by
  obtain ⟨x, hx, heq⟩ := Option.map_eq_some_iff.mp
    (show (exec step (init "ring" 0 0 : MaRing Nat) [.configureQue (fun _ => true) 8, .configureAcc 2 2,
        .configureDeqAcc 3]).map (fun x => (x.getNumDeqAcc, (dequeueBurst 2 4 x).crash?)) =
      some (3, some .divisionByZero) by decide +kernel)
  simp only [Prod.mk.injEq] at heq
  have hcrash := Outcome.eq_crash_of_crash? heq.2
  refine ⟨x, Runs.of_exec hx, heq.1, hcrash, fun h => ?_⟩
  cases h.2.deq 2 (by rw [heq.1]; decide) 4 _ hcrash

end MaRing

end Susanow
