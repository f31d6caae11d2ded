import Susanow.Base.Runs
import Susanow.Ma.Ring
import Mathlib.Data.BitVec
import Mathlib.Tactic.Ring

/-! `ssn_ring`: one ring, with counters of what goes in and comes out.

The counters are not set when a ring is made, and count what is asked to go in, not what
goes in: an object that a full ring refuses is counted, and so is a burst the ring takes in
part. What comes out is counted right. All rings are in one list, which the statistics
callback walks. -/
namespace Susanow
open Function Proc

namespace RteRing
variable {α : Type}

/-- `ENOBUFS` -/
def enobufs : Int := 105

/-- `ENOENT` -/
def enoent : Int := 2

def enqueue (obj : α) (r : RteRing α) : Int × RteRing α :=
  if 0 < r.free then (0, {r with objs := r.objs ++ [obj]}) else (-enobufs, r)

/-- What is returned, and the object if there is one. -/
def dequeue (r : RteRing α) : Int × Option α × RteRing α :=
  match r.objs with
  | [] => (-enoent, none, r)
  | obj :: rest => (0, some obj, {r with objs := rest})

end RteRing

/-- The counters of an `ssn_ring`, words of 64 bits. -/
structure RingCounters where
  ipacket : BitVec 64
  opacket : BitVec 64
  ipacketPrev : BitVec 64
  opacketPrev : BitVec 64
  ipps : BitVec 64
  opps : BitVec 64
  deriving DecidableEq, Repr

structure SsnRing (α : Type) extends RingCounters where
  -- null when `rte_ring_create` fails
  ring_ : Option (RteRing α)
  -- what has happened: objects the ring took and gave, and the sums of what was published
  accepted : Nat := 0
  delivered : Nat := 0
  ippsSum : BitVec 64 := 0
  oppsSum : BitVec 64 := 0
  deriving DecidableEq, Repr

namespace SsnRing
variable {α : Type}

def size : Nat := 1024

/-- `ssn_ring::ssn_ring`; `left` is what the memory of the counters held. -/
def init (name : String) (created : Bool) (left : RingCounters) : SsnRing α :=
  {left with ring_ := if created then some {name := name, size := size} else none}

/-- What a call on `ring_` takes in or gives out. -/
def withRing {β : Type} (f : RteRing α → β × RteRing α) : Proc (SsnRing α) β := do
  let s ← get
  match s.ring_ with
  | none => crash .nullPointer
  | some r => do
    Proc.set {s with ring_ := some (f r).2}
    pure (f r).1

/-- `ssn_ring::enq` -/
def enq (obj : α) : Proc (SsnRing α) Int := do
  let ret ← withRing (RteRing.enqueue obj)
  modify fun s => {s with ipacket := s.ipacket + 1, accepted := s.accepted + if ret = 0 then 1 else 0}
  pure ret

/-- `ssn_ring::deq` -/
def deq : Proc (SsnRing α) (Int × Option α) := do
  let ret ← withRing fun r => ((r.dequeue.1, r.dequeue.2.1), r.dequeue.2.2)
  if ret.1 < 0 then pure (-1, none)
  else do
    modify fun s => {s with opacket := s.opacket + 1, delivered := s.delivered + 1}
    pure ret

/-- `ssn_ring::enq_burst`; `rte_ring_enqueue_burst` takes an `unsigned int`. -/
def enqBurst (objTable : Nat → α) (n : BitVec 64) : Proc (SsnRing α) Nat := do
  modify fun s => {s with ipacket := s.ipacket + n}
  let ret ← withRing (RteRing.enqueueBurst ((List.range (n.setWidth 32).toNat).map objTable))
  modify fun s => {s with accepted := s.accepted + ret}
  pure ret

/-- `ssn_ring::deq_burst` -/
def deqBurst (n : BitVec 64) : Proc (SsnRing α) (List α) := do
  let objs ← withRing (RteRing.dequeueBurst (n.setWidth 32).toNat)
  modify fun s => {s with opacket := s.opacket + BitVec.ofNat 64 objs.length, delivered := s.delivered + objs.length}
  pure objs

/-- The body of `ssn_ring_getstats_timer_cb`. -/
def getstats (s : SsnRing α) : SsnRing α :=
  {s with
    ipps := s.ipacket - s.ipacketPrev, opps := s.opacket - s.opacketPrev,
    ipacketPrev := s.ipacket, opacketPrev := s.opacket,
    ippsSum := s.ippsSum + (s.ipacket - s.ipacketPrev), oppsSum := s.oppsSum + (s.opacket - s.opacketPrev)}

/-! ### Conservation -/

def objs (s : SsnRing α) : List α := s.ring_.elim [] RteRing.objs

/-- The counters say what is in the ring, and the published rates what went in and came out, in the
arithmetic of `size_t`. -/
structure Conserved (s : SsnRing α) : Prop where
  holds : s.ipacket - s.opacket = BitVec.ofNat 64 s.objs.length
  ipps : s.ippsSum + (s.ipacket - s.ipacketPrev) = BitVec.ofNat 64 s.accepted
  opps : s.oppsSum + (s.opacket - s.opacketPrev) = BitVec.ofNat 64 s.delivered

/-- The ring is of the size it was made with. -/
def Sized (s : SsnRing α) : Prop := ∀ r, s.ring_ = some r → r.size = size

variable {s : SsnRing α}

theorem getstats_conserved (hs : s.Conserved) : s.getstats.Conserved where
  holds := hs.holds
  ipps := by
    show s.ippsSum + (s.ipacket - s.ipacketPrev) + (s.ipacket - s.ipacket) = BitVec.ofNat 64 s.accepted
    rw [sub_self, add_zero, hs.ipps]
  opps := by
    show s.oppsSum + (s.opacket - s.opacketPrev) + (s.opacket - s.opacket) = BitVec.ofNat 64 s.delivered
    rw [sub_self, add_zero, hs.opps]

/-- The counters that a new ring needs to start with. -/
def Starts (left : RingCounters) : Prop :=
  left.ipacket = left.opacket ∧ left.ipacketPrev = left.ipacket ∧ left.opacketPrev = left.opacket

instance (left : RingCounters) : Decidable (Starts left) := inferInstanceAs (Decidable (_ ∧ _ ∧ _))

theorem init_conserved_iff (name : String) (created : Bool) (left : RingCounters) :
    (init name created left : SsnRing α).Conserved ↔ Starts left := by
  have hobjs : (init name created left : SsnRing α).objs = [] := by
    unfold init objs
    cases created <;> rfl
  constructor
  · intro h
    have holds := h.holds
    rw [hobjs] at holds
    have hi : 0 + (left.ipacket - left.ipacketPrev) = 0 := h.ipps
    have ho : 0 + (left.opacket - left.opacketPrev) = 0 := h.opps
    rw [zero_add] at hi ho
    exact ⟨sub_eq_zero.mp holds, (sub_eq_zero.mp hi).symm, (sub_eq_zero.mp ho).symm⟩
  · rintro ⟨h, hi, ho⟩
    refine ⟨?_, ?_, ?_⟩
    · rw [hobjs]
      exact sub_eq_zero.mpr h
    · show 0 + (left.ipacket - left.ipacketPrev) = 0
      rw [hi, sub_self, add_zero]
    · show 0 + (left.opacket - left.opacketPrev) = 0
      rw [ho, sub_self, add_zero]

theorem objs_eq {r : RteRing α} (hr : s.ring_ = some r) : s.objs = r.objs := by
  rw [objs, hr]
  rfl

/-- `k` objects go in, and are counted as `n`. -/
theorem took_conserved_iff (hs : s.Conserved) {r r' : RteRing α} (hr : s.ring_ = some r) {n : BitVec 64} {k : Nat}
    (hk : r'.objs.length = r.objs.length + k) :
    ({s with ring_ := some r', ipacket := s.ipacket + n, accepted := s.accepted + k} : SsnRing α).Conserved ↔
      n = BitVec.ofNat 64 k := by
  have hold : s.ipacket - s.opacket = BitVec.ofNat 64 r.objs.length := objs_eq hr ▸ hs.holds
  constructor
  · intro h
    have hnew : s.ipacket + n - s.opacket = BitVec.ofNat 64 r'.objs.length := h.holds
    rw [hk, BitVec.ofNat_add, ← hold, add_sub_right_comm] at hnew
    exact add_left_cancel hnew
  · rintro rfl
    refine ⟨?_, ?_, hs.opps⟩
    · show s.ipacket + BitVec.ofNat 64 k - s.opacket = BitVec.ofNat 64 r'.objs.length
      rw [hk, BitVec.ofNat_add, ← hold, add_sub_right_comm]
    · show s.ippsSum + (s.ipacket + BitVec.ofNat 64 k - s.ipacketPrev) = BitVec.ofNat 64 (s.accepted + k)
      rw [BitVec.ofNat_add, ← hs.ipps]
      ring

/-- `k` objects come out, and are counted as so many. -/
theorem gave_conserved (hs : s.Conserved) {r r' : RteRing α} (hr : s.ring_ = some r) {k : Nat}
    (hk : r.objs.length = r'.objs.length + k) :
    ({s with ring_ := some r', opacket := s.opacket + BitVec.ofNat 64 k,
             delivered := s.delivered + k} : SsnRing α).Conserved := by
  have hold : s.ipacket - s.opacket = BitVec.ofNat 64 r.objs.length := objs_eq hr ▸ hs.holds
  refine ⟨?_, hs.ipps, ?_⟩
  · show s.ipacket - (s.opacket + BitVec.ofNat 64 k) = BitVec.ofNat 64 r'.objs.length
    rw [← sub_sub, hold, hk, BitVec.ofNat_add, add_sub_cancel_right]
  · show s.oppsSum + (s.opacket + BitVec.ofNat 64 k - s.opacketPrev) = BitVec.ofNat 64 (s.delivered + k)
    rw [BitVec.ofNat_add, ← hs.opps]
    ring

/-! ### The calls -/

section Calls
variable {r : RteRing α}

theorem withRing_run {β : Type} (f : RteRing α → β × RteRing α) (hr : s.ring_ = some r) :
    withRing f s = .ret (f r).1 {s with ring_ := some (f r).2} := by
  show (match s.ring_ with
    | none => crash .nullPointer
    | some r => do Proc.set {s with ring_ := some (f r).2}; pure (f r).1 : Proc (SsnRing α) β) s = _
  rw [hr]
  rfl

theorem withRing_null {β : Type} (f : RteRing α → β × RteRing α) (hr : s.ring_ = none) :
    withRing f s = .crash .nullPointer := by
  show (match s.ring_ with
    | none => crash .nullPointer
    | some r => do Proc.set {s with ring_ := some (f r).2}; pure (f r).1 : Proc (SsnRing α) β) s = _
  rw [hr]
  rfl

theorem enq_room (hr : s.ring_ = some r) (obj : α) (hroom : 0 < r.free) :
    enq obj s = .ret 0 {s with ring_ := some {r with objs := r.objs ++ [obj]}, ipacket := s.ipacket + 1,
                               accepted := s.accepted + 1} := by
  rw [enq, bind_ret (withRing_run _ hr), RteRing.enqueue, if_pos hroom]
  rfl

theorem enq_full (hr : s.ring_ = some r) (obj : α) (hfull : ¬0 < r.free) :
    enq obj s = .ret (-RteRing.enobufs) {s with ring_ := some r, ipacket := s.ipacket + 1,
                                                accepted := s.accepted + 0} := by
  rw [enq, bind_ret (withRing_run _ hr), RteRing.enqueue, if_neg hfull]
  rfl

theorem enqBurst_run (hr : s.ring_ = some r) (objTable : Nat → α) (n : BitVec 64) :
    ∃ objs, objs.length = min (n.setWidth 32).toNat r.free ∧
      enqBurst objTable n s = .ret objs.length
        {s with ring_ := some {r with objs := r.objs ++ objs}, ipacket := s.ipacket + n,
                accepted := s.accepted + objs.length} := by
  have hlen : (((List.range (n.setWidth 32).toNat).map objTable).take r.free).length =
      min (n.setWidth 32).toNat r.free := by
    rw [List.length_take, List.length_map, List.length_range, Nat.min_comm]
  refine ⟨_, hlen, ?_⟩
  rw [enqBurst, modify_bind]
  rw [bind_ret (withRing_run (s := {s with ipacket := s.ipacket + n}) _ hr), RteRing.enqueueBurst, hlen,
    List.length_map, List.length_range]
  rfl

theorem deq_cons (hr : s.ring_ = some r) {obj : α} {rest : List α} (hobjs : r.objs = obj :: rest) :
    deq s = .ret (0, some obj) {s with ring_ := some {r with objs := rest}, opacket := s.opacket + 1,
                                       delivered := s.delivered + 1} := by
  have hdeq : r.dequeue = (0, some obj, {r with objs := rest}) := by rw [RteRing.dequeue, hobjs]
  rw [deq, bind_ret (withRing_run _ hr), hdeq]
  rfl

theorem deq_nil (hr : s.ring_ = some r) (hobjs : r.objs = []) : deq s = .ret (-1, none) s := by
  have hdeq : r.dequeue = (-RteRing.enoent, none, r) := by rw [RteRing.dequeue, hobjs]
  rw [deq, bind_ret (withRing_run _ hr), hdeq, ← hr]
  rfl

theorem deqBurst_run (hr : s.ring_ = some r) (n : BitVec 64) :
    ∃ objs rest, r.objs = objs ++ rest ∧
      deqBurst n s = .ret objs
        {s with ring_ := some {r with objs := rest}, opacket := s.opacket + BitVec.ofNat 64 objs.length,
                delivered := s.delivered + objs.length} := by
  refine ⟨_, _, (List.take_append_drop (n.setWidth 32).toNat r.objs).symm, ?_⟩
  rw [deqBurst, bind_ret (withRing_run _ hr), RteRing.dequeueBurst]
  rfl

/-- A burst is counted as what is taken just when all of it is. -/
theorem eq_taken_iff {n : BitVec 64} {free : Nat} (hfree : free < 2 ^ 32) :
    n = BitVec.ofNat 64 (min (n.setWidth 32).toNat free) ↔ n.toNat ≤ free := by
  have hn := n.isLt
  rw [BitVec.toNat_eq, BitVec.toNat_ofNat, BitVec.toNat_setWidth]
  constructor
  · intro h
    rw [h]
    omega
  · intro h
    rw [Nat.mod_eq_of_lt (a := n.toNat) (by omega), Nat.min_eq_left h, Nat.mod_eq_of_lt hn]

theorem free_lt (hs : s.Sized) (hr : s.ring_ = some r) : r.free < 2 ^ 32 := by
  have := hs r hr
  rw [RteRing.free, this, size]
  omega

theorem ring_of_ret {β : Type} {f : RteRing α → β × RteRing α} {γ : Type} {g : β → Proc (SsnRing α) γ}
    {a : γ} {s' : SsnRing α} (h : (withRing f >>= g) s = .ret a s') : ∃ r, s.ring_ = some r := by
  cases hr : s.ring_ with
  | none =>
    rw [bind_crash (withRing_null f hr)] at h
    cases h
  | some r => exact ⟨r, rfl⟩

/-- The ring keeps its size. -/
theorem sized_of (hs : s.Sized) (hr : s.ring_ = some r) {s' : SsnRing α} {objs : List α}
    (hr' : s'.ring_ = some {r with objs := objs}) : s'.Sized := by
  intro ring hring
  cases hr'.symm.trans hring
  exact hs r hr

variable {s' : SsnRing α}

theorem enq_step (hs : s.Conserved) (hz : s.Sized) {obj : α} {a : Int} (h : enq obj s = .ret a s') :
    ∃ r, s.ring_ = some r ∧ s'.Sized ∧ (s'.Conserved ↔ 0 < r.free) := by
  obtain ⟨r, hr⟩ := ring_of_ret h
  refine ⟨r, hr, ?_⟩
  by_cases hroom : 0 < r.free
  · cases (enq_room hr obj hroom).symm.trans h
    refine ⟨sized_of hz hr rfl, iff_of_true ?_ hroom⟩
    exact (took_conserved_iff hs hr (List.length_append ..)).mpr rfl
  · cases (enq_full hr obj hroom).symm.trans h
    refine ⟨sized_of hz hr rfl, iff_of_false (fun hc => ?_) hroom⟩
    exact absurd ((took_conserved_iff hs hr rfl).mp hc) (by decide)

theorem enqBurst_step (hs : s.Conserved) (hz : s.Sized) {objTable : Nat → α} {n : BitVec 64} {a : Nat}
    (h : enqBurst objTable n s = .ret a s') :
    ∃ r, s.ring_ = some r ∧ s'.Sized ∧ (s'.Conserved ↔ n.toNat ≤ r.free) := by
  have h' := h
  rw [enqBurst, modify_bind] at h'
  obtain ⟨r, hr⟩ : ∃ r, s.ring_ = some r :=
    ring_of_ret (s := {s with ipacket := s.ipacket + n}) h'
  obtain ⟨objs, hlen, hrun⟩ := enqBurst_run hr objTable n
  cases hrun.symm.trans h
  refine ⟨r, hr, sized_of hz hr rfl, ?_⟩
  rw [← eq_taken_iff (free_lt hz hr), ← hlen]
  exact took_conserved_iff hs hr (List.length_append ..)

theorem deq_step (hs : s.Conserved) (hz : s.Sized) {a : Int × Option α} (h : deq s = .ret a s') :
    s'.Sized ∧ s'.Conserved := by
  obtain ⟨r, hr⟩ := ring_of_ret h
  cases hobjs : r.objs with
  | nil =>
    cases (deq_nil hr hobjs).symm.trans h
    exact ⟨hz, hs⟩
  | cons obj rest =>
    cases (deq_cons hr hobjs).symm.trans h
    refine ⟨sized_of hz hr rfl, gave_conserved (k := 1) hs hr ?_⟩
    rw [hobjs, List.length_cons]

theorem deqBurst_step (hs : s.Conserved) (hz : s.Sized) {n : BitVec 64} {a : List α}
    (h : deqBurst n s = .ret a s') : s'.Sized ∧ s'.Conserved := by
  obtain ⟨r, hr⟩ := ring_of_ret h
  obtain ⟨objs, rest, hobjs, hrun⟩ := deqBurst_run hr n
  cases hrun.symm.trans h
  refine ⟨sized_of hz hr rfl, gave_conserved hs hr ?_⟩
  rw [hobjs, List.length_append, Nat.add_comm]

theorem init_sized (name : String) (created : Bool) (left : RingCounters) :
    (init name created left : SsnRing α).Sized := by
  intro r hr
  unfold init at hr
  cases created <;> cases hr
  rfl

end Calls

end SsnRing

/-! ### All rings -/

/-- `_rings`, and the rings that there are, by their addresses. -/
structure Rings (α : Type) where
  rings : List Nat
  ring : Nat → Option (SsnRing α)

inductive RingCall (α : Type)
  | create (p : Nat) (name : String) (created : Bool) (left : RingCounters)
  | destroy (p : Nat)
  | enq (p : Nat) (obj : α)
  | deq (p : Nat)
  | enqBurst (p : Nat) (objTable : Nat → α) (n : BitVec 64)
  | deqBurst (p : Nat) (n : BitVec 64)
  | getstats

namespace Rings
open SsnRing (Conserved Sized Starts)
variable {α : Type}

def init : Rings α := {rings := [], ring := fun _ => none}

/-- A call on the ring at `p`. -/
def onRing {β : Type} (p : Nat) (f : Proc (SsnRing α) β) : Proc (Rings α) β := do
  let s ← get
  match s.ring p with
  | none => crash .danglingPointer
  | some r => zoom (fun _ => r) (fun s r => {s with ring := update s.ring p (some r)}) f

def create (p : Nat) (name : String) (created : Bool) (left : RingCounters) : Proc (Rings α) Unit :=
  modify fun s =>
    {s with rings := s.rings ++ [p], ring := update s.ring p (some (SsnRing.init name created left))}

/-- `ssn_ring::~ssn_ring` -/
def destroy (p : Nat) : Proc (Rings α) Unit := do
  let _ ← onRing p get
  modify fun s => {s with rings := s.rings.erase p, ring := update s.ring p none}

def getstatsAt (i : Nat) : Proc (Rings α) Unit := do
  let s ← get
  match s.rings[i]? with
  | none => crash .outOfBounds
  | some p => onRing p (modify SsnRing.getstats)

/-- `ssn_ring_getstats_timer_cb` -/
def getstatsTimerCb : Proc (Rings α) Unit := do
  let s ← get
  forRange getstatsAt s.rings.length

def call : RingCall α → Proc (Rings α) Unit
  | .create p name created left => create p name created left
  | .destroy p => destroy p
  | .enq p obj => do
    let _ ← onRing p (SsnRing.enq obj)
    pure ()
  | .deq p => do
    let _ ← onRing p SsnRing.deq
    pure ()
  | .enqBurst p objTable n => do
    let _ ← onRing p (SsnRing.enqBurst objTable n)
    pure ()
  | .deqBurst p n => do
    let _ ← onRing p (SsnRing.deqBurst n)
    pure ()
  | .getstats => getstatsTimerCb

/-- A ring is made where there is none. -/
def Can (s : Rings α) : RingCall α → Prop
  | .create p _ _ _ => (s.ring p).isNone = true
  | _ => True

instance (s : Rings α) : (l : RingCall α) → Decidable (s.Can l)
  | .create p _ _ _ => inferInstanceAs (Decidable ((s.ring p).isNone = true))
  | .destroy _ | .enq _ _ | .deq _ | .enqBurst _ _ _ | .deqBurst _ _ | .getstats => inferInstanceAs (Decidable True)

def step (s : Rings α) (l : RingCall α) : Option (Rings α) :=
  if s.Can l then (call l s).ret?.map Prod.snd else none

/-- The slots of the ring at `p` that are free. -/
def room (s : Rings α) (p : Nat) : Nat := ((s.ring p).bind SsnRing.ring_).elim 0 RteRing.free

/-- A ring starts with counters that fit, and what is put in finds room. -/
def Obliges (s : Rings α) : RingCall α → Prop
  | .create _ _ _ left => Starts left
  | .enq p _ => 0 < s.room p
  | .enqBurst p _ n => n.toNat ≤ s.room p
  | _ => True

instance (s : Rings α) : (l : RingCall α) → Decidable (s.Obliges l)
  | .create _ _ _ left => inferInstanceAs (Decidable (Starts left))
  | .enq p _ => inferInstanceAs (Decidable (0 < s.room p))
  | .enqBurst p _ n => inferInstanceAs (Decidable (n.toNat ≤ s.room p))
  | .destroy _ | .deq _ | .deqBurst _ _ | .getstats => inferInstanceAs (Decidable True)

def AllSized (s : Rings α) : Prop := ∀ p r, s.ring p = some r → r.Sized

def AllConserved (s : Rings α) : Prop := ∀ p r, s.ring p = some r → r.Conserved

variable {s t : Rings α} {p : Nat}

/-! #### One ring among all -/

theorem onRing_eq_ret {β : Type} {f : Proc (SsnRing α) β} {a : β} (h : onRing p f s = .ret a t) :
    ∃ r r', s.ring p = some r ∧ f r = .ret a r' ∧ t = {s with ring := update s.ring p (some r')} := by
  rw [onRing, get_bind] at h
  cases hr : s.ring p with
  | none =>
    rw [hr] at h
    cases h
  | some r =>
    simp only [hr, zoom] at h
    cases hf : f r with
    | ret b r' =>
      rw [hf] at h
      cases h
      exact ⟨r, r', rfl, hf, rfl⟩
    | throws w r' =>
      rw [hf] at h
      cases h
    | crash c =>
      rw [hf] at h
      cases h

theorem step_eq_some {l : RingCall α} (h : step s l = some t) : s.Can l ∧ call l s = .ret () t := by
  unfold step at h
  split at h
  · rename_i hcan
    obtain ⟨⟨_, u⟩, hret, rfl⟩ := Option.map_eq_some_iff.mp h
    exact ⟨hcan, Outcome.eq_ret_of_ret? hret⟩
  · cases h

theorem allSized_update (hs : s.AllSized) {r : SsnRing α} (hr : r.Sized) {rings : List Nat} :
    AllSized {rings := rings, ring := update s.ring p (some r)} := by
  intro q r' hq
  by_cases hqp : q = p
  · subst hqp
    cases (update_self (f := s.ring) ..).symm.trans hq
    exact hr
  · exact hs q r' ((update_of_ne hqp ..).symm.trans hq)

/-- The other rings keep what they have. -/
theorem allConserved_update (hs : s.AllConserved) {r : SsnRing α} {rings : List Nat} :
    AllConserved {rings := rings, ring := update s.ring p (some r)} ↔ r.Conserved := by
  constructor
  · exact fun h => h p r (update_self ..)
  · intro hr q r' hq
    by_cases hqp : q = p
    · subst hqp
      cases (update_self (f := s.ring) ..).symm.trans hq
      exact hr
    · exact hs q r' ((update_of_ne hqp ..).symm.trans hq)

theorem room_eq {r : SsnRing α} {ring : RteRing α} (hr : s.ring p = some r) (hring : r.ring_ = some ring) :
    s.room p = ring.free := by
  rw [room, hr, Option.bind_some, hring]
  rfl

theorem of_update_none {f : Nat → Option (SsnRing α)} {x : Option (SsnRing α)} {q : Nat} {r : SsnRing α}
    (h : update (update f p x) p none q = some r) : f q = some r := by
  rw [update_idem] at h
  by_cases hqp : q = p
  · subst hqp
    rw [update_self] at h
    cases h
  · rwa [update_of_ne hqp] at h

/-! #### Steps -/

theorem getstats_step (hs : s.AllSized) (hc : s.AllConserved) (h : getstatsTimerCb s = .ret () t) :
    t.AllSized ∧ t.AllConserved := by
  rw [getstatsTimerCb, get_bind] at h
  generalize s.rings.length = n at h
  induction n generalizing t with
  | zero =>
    cases h
    exact ⟨hs, hc⟩
  | succ n ih =>
    obtain ⟨_, u, hu, hlast⟩ := bind_eq_ret h
    obtain ⟨hsu, hcu⟩ := ih hu
    rw [getstatsAt, get_bind] at hlast
    cases hp : u.rings[n]? with
    | none =>
      rw [hp] at hlast
      cases hlast
    | some p =>
      simp only [hp] at hlast
      obtain ⟨r, r', hr, hrun, rfl⟩ := onRing_eq_ret hlast
      cases hrun
      exact ⟨allSized_update (r := r.getstats) hsu (hsu p r hr),
        (allConserved_update hcu).mpr (SsnRing.getstats_conserved (hcu p r hr))⟩

theorem step_iff {l : RingCall α} (hs : s.AllSized) (hc : s.AllConserved) (h : step s l = some t) :
    t.AllSized ∧ (t.AllConserved ↔ s.Obliges l) := by
  obtain ⟨-, h⟩ := step_eq_some h
  cases l with
  | create p name created left =>
    cases h
    exact ⟨allSized_update hs (SsnRing.init_sized name created left),
      (allConserved_update hc).trans (SsnRing.init_conserved_iff name created left)⟩
  | destroy p =>
    obtain ⟨_, u, hu, hlast⟩ := bind_eq_ret h
    obtain ⟨r, r', hr, hget, rfl⟩ := onRing_eq_ret hu
    cases hlast
    exact ⟨fun q r h => hs q r (of_update_none h), iff_of_true (fun q r h => hc q r (of_update_none h)) trivial⟩
  | enq p obj =>
    obtain ⟨_, u, hu, hlast⟩ := bind_eq_ret h
    cases hlast
    obtain ⟨r, r', hr, hrun, rfl⟩ := onRing_eq_ret hu
    obtain ⟨ring, hring, hz, hiff⟩ := SsnRing.enq_step (hc p r hr) (hs p r hr) hrun
    refine ⟨allSized_update hs hz, (allConserved_update hc).trans ?_⟩
    rw [hiff, Obliges, room_eq hr hring]
  | deq p =>
    obtain ⟨_, u, hu, hlast⟩ := bind_eq_ret h
    cases hlast
    obtain ⟨r, r', hr, hrun, rfl⟩ := onRing_eq_ret hu
    obtain ⟨hz, hconserved⟩ := SsnRing.deq_step (hc p r hr) (hs p r hr) hrun
    exact ⟨allSized_update hs hz, iff_of_true ((allConserved_update hc).mpr hconserved) trivial⟩
  | enqBurst p objTable n =>
    obtain ⟨_, u, hu, hlast⟩ := bind_eq_ret h
    cases hlast
    obtain ⟨r, r', hr, hrun, rfl⟩ := onRing_eq_ret hu
    obtain ⟨ring, hring, hz, hiff⟩ := SsnRing.enqBurst_step (hc p r hr) (hs p r hr) hrun
    refine ⟨allSized_update hs hz, (allConserved_update hc).trans ?_⟩
    rw [hiff, Obliges, room_eq hr hring]
  | deqBurst p n =>
    obtain ⟨_, u, hu, hlast⟩ := bind_eq_ret h
    cases hlast
    obtain ⟨r, r', hr, hrun, rfl⟩ := onRing_eq_ret hu
    obtain ⟨hz, hconserved⟩ := SsnRing.deqBurst_step (hc p r hr) (hs p r hr) hrun
    exact ⟨allSized_update hs hz, iff_of_true ((allConserved_update hc).mpr hconserved) trivial⟩
  | getstats =>
    obtain ⟨hz, hconserved⟩ := getstats_step hs hc h
    exact ⟨hz, iff_of_true hconserved trivial⟩

/-- Every ring is conserved in every state of a run just when every step of the run does what is asked. -/
theorem conserved_iff {ls : List (RingCall α)} {t : Rings α} (h : Runs step Always init ls t) :
    (∀ ms, ms <+: ls → ∀ u, exec step init ms = some u → u.AllConserved) ↔ Runs step Obliges init ls t := by
  refine h.prefixes_iff (I := AllSized) nofun nofun fun s l t hs hc h => ?_
  exact step_iff hs hc h

/-- A ring that starts with equal counters, takes two objects and gives one. -/
def throughRun : List (RingCall Nat) :=
  [.create 8 "ring" true ⟨3, 3, 3, 3, 0, 0⟩, .enqBurst 8 (fun k => k) 2, .getstats, .deq 8]

theorem conserved_iff_of_throughRun :
    ∃ t, exec step init throughRun = some t ∧
      ((∀ ms, ms <+: throughRun → ∀ u, exec step init ms = some u → u.AllConserved) ↔
        Runs step Obliges init throughRun t) := by
  obtain ⟨t, ht, -⟩ := Option.map_eq_some_iff.mp
    (show (exec step init throughRun).map (fun t => (t.ring 8).map (·.delivered)) = some (some 1) by
      decide +kernel)
  exact ⟨t, ht, conserved_iff (Runs.of_exec ht)⟩

/-- A burst of one object more than the ring holds. -/
def burstRun : List (RingCall Nat) :=
  [.create 8 "ring" true ⟨0, 0, 0, 0, 0, 0⟩, .enqBurst 8 (fun k => k) 1024]

theorem not_conserved : ¬∀ ls (t : Rings Nat), Runs step Always init ls t → t.AllConserved := by
  intro h
  obtain ⟨t, ht, hring⟩ := Option.map_eq_some_iff.mp
    (show (exec step init burstRun).map (fun t => (t.ring 8).map fun r => (r.ipacket - r.opacket, r.objs.length)) =
      some (some (1024, 1023)) by decide +kernel)
  obtain ⟨r, hr, hcount⟩ := Option.map_eq_some_iff.mp hring
  have holds := (h burstRun t (Runs.of_exec ht) 8 r hr).holds
  rw [Prod.mk.injEq] at hcount
  rw [hcount.1, hcount.2] at holds
  exact absurd holds (by decide)

end Rings
end Susanow
