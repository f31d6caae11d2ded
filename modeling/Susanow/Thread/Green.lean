import Susanow.Base.Runs
import Susanow.Thread.Native
import Mathlib.Data.List.Nodup

/-! Green threads, and the ids they share with native ones.

A thread id is a word of 32 bits. A native thread has its lcore for an id; a green one has
its lcore in the lower half and a counter of launches in the upper one, and join and
joinable go by the upper half. The counter goes on after its lower 16 bits, all that the
shift keeps of it, are zero again: that launch returns an id that reads as a native one,
and from then on ids come again.

Threads are numbered in the order of their launches, whichever way they are launched. -/
namespace Susanow

/-- `ssn_lcore_state` -/
inductive LcoreState
  | wait
  | runningGreen
  | runningNative
  | runningTimer
  | finished
  deriving DecidableEq, Repr

/-- `ssn_green_thread`, with its number and the counter its id was made from. -/
structure GreenThread where
  thread : Nat
  lcoreId : Nat
  subtid : BitVec 32
  tid : BitVec 32
  dead : Bool := false
  deriving DecidableEq, Repr

/-- An id that a launch has returned. -/
structure Returned where
  tid : BitVec 32
  thread : Nat
  green : Bool
  deriving DecidableEq, Repr

structure Threads where
  subtid : BitVec 32 := 1
  threads : List GreenThread := []
  -- what is launched natively: a thread, by its number, or `_green_thread_master`
  native : Native (Option Nat)
  lcoreState : Nat → LcoreState := fun _ => .wait
  -- what has happened: launches so far, the ids they returned, the threads joined
  launches : Nat := 0
  returned : List Returned := []
  joined : List Nat := []

def greenTid (lcoreId : Nat) (subtid : BitVec 32) : BitVec 32 :=
  BitVec.ofNat 32 (lcoreId + (subtid <<< 16).toNat)

/-- `ssn_tid_is_green_thread` -/
def tidIsGreenThread (tid : BitVec 32) : Bool := tid &&& 0xffff0000#32 != 0

theorem greenTid_toNat {l : Nat} (hl : l < 65536) (c : BitVec 32) :
    (greenTid l c).toNat = l + c.toNat % 65536 * 65536 := by
  have hshift : (c <<< 16).toNat = c.toNat % 65536 * 65536 := by
    rw [BitVec.toNat_shiftLeft, Nat.shiftLeft_eq]
    omega
  rw [greenTid, BitVec.toNat_ofNat, hshift]
  omega

/-- The mask keeps the upper half. -/
theorem upperHalf_getElem : ∀ i (hi : i < 32), (0xffff0000#32)[i] = decide (16 ≤ i) := by decide

/-- The upper half is empty in the ids below 65536. -/
theorem tidIsGreenThread_iff (tid : BitVec 32) : tidIsGreenThread tid = true ↔ 65536 ≤ tid.toNat := by
  have hzero : tid &&& 0xffff0000#32 = 0 ↔ tid.toNat < 2 ^ 16 := by
    constructor
    · intro h
      refine Nat.lt_pow_two_of_testBit _ fun i hi => ?_
      by_cases hlt : i < 32
      · have hbit := congrArg (·[i]) h
        rw [BitVec.testBit_toNat, BitVec.getLsbD_eq_getElem hlt]
        simpa [upperHalf_getElem i hlt, hi] using hbit
      · exact Nat.testBit_lt_two_pow (Nat.lt_of_lt_of_le tid.isLt (Nat.pow_le_pow_right (by decide) (by omega)))
    · intro h
      ext i hi
      by_cases h16 : 16 ≤ i
      · have hbit : tid[i] = false := by
          rw [← BitVec.getLsbD_eq_getElem]
          exact Nat.testBit_lt_two_pow (Nat.lt_of_lt_of_le h (Nat.pow_le_pow_right (by decide) h16))
        simp [hbit]
      · simp [upperHalf_getElem i hi, h16]
  rw [tidIsGreenThread, bne_iff_ne, Ne, hzero]
  exact Nat.not_lt

namespace Threads

def init (nLcore : Nat) : Threads := {native := ⟨nLcore, fun _ => none, [], fun _ => .wait⟩}

/-- `cpu.lcores[lcore_id].state = s` -/
def setLcoreState (st : LcoreState) (l : Nat) : Proc Threads Unit :=
  Proc.modify fun s => {s with lcoreState := Function.update s.lcoreState l st}

def lcoreidIsGreenThread (l : Nat) : Proc Threads Bool := do
  let s ← Proc.get
  if l < s.native.nLcore then pure (s.lcoreState l == .runningGreen) else Proc.crash .outOfBounds

def onNative {α : Type} (p : Proc (Native (Option Nat)) α) : Proc Threads α :=
  Proc.zoom Threads.native (fun s n => {s with native := n}) p

/-- The launch returns `tid`. -/
def note (tid : BitVec 32) (green : Bool) : Proc Threads (BitVec 32) := do
  Proc.modify fun s => {s with launches := s.launches + 1, returned := s.returned ++ [⟨tid, s.launches, green⟩]}
  pure tid

def greenThreadLaunch (l : Nat) : Proc Threads (BitVec 32) := do
  let green ← lcoreidIsGreenThread l
  if !green then Proc.throw "is not green thread lcore"
  else
    let s ← Proc.get
    let tid := greenTid l s.subtid
    Proc.set {s with subtid := s.subtid + 1, threads := s.threads ++ [⟨s.launches, l, s.subtid, tid, false⟩]}
    note tid true

def nativeThreadLaunch (l : Nat) : Proc Threads (BitVec 32) := do
  let s ← Proc.get
  let l ← onNative (Native.nativeLaunch (some s.launches) l)
  note (BitVec.ofNat 32 l) false

/-- `ssn_thread_launch` -/
def threadLaunch (l : Nat) : Proc Threads (BitVec 32) :=
  if l = 0 then Proc.throw "ssn_thread_launch: lcore_id is master's id"
  else do
    let green ← lcoreidIsGreenThread l
    if green then greenThreadLaunch l else nativeThreadLaunch l

/-- `ssn_green_thread_sched_register` up to its `ssn_set_lcore_state`, before or after which
the lcore gets to its own. -/
def greenThreadSchedRegister (l : Nat) : Proc Threads Unit := do
  let _ ← onNative (Native.nativeLaunch none l)
  pure ()

/-- The scheduler is told to end. -/
def greenThreadSchedUnregister (l : Nat) : Proc Threads Unit := do
  let green ← lcoreidIsGreenThread l
  if !green then Proc.throw "is not green thread lcore"
  else setLcoreState .finished l

def greenThreadJoinable (tid : BitVec 32) : Proc Threads Bool := do
  let s ← Proc.get
  match s.threads.find? (·.tid == tid) with
  | none => Proc.throw "ssn_green_thread_joinable: tid not found"
  | some g => pure g.dead

/-- `ssn_green_thread_join` once the thread is joinable. -/
def greenThreadJoin (tid : BitVec 32) : Proc Threads Unit := do
  let s ← Proc.get
  match s.threads.find? (·.tid == tid) with
  | none => Proc.throw "ssn_green_thread_join: tid not found"
  | some g => Proc.set {s with threads := s.threads.eraseP (·.tid == tid), joined := g.thread :: s.joined}

def nativeThreadJoinable (tid : BitVec 32) : Proc Threads Bool := do
  let s ← Proc.get
  pure (s.native.lcore tid.toNat matches .finished _)

/-- The number of the thread launched on `l`. -/
def launchedOn (s : Threads) (l : Nat) : Option Nat := ((s.native.lcore l).launched).join

/-- `ssn_native_thread_join` once the lcore has stopped. -/
def nativeThreadJoin (tid : BitVec 32) : Proc Threads Unit := do
  let s ← Proc.get
  onNative (Native.join tid.toNat)
  if tid = 0 then pure ()
  else do
    setLcoreState .wait tid.toNat
    Proc.modify fun s' => {s' with joined := (s.launchedOn tid.toNat).toList ++ s'.joined}

/-- `ssn_thread_joinable` -/
def threadJoinable (tid : BitVec 32) : Proc Threads Bool :=
  if tidIsGreenThread tid then greenThreadJoinable tid else nativeThreadJoinable tid

/-- `ssn_thread_join` once it has nothing left to wait for. -/
def threadJoin (tid : BitVec 32) : Proc Threads Unit :=
  if tidIsGreenThread tid then greenThreadJoin tid else nativeThreadJoin tid

/-- Whether a join has still to wait. -/
def joinWaits (s : Threads) (tid : BitVec 32) : Bool :=
  if tidIsGreenThread tid then (s.threads.find? (·.tid == tid)).any fun g => !g.dead
  else tid != 0 && (s.native.lcore tid.toNat).isRunning

/-- The thread that joinable and join look at. -/
def target (s : Threads) (tid : BitVec 32) : Option Nat :=
  if tidIsGreenThread tid then (s.threads.find? (·.tid == tid)).map GreenThread.thread
  else s.launchedOn tid.toNat

end Threads

inductive Deed
  | launch (l : Nat)
  | greenLaunch (l : Nat)
  | nativeLaunch (l : Nat)
  | register (l : Nat)
  | unregister (l : Nat)
  -- `ssn_set_lcore_state`, of a register or of another module
  | mark (st : LcoreState) (l : Nat)
  -- a launched lcore reads its slot; the function it called returns
  | start (l : Nat)
  | finish (l : Nat)
  | greenEnd (thread : Nat)
  | join (tid : BitVec 32)
  deriving DecidableEq, Repr

namespace Threads

/-- What a call leaves, returned or thrown. -/
def after {α : Type} (s : Threads) (p : Proc Threads α) : Option Threads :=
  match p s with
  | .ret _ s' => some s'
  | .throws _ s' => some s'
  | .crash _ => none

def step (s : Threads) : Deed → Option Threads
  | .launch l => s.after (threadLaunch l)
  | .greenLaunch l => s.after (greenThreadLaunch l)
  | .nativeLaunch l => s.after (nativeThreadLaunch l)
  | .register l => s.after (greenThreadSchedRegister l)
  | .unregister l => s.after (greenThreadSchedUnregister l)
  | .mark st l => s.after (setLcoreState st l)
  | .start l => (Native.fetch l s.native).map fun n =>
      {s with native := n, lcoreState := Function.update s.lcoreState l .runningNative}
  | .finish l =>
    match s.native.lcore l with
    | .running t (.entered _) =>
      some {s with native := {s.native with lcore := Function.update s.native.lcore l (.finished t)},
                   lcoreState := Function.update s.lcoreState l .finished}
    | _ => none
  | .greenEnd thread =>
    some {s with threads := s.threads.map fun g => if g.thread = thread then {g with dead := true} else g}
  | .join tid => if s.joinWaits tid then none else s.after (threadJoin tid)

/-- Ids route joins to the module that launched, differ among the green threads that are not
joined, and lead back to the thread whose launch returned them. -/
structure Sound (s : Threads) : Prop where
  routed : ∀ r ∈ s.returned, tidIsGreenThread r.tid = r.green
  distinct : (s.threads.map GreenThread.tid).Nodup
  acts : ∀ r ∈ s.returned, r.tid ≠ 0 → r.thread ∉ s.joined → s.target r.tid = some r.thread

/-- The lower 16 bits of the counter are not zero, and no green thread of the lcore that was
launched with the same ones is still to be joined. -/
def Fresh (s : Threads) (l : Nat) : Prop :=
  s.subtid.toNat % 65536 ≠ 0 ∧
    ∀ g ∈ s.threads, g.lcoreId = l → g.subtid.toNat % 65536 ≠ s.subtid.toNat % 65536

/-- Green threads are launched while their ids are fresh. -/
def LaunchesFresh (s : Threads) : Deed → Prop
  | .launch l => l ≠ 0 → s.lcoreState l = .runningGreen → s.Fresh l
  | .greenLaunch l => s.lcoreState l = .runningGreen → s.Fresh l
  | _ => True

/-! ### What calls leave -/

def greenLaunched (s : Threads) (l : Nat) : Threads :=
  {s with subtid := s.subtid + 1,
          threads := s.threads ++ [⟨s.launches, l, s.subtid, greenTid l s.subtid, false⟩],
          launches := s.launches + 1,
          returned := s.returned ++ [⟨greenTid l s.subtid, s.launches, true⟩]}

def nativeLaunched (s : Threads) (l : Nat) : Threads :=
  {s with native := Native.started (some s.launches) l s.native, launches := s.launches + 1,
          returned := s.returned ++ [⟨BitVec.ofNat 32 l, s.launches, false⟩]}

theorem greenThreadLaunch_run (l : Nat) (s : Threads) :
    greenThreadLaunch l s =
      if l < s.native.nLcore then
        if s.lcoreState l = .runningGreen then .ret (greenTid l s.subtid) (s.greenLaunched l)
        else .throws "is not green thread lcore" s
      else .crash .outOfBounds := by
  unfold greenThreadLaunch lcoreidIsGreenThread
  by_cases hl : l < s.native.nLcore
  · by_cases hg : s.lcoreState l = .runningGreen <;>
      simp [Proc.bind_run, hl, hg, note, greenLaunched]
  · simp [Proc.bind_run, hl]

theorem greenThreadSchedUnregister_run (l : Nat) (s : Threads) :
    greenThreadSchedUnregister l s =
      if l < s.native.nLcore then
        if s.lcoreState l = .runningGreen then
          .ret () {s with lcoreState := Function.update s.lcoreState l .finished}
        else .throws "is not green thread lcore" s
      else .crash .outOfBounds := by
  unfold greenThreadSchedUnregister lcoreidIsGreenThread
  by_cases hl : l < s.native.nLcore
  · by_cases hg : s.lcoreState l = .runningGreen <;> simp [Proc.bind_run, hl, hg, setLcoreState]
  · simp [Proc.bind_run, hl]

theorem nativeThreadLaunch_run (l : Nat) (s : Threads) :
    nativeThreadLaunch l s =
      if s.native.nLcore ≤ l then .throws "too huge lcore_id?" s
      else if s.native.lcore l = .wait then .ret (BitVec.ofNat 32 l) (s.nativeLaunched l)
      else .throws "rte_eal_remote_launch" {s with native := Native.marked (some s.launches) l s.native} := by
  rw [nativeThreadLaunch, Proc.get_bind, Proc.bind_run, onNative]
  simp only [Proc.zoom, Native.nativeLaunch_run]
  by_cases hle : s.native.nLcore ≤ l
  · rw [if_pos hle, if_pos hle]
  · cases hl : s.native.lcore l <;> simp [hle, note, nativeLaunched]

theorem threadLaunch_run (l : Nat) (s : Threads) :
    threadLaunch l s =
      if l = 0 then .throws "ssn_thread_launch: lcore_id is master's id" s
      else if l < s.native.nLcore then
        if s.lcoreState l = .runningGreen then greenThreadLaunch l s else nativeThreadLaunch l s
      else .crash .outOfBounds := by
  unfold threadLaunch lcoreidIsGreenThread
  by_cases h0 : l = 0
  · simp [h0]
  · by_cases hl : l < s.native.nLcore
    · by_cases hg : s.lcoreState l = .runningGreen <;> simp [Proc.bind_run, h0, hl, hg]
    · simp [Proc.bind_run, h0, hl]

theorem nativeThreadJoin_zero (s : Threads) : nativeThreadJoin 0 s = .ret () s := by
  rw [nativeThreadJoin, Proc.get_bind]
  rfl

/-- A native join leaves its lcore waiting, also when it finds no id to drop and throws. -/
theorem nativeThreadJoin_mem {tid : BitVec 32} {s : Threads} (h0 : tid ≠ 0) (hmem : tid.toNat ∈ s.native.tids) :
    nativeThreadJoin tid s = .ret ()
      {s with native := {s.native with lcore := Function.update s.native.lcore tid.toNat .wait,
                                       tids := s.native.tids.erase tid.toNat},
              lcoreState := Function.update s.lcoreState tid.toNat .wait,
              joined := (s.launchedOn tid.toNat).toList ++ s.joined} := by
  have hnat : tid.toNat ≠ 0 := fun h => h0 (BitVec.eq_of_toNat_eq h)
  rw [nativeThreadJoin, Proc.get_bind, Proc.bind_run, onNative, Proc.zoom, Native.join_of_mem hnat hmem,
    if_neg h0]
  rfl

theorem nativeThreadJoin_not_mem {tid : BitVec 32} {s : Threads} (h0 : tid ≠ 0)
    (hmem : tid.toNat ∉ s.native.tids) :
    ∃ w, nativeThreadJoin tid s = .throws w
      {s with native := {s.native with lcore := Function.update s.native.lcore tid.toNat .wait}} := by
  have hnat : tid.toNat ≠ 0 := fun h => h0 (BitVec.eq_of_toNat_eq h)
  obtain ⟨w, hw⟩ := Native.join_of_not_mem hnat hmem
  refine ⟨w, ?_⟩
  rw [nativeThreadJoin, Proc.get_bind, Proc.bind_run, onNative, Proc.zoom, hw]

/-- A join that returns has joined its target. -/
theorem joined_of_threadJoin {tid : BitVec 32} {s s' : Threads} (h0 : tid ≠ 0)
    (h : threadJoin tid s = .ret () s') : s'.joined = (s.target tid).toList ++ s.joined := by
  unfold threadJoin at h
  unfold target
  split_ifs at h ⊢ with hgreen
  · rw [greenThreadJoin, Proc.get_bind] at h
    cases hfind : s.threads.find? (·.tid == tid) with
    | none =>
      rw [hfind] at h
      cases h
    | some g =>
      rw [hfind] at h
      cases h
      rfl
  · by_cases hmem : tid.toNat ∈ s.native.tids
    · rw [nativeThreadJoin_mem h0 hmem] at h
      cases h
      rfl
    · obtain ⟨w, hw⟩ := nativeThreadJoin_not_mem h0 hmem
      rw [hw] at h
      cases h

/-! ### What the rule keeps true -/

structure Inv (s : Threads) : Prop where
  lcores : s.native.nLcore ≤ 65536
  made : ∀ g ∈ s.threads, g.lcoreId < 65536 ∧ g.tid = greenTid g.lcoreId g.subtid
  distinct : (s.threads.map GreenThread.tid).Nodup
  routed : ∀ r ∈ s.returned, tidIsGreenThread r.tid = r.green
  -- a thread that is not joined is in the table of its kind, under its id
  green : ∀ r ∈ s.returned, r.green = true → r.thread ∉ s.joined →
    ∃ g ∈ s.threads, g.thread = r.thread ∧ g.tid = r.tid
  native : ∀ r ∈ s.returned, r.green = false → r.thread ∉ s.joined →
    s.launchedOn r.tid.toNat = some r.thread
  booked : ∀ l, (s.native.lcore l).launched ≠ none → l ∈ s.native.tids

theorem Inv.init {nLcore : Nat} (h : nLcore ≤ 65536) : (init nLcore).Inv :=
  ⟨h, nofun, List.nodup_nil, nofun, nofun, nofun, fun _ hne => absurd rfl hne⟩

/-- Ids lead to one green thread. -/
theorem Inv.unique {s : Threads} (h : s.Inv) {g g' : GreenThread} (hg : g ∈ s.threads) (hg' : g' ∈ s.threads)
    (htid : g.tid = g'.tid) : g = g' :=
  List.inj_on_of_nodup_map h.distinct hg hg' htid

theorem Inv.find {s : Threads} (h : s.Inv) {g : GreenThread} (hg : g ∈ s.threads) :
    s.threads.find? (·.tid == g.tid) = some g := by
  cases hfind : s.threads.find? (·.tid == g.tid) with
  | none => exact absurd (List.find?_eq_none.mp hfind g hg) (by simp)
  | some g' =>
    have htid : g'.tid = g.tid := by simpa using List.find?_some hfind
    rw [h.unique (List.mem_of_find?_eq_some hfind) hg htid]

theorem Inv.sound {s : Threads} (h : s.Inv) : s.Sound := by
  refine ⟨h.routed, h.distinct, fun r hr _ hjoin => ?_⟩
  unfold target
  cases hgreen : r.green with
  | true =>
    obtain ⟨g, hg, hthread, htid⟩ := h.green r hr hgreen hjoin
    rw [h.routed r hr, hgreen, if_pos rfl, ← htid, h.find hg]
    exact congrArg some hthread
  | false =>
    rw [h.routed r hr, hgreen, if_neg Bool.false_ne_true]
    exact h.native r hr hgreen hjoin

section Step
variable {s s' : Threads}

/-- A step that makes no thread and joins none. -/
theorem Inv.quiet (h : s.Inv) (hn : s'.native.nLcore = s.native.nLcore) (hthreads : s'.threads = s.threads)
    (hreturned : s'.returned = s.returned) (hjoined : s'.joined = s.joined)
    (hlcore : ∀ l k, s.launchedOn l = some k → s'.launchedOn l = some k)
    (hbooked : ∀ l, (s'.native.lcore l).launched ≠ none → l ∈ s'.native.tids) : s'.Inv := by
  refine ⟨by rw [hn]; exact h.lcores, ?_, ?_, ?_, ?_, ?_, hbooked⟩
  · rw [hthreads]
    exact h.made
  · rw [hthreads]
    exact h.distinct
  · rw [hreturned]
    exact h.routed
  · rw [hreturned, hjoined, hthreads]
    exact h.green
  · rw [hreturned, hjoined]
    exact fun r hr hgreen hjoin => hlcore _ _ (h.native r hr hgreen hjoin)

/-- A launch returns an id. -/
theorem Inv.note (h : s.Inv) {r : Returned} (hroute : tidIsGreenThread r.tid = r.green)
    (hgreen : r.green = true → ∃ g ∈ s.threads, g.thread = r.thread ∧ g.tid = r.tid)
    (hnative : r.green = false → s.launchedOn r.tid.toNat = some r.thread) (k : Nat) :
    ({s with launches := k, returned := s.returned ++ [r]} : Threads).Inv := by
  refine ⟨h.lcores, h.made, h.distinct, ?_, ?_, ?_, h.booked⟩
  · intro r' hr'
    rcases List.mem_append.mp hr' with hr' | hr'
    · exact h.routed r' hr'
    · obtain rfl := List.mem_singleton.mp hr'
      exact hroute
  · intro r' hr' hg hj
    rcases List.mem_append.mp hr' with hr' | hr'
    · exact h.green r' hr' hg hj
    · obtain rfl := List.mem_singleton.mp hr'
      exact hgreen hg
  · intro r' hr' hg hj
    rcases List.mem_append.mp hr' with hr' | hr'
    · exact h.native r' hr' hg hj
    · obtain rfl := List.mem_singleton.mp hr'
      exact hnative hg

/-- A fresh counter makes an id that reads as a green one and is nobody's. -/
theorem Inv.fresh_tid (h : s.Inv) {l : Nat} (hl : l < 65536) (hfresh : s.Fresh l) :
    tidIsGreenThread (greenTid l s.subtid) = true ∧
      greenTid l s.subtid ∉ s.threads.map GreenThread.tid := by
  constructor
  · rw [tidIsGreenThread_iff, greenTid_toNat hl]
    have := hfresh.1
    omega
  · intro hmem
    obtain ⟨g, hg, htid⟩ := List.mem_map.mp hmem
    obtain ⟨hlt, hmade⟩ := h.made g hg
    have hnat := congrArg BitVec.toNat (hmade.symm.trans htid)
    rw [greenTid_toNat hlt, greenTid_toNat hl] at hnat
    exact hfresh.2 g hg (by omega) (by omega)

theorem Inv.greenLaunched (h : s.Inv) {l : Nat} (hl : l < 65536) (hfresh : s.Fresh l) :
    (s.greenLaunched l).Inv := by
  obtain ⟨hroute, hnew⟩ := h.fresh_tid hl hfresh
  let g : GreenThread := ⟨s.launches, l, s.subtid, greenTid l s.subtid, false⟩
  have hgrown : ({s with subtid := s.subtid + 1, threads := s.threads ++ [g]} : Threads).Inv := by
    refine ⟨h.lcores, ?_, ?_, h.routed, ?_, h.native, h.booked⟩
    · intro g' hg'
      rcases List.mem_append.mp hg' with hg' | hg'
      · exact h.made g' hg'
      · obtain rfl := List.mem_singleton.mp hg'
        exact ⟨hl, rfl⟩
    · rw [List.map_append]
      refine List.Nodup.append h.distinct (List.nodup_singleton _) ?_
      intro tid htid htid'
      rw [List.map_singleton, List.mem_singleton] at htid'
      rw [htid'] at htid
      exact hnew htid
    · intro r hr hgreen hj
      obtain ⟨g', hg', heq⟩ := h.green r hr hgreen hj
      exact ⟨g', List.mem_append_left _ hg', heq⟩
  refine hgrown.note (r := ⟨greenTid l s.subtid, s.launches, true⟩) hroute (fun _ => ?_) nofun _
  exact ⟨g, List.mem_append_right _ (List.mem_singleton_self g), rfl, rfl⟩

theorem launchedOn_of_wait {l : Nat} (hl : s.native.lcore l = .wait) : s.launchedOn l = none := by
  rw [launchedOn, hl]
  rfl

/-- An lcore that waited is started. -/
theorem Inv.started (h : s.Inv) {l : Nat} (hl : s.native.lcore l = .wait) (t : Option Nat) :
    ({s with native := Native.started t l s.native} : Threads).Inv := by
  refine h.quiet rfl rfl rfl rfl (fun l' k hk => ?_) fun l' hne => ?_
  · have hll : l' ≠ l := by
      rintro rfl
      rw [launchedOn_of_wait hl] at hk
      cases hk
    simpa [launchedOn, Native.started, Function.update_of_ne hll] using hk
  · by_cases hll : l' = l
    · subst hll
      exact List.mem_append_right _ (List.mem_singleton_self _)
    · simp only [Native.started, Function.update_of_ne hll] at hne
      exact List.mem_append_left _ (h.booked l' hne)

/-- A launch dpdk refuses grows `tids` and writes a slot. -/
theorem Inv.marked (h : s.Inv) (t : Option Nat) (l : Nat) :
    ({s with native := Native.marked t l s.native} : Threads).Inv :=
  h.quiet rfl rfl rfl rfl (fun _ _ hk => hk) fun l' hne => List.mem_append_left _ (h.booked l' hne)

theorem Inv.nativeLaunched (h : s.Inv) {l : Nat} (hlt : l < s.native.nLcore) (hl : s.native.lcore l = .wait) :
    (s.nativeLaunched l).Inv := by
  have hlt' : l < 65536 := Nat.lt_of_lt_of_le hlt h.lcores
  have hnat : (BitVec.ofNat 32 l).toNat = l := by
    rw [BitVec.toNat_ofNat]
    omega
  refine (h.started hl (some s.launches)).note (r := ⟨BitVec.ofNat 32 l, s.launches, false⟩) ?_ nofun
    (fun _ => ?_) _
  · rw [Bool.eq_false_iff, Ne, tidIsGreenThread_iff, hnat]
    omega
  · rw [hnat]
    simp [launchedOn, Native.started, Lcore.launched]

/-- Only the state the module keeps of an lcore changes. -/
theorem Inv.setLcoreState (h : s.Inv) (f : Nat → LcoreState) : ({s with lcoreState := f} : Threads).Inv :=
  h.quiet rfl rfl rfl rfl (fun _ _ hk => hk) h.booked

/-- A launched lcore goes on. -/
theorem Inv.proceed (h : s.Inv) {l : Nat} {c : Lcore (Option Nat)}
    (hc : c.launched = (s.native.lcore l).launched) (f : Nat → LcoreState) :
    ({s with native := {s.native with lcore := Function.update s.native.lcore l c}, lcoreState := f} :
      Threads).Inv := by
  have hsame (l' : Nat) :
      (Function.update s.native.lcore l c l').launched = (s.native.lcore l').launched := by
    by_cases hll : l' = l
    · subst hll
      rw [Function.update_self, hc]
    · rw [Function.update_of_ne hll]
  refine h.quiet rfl rfl rfl rfl (fun l' k hk => ?_) fun l' hne => h.booked l' ?_
  · simpa [launchedOn, hsame] using hk
  · simpa [hsame] using hne

theorem Inv.greenEnd (h : s.Inv) (f : GreenThread → GreenThread)
    (hf : ∀ g, (f g).thread = g.thread ∧ (f g).lcoreId = g.lcoreId ∧ (f g).subtid = g.subtid ∧
      (f g).tid = g.tid) : ({s with threads := s.threads.map f} : Threads).Inv := by
  refine ⟨h.lcores, ?_, ?_, h.routed, ?_, h.native, h.booked⟩
  · intro g hg
    obtain ⟨g', hg', rfl⟩ := List.mem_map.mp hg
    obtain ⟨-, hl, hsub, htid⟩ := hf g'
    rw [hl, hsub, htid]
    exact h.made g' hg'
  · have hsame : s.threads.map (GreenThread.tid ∘ f) = s.threads.map GreenThread.tid :=
      List.map_congr_left fun g _ => (hf g).2.2.2
    rw [List.map_map, hsame]
    exact h.distinct
  · intro r hr hgreen hj
    obtain ⟨g, hg, hthread, htid⟩ := h.green r hr hgreen hj
    exact ⟨f g, List.mem_map_of_mem hg, (hf g).1.trans hthread, (hf g).2.2.2.trans htid⟩

/-- The joined green thread leaves the table, and no other does. -/
theorem Inv.greenJoined (h : s.Inv) {tid : BitVec 32} {g : GreenThread}
    (hfind : s.threads.find? (·.tid == tid) = some g) :
    ({s with threads := s.threads.eraseP (·.tid == tid), joined := g.thread :: s.joined} : Threads).Inv := by
  have hsub : (s.threads.eraseP (·.tid == tid)).Sublist s.threads := List.eraseP_sublist
  refine ⟨h.lcores, fun g' hg' => h.made g' (hsub.subset hg'), h.distinct.sublist (hsub.map _), h.routed,
    fun r hr hgreen hj => ?_, fun r hr hgreen hj => h.native r hr hgreen fun hmem => hj (List.mem_cons_of_mem _ hmem),
    h.booked⟩
  obtain ⟨g', hg', hthread, htid⟩ := h.green r hr hgreen fun hmem => hj (List.mem_cons_of_mem _ hmem)
  refine ⟨g', ?_, hthread, htid⟩
  rw [List.mem_eraseP_of_neg]
  · exact hg'
  · intro heq
    have hsame : g' = g := h.unique hg' (List.mem_of_find?_eq_some hfind) <| by
      rw [show g'.tid = tid by simpa using heq, show g.tid = tid by simpa using List.find?_some hfind]
    exact hj (by rw [← hthread, hsame]; exact List.mem_cons_self)

/-- The lcore of a joined thread waits again. -/
theorem Inv.nativeJoined (h : s.Inv) {l : Nat} {tids : List Nat}
    (htids : ∀ l' ∈ s.native.tids, l' ≠ l → l' ∈ tids) (f : Nat → LcoreState) :
    ({s with native := {s.native with lcore := Function.update s.native.lcore l .wait, tids := tids},
             lcoreState := f, joined := (s.launchedOn l).toList ++ s.joined} : Threads).Inv := by
  refine ⟨h.lcores, h.made, h.distinct, h.routed, ?_, ?_, ?_⟩
  · exact fun r hr hgreen hj => h.green r hr hgreen fun hmem => hj (List.mem_append_right _ hmem)
  · intro r hr hgreen hj
    have hlaunched := h.native r hr hgreen fun hmem => hj (List.mem_append_right _ hmem)
    have hll : r.tid.toNat ≠ l := by
      rintro rfl
      exact hj (List.mem_append_left _ (by simp [hlaunched]))
    simpa [launchedOn, Function.update_of_ne hll] using hlaunched
  · intro l' hne
    by_cases hll : l' = l
    · subst hll
      simp [Lcore.launched] at hne
    · simp only [Function.update_of_ne hll] at hne
      exact htids l' (h.booked l' hne) hll

theorem Inv.greenThreadLaunch (h : s.Inv) {l : Nat} (hr : s.lcoreState l = .runningGreen → s.Fresh l)
    (hs : s.after (greenThreadLaunch l) = some s') : s'.Inv := by
  simp only [after, greenThreadLaunch_run] at hs
  split_ifs at hs with hlt hgreen
  · cases hs
    exact h.greenLaunched (Nat.lt_of_lt_of_le hlt h.lcores) (hr hgreen)
  · cases hs
    exact h

theorem Inv.nativeThreadLaunch (h : s.Inv) {l : Nat} (hs : s.after (nativeThreadLaunch l) = some s') :
    s'.Inv := by
  simp only [after, nativeThreadLaunch_run] at hs
  split_ifs at hs with hle hl
  · cases hs
    exact h
  · cases hs
    exact h.nativeLaunched (Nat.lt_of_not_le hle) hl
  · cases hs
    exact h.marked _ l

theorem Inv.threadLaunch (h : s.Inv) {l : Nat} (hr : l ≠ 0 → s.lcoreState l = .runningGreen → s.Fresh l)
    (hs : s.after (threadLaunch l) = some s') : s'.Inv := by
  simp only [after, threadLaunch_run] at hs
  split_ifs at hs with h0 hlt hgreen
  · cases hs
    exact h
  · exact h.greenThreadLaunch (hr h0) hs
  · exact h.nativeThreadLaunch hs

theorem Inv.register (h : s.Inv) {l : Nat} (hs : s.after (greenThreadSchedRegister l) = some s') : s'.Inv := by
  simp only [after, greenThreadSchedRegister, onNative, Proc.bind_run, Proc.zoom,
    Native.nativeLaunch_run] at hs
  by_cases hle : s.native.nLcore ≤ l
  · rw [if_pos hle] at hs
    cases hs
    exact h
  · cases hl : s.native.lcore l with
    | wait =>
      simp only [hl, if_neg hle, if_true] at hs
      cases hs
      exact h.started hl none
    | running t pc =>
      simp only [hl, if_neg hle, Bool.false_eq_true, if_false] at hs
      cases hs
      exact h.marked none l
    | finished t =>
      simp only [hl, if_neg hle, Bool.false_eq_true, if_false] at hs
      cases hs
      exact h.marked none l

theorem Inv.join (h : s.Inv) {tid : BitVec 32} (hs : s.after (threadJoin tid) = some s') : s'.Inv := by
  unfold threadJoin at hs
  split_ifs at hs with hgreen
  · simp only [after, greenThreadJoin, Proc.get_bind] at hs
    cases hfind : s.threads.find? (·.tid == tid) with
    | none =>
      rw [hfind] at hs
      cases hs
      exact h
    | some g =>
      rw [hfind] at hs
      cases hs
      exact h.greenJoined hfind
  · unfold after at hs
    by_cases h0 : tid = 0
    · subst h0
      rw [nativeThreadJoin_zero] at hs
      cases hs
      exact h
    · by_cases hmem : tid.toNat ∈ s.native.tids
      · rw [nativeThreadJoin_mem h0 hmem] at hs
        cases hs
        exact h.nativeJoined (fun l' hl' hne => (List.mem_erase_of_ne hne).mpr hl') _
      · -- nothing was launched on the lcore
        obtain ⟨w, hw⟩ := nativeThreadJoin_not_mem h0 hmem
        rw [hw] at hs
        cases hs
        have hnone : (s.native.lcore tid.toNat).launched = none := by
          by_contra hne
          exact hmem (h.booked _ hne)
        exact h.proceed (c := .wait) (by rw [hnone]; rfl) s.lcoreState

/-- **What a step keeps**: while ids are fresh, every thread that is not joined is found
under the id its launch returned. -/
theorem Inv.step (h : s.Inv) {d : Deed} (hr : s.LaunchesFresh d) (hs : s.step d = some s') : s'.Inv := by
  cases d with
  | launch l => exact h.threadLaunch hr hs
  | greenLaunch l => exact h.greenThreadLaunch hr hs
  | nativeLaunch l => exact h.nativeThreadLaunch hs
  | register l => exact h.register hs
  | unregister l =>
    simp only [Threads.step, after, greenThreadSchedUnregister_run] at hs
    split_ifs at hs
    · cases hs
      exact h.setLcoreState _
    · cases hs
      exact h
  | mark st l =>
    cases hs
    exact h.setLcoreState _
  | start l =>
    obtain ⟨n, hn, rfl⟩ := Option.map_eq_some_iff.mp hs
    obtain ⟨t, f, hl, -, rfl⟩ := Native.fetch_some hn
    exact h.proceed (c := .running t (.entered f)) (by rw [hl]; rfl) _
  | finish l =>
    simp only [Threads.step] at hs
    split at hs
    · next t f hl =>
      cases hs
      exact h.proceed (c := .finished t) (by rw [hl]; rfl) _
    · cases hs
  | greenEnd thread =>
    cases hs
    refine h.greenEnd _ fun g => ?_
    split <;> exact ⟨rfl, rfl, rfl, rfl⟩
  | join tid =>
    simp only [Threads.step] at hs
    split_ifs at hs
    exact h.join hs

end Step

/-- **Ids lead back to their threads** as long as green threads are launched while their ids
are fresh. -/
theorem sound_of_run {nLcore : Nat} (hn : nLcore ≤ 65536) {ds : List Deed} {s : Threads}
    (h : Runs step LaunchesFresh (init nLcore) ds s) : s.Sound :=
  (h.invariant (I := Inv) (.init hn) fun _ _ _ h hr hs => h.step hr hs).sound

instance (s : Threads) (l : Nat) : Decidable (s.Fresh l) := inferInstanceAs (Decidable (_ ∧ _))

instance (s : Threads) (d : Deed) : Decidable (s.LaunchesFresh d) :=
  match d with
  | .launch _ => inferInstanceAs (Decidable (_ ≠ _ → _ = _ → Fresh _ _))
  | .greenLaunch _ => inferInstanceAs (Decidable (_ = _ → Fresh _ _))
  | .nativeLaunch _ => isTrue trivial
  | .register _ => isTrue trivial
  | .unregister _ => isTrue trivial
  | .mark _ _ => isTrue trivial
  | .start _ => isTrue trivial
  | .finish _ => isTrue trivial
  | .greenEnd _ => isTrue trivial
  | .join _ => isTrue trivial

/-- A scheduler on lcore 1 with two green threads, the first of which ends and is joined, and
a native thread on lcore 2. -/
def mixedRun : List Deed :=
  [.register 1, .start 1, .mark .runningGreen 1, .launch 1, .launch 2, .launch 1, .start 2, .greenEnd 0,
    .join 0x10001]

theorem sound_of_mixedRun :
    ∃ s, exec step (init 4) mixedRun = some s ∧
      s.returned.map Returned.tid = [0x10001, 2, 0x20001] ∧ s.joined = [0] ∧ s.Sound := by
  obtain ⟨s, hs, hf⟩ := Option.map_eq_some_iff.mp
    (show (exec step (init 4) mixedRun).map (fun s => (s.returned.map Returned.tid, s.joined)) =
      some ([0x10001, 2, 0x20001], [0]) by decide +kernel)
  simp only [Prod.mk.injEq] at hf
  exact ⟨s, hs, hf.1, hf.2, sound_of_run (by decide) (Runs.of_obeys (by decide +kernel) hs)⟩

/-! ### The counter comes round -/

theorem greenLaunch_step {s : Threads} {l : Nat} (hlt : l < s.native.nLcore) (hg : s.lcoreState l = .runningGreen) :
    step s (.greenLaunch l) = some (s.greenLaunched l) := by
  simp only [step, after, greenThreadLaunch_run, if_pos hlt, if_pos hg]

theorem runs_greenLaunches {l : Nat} (n : Nat) {s : Threads} (hlt : l < s.native.nLcore)
    (hg : s.lcoreState l = .runningGreen) :
    ∃ t, Runs step Always s (List.replicate n (.greenLaunch l)) t ∧ t.subtid = s.subtid + BitVec.ofNat 32 n ∧
      t.native = s.native ∧ t.lcoreState = s.lcoreState := by
  induction n generalizing s with
  | zero => exact ⟨s, .done s, by simp, rfl, rfl⟩
  | succ n ih =>
    obtain ⟨t, hrun, hsub, hnat, hstate⟩ := ih (s := s.greenLaunched l) hlt hg
    refine ⟨t, .next (greenLaunch_step hlt hg) trivial hrun, ?_, hnat, hstate⟩
    rw [hsub, Nat.add_comm n 1, BitVec.ofNat_add, ← BitVec.add_assoc]
    rfl

/-- The 65536th green thread gets an id that reads as a native one. -/
theorem ids_come_round :
    ∃ s, Runs step Always (init 4)
      ([.register 1, .start 1, .mark .runningGreen 1] ++ List.replicate 65535 (.greenLaunch 1) ++
        [.greenLaunch 1]) s ∧
      (∃ r ∈ s.returned, r.green = true ∧ r.tid = 1 ∧ tidIsGreenThread r.tid = false) ∧ ¬s.Sound := by
  obtain ⟨s, hs, hf⟩ := Option.map_eq_some_iff.mp
    (show (exec step (init 4) [.register 1, .start 1, .mark .runningGreen 1]).map
        (fun s => (s.native.nLcore, s.lcoreState 1, s.subtid)) = some (4, .runningGreen, 1) by decide +kernel)
  simp only [Prod.mk.injEq] at hf
  obtain ⟨hn, hg, hsub⟩ := hf
  obtain ⟨t, hrun, hsub', hnat, hstate⟩ := runs_greenLaunches (l := 1) 65535 (by rw [hn]; decide) hg
  have hround : t.subtid = 65536 := by
    rw [hsub', hsub]
    decide
  have hmem : (⟨1, t.launches, true⟩ : Returned) ∈ (t.greenLaunched 1).returned := by
    have htid : greenTid 1 65536 = 1 := by decide
    refine List.mem_append_right _ (List.mem_singleton.mpr ?_)
    rw [hround, htid]
  have hstep := greenLaunch_step (s := t) (l := 1) (by rw [hnat, hn]; decide) (by rw [hstate, hg])
  have hnative : tidIsGreenThread 1 = false := by decide
  refine ⟨_, ((Runs.of_exec hs).append hrun).append (.next hstep trivial (.done _)),
    ⟨_, hmem, rfl, rfl, hnative⟩, fun h => ?_⟩
  have hgreen : tidIsGreenThread 1 = true := h.routed _ hmem
  rw [hnative] at hgreen
  cases hgreen

end Threads

end Susanow
