import Susanow.Thread.Green

/-! Registering a green thread scheduler.

`ssn_green_thread_sched_register` launches `_green_thread_master` on an lcore and then stores
`RUNNING_GREEN`; the launched lcore stores `RUNNING_NATIVE` before it calls the master. Nothing
orders the two stores, and the later one stays until the scheduler ends. Here both are steps of
their own, among those of any number of other calls. -/
namespace Susanow
open Function (update)

/-- What is not a step of a register, of a launched lcore on its way in, or of an unregister. -/
def Deed.apart : Deed → Bool
  | .launch _ => true
  | .greenLaunch _ => true
  | .nativeLaunch _ => true
  | .finish _ => true
  | .greenEnd _ => true
  | .join _ => true
  | _ => false

structure Scheds where
  th : Threads
  -- the lcores of the registers that have launched and not yet stored
  registers : List Nat := []
  -- the schedulers that were unregistered
  ended : Nat → Bool := fun _ => false

inductive Turn
  -- `ssn_green_thread_sched_register` launches; it stores `RUNNING_GREEN` and returns
  | register (l : Nat)
  | store (l : Nat)
  -- `_fthread_launcher` stores `RUNNING_NATIVE` and calls what its slot holds
  | start (l : Nat)
  -- `_green_thread_master` enters `lthread_run`; it comes out, and `FINISHED` is stored
  | enter (l : Nat)
  | leave (l : Nat)
  | unregister (l : Nat)
  | deed (d : Deed)
  deriving DecidableEq, Repr

namespace Scheds

def init (nLcore : Nat) : Scheds := {th := .init nLcore}

def lcore (s : Scheds) (l : Nat) : Lcore (Option Nat) := s.th.native.lcore l

/-- The lcore goes on to `c`. -/
def goOn (s : Scheds) (l : Nat) (c : Lcore (Option Nat)) : Threads :=
  {s.th with native := {s.th.native with lcore := update s.th.native.lcore l c}}

/-- Lcore 0 runs `main` and takes no launch. -/
def step (s : Scheds) : Turn → Option Scheds
  | .register l =>
    match Threads.greenThreadSchedRegister l s.th with
    | .ret _ th => some {th := th, registers := l :: s.registers, ended := update s.ended l false}
    | .throws _ th => some {s with th := th}
    | .crash _ => none
  | .store l =>
    if l ∈ s.registers then
      some {s with th := {s.th with lcoreState := update s.th.lcoreState l .runningGreen},
                   registers := s.registers.erase l}
    else none
  | .start l => if l = 0 then none else (s.th.step (.start l)).map fun th => {s with th := th}
  | .enter l =>
    match s.lcore l with
    | .running t (.entered none) => some {s with th := s.goOn l (.running t (.looping none))}
    | _ => none
  | .leave l =>
    match s.lcore l with
    | .running t (.looping none) =>
      some {s with th := {s.goOn l (.finished t) with lcoreState := update s.th.lcoreState l .finished}}
    | _ => none
  | .unregister l =>
    match Threads.greenThreadSchedUnregister l s.th with
    | .ret _ th => some {s with th := th, ended := update s.ended l true}
    | .throws _ th => some {s with th := th}
    | .crash _ => none
  | .deed d => if d.apart then (s.th.step d).map fun th => {s with th := th} else none

/-- Registers of the lcore have returned, and it is in the scheduler that one of them launched,
which was not unregistered since. -/
structure Serving (s : Scheds) (l : Nat) : Prop where
  returned : l ∉ s.registers
  loops : s.lcore l = .running none (.looping none)
  stays : s.ended l = false

/-- The lcore has the state of a green one, and a launch on it makes a green thread. -/
structure Green (s : Scheds) (l : Nat) : Prop where
  state : s.th.lcoreState l = .runningGreen
  launches : Threads.threadLaunch l s.th = .ret (greenTid l s.th.subtid) (s.th.greenLaunched l)

/-- A register stores when the launched lcore has done so. -/
def StoresLast (s : Scheds) : Turn → Prop
  | .store l => (s.lcore l).unread = none
  | _ => True

/-! ### What steps leave of an lcore -/

/-- What the calls of others leave of an lcore: it is what it was, or it waits, was launched
for a thread, or has finished. -/
inductive Left (nLcore l : Nat) (c c' : Lcore (Option Nat)) (st st' : LcoreState) : Prop
  | same : c' = c → st' = st → Left nLcore l c c' st st'
  | waits : c' = .wait → Left nLcore l c c' st st'
  | launched (k : Nat) : l < nLcore → c' = .running (some k) .fetch → Left nLcore l c c' st st'
  | finished (t f : Option Nat) : c = .running t (.entered f) → c' = .finished t → Left nLcore l c c' st st'

/-- Another lcore is what it was. -/
theorem left_update {l : Nat} {cs : Nat → Lcore (Option Nat)} {sts sts' : Nat → LcoreState}
    {c : Lcore (Option Nat)} {nLcore : Nat} (h : Left nLcore l (cs l) c (sts l) (sts' l))
    (hsts : ∀ l' ≠ l, sts' l' = sts l') (l' : Nat) :
    Left nLcore l' (cs l') (update cs l c l') (sts l') (sts' l') := by
  by_cases hl : l' = l
  · subst hl
    rwa [Function.update_self]
  · rw [Function.update_of_ne hl]
    exact .same rfl (hsts l' hl)

variable {th th' : Threads}

theorem left_nativeLaunch {l : Nat} (h : th.after (Threads.nativeThreadLaunch l) = some th') :
    th'.native.nLcore = th.native.nLcore ∧
      ∀ l', Left th.native.nLcore l' (th.native.lcore l') (th'.native.lcore l') (th.lcoreState l')
        (th'.lcoreState l') := by
  simp only [Threads.after, Threads.nativeThreadLaunch_run] at h
  split_ifs at h with hle hl
  · cases h
    exact ⟨rfl, fun l' => .same rfl rfl⟩
  · cases h
    exact ⟨rfl, left_update (.launched th.launches (Nat.lt_of_not_le hle) rfl) fun _ _ => rfl⟩
  · cases h
    exact ⟨rfl, fun l' => .same rfl rfl⟩

theorem left_greenLaunch {l : Nat} (h : th.after (Threads.greenThreadLaunch l) = some th') :
    th'.native.nLcore = th.native.nLcore ∧
      ∀ l', Left th.native.nLcore l' (th.native.lcore l') (th'.native.lcore l') (th.lcoreState l')
        (th'.lcoreState l') := by
  simp only [Threads.after, Threads.greenThreadLaunch_run] at h
  split_ifs at h
  · cases h
    exact ⟨rfl, fun l' => .same rfl rfl⟩
  · cases h
    exact ⟨rfl, fun l' => .same rfl rfl⟩

theorem left_join {tid : BitVec 32} (h : th.after (Threads.threadJoin tid) = some th') :
    th'.native.nLcore = th.native.nLcore ∧
      ∀ l', Left th.native.nLcore l' (th.native.lcore l') (th'.native.lcore l') (th.lcoreState l')
        (th'.lcoreState l') := by
  unfold Threads.threadJoin at h
  split_ifs at h
  · simp only [Threads.after, Threads.greenThreadJoin, Proc.get_bind] at h
    cases hfind : th.threads.find? (·.tid == tid) with
    | none =>
      rw [hfind] at h
      cases h
      exact ⟨rfl, fun l' => .same rfl rfl⟩
    | some g =>
      rw [hfind] at h
      cases h
      exact ⟨rfl, fun l' => .same rfl rfl⟩
  · unfold Threads.after at h
    by_cases h0 : tid = 0
    · subst h0
      rw [Threads.nativeThreadJoin_zero] at h
      cases h
      exact ⟨rfl, fun l' => .same rfl rfl⟩
    · by_cases hmem : tid.toNat ∈ th.native.tids
      · rw [Threads.nativeThreadJoin_mem h0 hmem] at h
        cases h
        exact ⟨rfl, left_update (.waits rfl) fun l' hl' => Function.update_of_ne hl' _ _⟩
      · obtain ⟨w, hw⟩ := Threads.nativeThreadJoin_not_mem h0 hmem
        rw [hw] at h
        cases h
        exact ⟨rfl, left_update (.waits rfl) fun _ _ => rfl⟩

theorem left_deed {d : Deed} (hd : d.apart = true) (h : th.step d = some th') :
    th'.native.nLcore = th.native.nLcore ∧
      ∀ l', Left th.native.nLcore l' (th.native.lcore l') (th'.native.lcore l') (th.lcoreState l')
        (th'.lcoreState l') := by
  cases d with
  | launch l =>
    simp only [Threads.step, Threads.after, Threads.threadLaunch_run] at h
    split_ifs at h
    · cases h
      exact ⟨rfl, fun l' => .same rfl rfl⟩
    · exact left_greenLaunch h
    · exact left_nativeLaunch h
  | greenLaunch l => exact left_greenLaunch h
  | nativeLaunch l => exact left_nativeLaunch h
  | finish l =>
    simp only [Threads.step] at h
    split at h
    · next t f hl =>
      cases h
      exact ⟨rfl, left_update (.finished t f hl rfl) fun l' hl' => Function.update_of_ne hl' _ _⟩
    · cases h
  | greenEnd thread =>
    cases h
    exact ⟨rfl, fun l' => .same rfl rfl⟩
  | join tid =>
    simp only [Threads.step] at h
    split_ifs at h
    exact left_join h
  | register l => cases hd
  | unregister l => cases hd
  | mark st l => cases hd
  | start l => cases hd

/-! ### The invariant -/

/-- Only an lcore there is was launched on, and lcore 0 has not come to call anything; while the
launch of a register is unread the register has not stored, and from then on the state is
that of a green lcore once it has. -/
structure OnLcore (s : Scheds) (l : Nat) : Prop where
  below : s.lcore l ≠ .wait → l < s.th.native.nLcore
  zero : l = 0 → ∀ t pc, s.lcore l = .running t pc → pc = .fetch
  pending : s.lcore l = .running none .fetch → l ∈ s.registers
  green : ∀ pc, s.lcore l = .running none pc → pc ≠ .fetch → l ∉ s.registers → s.ended l = false →
    s.th.lcoreState l = .runningGreen

def Inv (s : Scheds) : Prop := ∀ l, OnLcore s l

theorem Inv.init (nLcore : Nat) : (init nLcore).Inv := by
  intro l
  have hwait : (Scheds.init nLcore).lcore l = .wait := rfl
  refine ⟨fun hne => absurd hwait hne, fun _ t pc hrun => ?_, fun hrun => ?_, fun pc hrun => ?_⟩ <;>
    cases hwait.symm.trans hrun

variable {s s' : Scheds} {l : Nat}

/-- A step that does not come near the lcore. -/
theorem OnLcore.congr (h : OnLcore s l) (hn : s'.th.native.nLcore = s.th.native.nLcore)
    (hc : s'.lcore l = s.lcore l) (hst : s'.th.lcoreState l = s.th.lcoreState l)
    (hreg : l ∈ s'.registers ↔ l ∈ s.registers) (hend : s'.ended l = s.ended l) : OnLcore s' l := by
  refine ⟨?_, ?_, ?_, ?_⟩
  · rw [hc, hn]
    exact h.below
  · rw [hc]
    exact h.zero
  · rw [hc, hreg]
    exact h.pending
  · rw [hc, hst, hreg, hend]
    exact h.green

/-- The calls of others. -/
theorem OnLcore.left (h : OnLcore s l)
    (hleft : Left s.th.native.nLcore l (s.lcore l) (th'.native.lcore l) (s.th.lcoreState l) (th'.lcoreState l))
    (hn : th'.native.nLcore = s.th.native.nLcore) : OnLcore {s with th := th'} l := by
  cases hleft with
  | same hc hst => exact h.congr hn hc hst Iff.rfl rfl
  | waits hc =>
    have hc : Scheds.lcore {s with th := th'} l = .wait := hc
    refine ⟨fun hne => absurd hc hne, fun _ t pc hrun => ?_, fun hrun => ?_, fun pc hrun => ?_⟩ <;>
      · rw [hc] at hrun
        cases hrun
  | launched k hlt hc =>
    have hc : Scheds.lcore {s with th := th'} l = .running (some k) .fetch := hc
    refine ⟨fun _ => hn ▸ hlt, fun _ t pc hrun => ?_, fun hrun => ?_, fun pc hrun => ?_⟩ <;>
      rw [hc] at hrun <;> cases hrun
    rfl
  | finished t f hrunning hc =>
    have hc : Scheds.lcore {s with th := th'} l = .finished t := hc
    refine ⟨fun _ => ?_, fun _ t pc hrun => ?_, fun hrun => ?_, fun pc hrun => ?_⟩
    · show l < th'.native.nLcore
      rw [hn]
      exact h.below (by rw [hrunning]; simp)
    all_goals
      rw [hc] at hrun
      cases hrun

theorem Inv.register (h : s.Inv) (hs : s.step (.register l) = some s') : s'.Inv := by
  simp only [step, Threads.greenThreadSchedRegister, Threads.onNative, Proc.bind_run, Proc.zoom,
    Native.nativeLaunch_run] at hs
  by_cases hle : s.th.native.nLcore ≤ l
  · rw [if_pos hle] at hs
    cases hs
    exact h
  · cases hl : s.th.native.lcore l with
    | wait =>
      simp only [hl, if_neg hle, if_true] at hs
      cases hs
      intro l'
      by_cases hll : l' = l
      · subst hll
        have hc : update s.th.native.lcore l' (.running none .fetch) l' = .running none .fetch :=
          Function.update_self ..
        refine ⟨fun _ => Nat.lt_of_not_le hle, fun _ t pc hrun => ?_, fun _ => List.mem_cons_self,
          fun _ _ _ hreg => absurd List.mem_cons_self hreg⟩
        cases hc.symm.trans hrun
        rfl
      · refine (h l').congr rfl (Function.update_of_ne hll _ _) rfl ?_ (Function.update_of_ne hll _ _)
        rw [List.mem_cons, or_iff_right hll]
    | running t pc =>
      simp only [hl, if_neg hle, Bool.false_eq_true, if_false] at hs
      cases hs
      exact fun l' => (h l').congr rfl rfl rfl Iff.rfl rfl
    | finished t =>
      simp only [hl, if_neg hle, Bool.false_eq_true, if_false] at hs
      cases hs
      exact fun l' => (h l').congr rfl rfl rfl Iff.rfl rfl

theorem Inv.store (h : s.Inv) (hr : (s.lcore l).unread = none) (hs : s.step (.store l) = some s') : s'.Inv := by
  simp only [step] at hs
  split_ifs at hs with hreg
  cases hs
  intro l'
  by_cases hll : l' = l
  · subst hll
    refine ⟨(h l').below, (h l').zero, fun hfetch => ?_, fun _ _ _ _ _ => Function.update_self ..⟩
    -- the rule: the launch was read
    have hfetch : s.lcore l' = .running none .fetch := hfetch
    rw [hfetch] at hr
    cases hr
  · exact (h l').congr rfl rfl (Function.update_of_ne hll _ _) (List.mem_erase_of_ne hll) rfl

/-- The lcore that stores `RUNNING_NATIVE` was launched by a register that has not yet stored, if
by one. -/
theorem Inv.start (h : s.Inv) (hs : s.step (.start l) = some s') : s'.Inv := by
  simp only [step] at hs
  split_ifs at hs with h0
  obtain ⟨th, hth, rfl⟩ := Option.map_eq_some_iff.mp hs
  obtain ⟨n, hn, rfl⟩ := Option.map_eq_some_iff.mp hth
  obtain ⟨t, f, hl, -, rfl⟩ := Native.fetch_some hn
  intro l'
  by_cases hll : l' = l
  · subst hll
    have hc : update s.th.native.lcore l' (.running t (.entered f)) l' = .running t (.entered f) :=
      Function.update_self ..
    refine ⟨fun _ => (h l').below (by rw [lcore, hl]; simp), fun hzero => absurd hzero h0, fun hrun => ?_,
      fun pc hrun _ hreg => ?_⟩
    · cases hc.symm.trans hrun
    · cases hc.symm.trans hrun
      exact absurd ((h l').pending hl) hreg
  · exact (h l').congr rfl (Function.update_of_ne hll _ _) (Function.update_of_ne hll _ _) Iff.rfl rfl

theorem Inv.enter (h : s.Inv) (hs : s.step (.enter l) = some s') : s'.Inv := by
  simp only [step] at hs
  split at hs
  · next t hl =>
    cases hs
    intro l'
    by_cases hll : l' = l
    · subst hll
      have hc : update s.th.native.lcore l' (.running t (.looping none)) l' = .running t (.looping none) :=
        Function.update_self ..
      refine ⟨fun _ => (h l').below (by rw [hl]; simp), fun hzero => ?_, fun hrun => ?_, fun pc hrun _ => ?_⟩
      · cases (h l').zero hzero _ _ hl
      · cases hc.symm.trans hrun
      · cases hc.symm.trans hrun
        exact (h l').green _ hl nofun
    · exact (h l').congr rfl (Function.update_of_ne hll _ _) rfl Iff.rfl rfl
  · cases hs

theorem Inv.leave (h : s.Inv) (hs : s.step (.leave l) = some s') : s'.Inv := by
  simp only [step] at hs
  split at hs
  · next t hl =>
    cases hs
    intro l'
    by_cases hll : l' = l
    · subst hll
      have hc : update s.th.native.lcore l' (.finished t) l' = .finished t := Function.update_self ..
      refine ⟨fun _ => (h l').below (by rw [hl]; simp), fun _ _ _ hrun => ?_, fun hrun => ?_, fun _ hrun => ?_⟩ <;>
        cases hc.symm.trans hrun
    · exact (h l').congr rfl (Function.update_of_ne hll _ _) (Function.update_of_ne hll _ _) Iff.rfl rfl
  · cases hs

theorem Inv.unregister (h : s.Inv) (hs : s.step (.unregister l) = some s') : s'.Inv := by
  simp only [step, Threads.greenThreadSchedUnregister_run] at hs
  split_ifs at hs
  · cases hs
    intro l'
    by_cases hll : l' = l
    · subst hll
      refine ⟨(h l').below, (h l').zero, (h l').pending, fun _ _ _ _ hend => ?_⟩
      have htrue : update s.ended l' true l' = true := Function.update_self ..
      cases htrue.symm.trans hend
    · exact (h l').congr rfl rfl (Function.update_of_ne hll _ _) Iff.rfl (Function.update_of_ne hll _ _)
  · cases hs
    exact h

theorem Inv.step (h : s.Inv) {m : Turn} (hr : s.StoresLast m) (hs : s.step m = some s') : s'.Inv := by
  cases m with
  | register l => exact h.register hs
  | store l => exact h.store hr hs
  | start l => exact h.start hs
  | enter l => exact h.enter hs
  | leave l => exact h.leave hs
  | unregister l => exact h.unregister hs
  | deed d =>
    simp only [Scheds.step] at hs
    split_ifs at hs with hd
    obtain ⟨th, hth, rfl⟩ := Option.map_eq_some_iff.mp hs
    obtain ⟨hn, hleft⟩ := left_deed hd hth
    exact fun l => (h l).left (hleft l) hn

theorem Inv.serves (h : s.Inv) (hserve : s.Serving l) : s.Green l := by
  have hstate := (h l).green _ hserve.loops nofun hserve.returned hserve.stays
  refine ⟨hstate, ?_⟩
  have h0 : l ≠ 0 := fun h0 => by cases (h l).zero h0 _ _ hserve.loops
  have hlt : l < s.th.native.nLcore := (h l).below (by rw [hserve.loops]; simp)
  rw [Threads.threadLaunch_run, if_neg h0, if_pos hlt, if_pos hstate, Threads.greenThreadLaunch_run,
    if_pos hlt, if_pos hstate]

/-- **A registered lcore takes green threads** in every run in which each register stores after
the lcore it launched on. -/
theorem green_of_run {nLcore : Nat} {ms : List Turn} (h : Runs step StoresLast (init nLcore) ms s)
    (hserve : s.Serving l) : s.Green l :=
  (h.invariant (I := Inv) (.init nLcore) fun _ _ _ h hr hs => h.step hr hs).serves hserve

instance (s : Scheds) (m : Turn) : Decidable (s.StoresLast m) :=
  match m with
  | .store _ => inferInstanceAs (Decidable (_ = none))
  | .register _ => isTrue trivial
  | .start _ => isTrue trivial
  | .enter _ => isTrue trivial
  | .leave _ => isTrue trivial
  | .unregister _ => isTrue trivial
  | .deed _ => isTrue trivial

/-- The lcore stores before the register, and a green thread is launched on it. -/
def lateStore : List Turn := [.register 1, .start 1, .store 1, .enter 1, .deed (.launch 1)]

theorem green_of_lateStore : ∃ s, exec step (init 4) lateStore = some s ∧ s.Serving 1 ∧ s.Green 1 := by
  obtain ⟨s, hs, heq⟩ := Option.map_eq_some_iff.mp
    (show (exec step (init 4) lateStore).map (fun s => (s.registers, s.lcore 1, s.ended 1)) =
      some ([], .running none (.looping none), false) by decide +kernel)
  simp only [Prod.mk.injEq] at heq
  have hserve : s.Serving 1 := ⟨by simp [heq.1], heq.2.1, heq.2.2⟩
  exact ⟨s, hs, hserve, green_of_run (Runs.of_obeys (by decide +kernel) hs) hserve⟩

/-- The register stores first: its scheduler runs on an lcore that reads as a native one, where
no thread can be launched. -/
theorem native_of_earlyStore :
    ∃ s, Runs step Always (init 4) [.register 1, .store 1, .start 1, .enter 1] s ∧ s.Serving 1 ∧
      s.th.lcoreState 1 = .runningNative ∧ ¬s.Green 1 := by
  obtain ⟨s, hs, heq⟩ := Option.map_eq_some_iff.mp
    (show (exec step (init 4) [.register 1, .store 1, .start 1, .enter 1]).map
        (fun s => (s.registers, s.lcore 1, s.ended 1, s.th.lcoreState 1)) =
      some ([], .running none (.looping none), false, .runningNative) by decide +kernel)
  simp only [Prod.mk.injEq] at heq
  obtain ⟨hreg, hloops, hstays, hstate⟩ := heq
  refine ⟨s, Runs.of_exec hs, ⟨by simp [hreg], hloops, hstays⟩, hstate, fun hgreen => ?_⟩
  cases hstate.symm.trans hgreen.state

end Scheds

end Susanow
