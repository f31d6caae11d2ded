import Susanow.Base.Hex
import Susanow.Thread.Green

/-! The timers of an NFVi.

A timer is listed twice, by the NFVi and by its scheduler. Adding, both lists take the timer
before the scheduler looks whether its lcore runs timers, and throws if it does not;
deleting, the NFVi has already dropped the timer when the scheduler throws. So a call that
throws leaves the lists changed unless it throws for the timer not being there, and lists
that have parted stay so.

The lcore's state, and which callbacks run on it, change between the calls as they like. -/
namespace Susanow
open Function Proc

/-- `ssn_lcore_state2str` -/
def LcoreState.toStr : LcoreState → String
  | .wait => "WAIT"
  | .runningGreen => "RUNGRN"
  | .runningNative => "RUNNAT"
  | .runningTimer => "RUNTMR"
  | .finished => "FINISHED"

/-- The timers of `ssn_nfvi` and its `ssn_timer_sched`, timers by their addresses. -/
structure Timers where
  tims : List Nat
  schedTims : List Nat
  lcoreId : Nat
  -- what the lcore is doing, and whose callbacks it is running
  lcoreState : LcoreState
  running : List Nat
  -- the `hz` of each `ssn_timer` there is
  timer : Nat → Option Nat
  -- the period of each `rte_timer` that is armed
  armed : Nat → Option Nat

namespace Timers

/-- `tim->hz` -/
def hz (tim : Nat) : Proc Timers Nat := do
  let s ← get
  match s.timer tim with
  | some hz => pure hz
  | none => crash .danglingPointer

/-- `rte_timer_reset`, which fails while the callback runs. -/
def rteTimerReset (tim hz : Nat) : Proc Timers Int := do
  let s ← get
  if tim ∈ s.running then pure (-1)
  else do
    Proc.set {s with armed := update s.armed tim (some hz)}
    pure 0

/-- `rte_timer_stop`, which fails while the callback runs. -/
def rteTimerStop (tim : Nat) : Proc Timers Int := do
  let _ ← hz tim
  let s ← get
  if tim ∈ s.running then pure (-1)
  else do
    Proc.set {s with armed := update s.armed tim none}
    pure 0

def notTimerThread (call : String) (s : Timers) : String :=
  call ++ ": lcore" ++ toString s.lcoreId ++ " is not timer thread (current: " ++ s.lcoreState.toStr ++ ")"

/-- `ssn_timer_sched::add` -/
def schedAdd (tim : Nat) : Proc Timers Unit := do
  modify fun s => {s with schedTims := s.schedTims ++ [tim]}
  let s ← get
  if s.lcoreState ≠ .runningTimer then Proc.throw (notTimerThread "ssn_timer_add" s)
  else do
    let hz ← hz tim
    let _ ← rteTimerReset tim hz
    pure ()

/-- `ssn_timer_sched::del` -/
def schedDel (tim : Nat) : Proc Timers Unit := do
  let s ← get
  if s.lcoreState ≠ .runningTimer then Proc.throw (notTimerThread "ssn_timer_del" s)
  else do
    let _ ← rteTimerStop tim
    if tim ∈ s.schedTims then modify fun s => {s with schedTims := s.schedTims.erase tim}
    else Proc.throw "not found timer object"

/-- `delete tim` -/
def deleteTimer (tim : Nat) : Proc Timers Unit := do
  let _ ← hz tim
  modify fun s => {s with timer := update s.timer tim none}

/-- `ssn_nfvi::add_timer` -/
def addTimer (tim : Nat) : Proc Timers Unit := do
  modify fun s => {s with tims := s.tims ++ [tim]}
  schedAdd tim

/-- `ssn_nfvi::del_timer`: the first entry that is `tim` is taken. -/
def delTimer (tim : Nat) : Proc Timers Unit := do
  let s ← get
  if tim ∈ s.tims then do
    Proc.set {s with tims := s.tims.erase tim}
    schedDel tim
    deleteTimer tim
  else Proc.throw ("ssn_nfvi::del_timer: not found timer 0x" ++ String.ofList (Hex.print false 1 tim))

/-- The state of a new NFVi, before its first timer. -/
def init (lcoreId : Nat) (lcoreState : LcoreState) : Timers :=
  {tims := [], schedTims := [], lcoreId, lcoreState, running := [], timer := fun _ => none, armed := fun _ => none}

/-! ### The calls -/

section Calls
variable {s : Timers} {tim : Nat}

theorem hz_run {hz : Nat} (h : s.timer tim = some hz) : Timers.hz tim s = .ret hz s := by
  show (match s.timer tim with | some hz => pure hz | none => crash .danglingPointer : Proc Timers Nat) s = _
  rw [h]
  rfl

theorem hz_dangling (h : s.timer tim = none) : Timers.hz tim s = .crash .danglingPointer := by
  show (match s.timer tim with | some hz => pure hz | none => crash .danglingPointer : Proc Timers Nat) s = _
  rw [h]
  rfl

/-- What a timer's `rte_timer` is after it was told `v`. -/
def told (s : Timers) (tim : Nat) (v : Option Nat) : Nat → Option Nat :=
  if tim ∈ s.running then s.armed else update s.armed tim v

theorem rteTimerReset_run (s : Timers) (tim hz : Nat) :
    ∃ r, rteTimerReset tim hz s = .ret r {s with armed := s.told tim (some hz)} := by
  by_cases h : tim ∈ s.running
  · exact ⟨-1, by simp only [rteTimerReset, get_bind, if_pos h, told, pure_run]⟩
  · exact ⟨0, by simp only [rteTimerReset, get_bind, if_neg h, told, set_bind, pure_run]⟩

theorem rteTimerStop_run {hz : Nat} (hlive : s.timer tim = some hz) :
    ∃ r, rteTimerStop tim s = .ret r {s with armed := s.told tim none} := by
  rw [rteTimerStop, bind_ret (hz_run hlive)]
  by_cases h : tim ∈ s.running
  · exact ⟨-1, by simp only [get_bind, if_pos h, told, pure_run]⟩
  · exact ⟨0, by simp only [get_bind, if_neg h, told, set_bind, pure_run]⟩

theorem schedAdd_run {hz : Nat} (ht : s.lcoreState = .runningTimer) (hlive : s.timer tim = some hz) :
    schedAdd tim s =
      .ret () {s with schedTims := s.schedTims ++ [tim], armed := s.told tim (some hz)} := by
  let s₁ := {s with schedTims := s.schedTims ++ [tim]}
  have hgo : ¬s₁.lcoreState ≠ .runningTimer := not_not.mpr ht
  obtain ⟨r, hr⟩ := rteTimerReset_run s₁ tim hz
  simp only [schedAdd, modify_bind, get_bind]
  rw [if_neg hgo, bind_ret (hz_run (s := s₁) hlive), bind_ret hr]
  rfl

theorem schedAdd_dangling (ht : s.lcoreState = .runningTimer) (hlive : s.timer tim = none) :
    schedAdd tim s = .crash .danglingPointer := by
  let s₁ := {s with schedTims := s.schedTims ++ [tim]}
  have hgo : ¬s₁.lcoreState ≠ .runningTimer := not_not.mpr ht
  simp only [schedAdd, modify_bind, get_bind]
  rw [if_neg hgo]
  exact bind_crash (hz_dangling (s := s₁) hlive)

theorem schedAdd_throws (ht : s.lcoreState ≠ .runningTimer) :
    schedAdd tim s = .throws (notTimerThread "ssn_timer_add" s) {s with schedTims := s.schedTims ++ [tim]} := by
  simp only [schedAdd, modify_bind, get_bind]
  rw [if_pos ht]
  rfl

theorem schedDel_run {hz : Nat} (hm : tim ∈ s.schedTims) (ht : s.lcoreState = .runningTimer)
    (hlive : s.timer tim = some hz) :
    schedDel tim s = .ret () {s with schedTims := s.schedTims.erase tim, armed := s.told tim none} := by
  obtain ⟨r, hr⟩ := rteTimerStop_run hlive
  simp only [schedDel, get_bind]
  rw [if_neg (not_not.mpr ht), bind_ret hr, if_pos hm]
  rfl

theorem schedDel_dangling (ht : s.lcoreState = .runningTimer) (hlive : s.timer tim = none) :
    schedDel tim s = .crash .danglingPointer := by
  simp only [schedDel, get_bind]
  rw [if_neg (not_not.mpr ht)]
  refine bind_crash ?_
  exact bind_crash (hz_dangling hlive)

theorem schedDel_throws (ht : s.lcoreState ≠ .runningTimer) :
    schedDel tim s = .throws (notTimerThread "ssn_timer_del" s) s := by
  simp only [schedDel, get_bind]
  rw [if_pos ht]
  rfl

theorem deleteTimer_run {hz : Nat} (hlive : s.timer tim = some hz) :
    deleteTimer tim s = .ret () {s with timer := update s.timer tim none} :=
  bind_ret (hz_run hlive)

theorem delTimer_missing (hm : tim ∉ s.tims) :
    delTimer tim s =
      .throws ("ssn_nfvi::del_timer: not found timer 0x" ++ String.ofList (Hex.print false 1 tim)) s := by
  simp only [delTimer, get_bind, if_neg hm, throw_run]

theorem delTimer_throws (hm : tim ∈ s.tims) (ht : s.lcoreState ≠ .runningTimer) :
    delTimer tim s = .throws (notTimerThread "ssn_timer_del" s) {s with tims := s.tims.erase tim} := by
  simp only [delTimer, get_bind, if_pos hm, set_bind]
  exact bind_throws (schedDel_throws (s := {s with tims := s.tims.erase tim}) ht)

theorem delTimer_dangling (hm : tim ∈ s.tims) (ht : s.lcoreState = .runningTimer) (hlive : s.timer tim = none) :
    delTimer tim s = .crash .danglingPointer := by
  simp only [delTimer, get_bind, if_pos hm, set_bind]
  exact bind_crash (schedDel_dangling (s := {s with tims := s.tims.erase tim}) ht hlive)

theorem delTimer_run {hz : Nat} (hm : tim ∈ s.tims) (hm' : tim ∈ s.schedTims) (ht : s.lcoreState = .runningTimer)
    (hlive : s.timer tim = some hz) :
    delTimer tim s = .ret () {s with tims := s.tims.erase tim, schedTims := s.schedTims.erase tim,
                                     armed := s.told tim none, timer := update s.timer tim none} := by
  simp only [delTimer, get_bind, if_pos hm, set_bind]
  rw [bind_ret (schedDel_run (s := {s with tims := s.tims.erase tim}) hm' ht hlive)]
  exact deleteTimer_run hlive

theorem addTimer_run {hz : Nat} (ht : s.lcoreState = .runningTimer) (hlive : s.timer tim = some hz) :
    addTimer tim s = .ret () {s with tims := s.tims ++ [tim], schedTims := s.schedTims ++ [tim],
                                     armed := s.told tim (some hz)} :=
  schedAdd_run (s := {s with tims := s.tims ++ [tim]}) ht hlive

theorem addTimer_dangling (ht : s.lcoreState = .runningTimer) (hlive : s.timer tim = none) :
    addTimer tim s = .crash .danglingPointer :=
  schedAdd_dangling (s := {s with tims := s.tims ++ [tim]}) ht hlive

theorem addTimer_throws (ht : s.lcoreState ≠ .runningTimer) :
    addTimer tim s = .throws (notTimerThread "ssn_timer_add" s)
      {s with tims := s.tims ++ [tim], schedTims := s.schedTims ++ [tim]} :=
  schedAdd_throws (s := {s with tims := s.tims ++ [tim]}) ht

end Calls

/-! ### Runs -/

inductive Label
  | addTimer (tim : Nat)
  | delTimer (tim : Nat)
  -- `new ssn_timer`
  | new (tim hz : Nat)
  | lcore (state : LcoreState)
  | callbacks (running : List Nat)
  deriving DecidableEq, Repr

def call : Label → Proc Timers Unit
  | .addTimer tim => addTimer tim
  | .delTimer tim => delTimer tim
  | .new tim hz => modify fun s => {s with timer := update s.timer tim (some hz), armed := update s.armed tim none}
  | .lcore state => modify fun s => {s with lcoreState := state}
  | .callbacks running => modify fun s => {s with running := running}

/-- An address is given to one timer at a time, and only a timer that is armed has its callback run. -/
def Can (s : Timers) : Label → Prop
  | .new tim _ => s.timer tim = none
  | .callbacks running => ∀ tim ∈ running, (s.armed tim).isSome = true
  | _ => True

instance (s : Timers) : (l : Label) → Decidable (s.Can l)
  | .new tim _ => inferInstanceAs (Decidable (s.timer tim = none))
  | .callbacks running => inferInstanceAs (Decidable (∀ tim ∈ running, (s.armed tim).isSome = true))
  | .addTimer _ | .delTimer _ | .lcore _ => inferInstanceAs (Decidable True)

/-- A call that throws is a step too. -/
def step (s : Timers) (l : Label) : Option Timers :=
  if s.Can l then (call l s).state? else none

/-- What is asked of a step: the two lists are one, of the timers that are armed; a timer is deleted
just when it leaves them; and a call that throws leaves them alone. -/
structure Agrees (s : Timers) (l : Label) (t : Timers) : Prop where
  lists : t.tims = t.schedTims
  armed : ∀ tim, (t.armed tim).isSome = true ↔ tim ∈ t.tims ∧ tim ∈ t.schedTims
  deleted : ∀ tim, (s.timer tim).isSome = true ∧ t.timer tim = none ↔ tim ∈ s.tims ∧ tim ∉ t.tims
  throws : ∀ what, call l s = .throws what t → t.tims = s.tims ∧ t.schedTims = s.schedTims ∧ t.armed = s.armed

def Sound (s : Timers) (l : Label) : Prop := ∀ t, step s l = some t → Agrees s l t

/-- The lcore runs timers when one is added, and when one that is listed is deleted; that one is
listed once, and its callback is not running. -/
def Obliges (s : Timers) : Label → Prop
  | .addTimer _ => s.lcoreState = .runningTimer
  | .delTimer tim => tim ∈ s.tims → s.lcoreState = .runningTimer ∧ s.tims.count tim = 1 ∧ tim ∉ s.running
  | _ => True

instance (s : Timers) : (l : Label) → Decidable (s.Obliges l)
  | .addTimer _ => inferInstanceAs (Decidable (s.lcoreState = .runningTimer))
  | .delTimer tim => inferInstanceAs
      (Decidable (tim ∈ s.tims → s.lcoreState = .runningTimer ∧ s.tims.count tim = 1 ∧ tim ∉ s.running))
  | .new _ _ | .lcore _ | .callbacks _ => inferInstanceAs (Decidable True)

structure Good (s : Timers) : Prop where
  lists : s.tims = s.schedTims
  armed : ∀ tim, (s.armed tim).isSome = true ↔ tim ∈ s.tims
  live : ∀ tim ∈ s.tims, (s.timer tim).isSome = true
  running : ∀ tim ∈ s.running, (s.armed tim).isSome = true

theorem init_good (lcoreId : Nat) (lcoreState : LcoreState) : (init lcoreId lcoreState).Good :=
  ⟨rfl, fun _ => ⟨nofun, nofun⟩, nofun, nofun⟩

variable {s t : Timers} {l : Label}

theorem step_eq_some (h : step s l = some t) :
    s.Can l ∧ (call l s = .ret () t ∨ ∃ what, call l s = .throws what t) := by
  unfold step at h
  split at h
  · rename_i hcan
    obtain ⟨⟨⟩, hret⟩ | hthrow := Outcome.of_state? h
    · exact ⟨hcan, .inl hret⟩
    · exact ⟨hcan, .inr hthrow⟩
  · cases h

/-- A call that returns, in a state that is left good, with what it deleted. -/
theorem Good.agrees (ht : t.Good) (hret : call l s = .ret () t)
    (hdel : ∀ tim, (s.timer tim).isSome = true ∧ t.timer tim = none ↔ tim ∈ s.tims ∧ tim ∉ t.tims) :
    Agrees s l t where
  lists := ht.lists
  armed tim := by rw [← ht.lists, and_self, ht.armed]
  deleted := hdel
  throws what h := by
    rw [hret] at h
    cases h

/-- A call that changes nothing. -/
theorem Good.agrees_same (hs : s.Good) (l : Label) : Agrees s l s where
  lists := hs.lists
  armed tim := by rw [← hs.lists, and_self, hs.armed]
  deleted tim := by
    refine iff_of_false ?_ fun h => h.2 h.1
    rintro ⟨hlive, hnone⟩
    rw [hnone] at hlive
    cases hlive
  throws _ _ := ⟨rfl, rfl, rfl⟩

/-- Neither a timer nor the lists go when nothing is deleted and no entry is taken out. -/
theorem kept_iff {tim : Nat} (htimer : (s.timer tim).isSome = true → (t.timer tim).isSome = true)
    (hmem : tim ∈ s.tims → tim ∈ t.tims) :
    (s.timer tim).isSome = true ∧ t.timer tim = none ↔ tim ∈ s.tims ∧ tim ∉ t.tims := by
  refine iff_of_false ?_ fun h => h.2 (hmem h.1)
  rintro ⟨hs, ht⟩
  have := htimer hs
  rw [ht] at this
  cases this

/-- Telling a timer to go: it is armed whether or not its callback is running. -/
theorem Good.told_some (hs : s.Good) (tim hz q : Nat) :
    ((s.told tim (some hz)) q).isSome = true ↔ q = tim ∨ q ∈ s.tims := by
  unfold told
  by_cases hrun : tim ∈ s.running
  · have harmed : tim ∈ s.tims := (hs.armed tim).mp (hs.running tim hrun)
    rw [if_pos hrun, hs.armed]
    exact ⟨.inr, fun h => h.elim (fun heq => heq ▸ harmed) id⟩
  · rw [if_neg hrun, update_apply]
    by_cases hq : q = tim
    · simp [hq]
    · simp [hq, hs.armed]

theorem Good.addTimer (hs : s.Good) {tim hz : Nat} (hlive : s.timer tim = some hz) :
    ({s with tims := s.tims ++ [tim], schedTims := s.schedTims ++ [tim],
             armed := s.told tim (some hz)} : Timers).Good where
  lists := by rw [hs.lists]
  armed q := by
    rw [hs.told_some, List.mem_append, List.mem_singleton, or_comm]
  live q hq := by
    rcases List.mem_append.mp hq with hq | hq
    · exact hs.live q hq
    · rw [List.mem_singleton.mp hq, hlive]
      rfl
  running q hq := (hs.told_some tim hz q).mpr (.inr ((hs.armed q).mp (hs.running q hq)))

theorem addTimer_iff (hs : s.Good) {tim : Nat} (h : step s (.addTimer tim) = some t) :
    (s.lcoreState = .runningTimer ↔ Agrees s (.addTimer tim) t) ∧ (s.lcoreState = .runningTimer → t.Good) := by
  obtain ⟨-, h⟩ := step_eq_some h
  by_cases ht : s.lcoreState = .runningTimer
  · cases hlive : s.timer tim with
    | none =>
      have hcrash : call (.addTimer tim) s = .crash .danglingPointer := addTimer_dangling ht hlive
      rw [hcrash] at h
      rcases h with h | ⟨_, h⟩ <;> cases h
    | some hz =>
      have hrun : call (.addTimer tim) s = .ret () _ := addTimer_run ht hlive
      rcases h with h | ⟨_, h⟩
      · cases hrun.symm.trans h
        have hgood := hs.addTimer hlive
        refine ⟨iff_of_true ht ?_, fun _ => hgood⟩
        exact hgood.agrees hrun fun q => kept_iff id fun hq => List.mem_append_left _ hq
      · rw [hrun] at h
        cases h
  · have hthrow : call (.addTimer tim) s = .throws _ _ := addTimer_throws ht
    refine ⟨iff_of_false ht fun ha => ?_, fun h => absurd h ht⟩
    rcases h with h | ⟨what, h⟩
    · rw [hthrow] at h
      cases h
    · have hsame := (ha.throws what h).1
      cases hthrow.symm.trans h
      exact absurd (congrArg List.length hsame) (by simp)

theorem mem_erase_iff {tims : List Nat} {tim q : Nat} (honce : tims.count tim = 1) :
    q ∈ tims.erase tim ↔ q ∈ tims ∧ q ≠ tim := by
  by_cases hq : q = tim
  · subst hq
    rw [← List.count_pos_iff, List.count_erase_self, honce]
    simp
  · simp [List.mem_erase_of_ne hq, hq]

theorem Good.delTimer (hs : s.Good) {tim : Nat} (honce : s.tims.count tim = 1) (hrun : tim ∉ s.running) :
    ({s with tims := s.tims.erase tim, schedTims := s.schedTims.erase tim, armed := s.told tim none,
             timer := update s.timer tim none} : Timers).Good where
  lists := by rw [hs.lists]
  armed q := by
    show (s.told tim none q).isSome = true ↔ q ∈ s.tims.erase tim
    rw [mem_erase_iff honce, told, if_neg hrun, update_apply]
    by_cases hq : q = tim
    · simp [hq]
    · simp [hq, hs.armed]
  live q hq := by
    obtain ⟨hq, hne⟩ := (mem_erase_iff honce).mp hq
    show (update s.timer tim none q).isSome = true
    rw [update_of_ne hne]
    exact hs.live q hq
  running q hq := by
    have hne : q ≠ tim := fun h => hrun (h ▸ hq)
    show (s.told tim none q).isSome = true
    rw [told, if_neg hrun, update_of_ne hne]
    exact hs.running q hq

/-- What is deleted is what leaves the list. -/
theorem deleted_iff {tim hz : Nat} (honce : s.tims.count tim = 1) (hlive : s.timer tim = some hz) (q : Nat) :
    (s.timer q).isSome = true ∧ update s.timer tim none q = none ↔ q ∈ s.tims ∧ q ∉ s.tims.erase tim := by
  have hm : tim ∈ s.tims := List.count_pos_iff.mp (by omega)
  rw [mem_erase_iff honce, update_apply]
  by_cases hq : q = tim
  · simp [hq, hlive, hm]
  · simp only [hq, if_false, ne_eq, not_false_eq_true, and_true, and_not_self, iff_false]
    rintro ⟨hsome, hnone⟩
    rw [hnone] at hsome
    cases hsome

theorem delTimer_iff (hs : s.Good) {tim : Nat} (h : step s (.delTimer tim) = some t) :
    (s.Obliges (.delTimer tim) ↔ Agrees s (.delTimer tim) t) ∧ (s.Obliges (.delTimer tim) → t.Good) := by
  obtain ⟨-, h⟩ := step_eq_some h
  by_cases hm : tim ∈ s.tims
  · by_cases ht : s.lcoreState = .runningTimer
    · obtain ⟨hz, hlive⟩ := Option.isSome_iff_exists.mp (hs.live tim hm)
      have hret : call (.delTimer tim) s = .ret () _ := delTimer_run hm (hs.lists ▸ hm) ht hlive
      rcases h with h | ⟨_, h⟩
      · cases hret.symm.trans h
        have hgood (ho : s.Obliges (.delTimer tim)) := hs.delTimer (ho hm).2.1 (ho hm).2.2
        refine ⟨⟨fun ho => (hgood ho).agrees hret fun q => ?_, fun ha _ => ⟨ht, ?_⟩⟩, hgood⟩
        · exact deleted_iff (ho hm).2.1 hlive q
        · have hout : tim ∉ s.tims.erase tim :=
            ((ha.deleted tim).mp ⟨by rw [hlive]; rfl, update_self ..⟩).2
          have hcount := List.count_eq_zero_of_not_mem hout
          rw [List.count_erase_self] at hcount
          have hpos := List.count_pos_iff.mpr hm
          refine ⟨by omega, fun hrun => hout ((ha.armed tim).mp ?_).1⟩
          show (s.told tim none tim).isSome = true
          rw [told, if_pos hrun]
          exact hs.running tim hrun
      · rw [hret] at h
        cases h
    · have hthrow : call (.delTimer tim) s = .throws _ _ := delTimer_throws hm ht
      have hnot : ¬s.Obliges (.delTimer tim) := fun ho => ht (ho hm).1
      refine ⟨iff_of_false hnot fun ha => ?_, fun h => absurd h hnot⟩
      rcases h with h | ⟨what, h⟩
      · rw [hthrow] at h
        cases h
      · have hsame := (ha.throws what h).1
        cases hthrow.symm.trans h
        have hpos := List.length_pos_of_mem hm
        have := congrArg List.length hsame
        rw [List.length_erase_of_mem hm] at this
        omega
  · have hthrow : call (.delTimer tim) s = .throws _ _ := delTimer_missing hm
    rcases h with h | ⟨_, h⟩
    · rw [hthrow] at h
      cases h
    · cases hthrow.symm.trans h
      exact ⟨iff_of_true (fun h => absurd h hm) (hs.agrees_same _), fun _ => hs⟩

theorem Good.new (hs : s.Good) {tim : Nat} (hz : Nat) (hfree : s.timer tim = none) :
    ({s with timer := update s.timer tim (some hz), armed := update s.armed tim none} : Timers).Good := by
  have hout : tim ∉ s.tims := by
    intro h
    have := hs.live tim h
    rw [hfree] at this
    cases this
  have hne {q : Nat} (hq : q ∈ s.tims) : q ≠ tim := fun h => hout (h ▸ hq)
  constructor
  case lists => exact hs.lists
  case armed =>
    intro q
    show (update s.armed tim none q).isSome = true ↔ q ∈ s.tims
    by_cases hq : q = tim
    · simp [hq, hout]
    · rw [update_of_ne hq, hs.armed]
  case live =>
    intro q hq
    show (update s.timer tim (some hz) q).isSome = true
    rw [update_of_ne (hne hq)]
    exact hs.live q hq
  case running =>
    intro q hq
    have harmed := hs.running q hq
    show (update s.armed tim none q).isSome = true
    rwa [update_of_ne (hne ((hs.armed q).mp harmed))]

/-- What goes on beside the calls keeps the lists and the timers. -/
theorem beside_agrees (hs : s.Good) (h : step s l = some t)
    (hl : (∃ tim hz, l = .new tim hz) ∨ (∃ state, l = .lcore state) ∨ ∃ running, l = .callbacks running) :
    Agrees s l t ∧ t.Good := by
  obtain ⟨hcan, h⟩ := step_eq_some h
  obtain ⟨tim, hz, rfl⟩ | ⟨state, rfl⟩ | ⟨running, rfl⟩ := hl
  · obtain h | ⟨_, h⟩ := h <;> cases h
    have hgood := hs.new hz hcan
    refine ⟨hgood.agrees rfl fun q => kept_iff (fun hq => ?_) id, hgood⟩
    show (update s.timer tim (some hz) q).isSome = true
    by_cases heq : q = tim
    · simp [heq]
    · rwa [update_of_ne heq]
  · obtain h | ⟨_, h⟩ := h <;> cases h
    have hgood : ({s with lcoreState := state} : Timers).Good := ⟨hs.lists, hs.armed, hs.live, hs.running⟩
    exact ⟨hgood.agrees rfl fun q => kept_iff id id, hgood⟩
  · obtain h | ⟨_, h⟩ := h <;> cases h
    have hgood : ({s with running := running} : Timers).Good := ⟨hs.lists, hs.armed, hs.live, hcan⟩
    exact ⟨hgood.agrees rfl fun q => kept_iff id id, hgood⟩

theorem step_iff (hs : s.Good) (h : step s l = some t) :
    (s.Obliges l ↔ Agrees s l t) ∧ (s.Obliges l → t.Good) := by
  cases l with
  | addTimer tim => exact addTimer_iff hs h
  | delTimer tim => exact delTimer_iff hs h
  | new tim hz =>
    obtain ⟨ha, hgood⟩ := beside_agrees hs h (.inl ⟨tim, hz, rfl⟩)
    exact ⟨iff_of_true trivial ha, fun _ => hgood⟩
  | lcore state =>
    obtain ⟨ha, hgood⟩ := beside_agrees hs h (.inr (.inl ⟨state, rfl⟩))
    exact ⟨iff_of_true trivial ha, fun _ => hgood⟩
  | callbacks running =>
    obtain ⟨ha, hgood⟩ := beside_agrees hs h (.inr (.inr ⟨running, rfl⟩))
    exact ⟨iff_of_true trivial ha, fun _ => hgood⟩

theorem sound_iff (hs : s.Good) (h : step s l = some t) : s.Obliges l ↔ Sound s l := by
  rw [(step_iff hs h).1]
  constructor
  · intro ha t' h'
    cases h.symm.trans h'
    exact ha
  · exact fun hsound => hsound t h

/-- The lists agree, with what is armed and what is deleted, all along a run of a new NFVi just when
each step of it does what is asked. -/
theorem lists_agree_iff (lcoreId : Nat) (lcoreState : LcoreState) (ls : List Label) (t : Timers) :
    Runs step Sound (init lcoreId lcoreState) ls t ↔ Runs step Obliges (init lcoreId lcoreState) ls t :=
  (Runs.rule_iff (init_good lcoreId lcoreState) (fun _ _ _ hs ho h => (step_iff hs h).2 ho)
    fun _ _ _ hs h => sound_iff hs h).symm

/-- The first timer is added before its lcore runs timers. -/
theorem not_lists_agree : ¬∀ ls t, Runs step Always (init 1 .wait) ls t → Runs step Sound (init 1 .wait) ls t := by
  intro h
  have hruns := h [.new 8 1, .addTimer 8] _ (Runs.of_exec rfl)
  obtain _ | ⟨hnew, -, hruns⟩ := hruns
  cases hnew
  obtain _ | ⟨hadd, hsound, -⟩ := hruns
  cases hadd
  exact absurd ((hsound _ rfl).throws _ rfl).1 (by decide)

/-! ### The destructor

The loop of the destructor counts to the number of timers there were and takes one off the
vector in each round, so it skips every other timer and then reads past the end. -/

/-- `tims[i]` -/
def timAt (i : Nat) : Proc Timers Nat := do
  let s ← get
  match s.tims[i]? with
  | some tim => pure tim
  | none => crash .outOfBounds

def cleanUpAt (i : Nat) : Proc Timers Unit := do
  let tim ← timAt i
  delTimer tim

/-- The clean-up loop of `ssn_nfvi::~ssn_nfvi` -/
def cleanUp : Proc Timers Unit := do
  let s ← get
  forRange cleanUpAt s.tims.length

/-- Timers that are registered, with an NFVi whose lcore runs them. -/
structure Registered (s : Timers) : Prop where
  lists : s.tims = s.schedTims
  nodup : s.tims.Nodup
  live : ∀ tim ∈ s.tims, (s.timer tim).isSome = true
  lcoreState : s.lcoreState = .runningTimer

/-- The loop ends, with the lists empty and the timers deleted; to delete one twice is a crash. -/
def CleansUp (s : Timers) : Prop :=
  ∃ t, cleanUp s = .ret () t ∧ t.tims = [] ∧ t.schedTims = [] ∧
    ∀ tim, t.timer tim = if tim ∈ s.tims then none else s.timer tim

/-- What a run registers, each timer once. -/
theorem registered_of_run {lcoreId : Nat} {lcoreState : LcoreState} {ls : List Label}
    (h : Runs step Obliges (init lcoreId lcoreState) ls s) (hnodup : s.tims.Nodup)
    (ht : s.lcoreState = .runningTimer) : s.Registered := by
  have hs : s.Good := h.invariant (init_good _ _) fun _ _ _ hs ho h => (step_iff hs h).2 ho
  exact ⟨hs.lists, hnodup, hs.live, ht⟩

/-- Any number of timers can be registered. -/
theorem exists_registered (n : Nat) : ∃ s : Timers, s.Registered ∧ s.tims.length = n :=
  ⟨{init 1 .runningTimer with tims := List.range n, schedTims := List.range n, timer := fun _ => some 1},
    ⟨rfl, List.nodup_range, fun _ _ => rfl, rfl⟩, List.length_range⟩

theorem cleanUpAt_run (hs : s.Registered) {i : Nat} (hi : i < s.tims.length) :
    ∃ t, cleanUpAt i s = .ret () t ∧ t.Registered ∧ t.tims = s.tims.erase s.tims[i] ∧
      t.timer = update s.timer s.tims[i] none := by
  have hm : s.tims[i] ∈ s.tims := List.getElem_mem hi
  obtain ⟨hz, hlive⟩ := Option.isSome_iff_exists.mp (hs.live _ hm)
  have hat : timAt i s = .ret s.tims[i] s := by
    show (match s.tims[i]? with | some tim => pure tim | none => crash .outOfBounds : Proc Timers Nat) s = _
    rw [List.getElem?_eq_getElem hi]
    rfl
  have hdel := delTimer_run hm (hs.lists ▸ hm) hs.lcoreState hlive
  refine ⟨_, (bind_ret hat).trans hdel, ⟨?_, ?_, ?_, hs.lcoreState⟩, rfl, rfl⟩
  · exact congrArg (List.erase · s.tims[i]) hs.lists
  · exact hs.nodup.erase _
  · intro tim h
    obtain ⟨hne, htim⟩ := hs.nodup.mem_erase_iff.mp h
    show (update s.timer s.tims[i] none tim).isSome = true
    rw [update_of_ne hne]
    exact hs.live tim htim

theorem cleanUpAt_crash {i : Nat} (hi : s.tims.length ≤ i) : cleanUpAt i s = .crash .outOfBounds := by
  refine bind_crash ?_
  show (match s.tims[i]? with | some tim => pure tim | none => crash .outOfBounds : Proc Timers Nat) s = _
  rw [List.getElem?_eq_none hi]
  rfl

/-- Each round that does not read past the end leaves one timer less. -/
theorem forRange_cleanUpAt (hs : s.Registered) {k : Nat} (hk : k ≤ s.tims.length) :
    forRange cleanUpAt k s = .crash .outOfBounds ∨
      ∃ t, forRange cleanUpAt k s = .ret () t ∧ t.Registered ∧ t.tims.length = s.tims.length - k := by
  induction k with
  | zero => exact .inr ⟨s, rfl, hs, rfl⟩
  | succ k ih =>
    rw [forRange_succ]
    obtain hcrash | ⟨t, hrun, ht, hlen⟩ := ih (by omega)
    · exact .inl (bind_crash hcrash)
    · rw [bind_ret hrun]
      by_cases hi : k < t.tims.length
      · obtain ⟨u, hrun', hu, htims, -⟩ := cleanUpAt_run ht hi
        refine .inr ⟨u, hrun', hu, ?_⟩
        rw [htims, List.length_erase_of_mem (List.getElem_mem hi), hlen]
        omega
      · exact .inl (cleanUpAt_crash (not_lt.mp hi))

/-- The last of several rounds finds one timer, and asks for a later one. -/
theorem cleanUp_crash (hs : s.Registered) (hlen : 2 ≤ s.tims.length) : cleanUp s = .crash .outOfBounds := by
  obtain ⟨k, hk⟩ : ∃ k, s.tims.length = k + 1 := ⟨s.tims.length - 1, by omega⟩
  rw [cleanUp, get_bind, hk, forRange_succ]
  obtain hcrash | ⟨t, hrun, -, hleft⟩ := forRange_cleanUpAt hs (k := k) (by omega)
  · exact bind_crash hcrash
  · rw [bind_ret hrun]
    exact cleanUpAt_crash (by omega)

theorem cleansUp_iff (hs : s.Registered) : CleansUp s ↔ s.tims.length ≤ 1 := by
  constructor
  · rintro ⟨t, hrun, -⟩
    by_contra hlen
    rw [cleanUp_crash hs (by omega)] at hrun
    cases hrun
  · intro hlen
    match htims : s.tims, hlen with
    | [], _ =>
      have hrun : cleanUp s = .ret () s := by rw [cleanUp, get_bind, htims]; rfl
      exact ⟨s, hrun, htims, hs.lists ▸ htims, fun tim => by rw [htims, if_neg List.not_mem_nil]⟩
    | [tim], _ =>
      obtain ⟨t, hrun, ht, hleft, htimer⟩ := cleanUpAt_run hs (i := 0) (by simp [htims])
      have hempty : t.tims = [] := by
        rw [hleft]
        simp [htims]
      refine ⟨t, ?_, hempty, ht.lists ▸ hempty, fun q => ?_⟩
      · rw [cleanUp, get_bind, htims]
        exact hrun
      · rw [htimer, update_apply]
        simp [htims]

/-- A timer that a run registers. -/
theorem cleansUp_of_oneTimer :
    ∃ s, exec step (init 1 .runningTimer) [.new 8 1, .addTimer 8] = some s ∧ (CleansUp s ↔ s.tims.length ≤ 1) := by
  refine ⟨_, rfl, cleansUp_iff ?_⟩
  have hrun : Runs step Obliges (init 1 .runningTimer) [.new 8 1, .addTimer 8] _ := Runs.of_obeys (by decide) rfl
  exact registered_of_run hrun (by decide) rfl

/-- Two timers that are registered. -/
def twoTimers : Timers :=
  {init 1 .runningTimer with
    tims := [8, 16], schedTims := [8, 16],
    timer := fun tim => if tim = 8 ∨ tim = 16 then some 1 else none,
    armed := fun tim => if tim = 8 ∨ tim = 16 then some 1 else none}

theorem twoTimers_registered : twoTimers.Registered := ⟨rfl, by decide, by decide, rfl⟩

theorem not_cleansUp : ¬∀ s : Timers, s.Registered → CleansUp s := by
  intro h
  obtain ⟨t, hrun, -⟩ := h twoTimers twoTimers_registered
  rw [cleanUp_crash twoTimers_registered (by decide)] at hrun
  cases hrun

end Timers
end Susanow
