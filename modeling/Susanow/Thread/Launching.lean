import Susanow.Base.Runs
import Susanow.Thread.Native

/-! Who may launch on an lcore.

`ssn_native_thread_launch` pushes the id and writes the slot before dpdk looks at the
lcore. On an lcore that waits nothing is wrong with that; on any other the launch throws
and leaves an id too many and the slot of the running thread overwritten. Launches are
made one at a time, and so are joins, but a launch may come between the wait of a join
and its search of `tids`. -/
namespace Susanow
variable {τ : Type}

def Pc.called : Pc τ → Option τ
  | .fetch => none
  | .entered f => some f
  | .looping f => some f

inductive Move (τ : Type)
  | launch (t : τ) (l : Nat)
  -- the lcore reads its slot and calls what it found; the function returns
  | start (l : Nat)
  | finish (l : Nat)
  -- a join of lcore 0, which returns at once; the two halves of another one
  | join0
  | wait (tid : Nat)
  | drop

/-- The native threads with the join that holds its mutex: the id, and the launch it has waited for. -/
structure Natives (τ : Type) where
  native : Native τ
  joining : Option (Nat × Option τ) := none

namespace Natives
open Native

def init (nLcore : Nat) : Natives τ := {native := ⟨nLcore, fun _ => none, [], fun _ => .wait⟩}

/-- What a call leaves, returned or thrown. -/
def after {α : Type} (s : Natives τ) (p : Proc (Native τ) α) : Option (Natives τ) :=
  match p s.native with
  | .ret _ n => some {s with native := n}
  | .throws _ n => some {s with native := n}
  | .crash _ => none

def step (s : Natives τ) : Move τ → Option (Natives τ)
  | .launch t l => s.after (nativeLaunch t l)
  | .start l => (fetch l s.native).map fun n => {s with native := n}
  | .finish l =>
    match s.native.lcore l with
    | .running t (.entered _) =>
      some {s with native := {s.native with lcore := Function.update s.native.lcore l (.finished t)}}
    | _ => none
  | .join0 => some s
  | .wait tid =>
    if tid ≠ 0 ∧ s.joining = none ∧ (s.native.lcore tid).isRunning = false then
      {s with joining := some (tid, (s.native.lcore tid).launched)}.after (waitLcore tid)
    else none
  | .drop =>
    match s.joining with
    | none => none
    | some (tid, _) => {s with joining := none}.after (dropTid tid)

/-- The launches on `l` that succeeded and whose join has not returned. -/
def unjoined (s : Natives τ) (l : Nat) : List τ :=
  (s.native.lcore l).launched.toList ++
    match s.joining with
    | some (tid, launched) => if tid = l then launched.toList else []
    | none => []

/-- Every lcore executes what was launched on it, and `tids` holds it once while that is
not joined. -/
structure Sound (s : Natives τ) : Prop where
  executes : ∀ l t pc f, s.native.lcore l = .running t pc → pc.called = some f → f = t
  booked : ∀ l, s.native.tids.count l = if s.unjoined l = [] then 0 else 1

/-- A launch finds its lcore waiting, and no join on its way to drop its id; and the
launch on lcore 0 that a join passes over was not made. -/
def LaunchesOnWaiting (s : Natives τ) : Move τ → Prop
  | .launch _ l => s.native.nLcore ≤ l ∨ s.native.lcore l = .wait ∧ s.joining.map Prod.fst ≠ some l
  | .join0 => s.native.lcore 0 = .wait
  | _ => True

/-! ### One step -/

/-- What the rule keeps true. -/
structure Inv (s : Natives τ) : Prop where
  slot : ∀ l t, s.native.lcore l = .running t .fetch → s.native.snt l = some t
  executes : ∀ l t pc f, s.native.lcore l = .running t pc → pc.called = some f → f = t
  booked : ∀ l, s.native.tids.count l = (s.unjoined l).length
  waits : ∀ tid x, s.joining = some (tid, x) → s.native.lcore tid = .wait

theorem Inv.sound {s : Natives τ} (h : s.Inv) : s.Sound := by
  refine ⟨h.executes, fun l => ?_⟩
  rw [h.booked]
  have hle : (s.unjoined l).length ≤ 1 := by
    unfold unjoined
    cases hj : s.joining with
    | none => cases (s.native.lcore l).launched <;> simp
    | some j =>
      obtain ⟨tid, x⟩ := j
      by_cases htid : tid = l
      · subst htid
        rw [h.waits _ _ hj]
        cases x <;> simp [Lcore.launched]
      · cases (s.native.lcore l).launched <;> simp [htid]
  split_ifs with hnil
  · rw [hnil, List.length_nil]
  · have := List.length_pos_iff.mpr hnil
    omega

theorem Inv.init (nLcore : Nat) : (init nLcore : Natives τ).Inv :=
  ⟨nofun, nofun, fun _ => rfl, nofun⟩

section Step
variable {s s' : Natives τ}

theorem Inv.launch (h : s.Inv) {t : τ} {l : Nat} (hl : s.native.lcore l = .wait)
    (hj : s.joining.map Prod.fst ≠ some l) : ({s with native := started t l s.native} : Natives τ).Inv := by
  have hjoin {tid : Nat} {x : Option τ} (htid : s.joining = some (tid, x)) : tid ≠ l := by
    rintro rfl
    exact hj (by rw [htid]; rfl)
  constructor
  · intro l' t' hrun
    by_cases hll : l' = l
    · subst hll
      simp only [started, Function.update_self, Lcore.running.injEq, and_true] at hrun
      simp [started, hrun]
    · simp only [started, Function.update_of_ne hll] at hrun ⊢
      exact h.slot l' t' hrun
  · intro l' t' pc f hrun hf
    by_cases hll : l' = l
    · subst hll
      simp only [started, Function.update_self, Lcore.running.injEq] at hrun
      rw [← hrun.2] at hf
      cases hf
    · simp only [started, Function.update_of_ne hll] at hrun
      exact h.executes l' t' pc f hrun hf
  · intro l'
    have hbook := h.booked l'
    by_cases hll : l' = l
    · subst hll
      have hjoins : ∀ j ∈ s.joining, j.1 ≠ l' := fun j hmem => hjoin (x := j.2) hmem
      simp only [started, List.count_append, hbook, unjoined, hl, Function.update_self, Lcore.launched]
      cases hs : s.joining with
      | none => simp
      | some j => simp [hjoins j hs]
    · simp only [started, List.count_append, hbook, unjoined, Function.update_of_ne hll]
      simp [Ne.symm hll]
  · intro tid x htid
    simp only [started, Function.update_of_ne (hjoin htid)]
    exact h.waits tid x htid

/-- The running lcore goes on; the launch that started it stays the same. -/
theorem Inv.proceed (h : s.Inv) {t : τ} {l : Nat} {pc : Pc τ} (hl : s.native.lcore l = .running t pc)
    {c : Lcore τ} (hc : c = .running t (.entered t) ∨ c = .finished t) :
    ({s with native := {s.native with lcore := Function.update s.native.lcore l c}} : Natives τ).Inv := by
  have hlaunched : c.launched = (s.native.lcore l).launched := by
    rw [hl]
    rcases hc with rfl | rfl <;> rfl
  constructor
  · intro l' t' hrun
    by_cases hll : l' = l
    · subst hll
      simp only [Function.update_self] at hrun
      rcases hc with rfl | rfl <;> cases hrun
    · simp only [Function.update_of_ne hll] at hrun
      exact h.slot l' t' hrun
  · intro l' t' pc' f hrun hf
    by_cases hll : l' = l
    · subst hll
      simp only [Function.update_self] at hrun
      rcases hc with rfl | rfl
      · cases hrun
        cases hf
        rfl
      · cases hrun
    · simp only [Function.update_of_ne hll] at hrun
      exact h.executes l' t' pc' f hrun hf
  · intro l'
    have hsame : (Function.update s.native.lcore l c l').launched = (s.native.lcore l').launched := by
      by_cases hll : l' = l
      · subst hll
        rw [Function.update_self, hlaunched]
      · rw [Function.update_of_ne hll]
    rw [h.booked l']
    simp only [unjoined, hsame]
  · intro tid x htid
    have hwait := h.waits tid x htid
    have hne : tid ≠ l := by
      rintro rfl
      rw [hl] at hwait
      cases hwait
    simp only [Function.update_of_ne hne]
    exact hwait

theorem Inv.wait (h : s.Inv) {tid : Nat} (hj : s.joining = none)
    (hrun : (s.native.lcore tid).isRunning = false) :
    ({native := {s.native with lcore := Function.update s.native.lcore tid .wait},
      joining := some (tid, (s.native.lcore tid).launched)} : Natives τ).Inv := by
  constructor
  · intro l t hl
    by_cases hll : l = tid
    · subst hll
      simp only [Function.update_self] at hl
      cases hl
    · simp only [Function.update_of_ne hll] at hl
      exact h.slot l t hl
  · intro l t pc f hl hf
    by_cases hll : l = tid
    · subst hll
      simp only [Function.update_self] at hl
      cases hl
    · simp only [Function.update_of_ne hll] at hl
      exact h.executes l t pc f hl hf
  · intro l
    rw [h.booked l]
    by_cases hll : l = tid
    · subst hll
      simp [unjoined, hj, Lcore.launched]
    · simp [unjoined, hj, Function.update_of_ne hll, Ne.symm hll]
  · intro tid' x htid
    cases htid
    simp

/-- The join drops the id of the launch it has waited for, and finds none if there was no launch. -/
theorem Inv.drop (h : s.Inv) {tid : Nat} {x : Option τ} (hj : s.joining = some (tid, x))
    {n : Native τ} (hn : n = {s.native with tids := s.native.tids.erase tid} ∨
      n = s.native ∧ tid ∉ s.native.tids) : ({native := n, joining := none} : Natives τ).Inv := by
  have hwait := h.waits tid x hj
  have hlcore : n.lcore = s.native.lcore := by rcases hn with rfl | ⟨rfl, -⟩ <;> rfl
  have hsnt : n.snt = s.native.snt := by rcases hn with rfl | ⟨rfl, -⟩ <;> rfl
  have hcount (l : Nat) : n.tids.count l = if tid = l then s.native.tids.count l - 1 else s.native.tids.count l := by
    rcases hn with rfl | ⟨rfl, hmem⟩
    · rw [List.count_erase]
      by_cases hl : tid = l <;> simp [hl]
    · split_ifs with hl
      · rw [← hl, List.count_eq_zero_of_not_mem hmem]
      · rfl
  constructor
  · intro l t hl
    rw [hlcore] at hl
    rw [hsnt]
    exact h.slot l t hl
  · intro l t pc f hl
    rw [hlcore] at hl
    exact h.executes l t pc f hl
  · intro l
    have hbook := h.booked l
    rw [hcount]
    by_cases hl : tid = l
    · subst hl
      simp only [unjoined, hj, hwait, Lcore.launched, Option.toList_none, List.nil_append, if_true,
        hlcore, List.append_nil, List.length_nil] at hbook ⊢
      rw [hbook]
      cases x <;> rfl
    · simpa only [unjoined, hj, if_neg hl, hlcore] using hbook
  · nofun

/-- **What a step keeps**: a launch under the rule starts a waiting lcore on its own slot, or
does nothing at all. -/
theorem Inv.step (h : s.Inv) {m : Move τ} (hr : s.LaunchesOnWaiting m) (hs : s.step m = some s') : s'.Inv := by
  cases m with
  | launch t l =>
    simp only [Natives.step, after, nativeLaunch_run] at hs
    rcases hr with hle | ⟨hl, hj⟩
    · rw [if_pos hle] at hs
      cases hs
      exact h
    · rw [hl] at hs
      split_ifs at hs with hle
      · cases hs
        exact h
      · cases hs
        exact h.launch hl hj
      · simp at *
  | start l =>
    obtain ⟨n, hn, rfl⟩ := Option.map_eq_some_iff.mp hs
    obtain ⟨t, f, hl, hsnt, rfl⟩ := fetch_some hn
    obtain rfl : t = f := Option.some.inj ((h.slot l t hl).symm.trans hsnt)
    exact h.proceed hl (.inl rfl)
  | finish l =>
    simp only [Natives.step] at hs
    split at hs
    · next t f hl =>
      cases hs
      exact h.proceed hl (.inr rfl)
    · cases hs
  | join0 =>
    cases hs
    exact h
  | wait tid =>
    simp only [Natives.step] at hs
    split_ifs at hs with hen
    cases hs
    exact h.wait hen.2.1 hen.2.2
  | drop =>
    simp only [Natives.step] at hs
    split at hs
    · cases hs
    · next tid x hj =>
      simp only [after, dropTid, Proc.get_bind] at hs
      split_ifs at hs with hmem
      · cases hs
        exact h.drop hj (.inl rfl)
      · cases hs
        exact h.drop hj (.inr ⟨rfl, hmem⟩)

end Step

/-- A launch that throws has changed `tids`, unless the lcore id was too large. -/
theorem refused_unchanged_iff {t : τ} {l : Nat} {w : String} {n n' : Native τ}
    (h : nativeLaunch t l n = .throws w n') : n'.tids = n.tids ↔ n.nLcore ≤ l := by
  rw [nativeLaunch_run] at h
  split_ifs at h with hle hwait
  · cases h
    exact iff_of_true rfl hle
  · cases h
    refine iff_of_false (fun heq => ?_) hle
    simp [marked] at heq

/-- **Launches on waiting lcores**: in every run, each lcore executes what the launch that
succeeded on it named, `tids` is exactly the launches that are not joined, and a launch that
throws has changed nothing. -/
theorem lcores_sound_of_run {nLcore : Nat} {ms : List (Move τ)} {s : Natives τ}
    (h : Runs step LaunchesOnWaiting (init nLcore) ms s) :
    s.Sound ∧ ∀ t l w n, s.LaunchesOnWaiting (.launch t l) → nativeLaunch t l s.native = .throws w n →
      n = s.native := by
  have hinv : s.Inv := h.invariant (.init nLcore) fun _ _ _ h hr hs => h.step hr hs
  refine ⟨hinv.sound, fun t l w n hr hthrow => ?_⟩
  rw [nativeLaunch_run] at hthrow
  rcases hr with hle | ⟨hl, -⟩
  · rw [if_pos hle] at hthrow
    cases hthrow
    rfl
  · rw [hl] at hthrow
    split_ifs at hthrow
    · cases hthrow
      rfl
    · simp at *

instance [DecidableEq τ] (s : Natives τ) (m : Move τ) : Decidable (s.LaunchesOnWaiting m) :=
  match m with
  | .launch _ _ => inferInstanceAs (Decidable (_ ∨ _ ∧ _))
  | .join0 => inferInstanceAs (Decidable (_ = _))
  | .start _ => isTrue trivial
  | .finish _ => isTrue trivial
  | .wait _ => isTrue trivial
  | .drop => isTrue trivial

/-- A thread on lcore 2 until it is joined, and then another one; and one on lcore 3. -/
def turnsRun : List (Move String) :=
  [.launch "f" 2, .launch "h" 9, .start 2, .launch "h" 3, .finish 2, .wait 2, .drop, .launch "g" 2, .start 2]

theorem sound_of_turnsRun :
    ∃ s, exec step (init 4) turnsRun = some s ∧ s.native.lcore 2 = .running "g" (.entered "g") ∧ s.Sound := by
  obtain ⟨s, hs, hf⟩ := Option.map_eq_some_iff.mp
    (show (exec step (init 4) turnsRun).map (fun s => s.native.lcore 2) = some (.running "g" (.entered "g")) by
      decide +kernel)
  exact ⟨s, hs, hf, (lcores_sound_of_run (Runs.of_obeys (by decide +kernel) hs)).1⟩

/-- The second launch is refused, and the lcore calls the function it named. -/
def busyRun : List (Move String) := [.launch "f" 2, .launch "g" 2, .start 2]

theorem busy_launch_unsound :
    ∃ s, exec step (init 4) busyRun = some s ∧ s.native.lcore 2 = .running "f" (.entered "g") ∧
      s.native.tids = [2, 2] ∧ ¬s.Sound := by
  obtain ⟨s, hs, hf⟩ := Option.map_eq_some_iff.mp
    (show (exec step (init 4) busyRun).map (fun s => (s.native.lcore 2, s.native.tids)) =
      some (.running "f" (.entered "g"), [2, 2]) by decide +kernel)
  simp only [Prod.mk.injEq] at hf
  refine ⟨s, hs, hf.1, hf.2, fun h => ?_⟩
  have heq := h.executes 2 "f" (.entered "g") "g" hf.1 rfl
  simp at heq

end Natives

end Susanow
