import Susanow.Nfvi.Fitting
import Susanow.Nfvi.Joining
import Susanow.Nfvi.Patching
import Susanow.Nfvi.Rollback

/-! A deploy ends.

It comes to its blocks, or returns -1 before, exactly if the counts fit its ports.
From there every step of the server's thread brings it nearer to its return, and the
only thing it ever waits for is a worker of its own that leaves at its next step —
as long as the books are in order, no worker is still on its way to store the flag
that the roll-back clears, and no launch is of a core that the host does not have. -/
namespace Susanow

/-- What a started lcore is at: what it will read, what it has called, what it loops in. -/
def Pc.task {τ : Type} (slot : Option τ) : Pc τ → Option τ
  | .fetch => slot
  | .entered t => some t
  | .looping t => some t

/-- Whose deploy an undeploy is part of. -/
def Kont.deploy? (v : Nat) : Kont → Option Nat
  | .rollback => some v
  | .put => none

/-- Whose deploy the server's thread is at. -/
def Ctrl.deploy? : Ctrl → Option Nat
  | .idle _ => none
  | .launching v _ _ => some v
  | .undeploying v _ k => k.deploy? v
  | .joining v _ _ k => k.deploy? v

namespace Sys

/-- The server's thread is between the start of a deploy of `v` and its return. -/
def Deploying (s : Sys) (v : Nat) : Prop := s.ctrl.deploy? = some v

/-- The deploy of `v` has just returned. -/
def Deployed (s : Sys) (v : Nat) : Prop :=
  s.ctrl = .idle (some (.deployed v 0)) ∨ s.ctrl = .idle (some (.deployed v (-1)))

/-! ### How much is left of a deploy -/

/-- The number of vcores of each block. -/
def widths (s : Sys) (v : Nat) : List Nat := (s.nfvi.vnf v).blocks.map fun b => b.vcores.length

/-- More than the steps of one pass over the blocks, before `last` others. -/
def lap (last : Nat) (widths : List Nat) : Nat := widths.foldr (fun w n => w + 2 + n) last

/-- More than the steps of the server's thread before a deploy of `v` returns. -/
def todo (s : Sys) (v : Nat) : Nat :=
  match s.ctrl with
  | .launching _ bid i => lap (lap 1 (s.widths v)) (((s.widths v).drop bid).modifyHead (· - i))
  | .undeploying _ bid _ => lap 1 ((s.widths v).drop bid)
  | .joining _ bid i _ => lap 1 (((s.widths v).drop bid).modifyHead (· - i)) - 1
  | .idle _ => 0

/-- The thread of `v` that the roll-back is to join next. -/
def Awaits (s : Sys) (v l : Nat) : Prop :=
  ∃ bid i, s.ctrl = .joining v bid i .rollback ∧ (s.tids v bid)[i]? = some l

/-- The next step of the server's thread is nearer to the return of the deploy, or it waits for
a thread that ends with its own next step. -/
def GoesOn (s : Sys) (v : Nat) : Prop :=
  (∃ t, s.step .ctl = some t ∧ (t.Deployed v ∨ t.Deploying v ∧ t.todo v < s.todo v)) ∨
    ∃ l t, s.Awaits v l ∧ s.step (.wrk l) = some t ∧ (t.native.lcore l).isRunning = false

theorem lap_cons (last w : Nat) (ws : List Nat) : lap last (w :: ws) = w + 2 + lap last ws := rfl

theorem le_lap (last : Nat) (ws : List Nat) : last ≤ lap last ws := by
  induction ws with
  | nil => exact le_rfl
  | cons w ws ih =>
    rw [lap_cons]
    omega

theorem widths_editBlock {f : Block → Block} (hf : ∀ b, (f b).vcores = b.vcores) (s : Sys) (w bid v : Nat) :
    (s.editBlock w bid f).widths v = s.widths v := by
  apply List.ext_getElem?
  intro i
  simp only [widths, List.getElem?_map]
  show ((s.editBlock w bid f).block? v i).map _ = (s.block? v i).map _
  rw [block?_editBlock]
  split
  · cases s.block? v i <;> simp [hf]
  · rfl

theorem drop_widths {s : Sys} {v bid : Nat} {b : Block} (hb : s.block? v bid = some b) :
    (s.widths v).drop bid = b.vcores.length :: (s.widths v).drop (bid + 1) := by
  obtain ⟨hlt, rfl⟩ := List.getElem?_eq_some_iff.mp hb
  rw [List.drop_eq_getElem_cons (by simpa [widths] using hlt)]
  simp [widths]

theorem widths_ctl {s t : Sys} (hs : Ctl s t) (v : Nat) : t.widths v = s.widths v := by
  cases hs with
  | launch =>
    rw [widths, launched_nfvi]
    exact widths_editBlock (f := setTid _ _) (fun _ => rfl) s _ _ v
  | store => exact widths_editBlock (f := setRunning false) (fun _ => rfl) s _ _ v
  | _ => simp [widths]

theorem widths_wrk {s t : Sys} {l : Nat} (hs : Wrk s l t) (v : Nat) : t.widths v = s.widths v := by
  cases hs with
  | enter => exact widths_editBlock (f := setRunning true) (fun _ => rfl) s _ _ v
  | _ => rfl

theorem isSome_block_iff {s : Sys} {v bid : Nat} : (s.block? v bid).isSome ↔ bid < (s.widths v).length := by
  simp [Nfvi.block?, widths]

/-! ### Threads run what they were launched for -/

/-- No slot of a started lcore has been overwritten before it was read. -/
def Obeyed (s : Sys) : Prop :=
  ∀ l t pc, s.native.lcore l = .running t pc → pc.task (s.native.snt l) = some t

section Step
variable {s t : Sys} {l : Label}

theorem obeyed_step (h : s.Obeyed) (hfree : l = .ctl → ∀ v ∈ s.ctrl.vnf?, s.SlotFree v)
    (hs : s.step l = some t) : t.Obeyed := by
  have hwrite {k : Nat} {c : Lcore Task} {x : Option Task}
      (hlcore : t.native.lcore = Function.update s.native.lcore k c)
      (hsnt : t.native.snt = Function.update s.native.snt k x)
      (hc : ∀ y pc, c = .running y pc → pc.task x = some y) : t.Obeyed := by
    intro j y pc hj
    rw [hlcore] at hj
    rw [hsnt]
    by_cases hjk : j = k
    · subst hjk
      rw [Function.update_self] at hj ⊢
      exact hc y pc hj
    · rw [Function.update_of_ne hjk] at hj ⊢
      exact h j y pc hj
  have hkeep {k : Nat} {c : Lcore Task} (hlcore : t.native.lcore = Function.update s.native.lcore k c)
      (hsnt : t.native.snt = s.native.snt)
      (hc : ∀ y pc, c = .running y pc → pc.task (s.native.snt k) = some y) : t.Obeyed :=
    hwrite hlcore (by rw [hsnt, Function.update_eq_self]) hc
  rcases step_cases hs with hserved | ⟨rfl, hctl⟩ | ⟨k, -, hwrk⟩
  · unfold Obeyed
    rw [hserved.native]
    exact h
  · cases hctl with
    | launch =>
      refine hwrite (launched_lcore ..) (launched_snt ..) fun y pc hc => ?_
      cases hc
      rfl
    | @refused v bid i b vc th hc hb hi hno hth =>
      obtain rfl | ⟨-, rfl⟩ := hth
      · exact h
      · intro j y pc hj
        show pc.task (Function.update s.native.snt vc.lcoreId (some (.block v bid)) j) = some y
        have hold : pc.task (s.native.snt j) = some y := h j y pc hj
        by_cases hjk : j = vc.lcoreId
        · subst hjk
          rw [Function.update_self]
          cases pc with
          | fetch =>
            have hy := (hfree rfl v (by rw [hc]; rfl)).of_ctrl hc b hb vc hi y
              (by rw [show s.native.lcore vc.lcoreId = _ from hj]; rfl)
            rw [hy]
            rfl
          | entered | looping => exact hold
        · rwa [Function.update_of_ne hjk]
    | join => exact hkeep (joined_lcore ..) rfl nofun
    | unknown => exact hkeep (c := .wait) rfl rfl nofun
    | noVcore | nextBlock => simpa [Obeyed] using h
    | _ => exact h
  · cases hwrk with
    | @fetch x f hl hsnt =>
      refine hkeep (setLcore_lcore ..) rfl fun y pc hc => ?_
      cases hc
      have hx : s.native.snt k = some x := h k x .fetch hl
      rwa [hsnt] at hx
    | @timer x hl =>
      refine hkeep (setLcore_lcore ..) rfl fun y pc hc => ?_
      cases hc
      exact h k x (.entered _) hl
    | @enter x v bid b hl =>
      refine hkeep (setLcore_lcore ..) rfl fun y pc hc => ?_
      cases hc
      exact h k x (.entered _) hl
    | pass => exact h
    | leave => exact hkeep (setLcore_lcore ..) rfl nofun

end Step

theorem obeyed_init (nSocket nLcore : Nat) (catalog : List (String × VnfClass)) :
    (init nSocket nLcore catalog).Obeyed := by
  intro l t pc hl
  by_cases h : l = 1
  · subst h
    cases hl
    rfl
  · simp [init, h] at hl

/-! ### The threads that the roll-back waits for -/

/-- If the next step clears a flag, all the workers of its block have stored it. -/
def NoneLate (s : Sys) : Prop :=
  match s.ctrl with
  | .undeploying v bid _ => s.flag v bid = true → ∀ l ∈ s.native.tids,
      s.native.lcore l ≠ .running (.block v bid) .fetch ∧
        s.native.lcore l ≠ .running (.block v bid) (.entered (.block v bid))
  | _ => True

def noneLate (s : Sys) : Bool :=
  match s.ctrl with
  | .undeploying v bid _ => decide (s.flag v bid = true → ∀ l ∈ s.native.tids,
      s.native.lcore l ≠ .running (.block v bid) .fetch ∧
        s.native.lcore l ≠ .running (.block v bid) (.entered (.block v bid)))
  | _ => true

theorem noneLate_iff (s : Sys) : s.noneLate = true ↔ s.NoneLate := by
  unfold noneLate NoneLate
  cases s.ctrl with
  | undeploying v bid k => exact decide_eq_true_iff
  | _ => exact iff_of_true rfl trivial

instance (s : Sys) : Decidable s.NoneLate := decidable_of_iff _ (noneLate_iff s)

theorem NoneLate.none_pending {s : Sys} {v bid : Nat} {k : Kont} (h : s.NoneLate)
    (hc : s.ctrl = .undeploying v bid k) (hflag : s.flag v bid = true) (hlisted : s.Listed)
    (hthreads : s.Threads v) (l : Nat) : ¬s.Pending v bid l := by
  unfold NoneLate at h
  rw [hc] at h
  rintro ⟨t, hl | ⟨hl, hsnt⟩⟩
  · obtain rfl := hthreads.entered l t bid hl
    exact (h hflag l (hlisted l (by simp [hl]))).2 hl
  · obtain rfl := hthreads.slot l t bid hl hsnt
    exact (h hflag l (hlisted l (by simp [hl]))).1 hl

/-- The host has the core that a launch at vcore `i` of block `bid` is for; the master's is refused. -/
def CoreAt (s : Sys) (v bid i : Nat) : Prop :=
  ∀ b ∈ s.block? v bid, ∀ vc ∈ b.vcores[i]?, vc.lcoreId = 0 ∨ vc.lcoreId < s.native.nLcore

instance (s : Sys) (v bid i : Nat) : Decidable (s.CoreAt v bid i) := by
  unfold CoreAt
  infer_instance

/-- If the next step launches a thread, the host has its core. -/
def CoreThere (s : Sys) : Prop :=
  match s.ctrl with
  | .launching v bid i => s.CoreAt v bid i
  | _ => True

def coreThere (s : Sys) : Bool :=
  match s.ctrl with
  | .launching v bid i => decide (s.CoreAt v bid i)
  | _ => true

theorem coreThere_iff (s : Sys) : s.coreThere = true ↔ s.CoreThere := by
  unfold coreThere CoreThere
  cases s.ctrl with
  | launching v bid i => exact decide_eq_true_iff
  | _ => exact iff_of_true rfl trivial

instance (s : Sys) : Decidable s.CoreThere := decidable_of_iff _ (coreThere_iff s)

/-- Where the server's thread joins, the flag is down and nobody is on the way to store it. -/
def Halted (s : Sys) : Prop :=
  ∀ v bid i k, s.ctrl = .joining v bid i k →
    (s.block? v bid).isSome ∧ s.flag v bid = false ∧ ∀ l, ¬s.Pending v bid l

/-- What a deploy is at has not been deleted. -/
def Live (s : Sys) : Prop := ∀ v, s.Deploying v → v ∈ s.nfvi.vnfs

/-- A request let through that deploys, or a call, does what `deploy` does up to the blocks. -/
theorem step_deploys {s : Sys} {v : Nat} {l : Label} (hdep : s.Deploys v l) :
    s.step l = s.serve (Nfvi.deploy v) := by
  cases l with
  | request r => simp only [step, serve, Nfvi.handle_deploy s.native hdep]
  | call c =>
    cases c with
    | deploy w =>
      obtain rfl : w = v := hdep
      rfl
    | _ => cases hdep
  | ctl | wrk => cases hdep

section Step
variable {s t : Sys} {l : Label}

theorem Live.step (h : s.Live) (hs : s.step l = some t) : t.Live := by
  intro v hdep
  rcases step_cases hs with hserved | ⟨rfl, hctl⟩ | ⟨k, -, hwrk⟩
  · -- only a deploy puts the server's thread there
    rcases hserved.ctrl with ⟨last, hc, -⟩ | ⟨w, hc, hw⟩ | ⟨w, hc⟩ <;> unfold Deploying at hdep <;> rw [hc] at hdep
    · cases hdep
    · obtain rfl : w = v := Option.some.inj hdep
      have hlive := live_of_set hs (.inr hw)
      rw [step_deploys hw] at hs
      obtain ⟨-, ⟨nx, n, hp, rfl⟩ | ⟨what, n, hp, rfl⟩⟩ := serve_some hs
      · have hwiring := (Nfvi.keeps_deploy w s.nfvi).1 nx n hp
        have hvnfs : n.vnfs = s.nfvi.vnfs := congrArg Wiring.vnfs hwiring
        exact hvnfs ▸ hlive
      · cases hc
    · cases hdep
  · have hvnfs : t.nfvi.vnfs = s.nfvi.vnfs := congrArg Wiring.vnfs (ctl_wiring hctl)
    rw [hvnfs]
    refine h v ?_
    unfold Deploying at hdep ⊢
    cases hctl with
    | deployed | rolledBack | undeployed | noTid | unknown => cases hdep
    | noVcore hc | nextBlock hc | launch hc | refused hc | skip hc | store hc | okashii hc | join hc | blockDone hc =>
      rw [hc]
      exact hdep
  · have hvnfs : t.nfvi.vnfs = s.nfvi.vnfs := congrArg Wiring.vnfs (wrk_wiring hwrk)
    have hctrl : t.ctrl = s.ctrl := by cases hwrk <;> rfl
    rw [hvnfs]
    refine h v ?_
    unfold Deploying at hdep ⊢
    rwa [hctrl] at hdep

theorem Halted.step (h : s.Halted) (hlisted : s.Listed) (hthreads : ∀ v, s.Threads v)
    (hlate : l = .ctl → s.NoneLate) (hs : s.step l = some t) : t.Halted := by
  intro v bid i k hc
  -- it was there before, or it has just cleared the flag
  have hstill {i' : Nat} (hc' : s.ctrl = .joining v bid i' k) (hwidths : t.widths v = s.widths v) :
      (t.block? v bid).isSome ∧ t.flag v bid = false ∧ ∀ l, ¬t.Pending v bid l := by
    obtain ⟨hblock, hflag, hnone⟩ := h v bid i' k hc'
    refine ⟨by rwa [isSome_block_iff, hwidths, ← isSome_block_iff], ?_,
      fun l hl => hnone l (pending_step (fun b j hb => by rw [hc'] at hb; cases hb) hs hl)⟩
    rw [← Bool.not_eq_true]
    intro hup
    obtain ⟨j, -, hpend⟩ := raised_step hs hflag hup
    exact hnone j hpend
  rcases step_cases hs with hserved | ⟨rfl, hctl⟩ | ⟨j, -, hwrk⟩
  · rcases hserved.ctrl with ⟨last, h', -⟩ | ⟨w, h', -⟩ | ⟨w, h'⟩ <;> rw [h'] at hc <;> cases hc
  · have hwidths := widths_ctl hctl v
    cases hctl with
    | @store w b k' blk hc' hb hrun hlen =>
      cases hc
      have hflag : s.flag v bid = true := by rw [flag_of_block hb, hrun]
      refine ⟨?_, ?_, fun l hl => ?_⟩
      · rw [isSome_block_iff, hwidths, ← isSome_block_iff, hb]
        rfl
      · rw [goto_flag, flag_editBlock, if_pos ⟨rfl, rfl, by simp [hb]⟩]
      · exact (hlate rfl).none_pending hc' hflag hlisted (hthreads v) l
          (pending_step (fun b j hb => by rw [hc'] at hb; cases hb) hs hl)
    | join hc' =>
      cases hc
      exact hstill hc' hwidths
    | _ => cases hc
  · have hctrl : t.ctrl = s.ctrl := by cases hwrk <;> rfl
    exact hstill (hctrl ▸ hc) (widths_wrk hwrk v)

end Step

/-! ### The next step of a deploy -/

/-- The id the server's thread is to join is that of a thread the block launched. -/
def Own (s : Sys) (v : Nat) : Prop :=
  ∀ bid i k, s.ctrl = .joining v bid i k → ∀ tid ∈ (s.tids v bid)[i]?, tid ≠ 0 → s.Unjoined v bid tid

theorem Books.own {s : Sys} (h : Books True s) (v : Nat) : s.Own v := by
  intro bid i k hc tid htid h0
  obtain ⟨m, hacc, hblank⟩ := (h.pages v bid).joining hc
  have hlt : i < m := Nat.not_le.mp fun hge => h0 (hblank trivial i hge tid htid)
  exact (hacc.unjoined tid).mpr (Accounted.mem_of_index htid hlt)

section Progress
variable {s t : Sys} {v : Nat}

theorem modifyHead_sub_zero (ws : List Nat) : ws.modifyHead (· - 0) = ws := by
  cases ws <;> rfl

/-- A step of the server's thread is nearer to the return. -/
theorem nearer_of_ctl (hdep : s.Deploying v) (hthreads : s.Threads v) (hlisted : s.Listed) (hown : s.Own v)
    (hs : Ctl s t) : t.Deployed v ∨ t.Deploying v ∧ t.todo v < s.todo v := by
  have hwidths := widths_ctl hs v
  unfold Deploying at hdep
  unfold Deployed Deploying todo
  rw [hwidths]
  cases hs with
  | deployed hc =>
    rw [hc] at hdep
    cases hdep
    exact .inl (.inl rfl)
  | @noVcore w bid i b hc hb | @refused w bid i b vc th hc hb =>
    rw [hc] at hdep ⊢
    cases hdep
    refine .inr ⟨rfl, ?_⟩
    have hle := le_lap (lap 1 (s.widths v)) ((s.widths v).drop (bid + 1))
    simp only [goto_ctrl, drop_widths hb, List.modifyHead_cons, lap_cons, List.drop_zero]
    omega
  | @nextBlock w bid i b hc hb =>
    rw [hc] at hdep ⊢
    cases hdep
    refine .inr ⟨rfl, ?_⟩
    simp only [goto_ctrl, modifyHead_sub_zero, drop_widths hb, List.modifyHead_cons, lap_cons]
    omega
  | launch hc hb hi =>
    rw [hc] at hdep ⊢
    cases hdep
    refine .inr ⟨rfl, ?_⟩
    have hlt := (List.getElem?_eq_some_iff.mp hi).1
    simp only [launched_ctrl, drop_widths hb, List.modifyHead_cons, lap_cons]
    omega
  | rolledBack hc =>
    rw [hc] at hdep
    cases hdep
    exact .inl (.inr rfl)
  | undeployed hc =>
    rw [hc] at hdep
    cases hdep
  | @skip w bid k b hc hb =>
    rw [hc] at hdep ⊢
    cases k with
    | put => cases hdep
    | rollback =>
      cases hdep
      refine .inr ⟨rfl, ?_⟩
      simp only [goto_ctrl, drop_widths hb, lap_cons]
      omega
  | @store w bid k b hc hb =>
    rw [hc] at hdep ⊢
    cases k with
    | put => cases hdep
    | rollback =>
      cases hdep
      refine .inr ⟨rfl, ?_⟩
      simp only [goto_ctrl, drop_widths hb, List.modifyHead_cons, lap_cons]
      omega
  | @noTid w bid i k b hc hb hi htid =>
    rw [hc] at hdep
    cases k with
    | put => cases hdep
    | rollback =>
      -- every vcore has an id
      cases hdep
      have hlen := hthreads.fits b (List.mem_of_getElem? hb)
      rw [List.getElem?_eq_none_iff, hlen] at htid
      omega
  | @okashii w bid i k b hc hb hi | @blockDone w bid i k b hc hb =>
    rw [hc] at hdep ⊢
    cases k with
    | put => cases hdep
    | rollback =>
      cases hdep
      refine .inr ⟨rfl, ?_⟩
      simp only [goto_ctrl, drop_widths hb, List.modifyHead_cons, lap_cons]
      omega
  | @join w bid i tid k b hc hb hi =>
    rw [hc] at hdep ⊢
    cases k with
    | put => cases hdep
    | rollback =>
      cases hdep
      refine .inr ⟨rfl, ?_⟩
      simp only [joined_ctrl, drop_widths hb, List.modifyHead_cons, lap_cons]
      omega
  | @unknown w bid i tid k b what hc hb hi htid h0 hrun hmem =>
    have hc' := hc
    rw [hc] at hdep
    cases k with
    | put => cases hdep
    | rollback =>
      -- its own thread is in the table
      cases hdep
      have hun : s.Unjoined v bid tid := hown bid i _ hc' tid (by rw [tids_of_block hb, htid]; rfl) h0
      refine absurd (hlisted tid fun hwait => ?_) hmem
      rw [Unjoined, hwait] at hun
      cases hun

/-- A launch is made or refused, if the host has the core it is for. -/
theorem launchStep_isSome_iff (s : Sys) (v bid i : Nat) : (s.launchStep v bid i).isSome ↔ s.CoreAt v bid i := by
  have htrivial (h : ∀ b ∈ s.block? v bid, b.vcores[i]? = none) : s.CoreAt v bid i := by
    intro b hb vc hvc
    rw [h b hb] at hvc
    cases hvc
  unfold launchStep
  split
  · next hb =>
    refine iff_of_true rfl (htrivial fun b hb' => ?_)
    rw [hb] at hb'
    cases hb'
  · next b hb =>
    have hblock {b' : Block} (hb' : b' ∈ s.block? v bid) : b' = b := by
      rw [hb] at hb'
      exact (Option.some.inj hb').symm
    split
    · next hnone =>
      refine iff_of_true rfl (htrivial fun b' hb' => ?_)
      rw [hblock hb', hnone]
      rfl
    · split
      · next hi =>
        refine iff_of_true rfl (htrivial fun b' hb' => ?_)
        rw [hblock hb', hi]
      · next vc hi =>
        have hat : s.CoreAt v bid i ↔ vc.lcoreId = 0 ∨ vc.lcoreId < s.native.nLcore := by
          refine ⟨fun h => h b hb vc hi, fun h b' hb' vc' hvc' => ?_⟩
          rw [hblock hb', hi] at hvc'
          obtain rfl := Option.some.inj hvc'
          exact h
        rw [hat]
        split
        · next hl =>
          obtain ⟨-, -, hlt, -⟩ := Native.launch_ret hl
          exact iff_of_true rfl (.inr hlt)
        · next hl => exact iff_of_true rfl ((Native.launch_throws hl).1.imp_right And.left)
        · next hl =>
          obtain ⟨h0, hle, -⟩ := Native.launch_crash_iff.mp hl
          exact iff_of_false nofun (by omega)

theorem undeployStep_isSome (hthreads : s.Threads v) (bid : Nat) (k : Kont) :
    (s.undeployStep v bid k).isSome := by
  unfold undeployStep
  split
  · cases k <;> rfl
  · next b hb =>
    have hfits : b.tids.length = b.vcores.length := hthreads.fits b (List.mem_of_getElem? hb)
    rw [if_pos hfits]
    split <;> rfl

/-- A join waits for nothing but its thread. -/
theorem joinStep_isSome {bid : Nat} {b : Block} (hb : s.block? v bid = some b) {i : Nat} (k : Kont)
    (hended : ∀ tid ∈ b.tids[i]?, tid ≠ 0 → (s.native.lcore tid).isRunning = false) :
    (s.joinStep v bid i k).isSome := by
  simp only [joinStep, hb]
  split
  · split
    · rfl
    · next tid htid =>
      split
      · rfl
      · next h0 =>
        rw [hended tid htid h0]
        by_cases hmem : tid ∈ s.native.tids
        · simp [Native.join_of_mem h0 hmem]
        · obtain ⟨w, hw⟩ := Native.join_of_not_mem h0 hmem
          simp [hw]
  · rfl

/-- The thread it waits for ends with its next step. -/
theorem leaves_of_running {bid l : Nat} (hv : v ∈ s.nfvi.vnfs) (hblock : (s.block? v bid).isSome)
    (hflag : s.flag v bid = false) (hnone : ¬s.Pending v bid l) (hobeyed : s.Obeyed)
    (hun : s.Unjoined v bid l) (hrun : (s.native.lcore l).isRunning = true) :
    ∃ t, s.step (.wrk l) = some t ∧ (t.native.lcore l).isRunning = false := by
  obtain ⟨b, hb⟩ := Option.isSome_iff_exists.mp hblock
  cases hl : s.native.lcore l with
  | wait | finished => rw [hl] at hrun; cases hrun
  | running x pc =>
    obtain rfl : x = .block v bid := by
      rw [Unjoined, hl] at hun
      exact Option.some.inj hun
    have htask := hobeyed l _ pc hl
    cases pc with
    | fetch => exact absurd ⟨_, .inr ⟨hl, htask⟩⟩ hnone
    | entered y =>
      obtain rfl : y = .block v bid := Option.some.inj htask
      exact absurd ⟨_, .inl hl⟩ hnone
    | looping y =>
      obtain rfl : y = .block v bid := Option.some.inj htask
      have hdown : b.running = false := by rwa [flag_of_block hb] at hflag
      refine ⟨s.setLcore l (.finished (.block v bid)), ?_, ?_⟩
      · simp [step, wrk, hl, hv, loopStep, hb, hdown]
      · simp [Lcore.isRunning]

/-- **A deploy goes on**, as far as the books are in order, nobody raises the flag again and the host
has the next core. -/
theorem goesOn_of_deploying (hbooks : Books True s) (hobeyed : s.Obeyed) (hhalted : s.Halted) (hlive : s.Live)
    (hdep : s.Deploying v) (hthere : s.CoreThere) : s.GoesOn v := by
  have hv := hlive v hdep
  have hthreads := hbooks.threads v
  have hstep (h : s.ctl.isSome) : s.GoesOn v := by
    obtain ⟨t, ht⟩ := Option.isSome_iff_exists.mp h
    exact .inl ⟨t, ht, nearer_of_ctl hdep hthreads hbooks.listed (hbooks.own v) (ctl_some ht)⟩
  have hdep' := hdep
  unfold Deploying at hdep'
  cases hc : s.ctrl with
  | idle =>
    rw [hc] at hdep'
    cases hdep'
  | launching w bid i =>
    rw [hc] at hdep'
    cases hdep'
    unfold CoreThere at hthere
    rw [hc] at hthere
    refine hstep ?_
    simp only [ctl, hc, if_pos hv]
    exact (launchStep_isSome_iff s v bid i).mpr hthere
  | undeploying w bid k =>
    rw [hc] at hdep'
    cases k with
    | put => cases hdep'
    | rollback =>
      cases hdep'
      refine hstep ?_
      simp only [ctl, hc, if_pos hv]
      exact undeployStep_isSome hthreads bid .rollback
  | joining w bid i k =>
    rw [hc] at hdep'
    cases k with
    | put => cases hdep'
    | rollback =>
      cases hdep'
      obtain ⟨hblock, hflag, hnone⟩ := hhalted v bid i .rollback hc
      obtain ⟨b, hb⟩ := Option.isSome_iff_exists.mp hblock
      by_cases hended : ∀ tid ∈ b.tids[i]?, tid ≠ 0 → (s.native.lcore tid).isRunning = false
      · refine hstep ?_
        simp only [ctl, hc, if_pos hv]
        exact joinStep_isSome hb .rollback hended
      · push Not at hended
        obtain ⟨tid, htid, h0, hrun⟩ := hended
        have hid : (s.tids v bid)[i]? = some tid := by rw [tids_of_block hb]; exact htid
        have hun := hbooks.own v bid i .rollback hc tid hid h0
        obtain ⟨t, ht, hend⟩ := leaves_of_running hv hblock hflag (hnone tid) hobeyed hun (by simpa using hrun)
        exact .inr ⟨tid, t, ⟨bid, i, hc, hid⟩, ht, hend⟩

/-- Where the host does not have the core, it does not. -/
theorem coreThere_of_goesOn (h : s.GoesOn v) : s.CoreThere := by
  unfold CoreThere
  split
  · next w bid i hc =>
    rcases h with ⟨t, ht, -⟩ | ⟨l, t, ⟨bid', i', hj, -⟩, -⟩
    · have hctl : s.ctl = some t := ht
      simp only [ctl, hc] at hctl
      split_ifs at hctl
      exact (launchStep_isSome_iff s w bid i).mp (by rw [hctl]; rfl)
    · rw [hc] at hj
      cases hj
  · trivial

end Progress

/-! ### Runs -/

/-- What every step of a run keeps to. -/
def deployRule (s : Sys) : Label → Prop
  | .ctl => joinRule s .ctl ∧ s.NoneLate ∧ s.CoreThere
  | l => joinRule s l

instance (s : Sys) (l : Label) : Decidable (deployRule s l) := by
  unfold deployRule
  split <;> infer_instance

theorem joinRule_of_deployRule {s : Sys} {l : Label} (h : deployRule s l) : joinRule s l := by
  cases l with
  | ctl => exact h.1
  | _ => exact h

theorem begins_iff {nSocket nLcore : Nat} {catalog : List (String × VnfClass)} {ls : List Label} {s : Sys}
    (h : Runs step Always (.init nSocket nLcore catalog) ls s) {last : Option Done} (hidle : s.ctrl = .idle last)
    {v : Nat} (hv : v ∈ s.nfvi.vnfs) {l : Label} (hdep : s.Deploys v l) :
    (∃ t, s.step l = some t ∧ (t.Deploying v ∨ t.Deployed v)) ↔ s.nfvi.Fitting v := by
  have hlive (p : Nat) (hp : some p ∈ (s.nfvi.vnf v).ports) : p ∈ s.nfvi.ports := by
    obtain ⟨i, hi⟩ := List.getElem?_of_mem hp
    exact (attached_of_run h).slot_live v hv i p hi
  have hreturns := Nfvi.deploy_returnsIff hv (paired_of_run h) hlive
  rw [step_deploys hdep]
  constructor
  · rintro ⟨t, ht, hat⟩
    obtain ⟨-, ⟨nx, n, hp, rfl⟩ | ⟨w, n, hp, rfl⟩⟩ := serve_some ht
    · exact hreturns.iff.mp ⟨nx, n, hp⟩
    · rcases hat with hat | hat | hat <;> cases hat
  · intro hfit
    obtain ⟨nx, n, hp, hnx⟩ := hreturns.returns hfit
    refine ⟨{s with nfvi := n, ctrl := ctrlOf nx}, by simp only [serve, hidle, hp], ?_⟩
    rcases hnx with rfl | rfl
    · exact .inl rfl
    · exact .inr (.inr rfl)

/-- **When a deploy returns.** -/
theorem deploy_ends_of_run {nSocket nLcore : Nat} {catalog : List (String × VnfClass)} {ls : List Label} {s : Sys}
    (h : Runs step Always (.init nSocket nLcore catalog) ls s) :
    (∀ last v l, s.ctrl = .idle last → v ∈ s.nfvi.vnfs → s.Deploys v l →
        ((∃ t, s.step l = some t ∧ (t.Deploying v ∨ t.Deployed v)) ↔ s.nfvi.Fitting v)) ∧
      (Runs step deployRule (.init nSocket nLcore catalog) ls s →
        ∀ v, s.Deploying v → (s.GoesOn v ↔ s.CoreThere)) := by
  refine ⟨fun last v l hidle hv hdep => begins_iff h hidle hv hdep, fun hrun v hdep => ?_⟩
  have hI : Books True s ∧ s.Obeyed ∧ s.Halted ∧ s.Live := by
    refine hrun.invariant (I := fun s => Books True s ∧ s.Obeyed ∧ s.Halted ∧ s.Live)
      ⟨.init nSocket nLcore catalog, obeyed_init nSocket nLcore catalog, nofun, nofun⟩ ?_
    intro s l t ⟨hbooks, hobeyed, hhalted, hlive⟩ hrule hs
    have hctl (hl : l = .ctl) : joinRule s .ctl ∧ s.NoneLate ∧ s.CoreThere := by
      subst hl
      exact hrule
    exact ⟨joinRule_books hbooks (joinRule_of_deployRule hrule) hs, obeyed_step hobeyed (fun hl => (hctl hl).1.1) hs,
      hhalted.step hbooks.listed hbooks.threads (fun hl => (hctl hl).2.1) hs, hlive.step hs⟩
  obtain ⟨hbooks, hobeyed, hhalted, hlive⟩ := hI
  exact ⟨coreThere_of_goesOn, goesOn_of_deploying hbooks hobeyed hhalted hlive hdep⟩

/-- A VNF with a mask for its block. -/
def maskedRun (mask : BitVec 32) : List Label :=
  bringUp "l2fwd" ++ [.request (.resetPut "v"), .request (.coremaskPut "v" 0 (some mask))]

/-- A roll-back waits for its worker. -/
def awaitRun : List Label := failingRun ++ [.ctl, .wrk 2, .wrk 2, .ctl, .ctl, .ctl]

theorem deploy_ends_of_awaitRun :
    (∃ s, exec step (.init 1 4 mainCatalog) (maskedRun 0xc) = some s ∧
        ∃ t, s.step (.request (.deployPut "v")) = some t ∧ (t.Deploying 0 ∨ t.Deployed 0)) ∧
      ∃ s, exec step (.init 1 4 mainCatalog) awaitRun = some s ∧ s.Deploying 0 ∧ s.GoesOn 0 := by
  constructor
  · obtain ⟨s, hs, hf⟩ := Option.map_eq_some_iff.mp
      (show (exec step (.init 1 4 mainCatalog) (maskedRun 0xc)).map (fun s => (s.ctrl, s.nfvi.vnfs,
          decide (s.Deploys 0 (.request (.deployPut "v"))), decide (s.nfvi.Fitting 0))) =
        some (.idle (some (.reply ⟨true, "v: coremask bid=0 mask=0xc"⟩)), [0], true, true) by decide +kernel)
    simp only [Prod.mk.injEq, decide_eq_true_eq] at hf
    obtain ⟨hc, hvnfs, hdep, hfit⟩ := hf
    exact ⟨s, hs, ((deploy_ends_of_run (Runs.of_exec hs)).1 _ 0 _ hc (by simp [hvnfs]) hdep).mpr hfit⟩
  · obtain ⟨s, hs, hf⟩ := Option.map_eq_some_iff.mp
      (show (exec step (.init 1 4 mainCatalog) awaitRun).map Sys.ctrl =
        some (.joining 0 0 0 .rollback) by decide +kernel)
    have hdep : s.Deploying 0 := by rw [Deploying, hf]; rfl
    have hthere : s.CoreThere := by
      unfold CoreThere
      rw [hf]
      trivial
    exact ⟨s, hs, hdep,
      ((deploy_ends_of_run (Runs.of_exec hs)).2 (Runs.of_obeys (by decide +kernel) hs) 0 hdep).mpr hthere⟩

/-- Two ports patched to each other, of a VNF that was only reset. -/
def zeroRun : List Label :=
  [.request (.vnfPost "v" (some "l2fwd") fun _ => (0, 0)), .request (virtPort "a"), .request (virtPort "b"),
    .request (panel "x" "a" "b"), .request (.slotPut "v" 0 (some "a")), .request (.slotPut "v" 1 (some "b")),
    .request (.resetPut "v")]

/-- A deploy divides by zero; one on three cores leaves by an exception; and one on core 31 of a host
that has four reads behind the states of its lcores. -/
theorem deploy_not_ends :
    (∃ s, exec step (.init 1 4 mainCatalog) zeroRun = some s ∧ 0 ∈ s.nfvi.vnfs ∧
        Nfvi.deploy 0 s.nfvi = .crash .divisionByZero) ∧
      (∃ s w, exec step (.init 1 8 mainCatalog) (maskedRun 0x1c ++ [.request (.deployPut "v")]) = some s ∧
        s.ctrl = .idle (some (.threw w))) ∧
      ∃ s, exec step (.init 1 4 mainCatalog) (maskedRun 0x80000000 ++ [.request (.deployPut "v")]) = some s ∧
        s.ctrl = .launching 0 0 0 ∧ Native.launch (.block 0 0) 31 s.native = .crash .outOfBounds ∧
        s.step .ctl = none := by
  refine ⟨?_, ?_, ?_⟩
  · obtain ⟨s, hs, hf⟩ := Option.map_eq_some_iff.mp
      (show (exec step (.init 1 4 mainCatalog) zeroRun).map (fun s => (s.nfvi.vnfs,
        (Nfvi.deploy 0 s.nfvi).crash?)) = some ([0], some .divisionByZero) by decide +kernel)
    simp only [Prod.mk.injEq] at hf
    exact ⟨s, hs, by simp [hf.1], Outcome.eq_crash_of_crash? hf.2⟩
  · obtain ⟨s, hs, hf⟩ := Option.map_eq_some_iff.mp
      (show (exec step (.init 1 8 mainCatalog) (maskedRun 0x1c ++ [.request (.deployPut "v")])).map Sys.ctrl =
        some (.idle (some (.threw (MaPort.Oneside.indivisible 8 3)))) by decide +kernel)
    exact ⟨s, _, hs, hf⟩
  · obtain ⟨s, hs, hf⟩ := Option.map_eq_some_iff.mp
      (show (exec step (.init 1 4 mainCatalog) (maskedRun 0x80000000 ++ [.request (.deployPut "v")])).map
          (fun s => (s.ctrl, (Native.launch (.block 0 0) 31 s.native).crash?, (s.step .ctl).isNone)) =
        some (.launching 0 0 0, some .outOfBounds, true) by decide +kernel)
    simp only [Prod.mk.injEq, Option.isNone_iff_eq_none] at hf
    exact ⟨s, hs, hf.1, Outcome.eq_crash_of_crash? hf.2.1, hf.2.2⟩

end Sys

end Susanow
