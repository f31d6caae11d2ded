import Susanow.Nfvi.Attachment
import Susanow.Nfvi.Gates

/-! The workers of one VNF.

What a step of the whole machine can be, and what it keeps of the threads of a VNF
`v`: as long as no launch overwrites the slot of a thread that has not read it yet,
whoever runs a block of `v` was launched for that block, and a flag that is set has a
thread in its loop behind it. -/
namespace Susanow
open Nfvi (Kept)

/-! ### A step of the machine -/

/-- The VNF the server's thread is busy with. -/
def Ctrl.vnf? : Ctrl → Option Nat
  | .idle _ => none
  | .launching v _ _ => some v
  | .undeploying v _ _ => some v
  | .joining v _ _ _ => some v

namespace Sys

/-- A request let through, or a call, that deploys `v`. -/
def Deploys (s : Sys) (v : Nat) : Label → Prop
  | .request r => s.nfvi.Open (s.nfvi.deployGate r) v
  | .call (.deploy w) => w = v
  | _ => False

/-- A request let through, or a call, that writes masks, vcores and ids of `v`. -/
def Configures (s : Sys) (v : Nat) : Label → Prop
  | .request r => s.nfvi.Open (s.nfvi.blockGate r) v
  | .call c => Nfvi.configures c v
  | _ => False

/-- A request let through that writes a slot of `v`. -/
def Plugs (s : Sys) (v : Nat) : Label → Prop
  | .request r => s.nfvi.Open (s.nfvi.slotGate r) v
  | _ => False

instance (s : Sys) (v : Nat) (l : Label) : Decidable (s.Deploys v l) := by
  unfold Deploys
  split <;> infer_instance

instance (s : Sys) (v : Nat) (l : Label) : Decidable (s.Configures v l) := by
  unfold Configures Nfvi.configures
  split
  · infer_instance
  · split <;> infer_instance
  · infer_instance

instance (s : Sys) (v : Nat) (l : Label) : Decidable (s.Plugs v l) := by
  unfold Plugs
  split <;> infer_instance

/-- A request or a call that writes accessors or panels. -/
def Retables : Label → Prop
  | .request r => Nfvi.writesTables r
  | .call _ => True
  | _ => False

/-- A request or a call served. -/
structure Served (s : Sys) (l : Label) (t : Sys) : Prop where
  idle : ∃ last, s.ctrl = .idle last
  native : t.native = s.native
  log : t.log = s.log
  kept : Kept (s.Plugs · l) (s.Configures · l) (Retables l) s.nfvi t.nfvi
  ctrl : (∃ last, t.ctrl = .idle last ∧ ∀ v ret, last = some (.deployed v ret) → s.Deploys v l) ∨
    (∃ v, t.ctrl = .launching v 0 0 ∧ s.Deploys v l) ∨ ∃ v, t.ctrl = .undeploying v 0 .put

theorem served_request {s t : Sys} {r : Request} (h : s.serve (Nfvi.handle s.native r) = some t) :
    Served s (.request r) t := by
  have hkept := Nfvi.kept_handle s.native r s.nfvi
  obtain ⟨hidle, ⟨nx, n, hp, rfl⟩ | ⟨w, n, hp, rfl⟩⟩ := serve_some h
  · refine ⟨hidle, rfl, rfl, hkept.1 nx n hp, ?_⟩
    rcases Nfvi.handle_next hp with ⟨r, rfl⟩ | ⟨v, rfl | rfl, hopen⟩ | ⟨v, rfl, -⟩
    · exact .inl ⟨_, rfl, fun _ _ hlast => by cases hlast⟩
    · exact .inr (.inl ⟨v, rfl, hopen⟩)
    · refine .inl ⟨_, rfl, fun _ _ hlast => ?_⟩
      cases hlast
      exact hopen
    · exact .inr (.inr ⟨v, rfl⟩)
  · exact ⟨hidle, rfl, rfl, hkept.2 w n hp, .inl ⟨_, rfl, fun _ _ hlast => by cases hlast⟩⟩

theorem invoke_next {c : Call} {n n' : Nfvi} {nx : Next} (h : invoke c n = .ret nx n') :
    (∃ ret, nx = .done (.returned ret)) ∨
      (∃ v, (nx = .launch v ∨ nx = .done (.deployed v (-1))) ∧ c = .deploy v) ∨
      ∃ v, nx = .undeploy v := by
  cases c with
  | reset v =>
    obtain ⟨ret, t, -, h⟩ := Proc.bind_eq_ret h
    cases h
    exact .inl ⟨_, rfl⟩
  | setCoremask v bid cmask =>
    obtain ⟨ret, t, -, h⟩ := Proc.bind_eq_ret h
    cases h
    exact .inl ⟨_, rfl⟩
  | deploy v =>
    obtain ⟨ok, t, -, h⟩ := Proc.bind_eq_ret h
    cases ok with
    | false => cases h; exact .inr (.inl ⟨v, .inr rfl, rfl⟩)
    | true => cases h; exact .inr (.inl ⟨v, .inl rfl, rfl⟩)
  | undeploy v =>
    obtain ⟨x, t, -, h⟩ := Proc.bind_eq_ret h
    cases h
    exact .inr (.inr ⟨v, rfl⟩)

theorem served_call {s t : Sys} {c : Call} (h : s.serve (invoke c) = some t) :
    Served s (.call c) t := by
  have hkept := Nfvi.kept_invoke c s.nfvi
  obtain ⟨hidle, ⟨nx, n, hp, rfl⟩ | ⟨w, n, hp, rfl⟩⟩ := serve_some h
  · refine ⟨hidle, rfl, rfl, hkept.1 nx n hp, ?_⟩
    rcases invoke_next hp with ⟨ret, rfl⟩ | ⟨v, rfl | rfl, rfl⟩ | ⟨v, rfl⟩
    · exact .inl ⟨_, rfl, fun _ _ hlast => by cases hlast⟩
    · exact .inr (.inl ⟨v, rfl, rfl⟩)
    · refine .inl ⟨_, rfl, fun _ _ hlast => ?_⟩
      cases hlast
      rfl
    · exact .inr (.inr ⟨v, rfl⟩)
  · exact ⟨hidle, rfl, rfl, hkept.2 w n hp, .inl ⟨_, rfl, fun _ _ hlast => by cases hlast⟩⟩

/-- **What a step can be.** -/
theorem step_cases {s t : Sys} {l : Label} (h : s.step l = some t) :
    Served s l t ∨ (l = .ctl ∧ Ctl s t) ∨ ∃ k, l = .wrk k ∧ Wrk s k t := by
  cases l with
  | request r => exact .inl (served_request h)
  | call c => exact .inl (served_call h)
  | ctl => exact .inr (.inl ⟨rfl, ctl_some h⟩)
  | wrk k => exact .inr (.inr ⟨k, rfl, wrk_some h⟩)

/-- The server's thread is not at the launches of `v`. -/
def Resting (s : Sys) (v : Nat) : Prop := ∀ bid i, s.ctrl ≠ .launching v bid i

/-! ### Flags and cores -/

/-- The lcores a block is to run on. -/
def cores (s : Sys) (v bid : Nat) : List Nat :=
  ((s.block? v bid).map fun b => b.vcores.map Vcore.lcoreId).getD []

/-- The ids of a block's threads. -/
def tids (s : Sys) (v bid : Nat) : List Nat := ((s.block? v bid).map Block.tids).getD []

theorem cores_of_block {s : Sys} {v bid : Nat} {b : Block} (h : s.block? v bid = some b) :
    s.cores v bid = b.vcores.map Vcore.lcoreId := by
  simp [cores, h]

theorem tids_of_block {s : Sys} {v bid : Nat} {b : Block} (h : s.block? v bid = some b) :
    s.tids v bid = b.tids := by
  simp [tids, h]

theorem tids_editBlock (s : Sys) (v bid w b : Nat) {f : Block → Block}
    (hf : ∀ x, (f x).tids = x.tids) : (s.editBlock v bid f).tids w b = s.tids w b := by
  show (((s.nfvi.editBlock v bid f).block? w b).map _).getD [] = _
  rw [Nfvi.block?_editBlock]
  split
  · cases hb : s.block? w b <;> simp [hb, hf, tids]
  · rfl

theorem tids_setTid (s : Sys) (v bid w b i tid : Nat) :
    (s.editBlock v bid (setTid i tid)).tids w b =
      if w = v ∧ b = bid then (s.tids w b).set i tid else s.tids w b := by
  show (((s.nfvi.editBlock v bid (setTid i tid)).block? w b).map _).getD [] = _
  rw [Nfvi.block?_editBlock]
  split
  · cases hb : s.block? w b <;> simp [hb, setTid, tids]
  · rfl

theorem cores_editBlock (s : Sys) (v bid w b : Nat) {f : Block → Block}
    (hf : ∀ x, (f x).vcores = x.vcores) : (s.editBlock v bid f).cores w b = s.cores w b := by
  show (((s.nfvi.editBlock v bid f).block? w b).map _).getD [] = _
  rw [Nfvi.block?_editBlock]
  split
  · cases hb : s.block? w b <;> simp [hb, hf, cores]
  · rfl

theorem flag_editBlock (s : Sys) (v bid w b : Nat) (running : Bool) :
    (s.editBlock v bid (setRunning running)).flag w b =
      if w = v ∧ b = bid ∧ (s.block? w b).isSome then running else s.flag w b := by
  show (((s.nfvi.editBlock v bid (setRunning running)).block? w b).map Block.running).getD false = _
  rw [Nfvi.block?_editBlock]
  by_cases h : w = v ∧ b = bid
  · obtain ⟨rfl, rfl⟩ := h
    cases hb : s.block? w b <;> simp [hb, setRunning, flag, Nfvi.flag]
  · rw [if_neg h, if_neg fun h' => h ⟨h'.1, h'.2.1⟩]
    rfl

@[simp] theorem goto_flag (s : Sys) (c : Ctrl) : (s.goto c).flag = s.flag := rfl
@[simp] theorem setLcore_flag (s : Sys) (l : Nat) (c : Lcore Task) : (s.setLcore l c).flag = s.flag := rfl

theorem flag_setTid (s : Sys) (v bid w b i tid : Nat) :
    (s.editBlock v bid (setTid i tid)).flag w b = s.flag w b := by
  show (((s.nfvi.editBlock v bid (setTid i tid)).block? w b).map Block.running).getD false = _
  rw [Nfvi.block?_editBlock]
  split
  · cases hb : s.block? w b <;> simp [setTid, flag, Nfvi.flag, hb]
  · rfl

section Step
variable {s t : Sys} {v bid : Nat}

theorem tids_wrk {l : Nat} (hs : Wrk s l t) : t.tids v bid = s.tids v bid := by
  cases hs with
  | enter => exact tids_editBlock s _ _ v bid fun _ => rfl
  | _ => rfl

theorem cores_wrk {l : Nat} (hs : Wrk s l t) : t.cores v bid = s.cores v bid := by
  cases hs with
  | enter => exact cores_editBlock s _ _ v bid fun _ => rfl
  | _ => rfl

theorem cores_ctl (hs : Ctl s t) : t.cores v bid = s.cores v bid := by
  cases hs with
  | launch =>
    rw [cores, block?, launched_nfvi]
    exact cores_editBlock s _ _ v bid fun _ => rfl
  | store => exact cores_editBlock s _ _ v bid fun _ => rfl
  | _ => simp [cores, block?]

/-- Ids are written by a launch only. -/
theorem tids_ctl (hs : Ctl s t) (hc : ∀ i, s.ctrl ≠ .launching v bid i ∨ t.ctrl ≠ .launching v bid (i + 1)) :
    t.tids v bid = s.tids v bid := by
  cases hs with
  | @launch w b i blk vc hc' =>
    rw [tids, block?, launched_nfvi]
    refine (tids_setTid s w b v bid i vc.lcoreId).trans (if_neg ?_)
    rintro ⟨rfl, rfl⟩
    rcases hc i with h | h
    · exact h hc'
    · exact h rfl
  | store => exact tids_editBlock s _ _ v bid fun _ => rfl
  | _ => simp [tids, block?]

/-- Only a deploy brings the server's thread to the launches of `v`. -/
theorem resting_step {l : Label} (hrest : s.Resting v) (hdep : ¬s.Deploys v l) (hs : s.step l = some t) :
    t.Resting v := by
  rcases step_cases hs with hserved | ⟨-, hctl⟩ | ⟨j, -, hwrk⟩
  · intro b i hc
    rcases hserved.ctrl with ⟨last, h, -⟩ | ⟨w, h, hw⟩ | ⟨w, h⟩ <;> rw [h] at hc <;> cases hc
    exact hdep hw
  · have hgo {w b i : Nat} (hc : s.ctrl = .launching w b i) {c : Ctrl} (h : c = .launching w (b + 1) 0 ∨
        c = .launching w b (i + 1)) (b' i' : Nat) : c ≠ .launching v b' i' := by
      rintro rfl
      rcases h with h | h <;> cases h <;> exact hrest _ _ hc
    cases hctl with
    | nextBlock hc => exact hgo hc (.inl rfl)
    | launch hc => exact hgo hc (.inr rfl)
    | _ => exact fun _ _ hc => by cases hc
  · cases hwrk with
    | _ => exact hrest

end Step

/-! ### Threads -/

/-- Every thread that is not waiting is in the table. -/
def Listed (s : Sys) : Prop := ∀ l, s.native.lcore l ≠ .wait → l ∈ s.native.tids

theorem listed_init (nSocket nLcore : Nat) (catalog : List (String × VnfClass)) :
    (init nSocket nLcore catalog).Listed := by
  intro l hl
  by_cases h : l = 1
  · simp [init, h]
  · simp [init, h] at hl

theorem Listed.step {s t : Sys} {l : Label} (h : s.Listed) (hs : s.step l = some t) : t.Listed := by
  rcases step_cases hs with hserved | ⟨-, hctl⟩ | ⟨j, -, hwrk⟩
  · unfold Listed
    rw [hserved.native]
    exact h
  · cases hctl with
    | @launch w b i blk vc hc hb hi h0 hwait =>
      intro k hk
      show k ∈ s.native.tids ++ [vc.lcoreId]
      by_cases hkl : k = vc.lcoreId
      · simp [hkl]
      · exact List.mem_append_left _ (h k (by simpa [hkl] using hk))
    | @refused w b i blk vc th hc hb hi hno hth =>
      obtain rfl | ⟨-, rfl⟩ := hth
      · exact h
      · exact fun k hk => List.mem_append_left _ (h k hk)
    | @join w b i tid k blk hc hb hi htid h0 hrun hmem =>
      intro k hk
      show k ∈ s.native.tids.erase tid
      by_cases hkl : k = tid
      · simp [hkl] at hk
      · exact (List.mem_erase_of_ne hkl).mpr (h k (by simpa [hkl] using hk))
    | @unknown w b i tid k blk what hc hb hi htid h0 hrun hmem =>
      intro k hk
      show k ∈ s.native.tids
      by_cases hkl : k = tid
      · simp [hkl] at hk
      · exact h k (by simpa [hkl] using hk)
    | noVcore | nextBlock => simpa [Listed] using h
    | _ => exact h
  · have hon {x : Task} {pc : Pc Task} {c : Lcore Task} (hl : s.native.lcore j = .running x pc) :
        ∀ k, Function.update s.native.lcore j c k ≠ .wait → k ∈ s.native.tids := by
      intro k hk
      by_cases hkj : k = j
      · subst hkj
        exact h k (by simp [hl])
      · exact h k (by simpa [hkj] using hk)
    cases hwrk with
    | fetch hl | timer hl | enter hl | leave hl => exact hon hl
    | pass => exact h


/-- If the next launch is for `v`, no other thread has still to read the slot it writes. -/
def SlotFree (s : Sys) (v : Nat) : Prop :=
  match s.ctrl with
  | .launching w bid i => w = v → ∀ b ∈ s.block? w bid, ∀ vc ∈ b.vcores[i]?,
      ∀ t ∈ (s.native.lcore vc.lcoreId).unread, t = .block w bid
  | _ => True

instance (s : Sys) (v : Nat) : Decidable (s.SlotFree v) := by
  unfold SlotFree
  split <;> infer_instance

theorem SlotFree.of_ctrl {s : Sys} {v bid i : Nat} (h : s.SlotFree v) (hc : s.ctrl = .launching v bid i) :
    ∀ b ∈ s.block? v bid, ∀ vc ∈ b.vcores[i]?, ∀ t ∈ (s.native.lcore vc.lcoreId).unread,
      t = .block v bid := by
  unfold SlotFree at h
  rw [hc] at h
  exact h rfl

structure Threads (s : Sys) (v : Nat) : Prop where
  slot : ∀ l t b, s.native.lcore l = .running t .fetch → s.native.snt l = some (.block v b) →
    t = .block v b
  entered : ∀ l t b, s.native.lcore l = .running t (.entered (.block v b)) → t = .block v b
  looping : ∀ l t b, s.native.lcore l = .running t (.looping (.block v b)) → t = .block v b
  raised : ∀ b, s.flag v b = true →
    ∃ l, s.native.lcore l = .running (.block v b) (.looping (.block v b))
  fits : ∀ b ∈ (s.nfvi.vnf v).blocks, b.Fits

namespace Threads
variable {s t : Sys} {v : Nat}

theorem served (h : Threads s v) {l : Label} (hs : Served s l t) : Threads t v where
  slot := by rw [hs.native]; exact h.slot
  entered := by rw [hs.native]; exact h.entered
  looping := by rw [hs.native]; exact h.looping
  raised := by rw [hs.native]; exact fun b hb => h.raised b (hs.kept.flag_of hb)
  fits := hs.kept.fits v h.fits

theorem fits_editBlock {bid : Nat} {f : Block → Block} (hf : ∀ b, b.Fits → (f b).Fits)
    (h : ∀ b ∈ (s.nfvi.vnf v).blocks, b.Fits) (w : Nat) :
    ∀ b ∈ ((s.editBlock w bid f).nfvi.vnf v).blocks, b.Fits := by
  intro b hb
  obtain ⟨i, hi⟩ := List.getElem?_of_mem hb
  have hi' : (s.nfvi.editBlock w bid f).block? v i = some b := hi
  rw [Nfvi.block?_editBlock] at hi'
  split at hi'
  · obtain ⟨x, hx, rfl⟩ := Option.map_eq_some_iff.mp hi'
    exact hf x (h x (List.mem_of_getElem? hx))
  · exact h b (List.mem_of_getElem? hi')

/-- The step has written lcore `l`, the slot of no other, and no block of `v` but its flag. -/
theorem update (h : Threads s v) {l : Nat} {c : Lcore Task}
    (hlcore : t.native.lcore = Function.update s.native.lcore l c)
    (hsnt : ∀ k, k ≠ l → t.native.snt k = s.native.snt k)
    (hslot : ∀ x b, c = .running x .fetch → t.native.snt l = some (.block v b) → x = .block v b)
    (hentered : ∀ x b, c = .running x (.entered (.block v b)) → x = .block v b)
    (hlooping : ∀ x b, c = .running x (.looping (.block v b)) → x = .block v b)
    (hflag : ∀ b, t.flag v b = true → c = .running (.block v b) (.looping (.block v b)) ∨
      s.flag v b = true ∧ s.native.lcore l ≠ .running (.block v b) (.looping (.block v b)))
    (hfits : ∀ b ∈ (t.nfvi.vnf v).blocks, b.Fits) : Threads t v where
  slot k x b hk hs := by
    rw [hlcore] at hk
    by_cases hkl : k = l
    · subst hkl
      exact hslot x b (by simpa using hk) hs
    · rw [Function.update_of_ne hkl] at hk
      exact h.slot k x b hk (by rwa [← hsnt k hkl])
  entered k x b hk := by
    rw [hlcore] at hk
    by_cases hkl : k = l
    · subst hkl
      exact hentered x b (by simpa using hk)
    · rw [Function.update_of_ne hkl] at hk
      exact h.entered k x b hk
  looping k x b hk := by
    rw [hlcore] at hk
    by_cases hkl : k = l
    · subst hkl
      exact hlooping x b (by simpa using hk)
    · rw [Function.update_of_ne hkl] at hk
      exact h.looping k x b hk
  raised b hb := by
    rw [hlcore]
    rcases hflag b hb with hc | ⟨hb, hne⟩
    · exact ⟨l, by rw [Function.update_self, hc]⟩
    · obtain ⟨k, hk⟩ := h.raised b hb
      have hkl : k ≠ l := fun heq => hne (heq ▸ hk)
      exact ⟨k, by rw [Function.update_of_ne hkl, hk]⟩
  fits := hfits

/-- The step has written no lcore; slots are written only on lcores where no thread has still
to read them, or for that thread. -/
theorem still (h : Threads s v) (hlcore : t.native.lcore = s.native.lcore)
    (hsnt : ∀ l x b, s.native.lcore l = .running x .fetch → t.native.snt l = some (.block v b) →
      s.native.snt l ≠ some (.block v b) → x = .block v b)
    (hflag : ∀ b, t.flag v b = true → s.flag v b = true)
    (hfits : ∀ b ∈ (t.nfvi.vnf v).blocks, b.Fits) : Threads t v where
  slot l x b hl hs := by
    rw [hlcore] at hl
    by_cases hold : s.native.snt l = some (.block v b)
    · exact h.slot l x b hl hold
    · exact hsnt l x b hl hs hold
  entered := hlcore ▸ h.entered
  looping := hlcore ▸ h.looping
  raised b hb := hlcore ▸ h.raised b (hflag b hb)
  fits := hfits

theorem fits_setTid (h : Threads s v) (w bid i tid : Nat) :
    ∀ b ∈ ((s.editBlock w bid (setTid i tid)).nfvi.vnf v).blocks, b.Fits :=
  fits_editBlock (fun b hb => by simpa [setTid, Block.Fits] using hb) h.fits w

theorem fits_setRunning (h : Threads s v) (w bid : Nat) (running : Bool) :
    ∀ b ∈ ((s.editBlock w bid (setRunning running)).nfvi.vnf v).blocks, b.Fits :=
  fits_editBlock (f := setRunning running) (fun _ hb => hb) h.fits w

theorem ctl (h : Threads s v) (hfree : s.SlotFree v) (hs : Ctl s t) : Threads t v := by
  have hquiet {t : Sys} (hnative : t.native = s.native) (hnfvi : t.nfvi = s.nfvi) : Threads t v :=
    h.still (by rw [hnative]) (fun l x b _ hs hne => absurd (by rwa [hnative] at hs) hne)
      (fun b hb => by rwa [Sys.flag, hnfvi] at hb) (by rw [hnfvi]; exact h.fits)
  cases hs with
  | deployed | rolledBack | undeployed | skip | noTid | okashii | blockDone => exact hquiet rfl rfl
  | noVcore | nextBlock => exact hquiet (by simp) (by simp)
  | @launch w bid i b vc hc hb hi h0 hwait =>
    refine h.update (launched_lcore ..) (fun k hk => by simp [hk]) (fun x c hx hs => ?_) (fun x c hx => by cases hx)
      (fun x c hx => by cases hx) (fun c hf => .inr ⟨?_, by simp [hwait]⟩) ?_
    · simp only [launched_snt, Function.update_self, Option.some.injEq] at hs
      cases hx
      exact hs
    · rw [Sys.flag, launched_nfvi] at hf
      rwa [← flag_setTid s w bid v c i vc.lcoreId]
    · rw [launched_nfvi]
      exact h.fits_setTid w bid i vc.lcoreId
  | @refused w bid i b vc th hc hb hi hno hth =>
    obtain rfl | ⟨hne, rfl⟩ := hth
    · exact hquiet (by simp) (by simp)
    · refine h.still rfl (fun l x c hl hs hold => ?_) (fun c hf => by simpa [Sys.flag] using hf) (by simpa using h.fits)
      by_cases hlc : l = vc.lcoreId
      · subst hlc
        simp only [goto_native, Native.marked, Function.update_self, Option.some.injEq, Task.block.injEq] at hs
        obtain ⟨rfl, rfl⟩ := hs
        exact hfree.of_ctrl hc b hb vc hi x (by rw [hl]; rfl)
      · simp only [goto_native, Native.marked, Function.update_of_ne hlc] at hs
        exact absurd hs hold
  | @store w bid k b hc hb hrun hlen =>
    refine h.still rfl (fun l x c _ hs hold => absurd hs hold) (fun c hf => ?_) (h.fits_setRunning w bid false)
    rw [goto_flag, flag_editBlock] at hf
    split_ifs at hf
    exact hf
  | @join w bid i tid k b hc hb hi htid h0 hrun hmem =>
    refine h.update (joined_lcore ..) (fun _ _ => rfl) (fun x c hx => by cases hx) (fun x c hx => by cases hx)
      (fun x c hx => by cases hx) (fun c hf => .inr ⟨hf, fun hl => ?_⟩) h.fits
    simp [hl, Lcore.isRunning] at hrun
  | @unknown w bid i tid k b what hc hb hi htid h0 hrun hmem =>
    refine h.update (setLcore_lcore ..) (fun _ _ => rfl) (fun x c hx => by cases hx) (fun x c hx => by cases hx)
      (fun x c hx => by cases hx) (fun c hf => .inr ⟨hf, fun hl => ?_⟩) h.fits
    simp [hl, Lcore.isRunning] at hrun

theorem wrk (h : Threads s v) {l : Nat} (hs : Wrk s l t) : Threads t v := by
  cases hs with
  | @fetch x f hl hsnt =>
    refine h.update (setLcore_lcore ..) (fun _ _ => rfl) (fun y c hy => by cases hy) (fun y c hy => ?_)
      (fun y c hy => by cases hy) (fun c hf => .inr ⟨hf, by simp [hl]⟩) h.fits
    cases hy
    exact h.slot l x c hl hsnt
  | @timer x hl =>
    exact h.update (setLcore_lcore ..) (fun _ _ => rfl) (fun y c hy => by cases hy) (fun y c hy => by cases hy)
      (fun y c hy => by cases hy) (fun c hf => .inr ⟨hf, by simp [hl]⟩) h.fits
  | @enter x w bid b hl hb hmem =>
    refine h.update (setLcore_lcore ..) (fun _ _ => rfl) (fun y c hy => by cases hy) (fun y c hy => by cases hy)
      (fun y c hy => ?_) (fun c hf => ?_) (h.fits_setRunning w bid true)
    · cases hy
      exact h.entered l _ _ hl
    · rw [setLcore_flag, flag_editBlock] at hf
      split_ifs at hf with hvc
      · obtain ⟨rfl, rfl, -⟩ := hvc
        exact .inl (by rw [h.entered l x _ hl])
      · exact .inr ⟨hf, by simp [hl]⟩
  | pass => exact h
  | @leave x w bid b hl hb hrun =>
    refine h.update (setLcore_lcore ..) (fun _ _ => rfl) (fun y c hy => by cases hy) (fun y c hy => by cases hy)
      (fun y c hy => by cases hy) (fun c hf => .inr ⟨hf, fun hl' => ?_⟩) h.fits
    rw [hl] at hl'
    cases hl'
    rw [setLcore_flag, flag_of_block hb, hrun] at hf
    cases hf

/-- **Threads stay in order** as long as no launch for `v` overwrites an unread slot. -/
theorem step (h : Threads s v) {l : Label} (hfree : l = .ctl → s.SlotFree v) (hs : s.step l = some t) :
    Threads t v := by
  rcases step_cases hs with hserved | ⟨rfl, hctl⟩ | ⟨k, rfl, hwrk⟩
  · exact h.served hserved
  · exact h.ctl (hfree rfl) hctl
  · exact h.wrk hwrk

end Threads

theorem Threads.length_tids {s : Sys} {v : Nat} (h : Threads s v) (bid : Nat) :
    (s.tids v bid).length = (s.cores v bid).length := by
  cases hb : s.block? v bid with
  | none => simp [tids, cores, hb]
  | some b =>
    rw [tids_of_block hb, cores_of_block hb, List.length_map]
    exact h.fits b (List.mem_of_getElem? hb)

theorem threads_init (nSocket nLcore : Nat) (catalog : List (String × VnfClass)) (v : Nat) :
    Threads (.init nSocket nLcore catalog) v := by
  have htimer {l : Nat} {x : Task} {pc : Pc Task}
      (h : (init nSocket nLcore catalog).native.lcore l = .running x pc) : pc = .looping .timer := by
    by_cases hl : l = 1
    · subst hl
      cases h
      rfl
    · simp [init, hl] at h
  refine ⟨fun l x b h => ?_, fun l x b h => ?_, fun l x b h => ?_, fun b hb => ?_, fun b hb => ?_⟩
  · cases htimer h
  · cases htimer h
  · cases htimer h
  · simp [init, Sys.flag, Nfvi.flag, Nfvi.block?] at hb
  · simp [init] at hb

/-- A VNF brought up, given a mask for each block, and deployed. -/
def deployRun (cname : String) (masks : List (BitVec 32)) : List Label :=
  bringUp cname ++ [.request (.resetPut "v")] ++
    masks.mapIdx (fun i mask => .request (.coremaskPut "v" i (some mask))) ++ [.request (.deployPut "v")]

end Sys

end Susanow
