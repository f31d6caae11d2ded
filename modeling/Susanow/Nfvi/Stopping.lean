import Susanow.Nfvi.Workers

/-! Stopping a block.

`undeploy_impl` clears the flag once, and every worker stores it once, whenever it
gets there. A worker that has still to store it is `Pending`; who is pending when the
flag is cleared decides whether it stays cleared. -/
namespace Susanow.Sys

/-- The thread on `l` has called, or is about to call, the block's function and has not
stored its flag. -/
def Pending (s : Sys) (v bid l : Nat) : Prop :=
  ∃ t, s.native.lcore l = .running t (.entered (.block v bid)) ∨
    s.native.lcore l = .running t .fetch ∧ s.native.snt l = some (.block v bid)

/-- The flag is down, and whoever tests it leaves. -/
structure Stopped (s : Sys) (v bid : Nat) : Prop where
  flag : s.flag v bid = false
  leaves : ∀ l x t, s.native.lcore l = .running x (.looping (.block v bid)) →
    s.step (.wrk l) = some t → t.native.lcore l = .finished x

/-! ### What a step leaves pending -/

section Step
variable {s t : Sys} {v bid : Nat} {l : Label}

theorem pending_of_native {k : Nat} (hlcore : t.native.lcore k = s.native.lcore k)
    (hsnt : t.native.snt k = some (.block v bid) → s.native.snt k = some (.block v bid))
    (h : t.Pending v bid k) : s.Pending v bid k := by
  obtain ⟨x, h | ⟨h, hs⟩⟩ := h
  · exact ⟨x, .inl (hlcore ▸ h)⟩
  · exact ⟨x, .inr ⟨hlcore ▸ h, hsnt hs⟩⟩

/-- Nobody becomes pending who was not, but by a launch. -/
theorem pending_step (hrest : s.Resting v) (hs : s.step l = some t) {k : Nat}
    (h : t.Pending v bid k) : s.Pending v bid k := by
  have hsame (hn : t.native = s.native) : s.Pending v bid k :=
    pending_of_native (by rw [hn]) (by rw [hn]; exact id) h
  have hwrite {c : Lcore Task} {j : Nat} (hlcore : t.native.lcore = Function.update s.native.lcore j c)
      (hsnt : t.native.snt k = some (.block v bid) → s.native.snt k = some (.block v bid))
      (hc : ∀ x, c = .running x (.entered (.block v bid)) → s.Pending v bid j)
      (hc' : ∀ x, c ≠ .running x .fetch) : s.Pending v bid k := by
    by_cases hkj : k = j
    · subst hkj
      obtain ⟨x, h | ⟨h, -⟩⟩ := h
      · exact hc x (by simpa [hlcore] using h)
      · exact absurd (by simpa [hlcore] using h) (hc' x)
    · exact pending_of_native (by rw [hlcore, Function.update_of_ne hkj]) hsnt h
  rcases step_cases hs with hserved | ⟨-, hctl⟩ | ⟨j, -, hwrk⟩
  · exact hsame hserved.native
  · cases hctl with
    | deployed | rolledBack | undeployed | skip | noTid | okashii | blockDone | store => exact hsame rfl
    | noVcore | nextBlock => exact hsame (by simp)
    | @launch w b i blk vc hc hb hi h0 hwait =>
      have hw : w ≠ v := fun heq => hrest b i (heq ▸ hc)
      by_cases hk : k = vc.lcoreId
      · subst hk
        obtain ⟨x, h | ⟨-, h⟩⟩ := h
        · simp at h
        · simp [hw] at h
      · exact pending_of_native (by simp [hk]) (by simp [hk]) h
    | @refused w b i blk vc th hc hb hi hno hth =>
      have hw : w ≠ v := fun heq => hrest b i (heq ▸ hc)
      obtain rfl | ⟨-, rfl⟩ := hth
      · exact hsame (by simp)
      · refine pending_of_native ?_ (fun hsnt => ?_) h
        · rfl
        by_cases hk : k = vc.lcoreId
        · subst hk
          simp [Native.marked, hw] at hsnt
        · simpa [Native.marked, hk] using hsnt
    | join => exact hwrite (joined_lcore ..) id (fun x hx => by cases hx) (fun x hx => by cases hx)
    | unknown => exact hwrite (setLcore_lcore ..) id (fun x hx => by cases hx) (fun x hx => by cases hx)
  · cases hwrk with
    | @fetch x f hl hsnt =>
      refine hwrite (setLcore_lcore ..) id (fun y hy => ?_) (fun y hy => by cases hy)
      cases hy
      exact ⟨x, .inr ⟨hl, hsnt⟩⟩
    | timer => exact hwrite (setLcore_lcore ..) id (fun x hx => by cases hx) (fun x hx => by cases hx)
    | enter => exact hwrite (setLcore_lcore ..) id (fun x hx => by cases hx) (fun x hx => by cases hx)
    | pass => exact h
    | leave => exact hwrite (setLcore_lcore ..) id (fun x hx => by cases hx) (fun x hx => by cases hx)

/-- A flag is raised by a pending worker of the block. -/
theorem raised_step (hs : s.step l = some t) (hdown : s.flag v bid = false) (hup : t.flag v bid = true) :
    ∃ k ∈ s.cores v bid, s.Pending v bid k := by
  have hsame (h : t.flag v bid = s.flag v bid) : ∃ k ∈ s.cores v bid, s.Pending v bid k := by
    rw [h, hdown] at hup
    cases hup
  rcases step_cases hs with hserved | ⟨-, hctl⟩ | ⟨j, -, hwrk⟩
  · have h := hserved.kept.flag_of hup
    rw [show s.nfvi.flag v bid = false from hdown] at h
    cases h
  · cases hctl with
    | launch =>
      refine hsame ?_
      rw [flag, launched_nfvi]
      exact flag_setTid ..
    | store =>
      rw [goto_flag, flag_editBlock] at hup
      split_ifs at hup
      rw [hdown] at hup
      cases hup
    | _ => exact hsame (by simp [flag])
  · cases hwrk with
    | @enter x w b blk hl hb hmem =>
      rw [setLcore_flag, flag_editBlock] at hup
      split_ifs at hup with h
      · obtain ⟨rfl, rfl, -⟩ := h
        refine ⟨j, ?_, x, .inl hl⟩
        rw [cores, hb]
        exact hmem
      · rw [hdown] at hup
        cases hup
    | _ => exact hsame rfl

/-- The lcores of a block are written by its configuration only, or the block is new and has none. -/
theorem cores_step (hcfg : ¬s.Configures v l) (hs : s.step l = some t) :
    t.cores v bid = s.cores v bid ∨ t.cores v bid = [] := by
  rcases step_cases hs with hserved | ⟨-, hctl⟩ | ⟨j, -, hwrk⟩
  · rcases hserved.kept.blocks v with heq | hok | ⟨-, hun⟩
    · exact .inl (by rw [cores, cores, block?, block?, Nfvi.block?, Nfvi.block?, heq])
    · exact absurd hok hcfg
    · refine .inr ?_
      rw [cores]
      cases hb : t.block? v bid with
      | none => rfl
      | some b => simp [(hun b (List.mem_of_getElem? hb)).vcores]
  · exact .inl (cores_ctl hctl)
  · exact .inl (cores_wrk hwrk)

end Step

/-! ### From the store of the flag -/

section Store
variable {s t : Sys} {v bid : Nat} {k : Kont}

/-- The step that stores the flag. -/
theorem store_eq (hc : s.ctrl = .undeploying v bid k) (hflag : s.flag v bid = true)
    (hs : s.step .ctl = some t) :
    v ∈ s.nfvi.vnfs ∧ (s.block? v bid).isSome ∧
      t = (s.editBlock v bid (setRunning false)).goto (.joining v bid 0 k) := by
  have hmem : v ∈ s.nfvi.vnfs := by
    by_contra hv
    simp [step, ctl, hc, hv] at hs
  cases ctl_some hs with
  | store hc' hb hrun hlen =>
    rw [hc] at hc'
    cases hc'
    exact ⟨hmem, by simp [hb], rfl⟩
  | skip hc' hb hrun =>
    rw [hc] at hc'
    cases hc'
    rw [flag_of_block hb, hrun] at hflag
    cases hflag
  | undeployed hc' hb | rolledBack hc' hb =>
    rw [hc] at hc'
    cases hc'
    simp [flag, Nfvi.flag, hb] at hflag
  | deployed hc' | noVcore hc' | nextBlock hc' | launch hc' | refused hc' | noTid hc' | okashii hc'
  | join hc' | unknown hc' | blockDone hc' =>
    rw [hc] at hc'
    cases hc'

/-- A worker that has called the block's function raises the flag. -/
theorem enter_raises {l : Nat} {x : Task} (hv : v ∈ s.nfvi.vnfs) (hl : l ∈ s.cores v bid)
    (h : s.native.lcore l = .running x (.entered (.block v bid))) :
    ∃ u, s.step (.wrk l) = some u ∧ u.flag v bid = true := by
  cases hb : s.block? v bid with
  | none => simp [cores, hb] at hl
  | some b =>
    simp only [cores, hb, Option.map_some, Option.getD_some] at hl
    refine ⟨_, by simp only [step, wrk, h, enterStep, hv, hb, hl, if_true]; rfl, ?_⟩
    rw [setLcore_flag, flag_editBlock, if_pos ⟨rfl, rfl, by simp [hb]⟩]

/-- A pending worker of the block raises the flag in at most two steps of its own. -/
theorem pending_raises (Rule : Sys → Label → Prop) {l : Nat} (hv : v ∈ s.nfvi.vnfs) (hl : l ∈ s.cores v bid)
    (h : s.Pending v bid l) (hrule : ∀ s, Rule s (.wrk l)) :
    ∃ ls u, Runs step Rule s ls u ∧ u.flag v bid = true := by
  obtain ⟨x, h | ⟨h, hsnt⟩⟩ := h
  · obtain ⟨u, hu, hflag⟩ := enter_raises hv hl h
    exact ⟨_, u, .next hu (hrule s) (.done u), hflag⟩
  · have hfetch : s.step (.wrk l) = some (s.setLcore l (.running x (.entered (.block v bid)))) := by
      simp [step, wrk, h, Native.fetch, hsnt, setLcore]
    obtain ⟨u, hu, hflag⟩ := enter_raises (s := s.setLcore l (.running x (.entered (.block v bid)))) hv hl
      (Function.update_self l _ _)
    exact ⟨_, u, .next hfetch (hrule s) (.next hu (hrule _) (.done u)), hflag⟩

end Store

theorem stopped_of_flag {s : Sys} {v bid : Nat} (h : s.flag v bid = false) : s.Stopped v bid where
  flag := h
  leaves l x t hl hs := by
    cases wrk_some hs with
    | leave hl' =>
      rw [hl] at hl'
      cases hl'
      exact Function.update_self l _ _
    | pass hl' hup =>
      rw [hl] at hl'
      cases hl'
      have hup := hup v bid rfl
      rw [h] at hup
      cases hup
    | fetch hl' | timer hl' | enter hl' =>
      rw [hl] at hl'
      cases hl'

/-- **When the flag stays down.** -/
theorem stopped_iff_none_pending {s t : Sys} {v bid : Nat} {k : Kont} (hc : s.ctrl = .undeploying v bid k)
    (hflag : s.flag v bid = true) (hs : s.step .ctl = some t) :
    ((∀ ls u, Runs step (fun s l => ¬s.Deploys v l ∧ ¬s.Configures v l) t ls u → u.Stopped v bid) ↔
        ∀ l ∈ s.cores v bid, ¬s.Pending v bid l) ∧
      ((∀ l, ¬s.Pending v bid l) →
        ∀ ls u, Runs step (fun s l => ¬s.Deploys v l) t ls u → u.Stopped v bid) := by
  obtain ⟨hv, hblock, rfl⟩ := store_eq hc hflag hs
  set t := (s.editBlock v bid (setRunning false)).goto (.joining v bid 0 k) with ht
  have hdown : t.flag v bid = false := by
    rw [ht, goto_flag, flag_editBlock, if_pos ⟨rfl, rfl, hblock⟩]
  have hrest : t.Resting v := fun _ _ h => by cases h
  have hcores : t.cores v bid = s.cores v bid := cores_editBlock s v bid v bid fun _ => rfl
  refine ⟨⟨fun h l hl hpend => ?_, fun h ls u hrun => ?_⟩, fun h ls u hrun => ?_⟩
  · obtain ⟨ls, u, hrun, hup⟩ := pending_raises (fun s l => ¬s.Deploys v l ∧ ¬s.Configures v l) (s := t)
      hv (hcores ▸ hl) hpend fun s => ⟨id, id⟩
    rw [(h ls u hrun).flag] at hup
    cases hup
  · have hI := hrun.invariant (I := fun s => s.Resting v ∧ s.flag v bid = false ∧
      ∀ l ∈ s.cores v bid, ¬s.Pending v bid l) ⟨hrest, hdown, fun l hl => h l (hcores ▸ hl)⟩ ?_
    · exact stopped_of_flag hI.2.1
    · intro s l t ⟨hrest, hdown, hnone⟩ ⟨hdep, hcfg⟩ hs
      refine ⟨resting_step hrest hdep hs, ?_, fun j hj hpend => ?_⟩
      · rw [← Bool.not_eq_true]
        intro hup
        obtain ⟨j, hj, hpend⟩ := raised_step hs hdown hup
        exact hnone j hj hpend
      · have hcores' : t.cores v bid = s.cores v bid ∨ t.cores v bid = [] := cores_step hcfg hs
        rcases hcores' with heq | hnil
        · exact hnone j (heq ▸ hj) (pending_step hrest hs hpend)
        · rw [hnil] at hj
          cases hj
  · have hI := hrun.invariant (I := fun s => s.Resting v ∧ s.flag v bid = false ∧
      ∀ l, ¬s.Pending v bid l) ⟨hrest, hdown, h⟩ ?_
    · exact stopped_of_flag hI.2.1
    · intro s l t ⟨hrest, hdown, hnone⟩ hdep hs
      refine ⟨resting_step hrest hdep hs, ?_, fun j hpend => hnone j (pending_step hrest hs hpend)⟩
      rw [← Bool.not_eq_true]
      intro hup
      obtain ⟨j, -, hpend⟩ := raised_step hs hdown hup
      exact hnone j hpend

/-- Two workers, of which the first has stored the flag when the undeploy comes to it. -/
def lateRun : List Label :=
  deployRun "l2fwd" [0xc] ++ [.ctl, .ctl, .ctl, .ctl, .wrk 2, .wrk 2, .request (.undeployPut "v")]

/-- Both have stored it. -/
def bothRun : List Label :=
  deployRun "l2fwd" [0xc] ++ [.ctl, .ctl, .ctl, .ctl, .wrk 2, .wrk 2, .wrk 3, .wrk 3,
    .request (.undeployPut "v")]

theorem stopped_of_bothRun :
    ∃ s t, exec step (.init 1 4 mainCatalog) bothRun = some s ∧ s.step .ctl = some t ∧
      ∀ ls u, Runs step (fun s l => ¬s.Deploys 0 l ∧ ¬s.Configures 0 l) t ls u → u.Stopped 0 0 := by
  obtain ⟨s, hs, hf⟩ := Option.map_eq_some_iff.mp
    (show (exec step (.init 1 4 mainCatalog) bothRun).map (fun s => (s.ctrl, s.flag 0 0,
        (s.step .ctl).isSome, (s.cores 0 0).all fun l =>
          decide (s.native.lcore l = .running (.block 0 0) (.looping (.block 0 0))))) =
      some (.undeploying 0 0 .put, true, true, true) by decide +kernel)
  simp only [Prod.mk.injEq, List.all_eq_true, decide_eq_true_eq] at hf
  obtain ⟨hc, hflag, hstep, hloop⟩ := hf
  obtain ⟨t, ht⟩ := Option.isSome_iff_exists.mp hstep
  refine ⟨s, t, hs, ht, (stopped_iff_none_pending hc hflag ht).1.mpr fun l hl => ?_⟩
  rintro ⟨x, h | ⟨h, -⟩⟩ <;> rw [hloop l hl] at h <;> cases h

/-- A worker that starts late stores the flag after the undeploy has cleared it. -/
theorem late_worker_raises :
    ∃ s t u, exec step (.init 1 4 mainCatalog) lateRun = some s ∧ s.ctrl = .undeploying 0 0 .put ∧
      s.flag 0 0 = true ∧ s.step .ctl = some t ∧
      Runs step (fun s l => ¬s.Deploys 0 l ∧ ¬s.Configures 0 l) t [.wrk 3, .wrk 3] u ∧
      u.ctrl = .joining 0 0 0 .put ∧ u.flag 0 0 = true := by
  obtain ⟨s, hs, hf⟩ := Option.map_eq_some_iff.mp
    (show (exec step (.init 1 4 mainCatalog) lateRun).map (fun s => (s.ctrl, s.flag 0 0,
        (exec step s [.ctl, .wrk 3, .wrk 3]).map fun u => (u.ctrl, u.flag 0 0))) =
      some (.undeploying 0 0 .put, true, some (.joining 0 0 0 .put, true)) by decide +kernel)
  simp only [Prod.mk.injEq] at hf
  obtain ⟨hc, hflag, hrest⟩ := hf
  obtain ⟨u, hu, hend⟩ := Option.map_eq_some_iff.mp hrest
  obtain ⟨t, ht, hu⟩ := Option.bind_eq_some_iff.mp hu
  simp only [Prod.mk.injEq] at hend
  exact ⟨s, t, u, hs, hc, hflag, ht, Runs.of_exec_rule (by simp [Deploys, Configures]) hu, hend.1, hend.2⟩

end Susanow.Sys
