import Susanow.Nfvi.Frames
import Susanow.Nfvi.System

/-! What one step of the NFVi can be.

Each of the three block loops and each of the two worker steps has a relation that
lists its outcomes with everything the code has checked on the way; `Sys.ctl` and
`Sys.wrk` are then read through `Ctl` and `Wrk` and never unfolded again. -/
namespace Susanow.Sys

/-- The state after thread `l` was launched for vcore `i`. -/
def launched (s : Sys) (v bid i l : Nat) : Sys :=
  ((({s.begun v bid i with native := s.native.started (.block v bid) l}).editBlock v bid (setTid i l)).note
    (.launched v bid l)).goto (.launching v bid (i + 1))

/-- The state after thread `tid` was joined at vcore `i`. -/
def joined (s : Sys) (v bid i tid : Nat) (k : Kont) : Sys :=
  (({s with native := {s.native with lcore := Function.update s.native.lcore tid .wait,
                                     tids := s.native.tids.erase tid}}).note
    (.joined v bid tid)).goto (.joining v bid (i + 1) k)

/-- A step of the server's thread. -/
inductive Ctl (s : Sys) : Sys → Prop
  | deployed {v bid i : Nat} : s.ctrl = .launching v bid i → s.block? v bid = none →
      Ctl s (s.goto (.idle (some (.deployed v 0))))
  | noVcore {v bid i : Nat} {b : Block} : s.ctrl = .launching v bid i → s.block? v bid = some b →
      b.vcores = [] → Ctl s ((s.begun v bid i).goto (.undeploying v 0 .rollback))
  | nextBlock {v bid i : Nat} {b : Block} : s.ctrl = .launching v bid i → s.block? v bid = some b →
      b.vcores ≠ [] → b.vcores.length ≤ i → Ctl s ((s.begun v bid i).goto (.launching v (bid + 1) 0))
  | launch {v bid i : Nat} {b : Block} {vc : Vcore} : s.ctrl = .launching v bid i →
      s.block? v bid = some b → b.vcores[i]? = some vc → vc.lcoreId ≠ 0 →
      s.native.lcore vc.lcoreId = .wait → Ctl s (s.launched v bid i vc.lcoreId)
  | refused {v bid i : Nat} {b : Block} {vc : Vcore} {th : Native Task} :
      s.ctrl = .launching v bid i → s.block? v bid = some b → b.vcores[i]? = some vc →
      s.native.Refuses vc.lcoreId →
      th = s.native ∨ s.native.lcore vc.lcoreId ≠ .wait ∧
        th = s.native.marked (.block v bid) vc.lcoreId →
      Ctl s ({s.begun v bid i with native := th}.goto (.undeploying v 0 .rollback))
  | rolledBack {v bid : Nat} : s.ctrl = .undeploying v bid .rollback → s.block? v bid = none →
      Ctl s (s.goto (.idle (some (.deployed v (-1)))))
  | undeployed {v bid : Nat} : s.ctrl = .undeploying v bid .put → s.block? v bid = none →
      Ctl s (s.goto (.idle (some (.undeployed v))))
  | skip {v bid : Nat} {k : Kont} {b : Block} : s.ctrl = .undeploying v bid k →
      s.block? v bid = some b → b.running = false → Ctl s (s.goto (.undeploying v (bid + 1) k))
  | store {v bid : Nat} {k : Kont} {b : Block} : s.ctrl = .undeploying v bid k →
      s.block? v bid = some b → b.running = true → b.tids.length = b.vcores.length →
      Ctl s ((s.editBlock v bid (setRunning false)).goto (.joining v bid 0 k))
  | noTid {v bid i : Nat} {k : Kont} {b : Block} : s.ctrl = .joining v bid i k →
      s.block? v bid = some b → i < b.vcores.length → b.tids[i]? = none →
      Ctl s (s.goto (.idle (some (.threw "vector::at"))))
  | okashii {v bid i : Nat} {k : Kont} {b : Block} : s.ctrl = .joining v bid i k →
      s.block? v bid = some b → i < b.vcores.length → b.tids[i]? = some 0 →
      Ctl s ((s.note (.undeployed v bid)).goto (.undeploying v (bid + 1) k))
  | join {v bid i tid : Nat} {k : Kont} {b : Block} : s.ctrl = .joining v bid i k →
      s.block? v bid = some b → i < b.vcores.length → b.tids[i]? = some tid → tid ≠ 0 →
      (s.native.lcore tid).isRunning = false → tid ∈ s.native.tids →
      Ctl s (s.joined v bid i tid k)
  | unknown {v bid i tid : Nat} {k : Kont} {b : Block} {w : String} : s.ctrl = .joining v bid i k →
      s.block? v bid = some b → i < b.vcores.length → b.tids[i]? = some tid → tid ≠ 0 →
      (s.native.lcore tid).isRunning = false → tid ∉ s.native.tids →
      Ctl s ((s.setLcore tid .wait).goto (.idle (some (.threw w))))
  | blockDone {v bid i : Nat} {k : Kont} {b : Block} : s.ctrl = .joining v bid i k →
      s.block? v bid = some b → b.vcores.length ≤ i →
      Ctl s ((s.note (.undeployed v bid)).goto (.undeploying v (bid + 1) k))

theorem launchStep_ctl {s t : Sys} {v bid i : Nat} (hc : s.ctrl = .launching v bid i)
    (h : s.launchStep v bid i = some t) : Ctl s t := by
  unfold launchStep at h
  split at h
  · next hb => cases h; exact .deployed hc hb
  · next b hb =>
    split_ifs at h with hvc
    · cases h
      exact .noVcore hc hb hvc
    · split at h
      · next hi =>
        cases h
        exact .nextBlock hc hb hvc (List.getElem?_eq_none_iff.mp hi)
      · next vc hi =>
        split at h
        · next tid th hl =>
          cases h
          obtain ⟨rfl, h0, -, hwait, rfl⟩ := Native.launch_ret hl
          exact .launch hc hb hi h0 hwait
        · next w th hl =>
          cases h
          exact .refused hc hb hi (Native.launch_throws hl).1 (Native.launch_throws hl).2
        · cases h

theorem undeployStep_ctl {s t : Sys} {v bid : Nat} {k : Kont} (hc : s.ctrl = .undeploying v bid k)
    (h : s.undeployStep v bid k = some t) : Ctl s t := by
  unfold undeployStep at h
  split at h
  · next hb =>
    cases k with
    | rollback => cases h; exact .rolledBack hc hb
    | put => cases h; exact .undeployed hc hb
  · next b hb =>
    split_ifs at h with hrun hlen
    · cases h
      exact .store hc hb hrun hlen
    · cases h
      exact .skip hc hb (by simpa using hrun)

theorem joinStep_ctl {s t : Sys} {v bid i : Nat} {k : Kont} (hc : s.ctrl = .joining v bid i k)
    (h : s.joinStep v bid i k = some t) : Ctl s t := by
  unfold joinStep at h
  split at h
  · cases h
  · next b hb =>
    split_ifs at h with hi
    · split at h
      · next htid => cases h; exact .noTid hc hb hi htid
      · next tid htid =>
        split_ifs at h with h0 hrun
        · cases h
          subst h0
          exact .okashii hc hb hi htid
        · have hrun' : (s.native.lcore tid).isRunning = false := by simpa using hrun
          by_cases hmem : tid ∈ s.native.tids
          · rw [Native.join_of_mem h0 hmem] at h
            cases h
            exact .join hc hb hi htid h0 hrun' hmem
          · obtain ⟨w, hjoin⟩ := Native.join_of_not_mem h0 hmem
            rw [hjoin] at h
            cases h
            exact .unknown hc hb hi htid h0 hrun' hmem
    · cases h
      exact .blockDone hc hb (by omega)

theorem ctl_some {s t : Sys} (h : s.ctl = some t) : Ctl s t := by
  unfold ctl at h
  split at h
  · cases h
  · next v bid i hc =>
    split_ifs at h
    exact launchStep_ctl hc h
  · next v bid k hc =>
    split_ifs at h
    exact undeployStep_ctl hc h
  · next v bid i k hc =>
    split_ifs at h
    exact joinStep_ctl hc h

theorem flag_of_block {s : Sys} {v bid : Nat} {b : Block} (h : s.block? v bid = some b) :
    s.flag v bid = b.running := by
  simp [flag, Nfvi.flag, h]

/-- A step of the thread on lcore `l`. -/
inductive Wrk (s : Sys) (l : Nat) : Sys → Prop
  | fetch {t f : Task} : s.native.lcore l = .running t .fetch → s.native.snt l = some f →
      Wrk s l (s.setLcore l (.running t (.entered f)))
  | timer {t : Task} : s.native.lcore l = .running t (.entered .timer) →
      Wrk s l (s.setLcore l (.running t (.looping .timer)))
  | enter {t : Task} {v bid : Nat} {b : Block} :
      s.native.lcore l = .running t (.entered (.block v bid)) → s.block? v bid = some b →
      l ∈ b.vcores.map Vcore.lcoreId →
      Wrk s l ((s.editBlock v bid (setRunning true)).setLcore l
        (.running t (.looping (.block v bid))))
  | pass {t f : Task} : s.native.lcore l = .running t (.looping f) →
      (∀ v bid, f = .block v bid → s.flag v bid = true) → Wrk s l s
  | leave {t : Task} {v bid : Nat} {b : Block} :
      s.native.lcore l = .running t (.looping (.block v bid)) → s.block? v bid = some b →
      b.running = false → Wrk s l (s.setLcore l (.finished t))

theorem wrk_some {s t : Sys} {l : Nat} (h : s.wrk l = some t) : Wrk s l t := by
  unfold wrk at h
  split at h
  · cases h
  · cases h
  · next hl =>
    obtain ⟨th, hth, rfl⟩ := Option.map_eq_some_iff.mp h
    obtain ⟨t, f, hl, hs, rfl⟩ := Native.fetch_some hth
    exact .fetch hl hs
  · next hl => cases h; exact .timer hl
  · next hl => cases h; exact .pass hl fun v bid hf => by cases hf
  · next t v bid hl =>
    split_ifs at h
    unfold enterStep at h
    split at h
    · cases h
    · next b hb =>
      split_ifs at h with hmem
      cases h
      exact .enter hl hb hmem
  · next t v bid hl =>
    split_ifs at h
    unfold loopStep at h
    split at h
    · cases h
    · next b hb =>
      split_ifs at h with hrun
      · cases h
        refine .pass hl fun w b hf => ?_
        cases hf
        rw [flag_of_block hb, hrun]
      · cases h
        exact .leave hl hb (by simpa using hrun)

/-- A handler or a method runs only on an idle thread; it returns or it throws. -/
theorem serve_some {s t : Sys} {p : Proc Nfvi Next} (h : s.serve p = some t) :
    (∃ last, s.ctrl = .idle last) ∧
      ((∃ nx n, p s.nfvi = .ret nx n ∧ t = {s with nfvi := n, ctrl := ctrlOf nx}) ∨
        ∃ w n, p s.nfvi = .throws w n ∧ t = {s with nfvi := n, ctrl := .idle (some (.threw w))}) := by
  unfold serve at h
  split at h
  · next last nx n hc hp =>
    cases h
    exact ⟨⟨last, hc⟩, .inl ⟨nx, n, hp, rfl⟩⟩
  · next last w n hc hp =>
    cases h
    exact ⟨⟨last, hc⟩, .inr ⟨w, n, hp, rfl⟩⟩
  · cases h

theorem serve_crash {s : Sys} {p : Proc Nfvi Next} {c : Crash} (h : p s.nfvi = .crash c) :
    s.serve p = none := by
  unfold serve
  split <;> simp_all

/-! ### Reading a state after an edit -/

section Reads
variable (s : Sys) (v bid w b l i : Nat) (f : Block → Block) (c : Lcore Task)

@[simp] theorem begun_native : (s.begun v bid i).native = s.native := by
  unfold begun
  split <;> rfl

@[simp] theorem begun_nfvi : (s.begun v bid i).nfvi = s.nfvi := by
  unfold begun
  split <;> rfl

@[simp] theorem editBlock_native : (s.editBlock v bid f).native = s.native := rfl
@[simp] theorem editBlock_ctrl : (s.editBlock v bid f).ctrl = s.ctrl := rfl
@[simp] theorem editBlock_log : (s.editBlock v bid f).log = s.log := rfl
@[simp] theorem setLcore_nfvi : (s.setLcore l c).nfvi = s.nfvi := rfl
@[simp] theorem setLcore_ctrl : (s.setLcore l c).ctrl = s.ctrl := rfl
@[simp] theorem setLcore_log : (s.setLcore l c).log = s.log := rfl
@[simp] theorem goto_nfvi (x : Ctrl) : (s.goto x).nfvi = s.nfvi := rfl
@[simp] theorem goto_native (x : Ctrl) : (s.goto x).native = s.native := rfl
@[simp] theorem goto_ctrl (x : Ctrl) : (s.goto x).ctrl = x := rfl
@[simp] theorem goto_log (x : Ctrl) : (s.goto x).log = s.log := rfl
@[simp] theorem note_nfvi (e : Event) : (s.note e).nfvi = s.nfvi := rfl
@[simp] theorem note_native (e : Event) : (s.note e).native = s.native := rfl
@[simp] theorem note_log (e : Event) : (s.note e).log = e :: s.log := rfl

@[simp] theorem launched_lcore : (s.launched v bid i l).native.lcore =
    Function.update s.native.lcore l (.running (.block v bid) .fetch) := rfl
@[simp] theorem launched_snt : (s.launched v bid i l).native.snt =
    Function.update s.native.snt l (some (.block v bid)) := rfl
@[simp] theorem launched_ctrl : (s.launched v bid i l).ctrl = .launching v bid (i + 1) := rfl
@[simp] theorem launched_nfvi :
    (s.launched v bid i l).nfvi = (s.editBlock v bid (setTid i l)).nfvi := by
  simp [launched, editBlock]
@[simp] theorem joined_lcore (k : Kont) : (s.joined v bid i l k).native.lcore =
    Function.update s.native.lcore l .wait := rfl
@[simp] theorem joined_snt (k : Kont) : (s.joined v bid i l k).native.snt = s.native.snt := rfl
@[simp] theorem joined_ctrl (k : Kont) : (s.joined v bid i l k).ctrl = .joining v bid (i + 1) k := rfl
@[simp] theorem joined_nfvi (k : Kont) : (s.joined v bid i l k).nfvi = s.nfvi := rfl
@[simp] theorem setLcore_lcore :
    (s.setLcore l c).native.lcore = Function.update s.native.lcore l c := rfl
@[simp] theorem setLcore_snt : (s.setLcore l c).native.snt = s.native.snt := rfl

theorem block?_editBlock : (s.editBlock v bid f).block? w b =
    if w = v ∧ b = bid then (s.block? w b).map f else s.block? w b :=
  Nfvi.block?_editBlock s.nfvi v bid w b f

end Reads

/-- The block loops write thread ids and flags, and nothing else. -/
theorem Ctl.nfvi {s t : Sys} (hs : Ctl s t) {P : Nfvi → Prop} (h : P s.nfvi)
    (htid : ∀ v bid i l, P (s.nfvi.editBlock v bid (setTid i l)))
    (hrunning : ∀ v bid running, P (s.nfvi.editBlock v bid (setRunning running))) : P t.nfvi := by
  cases hs with
  | launch =>
    rw [launched_nfvi]
    exact htid _ _ _ _
  | store => exact hrunning _ _ false
  | noVcore | nextBlock | refused =>
    rw [goto_nfvi]
    simpa using h
  | _ => exact h

theorem Wrk.nfvi {s t : Sys} {l : Nat} (hs : Wrk s l t) {P : Nfvi → Prop} (h : P s.nfvi)
    (hrunning : ∀ v bid running, P (s.nfvi.editBlock v bid (setRunning running))) : P t.nfvi := by
  cases hs with
  | enter => exact hrunning _ _ true
  | _ => exact h

end Susanow.Sys
