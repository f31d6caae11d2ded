import Susanow.Nfvi.Books
import Susanow.Nfvi.Stopping

/-! Joining what was launched.

The ids a block passes to `ssn_thread_join` are what its `tids` hold at that time. They
are its own un-joined threads as long as the books are in order and strict: nothing is
configured or deployed over threads that are still out, and a launch that fails in the
middle of a block has no older ids behind it. -/
namespace Susanow.Sys

/-- What every step of a run keeps to. -/
def joinRule (s : Sys) : Label → Prop
  | .ctl => (∀ v ∈ s.ctrl.vnf?, s.SlotFree v) ∧ s.RefusedClean
  | l => ∀ v ∈ s.nfvi.vnfs, s.Configures v l ∨ s.Deploys v l → s.Settled v

instance (n : Native Task) (l : Nat) : Decidable (n.Refuses l) :=
  inferInstanceAs (Decidable (_ ∨ _ ∧ _))

def refusedClean (s : Sys) : Bool :=
  match s.ctrl with
  | .launching v bid i => decide (i ≠ 0 → ∀ b ∈ s.block? v bid, ∀ vc ∈ b.vcores[i]?,
      s.native.Refuses vc.lcoreId → ∀ l ∈ b.tids.drop i, l = 0)
  | _ => true

theorem refusedClean_iff (s : Sys) : s.refusedClean = true ↔ s.RefusedClean := by
  unfold refusedClean RefusedClean
  cases s.ctrl with
  | launching v bid i => exact decide_eq_true_iff
  | _ => exact iff_of_true rfl trivial

instance (s : Sys) : Decidable s.RefusedClean := decidable_of_iff _ (refusedClean_iff s)

instance (s : Sys) (l : Label) : Decidable (joinRule s l) := by
  unfold joinRule
  split <;> infer_instance

/-- The last thing noted is the end of a block's undeploy only if nothing is left to join. -/
def Closed (s : Sys) : Prop :=
  ∀ v bid log, s.log = .undeployed v bid :: log → outstanding v bid log = []

section Step
variable {s t : Sys}

theorem joinRule_books {l : Label} (h : Books True s) (hrule : joinRule s l) (hs : s.step l = some t) :
    Books True t := by
  refine h.step (fun v hv hset => ?_) (fun hl => ?_) hs
  · cases l with
    | request | call => exact hrule v hv hset
    | ctl | wrk => exact hset.elim False.elim False.elim
  · subst hl
    exact ⟨hrule.1, h.joinsOwn trivial, fun _ => hrule.2⟩

theorem Closed.step (h : s.Closed) (hbooks : Books True s) {l : Label} (hs : s.step l = some t) :
    t.Closed := by
  have hsame (hlog : t.log = s.log) : t.Closed := by
    unfold Closed
    rw [hlog]
    exact h
  have hnote {e : Event} (hlog : t.log = e :: s.log) (he : ∀ v bid, e ≠ .undeployed v bid) : t.Closed := by
    intro v bid log heq
    rw [hlog] at heq
    cases heq
    exact absurd rfl (he v bid)
  have hend {w b i : Nat} {k : Kont} (hc : s.ctrl = .joining w b i k) (hlog : t.log = .undeployed w b :: s.log)
      (hnil : ∀ m, s.Accounted w b i m → s.held w b i m = []) : t.Closed := by
    intro v bid log heq
    rw [hlog] at heq
    cases heq
    obtain ⟨m, hacc, -⟩ := (hbooks.pages w b).joining hc
    exact (hacc.none_of_nil (hnil m hacc)).2
  have hbegun {w b i : Nat} (hlog : t.log = (s.begun w b i).log) : t.Closed := by
    unfold begun at hlog
    split at hlog
    · exact hnote hlog nofun
    · exact hsame hlog
  rcases step_cases hs with hserved | ⟨-, hctl⟩ | ⟨k, -, hwrk⟩
  · exact hsame hserved.log
  · cases hctl with
    | deployed | rolledBack | undeployed | skip | store | noTid | unknown => exact hsame rfl
    | noVcore | nextBlock | refused => exact hbegun rfl
    | launch => exact fun _ _ _ heq => by cases heq
    | join => exact hnote rfl nofun
    | @okashii w b i k blk hc hb hi htid =>
      refine hend hc rfl fun m hacc => Accounted.held_nil (Nat.not_lt.mp fun hlt => hacc.nonzero ?_)
      exact Accounted.mem_of_index (by rw [tids_of_block hb, htid]) hlt
    | @blockDone w b i k blk hc hb hi =>
      refine hend hc rfl fun m _ => Accounted.held_nil_of_length ?_
      rw [(hbooks.threads w).length_tids, cores_of_block hb, List.length_map]
      exact hi
  · cases hwrk with
    | _ => exact hsame rfl

end Step

/-- **A block joins its own threads, each once.** The id its undeploy has come to is that of
a thread its last deploy launched and nobody joined, and when the undeploy returns no
thread of that deploy is left. -/
theorem joins_own_of_run {nSocket nLcore : Nat} {catalog : List (String × VnfClass)} {ls : List Label}
    {s : Sys} (h : Runs step joinRule (.init nSocket nLcore catalog) ls s) :
    (∀ v bid i k, s.ctrl = .joining v bid i k → i < (s.cores v bid).length →
        ∀ tid ∈ (s.tids v bid)[i]?, tid ≠ 0 → tid ∈ outstanding v bid s.log) ∧
      ∀ v bid log, s.log = .undeployed v bid :: log → outstanding v bid log = [] := by
  obtain ⟨hbooks, hclosed⟩ := h.invariant (I := fun s => Books True s ∧ s.Closed)
    ⟨.init nSocket nLcore catalog, nofun⟩ fun s l t ⟨hbooks, hclosed⟩ hrule hs =>
      ⟨joinRule_books hbooks hrule hs, hclosed.step hbooks hs⟩
  refine ⟨fun v bid i k hc _ tid htid h0 => ?_, hclosed⟩
  obtain ⟨m, hacc, hblank⟩ := (hbooks.pages v bid).joining hc
  have hlt : i < m := Nat.not_le.mp fun hge => h0 (hblank trivial i hge tid htid)
  exact hacc.log.mem_iff.mpr (Accounted.mem_of_index htid hlt)

/-- Two workers, one of them joined and the other at its turn. -/
def joinRun : List Label := bothRun ++ [.ctl, .wrk 2, .ctl]

theorem joins_own_of_joinRun :
    ∃ s, exec step (.init 1 4 mainCatalog) joinRun = some s ∧ s.ctrl = .joining 0 0 1 .put ∧
      3 ∈ outstanding 0 0 s.log := by
  obtain ⟨s, hs, hf⟩ := Option.map_eq_some_iff.mp
    (show (exec step (.init 1 4 mainCatalog) joinRun).map (fun s => (s.ctrl, s.cores 0 0, s.tids 0 0)) =
      some (.joining 0 0 1 .put, [2, 3], [2, 3]) by decide +kernel)
  simp only [Prod.mk.injEq] at hf
  obtain ⟨hc, hcores, htids⟩ := hf
  refine ⟨s, hs, hc, (joins_own_of_run (Runs.of_obeys (by decide +kernel) hs)).1 0 0 1 .put hc ?_ 3 ?_ ?_⟩
  · rw [hcores]
    decide
  · rw [htids]
    rfl
  · decide

/-- The VNF is reset and gets its mask again before its worker has stored the flag. -/
def resetRun : List Label :=
  deployRun "l2fwd" [0x4] ++ [.ctl, .ctl, .ctl, .request (.resetPut "v"),
    .request (.coremaskPut "v" 0 (some 0x4)), .wrk 2, .wrk 2, .request (.undeployPut "v"), .ctl, .ctl]

/-- A second VNF, on one of the cores the first had. -/
def secondRun : List Label :=
  [.request (.vnfPost "w" (some "l2fwd") fun _ => (0, 0)), .request (pciPort "c"), .request (pciPort "d"),
    .request (.slotPut "w" 0 (some "c")), .request (.slotPut "w" 1 (some "d")), .request (.resetPut "w"),
    .request (.coremaskPut "w" 0 (some 0x8)), .request (.deployPut "w"), .ctl, .ctl, .ctl]

/-- The first VNF is undeployed, the second is deployed, and the first is deployed again:
its second launch fails. -/
def staleRun : List Label :=
  bothRun ++ [.ctl, .wrk 2, .wrk 3, .ctl, .ctl, .ctl, .ctl] ++ secondRun ++
    [.request (.deployPut "v"), .ctl, .wrk 2, .wrk 2, .ctl, .ctl, .wrk 2, .ctl]

/-- The roll-back waits for the other VNF's thread; and an undeploy returns with its block's
own thread still running. -/
theorem joins_not_own :
    (∃ s, exec step (.init 1 4 mainCatalog) staleRun = some s ∧ s.ctrl = .joining 0 0 1 .rollback ∧
        s.cores 0 0 = [2, 3] ∧ (s.tids 0 0)[1]? = some 3 ∧ 3 ∉ outstanding 0 0 s.log ∧ s.Unjoined 3 0 3) ∧
      ∃ s, exec step (.init 1 4 mainCatalog) resetRun = some s ∧
        s.log.head? = some (.undeployed 0 0) ∧ outstanding 0 0 s.log.tail = [2] ∧ s.Unjoined 0 0 2 := by
  constructor
  · obtain ⟨s, hs, hf⟩ := Option.map_eq_some_iff.mp
      (show (exec step (.init 1 4 mainCatalog) staleRun).map (fun s => (s.ctrl, s.cores 0 0, s.tids 0 0,
          outstanding 0 0 s.log, (s.native.lcore 3).launched)) =
        some (.joining 0 0 1 .rollback, [2, 3], [2, 3], [], some (.block 3 0)) by decide +kernel)
    simp only [Prod.mk.injEq] at hf
    obtain ⟨hc, hcores, htids, hlog, hun⟩ := hf
    exact ⟨s, hs, hc, hcores, by rw [htids]; rfl, by simp [hlog], hun⟩
  · obtain ⟨s, hs, hf⟩ := Option.map_eq_some_iff.mp
      (show (exec step (.init 1 4 mainCatalog) resetRun).map (fun s => (s.log.head?,
          outstanding 0 0 s.log.tail, (s.native.lcore 2).launched)) =
        some (some (.undeployed 0 0), [2], some (.block 0 0)) by decide +kernel)
    simp only [Prod.mk.injEq] at hf
    exact ⟨s, hs, hf⟩

end Susanow.Sys
