import Susanow.Nfvi.Attachment

/-! A reset with an empty slot.

`ssn_vnf::reset` first resets its blocks, and each of them asks the ports of the VNF for
an access for one core; the slots are looked at only then. So with a block and an empty
slot the call never comes back: it has gone through the slot. -/
namespace Susanow

namespace Nfvi
open Proc (Stuck Keeps stuck_bind stuck_forRange)

variable {n : Nfvi} {v bid i pid : Nat}

/-- Slot `pid` has no port, or is none. -/
def NoPort (n : Nfvi) (v pid : Nat) : Prop := ∀ p, (n.vnf v).ports[pid]? ≠ some (some p)

theorem slotAt_stuck (hslot : n.NoPort v pid) : Stuck (slotAt v pid) n :=
  fun p _ hrun => hslot p (slotAt_ret hrun).2

theorem grantTx_stuck (hslot : n.NoPort v pid) : Stuck (grantTx v bid i pid) n :=
  ((slotAt_stuck hslot).bind _).bind _

theorem grantRx_stuck (hslot : n.NoPort v pid) : Stuck (grantRx v bid i pid) n :=
  ((slotAt_stuck hslot).bind _).bind _

theorem ports_of_wiring {n' : Nfvi} (h : n'.wiring = n.wiring) (v : Nat) : (n'.vnf v).ports = (n.vnf v).ports :=
  congrFun (congrArg Wiring.slots h) v

theorem NoPort.of_wiring {n' : Nfvi} (hslot : n.NoPort v pid) (h : n'.wiring = n.wiring) : n'.NoPort v pid := by
  unfold NoPort
  rw [ports_of_wiring h]
  exact hslot

theorem requestAllPorts_stuck {nPorts nVcores : Nat} (hslot : n.NoPort v pid)
    (hpid : pid < nPorts) (hcore : 0 < nVcores) : Stuck (requestAllPorts v bid nPorts nVcores) n := by
  have hall := (allows_wiring v).own
  apply stuck_forRange wiring hcore
  · intro i
    exact Proc.within_forRange fun pid =>
      Proc.within_bind (hall.grantRx bid i pid) fun _ => hall.grantTx bid i pid
  · intro t ht
    apply stuck_forRange wiring hpid
    · intro pid
      exact Proc.within_bind (hall.grantRx bid 0 pid) fun _ => hall.grantTx bid 0 pid
    · intro t' ht'
      exact (grantRx_stuck (hslot.of_wiring (ht'.trans ht))).bind _

theorem requestOnePort_stuck {portId nPorts nVcores : Nat} (hslot : n.NoPort v pid)
    (hpid : pid < nPorts) (hcore : 0 < nVcores) : Stuck (requestOnePort v bid portId nPorts nVcores) n := by
  have hall := (allows_wiring v).own
  apply stuck_forRange wiring hcore
  · intro i
    exact Proc.within_bind (hall.grantRx bid i portId) fun _ =>
      Proc.within_forRange fun pid => hall.grantTx bid i pid
  · intro t ht
    apply stuck_bind
    intro _ t' hrun
    have ht' : t'.wiring = n.wiring := ((hall.grantRx bid 0 portId t).1 () t' hrun).trans ht
    apply stuck_forRange wiring hpid
    · exact fun pid => hall.grantTx bid 0 pid
    · exact fun u hu => grantTx_stuck (hslot.of_wiring (hu.trans ht'))

/-- Whatever its class, a block asks every port for an access to send. -/
theorem setCoremaskImpl_stuck (pid : Nat) {coremask : BitVec 32} (hslot : n.NoPort v pid) (hpid : pid < (n.vnf v).nPorts)
    (hcore : 0 < popcnt32 coremask) : Stuck (setCoremaskImpl v bid coremask) n := by
  apply stuck_bind
  intro x n₁ hx
  obtain ⟨rfl, rfl⟩ := vnfAt_ret hx
  apply stuck_bind
  intro b n₂ hb
  obtain ⟨rfl, -⟩ := blockAt_ret hb
  split
  · exact requestAllPorts_stuck hslot hpid hcore
  · exact requestAllPorts_stuck hslot hpid hcore
  · exact requestAllPorts_stuck hslot hpid hcore
  · exact requestAllPorts_stuck hslot hpid hcore
  · exact requestOnePort_stuck hslot hpid hcore

theorem blockReset_stuck (hslot : n.NoPort v pid) (hpid : pid < (n.vnf v).nPorts) :
    Stuck (blockReset v bid) n := by
  apply Stuck.bind
  apply stuck_bind
  intro x n₁ hx
  obtain ⟨rfl, rfl⟩ := vnfAt_ret hx
  apply stuck_bind
  intro _ n₂ hn₂
  cases hn₂
  apply setCoremaskImpl_stuck pid
  · simpa [NoPort, editBlock, editVnf] using hslot
  · simpa [editBlock, editVnf, Vnf.nPorts] using hpid
  · decide

theorem reset_stuck (hslot : none ∈ (n.vnf v).ports) (hblocks : (n.vnf v).blocks ≠ []) : Stuck (reset v) n := by
  obtain ⟨pid, hpid⟩ := List.getElem?_of_mem hslot
  have hno : n.NoPort v pid := fun p hp => by
    rw [hpid] at hp
    cases hp
  have hlt : pid < (n.vnf v).nPorts := (List.getElem?_eq_some_iff.mp hpid).1
  apply stuck_bind
  intro x n₁ hx
  obtain ⟨rfl, rfl⟩ := vnfAt_ret hx
  apply Stuck.bind
  have hall := (allows_wiring v).own
  apply stuck_forRange wiring (List.length_pos_iff.mpr hblocks)
  · intro i
    exact Proc.within_bind (hall.blockReset i) fun _ => Proc.within_bind (hall.setCoremask i _) fun _ =>
      Proc.within_pure _
  · intro t ht
    apply Stuck.bind (blockReset_stuck (hno.of_wiring ht) _)
    rwa [Vnf.nPorts, ports_of_wiring ht]

end Nfvi

def Block.settings (b : Block) : BitVec 32 × List Vcore × List Nat × List Nat :=
  (b.coremask, b.vcores, b.tids, b.socketAffinity)

/-- The reset is refused, and the blocks and the counters of the ports are what they were. -/
def Nfvi.RefusesReset (n : Nfvi) (v : Nat) : Prop :=
  ∃ n', Nfvi.reset v n = .ret (-1) n' ∧
    (n'.vnf v).blocks.map Block.settings = (n.vnf v).blocks.map Block.settings ∧
    ∀ p, some p ∈ (n.vnf v).ports →
      (n'.port p).nRxacc = (n.port p).nRxacc ∧ (n'.port p).nTxacc = (n.port p).nTxacc

theorem Nfvi.reset_refused_iff {n : Nfvi} {v : Nat} (hv : v ∈ n.vnfs) (hslot : none ∈ (n.vnf v).ports) :
    n.RefusesReset v ↔ (n.vnf v).blocks = [] := by
  constructor
  · rintro ⟨n', hrun, -⟩
    by_contra hblocks
    exact reset_stuck hslot hblocks _ _ hrun
  · intro hblocks
    refine ⟨n, ?_, rfl, fun p _ => ⟨rfl, rfl⟩⟩
    rw [reset, Proc.bind_ret (vnfAt_of_mem hv), Vnf.nBlocks, hblocks]
    show (if none ∈ (n.vnf v).ports then pure (-1) else _ : Proc Nfvi Int) n = _
    rw [if_pos hslot]
    rfl

/-- A VNF that has no block, and one that has. -/
def bareCatalog : List (String × VnfClass) := [("bare", ⟨2, [], polls_lt_of_all rfl⟩)]

theorem Nfvi.reset_refused_bare : ∃ s,
    exec Sys.step (.init 1 4 bareCatalog) [.request (.vnfPost "v" (some "bare") fun _ => (0, 0))] = some s ∧
      s.nfvi.RefusesReset 0 := by
  obtain ⟨s, hs, heq⟩ := Option.map_eq_some_iff.mp (show
    (exec Sys.step (.init 1 4 bareCatalog) [.request (.vnfPost "v" (some "bare") fun _ => (0, 0))]).map
      (fun s => (s.nfvi.vnfs, (s.nfvi.vnf 0).ports, (s.nfvi.vnf 0).blocks)) =
    some ([0], [none, none], []) by decide +kernel)
  simp only [Prod.mk.injEq] at heq
  obtain ⟨hvnfs, hports, hblocks⟩ := heq
  refine ⟨s, hs, (reset_refused_iff ?_ ?_).mpr hblocks⟩
  · rw [hvnfs]
    decide
  · rw [hports]
    decide

/-- A new VNF is reset before a port is attached. -/
theorem Nfvi.reset_not_refused : ∃ s,
    exec Sys.step (.init 1 4 mainCatalog) [.request (.vnfPost "v" (some "l2fwd") fun _ => (0, 0))] = some s ∧
      s.nfvi.vnfs = [0] ∧ (s.nfvi.vnf 0).ports = [none, none] ∧
      Nfvi.reset 0 s.nfvi = .crash .nullPointer ∧ ¬ s.nfvi.RefusesReset 0 := by
  obtain ⟨s, hs, heq⟩ := Option.map_eq_some_iff.mp (show
    (exec Sys.step (.init 1 4 mainCatalog) [.request (.vnfPost "v" (some "l2fwd") fun _ => (0, 0))]).map
      (fun s => (s.nfvi.vnfs, (s.nfvi.vnf 0).ports, (Nfvi.reset 0 s.nfvi).crash?)) =
    some ([0], [none, none], some .nullPointer) by decide +kernel)
  simp only [Prod.mk.injEq] at heq
  obtain ⟨hvnfs, hports, hcrash⟩ := heq
  have hreset : Nfvi.reset 0 s.nfvi = .crash .nullPointer := Outcome.eq_crash_of_crash? hcrash
  refine ⟨s, hs, hvnfs, hports, hreset, ?_⟩
  rintro ⟨n', hrun, -⟩
  rw [hreset] at hrun
  cases hrun

end Susanow
