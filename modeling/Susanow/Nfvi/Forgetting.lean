import Susanow.Nfvi.Probing

/-! Two resets side by side.

Two VNFs of one shape, with ports on the same sockets in the same slots, are reset. What the
reset sets up is then the same in both but for one thing: a block's affinity is the socket
that leads over all accesses counted since the last reset, and those of ports that are gone
by now are still among them. So the past is forgotten, and another reset changes nothing,
just when in both the socket that leads among the ports polled leads among all (`Unbiased`). -/
namespace Susanow

namespace Nfvi

/-- The ports that the block receives from, by socket. -/
def polled (n : Nfvi) (v : Nat) (b : Block) : List Nat :=
  n.probed v {b with socketAffinity := List.replicate b.socketAffinity.length 0}

/-- What a block of `v` has counted before does not change which socket leads. -/
def Unbiased (n : Nfvi) (v : Nat) : Prop :=
  ∀ b ∈ (n.vnf v).blocks, ∃ sid, Leads (n.polled v b) sid ∧ Leads (n.probed v b) sid

/-- What a reset sets up: masks, vcores, thread ids and affinity of each block, and the counters
of the port in each slot. -/
def setup (n : Nfvi) (v : Nat) : List (BitVec 32 × List Vcore × List Nat × Nat) × List (Option (Nat × Nat)) :=
  ((n.vnf v).blocks.map fun b => (b.coremask, b.vcores, b.tids, b.affinity),
    (n.vnf v).ports.map (Option.map fun p => ((n.port p).nRxacc, (n.port p).nTxacc)))

/-- The sockets of the ports, slot by slot. -/
def sockets (n : Nfvi) (v : Nat) : List (Option Nat) :=
  (n.vnf v).ports.map (Option.map fun p => (n.port p).getSocketId)

/-- Two VNFs of one shape, with ports on the same sockets in the same slots. -/
structure Alike (n₁ : Nfvi) (v₁ : Nat) (n₂ : Nfvi) (v₂ : Nat) : Prop where
  classes : (n₁.vnf v₁).blocks.map Block.cls = (n₂.vnf v₂).blocks.map Block.cls
  sockets : n₁.sockets v₁ = n₂.sockets v₂

/-! ### The socket that leads -/

section Leader
variable {n : Nfvi} {v k : Nat} {b : Block} {xs : List Nat}

theorem getSocketAffinityImpl_eq_some : getSocketAffinityImpl xs = some k ↔ Leads xs k := by
  cases xs with
  | nil =>
    constructor
    · intro h
      cases h
    · rintro ⟨m, hm, -⟩
      cases hm
  | cons m ms =>
    have hlead := (leads_lead m ms).1
    rw [getSocketAffinityImpl_eq_lead, Option.some.injEq]
    exact ⟨fun h => h ▸ hlead, hlead.unique⟩

theorem exists_leads (h : xs ≠ []) : ∃ k, Leads xs k := by
  obtain ⟨m, ms, rfl⟩ := List.exists_cons_of_ne_nil h
  exact ⟨_, (leads_lead m ms).1⟩

theorem probed_ne_nil (h : b.socketAffinity ≠ []) : n.probed v b ≠ [] := by
  intro hnil
  apply h
  rw [← List.length_eq_zero_iff, ← length_tally (n := n) (v := v) (k := (n.vnf v).nPorts)]
  exact congrArg List.length hnil

theorem polled_ne_nil (h : b.socketAffinity ≠ []) : n.polled v b ≠ [] := by
  apply probed_ne_nil
  simpa using h

theorem getElem?_polled (j : Nat) :
    (n.polled v b)[j]? = if j < b.socketAffinity.length then some (n.asked v b (n.vnf v).nPorts j) else none := by
  simp only [polled, probed, tally, List.getElem?_mapIdx, List.getElem?_replicate]
  split_ifs
  · rw [Option.map_some, Nat.zero_add]
    rfl
  · rfl

/-- A socket beyond the counters has no port the block receives from. -/
theorem asked_eq_zero (h : n.Probes v b) {j : Nat} (hj : b.socketAffinity.length ≤ j) :
    n.asked v b (n.vnf v).nPorts j = 0 := by
  apply List.countP_eq_zero.mpr
  intro pid hpid hcount
  simp only [Bool.and_eq_true, beq_iff_eq] at hcount
  exact absurd (h.counts pid (List.mem_range.mp hpid) hcount.1 j hcount.2) (Nat.not_lt.mpr hj)

/-- Which socket leads among the ports polled depends on the ports only. -/
theorem leads_polled_iff (h : n.Probes v b) (hne : b.socketAffinity ≠ []) :
    Leads (n.polled v b) k ↔ ∀ j, n.asked v b (n.vnf v).nPorts j ≤ n.asked v b (n.vnf v).nPorts k ∧
      (j < k → n.asked v b (n.vnf v).nPorts j < n.asked v b (n.vnf v).nPorts k) := by
  constructor
  · rintro ⟨m, hm, hall, hbefore⟩ j
    have hk : k < b.socketAffinity.length := by
      by_contra hk
      rw [getElem?_polled, if_neg hk] at hm
      cases hm
    rw [getElem?_polled, if_pos hk, Option.some.injEq] at hm
    subst hm
    refine ⟨?_, fun hj => hbefore _ ?_⟩
    · by_cases hj : j < b.socketAffinity.length
      · exact hall _ (List.mem_of_getElem? (i := j) (by rw [getElem?_polled, if_pos hj]))
      · rw [asked_eq_zero h (Nat.not_lt.mp hj)]
        exact Nat.zero_le _
    · apply List.mem_of_getElem? (i := j)
      rw [List.getElem?_take_of_lt hj, getElem?_polled, if_pos (hj.trans hk)]
  · intro hall
    have hk : k < b.socketAffinity.length := by
      by_contra hk
      have hzero := asked_eq_zero h (Nat.not_lt.mp hk)
      have hpos : 0 < k := (List.length_pos_iff.mpr hne).trans_le (Nat.not_lt.mp hk)
      exact absurd ((hall 0).2 hpos) (by rw [hzero]; exact Nat.not_lt_zero _)
    refine ⟨_, by rw [getElem?_polled, if_pos hk], fun x hx => ?_, fun x hx => ?_⟩
    · obtain ⟨j, hj⟩ := List.getElem?_of_mem hx
      rw [getElem?_polled] at hj
      split_ifs at hj
      cases hj
      exact (hall j).1
    · obtain ⟨j, hj⟩ := List.getElem?_of_mem hx
      rw [List.getElem?_take] at hj
      split_ifs at hj with hjk
      rw [getElem?_polled] at hj
      split_ifs at hj
      cases hj
      exact (hall j).2 hjk

end Leader

/-! ### A second reset -/

section Again
variable {n : Nfvi} {v : Nat} {b : Block}

theorem ports_restart (n : Nfvi) (v : Nat) (f : Block → Block) :
    ((n.restart v f).vnf v).ports = (n.vnf v).ports := by
  simp [restart]

theorem blocks_afterReset (n : Nfvi) (v : Nat) :
    ((n.afterReset v).vnf v).blocks = (n.vnf v).blocks.map (n.settle v) := by
  simp [afterReset, restart]

theorem socketAt_afterReset (n : Nfvi) (v pid : Nat) : (n.afterReset v).socketAt v pid = n.socketAt v pid := by
  unfold socketAt
  rw [afterReset, ports_restart]
  congr 1
  funext p
  simp only [restart]
  split_ifs <;> rfl

theorem probed_afterReset (n : Nfvi) (v : Nat) (b : Block) :
    (n.afterReset v).probed v (n.settle v b) = n.polled v b := by
  have hasked (k j : Nat) : (n.afterReset v).asked v (n.settle v b) k j = n.asked v b k j := by
    simp only [asked, socketAt_afterReset]
    rfl
  have hports : ((n.afterReset v).vnf v).nPorts = (n.vnf v).nPorts := congrArg List.length (ports_restart n v _)
  simp only [polled, probed, tally, hports, hasked]
  rfl

theorem affinity_settle (n : Nfvi) (v : Nat) (b : Block) :
    (n.settle v b).affinity = (getSocketAffinityImpl (n.probed v b)).getD 0 := rfl

theorem settle_again (h : getSocketAffinityImpl (n.polled v b) = getSocketAffinityImpl (n.probed v b)) :
    (n.afterReset v).settle v (n.settle v b) = n.settle v b := by
  rw [settle, probed_afterReset, h]
  simp [settle]

theorem reaches_afterReset (n : Nfvi) (v pid : Nat) : (n.afterReset v).Reaches v pid ↔ n.Reaches v pid := by
  unfold Reaches
  rw [afterReset, ports_restart]
  rfl

theorem Resettable.again (h : n.Resettable v) : (n.afterReset v).Resettable v := by
  have hports : ((n.afterReset v).vnf v).nPorts = (n.vnf v).nPorts := congrArg List.length (ports_restart n v _)
  constructor
  · intro c hc
    rw [blocks_afterReset] at hc
    obtain ⟨b, hb, rfl⟩ := List.mem_map.mp hc
    have hprobes := h.probes b hb
    refine ⟨fun portId hcls => ?_, fun pid hpid => ?_, fun pid hpid hr sid hsid => ?_⟩
    · rw [hports]
      exact hprobes.polls portId hcls
    · rw [reaches_afterReset]
      exact hprobes.reaches pid (hports ▸ hpid)
    · rw [socketAt_afterReset] at hsid
      simpa [settle] using hprobes.counts pid (hports ▸ hpid) hr sid hsid
  · intro c hc
    rw [blocks_afterReset] at hc
    obtain ⟨b, hb, rfl⟩ := List.mem_map.mp hc
    simpa [settle] using h.sockets b hb
  · intro pid hpid
    rw [reaches_afterReset]
    exact h.reaches pid (hports ▸ hpid)

/-- **Another reset changes nothing** just when the past has not. -/
theorem reset_again_iff (hv : v ∈ n.vnfs) (h : n.Resettable v) :
    reset v (n.afterReset v) = .ret 0 (n.afterReset v) ↔ n.Unbiased v := by
  rw [reset_eq_zero_iff]
  constructor
  · rintro ⟨-, -, heq⟩ b hb
    obtain ⟨k, hk⟩ := exists_leads (n.polled_ne_nil (v := v) (h.sockets b hb))
    obtain ⟨l, hl⟩ := exists_leads (n.probed_ne_nil (v := v) (h.sockets b hb))
    have hblocks := congrArg (fun m => (m.vnf v).blocks) heq
    simp only [blocks_afterReset, List.map_map] at hblocks
    have haff := congrArg Block.affinity (List.map_inj_left.mp hblocks b hb)
    rw [Function.comp, affinity_settle, affinity_settle, probed_afterReset, getSocketAffinityImpl_eq_some.mpr hk,
      getSocketAffinityImpl_eq_some.mpr hl] at haff
    obtain rfl : l = k := haff
    exact ⟨l, hk, hl⟩
  · intro hun
    refine ⟨hv, h.again, eq_restart rfl ?_ fun p hp => ?_⟩
    · rw [blocks_afterReset, List.map_map]
      refine List.map_congr_left fun b hb => ?_
      obtain ⟨sid, hpolled, hprobed⟩ := hun b hb
      rw [Function.comp, settle_again]
      rw [getSocketAffinityImpl_eq_some.mpr hpolled, getSocketAffinityImpl_eq_some.mpr hprobed]
    · rw [afterReset, ports_restart] at hp
      simp only [afterReset, restart, if_pos hp]
      rfl

/-- What the reset sets up, but for the affinities, is the same for every VNF of the shape. -/
theorem Resettable.setup (h : n.Resettable v) : (n.afterReset v).setup v =
    ((n.vnf v).blocks.map fun b => (0, [], [], (n.settle v b).affinity),
      List.replicate (n.vnf v).nPorts (some (0, 0))) := by
  have hslots : (n.vnf v).ports.map (Option.map fun p => (((n.afterReset v).port p).nRxacc,
      ((n.afterReset v).port p).nTxacc)) = List.replicate (n.vnf v).nPorts (some (0, 0)) := by
    apply List.map_eq_replicate_iff.mpr
    intro slot hslot
    obtain ⟨pid, hpid⟩ := List.getElem?_of_mem hslot
    obtain ⟨p, hp, -⟩ := h.reaches pid (List.getElem?_eq_some_iff.mp hpid).1
    cases hpid.symm.trans hp
    simp only [afterReset, restart, Option.map_some, if_pos hslot]
    rfl
  rw [Nfvi.setup, blocks_afterReset, List.map_map, afterReset, ports_restart, ← afterReset, hslots]
  rfl

end Again

/-! ### Two resets -/

section Two
variable {n₁ n₂ t₁ t₂ : Nfvi} {v₁ v₂ : Nat}

theorem Alike.nPorts (h : Alike n₁ v₁ n₂ v₂) : (n₁.vnf v₁).nPorts = (n₂.vnf v₂).nPorts := by
  simpa [Nfvi.sockets, Vnf.nPorts] using congrArg List.length h.sockets

theorem socketAt_eq (n : Nfvi) (v pid : Nat) : n.socketAt v pid = (n.sockets v)[pid]?.join := by
  rw [socketAt, Nfvi.sockets, List.getElem?_map]
  cases (n.vnf v).ports[pid]? <;> rfl

theorem Alike.asked (h : Alike n₁ v₁ n₂ v₂) {b₁ b₂ : Block} (hcls : b₁.cls = b₂.cls) (k j : Nat) :
    n₁.asked v₁ b₁ k j = n₂.asked v₂ b₂ k j := by
  simp only [Nfvi.asked, socketAt_eq, h.sockets, Block.receives_congr hcls]

/-- The ports have the same leader in both. -/
theorem Alike.leads (h : Alike n₁ v₁ n₂ v₂) {b₁ b₂ : Block} (hcls : b₁.cls = b₂.cls) (hp₁ : n₁.Probes v₁ b₁)
    (hne₁ : b₁.socketAffinity ≠ []) (hp₂ : n₂.Probes v₂ b₂) (hne₂ : b₂.socketAffinity ≠ []) (k : Nat) :
    Leads (n₁.polled v₁ b₁) k ↔ Leads (n₂.polled v₂ b₂) k := by
  rw [leads_polled_iff hp₁ hne₁, leads_polled_iff hp₂ hne₂]
  simp only [h.asked hcls, h.nPorts]

/-- **A reset forgets the past** just when neither VNF is biased by it: what the two resets set up
is then the same, and another one changes nothing. -/
theorem forgets_iff (halike : Alike n₁ v₁ n₂ v₂) (h₁ : reset v₁ n₁ = .ret 0 t₁) (h₂ : reset v₂ n₂ = .ret 0 t₂) :
    (t₁.setup v₁ = t₂.setup v₂ ∧ reset v₁ t₁ = .ret 0 t₁ ∧ reset v₂ t₂ = .ret 0 t₂) ↔
      n₁.Unbiased v₁ ∧ n₂.Unbiased v₂ := by
  obtain ⟨hv₁, hable₁, rfl⟩ := reset_eq_zero_iff.mp h₁
  obtain ⟨hv₂, hable₂, rfl⟩ := reset_eq_zero_iff.mp h₂
  rw [reset_again_iff hv₁ hable₁, reset_again_iff hv₂ hable₂, and_iff_right_iff_imp]
  rintro ⟨hun₁, hun₂⟩
  rw [hable₁.setup, hable₂.setup, halike.nPorts, Prod.mk.injEq]
  refine ⟨List.ext_getElem? fun i => ?_, rfl⟩
  have hcls : ((n₁.vnf v₁).blocks[i]?).map Block.cls = ((n₂.vnf v₂).blocks[i]?).map Block.cls := by
    rw [← List.getElem?_map, halike.classes, List.getElem?_map]
  rw [List.getElem?_map, List.getElem?_map]
  cases hb₁ : (n₁.vnf v₁).blocks[i]? with
  | none =>
    rw [hb₁] at hcls
    rw [Option.map_eq_none_iff.mp hcls.symm]
    rfl
  | some b₁ =>
    rw [hb₁] at hcls
    obtain ⟨b₂, hb₂, hcls⟩ := Option.map_eq_some_iff.mp hcls.symm
    have hmem₁ : b₁ ∈ (n₁.vnf v₁).blocks := List.mem_of_getElem? hb₁
    have hmem₂ : b₂ ∈ (n₂.vnf v₂).blocks := List.mem_of_getElem? hb₂
    obtain ⟨k, hpolled₁, hprobed₁⟩ := hun₁ b₁ hmem₁
    obtain ⟨l, hpolled₂, hprobed₂⟩ := hun₂ b₂ hmem₂
    have hleads := halike.leads hcls.symm (hable₁.probes b₁ hmem₁) (hable₁.sockets b₁ hmem₁)
      (hable₂.probes b₂ hmem₂) (hable₂.sockets b₂ hmem₂) k
    obtain rfl : k = l := (hleads.mp hpolled₁).unique hpolled₂
    rw [hb₂, Option.map_some, Option.map_some, affinity_settle, affinity_settle,
      getSocketAffinityImpl_eq_some.mpr hprobed₁, getSocketAffinityImpl_eq_some.mpr hprobed₂]

end Two

/-- Two new ports on a socket, plugged. -/
def plugOn (a b : String) (socketId : Nat) : List Label :=
  [.request (.portPost a (some "pci") (some "0000:00:00.0") (.ok socketId)),
    .request (.portPost b (some "pci") (some "0000:00:00.0") (.ok socketId)),
    .request (.slotPut "v" 0 (some a)), .request (.slotPut "v" 1 (some b))]

def newRun : List Label := .request (.vnfPost "v" (some "l2fwd") fun _ => (0, 0)) :: plugOn "a" "b" 0

/-- The VNF has run on two cores with other ports, on the other socket. -/
def usedRun : List Label :=
  .request (.vnfPost "v" (some "l2fwd") fun _ => (0, 0)) :: plugOn "c" "d" 1 ++
    [.request (.resetPut "v"), .request (.coremaskPut "v" 0 (some 0xc)), .request (.slotDelete "v" 0),
      .request (.slotDelete "v" 1)] ++ plugOn "a" "b" 0

/-- What is asked of a state when it comes to `forgets_iff`. -/
def shown (s : Sys) : List BlockClass × List (Option Nat) :=
  ((s.nfvi.vnf 0).blocks.map Block.cls, s.nfvi.sockets 0)

theorem alike_of_shown {s₁ s₂ : Sys} (h : shown s₁ = shown s₂) : Alike s₁.nfvi 0 s₂.nfvi 0 :=
  ⟨congrArg Prod.fst h, congrArg Prod.snd h⟩

/-- A VNF that has been reset and masked since, and a new one. -/
theorem forgets_iff_of_maskedRun : ∃ s₁ s₂ t₁ t₂, exec Sys.step (.init 2 4 mainCatalog) newRun = some s₁ ∧
    exec Sys.step (.init 2 4 mainCatalog) (newRun ++ [.request (.resetPut "v"),
      .request (.coremaskPut "v" 0 (some 0xc))]) = some s₂ ∧
    ((t₁.setup 0 = t₂.setup 0 ∧ reset 0 t₁ = .ret 0 t₁ ∧ reset 0 t₂ = .ret 0 t₂) ↔
      s₁.nfvi.Unbiased 0 ∧ s₂.nfvi.Unbiased 0) := by
  obtain ⟨s₁, hs₁, h₁⟩ := Option.map_eq_some_iff.mp
    (show (exec Sys.step (.init 2 4 mainCatalog) newRun).map (fun s =>
      (shown s, (reset 0 s.nfvi).ret?.map Prod.fst)) = some (([.l2fwd], [some 0, some 0]), some 0) by decide +kernel)
  obtain ⟨s₂, hs₂, h₂⟩ := Option.map_eq_some_iff.mp
    (show (exec Sys.step (.init 2 4 mainCatalog) (newRun ++ [.request (.resetPut "v"),
      .request (.coremaskPut "v" 0 (some 0xc))])).map (fun s =>
        (shown s, (reset 0 s.nfvi).ret?.map Prod.fst)) = some (([.l2fwd], [some 0, some 0]), some 0) by decide +kernel)
  simp only [Prod.mk.injEq] at h₁ h₂
  obtain ⟨⟨-, t₁⟩, ht₁, rfl⟩ := Option.map_eq_some_iff.mp h₁.2
  obtain ⟨⟨r, t₂⟩, ht₂, rfl⟩ := Option.map_eq_some_iff.mp h₂.2
  have halike := alike_of_shown (h₁.1.trans h₂.1.symm)
  exact ⟨s₁, s₂, t₁, t₂, hs₁, hs₂, forgets_iff halike (Outcome.eq_ret_of_ret? ht₁) (Outcome.eq_ret_of_ret? ht₂)⟩

def affinities (n : Nfvi) (v : Nat) : List Nat := (n.vnf v).blocks.map Block.affinity

theorem affinities_of_setup {n₁ n₂ : Nfvi} {v₁ v₂ : Nat} (h : n₁.setup v₁ = n₂.setup v₂) :
    n₁.affinities v₁ = n₂.affinities v₂ := by
  have hfst := congrArg (fun x => x.1.map fun b => b.2.2.2) h
  simp only [setup, List.map_map] at hfst
  exact hfst

/-- The ports are gone, and the block still goes by them: to socket 1, until it is reset again. -/
theorem not_forgets : ∃ s₁ s₂ t₁ t₂, exec Sys.step (.init 2 4 mainCatalog) newRun = some s₁ ∧
    exec Sys.step (.init 2 4 mainCatalog) usedRun = some s₂ ∧ Alike s₁.nfvi 0 s₂.nfvi 0 ∧
    reset 0 s₁.nfvi = .ret 0 t₁ ∧ reset 0 s₂.nfvi = .ret 0 t₂ ∧
    t₁.affinities 0 = [0] ∧ t₂.affinities 0 = [1] ∧ t₁.setup 0 ≠ t₂.setup 0 ∧ reset 0 t₂ ≠ .ret 0 t₂ := by
  obtain ⟨s₁, hs₁, h₁⟩ := Option.map_eq_some_iff.mp
    (show (exec Sys.step (.init 2 4 mainCatalog) newRun).map (fun s =>
      (shown s, (reset 0 s.nfvi).ret?.map fun x => (x.1, x.2.affinities 0))) =
        some (([.l2fwd], [some 0, some 0]), some (0, [0])) by decide +kernel)
  obtain ⟨s₂, hs₂, h₂⟩ := Option.map_eq_some_iff.mp
    (show (exec Sys.step (.init 2 4 mainCatalog) usedRun).map (fun s =>
      (shown s, (reset 0 s.nfvi).ret?.map fun x => decide (x.1 = 0 ∧ x.2.affinities 0 = [1] ∧
        (reset 0 x.2).ret?.map (fun y => y.2.affinities 0) = some [0]))) =
        some (([.l2fwd], [some 0, some 0]), some true) by decide +kernel)
  simp only [Prod.mk.injEq] at h₁ h₂
  obtain ⟨⟨r₁, t₁⟩, ht₁, heq₁⟩ := Option.map_eq_some_iff.mp h₁.2
  obtain ⟨⟨r₂, t₂⟩, ht₂, heq₂⟩ := Option.map_eq_some_iff.mp h₂.2
  simp only [Prod.mk.injEq, decide_eq_true_eq] at heq₁ heq₂
  obtain ⟨rfl, haff₁⟩ := heq₁
  obtain ⟨rfl, haff₂, hagain⟩ := heq₂
  refine ⟨s₁, s₂, t₁, t₂, hs₁, hs₂, alike_of_shown (h₁.1.trans h₂.1.symm), Outcome.eq_ret_of_ret? ht₁,
    Outcome.eq_ret_of_ret? ht₂, haff₁, haff₂, fun hsetup => ?_, fun hsame => ?_⟩
  · have haff := affinities_of_setup hsetup
    rw [haff₁, haff₂] at haff
    exact absurd haff (by decide)
  · rw [hsame] at hagain
    have haff : t₂.affinities 0 = [0] := Option.some.inj hagain
    rw [haff₂] at haff
    exact absurd haff (by decide)

end Nfvi

end Susanow
