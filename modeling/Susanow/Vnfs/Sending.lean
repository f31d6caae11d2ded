import Susanow.Nfvi.Lockstep
import Susanow.Vnfs.L3fwd

/-! The access ids that an `l3fwd` sends with.

For every packet of a burst the loop takes the id that its vcore holds for the port across,
also when the packet goes back to where it came from. The ids of a vcore are the same at
both ports from a reset on, so it is the one granted for the port that the packet goes to.
The loop makes no use of the table it reads through its reference, and what is said of it here
is said for whatever that read gives, so that nothing rests on the reference. -/
namespace Susanow

namespace Wire
open Proc (Preserves)
variable {α : Type} {P : Act → Prop} {w w' : Wire α}

/-- Every act in the log is a `P`. -/
def Logs (P : Act → Prop) (w : Wire α) : Prop := ∀ a ∈ w.log, P a

theorem Logs.snoc (h : w.Logs P) {a : Act} (ha : P a) (hlog : w'.log = w.log ++ [a]) : w'.Logs P := by
  intro a' ha'
  rw [hlog] at ha'
  rcases List.mem_append.mp ha' with hold | hnew
  · exact h a' hold
  · exact List.mem_singleton.mp hnew ▸ ha

theorem logs_rxBurst {pid aid : Nat} (nb : Nat) (hP : ∀ ms, P (.rx pid aid ms)) :
    Preserves (Logs P) (rxBurst pid aid nb : Proc (Wire α) _) :=
  fun _ => Proc.meets_of_ret rfl fun h => h.snoc (hP _) rfl

theorem logs_txBurst {pid aid : Nat} (ms : List Nat) (hP : ∀ ms, P (.tx pid aid ms)) :
    Preserves (Logs P) (txBurst pid aid ms : Proc (Wire α) _) := by
  intro w
  by_cases hall : ∀ m ∈ ms, m ∈ w.held
  · by_cases htake : (ms.take (w.accepted ms.length)).Subperm w.held
    · exact Proc.meets_of_ret (txBurst_run hall htake) fun h => h.snoc (hP _) rfl
    · exact Proc.meets_of_crash (txBurst_twice hall htake)
  · exact Proc.meets_of_crash (txBurst_crash hall)

theorem logs_pktmbufFree {m : Nat} (hP : P (.free m)) : Preserves (Logs P) (pktmbufFree m : Proc (Wire α) _) := by
  intro w
  by_cases hm : m ∈ w.held
  · exact Proc.meets_of_ret (pktmbufFree_run hm) fun h => h.snoc hP rfl
  · exact Proc.meets_of_crash (pktmbufFree_crash hm)

theorem logs_mbufAt (m : Nat) : Preserves (Logs P) (mbufAt m : Proc (Wire α) _) := by
  refine Proc.within_bind Proc.within_get fun w => Proc.within_ite ?_ (Proc.within_crash _)
  split
  · exact Proc.within_crash _
  · exact Proc.within_pure _

theorem logs_modifyMbuf (m : Nat) (f : α → α) : Preserves (Logs P) (modifyMbuf m f : Proc (Wire α) _) :=
  Proc.within_bind (logs_mbufAt m) fun _ => Proc.within_modify fun _ h => h

theorem logs_at? (ms : List Nat) (i : Nat) : Preserves (Logs P) (at? ms i : Proc (Wire α) _) := by
  unfold at?
  split
  · exact Proc.within_crash _
  · exact Proc.within_pure _

end Wire

namespace L3fwd
open Proc (Preserves)
open Wire

/-- The access id that vcore `i` was granted for each of the two ports, and no other vcore for either. -/
structure Lanes (b : Block) : Prop where
  same : ∀ i < b.vcores.length, ∃ aid, ∀ pid < 2, b.getLcorePortTxaid i pid = some aid
  own : ∀ i < b.vcores.length, ∀ j < b.vcores.length, ∀ pid < 2,
    b.getLcorePortTxaid i pid = b.getLcorePortTxaid j pid → i = j

/-- If the act is a transmission, it goes to one of the ports, with the id of vcore `i` there. -/
def SentBy (b : Block) (i : Nat) (a : Act) : Prop :=
  ∀ dst aid ms, a = .tx dst aid ms → dst < 2 ∧ b.getLcorePortTxaid i dst = some aid

/-- What the worker on the core may leave of a wire it finds untouched, whatever it reads through its
reference to the tables. -/
def Leaves (b : Block) (lcoreId : Nat) (w : Wire Packet) : Prop :=
  ∃ isIpv4Hdr lpmStruct sockid arrivals outcomes rounds,
    (deployImpl isIpv4Hdr lpmStruct sockid b 2 lcoreId rounds
      {arrivals := arrivals, outcomes := outcomes}).state? = some w

/-- The workers of the block send with the ids granted them. -/
structure SendsGranted (b : Block) : Prop where
  -- what the loop takes for a packet, and what was granted where it goes
  granted : ∀ i < b.vcores.length, ∀ pid < 2, ∀ x : Packet, ∃ aid,
    b.getLcorePortTxaid i (pid ^^^ 1) = some aid ∧ b.getLcorePortTxaid i (dstPort pid x) = some aid
  sends : ∀ lcoreId i w, b.getVlcoreId lcoreId = some i → Leaves b lcoreId w →
    ∀ dst aid ms, .tx dst aid ms ∈ w.log → b.getLcorePortTxaid i dst = some aid
  apart : ∀ k l w w', k ≠ l → Leaves b k w → Leaves b l w' →
    ∀ dst aid ms ms', .tx dst aid ms ∈ w.log → .tx dst aid ms' ∉ w'.log

variable {b : Block} {i : Nat}

theorem xor_one_lt_two {pid : Nat} (hpid : pid < 2) : pid ^^^ 1 < 2 := by
  obtain rfl | rfl : pid = 0 ∨ pid = 1 := by omega
  · decide
  · decide

variable {isIpv4Hdr : BitVec 32 → Bool} {lpmStruct : Option (List Nat)} {sockid : Nat}

theorem logs_lpmAt {P : Act → Prop} : Preserves (Logs P) (lpmAt lpmStruct sockid) := by
  unfold lpmAt
  split
  · exact Proc.within_crash _
  · split
    · exact Proc.within_crash _
    · exact Proc.within_pure _

theorem logs_forwardAt {pid txaid : Nat} (mbufs : List Nat) (k : Nat)
    (hsent : ∀ x : Packet, dstPort pid x < 2 ∧ b.getLcorePortTxaid i (dstPort pid x) = some txaid) :
    Preserves (Logs (SentBy b i)) (forwardAt isIpv4Hdr lpmStruct sockid pid txaid mbufs k) := by
  have hfree (m : Nat) : SentBy b i (.free m) := fun _ _ _ h => by cases h
  refine Proc.within_bind (logs_at? _ _) fun m => Proc.within_bind (logs_mbufAt m) fun x => ?_
  refine Proc.within_bind (Proc.within_ite (logs_pktmbufFree (hfree m)) (Proc.within_pure _)) fun _ => ?_
  refine Proc.within_bind logs_lpmAt fun _ => Proc.within_bind (logs_mbufAt m) fun ih => ?_
  refine Proc.within_bind (logs_modifyMbuf m _) fun _ => ?_
  refine Proc.within_bind (logs_txBurst _ fun ms dst aid ms' heq => ?_) fun _ =>
    Proc.within_ite (logs_pktmbufFree (hfree m)) (Proc.within_pure _)
  cases heq
  exact hsent ih

/-- One port of a round. -/
theorem logs_serve (h : Lanes b) {pid : Nat} (hpid : pid < 2) (hi : i < b.vcores.length) :
    Preserves (Logs (SentBy b i)) (serve (forwardBurst isIpv4Hdr lpmStruct sockid) b i pid) := by
  obtain ⟨aid, haid⟩ := h.same i hi
  have hburst (mbufs : List Nat) :
      Preserves (Logs (SentBy b i)) (forwardBurst isIpv4Hdr lpmStruct sockid pid aid mbufs) :=
    Proc.within_forRange fun k => logs_forwardAt mbufs k fun x =>
      ⟨dstPort_lt_two hpid x, haid _ (dstPort_lt_two hpid x)⟩
  unfold serve
  rw [haid (pid ^^^ 1) (xor_one_lt_two hpid)]
  refine Proc.within_bind (preserves_orThrow _ _) fun rxaid => ?_
  have hrx (ms : List Nat) : SentBy b i (.rx pid rxaid ms) := fun _ _ _ h => by cases h
  have hserved : Preserves (Logs (SentBy b i)) (rxBurst pid rxaid 32 >>= fun mbufs =>
      if mbufs.length = 0 then pure () else forwardBurst isIpv4Hdr lpmStruct sockid pid aid mbufs) :=
    Proc.within_bind (logs_rxBurst 32 hrx) fun mbufs => Proc.within_ite (Proc.within_pure _) (hburst mbufs)
  exact fun w => hserved w

variable (isIpv4Hdr lpmStruct sockid) in
theorem logs_deployImpl (h : Lanes b) {lcoreId : Nat} (hid : b.getVlcoreId lcoreId = some i) (rounds : Nat) :
    Preserves (Logs (SentBy b i)) (deployImpl isIpv4Hdr lpmStruct sockid b 2 lcoreId rounds) := by
  have hi : i < b.vcores.length := (List.findIdx?_eq_some_iff_getElem.mp hid).1
  have hloop : Preserves (Logs (SentBy b i)) (Proc.forRange (fun _ =>
      Proc.forRange (fun pid => serve (forwardBurst isIpv4Hdr lpmStruct sockid) b i pid) 2) rounds) :=
    Proc.within_forRange fun _ => Proc.within_forRange_lt fun pid hpid => logs_serve h hpid hi
  intro w
  rw [deployImpl, pollEveryPort, hid]
  exact hloop w

/-- What a worker leaves of a wire that was untouched when it came. -/
theorem sentBy_of_leaves (h : Lanes b) {lcoreId : Nat} {w : Wire Packet} (hw : Leaves b lcoreId w) {dst aid : Nat}
    {ms : List Nat} (hmem : .tx dst aid ms ∈ w.log) :
    ∃ i, b.getVlcoreId lcoreId = some i ∧ dst < 2 ∧ b.getLcorePortTxaid i dst = some aid := by
  obtain ⟨isIpv4Hdr, lpmStruct, sockid, arrivals, outcomes, rounds, hrun⟩ := hw
  cases hid : b.getVlcoreId lcoreId with
  | none =>
    -- `get_vlcore_id` throws
    rw [deployImpl, pollEveryPort, hid] at hrun
    cases hrun
    cases hmem
  | some i =>
    have hlogs := logs_deployImpl isIpv4Hdr lpmStruct sockid h hid rounds {arrivals := arrivals, outcomes := outcomes}
    have hstart : Logs (SentBy b i) ({arrivals := arrivals, outcomes := outcomes} : Wire Packet) :=
      fun a ha => absurd ha List.not_mem_nil
    exact ⟨i, rfl, hlogs.state? hrun hstart _ hmem dst aid ms rfl⟩

theorem SendsGranted.of_lanes (h : Lanes b) : SendsGranted b where
  granted i hi pid hpid x := by
    obtain ⟨aid, haid⟩ := h.same i hi
    exact ⟨aid, haid _ (xor_one_lt_two hpid), haid _ (dstPort_lt_two hpid x)⟩
  sends lcoreId i w hid hw dst aid ms hmem := by
    obtain ⟨j, hj, -, haid⟩ := sentBy_of_leaves h hw hmem
    cases hid.symm.trans hj
    exact haid
  apart k l w w' hne hw hw' dst aid ms ms' hmem hmem' := by
    obtain ⟨i, hi, hdst, haid⟩ := sentBy_of_leaves h hw hmem
    obtain ⟨j, hj, -, haid'⟩ := sentBy_of_leaves h hw' hmem'
    obtain ⟨hilt, hik, -⟩ := List.findIdx?_eq_some_iff_getElem.mp hi
    obtain ⟨hjlt, hjl, -⟩ := List.findIdx?_eq_some_iff_getElem.mp hj
    obtain rfl := h.own i hilt j hjlt dst hdst (haid.trans haid'.symm)
    exact hne ((beq_iff_eq.mp hik).symm.trans (beq_iff_eq.mp hjl))

/-! ### Until a slot changes -/

/-- An `l3fwd` whose ids are in order has its block's two ports in lanes. -/
theorem lanes_of_ordered {n : Nfvi} {v : Nat} (h : n.Ordered v ([.l3fwd], 2)) :
    ∃ b, (n.vnf v).blocks = [b] ∧ b.cls = .l3fwd ∧ Lanes b := by
  have hshape := h.shaped
  simp only [Nfvi.shape, Prod.mk.injEq, List.map_eq_singleton_iff] at hshape
  obtain ⟨⟨b, hblocks, hcls⟩, hnPorts⟩ := hshape
  have hblock : n.block? v 0 = some b := by
    rw [Nfvi.block?, hblocks]
    rfl
  have haid (pid i : Nat) : n.aid true v pid (0, i) = b.getLcorePortTxaid i pid := by
    rw [Nfvi.aid, hblock]
    rfl
  have hwork {i : Nat} (hi : i < b.vcores.length) (pid : Nat) : (0, i) ∈ n.workers v true pid :=
    ⟨b, hblock, .inl rfl, hi⟩
  refine ⟨b, hblocks, hcls, fun i hi => ?_, fun i hi j hj pid hpid heq => ?_⟩
  · obtain ⟨c, htickets, -⟩ := h.holding true 0 (hnPorts ▸ Nat.two_pos)
    obtain ⟨aid, -, haid₀⟩ := htickets.range (hwork hi 0)
    refine ⟨aid, fun pid hpid => ?_⟩
    rw [← haid, h.inStep.ids (0, i) pid (hnPorts ▸ hpid) 0 (hnPorts ▸ Nat.two_pos), haid₀]
  · obtain ⟨c, htickets, -⟩ := h.holding true pid (hnPorts ▸ hpid)
    have hsame := htickets.inj (hwork hi pid) (hwork hj pid) (by rw [haid, haid, heq])
    exact (Prod.mk.inj hsame).2

/-- **The workers of an `l3fwd` send with the ids granted them**, from a reset on and until a slot changes. -/
theorem sends_granted_of_run {nSocket nLcore v : Nat} {catalog : List (String × VnfClass)} {ls ms : List Label}
    {s t u : Sys} (h : Runs Sys.step Always (.init nSocket nLcore catalog) ls s)
    (hvnf : s.nfvi.shape v = ([.l3fwd], 2)) (hreset : ResetDone v s t)
    (hrun : Runs Sys.step (fun s l => ¬s.Plugs v l) t ms u) :
    ∃ b, (u.nfvi.vnf v).blocks = [b] ∧ b.cls = .l3fwd ∧ SendsGranted b := by
  have hslots : 0 < (s.nfvi.vnf v).nPorts := by
    have hnPorts : (s.nfvi.vnf v).nPorts = 2 := congrArg Prod.snd hvnf
    omega
  have hordered := Sys.ordered_of_run h hslots hreset hrun
  rw [hvnf] at hordered
  obtain ⟨b, hblocks, hcls, hlanes⟩ := lanes_of_ordered hordered
  exact ⟨b, hblocks, hcls, .of_lanes hlanes⟩

/-- A reset `l3fwd` gets two cores, and is deployed. -/
def l3fwdRun : List Label :=
  [.request (.coremaskPut "v" 0 (some 0xc)), .request (.deployPut "v"), .ctl, .ctl, .ctl, .ctl, .wrk 2, .wrk 3]

theorem sends_granted_of_l3fwdRun : ∃ s t u, ResetDone 0 s t ∧ exec Sys.step t l3fwdRun = some u ∧
    ∃ b, (u.nfvi.vnf 0).blocks = [b] ∧ b.cls = .l3fwd ∧ SendsGranted b := by
  have hrun : ((exec Sys.step (.init 1 8 mainCatalog) (bringUp "l3fwd")).bind fun s =>
      (s.step (.request (.resetPut "v"))).bind fun t => (exec Sys.step t l3fwdRun).map fun u =>
        (s.nfvi.findVnf "v", s.nfvi.shape 0, t.ctrl, obeys Sys.step (fun s l => ¬s.Plugs 0 l) t l3fwdRun)) =
      some (some 0, ([.l3fwd], 2), .idle (some (.reply ⟨true, "reset vnf's running config"⟩)), true) := by
    decide +kernel
  obtain ⟨s, hs, hrun⟩ := Option.bind_eq_some_iff.mp hrun
  obtain ⟨t, hstep, hrun⟩ := Option.bind_eq_some_iff.mp hrun
  obtain ⟨u, hu, heq⟩ := Option.map_eq_some_iff.mp hrun
  simp only [Prod.mk.injEq] at heq
  obtain ⟨hv, hshape, hctrl, hobeys⟩ := heq
  have hreset : ResetDone 0 s t := .put hv hstep hctrl
  exact ⟨s, t, u, hreset, hu, sends_granted_of_run (Runs.of_exec hs) hshape hreset (Runs.of_obeys hobeys hu)⟩

end L3fwd

end Susanow
