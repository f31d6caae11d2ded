import Susanow.Base.Leading
import Susanow.Nfvi.Access

/-! What a reset does, in full.

Before it zeroes a block's mask, `reset` gives the block a vcore that asks the ports for its
accesses. The block counts those to receive by socket, over whatever it has counted before,
and the socket that leads becomes its affinity. A reset that succeeds ends in `afterReset`;
it does so just when every slot has a port and the block has a counter for every socket it
asks (`Resettable`). -/
namespace Susanow

/-- The block without what a reset writes. -/
def Block.unset (b : Block) : Block :=
  {b with tids := [], vcores := [], coremask := 0, socketAffinity := [], affinity := 0}

namespace Nfvi
open Proc (ReturnsIff returnsIff_bind_ret returnsIff_of_ret)

/-- The socket of the port in a slot. -/
def socketAt (n : Nfvi) (v pid : Nat) : Option Nat :=
  (n.vnf v).ports[pid]?.join.map fun p => (n.port p).getSocketId

/-- How many of the first `k` ports the block receives from are on socket `j`. -/
def asked (n : Nfvi) (v : Nat) (b : Block) (k j : Nat) : Nat :=
  (List.range k).countP fun pid => b.receives pid && n.socketAt v pid == some j

/-- The counters of the block's sockets once it has asked the first `k` ports. -/
def tally (n : Nfvi) (v : Nat) (b : Block) (k : Nat) : List Nat :=
  b.socketAffinity.mapIdx fun j c => c + n.asked v b k j

def probed (n : Nfvi) (v : Nat) (b : Block) : List Nat := n.tally v b (n.vnf v).nPorts

/-- A block as a reset leaves it. -/
def settle (n : Nfvi) (v : Nat) (b : Block) : Block :=
  {b with tids := [], vcores := [], coremask := 0, affinity := (getSocketAffinityImpl (n.probed v b)).getD 0,
          socketAffinity := List.replicate b.socketAffinity.length 0}

local instance slotLawful : LawfulBEq (Option Nat) := inferInstance

/-- The counters of the ports of `v` are zero, and its blocks are as `f` has them. -/
def restart (n : Nfvi) (v : Nat) (f : Block → Block) : Nfvi :=
  {n with vnf := Function.update n.vnf v {n.vnf v with blocks := (n.vnf v).blocks.map f},
          port := fun p => if some p ∈ (n.vnf v).ports then (n.port p).resetAcc else n.port p}

def afterReset (n : Nfvi) (v : Nat) : Nfvi := n.restart v (n.settle v)

/-- What a reset of `v` does not write. -/
def unset (n : Nfvi) (v : Nat) : Nfvi := n.restart v Block.unset

/-- The slot has a port that is there. -/
def Reaches (n : Nfvi) (v pid : Nat) : Prop := ∃ p, (n.vnf v).ports[pid]? = some (some p) ∧ p ∈ n.ports

/-- A block gets the accesses it asks for. -/
structure Probes (n : Nfvi) (v : Nat) (b : Block) : Prop where
  polls : ∀ portId, b.cls = .l2fwdPort portId → portId < (n.vnf v).nPorts
  reaches : ∀ pid < (n.vnf v).nPorts, n.Reaches v pid
  counts : ∀ pid < (n.vnf v).nPorts, b.receives pid = true → ∀ sid ∈ n.socketAt v pid, sid < b.socketAffinity.length

structure Resettable (n : Nfvi) (v : Nat) : Prop where
  probes : ∀ b ∈ (n.vnf v).blocks, n.Probes v b
  sockets : ∀ b ∈ (n.vnf v).blocks, b.socketAffinity ≠ []
  reaches : ∀ pid < (n.vnf v).nPorts, n.Reaches v pid

/-! ### What a reset keeps -/

section Unset
variable {n n' : Nfvi} {v bid : Nat}

theorem vnfs_of_unset (h : n'.unset v = n.unset v) : n'.vnfs = n.vnfs := by
  have hvnfs : (n'.unset v).vnfs = (n.unset v).vnfs := by rw [h]
  exact hvnfs

theorem ports_of_unset (h : n'.unset v = n.unset v) : (n'.vnf v).ports = (n.vnf v).ports := by
  simpa [unset, restart] using congrArg (fun m => (m.vnf v).ports) h

theorem port_of_unset (h : n'.unset v = n.unset v) (p : Nat) :
    (if some p ∈ (n.vnf v).ports then (n'.port p).resetAcc else n'.port p) =
      if some p ∈ (n.vnf v).ports then (n.port p).resetAcc else n.port p := by
  have hport := congrFun (congrArg Nfvi.port h) p
  simp only [unset, restart] at hport
  rwa [ports_of_unset h] at hport

theorem getSocketId_of_unset (h : n'.unset v = n.unset v) (p : Nat) :
    (n'.port p).getSocketId = (n.port p).getSocketId := by
  have hport := congrArg VnfPort.getSocketId (port_of_unset h p)
  split_ifs at hport <;> exact hport

theorem socketAt_of_unset (h : n'.unset v = n.unset v) (pid : Nat) : n'.socketAt v pid = n.socketAt v pid := by
  unfold socketAt
  rw [ports_of_unset h]
  exact congrArg (Option.map · _) (funext (getSocketId_of_unset h))

theorem reaches_of_unset (h : n'.unset v = n.unset v) (pid : Nat) : n'.Reaches v pid ↔ n.Reaches v pid := by
  have hlive : (n'.unset v).ports = (n.unset v).ports := by rw [h]
  unfold Reaches
  rw [ports_of_unset h, show n'.ports = n.ports from hlive]

/-- What a change to one block keeps of it, it keeps of all. -/
theorem map_blocks_modify {β : Type} {g : Block → β} {f : Block → Block} (hf : ∀ b, g (f b) = g b)
    (blocks : List Block) (bid : Nat) : (blocks.modify bid f).map g = blocks.map g := by
  apply List.ext_getElem?
  intro k
  rw [List.getElem?_map, List.getElem?_modify, List.getElem?_map]
  cases blocks[k]? with
  | none => rfl
  | some b =>
    simp only [Option.map_eq_map, Option.map_some]
    split_ifs
    · rw [hf]
    · rfl

theorem unset_editBlock {f : Block → Block} (hf : ∀ b, (f b).unset = b.unset) :
    (n.editBlock v bid f).unset v = n.unset v := by
  have hblocks : ((n.vnf v).blocks.modify bid f).map Block.unset = (n.vnf v).blocks.map Block.unset :=
    map_blocks_modify hf _ _
  simp [unset, restart, editBlock, editVnf, hblocks]

theorem unset_editPort {p : Nat} {f : VnfPort → VnfPort} (hp : some p ∈ (n.vnf v).ports)
    (hf : ∀ x, (f x).resetAcc = x.resetAcc) : (n.editPort p f).unset v = n.unset v := by
  have hport : (fun q => if some q ∈ (n.vnf v).ports then (Function.update n.port p (f (n.port p)) q).resetAcc
      else Function.update n.port p (f (n.port p)) q) =
      fun q => if some q ∈ (n.vnf v).ports then (n.port q).resetAcc else n.port q := by
    funext q
    by_cases hq : q = p
    · subst hq
      simp [hp, hf]
    · simp [hq]
  simp only [unset, restart, editPort, Nfvi.mk.injEq, true_and, and_true]
  exact hport

/-- What a reset writes is all that `unset` leaves open. -/
theorem eq_restart {f : Block → Block} (h : n'.unset v = n.unset v)
    (hblocks : (n'.vnf v).blocks = (n.vnf v).blocks.map f)
    (hzero : ∀ p, some p ∈ (n.vnf v).ports → (n'.port p).resetAcc = n'.port p) : n' = n.restart v f := by
  have hvnf : n'.vnf = (n.restart v f).vnf := by
    funext w
    have hw := congrFun (congrArg Nfvi.vnf h) w
    by_cases hwv : w = v
    · subst hwv
      simp only [unset, restart, Function.update_self] at hw ⊢
      rw [Vnf.mk.injEq] at hw
      rw [← hw.1, ← hw.2.1, ← hblocks]
    · simpa [unset, restart, hwv] using hw
  have hport : n'.port = (n.restart v f).port := by
    funext p
    have hp := port_of_unset h p
    simp only [restart]
    split_ifs at hp ⊢ with hslot
    · rw [← hp, hzero p hslot]
    · exact hp
  cases n'
  simp only [unset, restart, Nfvi.mk.injEq] at h hvnf hport ⊢
  exact ⟨h.1, h.2.1, h.2.2.1, h.2.2.2.1, h.2.2.2.2.1, hvnf, hport, h.2.2.2.2.2.2.2.1, h.2.2.2.2.2.2.2.2.1,
    h.2.2.2.2.2.2.2.2.2⟩

end Unset

/-! ### Counting by socket -/

section Tally
variable {n : Nfvi} {v k sid : Nat} {b : Block}

theorem asked_succ (n : Nfvi) (v : Nat) (b : Block) (k j : Nat) :
    n.asked v b (k + 1) j = n.asked v b k j + if b.receives k && n.socketAt v k == some j then 1 else 0 := by
  simp [asked, List.range_succ, List.countP_cons]

theorem length_tally : (n.tally v b k).length = b.socketAffinity.length := List.length_mapIdx

theorem tally_zero : n.tally v b 0 = b.socketAffinity := by
  apply List.ext_getElem?
  intro j
  simp [tally, asked]

theorem tally_skip (h : b.receives k = false) : n.tally v b (k + 1) = n.tally v b k := by
  simp [tally, asked_succ, h]

theorem tally_ask (h : b.receives k = true) (hsid : n.socketAt v k = some sid) :
    n.tally v b (k + 1) = (n.tally v b k).modify sid (· + 1) := by
  apply List.ext_getElem?
  intro j
  rw [tally, List.getElem?_mapIdx, List.getElem?_modify, tally, List.getElem?_mapIdx]
  cases b.socketAffinity[j]? with
  | none => rfl
  | some c =>
    by_cases hj : sid = j
    · simp [asked_succ, h, hsid, hj, Nat.add_assoc]
    · simp [asked_succ, hsid, hj]

/-- A block that polls one port counts that one. -/
theorem tally_one {portId : Nat} (hcls : b.cls = .l2fwdPort portId) (hsid : n.socketAt v portId = some sid)
    (hk : portId < k) : n.tally v b k = b.socketAffinity.modify sid (· + 1) := by
  have hreceives (pid : Nat) : b.receives pid = (portId == pid) := by
    simp only [Block.receives, hcls]
  have hbefore (j : Nat) (hj : j ≤ portId) : n.tally v b j = b.socketAffinity := by
    induction j with
    | zero => exact tally_zero
    | succ j ih => rw [tally_skip (by simp [hreceives]; omega), ih (Nat.le_of_succ_le hj)]
  induction hk with
  | refl => rw [tally_ask (by simp [hreceives]) hsid, hbefore portId le_rfl]
  | @step m hm ih =>
    have hm : portId < m := hm
    rw [tally_skip (by simp [hreceives]; omega), ih]

end Tally

/-! ### The probe -/

/-- The blocks when those before `k` have been reset. -/
def upto (n : Nfvi) (v k j : Nat) : Option Block :=
  if j < k then (n.block? v j).map (n.settle v) else n.block? v j

/-- Block `bid` has one vcore, and its counters have come to `sa`. -/
structure Probing (n : Nfvi) (v bid : Nat) (sa : List Nat) (n' : Nfvi) : Prop where
  unset : n'.unset v = n.unset v
  other : ∀ j ≠ bid, n'.block? v j = n.upto v bid j
  own : ∃ b, n'.block? v bid = some b ∧ b.vcores.map Vcore.form = [(0, (n.vnf v).nPorts, (n.vnf v).nPorts)] ∧
    b.socketAffinity = sa

section Probe
variable {n n' : Nfvi} {v bid pid p sid : Nat} {sa sa' : List Nat} {b : Block}

theorem slotAt_of_mem (hv : v ∈ n.vnfs) (hslot : (n.vnf v).ports[pid]? = some (some p)) :
    slotAt v pid n = .ret p n := by
  rw [slotAt, Proc.bind_ret (vnfAt_of_mem hv), hslot]
  rfl

theorem blockAt_of_mem (hv : v ∈ n.vnfs) (hb : n.block? v bid = some b) : blockAt v bid n = .ret b n := by
  rw [blockAt, Proc.bind_ret (vnfAt_of_mem hv), show (n.vnf v).blocks[bid]? = some b from hb]
  rfl

/-- An access goes by the slot and its port, whatever comes then. -/
theorem reaches_stuck {α : Type} (hno : ¬n.Reaches v pid) (f : Nat → VnfPort → Proc Nfvi α) :
    Proc.Stuck (slotAt v pid >>= fun p => portAt p >>= f p) n := by
  apply Proc.stuck_bind
  intro p n₁ hslot
  obtain ⟨rfl, hslot⟩ := slotAt_ret hslot
  have hp : p ∉ n₁.ports := fun hp => hno ⟨p, hslot, hp⟩
  intro a n₂ hrun
  rw [Proc.bind_crash (portAt_of_not_mem hp)] at hrun
  cases hrun

theorem Probing.editBlock {f : Block → Block} (h : Probing n v bid sa n') (hb : n'.block? v bid = some b)
    (hf : ∀ c, (f c).unset = c.unset)
    (hform : (f b).vcores.map Vcore.form = [(0, (n.vnf v).nPorts, (n.vnf v).nPorts)])
    (hsa : (f b).socketAffinity = sa') : Probing n v bid sa' (n'.editBlock v bid f) := by
  refine ⟨(unset_editBlock hf).trans h.unset, fun j hj => ?_, f b, ?_, hform, hsa⟩
  · rw [block?_editBlock, if_neg fun hown => hj hown.2, h.other j hj]
  · rw [block?_editBlock, if_pos ⟨rfl, rfl⟩, hb, Option.map_some]

theorem Probing.editPort {f : VnfPort → VnfPort} (h : Probing n v bid sa n') (hp : some p ∈ (n.vnf v).ports)
    (hf : ∀ x, (f x).resetAcc = x.resetAcc) : Probing n v bid sa (n'.editPort p f) :=
  ⟨(unset_editPort (ports_of_unset h.unset ▸ hp) hf).trans h.unset, h.other, h.own⟩

/-- The vcore stores an id. -/
theorem Probing.store {a : Nat} {vc : Vcore} (h : Probing n v bid sa n') (tx : Bool) (hb : n'.block? v bid = some b)
    (hvc : b.vcores[0]? = some vc) :
    Probing n v bid sa (n'.editBlock v bid fun b => {b with vcores := b.vcores.set 0 (vc.store tx pid a)}) := by
  obtain ⟨c, hc, hform, hsa⟩ := h.own
  cases hb.symm.trans hc
  refine h.editBlock hb (fun _ => rfl) ?_ hsa
  rw [List.map_set, Vcore.form_store, set_map_of_getElem? hvc, hform]

theorem Probing.vcore (h : Probing n v bid sa n') : ∃ b vc, n'.block? v bid = some b ∧ b.socketAffinity = sa ∧
    b.vcores[0]? = some vc ∧ vc.portRxAcc.length = (n.vnf v).nPorts ∧ vc.portTxAcc.length = (n.vnf v).nPorts := by
  obtain ⟨b, hb, hform, hsa⟩ := h.own
  obtain ⟨vc, hvcores, hvc⟩ := List.map_eq_singleton_iff.mp hform
  simp only [Vcore.form, Prod.mk.injEq] at hvc
  exact ⟨b, vc, hb, hsa, by rw [hvcores]; rfl, hvc.2.1, hvc.2.2⟩

theorem Probing.setTxaid (h : Probing n v bid sa n') (hv : v ∈ n.vnfs) (hpid : pid < (n.vnf v).nPorts) (aid : Nat) :
    ReturnsIff (setLcorePortTxaid v bid 0 pid aid) n' True fun _ => Probing n v bid sa := by
  obtain ⟨b, vc, hb, -, hvc, -, hlen⟩ := h.vcore
  have hvcore : vcoreAt v bid 0 n' = .ret vc n' := by
    rw [vcoreAt, Proc.bind_ret (blockAt_of_mem (vnfs_of_unset h.unset ▸ hv) hb), hvc]
    rfl
  refine returnsIff_bind_ret hvcore ?_
  rw [if_pos (hlen ▸ hpid)]
  exact returnsIff_of_ret rfl (h.store true hb hvc)

theorem Probing.setRxaid (h : Probing n v bid sa n') (hv : v ∈ n.vnfs) (hpid : pid < (n.vnf v).nPorts) (aid : Nat) :
    ReturnsIff (setLcorePortRxaid v bid 0 pid aid) n' True fun _ => Probing n v bid sa := by
  obtain ⟨b, vc, hb, -, hvc, hlen, -⟩ := h.vcore
  have hvcore : vcoreAt v bid 0 n' = .ret vc n' := by
    rw [vcoreAt, Proc.bind_ret (blockAt_of_mem (vnfs_of_unset h.unset ▸ hv) hb), hvc]
    rfl
  refine returnsIff_bind_ret hvcore ?_
  rw [if_pos (hlen ▸ hpid)]
  exact returnsIff_of_ret rfl (h.store false hb hvc)

theorem Probing.requestTx (h : Probing n v bid sa n') (hv : v ∈ n.vnfs) (pid : Nat) :
    ReturnsIff (portRequestTxAccess v pid) n' (n.Reaches v pid) fun _ => Probing n v bid sa := by
  by_cases hreach : n'.Reaches v pid
  · obtain ⟨p, hslot, hp⟩ := hreach
    have hp' : some p ∈ (n.vnf v).ports := ports_of_unset h.unset ▸ List.mem_of_getElem? hslot
    have hrun : ReturnsIff (portRequestTxAccess v pid) n' True fun _ => Probing n v bid sa := by
      refine returnsIff_bind_ret (slotAt_of_mem (vnfs_of_unset h.unset ▸ hv) hslot) ?_
      refine returnsIff_bind_ret (portAt_of_mem hp) ?_
      exact returnsIff_of_ret rfl (h.editPort hp' fun _ => rfl)
    exact hrun.congr (iff_of_true trivial ((reaches_of_unset h.unset pid).mp ⟨p, hslot, hp⟩))
  · exact ⟨fun hF => absurd ((reaches_of_unset h.unset pid).mpr hF) hreach, fun _ => reaches_stuck hreach _⟩

/-- The counter of the port's socket is found, or the call ends there. -/
theorem Probing.requestRx (h : Probing n v bid sa n') (hv : v ∈ n.vnfs) (pid : Nat) :
    ReturnsIff (portRequestRxAccess v bid pid) n' (n.Reaches v pid ∧ ∀ sid ∈ n.socketAt v pid, sid < sa.length)
      fun _ n'' => ∃ sid, n.socketAt v pid = some sid ∧ Probing n v bid (sa.modify sid (· + 1)) n'' := by
  have hv' : v ∈ n'.vnfs := vnfs_of_unset h.unset ▸ hv
  by_cases hreach : n'.Reaches v pid
  · obtain ⟨p, hslot, hp⟩ := hreach
    obtain ⟨b, hb, hform, hsa⟩ := h.own
    have hp' : some p ∈ (n.vnf v).ports := ports_of_unset h.unset ▸ List.mem_of_getElem? hslot
    have hsid : n.socketAt v pid = some (n'.port p).getSocketId := by
      rw [← socketAt_of_unset h.unset, socketAt, hslot]
      rfl
    have hrun : ReturnsIff (portRequestRxAccess v bid pid) n' ((n'.port p).getSocketId < sa.length) fun _ n'' =>
        ∃ sid, n.socketAt v pid = some sid ∧ Probing n v bid (sa.modify sid (· + 1)) n'' := by
      refine returnsIff_bind_ret (slotAt_of_mem hv' hslot) (returnsIff_bind_ret (portAt_of_mem hp) ?_)
      refine returnsIff_bind_ret (blockAt_of_mem hv' hb) ?_
      rw [hsa]
      split_ifs with hlt
      · have hcount : Probing n v bid (sa.modify (n'.port p).getSocketId (· + 1)) _ := h.editBlock
          (f := fun b => {b with socketAffinity := b.socketAffinity.modify (n'.port p).getSocketId (· + 1)})
          hb (fun _ => rfl) hform (by rw [hsa])
        have hcounted := hcount.editPort (f := VnfPort.requestRxAccess) hp' fun _ => rfl
        exact ReturnsIff.congr (F := True) (returnsIff_of_ret rfl ⟨_, hsid, hcounted⟩) (iff_of_true trivial hlt)
      · exact ⟨fun hF => absurd hF hlt, fun _ _ _ hret => by cases hret⟩
    refine hrun.congr ⟨fun hlt => ⟨(reaches_of_unset h.unset pid).mp ⟨p, hslot, hp⟩, fun sid hmem => ?_⟩,
      fun hF => hF.2 _ hsid⟩
    rw [hsid] at hmem
    cases hmem
    exact hlt
  · exact ⟨fun hF => absurd ((reaches_of_unset h.unset pid).mpr hF.1) hreach, fun _ => reaches_stuck hreach _⟩

theorem Probing.grantTx (h : Probing n v bid sa n') (hv : v ∈ n.vnfs) (hpid : pid < (n.vnf v).nPorts) :
    ReturnsIff (Nfvi.grantTx v bid 0 pid) n' (n.Reaches v pid) fun _ => Probing n v bid sa :=
  ((h.requestTx hv pid).bind fun a _ ht => ht.setTxaid hv hpid a).congr (and_iff_left trivial)

theorem Probing.grantRx (h : Probing n v bid sa n') (hv : v ∈ n.vnfs) (hpid : pid < (n.vnf v).nPorts) :
    ReturnsIff (Nfvi.grantRx v bid 0 pid) n' (n.Reaches v pid ∧ ∀ sid ∈ n.socketAt v pid, sid < sa.length)
      fun _ n'' => ∃ sid, n.socketAt v pid = some sid ∧ Probing n v bid (sa.modify sid (· + 1)) n'' := by
  refine ((h.requestRx hv pid).bind (G := True) fun a t ⟨sid, hsid, ht⟩ => ?_).congr (and_iff_left trivial)
  exact (ht.setRxaid hv hpid a).weaken fun _ _ hp => ⟨sid, hsid, hp⟩

theorem Probing.requestAllPorts (h : Probing n v bid b.socketAffinity n') (hv : v ∈ n.vnfs)
    (hall : ∀ pid, b.receives pid = true) :
    ReturnsIff (Nfvi.requestAllPorts v bid (n.vnf v).nPorts 1) n' (∀ pid < (n.vnf v).nPorts, n.Reaches v pid ∧
      ∀ sid ∈ n.socketAt v pid, sid < b.socketAffinity.length) fun _ => Probing n v bid (n.probed v b) := by
  refine returnsIff_bind_ret (t := n') rfl ?_
  refine Proc.returnsIff_forRange (fun k => Probing n v bid (n.tally v b k)) _ (tally_zero.symm ▸ h) fun k hk t ht => ?_
  have hgrants := (ht.grantRx hv hk).bind (G := n.Reaches v k) (R := fun _ => Probing n v bid (n.tally v b (k + 1)))
    fun _ t' ⟨sid, hsid, ht'⟩ => by
      rw [tally_ask (hall k) hsid]
      exact ht'.grantTx hv hk
  rw [length_tally] at hgrants
  exact hgrants.congr ⟨fun hF => hF.1, fun hF => ⟨hF, hF.1⟩⟩

theorem Probing.requestOnePort {portId : Nat} (h : Probing n v bid b.socketAffinity n') (hv : v ∈ n.vnfs)
    (hcls : b.cls = .l2fwdPort portId) (hport : portId < (n.vnf v).nPorts) :
    ReturnsIff (Nfvi.requestOnePort v bid portId (n.vnf v).nPorts 1) n'
      ((n.Reaches v portId ∧ ∀ sid ∈ n.socketAt v portId, sid < b.socketAffinity.length) ∧
        ∀ pid < (n.vnf v).nPorts, n.Reaches v pid) fun _ => Probing n v bid (n.probed v b) := by
  refine returnsIff_bind_ret (t := n') rfl ((h.grantRx hv hport).bind fun _ t ⟨sid, hsid, ht⟩ => ?_)
  rw [probed, tally_one hcls hsid hport]
  exact Proc.returnsIff_forRange (fun _ => Probing n v bid (b.socketAffinity.modify sid (· + 1))) _ ht
    fun k hk t' ht' => ht'.grantTx hv hk

theorem probes_iff_of_all (hcls : ∀ portId, b.cls ≠ .l2fwdPort portId) (hall : ∀ pid, b.receives pid = true) :
    (∀ pid < (n.vnf v).nPorts, n.Reaches v pid ∧ ∀ sid ∈ n.socketAt v pid, sid < b.socketAffinity.length) ↔
      n.Probes v b :=
  ⟨fun h => ⟨fun portId hc => absurd hc (hcls portId), fun pid hpid => (h pid hpid).1, fun pid hpid _ => (h pid hpid).2⟩,
    fun h pid hpid => ⟨h.reaches pid hpid, h.counts pid hpid (hall pid)⟩⟩

theorem Probing.setCoremaskImpl {c : Block} (h : Probing n v bid b.socketAffinity n') (hv : v ∈ n.vnfs)
    (hc : n'.block? v bid = some c) (hcls : c.cls = b.cls) :
    ReturnsIff (Nfvi.setCoremaskImpl v bid 1) n' (n.Probes v b) fun _ => Probing n v bid (n.probed v b) := by
  have hv' : v ∈ n'.vnfs := vnfs_of_unset h.unset ▸ hv
  refine returnsIff_bind_ret (vnfAt_of_mem hv') (returnsIff_bind_ret (blockAt_of_mem hv' hc) ?_)
  rw [show popcnt32 1 = 1 by decide, Vnf.nPorts, ports_of_unset h.unset, ← Vnf.nPorts, hcls]
  have hall (hone : ∀ portId, b.cls ≠ .l2fwdPort portId) :
      ReturnsIff (Nfvi.requestAllPorts v bid (n.vnf v).nPorts 1) n' (n.Probes v b) fun _ =>
        Probing n v bid (n.probed v b) := by
    have hreceives : ∀ pid, b.receives pid = true := Block.receives_of_ne hone
    exact (h.requestAllPorts hv hreceives).congr (probes_iff_of_all hone hreceives)
  split
  · next hc => exact hall fun portId h => by rw [hc] at h; cases h
  · next hc => exact hall fun portId h => by rw [hc] at h; cases h
  · next hc => exact hall fun portId h => by rw [hc] at h; cases h
  · next hc => exact hall fun portId h => by rw [hc] at h; cases h
  · next portId hc =>
    have hreceives (pid : Nat) : b.receives pid = (portId == pid) := by
      simp only [Block.receives, hc]
    by_cases hport : portId < (n.vnf v).nPorts
    · refine (h.requestOnePort hv hc hport).congr ⟨fun hF => ⟨fun q hq => ?_, hF.2, fun pid _ hr => ?_⟩, fun hF => ?_⟩
      · cases hc.symm.trans hq
        exact hport
      · obtain rfl : portId = pid := by simpa [hreceives] using hr
        exact hF.1.2
      · exact ⟨⟨hF.reaches portId hport, hF.counts portId hport (by simp [hreceives])⟩, hF.reaches⟩
    · refine ⟨fun hF => absurd (hF.polls portId hc) hport, fun _ => ?_⟩
      have hno : n'.NoPort v portId := fun p hp => hport (by
        rw [Vnf.nPorts, ← ports_of_unset h.unset]
        exact (List.getElem?_eq_some_iff.mp hp).1)
      exact Proc.stuck_bind fun _ t ht => by
        cases ht
        exact (grantRx_stuck hno).bind _

end Probe

/-! ### Block by block -/

structure SettledUpto (n : Nfvi) (v k : Nat) (n' : Nfvi) : Prop where
  unset : n'.unset v = n.unset v
  block : ∀ j, n'.block? v j = n.upto v k j

section Rounds
variable {n n' n'' : Nfvi} {v bid k : Nat} {b c : Block} {xs : List Nat}

theorem getSocketAffinityImpl_eq_lead (m : Nat) (ms : List Nat) :
    getSocketAffinityImpl (m :: ms) = some (lead (0, m) (m :: ms)).1 := rfl

theorem getSocketAffinityImpl_eq_none (h : getSocketAffinityImpl xs = none) : xs = [] := by
  cases xs with
  | nil => rfl
  | cons m ms => cases h

theorem upto_succ (n : Nfvi) (v k j : Nat) :
    n.upto v (k + 1) j = if j = k then (n.block? v k).map (n.settle v) else n.upto v k j := by
  unfold upto
  by_cases hj : j = k
  · subst hj
    simp
  · simp only [hj, if_false, Nat.lt_succ_iff_lt_or_eq, or_false]

theorem SettledUpto.start (n : Nfvi) (v : Nat) : SettledUpto n v 0 n :=
  ⟨rfl, fun j => by rw [upto, if_neg (Nat.not_lt_zero j)]⟩

theorem SettledUpto.probing (h : SettledUpto n v bid n') (hb : n.block? v bid = some b) :
    Probing n v bid b.socketAffinity (n'.editBlock v bid (remasked (n.vnf v).nPorts 1)) := by
  have hunset : (n'.editBlock v bid (remasked (n.vnf v).nPorts 1)).unset v = n'.unset v := unset_editBlock fun _ => rfl
  refine ⟨hunset.trans h.unset, fun j hj => ?_, remasked (n.vnf v).nPorts 1 b, ?_, ?_, rfl⟩
  · rw [block?_editBlock, if_neg fun hown => hj hown.2, h.block j]
  · rw [block?_editBlock, if_pos ⟨rfl, rfl⟩, h.block bid, upto, if_neg (Nat.lt_irrefl bid), hb, Option.map_some]
  · show ((coresOf 1).map fun i => Vcore.init i (n.vnf v).nPorts (n.vnf v).nPorts).map Vcore.form = _
    rw [show coresOf 1 = [0] by decide]
    simp [Vcore.init, Vcore.form]

/-- `ssn_vnf_block::reset` -/
theorem SettledUpto.blockReset (h : SettledUpto n v bid n') (hv : v ∈ n.vnfs) (hb : n.block? v bid = some b) :
    ReturnsIff (Nfvi.blockReset v bid) n' (n.Probes v b ∧ b.socketAffinity ≠ []) fun _ t =>
      t.unset v = n.unset v ∧ (∀ j ≠ bid, t.block? v j = n.upto v bid j) ∧
        ∃ c, t.block? v bid = some c ∧ c.affinity = (n.settle v b).affinity ∧
          c.socketAffinity = (n.settle v b).socketAffinity := by
  have hmask : ReturnsIff (blockSetCoremask v bid 1) n' (n.Probes v b) fun _ => Probing n v bid (n.probed v b) := by
    refine returnsIff_bind_ret (vnfAt_of_mem (vnfs_of_unset h.unset ▸ hv)) ?_
    rw [Vnf.nPorts, ports_of_unset h.unset, ← Vnf.nPorts]
    have hprobing := h.probing hb
    obtain ⟨c, hc, -⟩ := hprobing.own
    refine returnsIff_bind_ret (t := n'.editBlock v bid (remasked (n.vnf v).nPorts 1)) rfl ?_
    refine hprobing.setCoremaskImpl hv hc ?_
    rw [block?_editBlock, if_pos ⟨rfl, rfl⟩, h.block bid, upto, if_neg (Nat.lt_irrefl bid), hb] at hc
    cases hc
    rfl
  refine hmask.bind fun _ t ht => ?_
  obtain ⟨c, hc, -, hsa⟩ := ht.own
  refine returnsIff_bind_ret (blockAt_of_mem (vnfs_of_unset ht.unset ▸ hv) hc) ?_
  rw [hsa]
  cases hsid : getSocketAffinityImpl (n.probed v b) with
  | none =>
    have hnil : b.socketAffinity = [] := by
      apply List.length_eq_zero_iff.mp
      rw [← length_tally (n := n) (v := v) (k := (n.vnf v).nPorts)]
      exact congrArg List.length (getSocketAffinityImpl_eq_none hsid)
    exact ⟨fun hF => absurd hnil hF, fun _ _ _ hret => by cases hret⟩
  | some sid =>
    have hne : b.socketAffinity ≠ [] := by
      intro hnil
      rw [probed, tally, hnil] at hsid
      cases hsid
    refine ReturnsIff.congr (F := True) (returnsIff_of_ret rfl ⟨?_, fun j hj => ?_, ?_⟩) (iff_of_true trivial hne)
    · exact Eq.trans (unset_editBlock (f := fun b => {b with
        affinity := sid, socketAffinity := List.replicate b.socketAffinity.length 0}) fun _ => rfl) ht.unset
    · rw [block?_editBlock, if_neg fun hown => hj hown.2, ht.other j hj]
    · refine ⟨{c with affinity := sid, socketAffinity := List.replicate c.socketAffinity.length 0}, ?_, ?_, ?_⟩
      · rw [block?_editBlock, if_pos ⟨rfl, rfl⟩, hc, Option.map_some]
      · simp only [settle, hsid, Option.getD_some]
      · simp only [settle, hsa, probed, length_tally]

theorem setCoremask_zero (hv : v ∈ n.vnfs) (hfull : none ∉ (n.vnf v).ports) (hc : n.block? v bid = some c) :
    Nfvi.setCoremask v bid 0 n = .ret 0 (n.editBlock v bid (remasked (n.vnf v).nPorts 0)) := by
  have hc' : (n.editBlock v bid (remasked (n.vnf v).nPorts 0)).block? v bid =
      some (remasked (n.vnf v).nPorts 0 c) := by
    rw [block?_editBlock, if_pos ⟨rfl, rfl⟩, hc, Option.map_some]
  have hdraws : Nfvi.setCoremaskImpl v bid 0 (n.editBlock v bid (remasked (n.vnf v).nPorts 0)) =
      .ret () (n.editBlock v bid (remasked (n.vnf v).nPorts 0)) := by
    rw [Nfvi.setCoremaskImpl, Proc.bind_ret (vnfAt_of_mem (n := n.editBlock v bid _) hv),
      Proc.bind_ret (blockAt_of_mem (n := n.editBlock v bid _) hv hc'), show popcnt32 0 = 0 by decide]
    cases (remasked (n.vnf v).nPorts 0 c).cls <;> rfl
  have hblock : blockSetCoremask v bid 0 n = .ret () (n.editBlock v bid (remasked (n.vnf v).nPorts 0)) := by
    rw [blockSetCoremask, Proc.bind_ret (vnfAt_of_mem hv)]
    exact hdraws
  rw [Nfvi.setCoremask, Proc.bind_ret (vnfAt_of_mem hv), if_neg hfull, Proc.bind_ret (blockAt_of_mem hv hc),
    Proc.bind_ret hblock]
  rfl

theorem block_of_unset (h : n'.unset v = n.unset v) (j : Nat) :
    (n'.block? v j).map Block.unset = (n.block? v j).map Block.unset := by
  have hblocks : ((n'.unset v).vnf v).blocks[j]? = ((n.unset v).vnf v).blocks[j]? := by rw [h]
  simpa [Nfvi.unset, restart, block?] using hblocks

theorem remasked_zero (nPorts : Nat) (c : Block) :
    remasked nPorts 0 c = {c with coremask := 0, vcores := [], tids := []} := by
  rw [remasked, show coresOf 0 = [] by decide]
  simp [resize]

/-- One round of the first loop. -/
theorem SettledUpto.round (h : SettledUpto n v k n') (hv : v ∈ n.vnfs) (hfull : none ∉ (n.vnf v).ports)
    (hb : n.block? v k = some b) :
    ReturnsIff (Nfvi.blockReset v k >>= fun _ => Nfvi.setCoremask v k 0 >>= fun _ => pure ()) n'
      (n.Probes v b ∧ b.socketAffinity ≠ []) fun _ t => SettledUpto n v (k + 1) t := by
  refine ((h.blockReset hv hb).bind (G := True) fun _ t ⟨hunset, hother, c, hc, haff, hsa⟩ => ?_).congr
    (and_iff_left trivial)
  have hports := ports_of_unset hunset
  refine returnsIff_bind_ret (setCoremask_zero (vnfs_of_unset hunset ▸ hv) (hports ▸ hfull) hc) ?_
  have hunset' : (t.editBlock v k (remasked (t.vnf v).nPorts 0)).unset v = t.unset v := unset_editBlock fun _ => rfl
  refine returnsIff_of_ret rfl ⟨hunset'.trans hunset, fun j => ?_⟩
  rw [block?_editBlock, upto_succ]
  by_cases hj : j = k
  · subst hj
    rw [if_pos ⟨rfl, rfl⟩, if_pos rfl, hc, hb, Option.map_some, Option.map_some]
    -- the class and the flag are what they were; the rest has been written
    have hsame : c.unset = b.unset := by
      have hblock := block_of_unset hunset j
      rw [hc, hb] at hblock
      exact Option.some.inj hblock
    rw [remasked_zero]
    show some {c.unset with affinity := c.affinity, socketAffinity := c.socketAffinity} = some (n.settle v b)
    rw [hsame, haff, hsa]
    rfl
  · rw [if_neg fun hown => hj hown.2, if_neg hj, hother j hj]

theorem SettledUpto.blocks (h : SettledUpto n v (n.vnf v).nBlocks n') :
    (n'.vnf v).blocks = (n.vnf v).blocks.map (n.settle v) := by
  apply List.ext_getElem?
  intro j
  have hblock := h.block j
  unfold block? upto at hblock
  rw [hblock, List.getElem?_map]
  split_ifs with hj
  · rfl
  · rw [block?, List.getElem?_eq_none_iff.mpr (Nat.not_lt.mp hj)]
    rfl

end Rounds

/-! ### Slot by slot -/

/-- The blocks are as in `n₁`, and the ports of the first `k` slots have counted nothing. -/
structure ZeroUpto (n : Nfvi) (v : Nat) (n₁ : Nfvi) (k : Nat) (n' : Nfvi) : Prop where
  unset : n'.unset v = n.unset v
  vnf : n'.vnf = n₁.vnf
  zero : ∀ pid < k, ∀ p, (n.vnf v).ports[pid]? = some (some p) → (n'.port p).resetAcc = n'.port p

section Slots
variable {n n₁ n' : Nfvi} {v k : Nat}

theorem ZeroUpto.round (h : ZeroUpto n v n₁ k n') (hv : v ∈ n.vnfs) :
    ReturnsIff (slotAt v k >>= fun p => portAt p >>= fun _ => modifyPort p VnfPort.resetAcc) n' (n.Reaches v k)
      fun _ => ZeroUpto n v n₁ (k + 1) := by
  by_cases hreach : n'.Reaches v k
  · obtain ⟨p, hslot, hp⟩ := hreach
    have hslot' : (n.vnf v).ports[k]? = some (some p) := ports_of_unset h.unset ▸ hslot
    have hrun : ReturnsIff (slotAt v k >>= fun p => portAt p >>= fun _ => modifyPort p VnfPort.resetAcc) n' True
        fun _ => ZeroUpto n v n₁ (k + 1) := by
      refine returnsIff_bind_ret (slotAt_of_mem (vnfs_of_unset h.unset ▸ hv) hslot) ?_
      refine returnsIff_bind_ret (portAt_of_mem hp) (returnsIff_of_ret rfl ⟨?_, h.vnf, fun pid hpid q hq => ?_⟩)
      · exact Eq.trans (unset_editPort (f := VnfPort.resetAcc) (List.mem_of_getElem? hslot) fun _ => rfl) h.unset
      · show (Function.update n'.port p (VnfPort.resetAcc _) q).resetAcc = Function.update n'.port p _ q
        rw [Function.update_apply]
        split_ifs with hpq
        · rfl
        · rcases Nat.lt_succ_iff_lt_or_eq.mp hpid with hlt | rfl
          · exact h.zero pid hlt q hq
          · cases hslot'.symm.trans hq
            exact absurd rfl hpq
    exact hrun.congr (iff_of_true trivial ((reaches_of_unset h.unset k).mp ⟨p, hslot, hp⟩))
  · exact ⟨fun hF => absurd ((reaches_of_unset h.unset k).mpr hF) hreach, fun _ => reaches_stuck hreach _⟩

theorem ZeroUpto.eq_afterReset (h : ZeroUpto n v n₁ (n.vnf v).nPorts n')
    (hblocks : (n₁.vnf v).blocks = (n.vnf v).blocks.map (n.settle v)) : n' = n.afterReset v := by
  refine eq_restart h.unset (by rw [h.vnf, hblocks]) fun p hp => ?_
  obtain ⟨pid, hpid⟩ := List.getElem?_of_mem hp
  exact h.zero pid (List.getElem?_eq_some_iff.mp hpid).1 p hpid

/-- **A reset with a port in every slot** succeeds when it can, and then this is what it leaves. -/
theorem reset_returnsIff (hv : v ∈ n.vnfs) (hfull : none ∉ (n.vnf v).ports) :
    ReturnsIff (reset v) n (n.Resettable v) fun ret t => ret = 0 ∧ t = n.afterReset v := by
  refine returnsIff_bind_ret (vnfAt_of_mem hv) ?_
  have hblocks := Proc.returnsIff_forRange (n := (n.vnf v).nBlocks)
    (f := fun k => Nfvi.blockReset v k >>= fun _ => Nfvi.setCoremask v k 0 >>= fun _ => pure ())
    (fun k n' => SettledUpto n v k n')
    (fun k => ∀ b, n.block? v k = some b → n.Probes v b ∧ b.socketAffinity ≠ []) (SettledUpto.start n v)
    fun k hk t ht => by
      have hb : n.block? v k = some ((n.vnf v).blocks.get ⟨k, hk⟩) := List.getElem?_eq_getElem hk
      refine (ht.round hv hfull hb).congr ⟨fun h c hc => ?_, fun h => h _ hb⟩
      cases hb.symm.trans hc
      exact h
  rw [if_neg hfull]
  refine (hblocks.bind (G := ∀ pid < (n.vnf v).nPorts, n.Reaches v pid) fun _ t ht => ?_).congr ⟨?_, ?_⟩
  · have hslots := Proc.returnsIff_forRange (s := t) (n := (n.vnf v).nPorts)
      (f := fun k => slotAt v k >>= fun p => portAt p >>= fun _ => modifyPort p VnfPort.resetAcc)
      (fun k n' => ZeroUpto n v t k n') (n.Reaches v)
      ⟨ht.unset, rfl, fun pid hpid => absurd hpid (Nat.not_lt_zero pid)⟩ fun k hk u hu => hu.round hv
    refine (hslots.bind (G := True) fun _ u hu => ?_).congr (and_iff_left trivial)
    exact returnsIff_of_ret rfl ⟨rfl, hu.eq_afterReset ht.blocks⟩
  · rintro ⟨hall, hreaches⟩
    have hmem (b : Block) (hb : b ∈ (n.vnf v).blocks) : n.Probes v b ∧ b.socketAffinity ≠ [] := by
      obtain ⟨k, hk⟩ := List.getElem?_of_mem hb
      exact hall k (List.getElem?_eq_some_iff.mp hk).1 b hk
    exact ⟨fun b hb => (hmem b hb).1, fun b hb => (hmem b hb).2, hreaches⟩
  · intro h
    refine ⟨fun k _ b hb => ?_, h.reaches⟩
    have hmem : b ∈ (n.vnf v).blocks := List.mem_of_getElem? hb
    exact ⟨h.probes b hmem, h.sockets b hmem⟩

theorem reset_eq_zero_iff {t : Nfvi} : reset v n = .ret 0 t ↔ v ∈ n.vnfs ∧ n.Resettable v ∧ t = n.afterReset v := by
  constructor
  · intro hrun
    have hv : v ∈ n.vnfs := by
      by_contra hv
      rw [reset, Proc.bind_crash (vnfAt_of_not_mem hv)] at hrun
      cases hrun
    have hfull : none ∉ (n.vnf v).ports := by
      intro hslot
      obtain ⟨_, t', hx, hrun⟩ := Proc.bind_eq_ret hrun
      obtain ⟨rfl, rfl⟩ := vnfAt_ret hx
      obtain ⟨_, t'', -, hrun⟩ := Proc.bind_eq_ret hrun
      rw [if_pos hslot] at hrun
      cases hrun
    have hreturns := reset_returnsIff hv hfull
    have hable : n.Resettable v := hreturns.iff.mp ⟨0, t, hrun⟩
    exact ⟨hv, hable, ((hreturns.returns hable).of_ret hrun).2⟩
  · rintro ⟨hv, hable, rfl⟩
    have hfull : none ∉ (n.vnf v).ports := by
      intro hslot
      obtain ⟨pid, hpid⟩ := List.getElem?_of_mem hslot
      obtain ⟨p, hp, -⟩ := hable.reaches pid (List.getElem?_eq_some_iff.mp hpid).1
      cases hpid.symm.trans hp
    obtain ⟨ret, t, hrun, rfl, rfl⟩ := (reset_returnsIff hv hfull).returns hable
    exact hrun

end Slots

end Nfvi

end Susanow
