import Susanow.Nfvi.Rest

/-! What the methods of a VNF write, and what they leave alone.

The reads leave everything alone. The access requests and the configuration of
accessors write fields of one VNF's blocks, counters and queue tables of ports, and
rings; a relation that allows these writes (`AllowsOwn`, `AllowsTables`) holds across the calls. -/
namespace Susanow

def Dev.link : Dev → Option (Option RingRef × Option RingRef)
  | .dpdk _ _ _ => none
  | .virt tx rx => some (tx, rx)

namespace Nfvi
open Proc (Keeps Within Meets within_bind within_modify within_throw within_crash within_pure within_get within_ite
  within_forRange within_zoom)

theorem proj_update {α β : Type} (g : α → β) (h : Nat → α) (i : Nat) (a : α) :
    (fun j => g (Function.update h i a j)) = Function.update (fun j => g (h j)) i (g a) := by
  funext j
  by_cases hj : j = i
  · subst hj
    simp
  · simp [hj]

theorem proj_update_self {α β : Type} (g : α → β) (h : Nat → α) (i : Nat) (a : α)
    (hg : g a = g (h i)) : (fun j => g (Function.update h i a j)) = fun j => g (h j) := by
  rw [proj_update, hg]
  exact Function.update_eq_self i _

theorem vnfAt_of_mem {n : Nfvi} {v : Nat} (hv : v ∈ n.vnfs) : vnfAt v n = .ret (n.vnf v) n := by
  simp [vnfAt, hv]

theorem vnfAt_of_not_mem {n : Nfvi} {v : Nat} (hv : v ∉ n.vnfs) :
    vnfAt v n = .crash .danglingPointer := by
  simp [vnfAt, hv]

theorem portAt_of_mem {n : Nfvi} {p : Nat} (hp : p ∈ n.ports) : portAt p n = .ret (n.port p) n := by
  simp [portAt, hp]

theorem portAt_of_not_mem {n : Nfvi} {p : Nat} (hp : p ∉ n.ports) :
    portAt p n = .crash .danglingPointer := by
  simp [portAt, hp]

theorem ring_setRing (n : Nfvi) (r r' : RingRef) (x : MaRing Mbuf) :
    ring (setRing n r x) r' = if r' = r then x else ring n r' := by
  cases r with
  | leftEnq a => cases r' with | _ b => by_cases hab : b = a <;> simp [ring, setRing, hab]
  | rightEnq a => cases r' with | _ b => by_cases hab : b = a <;> simp [ring, setRing, hab]

theorem vnfAt_ret {v : Nat} {x : Vnf} {n n' : Nfvi} (h : vnfAt v n = .ret x n') : n' = n ∧ x = n.vnf v := by
  by_cases hv : v ∈ n.vnfs
  · rw [vnfAt_of_mem hv] at h
    cases h
    exact ⟨rfl, rfl⟩
  · rw [vnfAt_of_not_mem hv] at h
    cases h

theorem blockAt_ret {v bid : Nat} {b : Block} {n n' : Nfvi} (h : blockAt v bid n = .ret b n') :
    n' = n ∧ (n.vnf v).blocks[bid]? = some b := by
  obtain ⟨x, s', hx, hb⟩ := Proc.bind_eq_ret h
  obtain ⟨rfl, rfl⟩ := vnfAt_ret hx
  cases hblock : (s'.vnf v).blocks[bid]? with
  | none => rw [hblock] at hb; cases hb
  | some b' => rw [hblock] at hb; cases hb; exact ⟨rfl, rfl⟩

section Reads
variable {R : Nfvi → Nfvi → Prop} [IsPreorder Nfvi R]

theorem within_vnfAt (v : Nat) : Within R (vnfAt v) :=
  within_bind within_get fun _ => within_ite (within_pure _) (within_crash _)

theorem within_portAt (p : Nat) : Within R (portAt p) :=
  within_bind within_get fun _ => within_ite (within_pure _) (within_crash _)

theorem within_slotAt (v pid : Nat) : Within R (slotAt v pid) := by
  refine within_bind (within_vnfAt v) fun x => ?_
  split
  · exact within_throw _
  · exact within_crash _
  · exact within_pure _

theorem within_blockAt (v bid : Nat) : Within R (blockAt v bid) := by
  refine within_bind (within_vnfAt v) fun x => ?_
  split
  · exact within_throw _
  · exact within_pure _

theorem within_vcoreAt (v bid i : Nat) : Within R (vcoreAt v bid i) := by
  refine within_bind (within_blockAt v bid) fun b => ?_
  split
  · exact within_throw _
  · exact within_pure _

theorem within_field {α : Type} (x : Option α) : Within R (field x) := by
  cases x with
  | none => exact within_throw _
  | some x => exact within_pure x

end Reads

theorem block?_editBlock (n : Nfvi) (v bid w b : Nat) (f : Block → Block) :
    (n.editBlock v bid f).block? w b =
      if w = v ∧ b = bid then (n.block? w b).map f else n.block? w b := by
  unfold block? editBlock editVnf
  by_cases hw : w = v
  · subst hw
    by_cases hb : b = bid
    · subst hb
      simp
    · simp [hb, Ne.symm hb]
  · simp [hw]

/-- `R` allows the accessors of the ports of VNF `v` to be written: on the device of one, or on
the ends of the rings that one points to. -/
structure AllowsTables (v : Nat) (R : Nfvi → Nfvi → Prop) : Prop where
  device : ∀ (n : Nfvi) (i p portId socketId : Nat) (ma ma' : MaPort),
    (n.vnf v).ports[i]? = some (some p) → (n.port p).dev = .dpdk portId socketId ma →
    R n (n.editPort p (VnfPort.setDev (.dpdk portId socketId ma')))
  deq : ∀ (n : Nfvi) (i p : Nat) (tx : Option RingRef) (r : RingRef) (accs : List Accessor),
    (n.vnf v).ports[i]? = some (some p) → (n.port p).dev = .virt tx (some r) →
    R n (setRing n r {ring n r with deqAccessors := accs})
  enq : ∀ (n : Nfvi) (i p : Nat) (rx : Option RingRef) (r : RingRef) (accs : List Accessor),
    (n.vnf v).ports[i]? = some (some p) → (n.port p).dev = .virt (some r) rx →
    R n (setRing n r {ring n r with enqAccessors := accs})

/-- `R` allows the counters of ports to be written, and the blocks of VNF `v`, their flags
excepted. -/
structure Allows (v : Nat) (R : Nfvi → Nfvi → Prop) : Prop where
  port : ∀ (n : Nfvi) (p : Nat) (f : VnfPort → VnfPort),
    (∀ x, (f x).name = x.name ∧ (f x).attachedVnf = x.attachedVnf ∧ (f x).dev = x.dev) →
    R n (n.editPort p f)
  block : ∀ (n : Nfvi) (bid : Nat) (f : Block → Block), (∀ b, (f b).running = b.running) →
    (∀ b, b.Fits → (f b).Fits) → R n (n.editBlock v bid f)

/-- Of the ports only those of `v` are written, and no block changes its class. -/
structure AllowsOwn (v : Nat) (R : Nfvi → Nfvi → Prop) : Prop where
  port : ∀ (n : Nfvi) (i p : Nat) (f : VnfPort → VnfPort), (n.vnf v).ports[i]? = some (some p) →
    (∀ x, (f x).name = x.name ∧ (f x).attachedVnf = x.attachedVnf ∧ (f x).dev = x.dev) →
    R n (n.editPort p f)
  block : ∀ (n : Nfvi) (bid : Nat) (f : Block → Block), (∀ b, (f b).running = b.running ∧ (f b).cls = b.cls) →
    (∀ b, b.Fits → (f b).Fits) → R n (n.editBlock v bid f)

theorem Allows.own {v : Nat} {R : Nfvi → Nfvi → Prop} (h : Allows v R) : AllowsOwn v R where
  port n _ p f _ hf := h.port n p f hf
  block n bid f hf hfit := h.block n bid f (fun b => (hf b).1) hfit

variable {R : Nfvi → Nfvi → Prop} [IsPreorder Nfvi R]

section AllowsTables

theorem slotAt_ret {v i p : Nat} {n n' : Nfvi} (h : slotAt v i n = .ret p n') :
    n' = n ∧ (n.vnf v).ports[i]? = some (some p) := by
  by_cases hv : v ∈ n.vnfs
  · cases hslot : (n.vnf v).ports[i]? with
    | none =>
      simp [slotAt, Proc.bind_ret (vnfAt_of_mem hv), hslot] at h
    | some slot =>
      cases slot with
      | none => simp [slotAt, Proc.bind_ret (vnfAt_of_mem hv), hslot] at h
      | some q =>
        simp only [slotAt, Proc.bind_ret (vnfAt_of_mem hv), hslot] at h
        cases h
        exact ⟨rfl, rfl⟩
  · rw [slotAt, Proc.bind_crash (vnfAt_of_not_mem hv)] at h
    cases h

theorem onRing_meets {α : Type} {W : MaRing Mbuf → MaRing Mbuf → Prop} {E : Nfvi → Prop} {r : Option RingRef}
    {q : Proc (MaRing Mbuf) α} {n : Nfvi} (hq : Within W q)
    (h : ∀ r' ∈ r, ∀ x, W (ring n r') x → E (setRing n r' x)) : Meets (onRing r q) n (fun _ => E) E := by
  refine Proc.meets_get_bind ?_
  split
  · exact Proc.meets_crash
  · next r' =>
    split
    · exact Proc.meets_zoom ⟨fun a x hx => h r' rfl x ((hq _).1 a x hx),
        fun w x hx => h r' rfl x ((hq _).2 w x hx)⟩
    · exact Proc.meets_crash

variable {v : Nat} (h : AllowsTables v R)
include h

theorem AllowsTables.configAcc {i p : Nat} {n : Nfvi} (hslot : (n.vnf v).ports[i]? = some (some p)) :
    Meets (configAcc p) n (fun _ => R n) (R n) := by
  by_cases hp : p ∈ n.ports
  · refine Proc.meets_bind_ret (portAt_of_mem hp) ?_
    split
    · next portId socketId ma hdev =>
      have hwrite (ma' : MaPort) := h.device n i p portId socketId ma ma' hslot hdev
      exact Proc.meets_zoom ⟨fun _ ma' _ => hwrite ma', fun _ ma' _ => hwrite ma'⟩
    · next tx rx hdev =>
      -- the second method finds the slots and the port as the first did
      have hrx : Meets (onRing rx (MaRing.configureDeqAcc (n.port p).nRxacc)) n
          (fun _ n' => R n n' ∧ n'.vnf = n.vnf ∧ n'.port = n.port)
          (fun n' => R n n' ∧ n'.vnf = n.vnf ∧ n'.port = n.port) := by
        refine onRing_meets MaRing.configureDeqAcc_writes fun r hr x ⟨accs, hx⟩ => ?_
        cases hr
        refine ⟨?_, by cases r <;> rfl, by cases r <;> rfl⟩
        rw [hx]
        exact h.deq n i p tx r accs hslot hdev
      refine Proc.meets_bind ⟨hrx.1, fun w n' hw => (hrx.2 w n' hw).1⟩ fun _ n' ⟨hR, hvnf, hport⟩ => ?_
      refine onRing_meets MaRing.configureEnqAcc_writes fun r hr x ⟨accs, hx⟩ => ?_
      cases hr
      rw [hx]
      exact trans_of R hR (h.enq n' i p rx r accs (by rw [hvnf, hslot]) (by rw [hport, hdev]))
  · exact Proc.meets_bind_crash (portAt_of_not_mem hp)

theorem AllowsTables.deployPorts : Within R (deployPorts v) := by
  have hloop (slots : List (Option Nat)) : Within R (portsDeployable slots) := by
    induction slots with
    | nil => exact within_pure _
    | cons slot rest ih =>
      cases slot with
      | none => exact within_pure _
      | some p =>
        refine within_bind (within_portAt p) fun port => ?_
        split
        · exact within_crash _
        · exact within_pure _
        · exact ih
  refine within_bind (within_vnfAt v) fun x => within_bind (hloop x.ports) fun ok => ?_
  refine within_ite (within_bind (within_bind (within_vnfAt v) fun x => within_forRange fun i n => ?_)
    fun _ => within_pure _) (within_pure _)
  refine Proc.meets_bind_of_ret (within_slotAt v i n).2 fun p n' hp => ?_
  obtain ⟨rfl, hslot⟩ := slotAt_ret hp
  exact h.configAcc hslot

end AllowsTables

section AllowsOwn
variable {v : Nat} (h : AllowsOwn v R)
include h

omit [IsPreorder Nfvi R] in
theorem AllowsOwn.modifyBlock {bid : Nat} {f : Block → Block}
    (hf : ∀ b, (f b).running = b.running ∧ (f b).cls = b.cls) (hfit : ∀ b, b.Fits → (f b).Fits) :
    Within R (modifyBlock v bid f) :=
  within_modify fun n => h.block n bid f hf hfit

theorem AllowsOwn.grantRx (bid i pid : Nat) : Within R (grantRx v bid i pid) := by
  refine within_bind (fun n => ?_) fun rxaid => ?_
  · refine Proc.meets_bind_of_ret (within_slotAt v pid n).2 fun p n' hp => ?_
    obtain ⟨rfl, hslot⟩ := slotAt_ret hp
    refine Proc.meets_bind_of_ret (within_portAt p n').2 fun port n₁ hport => ?_
    obtain rfl : n₁ = n' := (within_portAt (R := fun n n' => n' = n) p n').1 port n₁ hport
    refine Proc.meets_bind_of_ret (within_blockAt v bid n₁).2 fun b n₂ hb => ?_
    obtain ⟨rfl, -⟩ := blockAt_ret hb
    split
    · have hblock := h.block n₂ bid (fun b => {b with
        socketAffinity := b.socketAffinity.modify port.getSocketId (· + 1)}) (fun _ => ⟨rfl, rfl⟩) fun _ hb => hb
      refine Proc.meets_of_ret rfl (trans_of R hblock (h.port _ pid p VnfPort.requestRxAccess ?_ fun _ => ⟨rfl, rfl, rfl⟩))
      simpa [editBlock, editVnf] using hslot
    · exact Proc.meets_crash
  · exact within_bind (within_vcoreAt v bid i) fun vc =>
      within_ite (h.modifyBlock (fun _ => ⟨rfl, rfl⟩) fun _ hb => hb.trans (by simp)) (within_throw _)

theorem AllowsOwn.grantTx (bid i pid : Nat) : Within R (grantTx v bid i pid) := by
  refine within_bind (fun n => ?_) fun txaid => ?_
  · refine Proc.meets_bind_of_ret (within_slotAt v pid n).2 fun p n' hp => ?_
    obtain ⟨rfl, hslot⟩ := slotAt_ret hp
    refine Proc.meets_bind_of_ret (within_portAt p n').2 fun port n₁ hport => ?_
    obtain rfl : n₁ = n' := (within_portAt (R := fun n n' => n' = n) p n').1 port n₁ hport
    exact Proc.meets_of_ret rfl (h.port n₁ pid p _ hslot fun _ => ⟨rfl, rfl, rfl⟩)
  · exact within_bind (within_vcoreAt v bid i) fun vc =>
      within_ite (h.modifyBlock (fun _ => ⟨rfl, rfl⟩) fun _ hb => hb.trans (by simp)) (within_throw _)

theorem AllowsOwn.requestAllPorts (bid nPorts nVcores : Nat) :
    Within R (requestAllPorts v bid nPorts nVcores) :=
  within_forRange fun i => within_forRange fun pid =>
    within_bind (h.grantRx bid i pid) fun _ => h.grantTx bid i pid

theorem AllowsOwn.requestOnePort (bid portId nPorts nVcores : Nat) :
    Within R (requestOnePort v bid portId nPorts nVcores) :=
  within_forRange fun i => within_bind (h.grantRx bid i portId) fun _ =>
    within_forRange fun pid => h.grantTx bid i pid

theorem AllowsOwn.blockSetCoremask (bid : Nat) (coremask : BitVec 32) :
    Within R (blockSetCoremask v bid coremask) := by
  refine within_bind (within_vnfAt v) fun x =>
    within_bind (h.modifyBlock (fun _ => ⟨rfl, rfl⟩) fun _ _ => length_resize _ _ _) fun _ =>
      within_bind (within_vnfAt v) fun x => within_bind (within_blockAt v bid) fun b => ?_
  split
  · exact h.requestAllPorts bid _ _
  · exact h.requestAllPorts bid _ _
  · exact h.requestAllPorts bid _ _
  · exact h.requestAllPorts bid _ _
  · exact h.requestOnePort bid _ _ _

theorem AllowsOwn.blockReset (bid : Nat) : Within R (blockReset v bid) := by
  refine within_bind (h.blockSetCoremask bid _) fun _ => within_bind (within_blockAt v bid) fun b => ?_
  split
  · exact within_crash _
  · exact h.modifyBlock (fun _ => ⟨rfl, rfl⟩) fun _ hb => hb

theorem AllowsOwn.setCoremask (bid : Nat) (cmask : BitVec 32) :
    Within R (setCoremask v bid cmask) :=
  within_bind (within_vnfAt v) fun _ => within_ite (within_pure _) <|
    within_bind (within_blockAt v bid) fun _ =>
      within_bind (h.blockSetCoremask bid cmask) fun _ => within_pure _

theorem AllowsOwn.reset : Within R (reset v) := by
  refine within_bind (within_vnfAt v) fun x => within_bind (within_forRange fun i => ?_) fun _ =>
    within_ite (within_pure _) (within_bind (within_forRange fun i n => ?_) fun _ => within_pure _)
  · exact within_bind (h.blockReset i) fun _ => within_bind (h.setCoremask i _) fun _ => within_pure _
  · refine Proc.meets_bind_of_ret (within_slotAt v i n).2 fun p n' hp => ?_
    obtain ⟨rfl, hslot⟩ := slotAt_ret hp
    refine Proc.meets_bind_of_ret (within_portAt p n').2 fun port n₁ hport => ?_
    obtain rfl : n₁ = n' := (within_portAt (R := fun n n' => n' = n) p n').1 port n₁ hport
    exact Proc.meets_of_ret rfl (h.port n₁ i p _ hslot fun _ => ⟨rfl, rfl, rfl⟩)

end AllowsOwn

end Nfvi

end Susanow
