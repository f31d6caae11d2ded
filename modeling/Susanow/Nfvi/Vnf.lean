import Susanow.Nfvi.State

/-! `ssn_vnf_block` and `ssn_vnf`: access requests, coremasks, attachment, and the
part of `deploy` that comes before the blocks. -/
namespace Susanow.Nfvi

/-! ### `ssn_vnf_block` -/

/-- The counter of the port's socket is written without a bound check. -/
def portRequestRxAccess (v bid pid : Nat) : Proc Nfvi Nat := do
  let p ← slotAt v pid
  let port ← portAt p
  let b ← blockAt v bid
  if port.getSocketId < b.socketAffinity.length then
    modifyBlock v bid fun b =>
      {b with socketAffinity := b.socketAffinity.modify port.getSocketId (· + 1)}
    modifyPort p VnfPort.requestRxAccess
    pure port.nRxacc
  else Proc.crash .outOfBounds

def portRequestTxAccess (v pid : Nat) : Proc Nfvi Nat := do
  let p ← slotAt v pid
  let port ← portAt p
  modifyPort p VnfPort.requestTxAccess
  pure port.nTxacc

/-- `vcores.at(i)`, to be written. -/
def vcoreAt (v bid i : Nat) : Proc Nfvi Vcore := do
  let b ← blockAt v bid
  match b.vcores[i]? with
  | none => Proc.throw "vector::at"
  | some vc => pure vc

def setLcorePortRxaid (v bid i pid aid : Nat) : Proc Nfvi Unit := do
  let vc ← vcoreAt v bid i
  if pid < vc.portRxAcc.length then
    modifyBlock v bid fun b =>
      {b with vcores := b.vcores.set i {vc with portRxAcc := vc.portRxAcc.set pid aid}}
  else Proc.throw "fixed_size_vector::at"

def setLcorePortTxaid (v bid i pid aid : Nat) : Proc Nfvi Unit := do
  let vc ← vcoreAt v bid i
  if pid < vc.portTxAcc.length then
    modifyBlock v bid fun b =>
      {b with vcores := b.vcores.set i {vc with portTxAcc := vc.portTxAcc.set pid aid}}
  else Proc.throw "fixed_size_vector::at"

def grantRx (v bid i pid : Nat) : Proc Nfvi Unit := do
  let rxaid ← portRequestRxAccess v bid pid
  setLcorePortRxaid v bid i pid rxaid

def grantTx (v bid i pid : Nat) : Proc Nfvi Unit := do
  let txaid ← portRequestTxAccess v pid
  setLcorePortTxaid v bid i pid txaid

/-- The cores of a mask, in ascending order. -/
def coresOf (coremask : BitVec 32) : List Nat := (List.range 32).filter coremask.getLsbD

def popcnt32 (coremask : BitVec 32) : Nat := (coresOf coremask).length

/-- `set_coremask_impl` of the classes that poll every port. -/
def requestAllPorts (v bid nPorts nVcores : Nat) : Proc Nfvi Unit :=
  Proc.forRange (fun i => Proc.forRange (fun pid => do
    grantRx v bid i pid
    grantTx v bid i pid) nPorts) nVcores

/-- `set_coremask_impl` of the class that polls one port and may send to any. -/
def requestOnePort (v bid portId nPorts nVcores : Nat) : Proc Nfvi Unit :=
  Proc.forRange (fun i => do
    grantRx v bid i portId
    Proc.forRange (fun pid => grantTx v bid i pid) nPorts) nVcores

def setCoremaskImpl (v bid : Nat) (coremask : BitVec 32) : Proc Nfvi Unit := do
  let x ← vnfAt v
  let b ← blockAt v bid
  match b.cls with
  | .l2fwd => requestAllPorts v bid x.nPorts (popcnt32 coremask)
  | .l2fwdDelay => requestAllPorts v bid x.nPorts (popcnt32 coremask)
  | .l3fwd => requestAllPorts v bid x.nPorts (popcnt32 coremask)
  | .acl => requestAllPorts v bid x.nPorts (popcnt32 coremask)
  | .l2fwdPort portId => requestOnePort v bid portId x.nPorts (popcnt32 coremask)

/-- `tids.resize` keeps the ids of an earlier deploy that still fit. -/
def blockSetCoremask (v bid : Nat) (coremask : BitVec 32) : Proc Nfvi Unit := do
  let x ← vnfAt v
  let vcores := (coresOf coremask).map fun i => Vcore.init i x.nPorts x.nPorts
  modifyBlock v bid fun b =>
    {b with coremask := coremask, vcores := vcores, tids := resize 0 vcores.length b.tids}
  setCoremaskImpl v bid coremask

/-- The first socket with the most requests; `socket_affinity[0]` is read first. -/
def getSocketAffinityImpl : List Nat → Option Nat
  | [] => none
  | m :: ms => some ((m :: ms).zipIdx.foldl (fun (best : Nat × Nat) c =>
      if c.1 > best.2 then (c.2, c.1) else best) (0, m)).1

def blockReset (v bid : Nat) : Proc Nfvi Unit := do
  blockSetCoremask v bid 0x1
  let b ← blockAt v bid
  match getSocketAffinityImpl b.socketAffinity with
  | none => Proc.crash .outOfBounds
  | some sid => modifyBlock v bid fun b =>
      {b with affinity := sid, socketAffinity := List.replicate b.socketAffinity.length 0}

/-! ### `ssn_vnf` -/

def setCoremask (v bid : Nat) (cmask : BitVec 32) : Proc Nfvi Int := do
  let x ← vnfAt v
  if none ∈ x.ports then pure (-1)
  else
    let _ ← blockAt v bid
    blockSetCoremask v bid cmask
    pure 0

/-- The blocks are reset before the ports are looked at. -/
def reset (v : Nat) : Proc Nfvi Int := do
  let x ← vnfAt v
  Proc.forRange (fun i => do
    blockReset v i
    let _ ← setCoremask v i 0x00) x.nBlocks
  if none ∈ x.ports then pure (-1)
  else
    Proc.forRange (fun i => do
      let p ← slotAt v i
      let _ ← portAt p
      modifyPort p VnfPort.resetAcc) x.nPorts
    pure 0

/-- The slot vector is shared with the blocks, so writing it is attaching to them too. -/
def setSlot (v pid : Nat) (slot : Option Nat) : Proc Nfvi Unit :=
  modifyVnf v fun x => {x with ports := x.ports.set pid slot}

def attachPort (v pid p : Nat) : Proc Nfvi Int := do
  let x ← vnfAt v
  match x.ports[pid]? with
  | none => Proc.throw "fixed_size_vector::at"
  | some (some _) => pure (-1)
  | some none =>
    let port ← portAt p
    if port.isAttachedVnf then pure (-1)
    else
      setSlot v pid (some p)
      modifyPort p (VnfPort.attachVnf v)
      pure 0

def dettachPort (v pid : Nat) : Proc Nfvi Int := do
  let x ← vnfAt v
  match x.ports[pid]? with
  | none => Proc.throw "fixed_size_vector::at"
  | some none => pure (-1)
  | some (some p) =>
    let _ ← portAt p
    modifyPort p VnfPort.dettachVnf
    setSlot v pid none
    pure 0

/-! ### Rings, and the accessors of a port -/

def ring (n : Nfvi) : RingRef → MaRing Mbuf
  | .leftEnq a => (n.ppp a).leftEnq
  | .rightEnq a => (n.ppp a).rightEnq

def setRing (n : Nfvi) (r : RingRef) (x : MaRing Mbuf) : Nfvi :=
  match r with
  | .leftEnq a => {n with ppp := Function.update n.ppp a {n.ppp a with leftEnq := x}}
  | .rightEnq a => {n with ppp := Function.update n.ppp a {n.ppp a with rightEnq := x}}

/-- A method of the ring a port points to. -/
def onRing {α : Type} (r : Option RingRef) (p : Proc (MaRing Mbuf) α) : Proc Nfvi α := do
  let n ← Proc.get
  match r with
  | none => Proc.crash .nullPointer
  | some r =>
    if r.ppp ∈ n.ppps then Proc.zoom (fun n => ring n r) (fun n x => setRing n r x) p
    else Proc.crash .danglingPointer

def configAcc (p : Nat) : Proc Nfvi Unit := do
  let port ← portAt p
  match port.dev with
  | .dpdk portId socketId ma =>
    Proc.zoom (fun _ => ma)
      (fun n ma => n.editPort p (VnfPort.setDev (.dpdk portId socketId ma)))
      (MaPort.configureAccessor port.nRxacc port.nTxacc)
  | .virt tx rx =>
    onRing rx (MaRing.configureDeqAcc port.nRxacc)
    onRing tx (MaRing.configureEnqAcc port.nTxacc)

def configreAcc (v : Nat) : Proc Nfvi Unit := do
  let x ← vnfAt v
  Proc.forRange (fun i => do
    let p ← slotAt v i
    configAcc p) x.nPorts

/-- The loop at the head of `deploy`: every port attached and deployable. -/
def portsDeployable : List (Option Nat) → Proc Nfvi Bool
  | [] => pure true
  | none :: _ => pure false
  | some p :: rest => do
    let port ← portAt p
    match port.deployable with
    | .error c => Proc.crash c
    | .ok false => pure false
    | .ok true => portsDeployable rest

/-- `ssn_vnf::deploy` up to its blocks: whether it goes on to them. -/
def deployPorts (v : Nat) : Proc Nfvi Bool := do
  let x ← vnfAt v
  if ← portsDeployable x.ports then
    configreAcc v
    pure true
  else pure false

end Susanow.Nfvi
