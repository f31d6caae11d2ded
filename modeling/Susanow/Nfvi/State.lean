import Susanow.Ma.Port
import Susanow.Ma.Ring

/-! The objects of the NFVi and where they live.

VNFs, ports and patch panels are heap objects named by addresses; an object is
live while its address is in the table of its kind, and `next` is an address
never handed out. What a panel's rings are to a port is a pointer: the panel and
which of its two rings. -/
namespace Susanow

abbrev Mbuf := Nat

/-- `&left_enq` or `&right_enq` of a panel. -/
inductive RingRef
  | leftEnq (ppp : Nat)
  | rightEnq (ppp : Nat)
  deriving DecidableEq, Repr

def RingRef.ppp : RingRef → Nat
  | .leftEnq a => a
  | .rightEnq a => a

/-! ### Ports -/

/-- What the two subclasses of `ssn_vnf_port` add. Devices are attached and never
detached, so every attached device has a dpdk id of its own; its entry of the global
array `vnf_ports` is kept here with it. -/
inductive Dev
  | dpdk (portId socketId : Nat) (ma : MaPort)
  | virt (tx rx : Option RingRef)
  deriving DecidableEq, Repr

/-- `ssn_vnf_port` -/
structure VnfPort where
  name : String
  attachedVnf : Option Nat := none
  nRxq : Nat := 0
  nTxq : Nat := 0
  nRxacc : Nat := 0
  nTxacc : Nat := 0
  dev : Dev
  deriving DecidableEq, Repr

namespace VnfPort

def isAttachedVnf (p : VnfPort) : Bool := p.attachedVnf.isSome

def attachVnf (v : Nat) (p : VnfPort) : VnfPort := {p with attachedVnf := some v}

def dettachVnf (p : VnfPort) : VnfPort := {p with attachedVnf := none}

def resetAcc (p : VnfPort) : VnfPort := {p with nRxacc := 0, nTxacc := 0}

def requestRxAccess (p : VnfPort) : VnfPort := {p with nRxacc := p.nRxacc + 1}

def requestTxAccess (p : VnfPort) : VnfPort := {p with nTxacc := p.nTxacc + 1}

/-- The rings of a panel all sit on socket 0. -/
def getSocketId (p : VnfPort) : Nat :=
  match p.dev with
  | .dpdk _ socketId _ => socketId
  | .virt _ _ => 0

/-- `assert((tx==nullptr) == (rx==nullptr))` -/
def patched (tx rx : Option RingRef) : Except Crash Bool :=
  if tx.isSome = rx.isSome then .ok tx.isSome else .error .assertion

def deployable (p : VnfPort) : Except Crash Bool :=
  match p.dev with
  | .dpdk _ _ _ => .ok true
  | .virt tx rx => patched tx rx

def configHw (nrxq ntxq : Nat) (p : VnfPort) : VnfPort :=
  match p.dev with
  | .dpdk portId socketId ma =>
    {p with nRxq := nrxq, nTxq := ntxq,
            dev := .dpdk portId socketId (ma.configureHwqueue portId nrxq ntxq)}
  | .virt tx rx => {p with nRxq := nrxq, nTxq := ntxq, dev := .virt tx rx}

def setDev (d : Dev) (p : VnfPort) : VnfPort := {p with dev := d}

end VnfPort

/-- `ssn_vnf_port_patch_panel` -/
structure PatchPanel where
  name : String
  leftEnq : MaRing Mbuf
  rightEnq : MaRing Mbuf
  left : Nat
  right : Nat
  deriving DecidableEq, Repr

/-! ### VNFs -/

/-- `ssn_vnf_vcore` -/
structure Vcore where
  lcoreId : Nat
  portRxAcc : List Nat
  portTxAcc : List Nat
  deriving DecidableEq, Repr

def Vcore.init (lcoreId nRxPort nTxPort : Nat) : Vcore :=
  ⟨lcoreId, List.replicate nRxPort 0, List.replicate nTxPort 0⟩

/-- The subclasses of `ssn_vnf_block`. -/
inductive BlockClass
  | l2fwd
  | l2fwdDelay
  | l3fwd
  | acl
  | l2fwdPort (portId : Nat)
  deriving DecidableEq, Repr

/-- `ssn_vnf_block`; every subclass has the flag `running`. -/
structure Block where
  cls : BlockClass
  tids : List Nat := []
  vcores : List Vcore := []
  coremask : BitVec 32
  socketAffinity : List Nat
  -- `_socket_affinity`
  affinity : Nat
  running : Bool := false
  deriving DecidableEq, Repr

/-- Where the block's vcores have the lcore that asks; its exception is `none`. -/
def Block.getVlcoreId (b : Block) (lcoreId : Nat) : Option Nat :=
  b.vcores.findIdx? fun vc => vc.lcoreId == lcoreId

def Block.getLcorePortRxaid (b : Block) (vcoreId pid : Nat) : Option Nat :=
  b.vcores[vcoreId]?.bind fun vc => vc.portRxAcc[pid]?

def Block.getLcorePortTxaid (b : Block) (vcoreId pid : Nat) : Option Nat :=
  b.vcores[vcoreId]?.bind fun vc => vc.portTxAcc[pid]?

/-- One thread id to a vcore. -/
def Block.Fits (b : Block) : Prop := b.tids.length = b.vcores.length

/-- `ssn_vnf`; `ports` is the slot vector its blocks refer to. -/
structure Vnf where
  name : String
  ports : List (Option Nat)
  blocks : List Block
  deriving DecidableEq, Repr

namespace Vnf

def nPorts (x : Vnf) : Nat := x.ports.length

def nBlocks (x : Vnf) : Nat := x.blocks.length

def isDeletable (x : Vnf) : Bool := x.ports.all (· == none)

def isRunning (x : Vnf) : Bool := x.blocks.all Block.running

end Vnf

/-- What a catalog entry allocates. -/
structure VnfClass where
  nPorts : Nat
  blocks : List BlockClass
  polls_lt : ∀ portId, .l2fwdPort portId ∈ blocks → portId < nPorts

/-- The class polls every port, or one there is. -/
def BlockClass.pollsBelow (nPorts : Nat) : BlockClass → Bool
  | .l2fwdPort portId => decide (portId < nPorts)
  | _ => true

theorem polls_lt_of_all {nPorts : Nat} {blocks : List BlockClass}
    (h : blocks.all (BlockClass.pollsBelow nPorts) = true) :
    ∀ portId, .l2fwdPort portId ∈ blocks → portId < nPorts :=
  fun portId hmem => of_decide_eq_true (List.all_eq_true.mp h (.l2fwdPort portId) hmem)

def mainCatalog : List (String × VnfClass) :=
  [("l2fwd", ⟨2, [.l2fwd], polls_lt_of_all rfl⟩), ("l2fwd_delay", ⟨2, [.l2fwdDelay], polls_lt_of_all rfl⟩),
    ("l2fwd_numa", ⟨2, [.l2fwdPort 0, .l2fwdPort 1], polls_lt_of_all rfl⟩),
    ("l3fwd", ⟨2, [.l3fwd], polls_lt_of_all rfl⟩), ("acl", ⟨2, [.acl], polls_lt_of_all rfl⟩)]

/-! ### The NFVi -/

structure Nfvi where
  nSocket : Nat
  catalog : List (String × VnfClass)
  vnfs : List Nat := []
  ports : List Nat := []
  ppps : List Nat := []
  vnf : Nat → Vnf := fun _ => ⟨"", [], []⟩
  port : Nat → VnfPort := fun _ => {name := "", dev := .virt none none}
  ppp : Nat → PatchPanel := fun _ => ⟨"", .init "" 0 0, .init "" 0 0, 0, 0⟩
  next : Nat := 0
  -- how many devices have been attached
  nDev : Nat := 0

namespace Nfvi

def nrxq : Nat := 8
def ntxq : Nat := 8

def block? (n : Nfvi) (v bid : Nat) : Option Block := (n.vnf v).blocks[bid]?

/-- The flag of a block. -/
def flag (n : Nfvi) (v bid : Nat) : Bool := ((n.block? v bid).map Block.running).getD false

/-! ### Objects in place -/

def editVnf (n : Nfvi) (v : Nat) (f : Vnf → Vnf) : Nfvi :=
  {n with vnf := Function.update n.vnf v (f (n.vnf v))}

def editBlock (n : Nfvi) (v bid : Nat) (f : Block → Block) : Nfvi :=
  n.editVnf v fun x => {x with blocks := x.blocks.modify bid f}

def editPort (n : Nfvi) (p : Nat) (f : VnfPort → VnfPort) : Nfvi :=
  {n with port := Function.update n.port p (f (n.port p))}

/-! ### Pointers -/

/-- Using a pointer to a VNF. -/
def vnfAt (v : Nat) : Proc Nfvi Vnf := do
  let n ← Proc.get
  if v ∈ n.vnfs then pure (n.vnf v) else Proc.crash .danglingPointer

def modifyVnf (v : Nat) (f : Vnf → Vnf) : Proc Nfvi Unit := Proc.modify fun n => n.editVnf v f

def portAt (p : Nat) : Proc Nfvi VnfPort := do
  let n ← Proc.get
  if p ∈ n.ports then pure (n.port p) else Proc.crash .danglingPointer

def modifyPort (p : Nat) (f : VnfPort → VnfPort) : Proc Nfvi Unit :=
  Proc.modify fun n => n.editPort p f

/-- `ports.at(pid)`, to be used. -/
def slotAt (v pid : Nat) : Proc Nfvi Nat := do
  let x ← vnfAt v
  match x.ports[pid]? with
  | none => Proc.throw "fixed_size_vector::at"
  | some none => Proc.crash .nullPointer
  | some (some p) => pure p

/-- `blocks.at(bid)` -/
def blockAt (v bid : Nat) : Proc Nfvi Block := do
  let x ← vnfAt v
  match x.blocks[bid]? with
  | none => Proc.throw "vector::at"
  | some b => pure b

def modifyBlock (v bid : Nat) (f : Block → Block) : Proc Nfvi Unit :=
  Proc.modify fun n => n.editBlock v bid f

end Nfvi

end Susanow
