import Susanow.Nfvi.Vnf
import Susanow.Thread.Native

/-! The three tables and the REST handlers that work on them.

A handler runs on the one thread of the server. Fields of a request's JSON are
options: reading one that is missing or of another type throws, and an exception
that leaves a handler is answered by the server. What only the machine can answer
comes with the request: whether a device or a ring could be had, and what was in
the memory an object was put in. -/
namespace Susanow

structure Reply where
  success : Bool
  msg : String
  deriving DecidableEq, Repr

/-- What a launched thread was given: the timer's scheduler, or a block. -/
inductive Task
  | timer
  | block (v bid : Nat)
  deriving DecidableEq, Repr

def Task.vnf? : Task → Option Nat
  | .timer => none
  | .block v _ => some v

inductive Request
  | vnfPost (iname : String) (cname : Option String) (mem : Nat → BitVec 32 × Nat)
  | vnfDelete (iname : String)
  | slotPut (iname : String) (pid : Int) (pname : Option String)
  | slotDelete (iname : String) (pid : Int)
  | portPost (pname : String) (cname option : Option String) (attach : Except String Nat)
  | portDelete (pname : String)
  | coremaskPut (iname : String) (blockId : Int) (coremask : Option (BitVec 32))
  | resetPut (iname : String)
  | deployPut (iname : String)
  | undeployPut (iname : String)
  | pppPost (name : String) (right left : Option String) (alloc : Nat → Nat → Bool)
      (mem : Nat → Nat × Nat)
  | pppDelete (name : String)

/-- What the server's thread was last asked for came to: a reply, what a method of
`ssn_vnf` returned, or an exception. -/
inductive Done
  | reply (r : Reply)
  | returned (ret : Int)
  | deployed (v : Nat) (ret : Int)
  | undeployed (v : Nat)
  | threw (what : String)
  deriving DecidableEq, Repr

/-- How a handler ends, or which block loop it has come to. -/
inductive Next
  | done (d : Done)
  | launch (v : Nat)
  | undeploy (v : Nat)
  deriving DecidableEq, Repr

namespace Nfvi

def no (msg : String) : Proc Nfvi Next := pure (.done (.reply ⟨false, msg⟩))

def yes (msg : String) : Proc Nfvi Next := pure (.done (.reply ⟨true, msg⟩))

/-- `req_json[..]` of the wanted type. -/
def field {α : Type} (x : Option α) : Proc Nfvi α :=
  match x with
  | none => Proc.throw "crow::json"
  | some x => pure x

/-! ### Tables -/

def findVnf (n : Nfvi) (name : String) : Option Nat := n.vnfs.find? fun v => (n.vnf v).name = name

def findPort (n : Nfvi) (name : String) : Option Nat :=
  n.ports.find? fun p => (n.port p).name = name

def findPpp (n : Nfvi) (name : String) : Option Nat := n.ppps.find? fun a => (n.ppp a).name = name

/-- A new block: two of its fields are not set and hold what `mem` says. -/
def newBlock (nSocket : Nat) (cls : BlockClass) (mem : BitVec 32 × Nat) : Block :=
  {cls := cls, coremask := mem.1, affinity := mem.2, socketAffinity := List.replicate nSocket 0}

def newVnf (nSocket : Nat) (iname : String) (c : VnfClass) (mem : Nat → BitVec 32 × Nat) : Vnf :=
  ⟨iname, List.replicate c.nPorts none, c.blocks.mapIdx fun i cls => newBlock nSocket cls (mem i)⟩

def vnfAllocFromCatalog (cname iname : String) (mem : Nat → BitVec 32 × Nat) : Proc Nfvi Bool := do
  let n ← Proc.get
  if (n.findVnf iname).isSome then pure false
  else
    match n.catalog.find? fun c => c.1 = cname with
    | none => pure false
    | some c =>
      Proc.set {n with vnfs := n.vnfs ++ [n.next],
                       vnf := Function.update n.vnf n.next (newVnf n.nSocket iname c.2 mem),
                       next := n.next + 1}
      pure true

def delVnf (v : Nat) : Proc Nfvi Unit := do
  let n ← Proc.get
  if v ∈ n.vnfs then Proc.set {n with vnfs := n.vnfs.erase v}
  else Proc.throw ("ssn_nfvi::del_vnf: not found vnf (" ++ (n.vnf v).name ++ ")")

def appendPort (p : VnfPort) : Proc Nfvi Unit :=
  Proc.modify fun n => {n with ports := n.ports ++ [n.next], port := Function.update n.port n.next p,
                               next := n.next + 1}

def delPort (p : Nat) : Proc Nfvi Unit := do
  let n ← Proc.get
  if p ∈ n.ports then Proc.set {n with ports := n.ports.erase p}
  else Proc.throw ("ssn_nfvi::del_port: not found port (" ++ (n.port p).name ++ ")")

def addPpp (n : Nfvi) (x : PatchPanel) : Nfvi :=
  {n with ppps := n.ppps ++ [n.next], ppp := Function.update n.ppp n.next x, next := n.next + 1}

/-- The constructor of `ssn_vnf_port_patch_panel`, and the panel's entry in the table. -/
def newPatchPanel (name : String) (r l : Nat) (alloc : Nat → Nat → Bool) (mem : Nat → Nat × Nat) :
    Proc Nfvi Unit := do
  let right ← portAt r
  let left ← portAt l
  if left.nRxq = right.nTxq ∧ left.nTxq = right.nRxq then
    let leftEnq ← Proc.fresh (MaRing.init (name ++ "LeftEnq") (mem 0).1 (mem 0).2)
      (MaRing.configureQue (alloc 0) left.nTxq)
    let rightEnq ← Proc.fresh (MaRing.init (name ++ "RightEnq") (mem 1).1 (mem 1).2)
      (MaRing.configureQue (alloc 1) right.nTxq)
    let n ← Proc.get
    Proc.set (n.addPpp ⟨name, leftEnq, rightEnq, l, r⟩)
    modifyPort l (VnfPort.setDev (.virt (some (.leftEnq n.next)) (some (.rightEnq n.next))))
    modifyPort r (VnfPort.setDev (.virt (some (.rightEnq n.next)) (some (.leftEnq n.next))))
  else Proc.throw ("ssn_vnf_port_patch_panel::ssn_vnf_port_patch_panel: " ++
    "patch panel is not support (n_rxq,n_txq are invalid)")

/-- `r_->patched()` of a pointer to a port that may be no virt port. -/
def virtPatched (p : Nat) : Proc Nfvi (Option Bool) := do
  let port ← portAt p
  match port.dev with
  | .dpdk _ _ _ => pure none
  | .virt tx rx =>
    match VnfPort.patched tx rx with
    | .error c => Proc.crash c
    | .ok b => pure (some b)

def isVirt (n : Nfvi) (p : Nat) : Bool := (n.port p).dev matches .virt _ _

/-- Whether the two ports are one port is not asked. -/
def pppAlloc (iname : String) (r l : Option Nat) (alloc : Nat → Nat → Bool) (mem : Nat → Nat × Nat) :
    Proc Nfvi Bool := do
  let n ← Proc.get
  if (n.findPpp iname).isSome then pure false
  else
    match r, l with
    | some r, some l =>
      if n.isVirt r ∧ n.isVirt l then
        if (← virtPatched r) = some true then pure false
        else if (← virtPatched l) = some true then pure false
        else
          newPatchPanel iname r l alloc mem
          pure true
      else pure false
    | _, _ => pure false

/-- `~ssn_vnf_port_patch_panel` -/
def deletePatchPanel (x : PatchPanel) : Proc Nfvi Unit := do
  let _ ← portAt x.left
  modifyPort x.left (VnfPort.setDev (.virt none none))
  let _ ← portAt x.right
  modifyPort x.right (VnfPort.setDev (.virt none none))

/-- The loop is bounded by the number of VNFs. -/
def delPpp (a : Nat) : Proc Nfvi Unit := do
  let n ← Proc.get
  if a ∈ n.ppps.take n.vnfs.length then
    Proc.set {n with ppps := n.ppps.erase a}
    deletePatchPanel (n.ppp a)
  else if n.vnfs.length ≤ n.ppps.length then
    Proc.throw ("ssn_nfvi::del_ppp: not found ppp (" ++ (n.ppp a).name ++ ")")
  else Proc.crash .outOfBounds

/-! ### `/vnfs/NAME` -/

def vnfPost (iname : String) (cname : Option String) (mem : Nat → BitVec 32 × Nat) :
    Proc Nfvi Next := do
  let cname ← field cname
  if ← vnfAllocFromCatalog cname iname mem then yes "" else no "invalid cname or iname"

def vnfDelete (iname : String) : Proc Nfvi Next := do
  let n ← Proc.get
  match n.findVnf iname with
  | none => no "iname is invalid"
  | some v =>
    if (n.vnf v).isDeletable then
      delVnf v
      yes ""
    else no "vnf is not deletable"

/-! ### `/vnfs/NAME/ports/PORTID` -/

/-- A negative `pid` is a large one once compared with a `size_t`. -/
def validPid (x : Vnf) (pid : Int) : Bool := 0 ≤ pid && pid < x.nPorts

def slotPut (iname : String) (pid : Int) (pname : Option String) : Proc Nfvi Next := do
  let n ← Proc.get
  match n.findVnf iname with
  | none => no "not found vnf"
  | some v =>
    if validPid (n.vnf v) pid then
      if (n.vnf v).isRunning then no "vnf is still running"
      else
        let pname ← field pname
        match n.findPort pname with
        | none => no "port not found"
        | some p =>
          if (n.port p).isAttachedVnf then no "port has attached vnf"
          else
            let ret ← attachPort v pid.toNat p
            if ret < 0 then no "vnf::attach_port returned -1" else yes ""
    else no "invalid prot id"

def slotDelete (iname : String) (pid : Int) : Proc Nfvi Next := do
  let n ← Proc.get
  match n.findVnf iname with
  | none => no "not found vnf"
  | some v =>
    if validPid (n.vnf v) pid then
      if (n.vnf v).isRunning then no "vnf is still running"
      else
        let ret ← dettachPort v pid.toNat
        if ret < 0 then no "vnf::dettach_port returned -1" else yes ""
    else no "invalid prot id"

/-! ### `/ports/NAME` -/

def attachDev (attach : Except String Nat) : Proc Nfvi Dev :=
  match attach with
  | .error w => Proc.throw w
  | .ok socketId => do
    let n ← Proc.get
    Proc.set {n with nDev := n.nDev + 1}
    pure (.dpdk n.nDev socketId {})

/-- The port a catalog name stands for. A tap gets no hardware queues. -/
def makePort (pname cname : String) (option : Option String) (attach : Except String Nat) :
    Proc Nfvi (Option VnfPort) :=
  if cname = "tap" then do
    let _ ← field option
    let dev ← attachDev attach
    pure (some {name := pname, dev := dev})
  else if cname = "pipe" then do
    let dev ← attachDev attach
    pure (some (VnfPort.configHw nrxq ntxq {name := pname, dev := dev}))
  else if cname = "pci" then do
    let _ ← field option
    let dev ← attachDev attach
    pure (some (VnfPort.configHw nrxq ntxq {name := pname, dev := dev}))
  else if cname = "vhost" then do
    let dev ← attachDev attach
    pure (some (VnfPort.configHw nrxq ntxq {name := pname, dev := dev}))
  else if cname = "afpacket" then do
    let _ ← field option
    let dev ← attachDev attach
    pure (some (VnfPort.configHw nrxq ntxq {name := pname, dev := dev}))
  else if cname = "virt" then
    pure (some (VnfPort.configHw nrxq ntxq {name := pname, dev := .virt none none}))
  else pure none

def portPost (pname : String) (cname option : Option String) (attach : Except String Nat) :
    Proc Nfvi Next := do
  let n ← Proc.get
  if (n.findPort pname).isSome then no "pname already exists"
  else
    let cname ← field cname
    Proc.catching (do
      match ← makePort pname cname option attach with
      | none => no "catalog name is invalid"
      | some p =>
        appendPort p
        yes "") fun w => no w

def portDelete (pname : String) : Proc Nfvi Next := do
  let n ← Proc.get
  match n.findPort pname with
  | none => no "port not found"
  | some p =>
    if (n.port p).isAttachedVnf then no "port still attached to vnf"
    else
      delPort p
      yes ""

/-! ### `/vnfs/NAME/coremask/BLOCKID`, `reset`, `deploy`, `undeploy` -/

/-- Round `i` of the loop and those after it, `left` in all. `(0x1<<i) & coremask != 0`
compares first, and `0x1` is an `int`. -/
def coremaskRounds (th : Native Task) (coremask : BitVec 64) (i : Nat) : Nat → Proc Nfvi Bool
  | 0 => pure true
  | left + 1 =>
    if 32 ≤ i then Proc.crash .shift
    else if (1#32 <<< i) &&& (if coremask ≠ 0 then 1 else 0) ≠ 0 then
      if th.lcore i matches .wait then coremaskRounds th coremask (i + 1) left else pure false
    else coremaskRounds th coremask (i + 1) left

def coremaskIsValid (th : Native Task) (coremask : BitVec 64) : Proc Nfvi Bool :=
  coremaskRounds th coremask 0 th.nLcore

def coremaskPut (th : Native Task) (iname : String) (blockId : Int) (coremask : Option (BitVec 32)) :
    Proc Nfvi Next := do
  let n ← Proc.get
  match n.findVnf iname with
  | none => no "not found vnf"
  | some v =>
    if (n.vnf v).isRunning then no "vnf still running"
    else if blockId < 0 then Proc.throw "vector::at"
    else
      let b ← blockAt v blockId.toNat
      if b.coremask ≠ 0 then no "vnf is not reset yet"
      else
        let coremask ← field coremask
        if ← coremaskIsValid th (coremask.setWidth 64) then
          let ret ← setCoremask v blockId.toNat coremask
          if ret < 0 then no "vnf can't set coremask"
          else yes (iname ++ ": coremask bid=" ++ toString blockId ++ " mask=0x" ++
            String.ofList (Nat.toDigits 16 coremask.toNat))
        else no "coremask is invalid"

def resetPut (iname : String) : Proc Nfvi Next := do
  let n ← Proc.get
  match n.findVnf iname with
  | none => no "not found vnf"
  | some v =>
    if (n.vnf v).isRunning then no "vnf still running"
    else
      let ret ← reset v
      if ret < 0 then no "vnf can't reset port-access-config" else yes "reset vnf's running config"

/-- `ssn_vnf::deploy` up to its blocks. -/
def deploy (v : Nat) : Proc Nfvi Next := do
  if ← deployPorts v then pure (.launch v) else pure (.done (.deployed v (-1)))

def deployPut (iname : String) : Proc Nfvi Next := do
  let n ← Proc.get
  match n.findVnf iname with
  | none => no "not found vnf"
  | some v =>
    if (n.vnf v).isRunning then no "already running"
    else deploy v

def undeployPut (iname : String) : Proc Nfvi Next := do
  let n ← Proc.get
  match n.findVnf iname with
  | none => no "not found vnf"
  | some v => if (n.vnf v).isRunning then pure (.undeploy v) else no "vnf is not running"

/-! ### `/ppps/NAME` -/

def pppPost (name : String) (right left : Option String) (alloc : Nat → Nat → Bool)
    (mem : Nat → Nat × Nat) : Proc Nfvi Next := do
  let n ← Proc.get
  if (n.findPpp name).isSome then no "ppp already exists"
  else
    let rightName ← field right
    let leftName ← field left
    if ← pppAlloc name (n.findPort rightName) (n.findPort leftName) alloc mem then yes ""
    else no "unsuccess to allocate ppp"

/-- One half of `deletable`: no VNF runs on the endpoint. -/
def endpointFree (p : Nat) : Proc Nfvi Bool := do
  let port ← portAt p
  match port.attachedVnf with
  | none => pure true
  | some v =>
    let x ← vnfAt v
    pure !x.isRunning

def pppDelete (name : String) : Proc Nfvi Next := do
  let n ← Proc.get
  match n.findPpp name with
  | none => no "ppp not found"
  | some a =>
    if ← endpointFree (n.ppp a).left then
      if ← endpointFree (n.ppp a).right then
        delPpp a
        yes ""
      else no "ppp is not deletable"
    else no "ppp is not deletable"

def handle (th : Native Task) : Request → Proc Nfvi Next
  | .vnfPost iname cname mem => vnfPost iname cname mem
  | .vnfDelete iname => vnfDelete iname
  | .slotPut iname pid pname => slotPut iname pid pname
  | .slotDelete iname pid => slotDelete iname pid
  | .portPost pname cname option attach => portPost pname cname option attach
  | .portDelete pname => portDelete pname
  | .coremaskPut iname blockId coremask => coremaskPut th iname blockId coremask
  | .resetPut iname => resetPut iname
  | .deployPut iname => deployPut iname
  | .undeployPut iname => undeployPut iname
  | .pppPost name right left alloc mem => pppPost name right left alloc mem
  | .pppDelete name => pppDelete name

end Nfvi

end Susanow
