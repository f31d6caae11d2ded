import Susanow.Base.Runs
import Susanow.Nfvi.Rest

/-! The NFVi with its threads.

The server's thread and the launched workers interleave. A handler is one step,
except that a deploy launches one thread a step and an undeploy joins one a step;
`Ctrl` says where the server's thread stands. A worker reads its slot, stores its
block's flag, and then tests the flag before every pass over its ports; a pass
moves packets and changes nothing that is kept here. `none` is a step that cannot
be taken: the server's thread is busy, a join still waits, or the process is gone. -/
namespace Susanow

/-- Where the block loop of an undeploy goes back to. -/
inductive Kont
  | rollback
  | put
  deriving DecidableEq, Repr

inductive Ctrl
  | idle (last : Option Done)
  | launching (v bid i : Nat)
  | undeploying (v bid : Nat) (k : Kont)
  | joining (v bid i : Nat) (k : Kont)
  deriving DecidableEq, Repr

/-- What has happened to the threads of block `bid` of VNF `v`. -/
inductive Event
  | deploy (v bid : Nat)
  | launched (v bid l : Nat)
  | joined (v bid l : Nat)
  | undeployed (v bid : Nat)
  deriving DecidableEq, Repr

/-- The methods of `ssn_vnf`, called directly and not through a handler. -/
inductive Call
  | reset (v : Nat)
  | setCoremask (v bid : Nat) (cmask : BitVec 32)
  | deploy (v : Nat)
  | undeploy (v : Nat)

inductive Label
  | request (r : Request)
  | call (c : Call)
  | ctl
  | wrk (l : Nat)

structure Sys where
  nfvi : Nfvi
  native : Native Task
  ctrl : Ctrl := .idle none
  -- newest first
  log : List Event := []

namespace Sys

/-- After the constructor of `ssn_nfvi`: the timer's thread is on lcore 1. -/
def init (nSocket nLcore : Nat) (catalog : List (String × VnfClass)) : Sys where
  nfvi := {nSocket := nSocket, catalog := catalog}
  native := ⟨nLcore, Function.update (fun _ => none) 1 (some .timer), [1],
    Function.update (fun _ => .wait) 1 (.running .timer (.looping .timer))⟩

abbrev block? (s : Sys) (v bid : Nat) : Option Block := s.nfvi.block? v bid

def editBlock (s : Sys) (v bid : Nat) (f : Block → Block) : Sys :=
  {s with nfvi := s.nfvi.editBlock v bid f}

def note (s : Sys) (e : Event) : Sys := {s with log := e :: s.log}

def goto (s : Sys) (c : Ctrl) : Sys := {s with ctrl := c}

/-! ### The server's thread -/

def invoke : Call → Proc Nfvi Next
  | .reset v => do
    let ret ← Nfvi.reset v
    pure (.done (.returned ret))
  | .setCoremask v bid cmask => do
    let ret ← Nfvi.setCoremask v bid cmask
    pure (.done (.returned ret))
  | .deploy v => Nfvi.deploy v
  | .undeploy v => do
    let _ ← Nfvi.vnfAt v
    pure (.undeploy v)

def ctrlOf : Next → Ctrl
  | .done d => .idle (some d)
  | .launch v => .launching v 0 0
  | .undeploy v => .undeploying v 0 .put

/-- One handler, or one method, from its start to its end or its block loop. -/
def serve (s : Sys) (p : Proc Nfvi Next) : Option Sys :=
  match s.ctrl, p s.nfvi with
  | .idle _, .ret nx n => some {s with nfvi := n, ctrl := ctrlOf nx}
  | .idle _, .throws w n => some {s with nfvi := n, ctrl := .idle (some (.threw w))}
  | _, _ => none

def setTid (i tid : Nat) (b : Block) : Block := {b with tids := b.tids.set i tid}

def setRunning (running : Bool) (b : Block) : Block := {b with running := running}

/-- A block's deploy begins with its first vcore. -/
def begun (s : Sys) (v bid i : Nat) : Sys := if i = 0 then s.note (.deploy v bid) else s

/-- `ssn_vnf_block::deploy` of block `bid` at vcore `i`; `tids` and `vcores` have one length. -/
def launchStep (s : Sys) (v bid i : Nat) : Option Sys :=
  match s.block? v bid with
  | none => some (s.goto (.idle (some (.deployed v 0))))
  | some b =>
    if b.vcores = [] then some ((s.begun v bid i).goto (.undeploying v 0 .rollback))
    else
      match b.vcores[i]? with
      | none => some ((s.begun v bid i).goto (.launching v (bid + 1) 0))
      | some vc =>
        match Native.launch (.block v bid) vc.lcoreId s.native with
        | .ret tid th => some ((({s.begun v bid i with native := th}.editBlock v bid (setTid i tid)).note
            (.launched v bid tid)).goto (.launching v bid (i + 1)))
        | .throws _ th =>
          some ({s.begun v bid i with native := th}.goto (.undeploying v 0 .rollback))
        | .crash _ => none

/-- `ssn_vnf::undeploy` at block `bid`, up to the store of the flag. -/
def undeployStep (s : Sys) (v bid : Nat) (k : Kont) : Option Sys :=
  match s.block? v bid with
  | none =>
    match k with
    | .rollback => some (s.goto (.idle (some (.deployed v (-1)))))
    | .put => some (s.goto (.idle (some (.undeployed v))))
  | some b =>
    if b.running then
      if b.tids.length = b.vcores.length then
        some ((s.editBlock v bid (setRunning false)).goto (.joining v bid 0 k))
      else none
    else some (s.goto (.undeploying v (bid + 1) k))

/-- `ssn_vnf_block::undeploy` at vcore `i`; an id 0 ends it. -/
def joinStep (s : Sys) (v bid i : Nat) (k : Kont) : Option Sys :=
  match s.block? v bid with
  | none => none
  | some b =>
    if i < b.vcores.length then
      match b.tids[i]? with
      | none => some (s.goto (.idle (some (.threw "vector::at"))))
      | some tid =>
        if tid = 0 then some ((s.note (.undeployed v bid)).goto (.undeploying v (bid + 1) k))
        else if (s.native.lcore tid).isRunning then none
        else
          match Native.join tid s.native with
          | .ret () th =>
            some (({s with native := th}.note (.joined v bid tid)).goto (.joining v bid (i + 1) k))
          | .throws w th => some ({s with native := th}.goto (.idle (some (.threw w))))
          | .crash _ => none
    else some ((s.note (.undeployed v bid)).goto (.undeploying v (bid + 1) k))

def ctl (s : Sys) : Option Sys :=
  match s.ctrl with
  | .idle _ => none
  | .launching v bid i => if v ∈ s.nfvi.vnfs then s.launchStep v bid i else none
  | .undeploying v bid k => if v ∈ s.nfvi.vnfs then s.undeployStep v bid k else none
  | .joining v bid i k => if v ∈ s.nfvi.vnfs then s.joinStep v bid i k else none

/-! ### The workers -/

def setLcore (s : Sys) (l : Nat) (c : Lcore Task) : Sys :=
  {s with native := {s.native with lcore := Function.update s.native.lcore l c}}

/-- `get_vlcore_id` throws on a core the block no longer has, and nobody catches it there. -/
def enterStep (s : Sys) (l : Nat) (launched : Task) (v bid : Nat) : Option Sys :=
  match s.block? v bid with
  | none => none
  | some b =>
    if l ∈ b.vcores.map Vcore.lcoreId then
      some ((s.editBlock v bid (setRunning true)).setLcore l
        (.running launched (.looping (.block v bid))))
    else none

def loopStep (s : Sys) (l : Nat) (launched : Task) (v bid : Nat) : Option Sys :=
  match s.block? v bid with
  | none => none
  | some b => if b.running then some s else some (s.setLcore l (.finished launched))

def wrk (s : Sys) (l : Nat) : Option Sys :=
  match s.native.lcore l with
  | .wait => none
  | .finished _ => none
  | .running _ .fetch => (Native.fetch l s.native).map fun th => {s with native := th}
  | .running t (.entered .timer) => some (s.setLcore l (.running t (.looping .timer)))
  | .running _ (.looping .timer) => some s
  | .running t (.entered (.block v bid)) =>
    if v ∈ s.nfvi.vnfs then s.enterStep l t v bid else none
  | .running t (.looping (.block v bid)) =>
    if v ∈ s.nfvi.vnfs then s.loopStep l t v bid else none

def step (s : Sys) : Label → Option Sys
  | .request r => s.serve (Nfvi.handle s.native r)
  | .call c => s.serve (invoke c)
  | .ctl => s.ctl
  | .wrk l => s.wrk l

/-! ### What the log says -/

/-- The threads of the most recent deploy of a block that have not been joined. -/
def outstanding (v bid : Nat) : List Event → List Nat
  | [] => []
  | .deploy w b :: log => if w = v ∧ b = bid then [] else outstanding v bid log
  | .launched w b l :: log =>
    if w = v ∧ b = bid then l :: outstanding v bid log else outstanding v bid log
  | .joined w b l :: log =>
    if w = v ∧ b = bid then (outstanding v bid log).erase l else outstanding v bid log
  | .undeployed _ _ :: log => outstanding v bid log

/-- The thread launched on `l` and not joined yet was launched for this block. -/
def Unjoined (s : Sys) (v bid l : Nat) : Prop := (s.native.lcore l).launched = some (.block v bid)

instance (s : Sys) (v bid l : Nat) : Decidable (s.Unjoined v bid l) :=
  inferInstanceAs (Decidable (_ = _))

abbrev flag (s : Sys) (v bid : Nat) : Bool := s.nfvi.flag v bid

end Sys

end Susanow
