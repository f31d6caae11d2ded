import Susanow.Crow.Dispatch
import Susanow.Crow.RoundTrip
import Susanow.Nfvi.Rest

/-! The REST interface, from the text of a request to its handler.

A request is routed by its URL and method. The handler takes names and numbers from the URL and
fields from the body, and hands names on as C strings. -/
namespace Susanow.Http
open Crow.Routing (Rule Router Outcome RoutingParams Strtod)
open Crow.Json (Rvalue)

/-! ### The routes -/

/-- `crow::HTTPMethod` -/
inductive Method
  | delete
  | get
  | head
  | post
  | put
  | connect
  | options
  | trace
  deriving DecidableEq, Repr

def Method.code : Method → Nat
  | delete => 0
  | get => 1
  | head => 2
  | post => 3
  | put => 4
  | connect => 5
  | options => 6
  | trace => 7

/-- `methods(..)` of a rule. -/
def methods : List Method → Nat
  | [] => 0
  | m :: ms => methods ms ||| 1 <<< m.code

/-- The functions `addroute__..`. -/
inductive Route
  | root
  | system
  | systemCpu
  | systemMem
  | systemPnic
  | vnfs
  | vnfsName
  | vnfsNamePortsPortid
  | ports
  | portsName
  | catalogsVnf
  | vnfsNameCoremaskBlockid
  | vnfsNameReset
  | vnfsNameDeploy
  | vnfsNameUndeploy
  | ppps
  | pppsName
  deriving DecidableEq, Repr

namespace Route

/-- In the order in which `rest_api_thread` calls them. -/
def all : List Route :=
  [root, system, systemCpu, systemMem, systemPnic, vnfs, vnfsName, vnfsNamePortsPortid, ports, portsName,
    catalogsVnf, vnfsNameCoremaskBlockid, vnfsNameReset, vnfsNameDeploy, vnfsNameUndeploy, ppps, pppsName]

def pattern : Route → String
  | root => "/"
  | system => "/system"
  | systemCpu => "/system/cpu"
  | systemMem => "/system/mem"
  | systemPnic => "/system/pnic"
  | vnfs => "/vnfs"
  | vnfsName => "/vnfs/<str>"
  | vnfsNamePortsPortid => "/vnfs/<str>/ports/<int>"
  | ports => "/ports"
  | portsName => "/ports/<str>"
  | catalogsVnf => "/catalogs/vnf"
  | vnfsNameCoremaskBlockid => "/vnfs/<str>/coremask/<int>"
  | vnfsNameReset => "/vnfs/<str>/reset"
  | vnfsNameDeploy => "/vnfs/<str>/deploy"
  | vnfsNameUndeploy => "/vnfs/<str>/undeploy"
  | ppps => "/ppps"
  | pppsName => "/ppps/<str>"

def methods : Route → List Method
  | root | system | systemCpu | systemMem | systemPnic | vnfs | ports | catalogsVnf | ppps => [.get]
  | vnfsName | portsName | pppsName => [.get, .post, .delete]
  | vnfsNamePortsPortid => [.put, .delete]
  | vnfsNameCoremaskBlockid | vnfsNameReset | vnfsNameDeploy | vnfsNameUndeploy => [.put]

def rule (r : Route) : Rule := ⟨r.pattern.toList, Http.methods r.methods⟩

end Route

def routes : List Rule := Route.all.map Route.rule

/-! ### The handlers -/

/-- A text as a C string. -/
def cStr (s : List Char) : String := String.ofList (s.takeWhile (· != '\x00'))

/-- An `int64_t` handed over as an `int`. -/
def toInt (v : Int) : Int := (BitVec.ofInt 32 v).toInt

/-- `load(body)[key]..`; everything that throws is `none`. -/
def valueAt (body : List Char) (path : List String) : Option Rvalue :=
  match Crow.Json.load body with
  | .error _ => none
  | .ok v => path.foldlM (fun v key => v.get key.toList) v

def textAt (body : List Char) (path : List String) : Option (List Char) := (valueAt body path).bind Rvalue.s

/-- What only the machine can answer, for any request. -/
structure Machine where
  vnfMem : Nat → BitVec 32 × Nat
  attach : Except String Nat
  alloc : Nat → Nat → Bool
  ringMem : Nat → Nat × Nat

/-- What a request comes to: an answer of the server's own, a handler that only reads, of what has
the name if the route has one, or a request to the NFVi. -/
inductive Served
  | notFound
  | redirect (location : List Char)
  | read (r : Route) (name : Option String)
  | run (r : Request)

variable {D : Type}

/-- The function that is given to a route. -/
def Route.handler (m : Machine) (method : Nat) (params : RoutingParams D) (body : List Char) (r : Route) : Served :=
  let name := cStr (params.stringParams.headD [])
  let number := toInt (params.intParams.headD 0)
  match r with
  | .root | .system | .systemCpu | .systemMem | .systemPnic | .vnfs | .ports | .catalogsVnf | .ppps =>
    .read r none
  | .vnfsName =>
    if method = Method.get.code then .read r (some name)
    else if method = Method.post.code then .run (.vnfPost name ((textAt body ["cname"]).map cStr) m.vnfMem)
    else .run (.vnfDelete name)
  | .vnfsNamePortsPortid =>
    if method = Method.put.code then .run (.slotPut name number ((textAt body ["pname"]).map cStr))
    else .run (.slotDelete name number)
  | .portsName =>
    if method = Method.get.code then .read r (some name)
    else if method = Method.post.code then
      let cname := (textAt body ["cname"]).map String.ofList
      let option := if cname = some "pci" then textAt body ["options", "pciaddr"] else textAt body ["options", "ifname"]
      .run (.portPost name cname (option.map cStr) m.attach)
    else .run (.portDelete name)
  | .vnfsNameCoremaskBlockid =>
    .run (.coremaskPut name number (((valueAt body ["coremask"]).bind Rvalue.i).map (BitVec.ofInt 32)))
  | .vnfsNameReset => .run (.resetPut name)
  | .vnfsNameDeploy => .run (.deployPut name)
  | .vnfsNameUndeploy => .run (.undeployPut name)
  | .pppsName =>
    if method = Method.get.code then .read r (some name)
    else if method = Method.post.code then
      .run (.pppPost name ((textAt body ["right"]).map cStr) ((textAt body ["left"]).map cStr) m.alloc m.ringMem)
    else .run (.pppDelete name)

/-- What the parser makes of a request. -/
structure HttpRequest where
  method : Nat
  rawUrl : List Char
  host : List Char
  body : List Char
  deriving DecidableEq, Repr

/-- Without the query. -/
def HttpRequest.url (req : HttpRequest) : List Char := req.rawUrl.takeWhile (· != '?')

/-- The request goes through the router. -/
def served (strtod : Strtod D) (m : Machine) (rules : List Rule) (req : HttpRequest) : Option Served := do
  let R ← (Router.build rules).toOption
  match ← R.handle strtod ⟨req.method, req.url, req.host⟩ with
  | .notFound => pure .notFound
  | .redirect location => pure (.redirect location)
  | .corrupted => none
  | .handler rule params =>
    let r ← Route.all.find? fun r => r.rule = rule
    pure (r.handler m req.method params req.body)

end Susanow.Http
