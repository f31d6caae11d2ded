import Susanow.Base.Words
import Susanow.Base.Decimal

/-! `crow::Trie` and `crow::Router`: by which rule a URL is handled.

The patterns of the rules are put in a trie, letter by letter and parameter by parameter.
Before the server starts the trie is made smaller: a node all of whose children carry nothing
but letters takes over their letters. A URL is then looked for along all the branches that fit
it. A text is a list of characters, and a position in it the list of those that follow. -/
namespace Susanow.Crow.Routing
open Decimal (isDigit signed)

inductive ParamType
  | int
  | uint
  | double
  | string
  | path
  deriving DecidableEq, Repr

/-- In the order of their values. -/
def ParamType.all : List ParamType := [.int, .uint, .double, .string, .path]

/-- A parameter that was read. `path` pushes a string as well. -/
inductive Param (D : Type)
  | int (v : Int)
  | uint (v : Nat)
  | double (v : D)
  | string (v : List Char)
  deriving DecidableEq, Repr

/-- `routing_params` -/
structure RoutingParams (D : Type) where
  intParams : List Int := []
  uintParams : List Nat := []
  doubleParams : List D := []
  stringParams : List (List Char) := []
  deriving DecidableEq, Repr

variable {D : Type}

namespace RoutingParams

/-- `push_back` -/
def push (ps : RoutingParams D) : Param D → RoutingParams D
  | .int v => { ps with intParams := ps.intParams ++ [v] }
  | .uint v => { ps with uintParams := ps.uintParams ++ [v] }
  | .double v => { ps with doubleParams := ps.doubleParams ++ [v] }
  | .string v => { ps with stringParams := ps.stringParams ++ [v] }

/-- A branch along letters pushes nothing. -/
def push? (ps : RoutingParams D) : Option (Param D) → RoutingParams D
  | none => ps
  | some p => ps.push p

end RoutingParams

/-! ### Reading parameters -/

/-- `strtod`, which leaves the number format to the library: nothing where there is no number,
or `ERANGE`. Else it goes on by one character at least. -/
structure Strtod (D : Type) where
  read : List Char → Option (D × List Char)
  forward : ∀ s d rest, read s = some (d, rest) → rest.length < s.length

/-- Where no rule has such a parameter. -/
def Strtod.none : Strtod Empty where
  read _ := Option.none
  forward _ _ _ h := by cases h

/-- The number that the digits at the start make. -/
def natural (s : List Char) : Nat := Decimal.value ((s.takeWhile isDigit).map Decimal.ofDigit)

/-- `strtoll` to base 10, where no blank stands: nothing without a digit, or at `ERANGE`. -/
def strtoll (s : List Char) : Option (Int × List Char) :=
  let t := (signed s).2
  let v : Int := if (signed s).1 then -(natural t : Int) else natural t
  if t.takeWhile isDigit = [] ∨ v < -2 ^ 63 ∨ 2 ^ 63 ≤ v then none else some (v, t.dropWhile isDigit)

/-- `strtoull`, likewise. It takes a sign and negates within 64 bits. -/
def strtoull (s : List Char) : Option (Nat × List Char) :=
  let t := (signed s).2
  if t.takeWhile isDigit = [] ∨ 2 ^ 64 ≤ natural t then none
  else some (if (signed s).1 then (2 ^ 64 - natural t) % 2 ^ 64 else natural t, t.dropWhile isDigit)

/-- Where `find` looks for a parameter: what it pushes, and where it goes on. -/
def scan (strtod : Strtod D) : ParamType → List Char → Option (Param D × List Char)
  | _, [] => none
  | .int, c :: s =>
    if isDigit c || c == '+' || c == '-' then (strtoll (c :: s)).map fun r => (.int r.1, r.2) else none
  | .uint, c :: s =>
    if isDigit c || c == '+' then (strtoull (c :: s)).map fun r => (.uint r.1, r.2) else none
  | .double, c :: s =>
    if isDigit c || c == '+' || c == '-' || c == '.' then (strtod.read (c :: s)).map fun r => (.double r.1, r.2)
    else none
  | .string, c :: s =>
    if c = '/' then none
    else some (.string ((c :: s).takeWhile (· != '/')), (c :: s).dropWhile (· != '/'))
  | .path, c :: s => some (.string (c :: s), [])

/-! ### The trie -/

/-- The children are an unordered map: their order is any. -/
structure Node where
  ruleIndex : Nat := 0
  paramChildrens : ParamType → Nat := fun _ => 0
  children : List (List Char × Nat) := []

/-- `IsSimpleNode` -/
def Node.isSimple (n : Node) : Bool := n.ruleIndex == 0 && ParamType.all.all fun t => n.paramChildrens t == 0

/-- `nodes_`; behind its last one a node is as `resize` makes it. -/
structure Trie where
  size : Nat := 1
  node : Nat → Node := fun _ => {}

/-- One step along a pattern. -/
inductive Token
  | param (t : ParamType)
  | literal (c : Char)
  deriving DecidableEq, Repr

namespace Trie
variable (T : Trie)

def setNode (i : Nat) (n : Node) : Trie := { T with node := fun j => if j = i then n else T.node j }

/-- The child for a token, if there is one. -/
def child (idx : Nat) : Token → Option Nat
  | .param t => if (T.node idx).paramChildrens t = 0 then none else some ((T.node idx).paramChildrens t)
  | .literal c => (T.node idx).children.lookup [c]

/-- Where the child for a token is noted. -/
def link (idx : Nat) (tok : Token) (j : Nat) : Trie :=
  let n := T.node idx
  T.setNode idx <| match tok with
    | .param t => { n with paramChildrens := fun u => if u = t then j else n.paramChildrens u }
    | .literal c => { n with children := ([c], j) :: n.children }

/-- A step of `add`: to the child, which is made if there is none. -/
def enter (idx : Nat) (tok : Token) : Trie × Nat :=
  match T.child idx tok with
  | some j => (T, j)
  | none => (({ T with size := T.size + 1 } : Trie).link idx tok T.size, T.size)

end Trie

/-- `paramTraits` -/
def paramTraits : List (ParamType × List Char) :=
  [(.int, "<int>".toList), (.uint, "<uint>".toList), (.double, "<float>".toList), (.double, "<double>".toList),
    (.string, "<str>".toList), (.string, "<string>".toList), (.path, "<path>".toList)]

/-- The first of them that is the name at the start of `s`. -/
def paramAt (s : List Char) : Option (ParamType × List Char) := paramTraits.find? fun x => x.2.isPrefixOf s

/-- Why a rule is not added. -/
inductive Refusal
  | hangs
  | throws (what : String)
  deriving DecidableEq, Repr

namespace Trie

/-- The loop of `add`, which passes over the next `skip` characters. At a `<` that starts no
name it stays for ever. -/
def walk : Trie → Nat → Nat → List Char → Except Refusal (Trie × Nat)
  | T, idx, _, [] => .ok (T, idx)
  | T, idx, skip + 1, _ :: s => walk T idx skip s
  | T, idx, 0, c :: s =>
    if c = '<' then
      match paramAt (c :: s) with
      | none => .error .hangs
      | some (t, name) => walk (T.enter idx (.param t)).1 (T.enter idx (.param t)).2 (name.length - 1) s
    else walk (T.enter idx (.literal c)).1 (T.enter idx (.literal c)).2 0 s

def add (T : Trie) (url : List Char) (ruleIndex : Nat) : Except Refusal Trie := do
  let (T, idx) ← T.walk 0 0 url
  if (T.node idx).ruleIndex ≠ 0 then throw (.throws ("handler already exists for " ++ String.ofList url))
  else pure (T.setNode idx { T.node idx with ruleIndex := ruleIndex })

/-- `m[key] = x` -/
def assign (m : List (List Char × Nat)) (key : List Char) (x : Nat) : List (List Char × Nat) :=
  (key, x) :: m.filter fun kv => kv.1 != key

/-- The children of the children, under joined letters. -/
def merged (T : Trie) (children : List (List Char × Nat)) : List (List Char × Nat) :=
  children.foldl (fun m kv =>
    (T.node kv.2).children.foldl (fun m childKv => assign m (kv.1 ++ childKv.1) childKv.2) m) []

/-- `optimizeNode`, with a bound on the calls. -/
def optimizeNode : Nat → Trie → Nat → Option Trie
  | 0, _, _ => none
  | f + 1, T, i => do
    let T ← ParamType.all.foldlM (fun T t =>
      let x := (T.node i).paramChildrens t
      if x = 0 then some T else optimizeNode f T x) T
    let n := T.node i
    if n.children = [] then some T
    else if n.children.all fun kv => (T.node kv.2).isSimple then
      optimizeNode f (T.setNode i { n with children := T.merged n.children }) i
    else n.children.foldlM (fun T kv => optimizeNode f T kv.2) T

/-- A node calls `optimizeNode` for others that are behind it, or again with children further behind. -/
def optimize (T : Trie) : Option Trie := optimizeNode ((T.size + 1) * (T.size + 1)) T 0

def validate (T : Trie) : Except Refusal Trie :=
  if (T.node 0).isSimple then
    match T.optimize with
    | some T => .ok T
    | none => .error .hangs
  else .error (.throws "Internal error: Trie header should be simple!")

/-- Where `find` goes on from a node: what it pushes, the child, and the rest of the URL. -/
def branches (strtod : Strtod D) (T : Trie) (i : Nat) (url : List Char) :
    List (Option (Param D) × Nat × List Char) :=
  (ParamType.all.filterMap fun t =>
    let x := (T.node i).paramChildrens t
    if x = 0 then none else (scan strtod t url).map fun r => (some r.1, x, r.2)) ++
  (T.node i).children.filterMap fun kv =>
    if kv.1.isPrefixOf url then some (none, kv.2, url.drop kv.1.length) else none

end Trie

/-- `update_found` -/
def updateFound (found ret : Nat × RoutingParams D) : Nat × RoutingParams D :=
  if ret.1 ≠ 0 ∧ (found.1 = 0 ∨ found.1 > ret.1) then ret else found

namespace Trie

/-- `find` from a node on, with a bound on the calls. -/
def findFrom (strtod : Strtod D) (T : Trie) : Nat → Nat → List Char → RoutingParams D → Option (Nat × RoutingParams D)
  | 0, _, _, _ => none
  | _ + 1, i, [], params => some ((T.node i).ruleIndex, params)
  | f + 1, i, c :: s, params =>
    (T.branches strtod i (c :: s)).foldlM (fun found b => do
      let ret ← findFrom strtod T f b.2.1 b.2.2 (params.push? b.1)
      pure (updateFound found ret)) (0, {})

/-- Every branch leaves a shorter URL. -/
def find (strtod : Strtod D) (T : Trie) (url : List Char) : Option (Nat × RoutingParams D) :=
  T.findFrom strtod (url.length + 1) 0 url {}

end Trie

/-! ### The router -/

/-- `methods` is a set of bits. -/
structure Rule where
  rule : List Char
  methods : Nat
  deriving DecidableEq, Repr

/-- `rules`: those of `rules_` from index 2 on. -/
structure Router where
  rules : List Rule := []
  trie : Trie := {}

/-- `RULE_SPECIAL_REDIRECT_SLASH` -/
def ruleSpecialRedirectSlash : Nat := 1

/-- The rule ends with a slash, and is more than a slash. -/
def Rule.directory (r : Rule) : Bool := 1 < r.rule.length && r.rule.getLast? == some '/'

/-- `internal_add_rule_object` -/
def Router.addRule (R : Router) (r : Rule) : Except Refusal Router := do
  let T ← R.trie.add r.rule (R.rules.length + 2)
  let T ← if r.directory then T.add r.rule.dropLast ruleSpecialRedirectSlash else pure T
  pure { rules := R.rules ++ [r], trie := T }

/-- The rules of an application, and `validate`. -/
def Router.build (rules : List Rule) : Except Refusal Router := do
  let R ← rules.foldlM Router.addRule {}
  let T ← R.trie.validate
  pure { R with trie := T }

/-- What `handle` looks at; `method` is a number. -/
structure Request where
  method : Nat
  url : List Char
  host : List Char
  deriving DecidableEq, Repr

/-- What becomes of a request. `handler` runs the rule's handler. -/
inductive Outcome (D : Type)
  | notFound
  | redirect (location : List Char)
  | handler (rule : Rule) (params : RoutingParams D)
  | corrupted
  deriving DecidableEq, Repr

/-- Where a URL that lacks its slash is sent. -/
def Request.location (req : Request) : List Char :=
  if req.host = [] then req.url ++ ['/'] else "http://".toList ++ req.host ++ req.url ++ ['/']

/-- `Router::handle` -/
def Router.handle (strtod : Strtod D) (R : Router) (req : Request) : Option (Outcome D) := do
  let found ← R.trie.find strtod req.url
  if found.1 = 0 then pure .notFound
  else if R.rules.length + 2 ≤ found.1 then pure .corrupted
  else if found.1 = ruleSpecialRedirectSlash then pure (.redirect req.location)
  else
    match R.rules[found.1 - 2]? with
    | none => pure .corrupted
    | some rule => pure (if rule.methods.testBit req.method then .handler rule found.2 else .notFound)

end Susanow.Crow.Routing
