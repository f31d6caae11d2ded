import Susanow.Nfvi.Http

/-! Requests as they go over the wire.

No URL fits two routes. Every request to the NFVi whose names a URL can carry has a text, and
the server makes that request of it (`served_encode`). -/
namespace Susanow.Http
open Crow.Routing
open Crow.Json (Rvalue Wvalue dump load)
open Decimal (print printInt)

variable {D : Type} {strtod : Strtod D}

theorem routes_admissible : Admissible routes := by decide +kernel

theorem routes_diverge : routes.Pairwise fun r r' => r.diverges r' = true := by decide +kernel

theorem routes_separate : Separate strtod routes := separate_of_diverges routes_diverge

theorem code_injective : Function.Injective Method.code := by
  intro m m' h
  cases m <;> cases m' <;> first | rfl | cases h

/-- The bits of a rule are its methods. -/
theorem testBit_methods {ms : List Method} {m : Method} : (methods ms).testBit m.code = true ↔ m ∈ ms := by
  induction ms with
  | nil => simp [methods]
  | cons m' ms ih =>
    rw [methods, Nat.testBit_or, Bool.or_eq_true, ih, Nat.one_shiftLeft, Nat.testBit_two_pow, decide_eq_true_eq,
      code_injective.eq_iff, List.mem_cons, or_comm, eq_comm]

/-- What is served, with the routes tried in turn. -/
def plainly (strtod : Strtod D) (m : Machine) (req : HttpRequest) : Option Served :=
  match dispatch strtod routes ⟨req.method, req.url, req.host⟩ with
  | .notFound => some .notFound
  | .redirect location => some (.redirect location)
  | .corrupted => none
  | .handler rule params => (Route.all.find? fun r => r.rule = rule).map fun r => r.handler m req.method params req.body

/-- In whatever order the routes are added, the same is served. -/
theorem served_of_perm {rules : List Rule} (h : routes.Perm rules) (m : Machine) (req : HttpRequest) :
    served strtod m rules req = plainly strtod m req := by
  have hbuild : ∃ R, Router.build rules = .ok R := by
    rcases build_spec rules with ⟨-, T, hT, -⟩ | ⟨hadm, -⟩
    · exact ⟨_, hT⟩
    · exact absurd (routes_admissible.perm h) hadm
  obtain ⟨R, hR⟩ := hbuild
  unfold served plainly
  rw [hR, dispatch_perm routes_separate h]
  show (do
    match ← R.handle strtod ⟨req.method, req.url, req.host⟩ with
    | .notFound => pure .notFound
    | .redirect location => pure (.redirect location)
    | .corrupted => none
    | .handler rule params =>
      let r ← Route.all.find? fun r => r.rule = rule
      pure (r.handler m req.method params req.body) : Option Served) = _
  rw [handle_eq_dispatch hR]
  show (match dispatch strtod rules ⟨req.method, req.url, req.host⟩ with
    | .notFound => pure .notFound
    | .redirect location => pure (.redirect location)
    | .corrupted => none
    | .handler rule params => (do
      let r ← Route.all.find? fun r => r.rule = rule
      pure (r.handler m req.method params req.body)) : Option Served) = _
  cases dispatch strtod rules ⟨req.method, req.url, req.host⟩ with
  | notFound => rfl
  | redirect location => rfl
  | corrupted => rfl
  | handler rule params =>
    dsimp only
    cases Route.all.find? fun r => r.rule = rule <;> rfl

/-- **The order of the routes does not matter.** -/
theorem served_perm {rules rules' : List Rule} (h : routes.Perm rules) (h' : routes.Perm rules') (strtod : Strtod D)
    (m : Machine) (req : HttpRequest) : served strtod m rules req = served strtod m rules' req := by
  rw [served_of_perm h, served_of_perm h']

theorem served_perm_reverse :
    served Strtod.none ⟨fun _ => (0, 0), .error "", fun _ _ => false, fun _ => (0, 0)⟩ routes.reverse
        ⟨Method.delete.code, "/vnfs/vnf0/ports/1".toList, [], []⟩ =
      served Strtod.none ⟨fun _ => (0, 0), .error "", fun _ _ => false, fun _ => (0, 0)⟩ routes
        ⟨Method.delete.code, "/vnfs/vnf0/ports/1".toList, [], []⟩ :=
  served_perm (List.reverse_perm routes).symm (List.Perm.refl _) Strtod.none _ _

/-! ### What is read of a URL -/

section
variable {s rest : List Char} {toks : List Token} {params : RoutingParams D}

theorem reads_letters (s : List Char) (toks : List Token) (rest : List Char) (params : RoutingParams D) :
    reads strtod (s.map .literal ++ toks) (s ++ rest) params = reads strtod toks rest params := by
  rw [Trie.reads_literals, if_pos (List.isPrefixOf_iff_prefix.mpr (List.prefix_append s rest)), List.drop_left]

theorem reads_string (hne : s ≠ []) (hslash : ∀ c ∈ s, c ≠ '/') (hrest : ∀ c ∈ rest.head?, c = '/') :
    reads strtod (.param .string :: toks) (s ++ rest) params = reads strtod toks rest (params.push (.string s)) := by
  have hall : ∀ c ∈ s, (c != '/') = true := fun c hc => bne_iff_ne.mpr (hslash c hc)
  have hstop : rest.takeWhile (· != '/') = [] ∧ rest.dropWhile (· != '/') = rest := by
    cases rest with
    | nil => exact ⟨rfl, rfl⟩
    | cons c rest => simp [hrest c rfl]
  have hscan : scan strtod .string (s ++ rest) = some (.string s, rest) := by
    obtain ⟨c, s', rfl⟩ := List.exists_cons_of_ne_nil hne
    rw [List.cons_append, scan, if_neg (hslash c List.mem_cons_self), ← List.cons_append,
      List.takeWhile_append_of_pos hall, List.dropWhile_append_of_pos hall, hstop.1, hstop.2, List.append_nil]
  rw [reads, hscan]

theorem signed_printInt (v : Int) :
    ∃ n, Decimal.signed (printInt v) = (decide (v < 0), print n) ∧
      (if decide (v < 0) = true then -(n : Int) else (n : Int)) = v := by
  refine ⟨v.natAbs, ?_, ?_⟩
  · unfold printInt
    by_cases hv : v < 0
    · rw [if_pos hv, decide_eq_true hv]
      rfl
    · have hsigned := Decimal.signed_print_append v.natAbs []
      rw [List.append_nil] at hsigned
      rw [if_neg hv, hsigned, decide_eq_false hv]
  · simp only [decide_eq_true_eq]
    omega

theorem digits_print (n : Nat) :
    (print n).takeWhile Decimal.isDigit = print n ∧ (print n).dropWhile Decimal.isDigit = [] := by
  have h := Decimal.takeWhile_print_append n (s := []) fun c hc => by cases hc
  rwa [List.append_nil] at h

theorem natural_print (n : Nat) : natural (print n) = n := by
  rw [natural, (digits_print n).1, Decimal.value_print]

theorem strtoll_printInt {v : Int} (hlo : -2 ^ 63 ≤ v) (hhi : v < 2 ^ 63) : strtoll (printInt v) = some (v, []) := by
  obtain ⟨n, hsigned, hval⟩ := signed_printInt v
  have hne : print n ≠ [] := by
    obtain ⟨c, s, hs, -⟩ := Decimal.print_cons n
    rw [hs]
    exact List.cons_ne_nil c s
  unfold strtoll
  simp only [hsigned, natural_print, digits_print, hval]
  rw [if_neg]
  rintro (h | h | h)
  · exact hne h
  · omega
  · omega

theorem reads_int {v : Int} (hlo : -2 ^ 63 ≤ v) (hhi : v < 2 ^ 63) :
    reads strtod [.param .int] (printInt v) params = some (params.push (.int v)) := by
  have hhead : ∃ c s, printInt v = c :: s ∧ (Decimal.isDigit c || c == '+' || c == '-') = true := by
    unfold printInt
    split
    · exact ⟨'-', _, rfl, rfl⟩
    · obtain ⟨c, s, hs, hc⟩ := Decimal.print_cons v.natAbs
      exact ⟨c, s, hs, by simp [hc]⟩
  obtain ⟨c, s, hs, hc⟩ := hhead
  have hscan : scan strtod .int (printInt v) = some (.int v, []) := by
    have hread := strtoll_printInt hlo hhi
    rw [hs] at hread ⊢
    rw [scan, if_pos hc, hread]
    rfl
  rw [reads, hscan]
  rfl

end

/-! ### A request's text -/

/-- A name that a URL can carry. -/
def Named (s : String) : Prop := s.toList ≠ [] ∧ ∀ c ∈ s.toList, c ≠ '/' ∧ c ≠ '?' ∧ c ≠ '\x00'

/-- A text that goes on whole as a C string. -/
def Plain (s : String) : Prop := ∀ c ∈ s.toList, c ≠ '\x00'

instance (s : String) : Decidable (Named s) := inferInstanceAs (Decidable (_ ∧ _))

instance (s : String) : Decidable (Plain s) := inferInstanceAs (Decidable (∀ c ∈ s.toList, c ≠ '\x00'))

def IsInt (v : Int) : Prop := -2 ^ 31 ≤ v ∧ v < 2 ^ 31

instance (v : Int) : Decidable (IsInt v) := inferInstanceAs (Decidable (_ ∧ _))

theorem cStr_of_plain {s : String} (h : Plain s) : cStr s.toList = s := by
  rw [cStr, List.takeWhile_eq_self_iff.mpr fun c hc => bne_iff_ne.mpr (h c hc), String.ofList_toList]

theorem toInt_of_isInt {v : Int} (h : IsInt v) : toInt v = v := by
  unfold toInt
  rw [BitVec.toInt_ofInt]
  exact Int.bmod_eq_of_le (by have := h.1; omega) (by have := h.2; omega)

/-! ### The routes that have a name in them -/

section
variable {pattern name : List Char} {v : Int}

/-- What comes behind the name is read by the rest of the pattern. -/
theorem readsUrl_tail (pre suf : List Char) (tail : List Token) {rest : List Char}
    (htokens : tokens pattern = some (pre.map .literal ++ .param .string :: (suf.map .literal ++ tail)))
    (hne : name ≠ []) (hslash : ∀ c ∈ name, c ≠ '/') (hsuf : ∀ c ∈ (suf ++ rest).head?, c = '/') :
    readsUrl strtod pattern (pre ++ (name ++ (suf ++ rest))) =
      reads strtod tail rest (({} : RoutingParams D).push (.string name)) := by
  rw [readsUrl, htokens, Option.bind_some, reads_letters, reads_string hne hslash hsuf, reads_letters]

theorem readsUrl_suffix (pre suf : List Char)
    (htokens : tokens pattern = some (pre.map .literal ++ .param .string :: suf.map .literal))
    (hsuf : ∀ c ∈ suf.head?, c = '/') (hne : name ≠ []) (hslash : ∀ c ∈ name, c ≠ '/') :
    readsUrl strtod pattern (pre ++ (name ++ suf)) = some { stringParams := [name] } := by
  rw [← List.append_nil suf] at hsuf ⊢
  exact readsUrl_tail pre suf [] (by rwa [List.append_nil]) hne hslash hsuf

theorem readsUrl_name (pre : List Char) (htokens : tokens pattern = some (pre.map .literal ++ [.param .string]))
    (hne : name ≠ []) (hslash : ∀ c ∈ name, c ≠ '/') :
    readsUrl strtod pattern (pre ++ name) = some { stringParams := [name] } := by
  have h : readsUrl strtod pattern (pre ++ (name ++ [])) = _ :=
    readsUrl_suffix pre [] htokens (fun c hc => by cases hc) hne hslash
  rwa [List.append_nil] at h

theorem head_suffix {suf : List Char} (hsuf : suf.head? = some '/') (rest : List Char) :
    ∀ c ∈ (suf ++ rest).head?, c = '/' := by
  intro c hc
  rw [List.head?_append, hsuf] at hc
  exact (Option.some.inj hc).symm

theorem readsUrl_number (pre suf : List Char)
    (htokens : tokens pattern = some (pre.map .literal ++ .param .string :: (suf.map .literal ++ [.param .int])))
    (hsuf : suf.head? = some '/') (hne : name ≠ []) (hslash : ∀ c ∈ name, c ≠ '/')
    (hlo : -2 ^ 63 ≤ v) (hhi : v < 2 ^ 63) :
    readsUrl strtod pattern (pre ++ (name ++ (suf ++ printInt v))) =
      some { intParams := [v], stringParams := [name] } := by
  rw [readsUrl_tail pre suf [.param .int] htokens hne hslash (head_suffix hsuf _), reads_int hlo hhi]
  rfl

end

/-- The URL of a route, with a name and a number put in. -/
def Route.path (name : List Char) (v : Int) : Route → List Char
  | vnfsName => "/vnfs/".toList ++ name
  | vnfsNamePortsPortid => "/vnfs/".toList ++ (name ++ ("/ports/".toList ++ printInt v))
  | portsName => "/ports/".toList ++ name
  | vnfsNameCoremaskBlockid => "/vnfs/".toList ++ (name ++ ("/coremask/".toList ++ printInt v))
  | vnfsNameReset => "/vnfs/".toList ++ (name ++ "/reset".toList)
  | vnfsNameDeploy => "/vnfs/".toList ++ (name ++ "/deploy".toList)
  | vnfsNameUndeploy => "/vnfs/".toList ++ (name ++ "/undeploy".toList)
  | pppsName => "/ppps/".toList ++ name
  | r => r.pattern.toList

/-- The route takes a name from the URL. -/
def Route.named : Route → Bool
  | vnfsName | vnfsNamePortsPortid | portsName | vnfsNameCoremaskBlockid | vnfsNameReset | vnfsNameDeploy
  | vnfsNameUndeploy | pppsName => true
  | _ => false

/-- And a number. -/
def Route.numbered : Route → Bool
  | vnfsNamePortsPortid | vnfsNameCoremaskBlockid => true
  | _ => false

theorem readsUrl_path {r : Route} (hr : r.named = true) {name : List Char} {v : Int} (hne : name ≠ [])
    (hslash : ∀ c ∈ name, c ≠ '/') (hlo : -2 ^ 63 ≤ v) (hhi : v < 2 ^ 63) :
    readsUrl strtod r.pattern.toList (r.path name v) =
      some { intParams := if r.numbered then [v] else [], stringParams := [name] } := by
  cases r with
  | vnfsName => exact readsUrl_name "/vnfs/".toList (by decide +kernel) hne hslash
  | portsName => exact readsUrl_name "/ports/".toList (by decide +kernel) hne hslash
  | pppsName => exact readsUrl_name "/ppps/".toList (by decide +kernel) hne hslash
  | vnfsNameReset =>
    exact readsUrl_suffix "/vnfs/".toList "/reset".toList (by decide +kernel) (fun c hc => by cases hc; rfl) hne
      hslash
  | vnfsNameDeploy =>
    exact readsUrl_suffix "/vnfs/".toList "/deploy".toList (by decide +kernel) (fun c hc => by cases hc; rfl) hne
      hslash
  | vnfsNameUndeploy =>
    exact readsUrl_suffix "/vnfs/".toList "/undeploy".toList (by decide +kernel) (fun c hc => by cases hc; rfl) hne
      hslash
  | vnfsNamePortsPortid =>
    exact readsUrl_number "/vnfs/".toList "/ports/".toList (by decide +kernel) rfl hne hslash hlo hhi
  | vnfsNameCoremaskBlockid =>
    exact readsUrl_number "/vnfs/".toList "/coremask/".toList (by decide +kernel) rfl hne hslash hlo hhi
  | _ => cases hr

/-- No route is a directory, whose URL without the slash would be redirected. -/
theorem not_redirected (url : List Char) :
    ¬(routes.any fun r => r.directory && (readsUrl strtod r.rule.dropLast url).isSome) = true := by
  have hno : ∀ r ∈ routes, r.directory = false := by decide +kernel
  rw [List.any_eq_true]
  rintro ⟨r, hr, hboth⟩
  rw [hno r hr] at hboth
  cases hboth

/-- A route that reads the URL serves it, if it has the method. -/
theorem plainly_of_reads (r : Route) {req : HttpRequest} {params : RoutingParams D}
    (hreads : readsUrl strtod r.pattern.toList req.url = some params)
    (hmethod : (methods r.methods).testBit req.method = true) (m : Machine) :
    plainly strtod m req = some (r.handler m req.method params req.body) := by
  have hall : r ∈ Route.all := by
    cases r <;> decide
  have hrule : (Route.all.find? fun r' => r'.rule = r.rule) = some r := by
    cases r <;> decide +kernel
  have hdispatch : dispatch strtod routes ⟨req.method, req.url, req.host⟩ = .handler r.rule params := by
    unfold dispatch
    rw [if_neg (not_redirected req.url), routes_separate.findSome? (List.mem_map_of_mem hall) hreads]
    exact if_pos hmethod
  rw [plainly, hdispatch]
  dsimp only
  rw [hrule]
  rfl

/-! ### The text of a request -/

def routeOf : Susanow.Request → Route
  | .vnfPost _ _ _ | .vnfDelete _ => .vnfsName
  | .slotPut _ _ _ | .slotDelete _ _ => .vnfsNamePortsPortid
  | .portPost _ _ _ _ | .portDelete _ => .portsName
  | .coremaskPut _ _ _ => .vnfsNameCoremaskBlockid
  | .resetPut _ => .vnfsNameReset
  | .deployPut _ => .vnfsNameDeploy
  | .undeployPut _ => .vnfsNameUndeploy
  | .pppPost _ _ _ _ _ | .pppDelete _ => .pppsName

def methodOf : Susanow.Request → Method
  | .vnfPost _ _ _ | .portPost _ _ _ _ | .pppPost _ _ _ _ _ => .post
  | .vnfDelete _ | .slotDelete _ _ | .portDelete _ | .pppDelete _ => .delete
  | .slotPut _ _ _ | .coremaskPut _ _ _ | .resetPut _ | .deployPut _ | .undeployPut _ => .put

/-- The name that goes into the URL. -/
def nameOf : Susanow.Request → String
  | .vnfPost name _ _ | .vnfDelete name | .slotPut name _ _ | .slotDelete name _ | .portPost name _ _ _
  | .portDelete name | .coremaskPut name _ _ | .resetPut name | .deployPut name | .undeployPut name
  | .pppPost name _ _ _ _ | .pppDelete name => name

/-- The number, where there is one. -/
def numberOf : Susanow.Request → Int
  | .slotPut _ v _ | .slotDelete _ v | .coremaskPut _ v _ => v
  | _ => 0

def member (key : String) (x : Option String) : List (List Char × Wvalue) :=
  match x with
  | none => []
  | some s => [(key.toList, .string s.toList)]

/-- Under both keys of which a handler may read one. -/
def optionsMember (x : Option String) : List (List Char × Wvalue) :=
  match x with
  | none => []
  | some s => [("options".toList, .object [("ifname".toList, .string s.toList), ("pciaddr".toList, .string s.toList)])]

/-- The fields that there are. A coremask has all its digits. -/
def bodyOf : Susanow.Request → List Char
  | .vnfPost _ cname _ => dump (.object (member "cname" cname))
  | .slotPut _ _ pname => dump (.object (member "pname" pname))
  | .portPost _ cname option _ => dump (.object (member "cname" cname ++ optionsMember option))
  | .coremaskPut _ _ (some mask) =>
    '{' :: (Crow.Json.dumpString "coremask".toList ++ ':' :: (print mask.toNat ++ ['}']))
  | .pppPost _ right left _ _ => dump (.object (member "right" right ++ member "left" left))
  | _ => []

def encode (host : List Char) (r : Susanow.Request) : HttpRequest :=
  ⟨(methodOf r).code, (routeOf r).path (nameOf r).toList (numberOf r), host, bodyOf r⟩

/-- The machine answers what the request says it does. -/
def machineOf : Susanow.Request → Machine
  | .vnfPost _ _ mem => ⟨mem, .error "", fun _ _ => false, fun _ => (0, 0)⟩
  | .portPost _ _ _ attach => ⟨fun _ => (0, 0), attach, fun _ _ => false, fun _ => (0, 0)⟩
  | .pppPost _ _ _ alloc mem => ⟨fun _ => (0, 0), .error "", alloc, mem⟩
  | _ => ⟨fun _ => (0, 0), .error "", fun _ _ => false, fun _ => (0, 0)⟩

/-- The texts of a body that are cut off at a NUL. -/
def textsOf : Susanow.Request → List String
  | .vnfPost _ cname _ => cname.toList
  | .slotPut _ _ pname => pname.toList
  | .portPost _ _ option _ => option.toList
  | .pppPost _ right left _ _ => right.toList ++ left.toList
  | _ => []

/-- What a client can ask for. -/
structure Sendable (r : Susanow.Request) : Prop where
  name : Named (nameOf r)
  number : IsInt (numberOf r)
  texts : ∀ s ∈ textsOf r, Plain s

theorem printInt_ne (v : Int) : ∀ c ∈ printInt v, c ≠ '?' := by
  have hdigits (n : Nat) : ∀ c ∈ print n, c ≠ '?' := by
    rintro c hc rfl
    exact absurd (Decimal.isDigit_of_mem_print _ hc) (by decide)
  unfold printInt
  split
  · exact List.forall_mem_cons.mpr ⟨by decide, hdigits _⟩
  · exact hdigits _

theorem pattern_ne (r : Route) : ∀ c ∈ r.pattern.toList, c ≠ '?' := by
  cases r <;> decide +kernel

theorem path_ne (r : Route) {name : List Char} (hname : ∀ c ∈ name, c ≠ '?') (v : Int) :
    ∀ c ∈ r.path name v, c ≠ '?' := by
  cases r with
  | vnfsName | portsName | pppsName => exact List.forall_mem_append.mpr ⟨by decide, hname⟩
  | vnfsNameReset | vnfsNameDeploy | vnfsNameUndeploy =>
    exact List.forall_mem_append.mpr ⟨by decide, List.forall_mem_append.mpr ⟨hname, by decide⟩⟩
  | vnfsNamePortsPortid | vnfsNameCoremaskBlockid =>
    exact List.forall_mem_append.mpr ⟨by decide, List.forall_mem_append.mpr ⟨hname,
      List.forall_mem_append.mpr ⟨by decide, printInt_ne v⟩⟩⟩
  | _ => exact pattern_ne _

/-- There is no query in the URL of a route. -/
theorem url_path (r : Route) {name : String} (hname : Named name) (v : Int) (method : Nat) (host body : List Char) :
    HttpRequest.url ⟨method, r.path name.toList v, host, body⟩ = r.path name.toList v :=
  List.takeWhile_eq_self_iff.mpr fun c hc => bne_iff_ne.mpr (path_ne r (fun c hc => (hname.2 c hc).2.1) v c hc)

/-! ### What is read of a body -/

theorem loadedMembers_append (a b : List (List Char × Wvalue)) :
    Crow.Json.loadedMembers (a ++ b) = Crow.Json.loadedMembers a ++ Crow.Json.loadedMembers b := by
  induction a with
  | nil => rfl
  | cons x a ih => rw [List.cons_append, Crow.Json.loadedMembers, ih, Crow.Json.loadedMembers, List.cons_append]

theorem valueAt_dump {o : List (List Char × Wvalue)} (ho : Crow.Json.membersFinite o = true) (path : List String) :
    valueAt (dump (.object o)) path =
      path.foldlM (fun v key => v.get key.toList) (.object (Crow.Json.loadedMembers o)) := by
  rw [valueAt, Crow.Json.load_dump_taken, Crow.Json.finite, ho]
  rfl

@[simp] theorem membersFinite_append (a b : List (List Char × Wvalue)) :
    Crow.Json.membersFinite (a ++ b) = (Crow.Json.membersFinite a && Crow.Json.membersFinite b) := by
  induction a with
  | nil => rfl
  | cons x a ih => rw [List.cons_append, Crow.Json.membersFinite, ih, Crow.Json.membersFinite, Bool.and_assoc]

@[simp] theorem membersFinite_member (key : String) (x : Option String) :
    Crow.Json.membersFinite (member key x) = true := by
  cases x <;> rfl

@[simp] theorem membersFinite_optionsMember (x : Option String) :
    Crow.Json.membersFinite (optionsMember x) = true := by
  cases x <;> rfl

theorem get_loadedMembers_member (key : String) (x : Option String) (l : List (List Char × Rvalue)) :
    (Rvalue.object (Crow.Json.loadedMembers (member key x) ++ l)).get key.toList =
      match x with
      | none => (Rvalue.object l).get key.toList
      | some s => some (.string (Crow.Json.escape s.toList)) := by
  cases x with
  | none => rfl
  | some s => simp [member, Crow.Json.loadedMembers, Crow.Json.loaded, Rvalue.get]

theorem get_loadedMembers_other {key key' : String} (hne : key'.toList ≠ key.toList) (x : Option String)
    (l : List (List Char × Rvalue)) :
    (Rvalue.object (Crow.Json.loadedMembers (member key' x) ++ l)).get key.toList = (Rvalue.object l).get key.toList := by
  cases x with
  | none => rfl
  | some s =>
    have hne' : (key'.toList == key.toList) = false := beq_eq_false_iff_ne.mpr hne
    simp [member, Crow.Json.loadedMembers, Crow.Json.loaded, Rvalue.get, hne']

theorem s_escape (s : String) : (Rvalue.string (Crow.Json.escape s.toList)).s = some s.toList := by
  show some (Crow.Json.unescape (Crow.Json.escape s.toList)) = _
  rw [Crow.Json.unescape_escape]

theorem textAt_member (key : String) (x : Option String) :
    textAt (dump (.object (member key x))) [key] = x.map String.toList := by
  have hget := get_loadedMembers_member key x []
  rw [List.append_nil] at hget
  rw [textAt, valueAt_dump (by simp), List.foldlM_cons, hget]
  cases x with
  | none => rfl
  | some s => exact s_escape s

theorem textAt_right (right left : Option String) :
    textAt (dump (.object (member "right" right ++ member "left" left))) ["right"] = right.map String.toList := by
  rw [textAt, valueAt_dump (by simp), List.foldlM_cons, loadedMembers_append, get_loadedMembers_member]
  cases right with
  | none =>
    cases left with
    | none => rfl
    | some s => rfl
  | some s => exact s_escape s

theorem textAt_left (right left : Option String) :
    textAt (dump (.object (member "right" right ++ member "left" left))) ["left"] = left.map String.toList := by
  rw [← textAt_member "left" left, textAt, textAt, valueAt_dump (by simp), valueAt_dump (by simp), List.foldlM_cons, List.foldlM_cons,
    loadedMembers_append, get_loadedMembers_other (by decide)]

theorem textAt_cname (cname option : Option String) :
    textAt (dump (.object (member "cname" cname ++ optionsMember option))) ["cname"] = cname.map String.toList := by
  rw [textAt, valueAt_dump (by simp), List.foldlM_cons, loadedMembers_append, get_loadedMembers_member]
  cases cname with
  | none => cases option <;> rfl
  | some s => exact s_escape s

/-- The option is read back under either of its keys. -/
theorem textAt_options (cname option : Option String) {key : String} (hkey : key = "ifname" ∨ key = "pciaddr") :
    textAt (dump (.object (member "cname" cname ++ optionsMember option))) ["options", key] =
      option.map String.toList := by
  rw [textAt, valueAt_dump (by simp), List.foldlM_cons, loadedMembers_append, get_loadedMembers_other (by decide)]
  cases option with
  | none => rfl
  | some s =>
    rcases hkey with rfl | rfl
    · exact s_escape s
    · exact s_escape s

theorem integer?_print (n : Nat) : Decimal.integer? (print n) = some (n : Int) := by
  have h := Decimal.integer?_printInt (n : Int)
  rwa [printInt, if_neg (by omega), Int.natAbs_natCast] at h

theorem coremask_of_body (mask : BitVec 32) :
    ((valueAt ('{' :: (Crow.Json.dumpString "coremask".toList ++ ':' :: (print mask.toNat ++ ['}']))) ["coremask"]).bind
      Rvalue.i).map (BitVec.ofInt 32) = some mask := by
  have hi : (Rvalue.number (print mask.toNat)).i = some (mask.toNat : Int) := by
    rw [Rvalue.i, integer?_print]
    have hlt := mask.isLt
    simp only [Option.filter_some]
    rw [if_pos]
    simp only [Bool.and_eq_true, decide_eq_true_eq]
    omega
  rw [valueAt, Crow.Json.load_member_print]
  show ((Rvalue.number (print mask.toNat)).i).map (BitVec.ofInt 32) = some mask
  rw [hi, Option.map_some, BitVec.ofInt_natCast, BitVec.ofNat_toNat, BitVec.setWidth_eq]

theorem map_cStr {x : Option String} (h : ∀ s ∈ x.toList, Plain s) : (x.map String.toList).map cStr = x := by
  cases x with
  | none => rfl
  | some s => rw [Option.map_some, Option.map_some, cStr_of_plain (h s (by simp))]

theorem map_ofList (x : Option String) : (x.map String.toList).map String.ofList = x := by
  cases x with
  | none => rfl
  | some s => rw [Option.map_some, Option.map_some, String.ofList_toList]

/-- **A request that is sent is the one that is run**, in whatever order the routes were added. -/
theorem served_encode {rules : List Rule} (hrules : routes.Perm rules) {r : Susanow.Request} (h : Sendable r)
    (strtod : Strtod D) (host : List Char) :
    served strtod (machineOf r) rules (encode host r) = some (.run r) := by
  obtain ⟨hname, hnumber, htexts⟩ := h
  have hreads : readsUrl strtod (routeOf r).pattern.toList (encode host r).url =
      some { intParams := if (routeOf r).numbered then [numberOf r] else [], stringParams := [(nameOf r).toList] } := by
    rw [encode, url_path (routeOf r) hname]
    refine readsUrl_path ?_ hname.1 (fun c hc => (hname.2 c hc).1) ?_ ?_
    · cases r <;> rfl
    · have hlo := hnumber.1
      omega
    · have hhi := hnumber.2
      omega
  have hmethod : (methods (routeOf r).methods).testBit (encode host r).method = true := by
    refine testBit_methods.mpr ?_
    cases r <;> simp [methodOf, routeOf, Route.methods]
  rw [served_of_perm hrules, plainly_of_reads (routeOf r) hreads hmethod]
  have hcstr : cStr (nameOf r).toList = nameOf r := cStr_of_plain fun c hc => (hname.2 c hc).2.2
  have hint : toInt (numberOf r) = numberOf r := toInt_of_isInt hnumber
  congr 1
  cases r with
  | vnfPost iname cname mem =>
    show Served.run (.vnfPost (cStr iname.toList)
      ((textAt (dump (.object (member "cname" cname))) ["cname"]).map cStr) mem) = _
    rw [textAt_member, map_cStr htexts, show cStr iname.toList = iname from hcstr]
  | vnfDelete iname => exact congrArg (fun s => Served.run (.vnfDelete s)) hcstr
  | slotPut iname pid pname =>
    show Served.run (.slotPut (cStr iname.toList) (toInt pid)
      ((textAt (dump (.object (member "pname" pname))) ["pname"]).map cStr)) = _
    rw [textAt_member, map_cStr htexts, show cStr iname.toList = iname from hcstr, show toInt pid = pid from hint]
  | slotDelete iname pid =>
    show Served.run (.slotDelete (cStr iname.toList) (toInt pid)) = _
    rw [show cStr iname.toList = iname from hcstr, show toInt pid = pid from hint]
  | portPost pname cname option attach =>
    show Served.run (.portPost (cStr pname.toList)
      ((textAt (dump (.object (member "cname" cname ++ optionsMember option))) ["cname"]).map String.ofList)
      ((if (textAt (dump (.object (member "cname" cname ++ optionsMember option))) ["cname"]).map String.ofList = some "pci"
        then textAt (dump (.object (member "cname" cname ++ optionsMember option))) ["options", "pciaddr"]
        else textAt (dump (.object (member "cname" cname ++ optionsMember option))) ["options", "ifname"]).map cStr)
      attach) = _
    rw [textAt_cname, map_ofList, textAt_options cname option (.inl rfl), textAt_options cname option (.inr rfl), ite_self,
      map_cStr htexts, show cStr pname.toList = pname from hcstr]
  | portDelete pname => exact congrArg (fun s => Served.run (.portDelete s)) hcstr
  | coremaskPut iname blockId coremask =>
    show Served.run (.coremaskPut (cStr iname.toList) (toInt blockId)
      (((valueAt (bodyOf (.coremaskPut iname blockId coremask)) ["coremask"]).bind Rvalue.i).map
        (BitVec.ofInt 32))) = _
    rw [show cStr iname.toList = iname from hcstr, show toInt blockId = blockId from hint]
    cases coremask with
    | none => rfl
    | some mask => rw [bodyOf, coremask_of_body]
  | resetPut iname => exact congrArg (fun s => Served.run (.resetPut s)) hcstr
  | deployPut iname => exact congrArg (fun s => Served.run (.deployPut s)) hcstr
  | undeployPut iname => exact congrArg (fun s => Served.run (.undeployPut s)) hcstr
  | pppPost name right left alloc mem =>
    show Served.run (.pppPost (cStr name.toList)
      ((textAt (dump (.object (member "right" right ++ member "left" left))) ["right"]).map cStr)
      ((textAt (dump (.object (member "right" right ++ member "left" left))) ["left"]).map cStr) alloc mem) = _
    rw [textAt_right, textAt_left, map_cStr fun s hs => htexts s (List.mem_append_left _ hs),
      map_cStr fun s hs => htexts s (List.mem_append_right _ hs), show cStr name.toList = name from hcstr]
  | pppDelete name => exact congrArg (fun s => Served.run (.pppDelete s)) hcstr

theorem served_encode_slotPut :
    served Strtod.none (machineOf (.slotPut "vnf0" 1 (some "a\"b"))) routes (encode [] (.slotPut "vnf0" 1 (some "a\"b"))) =
      some (.run (.slotPut "vnf0" 1 (some "a\"b"))) :=
  served_encode (List.Perm.refl _) (r := .slotPut "vnf0" 1 (some "a\"b")) ⟨by decide, by decide, by decide⟩ Strtod.none []

/-! ### Numbers in a URL -/

theorem strtoll_printInt_none {v : Int} (hv : ¬(-2 ^ 63 ≤ v ∧ v < 2 ^ 63)) : strtoll (printInt v) = none := by
  obtain ⟨n, hsigned, hval⟩ := signed_printInt v
  unfold strtoll
  simp only [hsigned, natural_print, hval]
  rw [if_pos]
  omega

/-- The letters of a numbered route, and then anything. -/
def Route.anyNumber : Route → Rule
  | vnfsNamePortsPortid => ⟨"/vnfs/<str>/ports/<path>".toList, 0⟩
  | vnfsNameCoremaskBlockid => ⟨"/vnfs/<str>/coremask/<path>".toList, 0⟩
  | r => r.rule

theorem anyNumber_diverges (r r' : Route) (hr : r.numbered = true) (hne : r' ≠ r) :
    r.anyNumber.diverges r'.rule = true := by
  revert hr hne
  cases r <;> cases r' <;> decide +kernel

section
variable {name : List Char} {v : Int}

theorem reads_path {s : List Char} (hne : s ≠ []) (params : RoutingParams D) :
    reads strtod [.param .path] s params = some (params.push (.string s)) := by
  obtain ⟨c, s, rfl⟩ := List.exists_cons_of_ne_nil hne
  rfl

theorem printInt_ne_nil (v : Int) : printInt v ≠ [] := by
  unfold printInt
  split
  · exact List.cons_ne_nil _ _
  · obtain ⟨c, s, hs, -⟩ := Decimal.print_cons v.natAbs
    rw [hs]
    exact List.cons_ne_nil c s

/-- No other route reads the URL of a numbered one, whatever its number is. -/
theorem readsUrl_other {r r' : Route} (hr : r.numbered = true) (hne' : r' ≠ r) (hne : name ≠ [])
    (hslash : ∀ c ∈ name, c ≠ '/') : readsUrl strtod r'.pattern.toList (r.path name v) = none := by
  have hany : (readsUrl strtod r.anyNumber.rule (r.path name v)).isSome = true := by
    cases r with
    | vnfsNamePortsPortid =>
      show (readsUrl strtod _ ("/vnfs/".toList ++ (name ++ ("/ports/".toList ++ printInt v)))).isSome = true
      rw [readsUrl_tail "/vnfs/".toList "/ports/".toList [.param .path] (by decide +kernel) hne hslash
        (head_suffix rfl _), reads_path (printInt_ne_nil v)]
      rfl
    | vnfsNameCoremaskBlockid =>
      show (readsUrl strtod _ ("/vnfs/".toList ++ (name ++ ("/coremask/".toList ++ printInt v)))).isSome = true
      rw [readsUrl_tail "/vnfs/".toList "/coremask/".toList [.param .path] (by decide +kernel) hne hslash
        (head_suffix rfl _), reads_path (printInt_ne_nil v)]
      rfl
    | _ => cases hr
  have hseparate : Separate strtod [r.anyNumber, r'.rule] :=
    separate_of_diverges (List.pairwise_pair.mpr (anyNumber_diverges r r' hr hne'))
  by_contra hsome
  exact List.pairwise_pair.mp hseparate _ hany (Option.isSome_iff_ne_none.mpr hsome)

/-- A number that does not fit in 64 bits is none. -/
theorem readsUrl_path_none {r : Route} (hr : r.numbered = true) (hne : name ≠ []) (hslash : ∀ c ∈ name, c ≠ '/')
    (hv : ¬(-2 ^ 63 ≤ v ∧ v < 2 ^ 63)) : readsUrl strtod r.pattern.toList (r.path name v) = none := by
  have hscan : scan strtod .int (printInt v) = none := by
    have hread := strtoll_printInt_none hv
    obtain ⟨c, s, hs⟩ := List.exists_cons_of_ne_nil (printInt_ne_nil v)
    rw [hs] at hread ⊢
    rw [scan, hread]
    split <;> rfl
  have hreads (params : RoutingParams D) : reads strtod [.param .int] (printInt v) params = none := by
    rw [reads, hscan]
  cases r with
  | vnfsNamePortsPortid =>
    show readsUrl strtod _ ("/vnfs/".toList ++ (name ++ ("/ports/".toList ++ printInt v))) = none
    rw [readsUrl_tail "/vnfs/".toList "/ports/".toList [.param .int] (by decide +kernel) hne hslash
      (head_suffix rfl _), hreads]
  | vnfsNameCoremaskBlockid =>
    show readsUrl strtod _ ("/vnfs/".toList ++ (name ++ ("/coremask/".toList ++ printInt v))) = none
    rw [readsUrl_tail "/vnfs/".toList "/coremask/".toList [.param .int] (by decide +kernel) hne hslash
      (head_suffix rfl _), hreads]
  | _ => cases hr

end

/-- A URL that no route reads is answered with 404. -/
theorem plainly_notFound {req : HttpRequest} (h : ∀ r : Route, readsUrl strtod r.pattern.toList req.url = none)
    (m : Machine) : plainly strtod m req = some .notFound := by
  have hfind : (routes.findSome? fun r => (readsUrl strtod r.rule req.url).map (r, ·)) = none := by
    rw [List.findSome?_eq_none_iff]
    intro rule hrule
    obtain ⟨r, -, rfl⟩ := List.mem_map.mp hrule
    rw [show r.rule.rule = r.pattern.toList from rfl, h r]
    rfl
  have hdispatch : dispatch strtod routes ⟨req.method, req.url, req.host⟩ = .notFound := by
    unfold dispatch
    rw [if_neg (not_redirected req.url), hfind]
  rw [plainly, hdispatch]

/-- **The slot that a URL names** is its number modulo 2^32; a number of more than 64 bits names none. -/
theorem served_slotDelete {rules : List Rule} (hrules : routes.Perm rules) {name : String} (hname : Named name) (v : Int)
    (strtod : Strtod D) (m : Machine) (host body : List Char) :
    served strtod m rules ⟨Method.delete.code, Route.vnfsNamePortsPortid.path name.toList v, host, body⟩ =
      some (if -2 ^ 63 ≤ v ∧ v < 2 ^ 63 then .run (.slotDelete name (toInt v)) else .notFound) := by
  have hslash : ∀ c ∈ name.toList, c ≠ '/' := fun c hc => (hname.2 c hc).1
  have hurl : HttpRequest.url ⟨Method.delete.code, Route.vnfsNamePortsPortid.path name.toList v, host, body⟩ =
      Route.vnfsNamePortsPortid.path name.toList v := url_path _ hname v _ _ _
  rw [served_of_perm hrules]
  by_cases hv : -2 ^ 63 ≤ v ∧ v < 2 ^ 63
  · have hreads : readsUrl strtod _ (Route.vnfsNamePortsPortid.path name.toList v) = _ :=
      readsUrl_path (r := .vnfsNamePortsPortid) rfl hname.1 hslash hv.1 hv.2
    have hmethod : (methods Route.vnfsNamePortsPortid.methods).testBit Method.delete.code = true := by decide
    rw [if_pos hv, plainly_of_reads .vnfsNamePortsPortid (hurl ▸ hreads) hmethod]
    show some (Served.run (.slotDelete (cStr name.toList) (toInt v))) = _
    rw [cStr_of_plain fun c hc => (hname.2 c hc).2.2]
  · rw [if_neg hv]
    refine plainly_notFound (fun r => ?_) m
    rw [hurl]
    by_cases hr : r = .vnfsNamePortsPortid
    · subst hr
      exact readsUrl_path_none rfl hname.1 hslash hv
    · exact readsUrl_other rfl hr hname.1 hslash

/-- One above 2^32 is slot 1. -/
theorem served_slotDelete_aliased :
    served Strtod.none (machineOf (.slotDelete "vnf0" 1)) routes
        ⟨Method.delete.code, Route.vnfsNamePortsPortid.path "vnf0".toList 4294967297, [], []⟩ =
      some (.run (.slotDelete "vnf0" 1)) :=
  served_slotDelete (List.Perm.refl _) (by decide) 4294967297 Strtod.none _ [] []

/-! ### A block's coremask, as it is shown -/

/-- `vnf_block_info`; a `size_t` has 64 bits. -/
def blockInfo (name : List Char) (b : Block) : Wvalue :=
  .object [("name".toList, .string name), ("coremask".toList, .number (Double.ofWord (b.coremask.setWidth 64))),
    ("running".toList, .bool b.running), ("socket_affinity".toList, .number (Double.ofWord (BitVec.ofNat 64 b.affinity)))]

theorem integer?_scientific {n : Nat} {x : Int} {c : Char} {s : List Char} (hs : Decimal.scientific n x = c :: s)
    (hc : Decimal.isDigit c = true) : Decimal.integer? (Decimal.scientific n x) = none := by
  have hmem : 'e' ∈ Decimal.scientific n x := by
    simp [Decimal.scientific, Decimal.exponent]
  have hnone : Decimal.natural? (Decimal.scientific n x) = none := by
    rw [Decimal.natural?, if_neg]
    rintro ⟨-, hall⟩
    exact absurd (List.all_eq_true.mp hall 'e' hmem) (by decide)
  rw [Decimal.integer?, hs, Decimal.signed_of_isDigit hc, ← hs, hnone]
  rfl

/-- A number that is not printed in full is not read as an integer. -/
theorem integer?_printG (n : Nat) :
    Decimal.integer? (Decimal.printG 6 n 0) = if n < 10 ^ 6 then some (n : Int) else none := by
  have hlen := Decimal.length_digits_le_iff (p := 6) (by decide) n
  by_cases hn : n < 10 ^ 6
  · rw [if_pos hn, Decimal.printG_natural (hlen.mpr hn), integer?_print]
  · obtain ⟨m, x, hprint⟩ := Decimal.printG_scientific (p := 6) (by decide) (Nat.not_le.mp fun h => hn (hlen.mp h))
    obtain ⟨c, s, hs, hc⟩ := Decimal.printG_cons 6 n 0
    rw [if_neg hn]
    rw [hprint] at hs ⊢
    exact integer?_scientific hs hc

/-- **A coremask that is sent back as it is shown** is taken for itself below 10^6, and from there
on the request throws. -/
theorem served_blockInfo {rules : List Rule} (hrules : routes.Perm rules) {name : String} (hname : Named name) {bid : Int}
    (hbid : IsInt bid) (blockName : List Char) (b : Block) (strtod : Strtod D) (m : Machine) (host : List Char) :
    served strtod m rules
        ⟨Method.put.code, Route.vnfsNameCoremaskBlockid.path name.toList bid, host, dump (blockInfo blockName b)⟩ =
      some (.run (.coremaskPut name bid (if b.coremask.toNat < 10 ^ 6 then some b.coremask else none))) := by
  have hslash : ∀ c ∈ name.toList, c ≠ '/' := fun c hc => (hname.2 c hc).1
  have hurl : HttpRequest.url
      ⟨Method.put.code, Route.vnfsNameCoremaskBlockid.path name.toList bid, host, dump (blockInfo blockName b)⟩ =
      Route.vnfsNameCoremaskBlockid.path name.toList bid := url_path _ hname bid _ _ _
  have hlo := hbid.1
  have hhi := hbid.2
  have hreads : readsUrl strtod _ (Route.vnfsNameCoremaskBlockid.path name.toList bid) = _ :=
    readsUrl_path (r := .vnfsNameCoremaskBlockid) rfl hname.1 hslash (by omega) (by omega)
  have hmethod : (methods Route.vnfsNameCoremaskBlockid.methods).testBit Method.put.code = true := by decide
  rw [served_of_perm hrules, plainly_of_reads .vnfsNameCoremaskBlockid (hurl ▸ hreads) hmethod]
  have hprint : (Double.ofWord (b.coremask.setWidth 64)).print = Decimal.printG 6 b.coremask.toNat 0 := by
    have hmask : (b.coremask.setWidth 64).toNat = b.coremask.toNat := BitVec.toNat_setWidth_of_le (by decide)
    rw [Double.print_ofWord (by have := b.coremask.isLt; omega), hmask]
  have hvalue : valueAt (dump (blockInfo blockName b)) ["coremask"] =
      some (.number (Decimal.printG 6 b.coremask.toNat 0)) := by
    rw [blockInfo, valueAt_dump (by simp [Crow.Json.membersFinite, Crow.Json.finite, Double.finite_ofWord]), ← hprint]
    rfl
  show some (Served.run (.coremaskPut (cStr name.toList) (toInt bid)
    (((valueAt (dump (blockInfo blockName b)) ["coremask"]).bind Rvalue.i).map (BitVec.ofInt 32)))) = _
  rw [cStr_of_plain fun c hc => (hname.2 c hc).2.2, toInt_of_isInt hbid, hvalue, Option.bind_some, Rvalue.i,
    integer?_printG]
  by_cases hmask : b.coremask.toNat < 10 ^ 6
  · rw [if_pos hmask, if_pos hmask, Option.filter_some, if_pos, Option.map_some, BitVec.ofInt_natCast, BitVec.ofNat_toNat,
      BitVec.setWidth_eq]
    simp only [Bool.and_eq_true, decide_eq_true_eq]
    omega
  · rw [if_neg hmask, if_neg hmask]
    rfl

/-- Core 20 alone. -/
theorem served_blockInfo_core20 :
    served Strtod.none (machineOf (.coremaskPut "vnf0" 0 none)) routes
        ⟨Method.put.code, Route.vnfsNameCoremaskBlockid.path "vnf0".toList 0, [],
          dump (blockInfo "vnf0block0".toList ⟨.l2fwd, [], [], 0x100000, [0], 0, false⟩)⟩ =
      some (.run (.coremaskPut "vnf0" 0 none)) :=
  served_blockInfo (List.Perm.refl _) (by decide) (by decide) _ ⟨.l2fwd, [], [], 0x100000, [0], 0, false⟩ Strtod.none
    _ []

end Susanow.Http
