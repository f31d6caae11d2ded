import Susanow.Base.Proc
import Susanow.Base.Runs

/-! The rules of the ACLs.

Every `acl_5tuple` adds its rules to one vector of the file, and every `build` hands the
whole vector to its context. So an ACL gets the rules of all the others there were before,
and each ACL VNF that is made adds its two rules once more. -/
namespace Susanow
open Proc

/-- A field of a rule, of whichever width; the rest of the union is zero. -/
structure AclField where
  value : BitVec 32
  maskRange : BitVec 32
  deriving DecidableEq, Repr

/-- `acl_ipv4_rule` -/
structure AclIpv4Rule where
  userdata : BitVec 32
  categoryMask : BitVec 32
  priority : BitVec 32
  field : List AclField
  deriving DecidableEq, Repr

/-- The arguments of `acl_5tuple::add_rule`. -/
structure AclRuleArgs where
  userdata : BitVec 32
  categoryMask : BitVec 32
  priority : BitVec 32
  proto : BitVec 8
  srcAddr : BitVec 32
  srcAddrPref : BitVec 8
  dstAddr : BitVec 32
  dstAddrPref : BitVec 8
  srcPortMin : BitVec 16
  srcPortMax : BitVec 16
  dstPortMin : BitVec 16
  dstPortMax : BitVec 16
  deriving DecidableEq, Repr

def AclRuleArgs.rule (a : AclRuleArgs) : AclIpv4Rule where
  userdata := a.userdata
  categoryMask := a.categoryMask
  priority := a.priority
  field := [⟨a.proto.setWidth 32, 0xff⟩, ⟨a.srcAddr, a.srcAddrPref.setWidth 32⟩,
    ⟨a.dstAddr, a.dstAddrPref.setWidth 32⟩, ⟨a.srcPortMin.setWidth 32, a.srcPortMax.setWidth 32⟩,
    ⟨a.dstPortMin.setWidth 32, a.dstPortMax.setWidth 32⟩]

/-- What one `build` handed to `rte_acl_add_rules`, and the rules its object had been given. -/
structure AclBuild where
  handed : List AclIpv4Rule
  given : List AclIpv4Rule
  deriving DecidableEq, Repr

structure AclRules where
  ipv4AclRules : List AclIpv4Rule := []
  -- the objects that there are, and how many were made
  objects : List Nat := []
  made : Nat := 0
  -- what has happened: each rule with the object it was added through, and the builds
  adds : List (Nat × AclIpv4Rule) := []
  builds : List AclBuild := []
  deriving DecidableEq, Repr

namespace AclRules

/-- The rules added through `o`, in order. -/
def given (s : AclRules) (o : Nat) : List AclIpv4Rule := (s.adds.filter fun a => a.1 = o).map Prod.snd

/-- What the ACL library answers: whether a context can be made, what `rte_acl_add_rules` returns for
the rules it is handed, and whether they can be built. -/
structure Env where
  create : Bool
  addRules : List AclIpv4Rule → Int
  build : List AclIpv4Rule → Bool

section Calls
variable (env : Env)

/-- `acl_5tuple::acl_5tuple` -/
def acl5tuple : Proc AclRules Nat := do
  if env.create then do
    let s ← get
    Proc.set {s with objects := s.objects ++ [s.made], made := s.made + 1}
    pure s.made
  else Proc.throw "rte_acl_create"

def onObject (o : Nat) (p : Proc AclRules Unit) : Proc AclRules Unit := do
  let s ← get
  if o ∈ s.objects then p else crash .danglingPointer

/-- `acl_5tuple::add_rule` -/
def addRule (o : Nat) (a : AclRuleArgs) : Proc AclRules Unit :=
  onObject o (modify fun s => {s with ipv4AclRules := s.ipv4AclRules ++ [a.rule], adds := s.adds ++ [(o, a.rule)]})

/-- `acl_5tuple::build` -/
def build (o : Nat) : Proc AclRules Unit := onObject o do
  modify fun s => {s with builds := s.builds ++ [⟨s.ipv4AclRules, s.given o⟩]}
  let s ← get
  let ret := env.addRules s.ipv4AclRules
  if ret < 0 then Proc.throw "rte_acl_add_rules"
  else if env.build s.ipv4AclRules then pure ()
  else Proc.throw "rte_acl_build"

/-- The rules every ACL VNF has. -/
def icmpRule : AclRuleArgs :=
  ⟨1, 1, 1, 0x01, 0x00000000, 0, 0x00000000, 0, 0x0000, 0xffff, 0x0000, 0xffff⟩

def udpRule : AclRuleArgs :=
  ⟨2, 1, 2, 0x11, 0xc0a80000, 16, 0xc0a80300, 24, 0xeeee, 0xeeee, 0x0000, 0xffff⟩

/-- `ssn_vnf_acl::ssn_vnf_acl`; when it throws, its `acl` is gone again. -/
def ssnVnfAcl : Proc AclRules Unit := do
  let acl ← acl5tuple env
  catching (do
      addRule acl icmpRule
      addRule acl udpRule
      build env acl)
    fun what => do
      modify fun s => {s with objects := s.objects.erase acl}
      Proc.throw what

end Calls

/-! ### Runs -/

inductive Label
  | acl5tuple (env : Env)
  | addRule (o : Nat) (a : AclRuleArgs)
  | build (env : Env) (o : Nat)
  | ssnVnfAcl (env : Env)

def call : Label → Proc AclRules Unit
  | .acl5tuple env => do
    let _ ← acl5tuple env
    pure ()
  | .addRule o a => addRule o a
  | .build env o => build env o
  | .ssnVnfAcl env => ssnVnfAcl env

def step (s : AclRules) (l : Label) : Option AclRules := (call l s).state?

/-- Every build handed over the rules of its own object, in order and each once. -/
def Isolated (s : AclRules) : Prop := ∀ b ∈ s.builds, b.handed = b.given

/-- An object is built when no rule was added through another; a VNF is made when none was at all. -/
def Alone (s : AclRules) : Label → Prop
  | .build _ o => ∀ a ∈ s.adds, a.1 = o
  | .ssnVnfAcl env => env.create = true → s.adds = []
  | _ => True

instance (s : AclRules) : (l : Label) → Decidable (s.Alone l)
  | .build _ o => inferInstanceAs (Decidable (∀ a ∈ s.adds, a.1 = o))
  | .ssnVnfAcl env => inferInstanceAs (Decidable (env.create = true → s.adds = []))
  | .acl5tuple _ | .addRule _ _ => inferInstanceAs (Decidable True)

/-! ### What is handed over -/

variable {s t : AclRules} {o : Nat}

/-- The vector holds every rule that was added, and each through an object that was made. -/
structure Kept (s : AclRules) : Prop where
  rules : s.ipv4AclRules = s.adds.map Prod.snd
  made : ∀ a ∈ s.adds, a.1 < s.made
  objects : ∀ o ∈ s.objects, o < s.made

/-- The vector is the rules of one object just when there are no others. -/
theorem Kept.handed_iff (hs : s.Kept) (o : Nat) : s.ipv4AclRules = s.given o ↔ ∀ a ∈ s.adds, a.1 = o := by
  constructor
  · intro h
    have hlen := congrArg List.length h
    rw [hs.rules, given, List.length_map, List.length_map] at hlen
    intro a ha
    have hall := (List.length_filter_eq_length_iff.mp hlen.symm) a ha
    exact of_decide_eq_true hall
  · intro h
    rw [hs.rules, given, List.filter_eq_self.mpr fun a ha => decide_eq_true (h a ha)]

/-- The vector handed over once more. -/
def handing (s : AclRules) (o : Nat) : AclRules := {s with builds := s.builds ++ [⟨s.ipv4AclRules, s.given o⟩]}

theorem Kept.handing (hs : s.Kept) (o : Nat) : (s.handing o).Kept := ⟨hs.rules, hs.made, hs.objects⟩

theorem Kept.isolated_handing (hs : s.Kept) (hi : s.Isolated) (o : Nat) :
    (s.handing o).Isolated ↔ ∀ a ∈ s.adds, a.1 = o := by
  rw [← hs.handed_iff]
  constructor
  · exact fun h => h ⟨s.ipv4AclRules, s.given o⟩ (List.mem_append_right _ (List.mem_singleton_self _))
  · intro h b hb
    rcases List.mem_append.mp hb with hb | hb
    · exact hi b hb
    · rw [List.mem_singleton.mp hb]
      exact h

/-- A build hands the rules over whether it returns or throws. -/
theorem build_state (env : Env) (ho : o ∈ s.objects) :
    build env o s = .ret () (s.handing o) ∨ ∃ what, build env o s = .throws what (s.handing o) := by
  simp only [build, onObject, get_bind, if_pos ho, modify_bind]
  by_cases hadd : env.addRules s.ipv4AclRules < 0
  · exact .inr ⟨_, by rw [if_pos hadd]; rfl⟩
  · by_cases hbuild : env.build s.ipv4AclRules = true
    · exact .inl (by rw [if_neg hadd, if_pos hbuild]; rfl)
    · exact .inr ⟨_, by rw [if_neg hadd, if_neg hbuild]; rfl⟩

theorem build_step (hs : s.Kept) (hi : s.Isolated) {env : Env} (h : step s (.build env o) = some t) :
    t.Kept ∧ (t.Isolated ↔ s.Alone (.build env o)) := by
  by_cases ho : o ∈ s.objects
  · have ht : t = s.handing o := by
      obtain hrun | ⟨what, hrun⟩ := build_state env ho <;>
      · rw [step, call, hrun] at h
        exact (Option.some.inj h).symm
    subst ht
    exact ⟨hs.handing o, hs.isolated_handing hi o⟩
  · have hcrash : build env o s = .crash .danglingPointer := by
      rw [build, onObject, get_bind, if_neg ho, crash_run]
    rw [step, call, hcrash] at h
    cases h

def adding (s : AclRules) (o : Nat) (a : AclRuleArgs) : AclRules :=
  {s with ipv4AclRules := s.ipv4AclRules ++ [a.rule], adds := s.adds ++ [(o, a.rule)]}

theorem addRule_run (a : AclRuleArgs) (ho : o ∈ s.objects) : addRule o a s = .ret () (s.adding o a) := by
  rw [addRule, onObject, get_bind, if_pos ho]
  rfl

theorem Kept.adding (hs : s.Kept) (a : AclRuleArgs) (ho : o ∈ s.objects) : (s.adding o a).Kept where
  rules := by
    show s.ipv4AclRules ++ [a.rule] = (s.adds ++ [(o, a.rule)]).map Prod.snd
    rw [hs.rules, List.map_append, List.map_singleton]
  made b hb := by
    rcases List.mem_append.mp hb with hb | hb
    · exact hs.made b hb
    · rw [List.mem_singleton.mp hb]
      exact hs.objects o ho
  objects := hs.objects

theorem addRule_step (hs : s.Kept) (hi : s.Isolated) {a : AclRuleArgs} (h : step s (.addRule o a) = some t) :
    t.Kept ∧ t.Isolated := by
  by_cases ho : o ∈ s.objects
  · rw [step, call, addRule_run a ho] at h
    cases h
    exact ⟨hs.adding a ho, hi⟩
  · rw [step, call, addRule, onObject, get_bind, if_neg ho] at h
    cases h

/-- One object more. -/
def making (s : AclRules) : AclRules := {s with objects := s.objects ++ [s.made], made := s.made + 1}

theorem acl5tuple_run {env : Env} (hc : env.create = true) : acl5tuple env s = .ret s.made s.making := by
  rw [acl5tuple, if_pos hc]
  rfl

theorem acl5tuple_throws {env : Env} (hc : ¬env.create = true) : acl5tuple env s = .throws "rte_acl_create" s := by
  rw [acl5tuple, if_neg hc, throw_run]

theorem mem_making (s : AclRules) : s.made ∈ s.making.objects := List.mem_append_right _ (List.mem_singleton_self _)

theorem Kept.making (hs : s.Kept) : s.making.Kept where
  rules := hs.rules
  made a ha := Nat.lt_succ_of_lt (hs.made a ha)
  objects o ho := by
    rcases List.mem_append.mp ho with ho | ho
    · exact Nat.lt_succ_of_lt (hs.objects o ho)
    · rw [List.mem_singleton.mp ho]
      exact Nat.lt_succ_self _

/-- A VNF that is made adds its rules and builds; if the build throws, only its object is gone. -/
theorem ssnVnfAcl_state {env : Env} (hc : env.create = true) :
    ∃ objects, (∀ o ∈ objects, o ∈ s.making.objects) ∧ (ssnVnfAcl env s).state? =
      some {(((s.making.adding s.made icmpRule).adding s.made udpRule).handing s.made) with objects := objects} := by
  let u := (s.making.adding s.made icmpRule).adding s.made udpRule
  have hm := mem_making s
  have hrun : (do addRule s.made icmpRule; addRule s.made udpRule; build env s.made : Proc AclRules Unit) s.making =
      build env s.made u := by
    rw [bind_ret (addRule_run icmpRule hm), bind_ret (addRule_run (s := s.making.adding s.made icmpRule) udpRule hm)]
  rw [ssnVnfAcl, bind_ret (acl5tuple_run hc), catching]
  simp only [hrun]
  obtain hret | ⟨what, hthrow⟩ := build_state (s := u) env (o := s.made) hm
  · rw [hret]
    exact ⟨s.making.objects, fun _ => id, rfl⟩
  · rw [hthrow]
    exact ⟨s.making.objects.erase s.made, fun _ => List.mem_of_mem_erase, rfl⟩

theorem ssnVnfAcl_step (hs : s.Kept) (hi : s.Isolated) {env : Env} (h : step s (.ssnVnfAcl env) = some t) :
    t.Kept ∧ (t.Isolated ↔ s.Alone (.ssnVnfAcl env)) := by
  by_cases hc : env.create = true
  · obtain ⟨objects, hobjects, hstate⟩ := ssnVnfAcl_state (s := s) hc
    cases hstate.symm.trans h
    have hkept := (hs.making.adding icmpRule (mem_making s)).adding udpRule (mem_making s)
    refine ⟨⟨hkept.rules, hkept.made, fun o ho => hkept.objects o (hobjects o ho)⟩, ?_⟩
    refine (hkept.isolated_handing hi s.made).trans ?_
    constructor
    · -- the object is new, so a rule that was there is not its own
      intro hall _
      refine List.eq_nil_iff_forall_not_mem.mpr fun a ha => ?_
      have hown := hall a (List.mem_append_left _ (List.mem_append_left _ ha))
      exact absurd (hs.made a ha) (by omega)
    · intro halone
      simp [adding, making, halone hc]
  · have hthrow : ssnVnfAcl env s = .throws "rte_acl_create" s := by
      rw [ssnVnfAcl, bind_throws (acl5tuple_throws hc)]
    rw [step, call, hthrow] at h
    cases h
    exact ⟨hs, iff_of_true hi fun h => absurd h hc⟩

theorem acl5tuple_step (hs : s.Kept) (hi : s.Isolated) {env : Env} (h : step s (.acl5tuple env) = some t) :
    t.Kept ∧ t.Isolated := by
  by_cases hc : env.create = true
  · rw [step, call, bind_ret (acl5tuple_run hc)] at h
    cases h
    exact ⟨hs.making, hi⟩
  · rw [step, call, bind_throws (acl5tuple_throws hc)] at h
    cases h
    exact ⟨hs, hi⟩

theorem step_iff {l : Label} (hs : s.Kept) (hi : s.Isolated) (h : step s l = some t) :
    t.Kept ∧ (t.Isolated ↔ s.Alone l) := by
  cases l with
  | acl5tuple env =>
    obtain ⟨hkept, hiso⟩ := acl5tuple_step hs hi h
    exact ⟨hkept, iff_of_true hiso trivial⟩
  | addRule o a =>
    obtain ⟨hkept, hiso⟩ := addRule_step hs hi h
    exact ⟨hkept, iff_of_true hiso trivial⟩
  | build env o => exact build_step hs hi h
  | ssnVnfAcl env => exact ssnVnfAcl_step hs hi h

/-- Before any object is made. -/
def init : AclRules := {}

/-- All along a run the builds hand over the rules of their own objects just when no object is built
while there are rules of others. -/
theorem isolated_iff {ls : List Label} (h : Runs step Always init ls t) :
    (∀ ms, ms <+: ls → ∀ u, exec step init ms = some u → u.Isolated) ↔ Runs step Alone init ls t :=
  h.prefixes_iff (I := Kept) ⟨rfl, nofun, nofun⟩ nofun fun _ _ _ hs hi h => step_iff hs hi h

/-- A library with room for whatever it is handed. -/
def agreeable : Env := ⟨true, fun _ => 0, fun _ => true⟩

/-- A VNF is made, and built once more after another rule. -/
def oneVnf : List Label := [.ssnVnfAcl agreeable, .addRule 0 icmpRule, .build agreeable 0]

theorem isolated_iff_of_oneVnf :
    ∃ t, exec step init oneVnf = some t ∧
      ((∀ ms, ms <+: oneVnf → ∀ u, exec step init ms = some u → u.Isolated) ↔ Runs step Alone init oneVnf t) := by
  obtain ⟨t, ht, -⟩ := Option.map_eq_some_iff.mp
    (show (exec step init oneVnf).map (fun t => t.builds.map fun b => b.handed.length) = some [2, 3] by decide +kernel)
  exact ⟨t, ht, isolated_iff (Runs.of_exec ht)⟩

/-- The second VNF is given two rules and gets four. -/
theorem not_isolated : ¬∀ ls t, Runs step Always init ls t → t.Isolated := by
  intro h
  obtain ⟨t, ht, hbuilds⟩ := Option.map_eq_some_iff.mp
    (show (exec step init [.ssnVnfAcl agreeable, .ssnVnfAcl agreeable]).map (fun t =>
        t.builds.map fun b => decide (b.handed = b.given)) = some [true, false] by decide +kernel)
  have hall : t.builds.map (fun b => decide (b.handed = b.given)) = t.builds.map fun _ => true :=
    List.map_congr_left fun b hb => decide_eq_true (h _ t (Runs.of_exec ht) b hb)
  rw [hbuilds, List.map_const'] at hall
  have hmem : false ∈ List.replicate t.builds.length true := hall ▸ (by decide)
  cases List.eq_of_mem_replicate hmem

end AclRules
end Susanow
