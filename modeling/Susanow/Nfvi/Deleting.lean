import Susanow.Nfvi.Rest

/-! Taking an object out of its table.

`del_vnf`, `del_port` and `del_ppp` are one loop, three times written: go through a
table by index, erase the first entry that is the object, throw if there is none. The
loop of `del_ppp` takes its bound from the table of VNFs, so how it ends depends on how
many VNFs there are. -/
namespace Susanow

/-! ### The loop -/

/-- `for (; i<n_ele; i++) if (xs[i] == x)`, with `left` rounds to go: where it stops. -/
def searchFrom (xs : List Nat) (x i : Nat) : Nat → Except Crash (Option Nat)
  | 0 => .ok none
  | left + 1 =>
    match xs[i]? with
    | none => .error .outOfBounds
    | some y => if y = x then .ok (some i) else searchFrom xs x (i + 1) left

def search (xs : List Nat) (x nEle : Nat) : Except Crash (Option Nat) := searchFrom xs x 0 nEle

theorem searchFrom_eq (xs : List Nat) (x i left : Nat) :
    searchFrom xs x i left =
      if x ∈ (xs.drop i).take left then .ok (some (i + (xs.drop i).idxOf x))
      else if left ≤ (xs.drop i).length then .ok none else .error .outOfBounds := by
  induction left generalizing i with
  | zero => simp [searchFrom]
  | succ left ih =>
    rw [searchFrom]
    cases hi : xs[i]? with
    | none =>
      have hdrop : xs.drop i = [] := List.drop_eq_nil_of_le (List.getElem?_eq_none_iff.mp hi)
      simp [hdrop]
    | some y =>
      obtain ⟨hlt, hy⟩ := List.getElem?_eq_some_iff.mp hi
      have hdrop : xs.drop i = y :: xs.drop (i + 1) := by rw [List.drop_eq_getElem_cons hlt, hy]
      rw [hdrop]
      by_cases hx : y = x
      · simp [hx]
      · have hne : x ≠ y := fun h => hx h.symm
        simp only [hx, if_false, ih, List.take_succ_cons, List.mem_cons, hne, false_or, List.length_cons,
          Nat.add_le_add_iff_right, List.idxOf_cons_ne _ hx, Nat.succ_eq_add_one]
        grind

theorem search_eq (xs : List Nat) (x nEle : Nat) :
    search xs x nEle =
      if x ∈ xs.take nEle then .ok (some (xs.idxOf x))
      else if nEle ≤ xs.length then .ok none else .error .outOfBounds := by
  simp [search, searchFrom_eq]

/-- Bounded by the table's own length the loop finds what is there. -/
theorem search_own (xs : List Nat) (x : Nat) :
    search xs x xs.length = if x ∈ xs then .ok (some (xs.idxOf x)) else .ok none := by
  simp [search_eq]

namespace Nfvi

/-- The loop, and what follows it: `found` with the entry's index, `absent` without. -/
def ofSearch (found : Nat → Proc Nfvi Unit) (absent : Proc Nfvi Unit) :
    Except Crash (Option Nat) → Proc Nfvi Unit
  | .error c => Proc.crash c
  | .ok (some i) => found i
  | .ok none => absent

/-! The three methods as they are written, and as the handlers know them. -/

def delVnfLoop (v : Nat) : Proc Nfvi Unit := do
  let n ← Proc.get
  ofSearch (fun i => Proc.set {n with vnfs := n.vnfs.eraseIdx i})
    (Proc.throw ("ssn_nfvi::del_vnf: not found vnf (" ++ (n.vnf v).name ++ ")"))
    (search n.vnfs v n.vnfs.length)

def delPortLoop (p : Nat) : Proc Nfvi Unit := do
  let n ← Proc.get
  ofSearch (fun i => Proc.set {n with ports := n.ports.eraseIdx i})
    (Proc.throw ("ssn_nfvi::del_port: not found port (" ++ (n.port p).name ++ ")"))
    (search n.ports p n.ports.length)

def delPppLoop (a : Nat) : Proc Nfvi Unit := do
  let n ← Proc.get
  ofSearch (fun i => do
      Proc.set {n with ppps := n.ppps.eraseIdx i}
      deletePatchPanel (n.ppp a))
    (Proc.throw ("ssn_nfvi::del_ppp: not found ppp (" ++ (n.ppp a).name ++ ")"))
    (search n.ppps a n.vnfs.length)

theorem delVnf_eq_loop (v : Nat) : delVnf v = delVnfLoop v := by
  funext n
  simp only [delVnf, delVnfLoop, Proc.get_bind, search_own]
  split
  · rw [ofSearch, List.erase_eq_eraseIdx_of_idxOf rfl]
  · rfl

theorem delPort_eq_loop (p : Nat) : delPort p = delPortLoop p := by
  funext n
  simp only [delPort, delPortLoop, Proc.get_bind, search_own]
  split
  · rw [ofSearch, List.erase_eq_eraseIdx_of_idxOf rfl]
  · rfl

theorem delPpp_eq_loop (a : Nat) : delPpp a = delPppLoop a := by
  funext n
  simp only [delPpp, delPppLoop, Proc.get_bind, search_eq]
  split
  · rw [ofSearch, List.erase_eq_eraseIdx_of_idxOf rfl]
  · split <;> rfl

/-! ### What deleting comes to -/

/-- What the deletion of `x` from one table has to come to: if the object is there, exactly it
goes, and the other two tables stay; if not, an exception and nothing else. -/
def Deletes (table : Nfvi → List Nat) (others : Nfvi → List Nat × List Nat) (x : Nat) (n : Nfvi)
    (o : Outcome Nfvi Unit) : Prop :=
  (x ∈ table n → ∃ n', o = .ret () n' ∧ table n' = (table n).erase x ∧ others n' = others n) ∧
    (x ∉ table n → ∃ w, o = .throws w n)

theorem delVnf_deletes (v : Nat) (n : Nfvi) :
    Deletes vnfs (fun n => (n.ports, n.ppps)) v n (delVnf v n) := by
  refine ⟨fun hv => ?_, fun hv => ?_⟩
  · exact ⟨{n with vnfs := n.vnfs.erase v}, by simp [delVnf, hv], rfl, rfl⟩
  · exact ⟨_, by simp only [delVnf, Proc.get_bind, if_neg hv]; rfl⟩

theorem delPort_deletes (p : Nat) (n : Nfvi) :
    Deletes ports (fun n => (n.vnfs, n.ppps)) p n (delPort p n) := by
  refine ⟨fun hp => ?_, fun hp => ?_⟩
  · exact ⟨{n with ports := n.ports.erase p}, by simp [delPort, hp], rfl, rfl⟩
  · exact ⟨_, by simp only [delPort, Proc.get_bind, if_neg hp]; rfl⟩

/-- The loop of `del_ppp` comes to the panel before its bound and before the end of the table,
and the ports that the panel's destructor writes to are there. -/
def PppReached (n : Nfvi) (a : Nat) : Prop :=
  if a ∈ n.ppps then
    a ∈ n.ppps.take n.vnfs.length ∧ (n.ppp a).left ∈ n.ports ∧ (n.ppp a).right ∈ n.ports
  else n.vnfs.length ≤ n.ppps.length

theorem deletePatchPanel_run {x : PatchPanel} {n : Nfvi} (hl : x.left ∈ n.ports) (hr : x.right ∈ n.ports) :
    deletePatchPanel x n =
      .ret () ((n.editPort x.left (VnfPort.setDev (.virt none none))).editPort x.right
        (VnfPort.setDev (.virt none none))) := by
  simp [deletePatchPanel, portAt, modifyPort, editPort, Proc.bind_run, hl, hr]

theorem ports_of_deletePatchPanel {x : PatchPanel} {n n' : Nfvi} (h : deletePatchPanel x n = .ret () n') :
    x.left ∈ n.ports ∧ x.right ∈ n.ports := by
  by_cases hl : x.left ∈ n.ports <;> by_cases hr : x.right ∈ n.ports <;>
    simp_all [deletePatchPanel, portAt, modifyPort, editPort, Proc.bind_run]

theorem delPpp_deletes_iff (a : Nat) (n : Nfvi) :
    Deletes ppps (fun n => (n.vnfs, n.ports)) a n (delPpp a n) ↔ n.PppReached a := by
  unfold Deletes PppReached
  by_cases ha : a ∈ n.ppps
  · simp only [ha, not_true, false_imp_iff, and_true, true_imp_iff, if_true]
    constructor
    · rintro ⟨n', hrun, -⟩
      simp only [delPpp, Proc.get_bind] at hrun
      split_ifs at hrun with htake hle
      · rw [Proc.set_bind] at hrun
        have hports := ports_of_deletePatchPanel hrun
        exact ⟨htake, hports⟩
      · cases hrun
      · cases hrun
    · rintro ⟨htake, hl, hr⟩
      have hrun := deletePatchPanel_run (n := {n with ppps := n.ppps.erase a}) hl hr
      have hdel : delPpp a n = deletePatchPanel (n.ppp a) {n with ppps := n.ppps.erase a} := by
        simp only [delPpp, Proc.get_bind, if_pos htake, Proc.set_bind]
      exact ⟨_, hdel.trans hrun, rfl, rfl⟩
  · have htake : a ∉ n.ppps.take n.vnfs.length := fun h => ha (List.mem_of_mem_take h)
    simp only [ha, false_imp_iff, true_and, not_false_eq_true, true_imp_iff, if_false]
    simp only [delPpp, Proc.get_bind, if_neg htake]
    constructor
    · rintro ⟨w, hrun⟩
      split_ifs at hrun with hle
      · exact hle
      · cases hrun
    · intro hle
      rw [if_pos hle]
      exact ⟨_, rfl⟩

/-- **The three deletions do what they are for exactly when the loop of `del_ppp` reaches its
panel**; the other two always do. -/
theorem deletes_iff (n : Nfvi) (v p a : Nat) :
    (Deletes vnfs (fun n => (n.ports, n.ppps)) v n (delVnf v n) ∧
        Deletes ports (fun n => (n.vnfs, n.ppps)) p n (delPort p n) ∧
        Deletes ppps (fun n => (n.vnfs, n.ports)) a n (delPpp a n)) ↔
      n.PppReached a := by
  rw [delPpp_deletes_iff]
  exact ⟨fun h => h.2.2, fun h => ⟨delVnf_deletes v n, delPort_deletes p n, h⟩⟩

/-- Two ports and a panel between them, made by requests. -/
def makePanel : Proc Nfvi Unit := do
  let _ ← portPost "r" (some "virt") none (.ok 0)
  let _ ← portPost "l" (some "virt") none (.ok 0)
  let _ ← pppPost "p" (some "r") (some "l") (fun _ _ => true) fun _ => (0, 0)

/-- With no VNF the loop of `del_ppp` has no round: the panel stays in the table. -/
theorem not_deletes : ∃ n,
    makePanel {nSocket := 1, catalog := mainCatalog} = .ret () n ∧
      n.vnfs = [] ∧ n.ports = [0, 1] ∧ n.ppps = [2] ∧
      ¬Deletes ppps (fun n => (n.vnfs, n.ports)) 2 n (delPpp 2 n) := by
  obtain ⟨⟨⟨⟩, n⟩, hret, heq⟩ := Option.map_eq_some_iff.mp
    (show (makePanel {nSocket := 1, catalog := mainCatalog}).ret?.map
        (fun r => (r.2.vnfs, r.2.ports, r.2.ppps)) = some ([], [0, 1], [2]) by decide +kernel)
  simp only [Prod.mk.injEq] at heq
  obtain ⟨hvnfs, hports, hppps⟩ := heq
  refine ⟨n, Outcome.eq_ret_of_ret? hret, hvnfs, hports, hppps, ?_⟩
  rw [delPpp_deletes_iff, PppReached, hvnfs, hppps]
  simp

end Nfvi

end Susanow
