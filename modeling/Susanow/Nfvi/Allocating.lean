import Susanow.Nfvi.Rest
import Mathlib.Data.Finset.Basic
import Mathlib.Data.Finset.Lattice.Lemmas
import Mathlib.Data.Finset.Dedup
import Mathlib.Data.Finset.Card

/-! Creating a patch panel, with the rings it allocates.

Under the panels of an NFVi are `rte_ring`s, which are allocated one by one and may run out
at any of them. A constructor that throws has its members destroyed, the last one first, and
it is the destructor of a ring set that gives back what was allocated of it. So what
`ppp_alloc` leaves when it gives no panel is what was there (`pppAlloc_all_or_nothing`). What
the NFVi sees of it is `Nfvi.pppAlloc` (`pppAlloc_nfvi`). -/
namespace Susanow
open Function Proc

/-- The next entry of a vector that is filled from the front. -/
theorem set_next {α : Type} (xs : List α) (d x : α) (m : Nat) :
    (xs ++ List.replicate (m + 1) d).set xs.length x = xs ++ [x] ++ List.replicate m d := by
  rw [List.set_append_right _ _ le_rfl, Nat.sub_self, List.replicate_succ, List.set_cons_zero, List.append_assoc]
  rfl

/-- Where the library puts a new ring: never where there is one. -/
structure Supply where
  addr : String → Finset Nat → Nat
  fresh : ∀ name s, addr name s ∉ s

/-- An NFVi with the rings that are allocated, and the vector `rings` of each ring set. -/
structure Heap where
  nfvi : Nfvi
  rteRings : Finset Nat
  rings : RingRef → List (Option Nat)

namespace Heap

def onNfvi {α : Type} (p : Proc Nfvi α) : Proc Heap α := zoom Heap.nfvi (fun h n => {h with nfvi := n}) p

def setRings (q : RingRef) (rs : List (Option Nat)) (h : Heap) : Heap := {h with rings := update h.rings q rs}

/-- `dpdk::ring_alloc`; `ok` says whether it succeeds or throws. -/
def ringAlloc (sup : Supply) (name : String) (ok : Bool) : Proc Heap Nat := do
  let h ← get
  if ok then do
    Proc.set {h with rteRings := insert (sup.addr name h.rteRings) h.rteRings}
    pure (sup.addr name h.rteRings)
  else Proc.throw "dpdk::ring_alloc"

/-- `rte_ring_free`, to which a null pointer is nothing. -/
def rteRingFree (r : Option Nat) : Proc Heap Unit := do
  let h ← get
  match r with
  | none => pure ()
  | some p =>
    if p ∈ h.rteRings then Proc.set {h with rteRings := h.rteRings.erase p} else crash .danglingPointer

/-- The loop's body in `configure_que`. -/
def configureAt (sup : Supply) (q : RingRef) (namePrefix : String) (alloc : Nat → Bool) (i : Nat) :
    Proc Heap Unit := do
  let p ← ringAlloc sup (namePrefix ++ "-ring" ++ toString i) (alloc i)
  modify fun h => h.setRings q ((h.rings q).set i (some p))

/-- `ssn_ma_ring::configure_que` -/
def configureQue (sup : Supply) (q : RingRef) (namePrefix : String) (alloc : Nat → Bool) (nQue : Nat) :
    Proc Heap Unit := do
  modify fun h => h.setRings q (resize none nQue (h.rings q))
  forRange (configureAt sup q namePrefix alloc) nQue

/-- The loop's body in `reset_que`. -/
def resetAt (q : RingRef) (i : Nat) : Proc Heap Unit := do
  let h ← get
  match (h.rings q)[i]? with
  | none => Proc.throw "vector::at"
  | some r => rteRingFree r

/-- `ssn_ma_ring::reset_que`, which is what `~ssn_ma_ring` calls. -/
def resetQue (q : RingRef) : Proc Heap Unit := do
  let h ← get
  forRange (resetAt q) (h.rings q).length
  modify fun h => h.setRings q []

end Heap

namespace MaRing

/-- A ring set whose rings are all there. -/
def filled (namePrefix : String) (mem : Nat × Nat) (nQue : Nat) : MaRing Mbuf :=
  {(.init namePrefix mem.1 mem.2 : MaRing Mbuf) with
    rings := (List.range nQue).map fun i => some {name := namePrefix ++ "-ring" ++ toString i, size := ringSize}}

end MaRing

namespace Nfvi

/-- The end of the constructor: the panel is entered in the table, and its ports point to it. -/
def link (name : String) (r l : Nat) (leftEnq rightEnq : MaRing Mbuf) : Proc Nfvi Unit := do
  let n ← get
  Proc.set (n.addPpp ⟨name, leftEnq, rightEnq, l, r⟩)
  modifyPort l (VnfPort.setDev (.virt (some (.leftEnq n.next)) (some (.rightEnq n.next))))
  modifyPort r (VnfPort.setDev (.virt (some (.rightEnq n.next)) (some (.leftEnq n.next))))

end Nfvi

namespace Heap
open Nfvi (portAt virtPatched)

section Constructor
variable (sup : Supply) (name : String) (r l : Nat) (alloc : Nat → Nat → Bool) (mem : Nat → Nat × Nat)

/-- The constructor's body, for a panel at `a`. -/
def panelBody (a : Nat) : Proc Heap Unit := do
  let right ← onNfvi (portAt r)
  let left ← onNfvi (portAt l)
  if left.nRxq = right.nTxq ∧ left.nTxq = right.nRxq then do
    configureQue sup (.leftEnq a) (name ++ "LeftEnq") (alloc 0) left.nTxq
    configureQue sup (.rightEnq a) (name ++ "RightEnq") (alloc 1) right.nTxq
    onNfvi (Nfvi.link name r l (.filled (name ++ "LeftEnq") (mem 0) left.nTxq)
      (.filled (name ++ "RightEnq") (mem 1) right.nTxq))
  else Proc.throw ("ssn_vnf_port_patch_panel::ssn_vnf_port_patch_panel: " ++
    "patch panel is not support (n_rxq,n_txq are invalid)")

/-- `ssn_vnf_port_patch_panel::ssn_vnf_port_patch_panel`: when the body throws, the members it has are
destroyed, the last one first. -/
def newPatchPanel : Proc Heap Unit := do
  let h ← get
  modify fun h => (h.setRings (.leftEnq h.nfvi.next) []).setRings (.rightEnq h.nfvi.next) []
  catching (panelBody sup name r l alloc mem h.nfvi.next) fun what => do
    resetQue (.rightEnq h.nfvi.next)
    resetQue (.leftEnq h.nfvi.next)
    Proc.throw what

end Constructor

/-- `ssn_nfvi::ppp_alloc`, and whether there is a panel. -/
def pppAlloc (sup : Supply) (iname : String) (r l : Option Nat) (alloc : Nat → Nat → Bool)
    (mem : Nat → Nat × Nat) : Proc Heap Bool := do
  let h ← get
  if (h.nfvi.findPpp iname).isSome then pure false
  else
    match r, l with
    | some r, some l =>
      if h.nfvi.isVirt r ∧ h.nfvi.isVirt l then
        if (← onNfvi (virtPatched r)) = some true then pure false
        else if (← onNfvi (virtPatched l)) = some true then pure false
        else
          newPatchPanel sup iname r l alloc mem
          pure true
      else pure false
    | _, _ => pure false

/-! ### Filling a ring set -/

section Filling
variable {sup : Supply} {q : RingRef} {namePrefix : String} {alloc : Nat → Bool} {h : Heap}

/-- Rings that are not there yet, all different. -/
def New (h : Heap) (ps : List Nat) : Prop := ps.Nodup ∧ ∀ p ∈ ps, p ∉ h.rteRings

/-- The rings `ps` are allocated for the set `q`, which has room for `m` more. -/
def filling (h : Heap) (q : RingRef) (ps : List Nat) (m : Nat) : Heap :=
  {h with rteRings := h.rteRings ∪ ps.toFinset, rings := update h.rings q (ps.map some ++ List.replicate m none)}

theorem New.concat {ps : List Nat} (hps : h.New ps) {p : Nat} (hp : p ∉ h.rteRings ∪ ps.toFinset) :
    h.New (ps ++ [p]) := by
  rw [Finset.mem_union, List.mem_toFinset, not_or] at hp
  refine ⟨List.nodup_append.mpr ⟨hps.1, List.nodup_singleton p, ?_⟩, fun x hx => ?_⟩
  · rintro a ha b hb rfl
    exact hp.2 (List.mem_singleton.mp hb ▸ ha)
  · rcases List.mem_append.mp hx with hx | hx
    · exact hps.2 x hx
    · exact List.mem_singleton.mp hx ▸ hp.1

theorem insert_union (s : Finset Nat) (ps : List Nat) (p : Nat) :
    insert p (s ∪ ps.toFinset) = s ∪ (ps ++ [p]).toFinset := by
  ext x
  simp only [Finset.mem_insert, Finset.mem_union, List.mem_toFinset, List.mem_append, List.mem_singleton]
  tauto

theorem configureAt_ok (sup : Supply) (q : RingRef) (namePrefix : String) {ps : List Nat} (m : Nat)
    (hps : h.New ps) (hok : alloc ps.length = true) :
    ∃ p, h.New (ps ++ [p]) ∧ configureAt sup q namePrefix alloc ps.length (h.filling q ps (m + 1)) =
      .ret () (h.filling q (ps ++ [p]) m) := by
  let name := namePrefix ++ "-ring" ++ toString ps.length
  refine ⟨sup.addr name (h.rteRings ∪ ps.toFinset), hps.concat (sup.fresh _ _), ?_⟩
  have halloc : ringAlloc sup name (alloc ps.length) (h.filling q ps (m + 1)) =
      .ret (sup.addr name (h.rteRings ∪ ps.toFinset))
        {h.filling q ps (m + 1) with
          rteRings := insert (sup.addr name (h.rteRings ∪ ps.toFinset)) (h.rteRings ∪ ps.toFinset)} := by
    rw [ringAlloc, get_bind, if_pos hok]
    rfl
  have hset := set_next (ps.map some) none (some (sup.addr name (h.rteRings ∪ ps.toFinset))) m
  rw [List.length_map] at hset
  rw [configureAt, bind_ret halloc, modify_run]
  simp only [filling, setRings, update_self, update_idem, hset, insert_union, List.map_append, List.map_singleton]

theorem configureAt_throws {i : Nat} (hno : ¬alloc i = true) :
    configureAt sup q namePrefix alloc i h = .throws "dpdk::ring_alloc" h := by
  refine bind_throws ?_
  rw [ringAlloc, get_bind, if_neg hno]
  rfl

/-- The rounds stop at the first ring that there is not. -/
theorem forRange_configureAt (n : Nat) {k : Nat} (hk : k ≤ n) :
    ∃ ps m, h.New ps ∧
      ((∀ i < k, alloc i = true) ∧ ps.length = k ∧ m = n - k ∧
          forRange (configureAt sup q namePrefix alloc) k (h.filling q [] n) = .ret () (h.filling q ps m) ∨
        (∃ i < k, ¬alloc i = true) ∧
          forRange (configureAt sup q namePrefix alloc) k (h.filling q [] n) =
            .throws "dpdk::ring_alloc" (h.filling q ps m)) := by
  induction k with
  | zero => exact ⟨[], n, ⟨List.nodup_nil, nofun⟩, .inl ⟨nofun, rfl, rfl, rfl⟩⟩
  | succ k ih =>
    obtain ⟨ps, m, hps, ⟨hall, hlen, rfl, hrun⟩ | ⟨⟨i, hi, hno⟩, hrun⟩⟩ := ih (by omega)
    · by_cases hok : alloc k = true
      · obtain ⟨p, hnew, hstep⟩ := configureAt_ok sup q namePrefix (n - (k + 1)) hps (hlen ▸ hok)
        refine ⟨ps ++ [p], n - (k + 1), hnew, .inl ⟨?_, by simp [hlen], rfl, ?_⟩⟩
        · intro i hi
          obtain hlt | rfl := Nat.lt_succ_iff_lt_or_eq.mp hi
          · exact hall i hlt
          · exact hok
        · rw [show n - k = n - (k + 1) + 1 by omega] at hrun
          rw [hlen] at hstep
          rw [forRange_succ, bind_ret hrun, hstep]
      · exact ⟨ps, n - k, hps, .inr ⟨⟨k, Nat.lt_succ_self k, hok⟩, by
          rw [forRange_succ, bind_ret hrun, configureAt_throws hok]⟩⟩
    · exact ⟨ps, m, hps, .inr ⟨⟨i, Nat.lt_succ_of_lt hi, hno⟩, by rw [forRange_succ, bind_throws hrun]⟩⟩

theorem configureQue_cases (sup : Supply) (namePrefix : String) (alloc : Nat → Bool) (n : Nat) (hq : h.rings q = []) :
    ∃ ps m, h.New ps ∧
      ((∀ i < n, alloc i = true) ∧ configureQue sup q namePrefix alloc n h = .ret () (h.filling q ps m) ∨
        (∃ i < n, ¬alloc i = true) ∧
          configureQue sup q namePrefix alloc n h = .throws "dpdk::ring_alloc" (h.filling q ps m)) := by
  have hresize : h.setRings q (resize none n (h.rings q)) = h.filling q [] n := by
    simp [hq, resize, setRings, filling]
  have hloop : configureQue sup q namePrefix alloc n h =
      forRange (configureAt sup q namePrefix alloc) n (h.filling q [] n) := by
    rw [configureQue, modify_bind, hresize]
  obtain ⟨ps, m, hps, ⟨hall, -, -, hrun⟩ | ⟨hno, hrun⟩⟩ := forRange_configureAt n (le_refl n)
  · exact ⟨ps, m, hps, .inl ⟨hall, hloop.trans hrun⟩⟩
  · exact ⟨ps, m, hps, .inr ⟨hno, hloop.trans hrun⟩⟩

/-! ### Emptying it -/

/-- The first `k` entries of the vector are freed. -/
def emptying (h : Heap) (q : RingRef) (ps : List Nat) (m k : Nat) : Heap :=
  {h.filling q ps m with rteRings := h.rteRings ∪ (ps.drop k).toFinset}

theorem resetAt_run {ps : List Nat} {m k : Nat} (hps : h.New ps) (hk : k < ps.length + m) :
    resetAt q k (h.emptying q ps m k) = .ret () (h.emptying q ps m (k + 1)) := by
  have hrings : (h.emptying q ps m k).rings q = ps.map some ++ List.replicate m none := update_self ..
  rw [resetAt, get_bind, hrings]
  by_cases hlt : k < ps.length
  · have hget : (ps.map some ++ List.replicate m none)[k]? = some (some ps[k]) := by
      rw [List.getElem?_append_left (by rwa [List.length_map]), List.getElem?_map, List.getElem?_eq_getElem hlt,
        Option.map_some]
    have hcons : ps.drop k = ps[k] :: ps.drop (k + 1) := List.drop_eq_getElem_cons hlt
    have hnodup := hps.1.sublist (List.drop_sublist k ps)
    rw [hcons, List.nodup_cons] at hnodup
    have hout : ps[k] ∉ h.rteRings ∪ (ps.drop (k + 1)).toFinset := by
      rw [Finset.mem_union, List.mem_toFinset, not_or]
      exact ⟨hps.2 _ (List.getElem_mem hlt), hnodup.1⟩
    have hset : (h.emptying q ps m k).rteRings = insert ps[k] (h.rteRings ∪ (ps.drop (k + 1)).toFinset) := by
      show h.rteRings ∪ (ps.drop k).toFinset = _
      rw [hcons, List.toFinset_cons, Finset.union_insert]
    simp only [hget, rteRingFree, get_bind, hset, Finset.mem_insert_self, if_true, Finset.erase_insert hout,
      set_run]
    rfl
  · have hget : (ps.map some ++ List.replicate m (none : Option Nat))[k]? = some none := by
      rw [List.getElem?_append_right (by rw [List.length_map]; omega), List.getElem?_replicate,
        if_pos (by rw [List.length_map]; omega)]
    simp only [hget, rteRingFree, get_bind, pure_run, emptying]
    rw [List.drop_eq_nil_of_le (by omega : ps.length ≤ k), List.drop_eq_nil_of_le (by omega : ps.length ≤ k + 1)]

theorem forRange_resetAt {ps : List Nat} {m k : Nat} (hps : h.New ps) (hk : k ≤ ps.length + m) :
    forRange (resetAt q) k (h.filling q ps m) = .ret () (h.emptying q ps m k) := by
  induction k with
  | zero => rfl
  | succ k ih => rw [forRange_succ, bind_ret (ih (by omega)), resetAt_run hps hk]

theorem setRings_eq_self (hq : h.rings q = []) : h.setRings q [] = h := by
  rw [setRings, ← hq, update_eq_self]

/-- What was allocated for a ring set is given back. -/
theorem resetQue_filling {ps : List Nat} {m : Nat} (hps : h.New ps) (hq : h.rings q = []) :
    resetQue q (h.filling q ps m) = .ret () h := by
  have hrings : (h.filling q ps m).rings q = ps.map some ++ List.replicate m none := update_self ..
  have hlen : ((h.filling q ps m).rings q).length = ps.length + m := by
    rw [hrings, List.length_append, List.length_map, List.length_replicate]
  have hall : ps.drop (ps.length + m) = [] := List.drop_eq_nil_of_le (Nat.le_add_right ..)
  have hempty : (h.emptying q ps m (ps.length + m)).setRings q [] = h.setRings q [] := by
    simp only [emptying, filling, setRings, hall, List.toFinset_nil, Finset.union_empty, update_idem]
  rw [resetQue, get_bind, hlen, bind_ret (forRange_resetAt hps le_rfl), modify_run, hempty, setRings_eq_self hq]

/-- A ring set that has no rings. -/
theorem resetQue_empty (hq : h.rings q = []) : resetQue q h = .ret () h := by
  rw [resetQue, get_bind, hq]
  show Outcome.ret () (h.setRings q []) = .ret () h
  rw [setRings_eq_self hq]

end Filling

end Heap

/-! ### What the NFVi sees of a ring set -/

namespace MaRing

/-- The first `k` of `n` rings are there. -/
def filledTo (np : String) (mem : Nat × Nat) (n k : Nat) : MaRing Mbuf :=
  {filled np mem k with rings := (filled np mem k).rings ++ List.replicate (n - k) none}

theorem filledTo_succ (np : String) (mem : Nat × Nat) {n k : Nat} (hk : k < n) :
    {filledTo np mem n k with
      rings := (filledTo np mem n k).rings.set k (some {name := np ++ "-ring" ++ toString k, size := ringSize})} =
      filledTo np mem n (k + 1) := by
  have hset := set_next (filled np mem k).rings none
    (some {name := np ++ "-ring" ++ toString k, size := ringSize}) (n - (k + 1))
  have hlen : (filled np mem k).rings.length = k := by rw [filled, List.length_map, List.length_range]
  rw [hlen, show n - (k + 1) + 1 = n - k by omega] at hset
  simp only [filledTo, hset]
  simp only [filled, List.range_succ, List.map_append, List.map_singleton]

/-- Round by round the rings are there, up to the first that there is not. -/
theorem configureQue_cases (np : String) (mem : Nat × Nat) (alloc : Nat → Bool) (n : Nat) :
    (∀ i < n, alloc i = true) ∧ configureQue alloc n (.init np mem.1 mem.2) = .ret () (filled np mem n) ∨
      (∃ i < n, ¬alloc i = true) ∧
        ∃ x, configureQue alloc n (.init np mem.1 mem.2 : MaRing Mbuf) = .throws "dpdk::ring_alloc" x := by
  let body (i : Nat) : Proc (MaRing Mbuf) Unit := do
    let r ← Proc.get
    let ring := {name := r.namePrefix ++ "-ring" ++ toString i, size := ringSize}
    if alloc i then Proc.set {r with rings := r.rings.set i (some ring)}
    else Proc.throw "dpdk::ring_alloc"
  have hloop : configureQue alloc n (.init np mem.1 mem.2) = forRange body n (filledTo np mem n 0) := by
    have hresize : ({(.init np mem.1 mem.2 : MaRing Mbuf) with rings := resize none n []} : MaRing Mbuf) =
        filledTo np mem n 0 := by
      simp [resize, filledTo, filled]
    rw [← hresize]
    rfl
  have hrounds (k : Nat) (hk : k ≤ n) :
      (∀ i < k, alloc i = true) ∧ forRange body k (filledTo np mem n 0) = .ret () (filledTo np mem n k) ∨
        (∃ i < k, ¬alloc i = true) ∧ ∃ x, forRange body k (filledTo np mem n 0) = .throws "dpdk::ring_alloc" x := by
    induction k with
    | zero => exact .inl ⟨fun _ hi => absurd hi (Nat.not_lt_zero _), rfl⟩
    | succ k ih =>
      obtain ⟨hall, hrun⟩ | ⟨⟨i, hi, hno⟩, x, hrun⟩ := ih (by omega)
      · by_cases hok : alloc k = true
        · refine .inl ⟨fun i hi => ?_, ?_⟩
          · obtain hlt | rfl := Nat.lt_succ_iff_lt_or_eq.mp hi
            · exact hall i hlt
            · exact hok
          · rw [forRange_succ, bind_ret hrun, ← filledTo_succ np mem hk]
            simp only [body, get_bind, if_pos hok, set_run]
            rfl
        · refine .inr ⟨⟨k, Nat.lt_succ_self k, hok⟩, filledTo np mem n k, ?_⟩
          rw [forRange_succ, bind_ret hrun]
          simp only [body, get_bind, if_neg hok, throw_run]
      · exact .inr ⟨⟨i, Nat.lt_succ_of_lt hi, hno⟩, x, by rw [forRange_succ, bind_throws hrun]⟩
  have hfull : filledTo np mem n n = filled np mem n := by
    rw [filledTo, Nat.sub_self, List.replicate_zero, List.append_nil]
  rw [hloop, ← hfull]
  exact hrounds n le_rfl

/-- A new ring set: it has all its rings, or the constructor throws. -/
theorem fresh_configureQue {σ : Type} (np : String) (mem : Nat × Nat) (alloc : Nat → Bool) (n : Nat) (s : σ) :
    (∀ i < n, alloc i = true) ∧
        fresh (.init np mem.1 mem.2) (configureQue alloc n) s = .ret (filled np mem n) s ∨
      (∃ i < n, ¬alloc i = true) ∧
        fresh (.init np mem.1 mem.2 : MaRing Mbuf) (configureQue alloc n) s = .throws "dpdk::ring_alloc" s := by
  obtain ⟨hall, hrun⟩ | ⟨hno, x, hrun⟩ := configureQue_cases np mem alloc n
  · exact .inl ⟨hall, by rw [fresh, hrun]⟩
  · exact .inr ⟨hno, by rw [fresh, hrun]⟩

end MaRing

/-! ### The constructor -/

namespace Heap
open Nfvi (portAt virtPatched)

section Constructor
variable {sup : Supply} {name : String} {r l a : Nat} {alloc : Nat → Nat → Bool} {mem : Nat → Nat × Nat} {h : Heap}

/-- What the catch of the constructor does. -/
def unwind (a : Nat) (what : String) : Proc Heap Unit := do
  resetQue (.rightEnq a)
  resetQue (.leftEnq a)
  Proc.throw what

theorem onNfvi_ret {α : Type} {p : Proc Nfvi α} {x : α} {n : Nfvi} (hp : p h.nfvi = .ret x n) :
    onNfvi p h = .ret x {h with nfvi := n} := by
  rw [onNfvi, zoom, hp]

theorem onNfvi_crash {α : Type} {p : Proc Nfvi α} {c : Crash} (hp : p h.nfvi = .crash c) :
    onNfvi p h = .crash c := by
  rw [onNfvi, zoom, hp]

/-- A port that is looked at, or is gone. -/
theorem portAt_cases (p : Nat) (n : Nfvi) : portAt p n = .ret (n.port p) n ∨ portAt p n = .crash .danglingPointer := by
  rw [portAt, get_bind]
  by_cases hp : p ∈ n.ports
  · exact .inl (by rw [if_pos hp, pure_run])
  · exact .inr (by rw [if_neg hp, crash_run])

/-- How the constructor's body ends, for the rings and for the NFVi: either has what the other has, and
what is thrown leaves nothing behind. -/
inductive Ends (h : Heap) (a : Nat) : Outcome Heap Unit → Outcome Nfvi Unit → Prop
  | ret (h' : Heap) : Ends h a (.ret () h') (.ret () h'.nfvi)
  | throws (what : String) (h' : Heap) (hback : unwind a what h' = .throws what h) :
      Ends h a (.throws what h') (.throws what h.nfvi)
  | crash (c : Crash) : Ends h a (.crash c) (.crash c)

/-- A ring set is filled, or gives up, for the rings as it does for the NFVi. -/
theorem configureQue_both {q : RingRef} (hq : h.rings q = []) (sup : Supply) (np : String) (mem : Nat × Nat)
    (alloc : Nat → Bool) (nQue : Nat) (n : Nfvi) :
    ∃ ps m, h.New ps ∧
      (configureQue sup q np alloc nQue h = .ret () (h.filling q ps m) ∧
          fresh (.init np mem.1 mem.2) (MaRing.configureQue alloc nQue) n = .ret (.filled np mem nQue) n ∨
        configureQue sup q np alloc nQue h = .throws "dpdk::ring_alloc" (h.filling q ps m) ∧
          fresh (.init np mem.1 mem.2 : MaRing Mbuf) (MaRing.configureQue alloc nQue) n =
            .throws "dpdk::ring_alloc" n) := by
  obtain ⟨ps, m, hps, ⟨hall, hrun⟩ | ⟨⟨i, hi, hno⟩, hrun⟩⟩ := configureQue_cases sup np alloc nQue hq
  · obtain ⟨-, hfresh⟩ | ⟨⟨i, hi, hno⟩, -⟩ := MaRing.fresh_configureQue np mem alloc nQue n
    · exact ⟨ps, m, hps, .inl ⟨hrun, hfresh⟩⟩
    · exact absurd (hall i hi) hno
  · obtain ⟨hall, -⟩ | ⟨-, hfresh⟩ := MaRing.fresh_configureQue np mem alloc nQue n
    · exact absurd (hall i hi) hno
    · exact ⟨ps, m, hps, .inr ⟨hrun, hfresh⟩⟩

theorem rightEnq_ne_leftEnq (a : Nat) : RingRef.rightEnq a ≠ RingRef.leftEnq a := nofun

theorem rings_rightEnq (ps : List Nat) (m : Nat) :
    (h.filling (.leftEnq a) ps m).rings (.rightEnq a) = h.rings (.rightEnq a) :=
  update_of_ne (rightEnq_ne_leftEnq a) (ps.map some ++ List.replicate m none) h.rings

/-- The set that throws, and the one before it, give back what they have. -/
theorem unwind_left {ps : List Nat} {m : Nat} (what : String) (hps : h.New ps) (hleft : h.rings (.leftEnq a) = [])
    (hright : h.rings (.rightEnq a) = []) : unwind a what (h.filling (.leftEnq a) ps m) = .throws what h := by
  have hempty : (h.filling (.leftEnq a) ps m).rings (.rightEnq a) = [] :=
    (rings_rightEnq ps m).trans hright
  rw [unwind, bind_ret (resetQue_empty hempty), bind_ret (resetQue_filling hps hleft), throw_run]

theorem unwind_right {ps ps' : List Nat} {m m' : Nat} (what : String) (hps : h.New ps)
    (hps' : (h.filling (.leftEnq a) ps m).New ps') (hleft : h.rings (.leftEnq a) = [])
    (hright : h.rings (.rightEnq a) = []) :
    unwind a what ((h.filling (.leftEnq a) ps m).filling (.rightEnq a) ps' m') = .throws what h := by
  have hempty : (h.filling (.leftEnq a) ps m).rings (.rightEnq a) = [] :=
    (rings_rightEnq ps m).trans hright
  rw [unwind, bind_ret (resetQue_filling hps' hempty), bind_ret (resetQue_filling hps hleft), throw_run]

variable (sup name r l alloc mem) in
theorem panelBody_ends (hleft : h.rings (.leftEnq a) = []) (hright : h.rings (.rightEnq a) = []) :
    Ends h a (panelBody sup name r l alloc mem a h) (Nfvi.newPatchPanel name r l alloc mem h.nfvi) := by
  rw [panelBody, Nfvi.newPatchPanel]
  obtain hr | hr := portAt_cases r h.nfvi
  swap
  · rw [bind_crash hr, bind_crash (onNfvi_crash hr)]
    exact .crash _
  obtain hl | hl := portAt_cases l h.nfvi
  swap
  · rw [bind_ret hr, bind_ret (onNfvi_ret hr), bind_crash hl, bind_crash (onNfvi_crash hl)]
    exact .crash _
  rw [bind_ret hr, bind_ret (onNfvi_ret hr), bind_ret hl, bind_ret (onNfvi_ret hl)]
  by_cases hmatch : (h.nfvi.port l).nRxq = (h.nfvi.port r).nTxq ∧ (h.nfvi.port l).nTxq = (h.nfvi.port r).nRxq
  swap
  · rw [if_neg hmatch, if_neg hmatch]
    refine .throws _ _ ?_
    rw [unwind, bind_ret (resetQue_empty hright), bind_ret (resetQue_empty hleft), throw_run]
  rw [if_pos hmatch, if_pos hmatch]
  obtain ⟨ps, m, hps, ⟨hrun, hfresh⟩ | ⟨hrun, hfresh⟩⟩ := configureQue_both hleft sup (name ++ "LeftEnq") (mem 0)
    (alloc 0) (h.nfvi.port l).nTxq h.nfvi
  swap
  · rw [bind_throws hrun, bind_throws hfresh]
    exact .throws _ _ (unwind_left _ hps hleft hright)
  rw [bind_ret hrun, bind_ret hfresh]
  have hempty : (h.filling (.leftEnq a) ps m).rings (.rightEnq a) = [] :=
    (rings_rightEnq ps m).trans hright
  obtain ⟨ps', m', hps', ⟨hrun', hfresh'⟩ | ⟨hrun', hfresh'⟩⟩ := configureQue_both hempty sup (name ++ "RightEnq")
    (mem 1) (alloc 1) (h.nfvi.port r).nTxq h.nfvi
  swap
  · rw [bind_throws hrun', bind_throws hfresh']
    exact .throws _ _ (unwind_right _ hps hps' hleft hright)
  rw [bind_ret hrun', bind_ret hfresh']
  exact .ret _

/-- The constructor leaves the rings and the NFVi as they were when it throws. -/
theorem newPatchPanel_cases (sup : Supply) (name : String) (r l : Nat) (alloc : Nat → Nat → Bool)
    (mem : Nat → Nat × Nat) (h : Heap) :
    (∃ h', newPatchPanel sup name r l alloc mem h = .ret () h' ∧
        Nfvi.newPatchPanel name r l alloc mem h.nfvi = .ret () h'.nfvi) ∨
      (∃ what h', newPatchPanel sup name r l alloc mem h = .throws what h' ∧
        h'.nfvi = h.nfvi ∧ h'.rteRings = h.rteRings ∧
          Nfvi.newPatchPanel name r l alloc mem h.nfvi = .throws what h.nfvi) ∨
      ∃ c, newPatchPanel sup name r l alloc mem h = .crash c ∧
        Nfvi.newPatchPanel name r l alloc mem h.nfvi = .crash c := by
  let a := h.nfvi.next
  let h₁ := (h.setRings (.leftEnq a) []).setRings (.rightEnq a) []
  have hright : h₁.rings (.rightEnq a) = [] := update_self ..
  have hleft : h₁.rings (.leftEnq a) = [] := by
    show update (update h.rings (.leftEnq a) []) (.rightEnq a) [] (.leftEnq a) = []
    rw [update_of_ne (rightEnq_ne_leftEnq a).symm, update_self]
  have hnew : newPatchPanel sup name r l alloc mem h =
      catching (panelBody sup name r l alloc mem a) (unwind a) h₁ := by
    rw [newPatchPanel, get_bind, modify_bind]
    rfl
  have hends := panelBody_ends sup name r l alloc mem hleft hright
  rw [hnew, catching]
  generalize panelBody sup name r l alloc mem a h₁ = o at hends
  change Ends h₁ a o (Nfvi.newPatchPanel name r l alloc mem h.nfvi) at hends
  generalize Nfvi.newPatchPanel name r l alloc mem h.nfvi = o' at hends
  cases hends with
  | ret h' => exact .inl ⟨h', rfl, rfl⟩
  | throws what h' hback => exact .inr (.inl ⟨what, h₁, hback, rfl, rfl, rfl⟩)
  | crash c => exact .inr (.inr ⟨c, rfl, rfl⟩)

end Constructor

/-! ### `ppp_alloc` -/

/-- What is asked of a call that creates no panel: the table of panels, the pointers of all ports and the
rings that are allocated are as before. -/
structure Untouched (h h' : Heap) : Prop where
  ppps : h'.nfvi.ppps = h.nfvi.ppps
  dev : ∀ p, (h'.nfvi.port p).dev = (h.nfvi.port p).dev
  rteRings : h'.rteRings = h.rteRings

theorem untouched_of_nfvi {h h' : Heap} (hn : h'.nfvi = h.nfvi) (hr : h'.rteRings = h.rteRings) : Untouched h h' :=
  ⟨by rw [hn], fun p => by rw [hn], hr⟩

/-- Looking at a port changes nothing. -/
theorem virtPatched_cases (p : Nat) (n : Nfvi) :
    (∃ b, virtPatched p n = .ret b n) ∨ ∃ c, virtPatched p n = .crash c := by
  rw [virtPatched]
  obtain hp | hp := portAt_cases p n
  swap
  · exact .inr ⟨_, bind_crash hp⟩
  rw [bind_ret hp]
  cases (n.port p).dev with
  | dpdk portId socketId ma => exact .inl ⟨none, rfl⟩
  | virt tx rx =>
    cases hpatched : VnfPort.patched tx rx with
    | error c => exact .inr ⟨c, by simp only [hpatched, crash_run]⟩
    | ok b => exact .inl ⟨some b, by simp only [hpatched, pure_run]⟩

/-- How a call ends for the rings and for the NFVi: alike, and untouched unless there is a panel. -/
inductive Agree (h : Heap) : Outcome Heap Bool → Outcome Nfvi Bool → Prop
  | made (h' : Heap) : Agree h (.ret true h') (.ret true h'.nfvi)
  | refused : Agree h (.ret false h) (.ret false h.nfvi)
  | throws (what : String) (h' : Heap) (hu : Untouched h h') : Agree h (.throws what h') (.throws what h'.nfvi)
  | crash (c : Crash) : Agree h (.crash c) (.crash c)

theorem pppAlloc_agree (sup : Supply) (iname : String) (r l : Option Nat) (alloc : Nat → Nat → Bool)
    (mem : Nat → Nat × Nat) (h : Heap) :
    Agree h (pppAlloc sup iname r l alloc mem h) (Nfvi.pppAlloc iname r l alloc mem h.nfvi) := by
  rw [pppAlloc, Nfvi.pppAlloc, get_bind, get_bind]
  by_cases hname : (h.nfvi.findPpp iname).isSome = true
  · rw [if_pos hname, if_pos hname]
    exact .refused
  rw [if_neg hname, if_neg hname]
  cases r with
  | none => exact .refused
  | some r =>
    cases l with
    | none => exact .refused
    | some l =>
      by_cases hvirt : h.nfvi.isVirt r = true ∧ h.nfvi.isVirt l = true
      swap
      · simp only [if_neg hvirt]
        exact .refused
      simp only [if_pos hvirt]
      obtain ⟨br, hr⟩ | ⟨c, hc⟩ := virtPatched_cases r h.nfvi
      swap
      · rw [bind_crash hc, bind_crash (onNfvi_crash hc)]
        exact .crash _
      rw [bind_ret hr, bind_ret (onNfvi_ret hr)]
      by_cases hbr : br = some true
      · rw [if_pos hbr, if_pos hbr]
        exact .refused
      rw [if_neg hbr, if_neg hbr]
      obtain ⟨bl, hl⟩ | ⟨c, hc⟩ := virtPatched_cases l h.nfvi
      swap
      · rw [bind_crash hc, bind_crash (onNfvi_crash hc)]
        exact .crash _
      rw [bind_ret hl, bind_ret (onNfvi_ret hl)]
      by_cases hbl : bl = some true
      · rw [if_pos hbl, if_pos hbl]
        exact .refused
      rw [if_neg hbl, if_neg hbl]
      obtain ⟨h', hrun, hn⟩ | ⟨what, h', hrun, hnfvi, hrings, hn⟩ | ⟨c, hrun, hn⟩ :=
        newPatchPanel_cases sup iname r l alloc mem h
      · rw [bind_ret hrun, bind_ret hn]
        exact .made h'
      · rw [bind_throws hrun, bind_throws hn, ← hnfvi]
        exact .throws what h' (untouched_of_nfvi hnfvi hrings)
      · rw [bind_crash hrun, bind_crash hn]
        exact .crash c

/-- **No panel, no trace**: a call that returns no panel, or throws, leaves the table of panels, the
pointers of the ports and the rings that are allocated as they were. -/
theorem pppAlloc_all_or_nothing (sup : Supply) (iname : String) (r l : Option Nat) (alloc : Nat → Nat → Bool)
    (mem : Nat → Nat × Nat) (h : Heap) :
    (∀ h', pppAlloc sup iname r l alloc mem h = .ret false h' → Untouched h h') ∧
      ∀ what h', pppAlloc sup iname r l alloc mem h = .throws what h' → Untouched h h' := by
  have hagree := pppAlloc_agree sup iname r l alloc mem h
  generalize pppAlloc sup iname r l alloc mem h = o at hagree
  generalize Nfvi.pppAlloc iname r l alloc mem h.nfvi = o' at hagree
  cases hagree with
  | made h' => exact ⟨nofun, nofun⟩
  | refused =>
    refine ⟨fun h' hret => ?_, nofun⟩
    cases hret
    exact untouched_of_nfvi rfl rfl
  | throws what h' hu =>
    refine ⟨nofun, fun what' h'' hthrow => ?_⟩
    cases hthrow
    exact hu
  | crash c => exact ⟨nofun, nofun⟩

theorem card_le_of_range_subset {s : Finset Nat} {n : Nat} (h : ∀ p < n, p ∈ s) : n ≤ s.card := by
  have hsub : Finset.range n ⊆ s := fun p hp => h p (Finset.mem_range.mp hp)
  have hcard := Finset.card_le_card hsub
  rwa [Finset.card_range] at hcard

/-- Of the first addresses, more than there are rings, one is free. -/
def freeAddr (s : Finset Nat) : Nat := ((List.range (s.card + 1)).find? fun p => decide (p ∉ s)).getD 0

theorem freeAddr_notMem (s : Finset Nat) : freeAddr s ∉ s := by
  rw [freeAddr]
  cases hfind : (List.range (s.card + 1)).find? fun p => decide (p ∉ s) with
  | none =>
    have hall : ∀ p < s.card + 1, p ∈ s := fun p hp => by
      simpa using List.find?_eq_none.mp hfind p (List.mem_range.mpr hp)
    exact absurd (card_le_of_range_subset hall) (Nat.not_succ_le_self _)
  | some q =>
    have hfree := List.find?_some (p := fun p => decide (p ∉ s)) hfind
    exact of_decide_eq_true hfree

def freeSupply : Supply := ⟨fun _ s => freeAddr s, fun _ => freeAddr_notMem⟩

/-- Two virtual ports of two queues each, and a ring of somebody else. -/
def twoVirts : Heap where
  nfvi := {nSocket := 1, catalog := [], ports := [0, 1], next := 2,
           port := fun p => {name := toString p, nRxq := 2, nTxq := 2, dev := .virt none none}}
  rteRings := {5}
  rings _ := []

-- the last of the four rings cannot be allocated
example : (pppAlloc freeSupply "x" (some 1) (some 0) (fun side i => !(side == 1 && i == 1)) (fun _ => (0, 0)) twoVirts).state?.map
    (fun h => (h.rteRings, h.nfvi.ppps)) = some ({5}, []) := by decide +kernel

/-- The part of an outcome that the NFVi sees. -/
def seen {α : Type} : Outcome Heap α → Outcome Nfvi α
  | .ret x h => .ret x h.nfvi
  | .throws what h => .throws what h.nfvi
  | .crash c => .crash c

/-- What the NFVi sees of the call is the call without the rings. -/
theorem pppAlloc_nfvi (sup : Supply) (iname : String) (r l : Option Nat) (alloc : Nat → Nat → Bool)
    (mem : Nat → Nat × Nat) (h : Heap) :
    seen (pppAlloc sup iname r l alloc mem h) = Nfvi.pppAlloc iname r l alloc mem h.nfvi := by
  have hagree := pppAlloc_agree sup iname r l alloc mem h
  generalize pppAlloc sup iname r l alloc mem h = o at hagree
  generalize Nfvi.pppAlloc iname r l alloc mem h.nfvi = o' at hagree
  cases hagree <;> rfl


end Heap

end Susanow
