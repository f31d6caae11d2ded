import Mathlib.Data.List.Perm.Basic
import Susanow.Ma.Ring

/-! What goes through a set of rings.

Whichever accessors put objects in and take them out, and however the two sides are
configured anew in between, the objects of one ring come out in the order they went in,
and none is lost. A side whose accessors have all gone once round has met every ring. -/
namespace Susanow

/-! ### Grouping a log -/

theorem flatMap_range_single {γ : Type} (xs : List γ) {k n : Nat} (h : k < n) :
    (List.range n).flatMap (fun i => if k = i then xs else []) = xs := by
  induction n with
  | zero => exact absurd h (Nat.not_lt_zero k)
  | succ n ih =>
    rw [List.range_succ, List.flatMap_append]
    rcases Nat.lt_succ_iff_lt_or_eq.mp h with hlt | rfl
    · rw [ih hlt]
      simp [Nat.ne_of_lt hlt]
    · have hnone : (List.range k).flatMap (fun i => if k = i then xs else []) = [] := by
        apply List.flatMap_eq_nil_iff.mpr
        intro i hi
        exact if_neg (Ne.symm (Nat.ne_of_lt (List.mem_range.mp hi)))
      rw [hnone]
      simp

/-- Up to order, a log is what its groups are. -/
theorem flatMap_perm_groups {β γ : Type} (key : β → Nat) (f : β → List γ) {n : Nat} (log : List β)
    (h : ∀ b ∈ log, key b < n) :
    (log.flatMap f).Perm ((List.range n).flatMap fun i => (log.filter (key · == i)).flatMap f) := by
  induction log with
  | nil => simp
  | cons b log ih =>
    have ih := ih fun c hc => h c (List.mem_cons_of_mem b hc)
    have hfirst (i : Nat) : ((b :: log).filter (key · == i)).flatMap f =
        (if key b = i then f b else []) ++ (log.filter (key · == i)).flatMap f := by
      by_cases hkey : key b = i <;> simp [hkey]
    simp only [hfirst, List.flatMap_cons]
    have hone := flatMap_range_single (f b) (h b List.mem_cons_self)
    exact ((List.Perm.of_eq hone.symm).append ih).trans (List.flatMap_append_perm _ _ _)

namespace MaRing
open Function (update)
open Accessor (AllTurned)
open RoundRobin (slice item)
variable {α : Type}

/-! ### Sides -/

/-- A side that was never configured, or was with a dividing count. -/
def Dealt (nQue : Nat) (accs : List Accessor) : Prop :=
  (accs = [] ∨ accs.length ∣ nQue) ∧ ∃ seen, AllTurned (nQue / accs.length) accs.length seen accs

theorem dealt_nil (nQue : Nat) : Dealt nQue [] :=
  ⟨.inl rfl, fun _ => 0, rfl, fun _ h => absurd h (Nat.not_lt_zero _)⟩

theorem AllTurned.dealt {nQue nAcc : Nat} {seen : Nat → Nat} {accs : List Accessor} (hdvd : nAcc ∣ nQue)
    (h : AllTurned (nQue / nAcc) nAcc seen accs) : Dealt nQue accs := by
  obtain rfl := h.1
  exact ⟨.inr hdvd, seen, h⟩

/-- An access id there is leads to a ring there is. -/
theorem Dealt.getAt {nQue aid : Nat} {accs : List Accessor} (h : Dealt nQue accs) (hque : 0 < nQue)
    (haid : aid < accs.length) :
    ∃ idx accs', Accessor.getAt aid accs = .ret idx accs' ∧ idx < nQue ∧ accs'.length = accs.length ∧
      Dealt nQue accs' := by
  have hne : accs ≠ [] := List.ne_nil_of_length_pos (Nat.zero_lt_of_lt haid)
  have hdvd := h.1.resolve_left hne
  obtain ⟨seen, hturned⟩ := h.2
  have hq : 0 < nQue / accs.length := Nat.div_pos (Nat.le_of_dvd hque hdvd) (Nat.zero_lt_of_lt haid)
  obtain ⟨accs', hget, hturned'⟩ := hturned.getAt hq haid
  have hidx := RoundRobin.mem_slice_lt haid (RoundRobin.item_mem (a := aid) (k := seen aid) hq)
  rw [Nat.mul_div_cancel' hdvd] at hidx
  exact ⟨_, accs', hget, hidx, hturned'.1, AllTurned.dealt hdvd hturned'⟩

/-! ### Objects -/

/-- The objects in ring `i`. -/
def objsAt (x : MaRing α) (i : Nat) : List α := (x.rings[i]?.join).elim [] RteRing.objs

/-- The objects in the rings, ring by ring. -/
def stored (x : MaRing α) : List α := (List.range x.rings.length).flatMap x.objsAt

theorem objsAt_of_ring {x : MaRing α} {i : Nat} {ring : RteRing α} (h : x.rings[i]? = some (some ring)) :
    x.objsAt i = ring.objs := by
  rw [objsAt, h]
  rfl

theorem objsAt_congr {x x' : MaRing α} (h : x'.rings = x.rings) : x'.objsAt = x.objsAt := by
  funext i
  rw [objsAt, h]
  rfl

theorem objsAt_set {x x' : MaRing α} {idx : Nat} {ring : RteRing α} (hidx : idx < x.rings.length)
    (h : x'.rings = x.rings.set idx (some ring)) : x'.objsAt = update x.objsAt idx ring.objs := by
  funext i
  by_cases hi : i = idx
  · subst hi
    rw [Function.update_self]
    exact objsAt_of_ring (by rw [h, List.getElem?_set_self hidx])
  · rw [Function.update_of_ne hi, objsAt, h, List.getElem?_set_ne (Ne.symm hi)]
    rfl

theorem length_objsAt_le (x : MaRing α) (i : Nat) : (x.objsAt i).length ≤ x.stored.length := by
  by_cases hi : i < x.rings.length
  · have hsub : List.Sublist (x.objsAt i) x.stored := by
      rw [stored, List.flatMap_def]
      exact List.sublist_flatten_of_mem (List.mem_map_of_mem (List.mem_range.mpr hi))
    exact hsub.length_le
  · rw [objsAt, List.getElem?_eq_none (Nat.le_of_not_lt hi)]
    exact Nat.zero_le _

/-! ### Bursts and configurations -/

/-- Rings that bursts and configurations of either side leave as they should be. -/
structure Ready (nQue : Nat) (x : MaRing α) : Prop where
  length : x.rings.length = nQue
  alloc : Allocated x
  enq : Dealt nQue x.enqAccessors
  deq : Dealt nQue x.deqAccessors

/-- A burst on an enqueue accessor put the first `k` of the objects behind those of ring `idx`. -/
structure Enqueued (nQue : Nat) (x x' : MaRing α) (objs : List α) (idx k : Nat) : Prop where
  idx_lt : idx < nQue
  deq : x'.deqAccessors = x.deqAccessors
  objsAt : x'.objsAt = update x.objsAt idx (x.objsAt idx ++ objs.take k)

/-- A burst on a dequeue accessor took the first `nb` objects of ring `idx`. -/
structure Dequeued (nQue : Nat) (x x' : MaRing α) (aid nb idx : Nat) : Prop where
  idx_lt : idx < nQue
  get : Accessor.getAt aid x.deqAccessors = .ret idx x'.deqAccessors
  objsAt : x'.objsAt = update x.objsAt idx ((x.objsAt idx).drop nb)

namespace Ready
variable {nQue aid : Nat} {x : MaRing α} (h : Ready nQue x) (hque : 0 < nQue)
include h

section Bursts
include hque

theorem enqueueBurst (haid : aid < x.getNumEnqAcc) (objs : List α) :
    ∃ idx k x', enqueueBurst aid objs x = .ret (idx, k) x' ∧ Ready nQue x' ∧ Enqueued nQue x x' objs idx k := by
  obtain ⟨idx, accs, hget, hidx, -, hdealt⟩ := h.enq.getAt hque haid
  rw [← h.length] at hidx
  obtain ⟨ring, hring⟩ := h.alloc idx hidx
  refine ⟨_, _, _, enqueueBurst_run hget hring objs, ?_, ?_⟩
  · exact ⟨by simpa using h.length, h.alloc.set rfl, hdealt, h.deq⟩
  · refine ⟨h.length ▸ hidx, rfl, ?_⟩
    rw [objsAt_set hidx rfl, objsAt_of_ring hring]
    show update x.objsAt idx (ring.objs ++ objs.take ring.free) =
      update x.objsAt idx (ring.objs ++ objs.take (min objs.length ring.free))
    rw [Nat.min_comm, ← List.take_eq_take_min]

theorem dequeueBurst (haid : aid < x.getNumDeqAcc) (nb : Nat) :
    ∃ idx x', dequeueBurst aid nb x = .ret (idx, (x.objsAt idx).take nb) x' ∧ Ready nQue x' ∧
      Dequeued nQue x x' aid nb idx := by
  obtain ⟨idx, accs, hget, hidx, -, hdealt⟩ := h.deq.getAt hque haid
  rw [← h.length] at hidx
  obtain ⟨ring, hring⟩ := h.alloc idx hidx
  have hobjs := objsAt_of_ring hring
  have hrun := dequeueBurst_run hget hring nb
  rw [RteRing.dequeueBurst, ← hobjs] at hrun
  refine ⟨idx, _, hrun, ?_, ?_⟩
  · exact ⟨by simpa using h.length, h.alloc.set rfl, h.enq, hdealt⟩
  · refine ⟨h.length ▸ hidx, hget, ?_⟩
    rw [objsAt_set hidx rfl, hobjs]

end Bursts

theorem configureEnqAcc {nAcc : Nat} (hpos : 0 < nAcc) (hdvd : nAcc ∣ nQue) :
    ∃ accs, configureEnqAcc nAcc x = .ret () {x with enqAccessors := accs} ∧ Dealt nQue accs := by
  obtain rfl := h.length
  obtain ⟨_, accs, hrun, hturned⟩ := configureSide_returns "enq" x.rings.length nAcc x.enqAccessors hpos hdvd
  refine ⟨accs, ?_, AllTurned.dealt hdvd hturned⟩
  show onEnq (configureSide "enq" x.rings.length nAcc) x = _
  rw [onEnq, Proc.zoom, hrun]

theorem configureDeqAcc {nAcc : Nat} (hpos : 0 < nAcc) (hdvd : nAcc ∣ nQue) :
    ∃ accs, configureDeqAcc nAcc x = .ret () {x with deqAccessors := accs} ∧ Dealt nQue accs := by
  obtain rfl := h.length
  obtain ⟨_, accs, hrun, hturned⟩ := configureSide_returns "deq" x.rings.length nAcc x.deqAccessors hpos hdvd
  refine ⟨accs, ?_, AllTurned.dealt hdvd hturned⟩
  show onDeq (configureSide "deq" x.rings.length nAcc) x = _
  rw [onDeq, Proc.zoom, hrun]

end Ready

/-- The rings after `k` rounds of `configure_que`. -/
structure Made (nQue k : Nat) (x : MaRing α) : Prop where
  length : x.rings.length = nQue
  enq : x.enqAccessors = []
  deq : x.deqAccessors = []
  new : ∀ i < k, ∃ ring, x.rings[i]? = some (some ring) ∧ ring.objs = []

namespace Made
variable {nQue k : Nat} {x : MaRing α}

theorem set (h : Made nQue k x) (hk : k < nQue) {name : String} {size : Nat} :
    Made nQue (k + 1) {x with rings := x.rings.set k (some {name := name, size := size})} := by
  refine ⟨by simpa using h.length, h.enq, h.deq, fun i hi => ?_⟩
  rcases Nat.lt_succ_iff_lt_or_eq.mp hi with hlt | rfl
  · obtain ⟨ring, hring, hobjs⟩ := h.new i hlt
    exact ⟨ring, (List.getElem?_set_ne (Ne.symm (Nat.ne_of_lt hlt))).trans hring, hobjs⟩
  · exact ⟨_, List.getElem?_set_self (h.length.symm ▸ hk), rfl⟩

theorem ready (h : Made nQue nQue x) : Ready nQue x := by
  refine ⟨h.length, fun i hi => ?_, h.enq ▸ dealt_nil nQue, h.deq ▸ dealt_nil nQue⟩
  obtain ⟨ring, hring, -⟩ := h.new i (h.length ▸ hi)
  exact ⟨ring, hring⟩

theorem objsAt (h : Made nQue nQue x) (i : Nat) : x.objsAt i = [] := by
  by_cases hi : i < nQue
  · obtain ⟨ring, hring, hobjs⟩ := h.new i hi
    rw [objsAt_of_ring hring, hobjs]
  · rw [MaRing.objsAt, List.getElem?_eq_none (h.length ▸ Nat.le_of_not_lt hi)]
    rfl

end Made

/-- New rings: no side was configured, and none holds anything. -/
theorem configureQue_meets (alloc : Nat → Bool) (nQue : Nat) {x : MaRing α} (henq : x.enqAccessors = [])
    (hdeq : x.deqAccessors = []) :
    Proc.Meets (configureQue alloc nQue) x (fun _ x' => Ready nQue x' ∧ ∀ i, x'.objsAt i = []) fun _ => True := by
  refine Proc.meets_bind_ret (Proc.modify_run _ _) ?_
  have hround : ∀ k < nQue, ∀ y : MaRing α, Made nQue k y → Proc.Meets (do
      let r ← Proc.get
      let ring := {name := r.namePrefix ++ "-ring" ++ toString k, size := ringSize}
      if alloc k then Proc.set {r with rings := r.rings.set k (some ring)}
      else Proc.throw "dpdk::ring_alloc") y (fun _ => Made nQue (k + 1)) fun _ => True := by
    intro k hk y hy
    refine Proc.meets_get_bind ?_
    split_ifs
    · exact Proc.meets_of_ret (Proc.set_run _ _) (hy.set hk)
    · exact Proc.meets_throw trivial
  have hnone : Made nQue 0 {x with rings := resize none nQue x.rings} :=
    ⟨length_resize _ _ _, henq, hdeq, nofun⟩
  refine (Proc.meets_forRange (Made nQue) hnone hround).weaken fun _ y hy => ?_
  exact ⟨hy.ready, hy.objsAt⟩

/-! ### Flows -/

/-- What was put into each ring is what came out of it and what is in it, in that order. -/
def Flows (x : MaRing α) (ins outs : Nat → List α) : Prop := ∀ i, ins i = outs i ++ x.objsAt i

section Flows
variable {nQue aid nb idx k : Nat} {x x' : MaRing α} {objs : List α} {ins outs : Nat → List α}

theorem Flows.enqueued (h : Flows x ins outs) (he : Enqueued nQue x x' objs idx k) :
    Flows x' (update ins idx (ins idx ++ objs.take k)) outs := by
  intro i
  rw [he.objsAt]
  by_cases hi : i = idx
  · subst hi
    rw [Function.update_self, Function.update_self, h i, List.append_assoc]
  · rw [Function.update_of_ne hi, Function.update_of_ne hi]
    exact h i

theorem Flows.dequeued (h : Flows x ins outs) (hd : Dequeued nQue x x' aid nb idx) :
    Flows x' ins (update outs idx (outs idx ++ (x.objsAt idx).take nb)) := by
  intro i
  rw [hd.objsAt]
  by_cases hi : i = idx
  · subst hi
    rw [Function.update_self, Function.update_self, h i, List.append_assoc, List.take_append_drop]
  · rw [Function.update_of_ne hi, Function.update_of_ne hi]
    exact h i

end Flows

/-! ### Sweeps -/

/-- Since accessor `a` was at turn `start a` it has had `done a` turns, each of which left its
ring empty; no ring holds more than `bound` objects. -/
structure Swept (q nAcc bound : Nat) (start done : Nat → Nat) (x : MaRing α) : Prop where
  turned : AllTurned q nAcc (fun a => start a + done a) x.deqAccessors
  empty : ∀ aid < nAcc, ∀ j < done aid, x.objsAt (item q aid (start aid + j)) = []
  bounded : ∀ i, (x.objsAt i).length ≤ bound

namespace Swept
variable {nQue q nAcc bound aid nb idx : Nat} {start done : Nat → Nat} {x x' : MaRing α}

theorem dequeued (h : Swept q nAcc bound start done x) (hq : 0 < q) (hd : Dequeued nQue x x' aid nb idx)
    (haid : aid < nAcc) (hnb : bound ≤ nb) : Swept q nAcc bound start (update done aid (done aid + 1)) x' := by
  obtain ⟨accs, hget, hturned⟩ := h.turned.getAt hq haid
  rw [hd.get] at hget
  cases hget
  have hgone : (x.objsAt (item q aid (start aid + done aid))).drop nb = [] :=
    List.drop_eq_nil_of_le ((h.bounded _).trans hnb)
  have hobjs := hd.objsAt
  rw [hgone] at hobjs
  -- a ring that was empty still is
  have hstill {i : Nat} (hi : x.objsAt i = []) : x'.objsAt i = [] := by
    rw [hobjs, Function.update_apply]
    split
    · rfl
    · exact hi
  refine ⟨?_, fun a ha j hj => ?_, fun i => ?_⟩
  · convert hturned using 1
    funext a
    by_cases ha : a = aid
    · subst ha
      rw [Function.update_self, Function.update_self, Nat.add_assoc]
    · rw [Function.update_of_ne ha, Function.update_of_ne ha]
  · by_cases hlast : a = aid ∧ j = done aid
    · obtain ⟨rfl, rfl⟩ := hlast
      rw [hobjs, Function.update_self]
    · apply hstill
      apply h.empty a ha
      by_cases haa : a = aid
      · subst haa
        rw [Function.update_self] at hj
        exact Nat.lt_of_le_of_ne (Nat.le_of_lt_succ hj) fun h => hlast ⟨rfl, h⟩
      · rwa [Function.update_of_ne haa] at hj
  · rw [hobjs, Function.update_apply]
    split
    · exact Nat.zero_le _
    · exact h.bounded i

theorem congr (h : Swept q nAcc bound start done x) (hdeq : x'.deqAccessors = x.deqAccessors)
    (hobjs : x'.objsAt = x.objsAt) : Swept q nAcc bound start done x' := by
  refine ⟨?_, ?_, ?_⟩
  · rw [hdeq]
    exact h.turned
  · rw [hobjs]
    exact h.empty
  · rw [hobjs]
    exact h.bounded

/-- After a round of every accessor all rings are empty. -/
theorem stored_nil (h : Swept q nAcc bound start done x) (hlen : x.rings.length = nAcc * q)
    (hround : ∀ aid < nAcc, q ≤ done aid) : x.stored = [] := by
  apply List.flatMap_eq_nil_iff.mpr
  intro i hi
  rw [List.mem_range, hlen, ← List.mem_range, ← RoundRobin.flatMap_slice] at hi
  obtain ⟨aid, haid, hslice⟩ := List.mem_flatMap.mp hi
  obtain ⟨k, hk, rfl⟩ := List.mem_map.mp ((RoundRobin.map_item_perm q aid (start aid)).mem_iff.mpr hslice)
  rw [List.mem_range'_1] at hk
  have haid := List.mem_range.mp haid
  obtain ⟨j, rfl⟩ := Nat.exists_eq_add_of_le hk.1
  exact h.empty aid haid j (by have := hround aid haid; omega)

end Swept

end MaRing

end Susanow
