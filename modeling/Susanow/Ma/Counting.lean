import Susanow.Ma.Reshaping

/-! What the four counters of a ring add up to.

Bursts add to the two sums; once a second `update_stats` publishes each sum as a rate and
starts it again. The constructor sets one counter of each pair, `prod_pps_sum` and
`cons_pps_cur`: the other two start with what was in the memory. -/
namespace Susanow

/-- A ring, and what an observer has added up: the objects that bursts put in and took out, and
the rates that updates published. -/
structure Meter (α : Type) where
  ring : MaRing α
  put : Nat := 0
  got : Nat := 0
  prodPublished : Nat := 0
  consPublished : Nat := 0
  updates : Nat := 0

inductive Reading (α : Type)
  | enqueue (aid : Nat) (objs : List α)
  | dequeue (aid nb : Nat)
  | update

/-- Nothing goes through the rings yet. -/
def RingOp.isSetup {α : Type} : RingOp α → Bool
  | .enqueueBurst _ _ => false
  | .dequeueBurst _ _ => false
  | _ => true

namespace RteRing
variable {α : Type}

theorem length_enqueueBurst (objs : List α) (r : RteRing α) :
    (r.enqueueBurst objs).2.objs.length = r.objs.length + (r.enqueueBurst objs).1 := by
  show (r.objs ++ objs.take r.free).length = r.objs.length + min objs.length r.free
  rw [List.length_append, List.length_take, Nat.min_comm]

theorem length_dequeueBurst (n : Nat) (r : RteRing α) :
    (r.dequeueBurst n).2.objs.length + (r.dequeueBurst n).1.length = r.objs.length := by
  show (r.objs.drop n).length + (r.objs.take n).length = r.objs.length
  rw [List.length_drop, List.length_take]
  omega

end RteRing

namespace MaRing
variable {α : Type}

/-- The objects in the rings. -/
def held : List (Option (RteRing α)) → Nat
  | [] => 0
  | r :: rings => (r.elim 0 fun ring => ring.objs.length) + held rings

theorem held_set {rings : List (Option (RteRing α))} {idx : Nat} {ring : RteRing α}
    (h : rings[idx]? = some (some ring)) (ring' : RteRing α) :
    held (rings.set idx (some ring')) + ring.objs.length = held rings + ring'.objs.length := by
  induction rings generalizing idx with
  | nil => cases h
  | cons r rings ih =>
    cases idx with
    | zero =>
      cases h
      show ring'.objs.length + held rings + _ = ring.objs.length + held rings + _
      omega
    | succ idx =>
      have hrest : held (rings.set idx (some ring')) + ring.objs.length = held rings + ring'.objs.length := ih h
      rw [List.set_cons_succ, held, held]
      omega

/-- No ring holds an object. -/
def Idle (rings : List (Option (RteRing α))) : Prop := ∀ r ∈ rings, ∀ ring ∈ r, ring.objs = []

theorem held_eq_zero {rings : List (Option (RteRing α))} (h : Idle rings) : held rings = 0 := by
  induction rings with
  | nil => rfl
  | cons r rings ih =>
    rw [held, ih fun r' hr' => h r' (List.mem_cons_of_mem r hr')]
    cases r with
    | none => rfl
    | some ring =>
      show ring.objs.length + 0 = 0
      rw [h (some ring) List.mem_cons_self ring rfl]
      rfl

/-! ### Bursts -/

theorem ringAt_ret {idx : Nat} {ring : RteRing α} {x x' : MaRing α} (h : ringAt idx x = .ret ring x') :
    x' = x ∧ x.rings[idx]? = some (some ring) := by
  rw [ringAt, Proc.get_bind] at h
  cases hr : x.rings[idx]? with
  | none =>
    simp only [hr] at h
    cases h
  | some r =>
    cases r with
    | none =>
      simp only [hr] at h
      cases h
    | some r =>
      simp only [hr] at h
      cases h
      exact ⟨rfl, rfl⟩

/-- A burst that returns put a prefix of the objects in a ring, and counted it. -/
theorem enqueueBurst_ret {aid idx n : Nat} {objs : List α} {x x' : MaRing α}
    (h : enqueueBurst aid objs x = .ret (idx, n) x') :
    held x'.rings = held x.rings + n ∧ x'.prodPpsSum = x.prodPpsSum + n ∧ x'.prodPpsCur = x.prodPpsCur ∧
      x'.consPpsSum = x.consPpsSum ∧ x'.consPpsCur = x.consPpsCur := by
  obtain ⟨i, y, hget, hrest⟩ := Proc.bind_eq_ret h
  obtain ⟨accs, rfl⟩ : ∃ accs, y = {x with enqAccessors := accs} := by
    have hwrites : Proc.Meets (onEnq (Accessor.getAt aid)) x
        (fun _ y => ∃ accs, y = {x with enqAccessors := accs}) fun _ => True :=
      Proc.meets_zoom ⟨fun _ accs _ => ⟨accs, rfl⟩, fun _ _ _ => trivial⟩
    exact hwrites.1 i y hget
  obtain ⟨ring, z, hring, hlast⟩ := Proc.bind_eq_ret hrest
  obtain ⟨rfl, hat⟩ := ringAt_ret hring
  cases hlast
  have hheld := held_set hat (ring.enqueueBurst objs).2
  have hlen := ring.length_enqueueBurst objs
  refine ⟨?_, rfl, rfl, rfl, rfl⟩
  show held (x.rings.set idx (some (ring.enqueueBurst objs).2)) = held x.rings + (ring.enqueueBurst objs).1
  rw [hlen] at hheld
  have hrings : ({x with enqAccessors := accs} : MaRing α).rings = x.rings := rfl
  rw [hrings] at hheld
  omega

theorem dequeueBurst_ret {aid nb idx : Nat} {objs : List α} {x x' : MaRing α}
    (h : dequeueBurst aid nb x = .ret (idx, objs) x') :
    held x'.rings + objs.length = held x.rings ∧ x'.consPpsSum = x.consPpsSum + objs.length ∧
      x'.consPpsCur = x.consPpsCur ∧ x'.prodPpsSum = x.prodPpsSum ∧ x'.prodPpsCur = x.prodPpsCur := by
  obtain ⟨i, y, hget, hrest⟩ := Proc.bind_eq_ret h
  obtain ⟨accs, rfl⟩ : ∃ accs, y = {x with deqAccessors := accs} := by
    have hwrites : Proc.Meets (onDeq (Accessor.getAt aid)) x
        (fun _ y => ∃ accs, y = {x with deqAccessors := accs}) fun _ => True :=
      Proc.meets_zoom ⟨fun _ accs _ => ⟨accs, rfl⟩, fun _ _ _ => trivial⟩
    exact hwrites.1 i y hget
  obtain ⟨ring, z, hring, hlast⟩ := Proc.bind_eq_ret hrest
  obtain ⟨rfl, hat⟩ := ringAt_ret hring
  cases hlast
  have hheld := held_set hat (ring.dequeueBurst nb).2
  have hlen := ring.length_dequeueBurst nb
  refine ⟨?_, rfl, rfl, rfl, rfl⟩
  show held (x.rings.set idx (some (ring.dequeueBurst nb).2)) + (ring.dequeueBurst nb).1.length = _
  have hrings : ({x with deqAccessors := accs} : MaRing α).rings = x.rings := rfl
  rw [hrings] at hheld
  omega

/-! ### Setting up -/

/-- Nothing in the rings, and the counters are what the constructor left. -/
structure Fresh (prodPpsCur consPpsSum : Nat) (x : MaRing α) : Prop where
  idle : Idle x.rings
  prodPpsSum_eq : x.prodPpsSum = 0
  prodPpsCur_eq : x.prodPpsCur = prodPpsCur
  consPpsSum_eq : x.consPpsSum = consPpsSum
  consPpsCur_eq : x.consPpsCur = 0

section Setup
variable {prodPpsCur consPpsSum : Nat}

theorem fresh_init (np : String) : Fresh prodPpsCur consPpsSum (init np prodPpsCur consPpsSum : MaRing α) :=
  ⟨fun _ h => absurd h List.not_mem_nil, rfl, rfl, rfl, rfl⟩

theorem Fresh.configureQue {x : MaRing α} (h : x.Fresh prodPpsCur consPpsSum) (alloc : Nat → Bool) (nQue : Nat) :
    Proc.Meets (configureQue alloc nQue) x (fun _ => Fresh prodPpsCur consPpsSum)
      (Fresh prodPpsCur consPpsSum) := by
  refine Proc.meets_bind_ret (Proc.modify_run _ _) ?_
  refine Proc.meets_forRange (fun _ => Fresh prodPpsCur consPpsSum) ?_ fun i _ y hy => ?_
  · refine ⟨fun r hr ring hring => ?_, h.prodPpsSum_eq, h.prodPpsCur_eq, h.consPpsSum_eq, h.consPpsCur_eq⟩
    rcases List.mem_append.mp hr with hold | hnew
    · exact h.idle r (List.mem_of_mem_take hold) ring hring
    · rw [List.eq_of_mem_replicate hnew] at hring
      cases hring
  · refine Proc.meets_get_bind ?_
    split_ifs
    · refine Proc.meets_of_ret (Proc.set_run _ _) ⟨fun r hr ring hring => ?_, hy.prodPpsSum_eq,
        hy.prodPpsCur_eq, hy.consPpsSum_eq, hy.consPpsCur_eq⟩
      rcases List.mem_or_eq_of_mem_set hr with hold | rfl
      · exact hy.idle r hold ring hring
      · cases hring
        rfl
    · exact Proc.meets_throw hy

/-- Accessors are no part of it. -/
theorem fresh_of_eqs {x x' : MaRing α} (h : x.Fresh prodPpsCur consPpsSum)
    (hx' : ∃ enq deq, x' = {x with enqAccessors := enq, deqAccessors := deq}) : x'.Fresh prodPpsCur consPpsSum := by
  obtain ⟨enq, deq, rfl⟩ := hx'
  exact ⟨h.idle, h.prodPpsSum_eq, h.prodPpsCur_eq, h.consPpsSum_eq, h.consPpsCur_eq⟩

theorem preserves_configureDeqAcc (nDeqAcc : Nat) :
    Proc.Preserves (Fresh prodPpsCur consPpsSum) (configureDeqAcc nDeqAcc : Proc (MaRing α) Unit) := by
  refine fun x => ⟨fun _ x' hrun h => fresh_of_eqs h ?_, fun _ x' hrun h => fresh_of_eqs h ?_⟩
  · obtain ⟨accs, rfl⟩ := (configureDeqAcc_writes x).1 _ _ hrun
    exact ⟨x.enqAccessors, accs, rfl⟩
  · obtain ⟨accs, rfl⟩ := (configureDeqAcc_writes x).2 _ _ hrun
    exact ⟨x.enqAccessors, accs, rfl⟩

theorem preserves_configureEnqAcc (nEnqAcc : Nat) :
    Proc.Preserves (Fresh prodPpsCur consPpsSum) (configureEnqAcc nEnqAcc : Proc (MaRing α) Unit) := by
  refine fun x => ⟨fun _ x' hrun h => fresh_of_eqs h ?_, fun _ x' hrun h => fresh_of_eqs h ?_⟩
  · obtain ⟨accs, rfl⟩ := (configureEnqAcc_writes x).1 _ _ hrun
    exact ⟨accs, x.deqAccessors, rfl⟩
  · obtain ⟨accs, rfl⟩ := (configureEnqAcc_writes x).2 _ _ hrun
    exact ⟨accs, x.deqAccessors, rfl⟩

theorem Fresh.of_preserves {x x' : MaRing α} (h : x.Fresh prodPpsCur consPpsSum) {p : Proc (MaRing α) Unit}
    (hp : Proc.Preserves (Fresh prodPpsCur consPpsSum) p) (hs : (p x).state? = some x') :
    x'.Fresh prodPpsCur consPpsSum :=
  Proc.Meets.state? (⟨fun a y hrun => (hp x).1 a y hrun h, fun w y hrun => (hp x).2 w y hrun h⟩) hs

theorem Fresh.step {x x' : MaRing α} (h : x.Fresh prodPpsCur consPpsSum) {op : RingOp α}
    (hop : op.isSetup = true) (hs : x.step op = some x') : x'.Fresh prodPpsCur consPpsSum := by
  cases op with
  | configureQue alloc nQue => exact (h.configureQue alloc nQue).state? hs
  | resetQue =>
    cases hs
    exact ⟨fun _ hr => absurd hr List.not_mem_nil, h.prodPpsSum_eq, h.prodPpsCur_eq, h.consPpsSum_eq,
      h.consPpsCur_eq⟩
  | configureAcc nEnqAcc nDeqAcc =>
    exact h.of_preserves (Proc.within_bind (preserves_configureDeqAcc nDeqAcc) fun _ =>
      preserves_configureEnqAcc nEnqAcc) hs
  | configureDeqAcc nDeqAcc => exact h.of_preserves (preserves_configureDeqAcc nDeqAcc) hs
  | configureEnqAcc nEnqAcc => exact h.of_preserves (preserves_configureEnqAcc nEnqAcc) hs
  | enqueueBurst aid objs => cases hop
  | dequeueBurst aid nb => cases hop

end Setup

end MaRing

namespace Meter
variable {α : Type}

def step (m : Meter α) : Reading α → Option (Meter α)
  | .enqueue aid objs =>
    (MaRing.enqueueBurst aid objs m.ring).ret?.map fun r => {m with ring := r.2, put := m.put + r.1.2}
  | .dequeue aid nb =>
    (MaRing.dequeueBurst aid nb m.ring).ret?.map fun r => {m with ring := r.2, got := m.got + r.1.2.length}
  | .update =>
    let ring := m.ring.updateStats
    some {m with ring := ring, prodPublished := m.prodPublished + ring.prodPpsCur,
                 consPublished := m.consPublished + ring.consPpsCur, updates := m.updates + 1}

/-- What was published and what is pending add up to what went through. -/
structure Balanced (m : Meter α) : Prop where
  rates : m.updates = 0 → m.ring.prodPpsCur = 0 ∧ m.ring.consPpsCur = 0
  prod : m.prodPublished + m.ring.prodPpsSum = m.put
  cons : m.consPublished + m.ring.consPpsSum = m.got
  held : m.put = m.got + MaRing.held m.ring.rings

/-- On a ring constructed over the two given values and set up in any way, whatever bursts and
updates come after. -/
def AlwaysBalanced (α : Type) (np : String) (prodPpsCur consPpsSum : Nat) : Prop :=
  ∀ (setup : List (RingOp α)) (x : MaRing α), (∀ op ∈ setup, op.isSetup = true) →
    exec MaRing.step (MaRing.init np prodPpsCur consPpsSum) setup = some x →
    ∀ (readings : List (Reading α)) (m : Meter α), Runs step Always {ring := x} readings m → m.Balanced

theorem Balanced.step {m m' : Meter α} (h : m.Balanced) {r : Reading α} (hs : m.step r = some m') :
    m'.Balanced := by
  cases r with
  | enqueue aid objs =>
    obtain ⟨⟨⟨idx, n⟩, x⟩, hret, rfl⟩ := Option.map_eq_some_iff.mp hs
    obtain ⟨hheld, hsum, hcur, hcsum, hccur⟩ := MaRing.enqueueBurst_ret (Outcome.eq_ret_of_ret? hret)
    refine ⟨fun h0 => ?_, ?_, ?_, ?_⟩
    · rw [hcur, hccur]
      exact h.rates h0
    · show m.prodPublished + x.prodPpsSum = m.put + n
      rw [hsum, ← h.prod, Nat.add_assoc]
    · show m.consPublished + x.consPpsSum = m.got
      rw [hcsum, h.cons]
    · show m.put + n = m.got + MaRing.held x.rings
      rw [hheld, h.held, Nat.add_assoc]
  | dequeue aid nb =>
    obtain ⟨⟨⟨idx, objs⟩, x⟩, hret, rfl⟩ := Option.map_eq_some_iff.mp hs
    obtain ⟨hheld, hsum, hcur, hpsum, hpcur⟩ := MaRing.dequeueBurst_ret (Outcome.eq_ret_of_ret? hret)
    refine ⟨fun h0 => ?_, ?_, ?_, ?_⟩
    · rw [hcur, hpcur]
      exact h.rates h0
    · show m.prodPublished + x.prodPpsSum = m.put
      rw [hpsum, h.prod]
    · show m.consPublished + x.consPpsSum = m.got + objs.length
      rw [hsum, ← h.cons, Nat.add_assoc]
    · show m.put = m.got + objs.length + MaRing.held x.rings
      rw [h.held, ← hheld]
      omega
  | update =>
    cases hs
    exact ⟨fun h0 => absurd h0 (Nat.succ_ne_zero _), h.prod, h.cons, h.held⟩

theorem balanced_of_fresh {x : MaRing α} (h : x.Fresh 0 0) : Balanced {ring := x} := by
  refine ⟨fun _ => ⟨h.prodPpsCur_eq, h.consPpsCur_eq⟩, ?_, ?_, ?_⟩
  · show 0 + x.prodPpsSum = 0
    rw [h.prodPpsSum_eq]
  · show 0 + x.consPpsSum = 0
    rw [h.consPpsSum_eq]
  · show 0 = 0 + MaRing.held x.rings
    rw [MaRing.held_eq_zero h.idle]

/-- **No packet is counted twice or dropped** between bursts and updates, if the memory the ring
is constructed over has zeros where the constructor writes nothing; and only then. -/
theorem alwaysBalanced_iff {np : String} {prodPpsCur consPpsSum : Nat} :
    AlwaysBalanced α np prodPpsCur consPpsSum ↔ prodPpsCur = 0 ∧ consPpsSum = 0 := by
  constructor
  · intro h
    have hstart := h [] _ (fun _ hop => absurd hop List.not_mem_nil) rfl [] _ (.done _)
    have hcons : 0 + consPpsSum = 0 := hstart.cons
    exact ⟨(hstart.rates rfl).1, by omega⟩
  · rintro ⟨rfl, rfl⟩ setup x hsetup hx readings m hm
    have hruns : Runs MaRing.step (fun _ op => op.isSetup = true) (MaRing.init np 0 0) setup x :=
      Runs.of_exec_rule (fun op hop _ => hsetup op hop) hx
    have hfresh : x.Fresh 0 0 :=
      hruns.invariant (MaRing.fresh_init np) fun _ _ _ h hop hs => h.step hop hs
    exact hm.invariant (balanced_of_fresh hfresh) fun _ _ _ h _ hs => h.step hs

/-- Five packets are published as taken out of a ring that nothing was put into. -/
theorem not_alwaysBalanced :
    (∃ m : Meter Nat, Runs step Always {ring := MaRing.init "ring" 0 5} [.update] m ∧
      m.consPublished = 5 ∧ m.put = 0 ∧ m.got = 0) ∧ ¬AlwaysBalanced Nat "ring" 0 5 := by
  refine ⟨⟨_, Runs.of_exec rfl, rfl, rfl, rfl⟩, fun h => ?_⟩
  have hstart := h [] _ (fun _ hop => absurd hop List.not_mem_nil) rfl [] _ (.done _)
  cases hstart.cons

end Meter

end Susanow
