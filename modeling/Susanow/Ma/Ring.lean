import Susanow.Ma.Accessor

/-! `ssn_ma_ring`: a set of rings shared by threads on both ends.

The enqueue and the dequeue side have their own accessors over the same rings.
Configuring a side resizes its accessors, checks divisibility, and deals the
ring indices out with a running counter. `rte_ring` itself is a bounded FIFO
whose burst operations take a prefix; one of its slots stays free. -/
namespace Susanow

structure RteRing (α : Type) where
  name : String
  size : Nat
  objs : List α := []
  deriving DecidableEq, Repr

namespace RteRing
variable {α : Type}

def free (r : RteRing α) : Nat := r.size - 1 - r.objs.length

def enqueueBurst (objs : List α) (r : RteRing α) : Nat × RteRing α :=
  (min objs.length r.free, {r with objs := r.objs ++ objs.take r.free})

def dequeueBurst (n : Nat) (r : RteRing α) : List α × RteRing α :=
  (r.objs.take n, {r with objs := r.objs.drop n})

end RteRing

structure MaRing (α : Type) where
  rings : List (Option (RteRing α)) := []
  enqAccessors : List Accessor := []
  deqAccessors : List Accessor := []
  namePrefix : String
  -- the counters are `size_t`, and are not taken to wrap
  prodPpsSum : Nat
  prodPpsCur : Nat
  consPpsSum : Nat
  consPpsCur : Nat
  deriving DecidableEq, Repr

namespace MaRing
variable {α : Type}

/-- The constructor sets two of the four counters; the other two hold what was there. -/
def init (np : String) (prodPpsCur consPpsSum : Nat) : MaRing α :=
  { namePrefix := np, prodPpsSum := 0, prodPpsCur := prodPpsCur, consPpsSum := consPpsSum,
    consPpsCur := 0 }

def getNumQue (r : MaRing α) : Nat := r.rings.length

def getNumEnqAcc (r : MaRing α) : Nat := r.enqAccessors.length

def getNumDeqAcc (r : MaRing α) : Nat := r.deqAccessors.length

def updateStats (r : MaRing α) : MaRing α :=
  {r with prodPpsCur := r.prodPpsSum, prodPpsSum := 0, consPpsCur := r.consPpsSum, consPpsSum := 0}

/-! ### Accessors -/

def indivisible (side : String) (nAcc nQue : Nat) : String :=
  "configure_acc: invalid " ++ side ++ " argument or state (n_" ++ side ++ "_acc=" ++ toString nAcc ++
    ", n_que=" ++ toString nQue ++ ")"

/-- The loop both sides have: accessor `a` gets the next `q` indices, and the
counter, which is returned, moves on. -/
def deal (q : Nat) : Nat → Proc (List Accessor) Nat
  | 0 => pure 0
  | a + 1 => do
    let c ← deal q a
    let accs ← Proc.get
    if a < accs.length then
      Proc.set (accs.set a (Accessor.set ((List.range q).map fun i => i + c)))
      pure (c + q)
    else Proc.throw "vector::at"

/-- `configure_deq_acc` and `configure_enq_acc`, for the accessors of one side. -/
def configureSide (side : String) (nQue nAcc : Nat) : Proc (List Accessor) Unit := do
  Proc.modify (resize {} nAcc)
  if nAcc = 0 then Proc.crash .divisionByZero
  else if nQue % nAcc ≠ 0 then Proc.throw (indivisible side nAcc nQue)
  else
    let _ ← deal (nQue / nAcc) nAcc
    pure ()

def onDeq {β : Type} (p : Proc (List Accessor) β) : Proc (MaRing α) β :=
  Proc.zoom MaRing.deqAccessors (fun r accs => {r with deqAccessors := accs}) p

def onEnq {β : Type} (p : Proc (List Accessor) β) : Proc (MaRing α) β :=
  Proc.zoom MaRing.enqAccessors (fun r accs => {r with enqAccessors := accs}) p

def configureDeqAcc (nDeqAcc : Nat) : Proc (MaRing α) Unit := do
  let r ← Proc.get
  onDeq (configureSide "deq" r.rings.length nDeqAcc)

def configureEnqAcc (nEnqAcc : Nat) : Proc (MaRing α) Unit := do
  let r ← Proc.get
  onEnq (configureSide "enq" r.rings.length nEnqAcc)

def configureAcc (nEnqAcc nDeqAcc : Nat) : Proc (MaRing α) Unit := do
  configureDeqAcc nDeqAcc
  configureEnqAcc nEnqAcc

/-- The dequeue side is all that is written. -/
theorem configureDeqAcc_writes {nDeqAcc : Nat} :
    Proc.Within (fun r r' => ∃ accs, r' = {r with deqAccessors := accs})
      (configureDeqAcc nDeqAcc : Proc (MaRing α) Unit) :=
  fun _ => Proc.meets_get_bind (Proc.meets_zoom ⟨fun _ accs _ => ⟨accs, rfl⟩, fun _ accs _ => ⟨accs, rfl⟩⟩)

theorem configureEnqAcc_writes {nEnqAcc : Nat} :
    Proc.Within (fun r r' => ∃ accs, r' = {r with enqAccessors := accs})
      (configureEnqAcc nEnqAcc : Proc (MaRing α) Unit) :=
  fun _ => Proc.meets_get_bind (Proc.meets_zoom ⟨fun _ accs _ => ⟨accs, rfl⟩, fun _ accs _ => ⟨accs, rfl⟩⟩)

/-! ### Rings -/

def ringSize : Nat := 1024

/-- `alloc i` says whether `dpdk::ring_alloc` of ring `i` succeeds or throws. -/
def configureQue (alloc : Nat → Bool) (nQue : Nat) : Proc (MaRing α) Unit := do
  Proc.modify fun r => {r with rings := resize none nQue r.rings}
  Proc.forRange (fun i => do
    let r ← Proc.get
    let ring := {name := r.namePrefix ++ "-ring" ++ toString i, size := ringSize}
    if alloc i then Proc.set {r with rings := r.rings.set i (some ring)}
    else Proc.throw "dpdk::ring_alloc") nQue

def resetQue (r : MaRing α) : MaRing α := {r with rings := []}

/-- The rings are all that is written. -/
theorem configureQue_writes (alloc : Nat → Bool) (nQue : Nat) :
    Proc.Keeps (fun r => (r.enqAccessors, r.deqAccessors)) (configureQue alloc nQue : Proc (MaRing α) Unit) := by
  refine Proc.within_bind (Proc.within_modify fun _ => rfl) fun _ => Proc.within_forRange fun i r => ?_
  refine Proc.meets_get_bind ?_
  split
  · exact Proc.meets_of_ret (Proc.set_run _ _) rfl
  · exact Proc.meets_throw rfl

/-! ### Bursts -/

/-- `rings[idx]`, to be used. -/
def ringAt (idx : Nat) : Proc (MaRing α) (RteRing α) := do
  let r ← Proc.get
  match r.rings[idx]? with
  | none => Proc.crash .outOfBounds
  | some none => Proc.crash .nullPointer
  | some (some ring) => pure ring

/-- The index of the ring and the number of objects it accepted. -/
def enqueueBurst (aid : Nat) (objs : List α) : Proc (MaRing α) (Nat × Nat) := do
  let idx ← onEnq (Accessor.getAt aid)
  let ring ← ringAt idx
  let (n, ring) := ring.enqueueBurst objs
  Proc.modify fun r =>
    {r with rings := r.rings.set idx (some ring), prodPpsSum := r.prodPpsSum + n}
  pure (idx, n)

/-- The index of the ring and the objects it gave. -/
def dequeueBurst (aid n : Nat) : Proc (MaRing α) (Nat × List α) := do
  let idx ← onDeq (Accessor.getAt aid)
  let ring ← ringAt idx
  let (objs, ring) := ring.dequeueBurst n
  Proc.modify fun r =>
    {r with rings := r.rings.set idx (some ring), consPpsSum := r.consPpsSum + objs.length}
  pure (idx, objs)

def getNextEnqidFromAid (r : MaRing α) (aid : Nat) : Option Nat :=
  Accessor.getCurrentAt r.enqAccessors aid

def getNextDeqidFromAid (r : MaRing α) (aid : Nat) : Option Nat :=
  Accessor.getCurrentAt r.deqAccessors aid

/-- Enqueue bursts one after the other: the rings they go to. -/
def enqueueBursts : List (Nat × List α) → Proc (MaRing α) (List Nat)
  | [] => pure []
  | (aid, objs) :: rest => do
    let (idx, _) ← enqueueBurst aid objs
    let idxs ← enqueueBursts rest
    pure (idx :: idxs)

/-- Dequeue bursts one after the other: the rings they go to. -/
def dequeueBursts : List (Nat × Nat) → Proc (MaRing α) (List Nat)
  | [] => pure []
  | (aid, n) :: rest => do
    let (idx, _) ← dequeueBurst aid n
    let idxs ← dequeueBursts rest
    pure (idx :: idxs)

/-! ### Configuring a side -/

open RoundRobin (slice)
open Accessor (AllTurned)

theorem deal_returns {q n : Nat} {accs : List Accessor} (hn : n ≤ accs.length) :
    Proc.Returns (deal q n) accs fun c accs' => c = n * q ∧ accs'.length = accs.length ∧
      ∀ aid < n, accs'[aid]? = some (Accessor.set (slice q aid)) := by
  induction n with
  | zero => exact Proc.returns_pure ⟨by simp, rfl, fun aid h => absurd h (Nat.not_lt_zero aid)⟩
  | succ n ih =>
    obtain ⟨_, accs', hrun, rfl, hlen, hset⟩ := ih (by omega)
    have hlt : n < accs'.length := by omega
    refine ⟨n * q + q, accs'.set n (Accessor.set (slice q n)), ?_, (Nat.succ_mul n q).symm,
      by simpa using hlen, fun aid haid => ?_⟩
    · have hslice : slice q n = (List.range q).map fun i => i + n * q := by
        simp [slice, List.range'_eq_map_range, Nat.add_comm]
      rw [deal, Proc.bind_ret hrun, hslice]
      simp [hlt]
    · rcases Nat.lt_succ_iff_lt_or_eq.mp haid with h | rfl
      · rw [List.getElem?_set_ne (by omega)]
        exact hset aid h
      · simp [hlt]

theorem configureSide_returns (side : String) (nQue nAcc : Nat) (accs : List Accessor)
    (hpos : 0 < nAcc) (hdvd : nAcc ∣ nQue) :
    Proc.Returns (configureSide side nQue nAcc) accs fun _ accs' =>
      AllTurned (nQue / nAcc) nAcc (fun _ => 0) accs' := by
  have hn : nAcc ≤ (resize ({} : Accessor) nAcc accs).length := by simp
  obtain ⟨_, accs', hrun, -, hlen, hset⟩ := deal_returns (q := nQue / nAcc) hn
  refine ⟨(), accs', ?_, Accessor.allTurned_set (by simpa using hlen) hset⟩
  have h0 : nAcc ≠ 0 := by omega
  have hmod := Nat.mod_eq_zero_of_dvd hdvd
  simp only [configureSide, Proc.modify_bind, if_neg h0, hmod, ne_eq, not_true,
    if_false, Proc.bind_ret hrun, Proc.pure_run]

theorem configureSide_throws (side : String) (nQue nAcc : Nat) (accs : List Accessor)
    (hpos : 0 < nAcc) (hdvd : ¬ nAcc ∣ nQue) :
    configureSide side nQue nAcc accs =
      .throws (indivisible side nAcc nQue) (resize {} nAcc accs) := by
  have h0 : nAcc ≠ 0 := by omega
  have hmod : nQue % nAcc ≠ 0 := fun h => hdvd (Nat.dvd_of_mod_eq_zero h)
  simp [configureSide, h0, hmod]

theorem configureSide_crash (side : String) (nQue : Nat) (accs : List Accessor) :
    configureSide side nQue 0 accs = .crash .divisionByZero := by
  simp [configureSide]

/-! ### Bursts on a configured side -/

/-- Every ring the index table can name is there. -/
def Allocated (r : MaRing α) : Prop := ∀ i < r.rings.length, ∃ ring, r.rings[i]? = some (some ring)

theorem Allocated.set {r : MaRing α} (h : Allocated r) {r' : MaRing α} {idx : Nat}
    {ring : RteRing α} (hr' : r'.rings = r.rings.set idx (some ring)) : Allocated r' := by
  intro i hi
  rw [hr', List.length_set] at hi
  rw [hr', List.getElem?_set]
  split
  · next heq =>
    subst heq
    exact ⟨ring, by simp [hi]⟩
  · exact h i hi

theorem enqueueBurst_run {r : MaRing α} {aid idx : Nat} {accs : List Accessor} {ring : RteRing α}
    (hget : Accessor.getAt aid r.enqAccessors = .ret idx accs)
    (hring : r.rings[idx]? = some (some ring)) (objs : List α) :
    enqueueBurst aid objs r = .ret (idx, (ring.enqueueBurst objs).1)
      {r with enqAccessors := accs, rings := r.rings.set idx (some (ring.enqueueBurst objs).2),
              prodPpsSum := r.prodPpsSum + (ring.enqueueBurst objs).1} := by
  simp only [enqueueBurst, onEnq, ringAt, Proc.bind_run, Proc.zoom, hget, Proc.get_run, hring, Proc.pure_run,
    Proc.modify_run]

/-- One enqueue burst: the accessor picks the ring, and the rings stay what they were in number. -/
theorem enqueueBurst_returns {n : Nat} {seen : Nat → Nat} {r : MaRing α}
    (h : AllTurned (r.rings.length / n) n seen r.enqAccessors) (halloc : Allocated r)
    (hdvd : n ∣ r.rings.length) (hque : 0 < r.rings.length) {aid : Nat} (haid : aid < n)
    (objs : List α) :
    Proc.Returns (enqueueBurst aid objs) r fun p r' =>
      p.1 = RoundRobin.item (r.rings.length / n) aid (seen aid) ∧ Allocated r' ∧
        r'.rings.length = r.rings.length ∧ AllTurned (r.rings.length / n) n
          (Function.update seen aid (seen aid + 1)) r'.enqAccessors := by
  have hq : 0 < r.rings.length / n := Nat.div_pos (Nat.le_of_dvd hque hdvd) (by omega)
  obtain ⟨accs, hget, hturned⟩ := h.getAt hq haid
  have hidx := RoundRobin.mem_slice_lt haid (RoundRobin.item_mem (a := aid) (k := seen aid) hq)
  rw [Nat.mul_div_cancel' hdvd] at hidx
  obtain ⟨ring, hring⟩ := halloc _ hidx
  exact ⟨_, _, enqueueBurst_run hget hring _, rfl, halloc.set rfl, List.length_set, hturned⟩

theorem dequeueBurst_run {r : MaRing α} {aid idx : Nat} {accs : List Accessor} {ring : RteRing α}
    (hget : Accessor.getAt aid r.deqAccessors = .ret idx accs)
    (hring : r.rings[idx]? = some (some ring)) (nb : Nat) :
    dequeueBurst aid nb r = .ret (idx, (ring.dequeueBurst nb).1)
      {r with deqAccessors := accs, rings := r.rings.set idx (some (ring.dequeueBurst nb).2),
              consPpsSum := r.consPpsSum + (ring.dequeueBurst nb).1.length} := by
  simp only [dequeueBurst, onDeq, ringAt, Proc.bind_run, Proc.zoom, hget, Proc.get_run, hring, Proc.pure_run,
    Proc.modify_run]

theorem dequeueBurst_returns {n : Nat} {seen : Nat → Nat} {r : MaRing α}
    (h : AllTurned (r.rings.length / n) n seen r.deqAccessors) (halloc : Allocated r)
    (hdvd : n ∣ r.rings.length) (hque : 0 < r.rings.length) {aid : Nat} (haid : aid < n) (nb : Nat) :
    Proc.Returns (dequeueBurst aid nb) r fun p r' =>
      p.1 = RoundRobin.item (r.rings.length / n) aid (seen aid) ∧ Allocated r' ∧
        r'.rings.length = r.rings.length ∧ AllTurned (r.rings.length / n) n
          (Function.update seen aid (seen aid + 1)) r'.deqAccessors := by
  have hq : 0 < r.rings.length / n := Nat.div_pos (Nat.le_of_dvd hque hdvd) (by omega)
  obtain ⟨accs, hget, hturned⟩ := h.getAt hq haid
  have hidx := RoundRobin.mem_slice_lt haid (RoundRobin.item_mem (a := aid) (k := seen aid) hq)
  rw [Nat.mul_div_cancel' hdvd] at hidx
  obtain ⟨ring, hring⟩ := halloc _ hidx
  exact ⟨_, _, dequeueBurst_run hget hring _, rfl, halloc.set rfl, List.length_set, hturned⟩

theorem enqueueBursts_returns {n : Nat} {seen : Nat → Nat} {r : MaRing α}
    (h : AllTurned (r.rings.length / n) n seen r.enqAccessors) (halloc : Allocated r)
    (hdvd : n ∣ r.rings.length) (hque : 0 < r.rings.length) (calls : List (Nat × List α))
    (hcalls : ∀ c ∈ calls, c.1 < n) :
    Proc.Returns (enqueueBursts calls) r fun idxs _ =>
      idxs = RoundRobin.turns (r.rings.length / n) seen (calls.map Prod.fst) := by
  induction calls generalizing seen r with
  | nil => exact Proc.returns_pure rfl
  | cons c rest ih =>
    obtain ⟨⟨idx, nb⟩, r₁, hrun, rfl, halloc₁, hlen, hturned⟩ := enqueueBurst_returns h halloc hdvd hque
      (hcalls c List.mem_cons_self) c.2
    rw [← hlen] at hturned hdvd hque
    obtain ⟨idxs, r₂, hrest, rfl⟩ := ih hturned halloc₁ hdvd hque
      fun c hc => hcalls c (List.mem_cons_of_mem _ hc)
    refine ⟨_, r₂, ?_, rfl⟩
    rw [enqueueBursts, Proc.bind_ret hrun]
    show (enqueueBursts rest >>= fun idxs => pure (_ :: idxs)) r₁ = _
    rw [Proc.bind_ret hrest, hlen]
    rfl

theorem dequeueBursts_returns {n : Nat} {seen : Nat → Nat} {r : MaRing α}
    (h : AllTurned (r.rings.length / n) n seen r.deqAccessors) (halloc : Allocated r)
    (hdvd : n ∣ r.rings.length) (hque : 0 < r.rings.length) (calls : List (Nat × Nat))
    (hcalls : ∀ c ∈ calls, c.1 < n) :
    Proc.Returns (dequeueBursts calls) r fun idxs _ =>
      idxs = RoundRobin.turns (r.rings.length / n) seen (calls.map Prod.fst) := by
  induction calls generalizing seen r with
  | nil => exact Proc.returns_pure rfl
  | cons c rest ih =>
    obtain ⟨⟨idx, nb⟩, r₁, hrun, rfl, halloc₁, hlen, hturned⟩ := dequeueBurst_returns h halloc hdvd hque
      (hcalls c List.mem_cons_self) c.2
    rw [← hlen] at hturned hdvd hque
    obtain ⟨idxs, r₂, hrest, rfl⟩ := ih hturned halloc₁ hdvd hque
      fun c hc => hcalls c (List.mem_cons_of_mem _ hc)
    refine ⟨_, r₂, ?_, rfl⟩
    rw [dequeueBursts, Proc.bind_ret hrun]
    show (dequeueBursts rest >>= fun idxs => pure (_ :: idxs)) r₁ = _
    rw [Proc.bind_ret hrest, hlen]
    rfl

/-- With no ring to walk, the first burst divides by zero. -/
theorem enqueueBursts_crash {n : Nat} {seen : Nat → Nat} {r : MaRing α}
    (h : AllTurned 0 n seen r.enqAccessors) {c : Nat × List α} (hc : c.1 < n)
    (rest : List (Nat × List α)) : enqueueBursts (c :: rest) r = .crash .divisionByZero := by
  simp [enqueueBursts, enqueueBurst, onEnq, Proc.bind_run, Proc.zoom, h.getAt_crash hc]

theorem dequeueBursts_crash {n : Nat} {seen : Nat → Nat} {r : MaRing α}
    (h : AllTurned 0 n seen r.deqAccessors) {c : Nat × Nat} (hc : c.1 < n)
    (rest : List (Nat × Nat)) : dequeueBursts (c :: rest) r = .crash .divisionByZero := by
  simp [dequeueBursts, dequeueBurst, onDeq, Proc.bind_run, Proc.zoom, h.getAt_crash hc]

end MaRing

end Susanow
