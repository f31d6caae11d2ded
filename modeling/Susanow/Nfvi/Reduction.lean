import Susanow.Ma.Counting
import Susanow.Nfvi.Panel
import Susanow.Nfvi.Ticks
import Mathlib.Algebra.Order.Field.Basic
import Mathlib.Algebra.Order.Field.Rat

/-! What a virt port reports to the engine.

The performance reduction of a port is what its threads received in the last second over what
came into its rings in that second. The two are counted at the two ends of a buffer: what
waited in the rings when the second began comes out in it and went in before. -/
namespace Susanow

namespace MaRing
variable {α : Type}

def getProdPerf (x : MaRing α) : Nat := x.prodPpsCur

def getConsPerf (x : MaRing α) : Nat := x.consPpsCur

end MaRing

namespace Nfvi

/-! ### Getters of a virt port -/

def getInnerRxPerf (n : Nfvi) (p : Nat) : Nat := ((n.rxOf p).map fun r => (ring n r).getConsPerf).getD 0

def getOuterRxPerf (n : Nfvi) (p : Nat) : Nat := ((n.rxOf p).map fun r => (ring n r).getProdPerf).getD 0

/-- `ssn_vnf_port::get_perf_reduction`, as the exact ratio. -/
def getPerfReduction (n : Nfvi) (p : Nat) : ℚ :=
  let irx := n.getInnerRxPerf p
  let orx := n.getOuterRxPerf p
  if orx = 0 then 1 else (irx : ℚ) / orx

/-- What waits in the rings `p` receives from. -/
def waiting (n : Nfvi) (p : Nat) : Nat := ((n.rxOf p).map fun r => MaRing.held (ring n r).rings).getD 0

theorem getPerfReduction_mem {n : Nfvi} {p : Nat} :
    (0 ≤ n.getPerfReduction p ∧ n.getPerfReduction p ≤ 1) ↔
      (n.getOuterRxPerf p = 0 ∨ n.getInnerRxPerf p ≤ n.getOuterRxPerf p) := by
  unfold getPerfReduction
  by_cases horx : n.getOuterRxPerf p = 0
  · simp [horx]
  · have hpos : (0 : ℚ) < n.getOuterRxPerf p := Nat.cast_pos.mpr (Nat.pos_of_ne_zero horx)
    simp only [horx, if_false, false_or]
    rw [div_le_one hpos, Nat.cast_le]
    exact and_iff_right (div_nonneg (Nat.cast_nonneg _) hpos.le)

end Nfvi

namespace Reduction
open Nfvi (ring virtTxBurst virtRxBurst statsUpdatePer1sec waiting)
open Panel (Linked)

/-! ### The machine -/

/-- The NFVi under an observer of one receiving port: what waited when the second began, and what
came in since. -/
structure Watch where
  nfvi : Nfvi
  opened : Nat
  arrived : Nat := 0

inductive Event
  | arrive (aid : Nat) (mbufs : List Mbuf)
  | receive (aid nMbufs : Nat)
  | second
  deriving DecidableEq, Repr

/-- `p` sends and `q` receives. -/
def step (p q : Nat) (w : Watch) : Event → Option Watch
  | .arrive aid mbufs =>
    (virtTxBurst p aid mbufs w.nfvi).ret?.map fun r => {w with nfvi := r.2, arrived := w.arrived + r.1.2}
  | .receive aid nMbufs =>
    (virtRxBurst q aid nMbufs w.nfvi).ret?.map fun r => {w with nfvi := r.2}
  | .second =>
    (statsUpdatePer1sec q w.nfvi).ret?.map fun r => ⟨r.2, waiting r.2 q, 0⟩

def InRange (q : Nat) (w : Watch) : Prop :=
  0 ≤ w.nfvi.getPerfReduction q ∧ w.nfvi.getPerfReduction q ≤ 1

/-- When a second ends in which something came in, no less is waiting than when it began. -/
def Backed (q : Nat) (w : Watch) : Event → Prop
  | .second => w.arrived = 0 ∨ w.opened ≤ waiting w.nfvi q
  | _ => True

/-- A panel between the ports, whatever is in its rings, with counters that start at zero. -/
structure Started (p q : Nat) (tx rx : RingRef) (n : Nfvi) : Prop where
  sender : Linked n p tx rx
  receiver : Linked n q rx tx
  prodPpsSum_eq : (ring n tx).prodPpsSum = 0
  prodPpsCur_eq : (ring n tx).prodPpsCur = 0
  consPpsSum_eq : (ring n tx).consPpsSum = 0
  consPpsCur_eq : (ring n tx).consPpsCur = 0

/-- The counters of the second that runs, against what waits. -/
structure Inv (p q : Nat) (tx rx : RingRef) (w : Watch) : Prop where
  sender : Linked w.nfvi p tx rx
  receiver : Linked w.nfvi q rx tx
  arrived : (ring w.nfvi tx).prodPpsSum = w.arrived
  moved : MaRing.held (ring w.nfvi tx).rings + (ring w.nfvi tx).consPpsSum = w.opened + w.arrived

section Steps
variable {p q : Nat} {tx rx : RingRef} {n : Nfvi} {w w' : Watch}

theorem rxOf_of_linked (h : Linked n q rx tx) : n.rxOf q = some tx := by
  rw [Nfvi.rxOf, h.dev]

theorem waiting_of_linked (h : Linked n q rx tx) : waiting n q = MaRing.held (ring n tx).rings := by
  rw [waiting, rxOf_of_linked h]
  rfl

/-- Nothing that is published says more was received than came in. -/
theorem inRange_iff (h : Linked w.nfvi q rx tx) : InRange q w ↔
    (ring w.nfvi tx).prodPpsCur = 0 ∨ (ring w.nfvi tx).consPpsCur ≤ (ring w.nfvi tx).prodPpsCur := by
  rw [InRange, Nfvi.getPerfReduction_mem, Nfvi.getOuterRxPerf, Nfvi.getInnerRxPerf, rxOf_of_linked h]
  rfl

theorem inv_of_started (h : Started p q tx rx n) : Inv p q tx rx ⟨n, waiting n q, 0⟩ := by
  refine ⟨h.sender, h.receiver, h.prodPpsSum_eq, ?_⟩
  show MaRing.held (ring n tx).rings + (ring n tx).consPpsSum = waiting n q + 0
  rw [h.consPpsSum_eq, waiting_of_linked h.receiver]

theorem inRange_of_started (h : Started p q tx rx n) : InRange q ⟨n, waiting n q, 0⟩ :=
  (inRange_iff (w := ⟨n, waiting n q, 0⟩) h.receiver).mpr (.inl h.prodPpsCur_eq)

/-- A method of the ring set that returns is a method of the NFVi that returns. -/
theorem onRing_ret {α : Type} {r : RingRef} {m : Proc (MaRing Mbuf) α} {n n' : Nfvi} {a : α}
    (h : Nfvi.onRing (some r) m n = .ret a n') : ∃ x, m (ring n r) = .ret a x ∧ n' = Nfvi.setRing n r x := by
  rw [Nfvi.onRing, Proc.get_bind] at h
  change (if r.ppp ∈ n.ppps then _ else _ : Proc Nfvi α) n = _ at h
  rw [Proc.ite_run] at h
  split_ifs at h with hlive
  · rw [Proc.zoom] at h
    cases hm : m (ring n r) with
    | ret b x =>
      rw [hm] at h
      cases h
      exact ⟨x, rfl, rfl⟩
    | throws what x =>
      rw [hm] at h
      cases h
    | crash c =>
      rw [hm] at h
      cases h
  · cases h

/-- A burst leaves the published counts, and its objects are accounted for. -/
theorem Inv.arrive (h : Inv p q tx rx w) {aid : Nat} {mbufs : List Mbuf} (hs : step p q w (.arrive aid mbufs) = some w') :
    Inv p q tx rx w' ∧ (InRange q w' ↔ InRange q w) := by
  obtain ⟨⟨⟨idx, n⟩, nfvi⟩, hret, rfl⟩ := Option.map_eq_some_iff.mp hs
  have hcall := Outcome.eq_ret_of_ret? hret
  rw [virtTxBurst, Proc.bind_ret h.sender.virtAt] at hcall
  obtain ⟨x, hx, rfl⟩ := onRing_ret hcall
  obtain ⟨hheld, hprod, hprodCur, hcons, hconsCur⟩ := MaRing.enqueueBurst_ret hx
  have hring : ring (Nfvi.setRing w.nfvi tx x) tx = x := by rw [Nfvi.ring_setRing, if_pos rfl]
  have hreceiver : Linked (Nfvi.setRing w.nfvi tx x) q rx tx := h.receiver.setRing ..
  have hmoved := h.moved
  have harrived := h.arrived
  refine ⟨⟨h.sender.setRing .., hreceiver, ?_, ?_⟩, ?_⟩
  · show (ring (Nfvi.setRing w.nfvi tx x) tx).prodPpsSum = w.arrived + n
    rw [hring, hprod, harrived]
  · show MaRing.held (ring (Nfvi.setRing w.nfvi tx x) tx).rings + (ring (Nfvi.setRing w.nfvi tx x) tx).consPpsSum =
      w.opened + (w.arrived + n)
    rw [hring, hheld, hcons]
    omega
  · rw [inRange_iff h.receiver, inRange_iff hreceiver]
    simp only [hring, hprodCur, hconsCur]

theorem Inv.receive (h : Inv p q tx rx w) {aid nMbufs : Nat} (hs : step p q w (.receive aid nMbufs) = some w') :
    Inv p q tx rx w' ∧ (InRange q w' ↔ InRange q w) := by
  obtain ⟨⟨⟨idx, objs⟩, nfvi⟩, hret, rfl⟩ := Option.map_eq_some_iff.mp hs
  have hcall := Outcome.eq_ret_of_ret? hret
  rw [virtRxBurst, Proc.bind_ret h.receiver.virtAt] at hcall
  obtain ⟨x, hx, rfl⟩ := onRing_ret hcall
  obtain ⟨hheld, hcons, hconsCur, hprod, hprodCur⟩ := MaRing.dequeueBurst_ret hx
  have hring : ring (Nfvi.setRing w.nfvi tx x) tx = x := by rw [Nfvi.ring_setRing, if_pos rfl]
  have hreceiver : Linked (Nfvi.setRing w.nfvi tx x) q rx tx := h.receiver.setRing ..
  have hmoved := h.moved
  have harrived := h.arrived
  refine ⟨⟨h.sender.setRing .., hreceiver, ?_, ?_⟩, ?_⟩
  · show (ring (Nfvi.setRing w.nfvi tx x) tx).prodPpsSum = w.arrived
    rw [hring, hprod, harrived]
  · show MaRing.held (ring (Nfvi.setRing w.nfvi tx x) tx).rings + (ring (Nfvi.setRing w.nfvi tx x) tx).consPpsSum =
      w.opened + w.arrived
    rw [hring, hcons]
    omega
  · rw [inRange_iff h.receiver, inRange_iff hreceiver]
    simp only [hring, hprodCur, hconsCur]

/-- The end of a second publishes what the second counted. -/
theorem Inv.second (h : Inv p q tx rx w) (hs : step p q w .second = some w') :
    Inv p q tx rx w' ∧ (InRange q w' ↔ w.arrived = 0 ∨ w.opened ≤ waiting w.nfvi q) := by
  obtain ⟨⟨rolled, nfvi⟩, hret, rfl⟩ := Option.map_eq_some_iff.mp hs
  have hcall := Outcome.eq_ret_of_ret? hret
  obtain rfl : nfvi = Nfvi.setRing w.nfvi tx (ring w.nfvi tx).updateStats := by
    rw [statsUpdatePer1sec, Proc.bind_ret (Nfvi.portAt_of_mem h.receiver.live), h.receiver.dev] at hcall
    obtain ⟨a, n', hroll, hlast⟩ := Proc.bind_eq_ret hcall
    obtain ⟨x, hx, rfl⟩ := onRing_ret hroll
    cases hx
    cases hlast
    rfl
  have hring : ring (Nfvi.setRing w.nfvi tx (ring w.nfvi tx).updateStats) tx = (ring w.nfvi tx).updateStats := by
    rw [Nfvi.ring_setRing, if_pos rfl]
  have hreceiver : Linked (Nfvi.setRing w.nfvi tx (ring w.nfvi tx).updateStats) q rx tx := h.receiver.setRing ..
  refine ⟨⟨h.sender.setRing .., hreceiver, ?_, ?_⟩, ?_⟩
  · show (ring (Nfvi.setRing w.nfvi tx (ring w.nfvi tx).updateStats) tx).prodPpsSum = 0
    rw [hring]
    rfl
  · show MaRing.held _ + _ = waiting _ q + 0
    rw [waiting_of_linked hreceiver, hring]
    rfl
  · rw [inRange_iff hreceiver, waiting_of_linked h.receiver]
    simp only [hring]
    show (ring w.nfvi tx).prodPpsSum = 0 ∨ (ring w.nfvi tx).consPpsSum ≤ (ring w.nfvi tx).prodPpsSum ↔ _
    have hmoved := h.moved
    rw [h.arrived]
    omega

theorem Inv.step (h : Inv p q tx rx w) (hrange : InRange q w) {e : Event} (hs : step p q w e = some w') :
    Inv p q tx rx w' ∧ (InRange q w' ↔ Backed q w e) := by
  cases e with
  | arrive aid mbufs =>
    obtain ⟨h', hiff⟩ := h.arrive hs
    exact ⟨h', iff_of_true (hiff.mpr hrange) trivial⟩
  | receive aid nMbufs =>
    obtain ⟨h', hiff⟩ := h.receive hs
    exact ⟨h', iff_of_true (hiff.mpr hrange) trivial⟩
  | second => exact h.second hs

/-- **A run reports ratios between 0 and 1** just when no second in which something came in took
from what had been waiting before it. -/
theorem inRange_iff_of_run {es : List Event} (h : Started p q tx rx n)
    (hrun : Runs (Reduction.step p q) Always ⟨n, waiting n q, 0⟩ es w) :
    (∀ es', es' <+: es → ∀ u, exec (Reduction.step p q) ⟨n, waiting n q, 0⟩ es' = some u → InRange q u) ↔
      Runs (Reduction.step p q) (Backed q) ⟨n, waiting n q, 0⟩ es w :=
  hrun.prefixes_iff (inv_of_started h) (inRange_of_started h) fun _ _ _ hinv hrange hs => hinv.step hrange hs

end Steps

instance (n : Nfvi) (p : Nat) (tx rx : RingRef) : Decidable (Linked n p tx rx) :=
  decidable_of_iff (p ∈ n.ports ∧ (n.port p).dev = .virt (some tx) (some rx) ∧ tx.ppp ∈ n.ppps ∧ rx.ppp ∈ n.ppps)
    ⟨fun ⟨h₁, h₂, h₃, h₄⟩ => ⟨h₁, h₂, h₃, h₄⟩, fun h => ⟨h.live, h.dev, h.tx_live, h.rx_live⟩⟩

instance (p q : Nat) (tx rx : RingRef) (n : Nfvi) : Decidable (Started p q tx rx n) :=
  decidable_of_iff (Linked n p tx rx ∧ Linked n q rx tx ∧ ((ring n tx).prodPpsSum = 0 ∧ (ring n tx).prodPpsCur = 0) ∧
      (ring n tx).consPpsSum = 0 ∧ (ring n tx).consPpsCur = 0)
    ⟨fun ⟨h₁, h₂, ⟨h₃, h₄⟩, h₅, h₆⟩ => ⟨h₁, h₂, h₃, h₄, h₅, h₆⟩, fun h => ⟨h.sender, h.receiver,
      ⟨h.prodPpsSum_eq, h.prodPpsCur_eq⟩, h.consPpsSum_eq, h.consPpsCur_eq⟩⟩

instance (q : Nat) (w : Watch) : (e : Event) → Decidable (Backed q w e)
  | .arrive _ _ => isTrue trivial
  | .receive _ _ => isTrue trivial
  | .second => inferInstanceAs (Decidable (_ ∨ _))

/-- A panel between two ports, with one thread on each. -/
def patched : Option Nfvi :=
  (Nfvi.newPatchPanel "x" 1 0 (fun _ _ => true) (fun _ => (0, 0)) Panel.twoPorts).ret?.bind fun r =>
    (exec Panel.step ⟨r.2, []⟩ [.requestTxAccess 0, .requestRxAccess 0, .configAcc 0, .requestRxAccess 1,
      .requestTxAccess 1, .configAcc 1]).map Panel.Traffic.nfvi

/-- Eight come in and four are received, in each of two seconds. -/
def behindRun : List Event :=
  [.arrive 0 [1, 2, 3, 4], .arrive 0 [5, 6, 7, 8], .receive 0 4, .second, .arrive 0 [9, 10, 11, 12],
    .receive 0 32, .arrive 0 [13, 14, 15, 16], .second]

theorem inRange_of_behindRun :
    ∃ n w, patched = some n ∧ exec (step 0 1) ⟨n, n.waiting 1, 0⟩ behindRun = some w ∧
      w.nfvi.getPerfReduction 1 = 1 / 2 ∧ ((∀ es', es' <+: behindRun → ∀ u,
        exec (step 0 1) ⟨n, n.waiting 1, 0⟩ es' = some u → InRange 1 u) ↔
          Runs (step 0 1) (Backed 1) ⟨n, n.waiting 1, 0⟩ behindRun w) := by
  obtain ⟨n, hn, hrun⟩ := Option.bind_eq_some_iff.mp (show
    patched.bind (fun n => (exec (step 0 1) ⟨n, n.waiting 1, 0⟩ behindRun).map fun w =>
      (decide (Started 0 1 (.leftEnq 2) (.rightEnq 2) n), w.nfvi.getPerfReduction 1)) = some (true, 1 / 2) by
    decide +kernel)
  obtain ⟨w, hw, heq⟩ := Option.map_eq_some_iff.mp hrun
  simp only [Prod.mk.injEq, decide_eq_true_eq] at heq
  exact ⟨n, w, hn, hw, heq.2, inRange_iff_of_run heq.1 (Runs.of_exec hw)⟩

/-- Four come in and wait, and are received in a second in which one more comes in. -/
def lateRun : List Event := [.arrive 0 [1, 2, 3, 4], .second, .receive 0 32, .arrive 0 [5], .second]

/-- A port is reported to receive four times what comes in. -/
theorem not_inRange :
    ∃ n w, patched = some n ∧ Started 0 1 (.leftEnq 2) (.rightEnq 2) n ∧
      Runs (step 0 1) Always ⟨n, n.waiting 1, 0⟩ lateRun w ∧ w.nfvi.getPerfReduction 1 = 4 ∧ ¬InRange 1 w := by
  obtain ⟨n, hn, hrun⟩ := Option.bind_eq_some_iff.mp (show
    patched.bind (fun n => (exec (step 0 1) ⟨n, n.waiting 1, 0⟩ lateRun).map fun w =>
      (decide (Started 0 1 (.leftEnq 2) (.rightEnq 2) n), w.nfvi.getPerfReduction 1)) = some (true, 4) by
    decide +kernel)
  obtain ⟨w, hw, heq⟩ := Option.map_eq_some_iff.mp hrun
  simp only [Prod.mk.injEq, decide_eq_true_eq] at heq
  refine ⟨n, w, hn, heq.1, Runs.of_exec hw, heq.2, fun h => ?_⟩
  have hle := h.2
  rw [heq.2] at hle
  exact absurd hle (by decide)

end Reduction

end Susanow
