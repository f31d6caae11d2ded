import Susanow.Ma.Port

/-! Configuring a port anew, when a count does not divide.

`configure_accessor` does rx and then tx, and either side is emptied before its count is
looked at: what a refused call leaves depends on which side refused. -/
namespace Susanow.MaPort
open RoundRobin (slice)

namespace Oneside

/-- What the threads of a side go by: the accessor count, the queue table, and the lists and
cursors. -/
def dealing (o : Oneside) : Nat × List Queue × List Accessor := (o.nAccessor, o.queues, o.accessors)

/-- The count does not divide the queues. -/
def Refused (nQue nAcc : Nat) : Prop := 0 < nAcc ∧ ¬nAcc ∣ nQue

/-- As many accessors as asked for, and no queue dealt. -/
structure Blank (nAcc : Nat) (o : Oneside) : Prop where
  nAccessor : o.nAccessor = nAcc
  queues : o.queues = []
  accessors : o.accessors.length = nAcc

/-- The queues dealt out as asked for, and no accessor used since. -/
structure Fresh (nQue nAcc : Nat) (o : Oneside) : Prop where
  nAccessor : o.nAccessor = nAcc
  queues : o.queues = rows (nQue / nAcc) nAcc
  accessors : o.accessors = (List.range nAcc).map fun aid => Accessor.set (slice (nQue / nAcc) aid)

theorem resize_eq_self {α : Type} {d : α} {n : Nat} {xs : List α} : resize d n xs = xs ↔ xs.length = n := by
  constructor
  · intro h
    rw [← h, length_resize]
  · rintro rfl
    simp [resize]

theorem cleared_dealing {dpdkPid nQue nAcc : Nat} {o : Oneside} :
    (cleared dpdkPid nQue nAcc o).dealing = o.dealing ↔ Blank nAcc o := by
  simp only [cleared, dealing, Prod.mk.injEq, resize_eq_self]
  constructor
  · rintro ⟨hacc, hque, hlen⟩
    exact ⟨hacc.symm, hque.symm, hlen⟩
  · rintro ⟨hacc, hque, hlen⟩
    exact ⟨hacc.symm, hque.symm, hlen⟩

theorem Configured.fresh {dpdkPid nQue nAcc : Nat} {o : Oneside} (h : Configured dpdkPid nQue nAcc o) :
    Fresh nQue nAcc o := by
  refine ⟨h.nAccessor, h.queues, List.ext_getElem? fun aid => ?_⟩
  by_cases haid : aid < nAcc
  · rw [h.accessors aid haid, List.getElem?_map, List.getElem?_range haid]
    rfl
  · rw [List.getElem?_eq_none (by rw [h.length]; omega), List.getElem?_eq_none (by simp; omega)]

/-- A side dealt out as asked for is told from others by what its threads go by. -/
theorem Fresh.dealing_eq {nQue nAcc : Nat} {o o' : Oneside} (h : Fresh nQue nAcc o) :
    o.dealing = o'.dealing ↔ Fresh nQue nAcc o' := by
  simp only [dealing, Prod.mk.injEq, h.nAccessor, h.queues, h.accessors]
  constructor
  · rintro ⟨hacc, hque, haccs⟩
    exact ⟨hacc.symm, hque.symm, haccs.symm⟩
  · rintro ⟨hacc, hque, haccs⟩
    exact ⟨hacc.symm, hque.symm, haccs.symm⟩

end Oneside

open Oneside (Refused Blank Fresh)

/-- A call that throws has changed nothing that the threads of either side go by. -/
def KeepsOnThrow (m : MaPort) (nRxacc nTxacc : Nat) : Prop :=
  ∀ w m', configureAccessor nRxacc nTxacc m = .throws w m' →
    m'.rx.dealing = m.rx.dealing ∧ m'.tx.dealing = m.tx.dealing

variable {m : MaPort} {nRxacc nTxacc : Nat}

theorem configureAccessor_rx_refused (h : Refused m.nRxq nRxacc) :
    configureAccessor nRxacc nTxacc m = .throws (Oneside.indivisible m.nRxq nRxacc)
      {m with rx := Oneside.cleared m.dpdkPid m.nRxq nRxacc m.rx} := by
  have hrx := Oneside.configure_throws m.rx m.dpdkPid m.nRxq nRxacc h.1 h.2
  have hzoom : onRx (Oneside.configureQueueAccessor m.dpdkPid m.nRxq nRxacc) m =
      .throws (Oneside.indivisible m.nRxq nRxacc)
        {m with rx := Oneside.cleared m.dpdkPid m.nRxq nRxacc m.rx} := by
    rw [onRx, Proc.zoom, hrx]
  rw [configureAccessor, Proc.get_bind, Proc.bind_throws hzoom]

/-- The tx side is asked once rx is as the call wants it. -/
theorem configureAccessor_rx_done (nTxacc : Nat) (h : ¬Refused m.nRxq nRxacc) :
    ∃ rx, Fresh m.nRxq nRxacc rx ∧ configureAccessor nRxacc nTxacc m =
      onTx (Oneside.configureQueueAccessor m.dpdkPid m.nTxq nTxacc) {m with rx := rx} := by
  have hdvd : nRxacc = 0 ∨ nRxacc ∣ m.nRxq := by
    by_cases h0 : nRxacc = 0
    · exact .inl h0
    · exact .inr (by_contra fun hn => h ⟨Nat.pos_of_ne_zero h0, hn⟩)
  obtain ⟨⟨⟩, rx, hrun, hconf⟩ := Oneside.configure_returns m.rx m.dpdkPid m.nRxq nRxacc hdvd
  have hzoom : onRx (Oneside.configureQueueAccessor m.dpdkPid m.nRxq nRxacc) m = .ret () {m with rx := rx} := by
    rw [onRx, Proc.zoom, hrun]
  exact ⟨rx, hconf.fresh, by rw [configureAccessor, Proc.get_bind, Proc.bind_ret hzoom]⟩

theorem onTx_refused (h : Refused m.nTxq nTxacc) :
    onTx (Oneside.configureQueueAccessor m.dpdkPid m.nTxq nTxacc) m =
      .throws (Oneside.indivisible m.nTxq nTxacc)
        {m with tx := Oneside.cleared m.dpdkPid m.nTxq nTxacc m.tx} := by
  rw [onTx, Proc.zoom, Oneside.configure_throws m.tx m.dpdkPid m.nTxq nTxacc h.1 h.2]

theorem onTx_done (h : ¬Refused m.nTxq nTxacc) :
    ∃ m', onTx (Oneside.configureQueueAccessor m.dpdkPid m.nTxq nTxacc) m = .ret () m' := by
  have hdvd : nTxacc = 0 ∨ nTxacc ∣ m.nTxq := by
    by_cases h0 : nTxacc = 0
    · exact .inl h0
    · exact .inr (by_contra fun hn => h ⟨Nat.pos_of_ne_zero h0, hn⟩)
  obtain ⟨⟨⟩, tx, hrun, -⟩ := Oneside.configure_returns m.tx m.dpdkPid m.nTxq nTxacc hdvd
  exact ⟨{m with tx := tx}, by rw [onTx, Proc.zoom, hrun]⟩

/-- **A refused configuration leaves the port as it was exactly when there was nothing to
lose**: the side that refuses had its number of accessors and no queue dealt, and rx, if tx is
the one, stood as the call has set it up. -/
theorem keepsOnThrow_iff (m : MaPort) (nRxacc nTxacc : Nat) :
    m.KeepsOnThrow nRxacc nTxacc ↔
      (Refused m.nRxq nRxacc → Blank nRxacc m.rx) ∧
        (¬Refused m.nRxq nRxacc → Refused m.nTxq nTxacc → Fresh m.nRxq nRxacc m.rx ∧ Blank nTxacc m.tx) := by
  unfold KeepsOnThrow
  by_cases hrx : Refused m.nRxq nRxacc
  · simp only [hrx, true_imp_iff, not_true, false_imp_iff, and_true]
    rw [configureAccessor_rx_refused hrx]
    constructor
    · intro h
      exact Oneside.cleared_dealing.mp (h _ _ rfl).1
    · rintro h w m' hrun
      cases hrun
      exact ⟨Oneside.cleared_dealing.mpr h, rfl⟩
  · simp only [hrx, false_imp_iff, not_false_eq_true, true_imp_iff, true_and]
    obtain ⟨rx, hfresh, hrun⟩ := configureAccessor_rx_done nTxacc hrx
    rw [hrun]
    by_cases htx : Refused m.nTxq nTxacc
    · rw [onTx_refused (m := {m with rx := rx}) htx]
      constructor
      · intro h _
        obtain ⟨hdrx, hdtx⟩ := h _ _ rfl
        exact ⟨hfresh.dealing_eq.mp hdrx, Oneside.cleared_dealing.mp hdtx⟩
      · rintro h w m' hthrows
        obtain ⟨hfresh', hblank⟩ := h htx
        cases hthrows
        exact ⟨hfresh.dealing_eq.mpr hfresh', Oneside.cleared_dealing.mpr hblank⟩
    · obtain ⟨m', hret⟩ := onTx_done (m := {m with rx := rx}) htx
      rw [hret]
      exact iff_of_true (fun w m' hthrows => by cases hthrows) fun h => absurd h htx

/-- Eight queues a side, dealt out to two accessors each. -/
def eightByTwo : Proc MaPort Unit := do
  Proc.modify (configureHwqueue 0 8 8)
  configureAccessor 2 2

/-- A third rx accessor is refused: the table is empty, and the third stands there without a
queue. -/
theorem not_keepsOnThrow :
    ∃ m w m', eightByTwo {} = .ret () m ∧ m.rx.dealing = (2, Oneside.rows 4 2,
        [⟨0, [0, 1, 2, 3]⟩, ⟨0, [4, 5, 6, 7]⟩]) ∧
      configureAccessor 3 2 m = .throws w m' ∧ m'.rx.dealing = (3, [],
        [⟨0, [0, 1, 2, 3]⟩, ⟨0, [4, 5, 6, 7]⟩, ⟨0, []⟩]) ∧ ¬m.KeepsOnThrow 3 2 := by
  refine ⟨_, _, _, rfl, rfl, rfl, rfl, fun h => ?_⟩
  have hcount : 3 = 2 := congrArg Prod.fst (h _ _ rfl).1
  exact absurd hcount (by decide)

end Susanow.MaPort
