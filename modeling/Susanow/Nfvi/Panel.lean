import Susanow.Base.Runs
import Susanow.Ma.Flow
import Susanow.Nfvi.Frames

/-! Traffic over a patch panel.

Two virt ports, each sending into the ring set the other receives from. Both ends of both
sets have their own accessors and cursors, and a port may configure its two anew while the
rings hold mbufs. The rings are followed one direction at a time (`Acts`): the port that
sends works on one end of them, the port that receives on the other. -/
namespace Susanow

namespace Nfvi

/-! ### Bursts of a virt port -/

/-- The rings of a port, as a virt port; to any other the cast is null. -/
def virtAt (p : Nat) : Proc Nfvi (Option RingRef × Option RingRef) := do
  let port ← portAt p
  match port.dev with
  | .virt tx rx => pure (tx, rx)
  | .dpdk _ _ _ => Proc.crash .nullPointer

/-- `ssn_vnf_port_virt::tx_burst`: the ring and how many mbufs it took. -/
def virtTxBurst (p aid : Nat) (mbufs : List Mbuf) : Proc Nfvi (Nat × Nat) := do
  let (tx, _) ← virtAt p
  onRing tx (MaRing.enqueueBurst aid mbufs)

/-- `ssn_vnf_port_virt::rx_burst`: the ring and the mbufs it gave. -/
def virtRxBurst (p aid nMbufs : Nat) : Proc Nfvi (Nat × List Mbuf) := do
  let (_, rx) ← virtAt p
  onRing rx (MaRing.dequeueBurst aid nMbufs)

/-- How many access ids there are to send with. -/
def numTxAid (n : Nfvi) (p : Nat) : Nat :=
  match (n.port p).dev with
  | .virt (some tx) _ => (ring n tx).getNumEnqAcc
  | _ => 0

def numRxAid (n : Nfvi) (p : Nat) : Nat :=
  match (n.port p).dev with
  | .virt _ (some rx) => (ring n rx).getNumDeqAcc
  | _ => 0

end Nfvi

namespace Panel
open Nfvi (ring setRing portAt modifyPort onRing virtAt virtTxBurst virtRxBurst numTxAid numRxAid newPatchPanel)
open Function (update)

/-! ### The machine -/

/-- A burst that was made: the port and the ring, and the mbufs that were accepted or returned. -/
structure Burst where
  tx : Bool
  port : Nat
  idx : Nat
  mbufs : List Mbuf
  deriving DecidableEq, Repr

structure Traffic where
  nfvi : Nfvi
  bursts : List Burst := []

/-- What the threads that use the two ports do to them. -/
inductive Op
  | tx (p aid : Nat) (mbufs : List Mbuf)
  | rx (p aid nMbufs : Nat)
  | resetAcc (p : Nat)
  | requestRxAccess (p : Nat)
  | requestTxAccess (p : Nat)
  | configAcc (p : Nat)
  deriving DecidableEq, Repr

def Op.port : Op → Nat
  | .tx p _ _ => p
  | .rx p _ _ => p
  | .resetAcc p => p
  | .requestRxAccess p => p
  | .requestTxAccess p => p
  | .configAcc p => p

/-- A call, and the bursts it is recorded as. -/
def Traffic.call {α : Type} (s : Traffic) (p : Proc Nfvi α) (record : α → List Burst) : Option Traffic :=
  match p s.nfvi with
  | .ret a n => some ⟨n, s.bursts ++ record a⟩
  | _ => none

def step (s : Traffic) : Op → Option Traffic
  | .tx p aid mbufs => s.call (virtTxBurst p aid mbufs) fun r => [⟨true, p, r.1, mbufs.take r.2⟩]
  | .rx p aid nMbufs => s.call (virtRxBurst p aid nMbufs) fun r => [⟨false, p, r.1, r.2⟩]
  | .resetAcc p => s.call (modifyPort p VnfPort.resetAcc) fun _ => []
  | .requestRxAccess p => s.call (modifyPort p VnfPort.requestRxAccess) fun _ => []
  | .requestTxAccess p => s.call (modifyPort p VnfPort.requestTxAccess) fun _ => []
  | .configAcc p => s.call (Nfvi.configAcc p) fun _ => []

/-- Access ids that there are, and counts that divide. -/
def Valid (nQue : Nat) (n : Nfvi) : Op → Prop
  | .tx p aid _ => aid < numTxAid n p
  | .rx p aid _ => aid < numRxAid n p
  | .configAcc p => (n.port p).nRxacc ∣ nQue ∧ (n.port p).nTxacc ∣ nQue
  | _ => True

/-- A valid use of one of the two ports. -/
def OnEnds (l r nQue : Nat) (s : Traffic) (op : Op) : Prop :=
  (op.port = l ∨ op.port = r) ∧ Valid nQue s.nfvi op

instance (nQue : Nat) (n : Nfvi) : (op : Op) → Decidable (Valid nQue n op)
  | .tx p aid _ => inferInstanceAs (Decidable (aid < numTxAid n p))
  | .rx p aid _ => inferInstanceAs (Decidable (aid < numRxAid n p))
  | .configAcc p => inferInstanceAs (Decidable ((n.port p).nRxacc ∣ nQue ∧ (n.port p).nTxacc ∣ nQue))
  | .resetAcc _ => isTrue trivial
  | .requestRxAccess _ => isTrue trivial
  | .requestTxAccess _ => isTrue trivial

instance (l r nQue : Nat) (s : Traffic) (op : Op) : Decidable (OnEnds l r nQue s op) :=
  inferInstanceAs (Decidable (_ ∧ _))

/-! ### What was sent and received -/

def Burst.on (tx : Bool) (p : Nat) (b : Burst) : Bool := b.tx == tx && b.port == p

/-- What the transmit bursts of a port were rid of, or its receive bursts returned. -/
def moved (bursts : List Burst) (tx : Bool) (p : Nat) : List Mbuf :=
  (bursts.filter (Burst.on tx p)).flatMap Burst.mbufs

/-- The same for one ring. -/
def movedAt (bursts : List Burst) (tx : Bool) (p i : Nat) : List Mbuf :=
  ((bursts.filter (Burst.on tx p)).filter (·.idx == i)).flatMap Burst.mbufs

def accepted (s : Traffic) (p : Nat) : List Mbuf := moved s.bursts true p

def returned (s : Traffic) (p : Nat) : List Mbuf := moved s.bursts false p

/-- What `p` sent is what `q` received and what is still in the rings between them; ring by
ring it is so in order, and `q` receives nothing that `p` did not send. -/
structure Conserved (s : Traffic) (p q : Nat) (x : MaRing Mbuf) : Prop where
  mbufs : (accepted s p).Perm (returned s q ++ x.stored)
  order : ∀ i, movedAt s.bursts true p i = movedAt s.bursts false q i ++ x.objsAt i
  sent : ∀ m, (returned s q).count m ≤ (accepted s p).count m

/-- The access id of a receive burst on `q`. -/
def Op.poll? (q : Nat) : Op → Option Nat
  | .rx p aid _ => if p = q then some aid else none
  | _ => none

def polls (q : Nat) (ops : List Op) : List Nat := ops.filterMap (Op.poll? q)

/-- `p` sends nothing, and `q` receives with unbounded bursts and is not configured anew. -/
def Drains (p q bound : Nat) : Op → Prop
  | .tx p' _ _ => p' ≠ p
  | .rx q' _ nMbufs => q' = q → bound ≤ nMbufs
  | .configAcc q' => q' ≠ q
  | _ => True

def Polling (p q nQue bound : Nat) (s : Traffic) (op : Op) : Prop := OnEnds p q nQue s op ∧ Drains p q bound op

/-! ### Ends of the rings -/

section Rings
variable {n : Nfvi} {p q : Nat} {tx rx : RingRef}

theorem onRing_run {α : Type} {r : RingRef} {m : Proc (MaRing Mbuf) α} {a : α} {x : MaRing Mbuf}
    (hr : r.ppp ∈ n.ppps) (hm : m (ring n r) = .ret a x) : onRing (some r) m n = .ret a (setRing n r x) := by
  rw [onRing, Proc.get_bind]
  show (if r.ppp ∈ n.ppps then _ else _ : Proc Nfvi α) n = _
  rw [Proc.ite_run, if_pos hr, Proc.zoom, hm]

theorem ring_editPort (f : VnfPort → VnfPort) (r : RingRef) : ring (n.editPort p f) r = ring n r := by
  cases r <;> rfl

/-- A live port that sends into one ring set of a live panel and receives from another. -/
structure Linked (n : Nfvi) (p : Nat) (tx rx : RingRef) : Prop where
  live : p ∈ n.ports
  dev : (n.port p).dev = .virt (some tx) (some rx)
  tx_live : tx.ppp ∈ n.ppps
  rx_live : rx.ppp ∈ n.ppps

namespace Linked

theorem setRing (h : Linked n p tx rx) (r : RingRef) (x : MaRing Mbuf) :
    Linked (Nfvi.setRing n r x) p tx rx := by
  cases r <;> exact ⟨h.live, h.dev, h.tx_live, h.rx_live⟩

theorem editPort (h : Linked n p tx rx) {f : VnfPort → VnfPort} (hf : ∀ x, (f x).dev = x.dev) (q : Nat) :
    Linked (n.editPort q f) p tx rx := by
  refine ⟨h.live, ?_, h.tx_live, h.rx_live⟩
  show (update n.port q (f (n.port q)) p).dev = _
  by_cases hpq : p = q
  · subst hpq
    rw [Function.update_self, hf, h.dev]
  · rw [Function.update_of_ne hpq, h.dev]

theorem virtAt (h : Linked n p tx rx) : virtAt p n = .ret (some tx, some rx) n := by
  rw [Nfvi.virtAt, Proc.bind_ret (Nfvi.portAt_of_mem h.live), h.dev]
  rfl

theorem numTxAid (h : Linked n p tx rx) : numTxAid n p = (ring n tx).getNumEnqAcc := by
  rw [Nfvi.numTxAid, h.dev]

theorem numRxAid (h : Linked n p tx rx) : numRxAid n p = (ring n rx).getNumDeqAcc := by
  rw [Nfvi.numRxAid, h.dev]

end Linked

end Rings

/-- `p` sends into `tx` and `q` receives from it, and the other way round with `rx`. -/
structure Ends (nQue p q : Nat) (tx rx : RingRef) (s : Traffic) : Prop where
  ports_ne : p ≠ q
  rings_ne : tx ≠ rx
  sender : Linked s.nfvi p tx rx
  receiver : Linked s.nfvi q rx tx
  there : (ring s.nfvi tx).Ready nQue
  back : (ring s.nfvi rx).Ready nQue
  idx_lt : ∀ b ∈ s.bursts, b.idx < nQue

theorem Ends.symm {nQue p q : Nat} {tx rx : RingRef} {s : Traffic} (h : Ends nQue p q tx rx s) :
    Ends nQue q p rx tx s :=
  ⟨h.ports_ne.symm, h.rings_ne.symm, h.receiver, h.sender, h.back, h.there, h.idx_lt⟩

/-! ### One operation -/

/-- What an operation does to the rings `p` sends into and `q` receives from, and the bursts
it is recorded as. -/
inductive Acts (nQue p q : Nat) (x : MaRing Mbuf) : Op → MaRing Mbuf → List Burst → Prop
  | enqueue {x' : MaRing Mbuf} (aid : Nat) (mbufs : List Mbuf) (idx k : Nat) : x.Enqueued nQue x' mbufs idx k →
      Acts nQue p q x (.tx p aid mbufs) x' [⟨true, p, idx, mbufs.take k⟩]
  | dequeue {x' : MaRing Mbuf} (aid nb idx : Nat) : aid < x.getNumDeqAcc → x.Dequeued nQue x' aid nb idx →
      Acts nQue p q x (.rx q aid nb) x' [⟨false, q, idx, (x.objsAt idx).take nb⟩]
  | dealEnq (accs : List Accessor) : Acts nQue p q x (.configAcc p) {x with enqAccessors := accs} []
  | dealDeq (accs : List Accessor) : Acts nQue p q x (.configAcc q) {x with deqAccessors := accs} []
  | other (op : Op) (bursts : List Burst) : (∀ b ∈ bursts, b.on true p = false ∧ b.on false q = false) →
      (∀ aid nb, op ≠ .rx q aid nb) → Acts nQue p q x op x bursts

/-- An operation in both directions. -/
structure Stepped (nQue p q : Nat) (tx rx : RingRef) (s : Traffic) (op : Op) (t : Traffic)
    (bursts : List Burst) : Prop where
  step : step s op = some t
  log : t.bursts = s.bursts ++ bursts
  ends : Ends nQue p q tx rx t
  there : Acts nQue p q (ring s.nfvi tx) op (ring t.nfvi tx) bursts
  back : Acts nQue q p (ring s.nfvi rx) op (ring t.nfvi rx) bursts

section Step
variable {nQue p q : Nat} {tx rx : RingRef} {s t : Traffic} {op : Op} {bursts : List Burst}

theorem Stepped.symm (h : Stepped nQue p q tx rx s op t bursts) : Stepped nQue q p rx tx s op t bursts :=
  ⟨h.step, h.log, h.ends.symm, h.back, h.there⟩

theorem call_ret {α : Type} {m : Proc Nfvi α} {a : α} {n : Nfvi} (h : m s.nfvi = .ret a n)
    (record : α → List Burst) : s.call m record = some ⟨n, s.bursts ++ record a⟩ := by
  rw [Traffic.call, h]

theorem idx_lt_append (h : ∀ b ∈ s.bursts, b.idx < nQue) {b : Burst} (hb : b.idx < nQue) :
    ∀ c ∈ s.bursts ++ [b], c.idx < nQue := by
  intro c hc
  rcases List.mem_append.mp hc with hc | hc
  · exact h c hc
  · rw [List.mem_singleton.mp hc]
    exact hb

namespace Ends
variable (h : Ends nQue p q tx rx s)
include h

theorem tx_step (hque : 0 < nQue) {aid : Nat} (haid : aid < numTxAid s.nfvi p) (mbufs : List Mbuf) :
    ∃ t bursts, Stepped nQue p q tx rx s (.tx p aid mbufs) t bursts := by
  rw [h.sender.numTxAid] at haid
  obtain ⟨idx, k, x, hrun, hready, henq⟩ := h.there.enqueueBurst hque haid mbufs
  have hcall : virtTxBurst p aid mbufs s.nfvi = .ret (idx, k) (setRing s.nfvi tx x) := by
    rw [virtTxBurst, Proc.bind_ret h.sender.virtAt]
    exact onRing_run h.sender.tx_live hrun
  have htx : ring (setRing s.nfvi tx x) tx = x := by rw [Nfvi.ring_setRing, if_pos rfl]
  have hrx : ring (setRing s.nfvi tx x) rx = ring s.nfvi rx := by
    rw [Nfvi.ring_setRing, if_neg h.rings_ne.symm]
  refine ⟨_, _, call_ret hcall _, rfl, ?_, ?_, ?_⟩
  · exact ⟨h.ports_ne, h.rings_ne, h.sender.setRing .., h.receiver.setRing .., htx.symm ▸ hready,
      hrx.symm ▸ h.back, idx_lt_append h.idx_lt henq.idx_lt⟩
  · simp only [htx]
    exact .enqueue aid mbufs idx k henq
  · simp only [hrx]
    refine .other _ _ (fun b hb => ?_) nofun
    rw [List.mem_singleton.mp hb]
    simp [Burst.on, h.ports_ne]

theorem rx_step (hque : 0 < nQue) {aid : Nat} (haid : aid < numRxAid s.nfvi p) (nb : Nat) :
    ∃ t bursts, Stepped nQue p q tx rx s (.rx p aid nb) t bursts := by
  rw [h.sender.numRxAid] at haid
  obtain ⟨idx, x, hrun, hready, hdeq⟩ := h.back.dequeueBurst hque haid nb
  have hcall : virtRxBurst p aid nb s.nfvi =
      .ret (idx, ((ring s.nfvi rx).objsAt idx).take nb) (setRing s.nfvi rx x) := by
    rw [virtRxBurst, Proc.bind_ret h.sender.virtAt]
    exact onRing_run h.sender.rx_live hrun
  have hrx : ring (setRing s.nfvi rx x) rx = x := by rw [Nfvi.ring_setRing, if_pos rfl]
  have htx : ring (setRing s.nfvi rx x) tx = ring s.nfvi tx := by
    rw [Nfvi.ring_setRing, if_neg h.rings_ne]
  refine ⟨_, _, call_ret hcall _, rfl, ?_, ?_, ?_⟩
  · exact ⟨h.ports_ne, h.rings_ne, h.sender.setRing .., h.receiver.setRing .., htx.symm ▸ h.there,
      hrx.symm ▸ hready, idx_lt_append h.idx_lt hdeq.idx_lt⟩
  · simp only [htx]
    refine .other _ _ (fun b hb => ?_) fun aid' nb' heq => ?_
    · rw [List.mem_singleton.mp hb]
      simp [Burst.on, h.ports_ne]
    · cases heq
      exact h.ports_ne rfl
  · simp only [hrx]
    exact .dequeue aid nb idx haid hdeq

theorem config_step (hque : 0 < nQue) (hrxacc : (s.nfvi.port p).nRxacc ∣ nQue)
    (htxacc : (s.nfvi.port p).nTxacc ∣ nQue) : ∃ t bursts, Stepped nQue p q tx rx s (.configAcc p) t bursts := by
  obtain ⟨daccs, hdrun, hdealt⟩ := h.back.configureDeqAcc (Nat.pos_of_dvd_of_pos hrxacc hque) hrxacc
  obtain ⟨eaccs, herun, hdealt'⟩ := h.there.configureEnqAcc (Nat.pos_of_dvd_of_pos htxacc hque) htxacc
  have htx : ring (setRing s.nfvi rx {ring s.nfvi rx with deqAccessors := daccs}) tx = ring s.nfvi tx := by
    rw [Nfvi.ring_setRing, if_neg h.rings_ne]
  have hcall : Nfvi.configAcc p s.nfvi = .ret () (setRing (setRing s.nfvi rx {ring s.nfvi rx with deqAccessors := daccs})
      tx {ring s.nfvi tx with enqAccessors := eaccs}) := by
    rw [Nfvi.configAcc, Proc.bind_ret (Nfvi.portAt_of_mem h.sender.live), h.sender.dev]
    show (onRing (some rx) _ >>= fun _ => onRing (some tx) _) s.nfvi = _
    rw [Proc.bind_ret (onRing_run h.sender.rx_live hdrun)]
    exact onRing_run (h.sender.setRing rx _).tx_live (by rw [htx, herun])
  refine ⟨_, _, call_ret hcall _, rfl, ?_, ?_, ?_⟩
  · refine ⟨h.ports_ne, h.rings_ne, (h.sender.setRing ..).setRing .., (h.receiver.setRing ..).setRing .., ?_, ?_, ?_⟩
    · simp only [Nfvi.ring_setRing, if_true]
      exact ⟨h.there.length, h.there.alloc, hdealt', h.there.deq⟩
    · simp only [Nfvi.ring_setRing, if_neg h.rings_ne.symm, if_true]
      exact ⟨h.back.length, h.back.alloc, h.back.enq, hdealt⟩
    · simpa using h.idx_lt
  · simp only [Nfvi.ring_setRing, if_true]
    exact .dealEnq eaccs
  · simp only [Nfvi.ring_setRing, if_neg h.rings_ne.symm, if_true]
    exact .dealDeq daccs

/-- The counters are read by the next configuration only. -/
theorem count_step {op : Op} {f : VnfPort → VnfPort} (hf : ∀ x, (f x).dev = x.dev)
    (hop : step s op = s.call (modifyPort op.port f) fun _ => []) (hrx : ∀ p aid nb, op ≠ .rx p aid nb) :
    ∃ t bursts, Stepped nQue p q tx rx s op t bursts := by
  have hcall : modifyPort op.port f s.nfvi = .ret () (s.nfvi.editPort op.port f) := rfl
  refine ⟨_, _, hop.trans (call_ret hcall _), rfl, ?_, ?_, ?_⟩
  · refine ⟨h.ports_ne, h.rings_ne, h.sender.editPort hf _, h.receiver.editPort hf _, ?_, ?_, by simpa using h.idx_lt⟩
    · rw [ring_editPort]
      exact h.there
    · rw [ring_editPort]
      exact h.back
  · rw [ring_editPort]
    exact .other op [] nofun (hrx q)
  · rw [ring_editPort]
    exact .other op [] nofun (hrx p)

theorem step_sender (hque : 0 < nQue) (hport : op.port = p) (hvalid : Valid nQue s.nfvi op) :
    ∃ t bursts, Stepped nQue p q tx rx s op t bursts := by
  subst hport
  cases op with
  | tx p aid mbufs => exact h.tx_step hque hvalid mbufs
  | rx p aid nb => exact h.rx_step hque hvalid nb
  | resetAcc p => exact h.count_step (f := VnfPort.resetAcc) (fun _ => rfl) rfl nofun
  | requestRxAccess p => exact h.count_step (f := VnfPort.requestRxAccess) (fun _ => rfl) rfl nofun
  | requestTxAccess p => exact h.count_step (f := VnfPort.requestTxAccess) (fun _ => rfl) rfl nofun
  | configAcc p => exact h.config_step hque hvalid.1 hvalid.2

theorem step (hque : 0 < nQue) (hrule : OnEnds p q nQue s op) :
    ∃ t bursts, Stepped nQue p q tx rx s op t bursts := by
  obtain ⟨hport | hport, hvalid⟩ := hrule
  · exact h.step_sender hque hport hvalid
  · obtain ⟨t, bursts, hstep⟩ := h.symm.step_sender hque hport hvalid
    exact ⟨t, bursts, hstep.symm⟩

end Ends

/-! ### What an operation moves -/

theorem movedAt_own {b : Burst} {tx : Bool} {p : Nat} (h : b.on tx p = true) (log : List Burst) :
    movedAt (log ++ [b]) tx p = update (movedAt log tx p) b.idx (movedAt log tx p b.idx ++ b.mbufs) := by
  funext i
  by_cases hi : i = b.idx
  · subst hi
    simp [movedAt, h]
  · simp [movedAt, h, hi, Ne.symm hi]

theorem filter_append_other {new : List Burst} {tx : Bool} {p : Nat} (h : ∀ b ∈ new, b.on tx p = false)
    (log : List Burst) : (log ++ new).filter (Burst.on tx p) = log.filter (Burst.on tx p) := by
  have hnew : new.filter (Burst.on tx p) = [] := List.filter_eq_nil_iff.mpr fun b hb => by simp [h b hb]
  rw [List.filter_append, hnew, List.append_nil]

theorem movedAt_other {new : List Burst} {tx : Bool} {p : Nat} (h : ∀ b ∈ new, b.on tx p = false)
    (log : List Burst) : movedAt (log ++ new) tx p = movedAt log tx p := by
  funext i
  rw [movedAt, filter_append_other h, movedAt]

/-- What went into the rings from `p` is what came out of them at `q` and what is in them. -/
def Flowing (log : List Burst) (p q : Nat) (x : MaRing Mbuf) : Prop :=
  x.Flows (movedAt log true p) (movedAt log false q)

theorem Acts.flowing {x x' : MaRing Mbuf} {log : List Burst} (h : Acts nQue p q x op x' bursts)
    (hflow : Flowing log p q x) : Flowing (log ++ bursts) p q x' := by
  unfold Flowing at *
  cases h with
  | enqueue aid mbufs idx k henq =>
    rw [movedAt_own (by simp [Burst.on]), movedAt_other (by simp [Burst.on])]
    exact hflow.enqueued henq
  | dequeue aid nb idx haid hdeq =>
    rw [movedAt_other (p := p) (by simp [Burst.on]), movedAt_own (by simp [Burst.on])]
    exact hflow.dequeued hdeq
  | dealEnq accs =>
    rw [List.append_nil]
    exact hflow
  | dealDeq accs =>
    rw [List.append_nil]
    exact hflow
  | other op bursts hother =>
    rw [movedAt_other fun b hb => (hother b hb).1, movedAt_other fun b hb => (hother b hb).2]
    exact hflow

end Step

/-! ### A new panel -/

/-- What the constructor leaves of a direction: the rings are there and nothing is in them. -/
structure Laid (nQue : Nat) (x : MaRing Mbuf) : Prop where
  ready : x.Ready nQue
  none : ∀ i, x.objsAt i = []

/-- The NFVi with a panel more. -/
def built (n : Nfvi) (name : String) (leftEnq rightEnq : MaRing Mbuf) (l r : Nat) : Nfvi :=
  ((n.addPpp ⟨name, leftEnq, rightEnq, l, r⟩).editPort l
    (VnfPort.setDev (.virt (some (.leftEnq n.next)) (some (.rightEnq n.next))))).editPort r
    (VnfPort.setDev (.virt (some (.rightEnq n.next)) (some (.leftEnq n.next))))

section Built
variable {n : Nfvi} {name : String} {leftEnq rightEnq : MaRing Mbuf} {l r nQue : Nat}

theorem built_ppps : n.next ∈ (built n name leftEnq rightEnq l r).ppps :=
  List.mem_append_right _ List.mem_cons_self

theorem linked_left (hne : l ≠ r) (hlive : l ∈ n.ports) :
    Linked (built n name leftEnq rightEnq l r) l (.leftEnq n.next) (.rightEnq n.next) := by
  refine ⟨hlive, ?_, built_ppps, built_ppps⟩
  simp [built, Nfvi.editPort, Function.update_of_ne hne, VnfPort.setDev]

theorem linked_right (hlive : r ∈ n.ports) :
    Linked (built n name leftEnq rightEnq l r) r (.rightEnq n.next) (.leftEnq n.next) := by
  refine ⟨hlive, ?_, built_ppps, built_ppps⟩
  simp [built, Nfvi.editPort, VnfPort.setDev]

theorem built_ring (hleft : Laid nQue leftEnq) (hright : Laid nQue rightEnq) :
    Laid nQue (ring (built n name leftEnq rightEnq l r) (.leftEnq n.next)) ∧
      Laid nQue (ring (built n name leftEnq rightEnq l r) (.rightEnq n.next)) := by
  simp [built, Nfvi.editPort, Nfvi.addPpp, ring, hleft, hright]

end Built

theorem newPatchPanel_meets {name : String} {r l nQue : Nat} (alloc : Nat → Nat → Bool) (mem : Nat → Nat × Nat)
    {n : Nfvi} (hne : l ≠ r) (hl : (n.port l).nTxq = nQue) (hr : (n.port r).nTxq = nQue) :
    Proc.Meets (newPatchPanel name r l alloc mem) n (fun _ n' =>
      Linked n' l (.leftEnq n.next) (.rightEnq n.next) ∧ Linked n' r (.rightEnq n.next) (.leftEnq n.next) ∧
        Laid nQue (ring n' (.leftEnq n.next)) ∧ Laid nQue (ring n' (.rightEnq n.next))) fun _ => True := by
  by_cases hrlive : r ∈ n.ports
  · by_cases hllive : l ∈ n.ports
    · refine Proc.meets_bind_ret (Nfvi.portAt_of_mem hrlive) (Proc.meets_bind_ret (Nfvi.portAt_of_mem hllive) ?_)
      split_ifs
      · rw [hl, hr]
        have hfresh (k : Nat) (np : String) (m m' : Nat) : Proc.Meets
            (Proc.fresh (MaRing.init np m m') (MaRing.configureQue (alloc k) nQue)) n
            (fun x n' => n' = n ∧ Laid nQue x) fun _ => True :=
          Proc.meets_fresh ((MaRing.configureQue_meets (alloc k) nQue rfl rfl).weaken
            fun _ x hx => ⟨rfl, hx.1, hx.2⟩)
        refine Proc.meets_bind (hfresh 0 ..) fun leftEnq n' ⟨hn', hleft⟩ => ?_
        subst n'
        refine Proc.meets_bind (hfresh 1 ..) fun rightEnq n' ⟨hn', hright⟩ => ?_
        subst n'
        refine Proc.meets_get_bind (Proc.meets_of_ret (t := built n name leftEnq rightEnq l r) rfl ?_)
        exact ⟨linked_left hne hllive, linked_right hrlive, built_ring hleft hright⟩
      · exact Proc.meets_throw trivial
    · exact Proc.meets_bind_ret (Nfvi.portAt_of_mem hrlive) (Proc.meets_bind_crash (Nfvi.portAt_of_not_mem hllive))
  · exact Proc.meets_bind_crash (Nfvi.portAt_of_not_mem hrlive)

/-- Both directions flow. -/
structure Inv (nQue p q : Nat) (tx rx : RingRef) (s : Traffic) : Prop where
  ends : Ends nQue p q tx rx s
  there : Flowing s.bursts p q (ring s.nfvi tx)
  back : Flowing s.bursts q p (ring s.nfvi rx)

theorem inv_init {name : String} {r l nQue : Nat} {alloc : Nat → Nat → Bool} {mem : Nat → Nat × Nat}
    {n n' : Nfvi} (hnew : newPatchPanel name r l alloc mem n = .ret () n') (hne : l ≠ r)
    (hl : (n.port l).nTxq = nQue) (hr : (n.port r).nTxq = nQue) :
    Inv nQue l r (.leftEnq n.next) (.rightEnq n.next) ⟨n', []⟩ := by
  obtain ⟨hleft, hright, hthere, hback⟩ := (newPatchPanel_meets alloc mem hne hl hr).1 () n' hnew
  refine ⟨⟨hne, nofun, hleft, hright, hthere.ready, hback.ready, nofun⟩, fun i => ?_, fun i => ?_⟩
  · rw [hthere.none i]
    rfl
  · rw [hback.none i]
    rfl

section Runs
variable {nQue p q : Nat} {tx rx : RingRef} {s t : Traffic} {op : Op}

theorem Inv.step (hque : 0 < nQue) (h : Inv nQue p q tx rx s) (hrule : OnEnds p q nQue s op)
    (hs : step s op = some t) : Inv nQue p q tx rx t := by
  obtain ⟨t', bursts, hstep⟩ := h.ends.step hque hrule
  rw [hstep.step] at hs
  cases hs
  refine ⟨hstep.ends, ?_, ?_⟩
  · rw [hstep.log]
    exact hstep.there.flowing h.there
  · rw [hstep.log]
    exact hstep.back.flowing h.back

theorem Flowing.conserved {x : MaRing Mbuf} (h : Flowing s.bursts p q x) (hlen : x.rings.length = nQue)
    (hidx : ∀ b ∈ s.bursts, b.idx < nQue) : Conserved s p q x := by
  have hgroups (tx : Bool) (p : Nat) :
      (moved s.bursts tx p).Perm ((List.range nQue).flatMap (movedAt s.bursts tx p)) :=
    flatMap_perm_groups Burst.idx Burst.mbufs _ fun b hb => hidx b (List.mem_of_mem_filter hb)
  have hperm : (accepted s p).Perm (returned s q ++ x.stored) := calc
    (accepted s p).Perm ((List.range nQue).flatMap (movedAt s.bursts true p)) := hgroups true p
    _ = (List.range nQue).flatMap fun i => movedAt s.bursts false q i ++ x.objsAt i := by
      rw [funext h]
    List.Perm _ ((List.range nQue).flatMap (movedAt s.bursts false q) ++ (List.range nQue).flatMap x.objsAt) :=
      (List.flatMap_append_perm _ _ _).symm
    List.Perm _ (returned s q ++ x.stored) := by
      rw [MaRing.stored, hlen]
      exact (hgroups false q).symm.append_right _
  refine ⟨hperm, h, fun m => ?_⟩
  rw [hperm.count_eq, List.count_append]
  exact Nat.le_add_right _ _

/-! ### Polling -/

theorem polls_cons (op : Op) (ops : List Op) : polls q (op :: ops) = polls q [op] ++ polls q ops := by
  rw [polls, polls, polls, ← List.filterMap_append]
  rfl

theorem polls_other (hop : ∀ aid nb, op ≠ .rx q aid nb) : polls q [op] = [] := by
  cases op with
  | rx p aid nb =>
    have hne : p ≠ q := by
      rintro rfl
      exact hop aid nb rfl
    simp [polls, Op.poll?, hne]
  | tx p aid mbufs => rfl
  | resetAcc p => rfl
  | requestRxAccess p => rfl
  | requestTxAccess p => rfl
  | configAcc p => rfl

variable {quota nAcc bound : Nat} {start done : Nat → Nat} {x x' : MaRing Mbuf} {bursts : List Burst}

theorem Acts.swept (hact : Acts nQue p q x op x' bursts) (hquota : 0 < quota) (hd : Drains p q bound op)
    (h : x.Swept quota nAcc bound start done) :
    x'.Swept quota nAcc bound start fun a => done a + (polls q [op]).count a := by
  cases hact with
  | enqueue => exact absurd rfl hd
  | dequeue aid nb idx haid hdeq =>
    have hpoll : polls q [.rx q aid nb] = [aid] := by simp [polls, Op.poll?]
    have hmore := Accessor.update_add_count done aid []
    simp only [List.count_nil, Nat.add_zero] at hmore
    rw [hpoll, ← hmore]
    exact h.dequeued hquota hdeq (h.turned.1 ▸ haid) (hd rfl)
  | dealEnq accs => exact h.congr rfl (MaRing.objsAt_congr rfl)
  | dealDeq accs => exact absurd rfl hd
  | other op bursts _ hop =>
    rw [polls_other hop]
    exact h

theorem Acts.kept (hact : Acts nQue p q x op x' bursts) (hd : Drains p q bound op) :
    ∀ b ∈ bursts, b.on true p = false := by
  cases hact with
  | enqueue => exact absurd rfl hd
  | dequeue aid nb idx _ _ => simp [Burst.on]
  | dealEnq accs => exact nofun
  | dealDeq accs => exact nofun
  | other op bursts hother _ => exact fun b hb => (hother b hb).1

theorem swept_of_run {ops : List Op} (hque : 0 < nQue) (hquota : 0 < quota) (hinv : Inv nQue p q tx rx s)
    (hrun : Runs step (Polling p q nQue bound) s ops t) (h : (ring s.nfvi tx).Swept quota nAcc bound start done) :
    (ring t.nfvi tx).Swept quota nAcc bound start fun a => done a + (polls q ops).count a := by
  induction hrun generalizing done with
  | done s => exact h
  | @next s u t op ops hs hrule _ ih =>
    obtain ⟨u', bursts, hstep⟩ := hinv.ends.step hque hrule.1
    have hu := hs.symm.trans hstep.step
    cases hu
    have hrest := ih (hinv.step hque hrule.1 hs) (hstep.there.swept hquota hrule.2 h)
    convert hrest using 2
    rw [polls_cons, List.count_append, Nat.add_assoc]

/-- Nothing more is sent, and what was recorded stays. -/
theorem kept_of_run {ops : List Op} (hque : 0 < nQue) (hinv : Inv nQue p q tx rx s)
    (hrun : Runs step (Polling p q nQue bound) s ops t) :
    Inv nQue p q tx rx t ∧ ∃ new, t.bursts = s.bursts ++ new ∧ ∀ b ∈ new, b.on true p = false := by
  refine hrun.invariant (I := fun u => Inv nQue p q tx rx u ∧ ∃ new, u.bursts = s.bursts ++ new ∧
    ∀ b ∈ new, b.on true p = false) ⟨hinv, [], (List.append_nil _).symm, nofun⟩ ?_
  rintro u op v ⟨hu, new, hlog, hnew⟩ hrule hs
  refine ⟨hu.step hque hrule.1 hs, ?_⟩
  obtain ⟨v', bursts, hstep⟩ := hu.ends.step hque hrule.1
  have hv := hs.symm.trans hstep.step
  cases hv
  refine ⟨new ++ bursts, by rw [hstep.log, hlog, List.append_assoc], fun b hb => ?_⟩
  exact (List.mem_append.mp hb).elim (hnew b) (hstep.there.kept hrule.2 b)

/-- Polled once round by every access id, `q` gets everything that was stored. -/
theorem drained_of_run {ops : List Op} (hque : 0 < nQue) (hinv : Inv nQue p q tx rx s)
    (hpos : 0 < numRxAid s.nfvi q)
    (hrun : Runs step (Polling p q nQue (ring s.nfvi tx).stored.length) s ops t)
    (hround : ∀ aid < numRxAid s.nfvi q, nQue / numRxAid s.nfvi q ≤ (polls q ops).count aid) :
    ∃ got, returned t q = returned s q ++ got ∧ got.Perm (ring s.nfvi tx).stored := by
  rw [hinv.ends.receiver.numRxAid] at hpos hround
  obtain ⟨hdealt, start, hturned⟩ := hinv.ends.there.deq
  have hdvd := hdealt.resolve_left (List.ne_nil_of_length_pos hpos)
  have hquota : 0 < nQue / (ring s.nfvi tx).deqAccessors.length :=
    Nat.div_pos (Nat.le_of_dvd hque hdvd) hpos
  have hstart : (ring s.nfvi tx).Swept (nQue / (ring s.nfvi tx).deqAccessors.length)
      (ring s.nfvi tx).deqAccessors.length (ring s.nfvi tx).stored.length start fun _ => 0 :=
    ⟨hturned, fun _ _ _ hj => absurd hj (Nat.not_lt_zero _), MaRing.length_objsAt_le _⟩
  have hswept := swept_of_run hque hquota hinv hrun hstart
  obtain ⟨hinv', new, hlog, hnew⟩ := kept_of_run hque hinv hrun
  have hempty : (ring t.nfvi tx).stored = [] := by
    apply hswept.stored_nil
    · rw [hinv'.ends.there.length]
      exact (Nat.mul_div_cancel' hdvd).symm
    · intro aid haid
      exact (hround aid haid).trans (Nat.le_add_left _ _)
  have hbefore := (hinv.there.conserved hinv.ends.there.length hinv.ends.idx_lt).mbufs
  have hafter := (hinv'.there.conserved hinv'.ends.there.length hinv'.ends.idx_lt).mbufs
  have hsame : accepted t p = accepted s p := by
    rw [accepted, moved, hlog, filter_append_other hnew]
    rfl
  have hgot : returned t q = returned s q ++ moved new false q := by
    rw [returned, moved, hlog, List.filter_append, List.flatMap_append]
    rfl
  rw [hsame, hempty, List.append_nil, hgot] at hafter
  exact ⟨moved new false q, hgot, (List.perm_append_left_iff _).mp (hafter.symm.trans hbefore)⟩

end Runs

/-- What a panel at `a` between ports `l` and `r` is for. -/
structure Carries (nQue l r a : Nat) (s : Traffic) : Prop where
  enabled : ∀ op, OnEnds l r nQue s op → ∃ t, step s op = some t
  to_right : Conserved s l r (ring s.nfvi (.leftEnq a))
  to_left : Conserved s r l (ring s.nfvi (.rightEnq a))
  no_return_left : ∀ m ∈ accepted s l, m ∉ accepted s r → m ∉ returned s l
  no_return_right : ∀ m ∈ accepted s r, m ∉ accepted s l → m ∉ returned s r
  drains : ∀ ops t, 0 < numRxAid s.nfvi r →
    Runs step (Polling l r nQue (ring s.nfvi (.leftEnq a)).stored.length) s ops t →
    (∀ aid < numRxAid s.nfvi r, nQue / numRxAid s.nfvi r ≤ (polls r ops).count aid) →
    ∃ got, returned t r = returned s r ++ got ∧ got.Perm (ring s.nfvi (.leftEnq a)).stored

theorem Conserved.no_return {s : Traffic} {p q : Nat} {x : MaRing Mbuf} (h : Conserved s q p x) :
    ∀ m ∈ accepted s p, m ∉ accepted s q → m ∉ returned s p := by
  intro m _ hnot hback
  have hcount := h.sent m
  rw [List.count_eq_zero_of_not_mem hnot] at hcount
  exact absurd (List.count_pos_iff.mpr hback) (Nat.not_lt_of_le hcount)

/-- **A panel loses nothing, doubles nothing and strands nothing**, whatever the accessors
of its four sides are and however often they are configured anew. -/
theorem carries_of_run {name : String} {r l nQue : Nat} {alloc : Nat → Nat → Bool} {mem : Nat → Nat × Nat}
    {n n' : Nfvi} {ops : List Op} {s : Traffic} (hnew : newPatchPanel name r l alloc mem n = .ret () n')
    (hne : l ≠ r) (hque : 1 ≤ nQue) (hl : (n.port l).nTxq = nQue) (hr : (n.port r).nTxq = nQue)
    (h : Runs step (OnEnds l r nQue) ⟨n', []⟩ ops s) : Carries nQue l r n.next s := by
  have hinv : Inv nQue l r (.leftEnq n.next) (.rightEnq n.next) s :=
    h.invariant (inv_init hnew hne hl hr) fun s op t hinv hrule hs => hinv.step hque hrule hs
  have hto := hinv.there.conserved hinv.ends.there.length hinv.ends.idx_lt
  have hfrom := hinv.back.conserved hinv.ends.back.length hinv.ends.idx_lt
  refine ⟨fun op hop => ?_, hto, hfrom, hfrom.no_return, hto.no_return,
    fun ops t hpos hrun hround => drained_of_run hque hinv hpos hrun hround⟩
  obtain ⟨t, bursts, hstep⟩ := hinv.ends.step hque hop
  exact ⟨t, hstep.step⟩

/-- Two ports with eight queues each. -/
def twoPorts : Nfvi :=
  {nSocket := 1, catalog := [], ports := [0, 1], next := 2,
   port := fun _ => {name := "p", nRxq := 8, nTxq := 8, dev := .virt none none}}

/-- Eight accessors send to two; with mbufs in the rings the two become four. -/
def panelRun : List Op :=
  List.replicate 8 (.requestTxAccess 0) ++
    [.requestRxAccess 0, .configAcc 0, .requestRxAccess 1, .requestRxAccess 1, .requestTxAccess 1, .configAcc 1,
      .tx 0 0 [10, 11], .tx 0 7 [12], .tx 0 3 [13, 14], .rx 1 0 1, .tx 1 0 [20], .rx 0 0 32,
      .requestRxAccess 1, .requestRxAccess 1, .configAcc 1]

theorem carries_of_panelRun : ∃ n' s, newPatchPanel "x" 1 0 (fun _ _ => true) (fun _ => (0, 0)) twoPorts = .ret () n' ∧
    exec step ⟨n', []⟩ panelRun = some s ∧ accepted s 0 = [10, 11, 12, 13, 14] ∧ returned s 1 = [10] ∧
      returned s 0 = [20] ∧ numRxAid s.nfvi 1 = 4 ∧ Carries 8 0 1 2 s := by
  obtain ⟨⟨_, n'⟩, hnew, hrun⟩ := Option.bind_eq_some_iff.mp (show
    (newPatchPanel "x" 1 0 (fun _ _ => true) (fun _ => (0, 0)) twoPorts).ret?.bind (fun r =>
      (exec step ⟨r.2, []⟩ panelRun).map fun s => (obeys step (OnEnds 0 1 8) ⟨r.2, []⟩ panelRun,
        accepted s 0, returned s 1, returned s 0, numRxAid s.nfvi 1)) =
      some (true, [10, 11, 12, 13, 14], [10], [20], 4) by decide +kernel)
  obtain ⟨s, hs, heq⟩ := Option.map_eq_some_iff.mp hrun
  simp only [Prod.mk.injEq] at heq
  obtain ⟨hobeys, haccepted, hreturned, hback, hnum⟩ := heq
  have hbuilt := Outcome.eq_ret_of_ret? hnew
  exact ⟨n', s, hbuilt, hs, haccepted, hreturned, hback, hnum,
    carries_of_run hbuilt (by decide) (by decide) rfl rfl (Runs.of_obeys hobeys hs)⟩

end Panel

end Susanow
