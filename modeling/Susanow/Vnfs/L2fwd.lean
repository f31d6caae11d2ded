import Susanow.Vnfs.Polling

/-! The L2 forwarding loops.

`l2fwd` and `l2fwd_delay` poll every port of the VNF in turn, and differ in what they wait
between a receive burst and the transmit burst; a block of `l2fwd_numa` polls one port.
Each burst is offered to the opposite port, and what was not accepted is freed in bulk. -/
namespace Susanow
open Wire

namespace L2fwd
variable {α : Type}

def sendOrFree (oportId txaid : Nat) (mbufs : List Nat) : Proc (Wire α) Unit := do
  let nSend ← txBurst oportId txaid mbufs
  if nSend < mbufs.length then
    pktmbufFreeBulk ((mbufs.drop nSend).take (mbufs.length - nSend))
  else pure ()

/-- What the loops that poll both ports do with a burst. -/
def treat (pid txaid : Nat) (mbufs : List Nat) : Proc (Wire α) Unit := sendOrFree (pid ^^^ 1) txaid mbufs

/-- `ssn_vnf_l2fwd_block::deploy_impl` -/
def l2fwdDeployImpl (b : Block) (nPorts lcoreId rounds : Nat) : Proc (Wire α) Unit :=
  pollEveryPort treat b nPorts lcoreId rounds

/-- `ssn_vnf_l2fwd_delay_block::deploy_impl`; the delay counts in a local variable. -/
def l2fwdDelayDeployImpl (b : Block) (nPorts lcoreId rounds : Nat) : Proc (Wire α) Unit :=
  pollEveryPort treat b nPorts lcoreId rounds

/-- The loop's body of a block that polls port `portId` only: the tx access id is looked up
after a burst. -/
def forwardOwn (b : Block) (vlid portId : Nat) : Proc (Wire α) Unit := do
  let rxaid ← orThrow "vector::at" (b.getLcorePortRxaid vlid portId)
  let mbufs ← rxBurst portId rxaid 32
  if mbufs.length = 0 then pure ()
  else
    let txaid ← orThrow "vector::at" (b.getLcorePortTxaid vlid (portId ^^^ 1))
    sendOrFree (portId ^^^ 1) txaid mbufs

/-- `ssn_vnf_l2fwd_block_port::deploy_impl` -/
def l2fwdPortDeployImpl (b : Block) (portId lcoreId rounds : Nat) : Proc (Wire α) Unit := do
  let vlid ← orThrow "vnf_impl::get_vlcore_id" (b.getVlcoreId lcoreId)
  Proc.forRange (fun _ => forwardOwn b vlid portId) rounds

/-! ### What a loop leaves in the log -/

/-- Every burst received through the vcore's access id for its port is offered to the
opposite port through the vcore's access id for that one: as many of it as are accepted go
out, and the rest is freed. Of the `outcomes`, one for each burst that was offered, those
after the `log` are `left`. -/
inductive Forwarded (vc : Vcore) (outcomes : List Nat) : List Act → List Nat → Prop
  | nil : Forwarded vc outcomes [] outcomes
  | empty {log : List Act} {left : List Nat} {pid rxaid : Nat} : Forwarded vc outcomes log left →
      vc.portRxAcc[pid]? = some rxaid → Forwarded vc outcomes (log ++ [.rx pid rxaid []]) left
  | burst {log : List Act} {left : List Nat} {pid rxaid txaid n : Nat} {mbufs : List Nat} :
      Forwarded vc outcomes log left → vc.portRxAcc[pid]? = some rxaid →
      vc.portTxAcc[pid ^^^ 1]? = some txaid → mbufs ≠ [] → n = min (left.headD 0) mbufs.length →
      Forwarded vc outcomes (log ++ .rx pid rxaid mbufs :: .tx (pid ^^^ 1) txaid (mbufs.take n) ::
        (mbufs.drop n).map .free) left.tail

/-- What was received on a port was transmitted on the opposite one, or freed. -/
theorem Forwarded.directed {vc : Vcore} {outcomes left : List Nat} {log : List Act}
    (h : Forwarded vc outcomes log left) {pid m : Nat} (hm : m ∈ log.flatMap (Act.receivedOn pid)) :
    m ∈ log.flatMap (Act.sentOn (pid ^^^ 1)) ∨ m ∈ log.flatMap Act.freed := by
  induction h with
  | nil => cases hm
  | empty h hrx ih =>
    simp only [List.flatMap_append, List.mem_append] at hm ⊢
    rcases hm with hm | hm
    · exact (ih hm).imp .inl .inl
    · simp [Act.receivedOn] at hm
  | @burst log left p rxaid txaid n mbufs h hrx htx hne hn ih =>
    simp only [List.flatMap_append, List.mem_append] at hm ⊢
    rcases hm with hm | hm
    · exact (ih hm).imp .inl .inl
    · have hfrees (ms : List Nat) : (ms.map Act.free).flatMap (Act.receivedOn pid) = [] := by
        simp [List.flatMap_map, Act.receivedOn]
      simp only [List.flatMap_cons, Act.receivedOn, hfrees, List.append_nil] at hm
      split at hm
      · next hp =>
        subst hp
        rw [← List.take_append_drop n mbufs, List.mem_append] at hm
        rcases hm with hm | hm
        · exact .inl (.inr (by simp [Act.sentOn, hm]))
        · refine .inr (.inr (List.mem_flatMap.mpr ⟨.free m, ?_, List.mem_singleton_self m⟩))
          exact List.mem_cons_of_mem _ (List.mem_cons_of_mem _ (List.mem_map.mpr ⟨m, hm, rfl⟩))
      · cases hm

/-! ### Runs of the loops -/

theorem sendOrFree_run (oportId txaid : Nat) {mbufs : List Nat} {w : Wire α} (hheld : w.held = mbufs) :
    ∃ w', sendOrFree oportId txaid mbufs w = .ret () w' ∧ w'.held = [] ∧
      w'.log = w.log ++ .tx oportId txaid (mbufs.take (w.accepted mbufs.length)) ::
        (mbufs.drop (w.accepted mbufs.length)).map .free ∧
      w'.outcomes = w.outcomes.tail ∧ w'.arrivals = w.arrivals ∧ w'.mbufs = w.mbufs := by
  have hrun := txBurst_owned oportId txaid mbufs (w := w) (by rw [hheld])
  rw [hheld, diff_take] at hrun
  rw [sendOrFree, Proc.bind_ret hrun]
  have hle := w.accepted_le mbufs.length
  split_ifs with hlt
  · have htake : (mbufs.drop (w.accepted mbufs.length)).take (mbufs.length - w.accepted mbufs.length) =
        mbufs.drop (w.accepted mbufs.length) := List.take_of_length_le (by simp)
    rw [htake, pktmbufFreeBulk_all (w := {w with
      outcomes := w.outcomes.tail, held := mbufs.drop (w.accepted mbufs.length),
      log := w.log ++ [.tx oportId txaid (mbufs.take (w.accepted mbufs.length))]}) rfl]
    exact ⟨_, rfl, rfl, by simp, rfl, rfl, rfl⟩
  · have hdrop : mbufs.drop (w.accepted mbufs.length) = [] := List.drop_of_length_le (by omega)
    exact ⟨_, rfl, hdrop, by simp [hdrop], rfl, rfl, rfl⟩

/-- Between two bursts: nothing is owned, `k` bursts have been taken in and forwarded. -/
structure Between (vc : Vcore) (arrivals : List (List α)) (outcomes : List Nat) (k : Nat) (w : Wire α) : Prop where
  held : w.held = []
  took : w.Took 32 arrivals k
  forwarded : Forwarded vc outcomes w.log w.outcomes

section Loops
variable {b : Block} {vc : Vcore} {i : Nat} {arrivals : List (List α)} {outcomes : List Nat}

/-- A burst, from its reception. -/
theorem burst_returns {pid rxaid txaid k : Nat} {w : Wire α} (hrx : vc.portRxAcc[pid]? = some rxaid)
    (htx : vc.portTxAcc[pid ^^^ 1]? = some txaid) (hw : Between vc arrivals outcomes k w)
    {next : List Nat → Proc (Wire α) Unit} (hnil : next [] = pure ())
    (hnext : ∀ mbufs, mbufs ≠ [] → next mbufs = sendOrFree (pid ^^^ 1) txaid mbufs) :
    Proc.Returns (rxBurst pid rxaid 32 >>= next) w fun _ => Between vc arrivals outcomes (k + 1) := by
  obtain ⟨mbufs, w₁, hrun, -, hheld₁, hlog₁, hleft₁, hmbufs₁, houtcomes₁⟩ := rxBurst_run pid rxaid 32 w
  rw [hw.held, List.nil_append] at hheld₁
  by_cases hempty : mbufs = []
  · subst hempty
    refine ⟨(), w₁, by rw [Proc.bind_ret hrun, hnil]; rfl, hheld₁, hw.took.next hleft₁ hmbufs₁, ?_⟩
    rw [hlog₁, houtcomes₁]
    exact hw.forwarded.empty hrx
  · obtain ⟨w₂, hsend, hheld₂, hlog₂, houtcomes₂, hleft₂, hmbufs₂⟩ :=
      sendOrFree_run (pid ^^^ 1) txaid hheld₁
    refine ⟨(), w₂, by rw [Proc.bind_ret hrun, hnext mbufs hempty, hsend], hheld₂,
      hw.took.next (hleft₂.trans hleft₁) (hmbufs₂.trans hmbufs₁), ?_⟩
    rw [hlog₂, hlog₁, houtcomes₂, houtcomes₁, List.append_assoc]
    exact hw.forwarded.burst hrx htx hempty (by rw [accepted, houtcomes₁])

theorem forwardOwn_returns (hvc : b.vcores[i]? = some vc) {pid rxaid txaid k : Nat} {w : Wire α}
    (hrx : vc.portRxAcc[pid]? = some rxaid) (htx : vc.portTxAcc[pid ^^^ 1]? = some txaid)
    (hw : Between vc arrivals outcomes k w) :
    Proc.Returns (forwardOwn b i pid) w fun _ => Between vc arrivals outcomes (k + 1) := by
  have hget : b.getLcorePortRxaid i pid = some rxaid := by simp [Block.getLcorePortRxaid, hvc, hrx]
  have hget' : b.getLcorePortTxaid i (pid ^^^ 1) = some txaid := by simp [Block.getLcorePortTxaid, hvc, htx]
  rw [forwardOwn, hget, hget']
  show Proc.Returns (rxBurst pid rxaid 32 >>= fun mbufs =>
    if mbufs.length = 0 then pure () else sendOrFree (pid ^^^ 1) txaid mbufs) w _
  refine burst_returns hrx htx hw rfl fun mbufs hne => ?_
  exact if_neg fun h => hne (List.length_eq_zero_iff.mp h)

variable {lcoreId : Nat} (hid : b.getVlcoreId lcoreId = some i) (hvc : b.vcores[i]? = some vc)
  (hrx : vc.portRxAcc.length = 2) (htx : vc.portTxAcc.length = 2)
include hid hvc hrx htx

theorem bothPorts_returns {w : Wire α} (hw : Between vc arrivals outcomes 0 w) (rounds : Nat) :
    Proc.Returns (pollEveryPort treat b 2 lcoreId rounds) w fun _ => Between vc arrivals outcomes (rounds * 2) :=
  pollEveryPort_returns hid hvc hrx htx (Between vc arrivals outcomes)
    (fun _ _ _ _ _ hrxaid htxaid hw => burst_returns hrxaid htxaid hw rfl fun _ hne =>
      if_neg fun h => hne (List.length_eq_zero_iff.mp h)) hw rounds

theorem l2fwdPort_returns {portId : Nat} (hport : portId < 2) {w : Wire α} (hw : Between vc arrivals outcomes 0 w)
    (rounds : Nat) :
    Proc.Returns (l2fwdPortDeployImpl b portId lcoreId rounds) w fun _ => Between vc arrivals outcomes rounds := by
  obtain ⟨rxaid, hrxaid, hopp⟩ := entry_of_lt_two hrx hport
  obtain ⟨txaid, htxaid, -⟩ := entry_of_lt_two htx hopp
  rw [l2fwdPortDeployImpl, hid]
  exact Proc.returns_forRange (fun k => Between vc arrivals outcomes k) hw
    fun k hk w hw => forwardOwn_returns hvc hrxaid htxaid hw

end Loops

/-! ### Ownership -/

section Balance
open Proc (Preserves within_bind within_pure within_ite within_throw within_forRange)

theorem preserves_sendOrFree (oportId txaid : Nat) (mbufs : List Nat) :
    Preserves Balanced (sendOrFree oportId txaid mbufs : Proc (Wire α) _) :=
  within_bind (preserves_txBurst _ _ _) fun _ => within_ite (preserves_pktmbufFreeBulk _) (within_pure _)

theorem preserves_l2fwdPort (b : Block) (portId lcoreId rounds : Nat) :
    Preserves Balanced (l2fwdPortDeployImpl b portId lcoreId rounds : Proc (Wire α) _) := by
  refine within_bind (preserves_orThrow _ _) fun i => within_forRange fun _ => ?_
  refine within_bind (preserves_orThrow _ _) fun rxaid => within_bind (preserves_rxBurst _ _ _) fun mbufs => ?_
  exact within_ite (within_pure _)
    (within_bind (preserves_orThrow _ _) fun txaid => preserves_sendOrFree _ _ _)

end Balance

/-- Every mbuf that came in was received, and has gone once, over the opposite port or back to
the pool, in bursts forwarded through the vcore's own access ids, of which as many went out as
were accepted. -/
structure Delivered (vc : Vcore) (outcomes : List Nat) (w : Wire α) : Prop where
  received : w.received = List.range w.mbufs.length
  once : ∀ m ∈ w.received, w.gone.count m = 1
  directed : ∀ pid, ∀ m ∈ w.receivedOn pid, m ∈ w.sentOn (pid ^^^ 1) ∨ m ∈ w.freed
  forwarded : Forwarded vc outcomes w.log w.outcomes

theorem delivered_of_between {vc : Vcore} {arrivals : List (List α)} {outcomes : List Nat} {k : Nat} {w : Wire α}
    (hw : Between vc arrivals outcomes k w) (hbal : w.Balanced) :
    Delivered vc outcomes w ∧ w.Took 32 arrivals k :=
  ⟨⟨hbal.numbers, fun _ hm => hbal.disposed_once hw.held hm, fun _ _ hm => hw.forwarded.directed hm, hw.forwarded⟩,
    hw.took⟩

/-- **The three loops deliver**: whatever arrives and however much of it is accepted, for any
number of rounds. -/
theorem loops_deliver (b : Block) {vc : Vcore} {lcoreId i : Nat} (hid : b.getVlcoreId lcoreId = some i)
    (hvc : b.vcores[i]? = some vc) (hrx : vc.portRxAcc.length = 2) (htx : vc.portTxAcc.length = 2)
    (arrivals : List (List α)) (outcomes : List Nat) (rounds : Nat) :
    Proc.Returns (l2fwdDeployImpl b 2 lcoreId rounds) ({arrivals := arrivals, outcomes := outcomes} : Wire α)
        (fun _ w => Delivered vc outcomes w ∧ w.Took 32 arrivals (rounds * 2)) ∧
      Proc.Returns (l2fwdDelayDeployImpl b 2 lcoreId rounds)
        ({arrivals := arrivals, outcomes := outcomes} : Wire α)
        (fun _ w => Delivered vc outcomes w ∧ w.Took 32 arrivals (rounds * 2)) ∧
      ∀ portId < 2, Proc.Returns (l2fwdPortDeployImpl b portId lcoreId rounds)
        ({arrivals := arrivals, outcomes := outcomes} : Wire α)
        (fun _ w => Delivered vc outcomes w ∧ w.Took 32 arrivals rounds) := by
  have hstart : Between vc arrivals outcomes 0 ({arrivals := arrivals, outcomes := outcomes} : Wire α) :=
    ⟨rfl, ⟨rfl, rfl⟩, .nil⟩
  have hbal := balanced_start arrivals outcomes
  have hevery : Proc.Returns (pollEveryPort treat b 2 lcoreId rounds) ({arrivals := arrivals, outcomes := outcomes} : Wire α)
      (fun _ w => Delivered vc outcomes w ∧ w.Took 32 arrivals (rounds * 2)) :=
    ((bothPorts_returns hid hvc hrx htx hstart rounds).preserves
      (preserves_pollEveryPort (fun _ _ _ => preserves_sendOrFree _ _ _) b 2 lcoreId rounds) hbal).weaken
        fun _ w ⟨hw, hbal⟩ => delivered_of_between hw hbal
  refine ⟨hevery, hevery, fun portId hport => ?_⟩
  exact ((l2fwdPort_returns hid hvc hrx htx hport hstart rounds).preserves
    (preserves_l2fwdPort b portId lcoreId rounds) hbal).weaken
      fun _ w ⟨hw, hbal⟩ => delivered_of_between hw hbal

/-- A block on lcores 2 and 3. -/
def twoCores : Block :=
  {cls := .l2fwd, vcores := [⟨2, [0, 0], [0, 0]⟩, ⟨3, [1, 1], [1, 1]⟩], tids := [2, 3], coremask := 0xc,
   socketAffinity := [0], affinity := 0}

theorem loops_deliver_twoCores :
    Proc.Returns (l2fwdDeployImpl twoCores 2 3 2)
      ({arrivals := [["p", "q", "r"], [], ["s"]], outcomes := [2, 0]} : Wire String)
      fun _ w => Delivered ⟨3, [1, 1], [1, 1]⟩ [2, 0] w ∧
        w.Took 32 [["p", "q", "r"], [], ["s"]] 4 := by
  have hid : twoCores.getVlcoreId 3 = some 1 := by decide
  have hvc : twoCores.vcores[1]? = some ⟨3, [1, 1], [1, 1]⟩ := rfl
  exact (loops_deliver twoCores hid hvc rfl rfl [["p", "q", "r"], [], ["s"]] [2, 0] 2).1

end L2fwd

end Susanow
