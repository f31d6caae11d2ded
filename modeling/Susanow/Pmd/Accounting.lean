import Susanow.Pmd.Pipe

/-! Counting the bytes of a burst.

`eth_ring_tx` puts its mbufs in the ring and then reads, one after the other, how long they
are. From the ring they are the peer's: while the loop is under way the peer may receive them,
free them, and have them back from the pool for other packets. Here the call is taken apart, an
accounting step for each mbuf, and what the two sides do with mbufs comes between. -/
namespace Susanow
namespace Pipe

/-- Who has an mbuf. -/
inductive Owner
  | sender
  | ring
  | peer
  | pool
  deriving DecidableEq, Repr

/-- A queue of the sender, the ring behind it and the queue of the peer it leads to. -/
structure Handover where
  ring : RteRing Nat
  mbufs : Nat → Mbuf
  owner : Nat → Owner
  txq : RingQueue
  rxq : RingQueue
  -- what the loop of the call under way has not counted yet
  pending : List Nat := []
  -- the lengths at the hand-over, over all mbufs that were accepted
  handed : BitVec 64 := 0
  -- whether an mbuf was freed after it was handed over, and whether the loop has read such a one
  freed : Nat → Bool := fun _ => false
  staleRead : Bool := false

inductive Act
  | enqueue (bufs : List Nat)
  | account
  | rx (nbBufs : Nat)
  | free (m : Nat)
  | alloc (o : Owner) (m : Nat) (pktLen : BitVec 32)
  | fill (m : Nat) (pktLen : BitVec 32)
  deriving DecidableEq, Repr

/-! ### Bytes -/

theorem foldl_pktLen (mem : Nat → Mbuf) (bufs : List Nat) (b : BitVec 64) :
    bufs.foldl (fun bytes m => bytes + (mem m).pktLen.setWidth 64) b = b + pktBytes mem bufs := by
  induction bufs generalizing b with
  | nil => exact (BitVec.add_zero b).symm
  | cons m bufs ih =>
    have hz (x : BitVec 64) : 0 + x = x := BitVec.zero_add x
    rw [pktBytes, List.foldl_cons, List.foldl_cons, ih, ih, hz, BitVec.add_assoc]

theorem pktBytes_cons (mem : Nat → Mbuf) (m : Nat) (bufs : List Nat) :
    pktBytes mem (m :: bufs) = (mem m).pktLen.setWidth 64 + pktBytes mem bufs := by
  rw [pktBytes, List.foldl_cons, foldl_pktLen]
  exact congrArg (· + pktBytes mem bufs) (BitVec.zero_add _)

theorem pktBytes_congr {mem mem' : Nat → Mbuf} {bufs : List Nat}
    (h : ∀ m ∈ bufs, (mem' m).pktLen = (mem m).pktLen) : pktBytes mem' bufs = pktBytes mem bufs := by
  induction bufs with
  | nil => rfl
  | cons m bufs ih =>
    rw [pktBytes_cons, pktBytes_cons, h m List.mem_cons_self, ih fun m' hm' => h m' (List.mem_cons_of_mem m hm')]

namespace Handover
open Function (update)

/-- Queues that have counted nothing, over a ring in any state. -/
def init (ring : RteRing Nat) (mbufs : Nat → Mbuf) (owner : Nat → Owner) : Handover :=
  {ring := ring, mbufs := mbufs, owner := owner, txq := {rng := ring.name}, rxq := {rng := ring.name}}

/-- In the hands of one of the two. -/
def held (s : Handover) (m : Nat) : Prop := s.owner m = .sender ∨ s.owner m = .peer

instance (s : Handover) (m : Nat) : Decidable (s.held m) := inferInstanceAs (Decidable (_ ∨ _))

/-- The call up to its loop: the burst is in the ring and the packets are counted. -/
def enqueue (s : Handover) (bufs : List Nat) : Handover :=
  let nbTx := (s.ring.enqueueBurst bufs).1
  {s with
    ring := (s.ring.enqueueBurst bufs).2
    owner := fun m => if m ∈ bufs.take nbTx then .ring else s.owner m
    txq := {s.txq with
      txPkts := s.txq.txPkts + BitVec.ofNat 64 nbTx
      errPkts := s.txq.errPkts + BitVec.ofNat 64 (bufs.length - nbTx)}
    pending := bufs.take nbTx
    handed := s.handed + pktBytes s.mbufs (bufs.take nbTx)
    freed := fun m => if m ∈ bufs.take nbTx then false else s.freed m}

/-- One turn of the loop. -/
def account (s : Handover) (m : Nat) (rest : List Nat) : Handover :=
  {s with
    txq := {s.txq with txBytes := s.txq.txBytes + (s.mbufs m).pktLen.setWidth 64}
    pending := rest
    staleRead := s.staleRead || s.freed m}

/-- `eth_ring_rx` of the peer, which owns what it reads and writes. -/
def rx (s : Handover) (nbBufs : Nat) : Handover :=
  let bufs := (s.ring.dequeueBurst nbBufs).1
  {s with
    ring := (s.ring.dequeueBurst nbBufs).2
    mbufs := fun m => if m ∈ bufs then {s.mbufs m with port := s.rxq.ifIndex} else s.mbufs m
    owner := fun m => if m ∈ bufs then .peer else s.owner m
    rxq := s.rxq.received s.mbufs bufs}

def setLen (s : Handover) (m : Nat) (pktLen : BitVec 32) : Nat → Mbuf :=
  update s.mbufs m {s.mbufs m with pktLen := pktLen}

def step (s : Handover) : Act → Option Handover
  | .enqueue bufs =>
    if s.pending = [] ∧ bufs.length < 65536 ∧ ∀ m ∈ bufs, s.owner m = .sender then some (s.enqueue bufs) else none
  | .account =>
    match s.pending with
    | [] => none
    | m :: rest => some (s.account m rest)
  | .rx nbBufs => if nbBufs < 65536 then some (s.rx nbBufs) else none
  | .free m =>
    if s.held m then some {s with owner := update s.owner m .pool, freed := update s.freed m true} else none
  | .alloc o m pktLen =>
    if s.owner m = .pool ∧ (o = .sender ∨ o = .peer) then
      some {s with owner := update s.owner m o, mbufs := s.setLen m pktLen}
    else none
  | .fill m pktLen => if s.held m then some {s with mbufs := s.setLen m pktLen} else none

/-- The peer frees none of the mbufs that are still to be counted, and leaves them their length. -/
def Spares (s : Handover) : Act → Prop
  | .free m => m ∉ s.pending
  | .fill m pktLen => m ∈ s.pending → pktLen = (s.mbufs m).pktLen
  | _ => True

/-- The bytes counted are those that were handed over, and nothing was read that was freed. -/
structure Counted (s : Handover) : Prop where
  bytes : s.pending = [] → s.txq.txBytes = s.handed
  fresh : s.staleRead = false

/-! ### A call on its own -/

/-- The loop, with nothing in between. -/
theorem exec_account (s : Handover) :
    exec step s (List.replicate s.pending.length .account) =
      some {s with
        txq := {s.txq with txBytes := s.txq.txBytes + pktBytes s.mbufs s.pending}
        pending := []
        staleRead := s.staleRead || s.pending.any s.freed} := by
  cases s with
  | mk ring mbufs owner txq rxq pending handed freed staleRead =>
    induction pending generalizing txq staleRead with
    | nil =>
      have hbytes : txq.txBytes + pktBytes mbufs [] = txq.txBytes := BitVec.add_zero _
      simp only [hbytes, List.any_nil, Bool.or_false, List.length_nil, List.replicate_zero, exec]
    | cons m rest ih =>
      refine (ih _ _).trans (congrArg some ?_)
      simp only [pktBytes_cons, BitVec.add_assoc, List.any_cons, Bool.or_assoc]

/-- A call that nothing comes between counts as `eth_ring_tx` does. -/
theorem exec_enqueue {s : Handover} {bufs : List Nat} (hdone : s.pending = []) (hlen : bufs.length < 65536)
    (howned : ∀ m ∈ bufs, s.owner m = .sender) :
    (exec step s (.enqueue bufs :: List.replicate (s.ring.enqueueBurst bufs).1 .account)).map txq =
      some (s.txq.transmitted s.mbufs bufs (s.ring.enqueueBurst bufs).1) := by
  have hle : (s.ring.enqueueBurst bufs).1 ≤ bufs.length := Nat.min_le_left _ _
  have hpending : (s.enqueue bufs).pending.length = (s.ring.enqueueBurst bufs).1 := by
    show (bufs.take _).length = _
    rw [List.length_take, Nat.min_eq_left hle]
  have hstep : s.step (.enqueue bufs) = some (s.enqueue bufs) := if_pos ⟨hdone, hlen, howned⟩
  have hloop := exec_account (s.enqueue bufs)
  rw [hpending] at hloop
  rw [exec, hstep, Option.bind_some, hloop]
  rfl

/-! ### Steps -/

/-- What is counted and what is still to be counted make up what was handed over. The mbufs to be
counted are in the ring or with the peer, who has not freed them. -/
structure Inv (s : Handover) : Prop where
  bytes : s.txq.txBytes + pktBytes s.mbufs s.pending = s.handed
  owned : ∀ m ∈ s.pending, s.owner m = .ring ∨ s.owner m = .peer
  unfreed : ∀ m ∈ s.pending, s.freed m = false
  fresh : s.staleRead = false

theorem inv_init (ring : RteRing Nat) (mbufs : Nat → Mbuf) (owner : Nat → Owner) : Inv (init ring mbufs owner) :=
  ⟨rfl, fun _ h => absurd h List.not_mem_nil, fun _ h => absurd h List.not_mem_nil, rfl⟩

theorem Inv.counted {s : Handover} (h : s.Inv) : s.Counted := by
  refine ⟨fun hdone => ?_, h.fresh⟩
  have hbytes := h.bytes
  rw [hdone] at hbytes
  exact (BitVec.add_zero _).symm.trans hbytes

section Steps
variable {s : Handover}

theorem Inv.enqueue (h : s.Inv) (hdone : s.pending = []) (bufs : List Nat) : (s.enqueue bufs).Inv := by
  refine ⟨?_, fun m hm => .inl (if_pos hm), fun m hm => if_pos hm, h.fresh⟩
  show s.txq.txBytes + pktBytes s.mbufs (bufs.take (s.ring.enqueueBurst bufs).1) = s.handed + _
  rw [h.counted.bytes hdone]

theorem Inv.account (h : s.Inv) {m : Nat} {rest : List Nat} (hp : s.pending = m :: rest) : (s.account m rest).Inv := by
  have hin {m' : Nat} (hm' : m' ∈ rest) : m' ∈ s.pending := by
    rw [hp]
    exact List.mem_cons_of_mem m hm'
  refine ⟨?_, fun m' hm' => h.owned m' (hin hm'), fun m' hm' => h.unfreed m' (hin hm'), ?_⟩
  · show s.txq.txBytes + (s.mbufs m).pktLen.setWidth 64 + pktBytes s.mbufs rest = s.handed
    rw [← h.bytes, hp, pktBytes_cons, BitVec.add_assoc]
  · show (s.staleRead || s.freed m) = false
    rw [h.fresh, h.unfreed m (by rw [hp]; exact List.mem_cons_self)]
    rfl

/-- The length of a packet is not what `eth_ring_rx` writes. -/
theorem rx_pktLen (s : Handover) (nbBufs m : Nat) : ((s.rx nbBufs).mbufs m).pktLen = (s.mbufs m).pktLen := by
  show (if m ∈ _ then _ else _ : Mbuf).pktLen = _
  split_ifs <;> rfl

theorem Inv.rx (h : s.Inv) (nbBufs : Nat) : (s.rx nbBufs).Inv := by
  refine ⟨?_, fun m hm => ?_, h.unfreed, h.fresh⟩
  · show s.txq.txBytes + pktBytes (s.rx nbBufs).mbufs s.pending = s.handed
    rw [pktBytes_congr fun m _ => s.rx_pktLen nbBufs m, h.bytes]
  · show (if m ∈ _ then _ else _ : Owner) = _ ∨ (if m ∈ _ then _ else _ : Owner) = _
    split_ifs
    · exact .inr rfl
    · exact h.owned m hm

theorem Inv.free (h : s.Inv) {m : Nat} (hm : m ∉ s.pending) :
    Inv {s with owner := update s.owner m .pool, freed := update s.freed m true} := by
  have hne {m' : Nat} (hm' : m' ∈ s.pending) : m' ≠ m := by
    rintro rfl
    exact hm hm'
  refine ⟨h.bytes, fun m' hm' => ?_, fun m' hm' => ?_, h.fresh⟩
  · show update s.owner m .pool m' = _ ∨ update s.owner m .pool m' = _
    rw [Function.update_of_ne (hne hm')]
    exact h.owned m' hm'
  · show update s.freed m true m' = false
    rw [Function.update_of_ne (hne hm')]
    exact h.unfreed m' hm'

/-- Another length for an mbuf that is not to be counted, or its own. -/
theorem pktBytes_setLen {m : Nat} {pktLen : BitVec 32} (h : m ∈ s.pending → pktLen = (s.mbufs m).pktLen) :
    pktBytes (s.setLen m pktLen) s.pending = pktBytes s.mbufs s.pending := by
  refine pktBytes_congr fun m' hm' => ?_
  rw [setLen]
  by_cases heq : m' = m
  · subst heq
    rw [Function.update_self]
    exact h hm'
  · rw [Function.update_of_ne heq]

theorem Inv.alloc (h : s.Inv) {o : Owner} {m : Nat} {pktLen : BitVec 32} (hpool : s.owner m = .pool) :
    Inv {s with owner := update s.owner m o, mbufs := s.setLen m pktLen} := by
  have hm : m ∉ s.pending := fun hm => by
    have howned := h.owned m hm
    rw [hpool] at howned
    exact howned.elim nofun nofun
  refine ⟨?_, fun m' hm' => ?_, h.unfreed, h.fresh⟩
  · show s.txq.txBytes + pktBytes (s.setLen m pktLen) s.pending = s.handed
    rw [pktBytes_setLen fun hm' => absurd hm' hm, h.bytes]
  · have hne : m' ≠ m := by
      rintro rfl
      exact hm hm'
    show update s.owner m o m' = _ ∨ update s.owner m o m' = _
    rw [Function.update_of_ne hne]
    exact h.owned m' hm'

theorem Inv.fill (h : s.Inv) {m : Nat} {pktLen : BitVec 32} (hm : m ∈ s.pending → pktLen = (s.mbufs m).pktLen) :
    Inv {s with mbufs := s.setLen m pktLen} := by
  refine ⟨?_, h.owned, h.unfreed, h.fresh⟩
  show s.txq.txBytes + pktBytes (s.setLen m pktLen) s.pending = s.handed
  rw [pktBytes_setLen hm, h.bytes]

theorem Inv.step (h : s.Inv) {a : Act} {s' : Handover} (hr : s.Spares a) (hs : s.step a = some s') : s'.Inv := by
  cases a with
  | enqueue bufs =>
    obtain ⟨⟨hdone, -, -⟩, heq⟩ := Option.ite_none_right_eq_some.mp hs
    cases heq
    exact h.enqueue hdone bufs
  | account =>
    rw [Handover.step] at hs
    cases hp : s.pending with
    | nil =>
      simp only [hp] at hs
      cases hs
    | cons m rest =>
      simp only [hp] at hs
      cases hs
      exact h.account hp
  | rx nbBufs =>
    obtain ⟨-, heq⟩ := Option.ite_none_right_eq_some.mp hs
    cases heq
    exact h.rx nbBufs
  | free m =>
    obtain ⟨-, heq⟩ := Option.ite_none_right_eq_some.mp hs
    cases heq
    exact h.free hr
  | alloc o m pktLen =>
    obtain ⟨⟨hpool, -⟩, heq⟩ := Option.ite_none_right_eq_some.mp hs
    cases heq
    exact h.alloc hpool
  | fill m pktLen =>
    obtain ⟨-, heq⟩ := Option.ite_none_right_eq_some.mp hs
    cases heq
    exact h.fill hr

end Steps

/-- **The bytes of a queue are those of the packets as they were sent**, and the sender reads no
mbuf that the peer has freed, as long as the peer spares the mbufs that are still to be counted. -/
theorem counted_of_run {ring : RteRing Nat} {mbufs : Nat → Mbuf} {owner : Nat → Owner} {acts : List Act}
    {s : Handover} (h : Runs step Spares (init ring mbufs owner) acts s) : s.Counted :=
  (h.invariant (inv_init ring mbufs owner) fun _ _ _ hinv hr hs => hinv.step hr hs).counted

instance (s : Handover) : (a : Act) → Decidable (s.Spares a)
  | .enqueue _ => isTrue trivial
  | .account => isTrue trivial
  | .rx _ => isTrue trivial
  | .free m => inferInstanceAs (Decidable (m ∉ s.pending))
  | .alloc _ _ _ => isTrue trivial
  | .fill m pktLen => inferInstanceAs (Decidable (m ∈ s.pending → pktLen = (s.mbufs m).pktLen))

/-- An empty ring, and mbufs of the sender with 60 bytes each. -/
def idle : Handover := init {name := "ETH_TX0_net_pipe0", size := 1024} (fun _ => ⟨60, 0⟩) fun _ => .sender

/-- The first mbuf goes round while the second is to be counted. -/
def sparingRun : List Act :=
  [.fill 1 100, .enqueue [0, 1], .rx 1, .account, .free 0, .alloc .peer 0 1500, .rx 32, .account, .fill 1 900]

theorem counted_of_sparingRun : ∃ s, exec step idle sparingRun = some s ∧ s.pending = [] ∧ s.txq.txBytes = 160 ∧
    s.Counted := by
  obtain ⟨s, hs, heq⟩ := Option.map_eq_some_iff.mp
    (show (exec step idle sparingRun).map (fun s => (s.pending, s.txq.txBytes)) = some ([], 160) by decide +kernel)
  obtain ⟨hdone, hbytes⟩ := Prod.mk.inj heq
  exact ⟨s, hs, hdone, hbytes, counted_of_run (Runs.of_obeys (by decide +kernel) hs)⟩

/-- A packet of 60 bytes is counted as the 1500 that its mbuf has for the peer's next packet. -/
theorem not_counted : ∃ s, Runs step Always idle
      [.enqueue [0], .rx 32, .free 0, .alloc .peer 0 1500, .account] s ∧
    s.pending = [] ∧ s.txq.txBytes = 1500 ∧ s.handed = 60 ∧ s.staleRead = true ∧ ¬s.Counted := by
  obtain ⟨s, hs, heq⟩ := Option.map_eq_some_iff.mp
    (show (exec step idle [.enqueue [0], .rx 32, .free 0, .alloc .peer 0 1500, .account]).map
        (fun s => ((s.pending, s.txq.txBytes), s.handed, s.staleRead)) = some (([], 1500), 60, true) by
      decide +kernel)
  simp only [Prod.mk.injEq] at heq
  obtain ⟨⟨hdone, hbytes⟩, hhanded, hstale⟩ := heq
  refine ⟨s, Runs.of_exec hs, hdone, hbytes, hhanded, hstale, fun h => ?_⟩
  rw [h.fresh] at hstale
  cases hstale

end Handover

end Pipe

end Susanow
