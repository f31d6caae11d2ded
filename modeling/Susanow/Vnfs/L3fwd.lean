import Susanow.Base.Runs
import Susanow.Vnfs.Polling

/-! The L3 forwarding loop.

Each packet of a burst is routed by its destination, gets new link addresses and is
offered alone to the port of its route. One that is not IPv4 is freed, and then goes the
same way. For each packet the loop reads a vector of lookup tables through a reference,
which is bound to a parameter of the block's constructor and so outlives what it refers
to (`dangles_of_run`): a worker that receives a packet has no defined run. -/
namespace Susanow
open Wire

namespace L3fwd

/-- What the loop reads and writes of a packet. -/
structure Packet where
  packetType : BitVec 32
  sAddr : List (BitVec 8)
  dAddr : List (BitVec 8)
  -- in network order
  srcAddr : BitVec 32
  dstAddr : BitVec 32
  deriving DecidableEq, Repr

def rteBeToCpu32 (x : BitVec 32) : BitVec 32 :=
  x.extractLsb' 0 8 ++ x.extractLsb' 8 8 ++ x.extractLsb' 16 8 ++ x.extractLsb' 24 8

/-- `IPv4` of four bytes -/
def ipv4 (a b c d : BitVec 8) : BitVec 32 := a ++ b ++ c ++ d

structure Ipv4L3fwdLpmRoute where
  ip : BitVec 32
  depth : Nat
  ifOut : Nat

def ipv4Routes : List Ipv4L3fwdLpmRoute :=
  [⟨ipv4 192 168 10 0, 24, 0⟩, ⟨ipv4 192 168 20 0, 24, 1⟩, ⟨ipv4 1 1 1 1, 32, 1⟩, ⟨ipv4 2 2 2 2, 32, 0⟩]

def mask (depth : Nat) : BitVec 32 :=
  (List.range depth).foldl (fun mask j => mask + (0x80000000 >>> j)) 0

/-- `portid` is a byte. The lookup table it is given is not used. -/
def lpmGetIpv4Dport (dstAddr : BitVec 32) (portid : Nat) : Nat :=
  match ipv4Routes.find? fun route => rteBeToCpu32 dstAddr &&& mask route.depth == route.ip &&& mask route.depth with
  | some route => route.ifOut
  | none => portid % 256

def dstPort (pid : Nat) (x : Packet) : Nat :=
  if lpmGetIpv4Dport x.dstAddr pid > 1 then pid else lpmGetIpv4Dport x.dstAddr pid

def rewriteHeader (x : Packet) : Packet :=
  {x with sAddr := [0, 1, 2, 3, 4, 5], dAddr := List.replicate 6 0xff}

/-- `lpm_struct[sockid]`, of the vector that the reference is bound to if there still is one. A table
is known by its address. -/
def lpmAt (lpmStruct : Option (List Nat)) (sockid : Nat) : Proc (Wire Packet) Nat :=
  match lpmStruct with
  | none => Proc.crash .danglingPointer
  | some tables =>
    match tables[sockid]? with
    | none => Proc.crash .outOfBounds
    | some table => pure table

/-- The inner loop's body for `mbufs[i]`; `isIpv4Hdr` is `RTE_ETH_IS_IPV4_HDR`. -/
def forwardAt (isIpv4Hdr : BitVec 32 → Bool) (lpmStruct : Option (List Nat)) (sockid pid txaid : Nat)
    (mbufs : List Nat) (i : Nat) : Proc (Wire Packet) Unit := do
  let m ← at? mbufs i
  let x ← mbufAt m
  (if !isIpv4Hdr x.packetType then pktmbufFree m else pure ())
  let _lookupStruct ← lpmAt lpmStruct sockid
  let ih ← mbufAt m
  modifyMbuf m rewriteHeader
  let nSend ← txBurst (dstPort pid ih) txaid [m]
  if nSend < 1 then pktmbufFree m else pure ()

/-- One pass of the inner loop. -/
def forwardBurst (isIpv4Hdr : BitVec 32 → Bool) (lpmStruct : Option (List Nat)) (sockid pid txaid : Nat)
    (mbufs : List Nat) : Proc (Wire Packet) Unit :=
  Proc.forRange (forwardAt isIpv4Hdr lpmStruct sockid pid txaid mbufs) mbufs.length

/-- `ssn_vnf_l3fwd_block::deploy_impl` -/
def deployImpl (isIpv4Hdr : BitVec 32 → Bool) (lpmStruct : Option (List Nat)) (sockid : Nat) (b : Block)
    (nPorts lcoreId rounds : Nat) : Proc (Wire Packet) Unit :=
  pollEveryPort (forwardBurst isIpv4Hdr lpmStruct sockid) b nPorts lcoreId rounds

/-! ### The reference -/

/-- The vectors of tables, by the numbers of their creations; there is none by the number of one
that has been destroyed. -/
structure Vectors where
  next : Nat
  vector : Nat → Option (List Nat)

namespace Vectors

def create (m : Vectors) (tables : List Nat) : Vectors :=
  {next := m.next + 1, vector := Function.update m.vector m.next (some tables)}

def destroy (m : Vectors) (v : Nat) : Vectors := {m with vector := Function.update m.vector v none}

end Vectors

/-- `ssn_vnf_l3fwd_block`, as far as it is more than a block: the vector its member refers to. -/
structure VnfL3fwdBlock where
  lpmStruct : Nat

/-- `ssn_vnf_l3fwd`: its own vector, and its blocks. -/
structure VnfL3fwd where
  lpmStruct : Nat
  blocks : List VnfL3fwdBlock

/-- Its constructor; `setup_lpm` gives a table for a socket, or throws. -/
def vnfL3fwd (setupLpm : Nat → Option Nat) (m : Vectors) : Option (VnfL3fwd × Vectors) := do
  let table₀ ← setupLpm 0
  let table₁ ← setupLpm 1
  let own := m.next
  let m := m.create [table₀, table₁]
  -- the block's constructor is given a copy, binds its member to that, and the copy goes with the call
  let param := m.next
  let m := m.create [table₀, table₁]
  pure (⟨own, [⟨param⟩]⟩, m.destroy param)

/-- The `l3fwd` VNFs, in the order they were made. -/
structure L3fwds where
  vectors : Vectors
  vnfs : List VnfL3fwd

inductive VnfLabel
  | alloc (setupLpm : Nat → Option Nat)
  -- the VNF at a place is deleted
  | delete (i : Nat)

namespace L3fwds

def init : L3fwds := ⟨⟨0, fun _ => none⟩, []⟩

def step (s : L3fwds) : VnfLabel → Option L3fwds
  | .alloc setupLpm =>
    match vnfL3fwd setupLpm s.vectors with
    | none => some s
    | some (vnf, m) => some ⟨m, s.vnfs ++ [vnf]⟩
  | .delete i => (s.vnfs[i]?).map fun vnf => ⟨s.vectors.destroy vnf.lpmStruct, s.vnfs.eraseIdx i⟩

/-- What the block's member refers to. -/
def lpmStruct (s : L3fwds) (block : VnfL3fwdBlock) : Option (List Nat) := s.vectors.vector block.lpmStruct

/-- Every block of a VNF refers to a vector that has been, and is no more. -/
def Dangling (s : L3fwds) : Prop :=
  ∀ vnf ∈ s.vnfs, ∀ block ∈ vnf.blocks, block.lpmStruct < s.vectors.next ∧ s.lpmStruct block = none

theorem Dangling.step {s t : L3fwds} {l : VnfLabel} (h : s.Dangling) (hs : s.step l = some t) : t.Dangling := by
  cases l with
  | alloc setupLpm =>
    simp only [L3fwds.step] at hs
    split at hs
    · cases hs
      exact h
    · next vnf m hnew =>
      cases hs
      simp only [vnfL3fwd, Option.bind_eq_bind, Option.bind_eq_some_iff] at hnew
      obtain ⟨table₀, -, table₁, -, hnew⟩ := hnew
      cases hnew
      intro w hw block hblock
      rcases List.mem_append.mp hw with hold | hnew
      · -- the new vectors have numbers of their own
        obtain ⟨hlt, hnone⟩ := h w hold block hblock
        have hlt' : block.lpmStruct < s.vectors.next + 1 := Nat.lt_succ_of_lt hlt
        refine ⟨Nat.lt_succ_of_lt hlt', ?_⟩
        simp only [lpmStruct, Vectors.destroy, Vectors.create, Function.update_of_ne hlt.ne,
          Function.update_of_ne hlt'.ne]
        exact hnone
      · obtain rfl := List.mem_singleton.mp hnew
        obtain rfl := List.mem_singleton.mp hblock
        exact ⟨Nat.lt_succ_self _, Function.update_self ..⟩
  | delete i =>
    obtain ⟨vnf, -, rfl⟩ := Option.map_eq_some_iff.mp hs
    intro w hw block hblock
    obtain ⟨hlt, hnone⟩ := h w (List.mem_of_mem_eraseIdx hw) block hblock
    refine ⟨hlt, ?_⟩
    simp only [lpmStruct, Vectors.destroy, Function.update_apply]
    split
    · rfl
    · exact hnone

/-- **The reference of a block always dangles**, from the first moment that a worker could use it. -/
theorem dangles_of_run {ls : List VnfLabel} {s : L3fwds} (h : Runs step Always init ls s) {vnf : VnfL3fwd}
    (hvnf : vnf ∈ s.vnfs) {block : VnfL3fwdBlock} (hblock : block ∈ vnf.blocks) : s.lpmStruct block = none := by
  have hinit : init.Dangling := fun vnf hvnf => absurd hvnf List.not_mem_nil
  exact (h.invariant hinit (fun _ _ _ hs _ hstep => hs.step hstep) vnf hvnf block hblock).2

end L3fwds

/-! ### Routes -/

example : lpmGetIpv4Dport (rteBeToCpu32 (ipv4 192 168 20 7)) 0 = 1 := by decide

/-- A VNF of two ports has the port a packet leaves by. -/
theorem dstPort_lt_two {pid : Nat} (hpid : pid < 2) (x : Packet) : dstPort pid x < 2 := by
  unfold dstPort
  split <;> omega

/-! ### One packet -/

variable {isIpv4Hdr : BitVec 32 → Bool} {lpmStruct : Option (List Nat)} {sockid pid txaid : Nat} {mbufs : List Nat}
  {burst : List Packet}

/-- There is a table at the place. -/
def Readable (lpmStruct : Option (List Nat)) (sockid : Nat) : Prop := ∃ tables ∈ lpmStruct, sockid < tables.length

theorem lpmAt_run (h : Readable lpmStruct sockid) : ∃ table, ∀ w, lpmAt lpmStruct sockid w = .ret table w := by
  obtain ⟨tables, rfl, hlt⟩ := h
  refine ⟨tables[sockid], fun w => ?_⟩
  rw [lpmAt, List.getElem?_eq_getElem hlt]
  rfl

theorem lpmAt_crash (h : ¬Readable lpmStruct sockid) : ∃ c, ∀ w, lpmAt lpmStruct sockid w = .crash c := by
  cases lpmStruct with
  | none => exact ⟨.danglingPointer, fun w => rfl⟩
  | some tables =>
    have hnone : tables[sockid]? = none :=
      List.getElem?_eq_none_iff.mpr (Nat.not_lt.mp fun hlt => h ⟨tables, rfl, hlt⟩)
    refine ⟨.outOfBounds, fun w => ?_⟩
    rw [lpmAt, hnone]
    rfl

/-- What an IPv4 packet leaves in the log. -/
def sending (pid txaid m : Nat) (x : Packet) (taken : Nat) : List Act :=
  if taken < 1 then [.tx (dstPort pid x) txaid [], .free m] else [.tx (dstPort pid x) txaid [m]]

theorem forwardAt_ipv4 (hlpm : Readable lpmStruct sockid) {i : Nat} (hi : i < mbufs.length) {x : Packet}
    {w : Wire Packet} {rest : List Nat} (hheld : w.held = mbufs[i] :: rest) (hx : w.mbufs[mbufs[i]]? = some x)
    (hip : isIpv4Hdr x.packetType = true) :
    forwardAt isIpv4Hdr lpmStruct sockid pid txaid mbufs i w =
      .ret () {w with outcomes := w.outcomes.tail, held := rest,
                      mbufs := w.mbufs.set mbufs[i] (rewriteHeader x),
                      log := w.log ++ sending pid txaid mbufs[i] x (w.accepted 1)} := by
  have hm : mbufs[i] ∈ w.held := by
    rw [hheld]
    exact List.mem_cons_self
  have hnip : (!isIpv4Hdr x.packetType) = false := by simp [hip]
  obtain ⟨table, htable⟩ := lpmAt_run hlpm
  rw [forwardAt, Proc.bind_ret (at?_run hi w), Proc.bind_ret (mbufAt_run hm hx), hnip]
  show (lpmAt lpmStruct sockid >>= _) w = _
  rw [Proc.bind_ret (htable w), Proc.bind_ret (mbufAt_run hm hx), Proc.bind_ret (modifyMbuf_run hm hx rewriteHeader),
    Proc.bind_ret (txBurst_owned _ _ _ (w := {w with mbufs := w.mbufs.set mbufs[i] (rewriteHeader x)})
      (List.singleton_subperm_iff.mpr hm))]
  show (if w.accepted 1 < 1 then pktmbufFree mbufs[i] else pure ())
    {w with outcomes := w.outcomes.tail, mbufs := w.mbufs.set mbufs[i] (rewriteHeader x),
            held := w.held.diff ([mbufs[i]].take (w.accepted 1)),
            log := w.log ++ [.tx (dstPort pid x) txaid ([mbufs[i]].take (w.accepted 1))]} = _
  obtain hk | hk : w.accepted 1 = 0 ∨ w.accepted 1 = 1 := by have := w.accepted_le 1; omega
  · rw [hk, if_pos Nat.zero_lt_one, List.take_zero, List.diff_nil]
    rw [pktmbufFree_run (w := {w with outcomes := w.outcomes.tail, mbufs := w.mbufs.set mbufs[i] (rewriteHeader x),
                                      log := w.log ++ [.tx (dstPort pid x) txaid []]}) hm, sending, if_pos Nat.zero_lt_one, hheld]
    simp
  · rw [hk, if_neg (Nat.lt_irrefl 1), sending, if_neg (Nat.lt_irrefl 1), hheld]
    simp

/-- Without a table no packet is forwarded, and one that is not IPv4 is freed and then read. -/
theorem forwardAt_crash {i : Nat} (hi : i < mbufs.length) {x : Packet} {w : Wire Packet} {rest : List Nat}
    (hheld : w.held = mbufs[i] :: rest) (hnodup : mbufs[i] ∉ rest) (hx : w.mbufs[mbufs[i]]? = some x)
    (h : ¬Readable lpmStruct sockid ∨ isIpv4Hdr x.packetType = false) :
    ∃ c, forwardAt isIpv4Hdr lpmStruct sockid pid txaid mbufs i w = .crash c := by
  have hm : mbufs[i] ∈ w.held := by
    rw [hheld]
    exact List.mem_cons_self
  -- what the packet is left as by the type test
  obtain ⟨w₁, htest, hheld₁⟩ : ∃ w₁, (if !isIpv4Hdr x.packetType then pktmbufFree mbufs[i] else pure ()) w =
      .ret () w₁ ∧ (isIpv4Hdr x.packetType = false → w₁.held = rest) := by
    cases hip : isIpv4Hdr x.packetType with
    | true => exact ⟨w, rfl, nofun⟩
    | false => exact ⟨_, pktmbufFree_run hm, fun _ => by simp [hheld]⟩
  rw [forwardAt, Proc.bind_ret (at?_run hi w), Proc.bind_ret (mbufAt_run hm hx), Proc.bind_ret htest]
  by_cases hlpm : Readable lpmStruct sockid
  · have hother := h.resolve_left (not_not.mpr hlpm)
    obtain ⟨table, htable⟩ := lpmAt_run hlpm
    have hgone : mbufs[i] ∉ w₁.held := by rwa [hheld₁ hother]
    rw [Proc.bind_ret (htable w₁), Proc.bind_crash (mbufAt_crash hgone)]
    exact ⟨_, rfl⟩
  · obtain ⟨c, hc⟩ := lpmAt_crash hlpm
    rw [Proc.bind_crash (hc w₁)]
    exact ⟨c, rfl⟩

/-! ### One pass over a burst -/

/-- What the packets of a burst leave in the log, one after the other. -/
inductive Routed (pid txaid : Nat) : List (Nat × Packet) → List Act → Prop
  | nil : Routed pid txaid [] []
  | snoc {sent : List (Nat × Packet)} {acts : List Act} (m : Nat) (x : Packet) (taken : Nat) :
      Routed pid txaid sent acts → Routed pid txaid (sent ++ [(m, x)]) (acts ++ sending pid txaid m x taken)

theorem sending_gone (pid txaid m : Nat) (x : Packet) (taken : Nat) :
    (sending pid txaid m x taken).flatMap Act.gone = [m] := by
  unfold sending
  split <;> simp [Act.gone]

theorem sending_directed (pid txaid m : Nat) (x : Packet) (taken : Nat) :
    m ∈ (sending pid txaid m x taken).flatMap (Act.sentOn (dstPort pid x)) ∨
      m ∈ (sending pid txaid m x taken).flatMap Act.freed := by
  unfold sending
  split <;> simp [Act.sentOn, Act.freed]

theorem Routed.gone {sent : List (Nat × Packet)} {acts : List Act} (h : Routed pid txaid sent acts) :
    acts.flatMap Act.gone = sent.map Prod.fst := by
  induction h with
  | nil => rfl
  | snoc m x taken _ ih => simp [ih, sending_gone]

theorem Routed.directed {sent : List (Nat × Packet)} {acts : List Act} (h : Routed pid txaid sent acts)
    {m : Nat} {x : Packet} (hm : (m, x) ∈ sent) :
    m ∈ acts.flatMap (Act.sentOn (dstPort pid x)) ∨ m ∈ acts.flatMap Act.freed := by
  induction h with
  | nil => cases hm
  | snoc m' x' taken _ ih =>
    simp only [List.flatMap_append, List.mem_append] at hm ⊢
    rcases hm with hm | hm
    · exact (ih hm).imp .inl .inl
    · obtain ⟨rfl, rfl⟩ := Prod.mk.inj (List.mem_singleton.mp hm)
      exact (sending_directed pid txaid m x taken).imp .inr .inr

/-- The loop has gone over the first `k` packets. -/
structure Upto (pid txaid : Nat) (mbufs : List Nat) (burst : List Packet) (w : Wire Packet) (k : Nat)
    (w' : Wire Packet) : Prop where
  held : w'.held = mbufs.drop k
  arrivals : w'.arrivals = w.arrivals
  data : ∀ m ∈ mbufs.drop k, w'.mbufs[m]? = w.mbufs[m]?
  log : ∃ acts, w'.log = w.log ++ acts ∧ Routed pid txaid ((mbufs.zip burst).take k) acts

theorem drop_eq_cons (hnodup : mbufs.Nodup) {k : Nat} (hk : k < mbufs.length) :
    mbufs.drop k = mbufs[k] :: mbufs.drop (k + 1) ∧ mbufs[k] ∉ mbufs.drop (k + 1) := by
  have hcons : mbufs.drop k = mbufs[k] :: mbufs.drop (k + 1) := List.drop_eq_getElem_cons hk
  have hnodup' := hnodup.sublist (List.drop_sublist k mbufs)
  rw [hcons] at hnodup'
  exact ⟨hcons, (List.nodup_cons.mp hnodup').1⟩

variable {w : Wire Packet}

theorem Upto.packet {w' : Wire Packet} {k : Nat} (h : Upto pid txaid mbufs burst w k w')
    (hw : Holds mbufs burst w) (hk : k < mbufs.length) :
    w'.held = mbufs[k] :: mbufs.drop (k + 1) ∧ w'.mbufs[mbufs[k]]? = some (burst.get ⟨k, hw.length ▸ hk⟩) := by
  obtain ⟨hcons, -⟩ := drop_eq_cons hw.nodup hk
  refine ⟨h.held.trans hcons, ?_⟩
  rw [h.data _ (by rw [hcons]; exact List.mem_cons_self)]
  exact hw.packet hk

theorem forwardAt_upto (hlpm : Readable lpmStruct sockid) {k : Nat} (hw : Holds mbufs burst w) (hk : k < mbufs.length)
    (hip : isIpv4Hdr (burst.get ⟨k, hw.length ▸ hk⟩).packetType = true) {w' : Wire Packet}
    (h : Upto pid txaid mbufs burst w k w') :
    Proc.Returns (forwardAt isIpv4Hdr lpmStruct sockid pid txaid mbufs k) w' fun _ =>
      Upto pid txaid mbufs burst w (k + 1) := by
  obtain ⟨hheld, hx⟩ := h.packet hw hk
  obtain ⟨hcons, hnot⟩ := drop_eq_cons hw.nodup hk
  refine ⟨(), _, forwardAt_ipv4 hlpm hk hheld hx hip, rfl, h.arrivals, fun m hm => ?_, ?_⟩
  · have hne : mbufs[k] ≠ m := fun heq => hnot (by rwa [heq])
    rw [List.getElem?_set_ne hne]
    exact h.data m (by rw [hcons]; exact List.mem_cons_of_mem _ hm)
  · obtain ⟨acts, hlog, hrouted⟩ := h.log
    refine ⟨_, by rw [hlog, List.append_assoc], ?_⟩
    have hzip : k < (mbufs.zip burst).length := by
      rw [List.length_zip, ← hw.length]
      omega
    rw [List.take_succ_eq_append_getElem hzip, List.getElem_zip]
    exact hrouted.snoc _ _ _

variable (pid txaid) in
theorem forwards_returns (hlpm : Readable lpmStruct sockid) (hw : Holds mbufs burst w) {k : Nat} (hk : k ≤ mbufs.length)
    (hip : ∀ x ∈ burst.take k, isIpv4Hdr x.packetType = true) :
    Proc.Returns (Proc.forRange (forwardAt isIpv4Hdr lpmStruct sockid pid txaid mbufs) k) w fun _ =>
      Upto pid txaid mbufs burst w k := by
  refine Proc.returns_forRange (fun k => Upto pid txaid mbufs burst w k) ?_ fun i hi w' hw' => ?_
  · exact ⟨hw.held, rfl, fun _ _ => rfl, [], (List.append_nil _).symm, .nil⟩
  · have hlt : i < burst.length := by rw [← hw.length]; omega
    refine forwardAt_upto hlpm hw (by omega) (hip _ ?_) hw'
    exact List.mem_iff_getElem.mpr ⟨i, by rw [List.length_take]; omega, List.getElem_take⟩

/-- A packet that is not IPv4, and the packets before it were: it is used after it was freed. -/
theorem forwardBurst_other (hlpm : Readable lpmStruct sockid) (hw : Holds mbufs burst w)
    (hother : ∃ x ∈ burst, isIpv4Hdr x.packetType = false) :
    ∃ c, forwardBurst isIpv4Hdr lpmStruct sockid pid txaid mbufs w = .crash c := by
  obtain ⟨i, hi, hfalse, hfirst⟩ := exists_first hother
  have hbefore : ∀ x ∈ burst.take i, isIpv4Hdr x.packetType = true := by
    simpa using hfirst
  have hi' : i < mbufs.length := hw.length ▸ hi
  obtain ⟨_, w', hrun, hupto⟩ := forwards_returns pid txaid hlpm hw hi'.le hbefore
  obtain ⟨hheld, hx⟩ := hupto.packet hw hi'
  obtain ⟨c, hc⟩ := forwardAt_crash hi' hheld (drop_eq_cons hw.nodup hi').2 hx (.inr hfalse)
  refine ⟨c, Proc.forRange_crash hi' ?_⟩
  rw [Proc.forRange_succ, Proc.bind_ret hrun, hc]

/-- Without a table the first packet is the last. -/
theorem forwardBurst_unreadable (hlpm : ¬Readable lpmStruct sockid) (hw : Holds mbufs burst w) (hne : burst ≠ []) :
    ∃ c, forwardBurst isIpv4Hdr lpmStruct sockid pid txaid mbufs w = .crash c := by
  have hpos : 0 < mbufs.length := by
    rw [hw.length]
    exact List.length_pos_of_ne_nil hne
  obtain ⟨hcons, hnot⟩ := drop_eq_cons hw.nodup hpos
  obtain ⟨c, hc⟩ := forwardAt_crash hpos (hw.held.trans hcons) hnot (hw.packet hpos) (.inl hlpm)
  exact ⟨c, Proc.forRange_crash hpos hc⟩

/-- A burst of IPv4 packets: each goes out by its route, or back to the pool. -/
theorem burst_goes_by_route (hlpm : Readable lpmStruct sockid) (hw : Holds mbufs burst w)
    (hip : ∀ x ∈ burst, isIpv4Hdr x.packetType = true) :
    Proc.Returns (forwardBurst isIpv4Hdr lpmStruct sockid pid txaid mbufs) w fun _ w' =>
      ∃ acts, Disposes mbufs w w' acts ∧
        ∀ mx ∈ mbufs.zip burst, mx.1 ∈ acts.flatMap (Act.sentOn (dstPort pid mx.2)) ∨
          mx.1 ∈ acts.flatMap Act.freed := by
  have hreturns := forwards_returns pid txaid hlpm hw le_rfl fun x hx => hip x (List.mem_of_mem_take hx)
  refine hreturns.weaken fun _ w' hupto => ?_
  obtain ⟨acts, hlog, hrouted⟩ := hupto.log
  have hall : (mbufs.zip burst).take mbufs.length = mbufs.zip burst :=
    List.take_of_length_le (by rw [List.length_zip]; exact Nat.min_le_left ..)
  rw [hall] at hrouted
  have hgone : acts.flatMap Act.gone = mbufs := by
    rw [hrouted.gone, List.map_fst_zip (by rw [hw.length])]
  exact ⟨acts, ⟨hlog, hupto.arrivals, by rw [hupto.held, List.drop_length], by rw [hgone]⟩,
    fun mx hmx => hrouted.directed hmx⟩

/-- An empty burst is passed over, and of any other every packet has to be IPv4 and find a table. -/
theorem forwardBurst_disposes_iff (hw : Holds mbufs burst w) :
    (Proc.Returns (forwardBurst isIpv4Hdr lpmStruct sockid pid txaid mbufs) w fun _ w' =>
      ∃ acts, Disposes mbufs w w' acts ∧ ∀ m ∈ mbufs, (acts.flatMap Act.gone).count m = 1) ↔
      burst = [] ∨ Readable lpmStruct sockid ∧ ∀ x ∈ burst, isIpv4Hdr x.packetType = true := by
  constructor
  · intro h
    obtain ⟨_, w', hrun, -⟩ := h
    by_contra hnot
    obtain ⟨hne, hnot⟩ := not_or.mp hnot
    have hcrash : ∃ c, forwardBurst isIpv4Hdr lpmStruct sockid pid txaid mbufs w = .crash c := by
      by_cases hlpm : Readable lpmStruct sockid
      · have hother : ∃ x ∈ burst, isIpv4Hdr x.packetType = false := by
          by_contra hall
          exact hnot ⟨hlpm, by simpa using hall⟩
        exact forwardBurst_other hlpm hw hother
      · exact forwardBurst_unreadable hlpm hw hne
    obtain ⟨c, hc⟩ := hcrash
    rw [hc] at hrun
    cases hrun
  · intro h
    obtain rfl | ⟨hlpm, hip⟩ := h
    · have hnil : mbufs = [] := List.length_eq_zero_iff.mp hw.length
      subst hnil
      exact ⟨(), w, rfl, [], ⟨(List.append_nil _).symm, rfl, hw.held, .refl _⟩,
        fun m hm => absurd hm List.not_mem_nil⟩
    · refine (burst_goes_by_route hlpm hw hip).weaken fun _ w' ⟨acts, hdisp, _⟩ => ?_
      exact ⟨acts, hdisp, fun m hm => hdisp.once hw.nodup hm⟩

/-- **One pass of the inner loop** of a block that was ever constructed disposes of every mbuf of the
burst once, over a port or back to the pool, exactly when there is none. -/
theorem burst_disposed_iff {ls : List VnfLabel} {s : L3fwds} (h : Runs L3fwds.step Always .init ls s)
    {vnf : VnfL3fwd} (hvnf : vnf ∈ s.vnfs) {block : VnfL3fwdBlock} (hblock : block ∈ vnf.blocks)
    (isIpv4Hdr : BitVec 32 → Bool) (sockid pid txaid : Nat) (hw : Holds mbufs burst w) :
    (Proc.Returns (forwardBurst isIpv4Hdr (s.lpmStruct block) sockid pid txaid mbufs) w fun _ w' =>
      ∃ acts, Disposes mbufs w w' acts ∧ ∀ m ∈ mbufs, (acts.flatMap Act.gone).count m = 1) ↔
      burst = [] := by
  have hdangling : ¬Readable (s.lpmStruct block) sockid := by
    intro ⟨tables, htables, _⟩
    rw [L3fwds.dangles_of_run h hvnf hblock] at htables
    cases htables
  rw [forwardBurst_disposes_iff hw]
  exact or_iff_left fun hread => hdangling hread.1

/-- A packet for a host behind port 1, of the type `RTE_PTYPE_L3_IPV4` when `v4` holds. -/
def packet (v4 : Bool) : Packet :=
  {packetType := if v4 then 0x11 else 0x41, sAddr := [2, 0, 0, 0, 0, 1], dAddr := [2, 0, 0, 0, 0, 2],
   srcAddr := rteBeToCpu32 (ipv4 192 168 10 3), dstAddr := rteBeToCpu32 (ipv4 192 168 20 7)}

def received (burst : List Packet) : Wire Packet :=
  {arrivals := [], outcomes := [1, 0], mbufs := burst, held := List.range burst.length,
   log := [.rx 0 0 (List.range burst.length)]}

/-- `(ptype) & RTE_PTYPE_L3_IPV4` -/
def isIpv4 (ptype : BitVec 32) : Bool := ptype &&& 0x10 != 0

/-- One VNF has been made, with tables 10 and 11. -/
def oneVnf : L3fwds :=
  ⟨(((Vectors.mk 0 fun _ => none).create [10, 11]).create [10, 11]).destroy 1, [⟨0, [⟨1⟩]⟩]⟩

theorem burst_disposed_iff_two :
    (Proc.Returns (forwardBurst isIpv4 (oneVnf.lpmStruct ⟨1⟩) 0 0 0 [0, 1]) (received [packet true, packet true])
      fun _ w' => ∃ acts, Disposes [0, 1] (received [packet true, packet true]) w' acts ∧
        ∀ m ∈ [0, 1], (acts.flatMap Act.gone).count m = 1) ↔
      [packet true, packet true] = [] := by
  have hrun : exec L3fwds.step .init [.alloc fun sockid => some (10 + sockid)] = some oneVnf := rfl
  exact burst_disposed_iff (Runs.of_exec hrun) List.mem_cons_self List.mem_cons_self isIpv4 0 0 0 ⟨rfl, by decide, rfl⟩

/-- An IPv4 packet in a worker's hands; and one that is not IPv4, even if the reference were bound to
the VNF's own vector. -/
theorem burst_not_disposed :
    exec L3fwds.step .init [.alloc fun sockid => some (10 + sockid)] = some oneVnf ∧
      (Holds [0] [packet true] (received [packet true]) ∧
        forwardBurst isIpv4 (oneVnf.lpmStruct ⟨1⟩) 0 0 0 [0] (received [packet true]) = .crash .danglingPointer ∧
        ¬Proc.Returns (forwardBurst isIpv4 (oneVnf.lpmStruct ⟨1⟩) 0 0 0 [0]) (received [packet true]) fun _ w' =>
          ∃ acts, Disposes [0] (received [packet true]) w' acts ∧
            ∀ m ∈ [0], (acts.flatMap Act.gone).count m = 1) ∧
      Holds [0] [packet false] (received [packet false]) ∧
        forwardBurst isIpv4 (oneVnf.lpmStruct ⟨0⟩) 0 0 0 [0] (received [packet false]) = .crash .danglingPointer := by
  have hrun : forwardBurst isIpv4 (oneVnf.lpmStruct ⟨1⟩) 0 0 0 [0] (received [packet true]) =
      .crash .danglingPointer := by
    decide +kernel
  have hrun' : forwardBurst isIpv4 (oneVnf.lpmStruct ⟨0⟩) 0 0 0 [0] (received [packet false]) =
      .crash .danglingPointer := by
    decide +kernel
  refine ⟨rfl, ⟨⟨rfl, by decide, rfl⟩, hrun, fun h => ?_⟩, ⟨rfl, by decide, rfl⟩, hrun'⟩
  obtain ⟨_, w', hret, -⟩ := h
  rw [hrun] at hret
  cases hret

end L3fwd

end Susanow
