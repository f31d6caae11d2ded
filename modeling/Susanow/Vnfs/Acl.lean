import Susanow.Vnfs.Polling

/-! The ACL forwarding loop.

The burst is filtered packet by packet. A packet that passes is offered alone to the
opposite port, but what is freed when fewer were accepted than *received* is the burst
itself, from the number accepted on: right for a burst of one, and for one that is
dropped whole. In any other burst the first packet that passes takes mbufs along that are
gone, or that the loop still has to come to. -/
namespace Susanow
open Wire

namespace Acl
variable {α : Type}

/-- `acl_5tuple::packet_filter_pass`; `classify` is what `rte_acl_classify` leaves in `results[0]`. -/
def packetFilterPass (classify : α → Nat) (m : Nat) : Proc (Wire α) Bool := do
  let x ← mbufAt m
  pure (classify x == 0)

/-- `dpdk::hexdump_mbuf` reads the mbuf. -/
def hexdumpMbuf (m : Nat) : Proc (Wire α) Unit := do
  let _ ← mbufAt m

/-- The inner loop's body for `mbufs[i]`. -/
def filterAt (classify : α → Nat) (oportId txaid : Nat) (mbufs : List Nat) (i : Nat) :
    Proc (Wire α) Unit := do
  let m ← at? mbufs i
  let ret ← packetFilterPass classify m
  if !ret then
    hexdumpMbuf m
    pktmbufFree m
  else
    let nSend ← txBurst oportId txaid [m]
    if nSend < mbufs.length then
      pktmbufFreeBulk ((mbufs.drop nSend).take (mbufs.length - nSend))
    else pure ()

/-- One pass of the inner loop. -/
def filterBurst (classify : α → Nat) (oportId txaid : Nat) (mbufs : List Nat) : Proc (Wire α) Unit :=
  Proc.forRange (filterAt classify oportId txaid mbufs) mbufs.length

/-- `ssn_vnf_acl_block::deploy_impl` -/
def deployImpl (classify : α → Nat) (b : Block) (nPorts lcoreId rounds : Nat) : Proc (Wire α) Unit :=
  pollEveryPort (fun pid txaid mbufs => filterBurst classify (pid ^^^ 1) txaid mbufs) b nPorts lcoreId rounds

/-! ### Packets that are dropped -/

variable {classify : α → Nat} {oportId txaid : Nat} {mbufs : List Nat} {burst : List α} {w : Wire α}

theorem packetFilterPass_run {m : Nat} {x : α} (hm : m ∈ w.held) (hx : w.mbufs[m]? = some x) :
    packetFilterPass classify m w = .ret (classify x == 0) w := by
  rw [packetFilterPass, Proc.bind_ret (mbufAt_run hm hx)]
  rfl

theorem filterAt_drop {i : Nat} (hi : i < mbufs.length) {x : α} (hm : mbufs[i] ∈ w.held)
    (hx : w.mbufs[mbufs[i]]? = some x) (hdrop : classify x ≠ 0) :
    filterAt classify oportId txaid mbufs i w =
      .ret () {w with held := w.held.erase mbufs[i], log := w.log ++ [.free mbufs[i]]} := by
  have hbeq : (classify x == 0) = false := by simp [hdrop]
  rw [filterAt, Proc.bind_ret (at?_run hi w), Proc.bind_ret (packetFilterPass_run hm hx), hbeq]
  show (hexdumpMbuf mbufs[i] >>= fun _ => pktmbufFree mbufs[i]) w = _
  have hdump : hexdumpMbuf mbufs[i] w = .ret () w := by
    rw [hexdumpMbuf, Proc.bind_ret (mbufAt_run hm hx)]
    rfl
  rw [Proc.bind_ret hdump, pktmbufFree_run hm]

/-- The filter reads an mbuf that is gone. -/
theorem filterAt_gone {i : Nat} (hi : i < mbufs.length) (hm : mbufs[i] ∉ w.held) :
    filterAt classify oportId txaid mbufs i w = .crash .danglingPointer := by
  rw [filterAt, Proc.bind_ret (at?_run hi w), Proc.bind_crash]
  rw [packetFilterPass, Proc.bind_crash (mbufAt_crash hm)]

variable (oportId txaid) in
/-- While packets are dropped, the loop frees them one by one. -/
theorem drops_run (hw : Holds mbufs burst w) {k : Nat} (hk : k ≤ mbufs.length)
    (hdrop : ∀ x ∈ burst.take k, classify x ≠ 0) :
    Proc.forRange (filterAt classify oportId txaid mbufs) k w =
      .ret () {w with held := mbufs.drop k, log := w.log ++ (mbufs.take k).map .free} := by
  induction k with
  | zero =>
    rw [Proc.forRange_zero, List.drop_zero, ← hw.held]
    simp
  | succ k ih =>
    have hlt : k < burst.length := by rw [← hw.length]; omega
    have htake : burst.take (k + 1) = burst.take k ++ [burst[k]] := List.take_succ_eq_append_getElem hlt
    have hbefore : ∀ x ∈ burst.take k, classify x ≠ 0 := fun x hx =>
      hdrop x (htake ▸ List.mem_append_left _ hx)
    have hthis : classify burst[k] ≠ 0 := hdrop _ (htake ▸ List.mem_append_right _ (List.mem_singleton_self _))
    have hcons : mbufs.drop k = mbufs[k] :: mbufs.drop (k + 1) := List.drop_eq_getElem_cons hk
    have hm : mbufs[k] ∈ mbufs.drop k := hcons ▸ List.mem_cons_self
    rw [Proc.forRange_succ, Proc.bind_ret (ih (by omega) hbefore)]
    rw [filterAt_drop (w := {w with held := mbufs.drop k, log := w.log ++ (mbufs.take k).map .free}) hk hm
      (hw.packet hk) hthis]
    simp only [hcons, List.erase_cons_head, List.take_succ_eq_append_getElem hk, List.map_append,
      List.append_assoc, List.map_cons, List.map_nil]

/-! ### Packets that pass -/

variable (oportId txaid) in
/-- The first part of a packet that passes: it is offered to the opposite port. -/
theorem filterAt_pass {i : Nat} (hi : i < mbufs.length) {x : α} (hm : mbufs[i] ∈ w.held)
    (hx : w.mbufs[mbufs[i]]? = some x) (hpass : classify x = 0) :
    filterAt classify oportId txaid mbufs i w =
      (if w.accepted 1 < mbufs.length then pktmbufFreeBulk (mbufs.drop (w.accepted 1)) else pure ())
        {w with outcomes := w.outcomes.tail, held := w.held.diff ([mbufs[i]].take (w.accepted 1)),
                log := w.log ++ [.tx oportId txaid ([mbufs[i]].take (w.accepted 1))]} := by
  have hbeq : (classify x == 0) = true := by simp [hpass]
  have hrest : (mbufs.drop (w.accepted 1)).take (mbufs.length - w.accepted 1) = mbufs.drop (w.accepted 1) :=
    List.take_of_length_le (by simp)
  rw [filterAt, Proc.bind_ret (at?_run hi w), Proc.bind_ret (packetFilterPass_run hm hx), hbeq]
  show (txBurst oportId txaid [mbufs[i]] >>= _) w = _
  rw [Proc.bind_ret (txBurst_owned _ _ _ (List.singleton_subperm_iff.mpr hm)), List.length_singleton, hrest]

/-- A packet that passes is taken away twice unless it is the first of its burst. -/
theorem filterAt_pass_crash {i : Nat} (hi : i < mbufs.length) (hpos : 0 < i) {x : α}
    (hheld : w.held = mbufs.drop i) (hx : w.mbufs[mbufs[i]]? = some x)
    (hpass : classify x = 0) :
    filterAt classify oportId txaid mbufs i w = .crash .danglingPointer := by
  have hcons : mbufs.drop i = mbufs[i] :: mbufs.drop (i + 1) := List.drop_eq_getElem_cons hi
  have hm : mbufs[i] ∈ w.held := by
    rw [hheld, hcons]
    exact List.mem_cons_self
  rw [filterAt_pass oportId txaid hi hm hx hpass, if_pos (by have := w.accepted_le 1; omega)]
  apply pktmbufFreeBulk_crash
  intro hsub
  have hlen := hsub.length_le
  obtain hk | hk : w.accepted 1 = 0 ∨ w.accepted 1 = 1 := by have := w.accepted_le 1; omega
  · -- refused: the whole burst is freed, what was dropped before included
    simp only [hk, List.drop_zero, List.take_zero, List.diff_nil, hheld, List.length_drop] at hlen
    omega
  · -- accepted: all but the first mbuf are freed, this one included
    simp only [hk, hheld, hcons, List.take_succ_cons, List.take_zero, List.diff_cons, List.diff_nil,
      List.erase_cons_head, List.length_drop] at hlen
    omega

variable (oportId txaid) in
/-- After a first packet that passes the loop owns nothing that is left of the burst. -/
theorem filterAt_pass_first {m : Nat} {ms : List Nat} (hlen : 0 < ms.length) {x : α}
    (hheld : w.held = m :: ms) (hx : w.mbufs[m]? = some x) (hpass : classify x = 0) :
    ∃ w', filterAt classify oportId txaid (m :: ms) 0 w = .ret () w' ∧ w'.held = [] := by
  have hm : m ∈ w.held := by
    rw [hheld]
    exact List.mem_cons_self
  have hle := w.accepted_le 1
  have hpos : 0 < (m :: ms).length := Nat.succ_pos _
  have hrun := filterAt_pass oportId txaid hpos hm hx hpass
  rw [if_pos (by simp only [List.length_cons]; omega)] at hrun
  rw [hrun]
  obtain hk | hk : w.accepted 1 = 0 ∨ w.accepted 1 = 1 := by omega
  · rw [hk, List.take_zero, List.drop_zero, pktmbufFreeBulk_all (by rw [hheld, List.diff_nil])]
    exact ⟨_, rfl, rfl⟩
  · rw [hk, List.drop_succ_cons, List.drop_zero, pktmbufFreeBulk_all (by simp [hheld])]
    exact ⟨_, rfl, rfl⟩

/-- A burst of more than one with a packet that passes: some mbuf is used after it is gone. -/
theorem filterBurst_crash (hw : Holds mbufs burst w) (hlen : 1 < burst.length)
    (hpass : ∃ x ∈ burst, classify x = 0) :
    filterBurst classify oportId txaid mbufs w = .crash .danglingPointer := by
  obtain ⟨i, hi, hzero, hbefore⟩ := exists_first hpass
  have hi' : i < mbufs.length := hw.length ▸ hi
  have hdrops := drops_run oportId txaid hw hi'.le hbefore
  cases i with
  | zero =>
    cases mbufs with
    | nil => exact absurd hi' (Nat.lt_irrefl 0)
    | cons m ms =>
      have hlen' : 0 < ms.length := by
        have := hw.length
        simp only [List.length_cons] at this
        omega
      obtain ⟨w', hrun, hheld'⟩ := filterAt_pass_first oportId txaid hlen' hw.held (hw.packet hi') hzero
      refine Proc.forRange_crash (k := 2) (by simp only [List.length_cons]; omega) ?_
      have hfirst : Proc.forRange (filterAt classify oportId txaid (m :: ms)) 1 w = .ret () w' := by
        rw [Proc.forRange_succ, Proc.bind_ret (Proc.forRange_zero ..), hrun]
      rw [Proc.forRange_succ, Proc.bind_ret hfirst]
      exact filterAt_gone (by simp only [List.length_cons]; omega) (by simp [hheld'])
  | succ i =>
    refine Proc.forRange_crash hi' ?_
    rw [Proc.forRange_succ, Proc.bind_ret hdrops]
    exact filterAt_pass_crash hi' (Nat.succ_pos i) rfl (hw.packet hi') hzero

/-! ### Bursts the loop gets right -/

variable (oportId txaid) in
theorem filterBurst_drops (hw : Holds mbufs burst w) (hdrop : ∀ x ∈ burst, classify x ≠ 0) :
    ∃ w', filterBurst classify oportId txaid mbufs w = .ret () w' ∧
      Disposes mbufs w w' (mbufs.map .free) := by
  have hrun := drops_run oportId txaid hw le_rfl
    (by rwa [List.take_of_length_le hw.length.ge])
  refine ⟨_, hrun, ?_, rfl, ?_, ?_⟩
  · simp
  · simp
  · simp [List.flatMap_map, Act.gone]

variable (oportId txaid) in
theorem filterBurst_one {m : Nat} {x : α} (hw : Holds [m] [x] w) (hpass : classify x = 0) :
    ∃ w' acts, filterBurst classify oportId txaid [m] w = .ret () w' ∧ Disposes [m] w w' acts ∧
      ∀ m' ∈ [m], m' ∈ acts.flatMap (Act.sentOn oportId) ∨ m' ∈ acts.flatMap Act.freed := by
  have hm : m ∈ w.held := by
    rw [hw.held]
    exact List.mem_singleton_self m
  have hrun : filterBurst classify oportId txaid [m] w = filterAt classify oportId txaid [m] 0 w := by
    rw [filterBurst, List.length_singleton, Proc.forRange_succ, Proc.bind_ret (Proc.forRange_zero ..)]
  rw [hrun, filterAt_pass oportId txaid (Nat.succ_pos _) hm (hw.packet (i := 0) (Nat.succ_pos _)) hpass]
  obtain hk | hk : w.accepted 1 = 0 ∨ w.accepted 1 = 1 := by have := w.accepted_le 1; omega
  · rw [hk, if_pos (by simp), List.drop_zero, List.take_zero,
      pktmbufFreeBulk_all (by rw [hw.held, List.diff_nil])]
    refine ⟨_, [.tx oportId txaid [], .free m], rfl, ⟨?_, rfl, rfl, ?_⟩, ?_⟩
    · simp
    · simp [Act.gone]
    · simp [Act.freed]
  · rw [hk, if_neg (by simp)]
    refine ⟨_, [.tx oportId txaid [m]], rfl, ⟨rfl, rfl, ?_, ?_⟩, ?_⟩
    · simp [hw.held]
    · simp [Act.gone]
    · simp [Act.sentOn]

/-! ### One pass over a burst -/

/-- Every mbuf of the burst goes once, over the opposite port or back to the pool, and one
that the filter drops is not transmitted. -/
structure Filtered (classify : α → Nat) (oportId : Nat) (mbufs : List Nat) (burst : List α) (w w' : Wire α)
    (acts : List Act) : Prop where
  disposes : Disposes mbufs w w' acts
  once : ∀ m ∈ mbufs, (acts.flatMap Act.gone).count m = 1
  directed : ∀ m ∈ mbufs, m ∈ acts.flatMap (Act.sentOn oportId) ∨ m ∈ acts.flatMap Act.freed
  dropped : ∀ mx ∈ mbufs.zip burst, classify mx.2 ≠ 0 → ∀ pid, mx.1 ∉ acts.flatMap (Act.sentOn pid)

theorem filtered_of_drops (hw : Holds mbufs burst w) (hdrop : ∀ x ∈ burst, classify x ≠ 0) :
    Proc.Returns (filterBurst classify oportId txaid mbufs) w fun _ w' =>
      ∃ acts, Filtered classify oportId mbufs burst w w' acts := by
  obtain ⟨w', hrun, hdisp⟩ := filterBurst_drops oportId txaid hw hdrop
  refine ⟨(), w', hrun, _, hdisp, fun m hm => hdisp.once hw.nodup hm, fun m hm => .inr ?_, ?_⟩
  · simpa [List.flatMap_map, Act.freed] using hm
  · intro mx _ _ pid
    simp [List.flatMap_map, Act.sentOn]

theorem filtered_of_one (hw : Holds mbufs burst w) (hlen : burst.length = 1) {x : α} (hx : x ∈ burst)
    (hpass : classify x = 0) :
    Proc.Returns (filterBurst classify oportId txaid mbufs) w fun _ w' =>
      ∃ acts, Filtered classify oportId mbufs burst w w' acts := by
  obtain ⟨y, rfl⟩ := List.length_eq_one_iff.mp hlen
  obtain ⟨m, rfl⟩ := List.length_eq_one_iff.mp (hw.length.trans hlen)
  obtain rfl := List.mem_singleton.mp hx
  obtain ⟨w', acts, hrun, hdisp, hdirected⟩ := filterBurst_one oportId txaid hw hpass
  refine ⟨(), w', hrun, acts, hdisp, fun m hm => hdisp.once hw.nodup hm, hdirected, ?_⟩
  intro mx hmx hne
  rw [List.mem_singleton.mp hmx] at hne
  exact absurd hpass hne

theorem filterBurst_returns (hw : Holds mbufs burst w) (h : burst.length ≤ 1 ∨ ∀ x ∈ burst, classify x ≠ 0) :
    Proc.Returns (filterBurst classify oportId txaid mbufs) w fun _ w' =>
      ∃ acts, Filtered classify oportId mbufs burst w w' acts := by
  by_cases hdrop : ∀ x ∈ burst, classify x ≠ 0
  · exact filtered_of_drops hw hdrop
  · push Not at hdrop
    obtain ⟨x, hx, hpass⟩ := hdrop
    have hlen := h.resolve_right fun hall => hall x hx hpass
    have hpos := List.length_pos_of_mem hx
    exact filtered_of_one hw (by omega) hx hpass

/-! ### The loop -/

section Balance
open Proc (Preserves within_bind within_pure within_ite)

theorem preserves_filterAt (i : Nat) :
    Preserves Balanced (filterAt classify oportId txaid mbufs i : Proc (Wire α) _) := by
  refine within_bind (preserves_at? _ _) fun m => within_bind ?_ fun ret => within_ite ?_ ?_
  · exact within_bind (preserves_mbufAt m) fun _ => within_pure _
  · exact within_bind (within_bind (preserves_mbufAt m) fun _ => within_pure _) fun _ => preserves_pktmbufFree m
  · exact within_bind (preserves_txBurst _ _ _) fun _ => within_ite (preserves_pktmbufFreeBulk _) (within_pure _)

end Balance

/-- Traffic of which no burst is more than one packet, or has a packet that passes, is
disposed of. -/
theorem deployImpl_disposes {b : Block} {vc : Vcore} {lcoreId i : Nat}
    (hid : b.getVlcoreId lcoreId = some i) (hvc : b.vcores[i]? = some vc)
    (hrx : vc.portRxAcc.length = 2) (htx : vc.portTxAcc.length = 2) {arrivals : List (List α)}
    (hok : ∀ burst ∈ arrivals, (burst.take 32).length ≤ 1 ∨ ∀ x ∈ burst.take 32, classify x ≠ 0)
    (outcomes : List Nat) (rounds : Nat) :
    Proc.Returns (deployImpl classify b 2 lcoreId rounds)
      ({arrivals := arrivals, outcomes := outcomes} : Wire α) fun _ w =>
        w.arrivals = arrivals.drop (rounds * 2) ∧ ∀ m ∈ w.received, w.gone.count m = 1 := by
  have hbal (pid txaid : Nat) (mbufs : List Nat) :
      Proc.Preserves Balanced (filterBurst classify (pid ^^^ 1) txaid mbufs : Proc (Wire α) _) :=
    Proc.within_forRange fun i => preserves_filterAt i
  have htreat (pid txaid : Nat) {mbufs : List Nat} {burst : List α} {w : Wire α} (hw : Holds mbufs burst w)
      (hok : burst.length ≤ 1 ∨ ∀ x ∈ burst, classify x ≠ 0) :
      Proc.Returns (filterBurst classify (pid ^^^ 1) txaid mbufs) w fun _ w' => ∃ acts, Disposes mbufs w w' acts :=
    (filterBurst_returns hw hok).weaken fun _ _ ⟨acts, h⟩ => ⟨acts, h.disposes⟩
  exact pollEveryPort_disposes hid hvc hrx htx (fun burst => burst.length ≤ 1 ∨ ∀ x ∈ burst, classify x ≠ 0)
    hbal htreat hok outcomes rounds

/-- **One pass of the inner loop** does what it should with a burst exactly when the burst
has at most one packet, or no packet that passes. -/
theorem burst_filtered_iff (classify : α → Nat) (oportId txaid : Nat) (hw : Holds mbufs burst w) :
    (Proc.Returns (filterBurst classify oportId txaid mbufs) w fun _ w' =>
      ∃ acts, Filtered classify oportId mbufs burst w w' acts) ↔
      burst.length ≤ 1 ∨ ∀ x ∈ burst, classify x ≠ 0 := by
  constructor
  · intro h
    by_contra hcon
    push Not at hcon
    obtain ⟨hlen, x, hx, hpass⟩ := hcon
    obtain ⟨_, w', hrun, -⟩ := h
    rw [filterBurst_crash hw hlen ⟨x, hx, hpass⟩] at hrun
    cases hrun
  · exact filterBurst_returns hw

/-- Packets just received on port 0. -/
def received (burst : List String) : Wire String :=
  {arrivals := [], outcomes := [1, 1], mbufs := burst, held := List.range burst.length,
   log := [.rx 0 0 (List.range burst.length)]}

theorem burst_filtered_iff_three :
    (Proc.Returns (filterBurst (fun _ => 1) 1 0 [0, 1, 2]) (received ["p", "q", "r"]) fun _ w' =>
      ∃ acts, Filtered (fun _ => 1) 1 [0, 1, 2] ["p", "q", "r"] (received ["p", "q", "r"]) w' acts) ↔
      ["p", "q", "r"].length ≤ 1 ∨ ∀ x ∈ ["p", "q", "r"], (fun _ => 1) x ≠ 0 :=
  burst_filtered_iff (fun _ => 1) 1 0 ⟨rfl, by decide, rfl⟩

/-- Of two packets that pass, the second is freed behind the first. -/
theorem burst_not_filtered :
    Holds [0, 1] ["p", "q"] (received ["p", "q"]) ∧
      filterBurst (fun _ => 0) 1 0 [0, 1] (received ["p", "q"]) = .crash .danglingPointer ∧
      ¬Proc.Returns (filterBurst (fun _ => 0) 1 0 [0, 1]) (received ["p", "q"]) fun _ w' =>
        ∃ acts, Filtered (fun _ => 0) 1 [0, 1] ["p", "q"] (received ["p", "q"]) w' acts := by
  have hrun : filterBurst (fun _ => 0) 1 0 [0, 1] (received ["p", "q"]) = .crash .danglingPointer := by
    decide +kernel
  refine ⟨⟨rfl, by decide, rfl⟩, hrun, fun h => ?_⟩
  obtain ⟨_, w', hret, -⟩ := h
  rw [hrun] at hret
  cases hret

end Acl

end Susanow
