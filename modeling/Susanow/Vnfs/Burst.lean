import Susanow.Base.Proc
import Mathlib.Data.List.Nodup
import Mathlib.Data.List.Perm.Subperm

/-! What a worker does with mbufs.

A worker owns the mbufs a receive burst gives it until a transmit burst accepts them or
it frees them, and using one it does not own is a dangling pointer. An mbuf is known by
the number of its reception, so a buffer that comes back from the pool is another one.
What the ports will give and take is in the state; `Balanced` says that every mbuf
received is owned, or has been disposed of once. -/
namespace Susanow

inductive Act
  | rx (pid aid : Nat) (mbufs : List Nat)
  | tx (pid aid : Nat) (mbufs : List Nat)
  | free (mbuf : Nat)
  deriving DecidableEq, Repr

namespace Act

def received : Act → List Nat
  | .rx _ _ mbufs => mbufs
  | _ => []

def receivedOn (pid : Nat) : Act → List Nat
  | .rx p _ mbufs => if p = pid then mbufs else []
  | _ => []

def sentOn (pid : Nat) : Act → List Nat
  | .tx p _ mbufs => if p = pid then mbufs else []
  | _ => []

def freed : Act → List Nat
  | .free mbuf => [mbuf]
  | _ => []

/-- Transmitted or freed. -/
def gone : Act → List Nat
  | .rx _ _ _ => []
  | .tx _ _ mbufs => mbufs
  | .free mbuf => [mbuf]

end Act

/-- A worker between its ports. -/
structure Wire (α : Type) where
  -- what the next receive bursts find, and how many the next transmit bursts accept
  arrivals : List (List α)
  outcomes : List Nat
  -- by number
  mbufs : List α := []
  held : List Nat := []
  log : List Act := []
  deriving DecidableEq, Repr

namespace Wire
variable {α : Type}

def received (w : Wire α) : List Nat := w.log.flatMap Act.received

def gone (w : Wire α) : List Nat := w.log.flatMap Act.gone

def receivedOn (w : Wire α) (pid : Nat) : List Nat := w.log.flatMap (Act.receivedOn pid)

def sentOn (w : Wire α) (pid : Nat) : List Nat := w.log.flatMap (Act.sentOn pid)

def freed (w : Wire α) : List Nat := w.log.flatMap Act.freed

def note (w : Wire α) (a : Act) : Wire α := {w with log := w.log ++ [a]}

/-- A burst of at most `nb` mbufs. -/
def rxBurst (pid aid nb : Nat) : Proc (Wire α) (List Nat) := do
  let w ← Proc.get
  let arrived := (w.arrivals.headD []).take nb
  let mbufs := List.range' w.mbufs.length arrived.length
  Proc.set {w with arrivals := w.arrivals.tail, mbufs := w.mbufs ++ arrived, held := w.held ++ mbufs,
                   log := w.log ++ [.rx pid aid mbufs]}
  pure mbufs

/-- The mbufs are given away. -/
def release : List Nat → Proc (Wire α) Unit
  | [] => pure ()
  | m :: ms => do
    let w ← Proc.get
    if m ∈ w.held then
      Proc.set {w with held := w.held.erase m}
      release ms
    else Proc.crash .danglingPointer

/-- How many of `n` offered mbufs the next transmit burst accepts. -/
def accepted (w : Wire α) (n : Nat) : Nat := min (w.outcomes.headD 0) n

/-- Offers the mbufs; a prefix of them is accepted. -/
def txBurst (pid aid : Nat) (mbufs : List Nat) : Proc (Wire α) Nat := do
  let w ← Proc.get
  if ∀ m ∈ mbufs, m ∈ w.held then
    Proc.set {w with outcomes := w.outcomes.tail}
    release (mbufs.take (w.accepted mbufs.length))
    Proc.modify fun w' => w'.note (.tx pid aid (mbufs.take (w.accepted mbufs.length)))
    pure (w.accepted mbufs.length)
  else Proc.crash .danglingPointer

def pktmbufFree (m : Nat) : Proc (Wire α) Unit := do
  release [m]
  Proc.modify fun w => w.note (.free m)

def pktmbufFreeBulk : List Nat → Proc (Wire α) Unit
  | [] => pure ()
  | m :: ms => do
    pktmbufFree m
    pktmbufFreeBulk ms

/-- `*m` -/
def mbufAt (m : Nat) : Proc (Wire α) α := do
  let w ← Proc.get
  if m ∈ w.held then
    match w.mbufs[m]? with
    | none => Proc.crash .danglingPointer
    | some x => pure x
  else Proc.crash .danglingPointer

def modifyMbuf (m : Nat) (f : α → α) : Proc (Wire α) Unit := do
  let x ← mbufAt m
  Proc.modify fun w => {w with mbufs := w.mbufs.set m (f x)}

/-- `mbufs[i]` of the array the burst was written to. -/
def at? (mbufs : List Nat) (i : Nat) : Proc (Wire α) Nat :=
  match mbufs[i]? with
  | none => Proc.crash .outOfBounds
  | some m => pure m

theorem diff_take (n : Nat) (ms : List Nat) : ms.diff (ms.take n) = ms.drop n := by
  induction ms generalizing n with
  | nil => simp
  | cons m ms ih =>
    cases n with
    | zero => rfl
    | succ n => simpa using ih n

theorem diff_self (ms : List Nat) : ms.diff ms = [] := by
  simpa using diff_take ms.length ms

/-- The first of a burst's packets with a property. -/
theorem exists_first {p : α → Prop} {burst : List α} (h : ∃ x ∈ burst, p x) :
    ∃ i, ∃ hi : i < burst.length, p burst[i] ∧ ∀ x ∈ burst.take i, ¬p x := by
  induction burst with
  | nil =>
    obtain ⟨x, hx, -⟩ := h
    cases hx
  | cons x xs ih =>
    by_cases hx : p x
    · exact ⟨0, Nat.succ_pos _, hx, by simp⟩
    · obtain ⟨i, hi, hp, hbefore⟩ := ih (by simpa [hx] using h)
      refine ⟨i + 1, Nat.succ_lt_succ hi, hp, ?_⟩
      simpa [hx] using hbefore

/-! ### Runs -/

theorem release_run {ms : List Nat} {w : Wire α} (h : ms.Subperm w.held) :
    release ms w = .ret () {w with held := w.held.diff ms} := by
  induction ms generalizing w with
  | nil => rfl
  | cons m ms ih =>
    have hm : m ∈ w.held := h.subset List.mem_cons_self
    have hms : ms.Subperm (w.held.erase m) := by
      simpa using h.erase m
    rw [release, Proc.get_bind, if_pos hm, Proc.set_bind, ih (w := {w with held := w.held.erase m}) hms,
      List.diff_cons]

theorem release_crash {ms : List Nat} {w : Wire α} (h : ¬ms.Subperm w.held) :
    release ms w = .crash .danglingPointer := by
  induction ms generalizing w with
  | nil => exact absurd (List.nil_subperm) h
  | cons m ms ih =>
    rw [release, Proc.get_bind]
    by_cases hm : m ∈ w.held
    · rw [if_pos hm, Proc.set_bind]
      refine ih (w := {w with held := w.held.erase m}) fun hms => h ?_
      exact ((List.subperm_cons m).mpr hms).trans (List.perm_cons_erase hm).symm.subperm
    · rw [if_neg hm]
      rfl

theorem pktmbufFree_run {m : Nat} {w : Wire α} (h : m ∈ w.held) :
    pktmbufFree m w = .ret () {w with held := w.held.erase m, log := w.log ++ [.free m]} := by
  rw [pktmbufFree, Proc.bind_ret (release_run (List.singleton_subperm_iff.mpr h)), Proc.modify_run,
    List.diff_cons, List.diff_nil]
  rfl

theorem pktmbufFree_crash {m : Nat} {w : Wire α} (h : m ∉ w.held) :
    pktmbufFree m w = .crash .danglingPointer :=
  Proc.bind_crash (release_crash fun hs => h (List.singleton_subperm_iff.mp hs))

theorem pktmbufFreeBulk_run {ms : List Nat} {w : Wire α} (h : ms.Subperm w.held) :
    pktmbufFreeBulk ms w =
      .ret () {w with held := w.held.diff ms, log := w.log ++ ms.map .free} := by
  induction ms generalizing w with
  | nil => simp [pktmbufFreeBulk]
  | cons m ms ih =>
    have hms : ms.Subperm (w.held.erase m) := by
      simpa using h.erase m
    rw [pktmbufFreeBulk, Proc.bind_ret (pktmbufFree_run (h.subset List.mem_cons_self)),
      ih (w := {w with held := w.held.erase m, log := w.log ++ [.free m]}) hms, List.diff_cons]
    simp

theorem pktmbufFreeBulk_all {ms : List Nat} {w : Wire α} (h : w.held = ms) :
    pktmbufFreeBulk ms w = .ret () {w with held := [], log := w.log ++ ms.map .free} := by
  rw [pktmbufFreeBulk_run (by rw [h]), h, diff_self]

theorem pktmbufFreeBulk_crash {ms : List Nat} {w : Wire α} (h : ¬ms.Subperm w.held) :
    pktmbufFreeBulk ms w = .crash .danglingPointer := by
  induction ms generalizing w with
  | nil => exact absurd List.nil_subperm h
  | cons m ms ih =>
    by_cases hm : m ∈ w.held
    · rw [pktmbufFreeBulk, Proc.bind_ret (pktmbufFree_run hm)]
      refine ih (w := {w with held := w.held.erase m, log := w.log ++ [.free m]}) fun hms => h ?_
      exact ((List.subperm_cons m).mpr hms).trans (List.perm_cons_erase hm).symm.subperm
    · rw [pktmbufFreeBulk, Proc.bind_crash (pktmbufFree_crash hm)]

theorem accepted_le (w : Wire α) (n : Nat) : w.accepted n ≤ n := Nat.min_le_right _ _

theorem txBurst_run {pid aid : Nat} {ms : List Nat} {w : Wire α} (hall : ∀ m ∈ ms, m ∈ w.held)
    (htake : (ms.take (w.accepted ms.length)).Subperm w.held) :
    txBurst pid aid ms w = .ret (w.accepted ms.length)
      {w with outcomes := w.outcomes.tail, held := w.held.diff (ms.take (w.accepted ms.length)),
              log := w.log ++ [.tx pid aid (ms.take (w.accepted ms.length))]} := by
  rw [txBurst, Proc.get_bind, if_pos hall, Proc.set_bind,
    Proc.bind_ret (release_run (w := {w with outcomes := w.outcomes.tail}) htake), Proc.modify_bind]
  rfl

theorem txBurst_owned (pid aid : Nat) (ms : List Nat) {w : Wire α} (h : ms.Subperm w.held) :
    txBurst pid aid ms w = .ret (w.accepted ms.length)
      {w with outcomes := w.outcomes.tail, held := w.held.diff (ms.take (w.accepted ms.length)),
              log := w.log ++ [.tx pid aid (ms.take (w.accepted ms.length))]} :=
  txBurst_run (fun _ hm => h.subset hm) ((List.take_sublist _ _).subperm.trans h)

theorem txBurst_crash {pid aid : Nat} {ms : List Nat} {w : Wire α} (h : ¬∀ m ∈ ms, m ∈ w.held) :
    txBurst pid aid ms w = .crash .danglingPointer := by
  rw [txBurst, Proc.get_bind, if_neg h]
  rfl

theorem txBurst_twice {pid aid : Nat} {ms : List Nat} {w : Wire α} (hall : ∀ m ∈ ms, m ∈ w.held)
    (htake : ¬(ms.take (w.accepted ms.length)).Subperm w.held) :
    txBurst pid aid ms w = .crash .danglingPointer := by
  rw [txBurst, Proc.get_bind, if_pos hall, Proc.set_bind,
    Proc.bind_crash (release_crash (w := {w with outcomes := w.outcomes.tail}) htake)]

/-- The first `k` bursts have been taken in, `nb` mbufs of each at most. -/
structure Took (nb : Nat) (arrivals : List (List α)) (k : Nat) (w : Wire α) : Prop where
  left : w.arrivals = arrivals.drop k
  mbufs : w.mbufs = (arrivals.take k).flatMap (List.take nb)

theorem Took.next {nb k : Nat} {arrivals : List (List α)} {w w' : Wire α} (h : Took nb arrivals k w)
    (hleft : w'.arrivals = w.arrivals.tail) (hmbufs : w'.mbufs = w.mbufs ++ (w.arrivals.headD []).take nb) :
    Took nb arrivals (k + 1) w' := by
  refine ⟨by rw [hleft, h.left, List.tail_drop], ?_⟩
  rw [hmbufs, h.mbufs, h.left, List.take_add_one, List.flatMap_append]
  cases hk : arrivals[k]? with
  | none =>
    rw [List.drop_eq_nil_of_le (List.getElem?_eq_none_iff.mp hk)]
    simp
  | some burst =>
    obtain ⟨hlt, rfl⟩ := List.getElem?_eq_some_iff.mp hk
    rw [List.drop_eq_getElem_cons hlt]
    simp [hlt]

theorem rxBurst_run (pid aid nb : Nat) (w : Wire α) :
    ∃ mbufs w', rxBurst pid aid nb w = .ret mbufs w' ∧ mbufs.Nodup ∧ w'.held = w.held ++ mbufs ∧
      w'.log = w.log ++ [.rx pid aid mbufs] ∧ w'.arrivals = w.arrivals.tail ∧
      w'.mbufs = w.mbufs ++ (w.arrivals.headD []).take nb ∧ w'.outcomes = w.outcomes :=
  ⟨_, _, rfl, List.nodup_range', rfl, rfl, rfl, rfl, rfl⟩

theorem mbufAt_run {m : Nat} {x : α} {w : Wire α} (hm : m ∈ w.held) (hx : w.mbufs[m]? = some x) :
    mbufAt m w = .ret x w := by
  rw [mbufAt, Proc.get_bind, if_pos hm, hx]
  rfl

theorem mbufAt_crash {m : Nat} {w : Wire α} (hm : m ∉ w.held) : mbufAt m w = .crash .danglingPointer := by
  rw [mbufAt, Proc.get_bind, if_neg hm]
  rfl

theorem modifyMbuf_run {m : Nat} {x : α} {w : Wire α} (hm : m ∈ w.held) (hx : w.mbufs[m]? = some x)
    (f : α → α) : modifyMbuf m f w = .ret () {w with mbufs := w.mbufs.set m (f x)} := by
  rw [modifyMbuf, Proc.bind_ret (mbufAt_run hm hx)]
  rfl

theorem at?_run {mbufs : List Nat} {i : Nat} (hi : i < mbufs.length) (w : Wire α) :
    at? mbufs i w = .ret mbufs[i] w := by
  rw [at?, List.getElem?_eq_getElem hi]
  rfl

/-! ### A burst in hand -/

/-- The worker owns the burst it received, `mbufs` with the packets `burst`, and nothing else. -/
structure Holds (mbufs : List Nat) (burst : List α) (w : Wire α) : Prop where
  held : w.held = mbufs
  nodup : mbufs.Nodup
  data : mbufs.map (w.mbufs[·]?) = burst.map some

/-- What a worker is to do with a burst: the acts dispose of each mbuf once. -/
structure Disposes (mbufs : List Nat) (w w' : Wire α) (acts : List Act) : Prop where
  log : w'.log = w.log ++ acts
  arrivals : w'.arrivals = w.arrivals
  held : w'.held = []
  gone : (acts.flatMap Act.gone).Perm mbufs

theorem Disposes.once {mbufs : List Nat} {w w' : Wire α} {acts : List Act} (h : Disposes mbufs w w' acts)
    (hnodup : mbufs.Nodup) {m : Nat} (hm : m ∈ mbufs) : (acts.flatMap Act.gone).count m = 1 := by
  rw [h.gone.count_eq]
  exact List.count_eq_one_of_mem hnodup hm

theorem Holds.length {mbufs : List Nat} {burst : List α} {w : Wire α} (h : Holds mbufs burst w) :
    mbufs.length = burst.length := by
  simpa using congrArg List.length h.data

theorem Holds.packet {mbufs : List Nat} {burst : List α} {w : Wire α} (h : Holds mbufs burst w) {i : Nat}
    (hi : i < mbufs.length) : w.mbufs[mbufs[i]]? = some (burst.get ⟨i, h.length ▸ hi⟩) := by
  have hdata := congrArg (·[i]?) h.data
  simpa [hi, h.length ▸ hi] using hdata

theorem rxBurst_holds {pid aid nb : Nat} {w : Wire α} (hheld : w.held = []) :
    Proc.Returns (rxBurst pid aid nb) w fun mbufs w' =>
      Holds mbufs ((w.arrivals.headD []).take nb) w' ∧ w'.arrivals = w.arrivals.tail := by
  refine ⟨_, _, rfl, ⟨by simp [hheld], List.nodup_range', ?_⟩, rfl⟩
  apply List.ext_getElem
  · simp
  · intro i hi hi'
    have hlt : i < ((w.arrivals.headD []).take nb).length := by simpa using hi'
    simp only [List.getElem_map, List.getElem_range', Nat.one_mul]
    rw [List.getElem?_append_right (Nat.le_add_right _ i), Nat.add_sub_cancel_left]
    exact List.getElem?_eq_getElem hlt

/-! ### Every mbuf once -/

/-- Receptions are numbered, and what was received is owned or gone, never both. -/
structure Balanced (w : Wire α) : Prop where
  numbers : w.received = List.range w.mbufs.length
  owned : w.received.Perm (w.held ++ w.gone)

@[simp] theorem received_append (w : Wire α) (as : List Act) :
    ({w with log := w.log ++ as} : Wire α).received = w.received ++ as.flatMap Act.received := by
  simp [received]

/-- A worker that owns nothing has disposed of every mbuf it received, once. -/
theorem Balanced.disposed_once {w : Wire α} (h : w.Balanced) (hheld : w.held = []) {m : Nat}
    (hm : m ∈ w.received) : w.gone.count m = 1 := by
  have hperm : w.received.Perm w.gone := by simpa [hheld] using h.owned
  rw [← hperm.count_eq, h.numbers]
  refine List.count_eq_one_of_mem List.nodup_range ?_
  rwa [← h.numbers]

theorem balanced_start (arrivals : List (List α)) (outcomes : List Nat) :
    ({arrivals := arrivals, outcomes := outcomes} : Wire α).Balanced :=
  ⟨rfl, .refl _⟩

/-- Ownership of `ms` has been turned into acts that dispose of them. -/
theorem Balanced.dispose {w w' : Wire α} (h : w.Balanced) {ms : List Nat} (hms : ms.Subperm w.held)
    (hmbufs : w'.mbufs.length = w.mbufs.length) (hheld : w'.held = w.held.diff ms)
    {as : List Act} (hlog : w'.log = w.log ++ as) (hgone : as.flatMap Act.gone = ms)
    (hreceived : as.flatMap Act.received = []) : w'.Balanced := by
  have hrec : w'.received = w.received := by simp [received, hlog, hreceived]
  refine ⟨by rw [hrec, h.numbers, hmbufs], ?_⟩
  have hsplit : w.held.Perm (w.held.diff ms ++ ms) :=
    (List.subperm_append_diff_self_of_count_le fun m _ => hms.count_le m).symm.trans List.perm_append_comm
  rw [hrec, hheld]
  refine h.owned.trans ((hsplit.append_right w.gone).trans ?_)
  simp only [gone, hlog, List.flatMap_append, hgone, List.append_assoc]
  exact List.Perm.append_left _ List.perm_append_comm

section Within
open Proc (Preserves Meets within_bind within_pure within_ite within_crash)

theorem Balanced.receive {w : Wire α} (h : w.Balanced) (pid aid : Nat) (arrived : List α)
    (arrivals : List (List α)) :
    ({w with arrivals := arrivals, mbufs := w.mbufs ++ arrived,
             held := w.held ++ List.range' w.mbufs.length arrived.length,
             log := w.log ++ [.rx pid aid (List.range' w.mbufs.length arrived.length)]} : Wire α).Balanced := by
  obtain ⟨hnumbers, howned⟩ := h
  constructor
  · simp only [received, List.flatMap_append, List.length_append]
    rw [← received, hnumbers, List.range_eq_range', List.range_eq_range']
    simpa [Act.received] using
      List.range'_append_1 (s := 0) (m := w.mbufs.length) (n := arrived.length)
  · simp only [received, gone, List.flatMap_append, List.flatMap_cons, List.flatMap_nil, Act.received,
      Act.gone, List.append_nil, List.append_assoc]
    refine (howned.append_right _).trans ?_
    rw [List.append_assoc]
    exact List.Perm.append_left _ List.perm_append_comm

theorem preserves_rxBurst (pid aid nb : Nat) : Preserves Balanced (rxBurst pid aid nb : Proc (Wire α) _) :=
  fun w => Proc.meets_of_ret rfl fun h => h.receive pid aid ((w.arrivals.headD []).take nb) w.arrivals.tail

theorem preserves_txBurst (pid aid : Nat) (ms : List Nat) :
    Preserves Balanced (txBurst pid aid ms : Proc (Wire α) _) := by
  intro w
  by_cases hall : ∀ m ∈ ms, m ∈ w.held
  · by_cases htake : (ms.take (w.accepted ms.length)).Subperm w.held
    · refine Proc.meets_of_ret (txBurst_run hall htake) fun h => h.dispose htake rfl rfl rfl ?_ rfl
      simp [Act.gone]
    · exact Proc.meets_of_crash (txBurst_twice hall htake)
  · exact Proc.meets_of_crash (txBurst_crash hall)

theorem preserves_pktmbufFree (m : Nat) : Preserves Balanced (pktmbufFree m : Proc (Wire α) _) := by
  intro w
  by_cases hm : m ∈ w.held
  · refine Proc.meets_of_ret (pktmbufFree_run hm) fun h =>
      h.dispose (List.singleton_subperm_iff.mpr hm) rfl ?_ rfl rfl rfl
    simp
  · exact Proc.meets_of_crash (pktmbufFree_crash hm)

theorem preserves_pktmbufFreeBulk (ms : List Nat) :
    Preserves Balanced (pktmbufFreeBulk ms : Proc (Wire α) _) := by
  induction ms with
  | nil => exact within_pure _
  | cons m ms ih => exact within_bind (preserves_pktmbufFree m) fun _ => ih

theorem preserves_mbufAt (m : Nat) : Preserves Balanced (mbufAt m : Proc (Wire α) _) := by
  refine within_bind Proc.within_get fun w => within_ite ?_ (within_crash _)
  split
  · exact within_crash _
  · exact within_pure _

theorem preserves_at? (ms : List Nat) (i : Nat) : Preserves Balanced (at? ms i : Proc (Wire α) _) := by
  unfold at?
  split
  · exact within_crash _
  · exact within_pure _

end Within

end Wire

end Susanow
