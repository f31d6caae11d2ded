import Susanow.Ma.Accessor

/-! `ssn_ma_port`: a physical port whose hardware queues are shared by threads.

Each side (rx, tx) keeps a table of (queue, accessor) pairs and one accessor per
thread. Configuring a side writes the counts and empties the table first; the
divisibility check sits inside the loop that fills the table. -/
namespace Susanow.MaPort

/-- `ssn_ma_port_queue` -/
structure Queue where
  queId : Nat
  accId : Nat
  deriving DecidableEq, Repr

/-- `ssn_ma_port_oneside` -/
structure Oneside where
  dpdkPortId : Nat := 0
  nQueues : Nat := 1
  nAccessor : Nat := 1
  queues : List Queue := []
  accessors : List Accessor := [{}]
  deriving DecidableEq, Repr

namespace Oneside

def getQidsFromAid (o : Oneside) (aid : Nat) : List Nat :=
  (o.queues.filter fun q => q.accId == aid).map Queue.queId

def indivisible (nQue nAcc : Nat) : String :=
  "ssn_ma_port::ssn_ma_port_oneside::n_queues_per_accessor: n_que=" ++ toString nQue ++
    ", n_acc=" ++ toString nAcc

def nQueuesPerAccessor : Proc Oneside Nat := do
  let o ← Proc.get
  if o.nAccessor = 0 then Proc.crash .divisionByZero
  else if o.nQueues % o.nAccessor ≠ 0 then Proc.throw (indivisible o.nQueues o.nAccessor)
  else pure (o.nQueues / o.nAccessor)

/-- The first loop, up to accessor `n`: returns the running `qid`. -/
def fillQueues : Nat → Proc Oneside Nat
  | 0 => pure 0
  | aid + 1 => do
    let qid ← fillQueues aid
    let nb ← nQueuesPerAccessor
    Proc.modify fun o =>
      {o with queues := o.queues ++ (List.range nb).map fun piv => ⟨qid + piv, aid⟩}
    pure (qid + nb)

/-- One round of the second loop: `accessors[aid].set(get_qids_from_aid(aid))`. -/
def setAccessor (aid : Nat) : Proc Oneside Unit :=
  Proc.modify fun o => {o with accessors := o.accessors.set aid (Accessor.set (o.getQidsFromAid aid))}

def configureQueueAccessor (dpdkPid nQue nAcc : Nat) : Proc Oneside Unit := do
  Proc.modify fun o =>
    {o with dpdkPortId := dpdkPid, nQueues := nQue, nAccessor := nAcc, queues := [],
            accessors := resize {} nAcc o.accessors}
  let _ ← fillQueues nAcc
  Proc.forRange setAccessor nAcc

def onAccessors {α : Type} (p : Proc (List Accessor) α) : Proc Oneside α :=
  Proc.zoom Oneside.accessors (fun o accs => {o with accessors := accs}) p

/-- The queue a burst on `aid` goes to. -/
def burst (aid : Nat) : Proc Oneside Nat := onAccessors (Accessor.getAt aid)

def getNextQidFromAid (o : Oneside) (aid : Nat) : Option Nat := Accessor.getCurrentAt o.accessors aid

/-- Bursts one after the other, on any accessors: the queues they go to. -/
def bursts : List Nat → Proc Oneside (List Nat)
  | [] => pure []
  | aid :: rest => do
    let qid ← burst aid
    let qids ← bursts rest
    pure (qid :: qids)

end Oneside

end Susanow.MaPort

namespace Susanow
open MaPort

/-- `ssn_ma_port`, an entry of the global array `vnf_ports`. -/
structure MaPort where
  dpdkPid : Nat := 0
  nRxq : Nat := 0
  nTxq : Nat := 0
  rx : Oneside := {}
  tx : Oneside := {}
  deriving DecidableEq, Repr

namespace MaPort

def configureHwqueue (dpdkPid nRxq nTxq : Nat) (m : MaPort) : MaPort :=
  {m with nRxq := nRxq, nTxq := nTxq, dpdkPid := dpdkPid}

def onRx (p : Proc Oneside Unit) : Proc MaPort Unit :=
  Proc.zoom MaPort.rx (fun m o => {m with rx := o}) p

def onTx (p : Proc Oneside Unit) : Proc MaPort Unit :=
  Proc.zoom MaPort.tx (fun m o => {m with tx := o}) p

/-- Rx first, then tx: a tx count that does not divide throws after rx has changed. -/
def configureAccessor (nRxacc nTxacc : Nat) : Proc MaPort Unit := do
  let m ← Proc.get
  onRx (Oneside.configureQueueAccessor m.dpdkPid m.nRxq nRxacc)
  onTx (Oneside.configureQueueAccessor m.dpdkPid m.nTxq nTxacc)

end MaPort

/-! ### Configuring a side -/

namespace MaPort.Oneside
open RoundRobin (slice)

/-- The table after the rows of accessors `0 … n-1` have been written. -/
def rows (q n : Nat) : List Queue :=
  (List.range n).flatMap fun aid => (List.range q).map fun piv => ⟨aid * q + piv, aid⟩

theorem rows_succ (q n : Nat) :
    rows q (n + 1) = rows q n ++ (List.range q).map fun piv => ⟨n * q + piv, n⟩ := by
  simp [rows, List.range_succ, List.flatMap_append]

/-- A side as the first statements of `configure_queue_accessor` leave it. -/
def cleared (dpdkPid nQue nAcc : Nat) (o : Oneside) : Oneside :=
  {o with dpdkPortId := dpdkPid, nQueues := nQue, nAccessor := nAcc, queues := [],
          accessors := resize {} nAcc o.accessors}

theorem nQueuesPerAccessor_run {o : Oneside} (hpos : 0 < o.nAccessor) (hdvd : o.nAccessor ∣ o.nQueues) :
    nQueuesPerAccessor o = .ret (o.nQueues / o.nAccessor) o := by
  have h0 : o.nAccessor ≠ 0 := by omega
  have hmod := Nat.mod_eq_zero_of_dvd hdvd
  simp [nQueuesPerAccessor, h0, hmod]

theorem nQueuesPerAccessor_throws {o : Oneside} (hpos : 0 < o.nAccessor)
    (hdvd : ¬ o.nAccessor ∣ o.nQueues) :
    nQueuesPerAccessor o = .throws (indivisible o.nQueues o.nAccessor) o := by
  have h0 : o.nAccessor ≠ 0 := by omega
  have hmod : o.nQueues % o.nAccessor ≠ 0 := fun h => hdvd (Nat.dvd_of_mod_eq_zero h)
  simp [nQueuesPerAccessor, h0, hmod]

theorem fillQueues_run {o : Oneside} (hpos : 0 < o.nAccessor) (hdvd : o.nAccessor ∣ o.nQueues)
    (hempty : o.queues = []) (n : Nat) :
    fillQueues n o = .ret (n * (o.nQueues / o.nAccessor))
      {o with queues := rows (o.nQueues / o.nAccessor) n} := by
  induction n with
  | zero => simp [fillQueues, rows, ← hempty]
  | succ n ih =>
    have hnb := nQueuesPerAccessor_run
      (o := {o with queues := rows (o.nQueues / o.nAccessor) n}) hpos hdvd
    simp only [fillQueues, Proc.bind_run, ih, hnb, Proc.modify_run, Proc.pure_run, rows_succ,
      Nat.succ_mul]

theorem getQidsFromAid_rows {o : Oneside} {q n aid : Nat} (h : o.queues = rows q n) (ha : aid < n) :
    o.getQidsFromAid aid = slice q aid := by
  rw [getQidsFromAid, h]
  clear h
  induction n with
  | zero => omega
  | succ n ih =>
    rw [rows_succ, List.filter_append, List.map_append]
    rcases Nat.lt_succ_iff_lt_or_eq.mp ha with hlt | rfl
    · have hne : (n == aid) = false := by simpa using (by omega : n ≠ aid)
      rw [ih hlt]
      simp [List.filter_map, Function.comp_def, hne]
    · have hold : (rows q aid).filter (fun p => p.accId == aid) = [] := by
        rw [List.filter_eq_nil_iff]
        intro p hp
        obtain ⟨b, hb, hp⟩ := List.mem_flatMap.mp hp
        obtain ⟨piv, -, rfl⟩ := List.mem_map.mp hp
        have := List.mem_range.mp hb
        simp
        omega
      rw [hold]
      simp [List.filter_map, Function.comp_def, slice, List.range'_eq_map_range]

/-- The check fails in the first round, before a row is written. -/
theorem fillQueues_throws {o : Oneside} (hpos : 0 < o.nAccessor) (hdvd : ¬ o.nAccessor ∣ o.nQueues)
    (n : Nat) : fillQueues (n + 1) o = .throws (indivisible o.nQueues o.nAccessor) o := by
  induction n with
  | zero =>
    simp only [fillQueues, Proc.pure_bind]
    exact Proc.bind_throws (nQueuesPerAccessor_throws hpos hdvd)
  | succ n ih =>
    rw [fillQueues]
    exact Proc.bind_throws ih

/-- What a successful configuration leaves: every accessor at the head of its slice. -/
structure Configured (dpdkPid nQue nAcc : Nat) (o : Oneside) : Prop where
  dpdkPortId : o.dpdkPortId = dpdkPid
  nQueues : o.nQueues = nQue
  nAccessor : o.nAccessor = nAcc
  queues : o.queues = rows (nQue / nAcc) nAcc
  length : o.accessors.length = nAcc
  accessors : ∀ aid < nAcc, o.accessors[aid]? = some (Accessor.set (slice (nQue / nAcc) aid))

/-- After `k` rounds of the second loop the first `k` accessors hold their slices. -/
theorem setAccessors_returns {o : Oneside} {q n : Nat} (hrows : o.queues = rows q n)
    (hlen : o.accessors.length = n) :
    Proc.Returns (Proc.forRange setAccessor n) o fun _ o' =>
      (∃ accs, o' = {o with accessors := accs}) ∧ o'.accessors.length = n ∧
        ∀ aid < n, o'.accessors[aid]? = some (Accessor.set (slice q aid)) := by
  refine Proc.returns_forRange (fun k o' => (∃ accs, o' = {o with accessors := accs}) ∧
    o'.accessors.length = n ∧ ∀ aid < k, o'.accessors[aid]? = some (Accessor.set (slice q aid)))
    ⟨⟨o.accessors, rfl⟩, hlen, fun aid h => absurd h (Nat.not_lt_zero aid)⟩ ?_
  rintro k hk o' ⟨⟨accs, rfl⟩, hlen', hset⟩
  have hqids : getQidsFromAid {o with accessors := accs} k = slice q k :=
    getQidsFromAid_rows (o := {o with accessors := accs}) hrows hk
  refine ⟨(), _, rfl, ⟨_, rfl⟩, by simpa using hlen', fun aid haid => ?_⟩
  show (accs.set k (Accessor.set (getQidsFromAid {o with accessors := accs} k)))[aid]? = _
  rw [hqids, List.getElem?_set]
  split
  · next h =>
    subst h
    simp [show k < accs.length by simpa [hlen'] using hk]
  · exact hset aid (by omega)

theorem configure_returns (o : Oneside) (dpdkPid nQue nAcc : Nat) (h : nAcc = 0 ∨ nAcc ∣ nQue) :
    Proc.Returns (configureQueueAccessor dpdkPid nQue nAcc) o fun _ o' =>
      Configured dpdkPid nQue nAcc o' := by
  have hfill : fillQueues nAcc (cleared dpdkPid nQue nAcc o) = .ret (nAcc * (nQue / nAcc))
      {cleared dpdkPid nQue nAcc o with queues := rows (nQue / nAcc) nAcc} := by
    rcases Nat.eq_zero_or_pos nAcc with rfl | hpos
    · simp [fillQueues, cleared, rows]
    · exact fillQueues_run (o := cleared dpdkPid nQue nAcc o) hpos
        (h.resolve_left (by omega)) rfl nAcc
  obtain ⟨u, o', hloop, ⟨accs, rfl⟩, hlen, hset⟩ := setAccessors_returns
    (o := {cleared dpdkPid nQue nAcc o with queues := rows (nQue / nAcc) nAcc}) rfl
    (by simp [cleared])
  refine ⟨u, _, ?_, rfl, rfl, rfl, rfl, hlen, hset⟩
  rw [configureQueueAccessor, Proc.modify_bind]
  exact (Proc.bind_ret hfill).trans hloop

theorem configure_throws (o : Oneside) (dpdkPid nQue nAcc : Nat) (hpos : 0 < nAcc)
    (hdvd : ¬ nAcc ∣ nQue) : configureQueueAccessor dpdkPid nQue nAcc o =
      .throws (indivisible nQue nAcc) (cleared dpdkPid nQue nAcc o) := by
  obtain ⟨n, rfl⟩ : ∃ n, nAcc = n + 1 := ⟨nAcc - 1, by omega⟩
  rw [configureQueueAccessor, Proc.modify_bind]
  exact Proc.bind_throws (fillQueues_throws (o := cleared dpdkPid nQue (n + 1) o) hpos hdvd n)

/-! ### Bursts on a configured side -/

theorem burst_run {o : Oneside} {aid qid : Nat} {accs : List Accessor}
    (h : Accessor.getAt aid o.accessors = .ret qid accs) :
    burst aid o = .ret qid {o with accessors := accs} := by
  simp [burst, onAccessors, Proc.zoom, h]

theorem burst_crash {o : Oneside} {aid : Nat} {c : Crash}
    (h : Accessor.getAt aid o.accessors = .crash c) : burst aid o = .crash c := by
  simp [burst, onAccessors, Proc.zoom, h]

open Accessor (AllTurned)

theorem Configured.turned {dpdkPid nQue nAcc : Nat} {o : Oneside} (h : Configured dpdkPid nQue nAcc o) :
    AllTurned (nQue / nAcc) nAcc (fun _ => 0) o.accessors :=
  Accessor.allTurned_set h.length h.accessors

/-- Bursts on any accessors in any order go where round robin sends them. -/
theorem bursts_returns {q n : Nat} {seen : Nat → Nat} {o : Oneside}
    (h : AllTurned q n seen o.accessors) (hq : 0 < q) (calls : List Nat)
    (hcalls : ∀ aid ∈ calls, aid < n) :
    Proc.Returns (bursts calls) o fun qids o' => qids = RoundRobin.turns q seen calls ∧
      AllTurned q n (fun a => seen a + calls.count a) o'.accessors := by
  induction calls generalizing seen o with
  | nil => exact Proc.returns_pure ⟨rfl, by simpa using h⟩
  | cons aid rest ih =>
    obtain ⟨accs, hget, hturned⟩ := h.getAt hq (hcalls aid List.mem_cons_self)
    obtain ⟨qids, o', hrest, rfl, hturned'⟩ := ih (o := {o with accessors := accs}) hturned
      fun a ha => hcalls a (List.mem_cons_of_mem _ ha)
    rw [Accessor.update_add_count] at hturned'
    refine ⟨_, o', ?_, rfl, hturned'⟩
    rw [bursts, Proc.bind_ret (burst_run hget), Proc.bind_ret hrest]
    rfl

theorem bursts_crash {n : Nat} {seen : Nat → Nat} {o : Oneside} (h : AllTurned 0 n seen o.accessors)
    {aid : Nat} (haid : aid < n) (rest : List Nat) :
    bursts (aid :: rest) o = .crash .divisionByZero := by
  rw [bursts, Proc.bind_crash (burst_crash (h.getAt_crash haid))]

/-! ### What a configured side does for its threads -/

def quesOf (o : Oneside) (aid : Nat) : List Nat := (o.accessors[aid]?).elim [] Accessor.ques

/-- Read in order, the lists are `0 … nQue-1`: every queue in exactly one list, once. -/
structure Partitions (nQue nAcc : Nat) (o : Oneside) : Prop where
  length : o.accessors.length = nAcc
  lists : (List.range nAcc).flatMap o.quesOf = List.range nQue
  share : ∀ aid < nAcc, (o.quesOf aid).length = nQue / nAcc
  ascending : ∀ aid < nAcc, (o.quesOf aid).Pairwise (· < ·)

/-- A list of calls answered with `qids` and leading to `o'`, seen from the threads:
no queue of one's own is skipped or met twice in a round, nobody else's is met, and
`get_current` announces the next answer. -/
structure Served (share : Nat) (o : Oneside) (calls qids : List Nat) (o' : Oneside) : Prop where
  length : qids.length = calls.length
  round : ∀ aid i, i + share ≤ calls.count aid →
    (((RoundRobin.answers aid calls qids).drop i).take share).Perm (o.quesOf aid)
  private_queues : ∀ j k a b x : Nat, calls[j]? = some a → calls[k]? = some b → qids[j]? = some x →
    qids[k]? = some x → a = b
  announced : ∀ (aid x : Nat) (o'' : Oneside), burst aid o' = .ret x o'' → o'.getNextQidFromAid aid = some x

theorem quesOf_turned {q n : Nat} {seen : Nat → Nat} {o : Oneside}
    (h : AllTurned q n seen o.accessors) {aid : Nat} (haid : aid < n) : o.quesOf aid = slice q aid := by
  obtain ⟨acc, hacc, rfl⟩ := h.2 aid haid
  simp [quesOf, hacc]

theorem partitions_of_turned {n nQue : Nat} {o : Oneside} {seen : Nat → Nat} (hdvd : n ∣ nQue)
    (h : AllTurned (nQue / n) n seen o.accessors) : Partitions nQue n o where
  length := h.1
  lists := by
    have hlists : (List.range n).flatMap o.quesOf = (List.range n).flatMap (slice (nQue / n)) :=
      List.flatMap_congr fun aid haid => quesOf_turned h (List.mem_range.mp haid)
    rw [hlists, RoundRobin.flatMap_slice, Nat.mul_div_cancel' hdvd]
  share := fun aid haid => by rw [quesOf_turned h haid, RoundRobin.length_slice]
  ascending := fun aid haid => by
    rw [quesOf_turned h haid]
    exact RoundRobin.slice_sorted _ aid

/-- `get_current` looks where `get` reads, on any side. -/
theorem getNextQidFromAid_of_burst {o o' : Oneside} {aid x : Nat} (h : burst aid o = .ret x o') :
    o.getNextQidFromAid aid = some x := by
  simp only [burst, onAccessors, Proc.zoom, Accessor.getAt, Proc.get_bind] at h
  cases hacc : o.accessors[aid]? with
  | none => simp [hacc] at h
  | some acc =>
    cases hcur : acc.ques[acc.accessorIdx]? with
    | some q =>
      simp only [hacc, Proc.zoom, Accessor.get_run hcur, Outcome.ret.injEq] at h
      simp [getNextQidFromAid, Accessor.getCurrentAt, hacc, Accessor.getCurrent, hcur, h.1]
    | none =>
      by_cases hz : acc.ques = []
      · simp [hacc, Proc.zoom, Accessor.get_empty hz] at h
      · simp [hacc, Proc.zoom, Accessor.get, hz, hcur] at h

theorem served_of_turned {q n : Nat} {o o' : Oneside} (h : AllTurned q n (fun _ => 0) o.accessors)
    (calls : List Nat) (hcalls : ∀ aid ∈ calls, aid < n) {qids : List Nat}
    (hrun : bursts calls o = .ret qids o') : Served q o calls qids o' := by
  rcases Nat.eq_zero_or_pos q with rfl | hq
  · cases calls with
    | nil =>
      cases hrun
      refine ⟨rfl, fun aid i _ => ?_, fun j k a b x ha => by simp at ha,
        fun _ _ _ => getNextQidFromAid_of_burst⟩
      have hnone : o.quesOf aid = [] := by
        by_cases haid : aid < n
        · simpa [slice] using quesOf_turned h haid
        · simp [quesOf, List.getElem?_eq_none (h.1.trans_le (Nat.le_of_not_lt haid))]
      simp [hnone, RoundRobin.answers]
    | cons aid rest =>
      rw [bursts_crash h (hcalls aid List.mem_cons_self)] at hrun
      cases hrun
  · obtain ⟨_, o₁, hrun', rfl, -⟩ := bursts_returns h hq calls hcalls
    rw [hrun'] at hrun
    cases hrun
    refine ⟨by simp, fun aid i hi => ?_, fun j k a b x ha hb hxa hxb => ?_,
      fun _ _ _ => getNextQidFromAid_of_burst⟩
    · have haid : aid < n := hcalls aid (List.count_pos_iff.mp (by omega))
      rw [quesOf_turned h haid]
      exact RoundRobin.answers_window q _ calls aid i hi
    · exact RoundRobin.slice_disjoint (RoundRobin.getElem?_turns_mem hq _ calls hxa ha)
        (RoundRobin.getElem?_turns_mem hq _ calls hxb hb)

/-- **Queues are dealt out and served fairly.** Whatever a side looked like before, after
a configuration with a dividing count the lists partition the queues, and bursts on any
accessors in any order serve every list round by round. With at least one queue the
bursts return; with none they divide by zero, and nothing is ever answered. -/
theorem configured_side_serves (o : Oneside) (dpdkPid nQue nAcc : Nat) (hpos : 1 ≤ nAcc)
    (hdvd : nAcc ∣ nQue) :
    ∃ o', configureQueueAccessor dpdkPid nQue nAcc o = .ret () o' ∧ Partitions nQue nAcc o' ∧
      ∀ calls : List Nat, (∀ aid ∈ calls, aid < nAcc) →
        (0 < nQue → ∃ qids o'', bursts calls o' = .ret qids o'') ∧
        ∀ qids o'', bursts calls o' = .ret qids o'' → Served (nQue / nAcc) o' calls qids o'' := by
  obtain ⟨_, o', hrun, hconf⟩ := configure_returns o dpdkPid nQue nAcc (.inr hdvd)
  refine ⟨o', hrun, partitions_of_turned hdvd hconf.turned, fun calls hcalls => ⟨fun hque => ?_,
    fun qids o'' h => served_of_turned hconf.turned calls hcalls h⟩⟩
  have hq : 0 < nQue / nAcc := Nat.div_pos (Nat.le_of_dvd hque hdvd) (by omega)
  obtain ⟨qids, o'', h, -⟩ := bursts_returns hconf.turned hq calls hcalls
  exact ⟨qids, o'', h⟩

theorem configured_side_serves_eight_by_two :
    ∃ o', configureQueueAccessor 0 8 2 {} = .ret () o' ∧ Partitions 8 2 o' ∧
      ∀ calls : List Nat, (∀ aid ∈ calls, aid < 2) →
        (0 < 8 → ∃ qids o'', bursts calls o' = .ret qids o'') ∧
        ∀ qids o'', bursts calls o' = .ret qids o'' → Served (8 / 2) o' calls qids o'' :=
  configured_side_serves {} 0 8 2 (by decide) (by decide)

end MaPort.Oneside

end Susanow
