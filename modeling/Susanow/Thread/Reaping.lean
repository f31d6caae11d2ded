import Susanow.Thread.Green

/-! Joining green threads from any number of callers.

`ssn_green_thread_join` polls `ssn_green_thread_joinable` in one critical section after the
other, and takes the entry out of the table in one more, by its id. What happens between two
sections is everything other callers may do. A join has the thread that its first poll finds;
as ids come round, another thread may have the id by the time of a later section. -/
namespace Susanow

inductive JoinState
  | polling
  -- the thread was seen dead
  | erasing
  -- with the thread whose entry was removed
  | returned (removed : Nat)
  | threw (what : String)
  deriving DecidableEq, Repr

/-- A call of `ssn_green_thread_join` from its first poll on, and the thread found there. -/
structure Join where
  tid : BitVec 32
  thread : Option Nat
  state : JoinState
  deriving DecidableEq, Repr

namespace Join

/-- The entry that the join removed. -/
def removed? (j : Join) : Option Nat :=
  match j.state with
  | .returned t => some t
  | _ => none

def what? (j : Join) : Option String :=
  match j.state with
  | .threw w => some w
  | _ => none

/-- Sections of the join are still to come. -/
def UnderWay (j : Join) : Prop := j.state = .polling ∨ j.state = .erasing

instance (j : Join) : Decidable j.UnderWay := inferInstanceAs (Decidable (_ ∨ _))

end Join

structure Joins where
  th : Threads
  joins : List Join := []
  -- the threads that have set `dead`
  died : List Nat := []

inductive Section
  -- `ssn_green_thread_joinable`, by itself and as the first poll of a join
  | joinable (tid : BitVec 32)
  | join (tid : BitVec 32)
  -- join `k` polls once more; it looks for the entry to erase
  | poll (k : Nat)
  | erase (k : Nat)
  -- `sl->dead = true`
  | complete (thread : Nat)
  | deed (d : Deed)
  deriving DecidableEq, Repr

/-- What neither joins nor completes a thread. -/
def Deed.launches : Deed → Bool
  | .join _ => false
  | .greenEnd _ => false
  | _ => true

namespace Joins

def init (nLcore : Nat) : Joins := {th := .init nLcore}

def polled (th : Threads) (tid : BitVec 32) : Option JoinState :=
  match Threads.greenThreadJoinable tid th with
  | .ret true _ => some .erasing
  | .ret false _ => some .polling
  | .throws w _ => some (.threw w)
  | .crash _ => none

/-- The thread that has the id. -/
def holder (th : Threads) (tid : BitVec 32) : Option Nat :=
  (th.threads.find? (·.tid == tid)).map GreenThread.thread

def step (s : Joins) : Section → Option Joins
  | .joinable tid => (polled s.th tid).map fun _ => s
  | .join tid => (polled s.th tid).map fun st => {s with joins := s.joins ++ [⟨tid, holder s.th tid, st⟩]}
  | .poll k =>
    match s.joins[k]? with
    | some ⟨tid, thread, .polling⟩ =>
      (polled s.th tid).map fun st => {s with joins := s.joins.set k ⟨tid, thread, st⟩}
    | _ => none
  | .erase k =>
    match s.joins[k]? with
    | some ⟨tid, thread, .erasing⟩ =>
      match Threads.greenThreadJoin tid s.th with
      | .ret _ th =>
        (holder s.th tid).map fun t => {s with th := th, joins := s.joins.set k ⟨tid, thread, .returned t⟩}
      | .throws w th => some {s with th := th, joins := s.joins.set k ⟨tid, thread, .threw w⟩}
      | .crash _ => none
    | _ => none
  | .complete thread =>
    if thread ∈ s.th.threads.map GreenThread.thread then
      (s.th.step (.greenEnd thread)).map fun th => {s with th := th, died := thread :: s.died}
    else none
  | .deed d => if d.launches then (s.th.step d).map fun th => {s with th := th} else none

def notFound : List String := ["ssn_green_thread_joinable: tid not found", "ssn_green_thread_join: tid not found"]

/-- Threads are joined after they are dead, each by one join, which removes its entry and no
other; the other joins throw. -/
structure Reaped (s : Joins) : Prop where
  dead : ∀ j ∈ s.joins, ∀ t, j.removed? = some t → t ∈ s.died
  own : ∀ j ∈ s.joins, ∀ t, j.removed? = some t → j.thread = some t
  throws : ∀ j ∈ s.joins, ∀ w, j.what? = some w → w ∈ notFound
  -- what was removed is what joins that have returned removed
  removed : s.th.joined.Perm (s.joins.filterMap Join.removed?)
  once : ∀ r ∈ s.th.returned, r.green = true →
    (s.th.threads.map GreenThread.thread).count r.thread + s.th.joined.count r.thread = 1
  -- of the joins of a thread, one returns if any comes to an end
  one : ∀ j ∈ s.joins, ∀ t, j.thread = some t → ¬j.UnderWay → (s.joins.filterMap Join.removed?).count t = 1

/-- The id a launch gives, if it launches a green thread. -/
def newTid? (th : Threads) : Deed → Option (BitVec 32)
  | .launch l => if l ≠ 0 ∧ th.lcoreState l = .runningGreen then some (greenTid l th.subtid) else none
  | .greenLaunch l => if th.lcoreState l = .runningGreen then some (greenTid l th.subtid) else none
  | _ => none

/-- No launch gives the id of a thread in the table. -/
def LiveDistinct (s : Joins) : Section → Prop
  | .deed d => ∀ tid ∈ newTid? s.th d, ∀ g ∈ s.th.threads, g.tid ≠ tid
  | _ => True

/-- Nor one that a join under way is for. -/
def Unclaimed (s : Joins) : Section → Prop
  | .deed d => ∀ tid ∈ newTid? s.th d, (∀ g ∈ s.th.threads, g.tid ≠ tid) ∧
      ∀ j ∈ s.joins, j.UnderWay → j.tid ≠ tid
  | _ => True

/-! ### What steps leave of the table -/

/-- A launch leaves the table, or puts one thread behind it. -/
inductive Grown (th : Threads) (d : Deed) (th' : Threads) : Prop
  | same : th'.threads = th.threads → th'.joined = th.joined → th.launches ≤ th'.launches →
      (∀ r ∈ th'.returned, r.green = true → r ∈ th.returned) → Grown th d th'
  | green (g : GreenThread) : g.tid ∈ newTid? th d → g.thread = th.launches → g.dead = false →
      th'.threads = th.threads ++ [g] → th'.joined = th.joined → th.launches < th'.launches →
      (∀ r ∈ th'.returned, r.green = true → r ∈ th.returned ∨ r.thread = g.thread) → Grown th d th'

theorem grown_of_eq {th th' : Threads} {d : Deed} (hth : th'.threads = th.threads) (hj : th'.joined = th.joined)
    (hl : th'.launches = th.launches) (hr : th'.returned = th.returned) : Grown th d th' :=
  .same hth hj (Nat.le_of_eq hl.symm) fun _ h _ => hr ▸ h

theorem grown_greenLaunch {th th' : Threads} {d : Deed} {l : Nat}
    (hd : th.lcoreState l = .runningGreen → newTid? th d = some (greenTid l th.subtid))
    (h : th.after (Threads.greenThreadLaunch l) = some th') : Grown th d th' := by
  simp only [Threads.after, Threads.greenThreadLaunch_run] at h
  split_ifs at h with hlt hgreen
  · cases h
    refine .green ⟨th.launches, l, th.subtid, greenTid l th.subtid, false⟩ (hd hgreen) rfl rfl rfl rfl
      (Nat.lt_succ_self _) fun r hr _ => ?_
    rcases List.mem_append.mp hr with hr | hr
    · exact .inl hr
    · obtain rfl := List.mem_singleton.mp hr
      exact .inr rfl
  · cases h
    exact grown_of_eq rfl rfl rfl rfl

theorem grown_nativeLaunch {th th' : Threads} {d : Deed} {l : Nat}
    (h : th.after (Threads.nativeThreadLaunch l) = some th') : Grown th d th' := by
  simp only [Threads.after, Threads.nativeThreadLaunch_run] at h
  split_ifs at h
  · cases h
    exact grown_of_eq rfl rfl rfl rfl
  · cases h
    refine .same rfl rfl (Nat.le_succ _) fun r hr hgreen => ?_
    rcases List.mem_append.mp hr with hr | hr
    · exact hr
    · obtain rfl := List.mem_singleton.mp hr
      cases hgreen
  · cases h
    exact grown_of_eq rfl rfl rfl rfl

theorem grown_register {th th' : Threads} {d : Deed} {l : Nat}
    (h : th.after (Threads.greenThreadSchedRegister l) = some th') : Grown th d th' := by
  simp only [Threads.after, Threads.greenThreadSchedRegister, Threads.onNative, Proc.bind_run, Proc.zoom] at h
  cases hrun : Native.nativeLaunch none l th.native with
  | ret a n =>
    rw [hrun] at h
    cases h
    exact grown_of_eq rfl rfl rfl rfl
  | throws w n =>
    rw [hrun] at h
    cases h
    exact grown_of_eq rfl rfl rfl rfl
  | crash c =>
    rw [hrun] at h
    cases h

theorem grown_deed {th th' : Threads} {d : Deed} (hd : d.launches = true) (h : th.step d = some th') :
    Grown th d th' := by
  cases d with
  | launch l =>
    simp only [Threads.step, Threads.after, Threads.threadLaunch_run] at h
    split_ifs at h with h0
    · cases h
      exact grown_of_eq rfl rfl rfl rfl
    · exact grown_greenLaunch (fun hgreen => if_pos ⟨h0, hgreen⟩) h
    · exact grown_nativeLaunch h
  | greenLaunch l => exact grown_greenLaunch (fun hgreen => if_pos hgreen) h
  | nativeLaunch l => exact grown_nativeLaunch h
  | register l => exact grown_register h
  | unregister l =>
    simp only [Threads.step, Threads.after, Threads.greenThreadSchedUnregister_run] at h
    split_ifs at h
    · cases h
      exact grown_of_eq rfl rfl rfl rfl
    · cases h
      exact grown_of_eq rfl rfl rfl rfl
  | mark st l =>
    cases h
    exact grown_of_eq rfl rfl rfl rfl
  | start l =>
    obtain ⟨n, -, rfl⟩ := Option.map_eq_some_iff.mp h
    exact grown_of_eq rfl rfl rfl rfl
  | finish l =>
    simp only [Threads.step] at h
    split at h
    · cases h
      exact grown_of_eq rfl rfl rfl rfl
    · cases h
  | greenEnd thread => cases hd
  | join tid => cases hd

/-- What a poll sees. -/
inductive Polled (th : Threads) (tid : BitVec 32) : JoinState → Prop
  | gone : th.threads.find? (·.tid == tid) = none → Polled th tid (.threw "ssn_green_thread_joinable: tid not found")
  | alive (g : GreenThread) : th.threads.find? (·.tid == tid) = some g → g.dead = false → Polled th tid .polling
  | dead (g : GreenThread) : th.threads.find? (·.tid == tid) = some g → g.dead = true → Polled th tid .erasing

theorem polled_some {th : Threads} {tid : BitVec 32} {st : JoinState} (h : polled th tid = some st) :
    Polled th tid st := by
  unfold polled Threads.greenThreadJoinable at h
  rw [Proc.get_bind] at h
  cases hfind : th.threads.find? (·.tid == tid) with
  | none =>
    rw [hfind] at h
    cases h
    exact .gone hfind
  | some g =>
    rw [hfind] at h
    cases hdead : g.dead with
    | true =>
      simp only [hdead] at h
      cases h
      exact .dead g hfind hdead
    | false =>
      simp only [hdead] at h
      cases h
      exact .alive g hfind hdead

/-! ### The invariant -/

theorem find?_tid {th : Threads} {tid : BitVec 32} {g : GreenThread}
    (h : th.threads.find? (·.tid == tid) = some g) : g ∈ th.threads ∧ g.tid = tid :=
  ⟨List.mem_of_find?_eq_some h, by simpa using List.find?_some h⟩

theorem not_mem_of_find?_tid {th : Threads} {tid : BitVec 32} (h : th.threads.find? (·.tid == tid) = none) :
    ¬∃ g ∈ th.threads, g.tid = tid := by
  rintro ⟨g, hg, htid⟩
  have hne := List.find?_eq_none.mp h g hg
  exact hne (beq_iff_eq.mpr htid)

/-- The entry that is found is the one that goes. -/
theorem perm_eraseP {th : Threads} {tid : BitVec 32} {g : GreenThread}
    (h : th.threads.find? (·.tid == tid) = some g) :
    th.threads.Perm (g :: th.threads.eraseP (·.tid == tid)) := by
  obtain ⟨hg, as, bs, hsplit, has⟩ := List.find?_eq_some_iff_append.mp h
  have hnone : ∀ a ∈ as, ¬(a.tid == tid) = true := fun a ha => by simpa using has a ha
  have hhead : (g :: bs).eraseP (·.tid == tid) = bs := List.eraseP_cons_of_pos hg
  rw [hsplit, List.eraseP_append_right _ hnone, hhead]
  exact List.perm_middle

/-- A table whose entries differ in number and id, dead ones having set `dead`, and what was
taken out of it. -/
structure Table (th : Threads) (died : List Nat) : Prop where
  numbered : ∀ g ∈ th.threads, g.thread < th.launches
  gone : ∀ t ∈ th.joined, t < th.launches
  threads : (th.threads.map GreenThread.thread).Nodup
  tids : (th.threads.map GreenThread.tid).Nodup
  joined : th.joined.Nodup
  apart : ∀ g ∈ th.threads, g.thread ∉ th.joined
  dead : ∀ g ∈ th.threads, g.dead = true → g.thread ∈ died
  launched : ∀ r ∈ th.returned, r.green = true →
    r.thread ∈ th.threads.map GreenThread.thread ∨ r.thread ∈ th.joined

/-- The thread of a join under way is in the table, or was joined by another, and no other
thread in the table has its id. -/
structure Held (th : Threads) (died : List Nat) (j : Join) (t : Nat) : Prop where
  thread : j.thread = some t
  alone : ∀ g ∈ th.threads, g.tid = j.tid → g.thread = t
  there : (∃ g ∈ th.threads, g.tid = j.tid) ∨ t ∈ th.joined
  seen : j.state = .erasing → t ∈ died

structure Fine (th : Threads) (died : List Nat) (j : Join) : Prop where
  held : j.UnderWay → ∃ t, Held th died j t
  own : ∀ t, j.removed? = some t → j.thread = some t ∧ t ∈ died
  threw : ∀ w, j.what? = some w → w ∈ notFound ∧ ∀ t, j.thread = some t → t ∈ th.joined

structure Inv (s : Joins) : Prop where
  table : Table s.th s.died
  fine : ∀ j ∈ s.joins, Fine s.th s.died j
  removed : s.th.joined.Perm (s.joins.filterMap Join.removed?)

theorem Inv.init (nLcore : Nat) : (init nLcore).Inv := by
  refine ⟨⟨?_, ?_, List.nodup_nil, List.nodup_nil, List.nodup_nil, ?_, ?_, ?_⟩, ?_, .nil⟩ <;>
    exact fun _ h => absurd h List.not_mem_nil

/-! ### Sections of a join -/

section Polls
variable {th : Threads} {died : List Nat} {tid : BitVec 32}

theorem Table.unique (h : Table th died) {g g' : GreenThread} (hg : g ∈ th.threads) (hg' : g' ∈ th.threads)
    (htid : g.tid = g'.tid) : g = g' :=
  List.inj_on_of_nodup_map h.tids hg hg' htid

/-- A join that is still to go on. -/
theorem fine_of_held {j : Join} {t : Nat} (h : Held th died j t) (hway : j.UnderWay) : Fine th died j := by
  refine ⟨fun _ => ⟨t, h⟩, fun t' ht' => ?_, fun w hw => ?_⟩ <;> rcases hway with hst | hst
  · rw [Join.removed?, hst] at ht'
    cases ht'
  · rw [Join.removed?, hst] at ht'
    cases ht'
  · rw [Join.what?, hst] at hw
    cases hw
  · rw [Join.what?, hst] at hw
    cases hw

/-- A join that throws finds its thread joined. -/
theorem fine_of_threw {thread : Option Nat} {w : String} (hw : w ∈ notFound)
    (ht : ∀ t, thread = some t → t ∈ th.joined) : Fine th died ⟨tid, thread, .threw w⟩ := by
  refine ⟨fun hway => ?_, fun t ht' => ?_, fun w' hw' => ?_⟩
  · rcases hway with h | h <;> cases h
  · cases ht'
  · cases hw'
    exact ⟨hw, ht⟩

/-- The first poll. -/
theorem Table.called (h : Table th died) {st : JoinState} (hp : Polled th tid st) :
    Fine th died ⟨tid, holder th tid, st⟩ := by
  have hheld {g : GreenThread} (hfind : th.threads.find? (·.tid == tid) = some g) {st : JoinState}
      (hseen : st = .erasing → g.dead = true) : Held th died ⟨tid, holder th tid, st⟩ g.thread := by
    obtain ⟨hg, htid⟩ := find?_tid hfind
    refine ⟨by rw [holder, hfind]; rfl, fun g' hg' htid' => ?_, .inl ⟨g, hg, htid⟩, fun hst => ?_⟩
    · rw [h.unique hg' hg (htid'.trans htid.symm)]
    · exact h.dead g hg (hseen hst)
  cases hp with
  | gone hfind =>
    refine fine_of_threw List.mem_cons_self fun t ht => ?_
    rw [holder, hfind] at ht
    cases ht
  | alive g hfind hdead => exact fine_of_held (hheld hfind nofun) (.inl rfl)
  | dead g hfind hdead => exact fine_of_held (hheld hfind fun _ => hdead) (.inr rfl)

/-- A later one. -/
theorem Table.polled (h : Table th died) {thread : Option Nat} {st : JoinState}
    (hj : Fine th died ⟨tid, thread, .polling⟩) (hp : Polled th tid st) : Fine th died ⟨tid, thread, st⟩ := by
  obtain ⟨t, hheld⟩ := hj.held (.inl rfl)
  cases hp with
  | gone hfind =>
    refine fine_of_threw List.mem_cons_self fun t' ht' => ?_
    cases hheld.thread.symm.trans ht'
    exact hheld.there.resolve_left (not_mem_of_find?_tid hfind)
  | alive g hfind hdead => exact hj
  | dead g hfind hdead =>
    obtain ⟨hg, htid⟩ := find?_tid hfind
    refine fine_of_held (t := t) ⟨hheld.thread, hheld.alone, hheld.there, fun _ => ?_⟩ (.inr rfl)
    rw [← hheld.alone g hg htid]
    exact h.dead g hg hdead

/-- The table once an entry was erased. -/
theorem Table.erased (h : Table th died) {g : GreenThread} (hfind : th.threads.find? (·.tid == tid) = some g) :
    Table {th with threads := th.threads.eraseP (·.tid == tid), joined := g.thread :: th.joined} died := by
  obtain ⟨hg, -⟩ := find?_tid hfind
  have hperm := perm_eraseP hfind
  have hsub : (th.threads.eraseP (·.tid == tid)).Sublist th.threads := List.eraseP_sublist
  have hnodup := (hperm.map GreenThread.thread).nodup_iff.mp h.threads
  rw [List.map_cons, List.nodup_cons] at hnodup
  refine ⟨fun g' hg' => h.numbered g' (hsub.subset hg'), fun t ht => ?_, hnodup.2, h.tids.sublist (hsub.map _),
    List.nodup_cons.mpr ⟨h.apart g hg, h.joined⟩, fun g' hg' hmem => ?_, fun g' hg' => h.dead g' (hsub.subset hg'),
    fun r hr hgreen => ?_⟩
  · rcases List.mem_cons.mp ht with rfl | ht
    · exact h.numbered g hg
    · exact h.gone t ht
  · rcases List.mem_cons.mp hmem with heq | hmem
    · exact hnodup.1 (heq ▸ List.mem_map_of_mem hg')
    · exact h.apart g' (hsub.subset hg') hmem
  · rcases h.launched r hr hgreen with hmem | hmem
    · rcases List.mem_cons.mp ((hperm.map GreenThread.thread).mem_iff.mp hmem) with heq | hmem
      · exact .inr (List.mem_cons.mpr (.inl heq))
      · exact .inl hmem
    · exact .inr (List.mem_cons_of_mem _ hmem)

/-- What the erasure leaves of the other joins. -/
theorem Fine.erased {j : Join} (hj : Fine th died j) {g : GreenThread}
    (hfind : th.threads.find? (·.tid == tid) = some g) :
    Fine {th with threads := th.threads.eraseP (·.tid == tid), joined := g.thread :: th.joined} died j := by
  have hperm := perm_eraseP hfind
  have hsub : (th.threads.eraseP (·.tid == tid)).Sublist th.threads := List.eraseP_sublist
  refine ⟨fun hway => ?_, hj.own, fun w hw => ?_⟩
  · obtain ⟨t, hheld⟩ := hj.held hway
    refine ⟨t, hheld.thread, fun g' hg' => hheld.alone g' (hsub.subset hg'), ?_, hheld.seen⟩
    rcases hheld.there with ⟨g', hg', htid⟩ | hmem
    · rcases List.mem_cons.mp (hperm.mem_iff.mp hg') with rfl | hg'
      · exact .inr (List.mem_cons.mpr (.inl (hheld.alone g' (find?_tid hfind).1 htid).symm))
      · exact .inl ⟨g', hg', htid⟩
    · exact .inr (List.mem_cons_of_mem _ hmem)
  · obtain ⟨hmem, hgone⟩ := hj.threw w hw
    exact ⟨hmem, fun t ht => List.mem_cons_of_mem _ (hgone t ht)⟩

end Polls

/-! ### Launches, and threads that come to their end -/

section Launches
variable {th th' : Threads} {died : List Nat} {d : Deed}

theorem Table.grown (h : Table th died) (hgrown : Grown th d th')
    (hnew : ∀ tid ∈ newTid? th d, ∀ g ∈ th.threads, g.tid ≠ tid) : Table th' died := by
  cases hgrown with
  | same hth hj hl hret =>
    refine ⟨fun g hg => ?_, fun t ht => ?_, hth ▸ h.threads, hth ▸ h.tids, hj ▸ h.joined, fun g hg => ?_,
      fun g hg => h.dead g (hth ▸ hg), fun r hr hgreen => ?_⟩
    · exact Nat.lt_of_lt_of_le (h.numbered g (hth ▸ hg)) hl
    · exact Nat.lt_of_lt_of_le (h.gone t (hj ▸ ht)) hl
    · rw [hj]
      exact h.apart g (hth ▸ hg)
    · rw [hth, hj]
      exact h.launched r (hret r hr hgreen) hgreen
  | green g₀ htid hthread hdead hth hj hl hret =>
    have hmem {g : GreenThread} (hg : g ∈ th'.threads) : g ∈ th.threads ∨ g = g₀ := by
      rw [hth] at hg
      exact (List.mem_append.mp hg).imp_right List.mem_singleton.mp
    refine ⟨fun g hg => ?_, fun t ht => ?_, ?_, ?_, hj ▸ h.joined, fun g hg => ?_, fun g hg hd => ?_,
      fun r hr hgreen => ?_⟩
    · rcases hmem hg with hg | rfl
      · exact Nat.lt_trans (h.numbered g hg) hl
      · exact hthread ▸ hl
    · exact Nat.lt_trans (h.gone t (hj ▸ ht)) hl
    · rw [hth, List.map_append]
      refine h.threads.append (List.nodup_singleton _) fun t ht ht' => ?_
      obtain ⟨g, hg, rfl⟩ := List.mem_map.mp ht
      have hlt := h.numbered g hg
      rw [List.map_singleton, List.mem_singleton, hthread] at ht'
      omega
    · rw [hth, List.map_append]
      refine h.tids.append (List.nodup_singleton _) fun tid ht ht' => ?_
      obtain ⟨g, hg, rfl⟩ := List.mem_map.mp ht
      exact hnew _ htid g hg (List.mem_singleton.mp ht')
    · rw [hj]
      rcases hmem hg with hg | rfl
      · exact h.apart g hg
      · intro hjoined
        have hlt := h.gone _ hjoined
        omega
    · rcases hmem hg with hg | rfl
      · exact h.dead g hg hd
      · rw [hdead] at hd
        cases hd
    · rw [hth, hj, List.map_append]
      rcases hret r hr hgreen with hr | hr
      · exact (h.launched r hr hgreen).imp_left (List.mem_append_left _)
      · exact .inl (List.mem_append_right _ (List.mem_singleton.mpr hr))

/-- A launch under another id is nothing to the join. -/
theorem Fine.grown {j : Join} (hfine : Fine th died j) (hgrown : Grown th d th')
    (hnew : ∀ tid ∈ newTid? th d, j.UnderWay → j.tid ≠ tid) : Fine th' died j := by
  have hj : th'.joined = th.joined := by cases hgrown <;> assumption
  refine ⟨fun hway => ?_, hfine.own, ?_⟩
  · obtain ⟨t, hheld⟩ := hfine.held hway
    refine ⟨t, hheld.thread, fun g hg htid => ?_, ?_, hheld.seen⟩
    · cases hgrown with
      | same hth => exact hheld.alone g (hth ▸ hg) htid
      | green g₀ htid₀ _ _ hth =>
        rw [hth] at hg
        rcases List.mem_append.mp hg with hg | hg
        · exact hheld.alone g hg htid
        · obtain rfl := List.mem_singleton.mp hg
          exact absurd htid.symm (hnew g.tid htid₀ hway)
    · rw [hj]
      refine hheld.there.imp_left fun ⟨g, hg, htid⟩ => ⟨g, ?_, htid⟩
      cases hgrown with
      | same hth => exact hth ▸ hg
      | green g₀ _ _ _ hth => exact hth ▸ List.mem_append_left _ hg
  · rw [hj]
    exact hfine.threw

/-- The table once a thread has set `dead`. -/
def ended (thread : Nat) (th : Threads) : Threads :=
  {th with threads := th.threads.map fun g => if g.thread = thread then {g with dead := true} else g}

theorem ended_thread (thread : Nat) (g : GreenThread) :
    (if g.thread = thread then {g with dead := true} else g).thread = g.thread := by
  split <;> rfl

theorem ended_tid (thread : Nat) (g : GreenThread) :
    (if g.thread = thread then {g with dead := true} else g).tid = g.tid := by
  split <;> rfl

theorem Table.ended (h : Table th died) (thread : Nat) : Table (Joins.ended thread th) (thread :: died) := by
  have hthreads : (Joins.ended thread th).threads.map GreenThread.thread = th.threads.map GreenThread.thread := by
    rw [Joins.ended, List.map_map]
    exact List.map_congr_left fun g _ => ended_thread thread g
  have htids : (Joins.ended thread th).threads.map GreenThread.tid = th.threads.map GreenThread.tid := by
    rw [Joins.ended, List.map_map]
    exact List.map_congr_left fun g _ => ended_tid thread g
  refine ⟨fun g hg => ?_, h.gone, hthreads ▸ h.threads, htids ▸ h.tids, h.joined, fun g hg => ?_,
    fun g hg hdead => ?_, fun r hr hgreen => ?_⟩
  · obtain ⟨g₀, hg₀, rfl⟩ := List.mem_map.mp hg
    rw [ended_thread]
    exact h.numbered g₀ hg₀
  · obtain ⟨g₀, hg₀, rfl⟩ := List.mem_map.mp hg
    rw [ended_thread]
    exact h.apart g₀ hg₀
  · obtain ⟨g₀, hg₀, rfl⟩ := List.mem_map.mp hg
    rw [ended_thread]
    by_cases hthread : g₀.thread = thread
    · exact hthread ▸ List.mem_cons_self
    · rw [if_neg hthread] at hdead
      exact List.mem_cons_of_mem _ (h.dead g₀ hg₀ hdead)
  · rw [hthreads]
    exact h.launched r hr hgreen

theorem Fine.ended {j : Join} (hj : Fine th died j) (thread : Nat) :
    Fine (Joins.ended thread th) (thread :: died) j := by
  refine ⟨fun hway => ?_, fun t ht => ?_, hj.threw⟩
  · obtain ⟨t, hheld⟩ := hj.held hway
    refine ⟨t, hheld.thread, fun g hg htid => ?_, ?_, fun hst => List.mem_cons_of_mem _ (hheld.seen hst)⟩
    · obtain ⟨g₀, hg₀, rfl⟩ := List.mem_map.mp hg
      rw [ended_tid] at htid
      rw [ended_thread]
      exact hheld.alone g₀ hg₀ htid
    · refine hheld.there.imp_left fun ⟨g, hg, htid⟩ => ⟨_, List.mem_map_of_mem hg, ?_⟩
      rw [ended_tid]
      exact htid
  · obtain ⟨hthread, hdied⟩ := hj.own t ht
    exact ⟨hthread, List.mem_cons_of_mem _ hdied⟩

end Launches

/-! ### Runs -/

/-- A join is written back, and has removed nothing. -/
theorem filterMap_set {β γ : Type} {f : β → Option γ} {xs : List β} {k : Nat} {x x' : β} (h : xs[k]? = some x)
    (hf : f x = none) : ((xs.set k x').filterMap f).Perm ((f x').toList ++ xs.filterMap f) := by
  obtain ⟨hlt, rfl⟩ := List.getElem?_eq_some_iff.mp h
  have hset : xs.set k x' = xs.take k ++ x' :: xs.drop (k + 1) := by
    rw [List.set_eq_take_append_cons_drop, if_pos hlt]
  have hsplit : xs.filterMap f = (xs.take k).filterMap f ++ (xs.drop (k + 1)).filterMap f := by
    conv_lhs => rw [← List.take_append_drop k xs, List.drop_eq_getElem_cons hlt]
    rw [List.filterMap_append, List.filterMap_cons_none hf]
  rw [hset, hsplit, List.filterMap_append]
  cases hf' : f x' with
  | none =>
    rw [List.filterMap_cons_none hf']
    exact .refl _
  | some y =>
    rw [List.filterMap_cons_some hf']
    exact List.perm_middle

section Step
variable {s s' : Joins}

/-- Join `k`, which had still to go on, goes on. -/
theorem Inv.set (h : s.Inv) {k : Nat} {j j' : Join} (hk : s.joins[k]? = some j) (hj : j.removed? = none)
    {th : Threads} (htable : Table th s.died) (hfine : ∀ i ∈ s.joins, Fine th s.died i) (hj' : Fine th s.died j')
    (hremoved : th.joined = j'.removed?.toList ++ s.th.joined) :
    Inv {s with th := th, joins := s.joins.set k j'} := by
  refine ⟨htable, fun i hi => ?_, ?_⟩
  · rcases List.mem_or_eq_of_mem_set hi with hi | rfl
    · exact hfine i hi
    · exact hj'
  · show th.joined.Perm _
    rw [hremoved]
    exact (h.removed.append_left _).trans (filterMap_set hk hj).symm

theorem Inv.join (h : s.Inv) {tid : BitVec 32} (hs : s.step (.join tid) = some s') : s'.Inv := by
  obtain ⟨st, hst, rfl⟩ := Option.map_eq_some_iff.mp hs
  have hnew := h.table.called (polled_some hst)
  refine ⟨h.table, fun j hj => ?_, ?_⟩
  · rcases List.mem_append.mp hj with hj | hj
    · exact h.fine j hj
    · obtain rfl := List.mem_singleton.mp hj
      exact hnew
  · have hnone : Join.removed? ⟨tid, holder s.th tid, st⟩ = none := by cases polled_some hst <;> rfl
    show s.th.joined.Perm ((s.joins ++ [_]).filterMap Join.removed?)
    rw [List.filterMap_append, List.filterMap_cons_none hnone, List.filterMap_nil, List.append_nil]
    exact h.removed

theorem Inv.poll (h : s.Inv) {k : Nat} (hs : s.step (.poll k) = some s') : s'.Inv := by
  simp only [Joins.step] at hs
  split at hs
  · next tid thread hk =>
    obtain ⟨st, hst, rfl⟩ := Option.map_eq_some_iff.mp hs
    have hnone : Join.removed? ⟨tid, thread, st⟩ = none := by cases polled_some hst <;> rfl
    have hfine := h.table.polled (h.fine _ (List.mem_of_getElem? hk)) (polled_some hst)
    exact h.set hk rfl h.table h.fine hfine (by rw [hnone]; rfl)
  · cases hs

theorem Inv.erase (h : s.Inv) {k : Nat} (hs : s.step (.erase k) = some s') : s'.Inv := by
  simp only [Joins.step] at hs
  split at hs
  · next tid thread hk =>
    have hj := h.fine _ (List.mem_of_getElem? hk)
    obtain ⟨t, hheld⟩ := hj.held (.inr rfl)
    rw [Threads.greenThreadJoin, Proc.get_bind] at hs
    cases hfind : s.th.threads.find? (·.tid == tid) with
    | none =>
      rw [hfind] at hs
      cases hs
      refine h.set hk rfl h.table h.fine (fine_of_threw (List.mem_cons_of_mem _ List.mem_cons_self) fun t' ht' => ?_) rfl
      cases hheld.thread.symm.trans ht'
      exact hheld.there.resolve_left (not_mem_of_find?_tid hfind)
    | some g =>
      obtain ⟨hg, htid⟩ := find?_tid hfind
      have hown : g.thread = t := hheld.alone g hg htid
      rw [hfind] at hs
      simp only [holder, hfind, Proc.set_run] at hs
      cases hs
      refine h.set hk rfl (h.table.erased hfind) (fun i hi => (h.fine i hi).erased hfind) ⟨?_, ?_, ?_⟩ rfl
      · rintro (hway | hway) <;> cases hway
      · rintro t' ht'
        cases ht'
        rw [hown]
        exact ⟨hheld.thread, hheld.seen rfl⟩
      · rintro w hw
        cases hw
  · cases hs

/-- **What a section keeps** as long as no launch gives an id that is claimed. -/
theorem Inv.step (h : s.Inv) {c : Section} (hr : s.Unclaimed c) (hs : s.step c = some s') : s'.Inv := by
  cases c with
  | joinable tid =>
    obtain ⟨st, -, rfl⟩ := Option.map_eq_some_iff.mp hs
    exact h
  | join tid => exact h.join hs
  | poll k => exact h.poll hs
  | erase k => exact h.erase hs
  | complete thread =>
    simp only [Joins.step] at hs
    split_ifs at hs
    cases hs
    exact ⟨h.table.ended thread, fun j hj => (h.fine j hj).ended thread, h.removed⟩
  | deed d =>
    simp only [Joins.step] at hs
    split_ifs at hs with hd
    obtain ⟨th, hth, rfl⟩ := Option.map_eq_some_iff.mp hs
    have hgrown := grown_deed hd hth
    have hj : th.joined = s.th.joined := by cases hgrown <;> assumption
    refine ⟨h.table.grown hgrown fun tid htid => (hr tid htid).1, fun j hmem => ?_, ?_⟩
    · exact (h.fine j hmem).grown hgrown fun tid htid => (hr tid htid).2 j hmem
    · show th.joined.Perm _
      rw [hj]
      exact h.removed

theorem Inv.reaped (h : s.Inv) : s.Reaped := by
  have hone {t : Nat} (ht : t ∈ s.th.joined) : s.th.joined.count t = 1 :=
    List.count_eq_one_of_mem h.table.joined ht
  refine ⟨fun j hj t ht => ((h.fine j hj).own t ht).2, fun j hj t ht => ((h.fine j hj).own t ht).1,
    fun j hj w hw => ((h.fine j hj).threw w hw).1, h.removed, fun r hr hgreen => ?_, fun j hj t ht hend => ?_⟩
  · rcases h.table.launched r hr hgreen with hmem | hmem
    · have hgone : r.thread ∉ s.th.joined := by
        obtain ⟨g, hg, hthread⟩ := List.mem_map.mp hmem
        rw [← hthread]
        exact h.table.apart g hg
      rw [List.count_eq_one_of_mem h.table.threads hmem, List.count_eq_zero_of_not_mem hgone]
    · have hgone : r.thread ∉ s.th.threads.map GreenThread.thread := by
        intro hmem'
        obtain ⟨g, hg, hthread⟩ := List.mem_map.mp hmem'
        exact h.table.apart g hg (hthread ▸ hmem)
      rw [hone hmem, List.count_eq_zero_of_not_mem hgone]
  · rw [← h.removed.count_eq]
    apply hone
    cases hst : j.state with
    | polling => exact absurd (.inl hst) hend
    | erasing => exact absurd (.inr hst) hend
    | returned r =>
      have hremoved : j.removed? = some r := by rw [Join.removed?, hst]
      cases ((h.fine j hj).own r hremoved).1.symm.trans ht
      exact h.removed.mem_iff.mpr (List.mem_filterMap.mpr ⟨j, hj, hremoved⟩)
    | threw w => exact ((h.fine j hj).threw w (by rw [Join.what?, hst])).2 t ht

end Step

/-- **Every thread is joined by one join, after its end**, whatever comes between the sections of
the joins, as long as no launch gives an id of a thread in the table or of a join under way. -/
theorem reaped_of_run {nLcore : Nat} {cs : List Section} {s : Joins}
    (h : Runs step Unclaimed (init nLcore) cs s) : s.Reaped :=
  (h.invariant (I := Inv) (.init nLcore) fun _ _ _ h hr hs => h.step hr hs).reaped

/-- The rule at the one id there may be. -/
theorem all_newTid?_iff (s : Joins) (d : Deed) :
    ((newTid? s.th d).all fun tid => decide ((∀ g ∈ s.th.threads, g.tid ≠ tid) ∧
      ∀ j ∈ s.joins, j.UnderWay → j.tid ≠ tid)) = true ↔ s.Unclaimed (.deed d) := by
  simp only [Unclaimed]
  cases newTid? s.th d with
  | none => exact iff_of_true rfl nofun
  | some tid =>
    rw [Option.all_some, decide_eq_true_eq]
    refine ⟨fun h tid' htid' => ?_, fun h => h tid (Option.mem_some_self tid)⟩
    cases htid'
    exact h

instance (s : Joins) (c : Section) : Decidable (s.Unclaimed c) :=
  match c with
  | .deed d => decidable_of_iff _ (s.all_newTid?_iff d)
  | .joinable _ => isTrue trivial
  | .join _ => isTrue trivial
  | .poll _ => isTrue trivial
  | .erase _ => isTrue trivial
  | .complete _ => isTrue trivial

/-- A thread on lcore 1 that two callers join while another is launched; both have seen it dead
when the first of them erases it. -/
def twoJoins : List Section :=
  [.deed (.register 1), .deed (.start 1), .deed (.mark .runningGreen 1), .deed (.launch 1), .join 0x10001,
    .deed (.launch 1), .complete 0, .poll 0, .join 0x10001, .erase 0]

theorem reaped_of_twoJoins :
    ∃ s, exec step (init 4) (twoJoins ++ [.erase 1]) = some s ∧
      s.joins.map Join.state = [.returned 0, .threw "ssn_green_thread_join: tid not found"] ∧ s.Reaped := by
  obtain ⟨s, hs, heq⟩ := Option.map_eq_some_iff.mp
    (show (exec step (init 4) (twoJoins ++ [.erase 1])).map (fun s => s.joins.map Join.state) =
      some [.returned 0, .threw "ssn_green_thread_join: tid not found"] by decide +kernel)
  exact ⟨s, hs, heq, reaped_of_run (Runs.of_obeys (by decide +kernel) hs)⟩

/-! ### The id comes again before the second join has erased -/

/-- Lcore 1 after `k` more launches: their threads are in the table, under ids that follow. -/
structure Relaunched (js : List Join) (k : Nat) (s : Joins) : Prop where
  joins : s.joins = js
  nLcore : s.th.native.nLcore = 4
  green : s.th.lcoreState 1 = .runningGreen
  launches : 0 < s.th.launches
  subtid : s.th.subtid = BitVec.ofNat 32 (2 + k)
  threads : ∀ g ∈ s.th.threads, 0 < g.thread ∧ ∃ i < k, g.tid = greenTid 1 (BitVec.ofNat 32 (2 + i))

theorem greenTid_ofNat (i : Nat) (hi : i < 4294967296) :
    (greenTid 1 (BitVec.ofNat 32 i)).toNat = 1 + i % 65536 * 65536 := by
  rw [greenTid_toNat (by decide), BitVec.toNat_ofNat, Nat.mod_eq_of_lt hi]

/-- One more launch: its id is new as long as the counter has not come round. -/
theorem Relaunched.launch {js : List Join} {k : Nat} {s : Joins} (h : Relaunched js k s) (hk : k < 65536) :
    ∃ s', s.step (.deed (.greenLaunch 1)) = some s' ∧ s.LiveDistinct (.deed (.greenLaunch 1)) ∧
      Relaunched js (k + 1) s' ∧ ∃ g ∈ s'.th.threads, g.tid = greenTid 1 (BitVec.ofNat 32 (2 + k)) := by
  have hlt : 1 < s.th.native.nLcore := by rw [h.nLcore]; decide
  have hstep : s.step (.deed (.greenLaunch 1)) = some {s with th := s.th.greenLaunched 1} := by
    simp only [Joins.step, Deed.launches, if_true, Threads.greenLaunch_step hlt h.green, Option.map_some]
  refine ⟨_, hstep, fun tid htid g hg => ?_, ⟨h.joins, h.nLcore, h.green, Nat.succ_pos _, ?_, fun g hg => ?_⟩, ?_⟩
  · obtain ⟨-, i, hi, hgtid⟩ := h.threads g hg
    have htid : tid = greenTid 1 (BitVec.ofNat 32 (2 + k)) := by
      simpa [newTid?, h.green, h.subtid, eq_comm] using htid
    intro heq
    have hnat := congrArg BitVec.toNat (hgtid.symm.trans (heq.trans htid))
    rw [greenTid_ofNat _ (by omega), greenTid_ofNat _ (by omega)] at hnat
    omega
  · show s.th.subtid + 1 = _
    rw [h.subtid, ← Nat.add_assoc, BitVec.ofNat_add (2 + k) 1]
    rfl
  · rcases List.mem_append.mp hg with hg | hg
    · obtain ⟨hpos, i, hi, htid⟩ := h.threads g hg
      exact ⟨hpos, i, Nat.lt_succ_of_lt hi, htid⟩
    · obtain rfl := List.mem_singleton.mp hg
      exact ⟨h.launches, k, Nat.lt_succ_self k, by rw [h.subtid]⟩
  · exact ⟨_, List.mem_append_right _ (List.mem_singleton_self _), by rw [h.subtid]⟩

theorem runs_relaunched {js : List Join} {s : Joins} {k : Nat} (h : Relaunched js k s) (n : Nat)
    (hn : k + n ≤ 65536) :
    ∃ s', Runs step LiveDistinct s (List.replicate n (.deed (.greenLaunch 1))) s' ∧ Relaunched js (k + n) s' := by
  induction n with
  | zero => exact ⟨s, .done s, h⟩
  | succ n ih =>
    obtain ⟨t, hrun, ht⟩ := ih (Nat.le_of_succ_le hn)
    obtain ⟨s', hstep, hrule, hs', -⟩ := ht.launch hn
    refine ⟨s', ?_, hs'⟩
    rw [List.replicate_succ']
    exact hrun.append (.next hstep hrule (.done s'))

/-- A launch gives the id of the first thread again before the second join of it has erased:
that join removes a thread that runs. -/
theorem not_reaped :
    ∃ s, Runs step LiveDistinct (init 4)
      (twoJoins ++ (List.replicate 65534 (.deed (.greenLaunch 1)) ++ [.deed (.greenLaunch 1), .erase 1])) s ∧
      ¬s.Reaped := by
  have hrule (s : Joins) (c : Section) (h : s.Unclaimed c) : s.LiveDistinct c := by
    cases c with
    | deed d => exact fun tid htid => (h tid htid).1
    | _ => trivial
  obtain ⟨s, hs, heq⟩ := Option.map_eq_some_iff.mp
    (show (exec step (init 4) twoJoins).map (fun s => (s.joins, (s.th.native.nLcore, s.th.lcoreState 1),
        (s.th.launches, s.th.subtid), s.th.threads.map fun g => (g.thread, g.tid))) =
      some ([⟨0x10001, some 0, .returned 0⟩, ⟨0x10001, some 0, .erasing⟩], (4, .runningGreen), (2, 3),
        [(1, 0x20001)]) by decide +kernel)
  simp only [Prod.mk.injEq] at heq
  obtain ⟨hjoins, ⟨hn, hgreen⟩, ⟨hlaunches, hsubtid⟩, hthreads⟩ := heq
  have hstart : Relaunched s.joins 1 s := by
    refine ⟨rfl, hn, hgreen, by omega, hsubtid, fun g hg => ?_⟩
    have hmem := List.mem_map_of_mem (f := fun g : GreenThread => (g.thread, g.tid)) hg
    rw [hthreads, List.mem_singleton, Prod.mk.injEq] at hmem
    exact ⟨by omega, 0, Nat.zero_lt_one, hmem.2.trans (by decide)⟩
  have hpre := (Runs.of_obeys (by decide +kernel) hs : Runs step Unclaimed _ _ _).weaken hrule
  obtain ⟨t, hrun, ht⟩ := runs_relaunched hstart 65534 (by decide)
  obtain ⟨u, hlast, hdistinct, hu, g, hg, htid⟩ := ht.launch (by decide)
  -- the id that the second join is for
  have hsame : greenTid 1 (BitVec.ofNat 32 (2 + (1 + 65534))) = 0x10001 := by decide
  rw [hsame] at htid
  have hsome : (u.th.threads.find? (·.tid == 0x10001)).isSome := by
    rw [List.find?_isSome]
    exact ⟨g, hg, beq_iff_eq.mpr htid⟩
  obtain ⟨g', hfind⟩ := Option.isSome_iff_exists.mp hsome
  have hpos := (hu.threads g' (find?_tid hfind).1).1
  have hk : u.joins[1]? = some ⟨0x10001, some 0, .erasing⟩ := by
    rw [hu.joins, hjoins]
    rfl
  obtain ⟨v, herase, hv⟩ : ∃ v, u.step (.erase 1) = some v ∧
      v.joins = u.joins.set 1 ⟨0x10001, some 0, .returned g'.thread⟩ := by
    simp only [Joins.step, hk, Threads.greenThreadJoin, Proc.get_bind, hfind, holder, Proc.set_run, Option.map_some]
    exact ⟨_, rfl, rfl⟩
  refine ⟨v, hpre.append (hrun.append (.next hlast hdistinct (.next herase trivial (.done v)))), fun h => ?_⟩
  have hmem : (⟨0x10001, some 0, .returned g'.thread⟩ : Join) ∈ v.joins := by
    rw [hv, hu.joins, hjoins]
    simp
  have hown : 0 = g'.thread := Option.some.inj (h.own _ hmem g'.thread rfl)
  omega

end Joins

end Susanow
