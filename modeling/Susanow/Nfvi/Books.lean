import Susanow.Nfvi.Workers

/-! Whose thread is whose.

A block keeps the ids of its threads by index, the lcores keep what was launched on
them, and the log keeps what has been launched and not joined. `Accounted` says that
the three agree: the ids from index `i` up to `m` are the un-joined threads of the
block, each once. `Books` says so of every block, wherever the server's thread is. -/
namespace Susanow.Sys

/-- The ids at indices from `i` up to `m`. -/
def held (s : Sys) (v bid i m : Nat) : List Nat := ((s.tids v bid).take m).drop i

structure Accounted (s : Sys) (v bid i m : Nat) : Prop where
  nodup : (s.held v bid i m).Nodup
  nonzero : 0 ∉ s.held v bid i m
  unjoined : ∀ l, s.Unjoined v bid l ↔ l ∈ s.held v bid i m
  log : (outstanding v bid s.log).Perm (s.held v bid i m)

namespace Accounted
variable {s t : Sys} {v bid i m : Nat}

theorem held_nil (h : m ≤ i) : s.held v bid i m = [] := by
  simp only [held, List.drop_eq_nil_iff, List.length_take]
  omega

theorem held_nil_of_length (h : (s.tids v bid).length ≤ i) : s.held v bid i m = [] := by
  simp only [held, List.drop_eq_nil_iff, List.length_take]
  omega

theorem empty (hno : ∀ l, ¬s.Unjoined v bid l) (hlog : outstanding v bid s.log = []) (i : Nat) :
    s.Accounted v bid i 0 where
  nodup := by simp [held]
  nonzero := by simp [held]
  unjoined l := by simp [held, hno]
  log := by simp [held, hlog]

theorem outstanding_nil (h : s.Accounted v bid i m) (hno : ∀ l, ¬s.Unjoined v bid l) :
    outstanding v bid s.log = [] := by
  have hnil : s.held v bid i m = [] :=
    List.eq_nil_iff_forall_not_mem.mpr fun l hl => hno l ((h.unjoined l).mpr hl)
  exact List.perm_nil.mp (hnil ▸ h.log)

theorem none_of_nil (h : s.Accounted v bid i m) (hnil : s.held v bid i m = []) :
    (∀ l, ¬s.Unjoined v bid l) ∧ outstanding v bid s.log = [] :=
  ⟨fun l hl => by simpa [hnil] using (h.unjoined l).mp hl, List.perm_nil.mp (hnil ▸ h.log)⟩

/-- A step that joins and launches no thread of the block. -/
theorem same (h : s.Accounted v bid i m) (hun : ∀ l, t.Unjoined v bid l ↔ s.Unjoined v bid l)
    (htids : t.tids v bid = s.tids v bid) (hlog : outstanding v bid t.log = outstanding v bid s.log) :
    t.Accounted v bid i m := by
  have hheld : t.held v bid i m = s.held v bid i m := by rw [held, held, htids]
  exact ⟨hheld ▸ h.nodup, hheld ▸ h.nonzero, fun l => by rw [hun, hheld, h.unjoined], by rw [hlog, hheld]; exact h.log⟩

/-- A thread has been launched on `l` for vcore `m`. -/
theorem launch (h : s.Accounted v bid 0 m) {l : Nat} (h0 : l ≠ 0) (hm : m < (s.tids v bid).length)
    (hnew : ¬s.Unjoined v bid l) (hun : ∀ k, t.Unjoined v bid k ↔ k = l ∨ s.Unjoined v bid k)
    (htids : t.tids v bid = (s.tids v bid).set m l)
    (hlog : outstanding v bid t.log = l :: outstanding v bid s.log) : t.Accounted v bid 0 (m + 1) := by
  have hheld : t.held v bid 0 (m + 1) = s.held v bid 0 m ++ [l] := by
    simp only [held, List.drop_zero, htids, List.take_add_one, List.getElem?_set_self hm, Option.toList_some]
    rw [List.take_set_of_le (Nat.le_refl m)]
  have hnot : l ∉ s.held v bid 0 m := fun hl => hnew ((h.unjoined l).mpr hl)
  refine ⟨?_, ?_, fun k => ?_, ?_⟩ <;> rw [hheld]
  · refine List.nodup_append.mpr ⟨h.nodup, List.nodup_singleton l, fun a ha b hb => ?_⟩
    rintro rfl
    exact hnot (List.mem_singleton.mp hb ▸ ha)
  · simp [h.nonzero, h0.symm]
  · rw [hun, List.mem_append, List.mem_singleton, h.unjoined, or_comm]
  · rw [hlog]
    exact (List.Perm.cons l h.log).trans (List.perm_append_singleton l _).symm

/-- The thread with the id at index `i` has been joined. -/
theorem join (h : s.Accounted v bid i m) {tid : Nat} (hi : i < m) (htid : (s.tids v bid)[i]? = some tid)
    (hun : ∀ k, t.Unjoined v bid k ↔ k ≠ tid ∧ s.Unjoined v bid k)
    (htids : t.tids v bid = s.tids v bid)
    (hlog : outstanding v bid t.log = (outstanding v bid s.log).erase tid) :
    t.Accounted v bid (i + 1) m := by
  have hheld : s.held v bid i m = tid :: t.held v bid (i + 1) m := by
    obtain ⟨hlt, htid⟩ := List.getElem?_eq_some_iff.mp htid
    rw [held, held, htids, List.drop_eq_getElem_cons (by rw [List.length_take]; omega), List.getElem_take, htid]
  have hnodup := hheld ▸ h.nodup
  refine ⟨(List.nodup_cons.mp hnodup).2, fun h0 => h.nonzero ?_, fun k => ?_, ?_⟩
  · rw [hheld]
    exact List.mem_cons_of_mem _ h0
  · rw [hun, h.unjoined, hheld, List.mem_cons]
    refine ⟨fun ⟨hne, hk⟩ => hk.resolve_left hne, fun hk => ⟨?_, .inr hk⟩⟩
    rintro rfl
    exact (List.nodup_cons.mp hnodup).1 hk
  · rw [hlog]
    have := h.log.erase tid
    rwa [hheld, List.erase_cons_head] at this

theorem mem_of_index {l : Nat} (htid : (s.tids v bid)[i]? = some l) (hi : i < m) :
    l ∈ s.held v bid i m := by
  obtain ⟨hlt, rfl⟩ := List.getElem?_eq_some_iff.mp htid
  rw [held, List.drop_eq_getElem_cons (by rw [List.length_take]; omega), List.getElem_take]
  exact List.mem_cons_self

end Accounted

end Susanow.Sys

namespace Susanow

/-- The first index of the block that has still to be joined. -/
def Ctrl.first (c : Ctrl) (v bid : Nat) : Nat :=
  match c with
  | .joining w b i _ => if w = v ∧ b = bid then i else 0
  | _ => 0

/-- Where the launches are, the index they have come to; behind them nothing. -/
def Ctrl.Reached (c : Ctrl) (v bid m : Nat) : Prop :=
  match c with
  | .launching w b i => w = v → (bid = b → m = i) ∧ (b < bid → m = 0)
  | _ => True

namespace Sys

/-- No id is left behind index `m`. -/
def Blank (s : Sys) (v bid m : Nat) : Prop := ∀ y, m ≤ y → ∀ l ∈ (s.tids v bid)[y]?, l = 0

/-- Behind the threads of a block there is no id of an older one, unless no thread is left or
the launches are still here. -/
def Tail (s : Sys) (v bid m : Nat) : Prop :=
  (∃ i, s.ctrl = .launching v bid i) ∨ (m = 0 ∧ ∀ i k, s.ctrl ≠ .joining v bid i k) ∨ s.Blank v bid m

/-- One block's page; a `strict` one has a clean tail. -/
def Page (strict : Prop) (s : Sys) (v bid : Nat) : Prop :=
  ∃ m, s.ctrl.Reached v bid m ∧ s.Accounted v bid (s.ctrl.first v bid) m ∧ (strict → s.Tail v bid m)

structure Books (strict : Prop) (s : Sys) : Prop where
  attached : s.nfvi.wiring.Attached
  listed : s.Listed
  threads : ∀ v, s.Threads v
  -- who has a thread has been allocated
  known : ∀ v bid l, s.Unjoined v bid l → v < s.nfvi.next
  pages : ∀ v bid, s.Page strict v bid

/-- Nothing that was launched for `v` is un-joined. -/
def Settled (s : Sys) (v : Nat) : Prop :=
  ∀ l ∈ s.native.tids, ∀ x ∈ (s.native.lcore l).launched, x.vnf? ≠ some v

instance (s : Sys) (v : Nat) : Decidable (s.Settled v) := by
  unfold Settled
  infer_instance

theorem Settled.none_unjoined {s : Sys} {v : Nat} (h : s.Settled v) (hlisted : s.Listed) (bid l : Nat) :
    ¬s.Unjoined v bid l := by
  intro hl
  refine h l (hlisted l fun hw => ?_) _ hl rfl
  rw [Unjoined, hw] at hl
  cases hl

/-- If the thread to be joined next has ended, it is the block's own. -/
def JoinsOwn (s : Sys) : Prop :=
  ∀ v bid i k, s.ctrl = .joining v bid i k → ∀ tid ∈ (s.tids v bid)[i]?, tid ≠ 0 →
    ∀ x, s.native.lcore tid = .finished x → x = .block v bid

/-- If the next launch is refused and is not the block's first, no older ids are left behind it. -/
def RefusedClean (s : Sys) : Prop :=
  match s.ctrl with
  | .launching v bid i => i ≠ 0 → ∀ b ∈ s.block? v bid, ∀ vc ∈ b.vcores[i]?,
      s.native.Refuses vc.lcoreId → ∀ l ∈ b.tids.drop i, l = 0
  | _ => True

/-! ### Pages across steps -/

section Step
variable {s t : Sys} {v bid : Nat} {strict : Prop}

theorem unjoined_released {l : Nat} (h : t.native.lcore = Function.update s.native.lcore l .wait) (k : Nat) :
    t.Unjoined v bid k ↔ k ≠ l ∧ s.Unjoined v bid k := by
  unfold Unjoined
  rw [h]
  by_cases hkl : k = l
  · subst hkl
    simp [Lcore.launched]
  · simp [hkl]

theorem unjoined_update {l : Nat} {c : Lcore Task}
    (h : t.native.lcore = Function.update s.native.lcore l c) (k : Nat) :
    t.Unjoined v bid k ↔ if k = l then c.launched = some (.block v bid) else s.Unjoined v bid k := by
  unfold Unjoined
  rw [h]
  by_cases hkl : k = l
  · subst hkl
    simp
  · simp [hkl]

/-- A worker's step leaves what was launched where it was. -/
theorem unjoined_wrk {l : Nat} (hs : Wrk s l t) (k : Nat) :
    t.Unjoined v bid k ↔ s.Unjoined v bid k := by
  have hon {x : Task} {pc : Pc Task} {c : Lcore Task} (hl : s.native.lcore l = .running x pc)
      (hc : c.launched = some x) (h : t.native.lcore = Function.update s.native.lcore l c) :
      t.Unjoined v bid k ↔ s.Unjoined v bid k := by
    rw [unjoined_update h]
    split
    · next hkl =>
      rw [Unjoined, hkl, hl, hc]
      rfl
    · rfl
  cases hs with
  | fetch hl => exact hon hl rfl rfl
  | timer hl => exact hon hl rfl rfl
  | enter hl => exact hon hl rfl rfl
  | pass => rfl
  | leave hl => exact hon hl rfl rfl

/-- A page where the server's thread is not at the joins of the block. -/
theorem Page.of_accounted {m : Nat} (h : t.Accounted v bid 0 m) (hreach : t.ctrl.Reached v bid m)
    (hj : ∀ i k, t.ctrl ≠ .joining v bid i k) (htail : strict → m = 0 ∨ t.Blank v bid m) :
    t.Page strict v bid := by
  refine ⟨m, hreach, ?_, fun hst => .inr ((htail hst).imp_left fun hm => ⟨hm, hj⟩)⟩
  unfold Ctrl.first
  split
  · next hc =>
    rw [if_neg]
    · exact h
    · rintro ⟨rfl, rfl⟩
      exact hj _ _ hc
  · exact h

theorem Page.launching {w b i : Nat} (h : s.Page strict v bid) (hc : s.ctrl = .launching w b i) :
    ∃ m, s.Accounted v bid 0 m ∧ (w = v → (bid = b → m = i) ∧ (b < bid → m = 0)) ∧
      (strict → (w = v ∧ bid = b) ∨ m = 0 ∨ s.Blank v bid m) := by
  obtain ⟨m, hreach, hacc, htail⟩ := h
  rw [hc] at hreach hacc
  refine ⟨m, hacc, hreach, fun hst => ?_⟩
  rcases htail hst with ⟨j, hc'⟩ | ⟨hm, -⟩ | hblank
  · rw [hc] at hc'
    cases hc'
    exact .inl ⟨rfl, rfl⟩
  · exact .inr (.inl hm)
  · exact .inr (.inr hblank)

/-- A page of a block the server's thread is not at. -/
theorem Page.away (h : s.Page strict v bid) (hl : ∀ i, s.ctrl ≠ .launching v bid i)
    (hj : ∀ i k, s.ctrl ≠ .joining v bid i k) :
    ∃ m, s.Accounted v bid 0 m ∧ (strict → m = 0 ∨ s.Blank v bid m) := by
  obtain ⟨m, -, hacc, htail⟩ := h
  refine ⟨m, ?_, fun hst => ?_⟩
  · unfold Ctrl.first at hacc
    split at hacc
    · next hc =>
      rwa [if_neg] at hacc
      rintro ⟨rfl, rfl⟩
      exact hj _ _ hc
    · exact hacc
  · rcases htail hst with ⟨j, hc⟩ | ⟨hm, -⟩ | hblank
    · exact absurd hc (hl j)
    · exact .inl hm
    · exact .inr hblank

theorem Page.joining {i : Nat} {k : Kont} (h : s.Page strict v bid) (hc : s.ctrl = .joining v bid i k) :
    ∃ m, s.Accounted v bid i m ∧ (strict → s.Blank v bid m) := by
  obtain ⟨m, -, hacc, htail⟩ := h
  rw [hc] at hacc
  refine ⟨m, by simpa [Ctrl.first] using hacc, fun hst => ?_⟩
  rcases htail hst with ⟨j, hc'⟩ | ⟨-, hne⟩ | hblank
  · rw [hc] at hc'
    cases hc'
  · exact absurd hc (hne i k)
  · exact hblank

theorem Page.served (h : s.Page strict v bid) {l : Label} (hs : Served s l t)
    (hset : s.Configures v l ∨ s.Deploys v l → ∀ k, ¬s.Unjoined v bid k)
    (hknown : ∀ k, s.Unjoined v bid k → v < s.nfvi.next) : t.Page strict v bid := by
  obtain ⟨last, hidle⟩ := hs.idle
  obtain ⟨m, hacc, htail⟩ := h.away (by simp [hidle]) (by simp [hidle])
  have hun (k : Nat) : t.Unjoined v bid k ↔ s.Unjoined v bid k := by rw [Unjoined, Unjoined, hs.native]
  have hj (i : Nat) (k : Kont) : t.ctrl ≠ .joining v bid i k := by
    rcases hs.ctrl with ⟨last, hc, -⟩ | ⟨w, hc, -⟩ | ⟨w, hc⟩ <;> simp [hc]
  have hempty (hno : ∀ k, ¬s.Unjoined v bid k) : t.Page strict v bid := by
    refine Page.of_accounted (.empty (fun k hk => hno k ((hun k).mp hk)) ?_ 0) ?_ hj fun _ => .inl rfl
    · rw [hs.log]
      exact hacc.outstanding_nil hno
    · unfold Ctrl.Reached
      rcases hs.ctrl with ⟨last, hc, -⟩ | ⟨w, hc, -⟩ | ⟨w, hc⟩ <;> simp [hc]
  rcases hs.kept.blocks v with heq | hcfg | ⟨hnew, -⟩
  · by_cases hdep : s.Deploys v l
    · exact hempty (hset (.inr hdep))
    · have htids : t.tids v bid = s.tids v bid := by
        rw [tids, tids, block?, block?, Nfvi.block?, Nfvi.block?, heq]
      refine Page.of_accounted (hacc.same hun htids (by rw [hs.log])) ?_ hj ?_
      · unfold Ctrl.Reached
        rcases hs.ctrl with ⟨last, hc, -⟩ | ⟨w, hc, hw⟩ | ⟨w, hc⟩ <;> rw [hc]
        · trivial
        · rintro rfl
          exact absurd hw hdep
        · trivial
      · rw [Blank, htids]
        exact htail
  · exact hempty (hset (.inl hcfg))
  · exact hempty fun k hk => absurd (hknown k hk) (Nat.not_lt.mpr hnew)

theorem Page.wrk (h : s.Page strict v bid) {l : Nat} (hs : Wrk s l t) : t.Page strict v bid := by
  have hctrl : t.ctrl = s.ctrl := by cases hs <;> rfl
  have hlog : t.log = s.log := by cases hs <;> rfl
  obtain ⟨m, hreach, hacc, htail⟩ := h
  refine ⟨m, hctrl ▸ hreach, hctrl ▸ hacc.same (unjoined_wrk hs) (tids_wrk hs) (by rw [hlog]), ?_⟩
  rw [Tail, hctrl, Blank, tids_wrk hs]
  exact htail

theorem outstanding_begun (s : Sys) (w b i : Nat) :
    outstanding v bid (s.begun w b i).log =
      if i = 0 ∧ w = v ∧ b = bid then [] else outstanding v bid s.log := by
  unfold begun
  by_cases hi : i = 0
  · by_cases hat : w = v ∧ b = bid <;> simp [hi, hat, outstanding]
  · simp [hi]

/-- A launch that ends the block's launches, or the deploy, has only begun the block. -/
theorem Accounted.begun {w b i m : Nat} (h : s.Accounted v bid 0 m) (hm : w = v → bid = b → m = i)
    (hlcore : t.native.lcore = s.native.lcore) (hnfvi : t.nfvi = s.nfvi)
    (hlog : t.log = (s.begun w b i).log) : t.Accounted v bid 0 m := by
  have hun (k : Nat) : t.Unjoined v bid k ↔ s.Unjoined v bid k := by rw [Unjoined, Unjoined, hlcore]
  have hlog' : outstanding v bid t.log = if i = 0 ∧ w = v ∧ b = bid then [] else outstanding v bid s.log := by
    rw [hlog, outstanding_begun]
  by_cases hat : i = 0 ∧ w = v ∧ b = bid
  · rw [if_pos hat] at hlog'
    obtain rfl : m = 0 := (hm hat.2.1 hat.2.2.symm).trans hat.1
    exact .empty (fun k hk => (h.none_of_nil (Accounted.held_nil le_rfl)).1 k ((hun k).mp hk)) hlog' 0
  · rw [if_neg hat] at hlog'
    exact h.same hun (by rw [tids, tids, block?, block?, hnfvi]) hlog'

/-- Past the last thread of the block nothing is un-joined. -/
theorem Accounted.closed {i m : Nat} (h : s.Accounted v bid i m) (hnil : s.held v bid i m = [])
    (hun : ∀ k, t.Unjoined v bid k → s.Unjoined v bid k)
    (hlog : outstanding v bid t.log = outstanding v bid s.log) : t.Accounted v bid 0 0 :=
  have hnone := h.none_of_nil hnil
  .empty (fun k hk => hnone.1 k (hun k hk)) (hlog.trans hnone.2) 0

theorem blank_of_le {m : Nat} (h : (s.tids v bid).length ≤ m) : s.Blank v bid m := by
  intro y hy l hl
  rw [List.getElem?_eq_none (h.trans hy)] at hl
  cases hl

theorem Blank.same {m : Nat} (h : s.Blank v bid m) (htids : t.tids v bid = s.tids v bid) :
    t.Blank v bid m := by
  rw [Blank, htids]
  exact h

theorem Page.ctl (h : s.Page strict v bid) (hthreads : s.Threads v) (hlisted : s.Listed)
    (hown : s.JoinsOwn) (hclean : strict → s.RefusedClean) (hs : Ctl s t) :
    t.Page strict v bid := by
  have hs' := hs
  have hlen {b : Nat} {blk : Block} (hb : s.block? v b = some blk) :
      (s.tids v b).length = blk.vcores.length := by
    rw [hthreads.length_tids, cores_of_block hb, List.length_map]
  -- the step is not at this block
  have haway (hl : ∀ i, s.ctrl ≠ .launching v bid i) (hj : ∀ i k, s.ctrl ≠ .joining v bid i k)
      (hlt : ∀ w b i, t.ctrl ≠ .launching w b i) (hjt : ∀ i k, t.ctrl ≠ .joining v bid i k)
      (hun : ∀ k, t.Unjoined v bid k ↔ s.Unjoined v bid k) (htids : t.tids v bid = s.tids v bid)
      (hlog : outstanding v bid t.log = outstanding v bid s.log) : t.Page strict v bid := by
    obtain ⟨m, hacc, htail⟩ := h.away hl hj
    refine Page.of_accounted (hacc.same hun htids hlog) ?_ hjt fun hst => (htail hst).imp_right (·.same htids)
    unfold Ctrl.Reached
    split
    · next hc => exact absurd hc (hlt _ _ _)
    · trivial
  have hother {w b i : Nat} {k : Kont} (hc : s.ctrl = .joining w b i k) (hat : ¬(w = v ∧ b = bid)) (i' : Nat)
      (k' : Kont) : s.ctrl ≠ .joining v bid i' k' := by
    intro heq
    rw [hc] at heq
    cases heq
    exact hat ⟨rfl, rfl⟩
  cases hs with
  | @deployed w b i hc hb =>
    obtain ⟨m, hacc, -, htail⟩ := h.launching hc
    refine Page.of_accounted (hacc.same (fun _ => Iff.rfl) rfl rfl) trivial (by simp) fun hst => ?_
    rcases htail hst with ⟨rfl, rfl⟩ | htail
    · exact .inr (.same (blank_of_le (s := s) (by simp [tids, hb])) rfl)
    · exact htail
  | @noVcore w b i blk hc hb hnil =>
    obtain ⟨m, hacc, hreach, htail⟩ := h.launching hc
    have htids : ((s.begun w b i).goto (.undeploying w 0 .rollback)).tids v bid = s.tids v bid :=
      tids_ctl hs' fun _ => .inr (by simp)
    refine Page.of_accounted (hacc.begun (fun hw hb => (hreach hw).1 hb) (by simp) (by simp) rfl) trivial
      (by simp) fun hst => ?_
    rcases htail hst with ⟨rfl, rfl⟩ | htail
    · exact .inr (.same (blank_of_le (by simp [hlen hb, hnil])) htids)
    · exact htail.imp_right (·.same htids)
  | @nextBlock w b i blk hc hb hne hi =>
    obtain ⟨m, hacc, hreach, htail⟩ := h.launching hc
    have htids : ((s.begun w b i).goto (.launching w (b + 1) 0)).tids v bid = s.tids v bid :=
      tids_ctl hs' fun _ => .inr (by simp)
    refine Page.of_accounted (hacc.begun (fun hw hb => (hreach hw).1 hb) (by simp) (by simp) rfl)
      (fun hw => ⟨fun hb => (hreach hw).2 (by omega), fun hb => (hreach hw).2 (by omega)⟩) (by simp) fun hst => ?_
    rcases htail hst with ⟨rfl, rfl⟩ | htail
    · exact .inr (.same (blank_of_le (by rw [hlen hb, (hreach rfl).1 rfl]; exact hi)) htids)
    · exact htail.imp_right (·.same htids)
  | @launch w b i blk vc hc hb hi h0 hwait =>
    obtain ⟨m, hacc, hreach, htail⟩ := h.launching hc
    have hun (k : Nat) : (s.launched w b i vc.lcoreId).Unjoined v bid k ↔
        if k = vc.lcoreId then (w = v ∧ b = bid) else s.Unjoined v bid k := by
      rw [unjoined_update (launched_lcore ..)]
      simp [Lcore.launched]
    have hnew : ¬s.Unjoined v bid vc.lcoreId := by simp [Unjoined, hwait, Lcore.launched]
    have hnote : outstanding v bid (s.launched w b i vc.lcoreId).log =
        if w = v ∧ b = bid then vc.lcoreId :: outstanding v bid (s.begun w b i).log
        else outstanding v bid (s.begun w b i).log := rfl
    have htids : (s.launched w b i vc.lcoreId).tids v bid =
        if v = w ∧ bid = b then (s.tids v bid).set i vc.lcoreId else s.tids v bid := by
      rw [tids, block?, launched_nfvi]
      exact tids_setTid s w b v bid i vc.lcoreId
    by_cases hat : w = v ∧ b = bid
    · obtain ⟨rfl, rfl⟩ := hat
      obtain rfl := (hreach rfl).1 rfl
      rw [if_pos ⟨rfl, rfl⟩] at hnote htids
      have hlog : outstanding w b (s.launched w b m vc.lcoreId).log = vc.lcoreId :: outstanding w b s.log := by
        rw [hnote, outstanding_begun]
        by_cases hm : m = 0
        · subst hm
          rw [if_pos ⟨rfl, rfl, rfl⟩, (hacc.none_of_nil (Accounted.held_nil le_rfl)).2]
        · rw [if_neg fun h => hm h.1]
      refine ⟨m + 1, fun _ => ⟨fun _ => rfl, fun hlt => absurd hlt (Nat.lt_irrefl b)⟩,
        hacc.launch h0 ?_ hnew (fun k => ?_) htids hlog, fun _ => .inl ⟨m + 1, rfl⟩⟩
      · rw [hlen hb]
        exact (List.getElem?_eq_some_iff.mp hi).1
      · rw [hun]
        by_cases hk : k = vc.lcoreId <;> simp [hk]
    · rw [if_neg hat, outstanding_begun, if_neg fun h => hat h.2] at hnote
      rw [if_neg fun h => hat ⟨h.1.symm, h.2.symm⟩] at htids
      refine Page.of_accounted (hacc.same (fun k => ?_) htids hnote)
        (fun hw => ⟨fun hb => absurd ⟨hw, hb.symm⟩ hat, (hreach hw).2⟩) (by simp)
        fun hst => ((htail hst).resolve_left fun h => hat ⟨h.1, h.2.symm⟩).imp_right (·.same htids)
      rw [hun]
      by_cases hk : k = vc.lcoreId
      · subst hk
        simp [hat, hnew]
      · simp [hk]
  | @refused w b i blk vc th hc hb hi hno hth =>
    obtain ⟨m, hacc, hreach, htail⟩ := h.launching hc
    have htids : ({s.begun w b i with native := th}.goto (.undeploying w 0 .rollback)).tids v bid =
        s.tids v bid := tids_ctl hs' fun _ => .inr (by simp)
    have hlcore : th.lcore = s.native.lcore := by obtain rfl | ⟨-, rfl⟩ := hth <;> rfl
    refine Page.of_accounted (hacc.begun (fun hw hb => (hreach hw).1 hb) hlcore (by simp) rfl) trivial
      (by simp) fun hst => ?_
    rcases htail hst with ⟨rfl, rfl⟩ | htail
    · obtain rfl := (hreach rfl).1 rfl
      by_cases hm : m = 0
      · exact .inl hm
      · refine .inr (.same (fun y hy l hl => ?_) htids)
        have hblank := hclean hst
        unfold RefusedClean at hblank
        rw [hc] at hblank
        rw [tids_of_block hb] at hl
        refine hblank hm blk hb vc hi hno l (List.mem_iff_getElem?.mpr ⟨y - m, ?_⟩)
        rw [List.getElem?_drop, Nat.add_sub_cancel' hy]
        exact hl
    · exact htail.imp_right (·.same htids)
  | rolledBack hc | undeployed hc | skip hc =>
    exact haway (by simp [hc]) (by simp [hc]) (by simp) (by simp) (fun _ => Iff.rfl) rfl rfl
  | @store w b k blk hc hb hrun =>
    have htids : ((s.editBlock w b (setRunning false)).goto (.joining w b 0 k)).tids v bid = s.tids v bid :=
      tids_ctl hs' fun _ => .inr (by simp)
    by_cases hat : w = v ∧ b = bid
    · obtain ⟨rfl, rfl⟩ := hat
      obtain ⟨m, hacc, htail⟩ := h.away (by simp [hc]) (by simp [hc])
      refine ⟨m, trivial, ?_, fun hst => .inr (.inr (.same ((htail hst).resolve_left ?_) htids))⟩
      · simp only [goto_ctrl, Ctrl.first, and_self, if_true]
        exact hacc.same (fun _ => Iff.rfl) htids rfl
      rintro rfl
      obtain ⟨l, hl⟩ := hthreads.raised b (by rw [flag_of_block hb, hrun])
      exact (hacc.none_of_nil (Accounted.held_nil le_rfl)).1 l (by rw [Unjoined, hl]; rfl)
    · exact haway (by simp [hc]) (by simp [hc]) (by simp) (fun _ _ heq => hat (by cases heq; exact ⟨rfl, rfl⟩))
        (fun _ => Iff.rfl) htids rfl
  | @noTid w b i k blk hc hb hi htid =>
    by_cases hat : w = v ∧ b = bid
    · obtain ⟨rfl, rfl⟩ := hat
      rw [← tids_of_block hb, List.getElem?_eq_none_iff, hlen hb] at htid
      omega
    · exact haway (by simp [hc]) (hother hc hat) (by simp) (by simp) (fun _ => Iff.rfl) rfl rfl
  | @okashii w b i k blk hc hb hi htid =>
    by_cases hat : w = v ∧ b = bid
    · obtain ⟨rfl, rfl⟩ := hat
      obtain ⟨m, hacc, -⟩ := h.joining hc
      have hm : m ≤ i := Nat.not_lt.mp fun hlt => hacc.nonzero
        (Accounted.mem_of_index (by rw [tids_of_block hb, htid]) hlt)
      exact Page.of_accounted (hacc.closed (Accounted.held_nil hm) (fun _ => id) rfl) trivial (by simp)
        fun _ => .inl rfl
    · exact haway (by simp [hc]) (hother hc hat) (by simp) (by simp) (fun _ => Iff.rfl) rfl rfl
  | @join w b i tid k blk hc hb hi htid h0 hrun hmem =>
    have hid : (s.tids w b)[i]? = some tid := by rw [tids_of_block hb, htid]
    have hun (k' : Nat) : (s.joined w b i tid k).Unjoined v bid k' ↔ k' ≠ tid ∧ s.Unjoined v bid k' :=
      unjoined_released (joined_lcore ..) k'
    have hself : ∀ c, s.native.lcore tid = c → c = .wait ∨ c = .finished (.block w b) := by
      intro c hl
      cases c with
      | wait => exact .inl rfl
      | running => rw [hl] at hrun; cases hrun
      | finished x => exact .inr (by rw [hown w b i k hc tid hid h0 x hl])
    by_cases hat : w = v ∧ b = bid
    · obtain ⟨rfl, rfl⟩ := hat
      obtain ⟨m, hacc, hblank⟩ := h.joining hc
      have hlog : outstanding w b (s.joined w b i tid k).log = (outstanding w b s.log).erase tid :=
        if_pos ⟨rfl, rfl⟩
      rcases Nat.lt_or_ge i m with hlt | hge
      · refine ⟨m, trivial, ?_, fun hst => .inr (.inr (hblank hst))⟩
        simp only [joined_ctrl, Ctrl.first, and_self, if_true]
        exact hacc.join hlt hid hun rfl hlog
      · have hnone := hacc.none_of_nil (Accounted.held_nil hge)
        refine ⟨0, trivial, .empty (fun k' hk' => hnone.1 k' ((hun k').mp hk').2) ?_ _, fun hst => ?_⟩
        · rw [hlog, hnone.2]
          rfl
        · exact absurd (hblank hst i hge tid hid) h0
    · have hnot : ¬s.Unjoined v bid tid := by
        rw [Unjoined]
        rcases hself _ rfl with hl | hl <;> rw [hl]
        · simp [Lcore.launched]
        · intro heq
          cases heq
          exact hat ⟨rfl, rfl⟩
      refine haway (by simp [hc]) (hother hc hat) (by simp)
        (fun _ _ heq => hat (by cases heq; exact ⟨rfl, rfl⟩)) (fun k' => ?_) rfl (if_neg hat)
      rw [hun]
      exact and_iff_right_of_imp fun hk' heq => hnot (heq ▸ hk')
  | @unknown w b i tid k blk what hc hb hi htid h0 hrun hmem =>
    have hwait : s.native.lcore tid = .wait := by
      by_contra hne
      exact hmem (hlisted tid hne)
    have hnot : ¬s.Unjoined v bid tid := by
      rw [Unjoined, hwait]
      simp [Lcore.launched]
    have hun (k' : Nat) : ((s.setLcore tid .wait).goto (.idle (some (.threw what)))).Unjoined v bid k' ↔
        s.Unjoined v bid k' := by
      refine (unjoined_released (s := s) (l := tid) rfl k').trans ?_
      exact and_iff_right_of_imp fun hk' heq => hnot (heq ▸ hk')
    by_cases hat : w = v ∧ b = bid
    · obtain ⟨rfl, rfl⟩ := hat
      obtain ⟨m, hacc, -⟩ := h.joining hc
      have hm : m ≤ i := Nat.not_lt.mp fun hlt => hnot
        ((hacc.unjoined tid).mpr (Accounted.mem_of_index (by rw [tids_of_block hb, htid]) hlt))
      exact Page.of_accounted (hacc.closed (Accounted.held_nil hm) (fun k' => (hun k').mp) rfl) trivial (by simp)
        fun _ => .inl rfl
    · exact haway (by simp [hc]) (hother hc hat) (by simp) (by simp) hun rfl rfl
  | @blockDone w b i k blk hc hb hi =>
    by_cases hat : w = v ∧ b = bid
    · obtain ⟨rfl, rfl⟩ := hat
      obtain ⟨m, hacc, -⟩ := h.joining hc
      refine Page.of_accounted (hacc.closed ?_ (fun _ => id) rfl) trivial (by simp) fun _ => .inl rfl
      exact Accounted.held_nil_of_length (by rw [hlen hb]; exact hi)
    · exact haway (by simp [hc]) (hother hc hat) (by simp) (by simp) (fun _ => Iff.rfl) rfl rfl

end Step

/-! ### Books across steps -/

section Live
variable {s t : Sys} {v : Nat}

/-- The server's thread never goes on with a VNF that is gone. -/
theorem live_of_ctl (hs : s.ctl = some t) (hc : s.ctrl.vnf? = some v) : v ∈ s.nfvi.vnfs := by
  by_contra hv
  unfold ctl at hs
  split at hs <;> rename_i heq <;> rw [heq] at hc <;> cases hc <;> simp [hv] at hs

/-- What is configured or deployed is in the table. -/
theorem live_of_set {l : Label} (hs : s.step l = some t) (h : s.Configures v l ∨ s.Deploys v l) :
    v ∈ s.nfvi.vnfs := by
  have hcall {α : Type} {f : Vnf → Proc Nfvi α} {g : α → Proc Nfvi Next} (hv : v ∉ s.nfvi.vnfs) :
      s.serve (Nfvi.vnfAt v >>= f >>= g) = none :=
    serve_crash (Proc.bind_crash (Proc.bind_crash (Nfvi.vnfAt_of_not_mem hv)))
  cases l with
  | request r =>
    rcases h with ⟨hgate, -⟩ | ⟨hgate, -⟩
    · unfold Nfvi.blockGate at hgate
      split at hgate
      · exact List.mem_of_find?_eq_some hgate
      · exact List.mem_of_find?_eq_some hgate
      · cases hgate
    · unfold Nfvi.deployGate at hgate
      split at hgate
      · exact List.mem_of_find?_eq_some hgate
      · cases hgate
  | call c =>
    by_contra hv
    cases c with
    | reset w =>
      obtain rfl : v = w := h.resolve_right id
      cases (hcall hv).symm.trans hs
    | setCoremask w bid cmask =>
      obtain rfl : v = w := h.resolve_right id
      cases (hcall hv).symm.trans hs
    | deploy w =>
      obtain rfl : w = v := h.resolve_left id
      have hcrash : invoke (.deploy w) s.nfvi = .crash .danglingPointer :=
        Proc.bind_crash (Proc.bind_crash (Nfvi.vnfAt_of_not_mem hv))
      cases (serve_crash hcrash).symm.trans hs
    | undeploy w => exact h.elim id id
  | ctl | wrk => exact h.elim False.elim False.elim

theorem slotFree_of_ctrl (h : ∀ w ∈ s.ctrl.vnf?, s.SlotFree w) (v : Nat) : s.SlotFree v := by
  by_cases hv : s.ctrl.vnf? = some v
  · exact h v hv
  · unfold SlotFree
    split
    · next hc =>
      rintro rfl
      rw [hc] at hv
      exact absurd rfl hv
    · trivial

end Live

namespace Books
variable {s t : Sys} {strict : Prop}

theorem joinsOwn (h : Books strict s) (hst : strict) : s.JoinsOwn := by
  intro v bid i k hc tid htid h0 x hl
  obtain ⟨m, hacc, hblank⟩ := (h.pages v bid).joining hc
  have hlt : i < m := Nat.not_le.mp fun hge => h0 (hblank hst i hge tid htid)
  have hun := (hacc.unjoined tid).mpr (Accounted.mem_of_index htid hlt)
  rw [Unjoined, hl] at hun
  exact Option.some.inj hun

theorem known_step (h : Books strict s) {l : Label} (hs : s.step l = some t) :
    ∀ v bid k, t.Unjoined v bid k → v < t.nfvi.next := by
  intro v bid k hk
  rcases step_cases hs with hserved | ⟨rfl, hctl⟩ | ⟨j, rfl, hwrk⟩
  · exact (h.known v bid k (by rwa [Unjoined, ← hserved.native])).trans_le hserved.kept.next
  · have hnext : t.nfvi.next = s.nfvi.next := congrArg Wiring.next (ctl_wiring hctl)
    rw [hnext]
    have hold {c : Lcore Task} {j : Nat} (hlcore : t.native.lcore = Function.update s.native.lcore j c)
        (hc : c.launched = some (.block v bid) → v < s.nfvi.next) : v < s.nfvi.next := by
      rw [unjoined_update hlcore] at hk
      split at hk
      · exact hc hk
      · exact h.known v bid k hk
    cases hctl with
    | launch hc =>
      refine hold (launched_lcore ..) fun heq => ?_
      cases heq
      exact h.attached.vnf_lt v (live_of_ctl hs (by rw [hc]; rfl))
    | join => exact hold (joined_lcore ..) nofun
    | unknown => exact hold (c := .wait) rfl nofun
    | refused hc hb hi hno hth =>
      obtain rfl | ⟨-, rfl⟩ := hth <;> exact h.known v bid k hk
    | noVcore | nextBlock => exact h.known v bid k (by simpa [Unjoined] using hk)
    | _ => exact h.known v bid k hk
  · have hnext : t.nfvi.next = s.nfvi.next := congrArg Wiring.next (wrk_wiring hwrk)
    rw [hnext]
    exact h.known v bid k ((unjoined_wrk hwrk k).mp hk)

/-- **The books stay in order**, as long as a VNF is configured and deployed only when none of
its threads is un-joined, no unread slot is overwritten, and only a block's own threads are
joined for it. -/
theorem step (h : Books strict s) {l : Label}
    (hset : ∀ v ∈ s.nfvi.vnfs, s.Configures v l ∨ s.Deploys v l → s.Settled v)
    (hctl : l = .ctl → (∀ v ∈ s.ctrl.vnf?, s.SlotFree v) ∧ s.JoinsOwn ∧ (strict → s.RefusedClean))
    (hs : s.step l = some t) : Books strict t where
  attached := h.attached.moved (step_moved .trivial (fun r _ => Nfvi.admits_trivial _ r) hs)
  listed := h.listed.step hs
  threads v := (h.threads v).step (fun hl => slotFree_of_ctrl (hctl hl).1 v) hs
  known := h.known_step hs
  pages v bid := by
    rcases step_cases hs with hserved | ⟨rfl, hc⟩ | ⟨k, rfl, hwrk⟩
    · exact (h.pages v bid).served hserved
        (fun hcfg => (hset v (live_of_set hs hcfg) hcfg).none_unjoined h.listed bid) (h.known v bid)
    · exact (h.pages v bid).ctl (h.threads v) h.listed (hctl rfl).2.1 (hctl rfl).2.2 hc
    · exact (h.pages v bid).wrk hwrk

theorem init (nSocket nLcore : Nat) (catalog : List (String × VnfClass)) :
    Books strict (.init nSocket nLcore catalog) := by
  have hnone (v bid l : Nat) : ¬(Sys.init nSocket nLcore catalog).Unjoined v bid l := by
    by_cases hl : l = 1
    · subst hl
      simp [Unjoined, Sys.init, Lcore.launched]
    · simp [Unjoined, Sys.init, hl, Lcore.launched]
  refine ⟨Wiring.attached_init nSocket catalog, listed_init nSocket nLcore catalog,
    threads_init nSocket nLcore catalog, fun v bid l h => absurd h (hnone v bid l), fun v bid => ?_⟩
  exact Page.of_accounted (.empty (hnone v bid) rfl 0) trivial (by simp [Sys.init]) fun _ => .inl rfl

end Books

end Sys

end Susanow
