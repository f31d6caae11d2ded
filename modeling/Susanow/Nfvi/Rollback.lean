import Susanow.Nfvi.Workers

/-! Rolling a failed deploy back.

`deploy` launches block by block and core by core, and when a launch fails it undeploys
the whole VNF: it stops the blocks whose flag is set and passes over the others. What
the launches have left is `Tracked`: every thread that still runs for a block has its
id at one of the block's indices that the roll-back has still to come to. -/
namespace Susanow.Sys

/-- A thread launched for the block runs on `l`. -/
def Active (s : Sys) (v bid l : Nat) : Prop := (s.native.lcore l).runs = some (.block v bid)

/-- Every thread the table knows of runs for others. -/
def Quiet (s : Sys) (v : Nat) : Prop :=
  ∀ l ∈ s.native.tids, ∀ x ∈ (s.native.lcore l).runs, x.vnf? ≠ some v

instance (s : Sys) (v : Nat) : Decidable (s.Quiet v) := by
  unfold Quiet
  infer_instance

/-- Indices `i` to `m` have ids, and these are the ids of the threads that run for the block. -/
structure Tracked (s : Sys) (v bid i m : Nat) : Prop where
  ids : ∀ y, i ≤ y → y < m → y < (s.cores v bid).length ∧ ∃ l, l ≠ 0 ∧ (s.tids v bid)[y]? = some l
  covered : ∀ l, s.Active v bid l → ∃ y, i ≤ y ∧ y < m ∧ (s.tids v bid)[y]? = some l

def Silent (s : Sys) (v bid : Nat) : Prop := ∀ l, ¬s.Active v bid l

namespace Tracked
variable {s t : Sys} {v bid i m : Nat}

theorem of_silent (h : s.Silent v bid) : s.Tracked v bid 0 0 where
  ids _ _ hy := absurd hy (Nat.not_lt_zero _)
  covered l hl := absurd hl (h l)

/-- Nothing is left at or behind an index with the id 0, or past the last core. -/
theorem silent (h : s.Tracked v bid i m)
    (hi : (s.cores v bid).length ≤ i ∨ (s.tids v bid)[i]? = some 0) : s.Silent v bid := by
  intro l hl
  obtain ⟨y, hy, hym, -⟩ := h.covered l hl
  obtain ⟨hlt, l', hl', hid⟩ := h.ids i le_rfl (hy.trans_lt hym)
  rcases hi with hi | hi
  · omega
  · rw [hi] at hid
    cases hid
    exact hl' rfl

theorem mono (h : s.Tracked v bid i m) (hact : ∀ l, t.Active v bid l → s.Active v bid l)
    (htids : t.tids v bid = s.tids v bid) (hcores : t.cores v bid = s.cores v bid) :
    t.Tracked v bid i m where
  ids := by rw [htids, hcores]; exact h.ids
  covered l hl := by rw [htids]; exact h.covered l (hact l hl)

/-- The thread at index `i` has ended. -/
theorem join (h : s.Tracked v bid i m) {tid : Nat} (htid : (s.tids v bid)[i]? = some tid)
    (hact : ∀ l, t.Active v bid l → s.Active v bid l ∧ l ≠ tid)
    (htids : t.tids v bid = s.tids v bid) (hcores : t.cores v bid = s.cores v bid) :
    t.Tracked v bid (i + 1) m where
  ids y hy := by rw [htids, hcores]; exact h.ids y (by omega)
  covered l hl := by
    obtain ⟨y, hy, hym, hid⟩ := h.covered l (hact l hl).1
    rw [htids]
    refine ⟨y, ?_, hym, hid⟩
    rcases Nat.lt_or_eq_of_le hy with hlt | rfl
    · exact hlt
    · rw [htid] at hid
      exact absurd (Option.some.inj hid.symm) (hact l hl).2

/-- A thread has been launched for vcore `m`. -/
theorem launch (h : s.Tracked v bid 0 m) {l : Nat} (h0 : l ≠ 0) (hm : m < (s.cores v bid).length)
    (hlen : (s.tids v bid).length = (s.cores v bid).length)
    (hact : ∀ k, t.Active v bid k → k = l ∨ s.Active v bid k)
    (htids : t.tids v bid = (s.tids v bid).set m l) (hcores : t.cores v bid = s.cores v bid) :
    t.Tracked v bid 0 (m + 1) where
  ids y _ hy := by
    rw [htids, hcores]
    rcases Nat.lt_succ_iff_lt_or_eq.mp hy with hlt | rfl
    · rw [List.getElem?_set_ne (by omega)]
      exact h.ids y (Nat.zero_le y) hlt
    · exact ⟨hm, l, h0, List.getElem?_set_self (by omega)⟩
  covered k hk := by
    rw [htids]
    rcases hact k hk with rfl | hk
    · exact ⟨m, Nat.zero_le m, Nat.lt_succ_self m, List.getElem?_set_self (by omega)⟩
    · obtain ⟨y, hy, hym, hid⟩ := h.covered k hk
      exact ⟨y, hy, Nat.lt_succ_of_lt hym, by rwa [List.getElem?_set_ne (by omega)]⟩

end Tracked

/-! ### What runs after a step -/

section Step
variable {s t : Sys} {v bid : Nat}

theorem active_update {l k : Nat} {c : Lcore Task}
    (h : t.native.lcore = Function.update s.native.lcore l c) (hk : t.Active v bid k) :
    k = l ∧ c.runs = some (.block v bid) ∨ k ≠ l ∧ s.Active v bid k := by
  unfold Active at hk
  rw [h] at hk
  by_cases hkl : k = l
  · subst hkl
    exact .inl ⟨rfl, by simpa using hk⟩
  · rw [Function.update_of_ne hkl] at hk
    exact .inr ⟨hkl, hk⟩

/-- A thread runs on as what it was launched for. -/
theorem active_wrk {l k : Nat} (hs : Wrk s l t) (hk : t.Active v bid k) : s.Active v bid k := by
  have hon {x : Task} {pc pc' : Pc Task} (hl : s.native.lcore l = .running x pc)
      (h : t.native.lcore = Function.update s.native.lcore l (.running x pc')) : s.Active v bid k := by
    rcases active_update h hk with ⟨rfl, hx⟩ | ⟨-, hk⟩
    · unfold Active
      rw [hl]
      exact hx
    · exact hk
  cases hs with
  | fetch hl => exact hon hl rfl
  | timer hl => exact hon hl rfl
  | enter hl => exact hon hl rfl
  | pass => exact hk
  | leave =>
    rcases active_update (setLcore_lcore ..) hk with ⟨-, hx⟩ | ⟨-, hk⟩
    · cases hx
    · exact hk

/-- A step of the server's thread starts none, but for a launch. -/
theorem active_ctl {k : Nat} (hs : Ctl s t) (hk : t.Active v bid k) :
    s.Active v bid k ∨ ∃ i, s.ctrl = .launching v bid i ∧ t.ctrl = .launching v bid (i + 1) := by
  cases hs with
  | @launch w b i blk vc hc =>
    rcases active_update (launched_lcore ..) hk with ⟨-, hx⟩ | ⟨-, hk⟩
    · cases hx
      exact .inr ⟨i, hc, rfl⟩
    · exact .inl hk
  | join | unknown =>
    rcases active_update rfl hk with ⟨-, hx⟩ | ⟨-, hk⟩
    · cases hx
    · exact .inl hk
  | refused hc hb hi hno hth =>
    obtain rfl | ⟨-, rfl⟩ := hth
    · exact .inl hk
    · exact .inl hk
  | noVcore | nextBlock => exact .inl (by simpa [Active] using hk)
  | _ => exact .inl hk

end Step

theorem Quiet.silent {s : Sys} {v : Nat} (h : s.Quiet v) (hlisted : s.Listed) (bid : Nat) :
    s.Silent v bid := by
  intro l hl
  refine h l (hlisted l fun hw => ?_) _ hl rfl
  rw [Active, hw] at hl
  cases hl

/-! ### How far a deploy has come -/

/-- If the roll-back of `v` comes to a block, it finds the flag set or nothing that runs. -/
def Noticed (s : Sys) (v : Nat) : Prop :=
  match s.ctrl with
  | .undeploying w bid .rollback => w = v → s.flag v bid = true ∨
      ∀ l ∈ s.native.tids, (s.native.lcore l).runs ≠ some (.block v bid)
  | _ => True

def noticed (s : Sys) (v : Nat) : Bool :=
  match s.ctrl with
  | .undeploying w bid .rollback => decide (w = v → s.flag v bid = true ∨
      ∀ l ∈ s.native.tids, (s.native.lcore l).runs ≠ some (.block v bid))
  | _ => true

theorem noticed_iff (s : Sys) (v : Nat) : s.noticed v = true ↔ s.Noticed v := by
  unfold noticed Noticed
  split
  · exact decide_eq_true_iff
  · exact iff_of_true rfl trivial

instance (s : Sys) (v : Nat) : Decidable (s.Noticed v) := decidable_of_iff _ (noticed_iff s v)

/-- How far the deploy of `v`, or its roll-back, has come. -/
def Stage (s : Sys) (v : Nat) : Prop :=
  match s.ctrl with
  | .launching w bid i => w = v → (∀ b < bid, ∃ m, s.Tracked v b 0 m) ∧ s.Tracked v bid 0 i ∧
      ∀ b, bid < b → s.Silent v b
  | .undeploying w bid .rollback => w = v → (∀ b < bid, s.Silent v b) ∧
      ∀ b, bid ≤ b → ∃ m, s.Tracked v b 0 m
  | .joining w bid i .rollback => w = v → (∀ b < bid, s.Silent v b) ∧ (∃ m, s.Tracked v bid i m) ∧
      ∀ b, bid < b → ∃ m, s.Tracked v b 0 m
  | .idle (some (.deployed w ret)) => w = v → ret = -1 → ∀ b, s.Silent v b
  | _ => True

section Stage
variable {s t : Sys} {v : Nat}

theorem Stage.served {l : Label} (hquiet : s.Deploys v l → s.Quiet v) (hlisted : s.Listed)
    (hs : Served s l t) : t.Stage v := by
  have hsilent (hdep : s.Deploys v l) (b : Nat) : t.Silent v b := by
    intro k hk
    refine (hquiet hdep).silent hlisted b k ?_
    rwa [Active, hs.native] at hk
  unfold Stage
  rcases hs.ctrl with ⟨last, hc, hdep⟩ | ⟨w, hc, hdep⟩ | ⟨w, hc⟩ <;> rw [hc]
  · split
    · next heq => cases heq
    · next heq => cases heq
    · next heq => cases heq
    · next w ret heq =>
      cases heq
      rintro rfl rfl
      exact hsilent (hdep w _ rfl)
    · trivial
  · rintro rfl
    exact ⟨fun b hb => absurd hb (Nat.not_lt_zero b), .of_silent (hsilent hdep 0), fun b _ => hsilent hdep b⟩
  · trivial

theorem Stage.wrk (h : s.Stage v) {l : Nat} (hs : Wrk s l t) : t.Stage v := by
  have hctrl : t.ctrl = s.ctrl := by cases hs <;> rfl
  have htracked {b i m : Nat} (h : s.Tracked v b i m) : t.Tracked v b i m :=
    h.mono (fun _ => active_wrk hs) (tids_wrk hs) (cores_wrk hs)
  have hsilent {b : Nat} (h : s.Silent v b) : t.Silent v b := fun k hk => h k (active_wrk hs hk)
  unfold Stage at h ⊢
  rw [hctrl]
  split
  · next hc =>
    rw [hc] at h
    intro hw
    obtain ⟨hbelow, hat, habove⟩ := h hw
    exact ⟨fun b hb => (hbelow b hb).imp fun _ => htracked, htracked hat, fun b hb => hsilent (habove b hb)⟩
  · next hc =>
    rw [hc] at h
    intro hw
    obtain ⟨hbelow, habove⟩ := h hw
    exact ⟨fun b hb => hsilent (hbelow b hb), fun b hb => (habove b hb).imp fun _ => htracked⟩
  · next hc =>
    rw [hc] at h
    intro hw
    obtain ⟨hbelow, hat, habove⟩ := h hw
    exact ⟨fun b hb => hsilent (hbelow b hb), hat.imp fun _ => htracked,
      fun b hb => (habove b hb).imp fun _ => htracked⟩
  · next hc =>
    rw [hc] at h
    exact fun hw hret b => hsilent (h hw hret b)
  · trivial

/-- The launches have come to an end: what they left is the roll-back's. -/
theorem tracked_of_launches {bid i : Nat} (h : (∀ b < bid, ∃ m, s.Tracked v b 0 m) ∧
    s.Tracked v bid 0 i ∧ ∀ b, bid < b → s.Silent v b) (b : Nat) : ∃ m, s.Tracked v b 0 m := by
  rcases Nat.lt_trichotomy b bid with hlt | rfl | hgt
  · exact h.1 b hlt
  · exact ⟨i, h.2.1⟩
  · exact ⟨0, .of_silent (h.2.2 b hgt)⟩

theorem Stage.launching (h : s.Stage v) {bid i : Nat} (hc : s.ctrl = .launching v bid i) :
    (∀ b < bid, ∃ m, s.Tracked v b 0 m) ∧ s.Tracked v bid 0 i ∧ ∀ b, bid < b → s.Silent v b := by
  unfold Stage at h
  rw [hc] at h
  exact h rfl

theorem Stage.undeploying (h : s.Stage v) {bid : Nat} (hc : s.ctrl = .undeploying v bid .rollback) :
    (∀ b < bid, s.Silent v b) ∧ ∀ b, bid ≤ b → ∃ m, s.Tracked v b 0 m := by
  unfold Stage at h
  rw [hc] at h
  exact h rfl

theorem Stage.joining (h : s.Stage v) {bid i : Nat} (hc : s.ctrl = .joining v bid i .rollback) :
    (∀ b < bid, s.Silent v b) ∧ (∃ m, s.Tracked v bid i m) ∧ ∀ b, bid < b → ∃ m, s.Tracked v b 0 m := by
  unfold Stage at h
  rw [hc] at h
  exact h rfl

/-- A step that is no launch leaves the threads of a block where they are, or ends some. -/
theorem Tracked.ctl {bid i m : Nat} (h : s.Tracked v bid i m) (hs : Ctl s t)
    (hne : ∀ w b j, t.ctrl ≠ .launching w b (j + 1)) : t.Tracked v bid i m := by
  refine h.mono (fun k hk => ?_) (tids_ctl hs fun j => .inr (hne v bid j)) (cores_ctl hs)
  rcases active_ctl hs hk with hk | ⟨j, -, hc⟩
  · exact hk
  · exact absurd hc (hne v bid j)

theorem Silent.ctl {bid : Nat} (h : s.Silent v bid) (hs : Ctl s t)
    (hne : ∀ j, t.ctrl ≠ .launching v bid (j + 1)) : t.Silent v bid := by
  intro k hk
  rcases active_ctl hs hk with hk | ⟨j, -, hc⟩
  · exact h k hk
  · exact hne j hc

/-- The roll-back goes on to the next block once nothing runs for this one. -/
theorem next_block {bid : Nat} (hs : Ctl s t) (hne : ∀ w b j, t.ctrl ≠ .launching w b (j + 1))
    (hbelow : ∀ b < bid, s.Silent v b) (hat : s.Silent v bid)
    (habove : ∀ b, bid < b → ∃ m, s.Tracked v b 0 m) :
    (∀ b < bid + 1, t.Silent v b) ∧ ∀ b, bid + 1 ≤ b → ∃ m, t.Tracked v b 0 m := by
  refine ⟨fun b hb => ?_, fun b hb => (habove b hb).imp fun _ h => h.ctl hs hne⟩
  rcases Nat.lt_succ_iff_lt_or_eq.mp hb with hlt | rfl
  · exact (hbelow b hlt).ctl hs (hne v b)
  · exact hat.ctl hs (hne v b)

theorem Stage.ctl (h : s.Stage v) (hthreads : s.Threads v) (hlisted : s.Listed) (hnoticed : s.Noticed v)
    (hs : Ctl s t) : t.Stage v := by
  have hs' := hs
  cases hs with
  | deployed => exact fun _ hret => absurd hret (by decide)
  | noVcore hc =>
    rintro rfl
    refine ⟨fun b hb => absurd hb (Nat.not_lt_zero b), fun b _ => ?_⟩
    exact (tracked_of_launches (h.launching hc) b).imp fun _ h => h.ctl hs' (by simp)
  | @nextBlock w bid i blk hc =>
    rintro rfl
    obtain ⟨hbelow, hat, habove⟩ := h.launching hc
    have hnext : s.Tracked w (bid + 1) 0 0 := .of_silent (habove _ (Nat.lt_succ_self bid))
    refine ⟨fun b hb => ?_, hnext.ctl hs' (by simp), fun b hb => (habove b (by omega)).ctl hs' (by simp)⟩
    rcases Nat.lt_succ_iff_lt_or_eq.mp hb with hlt | rfl
    · exact (hbelow b hlt).imp fun _ h => h.ctl hs' (by simp)
    · exact ⟨i, hat.ctl hs' (by simp)⟩
  | @launch w bid i blk vc hc hb hi h0 hwait =>
    rintro rfl
    obtain ⟨hbelow, hat, habove⟩ := h.launching hc
    have hactive {b k : Nat} (hk : (s.launched w bid i vc.lcoreId).Active w b k) :
        (b = bid ∧ k = vc.lcoreId) ∨ s.Active w b k := by
      rcases active_update (launched_lcore ..) hk with ⟨rfl, hx⟩ | ⟨-, hk⟩
      · cases hx
        exact .inl ⟨rfl, rfl⟩
      · exact .inr hk
    have hother {b : Nat} (hne : b ≠ bid) {k : Nat} (hk : (s.launched w bid i vc.lcoreId).Active w b k) :
        s.Active w b k := (hactive hk).resolve_left fun h => hne h.1
    have htids (b : Nat) : (s.launched w bid i vc.lcoreId).tids w b =
        if w = w ∧ b = bid then (s.tids w b).set i vc.lcoreId else s.tids w b := by
      rw [tids, block?, launched_nfvi]
      exact tids_setTid s w bid w b i vc.lcoreId
    refine ⟨fun b hb => (hbelow b hb).imp fun m h => h.mono (fun k => hother hb.ne) ?_ (cores_ctl hs'),
      hat.launch h0 ?_ (hthreads.length_tids bid) (fun k hk => ?_) ?_ (cores_ctl hs'),
      fun b hb k hk => habove b hb k (hother hb.ne' hk)⟩
    · rw [cores_of_block hb, List.length_map]
      exact (List.getElem?_eq_some_iff.mp hi).1
    · exact (hactive hk).imp_left And.right
    · rw [htids, if_pos ⟨rfl, rfl⟩]
    · rw [htids, if_neg fun h => hb.ne h.2]
  | refused hc =>
    rintro rfl
    refine ⟨fun b hb => absurd hb (Nat.not_lt_zero b), fun b _ => ?_⟩
    exact (tracked_of_launches (h.launching hc) b).imp fun _ h => h.ctl hs' (by simp)
  | @rolledBack w bid hc hb =>
    rintro rfl - b
    obtain ⟨hbelow, habove⟩ := h.undeploying hc
    rcases Nat.lt_or_ge b bid with hlt | hge
    · exact (hbelow b hlt).ctl hs' (by simp)
    · obtain ⟨m, htracked⟩ := habove b hge
      have hnone : s.block? w b = none := by
        simp only [block?, Nfvi.block?, List.getElem?_eq_none_iff] at hb ⊢
        omega
      exact (htracked.silent (.inl (by simp [cores, hnone]))).ctl hs' (by simp)
  | undeployed => trivial
  | @skip w bid k blk hc hb hrun =>
    cases k with
    | put => trivial
    | rollback =>
      rintro rfl
      obtain ⟨hbelow, habove⟩ := h.undeploying hc
      refine next_block hs' (by simp) hbelow (fun l hl => ?_) fun b hb => habove b hb.le
      unfold Noticed at hnoticed
      rw [hc] at hnoticed
      rcases hnoticed rfl with hflag | hnone
      · rw [flag_of_block hb, hrun] at hflag
        cases hflag
      · refine hnone l (hlisted l fun hw => ?_) hl
        rw [Active, hw] at hl
        cases hl
  | @store w bid k blk hc =>
    cases k with
    | put => trivial
    | rollback =>
      rintro rfl
      obtain ⟨hbelow, habove⟩ := h.undeploying hc
      exact ⟨fun b hb => (hbelow b hb).ctl hs' (by simp), (habove bid le_rfl).imp fun _ h => h.ctl hs' (by simp),
        fun b hb => (habove b hb.le).imp fun _ h => h.ctl hs' (by simp)⟩
  | noTid => trivial
  | @okashii w bid i k blk hc hb hi htid =>
    cases k with
    | put => trivial
    | rollback =>
      rintro rfl
      obtain ⟨hbelow, ⟨m, hat⟩, habove⟩ := h.joining hc
      exact next_block hs' (by simp) hbelow (hat.silent (.inr (by rw [tids_of_block hb, htid]))) habove
  | @join w bid i tid k blk hc hb hi htid =>
    cases k with
    | put => trivial
    | rollback =>
      rintro rfl
      obtain ⟨hbelow, ⟨m, hat⟩, habove⟩ := h.joining hc
      refine ⟨fun b hb => (hbelow b hb).ctl hs' (by simp), ⟨m, hat.join (by rw [tids_of_block hb, htid])
        (fun l hl => ?_) rfl rfl⟩, fun b hb => (habove b hb).imp fun _ h => h.ctl hs' (by simp)⟩
      rcases active_update (joined_lcore ..) hl with ⟨-, hx⟩ | ⟨hne, hl⟩
      · cases hx
      · exact ⟨hl, hne⟩
  | unknown => trivial
  | @blockDone w bid i k blk hc hb hi =>
    cases k with
    | put => trivial
    | rollback =>
      rintro rfl
      obtain ⟨hbelow, ⟨m, hat⟩, habove⟩ := h.joining hc
      refine next_block hs' (by simp) hbelow (hat.silent (.inl ?_)) habove
      rwa [cores_of_block hb, List.length_map]

end Stage

/-! ### Runs -/

/-- No deploy of `v` is begun while a thread still runs for it; no launch for it overwrites a
slot that another thread has still to read; and its roll-back comes to a block when the
flag is set or nothing runs for it. -/
def rollbackRule (v : Nat) (s : Sys) : Label → Prop
  | .ctl => s.SlotFree v ∧ s.Noticed v
  | l => s.Deploys v l → s.Quiet v

instance (v : Nat) (s : Sys) (l : Label) : Decidable (rollbackRule v s l) := by
  unfold rollbackRule
  split <;> infer_instance

theorem staged_of_run {nSocket nLcore : Nat} {catalog : List (String × VnfClass)} {v : Nat}
    {ls : List Label} {s : Sys} (h : Runs step (rollbackRule v) (.init nSocket nLcore catalog) ls s) :
    s.Listed ∧ s.Threads v ∧ s.Stage v := by
  refine h.invariant (I := fun s => s.Listed ∧ s.Threads v ∧ s.Stage v)
    ⟨listed_init nSocket nLcore catalog, threads_init nSocket nLcore catalog v, trivial⟩ ?_
  intro s l t ⟨hlisted, hthreads, hstage⟩ hrule hs
  refine ⟨hlisted.step hs, hthreads.step (fun hl => ?_) hs, ?_⟩
  · subst hl
    exact hrule.1
  · rcases step_cases hs with hserved | ⟨rfl, hctl⟩ | ⟨k, rfl, hwrk⟩
    · refine Stage.served (fun hdep => ?_) hlisted hserved
      cases l with
      | request | call => exact hrule hdep
      | ctl | wrk => cases hdep
    · exact hstage.ctl hthreads hlisted hrule.2 hctl
    · exact hstage.wrk hwrk

/-- Nothing of `v` runs, and nothing starts it. -/
structure Down (s : Sys) (v : Nat) : Prop where
  resting : s.Resting v
  threads : s.Threads v
  silent : ∀ b, s.Silent v b

theorem Down.flag {s : Sys} {v : Nat} (h : s.Down v) (b : Nat) : s.flag v b = false := by
  rw [← Bool.not_eq_true]
  intro hflag
  obtain ⟨l, hl⟩ := h.threads.raised b hflag
  exact h.silent b l (by rw [Active, hl]; rfl)

theorem Down.step {s t : Sys} {v : Nat} {l : Label} (h : s.Down v) (hdep : ¬s.Deploys v l)
    (hs : s.step l = some t) : t.Down v := by
  have hfree : s.SlotFree v := by
    unfold SlotFree
    split
    · next hc =>
      rintro rfl
      exact absurd hc (h.resting _ _)
    · trivial
  refine ⟨resting_step h.resting hdep hs, h.threads.step (fun _ => hfree) hs, fun b k hk => ?_⟩
  rcases step_cases hs with hserved | ⟨-, hctl⟩ | ⟨j, -, hwrk⟩
  · exact h.silent b k (by rwa [Active, ← hserved.native])
  · rcases active_ctl hctl hk with hk | ⟨i, hc, -⟩
    · exact h.silent b k hk
    · exact h.resting b i hc
  · exact h.silent b k (active_wrk hwrk hk)

/-- **After a deploy that returns -1 nothing of the VNF runs**, until it is deployed again. -/
theorem rolled_back_of_run {nSocket nLcore : Nat} {catalog : List (String × VnfClass)} {v : Nat}
    {ls ms : List Label} {s t : Sys}
    (h : Runs step (rollbackRule v) (.init nSocket nLcore catalog) ls s)
    (hc : s.ctrl = .idle (some (.deployed v (-1))))
    (h' : Runs step (fun s l => ¬s.Deploys v l) s ms t) :
    (∀ b l, ¬t.Active v b l) ∧ ∀ b, t.flag v b = false := by
  obtain ⟨-, hthreads, hstage⟩ := staged_of_run h
  unfold Stage at hstage
  rw [hc] at hstage
  have hdown : t.Down v := by
    refine h'.invariant (I := fun s => s.Down v) ⟨fun _ _ hl => ?_, hthreads, hstage rfl rfl⟩
      fun s l t h hdep hs => h.step hdep hs
    rw [hc] at hl
    cases hl
  exact ⟨hdown.silent, hdown.flag⟩

/-- One worker is launched, and the second block has no core. -/
def failingRun : List Label := deployRun "l2fwd_numa" [0x4]

/-- The worker has stored its flag by the time the roll-back comes to its block. -/
def noticedRun : List Label :=
  failingRun ++ [.ctl, .wrk 2, .wrk 2, .ctl, .ctl, .ctl, .wrk 2, .ctl, .ctl, .ctl, .ctl]

theorem rolled_back_of_noticedRun :
    ∃ s t, exec step (.init 1 4 mainCatalog) noticedRun = some s ∧
      s.ctrl = .idle (some (.deployed 0 (-1))) ∧ exec step s [.request (pciPort "c")] = some t ∧
      (∀ b l, ¬t.Active 0 b l) ∧ ∀ b, t.flag 0 b = false := by
  obtain ⟨s, hs, hf⟩ := Option.map_eq_some_iff.mp
    (show (exec step (.init 1 4 mainCatalog) noticedRun).map (fun s => (s.ctrl,
        (exec step s [.request (pciPort "c")]).isSome)) = some (.idle (some (.deployed 0 (-1))), true) by
      decide +kernel)
  simp only [Prod.mk.injEq] at hf
  obtain ⟨t, ht⟩ := Option.isSome_iff_exists.mp hf.2
  refine ⟨s, t, hs, hf.1, ht, rolled_back_of_run (Runs.of_obeys (by decide +kernel) hs) hf.1
    (Runs.of_exec_rule ?_ ht)⟩
  simp [Deploys, Nfvi.deployGate, Nfvi.Open, pciPort]

/-- If it has not, the roll-back passes it over, and it runs on. -/
theorem worker_survives_roll_back :
    ∃ s t, exec step (.init 1 4 mainCatalog) (failingRun ++ [.ctl, .ctl, .ctl, .ctl, .ctl, .ctl]) = some s ∧
      s.ctrl = .idle (some (.deployed 0 (-1))) ∧
      Runs step (fun s l => ¬s.Deploys 0 l) s [.wrk 2, .wrk 2] t ∧
      t.Active 0 0 2 ∧ t.flag 0 0 = true := by
  obtain ⟨s, hs, hf⟩ := Option.map_eq_some_iff.mp
    (show (exec step (.init 1 4 mainCatalog) (failingRun ++ [.ctl, .ctl, .ctl, .ctl, .ctl, .ctl])).map
        (fun s => (s.ctrl, (exec step s [.wrk 2, .wrk 2]).map fun t => ((t.native.lcore 2).runs, t.flag 0 0))) =
      some (.idle (some (.deployed 0 (-1))), some (some (.block 0 0), true)) by decide +kernel)
  simp only [Prod.mk.injEq] at hf
  obtain ⟨t, ht, hend⟩ := Option.map_eq_some_iff.mp hf.2
  simp only [Prod.mk.injEq] at hend
  exact ⟨s, t, hs, hf.1, Runs.of_exec_rule (by simp [Deploys]) ht, hend.1, hend.2⟩

end Susanow.Sys
