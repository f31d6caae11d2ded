import Susanow.Lthread.Fifo

/-! An insert that nobody interferes with.

It returns: what it takes is bounded by the nodes that a pool is filled up with, which are as many
as it may have to allocate, and it leaves its value in the queue (`insert_returns`). -/
namespace Susanow.Lthread
variable {τ κ δ : Type} [DecidableEq τ] [DecidableEq κ] {preAlloc : Nat} {s s' : State τ κ δ} {t : τ}
  {c : Insert κ δ}
  {chain : Loc τ κ → List (Qnode τ κ)} {place : Qnode τ κ → Place τ κ}

/-- Steps of one scheduler on its own. -/
def State.Leads (preAlloc : Nat) (t : τ) (m : Nat) (s s' : State τ κ δ) : Prop :=
  Runs (State.step preAlloc) State.Orderly s (List.replicate m (.go t true)) s'

theorem State.Leads.trans {m n : Nat} {s'' : State τ κ δ} (h : s.Leads preAlloc t m s')
    (h' : s'.Leads preAlloc t n s'') :
    s.Leads preAlloc t (m + n) s'' := by
  rw [Leads, List.replicate_add]
  exact h.append h'

/-- A step that is not the look at the head. -/
theorem leads_one (hpc : ∀ c again, s.pc t ≠ .look c again)
    (hgo : s.go preAlloc t true (s.pc t) = some s') :
    s.Leads preAlloc t 1 s' := by
  refine .next hgo ?_ (.done s')
  intro hlooks
  cases hlook : s.pc t with
  | look c again => exact absurd hlook (hpc c again)
  | _ => rw [hlook] at hlooks; cases hlooks

/-- Nobody is between an exchange and a link. -/
def State.Settled (s : State τ κ δ) : Prop := ∀ u, (s.pc u).pend = none

theorem chain_of_next (h : Kept preAlloc s chain place) (hs : s.Settled) {i : Loc τ κ}
    (hnext : s.next (s.tail i) = none) :
    chain i = [s.tail i] := by
  have hbroken : chain i = [s.tail i] ∨ _ := h.chained.tail_broken hnext
  cases hbroken with
  | inl hone => exact hone
  | inr hpend =>
    obtain ⟨u, b, hu⟩ := hpend
    have hnone : s.links.pend u = none := hs u
    rw [hnone] at hu
    cases hu

omit [DecidableEq κ] in
theorem settled_goto (hs : s.Settled) {pc : Pc τ κ δ} (hpend : pc.pend = none) {s₁ : State τ κ δ}
    (hpc : ∀ u, u ≠ t → s₁.pc u = s.pc u) : (s₁.goto t pc).Settled := by
  intro u
  show (Function.update s₁.pc t pc u).pend = none
  by_cases hu : u = t
  · rw [hu, Function.update_self, hpend]
  · rw [Function.update_of_ne hu, hpc u hu]
    exact hs u

/-- A node is got for the insert. -/
def State.Got (s : State τ κ δ) (t : τ) (c : Insert κ δ) : Prop :=
  s.Settled ∧ ∃ n, s.pc t = .put (.queue c.q) n .inserted ∧ s.data n = c.data

/-- The pool has to be filled up. -/
def State.Wants (s : State τ κ δ) (t : τ) (c : Insert κ δ) : Prop := s.Settled ∧ s.pc t = .refill c 0

omit [DecidableEq κ] in
theorem goto_pc (s : State τ κ δ) (t : τ) (pc : Pc τ κ δ) :
    (s.goto t pc).pc t = pc := Function.update_self ..

/-- The pool is empty, or has one node, which is not given away. -/
theorem retry_wants (hs : s.Settled) (hpc : s.pc t = .retry c false)
    (hend : s.tail (.pool t) = s.head (.pool t) ∨ s.tail (.pool t) = .stub t) :
    ∃ s', s.Leads preAlloc t 1 s' ∧ s'.Wants t c ∧ s'.inserted = s.inserted := by
  refine ⟨s.goto t (.refill c 0), leads_one (by rw [hpc]; simp) ?_,
    ⟨settled_goto hs rfl (fun _ _ => rfl), goto_pc ..⟩, rfl⟩
  rw [hpc, State.go, if_neg]
  · rfl
  · exact fun hgo => hend.elim (fun heq => hgo.1 heq.symm) hgo.2

/-- Behind the stub: a node is got, or it is the only one and the pool was not filled up before. -/
theorem removeTail_leads (h : Kept preAlloc s chain place) (hs : s.Settled) {again : Bool}
    (hlook : ∀ c again, s.pc t ≠ .look c again)
    (hgo : s.go preAlloc t true (s.pc t) = some (s.removeTail t c again))
    (hstock : (if again then 2 else 0) ≤ (chain (.pool t)).countP (· ≠ .stub t)) :
    ∃ m ≤ 3, ∃ s', s.Leads preAlloc t m s' ∧ (s'.Got t c ∨ again = false ∧ s'.Wants t c) ∧
      s'.inserted = s.inserted := by
  have hstep := leads_one hlook hgo
  cases hnext : s.next (s.tail (.pool t)) with
  | some n =>
    rw [State.removeTail, hnext] at hstep
    exact ⟨1, by decide, _, hstep,
      .inl ⟨settled_goto hs rfl (fun _ _ => rfl), _, goto_pc .., Function.update_self ..⟩, rfl⟩
  | none =>
    have hone := chain_of_next h hs hnext
    have hsame : s.tail (.pool t) = s.head (.pool t) := h.chained.tail_eq_head_iff.mpr hone
    cases again with
    | true =>
      rw [hone] at hstock
      have hle : 2 ≤ 1 := hstock.trans List.countP_le_length
      omega
    | false =>
      rw [State.removeTail, hnext] at hstep
      have hlooked : (s.goto t (.look c false)).Leads preAlloc t 1
          ((s.goto t (.look c false)).goto t (.retry c false)) := by
        refine .next ?_ ?_ (.done _)
        · rw [State.step, goto_pc, State.go]
          exact congrArg some (congrArg _ (if_pos hsame))
        · exact fun _ => .inl hsame
      have hs₁ : (s.goto t (.look c false)).Settled := settled_goto hs rfl fun _ _ => rfl
      have hs₂ : ((s.goto t (.look c false)).goto t (.retry c false)).Settled :=
        settled_goto hs₁ rfl fun _ _ => rfl
      obtain ⟨s', hleads, hwants, hinserted⟩ : ∃ s', State.Leads preAlloc t 1 _ s' ∧ _ :=
        retry_wants hs₂ (goto_pc ..) (.inl hsame)
      exact ⟨3, by decide, s', (hstep.trans hlooked).trans hleads, .inr ⟨rfl, hwants⟩, hinserted⟩

/-- `_pool_remove` from its start. -/
theorem remove_leads (h : Kept preAlloc s chain place) (hs : s.Settled) (hpre : 2 ≤ preAlloc) {again : Bool}
    (hpc : s.pc t = .remove c again) :
    ∃ m ≤ 4, ∃ s', s.Leads preAlloc t m s' ∧ (s'.Got t c ∨ again = false ∧ s'.Wants t c) ∧
      s'.inserted = s.inserted := by
  have hstock : (if again then 2 else 0) ≤ (chain (.pool t)).countP (· ≠ .stub t) := by
    refine le_trans ?_ (h.stock t)
    rw [hpc]
    show _ ≤ if again then preAlloc else 0
    split
    · exact hpre
    · exact Nat.le_refl _
  have hlook : ∀ c again, s.pc t ≠ .look c again := by
    rw [hpc]
    simp
  have hstep : s.Leads preAlloc t 1 (s.poolRemove t c again) := leads_one hlook (by rw [hpc]; rfl)
  by_cases hstub : s.tail (.pool t) = .stub t
  · cases hnext : s.next (.stub t) with
    | none =>
      have hone : chain (.pool t) = [s.tail (.pool t)] := chain_of_next h hs (hstub ▸ hnext)
      cases again with
      | true =>
        rw [hone, hstub] at hstock
        simp at hstock
      | false =>
        rw [State.poolRemove, if_pos hstub, hnext] at hstep
        have hs₁ : (s.goto t (.retry c false)).Settled := settled_goto hs rfl fun _ _ => rfl
        obtain ⟨s', hleads, hwants, hinserted⟩ : ∃ s', State.Leads preAlloc t 1 _ s' ∧ _ :=
          retry_wants hs₁ (goto_pc ..) (.inr hstub)
        exact ⟨2, by decide, s', hstep.trans hleads, .inr ⟨rfl, hwants⟩, hinserted⟩
    | some n =>
      obtain ⟨chain', place', h'⟩ := h.runs hstep
      rw [State.poolRemove, if_pos hstub, hnext] at hstep h'
      have hs₁ : ({s.advance (.pool t) n with stubIn := Function.update s.stubIn t false}.goto t
          (.second c again)).Settled :=
        settled_goto hs rfl fun _ _ => rfl
      have hstock' : (if again then 2 else 0) ≤ (chain' (.pool t)).countP (· ≠ .stub t) := by
        refine le_trans ?_ (h'.stock t)
        rw [goto_pc]
        show _ ≤ if again then preAlloc else 0
        split
        · exact hpre
        · exact Nat.le_refl _
      have hgo (s : State τ κ δ) :
          (s.goto t (.second c again)).go preAlloc t true ((s.goto t (.second c again)).pc t) =
          some ((s.goto t (.second c again)).removeTail t c again) := by
        rw [goto_pc]
        rfl
      obtain ⟨m, hm, s', hleads, hdone, hinserted⟩ : ∃ m ≤ 3, ∃ s', State.Leads preAlloc t m _ s' ∧ _ :=
        removeTail_leads h' hs₁ (by rw [goto_pc]; simp) (hgo _) hstock'
      exact ⟨1 + m, by omega, s', hstep.trans hleads, hdone, hinserted⟩
  · obtain ⟨m, hm, s', hdone⟩ :=
      removeTail_leads h hs hlook (by rw [hpc, State.go, State.poolRemove, if_neg hstub]) hstock
    exact ⟨m, by omega, s', hdone⟩

/-- The pool is filled up, three steps for each node. -/
theorem refill_leads {i j : Nat} (hs : s.Settled) (hpc : s.pc t = .refill c i) (hj : i + j = preAlloc) :
    ∃ s', s.Leads preAlloc t (3 * j + 1) s' ∧ s'.Settled ∧ s'.pc t = .remove c true ∧
      s'.inserted = s.inserted := by
  have hlook : ∀ c again, s.pc t ≠ .look c again := by
    rw [hpc]
    simp
  induction j generalizing s i with
  | zero =>
    refine ⟨s.goto t (.remove c true), leads_one hlook ?_, settled_goto hs rfl fun _ _ => rfl, goto_pc .., rfl⟩
    rw [hpc, State.go, State.refill, if_neg (by omega)]
  | succ j ih =>
    let s₁ := {s with brk := s.brk + 1, pool := Function.update s.pool (.cell s.brk) t}.goto t
      (.put (.pool t) (.cell s.brk) (.refilled c (i + 1)))
    let s₂ := s₁.exchange t (.pool t) (.cell s.brk) (.refilled c (i + 1))
    let s₃ := {s₂ with next := Function.update s₂.next (s.head (.pool t)) (some (.cell s.brk))}.goto t
      (.refill c (i + 1))
    have hpc₁ : s₁.pc t = .put (.pool t) (.cell s.brk) (.refilled c (i + 1)) := goto_pc ..
    have hpc₂ : s₂.pc t = .link (s.head (.pool t)) (.cell s.brk) (.refilled c (i + 1)) := goto_pc ..
    have hpc₃ : s₃.pc t = .refill c (i + 1) := goto_pc ..
    have h₁ : s.Leads preAlloc t 1 s₁ := by
      refine leads_one hlook ?_
      rw [hpc, State.go, State.refill, if_pos (by omega), if_pos rfl]
    have h₂ : s₁.Leads preAlloc t 1 s₂ := leads_one (by rw [hpc₁]; simp) (by rw [hpc₁]; rfl)
    have h₃ : s₂.Leads preAlloc t 1 s₃ := leads_one (by rw [hpc₂]; simp) (by rw [hpc₂]; rfl)
    have hs₃ : s₃.Settled := settled_goto hs rfl fun u hu =>
      (Function.update_of_ne hu _ _).trans (Function.update_of_ne hu _ _)
    obtain ⟨s', hleads, hs', hpc', hinserted⟩ := ih hs₃ hpc₃ (by omega) (by rw [hpc₃]; simp)
    refine ⟨s', ?_, hs', hpc', hinserted⟩
    have hall := ((h₁.trans h₂).trans h₃).trans hleads
    rwa [show 1 + 1 + 1 + (3 * j + 1) = 3 * (j + 1) + 1 by omega] at hall

/-- The node that is got is put into the queue. -/
theorem got_leads (hgot : s.Got t c) :
    ∃ s', s.Leads preAlloc t 2 s' ∧ s'.Settled ∧ s'.pc t = .idle ∧
      s'.inserted = Function.update s.inserted c.q (s.inserted c.q ++ [c.data]) := by
  obtain ⟨hs, n, hpc, hdata⟩ := hgot
  let s₁ := s.exchange t (.queue c.q) n .inserted
  let s₂ := {s₁ with next := Function.update s₁.next (s.head (.queue c.q)) (some n)}.goto t .idle
  have hpc₁ : s₁.pc t = .link (s.head (.queue c.q)) n .inserted := goto_pc ..
  have h₁ : s.Leads preAlloc t 1 s₁ := leads_one (by rw [hpc]; simp) (by rw [hpc]; rfl)
  have h₂ : s₁.Leads preAlloc t 1 s₂ := leads_one (by rw [hpc₁]; simp) (by rw [hpc₁]; rfl)
  refine ⟨s₂, h₁.trans h₂, settled_goto hs rfl fun u hu => Function.update_of_ne hu _ _, goto_pc .., ?_⟩
  show Function.update s.inserted c.q (s.inserted c.q ++ [s.data n]) = _
  rw [hdata]

/-- From an empty `fast_alloc`. -/
theorem remove_got (h : Kept preAlloc s chain place) (hs : s.Settled) (hpre : 2 ≤ preAlloc)
    (hpc : s.pc t = .remove c false) :
    ∃ m ≤ 3 * preAlloc + 9, ∃ s', s.Leads preAlloc t m s' ∧ s'.Got t c ∧ s'.inserted = s.inserted := by
  obtain ⟨m, hm, s₁, hleads₁, hdone, hinserted₁⟩ := remove_leads h hs hpre hpc
  cases hdone with
  | inl hgot => exact ⟨m, by omega, s₁, hleads₁, hgot, hinserted₁⟩
  | inr hwants =>
    obtain ⟨s₂, hleads₂, hs₂, hpc₂, hinserted₂⟩ : ∃ s', State.Leads preAlloc t (3 * preAlloc + 1) s₁ s' ∧ _ :=
      refill_leads hwants.2.1 hwants.2.2 (Nat.zero_add preAlloc)
    obtain ⟨chain₂, place₂, h₂⟩ := h.runs (hleads₁.trans hleads₂)
    obtain ⟨n, hn, s₃, hleads₃, hdone, hinserted₃⟩ := remove_leads h₂ hs₂ hpre hpc₂
    have hgot : s₃.Got t c := hdone.resolve_right fun hfalse => Bool.noConfusion hfalse.1
    exact ⟨m + (3 * preAlloc + 1) + n, by omega, s₃, (hleads₁.trans hleads₂).trans hleads₃, hgot,
      hinserted₃.trans (hinserted₂.trans hinserted₁)⟩

/-- **An insert that nobody interferes with returns**, after a number of steps that the preallocation
bounds, with its value at the end of the queue. -/
theorem insert_returns {creator : κ → τ} {home : Nat → τ} {data : Qnode τ κ → δ} {acts : List (Act τ κ δ)}
    (h : Runs (State.step preAlloc) State.Orderly (.init creator home data) acts s) (hpre : 2 ≤ preAlloc)
    (hs : s.Settled) (hidle : s.pc t = .idle) (q : κ) (d : δ) :
    ∃ m ≤ 3 * preAlloc + 11, ∃ s',
      Runs (State.step preAlloc) State.Orderly s (.insert t q d :: List.replicate m (.go t true)) s' ∧
      s'.Settled ∧ s'.pc t = .idle ∧ s'.inserted = Function.update s.inserted q (s.inserted q ++ [d]) := by
  obtain ⟨chain, place, hkept⟩ := kept_of_runs h
  obtain ⟨m, hm, s₁, hleads₁, hgot, hinserted₁⟩ : ∃ m ≤ 3 * preAlloc + 9, ∃ s', Runs (State.step preAlloc) State.Orderly s
      (.insert t q d :: List.replicate m (.go t true)) s' ∧ s'.Got t ⟨q, d⟩ ∧ s'.inserted = s.inserted := by
    cases hfast : s.fastAlloc t with
    | some n =>
      have hstep : s.step preAlloc (.insert t q d) =
          some ({s with fastAlloc := Function.update s.fastAlloc t none}.insertMp t ⟨q, d⟩ n) := by
        rw [State.step, hidle, hfast]
      have hs' : ({s with fastAlloc := Function.update s.fastAlloc t none}.insertMp t ⟨q, d⟩ n).Settled :=
        settled_goto hs rfl fun _ _ => rfl
      have hdata : ({s with fastAlloc := Function.update s.fastAlloc t none}.insertMp t ⟨q, d⟩ n).data n = d :=
        Function.update_self ..
      exact ⟨0, by omega, _, .next hstep trivial (.done _), ⟨hs', n, goto_pc .., hdata⟩, rfl⟩
    | none =>
      have hstep : s.step preAlloc (.insert t q d) = some (s.goto t (.remove ⟨q, d⟩ false)) := by
        rw [State.step, hidle, hfast]
      obtain ⟨chain', place', hkept'⟩ := hkept.step (a := .insert t q d) trivial hstep
      have hs' : (s.goto t (.remove ⟨q, d⟩ false)).Settled := settled_goto hs rfl fun _ _ => rfl
      obtain ⟨m, hm, s', hleads, hgot, hinserted⟩ := remove_got hkept' hs' hpre (goto_pc ..)
      exact ⟨m, hm, s', .next hstep trivial hleads, hgot, hinserted⟩
  obtain ⟨s', hleads, hs', hpc', hinserted⟩ : ∃ s', State.Leads preAlloc t 2 s₁ s' ∧ _ := got_leads hgot
  refine ⟨m + 2, by omega, s', ?_, hs', hpc', ?_⟩
  · rw [List.replicate_add]
    exact hleads₁.append hleads
  · rw [hinserted, hinserted₁]

theorem insert_returns_two :
    ∃ m ≤ 3 * 100 + 11, ∃ s' : State (Fin 2) (Fin 1) Nat,
      Runs (State.step 100) State.Orderly .two (.insert 0 0 41 :: List.replicate m (.go 0 true)) s' ∧
      s'.Settled ∧ s'.pc 0 = .idle ∧ s'.inserted = Function.update (fun _ => []) 0 [41] :=
  insert_returns (.done _) (by decide) (fun _ => rfl) rfl 0 41

end Susanow.Lthread
