import Susanow.Lthread.Passing

/-! What the queues and the pools are good for, and when they are not.

As long as no stub is put in that is in already, a queue gives back what was inserted, in that order
and once (`queue_fifo`), and a node is in one place only (`lies_unique`). A scheduler that finds another
one at work in its own pool may get nothing even from a pool that was just filled up, and crashes
(`crash_open`); or it puts the stub in twice, and makes a ring of it (`stub_ring`). -/
namespace Susanow.Lthread
variable {τ κ δ : Type} [DecidableEq τ] [DecidableEq κ] {preAlloc : Nat} {creator : κ → τ} {home : Nat → τ}
  {data : Qnode τ κ → δ} {acts : List (Act τ κ δ)} {s : State τ κ δ}

/-- What a run leads to. -/
theorem kept_of_runs (h : Runs (State.step preAlloc) State.Orderly (.init creator home data) acts s) :
    ∃ chain place, Kept preAlloc s chain place :=
  (Kept.init creator home data).runs h

omit [DecidableEq τ] [DecidableEq κ] in
theorem link_of_pend {u : τ} {a b : Qnode τ κ} (hu : s.links.pend u = some (a, b)) :
    ∃ k, s.pc u = .link a b k := by
  have hu' : (s.pc u).pend = some (a, b) := hu
  cases hpc : s.pc u with
  | link prev n k =>
    rw [hpc] at hu'
    cases hu'
    exact ⟨k, rfl⟩
  | _ => rw [hpc] at hu'; cases hu'

/-! ### What is inserted and polled -/

/-- **A queue gives back what was inserted**, in that order and once: what was not polled yet is in
the nodes behind the first. Nothing is got from it only if it is empty or the oldest insert is
between its exchange and its link. -/
theorem queue_fifo (h : Runs (State.step preAlloc) State.Orderly (.init creator home data) acts s) (q : κ) :
    (∃ nodes, (s.tail (.queue q) :: nodes).IsChain s.links.Joined ∧
      (s.tail (.queue q) :: nodes).getLast? = some (s.head (.queue q)) ∧
      s.inserted q = s.polled q ++ nodes.map s.data) ∧
    (s.next (s.tail (.queue q)) = none → s.inserted q = s.polled q ∨
      ∃ u n k, s.pc u = .link (s.tail (.queue q)) n k) := by
  obtain ⟨chain, place, hkept⟩ := kept_of_runs h
  obtain ⟨nodes, hchain⟩ : ∃ nodes, chain (.queue q) = s.tail (.queue q) :: nodes := hkept.chained.eq_cons _
  have hfifo := hkept.fifo q
  rw [hchain, List.tail_cons] at hfifo
  constructor
  · exact ⟨nodes, hchain ▸ hkept.chained.joined _, hchain ▸ hkept.chained.last _, hfifo⟩
  · intro hnone
    have hbroken : chain (.queue q) = [s.tail (.queue q)] ∨ _ := hkept.chained.tail_broken hnone
    cases hbroken with
    | inl hone =>
      cases hchain.symm.trans hone
      exact .inl (hfifo.trans (List.append_nil _))
    | inr hpend =>
      obtain ⟨u, b, hu⟩ := hpend
      obtain ⟨k, hpc⟩ := link_of_pend hu
      exact .inr ⟨u, b, k, hpc⟩

/-- Two schedulers, and a queue that the first of them created. -/
def State.two : State (Fin 2) (Fin 1) Nat := .init (fun _ => 0) (fun _ => 0) fun _ => 0

def steps (t : Fin 2) (m : Nat) : List (Act (Fin 2) (Fin 1) Nat) := List.replicate m (.go t true)

/-- Both have inserted, and one of the two values is polled. -/
def passed : List (Act (Fin 2) (Fin 1) Nat) :=
  .insert 1 0 41 :: steps 1 13 ++ .insert 0 0 42 :: steps 0 13 ++ .poll 0 0 :: steps 0 2

theorem queue_fifo_passed :
    ∃ s, exec (State.step 2) .two passed = some s ∧
      (∃ nodes, (s.tail (.queue 0) :: nodes).IsChain s.links.Joined ∧
        (s.tail (.queue 0) :: nodes).getLast? = some (s.head (.queue 0)) ∧
        s.inserted 0 = s.polled 0 ++ nodes.map s.data) ∧
      (s.next (s.tail (.queue 0)) = none → s.inserted 0 = s.polled 0 ∨
        ∃ u n k, s.pc u = .link (s.tail (.queue 0)) n k) := by
  obtain ⟨s, hs⟩ := Option.isSome_iff_exists.mp
    (show (exec (State.step 2) .two passed).isSome = true by decide +kernel)
  exact ⟨s, hs, queue_fifo (Runs.of_obeys (by decide +kernel) hs) 0⟩

/-! ### Where a node is -/

/-- A node is in a place: linked to from the tail of a list, in `fast_alloc`, in the hands of a scheduler. -/
def State.Lies (s : State τ κ δ) (n : Qnode τ κ) : Place τ κ → Prop
  | .list i => Relation.ReflTransGen s.links.Joined (s.tail i) n
  | .fast t => s.fastAlloc t = some n
  | .held t => (s.pc t).held = some n
  | .nowhere => False

theorem lies_of_kept {chain : Loc τ κ → List (Qnode τ κ)} {place : Qnode τ κ → Place τ κ}
    (h : Kept preAlloc s chain place)
    {n : Qnode τ κ} {P : Place τ κ} (hn : s.Lies n P) : place n = P := by
  cases P with
  | list i => exact (h.listed i n).mp (h.chained.reach_mem hn)
  | fast t => exact (h.fast t n).mp hn
  | held t => exact (h.held t n).mp hn
  | nowhere => cases hn

theorem not_lies_of_listed {chain : Loc τ κ → List (Qnode τ κ)} {place : Qnode τ κ → Place τ κ}
    (h : Kept preAlloc s chain place) {n : Qnode τ κ} {i : Loc τ κ} (hn : n ∈ chain i) (u : τ) :
    ¬s.Lies n (.held u) ∧ ¬s.Lies n (.fast u) := by
  rw [h.listed] at hn
  constructor
  · intro hu
    cases hn.symm.trans (lies_of_kept h hu)
  · intro hu
    cases hn.symm.trans (lies_of_kept h hu)

/-- **A node is in one place**: never in two lists or two schedulers' hands, or in a list and in
somebody's hands. And what a scheduler links to its node is in a list still, not freed. -/
theorem lies_unique (h : Runs (State.step preAlloc) State.Orderly (.init creator home data) acts s) :
    (∀ n P Q, s.Lies n P → s.Lies n Q → P = Q) ∧
    ∀ t prev n k, s.pc t = .link prev n k → (∀ u, ¬s.Lies prev (.held u) ∧ ¬s.Lies prev (.fast u)) ∧
      (∀ u, ¬s.Lies n (.held u) ∧ ¬s.Lies n (.fast u)) := by
  obtain ⟨chain, place, hkept⟩ := kept_of_runs h
  constructor
  · intro n P Q hP hQ
    exact (lies_of_kept hkept hP).symm.trans (lies_of_kept hkept hQ)
  · intro t prev n k hpc
    have hpend : s.links.pend t = some (prev, n) := by
      show (s.pc t).pend = _
      rw [hpc]
      rfl
    obtain ⟨i, hprev, hn⟩ := hkept.chained.pend_mem hpend
    exact ⟨not_lies_of_listed hkept hprev, not_lies_of_listed hkept hn⟩

theorem lies_unique_passed :
    ∃ s, exec (State.step 2) .two passed = some s ∧
      (∀ n P Q, s.Lies n P → s.Lies n Q → P = Q) ∧
      ∀ t prev n k, s.pc t = .link prev n k → (∀ u, ¬s.Lies prev (.held u) ∧ ¬s.Lies prev (.fast u)) ∧
        (∀ u, ¬s.Lies n (.held u) ∧ ¬s.Lies n (.fast u)) := by
  obtain ⟨s, hs⟩ := Option.isSome_iff_exists.mp
    (show (exec (State.step 2) .two passed).isSome = true by decide +kernel)
  exact ⟨s, hs, lies_unique (Runs.of_obeys (by decide +kernel) hs)⟩

/-! ### A pool that another one is at work in -/

def Act.who : Act τ κ δ → τ
  | .insert t _ _ => t
  | .poll t _ => t
  | .go t _ => t

/-- The others leave a scheduler where it is, and the tail of its pool. -/
theorem step_frame {a : Act τ κ δ} {s' : State τ κ δ} (hstep : s.step preAlloc a = some s') {t : τ}
    (ht : t ≠ a.who) :
    s'.pc t = s.pc t ∧ s'.tail (.pool t) = s.tail (.pool t) := by
  have hpc (s : State τ κ δ) {u : τ} (hu : t ≠ u) (pc : Pc τ κ δ) : (s.goto u pc).pc t = s.pc t :=
    Function.update_of_ne hu _ _
  have hother {i : Loc τ κ} (hi : .pool t ≠ i) (n : Qnode τ κ) :
      Function.update s.tail i n (.pool t) = s.tail (.pool t) := Function.update_of_ne hi _ _
  have htail {u : τ} (hu : t ≠ u) (n : Qnode τ κ) :
      Function.update s.tail (.pool u) n (.pool t) = s.tail (.pool t) := hother (by simpa using hu) n
  have hremove {u : τ} (hu : t ≠ u) (c : Insert κ δ) (again : Bool) :
      (s.removeTail u c again).pc t = s.pc t ∧
        (s.removeTail u c again).tail (.pool t) = s.tail (.pool t) := by
    unfold State.removeTail
    split
    · exact ⟨hpc _ hu _, htail hu _⟩
    · exact ⟨hpc _ hu _, rfl⟩
  cases a with
  | insert u q d =>
    rw [State.step] at hstep
    split at hstep
    · split at hstep
      · cases hstep
        exact ⟨hpc _ ht _, rfl⟩
      · cases hstep
        exact ⟨hpc _ ht _, rfl⟩
    · cases hstep
  | poll u q =>
    rw [State.step] at hstep
    split at hstep
    · split at hstep
      · cases hstep
        exact ⟨hpc _ ht _, rfl⟩
      · cases hstep
        exact ⟨rfl, rfl⟩
    · cases hstep
  | go u mem =>
    rw [State.step] at hstep
    cases hu : s.pc u with
    | idle => rw [hu] at hstep; cases hstep
    | crashed => rw [hu] at hstep; cases hstep
    | remove c again =>
      rw [hu] at hstep
      cases hstep
      unfold State.poolRemove
      split
      · split
        · exact ⟨hpc _ ht _, rfl⟩
        · exact ⟨hpc _ ht _, htail ht _⟩
      · exact hremove ht c again
    | second c again =>
      rw [hu] at hstep
      cases hstep
      exact hremove ht c again
    | after c again =>
      rw [hu, State.go] at hstep
      split at hstep
      · cases hstep
        exact ⟨hpc _ ht _, htail ht _⟩
      · cases hstep
        exact ⟨hpc _ ht _, rfl⟩
    | retry c again =>
      rw [hu, State.go] at hstep
      split at hstep
      · cases hstep
        exact ⟨hpc _ ht _, rfl⟩
      · cases hstep
        exact ⟨hpc _ ht _, rfl⟩
    | refill c i =>
      rw [hu] at hstep
      cases hstep
      unfold State.refill
      split
      · split
        · exact ⟨hpc _ ht _, rfl⟩
        · exact ⟨hpc _ ht _, rfl⟩
      · exact ⟨hpc _ ht _, rfl⟩
    | take q tail next =>
      rw [hu] at hstep
      cases hstep
      exact ⟨hpc _ ht _, hother (show Loc.pool t ≠ .queue q by simp) next⟩
    | free n =>
      rw [hu] at hstep
      cases hstep
      unfold State.qnodeFree
      split
      · exact ⟨hpc _ ht _, rfl⟩
      · exact ⟨hpc _ ht _, rfl⟩
    | look c again | put i n k | link prev n k =>
      rw [hu] at hstep
      cases hstep
      exact ⟨hpc _ ht _, rfl⟩

/-- The pool was filled up, and nothing came of it. -/
def State.Empty (s : State τ κ δ) (t : τ) : Prop :=
  s.pc t = .crashed ∨ ∃ c, s.pc t = .retry c true ∧ s.tail (.pool t) = .stub t

omit [DecidableEq κ] in
theorem not_empty_goto {s : State τ κ δ} {t : τ} {pc : Pc τ κ δ} (hcrash : pc ≠ .crashed)
    (hretry : ∀ c, pc ≠ .retry c true) :
    ¬(s.goto t pc).Empty t := by
  have hpc : (s.goto t pc).pc t = pc := Function.update_self ..
  intro hempty
  rw [State.Empty, hpc] at hempty
  exact hempty.elim hcrash fun ⟨c, hc, _⟩ => hretry c hc

/-- It was in `_pool_remove` at the stub, and that was linked to nothing. -/
theorem empty_step {chain : Loc τ κ → List (Qnode τ κ)} {place : Qnode τ κ → Place τ κ}
    (h : Kept preAlloc s chain place)
    (hpre : 2 ≤ preAlloc) {a : Act τ κ δ} {s' : State τ κ δ} (hstep : s.step preAlloc a = some s') {t : τ}
    (hnot : ¬s.Empty t) (hempty : s'.Empty t) :
    ∃ c, s.pc t = .remove c true ∧ s.tail (.pool t) = .stub t ∧ s.next (.stub t) = none := by
  have hremove (hne : s.tail (.pool t) ≠ .stub t) (c : Insert κ δ) (again : Bool) :
      ¬(s.removeTail t c again).Empty t := by
    unfold State.removeTail
    split
    · exact not_empty_goto (by simp) (by simp)
    · exact not_empty_goto (by simp) (by simp)
  have hkeep (hne : s.tail (.pool t) ≠ .stub t) (pc : Pc τ κ δ) (hpc : pc ≠ .crashed) :
      ¬(s.goto t pc).Empty t := by
    have hself : (s.goto t pc).pc t = pc := Function.update_self ..
    intro hempty
    rw [State.Empty, hself] at hempty
    exact hempty.elim hpc fun ⟨_, _, htail⟩ => hne htail
  by_cases hwho : t = a.who
  swap
  · obtain ⟨hpc, htail⟩ := step_frame hstep hwho
    rw [State.Empty, hpc, htail] at hempty
    exact absurd hempty hnot
  have hsound := h.sound t
  have hstock := h.stock t
  cases a with
  | insert u q d =>
    obtain rfl : u = t := hwho.symm
    rw [State.step] at hstep
    split at hstep
    · split at hstep
      · cases hstep
        exact absurd hempty (not_empty_goto (by simp) (by simp))
      · cases hstep
        exact absurd hempty (not_empty_goto (by simp) (by simp))
    · cases hstep
  | poll u q =>
    obtain rfl : u = t := hwho.symm
    rw [State.step] at hstep
    split at hstep
    · split at hstep
      · cases hstep
        exact absurd hempty (not_empty_goto (by simp) (by simp))
      · cases hstep
        exact absurd hempty hnot
    · cases hstep
  | go u mem =>
    obtain rfl : u = t := hwho.symm
    rw [State.step] at hstep
    cases hpc : s.pc u with
    | idle => rw [hpc] at hstep; cases hstep
    | crashed => rw [hpc] at hstep; cases hstep
    | remove c again =>
      rw [hpc] at hstep
      cases hstep
      rw [State.poolRemove] at hempty
      split at hempty
      · rename_i htail
        split at hempty
        · rename_i hnone
          cases again with
          | true => exact ⟨c, rfl, htail, hnone⟩
          | false => exact absurd hempty (not_empty_goto (by simp) (by simp))
        · exact absurd hempty (not_empty_goto (by simp) (by simp))
      · rename_i hne
        exact absurd hempty (hremove hne c again)
    | second c again =>
      rw [hpc] at hstep hsound
      cases hstep
      exact absurd hempty (hremove hsound c again)
    | look c again =>
      rw [hpc] at hstep hsound
      cases hstep
      refine absurd hempty (hkeep hsound _ ?_)
      split <;> simp
    | after c again =>
      rw [hpc] at hsound
      rw [hpc, State.go] at hstep
      split at hstep
      · cases hstep
        exact absurd hempty (not_empty_goto (by simp) (by simp))
      · cases hstep
        exact absurd hempty (hkeep hsound _ (by simp))
    | retry c again =>
      rw [hpc, State.go] at hstep
      split at hstep
      · cases hstep
        exact absurd hempty (not_empty_goto (by simp) (by simp))
      · rename_i hend
        cases hstep
        cases again with
        | false => exact absurd hempty (not_empty_goto (by simp) (by simp))
        | true =>
          -- what was put into the pool is there still, so that the head is not the tail
          by_cases htail : s.tail (.pool u) = .stub u
          · exact absurd (.inr ⟨c, hpc, htail⟩) hnot
          · have hsame : s.tail (.pool u) = s.head (.pool u) := by
              by_contra hne
              exact hend ⟨fun heq => hne heq.symm, htail⟩
            have hone : chain (.pool u) = [s.tail (.pool u)] := h.chained.tail_eq_head_iff.mp hsame
            rw [hpc, hone] at hstock
            have hle : preAlloc ≤ 1 := hstock.trans (List.countP_le_length)
            omega
    | refill c i =>
      rw [hpc] at hstep
      cases hstep
      rw [State.refill] at hempty
      split at hempty
      · split at hempty
        · exact absurd hempty (not_empty_goto (by simp) (by simp))
        · exact absurd hempty (not_empty_goto (by simp) (by simp))
      · exact absurd hempty (not_empty_goto (by simp) (by simp))
    | take q tail next =>
      rw [hpc] at hstep
      cases hstep
      exact absurd hempty (not_empty_goto (by simp) (by simp))
    | free n =>
      rw [hpc] at hstep
      cases hstep
      rw [State.qnodeFree] at hempty
      split at hempty
      · exact absurd hempty (not_empty_goto (by simp) (by simp))
      · exact absurd hempty (not_empty_goto (by simp) (by simp))
    | put i n k =>
      rw [hpc] at hstep
      cases hstep
      exact absurd hempty (not_empty_goto (by simp) (by simp))
    | link prev n k =>
      rw [hpc] at hstep
      cases hstep
      refine absurd hempty (not_empty_goto ?_ ?_)
      · cases k <;> simp [State.resume]
      · cases k <;> simp [State.resume]

/-- **A scheduler crashes** in `_qnode_alloc` only if another one was between its exchange and its link
at the stub of this pool, just when the pool had been filled up and was looked at again. -/
theorem crash_open (hpre : 2 ≤ preAlloc)
    (h : Runs (State.step preAlloc) State.Orderly (.init creator home data) acts s)
    {t : τ} (hcrash : s.pc t = .crashed) :
    ∃ as bs s₁ c u n k, acts = as ++ bs ∧ Runs (State.step preAlloc) State.Orderly (.init creator home data) as s₁ ∧
      s₁.pc t = .remove c true ∧ s₁.tail (.pool t) = .stub t ∧ u ≠ t ∧ s₁.pc u = .link (.stub t) n k := by
  have hinit : ¬(State.init creator home data).Empty t := by
    intro hempty
    cases hempty with
    | inl hpc => cases hpc
    | inr hpc =>
      obtain ⟨c, hpc, -⟩ := hpc
      cases hpc
  obtain ⟨as, a, bs, s₁, s₂, rfl, hrun, -, hstep, hnot, hempty⟩ :=
    h.enters (P := fun s => s.Empty t) hinit (.inl hcrash)
  obtain ⟨chain, place, hkept⟩ := kept_of_runs hrun
  obtain ⟨c, hpc, htail, hnone⟩ := empty_step hkept hpre hstep hnot hempty
  have htailnone : s₁.next (s₁.tail (.pool t)) = none := htail ▸ hnone
  have hbroken : chain (.pool t) = [s₁.tail (.pool t)] ∨ _ := hkept.chained.tail_broken htailnone
  cases hbroken with
  | inl hone =>
    have hstock := hkept.stock t
    rw [hpc, hone, htail] at hstock
    have hle : preAlloc ≤ 0 := by simpa [Pc.stock] using hstock
    omega
  | inr hpend =>
    obtain ⟨u, n, hu⟩ := hpend
    obtain ⟨k, hlink⟩ := link_of_pend hu
    have hlink' : s₁.pc u = .link (.stub t) n k := htail ▸ hlink
    refine ⟨as, a :: bs, s₁, c, u, n, k, rfl, hrun, hpc, htail, ?_, hlink'⟩
    intro hut
    rw [hut, hpc] at hlink'
    cases hlink'

/-- The second one frees the node that the queue was created with, and does not get to its link. -/
def crashing : List (Act (Fin 2) (Fin 1) Nat) :=
  .insert 1 0 41 :: steps 1 13 ++ .poll 1 0 :: steps 1 3 ++ .insert 0 0 42 :: steps 0 11

theorem crash_open_crashing :
    ∃ as bs s₁ c u n k, crashing = as ++ bs ∧ Runs (State.step 2) State.Orderly .two as s₁ ∧
      s₁.pc 0 = .remove c true ∧ s₁.tail (.pool 0) = .stub 0 ∧ u ≠ 0 ∧ s₁.pc u = .link (.stub 0) n k := by
  have hpc : (exec (State.step 2) .two crashing).map (fun s => s.pc 0) = some .crashed := by decide +kernel
  obtain ⟨s, hs, hcrash⟩ := Option.map_eq_some_iff.mp hpc
  exact crash_open (by decide) (Runs.of_obeys (by decide +kernel) hs) hcrash

/-! ### The stub put in twice -/

/-- From a tail that is linked to nothing, and is not the head, the stub is put in. -/
theorem swing_steps {t : τ} {c : Insert κ δ} {again : Bool} (hpc : s.pc t = .remove c again)
    (hne : s.tail (.pool t) ≠ .stub t) (hnext : s.next (s.tail (.pool t)) = none)
    (hhead : s.tail (.pool t) ≠ s.head (.pool t))
    (mem : Bool) :
    ∃ s', exec (State.step preAlloc) s (List.replicate 4 (.go t mem)) = some s' ∧ s'.pc t = .after c again ∧
      s'.tail (.pool t) = s.tail (.pool t) ∧ s'.head (.pool t) = .stub t ∧ s'.next (s.tail (.pool t)) = none ∧
      (s.head (.pool t) = .stub t → s'.next (.stub t) = some (.stub t)) := by
  have hself (s : State τ κ δ) (pc : Pc τ κ δ) : (s.goto t pc).pc t = pc := Function.update_self ..
  let s₁ := s.goto t (.look c again)
  let s₂ := s₁.goto t (.put (.pool t) (.stub t) (.swung c again))
  let s₃ := s₂.exchange t (.pool t) (.stub t) (.swung c again)
  let s₄ := {s₃ with next := Function.update s₃.next (s.head (.pool t)) (some (.stub t))}.goto t (.after c again)
  have h₁ : s.step preAlloc (.go t mem) = some s₁ := by
    rw [State.step, hpc, State.go, State.poolRemove, if_neg hne, State.removeTail, hnext]
  have h₂ : s₁.step preAlloc (.go t mem) = some s₂ := by
    rw [State.step, hself, State.go]
    show some (State.goto _ t (if s.tail (.pool t) = s.head (.pool t) then _ else _)) = _
    rw [if_neg hhead]
  have h₃ : s₂.step preAlloc (.go t mem) = some s₃ := by
    rw [State.step, hself]
    rfl
  have h₄ : s₃.step preAlloc (.go t mem) = some s₄ := by
    have hpc₃ : s₃.pc t = .link (s.head (.pool t)) (.stub t) (.swung c again) := hself _ _
    rw [State.step, hpc₃]
    rfl
  refine ⟨s₄, ?_, hself _ _, rfl, Function.update_self .., ?_, fun hstub => ?_⟩
  · simp only [List.replicate, exec, h₁, h₂, h₃, h₄, Option.bind_some]
  · show Function.update (Function.update s.next (.stub t) none) (s.head (.pool t)) _ (s.tail (.pool t)) = none
    rw [Function.update_of_ne hhead, Function.update_of_ne hne, hnext]
  · show Function.update (Function.update s.next (.stub t) none) (s.head (.pool t)) _ (.stub t) = _
    rw [hstub, Function.update_self]

/-- And if it still is, the stub is put in again. -/
theorem again_steps {t : τ} {c : Insert κ δ} {again : Bool} (hpc : s.pc t = .after c again)
    (hne : s.tail (.pool t) ≠ .stub t) (hnext : s.next (s.tail (.pool t)) = none)
    (hhead : s.tail (.pool t) ≠ s.head (.pool t))
    (mem : Bool) :
    exec (State.step preAlloc) s (List.replicate 2 (.go t mem)) =
      some ((s.goto t (.retry c again)).goto t (.remove c again)) := by
  have h₁ : s.step preAlloc (.go t mem) = some (s.goto t (.retry c again)) := by
    rw [State.step, hpc, State.go, hnext]
  have h₂ : (s.goto t (.retry c again)).step preAlloc (.go t mem) =
      some ((s.goto t (.retry c again)).goto t (.remove c again)) := by
    have hself : (s.goto t (.retry c again)).pc t = .retry c again := Function.update_self ..
    rw [State.step, hself, State.go]
    exact if_pos ⟨hhead.symm, hne⟩
  simp only [List.replicate, exec, h₁, h₂, Option.bind_some]

/-- **The stub is linked to itself** when a scheduler finds another one between its exchange and its
link at the tail of its pool, and takes ten more steps before that is done. -/
theorem stub_ring (h : Runs (State.step preAlloc) State.Orderly (.init creator home data) acts s) {t u : τ}
    {c : Insert κ δ} {again : Bool} {n : Qnode τ κ} {k : Then κ δ} (hpc : s.pc t = .remove c again)
    (hopen : s.pc u = .link (s.tail (.pool t)) n k) (hne : s.tail (.pool t) ≠ .stub t) (mem : Bool) :
    ∃ s', exec (State.step preAlloc) s (List.replicate 10 (.go t mem)) = some s' ∧ s'.next (.stub t) = some (.stub t) ∧
      s'.head (.pool t) = .stub t ∧ ¬∃ chain, s'.links.Chained chain := by
  obtain ⟨chain, place, hkept⟩ := kept_of_runs h
  have hpend : s.links.pend u = some (s.tail (.pool t), n) := by
    show (s.pc u).pend = _
    rw [hopen]
    rfl
  have hnext : s.next (s.tail (.pool t)) = none := (hkept.chained.broken u _ n hpend).1
  have hhead : s.tail (.pool t) ≠ s.head (.pool t) := by
    intro heq
    rw [heq] at hpend
    exact (hkept.chained.ends (.pool t)).2 u n hpend
  obtain ⟨s₁, hrun₁, hpc₁, htail₁, hhead₁, hnext₁, -⟩ : ∃ s', exec (State.step preAlloc) s _ = some s' ∧ _ :=
    swing_steps hpc hne hnext hhead mem
  have hne₁ : s₁.tail (.pool t) ≠ .stub t := htail₁ ▸ hne
  have hrun₂ : exec (State.step preAlloc) s₁ _ = some _ :=
    again_steps hpc₁ hne₁ (htail₁ ▸ hnext₁) (hhead₁ ▸ hne₁) mem
  obtain ⟨s₂, hrun₃, -, -, hhead₂, -, hring⟩ : ∃ s', exec (State.step preAlloc) _ _ = some s' ∧ _ :=
    swing_steps (s := (s₁.goto t (.retry c again)).goto t (.remove c again)) (Function.update_self ..) hne₁
      (htail₁ ▸ hnext₁)
      (hhead₁ ▸ hne₁) mem
  refine ⟨s₂, ?_, hring hhead₁, hhead₂, fun ⟨chain', hchained⟩ => ?_⟩
  · show exec (State.step preAlloc) s (List.replicate 4 (Act.go t mem) ++
      (List.replicate 2 (Act.go t mem) ++ List.replicate 4 (Act.go t mem))) = _
    rw [exec_append, hrun₁, Option.bind_some, exec_append, hrun₂, Option.bind_some, hrun₃]
  · have hend : s₂.next (s₂.head (.pool t)) = none := (hchained.ends (.pool t)).1
    rw [hhead₂, hring hhead₁] at hend
    cases hend

/-- The first one has a node left in its pool when the second frees another one to it. -/
def ringing : List (Act (Fin 2) (Fin 1) Nat) :=
  .insert 0 0 41 :: steps 0 13 ++ .poll 1 0 :: steps 1 3 ++ [.insert 0 0 42]

theorem stub_ring_ringing :
    ∃ s s', exec (State.step 2) .two ringing = some s ∧ exec (State.step 2) s (steps 0 10) = some s' ∧
      s'.next (.stub 0) = some (.stub 0) ∧ s'.head (.pool 0) = .stub 0 ∧ ¬∃ chain, s'.links.Chained chain := by
  have hat : (exec (State.step 2) .two ringing).map (fun s => (s.pc 0, s.pc 1, s.tail (.pool 0))) =
      some (.remove ⟨0, 42⟩ false, .link (.cell 1) (.first 0) .freed, .cell 1) := by decide +kernel
  obtain ⟨s, hs, hpc⟩ := Option.map_eq_some_iff.mp hat
  obtain ⟨hremove, hlink, htail⟩ : s.pc 0 = _ ∧ s.pc 1 = _ ∧ s.tail (.pool 0) = .cell 1 := by
    simpa only [Prod.mk.injEq] using hpc
  obtain ⟨s', hs'⟩ :=
    stub_ring (Runs.of_obeys (by decide +kernel) hs) hremove (htail ▸ hlink) (by rw [htail]; decide) true
  exact ⟨s, s', hs, hs'⟩

end Susanow.Lthread
