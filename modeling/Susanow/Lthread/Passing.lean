import Susanow.Lthread.Qnodes

/-! What every interleaving of the schedulers keeps.

Each node has one place: a list, the `fast_alloc` of a scheduler or the hands of one. `Kept` says so,
and that the lists are linked but for the links that are still to be made, that what a queue holds
is what was inserted and not polled, and what each scheduler may rely on where it is. A step that is
orderly keeps it (`Kept.step`). -/
namespace Susanow.Lthread
variable {τ κ δ : Type}

inductive Place (τ κ : Type)
  | list (i : Loc τ κ)
  | fast (t : τ)
  | held (t : τ)
  | nowhere

/-- Where the nodes are that there are at first. -/
def Place.init : Qnode τ κ → Place τ κ
  | .stub t => list (.pool t)
  | .first q => list (.queue q)
  | .cell _ => nowhere

namespace Pc

/-- It is about to put the stub in. -/
def swings : Pc τ κ δ → Bool
  | put _ _ (.swung _ _) => true
  | _ => false

theorem swings_of_held {pc : Pc τ κ δ} (hheld : pc.held = none) : pc.swings = false := by
  cases pc with
  | put i n k => cases hheld
  | _ => rfl

/-- How many nodes the pool has left because of what this scheduler put there. -/
def stock (preAlloc : Nat) : Pc τ κ δ → Nat
  | remove _ again => if again then preAlloc else 0
  | second _ again => if again then preAlloc else 0
  | look _ again => if again then preAlloc else 0
  | after _ again => if again then preAlloc else 0
  | retry _ again => if again then preAlloc else 0
  | refill _ i => i
  | put _ _ (.swung _ again) => if again then preAlloc else 0
  | put _ _ (.refilled _ i) => i - 1
  | link _ _ (.swung _ again) => if again then preAlloc else 0
  | link _ _ (.refilled _ i) => i
  | _ => 0

/-- What scheduler `t` relies on. -/
def Sound (s : State τ κ δ) (t : τ) : Pc τ κ δ → Prop
  | second _ _ => s.tail (.pool t) ≠ .stub t
  | look _ _ => s.tail (.pool t) ≠ .stub t
  | after _ _ => s.tail (.pool t) ≠ .stub t
  | link _ _ (.swung _ _) => s.tail (.pool t) ≠ .stub t
  | put i n (.swung _ _) => i = .pool t ∧ n = .stub t ∧ s.tail (.pool t) ≠ .stub t
  | put i n (.refilled _ _) => i = .pool t ∧ s.pool n = t
  | put i n .freed => i = .pool (s.pool n)
  | put i _ .inserted => ∃ q, i = .queue q
  | take q tail next => tail = s.tail (.queue q) ∧ s.next tail = some next
  | _ => True

theorem Sound.mono {s s' : State τ κ δ} {t : τ} {pc : Pc τ κ δ} (h : pc.Sound s t)
    (htail : s'.tail (.pool t) = s.tail (.pool t)) (hpool : ∀ n, pc.held = some n → s'.pool n = s.pool n)
    (htake : ∀ q a m, pc = .take q a m → s'.tail (.queue q) = s.tail (.queue q) ∧ s'.next a = s.next a) :
    pc.Sound s' t := by
  cases pc with
  | put i n k =>
    have hn := hpool n rfl
    cases k with
    | swung c again => rwa [Sound, htail]
    | refilled c j => rwa [Sound, hn]
    | freed => rwa [Sound, hn]
    | inserted => exact h
  | link prev n k =>
    cases k with
    | swung c again => rwa [Sound, htail]
    | _ => trivial
  | take q a m =>
    obtain ⟨htail, hnext⟩ := htake q a m rfl
    rwa [Sound, htail, hnext]
  | second c again => rwa [Sound, htail]
  | look c again => rwa [Sound, htail]
  | after c again => rwa [Sound, htail]
  | _ => trivial

end Pc

structure Kept [DecidableEq τ] [DecidableEq κ] (preAlloc : Nat) (s : State τ κ δ)
    (chain : Loc τ κ → List (Qnode τ κ))
    (place : Qnode τ κ → Place τ κ) : Prop where
  chained : s.links.Chained chain
  listed : ∀ i n, n ∈ chain i ↔ place n = .list i
  fast : ∀ t n, s.fastAlloc t = some n ↔ place n = .fast t
  held : ∀ t n, (s.pc t).held = some n ↔ place n = .held t
  fresh : ∀ k, s.brk ≤ k → place (.cell k) = .nowhere
  stubs : ∀ t, (place (.stub t) = .list (.pool t) ∧ s.stubIn t = true) ∨
    (place (.stub t) = .nowhere ∧ s.stubIn t = false) ∨
    (place (.stub t) = .held t ∧ s.stubIn t = false ∧ (s.pc t).swings = true)
  root : ∀ t, s.pool (.stub t) = t
  home : ∀ t n, place n = .list (.pool t) ∨ place n = .fast t → s.pool n = t
  sound : ∀ t, (s.pc t).Sound s t
  alone : ∀ t u q, (s.pc t).polls q = true → (s.pc u).polls q = true → t = u
  fifo : ∀ q, s.inserted q = s.polled q ++ (chain (.queue q)).tail.map s.data
  stock : ∀ t, (s.pc t).stock preAlloc ≤ (chain (.pool t)).countP (· ≠ .stub t)

namespace Kept
variable [DecidableEq τ] [DecidableEq κ] {preAlloc : Nat} {s : State τ κ δ}
  {chain : Loc τ κ → List (Qnode τ κ)}
  {place : Qnode τ κ → Place τ κ} {t u : τ} {n : Qnode τ κ}

/-- A stub is nowhere but in its own pool, or in its scheduler's hands on the way there. -/
theorem stub_place (h : Kept preAlloc s chain place) (u : τ) :
    place (.stub u) = .list (.pool u) ∨ place (.stub u) = .nowhere ∨
      (place (.stub u) = .held u ∧ (s.pc u).swings = true) := by
  cases h.stubs u with
  | inl hin => exact .inl hin.1
  | inr hout => exact .inr (hout.imp And.left fun hheld => ⟨hheld.1, hheld.2.2⟩)

theorem stub_eq (h : Kept preAlloc s chain place) {i : Loc τ κ} (hn : place (.stub u) = .list i) :
    i = .pool u := by
  have hplace := h.stub_place u
  rw [hn] at hplace
  simpa using hplace

theorem held_ne_stub (h : Kept preAlloc s chain place) (hheld : (s.pc t).held = some n)
    (hswings : (s.pc t).swings = false) : n ≠ .stub u := by
  intro hn
  have hplace := h.stub_place u
  rw [← hn, (h.held t n).mp hheld] at hplace
  obtain ⟨rfl, hswings'⟩ : t = u ∧ (s.pc u).swings = true := by simpa using hplace
  rw [hswings] at hswings'
  cases hswings'

theorem fast_ne_stub (h : Kept preAlloc s chain place) (hfast : place n = .fast t) : n ≠ .stub u := by
  intro hn
  have hplace := h.stub_place u
  rw [← hn, hfast] at hplace
  simp at hplace

theorem tail_place (h : Kept preAlloc s chain place) (i : Loc τ κ) : place (s.tail i) = .list i :=
  (h.listed i _).mp (h.chained.tail_mem i)

theorem queue_ne_stub (h : Kept preAlloc s chain place) {q : κ} (hn : place n = .list (.queue q)) :
    n ≠ .stub u := by
  intro hu
  subst hu
  cases h.stub_eq hn

/-- The nodes of the pool that can be handed out. -/
theorem pool_ne_stub (h : Kept preAlloc s chain place) (hn : place n = .list (.pool t))
    (hne : n ≠ .stub t) :
    n ≠ .stub u := by
  intro hu
  subst hu
  cases h.stub_eq hn
  exact hne rfl

/-! ### The scheduler that takes a step -/

section
omit [DecidableEq κ]

/-- What the step leaves of its scheduler as it was is as it was of all. -/
theorem pc_update {γ : Type} (f : Pc τ κ δ → γ) {pc : Pc τ κ δ} (hf : f pc = f (s.pc t)) (u : τ) :
    f (Function.update s.pc t pc u) = f (s.pc u) := by
  by_cases hu : u = t
  · rw [hu, Function.update_self, hf]
  · rw [Function.update_of_ne hu]

theorem pend_update {pc : Pc τ κ δ} (hpend : pc.pend = (s.pc t).pend) :
    (fun u => (Function.update s.pc t pc u).pend) = fun u => (s.pc u).pend := by
  funext u
  exact pc_update Pc.pend hpend u

theorem held_update {pc : Pc τ κ δ} (hold : ∀ m, (s.pc t).held = some m → m = n)
    (hnew : ∀ m, pc.held = some m → m = n) {m : Qnode τ κ} (hm : m ≠ n) (u : τ) :
    (Function.update s.pc t pc u).held = some m ↔ (s.pc u).held = some m := by
  by_cases hu : u = t
  · subst hu
    rw [Function.update_self]
    exact ⟨fun h => absurd (hnew m h) hm, fun h => absurd (hold m h) hm⟩
  · rw [Function.update_of_ne hu]

end

theorem alone_update (h : Kept preAlloc s chain place) {pc : Pc τ κ δ}
    (hpc : ∀ u q, pc.polls q = true → (s.pc u).polls q = true → u = t) (u v : τ) (q : κ)
    (hu : (Function.update s.pc t pc u).polls q = true)
    (hv : (Function.update s.pc t pc v).polls q = true) : u = v := by
  by_cases hut : u = t
  · by_cases hvt : v = t
    · exact hut.trans hvt.symm
    · rw [hut, Function.update_self] at hu
      rw [Function.update_of_ne hvt] at hv
      exact absurd (hpc v q hu hv) hvt
  · rw [Function.update_of_ne hut] at hu
    by_cases hvt : v = t
    · rw [hvt, Function.update_self] at hv
      exact absurd (hpc u q hv hu) hut
    · rw [Function.update_of_ne hvt] at hv
      exact h.alone u v q hu hv

theorem stock_update (h : Kept preAlloc s chain place) {pc : Pc τ κ δ}
    (hstock : pc.stock preAlloc ≤ (chain (.pool t)).countP (· ≠ .stub t)) (u : τ) :
    (Function.update s.pc t pc u).stock preAlloc ≤ (chain (.pool u)).countP (· ≠ .stub u) := by
  by_cases hu : u = t
  · rwa [hu, Function.update_self]
  · rw [Function.update_of_ne hu]
    exact h.stock u

/-- A scheduler that is not about to put its stub in does not have it. -/
theorem stubs_update (h : Kept preAlloc s chain place) (hswings : (s.pc t).swings = false) (pc : Pc τ κ δ)
    (u : τ) :
    (place (.stub u) = .list (.pool u) ∧ s.stubIn u = true) ∨
    (place (.stub u) = .nowhere ∧ s.stubIn u = false) ∨
    (place (.stub u) = .held u ∧ s.stubIn u = false ∧ (Function.update s.pc t pc u).swings = true) := by
  cases h.stubs u with
  | inl hin => exact .inl hin
  | inr hout =>
    refine .inr (hout.imp_right fun ⟨hplace, hin, hsw⟩ => ⟨hplace, hin, ?_⟩)
    have hu : u ≠ t := by
      intro hu
      rw [hu, hswings] at hsw
      cases hsw
    rwa [Function.update_of_ne hu]

/-- A step on the scheduler's own account: it has the same node in its hands, and the same link to make. -/
theorem goto (h : Kept preAlloc s chain place) {pc : Pc τ κ δ} (hheld : pc.held = (s.pc t).held)
    (hpend : pc.pend = (s.pc t).pend) (hswings : (s.pc t).swings = false) (hsound : pc.Sound s t)
    (hpolls : ∀ u q, pc.polls q = true → (s.pc u).polls q = true → u = t)
    (hstock : pc.stock preAlloc ≤ (chain (.pool t)).countP (· ≠ .stub t)) :
    Kept preAlloc (s.goto t pc) chain place := by
  have hlinks : (s.goto t pc).links = s.links := congrArg (Links.mk s.next s.head s.tail) (pend_update hpend)
  constructor
  case chained => rw [hlinks]; exact h.chained
  case listed => exact h.listed
  case fast => exact h.fast
  case held =>
    intro u n
    show (Function.update s.pc t pc u).held = some n ↔ _
    rw [pc_update Pc.held hheld, h.held]
  case fresh => exact h.fresh
  case stubs => exact h.stubs_update hswings pc
  case root => exact h.root
  case home => exact h.home
  case sound =>
    refine (Function.forall_update_iff s.pc fun u pc => pc.Sound (s.goto t pc) u).mpr ⟨?_, fun u _ => ?_⟩
    · exact hsound.mono rfl (fun _ _ => rfl) fun _ _ _ _ => ⟨rfl, rfl⟩
    · exact (h.sound u).mono rfl (fun _ _ => rfl) fun _ _ _ _ => ⟨rfl, rfl⟩
  case alone => exact h.alone_update hpolls
  case fifo => exact h.fifo
  case stock => exact h.stock_update hstock

/-! ### A node that changes its place -/

theorem stubs_move (h : Kept preAlloc s chain place) (hn : ∀ u, n ≠ .stub u) (P : Place τ κ)
    (hswings : (s.pc t).swings = false) (pc : Pc τ κ δ) (u : τ) :
    (Function.update place n P (.stub u) = .list (.pool u) ∧ s.stubIn u = true) ∨
    (Function.update place n P (.stub u) = .nowhere ∧ s.stubIn u = false) ∨
    (Function.update place n P (.stub u) = .held u ∧ s.stubIn u = false ∧
      (Function.update s.pc t pc u).swings = true) := by
  rw [Function.update_of_ne (hn u).symm]
  exact h.stubs_update hswings pc u

/-- Every other node is held as before. -/
theorem held_move (h : Kept preAlloc s chain place) {P : Place τ κ} {pc : Pc τ κ δ}
    (hold : ∀ m, (s.pc t).held = some m → m = n) (hnew : ∀ m, pc.held = some m → m = n)
    (hself : ∀ u, (Function.update s.pc t pc u).held = some n ↔ P = .held u) (u : τ) (m : Qnode τ κ) :
    (Function.update s.pc t pc u).held = some m ↔ Function.update place n P m = .held u := by
  by_cases hm : m = n
  · rw [hm, Function.update_self, hself]
  · rw [Function.update_of_ne hm, held_update hold hnew hm, h.held]

/-- The node comes into the hands of the scheduler that takes the step. -/
theorem held_gain (h : Kept preAlloc s chain place) {pc : Pc τ κ δ} (hn : ∀ u, place n ≠ .held u)
    (hold : (s.pc t).held = none) (hnew : pc.held = some n) (u : τ) (m : Qnode τ κ) :
    (Function.update s.pc t pc u).held = some m ↔ Function.update place n (.held t) m = .held u := by
  refine h.held_move (fun m hm => ?_) (fun m hm => ?_) (fun u => ?_) u m
  · rw [hold] at hm
    cases hm
  · exact Option.some.inj (hm.symm.trans hnew)
  · by_cases hu : u = t
    · rw [hu, Function.update_self]
      exact ⟨fun _ => rfl, fun _ => hnew⟩
    · rw [Function.update_of_ne hu, h.held]
      exact ⟨fun hplace => absurd hplace (hn u), fun ht => absurd (Place.held.inj ht).symm hu⟩

/-- It leaves them. -/
theorem held_loss (h : Kept preAlloc s chain place) {P : Place τ κ} {pc : Pc τ κ δ}
    (hold : (s.pc t).held = some n)
    (hnew : pc.held = none) (hP : ∀ u, P ≠ .held u) (u : τ) (m : Qnode τ κ) :
    (Function.update s.pc t pc u).held = some m ↔ Function.update place n P m = .held u := by
  have hplace : place n = .held t := (h.held t n).mp hold
  refine h.held_move (fun m hm => ?_) (fun m hm => ?_) (fun u => ?_) u m
  · exact Option.some.inj (hm.symm.trans hold)
  · rw [hnew] at hm
    cases hm
  · refine ⟨fun hu => ?_, fun hu => absurd hu (hP u)⟩
    by_cases hut : u = t
    · rw [hut, Function.update_self, hnew] at hu
      cases hu
    · rw [Function.update_of_ne hut, h.held, hplace] at hu
      exact absurd (Place.held.inj hu).symm hut

theorem not_listed (h : Kept preAlloc s chain place) (hn : ∀ i, place n ≠ .list i) (i : Loc τ κ) :
    n ∉ chain i :=
  fun hi => hn i ((h.listed i n).mp hi)

/-- A node that is in no list comes into none. -/
theorem listed_move (h : Kept preAlloc s chain place) {P : Place τ κ} (hn : ∀ i, place n ≠ .list i)
    (hP : ∀ i, P ≠ .list i) (i : Loc τ κ) (m : Qnode τ κ) :
    m ∈ chain i ↔ Function.update place n P m = .list i := by
  by_cases hm : m = n
  · subst hm
    rw [Function.update_self]
    exact ⟨fun hi => absurd hi (h.not_listed hn i), fun hi => absurd hi (hP i)⟩
  · rw [Function.update_of_ne hm, h.listed]

theorem map_data {l : List (Qnode τ κ)} (hn : n ∉ l) {d : δ} :
    l.map (Function.update s.data n d) = l.map s.data := by
  refine List.map_congr_left fun m hm => ?_
  have hne : m ≠ n := fun hmn => hn (hmn ▸ hm)
  rw [Function.update_of_ne hne]

/-- The first node is taken off a list. -/
theorem listed_drop (h : Kept preAlloc s chain place) (j : Loc τ κ) {P : Place τ κ} (hP : ∀ i, P ≠ .list i)
    (i : Loc τ κ) (m : Qnode τ κ) :
    m ∈ Function.update chain j (chain j).tail i ↔ Function.update place (s.tail j) P m = .list i := by
  obtain ⟨rest, hchain⟩ : ∃ rest, chain j = s.tail j :: rest := h.chained.eq_cons j
  have hnodup := h.chained.nodup j
  rw [hchain] at hnodup
  by_cases hm : m = s.tail j
  · subst hm
    rw [Function.update_self]
    refine ⟨fun hi => ?_, fun hi => absurd hi (hP i)⟩
    by_cases hij : i = j
    · subst hij
      rw [Function.update_self, hchain, List.tail_cons] at hi
      exact absurd hi (List.nodup_cons.mp hnodup).1
    · rw [Function.update_of_ne hij, h.listed, h.tail_place] at hi
      exact absurd (Place.list.inj hi).symm hij
  · rw [Function.update_of_ne hm, ← h.listed]
    by_cases hij : i = j
    · subst hij
      rw [Function.update_self, hchain, List.tail_cons, List.mem_cons]
      exact ⟨.inr, fun hi => hi.resolve_left hm⟩
    · rw [Function.update_of_ne hij]

/-- Nothing else changes about `fast_alloc`. -/
theorem fast_move (h : Kept preAlloc s chain place) {P : Place τ κ} (hn : ∀ u, place n ≠ .fast u)
    (hP : ∀ u, P ≠ .fast u) (u : τ) (m : Qnode τ κ) :
    s.fastAlloc u = some m ↔ Function.update place n P m = .fast u := by
  by_cases hm : m = n
  · subst hm
    rw [Function.update_self, h.fast]
    exact ⟨fun hu => absurd hu (hn u), fun hu => absurd hu (hP u)⟩
  · rw [Function.update_of_ne hm, h.fast]

theorem fresh_move (h : Kept preAlloc s chain place) {P : Place τ κ} (hn : place n ≠ .nowhere) {k : Nat}
    (hk : s.brk ≤ k) :
    Function.update place n P (.cell k) = .nowhere := by
  have hne : Qnode.cell k ≠ n := by
    intro hkn
    rw [← hkn, h.fresh k hk] at hn
    exact hn rfl
  rw [Function.update_of_ne hne]
  exact h.fresh k hk

theorem home_move (h : Kept preAlloc s chain place) {P : Place τ κ}
    (hP : ∀ u, P = .list (.pool u) ∨ P = .fast u → s.pool n = u) (u : τ) (m : Qnode τ κ)
    (hm : Function.update place n P m = .list (.pool u) ∨ Function.update place n P m = .fast u) :
    s.pool m = u :=
  (Function.forall_update_iff place fun m P => P = .list (.pool u) ∨ P = .fast u → s.pool m = u).mpr
    ⟨hP u, fun m _ => h.home u m⟩ m hm

/-- `_qnode_alloc` with `fast_alloc`. -/
theorem fastInsert (h : Kept preAlloc s chain place) (hidle : s.pc t = .idle)
    (hfast : s.fastAlloc t = some n)
    (c : Insert κ δ) :
    Kept preAlloc ({s with fastAlloc := Function.update s.fastAlloc t none}.insertMp t c n) chain
      (Function.update place n (.held t)) := by
  have hplace : place n = .fast t := (h.fast t n).mp hfast
  have hlist (i : Loc τ κ) : n ∉ chain i := h.not_listed (by simp [hplace]) i
  have hlinks : ({s with fastAlloc := Function.update s.fastAlloc t none}.insertMp t c n).links = s.links :=
    congrArg (Links.mk s.next s.head s.tail) (pend_update (by rw [hidle]; rfl))
  constructor
  case chained => rw [hlinks]; exact h.chained
  case listed => exact h.listed_move (by simp [hplace]) (by simp)
  case fast =>
    intro u m
    show Function.update s.fastAlloc t none u = some m ↔ Function.update place n (.held t) m = .fast u
    by_cases hm : m = n
    · subst hm
      rw [Function.update_self]
      refine ⟨fun hu => ?_, fun hu => by cases hu⟩
      by_cases hut : u = t
      · rw [hut, Function.update_self] at hu
        cases hu
      · rw [Function.update_of_ne hut, h.fast] at hu
        exact absurd (Place.fast.inj (hu.symm.trans hplace)) hut
    · rw [Function.update_of_ne hm, ← h.fast]
      by_cases hut : u = t
      · rw [hut, Function.update_self, hfast]
        exact ⟨fun hu => (by cases hu), fun hu => absurd (Option.some.inj hu).symm hm⟩
      · rw [Function.update_of_ne hut]
  case held => exact h.held_gain (by simp [hplace]) (by rw [hidle]; rfl) rfl
  case fresh => exact fun k => h.fresh_move (by simp [hplace])
  case stubs => exact h.stubs_move (fun u => h.fast_ne_stub hplace) _ (by rw [hidle]; rfl) _
  case root => exact h.root
  case home => exact h.home_move (by simp)
  case sound =>
    refine (Function.forall_update_iff s.pc fun u pc => pc.Sound _ u).mpr ⟨⟨c.q, rfl⟩, fun u _ => ?_⟩
    exact (h.sound u).mono rfl (fun _ _ => rfl) fun _ _ _ _ => ⟨rfl, rfl⟩
  case alone => exact h.alone_update fun u q hq => by cases hq
  case fifo =>
    intro q
    show s.inserted q = s.polled q ++ (chain (.queue q)).tail.map (Function.update s.data n c.data)
    rw [h.fifo q, map_data fun hn => hlist _ (List.mem_of_mem_tail hn)]
  case stock => exact h.stock_update (Nat.zero_le _)

/-- `_pool_remove` with a node that is not the stub. -/
theorem obtain (h : Kept preAlloc s chain place) {m : Qnode τ κ} (hheld : (s.pc t).held = none)
    (hpend : (s.pc t).pend = none)
    (hne : s.tail (.pool t) ≠ .stub t) (hm : s.next (s.tail (.pool t)) = some m) (c : Insert κ δ) :
    Kept preAlloc ((s.advance (.pool t) m).obtained t c (s.tail (.pool t)))
      (Function.update chain (.pool t) (chain (.pool t)).tail)
      (Function.update place (s.tail (.pool t)) (.held t)) := by
  have hplace : place (s.tail (.pool t)) = .list (.pool t) := h.tail_place _
  have hpool : Function.update s.pool (s.tail (.pool t)) t = s.pool :=
    Function.update_eq_self_iff.mpr (h.home t _ (.inl hplace)).symm
  have htail (i : Loc τ κ) (hi : i ≠ .pool t) :
      ((s.advance (.pool t) m).obtained t c (s.tail (.pool t))).tail i = s.tail i := Function.update_of_ne hi _ _
  have hqueue (q : κ) : Function.update chain (.pool t) (chain (.pool t)).tail (.queue q) = chain (.queue q) :=
    Function.update_of_ne (by simp) _ _
  have hlinks : ((s.advance (.pool t) m).obtained t c (s.tail (.pool t))).links = s.links.drop (.pool t) m :=
    congrArg (Links.mk s.next s.head (Function.update s.tail (.pool t) m)) (pend_update (s := s) hpend.symm)
  constructor
  case chained =>
    rw [hlinks]
    exact h.chained.drop hm
  case listed => exact h.listed_drop _ (by simp)
  case fast => exact h.fast_move (by simp [hplace]) (by simp)
  case held => exact h.held_gain (by simp [hplace]) hheld rfl
  case fresh => exact fun k => h.fresh_move (by simp [hplace])
  case stubs => exact h.stubs_move (fun u => h.pool_ne_stub hplace hne) _ (Pc.swings_of_held hheld) _
  case root =>
    intro u
    show Function.update s.pool (s.tail (.pool t)) t (.stub u) = u
    rw [hpool]
    exact h.root u
  case home =>
    show ∀ u n, _ → Function.update s.pool (s.tail (.pool t)) t n = u
    rw [hpool]
    exact h.home_move (by simp)
  case sound =>
    refine (Function.forall_update_iff s.pc fun u pc => pc.Sound _ u).mpr ⟨⟨c.q, rfl⟩, fun u hu => ?_⟩
    exact (h.sound u).mono (htail _ (by simpa using hu)) (fun n _ => congrFun hpool n)
      fun q _ _ _ => ⟨htail _ (by simp), rfl⟩
  case alone => exact h.alone_update fun u q hq => by cases hq
  case fifo =>
    intro q
    show s.inserted q = s.polled q ++
      (Function.update chain (.pool t) (chain (.pool t)).tail (.queue q)).tail.map
        (Function.update s.data (s.tail (.pool t)) c.data)
    have hnot : s.tail (.pool t) ∉ (chain (.queue q)).tail := fun hmem =>
      absurd (hplace.symm.trans ((h.listed _ _).mp (List.mem_of_mem_tail hmem))) (by simp)
    rw [hqueue, h.fifo q, map_data hnot]
  case stock =>
    refine (Function.forall_update_iff s.pc fun u pc => pc.stock preAlloc ≤ _).mpr
      ⟨Nat.zero_le _, fun u hu => ?_⟩
    rw [Function.update_of_ne (by simpa using hu)]
    exact h.stock u

/-- `_pool_remove` with the stub: it is passed. -/
theorem unstub (h : Kept preAlloc s chain place) {m : Qnode τ κ} {pc : Pc τ κ δ}
    (hheld : pc.held = (s.pc t).held) (hpend : pc.pend = (s.pc t).pend) (hswings : (s.pc t).swings = false)
    (hstub : s.tail (.pool t) = .stub t) (hm : s.next (.stub t) = some m)
    (hsound : m ≠ .stub t → pc.Sound (s.advance (.pool t) m) t) (hpolls : ∀ q, pc.polls q = false)
    (hstock : pc.stock preAlloc ≤ (s.pc t).stock preAlloc) :
    Kept preAlloc ({s.advance (.pool t) m with stubIn := Function.update s.stubIn t false}.goto t pc)
      (Function.update chain (.pool t) (chain (.pool t)).tail) (Function.update place (.stub t) .nowhere) := by
  have hnext : s.next (s.tail (.pool t)) = some m := hstub ▸ hm
  have hplace : place (.stub t) = .list (.pool t) := hstub ▸ h.tail_place (.pool t)
  obtain ⟨rest, hchain⟩ : ∃ rest, chain (.pool t) = s.tail (.pool t) :: m :: rest := h.chained.tail_next hnext
  have hne : m ≠ .stub t := by
    have hnodup := h.chained.nodup (.pool t)
    rw [hchain, hstub] at hnodup
    exact fun hms => (List.nodup_cons.mp hnodup).1 (hms ▸ List.mem_cons_self)
  have hqueue (q : κ) : Function.update chain (.pool t) (chain (.pool t)).tail (.queue q) = chain (.queue q) :=
    Function.update_of_ne (by simp) _ _
  have hlinks : ({s.advance (.pool t) m with stubIn := Function.update s.stubIn t false}.goto t pc).links =
      s.links.drop (.pool t) m :=
    congrArg (Links.mk s.next s.head (Function.update s.tail (.pool t) m)) (pend_update hpend)
  have htail (i : Loc τ κ) (hi : i ≠ .pool t) :
      ({s.advance (.pool t) m with stubIn := Function.update s.stubIn t false}.goto t pc).tail i = s.tail i :=
    Function.update_of_ne hi _ _
  constructor
  case chained =>
    rw [hlinks]
    exact h.chained.drop hnext
  case listed =>
    rw [← hstub]
    exact h.listed_drop _ (by simp)
  case fast => exact h.fast_move (by simp [hplace]) (by simp)
  case held =>
    intro u n
    show (Function.update s.pc t pc u).held = some n ↔ Function.update place (.stub t) .nowhere n = .held u
    rw [pc_update Pc.held hheld, h.held]
    by_cases hn : n = .stub t
    · rw [hn, Function.update_self, hplace]
      simp
    · rw [Function.update_of_ne hn]
  case fresh => exact fun k => h.fresh_move (by simp [hplace])
  case stubs =>
    intro u
    by_cases hu : u = t
    · subst hu
      exact .inr (.inl ⟨Function.update_self .., Function.update_self ..⟩)
    · show (Function.update place (.stub t) .nowhere (.stub u) = _ ∧ Function.update s.stubIn t false u = _) ∨
        (Function.update place (.stub t) .nowhere (.stub u) = _ ∧ Function.update s.stubIn t false u = _) ∨
        (Function.update place (.stub t) .nowhere (.stub u) = _ ∧ Function.update s.stubIn t false u = _ ∧
          (Function.update s.pc t pc u).swings = true)
      rw [Function.update_of_ne (by simpa using hu), Function.update_of_ne hu, Function.update_of_ne hu]
      exact h.stubs u
  case root => exact h.root
  case home => exact h.home_move (by simp)
  case sound =>
    refine (Function.forall_update_iff s.pc fun u pc => pc.Sound _ u).mpr ⟨?_, fun u hu => ?_⟩
    · exact (hsound hne).mono rfl (fun _ _ => rfl) fun _ _ _ _ => ⟨rfl, rfl⟩
    · exact (h.sound u).mono (htail _ (by simpa using hu)) (fun _ _ => rfl)
        fun q _ _ _ => ⟨htail _ (by simp), rfl⟩
  case alone => exact h.alone_update fun u q hq => by rw [hpolls] at hq; cases hq
  case fifo =>
    intro q
    rw [hqueue]
    exact h.fifo q
  case stock =>
    refine (Function.forall_update_iff s.pc fun u pc => pc.stock preAlloc ≤ _).mpr ⟨?_, fun u hu => ?_⟩
    · have hold := h.stock t
      rw [hchain, hstub] at hold
      rw [Function.update_self, hchain, List.tail_cons]
      simp only [List.countP_cons, ne_eq, not_true_eq_false, decide_false, Bool.false_eq_true, if_false,
        Nat.add_zero] at hold ⊢
      exact hstock.trans hold
    · rw [Function.update_of_ne (by simpa using hu)]
      exact h.stock u

/-- The stub is taken to be put in. -/
theorem swing (h : Kept preAlloc s chain place) (hin : s.stubIn t = false) (hheld : (s.pc t).held = none)
    (hpend : (s.pc t).pend = none) (hne : s.tail (.pool t) ≠ .stub t) {c : Insert κ δ} {again : Bool}
    (hstock : (if again then preAlloc else 0) ≤ (s.pc t).stock preAlloc) :
    Kept preAlloc (s.goto t (.put (.pool t) (.stub t) (.swung c again))) chain
      (Function.update place (.stub t) (.held t)) := by
  have hplace : place (.stub t) = .nowhere := by
    cases h.stubs t with
    | inl hlist => rw [hin] at hlist; cases hlist.2
    | inr hout =>
      cases hout with
      | inl hout => exact hout.1
      | inr hout => rw [Pc.swings_of_held hheld] at hout; cases hout.2.2
  have hlinks : (s.goto t (.put (.pool t) (.stub t) (.swung c again))).links = s.links :=
    congrArg (Links.mk s.next s.head s.tail) (pend_update (s := s) hpend.symm)
  constructor
  case chained => rw [hlinks]; exact h.chained
  case listed => exact h.listed_move (by simp [hplace]) (by simp)
  case fast => exact h.fast_move (by simp [hplace]) (by simp)
  case held => exact h.held_gain (by simp [hplace]) hheld rfl
  case fresh =>
    intro k hk
    rw [Function.update_of_ne (by simp)]
    exact h.fresh k hk
  case stubs =>
    intro u
    by_cases hu : u = t
    · subst hu
      refine .inr (.inr ⟨Function.update_self .., hin, ?_⟩)
      show (Function.update s.pc u _ u).swings = true
      rw [Function.update_self]
      rfl
    · show (Function.update place (.stub t) (.held t) (.stub u) = _ ∧ _) ∨
        (Function.update place (.stub t) (.held t) (.stub u) = _ ∧ _) ∨
        (Function.update place (.stub t) (.held t) (.stub u) = _ ∧ _ ∧
          (Function.update s.pc t _ u).swings = true)
      rw [Function.update_of_ne (by simpa using hu), Function.update_of_ne hu]
      exact h.stubs u
  case root => exact h.root
  case home => exact h.home_move (by simp)
  case sound =>
    refine (Function.forall_update_iff s.pc fun u pc => pc.Sound _ u).mpr ⟨⟨rfl, rfl, hne⟩, fun u _ => ?_⟩
    exact (h.sound u).mono rfl (fun _ _ => rfl) fun _ _ _ _ => ⟨rfl, rfl⟩
  case alone => exact h.alone_update fun u q hq => by cases hq
  case fifo => exact h.fifo
  case stock => exact h.stock_update (hstock.trans (h.stock t))

/-- Memory for one more node. -/
theorem malloc (h : Kept preAlloc s chain place) {c : Insert κ δ} {i : Nat} (hpc : s.pc t = .refill c i) :
    Kept preAlloc ({s with brk := s.brk + 1, pool := Function.update s.pool (.cell s.brk) t}.goto t
      (.put (.pool t) (.cell s.brk) (.refilled c (i + 1)))) chain
      (Function.update place (.cell s.brk) (.held t)) := by
  have hplace : place (.cell s.brk) = .nowhere := h.fresh _ (Nat.le_refl _)
  have hpool {n : Qnode τ κ} (hn : n ≠ .cell s.brk) : Function.update s.pool (.cell s.brk) t n = s.pool n :=
    Function.update_of_ne hn _ _
  have hpend : (s.pc t).pend = none := by rw [hpc]; rfl
  have hlinks : ({s with brk := s.brk + 1, pool := Function.update s.pool (.cell s.brk) t}.goto t
      (.put (.pool t) (.cell s.brk) (.refilled c (i + 1)))).links = s.links :=
    congrArg (Links.mk s.next s.head s.tail) (pend_update (s := s) hpend.symm)
  constructor
  case chained => rw [hlinks]; exact h.chained
  case listed => exact h.listed_move (by simp [hplace]) (by simp)
  case fast => exact h.fast_move (by simp [hplace]) (by simp)
  case held => exact h.held_gain (by simp [hplace]) (by rw [hpc]; rfl) rfl
  case fresh =>
    intro k hk
    have hlt : s.brk < k := hk
    rw [Function.update_of_ne (by simp; omega)]
    exact h.fresh k (by omega)
  case stubs => exact h.stubs_move (by simp) _ (by rw [hpc]; rfl) _
  case root => exact fun u => (hpool (by simp)).trans (h.root u)
  case home =>
    intro u n hn
    by_cases hne : n = .cell s.brk
    · rw [hne, Function.update_self] at hn
      simp at hn
    · rw [Function.update_of_ne hne] at hn
      exact (hpool hne).trans (h.home u n hn)
  case sound =>
    refine (Function.forall_update_iff s.pc fun u pc => pc.Sound _ u).mpr
      ⟨⟨rfl, Function.update_self ..⟩, fun u _ => ?_⟩
    refine (h.sound u).mono rfl (fun n hn => hpool ?_) fun _ _ _ _ => ⟨rfl, rfl⟩
    intro hne
    rw [h.held, hne, hplace] at hn
    cases hn
  case alone => exact h.alone_update fun u q hq => by cases hq
  case fifo => exact h.fifo
  case stock =>
    have hold := h.stock t
    rw [hpc] at hold
    exact h.stock_update hold

/-- `_lthread_queue_poll` takes the first node off, and what is in the second. -/
theorem take (h : Kept preAlloc s chain place) {q : κ} {a m : Qnode τ κ} (hpc : s.pc t = .take q a m) :
    Kept preAlloc ({s.advance (.queue q) m with
        data := Function.update s.data a (s.data m)
        polled := Function.update s.polled q (s.polled q ++ [s.data m])}.goto t (.free a))
      (Function.update chain (.queue q) (chain (.queue q)).tail) (Function.update place a (.held t)) := by
  have hsound := h.sound t
  rw [hpc] at hsound
  obtain ⟨rfl, hm⟩ : a = s.tail (.queue q) ∧ s.next a = some m := hsound
  obtain ⟨rest, hchain⟩ : ∃ rest, chain (.queue q) = s.tail (.queue q) :: m :: rest := h.chained.tail_next hm
  have hplace : place (s.tail (.queue q)) = .list (.queue q) := h.tail_place _
  have hpend : (s.pc t).pend = none := by rw [hpc]; rfl
  have hlinks : ({s.advance (.queue q) m with
        data := Function.update s.data (s.tail (.queue q)) (s.data m)
        polled := Function.update s.polled q (s.polled q ++ [s.data m])}.goto t
          (.free (s.tail (.queue q)))).links = s.links.drop (.queue q) m :=
    congrArg (Links.mk s.next s.head (Function.update s.tail (.queue q) m)) (pend_update (s := s) hpend.symm)
  have htail (i : Loc τ κ) (hi : i ≠ .queue q) : ({s.advance (.queue q) m with
        data := Function.update s.data (s.tail (.queue q)) (s.data m)
        polled := Function.update s.polled q (s.polled q ++ [s.data m])}.goto t
          (.free (s.tail (.queue q)))).tail i = s.tail i := Function.update_of_ne hi _ _
  constructor
  case chained =>
    rw [hlinks]
    exact h.chained.drop hm
  case listed => exact h.listed_drop _ (by simp)
  case fast => exact h.fast_move (by simp [hplace]) (by simp)
  case held => exact h.held_gain (by simp [hplace]) (by rw [hpc]; rfl) rfl
  case fresh => exact fun k => h.fresh_move (by simp [hplace])
  case stubs => exact h.stubs_move (fun u => h.queue_ne_stub hplace) _ (by rw [hpc]; rfl) _
  case root => exact h.root
  case home => exact h.home_move (by simp)
  case sound =>
    refine (Function.forall_update_iff s.pc fun u pc => pc.Sound _ u).mpr ⟨trivial, fun u hu => ?_⟩
    refine (h.sound u).mono (htail _ (by simp)) (fun _ _ => rfl)
      fun q' a' m' hpc' => ⟨htail _ fun hq => ?_, rfl⟩
    -- only one polls this queue
    cases hq
    exact hu (h.alone u t q (by rw [hpc']; simp [Pc.polls]) (by rw [hpc]; simp [Pc.polls]))
  case alone => exact h.alone_update fun u q hq => by cases hq
  case fifo =>
    intro q'
    show s.inserted q' = Function.update s.polled q (s.polled q ++ [s.data m]) q' ++
      (Function.update chain (.queue q) (chain (.queue q)).tail (.queue q')).tail.map
        (Function.update s.data (s.tail (.queue q)) (s.data m))
    have hnodup := h.chained.nodup (.queue q)
    rw [hchain] at hnodup
    by_cases hq : q' = q
    · subst hq
      rw [Function.update_self, Function.update_self, h.fifo q', hchain, List.tail_cons, List.tail_cons,
        List.map_cons, map_data fun hmem => (List.nodup_cons.mp hnodup).1 (List.mem_cons_of_mem m hmem), List.append_assoc]
      rfl
    · have hnot : s.tail (.queue q) ∉ (chain (.queue q')).tail := by
        intro hmem
        have hlist := hplace.symm.trans ((h.listed _ _).mp (List.mem_of_mem_tail hmem))
        exact hq (Loc.queue.inj (Place.list.inj hlist)).symm
      rw [Function.update_of_ne hq, Function.update_of_ne (by simpa using hq), map_data hnot]
      exact h.fifo q'
  case stock =>
    refine (Function.forall_update_iff s.pc fun u pc => pc.stock preAlloc ≤ _).mpr
      ⟨Nat.zero_le _, fun u hu => ?_⟩
    rw [Function.update_of_ne (by simp)]
    exact h.stock u

/-- `_qnode_free` into `fast_alloc`. -/
theorem keepFast (h : Kept preAlloc s chain place) (hpc : s.pc t = .free n)
    (hfast : s.fastAlloc (s.pool n) = none)
    (hpool : s.pool n = t) :
    Kept preAlloc ({s with fastAlloc := Function.update s.fastAlloc (s.pool n) (some n)}.goto t .idle) chain
      (Function.update place n (.fast t)) := by
  rw [hpool] at hfast ⊢
  have hplace : place n = .held t := (h.held t n).mp (by rw [hpc]; rfl)
  have hpend : (s.pc t).pend = none := by rw [hpc]; rfl
  have hlinks : ({s with fastAlloc := Function.update s.fastAlloc t (some n)}.goto t .idle).links = s.links :=
    congrArg (Links.mk s.next s.head s.tail) (pend_update (s := s) hpend.symm)
  constructor
  case chained => rw [hlinks]; exact h.chained
  case listed => exact h.listed_move (by simp [hplace]) (by simp)
  case fast =>
    intro u m
    show Function.update s.fastAlloc t (some n) u = some m ↔ Function.update place n (.fast t) m = .fast u
    by_cases hut : u = t
    · rw [hut, Function.update_self]
      by_cases hm : m = n
      · rw [hm, Function.update_self]
        exact ⟨fun _ => rfl, fun _ => rfl⟩
      · rw [Function.update_of_ne hm, ← h.fast, hfast]
        exact ⟨fun heq => absurd (Option.some.inj heq).symm hm, fun hnone => by cases hnone⟩
    · rw [Function.update_of_ne hut, h.fast]
      by_cases hm : m = n
      · rw [hm, Function.update_self, hplace]
        exact ⟨fun hheld => (by cases hheld), fun heq => absurd (Place.fast.inj heq).symm hut⟩
      · rw [Function.update_of_ne hm]
  case held => exact h.held_loss (by rw [hpc]; rfl) rfl (by simp)
  case fresh => exact fun k => h.fresh_move (by simp [hplace])
  case stubs =>
    exact h.stubs_move (fun u => h.held_ne_stub (t := t) (by rw [hpc]; rfl) (by rw [hpc]; rfl)) _ (by rw [hpc]; rfl) _
  case root => exact h.root
  case home =>
    refine h.home_move fun u hu => ?_
    cases hu with
    | inl hu => cases hu
    | inr hu => exact hpool.trans (Place.fast.inj hu)
  case sound =>
    refine (Function.forall_update_iff s.pc fun u pc => pc.Sound _ u).mpr ⟨trivial, fun u _ => ?_⟩
    exact (h.sound u).mono rfl (fun _ _ => rfl) fun _ _ _ _ => ⟨rfl, rfl⟩
  case alone => exact h.alone_update fun u q hq => by cases hq
  case fifo => exact h.fifo
  case stock => exact h.stock_update (Nat.zero_le _)

/-- A node is swapped in as the last of a list. -/
theorem exchange (h : Kept preAlloc s chain place) {i : Loc τ κ} {k : Then κ δ}
    (hpc : s.pc t = .put i n k) :
    Kept preAlloc (s.exchange t i n k) (Function.update chain i (chain i ++ [n]))
      (Function.update place n (.list i)) := by
  have hplace : place n = .held t := (h.held t n).mp (by rw [hpc]; rfl)
  have hpend : (s.pc t).pend = none := by rw [hpc]; rfl
  have hnot (j : Loc τ κ) : n ∉ chain j := h.not_listed (by simp [hplace]) j
  have hsound : (Pc.put i n k).Sound s t := hpc ▸ h.sound t
  have hlinks : (s.exchange t i n k).links = s.links.put i t n := by
    refine congrArg (Links.mk (Function.update s.next n none) (Function.update s.head i n) s.tail) ?_
    funext u
    show (Function.update s.pc t (.link (s.head i) n k) u).pend = Function.update (fun u => (s.pc u).pend) t _ u
    by_cases hu : u = t
    · rw [hu, Function.update_self, Function.update_self]
      rfl
    · rw [Function.update_of_ne hu, Function.update_of_ne hu]
  have hcount (u : τ) : (chain (.pool u)).countP (· ≠ .stub u) ≤
      (Function.update chain i (chain i ++ [n]) (.pool u)).countP (· ≠ .stub u) := by
    by_cases hu : .pool u = i
    · subst hu
      rw [Function.update_self, List.countP_append]
      exact Nat.le_add_right _ _
    · rw [Function.update_of_ne hu]
  constructor
  case chained =>
    rw [hlinks]
    exact h.chained.put hnot hpend i
  case listed =>
    intro j m
    rw [Links.Chained.mem_concat]
    by_cases hm : m = n
    · subst hm
      rw [Function.update_self]
      exact ⟨fun hj => hj.elim (fun hj => absurd hj (hnot j)) fun hj => hj.1 ▸ rfl,
        fun hj => .inr ⟨(Place.list.inj hj).symm, rfl⟩⟩
    · rw [Function.update_of_ne hm, ← h.listed]
      exact ⟨fun hj => hj.resolve_right fun hj => hm hj.2, .inl⟩
  case fast => exact h.fast_move (by simp [hplace]) (by simp)
  case held => exact h.held_loss (by rw [hpc]; rfl) rfl (by simp)
  case fresh => exact fun k => h.fresh_move (by simp [hplace])
  case stubs =>
    cases k with
    | swung c again =>
      obtain ⟨rfl, rfl, -⟩ := hsound
      intro u
      by_cases hu : u = t
      · subst hu
        exact .inl ⟨Function.update_self .., Function.update_self ..⟩
      · have hplace' : Function.update place (.stub t) (.list (.pool t)) (.stub u) = place (.stub u) :=
          Function.update_of_ne (by simpa using hu) _ _
        show (_ ∧ Function.update s.stubIn t true u = _) ∨ (_ ∧ Function.update s.stubIn t true u = _) ∨
          (_ ∧ Function.update s.stubIn t true u = _ ∧ (Function.update s.pc t _ u).swings = true)
        rw [hplace', Function.update_of_ne hu, Function.update_of_ne hu]
        exact h.stubs u
    | refilled c j | freed | inserted =>
      exact h.stubs_move (fun u => h.held_ne_stub (t := t) (by rw [hpc]; rfl) (by rw [hpc]; rfl)) _ (by rw [hpc]; rfl) _
  case root => exact h.root
  case home =>
    refine h.home_move fun u hu => ?_
    have hi : i = .pool u := hu.elim Place.list.inj fun hu => by cases hu
    cases k with
    | swung c again =>
      obtain ⟨rfl, rfl, -⟩ := hsound
      cases hi
      exact h.root t
    | refilled c j =>
      obtain ⟨rfl, hn⟩ := hsound
      cases hi
      exact hn
    | freed => exact Loc.pool.inj (hsound.symm.trans hi)
    | inserted =>
      obtain ⟨q, hq⟩ := hsound
      cases hq.symm.trans hi
  case sound =>
    refine (Function.forall_update_iff s.pc fun u pc => pc.Sound _ u).mpr ⟨?_, fun u _ => ?_⟩
    · cases k with
      | swung c again => exact hsound.2.2
      | _ => trivial
    · refine (h.sound u).mono rfl (fun _ _ => rfl) fun q a m hu => ⟨rfl, ?_⟩
      have hsoundu := h.sound u
      rw [hu] at hsoundu
      have hne : a ≠ n := by
        intro han
        rw [← han, hsoundu.1, h.tail_place] at hplace
        cases hplace
      exact Function.update_of_ne hne _ _
  case alone => exact h.alone_update fun u q hq => by cases hq
  case fifo =>
    intro q
    by_cases hq : .queue q = i
    · subst hq
      show Function.update s.inserted q (s.inserted q ++ [s.data n]) q =
        s.polled q ++ (Function.update chain (.queue q) (chain (.queue q) ++ [n]) (.queue q)).tail.map s.data
      rw [Function.update_self, Function.update_self, List.tail_append_of_ne_nil (h.chained.ne_nil _),
        List.map_append, ← List.append_assoc, ← h.fifo q]
      rfl
    · have hinserted : (s.exchange t i n k).inserted q = s.inserted q := by
        cases i with
        | pool u => rfl
        | queue q' => exact Function.update_of_ne (by simpa using hq) _ _
      rw [hinserted, Function.update_of_ne hq]
      exact h.fifo q
  case stock =>
    refine (Function.forall_update_iff s.pc fun u pc => pc.stock preAlloc ≤ _).mpr
      ⟨?_, fun u _ => (h.stock u).trans (hcount u)⟩
    have hold := h.stock t
    rw [hpc] at hold
    cases k with
    | swung c again => exact hold.trans (hcount t)
    | refilled c j =>
      obtain ⟨rfl, -⟩ := hsound
      have hne : n ≠ .stub t := h.held_ne_stub (t := t) (by rw [hpc]; rfl) (by rw [hpc]; rfl)
      have hj : j - 1 ≤ (chain (.pool t)).countP (· ≠ .stub t) := hold
      rw [Function.update_self, List.countP_append, List.countP_singleton, if_pos (by simpa using hne)]
      show j ≤ _
      omega
    | freed | inserted => exact Nat.zero_le _

/-- The node that was last before is linked. -/
theorem link (h : Kept preAlloc s chain place) {prev : Qnode τ κ} {k : Then κ δ}
    (hpc : s.pc t = .link prev n k) :
    Kept preAlloc ({s with next := Function.update s.next prev (some n)}.goto t (State.resume k)) chain place := by
  have hpend : s.links.pend t = some (prev, n) := by
    show (s.pc t).pend = _
    rw [hpc]
    rfl
  have hheld : (State.resume k : Pc τ κ δ).held = none := by cases k <;> rfl
  have hlinks : ({s with next := Function.update s.next prev (some n)}.goto t (State.resume k)).links =
      s.links.join t prev n := by
    refine congrArg (Links.mk (Function.update s.next prev (some n)) s.head s.tail) ?_
    funext u
    show (Function.update s.pc t (State.resume k) u).pend = Function.update (fun u => (s.pc u).pend) t none u
    by_cases hu : u = t
    · rw [hu, Function.update_self, Function.update_self]
      cases k <;> rfl
    · rw [Function.update_of_ne hu, Function.update_of_ne hu]
  constructor
  case chained =>
    rw [hlinks]
    exact h.chained.join hpend
  case listed => exact h.listed
  case fast => exact h.fast
  case held =>
    intro u m
    show (Function.update s.pc t (State.resume k) u).held = some m ↔ _
    rw [pc_update Pc.held (by rw [hheld, hpc]; rfl), h.held]
  case fresh => exact h.fresh
  case stubs => exact h.stubs_update (by rw [hpc]; rfl) _
  case root => exact h.root
  case home => exact h.home
  case sound =>
    refine (Function.forall_update_iff s.pc fun u pc => pc.Sound _ u).mpr ⟨?_, fun u _ => ?_⟩
    · have hsound : (Pc.link prev n k).Sound s t := hpc ▸ h.sound t
      cases k with
      | swung c again => exact hsound
      | _ => trivial
    · refine (h.sound u).mono rfl (fun _ _ => rfl) fun q a m hu => ⟨rfl, ?_⟩
      have hsoundu := h.sound u
      rw [hu] at hsoundu
      have hne : a ≠ prev := by
        intro hap
        have hnone : s.next prev = none := (h.chained.broken t prev n hpend).1
        rw [← hap, hsoundu.2] at hnone
        cases hnone
      exact Function.update_of_ne hne _ _
  case alone => exact h.alone_update fun u q hq => by cases k <;> cases hq
  case fifo => exact h.fifo
  case stock =>
    refine h.stock_update ?_
    have hold := h.stock t
    rw [hpc] at hold
    cases k with
    | swung c again => exact hold
    | refilled c j => exact hold
    | freed | inserted => exact Nat.zero_le _

/-! ### Steps and runs -/

/-- At first there is nothing but the stubs and the first nodes of the queues. -/
theorem init (creator : κ → τ) (home : Nat → τ) (data : Qnode τ κ → δ) :
    Kept preAlloc (.init creator home data) (fun i => [(State.init creator home data).tail i]) Place.init := by
  have hsame (i : Loc τ κ) : (State.init creator home data).head i = (State.init creator home data).tail i := by
    cases i <;> rfl
  constructor
  case chained =>
    constructor
    case first => exact fun i => rfl
    case last => exact fun i => congrArg some (hsame i).symm
    case nodup => exact fun i => List.nodup_singleton _
    case disjoint =>
      intro i j n hi hj
      have heq := (List.mem_singleton.mp hi).symm.trans (List.mem_singleton.mp hj)
      cases i with
      | pool t =>
        cases j with
        | pool u => cases heq; rfl
        | queue q => cases heq
      | queue q =>
        cases j with
        | pool u => cases heq
        | queue q' => cases heq; rfl
    case joined => exact fun i => List.isChain_singleton _
    case ends => exact fun i => ⟨rfl, fun u b hu => by cases hu⟩
    case broken => exact fun u a b hu => by cases hu
    case one => exact fun u v a b c hu => by cases hu
  case listed =>
    intro i n
    cases i with
    | pool t => cases n <;> simp [State.init, Place.init, eq_comm]
    | queue q => cases n <;> simp [State.init, Place.init, eq_comm]
  case fast =>
    intro t n
    constructor
    · intro hn
      cases hn
    · intro hn
      cases n <;> cases hn
  case held =>
    intro t n
    constructor
    · intro hn
      cases hn
    · intro hn
      cases n <;> cases hn
  case fresh => exact fun k _ => rfl
  case stubs => exact fun t => .inl ⟨rfl, rfl⟩
  case root => exact fun t => rfl
  case home =>
    intro t n hn
    cases n with
    | stub u =>
      cases hn with
      | inl hn => cases hn; rfl
      | inr hn => cases hn
    | first q => simp [Place.init] at hn
    | cell k => simp [Place.init] at hn
  case sound => exact fun t => trivial
  case alone => exact fun t u q hq => by cases hq
  case fifo => exact fun q => rfl
  case stock => exact fun t => Nat.zero_le _

/-- What of a scheduler is neither holding a node nor making a link. -/
theorem goto_free (h : Kept preAlloc s chain place) {pc pc' : Pc τ κ δ} (hpc : s.pc t = pc)
    (hheld : pc.held = none)
    (hpend : pc.pend = none) (hheld' : pc'.held = none) (hpend' : pc'.pend = none) (hsound : pc'.Sound s t)
    (hpolls : ∀ q, pc'.polls q = false) (hstock : pc'.stock preAlloc ≤ pc.stock preAlloc) :
    Kept preAlloc (s.goto t pc') chain place := by
  subst hpc
  exact h.goto (hheld'.trans hheld.symm) (hpend'.trans hpend.symm) (Pc.swings_of_held hheld) hsound
    (fun u q hq => by rw [hpolls] at hq; cases hq) (hstock.trans (h.stock t))

/-- `_pool_remove` behind the stub. -/
theorem removeTail (h : Kept preAlloc s chain place) {pc : Pc τ κ δ} (hpc : s.pc t = pc)
    (hheld : pc.held = none)
    (hpend : pc.pend = none) (hne : s.tail (.pool t) ≠ .stub t) {c : Insert κ δ} {again : Bool}
    (hstock : (if again then preAlloc else 0) ≤ pc.stock preAlloc) :
    ∃ chain place, Kept preAlloc (s.removeTail t c again) chain place := by
  unfold State.removeTail
  split
  · rename_i m hm
    exact ⟨_, _, h.obtain (hpc ▸ hheld) (hpc ▸ hpend) hne hm c⟩
  · exact ⟨_, _, h.goto_free hpc hheld hpend rfl rfl hne (fun _ => rfl) hstock⟩

theorem poolRemove (h : Kept preAlloc s chain place) {c : Insert κ δ} {again : Bool}
    (hpc : s.pc t = .remove c again) :
    ∃ chain place, Kept preAlloc (s.poolRemove t c again) chain place := by
  unfold State.poolRemove
  split
  · rename_i hstub
    split
    · exact ⟨_, _, h.goto_free hpc rfl rfl rfl rfl trivial (fun _ => rfl) (Nat.le_refl _)⟩
    · rename_i m hm
      refine ⟨_, _, h.unstub (by rw [hpc]; rfl) (by rw [hpc]; rfl) (by rw [hpc]; rfl) hstub hm (fun hne => ?_)
        (fun _ => rfl) (by rw [hpc]; exact Nat.le_refl _)⟩
      show Function.update s.tail (.pool t) m (.pool t) ≠ _
      rwa [Function.update_self]
  · rename_i hne
    exact h.removeTail hpc rfl rfl hne (Nat.le_refl _)

theorem qnodeFree (h : Kept preAlloc s chain place) (hpc : s.pc t = .free n) :
    ∃ chain place, Kept preAlloc (s.qnodeFree t n) chain place := by
  unfold State.qnodeFree
  split
  · exact ⟨_, _, h.goto (by rw [hpc]; rfl) (by rw [hpc]; rfl) (by rw [hpc]; rfl) rfl (fun u q hq => by cases hq)
      (Nat.zero_le _)⟩
  · rename_i hown
    obtain ⟨hfast, hpool⟩ := not_or.mp hown
    exact ⟨_, _, h.keepFast hpc (not_not.mp hfast) (not_not.mp hpool)⟩

theorem refill (h : Kept preAlloc s chain place) {c : Insert κ δ} {i : Nat} (hpc : s.pc t = .refill c i)
    (mem : Bool) :
    ∃ chain place, Kept preAlloc (s.refill preAlloc t mem c i) chain place := by
  unfold State.refill
  split
  · cases mem with
    | true => exact ⟨_, _, h.malloc hpc⟩
    | false => exact ⟨_, _, h.goto_free hpc rfl rfl rfl rfl trivial (fun _ => rfl) (Nat.zero_le _)⟩
  · rename_i hi
    exact ⟨_, _, h.goto_free hpc rfl rfl rfl rfl trivial (fun _ => rfl) (Nat.not_lt.mp hi)⟩

theorem go (h : Kept preAlloc s chain place) {mem : Bool} (hrule : s.Orderly (.go t mem)) {s' : State τ κ δ}
    (hgo : s.go preAlloc t mem (s.pc t) = some s') : ∃ chain place, Kept preAlloc s' chain place := by
  have hsound := h.sound t
  cases hpc : s.pc t with
  | idle => rw [hpc] at hgo; cases hgo
  | crashed => rw [hpc] at hgo; cases hgo
  | remove c again =>
    rw [hpc] at hgo
    cases hgo
    exact h.poolRemove hpc
  | second c again =>
    rw [hpc] at hgo hsound
    cases hgo
    exact h.removeTail hpc rfl rfl hsound (Nat.le_refl _)
  | look c again =>
    rw [State.Orderly, hpc] at hrule
    rw [hpc] at hgo hsound
    cases hgo
    split
    · exact ⟨_, _, h.goto_free hpc rfl rfl rfl rfl trivial (fun _ => rfl) (Nat.le_refl _)⟩
    · rename_i hne
      have hin : s.stubIn t = false := (hrule rfl).resolve_left hne
      exact ⟨_, _, h.swing hin (by rw [hpc]; rfl) (by rw [hpc]; rfl) hsound (by rw [hpc]; exact Nat.le_refl _)⟩
  | after c again =>
    rw [hpc] at hgo hsound
    have hremove : ∃ chain place, Kept preAlloc (s.removeTail t c again) chain place :=
      h.removeTail hpc rfl rfl hsound (Nat.le_refl _)
    rw [State.go] at hgo
    split at hgo
    · rename_i m hm
      cases hgo
      rwa [State.removeTail, hm] at hremove
    · cases hgo
      exact ⟨_, _, h.goto_free hpc rfl rfl rfl rfl trivial (fun _ => rfl) (Nat.le_refl _)⟩
  | retry c again =>
    rw [hpc, State.go] at hgo
    split at hgo
    · cases hgo
      exact ⟨_, _, h.goto_free hpc rfl rfl rfl rfl trivial (fun _ => rfl) (Nat.le_refl _)⟩
    · cases hgo
      cases again with
      | true => exact ⟨_, _, h.goto_free hpc rfl rfl rfl rfl trivial (fun _ => rfl) (Nat.zero_le _)⟩
      | false => exact ⟨_, _, h.goto_free hpc rfl rfl rfl rfl trivial (fun _ => rfl) (Nat.zero_le _)⟩
  | refill c i =>
    rw [hpc] at hgo
    cases hgo
    exact h.refill hpc mem
  | take q a m =>
    rw [hpc] at hgo
    cases hgo
    exact ⟨_, _, h.take hpc⟩
  | free n =>
    rw [hpc] at hgo
    cases hgo
    exact h.qnodeFree hpc
  | put i n k =>
    rw [hpc] at hgo
    cases hgo
    exact ⟨_, _, h.exchange hpc⟩
  | link prev n k =>
    rw [hpc] at hgo
    cases hgo
    exact ⟨_, _, h.link hpc⟩

/-- Every step that is orderly keeps it. -/
theorem step (h : Kept preAlloc s chain place) {a : Act τ κ δ} (hrule : s.Orderly a) {s' : State τ κ δ}
    (hstep : s.step preAlloc a = some s') : ∃ chain place, Kept preAlloc s' chain place := by
  cases a with
  | insert t q data =>
    rw [State.step] at hstep
    split at hstep
    · rename_i hidle
      split at hstep
      · rename_i n hfast
        cases hstep
        exact ⟨_, _, h.fastInsert hidle hfast ⟨q, data⟩⟩
      · cases hstep
        exact ⟨_, _, h.goto_free hidle rfl rfl rfl rfl trivial (fun _ => rfl) (Nat.zero_le _)⟩
    · cases hstep
  | poll t q =>
    rw [State.step] at hstep
    split at hstep
    · rename_i hidle
      split at hstep
      · rename_i n hn
        cases hstep
        refine ⟨_, _, h.goto (by rw [hidle]; rfl) (by rw [hidle]; rfl) (by rw [hidle]; rfl) ⟨rfl, hn⟩
          (fun u q' hq hu => ?_) (Nat.zero_le _)⟩
        obtain rfl : q' = q := of_decide_eq_true hq
        rw [hrule u] at hu
        cases hu
      · cases hstep
        exact ⟨_, _, h⟩
    · cases hstep
  | go t mem => exact h.go hrule hstep

/-- And so does a run. -/
theorem runs {acts : List (Act τ κ δ)} {s' : State τ κ δ} (h : Kept preAlloc s chain place)
    (hrun : Runs (State.step preAlloc) State.Orderly s acts s') :
    ∃ chain place, Kept preAlloc s' chain place :=
  hrun.invariant (I := fun s => ∃ chain place, Kept preAlloc s chain place) ⟨chain, place, h⟩
    fun _ _ _ ⟨_, _, h⟩ hrule hstep => h.step hrule hstep

end Kept
end Susanow.Lthread
