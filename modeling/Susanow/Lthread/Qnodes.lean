import Susanow.Base.Links
import Susanow.Base.Runs
import Mathlib.Data.Fintype.Basic

/-! The queues of the schedulers, and the pools that their nodes come from.

A queue is a linked list that any scheduler inserts into and one removes from; its first node is
empty, what is queued is in the ones behind. The free nodes of a scheduler are a list of the same
make, with a stub of its own that is put in when the list would run empty. The schedulers run side
by side: a step is what one of them does up to its next access to what others write. -/
namespace Susanow.Lthread

/-- What a node is kept in. -/
inductive Loc (τ κ : Type)
  | pool (t : τ)
  | queue (q : κ)
  deriving DecidableEq

/-- `struct qnode`: the stub of a pool, the one a queue is created with, or one of those that
`_qnode_alloc` allocates, in the order they come. -/
inductive Qnode (τ κ : Type)
  | stub (t : τ)
  | first (q : κ)
  | cell (k : Nat)
  deriving DecidableEq

/-- `_lthread_queue_insert_mp`, for which a node is allocated. -/
structure Insert (κ δ : Type) where
  q : κ
  data : δ
  deriving DecidableEq

/-- What follows once a node is in a list. -/
inductive Then (κ δ : Type)
  | swung (c : Insert κ δ) (again : Bool)
  | refilled (c : Insert κ δ) (i : Nat)
  | freed
  | inserted
  deriving DecidableEq

/-- Where a scheduler is, with what it has at hand. `again` says that the pool was filled up. -/
inductive Pc (τ κ δ : Type)
  | idle
  -- `_pool_remove`, behind the stub, before it looks at the head, and after it put the stub in
  | remove (c : Insert κ δ) (again : Bool)
  | second (c : Insert κ δ) (again : Bool)
  | look (c : Insert κ δ) (again : Bool)
  | after (c : Insert κ δ) (again : Bool)
  -- `_qnode_pool_remove` got nothing
  | retry (c : Insert κ δ) (again : Bool)
  -- `_qnode_alloc` with `i` nodes allocated
  | refill (c : Insert κ δ) (i : Nat)
  -- `_lthread_queue_poll` has read the tail and the node behind it
  | take (q : κ) (tail next : Qnode τ κ)
  | free (n : Qnode τ κ)
  -- before the exchange of the head, and between that and `prev->next = n`
  | put (i : Loc τ κ) (n : Qnode τ κ) (k : Then κ δ)
  | link (prev n : Qnode τ κ) (k : Then κ δ)
  | crashed
  deriving DecidableEq

namespace Pc
variable {τ κ δ : Type}

def pend : Pc τ κ δ → Option (Qnode τ κ × Qnode τ κ)
  | link prev n _ => some (prev, n)
  | _ => none

/-- The node that only this scheduler can get at. -/
def held : Pc τ κ δ → Option (Qnode τ κ)
  | free n => some n
  | put _ n _ => some n
  | _ => none

def looks : Pc τ κ δ → Bool
  | look _ _ => true
  | _ => false

def polls [DecidableEq κ] (q : κ) : Pc τ κ δ → Bool
  | take q' _ _ => q = q'
  | _ => false

end Pc

/-- The memory that the schedulers share. -/
structure State (τ κ δ : Type) where
  next : Qnode τ κ → Option (Qnode τ κ)
  data : Qnode τ κ → δ
  pool : Qnode τ κ → τ
  head : Loc τ κ → Qnode τ κ
  tail : Loc τ κ → Qnode τ κ
  fastAlloc : τ → Option (Qnode τ κ)
  brk : Nat
  pc : τ → Pc τ κ δ
  -- what has happened: what was swapped into each queue and what was polled from it, and whether
  -- the stub of a pool was put in and not passed since
  inserted : κ → List δ
  polled : κ → List δ
  stubIn : τ → Bool

/-- `insert` and `poll` are calls; `go` is the next step of one, with whether memory is left. -/
inductive Act (τ κ δ : Type)
  | insert (t : τ) (q : κ) (data : δ)
  | poll (t : τ) (q : κ)
  | go (t : τ) (mem : Bool)

namespace State
variable {τ κ δ : Type}

/-- All queues have been created, each on some scheduler, and are empty. Memory that a pool is
allocated in is taken to be zero: `_qnode_pool_create` does not set `fast_alloc`. -/
def init (creator : κ → τ) (home : Nat → τ) (data : Qnode τ κ → δ) : State τ κ δ where
  next _ := none
  data := data
  pool
    | .stub t => t
    | .first q => creator q
    | .cell k => home k
  head
    | .pool t => .stub t
    | .queue q => .first q
  tail
    | .pool t => .stub t
    | .queue q => .first q
  fastAlloc _ := none
  brk := 0
  pc _ := .idle
  inserted _ := []
  polled _ := []
  stubIn _ := true

/-- The lists as they are linked. -/
def links (s : State τ κ δ) : Links (Loc τ κ) (Qnode τ κ) τ := ⟨s.next, s.head, s.tail, fun u => (s.pc u).pend⟩

variable [DecidableEq τ] [DecidableEq κ]

def goto (s : State τ κ δ) (t : τ) (pc : Pc τ κ δ) : State τ κ δ := {s with pc := Function.update s.pc t pc}

/-- `p->tail = next` -/
def advance (s : State τ κ δ) (i : Loc τ κ) (next : Qnode τ κ) : State τ κ δ :=
  {s with tail := Function.update s.tail i next}

/-- `_lthread_queue_insert_mp` with the node it was given. -/
def insertMp (s : State τ κ δ) (t : τ) (c : Insert κ δ) (n : Qnode τ κ) : State τ κ δ :=
  {s with data := Function.update s.data n c.data}.goto t (.put (.queue c.q) n .inserted)

/-- `_qnode_alloc` with the node that was removed from the pool. -/
def obtained (s : State τ κ δ) (t : τ) (c : Insert κ δ) (n : Qnode τ κ) : State τ κ δ :=
  {s with pool := Function.update s.pool n t}.insertMp t c n

/-- `prev = exchange(head, n)` with `n->next = NULL` before it. -/
def exchange (s : State τ κ δ) (t : τ) (i : Loc τ κ) (n : Qnode τ κ) (k : Then κ δ) : State τ κ δ :=
  {s with
    next := Function.update s.next n none
    head := Function.update s.head i n
    inserted := match i with
      | .queue q => Function.update s.inserted q (s.inserted q ++ [s.data n])
      | .pool _ => s.inserted
    stubIn := match k with
      | .swung _ _ => Function.update s.stubIn t true
      | _ => s.stubIn}.goto t (.link (s.head i) n k)

/-- What comes after `_qnode_pool_insert` or the end of `_lthread_queue_insert_mp`. -/
def resume : Then κ δ → Pc τ κ δ
  | .swung c again => .after c again
  | .refilled c i => .refill c i
  | .freed => .idle
  | .inserted => .idle

/-- `_pool_remove` from where the tail is not the stub. -/
def removeTail (s : State τ κ δ) (t : τ) (c : Insert κ δ) (again : Bool) : State τ κ δ :=
  match s.next (s.tail (.pool t)) with
  | some n => (s.advance (.pool t) n).obtained t c (s.tail (.pool t))
  | none => s.goto t (.look c again)

/-- `_pool_remove` -/
def poolRemove (s : State τ κ δ) (t : τ) (c : Insert κ δ) (again : Bool) : State τ κ δ :=
  if s.tail (.pool t) = .stub t then
    match s.next (.stub t) with
    | none => s.goto t (.retry c again)
    | some n => {s.advance (.pool t) n with stubIn := Function.update s.stubIn t false}.goto t (.second c again)
  else s.removeTail t c again

/-- `_qnode_alloc` with nothing left in the pool. -/
def refill (preAlloc : Nat) (s : State τ κ δ) (t : τ) (mem : Bool) (c : Insert κ δ) (i : Nat) : State τ κ δ :=
  if i < preAlloc then
    if mem then
      {s with brk := s.brk + 1, pool := Function.update s.pool (.cell s.brk) t}.goto t
        (.put (.pool t) (.cell s.brk) (.refilled c (i + 1)))
    else s.goto t .idle
  else s.goto t (.remove c true)

/-- `_qnode_free` -/
def qnodeFree (s : State τ κ δ) (t : τ) (n : Qnode τ κ) : State τ κ δ :=
  if s.fastAlloc (s.pool n) ≠ none ∨ s.pool n ≠ t then s.goto t (.put (.pool (s.pool n)) n .freed)
  else {s with fastAlloc := Function.update s.fastAlloc (s.pool n) (some n)}.goto t .idle

/-- A step of scheduler `t`. -/
def go (preAlloc : Nat) (s : State τ κ δ) (t : τ) (mem : Bool) : Pc τ κ δ → Option (State τ κ δ)
  | .idle => none
  | .remove c again => some (s.poolRemove t c again)
  | .second c again => some (s.removeTail t c again)
  -- the comparison is the wrong way round: the stub goes in while somebody is inserting
  | .look c again =>
    some (s.goto t (if s.tail (.pool t) = s.head (.pool t) then .retry c again
      else .put (.pool t) (.stub t) (.swung c again)))
  | .after c again =>
    match s.next (s.tail (.pool t)) with
    | some n => some ((s.advance (.pool t) n).obtained t c (s.tail (.pool t)))
    | none => some (s.goto t (.retry c again))
  | .retry c again =>
    if s.head (.pool t) ≠ s.tail (.pool t) ∧ s.tail (.pool t) ≠ .stub t then some (s.goto t (.remove c again))
    -- `n->pool = p` with `n` NULL
    else some (s.goto t (if again then .crashed else .refill c 0))
  | .refill c i => some (s.refill preAlloc t mem c i)
  | .take q tail next =>
    some ({s.advance (.queue q) next with
      data := Function.update s.data tail (s.data next)
      polled := Function.update s.polled q (s.polled q ++ [s.data next])}.goto t (.free tail))
  | .free n => some (s.qnodeFree t n)
  | .put i n k => some (s.exchange t i n k)
  | .link prev n k => some ({s with next := Function.update s.next prev (some n)}.goto t (resume k))
  | .crashed => none

def step (preAlloc : Nat) (s : State τ κ δ) : Act τ κ δ → Option (State τ κ δ)
  | .insert t q data =>
    match s.pc t with
    | .idle =>
      match s.fastAlloc t with
      | some n => some ({s with fastAlloc := Function.update s.fastAlloc t none}.insertMp t ⟨q, data⟩ n)
      | none => some (s.goto t (.remove ⟨q, data⟩ false))
    | _ => none
  | .poll t q =>
    match s.pc t with
    | .idle =>
      match s.next (s.tail (.queue q)) with
      | some n => some (s.goto t (.take q (s.tail (.queue q)) n))
      | none => some s
    | _ => none
  | .go t mem => s.go preAlloc t mem (s.pc t)

/-- A queue is polled by one at a time, and no stub is put in that is in already. -/
def Orderly (s : State τ κ δ) : Act τ κ δ → Prop
  | .insert _ _ _ => True
  | .poll _ q => ∀ u, (s.pc u).polls q = false
  | .go t _ => (s.pc t).looks = true → s.tail (.pool t) = s.head (.pool t) ∨ s.stubIn t = false

instance [Fintype τ] (s : State τ κ δ) : (a : Act τ κ δ) → Decidable (s.Orderly a)
  | .insert _ _ _ => isTrue trivial
  | .poll _ q => inferInstanceAs (Decidable (∀ u, (s.pc u).polls q = false))
  | .go t _ => inferInstanceAs (Decidable ((s.pc t).looks = true → _ ∨ _))

end State
end Susanow.Lthread
