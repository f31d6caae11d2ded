import Mathlib.Tactic.SplitIfs
import Susanow.Base.Proc

/-! Native threads, one to an lcore.

Every lcore has a slot `snt[lcore]` with a function and its argument, both one
`τ` here. A launch writes the slot and then asks dpdk to start `_fthread_launcher`
on the lcore, which reads the slot when it gets there; dpdk refuses an lcore that
is not waiting. A join waits for the lcore and drops the first entry of `tids`
that names it. -/
namespace Susanow

/-- Where a started lcore stands: the slot not yet read; what it held called; the
loop of that function entered. -/
inductive Pc (τ : Type)
  | fetch
  | entered (t : τ)
  | looping (t : τ)
  deriving DecidableEq, Repr

/-- The dpdk state of an lcore, with the launch that started it: an lcore that is
not waiting runs or ran one launched thread that nobody has joined yet. -/
inductive Lcore (τ : Type)
  | wait
  | running (launched : τ) (pc : Pc τ)
  | finished (launched : τ)
  deriving DecidableEq, Repr

def Lcore.launched {τ : Type} : Lcore τ → Option τ
  | .wait => none
  | .running t _ => some t
  | .finished t => some t

/-- The launch that runs on the lcore. -/
def Lcore.runs {τ : Type} : Lcore τ → Option τ
  | .running t _ => some t
  | _ => none

/-- The launch that has still to read the slot of the lcore. -/
def Lcore.unread {τ : Type} : Lcore τ → Option τ
  | .running t .fetch => some t
  | _ => none

def Lcore.isRunning {τ : Type} : Lcore τ → Bool
  | .running _ _ => true
  | _ => false

structure Native (τ : Type) where
  nLcore : Nat
  snt : Nat → Option τ
  tids : List Nat
  lcore : Nat → Lcore τ

namespace Native
variable {τ : Type}

/-- `dpdk::rte_eal_remote_launch(_fthread_launcher, snt[l], l)` -/
def remoteLaunch (t : τ) (l : Nat) : Proc (Native τ) Unit := do
  let n ← Proc.get
  match n.lcore l with
  | .wait => Proc.set {n with lcore := Function.update n.lcore l (.running t .fetch)}
  | _ => Proc.throw "rte_eal_remote_launch"

/-- `ssn_native_thread_launch`: a launch dpdk refuses has changed `tids` and the slot. -/
def nativeLaunch (t : τ) (l : Nat) : Proc (Native τ) Nat := do
  let n ← Proc.get
  if n.nLcore ≤ l then Proc.throw "too huge lcore_id?"
  else
    Proc.set {n with tids := n.tids ++ [l], snt := Function.update n.snt l (some t)}
    remoteLaunch t l
    pure l

/-- `ssn_thread_launch`, where no lcore runs a green thread scheduler: it looks up the state that is
kept of the lcore, also of one that the host does not have. -/
def launch (t : τ) (l : Nat) : Proc (Native τ) Nat :=
  if l = 0 then Proc.throw "ssn_thread_launch: lcore_id is master's id"
  else do
    let n ← Proc.get
    if n.nLcore ≤ l then Proc.crash .outOfBounds else nativeLaunch t l

/-- `rte_eal_wait_lcore` once it has nothing left to wait for. -/
def waitLcore (tid : Nat) : Proc (Native τ) Unit :=
  Proc.modify fun n => {n with lcore := Function.update n.lcore tid .wait}

/-- The second half of a join drops the id. -/
def dropTid (tid : Nat) : Proc (Native τ) Unit := do
  let n ← Proc.get
  if tid ∈ n.tids then Proc.set {n with tids := n.tids.erase tid}
  else Proc.throw ("ssn_native_thread_join: invalid  thread-id tid=" ++ toString tid)

/-- `ssn_native_thread_join` once the lcore has stopped. -/
def join (tid : Nat) : Proc (Native τ) Unit :=
  if tid = 0 then pure ()
  else do
    waitLcore tid
    dropTid tid

/-- The started lcore reads its slot and calls what it finds. -/
def fetch (l : Nat) (n : Native τ) : Option (Native τ) :=
  match n.lcore l, n.snt l with
  | .running t .fetch, some f => some {n with lcore := Function.update n.lcore l (.running t (.entered f))}
  | _, _ => none

/-! ### What launch and join do -/

/-- `tids` and the slot as every launch that reaches dpdk leaves them. -/
def marked (t : τ) (l : Nat) (n : Native τ) : Native τ :=
  {n with tids := n.tids ++ [l], snt := Function.update n.snt l (some t)}

/-- The state after a launch that dpdk accepts. -/
def started (t : τ) (l : Nat) (n : Native τ) : Native τ :=
  {n with tids := n.tids ++ [l], snt := Function.update n.snt l (some t),
          lcore := Function.update n.lcore l (.running t .fetch)}

theorem nativeLaunch_run (t : τ) (l : Nat) (n : Native τ) :
    nativeLaunch t l n =
      if n.nLcore ≤ l then .throws "too huge lcore_id?" n
      else if n.lcore l matches .wait then .ret l (started t l n)
      else .throws "rte_eal_remote_launch" (marked t l n) := by
  simp only [nativeLaunch, Proc.get_bind]
  split
  · rfl
  · cases hl : n.lcore l <;> simp [remoteLaunch, Proc.bind_run, marked, started, hl]

theorem launch_run (t : τ) (l : Nat) (n : Native τ) :
    launch t l n =
      if l = 0 then .throws "ssn_thread_launch: lcore_id is master's id" n
      else if n.nLcore ≤ l then .crash .outOfBounds
      else if n.lcore l matches .wait then
        .ret l (started t l n)
      else .throws "rte_eal_remote_launch" (marked t l n) := by
  unfold launch
  split
  · rfl
  · rw [Proc.get_bind]
    split
    · rfl
    · next hlt => rw [nativeLaunch_run, if_neg hlt]

/-- A launch that returns has started a waiting lcore on its slot. -/
theorem launch_ret {t : τ} {l a : Nat} {n n' : Native τ} (h : launch t l n = .ret a n') :
    a = l ∧ l ≠ 0 ∧ l < n.nLcore ∧ n.lcore l = .wait ∧ n' = started t l n := by
  rw [launch_run] at h
  split_ifs at h with h0 hle hwait
  cases h
  refine ⟨rfl, h0, Nat.not_le.mp hle, ?_, rfl⟩
  cases hl : n.lcore l <;> simp_all

/-- Why a launch on `l` is refused. -/
def Refuses (n : Native τ) (l : Nat) : Prop := l = 0 ∨ l < n.nLcore ∧ n.lcore l ≠ .wait

/-- A launch that throws has started nothing; it may have grown `tids` and overwritten its slot. -/
theorem launch_throws {t : τ} {l : Nat} {w : String} {n n' : Native τ}
    (h : launch t l n = .throws w n') :
    n.Refuses l ∧ (n' = n ∨ n.lcore l ≠ .wait ∧ n' = marked t l n) := by
  rw [launch_run] at h
  split_ifs at h with h0 hle hwait
  · cases h
    exact ⟨.inl h0, .inl rfl⟩
  · cases h
    have hne : n.lcore l ≠ .wait := fun hl => hwait (by simp [hl])
    exact ⟨.inr ⟨Nat.not_le.mp hle, hne⟩, .inr ⟨hne, rfl⟩⟩

theorem launch_crash_iff {t : τ} {l : Nat} {c : Crash} {n : Native τ} :
    launch t l n = .crash c ↔ l ≠ 0 ∧ n.nLcore ≤ l ∧ c = .outOfBounds := by
  rw [launch_run]
  split_ifs with h0 hle hwait
  · simp [h0]
  · simp [h0, hle, eq_comm]
  · simp [hle]
  · simp [hle]

theorem join_of_mem {tid : Nat} {n : Native τ} (h0 : tid ≠ 0) (h : tid ∈ n.tids) :
    join tid n = .ret () {n with lcore := Function.update n.lcore tid .wait,
                                 tids := n.tids.erase tid} := by
  simp [join, waitLcore, dropTid, h0, h]

theorem join_of_not_mem {tid : Nat} {n : Native τ} (h0 : tid ≠ 0) (h : tid ∉ n.tids) :
    ∃ w, join tid n = .throws w {n with lcore := Function.update n.lcore tid .wait} :=
  ⟨_, by simp only [join, waitLcore, dropTid, if_neg h0, Proc.modify_bind, Proc.get_bind, if_neg h]; rfl⟩

theorem fetch_some {l : Nat} {n n' : Native τ} (h : fetch l n = some n') :
    ∃ t f, n.lcore l = .running t .fetch ∧ n.snt l = some f ∧
      n' = {n with lcore := Function.update n.lcore l (.running t (.entered f))} := by
  unfold fetch at h
  split at h
  · next t f hl hs =>
    cases h
    exact ⟨t, f, hl, hs, rfl⟩
  · cases h

end Native

end Susanow
