import Mathlib.Logic.Function.Basic
import Mathlib.Order.Defs.Unbundled

/-! Calls that may not return.

A method called on an object of type `σ` either returns a value, or ends in an
exception — the object then keeps whatever was written before the throw — or
leaves what the language defines (`Crash`). `Proc` is that shape as a monad, so
a method body reads line by line; `forRange` is its counting loop.

Three triples say what a call does. `Returns` is total: the call returns, and the
result satisfies the postcondition. `Meets` is partial: the postcondition holds
if the call returns, another one if it throws, and a crash is not spoken of.
`ReturnsIff` is exact: the call returns under one condition and no other. -/
namespace Susanow

/-- How a call leaves the defined behaviour of the language. -/
inductive Crash
  | nullPointer
  | danglingPointer
  | outOfBounds
  | divisionByZero
  -- by the width of the shifted type or more
  | shift
  | assertion
  deriving DecidableEq, Repr

inductive Outcome (σ α : Type) where
  | ret (a : α) (s : σ)
  | throws (what : String) (s : σ)
  | crash (c : Crash)
  deriving DecidableEq, Repr

def Proc (σ α : Type) := σ → Outcome σ α

/-- What was returned, and the state it was returned in. -/
def Outcome.ret? {σ α : Type} : Outcome σ α → Option (α × σ)
  | .ret a s => some (a, s)
  | _ => none

theorem Outcome.eq_ret_of_ret? {σ α : Type} {o : Outcome σ α} {a : α} {s : σ} (h : o.ret? = some (a, s)) :
    o = .ret a s := by
  cases o with
  | ret b t =>
    cases h
    rfl
  | throws w t => cases h
  | crash c => cases h

/-- How the call left the defined behaviour, if it did. -/
def Outcome.crash? {σ α : Type} : Outcome σ α → Option Crash
  | .crash c => some c
  | _ => none

theorem Outcome.eq_crash_of_crash? {σ α : Type} {o : Outcome σ α} {c : Crash} (h : o.crash? = some c) :
    o = .crash c := by
  cases o with
  | ret a s => cases h
  | throws w s => cases h
  | crash d =>
    cases h
    rfl

/-- What a call leaves, returned or thrown. -/
def Outcome.state? {σ α : Type} : Outcome σ α → Option σ
  | .ret _ s => some s
  | .throws _ s => some s
  | .crash _ => none

theorem Outcome.of_state? {σ α : Type} {o : Outcome σ α} {s : σ} (h : o.state? = some s) :
    (∃ a, o = .ret a s) ∨ ∃ what, o = .throws what s := by
  cases o with
  | ret a t =>
    cases h
    exact .inl ⟨a, rfl⟩
  | throws w t =>
    cases h
    exact .inr ⟨w, rfl⟩
  | crash c => cases h

namespace Proc
variable {σ τ α β : Type}

def bind (p : Proc σ α) (f : α → Proc σ β) : Proc σ β := fun s =>
  match p s with
  | .ret a s' => f a s'
  | .throws w s' => .throws w s'
  | .crash c => .crash c

instance : Monad (Proc σ) where
  pure a := fun s => .ret a s
  bind := bind

def get : Proc σ σ := fun s => .ret s s

def set (s : σ) : Proc σ Unit := fun _ => .ret () s

def modify (f : σ → σ) : Proc σ Unit := fun s => .ret () (f s)

def throw (what : String) : Proc σ α := fun s => .throws what s

def crash (c : Crash) : Proc σ α := fun _ => .crash c

/-- A call on a part of the object: `view` reads the part, `put` writes it back. -/
def zoom (view : σ → τ) (put : σ → τ → σ) (p : Proc τ α) : Proc σ α := fun s =>
  match p (view s) with
  | .ret a t => .ret a (put s t)
  | .throws w t => .throws w (put s t)
  | .crash c => .crash c

/-- A call on a new object, which the caller keeps. -/
def fresh (t : τ) (p : Proc τ Unit) : Proc σ τ := fun s =>
  match p t with
  | .ret _ t' => .ret t' s
  | .throws w _ => .throws w s
  | .crash c => .crash c

/-- `try { p } catch (std::exception& e) { h(e.what()) }` -/
def catching (p : Proc σ α) (h : String → Proc σ α) : Proc σ α := fun s =>
  match p s with
  | .ret a s' => .ret a s'
  | .throws w s' => h w s'
  | .crash c => .crash c

/-- `for (size_t i=0; i<n; i++) f(i)` -/
def forRange (f : Nat → Proc σ Unit) : Nat → Proc σ Unit
  | 0 => pure ()
  | n + 1 => do
    forRange f n
    f n

/-! ### What a call computes -/

@[simp] theorem pure_run (a : α) (s : σ) : (pure a : Proc σ α) s = .ret a s := rfl
@[simp] theorem get_run (s : σ) : (get : Proc σ σ) s = .ret s s := rfl
@[simp] theorem set_run (s t : σ) : set s t = .ret () s := rfl
@[simp] theorem modify_run (f : σ → σ) (s : σ) : modify f s = .ret () (f s) := rfl
@[simp] theorem throw_run (w : String) (s : σ) : (throw w : Proc σ α) s = .throws w s := rfl
@[simp] theorem crash_run (c : Crash) (s : σ) : (crash c : Proc σ α) s = .crash c := rfl

theorem bind_run (p : Proc σ α) (f : α → Proc σ β) (s : σ) :
    (p >>= f) s = match p s with
      | .ret a s' => f a s'
      | .throws w s' => .throws w s'
      | .crash c => .crash c := rfl

theorem bind_ret {p : Proc σ α} {f : α → Proc σ β} {s s' : σ} {a : α} (h : p s = .ret a s') :
    (p >>= f) s = f a s' := by
  rw [bind_run, h]

theorem bind_throws {p : Proc σ α} {f : α → Proc σ β} {s s' : σ} {w : String}
    (h : p s = .throws w s') : (p >>= f) s = .throws w s' := by
  rw [bind_run, h]

theorem bind_crash {p : Proc σ α} {f : α → Proc σ β} {s : σ} {c : Crash} (h : p s = .crash c) :
    (p >>= f) s = .crash c := by
  rw [bind_run, h]

/-- A composition that returns went through both parts. -/
theorem bind_eq_ret {p : Proc σ α} {f : α → Proc σ β} {s t : σ} {b : β}
    (h : (p >>= f) s = .ret b t) : ∃ a s', p s = .ret a s' ∧ f a s' = .ret b t := by
  cases hrun : p s with
  | ret a s' => exact ⟨a, s', rfl, by rwa [bind_ret hrun] at h⟩
  | throws w s' => rw [bind_throws hrun] at h; cases h
  | crash c => rw [bind_crash hrun] at h; cases h

@[simp] theorem get_bind (f : σ → Proc σ β) (s : σ) : (get >>= f) s = f s s := rfl
@[simp] theorem pure_bind (a : α) (f : α → Proc σ β) (s : σ) :
    ((pure a : Proc σ α) >>= f) s = f a s := rfl
@[simp] theorem set_bind (t : σ) (f : Unit → Proc σ β) (s : σ) : (set t >>= f) s = f () t := rfl
@[simp] theorem modify_bind (g : σ → σ) (f : Unit → Proc σ β) (s : σ) :
    (modify g >>= f) s = f () (g s) := rfl

theorem ite_run (P : Prop) [Decidable P] (p q : Proc σ α) (s : σ) :
    (if P then p else q) s = if P then p s else q s := by
  split <;> rfl

@[simp] theorem forRange_zero (f : Nat → Proc σ Unit) (s : σ) : forRange f 0 s = .ret () s := rfl

theorem forRange_succ (f : Nat → Proc σ Unit) (n : Nat) :
    forRange f (n + 1) = forRange f n >>= fun _ => f n := rfl

/-- A loop that crashes in its first rounds crashes. -/
theorem forRange_crash {f : Nat → Proc σ Unit} {k n : Nat} (hk : k ≤ n) {s : σ} {c : Crash}
    (h : forRange f k s = .crash c) : forRange f n s = .crash c := by
  induction hk with
  | refl => exact h
  | step _ ih => rw [forRange_succ, bind_crash ih]

/-! ### Calls that return -/

/-- The call returns, and its result satisfies `Q`. -/
def Returns (p : Proc σ α) (s : σ) (Q : α → σ → Prop) : Prop :=
  ∃ a s', p s = .ret a s' ∧ Q a s'

theorem Returns.weaken {p : Proc σ α} {s : σ} {Q R : α → σ → Prop} (h : Returns p s Q)
    (hQ : ∀ a s', Q a s' → R a s') : Returns p s R := by
  obtain ⟨a, s', hp, hq⟩ := h
  exact ⟨a, s', hp, hQ a s' hq⟩

theorem returns_pure {a : α} {s : σ} {Q : α → σ → Prop} (h : Q a s) :
    Returns (pure a : Proc σ α) s Q :=
  ⟨a, s, rfl, h⟩

theorem returns_bind {p : Proc σ α} {f : α → Proc σ β} {s : σ} {Q : α → σ → Prop}
    {R : β → σ → Prop} (hp : Returns p s Q) (hf : ∀ a s', Q a s' → Returns (f a) s' R) :
    Returns (p >>= f) s R := by
  obtain ⟨a, s', hrun, hq⟩ := hp
  obtain ⟨b, s'', hrun', hr⟩ := hf a s' hq
  exact ⟨b, s'', by rw [bind_ret hrun, hrun'], hr⟩

/-- The loop rule: `I k` holds before round `k`, and every round returns. -/
theorem returns_forRange {f : Nat → Proc σ Unit} {n : Nat} {s : σ} (I : Nat → σ → Prop)
    (h0 : I 0 s) (hstep : ∀ k < n, ∀ t, I k t → Returns (f k) t fun _ t' => I (k + 1) t') :
    Returns (forRange f n) s fun _ t => I n t := by
  induction n with
  | zero => exact ⟨(), s, rfl, h0⟩
  | succ n ih =>
    rw [forRange_succ]
    exact returns_bind (ih fun k hk => hstep k (Nat.lt_succ_of_lt hk))
      fun _ t ht => hstep n (Nat.lt_succ_self n) t ht

/-! ### Calls that may throw or crash -/

/-- If the call returns, `Q`; if it throws, `E` of what it leaves. -/
def Meets (p : Proc σ α) (s : σ) (Q : α → σ → Prop) (E : σ → Prop) : Prop :=
  (∀ a s', p s = .ret a s' → Q a s') ∧ ∀ w s', p s = .throws w s' → E s'

theorem Meets.state? {p : Proc σ α} {s s' : σ} {E : σ → Prop} (h : Meets p s (fun _ => E) E)
    (hs : (p s).state? = some s') : E s' := by
  obtain ⟨a, hrun⟩ | ⟨w, hrun⟩ := Outcome.of_state? hs
  · exact h.1 a s' hrun
  · exact h.2 w s' hrun

variable {E : σ → Prop}

theorem meets_pure {a : α} {s : σ} {Q : α → σ → Prop} (h : Q a s) :
    Meets (pure a : Proc σ α) s Q E := by
  refine ⟨fun b s' hb => ?_, fun w s' hw => ?_⟩
  · cases hb
    exact h
  · cases hw

theorem meets_get {s : σ} {Q : σ → σ → Prop} (h : Q s s) : Meets (get : Proc σ σ) s Q E := by
  refine ⟨fun b s' hb => ?_, fun w s' hw => ?_⟩
  · cases hb
    exact h
  · cases hw

theorem meets_modify {g : σ → σ} {s : σ} {Q : Unit → σ → Prop} (h : Q () (g s)) :
    Meets (modify g) s Q E := by
  refine ⟨fun b s' hb => ?_, fun w s' hw => ?_⟩
  · cases hb
    exact h
  · cases hw

theorem meets_throw {w : String} {s : σ} {Q : α → σ → Prop} (h : E s) :
    Meets (throw w : Proc σ α) s Q E := by
  refine ⟨fun b s' hb => ?_, fun w s' hw => ?_⟩
  · cases hb
  · cases hw
    exact h

theorem meets_crash {c : Crash} {s : σ} {Q : α → σ → Prop} :
    Meets (crash c : Proc σ α) s Q E := by
  refine ⟨fun b s' hb => ?_, fun w s' hw => ?_⟩
  · cases hb
  · cases hw

theorem meets_bind {p : Proc σ α} {f : α → Proc σ β} {s : σ} {Q : α → σ → Prop}
    {R : β → σ → Prop} (hp : Meets p s Q E) (hf : ∀ a s', Q a s' → Meets (f a) s' R E) :
    Meets (p >>= f) s R E := by
  cases hrun : p s with
  | ret a s' =>
    have h := hf a s' (hp.1 a s' hrun)
    refine ⟨fun b t hb => h.1 b t ?_, fun w t hw => h.2 w t ?_⟩
    · rw [← hb, bind_ret hrun]
    · rw [← hw, bind_ret hrun]
  | throws w s' =>
    refine ⟨fun b t hb => ?_, fun v t hv => ?_⟩
    · rw [bind_throws hrun] at hb
      cases hb
    · rw [bind_throws hrun] at hv
      cases hv
      exact hp.2 w s' hrun
  | crash c =>
    refine ⟨fun b t hb => ?_, fun v t hv => ?_⟩
    · rw [bind_crash hrun] at hb
      cases hb
    · rw [bind_crash hrun] at hv
      cases hv

theorem Meets.weaken {p : Proc σ α} {s : σ} {Q R : α → σ → Prop} (h : Meets p s Q E)
    (hQ : ∀ a s', Q a s' → R a s') : Meets p s R E :=
  ⟨fun a s' hp => hQ a s' (h.1 a s' hp), h.2⟩

/-- The loop rule: `I k` holds before round `k`, if the rounds before it return. -/
theorem meets_forRange {f : Nat → Proc σ Unit} {n : Nat} {s : σ} (I : Nat → σ → Prop) (h0 : I 0 s)
    (hstep : ∀ k < n, ∀ t, I k t → Meets (f k) t (fun _ t' => I (k + 1) t') E) :
    Meets (forRange f n) s (fun _ t => I n t) E := by
  induction n with
  | zero => exact meets_pure h0
  | succ n ih =>
    rw [forRange_succ]
    exact meets_bind (ih fun k hk => hstep k (Nat.lt_succ_of_lt hk)) fun _ t ht => hstep n (Nat.lt_succ_self n) t ht

theorem meets_zoom {view : σ → τ} {put : σ → τ → σ} {p : Proc τ α} {s : σ}
    {Q : α → σ → Prop} (h : Meets p (view s) (fun a t => Q a (put s t)) fun t => E (put s t)) :
    Meets (zoom view put p) s Q E := by
  unfold Meets zoom
  cases hrun : p (view s) with
  | ret a t =>
    refine ⟨fun b s' hb => ?_, fun w s' hw => ?_⟩
    · cases hb
      exact h.1 a t hrun
    · cases hw
  | throws w t =>
    refine ⟨fun b s' hb => ?_, fun v s' hv => ?_⟩
    · cases hb
    · cases hv
      exact h.2 w t hrun
  | crash c =>
    refine ⟨fun b s' hb => ?_, fun v s' hv => ?_⟩
    · cases hb
    · cases hv

theorem meets_fresh {t : τ} {p : Proc τ Unit} {s : σ} {Q : τ → σ → Prop}
    (h : Meets p t (fun _ t' => Q t' s) fun _ => E s) : Meets (fresh t p) s Q E := by
  unfold Meets fresh
  cases hrun : p t with
  | ret a t' =>
    refine ⟨fun b s' hb => ?_, fun w s' hw => ?_⟩
    · cases hb
      exact h.1 a t' hrun
    · cases hw
  | throws w t' =>
    refine ⟨fun b s' hb => ?_, fun v s' hv => ?_⟩
    · cases hb
    · cases hv
      exact h.2 w t' hrun
  | crash c =>
    refine ⟨fun b s' hb => ?_, fun v s' hv => ?_⟩
    · cases hb
    · cases hv

theorem meets_of_ret {p : Proc σ α} {s t : σ} {a : α} {Q : α → σ → Prop} (h : p s = .ret a t) (hq : Q a t) :
    Meets p s Q E := by
  unfold Meets
  rw [h]
  exact ⟨fun b u hb => by cases hb; exact hq, nofun⟩

theorem meets_of_crash {p : Proc σ α} {s : σ} {c : Crash} {Q : α → σ → Prop} (h : p s = .crash c) :
    Meets p s Q E := by
  unfold Meets
  rw [h]
  exact ⟨nofun, nofun⟩

/-- A first part of which it is known only that it was run. -/
theorem meets_bind_of_ret {p : Proc σ α} {f : α → Proc σ β} {s : σ} {R : β → σ → Prop}
    (hE : ∀ w s', p s = .throws w s' → E s') (hf : ∀ a s', p s = .ret a s' → Meets (f a) s' R E) :
    Meets (p >>= f) s R E :=
  meets_bind (Q := fun a s' => p s = .ret a s') ⟨fun _ _ h => h, hE⟩ hf

/-- A first part whose result is known. -/
theorem meets_bind_ret {p : Proc σ α} {f : α → Proc σ β} {s s' : σ} {a : α} {Q : β → σ → Prop}
    (hp : p s = .ret a s') (h : Meets (f a) s' Q E) : Meets (p >>= f) s Q E := by
  unfold Meets
  rw [bind_ret hp]
  exact h

theorem meets_bind_crash {p : Proc σ α} {f : α → Proc σ β} {s : σ} {c : Crash} {Q : β → σ → Prop}
    (hp : p s = .crash c) : Meets (p >>= f) s Q E := by
  refine ⟨fun b t hb => ?_, fun w t hw => ?_⟩
  · rw [bind_crash hp] at hb
    cases hb
  · rw [bind_crash hp] at hw
    cases hw

theorem meets_get_bind {f : σ → Proc σ β} {s : σ} {Q : β → σ → Prop} (h : Meets (f s) s Q E) :
    Meets (get >>= f) s Q E := h

theorem meets_catching {p : Proc σ α} {h : String → Proc σ α} {s : σ} {Q : α → σ → Prop}
    {E' : σ → Prop} (hp : Meets p s Q E') (hh : ∀ w s', E' s' → Meets (h w) s' Q E) :
    Meets (catching p h) s Q E := by
  unfold Meets catching
  cases hrun : p s with
  | ret a t =>
    refine ⟨fun b s' hb => ?_, fun w s' hw => ?_⟩
    · cases hb
      exact hp.1 a t hrun
    · cases hw
  | throws w t => exact hh w t (hp.2 w t hrun)
  | crash c =>
    refine ⟨fun b s' hb => ?_, fun v s' hv => ?_⟩
    · cases hb
    · cases hv

/-! ### Calls within a relation -/

/-- However the call ends, `R` holds between what the object was and what it is. -/
def Within (R : σ → σ → Prop) (p : Proc σ α) : Prop := ∀ s, Meets p s (fun _ => R s) (R s)

/-- What `view` shows of the object is what it was. -/
abbrev Keeps (view : σ → τ) (p : Proc σ α) : Prop := Within (fun s s' => view s' = view s) p

/-- What `I` says of the object stays true. -/
abbrev Preserves (I : σ → Prop) (p : Proc σ α) : Prop := Within (fun s s' => I s → I s') p

instance (view : σ → τ) : IsPreorder σ fun s s' => view s' = view s where
  refl _ := rfl
  trans _ _ _ h h' := h'.trans h

instance (I : σ → Prop) : IsPreorder σ fun s s' => I s → I s' where
  refl _ h := h
  trans _ _ _ h h' := h' ∘ h

theorem Returns.preserves {I : σ → Prop} {p : Proc σ α} {s : σ} {Q : α → σ → Prop} (h : Returns p s Q)
    (hp : Preserves I p) (hs : I s) : Returns p s fun a s' => Q a s' ∧ I s' := by
  obtain ⟨a, s', hrun, hq⟩ := h
  exact ⟨a, s', hrun, hq, (hp s).1 a s' hrun hs⟩

section Within
variable {R : σ → σ → Prop}

theorem within_crash (c : Crash) : Within R (crash c : Proc σ α) := fun _ => meets_crash

theorem within_modify {g : σ → σ} (h : ∀ s, R s (g s)) : Within R (modify g) :=
  fun s => meets_modify (h s)

theorem within_ite {P : Prop} [Decidable P] {p q : Proc σ α} (hp : Within R p)
    (hq : Within R q) : Within R (if P then p else q) := by
  split
  · exact hp
  · exact hq

theorem within_zoom {look : σ → τ} {put : σ → τ → σ} {p : Proc τ α}
    (h : ∀ s t, R s (put s t)) : Within R (zoom look put p) :=
  fun s => meets_zoom ⟨fun _ t _ => h s t, fun _ t _ => h s t⟩

variable [IsPreorder σ R]

theorem within_pure (a : α) : Within R (pure a : Proc σ α) := fun s => meets_pure (refl_of R s)

theorem within_get : Within R (get : Proc σ σ) := fun s => meets_get (refl_of R s)

theorem within_throw (w : String) : Within R (throw w : Proc σ α) := fun s => meets_throw (refl_of R s)

theorem meets_bind_within {p : Proc σ α} {f : α → Proc σ β} {s : σ}
    (hp : Meets p s (fun _ => R s) (R s)) (hf : ∀ a, Within R (f a)) :
    Meets (p >>= f) s (fun _ => R s) (R s) :=
  meets_bind hp fun a s' hs => ⟨fun b t hb => trans_of R hs ((hf a s').1 b t hb),
    fun w t hw => trans_of R hs ((hf a s').2 w t hw)⟩

theorem within_bind {p : Proc σ α} {f : α → Proc σ β} (hp : Within R p)
    (hf : ∀ a, Within R (f a)) : Within R (p >>= f) :=
  fun s => meets_bind_within (hp s) hf

theorem within_forRange_lt {f : Nat → Proc σ Unit} {n : Nat} (hf : ∀ k < n, Within R (f k)) :
    Within R (forRange f n) := by
  induction n with
  | zero => exact within_pure ()
  | succ n ih =>
    exact within_bind (ih fun k hk => hf k (Nat.lt_succ_of_lt hk)) fun _ => hf n (Nat.lt_succ_self n)

theorem within_forRange {f : Nat → Proc σ Unit} {n : Nat} (hf : ∀ k, Within R (f k)) :
    Within R (forRange f n) :=
  within_forRange_lt fun k _ => hf k

theorem within_fresh {t : τ} {p : Proc τ Unit} : Within R (fresh t p : Proc σ τ) :=
  fun s => meets_fresh ⟨fun _ _ _ => refl_of R s, fun _ _ _ => refl_of R s⟩

end Within

variable {view : σ → τ}

/-- A call that keeps the view may come before a call whose result speaks of the view only. -/
theorem Keeps.bind {p : Proc σ α} {f : α → Proc σ β} {s : σ} {R : τ → τ → Prop}
    (hp : Keeps view p) (hr : ∀ t, R t t)
    (hf : ∀ a s', p s = .ret a s' →
      Meets (f a) s' (fun _ t => R (view s') (view t)) fun t => R (view s') (view t)) :
    Meets (p >>= f) s (fun _ t => R (view s) (view t)) fun t => R (view s) (view t) := by
  refine meets_bind_of_ret (fun w s' h => ?_) fun a s' h => ?_
  · rw [(hp s).2 w s' h]
    exact hr _
  · rw [← (hp s).1 a s' h]
    exact hf a s' h

/-! ### Calls that do not return -/

/-- The call does not return. -/
def Stuck (p : Proc σ α) (s : σ) : Prop := ∀ a s', p s ≠ .ret a s'

theorem Stuck.bind {p : Proc σ α} {s : σ} (h : Stuck p s) (f : α → Proc σ β) : Stuck (p >>= f) s := by
  intro b t hrun
  obtain ⟨a, s', hp, -⟩ := bind_eq_ret hrun
  exact h a s' hp

theorem stuck_bind {p : Proc σ α} {f : α → Proc σ β} {s : σ}
    (h : ∀ a s', p s = .ret a s' → Stuck (f a) s') : Stuck (p >>= f) s := by
  intro b t hrun
  obtain ⟨a, s', hp, hf⟩ := bind_eq_ret hrun
  exact h a s' hp b t hf

/-- A loop does not get past a round that never returns. -/
theorem stuck_forRange (view : σ → τ) {f : Nat → Proc σ Unit} {k n : Nat} (hk : k < n) {s : σ}
    (hkeep : ∀ i, Keeps view (f i)) (h : ∀ t, view t = view s → Stuck (f k) t) : Stuck (forRange f n) s := by
  induction n with
  | zero => exact absurd hk (Nat.not_lt_zero k)
  | succ n ih =>
    rw [forRange_succ]
    rcases Nat.lt_succ_iff_lt_or_eq.mp hk with hlt | rfl
    · exact (ih hlt).bind _
    · apply stuck_bind
      intro _ t hrun
      exact h t ((within_forRange hkeep s).1 () t hrun)

/-! ### Calls that return under one condition -/

theorem Returns.of_ret {p : Proc σ α} {s t : σ} {a : α} {Q : α → σ → Prop} (h : Returns p s Q)
    (hp : p s = .ret a t) : Q a t := by
  obtain ⟨b, u, hrun, hq⟩ := h
  rw [hp] at hrun
  cases hrun
  exact hq

/-- The call returns if `F` and not otherwise; when it returns, `Q`. -/
structure ReturnsIff (p : Proc σ α) (s : σ) (F : Prop) (Q : α → σ → Prop) : Prop where
  returns : F → Returns p s Q
  stuck : ¬F → Stuck p s

section ReturnsIff
variable {p : Proc σ α} {f : α → Proc σ β} {s : σ} {F G : Prop} {Q : α → σ → Prop} {R : β → σ → Prop}

theorem ReturnsIff.iff (h : ReturnsIff p s F Q) : (∃ a t, p s = .ret a t) ↔ F := by
  refine ⟨fun ⟨a, t, hrun⟩ => ?_, fun hF => ?_⟩
  · by_contra hF
    exact h.stuck hF a t hrun
  · obtain ⟨a, t, hrun, -⟩ := h.returns hF
    exact ⟨a, t, hrun⟩

theorem ReturnsIff.congr (h : ReturnsIff p s F Q) (hF : F ↔ G) : ReturnsIff p s G Q :=
  ⟨fun hg => h.returns (hF.mpr hg), fun hg => h.stuck (mt hF.mp hg)⟩

theorem ReturnsIff.weaken {Q' : α → σ → Prop} (h : ReturnsIff p s F Q) (hQ : ∀ a t, Q a t → Q' a t) :
    ReturnsIff p s F Q' :=
  ⟨fun hF => (h.returns hF).weaken hQ, h.stuck⟩

theorem ReturnsIff.meets {E : σ → Prop} (h : ReturnsIff p s F Q) (hE : ∀ t, E t) :
    Meets p s (fun a t => F ∧ Q a t) E := by
  refine ⟨fun a t hrun => ?_, fun _ t _ => hE t⟩
  have hF : F := h.iff.mp ⟨a, t, hrun⟩
  exact ⟨hF, (h.returns hF).of_ret hrun⟩

theorem returnsIff_of_ret {a : α} {t : σ} (h : p s = .ret a t) (hq : Q a t) : ReturnsIff p s True Q :=
  ⟨fun _ => ⟨a, t, h, hq⟩, fun hF => absurd trivial hF⟩

theorem ReturnsIff.bind (hp : ReturnsIff p s F Q) (hf : ∀ a t, Q a t → ReturnsIff (f a) t G R) :
    ReturnsIff (p >>= f) s (F ∧ G) R where
  returns := fun ⟨hF, hG⟩ => returns_bind (hp.returns hF) fun a t hq => (hf a t hq).returns hG
  stuck hn := by
    by_cases hF : F
    · apply stuck_bind
      intro a t hrun
      exact (hf a t ((hp.returns hF).of_ret hrun)).stuck fun hG => hn ⟨hF, hG⟩
    · exact (hp.stuck hF).bind f

/-- A first part whose result is known. -/
theorem returnsIff_bind_ret {a : α} {t : σ} (h : p s = .ret a t) (hf : ReturnsIff (f a) t F R) :
    ReturnsIff (p >>= f) s F R := by
  refine ⟨fun hF => ?_, fun hF b u hrun => ?_⟩
  · obtain ⟨b, u, hrun, hr⟩ := hf.returns hF
    exact ⟨b, u, by rw [bind_ret h, hrun], hr⟩
  · rw [bind_ret h] at hrun
    exact hf.stuck hF b u hrun

theorem returnsIff_zoom {look : σ → τ} {put : σ → τ → σ} {q : Proc τ α}
    (h : ReturnsIff q (look s) F fun a t => Q a (put s t)) : ReturnsIff (zoom look put q) s F Q where
  returns hF := by
    obtain ⟨a, t, hrun, hq⟩ := h.returns hF
    exact ⟨a, put s t, by simp only [zoom, hrun], hq⟩
  stuck hF a t hrun := by
    unfold zoom at hrun
    split at hrun
    · next hq => exact h.stuck hF _ _ hq
    · cases hrun
    · cases hrun

/-- The loop returns if every round does, which no round before it has a part in. -/
theorem returnsIff_forRange {f : Nat → Proc σ Unit} {n : Nat} (I : Nat → σ → Prop) (F : Nat → Prop) (h0 : I 0 s)
    (hstep : ∀ k < n, ∀ t, I k t → ReturnsIff (f k) t (F k) fun _ t' => I (k + 1) t') :
    ReturnsIff (forRange f n) s (∀ k < n, F k) fun _ t => I n t := by
  induction n with
  | zero =>
    have hrun : forRange f 0 s = .ret () s := rfl
    exact (returnsIff_of_ret hrun h0).congr (iff_of_true trivial fun k hk => absurd hk (Nat.not_lt_zero k))
  | succ n ih =>
    rw [forRange_succ]
    have hbefore := ih fun k hk => hstep k (Nat.lt_succ_of_lt hk)
    refine (hbefore.bind fun _ t ht => hstep n (Nat.lt_succ_self n) t ht).congr ?_
    constructor
    · rintro ⟨hlt, hn⟩ k hk
      rcases Nat.lt_succ_iff_lt_or_eq.mp hk with hk | rfl
      · exact hlt k hk
      · exact hn
    · exact fun h => ⟨fun k hk => h k (Nat.lt_succ_of_lt hk), h n (Nat.lt_succ_self n)⟩

end ReturnsIff

end Proc

end Susanow
