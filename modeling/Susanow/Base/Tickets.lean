import Mathlib.Data.Set.Function
import Mathlib.Order.Interval.Set.LinearOrder

/-! Ids drawn from a counter.

Each holder draws the counter's value and moves the counter on by one. What the holders
have stored is then a numbering of them: a bijection onto the ids the counter has gone
over. Of holders that come and go no more is left than that no two have the same id. -/
namespace Susanow
variable {α : Type}

/-- `f` numbers the holders: one id below `c` to each, and none is left over. -/
def Numbers (f : α → Option Nat) (holders : Set α) (c : Nat) : Prop := Set.BijOn f holders (some '' Set.Iio c)

theorem numbers_empty (f : α → Option Nat) : Numbers f ∅ 0 := by
  have hnone : Set.Iio 0 = (∅ : Set Nat) := Set.eq_empty_of_forall_notMem fun i hi => Nat.not_lt_zero i hi
  rw [Numbers, hnone, Set.image_empty]
  exact Set.bijOn_empty f

theorem Numbers.congr {f g : α → Option Nat} {holders : Set α} {c : Nat} (h : Numbers f holders c)
    (hg : ∀ w ∈ holders, g w = f w) : Numbers g holders c :=
  Set.BijOn.congr h fun w hw => (hg w hw).symm

/-- The holders were dealt the ids from `a` on and below `c`. -/
structure Deals (f : α → Option Nat) (holders : Set α) (a c : Nat) : Prop where
  le : a ≤ c
  ids : Set.BijOn f holders (some '' Set.Ico a c)

theorem deals_empty (f : α → Option Nat) (a : Nat) : Deals f ∅ a a := by
  refine ⟨le_rfl, ?_⟩
  rw [Set.Ico_self, Set.image_empty]
  exact Set.bijOn_empty f

namespace Deals
variable {f g : α → Option Nat} {holders : Set α} {a c : Nat}

theorem congr (h : Deals f holders a c) (hg : ∀ w ∈ holders, g w = f w) : Deals g holders a c :=
  ⟨h.le, h.ids.congr fun w hw => (hg w hw).symm⟩

/-- One more holder draws the counter's value. -/
theorem draw (h : Deals f holders a c) {x : α} (hold : ∀ w ∈ holders, g w = f w) (hnew : g x = some c) :
    Deals g (insert x holders) a (c + 1) := by
  have hfresh : g x ∉ some '' Set.Ico a c := by
    simp [hnew]
  have hids : some '' Set.Ico a (c + 1) = insert (g x) (some '' Set.Ico a c) := by
    rw [hnew, ← Set.image_insert_eq, Set.Ico_insert_right h.le]
    congr 1
    ext i
    exact and_congr_right fun _ => Nat.lt_succ_iff
  refine ⟨h.le.trans (Nat.le_succ c), ?_⟩
  rw [hids]
  exact (h.congr hold).ids.insert hfresh

end Deals

/-- Each holder has an id from `a` on and below `c`, and no two have the same. Ids may be left over. -/
structure Tickets (f : α → Option Nat) (holders : Set α) (a c : Nat) : Prop where
  range : Set.MapsTo f holders (some '' Set.Ico a c)
  inj : Set.InjOn f holders

theorem tickets_empty (f : α → Option Nat) (a c : Nat) : Tickets f ∅ a c :=
  ⟨Set.mapsTo_empty f _, Set.injOn_empty f⟩

theorem Deals.tickets {f : α → Option Nat} {holders : Set α} {a c : Nat} (h : Deals f holders a c) :
    Tickets f holders a c :=
  ⟨h.ids.mapsTo, h.ids.injOn⟩

theorem Numbers.tickets {f : α → Option Nat} {holders : Set α} {c : Nat} (h : Numbers f holders c) :
    Tickets f holders 0 c where
  range w hw := by
    obtain ⟨i, hi, heq⟩ := h.mapsTo hw
    exact ⟨i, ⟨Nat.zero_le i, hi⟩, heq⟩
  inj := h.injOn

namespace Tickets
variable {f g : α → Option Nat} {holders others : Set α} {a b c : Nat}

theorem congr (h : Tickets f holders a c) (hg : ∀ w ∈ holders, g w = f w) : Tickets g holders a c where
  range := h.range.congr fun w hw => (hg w hw).symm
  inj := h.inj.congr fun w hw => (hg w hw).symm

theorem mono (h : Tickets f holders a b) (hbc : b ≤ c) : Tickets f holders a c :=
  ⟨h.range.mono_right (Set.image_mono (Set.Ico_subset_Ico_right hbc)), h.inj⟩

/-- The ids are all below `c`, too. -/
theorem below (h : Tickets f holders a b) (hc : ∀ w ∈ holders, ∀ i ∈ f w, i < c) : Tickets f holders a c where
  range w hw := by
    obtain ⟨i, hi, heq⟩ := h.range hw
    exact ⟨i, ⟨hi.1, hc w hw i heq.symm⟩, heq⟩
  inj := h.inj

theorem subset (h : Tickets f holders a c) (hsub : others ⊆ holders) : Tickets f others a c :=
  ⟨h.range.mono_left hsub, h.inj.mono hsub⟩

/-- Later ids go to others. -/
theorem ne_of_later (h : Tickets f holders a b) (h' : Tickets f others b c) {w u : α} (hw : w ∈ holders)
    (hu : u ∈ others) : f w ≠ f u := by
  intro heq
  obtain ⟨i, hi, hi'⟩ := h.range hw
  obtain ⟨j, hj, hj'⟩ := h'.range hu
  have hij : i = j := Option.some.inj (hi'.trans (heq.trans hj'.symm))
  exact Nat.lt_irrefl b (hj.1.trans_lt (hij ▸ hi.2))

theorem injOn_union (h : Tickets f holders a b) (h' : Tickets f others b c) : Set.InjOn f (holders ∪ others) := by
  rintro w (hw | hw) u (hu | hu) heq
  · exact h.inj hw hu heq
  · exact absurd heq (h.ne_of_later h' hw hu)
  · exact absurd heq.symm (h.ne_of_later h' hu hw)
  · exact h'.inj hw hu heq

theorem union (h : Tickets f holders a b) (h' : Tickets f others b c) (hab : a ≤ b) (hbc : b ≤ c) :
    Tickets f (holders ∪ others) a c where
  range := by
    rintro w (hw | hw)
    · exact (h.mono hbc).range hw
    · obtain ⟨i, hi, heq⟩ := h'.range hw
      exact ⟨i, ⟨hab.trans hi.1, hi.2⟩, heq⟩
  inj := h.injOn_union h'

end Tickets

theorem Numbers.append {f : α → Option Nat} {holders others : Set α} {a c : Nat} (h : Numbers f holders a)
    (h' : Deals f others a c) : Numbers f (holders ∪ others) c := by
  have hids : some '' Set.Iio c = some '' Set.Iio a ∪ some '' Set.Ico a c := by
    rw [← Set.image_union, Set.Iio_union_Ico_eq_Iio h'.le]
  rw [Numbers, hids]
  exact Set.BijOn.union h h'.ids (h.tickets.injOn_union h'.tickets)

end Susanow
