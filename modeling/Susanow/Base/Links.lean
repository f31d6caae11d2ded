import Mathlib.Data.List.Chain
import Mathlib.Data.List.Infix
import Mathlib.Data.List.Nodup
import Mathlib.Logic.Function.Basic
import Mathlib.Logic.Relation

/-! Linked lists that are appended to in two steps.

A list has a pointer to its last node and one to its first. Whoever appends a node swaps it in as
the last one, and only then links the node that was last before to it. In between the list is
broken there, and others may append behind the break. `Chained` says what the lists are
nevertheless: two neighbours are linked, or there is just one thread that has still to do that. -/
namespace Susanow

/-- Lists `ι` of nodes `ν`, and threads `υ` with the link that each has still to make. Nodes are
taken off at the tail and put on at the head. -/
structure Links (ι ν υ : Type) where
  next : ν → Option ν
  head : ι → ν
  tail : ι → ν
  pend : υ → Option (ν × ν)

namespace Links
variable {ι ν υ : Type}

/-- `a` is linked to `b`, or is to be. -/
def Joined (L : Links ι ν υ) (a b : ν) : Prop :=
  L.next a = some b ∨ (L.next a = none ∧ ∃ u, L.pend u = some (a, b))

structure Chained (L : Links ι ν υ) (chain : ι → List ν) : Prop where
  first : ∀ i, (chain i).head? = some (L.tail i)
  last : ∀ i, (chain i).getLast? = some (L.head i)
  nodup : ∀ i, (chain i).Nodup
  disjoint : ∀ i j n, n ∈ chain i → n ∈ chain j → i = j
  joined : ∀ i, (chain i).IsChain L.Joined
  ends : ∀ i, L.next (L.head i) = none ∧ ∀ u b, L.pend u ≠ some (L.head i, b)
  broken : ∀ u a b, L.pend u = some (a, b) → L.next a = none ∧ ∃ i, [a, b] <:+: chain i
  one : ∀ u v a b c, L.pend u = some (a, b) → L.pend v = some (a, c) → u = v

section
variable [DecidableEq ι] [DecidableEq ν] [DecidableEq υ]

/-- `n` becomes the last node of list `i`. -/
def put (L : Links ι ν υ) (i : ι) (u : υ) (n : ν) : Links ι ν υ where
  next := Function.update L.next n none
  head := Function.update L.head i n
  tail := L.tail
  pend := Function.update L.pend u (some (L.head i, n))

/-- Thread `u` links `a` to `b`. -/
def join (L : Links ι ν υ) (u : υ) (a b : ν) : Links ι ν υ where
  next := Function.update L.next a (some b)
  head := L.head
  tail := L.tail
  pend := Function.update L.pend u none

/-- The first node of list `i` is taken off, `m` is the first then. -/
def drop (L : Links ι ν υ) (i : ι) (m : ν) : Links ι ν υ where
  next := L.next
  head := L.head
  tail := Function.update L.tail i m
  pend := L.pend

end

namespace Chained
variable {L : Links ι ν υ} {chain : ι → List ν} {i j : ι} {u v : υ} {a b n m : ν}

theorem head_mem (h : L.Chained chain) (i : ι) : L.head i ∈ chain i := List.mem_of_getLast? (h.last i)

theorem tail_mem (h : L.Chained chain) (i : ι) : L.tail i ∈ chain i := List.mem_of_head? (h.first i)

theorem ne_nil (h : L.Chained chain) (i : ι) : chain i ≠ [] := List.ne_nil_of_mem (h.head_mem i)

theorem head_ne (h : L.Chained chain) (hn : ∀ j, n ∉ chain j) (i : ι) : L.head i ≠ n :=
  fun hin => hn i (hin ▸ h.head_mem i)

theorem pend_mem (h : L.Chained chain) (hu : L.pend u = some (a, b)) : ∃ i, a ∈ chain i ∧ b ∈ chain i := by
  obtain ⟨-, i, hi⟩ := h.broken u a b hu
  exact ⟨i, hi.subset List.mem_cons_self, hi.subset (List.mem_cons_of_mem a List.mem_cons_self)⟩

theorem eq_cons (h : L.Chained chain) (i : ι) : ∃ rest, chain i = L.tail i :: rest := List.head?_eq_some_iff.mp (h.first i)

/-- What the tail is linked to is the second node. -/
theorem tail_next (h : L.Chained chain) (hm : L.next (L.tail i) = some m) : ∃ rest, chain i = L.tail i :: m :: rest := by
  obtain ⟨l, hl⟩ := h.eq_cons i
  cases l with
  | nil =>
    have hlast := h.last i
    rw [hl] at hlast
    have hhead : L.tail i = L.head i := Option.some.inj hlast
    rw [hhead, (h.ends i).1] at hm
    cases hm
  | cons y rest =>
    have hjoined := h.joined i
    rw [hl] at hjoined
    cases (List.isChain_cons_cons.mp hjoined).1 with
    | inl hy =>
      cases hm.symm.trans hy
      exact ⟨rest, hl⟩
    | inr hnone =>
      rw [hnone.1] at hm
      cases hm

/-- A tail that is linked to nothing is all there is, or a thread has still to link it. -/
theorem tail_broken (h : L.Chained chain) (hnone : L.next (L.tail i) = none) :
    chain i = [L.tail i] ∨ ∃ u b, L.pend u = some (L.tail i, b) := by
  obtain ⟨l, hl⟩ := h.eq_cons i
  cases l with
  | nil => exact .inl hl
  | cons y rest =>
    have hjoined := h.joined i
    rw [hl] at hjoined
    cases (List.isChain_cons_cons.mp hjoined).1 with
    | inl hy =>
      rw [hnone] at hy
      cases hy
    | inr hpend =>
      obtain ⟨-, u, hu⟩ := hpend
      exact .inr ⟨u, y, hu⟩

theorem tail_eq_head_iff (h : L.Chained chain) : L.tail i = L.head i ↔ chain i = [L.tail i] := by
  constructor
  · intro heq
    cases h.tail_broken (heq ▸ (h.ends i).1) with
    | inl hone => exact hone
    | inr hpend =>
      obtain ⟨u, b, hu⟩ := hpend
      exact absurd (heq ▸ hu) ((h.ends i).2 u b)
  · intro hone
    have hlast := h.last i
    rw [hone] at hlast
    exact Option.some.inj hlast

/-- Links do not leave a list. -/
theorem joined_mem (h : L.Chained chain) (ha : a ∈ chain i) (hab : L.Joined a b) : b ∈ chain i := by
  cases hab with
  | inl hnext =>
    obtain ⟨l, r, hchain⟩ := List.append_of_mem ha
    have hjoined := h.joined i
    have hlast := h.last i
    rw [hchain] at hjoined hlast
    cases r with
    | nil =>
      rw [List.getLast?_concat] at hlast
      rw [Option.some.inj hlast, (h.ends i).1] at hnext
      cases hnext
    | cons y r =>
      have hay : L.Joined a y := (List.isChain_cons_cons.mp (List.isChain_append.mp hjoined).2.1).1
      have hy : y ∈ chain i := by
        rw [hchain]
        simp
      cases hay with
      | inl hy' =>
        cases hnext.symm.trans hy'
        exact hy
      | inr hnone =>
        rw [hnone.1] at hnext
        cases hnext
  | inr hpend =>
    obtain ⟨-, u, hu⟩ := hpend
    obtain ⟨j, haj, hbj⟩ := h.pend_mem hu
    cases h.disjoint i j a ha haj
    exact hbj

theorem reach_mem (h : L.Chained chain) (hn : Relation.ReflTransGen L.Joined (L.tail i) n) : n ∈ chain i := by
  induction hn with
  | refl => exact h.tail_mem i
  | tail _ hab ih => exact h.joined_mem ih hab

section
variable [DecidableEq ι]

theorem mem_concat {x : ν} : x ∈ Function.update chain i (chain i ++ [n]) j ↔ x ∈ chain j ∨ (j = i ∧ x = n) := by
  by_cases hj : j = i
  · subst hj
    rw [Function.update_self, List.mem_append, List.mem_singleton]
    simp
  · rw [Function.update_of_ne hj]
    simp [hj]

theorem infix_concat {l : List ν} (hl : l <:+: chain j) : l <:+: Function.update chain i (chain i ++ [n]) j := by
  by_cases hj : j = i
  · subst hj
    rw [Function.update_self]
    exact hl.trans (List.prefix_append _ _).isInfix
  · rwa [Function.update_of_ne hj]

theorem tail_suffix (chain : ι → List ν) (i j : ι) : Function.update chain i (chain i).tail j <:+ chain j := by
  by_cases hj : j = i
  · subst hj
    rw [Function.update_self]
    exact List.tail_suffix _
  · rw [Function.update_of_ne hj]

/-- The first node is taken off. -/
theorem drop (h : L.Chained chain) (hm : L.next (L.tail i) = some m) :
    (L.drop i m).Chained (Function.update chain i (chain i).tail) := by
  obtain ⟨rest, hchain⟩ := h.tail_next hm
  constructor
  case first =>
    intro j
    by_cases hj : j = i
    · subst hj
      have htail : (L.drop j m).tail j = m := Function.update_self ..
      rw [Function.update_self, htail, hchain]
      rfl
    · have htail : (L.drop i m).tail j = L.tail j := Function.update_of_ne hj _ _
      rw [Function.update_of_ne hj, htail]
      exact h.first j
  case last =>
    intro j
    by_cases hj : j = i
    · subst hj
      have hlast := h.last j
      rw [hchain] at hlast
      rw [Function.update_self, hchain, List.tail_cons]
      exact hlast
    · rw [Function.update_of_ne hj]
      exact h.last j
  case nodup => exact fun j => (h.nodup j).sublist (tail_suffix chain i j).sublist
  case disjoint =>
    intro j k x hj hk
    exact h.disjoint j k x ((tail_suffix chain i j).subset hj) ((tail_suffix chain i k).subset hk)
  case joined => exact fun j => (h.joined j).suffix (tail_suffix chain i j)
  case ends => exact h.ends
  case broken =>
    intro v x y hv
    obtain ⟨hnone, j, hj⟩ := h.broken v x y hv
    refine ⟨hnone, j, ?_⟩
    by_cases hji : j = i
    · subst hji
      rw [Function.update_self, hchain, List.tail_cons]
      rw [hchain] at hj
      cases List.infix_cons_iff.mp hj with
      | inl hfirst =>
        -- the tail is linked already, nobody has still to do it
        cases (List.cons_prefix_cons.mp hfirst).1
        exact absurd (hm.symm.trans hnone) (by simp)
      | inr hrest => exact hrest
    · rw [Function.update_of_ne hji]
      exact hj
  case one => exact h.one

end

section
variable [DecidableEq ν] [DecidableEq υ]

/-- A thread makes its link. -/
theorem join (h : L.Chained chain) (hu : L.pend u = some (a, b)) : (L.join u a b).Chained chain := by
  have hpend {v : υ} {x y : ν} (hv : (L.join u a b).pend v = some (x, y)) : L.pend v = some (x, y) ∧ x ≠ a := by
    by_cases hvu : v = u
    · subst hvu
      have hself : (L.join v a b).pend v = none := Function.update_self ..
      rw [hself] at hv
      cases hv
    · have hother : (L.join u a b).pend v = L.pend v := Function.update_of_ne hvu _ _
      rw [hother] at hv
      exact ⟨hv, fun hxa => hvu (h.one v u a y b (hxa ▸ hv) hu)⟩
  have hnext {x : ν} (hx : x ≠ a) : (L.join u a b).next x = L.next x := Function.update_of_ne hx _ _
  have hself : (L.join u a b).next a = some b := Function.update_self ..
  have hhead (i : ι) : L.head i ≠ a := fun hia => (h.ends i).2 u b (hia ▸ hu)
  constructor
  case first => exact h.first
  case last => exact h.last
  case nodup => exact h.nodup
  case disjoint => exact h.disjoint
  case joined =>
    intro i
    refine (h.joined i).imp fun x y hxy => ?_
    by_cases hx : x = a
    · subst hx
      cases hxy with
      | inl hxy => exact absurd ((h.broken u x b hu).1.symm.trans hxy) (by simp)
      | inr hxy =>
        obtain ⟨-, v, hv⟩ := hxy
        cases h.one v u x y b hv hu
        cases hv.symm.trans hu
        exact .inl hself
    · rw [Joined, hnext hx]
      refine hxy.imp_right fun ⟨hnone, v, hv⟩ => ⟨hnone, v, ?_⟩
      have hvu : v ≠ u := by
        intro hvu
        subst hvu
        cases hv.symm.trans hu
        exact hx rfl
      exact (Function.update_of_ne hvu _ _).trans hv
  case ends =>
    intro i
    exact ⟨(hnext (hhead i)).trans (h.ends i).1, fun v y hv => (h.ends i).2 v y (hpend hv).1⟩
  case broken =>
    intro v x y hv
    obtain ⟨hv, hx⟩ := hpend hv
    obtain ⟨hnone, hmem⟩ := h.broken v x y hv
    exact ⟨(hnext hx).trans hnone, hmem⟩
  case one =>
    intro v w x y z hv hw
    exact h.one v w x y z (hpend hv).1 (hpend hw).1

end

variable [DecidableEq ι] [DecidableEq ν] [DecidableEq υ]

theorem pend_put (hv : (L.put i u n).pend v = some (a, b)) :
    (v = u ∧ a = L.head i ∧ b = n) ∨ L.pend v = some (a, b) := by
  by_cases hvu : v = u
  · subst hvu
    have hself : (L.put i v n).pend v = some (L.head i, n) := Function.update_self ..
    rw [hself] at hv
    cases hv
    exact .inl ⟨rfl, rfl, rfl⟩
  · have hother : (L.put i u n).pend v = L.pend v := Function.update_of_ne hvu _ _
    exact .inr (hother ▸ hv)

/-- A node that is in no list, put on by a thread that has no link to make. -/
theorem put (h : L.Chained chain) (hn : ∀ j, n ∉ chain j) (hu : L.pend u = none) (i : ι) :
    (L.put i u n).Chained (Function.update chain i (chain i ++ [n])) := by
  have hne {x : ν} {j : ι} (hx : x ∈ chain j) : x ≠ n := fun hxn => hn j (hxn ▸ hx)
  have hnext {x : ν} (hx : x ≠ n) : (L.put i u n).next x = L.next x := Function.update_of_ne hx _ _
  have hpend {v : υ} {x y : ν} (hv : L.pend v = some (x, y)) : (L.put i u n).pend v = some (x, y) := by
    have hvu : v ≠ u := fun hvu => Option.some_ne_none _ (hv.symm.trans (hvu ▸ hu))
    exact (Function.update_of_ne hvu _ _).trans hv
  have hself : (L.put i u n).pend u = some (L.head i, n) := Function.update_self ..
  have hold (j : ι) : (chain j).IsChain (L.put i u n).Joined := by
    refine (h.joined j).imp_of_mem_imp fun x y hx _ hxy => ?_
    rw [Joined, hnext (hne hx)]
    exact hxy.imp_right fun ⟨hnone, v, hv⟩ => ⟨hnone, v, hpend hv⟩
  constructor
  case first =>
    intro j
    by_cases hj : j = i
    · subst hj
      rw [Function.update_self, List.head?_append_of_ne_nil _ (h.ne_nil j)]
      exact h.first j
    · rw [Function.update_of_ne hj]
      exact h.first j
  case last =>
    intro j
    by_cases hj : j = i
    · subst hj
      have hhead : (L.put j u n).head j = n := Function.update_self ..
      rw [Function.update_self, hhead, List.getLast?_concat]
    · have hhead : (L.put i u n).head j = L.head j := Function.update_of_ne hj _ _
      rw [Function.update_of_ne hj, hhead]
      exact h.last j
  case nodup =>
    intro j
    by_cases hj : j = i
    · subst hj
      rw [Function.update_self]
      exact List.concat_eq_append ▸ (h.nodup j).concat (hn j)
    · rw [Function.update_of_ne hj]
      exact h.nodup j
  case disjoint =>
    intro j k x hj hk
    cases mem_concat.mp hj with
    | inl hj =>
      cases mem_concat.mp hk with
      | inl hk => exact h.disjoint j k x hj hk
      | inr hk => exact absurd hk.2 (hne hj)
    | inr hj =>
      cases mem_concat.mp hk with
      | inl hk => exact absurd hj.2 (hne hk)
      | inr hk => exact hj.1.trans hk.1.symm
  case joined =>
    intro j
    by_cases hj : j = i
    · subst hj
      rw [Function.update_self, List.isChain_append]
      refine ⟨hold j, List.isChain_singleton n, fun x hx y hy => ?_⟩
      cases hy
      cases (h.last j).symm.trans hx
      exact .inr ⟨(hnext (h.head_ne hn j)).trans (h.ends j).1, u, hself⟩
    · rw [Function.update_of_ne hj]
      exact hold j
  case ends =>
    intro j
    by_cases hj : j = i
    · subst hj
      have hhead : (L.put j u n).head j = n := Function.update_self ..
      have hnone : (L.put j u n).next n = none := Function.update_self ..
      rw [hhead]
      refine ⟨hnone, fun v y hv => ?_⟩
      cases pend_put hv with
      | inl hnew => exact h.head_ne hn j hnew.2.1.symm
      | inr hv =>
        obtain ⟨k, hk, -⟩ := h.pend_mem hv
        exact hn k hk
    · have hhead : (L.put i u n).head j = L.head j := Function.update_of_ne hj _ _
      rw [hhead]
      refine ⟨(hnext (h.head_ne hn j)).trans (h.ends j).1, fun v y hv => ?_⟩
      cases pend_put hv with
      | inl hnew => exact hj (h.disjoint j i _ (h.head_mem j) (hnew.2.1 ▸ h.head_mem i))
      | inr hv => exact (h.ends j).2 v y hv
  case broken =>
    intro v x y hv
    cases pend_put hv with
    | inl hnew =>
      obtain ⟨rfl, rfl, rfl⟩ := hnew
      refine ⟨(hnext (h.head_ne hn i)).trans (h.ends i).1, i, ?_⟩
      obtain ⟨l, hl⟩ := List.getLast?_eq_some_iff.mp (h.last i)
      rw [Function.update_self, hl, List.append_assoc]
      exact (List.suffix_append l [L.head i, y]).isInfix
    | inr hv =>
      obtain ⟨hnone, j, hj⟩ := h.broken v x y hv
      have hx : x ≠ n := hne (hj.subset List.mem_cons_self)
      exact ⟨(hnext hx).trans hnone, j, infix_concat hj⟩
  case one =>
    intro v w x y z hv hw
    cases pend_put hv with
    | inl hnew =>
      cases pend_put hw with
      | inl hnew' => exact hnew.1.trans hnew'.1.symm
      | inr hw => exact absurd (hnew.2.1 ▸ hw) ((h.ends i).2 w z)
    | inr hv =>
      cases pend_put hw with
      | inl hnew' => exact absurd (hnew'.2.1 ▸ hv) ((h.ends i).2 v y)
      | inr hw => exact h.one v w x y z hv hw

end Chained
end Links
end Susanow
