import Mathlib.Data.List.DropRight
import Mathlib.Data.Nat.Digits.Lemmas
import Mathlib.Algebra.Order.Field.Rat
import Mathlib.Tactic.FieldSimp

/-! Decimal numbers, and to a number of digits.

`%g` prints a number to so many significant digits at most, with its point where it belongs
or, if that would be too far away, behind the first digit and with a power of ten. What it
prints of `n / 10 ^ s` is read back as that number rounded (`read_printG`), which is the
number itself just when the digits that are dropped are zeros (`rounded_eq_iff`). -/
namespace Susanow.Decimal

/-! ### Digits -/

-- There are finitely many characters, but it is those of the text that are to be gone through.
instance decidableForallMemText (p : Char → Prop) [DecidablePred p] (s : List Char) : Decidable (∀ c ∈ s, p c) :=
  List.decidableBAll p s

def isDigit (c : Char) : Bool := 48 ≤ c.toNat && c.toNat ≤ 57

def digitChar (d : Nat) : Char := Char.ofNat (48 + d)

def ofDigit (c : Char) : Nat := c.toNat - 48

theorem digitChar_spec {d : Nat} (hd : d < 10) : isDigit (digitChar d) = true ∧ ofDigit (digitChar d) = d := by
  revert d
  decide

/-- What a row of digits is worth, the first one first. -/
def value (ds : List Nat) : Nat := Nat.ofDigits 10 ds.reverse

theorem value_append (as bs : List Nat) : value (as ++ bs) = value as * 10 ^ bs.length + value bs := by
  rw [value, List.reverse_append, Nat.ofDigits_append, List.length_reverse, value, value]
  ring

theorem value_zeros (k : Nat) (ds : List Nat) : value (List.replicate k 0 ++ ds) = value ds := by
  rw [value, List.reverse_append, List.reverse_replicate, Nat.ofDigits_append_replicate_zero, value]

theorem value_leftpad (k : Nat) (ds : List Nat) : value (ds.leftpad k 0) = value ds := value_zeros _ ds

/-- The digits of a number, and `0` of zero. -/
def digits (n : Nat) : List Nat := if n = 0 then [0] else (Nat.digits 10 n).reverse

theorem value_digits (n : Nat) : value (digits n) = n := by
  unfold digits
  split_ifs with hn
  · rw [hn]
    rfl
  · rw [value, List.reverse_reverse, Nat.ofDigits_digits]

theorem lt_of_mem_digits {n d : Nat} (h : d ∈ digits n) : d < 10 := by
  unfold digits at h
  split_ifs at h with hn
  · rw [List.mem_singleton.mp h]
    decide
  · exact Nat.digits_lt_base (by decide) (List.mem_reverse.mp h)

theorem lt_of_mem_zeros {k n d : Nat} (h : d ∈ List.replicate k 0 ++ digits n) : d < 10 := by
  rcases List.mem_append.mp h with hzero | hn
  · rw [List.eq_of_mem_replicate hzero]
    decide
  · exact lt_of_mem_digits hn

theorem lt_of_mem_leftpad {k n d : Nat} (h : d ∈ (digits n).leftpad k 0) : d < 10 := lt_of_mem_zeros h

theorem length_digits_pos (n : Nat) : 0 < (digits n).length := by
  unfold digits
  split_ifs with hn
  · decide
  · rw [List.length_reverse]
    exact List.length_pos_of_ne_nil (Nat.digits_ne_nil_iff_ne_zero.mpr hn)

theorem digits_cons (n : Nat) : ∃ d ds, digits n = d :: ds ∧ ∀ d' ∈ d :: ds, d' < 10 := by
  obtain ⟨d, ds, hds⟩ := List.exists_cons_of_ne_nil (List.ne_nil_of_length_pos (length_digits_pos n))
  exact ⟨d, ds, hds, fun d' hd' => lt_of_mem_digits (hds ▸ hd')⟩

theorem length_digits_le_iff {p : Nat} (hp : 0 < p) (n : Nat) : (digits n).length ≤ p ↔ n < 10 ^ p := by
  unfold digits
  split_ifs with hn
  · rw [hn]
    exact iff_of_true hp (Nat.pow_pos (by decide))
  · rw [List.length_reverse]
    exact Nat.digits_length_le_iff (by decide) n

/-- The number has `p` digits if it is as large as the first that does, and no larger than the last. -/
theorem length_digits_eq {p n : Nat} (hp : 0 < p) (hle : 10 ^ (p - 1) ≤ n) (hlt : n < 10 ^ p) :
    (digits n).length = p := by
  apply Nat.le_antisymm ((length_digits_le_iff hp n).mpr hlt)
  by_contra hshort
  have hp' : 0 < p - 1 := by
    have := length_digits_pos n
    omega
  have hless : n < 10 ^ (p - 1) := (length_digits_le_iff hp' n).mp (by omega)
  exact absurd hle (Nat.not_le.mpr hless)

/-- Digits that end the row as zeros only move the others up. -/
theorem value_rdropWhile (ds : List Nat) :
    value (ds.rdropWhile (· == 0)) * 10 ^ (ds.length - (ds.rdropWhile (· == 0)).length) = value ds := by
  induction ds using List.reverseRecOn with
  | nil => rfl
  | append_singleton ds d ih =>
    by_cases hd : d = 0
    · have hle : (ds.rdropWhile (· == 0)).length ≤ ds.length := (List.rdropWhile_prefix _ _).length_le
      rw [hd, List.rdropWhile_concat_pos _ _ _ rfl, List.length_append, List.length_singleton, Nat.sub_add_comm hle,
        pow_succ, ← Nat.mul_assoc, ih, value_append]
      simp [value]
    · rw [List.rdropWhile_concat_neg _ _ _ (by simpa using hd), Nat.sub_self, pow_zero, Nat.mul_one]

/-! ### Printing -/

def print (n : Nat) : List Char := (digits n).map digitChar

/-- `n` in units of `u`, to the nearest one, or to the even one of two. -/
def roundAt (u n : Nat) : Nat :=
  if u < 2 * (n % u) ∨ (2 * (n % u) = u ∧ n / u % 2 = 1) then n / u + 1 else n / u

/-- The digits after the point, without the zeros at their end. -/
def fraction (ds : List Nat) : List Char :=
  let frac := ds.rdropWhile (· == 0)
  if frac = [] then [] else '.' :: frac.map digitChar

/-- Two digits at least. -/
def exponent (x : Int) : List Char :=
  'e' :: (if x < 0 then '-' else '+') :: ((digits x.natAbs).leftpad 2 0).map digitChar

/-- The digits of `m` with the point after the first, which is that of `10 ^ x`. -/
def scientific (m : Nat) (x : Int) : List Char :=
  digitChar ((digits m).headD 0) :: (fraction (digits m).tail ++ exponent x)

/-- The digits of `m`, the first of them that of `10 ^ x`, with the point where it belongs. -/
def fixed (m : Nat) (x : Int) : List Char :=
  if x < 0 then '0' :: fraction (List.replicate (-x - 1).toNat 0 ++ digits m)
  else ((digits m).take (x.toNat + 1)).map digitChar ++ fraction ((digits m).drop (x.toNat + 1))

/-- The first `p` digits of `n`, and the place of the first of them. -/
def significant (p n : Nat) : Nat × Nat :=
  let len := (digits n).length
  if len ≤ p then (n, len - 1)
  else if roundAt (10 ^ (len - p)) n = 10 ^ p then (10 ^ (p - 1), len)
  else (roundAt (10 ^ (len - p)) n, len - 1)

/-- `%.<p>g` of `n / 10 ^ s`. -/
def printG (p n s : Nat) : List Char :=
  if n = 0 then ['0']
  else
    let (m, k) := significant p n
    let x : Int := k - s
    if -4 ≤ x ∧ x < p then fixed m x else scientific m x

/-- `n` to `p` digits. -/
def rounded (p n : Nat) : Nat :=
  if (digits n).length ≤ p then n
  else roundAt (10 ^ ((digits n).length - p)) n * 10 ^ ((digits n).length - p)

example : printG 6 1048576 0 = "1.04858e+06".toList := by decide
example : printG 6 123456789 6 = "123.457".toList := by decide
example : printG 6 12345 9 = "1.2345e-05".toList := by decide

/-! ### Reading -/

/-- A number without sign, point or exponent. -/
def natural? (s : List Char) : Option Nat :=
  if s ≠ [] ∧ s.all isDigit then some (value (s.map ofDigit)) else none

/-- Whether there is a minus sign, and what follows the sign. -/
def signed : List Char → Bool × List Char
  | '-' :: s => (true, s)
  | '+' :: s => (false, s)
  | s => (false, s)

/-- A number that may have a sign before it. -/
def integer? (s : List Char) : Option Int :=
  (natural? (signed s).2).map fun (n : Nat) => if (signed s).1 then -(n : Int) else (n : Int)

def exponent? : List Char → Option Int
  | [] => some 0
  | e :: s =>
    if e = 'e' ∨ e = 'E' then
      match s with
      | '+' :: s => (natural? s).map Int.ofNat
      | '-' :: s => (natural? s).map fun n : Nat => -(n : Int)
      | s => (natural? s).map Int.ofNat
    else none

/-- The digits before the point, those after it, and what follows them. -/
def mantissa (s : List Char) : List Char × List Char × List Char :=
  match s.dropWhile isDigit with
  | '.' :: t => (s.takeWhile isDigit, t.takeWhile isDigit, t.dropWhile isDigit)
  | t => (s.takeWhile isDigit, [], t)

def read (s : List Char) : Option ℚ :=
  let neg := s.head? = some '-'
  let (int, frac, s) := mantissa (if neg then s.tail else s)
  if int ++ frac = [] then none
  else (exponent? s).map fun x =>
    (if neg then -1 else 1) * (value ((int ++ frac).map ofDigit) : ℚ) * 10 ^ (x - (frac.length : Int))

example : read "-12.50e1".toList = some (-125) := by decide +kernel

section Reading
variable {int frac ds : List Nat} {e : List Char} {p : Nat}

theorem isDigit_of_mem_map (hds : ∀ d ∈ ds, d < 10) : ∀ c ∈ ds.map digitChar, isDigit c = true := by
  intro c hc
  obtain ⟨d, hd, rfl⟩ := List.mem_map.mp hc
  exact (digitChar_spec (hds d hd)).1

theorem map_ofDigit (hds : ∀ d ∈ ds, d < 10) : (ds.map digitChar).map ofDigit = ds := by
  have hid : ∀ d ∈ ds, (ofDigit ∘ digitChar) d = id d := fun d hd => (digitChar_spec (hds d hd)).2
  rw [List.map_map, List.map_congr_left hid, List.map_id]

theorem natural?_print (hds : ∀ d ∈ ds, d < 10) (hne : ds ≠ []) : natural? (ds.map digitChar) = some (value ds) := by
  have hall : (ds.map digitChar).all isDigit = true := List.all_eq_true.mpr (isDigit_of_mem_map hds)
  rw [natural?, if_pos ⟨by simpa using hne, hall⟩, map_ofDigit hds]

/-- A row of digits goes on up to what is none. -/
theorem mantissa_append (hint : ∀ d ∈ int, d < 10) {t : List Char} (ht : ∀ c ∈ t.head?, isDigit c = false) :
    (int.map digitChar ++ t).takeWhile isDigit = int.map digitChar ∧ (int.map digitChar ++ t).dropWhile isDigit = t := by
  have hall := isDigit_of_mem_map hint
  rw [List.takeWhile_append_of_pos hall, List.dropWhile_append_of_pos hall]
  cases t with
  | nil => simp
  | cons c t =>
    have hc : isDigit c = false := ht c rfl
    simp [hc]

/-- Digits, with a point among them or not, and then an exponent. -/
theorem read_parts {t : List Char} (hint : ∀ d ∈ int, d < 10) (hne : int ≠ []) (hfrac : ∀ d ∈ frac, d < 10)
    (he : ∀ c ∈ e.head?, isDigit c = false ∧ c ≠ '.')
    (ht : (frac = [] ∧ t = e) ∨ t = '.' :: (frac.map digitChar ++ e)) :
    read (int.map digitChar ++ t) =
      (exponent? e).map fun x => (value (int ++ frac) : ℚ) * 10 ^ (x - (frac.length : Int)) := by
  obtain ⟨d, ds, rfl⟩ := List.exists_cons_of_ne_nil hne
  have hdigit : isDigit (digitChar d) = true := (digitChar_spec (hint d List.mem_cons_self)).1
  have hneg : ((d :: ds).map digitChar ++ t).head? ≠ some '-' := by
    intro hhead
    simp only [List.map_cons, List.cons_append, List.head?_cons, Option.some.injEq] at hhead
    rw [hhead] at hdigit
    cases hdigit
  have hmantissa : mantissa ((d :: ds).map digitChar ++ t) = ((d :: ds).map digitChar, frac.map digitChar, e) := by
    rcases ht with ⟨rfl, rfl⟩ | rfl
    · obtain ⟨htake, hdrop⟩ := mantissa_append hint fun c hc => (he c hc).1
      rw [mantissa, hdrop, htake]
      cases t with
      | nil => rfl
      | cons c t =>
        have hc : c ≠ '.' := (he c rfl).2
        split
        · rename_i heq
          cases heq
          exact absurd rfl hc
        · rfl
    · obtain ⟨htake, hdrop⟩ := mantissa_append (t := '.' :: (frac.map digitChar ++ e)) hint fun c hc => by
        cases hc
        rfl
      obtain ⟨htake', hdrop'⟩ := mantissa_append hfrac fun c hc => (he c hc).1
      rw [mantissa, hdrop, htake]
      simp only [htake', hdrop']
  have hall : ∀ d' ∈ d :: ds ++ frac, d' < 10 := fun d' hd' => (List.mem_append.mp hd').elim (hint d') (hfrac d')
  rw [read]
  simp only [hneg, if_false, hmantissa]
  rw [if_neg (by simp), ← List.map_append, map_ofDigit hall, List.length_map]
  congr 1
  funext x
  rw [one_mul]

theorem read_print (n : Nat) : read (print n) = some (n : ℚ) := by
  have hparts : read ((digits n).map digitChar ++ []) = _ :=
    read_parts (fun d => lt_of_mem_digits) (List.ne_nil_of_length_pos (length_digits_pos n))
      (show ∀ d ∈ [], d < 10 by simp) (e := []) (by simp) (.inl ⟨rfl, rfl⟩)
  rw [List.append_nil, List.append_nil, value_digits] at hparts
  simpa [print, exponent?] using hparts

theorem exponent?_exponent (x : Int) : exponent? (exponent x) = some x := by
  have hne : (digits x.natAbs).leftpad 2 0 ≠ [] :=
    List.append_ne_nil_of_right_ne_nil _ (List.ne_nil_of_length_pos (length_digits_pos x.natAbs))
  have hnat := natural?_print (fun d => lt_of_mem_leftpad) hne
  rw [value_leftpad, value_digits] at hnat
  unfold exponent
  by_cases hx : x < 0
  · rw [if_pos hx, exponent?, if_pos (.inl rfl)]
    show (natural? _).map (fun n : Nat => -(n : Int)) = some x
    rw [hnat, Option.map_some]
    congr 1
    omega
  · rw [if_neg hx, exponent?, if_pos (.inl rfl)]
    show (natural? _).map Int.ofNat = some x
    rw [hnat, Option.map_some, Int.ofNat_eq_natCast]
    congr 1
    omega

/-- The zeros that a fraction leaves out at its end count for nothing. -/
theorem read_fraction (hint : ∀ d ∈ int, d < 10) (hne : int ≠ []) (hds : ∀ d ∈ ds, d < 10)
    (he : ∀ c ∈ e.head?, isDigit c = false ∧ c ≠ '.') :
    read (int.map digitChar ++ (fraction ds ++ e)) =
      (exponent? e).map fun x => (value (int ++ ds) : ℚ) * 10 ^ (x - (ds.length : Int)) := by
  have hpre : ds.rdropWhile (· == 0) <+: ds := List.rdropWhile_prefix _ _
  have hparts := read_parts (e := e) (t := fraction ds ++ e) hint hne (fun d hd => hds d (hpre.subset hd)) he
    (by
      by_cases hfrac : ds.rdropWhile (· == 0) = []
      · exact .inl ⟨hfrac, by simp [fraction, hfrac]⟩
      · exact .inr (by simp [fraction, hfrac]))
  have hvalue : value (int ++ ds.rdropWhile (· == 0)) * 10 ^ (ds.length - (ds.rdropWhile (· == 0)).length) =
      value (int ++ ds) := by
    rw [value_append, value_append, Nat.add_mul, value_rdropWhile, Nat.mul_assoc, ← pow_add,
      Nat.add_sub_cancel' hpre.length_le]
  have hten : (10 : ℚ) ≠ 0 := by norm_num
  rw [hparts]
  congr 1
  funext x
  rw [← hvalue, Nat.cast_mul, Nat.cast_pow, Nat.cast_ofNat, mul_assoc, ← zpow_natCast, ← zpow_add₀ hten,
    Nat.cast_sub hpre.length_le]
  congr 2
  ring

/-- What `%e` prints is worth the number with its point moved. -/
theorem read_scientific (m : Nat) (x : Int) :
    read (scientific m x) = some ((m : ℚ) * 10 ^ (x + 1 - ((digits m).length : Int))) := by
  obtain ⟨d, ds, hm, hdigits⟩ := digits_cons m
  have hread := read_fraction (e := exponent x)
    (fun d' hd' => hdigits d' (List.mem_singleton.mp hd' ▸ List.mem_cons_self)) (List.cons_ne_nil d [])
    (fun d' hd' => hdigits d' (List.mem_cons_of_mem d hd')) (fun c hc => by cases hc; decide)
  have htext : scientific m x = [d].map digitChar ++ (fraction ds ++ exponent x) := by
    rw [scientific, hm]
    rfl
  rw [htext, hread, exponent?_exponent, Option.map_some, List.singleton_append, ← hm, value_digits, hm, List.length_cons]
  congr 3
  omega

/-- So is what `%f` prints. -/
theorem read_fixed {m : Nat} {x : Int} (hx : x + 1 ≤ (digits m).length) :
    read (fixed m x) = some ((m : ℚ) * 10 ^ (x + 1 - ((digits m).length : Int))) := by
  have hdigits : ∀ d ∈ digits m, d < 10 := fun d => lt_of_mem_digits
  have hnone : ∀ c ∈ ([] : List Char).head?, isDigit c = false ∧ c ≠ '.' := by simp
  unfold fixed
  split_ifs with hneg
  · have hds : ∀ d ∈ List.replicate (-x - 1).toNat 0 ++ digits m, d < 10 := fun d => lt_of_mem_zeros
    have hread := read_fraction (e := []) (show ∀ d ∈ [0], d < 10 by simp) (List.cons_ne_nil 0 []) hds hnone
    have hvalue : value ([0] ++ (List.replicate (-x - 1).toNat 0 ++ digits m)) = m := by
      rw [← List.append_assoc, List.singleton_append, ← List.replicate_succ, value_zeros, value_digits]
    rw [List.append_nil, hvalue] at hread
    refine hread.trans ?_
    simp only [exponent?, Option.map_some, List.length_append, List.length_replicate]
    congr 3
    omega
  · have hne : (digits m).take (x.toNat + 1) ≠ [] := by
      have := length_digits_pos m
      refine List.ne_nil_of_length_pos ?_
      rw [List.length_take]
      omega
    have hread := read_fraction (e := []) (fun d hd => hdigits d (List.mem_of_mem_take hd)) hne
      (fun d hd => hdigits d (List.mem_of_mem_drop (i := x.toNat + 1) hd)) hnone
    rw [List.append_nil, List.take_append_drop, value_digits] at hread
    rw [hread]
    simp only [exponent?, Option.map_some, List.length_drop]
    congr 3
    omega

/-- Rounding leaves `p` digits, or comes to the next power of ten. -/
theorem roundAt_range {n : Nat} (hp : 0 < p) (hlen : p < (digits n).length) :
    10 ^ (p - 1) ≤ roundAt (10 ^ ((digits n).length - p)) n ∧ roundAt (10 ^ ((digits n).length - p)) n ≤ 10 ^ p := by
  set k := (digits n).length - p with hk
  have hlt : n < 10 ^ k * 10 ^ p := by
    rw [← pow_add, hk, Nat.sub_add_cancel hlen.le]
    exact (length_digits_le_iff (length_digits_pos n) n).mp le_rfl
  have hge : 10 ^ (p - 1) * 10 ^ k ≤ n := by
    rw [← pow_add]
    by_contra hless
    have hshort := (length_digits_le_iff (p := p - 1 + k) (by omega) n).mpr (Nat.not_le.mp hless)
    omega
  have hdiv : n / 10 ^ k < 10 ^ p := Nat.div_lt_of_lt_mul hlt
  have hdiv' : 10 ^ (p - 1) ≤ n / 10 ^ k := (Nat.le_div_iff_mul_le (Nat.pow_pos (by decide))).mpr hge
  unfold roundAt
  split_ifs <;> omega

/-- The digits kept, with zeros behind them, are the number rounded. There are `p` of them, or they
are all of its digits. -/
theorem significant_spec {n m k : Nat} (hp : 0 < p) (hn : n ≠ 0) (h : significant p n = (m, k)) :
    m ≠ 0 ∧ (digits m).length ≤ k + 1 ∧ ((digits m).length = p ∨ k + 1 = (digits m).length) ∧
      rounded p n = m * 10 ^ (k + 1 - (digits m).length) := by
  have hpos := length_digits_pos n
  by_cases hlen : (digits n).length ≤ p
  · rw [significant, if_pos hlen] at h
    cases h
    rw [rounded, if_pos hlen, Nat.sub_add_cancel hpos, Nat.sub_self, pow_zero, Nat.mul_one]
    exact ⟨hn, le_rfl, .inr rfl, rfl⟩
  · rw [significant, if_neg hlen] at h
    rw [rounded, if_neg hlen]
    have hlen' : p < (digits n).length := Nat.not_le.mp hlen
    obtain ⟨hge, hle⟩ := roundAt_range hp hlen'
    split_ifs at h with hcarry
    · cases h
      have hdigits : (digits (10 ^ (p - 1))).length = p :=
        length_digits_eq hp le_rfl (Nat.pow_lt_pow_right (by decide) (Nat.sub_lt hp Nat.one_pos))
      refine ⟨(Nat.pow_pos (by decide)).ne', by omega, .inl hdigits, ?_⟩
      rw [hcarry, hdigits, ← pow_add, ← pow_add]
      congr 1
      omega
    · cases h
      have hdigits := length_digits_eq hp hge (lt_of_le_of_ne hle hcarry)
      have hne : roundAt (10 ^ ((digits n).length - p)) n ≠ 0 :=
        (Nat.lt_of_lt_of_le (Nat.pow_pos (by decide)) hge).ne'
      refine ⟨hne, by omega, .inl hdigits, ?_⟩
      rw [hdigits, Nat.sub_add_cancel hpos]

/-- **What `%g` prints is read as the number to that many digits.** -/
theorem read_printG (hp : 0 < p) (n s : Nat) : read (printG p n s) = some ((rounded p n : ℚ) / 10 ^ s) := by
  by_cases hn : n = 0
  · subst hn
    have hzero : rounded p 0 = 0 := if_pos hp
    have hprint : printG p 0 s = print 0 := if_pos rfl
    rw [hprint, read_print, hzero, Nat.cast_zero, zero_div]
  · obtain ⟨m, k, hmk⟩ : ∃ m k, significant p n = (m, k) := ⟨_, _, rfl⟩
    obtain ⟨-, hplace, hfull, hrounded⟩ := significant_spec hp hn hmk
    have hvalue : (m : ℚ) * 10 ^ ((k : Int) - s + 1 - ((digits m).length : Int)) = (rounded p n : ℚ) / 10 ^ s := by
      have hten : (10 : ℚ) ≠ 0 := by norm_num
      rw [hrounded, Nat.cast_mul, Nat.cast_pow, Nat.cast_ofNat, mul_div_assoc, ← zpow_natCast, ← zpow_natCast,
        ← zpow_sub₀ hten, Nat.cast_sub hplace]
      congr 2
      push_cast
      ring
    rw [printG, if_neg hn, hmk]
    dsimp only
    split_ifs with hx
    · rw [read_fixed (by omega), hvalue]
    · rw [read_scientific, hvalue]

/-- An integer that is short enough is printed in full. -/
theorem printG_natural {n : Nat} (hlen : (digits n).length ≤ p) : printG p n 0 = print n := by
  by_cases hn : n = 0
  · subst hn
    exact if_pos rfl
  · have hpos := length_digits_pos n
    have hsig : significant p n = (n, (digits n).length - 1) := if_pos hlen
    rw [printG, if_neg hn, hsig]
    dsimp only
    rw [if_pos ⟨by omega, by omega⟩, fixed, if_neg (by omega), List.take_of_length_le (by omega),
      List.drop_of_length_le (by omega), fraction]
    simp [print]

/-- A longer one is not. -/
theorem printG_scientific {n : Nat} (hp : 0 < p) (hlen : p < (digits n).length) :
    ∃ m x, printG p n 0 = scientific m x := by
  have hn : n ≠ 0 := by
    rintro rfl
    exact absurd hlen (Nat.not_lt.mpr hp)
  obtain ⟨m, k, hmk⟩ : ∃ m k, significant p n = (m, k) := ⟨_, _, rfl⟩
  have hk : p ≤ k := by
    rw [significant, if_neg (Nat.not_le.mpr hlen)] at hmk
    split_ifs at hmk
    · cases hmk
      exact hlen.le
    · cases hmk
      omega
  rw [printG, if_neg hn, hmk]
  dsimp only
  rw [if_neg (by omega)]
  exact ⟨m, _, rfl⟩

theorem read_neg {c : Char} {s : List Char} (hc : isDigit c = true) :
    read ('-' :: c :: s) = (read (c :: s)).map Neg.neg := by
  have hne : c ≠ '-' := by
    rintro rfl
    cases hc
  simp only [read, List.head?_cons, Option.some.injEq, hne, if_false, if_true, List.tail_cons]
  split_ifs
  · rfl
  · rw [Option.map_map]
    congr 1
    funext x
    simp

end Reading

/-- Nothing is lost just when the digits that are dropped are zeros. -/
theorem rounded_eq_iff (p n : Nat) : rounded p n = n ↔ 10 ^ ((digits n).length - p) ∣ n := by
  by_cases hlen : (digits n).length ≤ p
  · rw [rounded, if_pos hlen, Nat.sub_eq_zero_of_le hlen]
    exact iff_of_true rfl (one_dvd n)
  · rw [rounded, if_neg hlen]
    constructor
    · exact fun h => Dvd.intro_left _ h
    · intro hdvd
      have hpos : 0 < 10 ^ ((digits n).length - p) := Nat.pow_pos (by decide)
      have hround : roundAt (10 ^ ((digits n).length - p)) n = n / 10 ^ ((digits n).length - p) := by
        rw [roundAt, Nat.mod_eq_zero_of_dvd hdvd, if_neg (by omega)]
      rw [hround, Nat.div_mul_cancel hdvd]

theorem head_digits_ne_zero {n d : Nat} {ds : List Nat} (hn : n ≠ 0) (h : digits n = d :: ds) : d ≠ 0 := by
  rw [digits, if_neg hn] at h
  have hlast := Nat.getLast_digit_ne_zero 10 hn
  rw [List.getLast_eq_head_reverse] at hlast
  simpa [h] using hlast

theorem printG_cons (p n s : Nat) : ∃ c t, printG p n s = c :: t ∧ isDigit c = true := by
  unfold printG
  dsimp only
  split_ifs with hn hx
  · exact ⟨'0', [], rfl, rfl⟩
  · unfold fixed
    split_ifs
    · exact ⟨'0', _, rfl, rfl⟩
    · obtain ⟨d, ds, hds, hd⟩ := digits_cons (significant p n).1
      rw [hds, List.take_succ_cons, List.map_cons, List.cons_append]
      exact ⟨_, _, rfl, (digitChar_spec (hd d List.mem_cons_self)).1⟩
  · obtain ⟨d, ds, hds, hd⟩ := digits_cons (significant p n).1
    rw [scientific, hds, List.headD_cons]
    exact ⟨_, _, rfl, (digitChar_spec (hd d List.mem_cons_self)).1⟩

theorem signed_of_isDigit {c : Char} (hc : isDigit c = true) (s : List Char) : signed (c :: s) = (false, c :: s) := by
  unfold signed
  split
  · rename_i heq
    obtain ⟨rfl, -⟩ := List.cons.inj heq
    cases hc
  · rename_i heq
    obtain ⟨rfl, -⟩ := List.cons.inj heq
    cases hc
  · rfl

theorem print_cons (n : Nat) : ∃ c s, print n = c :: s ∧ isDigit c = true := by
  obtain ⟨d, ds, hds, hd⟩ := digits_cons n
  exact ⟨digitChar d, ds.map digitChar, by rw [print, hds, List.map_cons], (digitChar_spec (hd d List.mem_cons_self)).1⟩

theorem signed_print_append (n : Nat) (s : List Char) : signed (print n ++ s) = (false, print n ++ s) := by
  obtain ⟨c, t, heq, hc⟩ := print_cons n
  rw [heq]
  exact signed_of_isDigit hc _

theorem natural?_print_nat (n : Nat) : natural? (print n) = some n := by
  have hne : digits n ≠ [] := List.ne_nil_of_length_pos (length_digits_pos n)
  rw [print, natural?_print (fun d => lt_of_mem_digits) hne, value_digits]

theorem isDigit_of_mem_print {n : Nat} : ∀ c ∈ print n, isDigit c = true := isDigit_of_mem_map fun _ => lt_of_mem_digits

/-- What is read of a number that stands before something else. -/
theorem takeWhile_print_append (n : Nat) {s : List Char} (hs : ∀ c ∈ s.head?, isDigit c = false) :
    (print n ++ s).takeWhile isDigit = print n ∧ (print n ++ s).dropWhile isDigit = s := by
  have hall := isDigit_of_mem_print (n := n)
  have hstop : s.takeWhile isDigit = [] ∧ s.dropWhile isDigit = s := by
    cases s with
    | nil => exact ⟨rfl, rfl⟩
    | cons c s => simp [hs c rfl]
  rw [List.takeWhile_append_of_pos hall, List.dropWhile_append_of_pos hall, hstop.1, hstop.2, List.append_nil]
  exact ⟨rfl, rfl⟩

theorem value_print (n : Nat) : value ((print n).map ofDigit) = n := by
  rw [print, map_ofDigit fun d => lt_of_mem_digits, value_digits]

def printInt (v : Int) : List Char := if v < 0 then '-' :: print v.natAbs else print v.natAbs

theorem integer?_printInt (v : Int) : integer? (printInt v) = some v := by
  unfold integer? printInt
  by_cases hv : v < 0
  · rw [if_pos hv]
    show (natural? (print v.natAbs)).map (fun (n : Nat) => -(n : Int)) = some v
    rw [natural?_print_nat, Option.map_some]
    congr 1
    omega
  · have hsigned := signed_print_append v.natAbs []
    rw [List.append_nil] at hsigned
    rw [if_neg hv, hsigned, natural?_print_nat, Option.map_some]
    congr 1
    simp only [Bool.false_eq_true, if_false]
    omega

end Susanow.Decimal
