import Mathlib.Data.Nat.Size
import Susanow.Base.Decimal

/-! Doubles, and what `%g` prints of them.

A power of two is a decimal number, and so every finite double is one: a `coefficient` over
a power of ten, whose digits are printed and rounded like those of any other
(`read_print`). -/
namespace Susanow

/-- `mantissa * 2 ^ (exponent - 1074)` with its sign, an infinity, or no number. -/
inductive Double
  | finite (neg : Bool) (mantissa : Fin (2 ^ 53)) (exponent : Fin 2046)
  | inf (neg : Bool)
  | nan (neg : Bool)
  deriving DecidableEq, Repr

namespace Double
open Decimal (digits rounded roundAt printG read isDigit)

def Finite : Double → Prop
  | finite _ _ _ => True
  | _ => False

instance : DecidablePred Finite
  | finite _ _ _ => isTrue trivial
  | inf _ => isFalse id
  | nan _ => isFalse id

/-- Of the decimal number that the double is without its sign. -/
def coefficient (mantissa exponent : Nat) : Nat := mantissa * (5 ^ (1074 - exponent) * 2 ^ (exponent - 1074))

/-- How many places it has behind the point. -/
def scale (exponent : Nat) : Nat := 1074 - exponent

def signed (neg : Bool) (q : ℚ) : ℚ := if neg then -q else q

def value : Double → Option ℚ
  | finite neg m e => some (signed neg (m * 2 ^ ((e : Int) - 1074)))
  | _ => none

/-- To six digits, the nearest number or the even one of two. -/
def sixDigits : Double → Option ℚ
  | finite neg m e => some (signed neg (rounded 6 (coefficient m e) / 10 ^ scale e))
  | _ => none

/-- The decimal number has no more than six digits, zeros at its end apart. -/
def Short : Double → Prop
  | finite _ m e => 10 ^ ((digits (coefficient m e)).length - 6) ∣ coefficient m e
  | _ => True

def minus (neg : Bool) : List Char := if neg then ['-'] else []

/-- `%g` -/
def print : Double → List Char
  | finite neg m e => minus neg ++ printG 6 (coefficient m e) (scale e)
  | inf neg => minus neg ++ ['i', 'n', 'f']
  | nan neg => minus neg ++ ['n', 'a', 'n']

theorem print_finite (neg : Bool) (m : Fin (2 ^ 53)) (e : Fin 2046) :
    (finite neg m e).print = minus neg ++ printG 6 (coefficient m e) (scale e) := rfl

/-- What an unsigned word is converted to: itself, if it has no more than 53 bits, and otherwise the
nearest double or the even one of two. -/
def ofWord (w : BitVec 64) : Double :=
  have hk : w.toNat.size - 53 ≤ 11 := by
    have hsize : w.toNat.size ≤ 64 := Nat.size_le.mpr w.isLt
    omega
  if h : roundAt (2 ^ (w.toNat.size - 53)) w.toNat < 2 ^ 53 then
    finite false ⟨_, h⟩ ⟨1074 + (w.toNat.size - 53), by omega⟩
  else finite false ⟨2 ^ 52, by decide⟩ ⟨1075 + (w.toNat.size - 53), by omega⟩

-- a quarter, and what is taken for a tenth
example : print (finite false ⟨2 ^ 52, by decide⟩ ⟨1020, by decide⟩) = "0.25".toList := by decide +kernel
example : print (finite true ⟨0x1999999999999a, by decide⟩ ⟨1018, by decide⟩) = "-0.1".toList := by decide +kernel

theorem coefficient_div (m e : Nat) : (coefficient m e : ℚ) / 10 ^ scale e = m * 2 ^ ((e : Int) - 1074) := by
  unfold coefficient scale
  obtain ⟨k, hk⟩ | ⟨k, hk⟩ : (∃ k, 1074 = e + k) ∨ ∃ k, e = 1074 + k := by
    rcases Nat.le_total e 1074 with h | h
    · exact .inl (Nat.exists_eq_add_of_le h)
    · exact .inr (Nat.exists_eq_add_of_le h)
  · have hsub : 1074 - e = k := by omega
    have hsub' : e - 1074 = 0 := by omega
    have hexp : (e : Int) - 1074 = -(k : Int) := by omega
    have hten : (10 : ℚ) ^ k = 5 ^ k * 2 ^ k := by
      rw [← mul_pow]
      norm_num
    rw [hsub, hsub', hexp, zpow_neg, zpow_natCast]
    push_cast
    rw [hten]
    field_simp
  · have hsub : 1074 - e = 0 := by omega
    have hsub' : e - 1074 = k := by omega
    have hexp : (e : Int) - 1074 = k := by omega
    rw [hsub, hsub', hexp, zpow_natCast]
    push_cast
    ring

/-- What is printed begins with a digit, behind the sign. -/
theorem read_minus {c : Char} {s : List Char} (hc : isDigit c = true) (neg : Bool) :
    read (minus neg ++ c :: s) = (read (c :: s)).map (signed neg) := by
  cases neg with
  | false =>
    have hid : signed false = id := rfl
    rw [hid, Option.map_id]
    rfl
  | true => exact Decimal.read_neg hc

/-- **What is printed of a double is read as the double to six digits.** -/
theorem read_print (d : Double) : read d.print = d.sixDigits := by
  cases d with
  | finite neg m e =>
    obtain ⟨c, s, hs, hc⟩ := Decimal.printG_cons 6 (coefficient m e) (scale e)
    have hread := Decimal.read_printG (p := 6) (by decide) (coefficient m e) (scale e)
    rw [hs] at hread
    rw [print, hs, read_minus hc, hread]
    rfl
  | inf neg => cases neg <;> decide
  | nan neg => cases neg <;> decide

/-- That is the double just when it has no more. -/
theorem read_print_iff (d : Double) : read d.print = d.value ↔ d.Short := by
  rw [read_print]
  cases d with
  | finite neg m e =>
    have hpow : (10 : ℚ) ^ scale e ≠ 0 := pow_ne_zero _ (by norm_num)
    have hsigned (a b : ℚ) : signed neg a = signed neg b ↔ a = b := by
      cases neg with
      | false => exact Iff.rfl
      | true => exact neg_inj
    rw [sixDigits, value, Option.some.injEq, hsigned, ← coefficient_div, div_left_inj' hpow, Nat.cast_inj,
      Decimal.rounded_eq_iff, Short]
  | inf neg => exact iff_of_true rfl trivial
  | nan neg => exact iff_of_true rfl trivial

/-- A word of no more than 53 bits is printed like the number it is. -/
theorem print_ofWord {w : BitVec 64} (hw : w.toNat < 2 ^ 53) : (ofWord w).print = printG 6 w.toNat 0 := by
  have hsize : w.toNat.size - 53 = 0 := Nat.sub_eq_zero_of_le (Nat.size_le.mpr hw)
  have hround : roundAt 1 w.toNat = w.toNat := by
    simp [roundAt, Nat.mod_one]
  have hfinite : roundAt (2 ^ (w.toNat.size - 53)) w.toNat < 2 ^ 53 := by rwa [hsize, pow_zero, hround]
  rw [ofWord, dif_pos hfinite, print]
  simp [hsize, hround, coefficient, scale, minus]

theorem finite_ofWord (w : BitVec 64) : (ofWord w).Finite := by
  unfold ofWord
  split <;> trivial

end Double

end Susanow
