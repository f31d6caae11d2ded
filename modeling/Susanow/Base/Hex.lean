import Mathlib.Data.Nat.Digits.Lemmas

/-! Hexadecimal numbers in `printf` and `scanf`.

The same `%04x` means two things. Printing, four is the least number of digits, filled with
zeros; scanning, it is the largest number of characters read. So a number is scanned back as
it was printed exactly when it fits the width (`scan_print`), and one that does not leaves
its last digits in the input (`scan_print_wide`). -/
namespace Susanow.Hex

/-! ### Digits -/

def digitChar (upper : Bool) (d : Nat) : Char :=
  if d < 10 then Char.ofNat (48 + d) else Char.ofNat ((if upper then 55 else 87) + d)

def digit? (c : Char) : Option Nat :=
  if 48 ≤ c.toNat ∧ c.toNat ≤ 57 then some (c.toNat - 48)
  else if 65 ≤ c.toNat ∧ c.toNat ≤ 70 then some (c.toNat - 55)
  else if 97 ≤ c.toNat ∧ c.toNat ≤ 102 then some (c.toNat - 87)
  else none

theorem digit?_digitChar {d : Nat} (hd : d < 16) (upper : Bool) : digit? (digitChar upper d) = some d := by
  revert upper
  revert d
  decide

/-- A character that is no digit is not printed as one. -/
theorem digitChar_ne {d : Nat} (hd : d < 16) (upper : Bool) {c : Char} (hc : digit? c = none) :
    digitChar upper d ≠ c := by
  intro h
  rw [← h, digit?_digitChar hd] at hc
  cases hc

/-! ### Printing -/

/-- The digits of `n`, the first one first, at least `w` of them and at least one. -/
def digits (w n : Nat) : List Nat := (Nat.digits 16 n).reverse.leftpad (max w 1) 0

/-- `%0wx`, or `%0wX`. -/
def print (upper : Bool) (w n : Nat) : List Char := (digits w n).map (digitChar upper)

/-- What a row of digits is worth. -/
def value (ds : List Nat) : Nat := ds.foldl (fun acc d => 16 * acc + d) 0

theorem foldl_eq (acc : Nat) (ds : List Nat) :
    ds.foldl (fun acc d => 16 * acc + d) acc = Nat.ofDigits 16 ds.reverse + 16 ^ ds.length * acc := by
  induction ds generalizing acc with
  | nil => simp
  | cons d ds ih =>
    rw [List.foldl_cons, ih, List.reverse_cons, Nat.ofDigits_append, List.length_reverse, Nat.ofDigits_singleton,
      List.length_cons, pow_succ]
    ring

theorem value_eq (ds : List Nat) : value ds = Nat.ofDigits 16 ds.reverse := by
  rw [value, foldl_eq, Nat.mul_zero, Nat.add_zero]

theorem lt_of_mem_digits {w n d : Nat} (h : d ∈ digits w n) : d < 16 := by
  rcases List.mem_append.mp h with h | h
  · rw [List.eq_of_mem_replicate h]
    decide
  · exact Nat.digits_lt_base (by decide) (List.mem_reverse.mp h)

theorem value_digits (w n : Nat) : value (digits w n) = n := by
  rw [value_eq, digits, List.leftpad, List.reverse_append, List.reverse_reverse, List.reverse_replicate,
    Nat.ofDigits_append_replicate_zero, Nat.ofDigits_digits]

theorem length_digits {w n : Nat} (hw : 0 < w) : (digits w n).length = max w (Nat.digits 16 n).length := by
  rw [digits, List.length_leftpad, List.length_reverse, Nat.max_eq_left hw]

/-- A number that fits is printed with as many digits as asked for. -/
theorem length_digits_fit {w n : Nat} (hw : 0 < w) (hn : n < 16 ^ w) : (digits w n).length = w := by
  rw [length_digits hw]
  exact Nat.max_eq_left (Nat.digits_length_le_iff (by decide) n |>.mpr hn)

theorem lt_length_digits {w n : Nat} (hw : 0 < w) (hn : 16 ^ w ≤ n) : w < (digits w n).length := by
  rw [length_digits hw]
  exact lt_max_of_lt_right (Nat.lt_digits_length_iff (by decide) n |>.mpr hn)

theorem print_injective (upper : Bool) (w : Nat) : Function.Injective (print upper w) := by
  intro n m h
  have hread (n : Nat) : (print upper w n).filterMap digit? = digits w n := by
    rw [print, List.filterMap_map]
    have hsome : ∀ d ∈ digits w n, (digit? ∘ digitChar upper) d = some d := fun d hd =>
      digit?_digitChar (lt_of_mem_digits hd) upper
    rw [List.filterMap_congr hsome, List.filterMap_some]
  rw [← value_digits w n, ← hread, h, hread, value_digits]

/-- Only digits are printed. -/
theorem notMem_print {c : Char} (hc : digit? c = none) (upper : Bool) (w n : Nat) : c ∉ print upper w n := by
  intro h
  obtain ⟨d, hd, heq⟩ := List.mem_map.mp h
  exact digitChar_ne (lt_of_mem_digits hd) upper hc heq

/-- So what follows a number tells where it ends. -/
theorem print_cons_inj {upper : Bool} {w n m : Nat} {c : Char} {s t : List Char} (hc : digit? c = none)
    (h : print upper w n ++ c :: s = print upper w m ++ c :: t) : n = m ∧ s = t := by
  have hidx (n : Nat) (s : List Char) : (print upper w n ++ c :: s).idxOf c = (print upper w n).length := by
    rw [List.idxOf_append_of_notMem (notMem_print hc upper w n), List.idxOf_cons_self, Nat.add_zero]
  have hlen : (print upper w n).length = (print upper w m).length := by rw [← hidx n s, h, hidx]
  obtain ⟨hprint, hrest⟩ := List.append_inj h hlen
  exact ⟨print_injective upper w hprint, List.cons_inj_right c |>.mp hrest⟩

/-! ### Scanning -/

/-- Reads at most `w` digits on, from the value `acc` of those already read. -/
def more : Nat → Nat → List Char → Nat × List Char
  | w + 1, acc, c :: s =>
    match digit? c with
    | some d => more w (16 * acc + d) s
    | none => (acc, c :: s)
  | _, acc, s => (acc, s)

/-- Reads at most `w` digits, and at least one. -/
def subject : Nat → List Char → Option (Nat × List Char)
  | w + 1, c :: s => (digit? c).map fun d => more w d s
  | _, _ => none

/-- The digits may follow `0x`, which counts as two of the characters. -/
def prefixed : Nat → List Char → Option (Nat × List Char)
  | w + 2, '0' :: x :: s => if x = 'x' ∨ x = 'X' then subject w s else subject (w + 2) ('0' :: x :: s)
  | w, s => subject w s

/-- A sign may come first; `strtoul` negates in the unsigned type. -/
def signed : Nat → List Char → Option (BitVec 32 × List Char)
  | w + 1, '+' :: s => (prefixed w s).map fun r => (BitVec.ofNat 32 r.1, r.2)
  | w + 1, '-' :: s => (prefixed w s).map fun r => (-BitVec.ofNat 32 r.1, r.2)
  | w, s => (prefixed w s).map fun r => (BitVec.ofNat 32 r.1, r.2)

def isspace (c : Char) : Bool := c == ' ' || (9 ≤ c.toNat && c.toNat ≤ 13)

/-- `%wx`: the number read, and the input after it. -/
def scan (w : Nat) (s : List Char) : Option (BitVec 32 × List Char) := signed w (s.dropWhile isspace)

theorem more_digits (upper : Bool) (ds : List Nat) (hd : ∀ d ∈ ds, d < 16) (acc : Nat) (rest : List Char) :
    more ds.length acc (ds.map (digitChar upper) ++ rest) =
      (ds.foldl (fun acc d => 16 * acc + d) acc, rest) := by
  induction ds generalizing acc with
  | nil => rfl
  | cons d ds ih =>
    obtain ⟨hthis, hrest⟩ := List.forall_mem_cons.mp hd
    simp only [List.length_cons, List.map_cons, List.cons_append, more, digit?_digitChar hthis,
      List.foldl_cons]
    exact ih hrest _

theorem subject_digits (upper : Bool) {ds : List Nat} (hne : ds ≠ []) (hd : ∀ d ∈ ds, d < 16)
    (rest : List Char) :
    subject ds.length (ds.map (digitChar upper) ++ rest) = some (value ds, rest) := by
  obtain ⟨d, ds, rfl⟩ := List.exists_cons_of_ne_nil hne
  obtain ⟨hthis, hrest⟩ := List.forall_mem_cons.mp hd
  simp only [List.length_cons, List.map_cons, List.cons_append, subject, digit?_digitChar hthis,
    Option.map_some, more_digits upper ds hrest]
  simp [value]

theorem prefixed_single {c : Char} {rest : List Char} : prefixed 1 (c :: rest) = subject 1 (c :: rest) := by
  cases rest <;> rfl

/-- The prefix needs an `x`. -/
theorem prefixed_eq_subject {w : Nat} {c x : Char} {rest : List Char} (hx : x ≠ 'x' ∧ x ≠ 'X') :
    prefixed (w + 2) (c :: x :: rest) = subject (w + 2) (c :: x :: rest) := by
  unfold prefixed
  split
  · rename_i hw heq
    cases hw
    cases heq
    rw [if_neg (not_or.mpr hx)]
  · rfl

theorem prefixed_digits (upper : Bool) {ds : List Nat} (hne : ds ≠ []) (hd : ∀ d ∈ ds, d < 16)
    (rest : List Char) :
    prefixed ds.length (ds.map (digitChar upper) ++ rest) = some (value ds, rest) := by
  rw [← subject_digits upper hne hd rest]
  match ds, hne, hd with
  | [_], _, _ => exact prefixed_single
  | d :: e :: ds, _, hd =>
    have he : e < 16 := hd e (by simp)
    exact prefixed_eq_subject ⟨digitChar_ne he upper (by decide), digitChar_ne he upper (by decide)⟩

theorem signed_eq_prefixed {w : Nat} {c : Char} {s : List Char} (hc : c ≠ '+' ∧ c ≠ '-') :
    signed w (c :: s) = (prefixed w (c :: s)).map fun r => (BitVec.ofNat 32 r.1, r.2) := by
  unfold signed
  split
  · rename_i heq
    cases heq
    exact absurd rfl hc.1
  · rename_i heq
    cases heq
    exact absurd rfl hc.2
  · rfl

theorem not_isspace_digitChar {d : Nat} (hd : d < 16) (upper : Bool) : isspace (digitChar upper d) = false := by
  revert upper
  revert d
  decide

/-- A row of digits is read as the number it stands for. -/
theorem scan_digits (upper : Bool) {ds : List Nat} (hne : ds ≠ []) (hd : ∀ d ∈ ds, d < 16)
    (rest : List Char) :
    scan ds.length (ds.map (digitChar upper) ++ rest) = some (BitVec.ofNat 32 (value ds), rest) := by
  have hprefixed := prefixed_digits upper hne hd rest
  obtain ⟨d, ds, rfl⟩ := List.exists_cons_of_ne_nil hne
  have hthis : d < 16 := hd d List.mem_cons_self
  rw [List.map_cons, List.cons_append] at hprefixed ⊢
  rw [scan, List.dropWhile_cons_of_neg (by rw [not_isspace_digitChar hthis]; decide)]
  rw [signed_eq_prefixed ⟨digitChar_ne hthis upper (by decide), digitChar_ne hthis upper (by decide)⟩]
  rw [hprefixed, Option.map_some]

/-- A number that fits its width is scanned as it was printed. -/
theorem scan_print (upper : Bool) {w n : Nat} (hw : 0 < w) (hn : n < 16 ^ w) (rest : List Char) :
    scan w (print upper w n ++ rest) = some (BitVec.ofNat 32 n, rest) := by
  have hlen := length_digits_fit hw hn
  have hne : digits w n ≠ [] := List.ne_nil_of_length_pos (by omega)
  have h := scan_digits upper hne (fun d => lt_of_mem_digits) rest
  rwa [hlen, value_digits] at h

theorem value_lt {ds : List Nat} (hd : ∀ d ∈ ds, d < 16) : value ds < 16 ^ ds.length := by
  rw [value_eq, ← List.length_reverse]
  exact Nat.ofDigits_lt_base_pow_length (by decide) fun d h => hd d (List.mem_reverse.mp h)

/-- One that does not is cut: what is read is less, and the input goes on with a digit. -/
theorem scan_print_wide (upper : Bool) {w n : Nat} (hw : 0 < w) (hn : 16 ^ w ≤ n) (rest : List Char) :
    ∃ v c s, v < 16 ^ w ∧ digit? c ≠ none ∧
      scan w (print upper w n ++ rest) = some (BitVec.ofNat 32 v, c :: s) := by
  have hlt := lt_length_digits hw hn
  have hleft : (digits w n)[w] < 16 := lt_of_mem_digits (List.getElem_mem hlt)
  have hdigit : ∀ d ∈ (digits w n).take w, d < 16 := fun d h => lt_of_mem_digits (List.mem_of_mem_take h)
  have hlen : ((digits w n).take w).length = w := List.length_take_of_le hlt.le
  have hne : (digits w n).take w ≠ [] := List.ne_nil_of_length_pos (by omega)
  let left := ((digits w n).drop (w + 1)).map (digitChar upper) ++ rest
  have hcut : print upper w n ++ rest =
      ((digits w n).take w).map (digitChar upper) ++ digitChar upper (digits w n)[w] :: left := by
    rw [print, ← List.cons_append, ← List.map_cons, ← List.drop_eq_getElem_cons hlt, ← List.append_assoc,
      ← List.map_append, List.take_append_drop]
  have hread := scan_digits upper hne hdigit (digitChar upper (digits w n)[w] :: left)
  rw [hlen, ← hcut] at hread
  have hvalue : value ((digits w n).take w) < 16 ^ w := by
    conv_rhs => rw [← hlen]
    exact value_lt hdigit
  refine ⟨_, _, _, hvalue, ?_, hread⟩
  rw [digit?_digitChar hleft]
  exact Option.some_ne_none _

/-! ### A format -/

/-- What a `scanf` format asks for in turn. -/
inductive Directive
  | hex (w : Nat)
  | lit (c : Char)
  deriving DecidableEq, Repr

/-- The numbers `sscanf` has converted when the input ends or does not match; it returns how many. -/
def sscanf : List Directive → List Char → List (BitVec 32)
  | .hex w :: fmt, s =>
    match scan w s with
    | some (v, rest) => v :: sscanf fmt rest
    | none => []
  | .lit c :: fmt, d :: s => if c = d then sscanf fmt s else []
  | _, _ => []

theorem sscanf_hex {w : Nat} {fmt : List Directive} {s rest : List Char} {v : BitVec 32}
    (h : scan w s = some (v, rest)) : sscanf (.hex w :: fmt) s = v :: sscanf fmt rest := by
  rw [sscanf, h]

theorem sscanf_lit (c : Char) (fmt : List Directive) (s : List Char) :
    sscanf (.lit c :: fmt) (c :: s) = sscanf fmt s := by
  rw [sscanf, if_pos rfl]

theorem sscanf_lit_ne {c d : Char} (h : c ≠ d) (fmt : List Directive) (s : List Char) :
    sscanf (.lit c :: fmt) (d :: s) = [] := by
  rw [sscanf, if_neg h]

end Susanow.Hex
