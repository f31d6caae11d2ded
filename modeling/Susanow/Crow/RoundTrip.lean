import Susanow.Crow.Json

/-! What is printed is loaded.

Whatever the strings of a `wvalue` are, the loader takes the text that is printed of it, and
gives the value back but for its numbers: those are printed to six digits, and what is
printed of an infinity or of no number is not taken at all (`load_dump`). -/
namespace Susanow.Crow.Json
open Decimal (isDigit digitChar digitChar_spec fraction exponent scientific fixed printG isDigit_of_mem_map
  lt_of_mem_digits)

/-! ### Numbers -/

/-- What follows a value does not go on with a number. -/
def Ends (rest : List Char) : Prop := ∀ c ∈ rest.head?, inNumber c = false

theorem inNumber_of_isDigit {c : Char} (hc : isDigit c = true) : inNumber c = true := by
  simp [inNumber, hc]

theorem not_isDigit_of_ends {rest : List Char} (h : Ends rest) : ∀ c ∈ rest.head?, isDigit c = false := by
  intro c hc
  by_contra hdigit
  have hin := inNumber_of_isDigit (Bool.eq_true_of_not_eq_false hdigit)
  rw [h c hc] at hin
  cases hin

section Number
open NumberParsingState
variable {st : NumberParsingState} {s text rest ds : List Char} {ds' : List Nat} {skip : Bool}

/-- One character more. -/
theorem decodeNumber_cons {c : Char} {st' : NumberParsingState} (hc : inNumber c = true) (hnext : st.next c = some st')
    (hskip : (skip && isDigit c) = false) (hrun : decodeNumber st' (isDigit c && c != '0') s = .ok (text, rest)) :
    decodeNumber st skip (c :: s) = .ok (c :: text, rest) := by
  simp [decodeNumber, hskip, hc, hnext, hrun]

/-- Where no digit follows, the loop over the digits is over. -/
theorem decodeNumber_skip (hs : ∀ c ∈ s.head?, isDigit c = false) (skip : Bool) :
    decodeNumber st skip s = decodeNumber st false s := by
  cases s with
  | nil => rfl
  | cons c s =>
    have hc : isDigit c = false := hs c rfl
    simp [decodeNumber, hc]

/-- A digit that does not change the state is part of the number, however it is gone over. -/
theorem decodeNumber_digits (hstay : ∀ c, isDigit c = true → st.next c = some st) (hds : ∀ c ∈ ds, isDigit c = true)
    (hs : ∀ c ∈ s.head?, isDigit c = false) (hrun : decodeNumber st false s = .ok (text, rest)) (skip : Bool) :
    decodeNumber st skip (ds ++ s) = .ok (ds ++ text, rest) := by
  induction ds generalizing skip with
  | nil => rw [List.nil_append, List.nil_append, decodeNumber_skip hs, hrun]
  | cons c ds ih =>
    have hc : isDigit c = true := hds c List.mem_cons_self
    have hih := ih fun c' hc' => hds c' (List.mem_cons_of_mem c hc')
    cases skip with
    | true => simp [decodeNumber, hc, hih true]
    | false => simp [decodeNumber, hc, inNumber_of_isDigit hc, hstay c hc, hih]

theorem decodeNumber_end (hfinal : st.final = true) (hrest : Ends rest) :
    decodeNumber st false rest = .ok ([], rest) := by
  cases rest with
  | nil => simp [decodeNumber, hfinal]
  | cons c rest =>
    have hc : inNumber c = false := hrest c rfl
    simp [decodeNumber, hc, hfinal]

theorem next_digits {c : Char} (hc : isDigit c = true) : NumberParsingState.digits.next c = some .digits := by
  unfold next
  split_ifs <;> rfl

theorem next_digitsAfterPoints {c : Char} (hc : isDigit c = true) :
    digitsAfterPoints.next c = some digitsAfterPoints := by
  unfold next
  split_ifs <;> rfl

theorem next_digitsAfterE {c : Char} (hc : isDigit c = true) : digitsAfterE.next c = some digitsAfterE := by
  unfold next
  split_ifs <;> rfl

/-- Behind a minus sign a digit is what it is without. -/
theorem decodeNumber_afterMinus {c : Char} (hc : isDigit c = true) (s : List Char) :
    decodeNumber .afterMinus false (c :: s) = decodeNumber .minus false (c :: s) := by
  have hnext : afterMinus.next c = minus.next c := by
    unfold next
    split_ifs <;> rfl
  simp [decodeNumber, inNumber_of_isDigit hc, hnext]

theorem next_first {d : Nat} (hd : d < 10) (hne : d ≠ 0) : minus.next (digitChar d) = some .digits := by
  revert d
  decide

/-- An exponent that is printed ends a number. -/
theorem decodeNumber_exponent (hst : st.next 'e' = some .e) (x : Int) (hrest : Ends rest) (skip : Bool) :
    decodeNumber st skip (exponent x ++ rest) = .ok (exponent x, rest) := by
  have hds : ∀ c ∈ ((Decimal.digits x.natAbs).leftpad 2 0).map digitChar, isDigit c = true :=
    isDigit_of_mem_map fun d => Decimal.lt_of_mem_leftpad
  have hrun := decodeNumber_digits (fun _ => next_digitsAfterE) hds (not_isDigit_of_ends hrest)
    (decodeNumber_end (show digitsAfterE.final = true from rfl) hrest) false
  rw [List.append_nil] at hrun
  have hsign : ∀ c ∈ ['-', '+'], inNumber c = true ∧ NumberParsingState.e.next c = some .digitsAfterE ∧
      isDigit c = false := by
    decide
  obtain ⟨hin, hnext, hdigit⟩ := hsign (if x < 0 then '-' else '+') (by split <;> simp)
  have hrun' := decodeNumber_cons hin hnext (Bool.false_and _) (by rwa [hdigit])
  exact decodeNumber_cons rfl hst (Bool.and_false skip) hrun'

/-- A fraction that is printed, or none, and what follows it in the number. -/
theorem decodeNumber_fraction {e : List Char} (hpoint : st.next '.' = some .digitsAfterPoints)
    (hds : ∀ d ∈ ds', d < 10) (he : ∀ c ∈ (e ++ rest).head?, isDigit c = false)
    (hend : ∀ st' ∈ [st, .digitsAfterPoints], ∀ skip, decodeNumber st' skip (e ++ rest) = .ok (e, rest))
    (skip : Bool) : decodeNumber st skip (fraction ds' ++ (e ++ rest)) = .ok (fraction ds' ++ e, rest) := by
  unfold fraction
  dsimp only
  split_ifs with hnone
  · exact hend st List.mem_cons_self skip
  · have hfrac : ∀ c ∈ (ds'.rdropWhile (· == 0)).map digitChar, isDigit c = true :=
      isDigit_of_mem_map fun d hd => hds d ((List.rdropWhile_prefix _ _).subset hd)
    have hrun := decodeNumber_digits (fun _ => next_digitsAfterPoints) hfrac he
      (hend _ (List.mem_cons_of_mem _ List.mem_cons_self) false) false
    exact decodeNumber_cons rfl hpoint (Bool.and_false skip) hrun

theorem decodeNumber_scientific {m : Nat} (hm : m ≠ 0) (x : Int) (hrest : Ends rest) :
    decodeNumber .minus false (scientific m x ++ rest) = .ok (scientific m x, rest) := by
  obtain ⟨d, ds, hds, hlt⟩ := Decimal.digits_cons m
  have hd : d < 10 := hlt d List.mem_cons_self
  have hend : ∀ st' ∈ [NumberParsingState.digits, .digitsAfterPoints], ∀ skip,
      decodeNumber st' skip (exponent x ++ rest) = .ok (exponent x, rest) := by
    intro st' hst'
    have hnext : ∀ st' ∈ [NumberParsingState.digits, .digitsAfterPoints], st'.next 'e' = some .e := by decide
    exact decodeNumber_exponent (hnext st' hst') x hrest
  have hrun := decodeNumber_fraction rfl (fun d' hd' => hlt d' (List.mem_cons_of_mem d hd'))
    (fun c hc => by cases hc; rfl) hend (isDigit (digitChar d) && digitChar d != '0')
  have hin : inNumber (digitChar d) = true := inNumber_of_isDigit (digitChar_spec hd).1
  have hnext := next_first hd (Decimal.head_digits_ne_zero hm hds)
  rw [scientific, hds, List.headD_cons, List.tail_cons, List.cons_append, List.append_assoc]
  exact decodeNumber_cons hin hnext rfl hrun

theorem decodeNumber_fixed {m : Nat} (hm : m ≠ 0) (x : Int) (hrest : Ends rest) :
    decodeNumber .minus false (fixed m x ++ rest) = .ok (fixed m x, rest) := by
  have hdigits : ∀ d ∈ Decimal.digits m, d < 10 := fun d => lt_of_mem_digits
  have hend : ∀ st' : NumberParsingState, st'.final = true → ∀ skip, decodeNumber st' skip rest = .ok ([], rest) :=
    fun st' hfinal skip => (decodeNumber_skip (not_isDigit_of_ends hrest) skip).trans (decodeNumber_end hfinal hrest)
  unfold fixed
  split_ifs with hneg
  · have hds : ∀ d ∈ List.replicate (-x - 1).toNat 0 ++ Decimal.digits m, d < 10 := fun d => Decimal.lt_of_mem_zeros
    have hfinal : ∀ st' ∈ [zeroFirst, .digitsAfterPoints], st'.final = true := by decide
    have hrun := decodeNumber_fraction (e := []) (show zeroFirst.next '.' = some .digitsAfterPoints from rfl) hds
      (not_isDigit_of_ends hrest) (fun st' hst' => hend st' (hfinal st' hst')) false
    rw [List.append_nil] at hrun
    exact decodeNumber_cons (c := '0') rfl rfl rfl hrun
  · obtain ⟨d, ds, hm', hlt⟩ := Decimal.digits_cons m
    have hd : d < 10 := hlt d List.mem_cons_self
    have hfinal : ∀ st' ∈ [NumberParsingState.digits, .digitsAfterPoints], st'.final = true := by decide
    have hfrac : ∀ d' ∈ ds.drop x.toNat, d' < 10 := fun d' hd' => hlt d' (List.mem_cons_of_mem d (List.mem_of_mem_drop hd'))
    have hrun := decodeNumber_fraction (e := [])
      (show NumberParsingState.digits.next '.' = some .digitsAfterPoints from rfl) hfrac (not_isDigit_of_ends hrest)
      (fun st' hst' => hend st' (hfinal st' hst')) false
    have hstop : ∀ c ∈ (fraction (ds.drop x.toNat) ++ rest).head?, isDigit c = false := by
      unfold fraction
      dsimp only
      split_ifs
      · exact not_isDigit_of_ends hrest
      · exact fun c hc => by cases hc; rfl
    have hint : ∀ d' ∈ ds.take x.toNat, d' < 10 := fun d' hd' => hlt d' (List.mem_cons_of_mem d (List.mem_of_mem_take hd'))
    have hrun' := decodeNumber_digits (fun _ => next_digits) (isDigit_of_mem_map hint) hstop hrun
      (isDigit (digitChar d) && digitChar d != '0')
    have hin : inNumber (digitChar d) = true := inNumber_of_isDigit (digitChar_spec hd).1
    have hnext := next_first hd (Decimal.head_digits_ne_zero hm hm')
    rw [List.append_nil] at hrun'
    rw [hm', List.take_succ_cons, List.drop_succ_cons, List.map_cons, List.cons_append, List.cons_append,
      List.append_assoc]
    exact decodeNumber_cons hin hnext rfl hrun'

theorem decodeNumber_print (n : Nat) (hrest : Ends rest) :
    decodeNumber .minus false (Decimal.print n ++ rest) = .ok (Decimal.print n, rest) := by
  by_cases hn : n = 0
  · subst hn
    exact decodeNumber_cons (c := '0') rfl rfl rfl (decodeNumber_end (show zeroFirst.final = true from rfl) hrest)
  · obtain ⟨d, ds, hds, hlt⟩ := Decimal.digits_cons n
    have hd : d < 10 := hlt d List.mem_cons_self
    have hrun := decodeNumber_digits (fun _ => next_digits)
      (isDigit_of_mem_map fun d' hd' => hlt d' (List.mem_cons_of_mem d hd')) (not_isDigit_of_ends hrest)
      (decodeNumber_end (show NumberParsingState.digits.final = true from rfl) hrest)
      (isDigit (digitChar d) && digitChar d != '0')
    have hin : inNumber (digitChar d) = true := inNumber_of_isDigit (digitChar_spec hd).1
    have hnext := next_first hd (Decimal.head_digits_ne_zero hn hds)
    rw [List.append_nil] at hrun
    rw [Decimal.print, hds, List.map_cons, List.cons_append]
    exact decodeNumber_cons hin hnext rfl hrun

theorem decodeNumber_printG (n k : Nat) (hrest : Ends rest) :
    decodeNumber .minus false (printG 6 n k ++ rest) = .ok (printG 6 n k, rest) := by
  unfold printG
  dsimp only
  split_ifs with hn hx
  · exact decodeNumber_print 0 hrest
  · exact decodeNumber_fixed (Decimal.significant_spec (by decide) hn rfl).1 _ hrest
  · exact decodeNumber_scientific (Decimal.significant_spec (by decide) hn rfl).1 _ hrest

/-- What a number begins with that is printed. -/
def startsNumber (c : Char) : Bool := isDigit c || c == '-'

theorem print_cons {d : Double} (hd : d.Finite) : ∃ c s, d.print = c :: s ∧ startsNumber c = true := by
  cases d with
  | finite neg m e =>
    rw [Double.print_finite]
    cases neg with
    | false =>
      obtain ⟨c, s, hs, hc⟩ := Decimal.printG_cons 6 (Double.coefficient m e) (Double.scale e)
      rw [hs]
      exact ⟨c, s, rfl, by rw [startsNumber, hc, Bool.true_or]⟩
    | true => exact ⟨'-', _, rfl, rfl⟩
  | inf neg | nan neg => exact hd.elim

/-- **Every finite number that is printed is taken as one**, up to what follows it. -/
theorem decodeNumber_printed {d : Double} (hd : d.Finite) (hrest : Ends rest) :
    decodeNumber .minus false (d.print ++ rest) = .ok (d.print, rest) := by
  cases d with
  | finite neg m e =>
    have hrun := decodeNumber_printG (Double.coefficient m e) (Double.scale e) hrest
    obtain ⟨c, s, hs, hc⟩ := Decimal.printG_cons 6 (Double.coefficient m e) (Double.scale e)
    rw [Double.print_finite]
    rw [hs] at hrun ⊢
    cases neg with
    | false => exact hrun
    | true =>
      rw [List.cons_append, ← decodeNumber_afterMinus hc] at hrun
      exact decodeNumber_cons (c := '-') rfl rfl rfl hrun
  | inf neg | nan neg => exact hd.elim

end Number

/-! ### Strings -/

section String
variable {c : Char} {s raw rest : List Char}

/-- A control character without a name of its own. -/
theorem hex_control {n : Nat} (hn : n < 0x20) : isHex (toHex (n / 16)) = true ∧ isHex (toHex (n % 16)) = true ∧
    utf8 (fromHex '0' <<< 12 + fromHex '0' <<< 8 + fromHex (toHex (n / 16)) <<< 4 + fromHex (toHex (n % 16))) =
      [Char.ofNat n] := by
  revert n
  decide

theorem stringBody_plain (hquote : c ≠ '"') (hslash : c ≠ '\\') (h : stringBody s = .ok (raw, rest)) :
    stringBody (c :: s) = .ok (c :: raw, rest) := by
  rw [stringBody, h]
  · rfl
  all_goals simp_all

theorem stringBody_escaped (hc : isEscape c = true) (h : stringBody s = .ok (raw, rest)) :
    stringBody ('\\' :: c :: s) = .ok ('\\' :: c :: raw, rest) := by
  have hu : c ≠ 'u' := by
    rintro rfl
    cases hc
  rw [stringBody, if_pos hc, h]
  · rfl
  · simp [hu]

theorem stringBody_escapeChar (c : Char) (h : stringBody s = .ok (raw, rest)) :
    stringBody (escapeChar c ++ s) = .ok (escapeChar c ++ raw, rest) := by
  unfold escapeChar
  split
  case h_8 hquote hslash _ _ _ _ _ =>
    split_ifs with hctl
    · obtain ⟨hhigh, hlow, -⟩ := hex_control hctl
      have hzero : isHex '0' = true := rfl
      simp [stringBody, hzero, hhigh, hlow, h]
    · exact stringBody_plain hquote hslash h
  all_goals exact stringBody_escaped rfl h

/-- The loader finds the end of a string that was escaped. -/
theorem stringBody_escape (s rest : List Char) : stringBody (escape s ++ '"' :: rest) = .ok (escape s, rest) := by
  induction s with
  | nil => rfl
  | cons c s ih =>
    rw [escape, List.flatMap_cons, List.append_assoc]
    exact stringBody_escapeChar c ih

theorem unescape_plain (hslash : c ≠ '\\') : unescape (c :: s) = c :: unescape s := by
  rw [unescape]
  all_goals simp_all

theorem unescape_escaped (hu : c ≠ 'u') : unescape ('\\' :: c :: s) = unescapeChar c ++ unescape s := by
  rw [unescape]
  simp [hu]

theorem unescape_escapeChar (c : Char) (s : List Char) : unescape (escapeChar c ++ s) = c :: unescape s := by
  unfold escapeChar
  split
  case h_8 hquote hslash _ _ _ _ _ =>
    split_ifs with hctl
    · obtain ⟨-, -, hutf8⟩ := hex_control hctl
      change unescape ('\\' :: 'u' :: '0' :: '0' :: toHex (c.toNat / 16) :: toHex (c.toNat % 16) :: s) = _
      rw [unescape, hutf8, Char.ofNat_toNat]
      rfl
    · exact unescape_plain hslash
  all_goals exact unescape_escaped (by decide)

/-- **Every string is read as it was**, whatever its characters. -/
theorem unescape_escape (s : List Char) : unescape (escape s) = s := by
  induction s with
  | nil => rfl
  | cons c s ih => rw [escape, List.flatMap_cons, unescape_escapeChar, ← escape, ih]

end String

/-! ### Values -/

mutual

/-- What the loader makes of a value that was printed. -/
def loaded : Wvalue → Rvalue
  | .null => .null
  | .bool b => .bool b
  | .number d => .number d.print
  | .string s => .string (escape s)
  | .list l => .list (loadedItems l)
  | .object o => .object (loadedMembers o)

def loadedItems : List Wvalue → List Rvalue
  | [] => []
  | v :: l => loaded v :: loadedItems l

def loadedMembers : List (List Char × Wvalue) → List (List Char × Rvalue)
  | [] => []
  | (k, v) :: o => (k, loaded v) :: loadedMembers o

end

mutual

/-- Every number of the value is finite. -/
def finite : Wvalue → Bool
  | .null => true
  | .bool _ => true
  | .number d => decide d.Finite
  | .string _ => true
  | .list l => itemsFinite l
  | .object o => membersFinite o

def itemsFinite : List Wvalue → Bool
  | [] => true
  | v :: l => finite v && itemsFinite l

def membersFinite : List (List Char × Wvalue) → Bool
  | [] => true
  | (_, v) :: o => finite v && membersFinite o

end

/-- A text that is taken for `x`, or is wrong. -/
def taken {α : Type} (ok : Bool) (x : α) : Except Fail α := if ok then .ok x else .error .error

/-- What a value may begin with. -/
def begins (c : Char) : Bool := startsNumber c || "intf\"[\x7b".toList.contains c

theorem dump_cons (v : Wvalue) : ∃ c s, dump v = c :: s ∧ begins c = true := by
  cases v with
  | number d =>
    by_cases hd : d.Finite
    · obtain ⟨c, s, hs, hc⟩ := print_cons hd
      exact ⟨c, s, by rw [dump, hs], by rw [begins, hc, Bool.true_or]⟩
    · cases d with
      | finite => exact absurd trivial hd
      | inf neg | nan neg => cases neg <;> exact ⟨_, _, rfl, rfl⟩
  | bool b => cases b <;> exact ⟨_, _, rfl, rfl⟩
  | _ => exact ⟨_, _, rfl, rfl⟩

theorem wsSkip_cons {c : Char} (hc : isWs c = false) (s : List Char) : wsSkip (c :: s) = c :: s := by
  simp [wsSkip, hc]

theorem not_isWs_of_begins {c : Char} (hc : begins c = true) : isWs c = false := by
  by_contra hws
  simp only [isWs, Bool.not_eq_false, Bool.or_eq_true, beq_iff_eq] at hws
  obtain ((rfl | rfl) | rfl) | rfl := hws <;> cases hc

theorem wsSkip_dump (v : Wvalue) (s : List Char) : wsSkip (dump v ++ s) = dump v ++ s := by
  obtain ⟨c, t, hdump, hc⟩ := dump_cons v
  rw [hdump, List.cons_append, wsSkip_cons (not_isWs_of_begins hc)]

theorem dumpItems_cons {v : Wvalue} {l : List Wvalue} : dumpItems true (v :: l) = dump v ++ dumpItems false l := by
  simp [dumpItems]

theorem dumpItems_false {l : List Wvalue} (hl : l ≠ []) : dumpItems false l = ',' :: dumpItems true l := by
  cases l with
  | nil => exact absurd rfl hl
  | cons v l => simp [dumpItems]

theorem decodeValue_digit {c : Char} {s text rest : List Char} {n : Nat} (hc : startsNumber c = true)
    (h : decodeNumber .minus false (c :: s) = .ok (text, rest)) :
    decodeValue (n + 1) (c :: s) = .ok (.number text, rest) := by
  rw [decodeValue, h]
  · rfl
  -- no other value begins with a digit or a minus sign
  all_goals
    intros
    rename_i heq
    cases heq
    cases hc

theorem decodeValue_number (d : Double) {n : Nat} {rest : List Char} (hrest : Ends rest) :
    decodeValue (n + 1) (d.print ++ rest) = taken d.Finite (.number d.print, rest) := by
  by_cases hd : d.Finite
  · obtain ⟨c, s, hs, hc⟩ := print_cons hd
    have hrun := decodeNumber_printed hd hrest
    rw [taken, if_pos (decide_eq_true hd)]
    rw [hs] at hrun ⊢
    exact decodeValue_digit hc hrun
  · rw [taken, if_neg (by simpa using hd)]
    cases d with
    | finite => exact absurd trivial hd
    | inf neg | nan neg => cases neg <;> rfl

section Steps
variable {n : Nat} {c : Char} {v : Rvalue} {l : List Rvalue} {k raw : List Char} {o : List (List Char × Rvalue)}
  {s s' rest : List Char} {ok ok' : Bool}

theorem decodeValue_list (hc : begins c = true) (h : decodeItems n (c :: s) = taken ok (l, rest)) :
    decodeValue (n + 1) ('[' :: c :: s) = taken ok (.list l, rest) := by
  rw [decodeValue, wsSkip_cons (not_isWs_of_begins hc)]
  split
  · rename_i heq
    cases heq
    cases hc
  · rw [h]
    cases ok <;> rfl

theorem decodeValue_object (h : decodeMembers n ('"' :: s) = taken ok (o, rest)) :
    decodeValue (n + 1) ('{' :: '"' :: s) = taken ok (.object o, rest) := by
  rw [decodeValue, wsSkip_cons rfl]
  change (decodeMembers n ('"' :: s) >>= _) = _
  rw [h]
  cases ok <;> rfl

theorem decodeItems_last (h : decodeValue n s = taken ok (v, ']' :: rest)) :
    decodeItems (n + 1) s = taken ok ([v], rest) := by
  rw [decodeItems, h]
  cases ok <;> rfl

theorem decodeItems_more (h : decodeValue n s = taken ok (v, ',' :: s')) (hs : wsSkip s' = s')
    (hl : decodeItems n s' = taken ok' (l, rest)) : decodeItems (n + 1) s = taken (ok && ok') (v :: l, rest) := by
  rw [decodeItems, h]
  cases ok with
  | false => rfl
  | true =>
    change (decodeItems n (wsSkip s') >>= _) = _
    rw [hs, hl]
    cases ok' <;> rfl

theorem decodeMembers_last (hk : stringBody s = .ok (raw, ':' :: s')) (hs : wsSkip s' = s')
    (h : decodeValue n s' = taken ok (v, '}' :: rest)) :
    decodeMembers (n + 1) ('"' :: s) = taken ok ([(unescape raw, v)], rest) := by
  rw [decodeMembers, hk]
  change (decodeValue n (wsSkip s') >>= _) = _
  rw [hs, h]
  cases ok <;> rfl

theorem decodeMembers_more {s'' : List Char} (hk : stringBody s = .ok (raw, ':' :: s')) (hs : wsSkip s' = s')
    (h : decodeValue n s' = taken ok (v, ',' :: s'')) (hs' : wsSkip s'' = s'')
    (ho : decodeMembers n s'' = taken ok' (o, rest)) :
    decodeMembers (n + 1) ('"' :: s) = taken (ok && ok') ((unescape raw, v) :: o, rest) := by
  rw [decodeMembers, hk]
  change (decodeValue n (wsSkip s') >>= _) = _
  rw [hs, h]
  cases ok with
  | false => rfl
  | true =>
    change (decodeMembers n (wsSkip s'') >>= _) = _
    rw [hs', ho]
    cases ok' <;> rfl

end Steps

theorem dumpMembers_cons {k : List Char} {v : Wvalue} {o : List (List Char × Wvalue)} :
    dumpMembers true ((k, v) :: o) = '"' :: (escape k ++ '"' :: ':' :: (dump v ++ dumpMembers false o)) := by
  simp [dumpMembers, dumpString]

theorem dumpMembers_false {o : List (List Char × Wvalue)} (ho : o ≠ []) :
    dumpMembers false o = ',' :: dumpMembers true o := by
  cases o with
  | nil => exact absurd rfl ho
  | cons kv o => simp [dumpMembers]

mutual

/-- **A value that is printed is loaded** if its numbers are finite, whatever follows it, if that does
not go on with a number. -/
theorem decodeValue_dump : ∀ (v : Wvalue) (n : Nat) (rest : List Char), 2 * (dump v).length < n → Ends rest →
    decodeValue n (dump v ++ rest) = taken (finite v) (loaded v, rest)
  | _, 0, _, hn, _ => absurd hn (Nat.not_lt_zero _)
  | .null, n + 1, rest, _, _ => rfl
  | .bool true, n + 1, rest, _, _ => rfl
  | .bool false, n + 1, rest, _, _ => rfl
  | .number d, n + 1, rest, _, hrest => by
    rw [dump, loaded, finite]
    exact decodeValue_number d hrest
  | .string s, n + 1, rest, _, _ => by
    have hbody := stringBody_escape s rest
    rw [dump, loaded, finite, dumpString, List.cons_append, List.append_assoc, decodeValue, List.singleton_append, hbody]
    rfl
  | .list [], n + 1, rest, _, _ => rfl
  | .list (v :: l), n + 1, rest, hn, _ => by
    have hlen : 2 * (dumpItems true (v :: l)).length ≤ n := by
      rw [dump, List.length_cons] at hn
      omega
    have hrun := decodeItems_dump (v :: l) n rest (List.cons_ne_nil v l) hlen
    obtain ⟨c, s, hs, hc⟩ := dump_cons v
    rw [dumpItems_cons, hs] at hrun
    rw [dump, dumpItems_cons, hs, loaded, finite]
    exact decodeValue_list hc hrun
  | .object [], n + 1, rest, _, _ => rfl
  | .object ((k, v) :: o), n + 1, rest, hn, _ => by
    have hlen : 2 * (dumpMembers true ((k, v) :: o)).length ≤ n := by
      rw [dump, List.length_cons] at hn
      omega
    have hrun := decodeMembers_dump ((k, v) :: o) n rest (List.cons_ne_nil _ o) hlen
    rw [dumpMembers_cons] at hrun
    rw [dump, dumpMembers_cons, loaded, finite]
    exact decodeValue_object hrun

theorem decodeItems_dump : ∀ (l : List Wvalue) (n : Nat) (rest : List Char), l ≠ [] →
    2 * (dumpItems true l).length ≤ n →
    decodeItems n (dumpItems true l ++ rest) = taken (itemsFinite l) (loadedItems l, rest)
  | [], _, _, hl, _ => absurd rfl hl
  | v :: l, 0, rest, _, hn => by
    rw [dumpItems_cons] at hn
    obtain ⟨c, s, hs, -⟩ := dump_cons v
    simp [hs] at hn
  | [v], n + 1, rest, _, hn => by
    have hrun := decodeValue_dump v n (']' :: rest) (by simp [dumpItems] at hn; omega) (fun c hc => by cases hc; rfl)
    rw [dumpItems_cons, List.append_assoc, itemsFinite, itemsFinite, Bool.and_true]
    exact decodeItems_last hrun
  | v :: w :: l, n + 1, rest, _, hn => by
    rw [dumpItems_cons, dumpItems_false (List.cons_ne_nil w l), List.length_append, List.length_cons] at hn
    have hrun := decodeValue_dump v n (',' :: (dumpItems true (w :: l) ++ rest)) (by omega) (fun c hc => by cases hc; rfl)
    have hmore := decodeItems_dump (w :: l) n rest (List.cons_ne_nil w l) (by omega)
    have hws : wsSkip (dumpItems true (w :: l) ++ rest) = dumpItems true (w :: l) ++ rest := by
      rw [dumpItems_cons, List.append_assoc, wsSkip_dump]
    rw [dumpItems_cons, dumpItems_false (List.cons_ne_nil w l), List.append_assoc, itemsFinite]
    exact decodeItems_more hrun hws hmore

theorem decodeMembers_dump : ∀ (o : List (List Char × Wvalue)) (n : Nat) (rest : List Char), o ≠ [] →
    2 * (dumpMembers true o).length ≤ n →
    decodeMembers n (dumpMembers true o ++ rest) = taken (membersFinite o) (loadedMembers o, rest)
  | [], _, _, ho, _ => absurd rfl ho
  | (k, v) :: o, 0, rest, _, hn => by
    rw [dumpMembers_cons] at hn
    simp at hn
  | [(k, v)], n + 1, rest, _, hn => by
    have hrun := decodeValue_dump v n ('}' :: rest) (by simp [dumpMembers_cons] at hn; omega)
      (fun c hc => by cases hc; rfl)
    have hbody := stringBody_escape k (':' :: (dump v ++ '}' :: rest))
    have hlast := decodeMembers_last hbody (wsSkip_dump v _) hrun
    rw [unescape_escape] at hlast
    rw [dumpMembers_cons, List.cons_append, List.append_assoc, List.cons_append, List.cons_append, List.append_assoc,
      membersFinite, membersFinite, Bool.and_true]
    exact hlast
  | (k, v) :: kw :: o, n + 1, rest, _, hn => by
    obtain ⟨k', w⟩ := kw
    have ho : (k', w) :: o ≠ [] := List.cons_ne_nil _ o
    rw [dumpMembers_cons, dumpMembers_false ho] at hn
    simp only [List.length_cons, List.length_append] at hn
    have hrun := decodeValue_dump v n (',' :: (dumpMembers true ((k', w) :: o) ++ rest)) (by omega)
      (fun c hc => by cases hc; rfl)
    have hmore := decodeMembers_dump ((k', w) :: o) n rest ho (by omega)
    have hbody := stringBody_escape k (':' :: (dump v ++ ',' :: (dumpMembers true ((k', w) :: o) ++ rest)))
    have hws : wsSkip (dumpMembers true ((k', w) :: o) ++ rest) = dumpMembers true ((k', w) :: o) ++ rest := by
      rw [dumpMembers_cons, List.cons_append, wsSkip_cons rfl]
    have hall := decodeMembers_more hbody (wsSkip_dump v _) hrun hws hmore
    rw [unescape_escape] at hall
    rw [dumpMembers_cons, dumpMembers_false ho, List.cons_append, List.append_assoc, List.cons_append,
      List.cons_append, List.append_assoc, List.cons_append, membersFinite]
    exact hall

end

/-! ### Texts -/

/-- The text has no control character, and so no end before its own. -/
def Shown (s : List Char) : Prop := ∀ c ∈ s, 0x20 ≤ c.toNat

instance (s : List Char) : Decidable (Shown s) := inferInstanceAs (Decidable (∀ c ∈ s, 0x20 ≤ c.toNat))

theorem Shown.append {s t : List Char} (hs : Shown s) (ht : Shown t) : Shown (s ++ t) :=
  fun c hc => (List.mem_append.mp hc).elim (hs c) (ht c)

theorem Shown.cons {c : Char} {s : List Char} (hc : 0x20 ≤ c.toNat) (hs : Shown s) : Shown (c :: s) :=
  List.forall_mem_cons.mpr ⟨hc, hs⟩

theorem shown_nil : Shown [] := fun _ hc => absurd hc List.not_mem_nil

theorem shown_digits {ds : List Nat} (hds : ∀ d ∈ ds, d < 10) : Shown (ds.map digitChar) := by
  intro c hc
  have hdigit := isDigit_of_mem_map hds c hc
  simp only [isDigit, Bool.and_eq_true, decide_eq_true_eq] at hdigit
  omega

theorem shown_fraction {ds : List Nat} (hds : ∀ d ∈ ds, d < 10) : Shown (fraction ds) := by
  unfold fraction
  dsimp only
  split_ifs
  · exact shown_nil
  · exact .cons (by decide) (shown_digits fun d hd => hds d ((List.rdropWhile_prefix _ _).subset hd))

theorem shown_scientific (m : Nat) (x : Int) : Shown (scientific m x) := by
  obtain ⟨d, ds, hds, hlt⟩ := Decimal.digits_cons m
  have hsign : 0x20 ≤ (if x < 0 then '-' else '+').toNat := by split <;> decide
  have hexponent : Shown (exponent x) :=
    .cons (by decide) (.cons hsign (shown_digits fun d' => Decimal.lt_of_mem_leftpad))
  rw [scientific, hds, ← List.singleton_append]
  have hfirst : ∀ d' ∈ [d], d' < 10 := fun d' hd' => hlt d' (List.mem_singleton.mp hd' ▸ List.mem_cons_self)
  exact (shown_digits hfirst).append
    ((shown_fraction fun d' hd' => hlt d' (List.mem_cons_of_mem d hd')).append hexponent)

theorem shown_fixed (m : Nat) (x : Int) : Shown (fixed m x) := by
  have hdigits : ∀ d ∈ Decimal.digits m, d < 10 := fun d => lt_of_mem_digits
  unfold fixed
  split_ifs
  · exact .cons (by decide) (shown_fraction fun d => Decimal.lt_of_mem_zeros)
  · exact (shown_digits fun d hd => hdigits d (List.mem_of_mem_take hd)).append
      (shown_fraction fun d hd => hdigits d (List.mem_of_mem_drop hd))

theorem shown_printG (p n k : Nat) : Shown (printG p n k) := by
  unfold printG
  dsimp only
  split_ifs
  · decide
  · exact shown_fixed _ _
  · exact shown_scientific _ _

theorem shown_print (d : Double) : Shown d.print := by
  have hminus (neg : Bool) : Shown (Double.minus neg) := by cases neg <;> decide
  cases d with
  | finite neg m e => exact (hminus neg).append (shown_printG 6 _ _)
  | inf neg => exact (hminus neg).append (by decide)
  | nan neg => exact (hminus neg).append (by decide)

theorem shown_escapeChar (c : Char) : Shown (escapeChar c) := by
  have hhex : ∀ n < 16, 0x20 ≤ (toHex n).toNat := by decide
  unfold escapeChar
  split
  case h_8 =>
    split_ifs with hctl
    · exact .cons (by decide) (.cons (by decide) (.cons (by decide) (.cons (by decide)
        (.cons (hhex _ (by omega)) (.cons (hhex _ (by omega)) shown_nil)))))
    · exact .cons (Nat.not_lt.mp hctl) shown_nil
  all_goals decide

theorem shown_escape (s : List Char) : Shown (escape s) := by
  intro c hc
  obtain ⟨c', -, hmem⟩ := List.mem_flatMap.mp hc
  exact shown_escapeChar c' c hmem

theorem shown_dumpString (s : List Char) : Shown (dumpString s) :=
  .cons (by decide) ((shown_escape s).append (.cons (by decide) shown_nil))

theorem shown_comma (first : Bool) : Shown (if first then [] else [',']) := by
  cases first <;> decide

mutual

theorem shown_dump : ∀ v : Wvalue, Shown (dump v)
  | .null => by decide
  | .bool true => by decide
  | .bool false => by decide
  | .number d => shown_print d
  | .string s => shown_dumpString s
  | .list l => .cons (by decide) (shown_dumpItems true l)
  | .object o => .cons (by decide) (shown_dumpMembers true o)

theorem shown_dumpItems (first : Bool) : ∀ l : List Wvalue, Shown (dumpItems first l)
  | [] => .cons (by decide) shown_nil
  | v :: l => ((shown_comma first).append (shown_dump v)).append (shown_dumpItems false l)

theorem shown_dumpMembers (first : Bool) : ∀ o : List (List Char × Wvalue), Shown (dumpMembers first o)
  | [] => .cons (by decide) shown_nil
  | (k, v) :: o => (((shown_comma first).append (shown_dumpString k)).append (.cons (by decide) (shown_dump v))).append
      (shown_dumpMembers false o)

end

/-- A text without control characters has no NUL to end it. -/
theorem Shown.takeWhile {s : List Char} (h : Shown s) : s.takeWhile (· != '\x00') = s := by
  refine List.takeWhile_eq_self_iff.mpr fun c hc => ?_
  have hshown := h c hc
  simp only [bne_iff_ne, ne_eq]
  rintro rfl
  exact absurd hshown (by decide)

/-- A text that is printed is loaded, if the numbers are finite. -/
theorem load_dump_taken (v : Wvalue) : load (dump v) = taken (finite v) (loaded v) := by
  have hrun := decodeValue_dump v (2 * (dump v).length + 1) [] (Nat.lt_succ_self _) (fun c hc => by cases hc)
  have hws := wsSkip_dump v []
  rw [List.append_nil] at hrun hws
  rw [load, (shown_dump v).takeWhile, hws, hrun]
  cases finite v <;> rfl

/-- So is a member that is a number with all its digits, which the printer would not print. -/
theorem load_member_print (k : List Char) (n : Nat) :
    load ('{' :: (dumpString k ++ ':' :: (Decimal.print n ++ ['}']))) = .ok (.object [(k, .number (Decimal.print n))]) := by
  obtain ⟨c, s, hs, hc⟩ := Decimal.print_cons n
  have hshown : Shown ('{' :: (dumpString k ++ ':' :: (Decimal.print n ++ ['}']))) :=
    .cons (by decide) ((shown_dumpString k).append (.cons (by decide)
      ((shown_digits fun d => lt_of_mem_digits).append (.cons (by decide) shown_nil))))
  have hnumber : decodeNumber .minus false (Decimal.print n ++ ['}']) = .ok (Decimal.print n, ['}']) := by
    refine decodeNumber_print n fun c hc => ?_
    obtain rfl := Option.some.inj hc
    rfl
  have hbegins : begins c = true := by
    simp [begins, startsNumber, hc]
  have hskip : wsSkip (Decimal.print n ++ ['}']) = Decimal.print n ++ ['}'] := by
    rw [hs, List.cons_append, wsSkip_cons (not_isWs_of_begins hbegins)]
  have hvalue (m : Nat) : decodeValue (m + 1) (Decimal.print n ++ ['}']) = .ok (.number (Decimal.print n), ['}']) := by
    rw [hs, List.cons_append] at hnumber ⊢
    exact decodeValue_digit (by rw [startsNumber, hc, Bool.true_or]) hnumber
  have hmembers (m : Nat) : decodeMembers (m + 2) ('"' :: (escape k ++ '"' :: ':' :: (Decimal.print n ++ ['}']))) =
      taken true ([(k, .number (Decimal.print n))], []) := by
    have hlast := decodeMembers_last (stringBody_escape k (':' :: (Decimal.print n ++ ['}']))) hskip
      (show _ = taken true _ from hvalue m)
    rwa [unescape_escape] at hlast
  have htext : dumpString k ++ ':' :: (Decimal.print n ++ ['}']) =
      '"' :: (escape k ++ '"' :: ':' :: (Decimal.print n ++ ['}'])) := by
    simp [dumpString]
  rw [load, hshown.takeWhile, htext, wsSkip_cons rfl]
  have hlen : ∃ m, 2 * ('{' :: '"' :: (escape k ++ '"' :: ':' :: (Decimal.print n ++ ['}']))).length + 1 = m + 2 + 1 :=
    ⟨2 * ('"' :: (escape k ++ '"' :: ':' :: (Decimal.print n ++ ['}']))).length, by simp only [List.length_cons]; omega⟩
  obtain ⟨m, hm⟩ := hlen
  rw [hm, decodeValue_object (hmembers m)]
  rfl

mutual

/-- What an accessor reads of the value is what was put in: its type, its text, its items, and of a
number the text of what it is `worth`. -/
def SaidBy (worth : Double → Option ℚ) : Wvalue → Rvalue → Prop
  | .null, .null => True
  | .bool b, .bool b' => b = b'
  | .number d, .number text => Decimal.read text = worth d
  | .string s, .string raw => (Rvalue.string raw).s = some s
  | .list l, .list l' => ItemsSaidBy worth l l'
  | .object o, .object o' => MembersSaidBy worth o o'
  | _, _ => False

def ItemsSaidBy (worth : Double → Option ℚ) : List Wvalue → List Rvalue → Prop
  | [], [] => True
  | v :: l, r :: l' => SaidBy worth v r ∧ ItemsSaidBy worth l l'
  | _, _ => False

def MembersSaidBy (worth : Double → Option ℚ) : List (List Char × Wvalue) → List (List Char × Rvalue) → Prop
  | [], [] => True
  | (k, v) :: o, (k', r) :: o' => k = k' ∧ SaidBy worth v r ∧ MembersSaidBy worth o o'
  | _, _ => False

end

mutual

/-- Every number of the value is a `P`. -/
def Numbers (P : Double → Prop) : Wvalue → Prop
  | .number d => P d
  | .list l => ItemsNumbers P l
  | .object o => MembersNumbers P o
  | _ => True

def ItemsNumbers (P : Double → Prop) : List Wvalue → Prop
  | [] => True
  | v :: l => Numbers P v ∧ ItemsNumbers P l

def MembersNumbers (P : Double → Prop) : List (List Char × Wvalue) → Prop
  | [] => True
  | (_, v) :: o => Numbers P v ∧ MembersNumbers P o

end

section Said
variable {worth : Double → Option ℚ} {P : Double → Prop}

mutual

theorem saidBy_loaded (h : ∀ d, Decimal.read d.print = worth d ↔ P d) : ∀ v : Wvalue, SaidBy worth v (loaded v) ↔ Numbers P v
  | .null => by simp [SaidBy, loaded, Numbers]
  | .bool b => by simp [SaidBy, loaded, Numbers]
  | .number d => by
    rw [loaded, SaidBy, Numbers]
    exact h d
  | .string s => by simp [SaidBy, loaded, Numbers, Rvalue.s, unescape_escape]
  | .list l => by
    rw [loaded, SaidBy, Numbers]
    exact itemsSaidBy_loaded h l
  | .object o => by
    rw [loaded, SaidBy, Numbers]
    exact membersSaidBy_loaded h o

theorem itemsSaidBy_loaded (h : ∀ d, Decimal.read d.print = worth d ↔ P d) : ∀ l : List Wvalue,
    ItemsSaidBy worth l (loadedItems l) ↔ ItemsNumbers P l
  | [] => by simp [ItemsSaidBy, loadedItems, ItemsNumbers]
  | v :: l => by rw [loadedItems, ItemsSaidBy, ItemsNumbers, saidBy_loaded h v, itemsSaidBy_loaded h l]

theorem membersSaidBy_loaded (h : ∀ d, Decimal.read d.print = worth d ↔ P d) : ∀ o : List (List Char × Wvalue),
    MembersSaidBy worth o (loadedMembers o) ↔ MembersNumbers P o
  | [] => by simp [MembersSaidBy, loadedMembers, MembersNumbers]
  | (k, v) :: o => by
    rw [loadedMembers, MembersSaidBy, MembersNumbers, saidBy_loaded h v, membersSaidBy_loaded h o]
    exact and_iff_right rfl

end

mutual

theorem numbers_of_forall (h : ∀ d, P d) : ∀ v : Wvalue, Numbers P v
  | .null | .bool _ | .string _ => by simp [Numbers]
  | .number d => by
    rw [Numbers]
    exact h d
  | .list l => by
    rw [Numbers]
    exact itemsNumbers_of_forall h l
  | .object o => by
    rw [Numbers]
    exact membersNumbers_of_forall h o

theorem itemsNumbers_of_forall (h : ∀ d, P d) : ∀ l : List Wvalue, ItemsNumbers P l
  | [] => trivial
  | v :: l => ⟨numbers_of_forall h v, itemsNumbers_of_forall h l⟩

theorem membersNumbers_of_forall (h : ∀ d, P d) : ∀ o : List (List Char × Wvalue), MembersNumbers P o
  | [] => trivial
  | (_, v) :: o => ⟨numbers_of_forall h v, membersNumbers_of_forall h o⟩

end

end Said

/-- **What is printed is loaded** just when every number of it is finite. It says what was printed, of
each number the number to six digits, which is the number itself just when it has no more, zeros at
its end apart. -/
theorem load_dump (v : Wvalue) :
    if finite v then
      ∃ r, load (dump v) = .ok r ∧ SaidBy Double.sixDigits v r ∧ (SaidBy Double.value v r ↔ Numbers Double.Short v)
    else load (dump v) = .error .error := by
  have hload := load_dump_taken v
  split_ifs with hfinite
  · rw [hfinite] at hload
    have hread : ∀ d : Double, Decimal.read d.print = d.sixDigits ↔ True := fun d => iff_true_intro d.read_print
    exact ⟨loaded v, hload, (saidBy_loaded hread v).mpr (numbers_of_forall (fun _ => trivial) v),
      saidBy_loaded Double.read_print_iff v⟩
  · rw [Bool.eq_false_of_not_eq_true hfinite] at hload
    exact hload

end Susanow.Crow.Json
