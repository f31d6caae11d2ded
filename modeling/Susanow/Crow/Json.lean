import Susanow.Base.Double

/-! `crow::json`: the loader and the printer.

A request's body is loaded into an `rvalue`, which keeps the text of numbers and of strings
as it came and reads it when asked. A reply is a `wvalue`, and is printed. A `char` is a
`Char` below 256; a text ends with its first NUL. -/
namespace Susanow.Crow.Json
open Decimal (isDigit)

/-! ### `rvalue` -/

/-- A string as it stands between its quotes, a number as it stands. Keys are read at once. -/
inductive Rvalue
  | null
  | bool (b : Bool)
  | number (text : List Char)
  | string (raw : List Char)
  | list (l : List Rvalue)
  | object (l : List (List Char × Rvalue))

/-- Why there is no value: the text is wrong, or the model's bound on the calls is reached. -/
inductive Fail
  | error
  | bound
  deriving DecidableEq, Repr

def fromHex (c : Char) : Nat :=
  if 'a' ≤ c then c.toNat - 'a'.toNat + 10 else if 'A' ≤ c then c.toNat - 'A'.toNat + 10 else c.toNat - '0'.toNat

/-- The bytes of a code, two or three of them from 0x80 on. -/
def utf8 (code : Nat) : List Char :=
  if 0x800 ≤ code then
    [Char.ofNat (0xe0 ||| code >>> 12), Char.ofNat (0x80 ||| (code >>> 6 &&& 0x3f)), Char.ofNat (0x80 ||| (code &&& 0x3f))]
  else if 0x80 ≤ code then [Char.ofNat (0xc0 ||| code >>> 6), Char.ofNat (0x80 ||| (code &&& 0x3f))]
  else [Char.ofNat code]

/-- What a backslash and `c` stand for. -/
def unescapeChar : Char → List Char
  | '"' => ['"']
  | '\\' => ['\\']
  | '/' => ['/']
  | 'b' => ['\x08']
  | 'f' => ['\x0c']
  | 'n' => ['\n']
  | 'r' => ['\r']
  | 't' => ['\t']
  | _ => []

/-- `rvalue::unescape` -/
def unescape : List Char → List Char
  | [] => []
  | ['\\'] => []
  | '\\' :: 'u' :: a :: b :: c :: d :: s =>
    utf8 (fromHex a <<< 12 + fromHex b <<< 8 + fromHex c <<< 4 + fromHex d) ++ unescape s
  | '\\' :: c :: s => unescapeChar c ++ unescape s
  | c :: s => c :: unescape s

namespace Rvalue

/-- `s()`, which throws for any other type. -/
def s : Rvalue → Option (List Char)
  | string raw => some (unescape raw)
  | _ => none

/-- `i()`, of a number or of a string as it stands: `lexical_cast<int64_t>`. -/
def i : Rvalue → Option Int
  | number text => (Decimal.integer? text).filter fun v => -2 ^ 63 ≤ v && v < 2 ^ 63
  | string raw => (Decimal.integer? raw).filter fun v => -2 ^ 63 ≤ v && v < 2 ^ 63
  | _ => none

/-- `operator[]`, which throws if there is no such key. -/
def get (key : List Char) : Rvalue → Option Rvalue
  | object l => (l.find? fun kv => kv.1 == key).map Prod.snd
  | _ => none

end Rvalue

/-! ### Loading -/

def isWs (c : Char) : Bool := c == ' ' || c == '\t' || c == '\r' || c == '\n'

/-- `ws_skip` -/
def wsSkip (s : List Char) : List Char := s.dropWhile isWs

/-- `check` -/
def isHex (c : Char) : Bool := ('0' ≤ c && c ≤ '9') || ('a' ≤ c && c ≤ 'f') || ('A' ≤ c && c ≤ 'F')

/-- What may follow a backslash, apart from `u`. -/
def isEscape (c : Char) : Bool := "\"\\/bfnrt".toList.contains c

/-- `decode_string`, behind the quote: the text up to the closing quote, and what follows it. -/
def stringBody : List Char → Except Fail (List Char × List Char)
  | [] => .error .error
  | '"' :: s => .ok ([], s)
  | '\\' :: 'u' :: a :: b :: c :: d :: s =>
    if isHex a && isHex b && isHex c && isHex d then do
      let (raw, rest) ← stringBody s
      pure ('\\' :: 'u' :: a :: b :: c :: d :: raw, rest)
    else .error .error
  | '\\' :: c :: s =>
    if isEscape c then do
      let (raw, rest) ← stringBody s
      pure ('\\' :: c :: raw, rest)
    else .error .error
  | ['\\'] => .error .error
  | c :: s => do
    let (raw, rest) ← stringBody s
    pure (c :: raw, rest)

/-- The states of a number, without `Invalid`. -/
inductive NumberParsingState
  | minus
  | afterMinus
  | zeroFirst
  | digits
  | digitsAfterPoints
  | e
  | digitsAfterE
  deriving DecidableEq, Repr

namespace NumberParsingState

/-- The table for the character; `none` is `Invalid`. -/
def next (st : NumberParsingState) (c : Char) : Option NumberParsingState :=
  if c = '0' then
    match st with
    | minus | afterMinus => some zeroFirst
    | zeroFirst => none
    | digits => some digits
    | digitsAfterPoints => some digitsAfterPoints
    | e | digitsAfterE => some digitsAfterE
  else if isDigit c then
    match st with
    | minus | afterMinus | digits => some digits
    | zeroFirst => none
    | digitsAfterPoints => some digitsAfterPoints
    | e | digitsAfterE => some digitsAfterE
  else if c = '.' then
    match st with
    | zeroFirst | digits => some digitsAfterPoints
    | _ => none
  else if c = '-' then
    match st with
    | minus => some afterMinus
    | e => some digitsAfterE
    | _ => none
  else if c = '+' then
    match st with
    | e => some digitsAfterE
    | _ => none
  else
    match st with
    | digits | digitsAfterPoints => some e
    | _ => none

/-- The number may end here. -/
def final : NumberParsingState → Bool
  | zeroFirst | digits | digitsAfterPoints | digitsAfterE => true
  | _ => false

end NumberParsingState

/-- The characters that have a table. -/
def inNumber (c : Char) : Bool := isDigit c || c == '.' || c == '-' || c == '+' || c == 'e' || c == 'E'

/-- `decode_number`; `skip` while it is in the loop that goes over the digits after one of `1` to `9`. -/
def decodeNumber (st : NumberParsingState) (skip : Bool) : List Char → Except Fail (List Char × List Char)
  | [] => if st.final then .ok ([], []) else .error .error
  | c :: s =>
    if skip && isDigit c then do
      let (text, rest) ← decodeNumber st true s
      pure (c :: text, rest)
    else if inNumber c then
      match st.next c with
      | none => .error .error
      | some st' => do
        let (text, rest) ← decodeNumber st' (isDigit c && c != '0') s
        pure (c :: text, rest)
    else if st.final then .ok ([], c :: s)
    else .error .error

mutual

/-- `decode_value`; `decode_list` and `decode_object` up to their first item. -/
def decodeValue : Nat → List Char → Except Fail (Rvalue × List Char)
  | 0, _ => .error .bound
  | n + 1, s =>
    match s with
    | '[' :: s =>
      match wsSkip s with
      | ']' :: s => .ok (.list [], s)
      | s => do
        let (l, s) ← decodeItems n s
        pure (.list l, s)
    | '{' :: s =>
      match wsSkip s with
      | '}' :: s => .ok (.object [], s)
      | s => do
        let (l, s) ← decodeMembers n s
        pure (.object l, s)
    | '"' :: s => do
      let (raw, s) ← stringBody s
      pure (.string raw, s)
    | 't' :: 'r' :: 'u' :: 'e' :: s => .ok (.bool true, s)
    | 'f' :: 'a' :: 'l' :: 's' :: 'e' :: s => .ok (.bool false, s)
    | 'n' :: 'u' :: 'l' :: 'l' :: s => .ok (.null, s)
    | s => do
      let (text, s) ← decodeNumber .minus false s
      pure (.number text, s)

/-- The loop of `decode_list`. -/
def decodeItems : Nat → List Char → Except Fail (List Rvalue × List Char)
  | 0, _ => .error .bound
  | n + 1, s => do
    let (v, s) ← decodeValue n s
    match wsSkip s with
    | ']' :: s => pure ([v], s)
    | ',' :: s => do
      let (l, s) ← decodeItems n (wsSkip s)
      pure (v :: l, s)
    | _ => .error .error

/-- The loop of `decode_object`. -/
def decodeMembers : Nat → List Char → Except Fail (List (List Char × Rvalue) × List Char)
  | 0, _ => .error .bound
  | n + 1, s =>
    match s with
    | '"' :: s => do
      let (key, s) ← stringBody s
      match wsSkip s with
      | ':' :: s => do
        let (v, s) ← decodeValue n (wsSkip s)
        match wsSkip s with
        | '}' :: s => pure ([(unescape key, v)], s)
        | ',' :: s => do
          let (l, s) ← decodeMembers n (wsSkip s)
          pure ((unescape key, v) :: l, s)
        | _ => .error .error
      | _ => .error .error
    | _ => .error .error

end

/-- `load`: the whole text up to its end is one value. -/
def load (text : List Char) : Except Fail Rvalue := do
  let s := text.takeWhile (· != '\x00')
  let (v, s) ← decodeValue (2 * s.length + 1) (wsSkip s)
  if wsSkip s = [] then pure v else .error .error

/-! ### `wvalue` -/

inductive Wvalue
  | null
  | bool (b : Bool)
  | number (d : Double)
  | string (s : List Char)
  | list (l : List Wvalue)
  | object (o : List (List Char × Wvalue))

/-- `to_hex` -/
def toHex (n : Nat) : Char := if n < 10 then Char.ofNat ('0'.toNat + n) else Char.ofNat ('a'.toNat + n - 10)

def escapeChar : Char → List Char
  | '"' => ['\\', '"']
  | '\\' => ['\\', '\\']
  | '\n' => ['\\', 'n']
  | '\x08' => ['\\', 'b']
  | '\x0c' => ['\\', 'f']
  | '\r' => ['\\', 'r']
  | '\t' => ['\\', 't']
  | c => if c.toNat < 0x20 then ['\\', 'u', '0', '0', toHex (c.toNat / 16), toHex (c.toNat % 16)] else [c]

def escape (s : List Char) : List Char := s.flatMap escapeChar

def dumpString (s : List Char) : List Char := '"' :: (escape s ++ ['"'])

mutual

/-- `dump_internal` -/
def dump : Wvalue → List Char
  | .null => "null".toList
  | .bool true => "true".toList
  | .bool false => "false".toList
  | .number d => d.print
  | .string s => dumpString s
  | .list l => '[' :: dumpItems true l
  | .object o => '{' :: dumpMembers true o

def dumpItems (first : Bool) : List Wvalue → List Char
  | [] => [']']
  | v :: l => (if first then [] else [',']) ++ dump v ++ dumpItems false l

def dumpMembers (first : Bool) : List (List Char × Wvalue) → List Char
  | [] => ['}']
  | (k, v) :: o => (if first then [] else [',']) ++ dumpString k ++ ':' :: dump v ++ dumpMembers false o

end

example : dump (.object [("msg".toList, .string ['a', '"', '\x01']), ("n".toList, .list [.number (.finite false 12 1074), .bool true])]) =
    "\x7b\"msg\":\"a\\\"\\u0001\",\"n\":[12,true]\x7d".toList := by decide

end Susanow.Crow.Json
