import Polyglot.Fault
import Polyglot.Number.Decimal

/-!
# Literals

Number and text literals. Each scanner takes the text from the literal on and returns what the
literal means, or why it is faulty, with the characters it covers and those that follow. What
is covered followed by what follows is always the text given.
-/

namespace Polyglot

/-- The value of a number literal. -/
inductive Number
  | int (n : Int64)
  | float (x : Float)
deriving Inhabited

/-- The outcome of scanning at the head of a text. -/
structure Scan (α : Type) where
  result : Except LexicalFault α
  covered : List Char
  rest : List Char

/-- Puts `covered`, which means `meaning`, in front of a scanned text. -/
def Scan.after (covered meaning : List Char) (s : Scan (List Char)) : Scan (List Char) :=
  ⟨(meaning ++ ·) <$> s.result, covered ++ s.covered, s.rest⟩

namespace Literal

/-- Digits and letters of base sixteen. -/
def isHexDigit (c : Char) : Bool :=
  c.isDigit || ('a' ≤ c && c ≤ 'f') || ('A' ≤ c && c ≤ 'F')

/-- The value of a digit in base sixteen; other characters count as zero. -/
def digitValue (c : Char) : Nat :=
  if c.isDigit then c.toNat - '0'.toNat
  else if 'a' ≤ c ∧ c ≤ 'f' then c.toNat - 'a'.toNat + 10
  else if 'A' ≤ c ∧ c ≤ 'F' then c.toNat - 'A'.toNat + 10
  else 0

/-! ## Numbers -/

/-- The base marked by the character after a leading zero. -/
def radix? (c : Char) : Option Nat :=
  if c == 'b' || c == 'B' then some 2
  else if c == 'o' || c == 'O' then some 8
  else if c == 'x' || c == 'X' then some 16
  else none

/-- Characters taken into a number of the given base; the bases below ten take every decimal
digit, so that `0b12` is one faulty number and not two tokens. -/
def isDigitOf (radix : Nat) (c : Char) : Bool :=
  if radix = 16 then isHexDigit c else c.isDigit

/-- Adds the digits of a literal to `value`, from the left. The first digit that is not of the
base, or that makes the number too large, decides the fault. -/
def accumulate (radix : Nat) (literal : String) : Nat → List Char → Except LexicalFault Int64
  | value, [] => .ok (Int64.ofNat value)
  | value, c :: cs =>
    if radix ≤ digitValue c then .error (.invalidDigit literal)
    else if int64Limit ≤ value * radix + digitValue c then .error (.tooLarge literal)
    else accumulate radix literal (value * radix + digitValue c) cs

/-- The fraction at the head of a text: a point and at least one digit. -/
def fraction? : List Char → Option (List Char × List Char)
  | '.' :: d :: cs =>
    if d.isDigit then some ((d :: cs).takeWhile Char.isDigit, (d :: cs).dropWhile Char.isDigit)
    else none
  | _ => none

/-- A number with a base mark, which has no fraction. -/
def based (radix : Nat) (zero mark : Char) (cs : List Char) : Scan Number :=
  let digits := cs.takeWhile (isDigitOf radix)
  let rest := cs.dropWhile (isDigitOf radix)
  match fraction? rest with
  | some (fraction, rest) =>
    let covered := zero :: mark :: digits ++ '.' :: fraction
    ⟨.error (.basedFraction radix (String.ofList covered)), covered, rest⟩
  | none =>
    let covered := zero :: mark :: digits
    if digits.isEmpty then ⟨.error (.noDigits (String.ofList covered)), covered, rest⟩
    else ⟨.int <$> accumulate radix (String.ofList covered) 0 digits, covered, rest⟩

/-- A decimal number, with a fraction if a digit follows the point. -/
def decimal (cs : List Char) : Scan Number :=
  let digits := cs.takeWhile Char.isDigit
  let rest := cs.dropWhile Char.isDigit
  match fraction? rest with
  | some (fraction, rest) =>
    ⟨.ok (.float (Decimal.ofDigits false digits fraction 0)), digits ++ '.' :: fraction, rest⟩
  | none => ⟨.int <$> accumulate 10 (String.ofList digits) 0 digits, digits, rest⟩

/-- The number at the head of a text that begins with a digit. -/
def number (cs : List Char) : Scan Number :=
  match cs with
  | '0' :: mark :: rest =>
    match radix? mark with
    | some radix => based radix '0' mark rest
    | none => decimal cs
  | _ => decimal cs

/-! ## Text -/

/-- The characters meant by a backslash and `c`, the numbered escapes apart. Three letters
keep their backslash. -/
def escapeMeaning (c : Char) : List Char :=
  if c == 'b' then ['\x08']
  else if c == 'f' then ['\x0c']
  else if c == 'n' then ['\n']
  else if c == 'r' then ['\r']
  else if c == 't' then ['\t']
  else if c == '0' || c == 'a' || c == 'v' then ['\\', c]
  else [c]

/-- The number of hexadecimal digits after a backslash and `c`. -/
def hexWidth? (c : Char) : Option Nat :=
  if c == 'u' then some 4 else if c == 'x' then some 2 else none

/-- The character with the given number, surrogates excluded. -/
def charOf? (n : Nat) : Option Char :=
  if h : n.isValidChar then some (Char.ofNatAux n h) else none

/-- Why the first `width` characters of a text are not that many hexadecimal digits. -/
def hexFault? (width : Nat) (cs : List Char) : Option LexicalFault :=
  let digits := cs.takeWhile isHexDigit
  if width ≤ digits.length then none
  else match (cs.dropWhile isHexDigit).head? with
    | none => some .unterminated
    | some c => some (.hexExpected width (String.ofList (digits ++ [c])))

/-- The number written by hexadecimal digits. -/
def hexNumber (ds : List Char) : Nat :=
  ds.foldl (fun n c => n * 16 + digitValue c) 0

/-- The character of a numbered escape: the `width` characters after its letter, of which as
many are covered as were looked at. -/
def numbered (width : Nat) (cs : List Char) : Scan Char :=
  match hexFault? width cs with
  | some fault =>
    let covered := (cs.takeWhile isHexDigit).length + 1
    ⟨.error fault, cs.take covered, cs.drop covered⟩
  | none =>
    let digits := cs.take width
    let result := match charOf? (hexNumber digits) with
      | some c => .ok c
      | none => .error (.notACharacter (String.ofList digits))
    ⟨result, digits, cs.drop width⟩

/-- The rest of a text literal after its opening quote. The first argument bounds the number
of characters. -/
def textBody (delim : Char) : Nat → List Char → Scan (List Char)
  | 0, cs => ⟨.error .unterminated, [], cs⟩
  | _, [] => ⟨.error .unterminated, [], []⟩
  | fuel + 1, c :: cs =>
    if c = delim then ⟨.ok [], [c], cs⟩
    else if c ≠ '\\' then Scan.after [c] [c] (textBody delim fuel cs)
    else match cs with
      | [] => ⟨.error .unterminated, [c], []⟩
      | e :: cs =>
        match hexWidth? e with
        | none => Scan.after [c, e] (escapeMeaning e) (textBody delim fuel cs)
        | some width =>
          let escape := numbered width cs
          match escape.result with
          | .error fault => ⟨.error fault, c :: e :: escape.covered, escape.rest⟩
          | .ok ch => Scan.after (c :: e :: escape.covered) [ch] (textBody delim fuel escape.rest)

/-- The text literal opened by `delim`, which stands before `cs`. -/
def text (delim : Char) (cs : List Char) : Scan String :=
  let body := textBody delim cs.length cs
  ⟨String.ofList <$> body.result, delim :: body.covered, body.rest⟩

end Literal

end Polyglot
