import Formulary.Decimal.Arithmetic

/-!
# Reading decimals

The text of a decimal has a sign or none, digits with at most one point among
them, and `_` anywhere behind the first digit. Places that do not fit into a
decimal are rounded away, a half upwards, by the first digit that does not fit. A
text that is no such decimal may still be one times a power of ten, `12.50e3`.

* `readPlain`: text without an exponent.
* `readScientific`: a plain decimal, `e` or `E`, and an exponent.
* `read`: either of them.
-/

namespace Formulary.Decimal

-- `^` on natural numbers is that of the core library, whatever else is imported
attribute [local instance (high)] instPowNat

/-- Why a text is no decimal. -/
inductive ReadError
  | empty
  | noDigits
  | unknownCharacter
  | secondPoint
  | leadingSeparator
  | tooManyDigits
  | roundedTooLarge
  | malformedExponent
  | exponentTooLarge (exponent : Nat)
  | tooLarge
deriving DecidableEq

/-- The wording of a reading error. -/
def ReadError.message : ReadError → String
  | .empty => "Invalid decimal: empty"
  | .noDigits => "Invalid decimal: no digits found"
  | .unknownCharacter => "Invalid decimal: unknown character"
  | .secondPoint => "Invalid decimal: two decimal points"
  | .leadingSeparator => "Invalid decimal: must start lead with a number"
  | .tooManyDigits => "Invalid decimal: overflow from too many digits"
  | .roundedTooLarge => "Invalid decimal: overflow from mantissa after rounding"
  | .malformedExponent => "Failed to parse"
  | .exponentTooLarge e =>
    "Scale exceeds the maximum precision allowed: " ++ Nat.repr e ++ " > 28"
  | .tooLarge => "Number exceeds maximum value that can be represented."

/-- The value of a decimal digit. -/
def digit? (c : Char) : Option Nat :=
  if c.isDigit then some (c.toNat - '0'.toNat) else none

/-- What is wrong with a character that cannot stand where it is. -/
def misplaced : Char → ReadError
  | '.' => .secondPoint
  | '_' => .leadingSeparator
  | _ => .unknownCharacter

/-- The decimal with these parts and no sign on zero. -/
def ofRead (negative : Bool) (m s : Nat) : Except ReadError Decimal :=
  match ofParts? (negative && m != 0) m s with
  | some d => .ok d
  | none => .error .tooLarge

/-- Rounds `m / 10 ^ s` by the first digit that does not fit, a half upwards. A
mantissa that reaches the bound gives up one place. -/
def roundRead (negative : Bool) (m s first : Nat) : Except ReadError Decimal :=
  if first < 5 then ofRead negative m s
  else if m + 1 < mantissaBound then ofRead negative (m + 1) s
  else if s = 0 then .error .roundedTooLarge
  else ofRead negative ((m + 5) / 10) (s - 1)

/-- The first of the characters that cannot stand in a fraction. -/
def fractionFault? (cs : List Char) : Option ReadError :=
  (cs.find? fun c => !c.isDigit && c != '_').map misplaced

/-- Ends reading at characters that no longer fit: the first of them rounds, and
only if the decimal still fits then, the others have to be characters of a
fraction. -/
def readExcess (negative : Bool) (m s : Nat) (cs : List Char) : Except ReadError Decimal := do
  let d ← roundRead negative m s (((cs.head?.bind digit?)).getD 0)
  match fractionFault? cs with
  | some fault => .error fault
  | none => .ok d

/-- The least mantissa that is not short: below it, one more digit stays within 64
bits, with 255 to spare. -/
abbrev shortBound : Nat := (2 ^ (64 : Nat) - 1) / 10 - 255

/-- Whether the next character rounds a fraction whatever it is: all places are
taken, and the mantissa was short up to the last of them. A separator then rounds
like a zero, while in a longer mantissa it is passed over. -/
def roundsAtOnce (point : Bool) (m s : Nat) : Bool :=
  point && s == maxScale && m / 10 < shortBound

/-- Whether one more digit `d` would exceed the places or the mantissa. -/
def isFull (point : Bool) (m s d : Nat) : Bool :=
  (point && s == maxScale) || mantissaBound ≤ m * 10 + d

/-- Reads the characters behind the sign, where `point` and `digits` say whether a
point and a digit came before, and `m / 10 ^ s` is what they mean. -/
def readDigits (negative : Bool) :
    (point digits : Bool) → (m s : Nat) → List Char → Except ReadError Decimal
  | _, digits, m, s, [] => if digits then ofRead negative m s else .error .noDigits
  | point, digits, m, s, c :: cs =>
    if roundsAtOnce point m s then readExcess negative m s (c :: cs)
    else
      match digit? c with
      | some d =>
        if !isFull point m s d then
          readDigits negative point true (m * 10 + d) (if point then s + 1 else s) cs
        else if point then readExcess negative m s (c :: cs)
        else .error .tooManyDigits
      | none =>
        if c = '.' ∧ point = false then readDigits negative true digits m s cs
        else if c = '_' ∧ digits = true then readDigits negative point digits m s cs
        else .error (misplaced c)

/-- Reads a decimal without an exponent. -/
def readPlain : List Char → Except ReadError Decimal
  | [] => .error .empty
  | '-' :: cs => readDigits true false false 0 0 cs
  | '+' :: cs => readDigits false false false 0 0 cs
  | cs => readDigits false false false 0 0 cs

/-- The decimal divided by `10 ^ e`: the scale grows by `e`, and the places beyond
the last are rounded away, a half upwards. -/
def lowerBy (d : Decimal) (e : Nat) : Except ReadError Decimal :=
  if maxScale < e then .error (.exponentTooLarge e)
  else
    let s := d.scale + e
    match ofParts? d.negative (nearestUp d.mantissa (10 ^ (s - maxScale))) (min s maxScale) with
    | some r => .ok r
    | none => .error .tooLarge

/-- The decimal times `10 ^ e`: the scale shrinks by `e` if it can, and otherwise
the decimal is multiplied by at most `10 ^ 19` at a time. -/
def raiseBy (d : Decimal) (e : Nat) : Except ReadError Decimal :=
  if e ≤ d.scale then
    .ok { d with scale := d.scale - e, scale_le := Nat.le_trans (Nat.sub_le _ _) d.scale_le }
  else if maxScale < e then .error (.exponentTooLarge e)
  else
    let scaled := do
      let first ← mul d (← ofNat? (10 ^ min e 19))
      if e ≤ 19 then some first else mul first (← ofNat? (10 ^ (e - 19)))
    match scaled with
    | some r => .ok r.normalize
    | none => .error .tooLarge

/-- Whether the character introduces an exponent. -/
def isExponentMark (c : Char) : Bool := c == 'e' || c == 'E'

/-- Reads a plain decimal, the mark of an exponent and the exponent, which may
have a sign and is below `2 ^ 32`. -/
def readScientific (cs : List Char) : Except ReadError Decimal := do
  let base ← readPlain (cs.takeWhile (!isExponentMark ·))
  let (lowers, magnitude) := match (cs.dropWhile (!isExponentMark ·)).drop 1 with
    | '-' :: rest => (true, rest)
    | rest => (false, rest)
  match Text.natural? (2 ^ (32 : Nat)) magnitude with
  | none => throw .malformedExponent
  | some e => if lowers then lowerBy base e else raiseBy base e

/-- Reads a decimal, with an exponent if it is none without. -/
def read (cs : List Char) : Except ReadError Decimal :=
  match readPlain cs with
  | .ok d => .ok d
  | .error e => if cs.any isExponentMark then readScientific cs else .error e

/-- The decimal that a text denotes. -/
def ofText (text : String) : Except ReadError Decimal := read text.toList

end Formulary.Decimal
