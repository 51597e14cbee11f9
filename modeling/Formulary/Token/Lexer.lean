import Formulary.Error
import Formulary.Limits

/-!
# Cutting a formula into tokens

A formula is cut from left to right into the longest tokens, with white space
between them. A name may only hold letters and underscores that occur in some
declared name, so a character that no variable can account for is refused where
it stands, before anything is known about the names themselves.

* `lexeme`: the kind of the token that starts here, and its further characters.
* `scan`: the tokens of the rest of a formula.
* `tokenize`: the tokens of a formula, within the limits on characters and tokens.
-/

namespace Formulary

namespace Lexer

/-- The characters that occur in a declared name. -/
def occursIn (names : List String) (c : Char) : Bool := names.any (·.toList.contains c)

/-- The further characters of a number that starts with `c`: digits, with a point
and more digits among them unless `c` is itself the point. -/
def numberRest (c : Char) (cs : List Char) : List Char :=
  let digits := cs.takeWhile Char.isDigit
  if c = '.' then digits
  else
    match cs.dropWhile Char.isDigit with
    | '.' :: fraction => digits ++ '.' :: fraction.takeWhile Char.isDigit
    | _ => digits

/-- The first character of a name's text that neither is a digit nor occurs in a
declared name, with its position. -/
def firstForbidden? (allowed : Char → Bool) (position : Nat) : List Char → Option (Char × Nat)
  | [] => none
  | c :: cs =>
    if c.isDigit || allowed c then firstForbidden? allowed (position + 1) cs
    else some (c, position)

/-- The number that starts with `c`. -/
def number (position : Nat) (c : Char) (cs : List Char) :
    Except LexError (Token.Kind × List Char) :=
  let rest := numberRest c cs
  let text := c :: rest
  if text = ['.'] ∨ (literal? text).isNone then
    .error (.malformedNumber (String.ofList text) position)
  else .ok (.number, rest)

/-- The name that starts with `c`, a character that may start one. -/
def name (allowed : Char → Bool) (position : Nat) (cs : List Char) :
    Except LexError (Token.Kind × List Char) :=
  let rest := cs.takeWhile isNamePart
  match firstForbidden? allowed (position + 1) rest with
  | some (c, p) => .error (.unexpectedChar c p)
  | none => .ok (.identifier, rest)

/-- The operator `long` if `second` comes next, and `short` otherwise. -/
def longer (second : Char) (long short : BinaryOp) (cs : List Char) : Token.Kind × List Char :=
  if cs.head? = some second then (.operator long, [second]) else (.operator short, [])

/-- The operator of two characters whose second one must come next. -/
def paired (position : Nat) (first second : Char) (op : BinaryOp) (cs : List Char) :
    Except LexError (Token.Kind × List Char) :=
  if cs.head? = some second then .ok (.operator op, [second])
  else .error (.unexpectedChar first position)

/-- The kind of the longest token that starts with `c`, and the characters of `cs`
that belong to it. -/
def lexeme (allowed : Char → Bool) (position : Nat) (c : Char) (cs : List Char) :
    Except LexError (Token.Kind × List Char) :=
  match c with
  | '(' => .ok (.openParen, [])
  | ')' => .ok (.closeParen, [])
  | '?' => .ok (.question, [])
  | ':' => .ok (.colon, [])
  | '+' => .ok (.operator .add, [])
  | '-' => .ok (.operator .sub, [])
  | '*' => .ok (.operator .mul, [])
  | '/' => .ok (.operator .div, [])
  | '<' => .ok (longer '=' .lessEq .less cs)
  | '>' => .ok (longer '=' .greaterEq .greater cs)
  | '=' => paired position '=' '=' .equal cs
  | '!' => paired position '!' '=' .notEqual cs
  | '&' => paired position '&' '&' .and cs
  | '|' => paired position '|' '|' .or cs
  | c =>
    if c.isDigit || c == '.' then number position c cs
    else if isNameStart c && allowed c then name allowed position cs
    else .error (.unexpectedChar c position)

/-- The tokens of the rest of a formula, which starts at `position`. -/
def scan (allowed : Char → Bool) (position : Nat) : List Char → Except LexError (List Token)
  | [] => .ok []
  | c :: cs =>
    if Text.isWhiteSpace c then scan allowed (position + 1) cs
    else do
      let (kind, more) ← lexeme allowed position c cs
      let rest ← scan allowed (position + 1 + more.length) (cs.drop more.length)
      return ⟨kind, String.ofList (c :: more), position⟩ :: rest
termination_by cs => cs.length
decreasing_by
  · simp
  · simp only [List.length_drop, List.length_cons]; omega

end Lexer

/-- The tokens of a formula over the declared names, if it keeps to the limits on
its characters and its tokens. -/
def tokenize (formula : String) (names : List String) (limits : Limits) :
    Except LexError (List Token) := do
  let length := formula.length
  if limits.maxFormulaLength < length then
    throw (.tooLong length limits.maxFormulaLength)
  let tokens ← Lexer.scan (Lexer.occursIn names) 0 formula.toList
  if limits.maxTokenCount < tokens.length then
    throw (.tooManyTokens tokens.length limits.maxTokenCount)
  return tokens

end Formulary
