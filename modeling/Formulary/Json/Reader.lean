import Formulary.Json.Basic

/-!
# Reading JSON

A strict reader: no commas too many, no comments, no leading zeros and no control
characters in strings. Blanks may stand around the value and its parts.

* `Json.Reader.string`, `Json.Reader.number`: the readers of the parts of a value.
* `Json.Reader.value`: the value that the characters start with.
* `Json.ofText?`: the value of a whole text.
-/

namespace Formulary.Json

namespace Reader

/-- What has been read from the start of `cs`, and the characters left. -/
structure Read (cs : List Char) (α : Type) where
  value : α
  rest : List Char
  shorter : rest.length < cs.length

/-- The characters that may stand between the parts of a value. -/
def isBlank (c : Char) : Bool := c == ' ' || c == '\t' || c == '\n' || c == '\r'

/-- Leaves out blanks. -/
def skipBlanks (cs : List Char) : List Char := cs.dropWhile isBlank

theorem length_dropWhile_le {α : Type} (p : α → Bool) (xs : List α) :
    (xs.dropWhile p).length ≤ xs.length :=
  (List.dropWhile_sublist p).length_le

theorem length_skipBlanks_le (cs : List Char) : (skipBlanks cs).length ≤ cs.length :=
  length_dropWhile_le _ _

/-- What comes behind the first character that is no blank is shorter. -/
theorem length_lt_of_skipBlanks {cs : List Char} {c : Char} {rest : List Char}
    (h : skipBlanks cs = c :: rest) : rest.length < cs.length := by
  have := length_skipBlanks_le cs
  rw [h] at this
  exact this

/-- A piece of a string: a character, or a code unit that was escaped by number. -/
inductive Piece
  | char (c : Char)
  | unit (code : Nat)

/-- The value of a hexadecimal digit. -/
def hexDigit? (c : Char) : Option Nat :=
  if c.isDigit then some (c.toNat - '0'.toNat)
  else if 'a' ≤ c ∧ c ≤ 'f' then some (c.toNat - 'a'.toNat + 10)
  else if 'A' ≤ c ∧ c ≤ 'F' then some (c.toNat - 'A'.toNat + 10)
  else none

/-- The code unit of four hexadecimal digits. -/
def unit? (a b c d : Char) : Option Nat := do
  return (((← hexDigit? a) * 16 + (← hexDigit? b)) * 16 + (← hexDigit? c)) * 16 + (← hexDigit? d)

/-- The character that an escape by letter stands for. -/
def escaped? : Char → Option Char
  | '"' => some '"'
  | '\\' => some '\\'
  | '/' => some '/'
  | 'b' => some '\x08'
  | 'f' => some '\x0c'
  | 'n' => some '\n'
  | 'r' => some '\r'
  | 't' => some '\t'
  | _ => none

/-- The pieces of a string up to its closing quote, and the characters behind it. -/
def pieces : List Char → Option (List Piece × List Char)
  | [] => none
  | '"' :: rest => some ([], rest)
  | '\\' :: 'u' :: a :: b :: c :: d :: rest => do
    let code ← unit? a b c d
    let (ps, rest) ← pieces rest
    return (.unit code :: ps, rest)
  | '\\' :: e :: rest => do
    let c ← escaped? e
    let (ps, rest) ← pieces rest
    return (.char c :: ps, rest)
  | c :: rest =>
    if c.toNat < 0x20 || c == '\\' then none
    else do
      let (ps, rest) ← pieces rest
      return (.char c :: ps, rest)

theorem length_lt_of_pieces {cs : List Char} {ps : List Piece} {rest : List Char}
    (h : pieces cs = some (ps, rest)) : rest.length < cs.length := by
  fun_induction pieces cs generalizing ps rest <;>
    simp_all [Option.bind_eq_some_iff] <;> grind

/-- Whether a code unit is the first half of a surrogate pair. -/
def isHighSurrogate (code : Nat) : Bool := 0xD800 ≤ code && code < 0xDC00

/-- Whether a code unit is the second half of a surrogate pair. -/
def isLowSurrogate (code : Nat) : Bool := 0xDC00 ≤ code && code < 0xE000

/-- The characters of a string, if its surrogates are paired. -/
def decode : List Piece → Option (List Char)
  | [] => some []
  | .char c :: rest => do return c :: (← decode rest)
  | .unit code :: rest =>
    if isHighSurrogate code then
      match rest with
      | .unit low :: rest =>
        if isLowSurrogate low then do
          let c := Char.ofNat (0x10000 + (code - 0xD800) * 0x400 + (low - 0xDC00))
          return c :: (← decode rest)
        else none
      | _ => none
    else if isLowSurrogate code then none
    else do return Char.ofNat code :: (← decode rest)

/-- A string, behind its opening quote. -/
def string (cs : List Char) : Option (Read cs (Option String)) :=
  match h : pieces cs with
  | some (ps, rest) => some ⟨(decode ps).map String.ofList, rest, length_lt_of_pieces h⟩
  | none => none

/-- The digits that the characters start with, and the characters behind them. -/
def digits (cs : List Char) : List Char × List Char :=
  (cs.takeWhile Char.isDigit, cs.dropWhile Char.isDigit)

/-- The digits of the whole part: at least one, and no zero in front of others. -/
def whole (cs : List Char) : Option (List Char × List Char) :=
  match digits cs with
  | ([], _) => none
  | ('0' :: _ :: _, _) => none
  | read => some read

/-- The digits behind a point, if one follows. -/
def fraction : List Char → Option (List Char × List Char)
  | '.' :: cs => if (digits cs).1.isEmpty then none else some (digits cs)
  | cs => some ([], cs)

/-- Whether an exponent starts with a minus sign, and the characters behind its sign. -/
def exponentSign : List Char → Bool × List Char
  | '-' :: cs => (true, cs)
  | '+' :: cs => (false, cs)
  | cs => (false, cs)

/-- The sign and the digits of an exponent, behind its mark. -/
def exponentDigits (cs : List Char) : Option (Option (Bool × List Char) × List Char) :=
  let (lowers, cs) := exponentSign cs
  if (digits cs).1.isEmpty then none else some (some (lowers, (digits cs).1), (digits cs).2)

/-- The exponent, if one follows. -/
def exponent : List Char → Option (Option (Bool × List Char) × List Char)
  | 'e' :: cs => exponentDigits cs
  | 'E' :: cs => exponentDigits cs
  | cs => some (none, cs)

/-- A number behind its sign, and the characters left. -/
def unsigned (negative : Bool) (cs : List Char) : Option (Number × List Char) := do
  let (whole, cs) ← whole cs
  let (fraction, cs) ← fraction cs
  let (exponent, cs) ← exponent cs
  return (⟨negative, whole, fraction, exponent⟩, cs)

theorem length_digits_le (cs : List Char) : (digits cs).2.length ≤ cs.length :=
  length_dropWhile_le _ _

theorem length_lt_of_whole {cs : List Char} {r : List Char × List Char}
    (h : whole cs = some r) : r.2.length < cs.length := by
  have hlen : (digits cs).1.length + (digits cs).2.length = cs.length := by
    rw [← List.length_append]
    exact congrArg _ List.takeWhile_append_dropWhile
  unfold whole at h
  split at h
  · simp at h
  · simp at h
  · rename_i hne _
    obtain rfl : digits cs = r := by simpa using h
    have hpos : (digits cs).1 ≠ [] := fun h0 => hne (digits cs).2 (by rw [← h0])
    have := List.length_pos_iff.2 hpos
    omega

theorem length_le_of_fraction {cs : List Char} {r : List Char × List Char}
    (h : fraction cs = some r) : r.2.length ≤ cs.length := by
  unfold fraction at h
  split at h
  · rename_i rest
    have := length_digits_le rest
    split at h <;> simp_all
    subst h
    omega
  · simp_all
    subst h
    simp

theorem length_exponentSign_le (cs : List Char) : (exponentSign cs).2.length ≤ cs.length := by
  unfold exponentSign
  split <;> simp

theorem length_le_of_exponentDigits {cs : List Char} {r : Option (Bool × List Char) × List Char}
    (h : exponentDigits cs = some r) : r.2.length ≤ cs.length := by
  simp only [exponentDigits] at h
  split at h
  · cases h
  · obtain rfl := Option.some.inj h
    exact Nat.le_trans (length_digits_le _) (length_exponentSign_le cs)

theorem length_le_of_exponent {cs : List Char} {r : Option (Bool × List Char) × List Char}
    (h : exponent cs = some r) : r.2.length ≤ cs.length := by
  unfold exponent at h
  split at h
  · exact Nat.le_succ_of_le (length_le_of_exponentDigits h)
  · exact Nat.le_succ_of_le (length_le_of_exponentDigits h)
  · simp_all
    subst h
    simp

theorem length_lt_of_unsigned {negative : Bool} {cs : List Char} {r : Number × List Char}
    (h : unsigned negative cs = some r) : r.2.length < cs.length := by
  simp only [unsigned, Option.bind_eq_bind, Option.bind_eq_some_iff, Option.pure_def,
    Option.some.injEq, Prod.exists] at h
  obtain ⟨w, cs₁, hw, f, cs₂, hf, e, cs₃, he, rfl⟩ := h
  have h₁ := length_lt_of_whole hw
  have h₂ := length_le_of_fraction hf
  have h₃ := length_le_of_exponent he
  simp only at *
  omega

/-- A number. -/
def number (cs : List Char) : Option (Read cs Number) :=
  match cs with
  | '-' :: rest =>
    match h : unsigned true rest with
    | some r => some ⟨r.1, r.2, Nat.lt_succ_of_lt (length_lt_of_unsigned h)⟩
    | none => none
  | cs =>
    match h : unsigned false cs with
    | some r => some ⟨r.1, r.2, length_lt_of_unsigned h⟩
    | none => none

/-- One of the three words of JSON, and the characters left. -/
def word : List Char → Option (Json × List Char)
  | 'n' :: 'u' :: 'l' :: 'l' :: rest => some (.null, rest)
  | 't' :: 'r' :: 'u' :: 'e' :: rest => some (.boolean true, rest)
  | 'f' :: 'a' :: 'l' :: 's' :: 'e' :: rest => some (.boolean false, rest)
  | _ => none

theorem length_lt_of_word {cs : List Char} {r : Json × List Char} (h : word cs = some r) :
    r.2.length < cs.length := by
  unfold word at h
  split at h <;> simp only [Option.some.injEq, reduceCtorEq] at h <;> subst h <;>
    simp only [List.length_cons] <;> omega

/-- A value that is neither an array nor an object nor a string. -/
def scalar (cs : List Char) : Option (Read cs Json) :=
  match h : word cs with
  | some r => some ⟨r.1, r.2, length_lt_of_word h⟩
  | none =>
    match number cs with
    | some r => some ⟨.number r.value, r.rest, r.shorter⟩
    | none => none

/-- What was read from the end of `outer`, as read from `outer`, with its value changed. -/
def Read.within {cs : List Char} {α β : Type} (r : Read cs α) (f : α → β) (outer : List Char)
    (h : cs.length ≤ outer.length) : Read outer β :=
  ⟨f r.value, r.rest, Nat.lt_of_lt_of_le r.shorter h⟩

mutual

/-- The value that the characters start with. -/
def value (cs : List Char) : Option (Read cs Json) :=
  match h : skipBlanks cs with
  | '"' :: rest =>
    have hrest := length_lt_of_skipBlanks h
    (string rest).map fun r => r.within .string cs (Nat.le_of_lt hrest)
  | '[' :: rest =>
    have hrest := length_lt_of_skipBlanks h
    match h' : skipBlanks rest with
    | ']' :: rest' => some ⟨.array [], rest', Nat.lt_trans (length_lt_of_skipBlanks h') hrest⟩
    | _ => (items rest).map fun r => r.within .array cs (Nat.le_of_lt hrest)
  | '\x7b' :: rest =>
    have hrest := length_lt_of_skipBlanks h
    match h' : skipBlanks rest with
    | '\x7d' :: rest' => some ⟨.object [], rest', Nat.lt_trans (length_lt_of_skipBlanks h') hrest⟩
    | _ => (members rest).map fun r => r.within .object cs (Nat.le_of_lt hrest)
  | start => (scalar start).map fun r => r.within id cs (h ▸ length_skipBlanks_le cs)
termination_by 2 * cs.length

/-- The items of an array up to its closing bracket, one at least. -/
def items (cs : List Char) : Option (Read cs (List Json)) :=
  match value cs with
  | none => none
  | some first =>
    match h : skipBlanks first.rest with
    | ',' :: rest =>
      have hrest := Nat.lt_trans (length_lt_of_skipBlanks h) first.shorter
      (items rest).map fun r => r.within (first.value :: ·) cs (Nat.le_of_lt hrest)
    | ']' :: rest =>
      some ⟨[first.value], rest, Nat.lt_trans (length_lt_of_skipBlanks h) first.shorter⟩
    | _ => none
termination_by 2 * cs.length + 1

/-- A member of an object: its key, a colon and its value. -/
def member (cs : List Char) : Option (Read cs (Option String × Json)) :=
  match h : skipBlanks cs with
  | '"' :: rest =>
    match string rest with
    | none => none
    | some key =>
      match h' : skipBlanks key.rest with
      | ':' :: rest' =>
        have hrest' : rest'.length < cs.length :=
          Nat.lt_trans (Nat.lt_trans (length_lt_of_skipBlanks h') key.shorter)
            (length_lt_of_skipBlanks h)
        (value rest').map fun r => r.within (key.value, ·) cs (Nat.le_of_lt hrest')
      | _ => none
  | _ => none
termination_by 2 * cs.length

/-- The members of an object up to its closing brace, one at least. -/
def members (cs : List Char) : Option (Read cs (List (Option String × Json))) :=
  match member cs with
  | none => none
  | some first =>
    match h : skipBlanks first.rest with
    | ',' :: rest =>
      have hrest := Nat.lt_trans (length_lt_of_skipBlanks h) first.shorter
      (members rest).map fun r => r.within (first.value :: ·) cs (Nat.le_of_lt hrest)
    | '\x7d' :: rest =>
      some ⟨[first.value], rest, Nat.lt_trans (length_lt_of_skipBlanks h) first.shorter⟩
    | _ => none
termination_by 2 * cs.length + 1

end

end Reader

/-- The value of a text, with nothing but blanks around it. -/
def ofText? (text : String) : Option Json := do
  let read ← Reader.value text.toList
  if (Reader.skipBlanks read.rest).isEmpty then some read.value else none

end Formulary.Json
