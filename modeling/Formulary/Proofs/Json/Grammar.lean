import Mathlib.Data.List.Basic
import Formulary.Json.Reader
import Formulary.Json.Writer

/-!
# The grammar of JSON

Which characters spell a value, said without a reader. Blanks may stand around every value,
key and empty pair of brackets. A character of a string stands for itself, or is escaped by
a letter, or by the hexadecimal digits of its one or two UTF-16 code units; digits that pair
no surrogates are a string still, but spell no text.

* `SpellsString`, `SpellsNumber`, `Spells`: the strings, the numbers and the values.
* `IsText`: a whole text, a value with blanks around it.
* `spellsString_escape`: **an escaped text is spelled by its escapes**.
* `spells_writeArray`, `spells_writeObject`: written values are spelled as written.
-/

namespace Formulary.Json

open Reader (Piece)

/-! ### Strings -/

/-- A hexadecimal digit, in lower or upper case. -/
def IsHexDigit (n : Nat) (c : Char) : Prop :=
  n < 16 ∧ (c = Nat.digitChar n ∨ c = (Nat.digitChar n).toUpper)

/-- Four hexadecimal digits spell a code unit. -/
inductive SpellsUnit : Nat → List Char → Prop
  | digits {w x y z : Nat} {a b c d : Char} (ha : IsHexDigit w a) (hb : IsHexDigit x b)
      (hc : IsHexDigit y c) (hd : IsHexDigit z d) :
      SpellsUnit (((w * 16 + x) * 16 + y) * 16 + z) [a, b, c, d]

/-- The letters that escape a character. -/
def letters : List (Char × Char) :=
  [('"', '"'), ('\\', '\\'), ('/', '/'), ('b', '\x08'), ('f', '\x0c'), ('n', '\n'), ('r', '\r'),
    ('t', '\t')]

/-- A piece of a string, as it is spelled. -/
inductive SpellsPiece : Piece → List Char → Prop
  | plain {c : Char} (hcontrol : 0x20 ≤ c.toNat) (hquote : c ≠ '"') (hbackslash : c ≠ '\\') :
      SpellsPiece (.char c) [c]
  | letter {e c : Char} (h : (e, c) ∈ letters) : SpellsPiece (.char c) ['\\', e]
  | unit {code : Nat} {cs : List Char} (h : SpellsUnit code cs) :
      SpellsPiece (.unit code) ('\\' :: 'u' :: cs)

/-- Pieces are spelled one after the other. -/
inductive SpellsPieces : List Piece → List Char → Prop
  | nil : SpellsPieces [] []
  | cons {p : Piece} {ps : List Piece} {cs ds : List Char} (h : SpellsPiece p cs)
      (hs : SpellsPieces ps ds) : SpellsPieces (p :: ps) (cs ++ ds)

/-- The pieces that stand for characters: each for itself, or by the code units of UTF-16,
one for a character of the basic plane and a surrogate pair for any other. -/
inductive Encodes : List Char → List Piece → Prop
  | nil : Encodes [] []
  | char {c : Char} {cs : List Char} {ps : List Piece} (h : Encodes cs ps) :
      Encodes (c :: cs) (.char c :: ps)
  | unit {c : Char} {cs : List Char} {ps : List Piece} (hc : c.toNat < 0x10000)
      (h : Encodes cs ps) : Encodes (c :: cs) (.unit c.toNat :: ps)
  | pair {c : Char} {cs : List Char} {ps : List Piece} (hc : 0x10000 ≤ c.toNat)
      (h : Encodes cs ps) :
      Encodes (c :: cs)
        (.unit (0xD800 + (c.toNat - 0x10000) / 0x400) ::
          .unit (0xDC00 + (c.toNat - 0x10000) % 0x400) :: ps)

/-- What is spelled between the quotes of a string: a text, or nothing that is Unicode. -/
inductive SpellsString : Option String → List Char → Prop
  | text {text : String} {ps : List Piece} {cs : List Char} (hs : SpellsPieces ps cs)
      (h : Encodes text.toList ps) : SpellsString (some text) cs
  | unpaired {ps : List Piece} {cs : List Char} (hs : SpellsPieces ps cs)
      (h : ∀ text, ¬ Encodes text ps) : SpellsString none cs

/-! ### Numbers -/

/-- Decimal digits, one at least. -/
def IsDigits (ds : List Char) : Prop := ds ≠ [] ∧ ∀ c ∈ ds, c.isDigit

/-- The digits of a fraction behind their point, or none. -/
inductive SpellsFraction : List Char → List Char → Prop
  | absent : SpellsFraction [] []
  | point {ds : List Char} (h : IsDigits ds) : SpellsFraction ds ('.' :: ds)

/-- The sign of an exponent, of which a plus may be left out. -/
inductive SpellsSign : Bool → List Char → Prop
  | absent : SpellsSign false []
  | plus : SpellsSign false ['+']
  | minus : SpellsSign true ['-']

/-- The sign and digits of an exponent behind its mark, or none. -/
inductive SpellsExponent : Option (Bool × List Char) → List Char → Prop
  | absent : SpellsExponent none []
  | marked {mark : Char} {lowers : Bool} {sign ds : List Char} (hmark : mark = 'e' ∨ mark = 'E')
      (hsign : SpellsSign lowers sign) (h : IsDigits ds) :
      SpellsExponent (some (lowers, ds)) (mark :: (sign ++ ds))

/-- A number in its parts. No zero stands in front of other digits. -/
inductive SpellsNumber : Number → List Char → Prop
  | parts {n : Number} {fraction exponent : List Char} (hwhole : IsDigits n.whole)
      (hzero : n.whole.head? = some '0' → n.whole = ['0'])
      (hfraction : SpellsFraction n.fraction fraction)
      (hexponent : SpellsExponent n.exponent exponent) :
      SpellsNumber n ((if n.negative then ['-'] else []) ++ (n.whole ++ (fraction ++ exponent)))

/-! ### Values -/

/-- The characters that may stand between the parts of a value. -/
def blanks : List Char := [' ', '\t', '\n', '\r']

/-- Any number of blanks. -/
def IsBlanks (cs : List Char) : Prop := ∀ c ∈ cs, c ∈ blanks

theorem isBlanks_nil : IsBlanks [] := fun _ h => absurd h List.not_mem_nil

/-- Characters with blanks around them. -/
structure Padded where
  before : List Char
  core : List Char
  after : List Char
  before_blank : IsBlanks before
  after_blank : IsBlanks after

/-- All characters, with those around the core. -/
def Padded.chars (p : Padded) : List Char := p.before ++ (p.core ++ p.after)

/-- Characters with no blanks around them. -/
def Padded.bare (core : List Char) : Padded :=
  ⟨[], core, [], isBlanks_nil, isBlanks_nil⟩

@[simp] theorem Padded.bare_core (core : List Char) : (Padded.bare core).core = core := rfl

@[simp] theorem Padded.bare_chars (core : List Char) : (Padded.bare core).chars = core := by
  simp [Padded.bare, Padded.chars]

/-- A value, and the characters that are to spell it. -/
structure Item where
  value : Json
  text : Padded

/-- A key and a value, and the characters that are to spell them. -/
structure Member where
  key : Option String
  value : Json
  keyText : Padded
  valueText : Padded

/-- The characters of a member: its key in quotes, a colon and its value. -/
def Member.chars (m : Member) : List Char :=
  m.keyText.before ++
    '"' :: (m.keyText.core ++ '"' :: (m.keyText.after ++ ':' :: m.valueText.chars))

/-- What a member says. -/
def Member.pair (m : Member) : Option String × Json := (m.key, m.value)

/-- **The characters that spell a value.** -/
inductive Spells : Json → List Char → Prop
  | null : Spells .null ['n', 'u', 'l', 'l']
  | yes : Spells (.boolean true) ['t', 'r', 'u', 'e']
  | no : Spells (.boolean false) ['f', 'a', 'l', 's', 'e']
  | number {n : Number} {cs : List Char} (h : SpellsNumber n cs) : Spells (.number n) cs
  | string {text : Option String} {cs : List Char} (h : SpellsString text cs) :
      Spells (.string text) ('"' :: (cs ++ ['"']))
  | emptyArray {bs : List Char} (h : IsBlanks bs) : Spells (.array []) ('[' :: (bs ++ [']']))
  | array {items : List Item} (hne : items ≠ []) (h : ∀ i ∈ items, Spells i.value i.text.core) :
      Spells (.array (items.map Item.value))
        ('[' :: (separate (items.map (·.text.chars)) ++ [']']))
  | emptyObject {bs : List Char} (h : IsBlanks bs) :
      Spells (.object []) ('\x7b' :: (bs ++ ['\x7d']))
  | object {members : List Member} (hne : members ≠ [])
      (hkeys : ∀ m ∈ members, SpellsString m.key m.keyText.core)
      (hvalues : ∀ m ∈ members, Spells m.value m.valueText.core) :
      Spells (.object (members.map Member.pair))
        ('\x7b' :: (separate (members.map Member.chars) ++ ['\x7d']))

/-- A JSON text: a value with blanks around it. -/
def IsText (text : String) (j : Json) : Prop :=
  ∃ p : Padded, text.toList = p.chars ∧ Spells j p.core

/-- A digit is no blank. -/
theorem not_mem_blanks_of_isDigit {c : Char} (h : c.isDigit) : c ∉ blanks := by
  have hblanks : ∀ b ∈ blanks, ¬ b.isDigit := by simp [blanks]
  exact fun hmem => hblanks c hmem h

/-- A number starts with a minus sign or a digit. -/
theorem SpellsNumber.head {n : Number} {cs : List Char} (h : SpellsNumber n cs) :
    ∃ c rest, cs = c :: rest ∧ (c = '-' ∨ c.isDigit) := by
  obtain ⟨⟨hne, hdigits⟩, -, -, -⟩ := h
  cases hneg : n.negative with
  | true => exact ⟨'-', _, rfl, .inl rfl⟩
  | false =>
    obtain ⟨c, ds, hds⟩ := List.exists_cons_of_ne_nil hne
    exact ⟨c, _, by rw [hds]; rfl, .inr (hdigits c (hds ▸ List.mem_cons_self))⟩

/-- A value starts with a character that is no blank and closes nothing. -/
theorem Spells.head {j : Json} {cs : List Char} (h : Spells j cs) :
    ∃ c rest, cs = c :: rest ∧ c ∉ blanks ∧ c ≠ ']' := by
  cases h with
  | number h =>
    obtain ⟨c, rest, rfl, rfl | hc⟩ := h.head
    · exact ⟨'-', rest, rfl, by decide, by decide⟩
    · refine ⟨c, rest, rfl, not_mem_blanks_of_isDigit hc, ?_⟩
      rintro rfl
      exact absurd hc (by decide)
  | null => exact ⟨'n', _, rfl, by decide, by decide⟩
  | yes => exact ⟨'t', _, rfl, by decide, by decide⟩
  | no => exact ⟨'f', _, rfl, by decide, by decide⟩
  | string h => exact ⟨'"', _, rfl, by decide, by decide⟩
  | emptyArray h => exact ⟨'[', _, rfl, by decide, by decide⟩
  | array hne h => exact ⟨'[', _, rfl, by decide, by decide⟩
  | emptyObject h => exact ⟨'\x7b', _, rfl, by decide, by decide⟩
  | object hne hkeys hvalues => exact ⟨'\x7b', _, rfl, by decide, by decide⟩

/-! ### Written values -/

/-- A character is spelled by its escape, which is one piece. -/
theorem spellsPiece_escape (c : Char) :
    ∃ p, SpellsPiece p (escape c) ∧ ∀ cs ps, Encodes cs ps → Encodes (c :: cs) (p :: ps) := by
  have hdigit {n : Nat} (h : n < 16) : IsHexDigit n (hexDigit n) := ⟨h, .inl rfl⟩
  unfold escape
  split
  · exact ⟨.char '"', .letter (by decide), fun _ _ => .char⟩
  · exact ⟨.char '\\', .letter (by decide), fun _ _ => .char⟩
  · exact ⟨.char '\x08', .letter (by decide), fun _ _ => .char⟩
  · exact ⟨.char '\x0c', .letter (by decide), fun _ _ => .char⟩
  · exact ⟨.char '\n', .letter (by decide), fun _ _ => .char⟩
  · exact ⟨.char '\r', .letter (by decide), fun _ _ => .char⟩
  · exact ⟨.char '\t', .letter (by decide), fun _ _ => .char⟩
  · by_cases hc : c.toNat < 0x20
    · rw [if_pos hc]
      have hunit := SpellsUnit.digits (hdigit (show 0 < 16 by decide))
        (hdigit (show 0 < 16 by decide)) (hdigit (show c.toNat / 16 < 16 by omega))
        (hdigit (show c.toNat % 16 < 16 by omega))
      have hcode : ((0 * 16 + 0) * 16 + c.toNat / 16) * 16 + c.toNat % 16 = c.toNat := by omega
      rw [hcode] at hunit
      exact ⟨.unit c.toNat, .unit hunit, fun _ _ => .unit (by omega)⟩
    · rw [if_neg hc]
      exact ⟨.char c, .plain (by omega) (by assumption) (by assumption), fun _ _ => .char⟩

/-- **An escaped text is spelled by its escapes**, whatever its characters are. -/
theorem spellsString_escape (text : String) :
    SpellsString (some text) (text.toList.flatMap escape) := by
  have hpieces (cs : List Char) : ∃ ps, SpellsPieces ps (cs.flatMap escape) ∧ Encodes cs ps := by
    induction cs with
    | nil => exact ⟨[], .nil, .nil⟩
    | cons c cs ih =>
      obtain ⟨ps, hspells, hencodes⟩ := ih
      obtain ⟨p, hp, hc⟩ := spellsPiece_escape c
      exact ⟨p :: ps, .cons hp hspells, hc cs ps hencodes⟩
  obtain ⟨ps, hspells, hencodes⟩ := hpieces text.toList
  exact .text hspells hencodes

/-- A written text is a string. -/
theorem spells_writeText (text : String) : Spells (.string (some text)) (writeText text) :=
  .string (spellsString_escape text)

/-- The value of a count: an integer without a sign. -/
def ofNat (n : Nat) : Json := .number ⟨false, Nat.toDigits 10 n, [], none⟩

/-- A positive number has no zero in front. -/
theorem head?_toDigits {n : Nat} (h : 0 < n) : (Nat.toDigits 10 n).head? ≠ some '0' := by
  induction n using Nat.strongRecOn with
  | _ n ih =>
    by_cases hn : n < 10
    · rw [Nat.toDigits_of_lt_base hn, List.head?_cons, ne_eq, Option.some.injEq, Nat.digitChar_eq_zero]
      omega
    · rw [Nat.toDigits_of_base_le (by decide) (by omega),
        List.head?_append_of_ne_nil _ Nat.toDigits_ne_nil]
      exact ih (n / 10) (by omega) (by omega)

/-- A written count is an integer. -/
theorem spells_writeNat (n : Nat) : Spells (ofNat n) (writeNat n) := by
  have hdigits : IsDigits (Nat.toDigits 10 n) :=
    ⟨Nat.toDigits_ne_nil, fun c hc => Nat.isDigit_of_mem_toDigits (by decide) (by decide) hc⟩
  have hzero (h : (Nat.toDigits 10 n).head? = some '0') : Nat.toDigits 10 n = ['0'] := by
    by_cases hn : n = 0
    · rw [hn, Nat.toDigits_zero]
    · exact absurd h (head?_toDigits (Nat.pos_of_ne_zero hn))
  have hnumber := SpellsNumber.parts (n := ⟨false, Nat.toDigits 10 n, [], none⟩) hdigits hzero
    .absent .absent
  simp only [Bool.false_eq_true, if_false, List.nil_append, List.append_nil] at hnumber
  exact .number hnumber

/-- A written array spells the values of its items. -/
theorem spells_writeArray {α : Type} (xs : List α) (value : α → Json) (write : α → List Char)
    (h : ∀ x ∈ xs, Spells (value x) (write x)) :
    Spells (.array (xs.map value)) (writeArray (xs.map write)) := by
  by_cases hxs : xs = []
  · rw [hxs]
    exact .emptyArray isBlanks_nil
  · let item (x : α) : Item := ⟨value x, .bare (write x)⟩
    have hne : xs.map item ≠ [] := by simpa using hxs
    have harray := Spells.array hne (by simpa [item] using h)
    have hvalues : (xs.map item).map Item.value = xs.map value := by simp [item]
    have htexts : (xs.map item).map (·.text.chars) = xs.map write := by simp [item]
    rwa [hvalues, htexts] at harray

/-- A written object spells its members, under keys that are any texts. -/
theorem spells_writeObject {α : Type} (xs : List α) (key : α → String) (value : α → Json)
    (write : α → List Char) (h : ∀ x ∈ xs, Spells (value x) (write x)) :
    Spells (.object (xs.map fun x => (some (key x), value x)))
      (writeObject (xs.map fun x => (key x, write x))) := by
  by_cases hxs : xs = []
  · rw [hxs]
    exact .emptyObject isBlanks_nil
  · let member (x : α) : Member :=
      ⟨some (key x), value x, .bare ((key x).toList.flatMap escape), .bare (write x)⟩
    have hkeys : ∀ m ∈ xs.map member, SpellsString m.key m.keyText.core := by
      intro m hm
      obtain ⟨x, -, rfl⟩ := List.mem_map.1 hm
      exact spellsString_escape (key x)
    have hne : xs.map member ≠ [] := by simpa using hxs
    have hobject := Spells.object hne hkeys (by simpa [member] using h)
    have hpairs : (xs.map member).map Member.pair = xs.map fun x => (some (key x), value x) := by
      simp [member, Member.pair]
    have htexts : (xs.map member).map Member.chars =
        (xs.map fun x => (key x, write x)).map fun m => writeText m.1 ++ ':' :: m.2 := by
      simp [member, Member.chars, writeText, Padded.bare, Padded.chars]
    rw [hpairs, htexts] at hobject
    exact hobject

end Formulary.Json
