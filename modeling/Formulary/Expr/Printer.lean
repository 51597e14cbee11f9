import Formulary.Decimal.Basic
import Formulary.Expr.Basic

/-!
# Printing expressions

The canonical text of a tree: every operation stands in parentheses, so the text
reads back as the tree whatever the operators bind like.

* `chars`: the characters of the text, by the shape of the tree.
* `text`, `toList_text`: the text, written without copying any part of it.
-/

namespace Formulary.Expr

/-- The characters of the canonical text. -/
def chars : Expr → List Char
  | literal d => d.canonicalText.toList
  | var name _ => name.toList
  | negate e => '-' :: '(' :: (e.chars ++ [')'])
  | binary op l r =>
    '(' :: (l.chars ++ ' ' :: (op.symbol.toList ++ ' ' :: (r.chars ++ [')'])))
  | conditional c t e =>
    '(' :: (c.chars ++ ' ' :: '?' :: ' ' :: (t.chars ++ ' ' :: ':' :: ' ' :: (e.chars ++ [')'])))

/-- Writes the canonical text in front of other characters, each character once. -/
def charsBefore : Expr → List Char → List Char
  | literal d, rest => d.canonicalText.toList ++ rest
  | var name _, rest => name.toList ++ rest
  | negate e, rest => '-' :: '(' :: e.charsBefore (')' :: rest)
  | binary op l r, rest =>
    '(' :: l.charsBefore (' ' :: (op.symbol.toList ++ ' ' :: r.charsBefore (')' :: rest)))
  | conditional c t e, rest =>
    '(' :: c.charsBefore (' ' :: '?' :: ' ' ::
      t.charsBefore (' ' :: ':' :: ' ' :: e.charsBefore (')' :: rest)))

theorem charsBefore_eq (e : Expr) (rest : List Char) : e.charsBefore rest = e.chars ++ rest := by
  induction e generalizing rest with
  | literal => rfl
  | var => rfl
  | negate e ih => simp [charsBefore, chars, ih]
  | binary op l r ihl ihr => simp [charsBefore, chars, ihl, ihr]
  | conditional c t e ihc iht ihe => simp [charsBefore, chars, ihc, iht, ihe]

/-- The canonical text. -/
def text (e : Expr) : String := String.ofList (e.charsBefore [])

@[simp] theorem toList_text (e : Expr) : e.text.toList = e.chars := by
  simp [text, charsBefore_eq]

end Formulary.Expr
