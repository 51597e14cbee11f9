import Mathlib.Data.List.Basic
import Formulary.Proofs.Token.Offense

/-!
# Characters that no formula may hold

White space, digits, the marks of operators and groups, and the letters of declared names
are all that a formula is written with. The lexer stops at any other character, if not at
an offence before it, and what it has read by then it would also have read alone.

* `IsForbidden`: the characters that may stand nowhere in a formula.
* `IsLexeme.not_isForbidden`: no character of a token is one of them.
* `scan_append`: a text goes on as it started, unless what follows extends its last token.
* `scan_isForbidden` (every text): the lexer refuses a forbidden character where it stands.
* `tokenize_fails_closed`: **a forbidden character fails the whole formula, and the first
  offence is the one that is reported.**
-/

namespace Formulary

open Lexer

/-- The characters of operators, groups and conditionals, and the point of a number. -/
def marks : List Char :=
  ['+', '-', '*', '/', '(', ')', '.', '?', ':', '<', '>', '=', '!', '&', '|']

/-- **A character that no formula over the declared names may hold**: it is neither white
space nor a digit, no mark, and no letter or underscore of a declared name. -/
structure IsForbidden (names : List String) (c : Char) : Prop where
  not_blank : Text.isWhiteSpace c = false
  not_digit : c.isDigit = false
  not_mark : c ∉ marks
  not_name : ¬ (isNameStart c ∧ ∃ name ∈ names, c ∈ name.toList)

variable {names : List String} {start : Nat} {c : Char} {cs : List Char} {ts : List Token}

theorem not_isForbidden_of_mark (h : cs.all (marks.contains ·)) :
    ∀ x ∈ cs, ¬ IsForbidden names x := by
  intro x hx hf
  have hmark := List.all_eq_true.1 h x hx
  exact hf.not_mark (by simpa using hmark)

/-- **No character of a token is forbidden.** -/
theorem IsLexeme.not_isForbidden {kind : Token.Kind} (h : IsLexeme names kind cs) :
    ∀ x ∈ cs, ¬ IsForbidden names x := by
  cases kind with
  | number =>
    intro x hx hf
    rcases h.1.mem x hx with hdigit | rfl
    · simp [hf.not_digit] at hdigit
    · exact hf.not_mark (by decide)
  | identifier =>
    intro x hx hf
    have hname : ∃ name ∈ names, x ∈ name.toList := by
      have hletter := h.2 x hx
      simpa [hf.not_digit] using hletter
    have hpart : isNamePart x := by
      obtain ⟨d, more, rfl⟩ := List.exists_cons_of_ne_nil (List.ne_nil_of_mem hx)
      obtain ⟨hd, hmore⟩ := isIdentifier_ofList_cons.1 h.1
      rcases List.mem_cons.1 hx with rfl | hx
      · simp only [isNameStart, Bool.or_eq_true] at hd
        simp only [isNamePart, Char.isAlphanum, Bool.or_eq_true]
        exact hd.imp_left .inl
      · exact hmore x hx
    have hstart : isNameStart x := by
      simpa [isNamePart, Char.isAlphanum, hf.not_digit, isNameStart] using hpart
    exact hf.not_name ⟨hstart, hname⟩
  | operator op =>
    obtain rfl : cs = op.symbol.toList := h
    exact not_isForbidden_of_mark (by cases op <;> decide)
  | openParen | closeParen | question | colon =>
    unfold IsLexeme at h
    subst h
    exact not_isForbidden_of_mark (by decide)

/-- A formula with a forbidden character has no segmentation: the character would be white
space, or stand in a token. -/
theorem Segmentation.not_isForbidden (h : Segmentation names cs 0 ts) :
    ∀ x ∈ cs, ¬ IsForbidden names x := by
  intro x hx hf
  obtain ⟨i, hi, rfl⟩ := List.getElem_of_mem hx
  have hget : cs[i]? = some cs[i] := List.getElem?_eq_getElem hi
  by_cases hout : ∀ t ∈ ts, ¬ (t.position ≤ i ∧ i < t.ending)
  · have hblank := h.blank i cs[i] (Nat.zero_le _) hget hout
    simp [hf.not_blank] at hblank
  · push Not at hout
    obtain ⟨t, ht, hle, hlt⟩ := hout
    have hmem : cs[i] ∈ t.text.toList := by
      have hlt' : i - t.position < t.text.length := by
        unfold Token.ending at hlt
        omega
      rw [h.slice t ht, List.mem_iff_getElem?]
      refine ⟨i - t.position, ?_⟩
      rw [List.getElem?_take_of_lt hlt', List.getElem?_drop, Nat.add_sub_cancel' hle, hget]
    exact (h.lexeme t ht).not_isForbidden _ hmem hf

namespace Lexer

/-- **A text goes on as it started**: what stands behind it is cut on its own, unless its
first character extends the token that ends there. -/
theorem scan_append (h : scan (occursIn names) start cs = .ok ts) (tail : List Char)
    (hseam : ∀ t ∈ ts, t.ending = start + cs.length →
      ∀ y ∈ tail.head?, ¬ Extends t.kind t.text.toList y) :
    scan (occursIn names) start (cs ++ tail) =
      (scan (occursIn names) (start + cs.length) tail).map (ts ++ ·) := by
  induction start, cs using scan_induction names generalizing ts with
  | nil start =>
    obtain rfl : [] = ts := by simpa [scan] using h
    show scan (occursIn names) start tail = _
    cases scan (occursIn names) start tail <;> rfl
  | blank start d cs hw ih =>
    rw [scan_blank hw] at h
    have hlength : start + (d :: cs).length = start + 1 + cs.length := by
      simp only [List.length_cons]
      omega
    rw [hlength] at hseam
    rw [List.cons_append, scan_blank hw, ih h hseam, hlength]
  | token start kind d more rest hw hlex hlongest ih =>
    have hlength := start_add_length start d more rest
    obtain ⟨us, hrest, rfl⟩ := scan_token_eq_ok hw hlex hlongest h
    rw [hlength] at hseam
    obtain ⟨hfirst, hothers⟩ := List.forall_mem_cons.1 hseam
    have hbehind : ∀ y ∈ (rest ++ tail).head?, ¬ Extends kind (d :: more) y := by
      intro y hy
      cases rest with
      | nil =>
        have hending : Token.ending ⟨kind, String.ofList (d :: more), start⟩ =
            start + 1 + more.length := by
          simp only [Token.ending, String.length_ofList, List.length_cons]
          omega
        simpa using hfirst hending y hy
      | cons x rest => exact hlongest y hy
    rw [List.cons_append, List.append_assoc, scan_token hw hlex hbehind, ih hrest hothers, hlength]
    cases scan (occursIn names) (start + 1 + more.length + rest.length) tail <;> rfl
  | stuck start d cs e hw hl => cases (scan_stuck hw hl).symm.trans h

end Lexer

/-- A forbidden character can only extend a name. -/
theorem IsForbidden.extends (hc : IsForbidden names c) {kind : Token.Kind}
    (h : Extends kind cs c) : kind = .identifier ∧ isNamePart c := by
  have hequals : ¬ c = '=' := fun heq => hc.not_mark (heq ▸ by decide)
  cases kind with
  | number =>
    rcases h with hdigit | ⟨rfl, -⟩
    · simp [hc.not_digit] at hdigit
    · exact absurd (by decide) hc.not_mark
  | identifier => exact ⟨rfl, h⟩
  | operator op =>
    cases op with
    | less | greater => exact absurd h hequals
    | _ => exact absurd h id
  | openParen | closeParen | question | colon => exact absurd h id

namespace Lexer

/-- A forbidden character starts no token. -/
theorem lexeme_isForbidden (hc : IsForbidden names c) (position : Nat) (cs : List Char) :
    lexeme (occursIn names) position c cs = .error (.unexpectedChar c position) := by
  have hsymbol : c ∉ symbols := by
    have hmarks : symbols.all (marks.contains ·) := by decide
    exact fun hs => not_isForbidden_of_mark hmarks c hs hc
  have hpoint : ¬ c = '.' := fun heq => hc.not_mark (heq ▸ by decide)
  have hname : ¬ (isNameStart c && occursIn names c) := by
    rw [Bool.and_eq_true, occursIn_iff]
    exact hc.not_name
  rw [lexeme_of_not_symbol hsymbol, if_neg (by simp [hc.not_digit, hpoint]), if_neg hname]

/-- A name that goes on with a forbidden character is refused at that character. -/
theorem lexeme_name_isForbidden {d : Char} {more : List Char} (hc : IsForbidden names c)
    (hpart : isNamePart c) (hlex : IsLexeme names .identifier (d :: more)) (position : Nat)
    (cs : List Char) :
    lexeme (occursIn names) position d (more ++ c :: cs) =
      .error (.unexpectedChar c (position + 1 + more.length)) := by
  have hname : lexeme (occursIn names) position d (more ++ c :: cs) =
      Lexer.name (occursIn names) position (more ++ c :: cs) :=
    (lexeme_of_isIdentifier hlex (more ++ c :: cs)).2.2
  have hmore := (isIdentifier_ofList_cons.1 hlex.1).2
  have hrun : (more ++ c :: cs).takeWhile isNamePart = more ++ c :: cs.takeWhile isNamePart := by
    rw [List.takeWhile_append_of_pos hmore, List.takeWhile_cons_of_pos hpart]
  have hstop : ¬ (c.isDigit ∨ occursIn names c) := by
    have hstart : isNameStart c := by
      simpa [isNamePart, Char.isAlphanum, hc.not_digit, isNameStart] using hpart
    rintro (hdigit | hoccurs)
    · simp [hc.not_digit] at hdigit
    · exact hc.not_name ⟨hstart, occursIn_iff.1 hoccurs⟩
  have hbefore : ∀ x ∈ more, x.isDigit ∨ occursIn names x := by
    simp only [occursIn_iff]
    exact fun x hx => hlex.2 x (List.mem_cons_of_mem _ hx)
  have hforbidden : firstForbidden? (occursIn names) (position + 1)
      (more ++ c :: cs.takeWhile isNamePart) = some (c, position + 1 + more.length) :=
    firstForbidden?_eq_some_iff.2 ⟨more, _, rfl, rfl, hbefore, hstop⟩
  rw [hname, Lexer.name, hrun]
  simp only [hforbidden]

/-- **The lexer refuses a forbidden character where it stands**, whatever follows it, if the
text before it has tokens. -/
theorem scan_isForbidden (hc : IsForbidden names c) (after : List Char)
    (h : scan (occursIn names) start cs = .ok ts) :
    scan (occursIn names) start (cs ++ c :: after) =
      .error (.unexpectedChar c (start + cs.length)) := by
  induction start, cs using scan_induction names generalizing ts with
  | nil start => exact scan_stuck hc.not_blank (lexeme_isForbidden hc start after)
  | blank start d cs hw ih =>
    rw [scan_blank hw] at h
    rw [List.cons_append, scan_blank hw, ih h, List.length_cons, Nat.add_assoc, Nat.add_comm 1]
  | token start kind d more rest hw hlex hlongest ih =>
    have hlength := start_add_length start d more rest
    by_cases hbehind : ∀ y ∈ (rest ++ c :: after).head?, ¬ Extends kind (d :: more) y
    · obtain ⟨us, hrest, -⟩ := scan_token_eq_ok hw hlex hlongest h
      rw [List.cons_append, List.append_assoc, scan_token hw hlex hbehind, ih hrest, hlength]
      rfl
    · -- the name that stands before the character would go on with it
      push Not at hbehind
      obtain ⟨y, hy, hext⟩ := hbehind
      cases rest with
      | cons x rest => exact absurd hext (hlongest y hy)
      | nil =>
        obtain rfl : c = y := by simpa using hy
        obtain ⟨rfl, hpart⟩ := hc.extends hext
        have hl := lexeme_name_isForbidden hc hpart hlex start after
        rw [hlength, List.append_nil, List.cons_append]
        exact scan_stuck hw hl
  | stuck start d cs e hw hl => cases (scan_stuck hw hl).symm.trans h

/-- **What the lexer has read is a text of its own**: where it fails at a character or a
number, the text up to there has tokens. -/
theorem scan_take_of_error {e : LexError} {p : Nat}
    (h : scan (occursIn names) 0 cs = .error e) (hp : e.position = some p) :
    ∃ ts, scan (occursIn names) 0 (cs.take p) = .ok ts := by
  obtain ⟨before, c, more, ts, rfl, hw, hl, hts, hseam⟩ := scan_eq_error h
  rw [Nat.zero_add] at hl hseam
  have hstart : ∃ ts, scan (occursIn names) 0 ((before ++ c :: more).take before.length) = .ok ts :=
    ⟨ts, by rw [List.take_left, hts]⟩
  obtain rfl | rfl | ⟨name, d, after, rfl, rfl, -, hlex⟩ := lexeme_eq_error hl
  · obtain rfl : before.length = p := by simpa [LexError.position] using hp
    exact hstart
  · obtain rfl : before.length = p := by simpa [LexError.position] using hp
    exact hstart
  · -- the name is cut short, and what is left of it is one
    have hp : before.length + 1 + name.length = p := by simpa [LexError.position] using hp
    have htake : (before ++ c :: (name ++ d :: after)).take p = before ++ c :: name := by
      rw [← hp, show before ++ c :: (name ++ d :: after) = (before ++ c :: name) ++ d :: after by simp]
      exact List.take_left' (by simp only [List.length_append, List.length_cons]; omega)
    have hseam' : ∀ t ∈ ts, t.ending = 0 + before.length →
        ∀ y ∈ (c :: name).head?, ¬ Extends t.kind t.text.toList y := by
      intro t ht hending y hy
      obtain rfl : c = y := by simpa using hy
      exact hseam t ht (by omega)
    have hend : ∀ y ∈ ([] : List Char).head?, ¬ Extends .identifier (c :: name) y := by simp
    have hname := scan_token hw hlex hend (0 + before.length)
    rw [List.append_nil] at hname
    rw [htake, scan_append hts _ hseam', hname, scan]
    exact ⟨_, rfl⟩

end Lexer

/-- A text that is cut into tokens is a formula, if the limits allow. -/
theorem tokenize_of_scan {source : String} {limits : Limits}
    (h : scan (occursIn names) 0 source.toList = .ok ts)
    (hlength : source.length ≤ limits.maxFormulaLength) (hcount : ts.length ≤ limits.maxTokenCount) :
    tokenize source names limits = .ok ts := by
  rw [tokenize_eq, if_neg (Nat.not_lt_of_le hlength), h]
  exact if_neg (Nat.not_lt_of_le hcount)

/-- **Lexing fails closed, and names the first offender.** A formula with a forbidden character
has no tokens. If it is short enough and the text before its first forbidden character has
tokens, the error is about that character, whatever follows it. And wherever the lexer fails
at a character or a number, the text before that place has tokens on its own, under the same
limit on characters and a limit on tokens that is large enough. -/
theorem tokenize_fails_closed (source : String) (names : List String) (limits : Limits) :
    ((∃ c ∈ source.toList, IsForbidden names c) → ∃ e, tokenize source names limits = .error e) ∧
    (∀ before c after, source.toList = before ++ c :: after → IsForbidden names c →
      (∀ x ∈ before, ¬ IsForbidden names x) → source.length ≤ limits.maxFormulaLength →
      (∃ count ts, tokenize (String.ofList before) names { limits with maxTokenCount := count } =
        .ok ts) →
      tokenize source names limits = .error (.unexpectedChar c before.length)) ∧
    ∀ e p, ((∃ c, e = .unexpectedChar c p) ∨ ∃ text, e = .malformedNumber text p) →
      tokenize source names limits = .error e →
      ∃ ts, ∀ count, ts.length ≤ count →
        tokenize (String.ofList (source.toList.take p)) names
          { limits with maxTokenCount := count } = .ok ts := by
  refine ⟨?_, ?_, ?_⟩
  · rintro ⟨c, hmem, hc⟩
    cases h : tokenize source names limits with
    | error e => exact ⟨e, rfl⟩
    | ok ts =>
      obtain ⟨-, -, hseg⟩ := segmentation_of_tokenize h
      exact absurd hc (hseg.not_isForbidden c hmem)
  · rintro before c after hsource hc - hlength ⟨count, ts, hbefore⟩
    obtain ⟨-, -, hseg⟩ := segmentation_of_tokenize hbefore
    have hscan := (scan_eq_ok_iff names _ 0 ts).2 hseg
    rw [List.drop_zero, String.toList_ofList] at hscan
    rw [tokenize_eq, if_neg (Nat.not_lt_of_le hlength), hsource, scan_isForbidden hc after hscan,
      Nat.zero_add]
  · intro e p he h
    have hp : e.position = some p := by
      rcases he with ⟨c, rfl⟩ | ⟨text, rfl⟩ <;> rfl
    obtain rfl | ⟨count, rfl⟩ | ⟨hlength, hscan⟩ := tokenize_eq_error h
    · cases hp
    · cases hp
    · obtain ⟨ts, hts⟩ := scan_take_of_error hscan hp
      refine ⟨ts, fun count hcount => tokenize_of_scan ?_ ?_ hcount⟩
      · rw [String.toList_ofList]
        exact hts
      · have htake := List.length_take_le' p source.toList
        rw [String.length_toList] at htake
        rw [String.length_ofList]
        exact Nat.le_trans htake hlength

/-- A sign that belongs to no formula, right behind a number: it is reported although the groups
behind it are never closed, and the text before it has tokens. -/
theorem tokenize_fails_closed_euro :
    IsForbidden ["price"] '€' ∧
      tokenize "price * 1.5€ + ((" ["price"] {} = .error (.unexpectedChar '€' 11) ∧
      ∃ ts, ∀ count, ts.length ≤ count →
        tokenize "price * 1.5" ["price"] { maxTokenCount := count } = .ok ts := by
  have hforbidden : IsForbidden ["price"] '€' :=
    ⟨by decide, by decide, by decide, by decide⟩
  have htokens : tokenize "price * 1.5" ["price"] {} = .ok [⟨.identifier, "price", 0⟩,
      ⟨.operator .mul, "*", 6⟩, ⟨.number, "1.5", 8⟩] := by decide +kernel
  have hread : ∃ count ts, tokenize (String.ofList "price * 1.5".toList) ["price"]
      { maxTokenCount := count } = .ok ts := by
    rw [String.ofList_toList]
    exact ⟨256, _, htokens⟩
  have hbefore : ∀ x ∈ "price * 1.5".toList, ¬ IsForbidden ["price"] x :=
    (segmentation_of_tokenize htokens).2.2.not_isForbidden
  obtain ⟨-, hfirst, hbehind⟩ := tokenize_fails_closed "price * 1.5€ + ((" ["price"] {}
  have herror : tokenize "price * 1.5€ + ((" ["price"] {} = .error (.unexpectedChar '€' 11) :=
    hfirst "price * 1.5".toList '€' " + ((".toList (by decide) hforbidden hbefore (by decide) hread
  obtain ⟨ts, hts⟩ := hbehind _ 11 (.inl ⟨'€', rfl⟩) herror
  have htake : String.ofList ("price * 1.5€ + ((".toList.take 11) = "price * 1.5" := by decide
  exact ⟨hforbidden, herror, ts, fun count hcount => htake ▸ hts count hcount⟩

end Formulary
