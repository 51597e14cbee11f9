import Formulary.Diagnostic
import Formulary.Formula
import Formulary.Proofs.Decimal.Reading
import Formulary.Proofs.Expr.Blame
import Formulary.Proofs.Expr.RoundTrip
import Formulary.Proofs.Token.Offense

/-!
# Errors point at what they name

The position of an error is a place in the formula, and what the error names stands there:
a character, a number, a name, a parenthesis, a token, or the end of what is not white
space. A diagnostic that shows the formula is the one that does not with two lines put in,
the formula and a caret in the column of that place.

* `ParseError.PointsAt`: what stands where an error says.
* `Segmentation.blank_behind`: between a token and the next is white space only.
* `ParseError.Located`: an error that points at what it names, inside the formula, and is
  worded on one line; `located_of_compile`: every error of a formula is.
* `compile_error_pointsAt`: **an error points at what it names, and the caret is drawn
  under it.**
-/

namespace Formulary

open Lexer Formulary.Parser

variable {source : String} {names : List String} {limits : Limits} {cs : List Char} {start : Nat}
  {ts before after : List Token} {t u : Token} {e : ParseError}

/-- Whether `p` is right behind the last character of the text that is not white space. -/
def IsEnd (cs : List Char) (p : Nat) : Prop :=
  ∃ before c after, cs = before ++ c :: after ∧ Text.isWhiteSpace c = false ∧
    (∀ x ∈ after, Text.isWhiteSpace x) ∧ p = before.length + 1

/-- **What an error points at** in a formula over declared names: the character or the
text that it names, a parenthesis, a token, or the end. An error of another cause points
nowhere. -/
def ParseError.PointsAt (source : String) (names : List String) (limits : Limits) :
    ParseError → Prop
  | .lex (.unexpectedChar ch p) => source.toList[p]? = some ch
  | .lex (.malformedNumber text p) => text ≠ "" ∧ text.toList <+: source.toList.drop p
  | .unknownVariable name p =>
    name ∉ names ∧ name ≠ "" ∧ name.toList <+: source.toList.drop p
  | .emptyGroup p =>
    source.toList[p]? = some '(' ∧
      (source.toList.drop (p + 1)).find? (!Text.isWhiteSpace ·) = some ')'
  | .unbalancedParens p => source.toList[p]? = some '(' ∨ source.toList[p]? = some ')'
  | .unexpectedToken found p =>
    (∃ ts, tokenize source names limits = .ok ts ∧
      ∃ t ∈ ts, t.position = p ∧ t.describe = found) ∨
    (found = "end of formula" ∧ IsEnd source.toList p)
  | e => e.position = none

namespace Segmentation

/-- A token's text stands at its position. -/
theorem text_prefix (h : Segmentation names cs start ts) (ht : t ∈ ts) :
    t.text.toList <+: cs.drop t.position := by
  rw [h.slice t ht]
  exact List.take_prefix _ _

theorem text_ne_empty (h : Segmentation names cs start ts) (ht : t ∈ ts) : t.text ≠ "" := by
  have hpos := h.text_length_pos ht
  rintro heq
  rw [heq] at hpos
  cases hpos

theorem ending_le (h : Segmentation names cs start ts) (ht : t ∈ ts) :
    t.ending ≤ cs.length := by
  have hlen := (h.text_prefix ht).length_le
  have hpos := h.text_length_pos ht
  rw [String.length_toList, List.length_drop] at hlen
  rw [Token.ending]
  omega

/-- **Behind a token stands white space**, up to the next one. -/
theorem blank_behind (h : Segmentation names cs start (before ++ t :: after)) {i : Nat} {c : Char}
    (hi : t.ending ≤ i) (hafter : ∀ u ∈ after, i < u.position) (hc : cs[i]? = some c) :
    Text.isWhiteSpace c := by
  have hstart := h.start_le t (by simp)
  have hle : t.position ≤ t.ending := Nat.le_add_right _ _
  obtain ⟨-, -, hbefore⟩ := List.pairwise_append.1 h.ordered
  refine h.blank i c (by omega) hc fun u hu => ?_
  rcases List.mem_append.1 hu with hu | hu
  · have hut := (hbefore u hu t List.mem_cons_self).2
    omega
  · rcases List.mem_cons.1 hu with rfl | hu
    · omega
    · have hiu := hafter u hu
      omega

/-- A symbol stands at its position. -/
theorem getElem?_of_text (h : Segmentation names cs start ts) (ht : t ∈ ts) {c : Char}
    (htext : t.text.toList = [c]) : cs[t.position]? = some c := by
  obtain ⟨rest, hrest⟩ := h.text_prefix ht
  rw [htext] at hrest
  rw [← List.head?_drop, ← hrest]
  rfl

theorem openParen (h : Segmentation names cs start ts) (ht : t ∈ ts) (hk : t.kind = .openParen) :
    cs[t.position]? = some '(' ∧ t.ending = t.position + 1 := by
  have htext : t.text.toList = ['('] := by
    have hlex := h.lexeme t ht
    rw [hk] at hlex
    exact hlex
  refine ⟨h.getElem?_of_text ht htext, ?_⟩
  rw [Token.ending, ← String.length_toList, htext]
  rfl

theorem closeParen (h : Segmentation names cs start ts) (ht : t ∈ ts) (hk : t.kind = .closeParen) :
    cs[t.position]? = some ')' := by
  have hlex := h.lexeme t ht
  rw [hk] at hlex
  exact h.getElem?_of_text ht hlex

/-- What comes next behind an opening parenthesis, if the next token is a closing one. -/
theorem find?_closeParen (h : Segmentation names cs start (before ++ t :: u :: after))
    (ht : t.kind = .openParen) (hu : u.kind = .closeParen) :
    (cs.drop (t.position + 1)).find? (!Text.isWhiteSpace ·) = some ')' := by
  have hclose := h.closeParen (t := u) (by simp) hu
  obtain ⟨-, hending⟩ := h.openParen (t := t) (by simp) ht
  obtain ⟨-, hordered, -⟩ := List.pairwise_append.1 h.ordered
  obtain ⟨hfirst, hrest⟩ := List.pairwise_cons.1 hordered
  have hle := (hfirst u List.mem_cons_self).2
  rw [hending] at hle
  have hgap : t.position + 1 + (u.position - (t.position + 1)) = u.position := by omega
  rw [List.find?_eq_some_iff_append]
  refine ⟨by decide, (cs.drop (t.position + 1)).take (u.position - (t.position + 1)),
    cs.drop (u.position + 1), ?_, fun x hx => ?_⟩
  · obtain ⟨hlt, hget⟩ := List.getElem?_eq_some_iff.1 hclose
    rw [← hget, ← List.drop_eq_getElem_cons hlt]
    conv => rhs; rhs; rw [← hgap, ← List.drop_drop]
    exact (List.take_append_drop _ _).symm
  · obtain ⟨k, hk⟩ := List.mem_iff_getElem?.1 hx
    have hlt : k < u.position - (t.position + 1) := by
      have hk' := (List.getElem?_eq_some_iff.1 hk).1
      rw [List.length_take] at hk'
      omega
    rw [List.getElem?_take_of_lt hlt, List.getElem?_drop] at hk
    have hblank := h.blank_behind (by omega) (fun v hv => ?_) hk
    · simpa using hblank
    · rcases List.mem_cons.1 hv with rfl | hv
      · omega
      · have huv := ((List.pairwise_cons.1 hrest).1 v hv).1
        omega

/-- The last token ends where only white space is left. -/
theorem isEnd (h : Segmentation names cs start ts) (hlast : ts.getLast? = some t) :
    IsEnd cs t.ending := by
  obtain ⟨front, rfl⟩ := List.getLast?_eq_some_iff.1 hlast
  have hmem : t ∈ front ++ [t] := by simp
  have hpos := h.text_length_pos hmem
  have hle := h.ending_le hmem
  have hslice := h.slice t hmem
  rw [Token.ending] at hle
  -- the last character of the token, which is no white space
  have hlt : t.ending - 1 < cs.length := by
    rw [Token.ending]
    omega
  have hget : t.text.toList[t.text.length - 1]? = some cs[t.ending - 1] := by
    rw [hslice, List.getElem?_take_of_lt (by omega), List.getElem?_drop,
      ← List.getElem?_eq_getElem hlt, Token.ending]
    congr 1
    omega
  refine ⟨cs.take (t.ending - 1), cs[t.ending - 1], cs.drop t.ending, ?_, ?_, ?_, ?_⟩
  · have hnext : t.ending - 1 + 1 = t.ending := by
      rw [Token.ending]
      omega
    have hdrop := List.drop_eq_getElem_cons hlt
    rw [hnext] at hdrop
    rw [← hdrop, List.take_append_drop]
  · exact (h.lexeme t hmem).not_isWhiteSpace _ (List.mem_of_getElem? hget)
  · intro x hx
    obtain ⟨k, hk⟩ := List.mem_iff_getElem?.1 hx
    rw [List.getElem?_drop] at hk
    exact h.blank_behind (Nat.le_add_right _ _) (by simp) hk
  · rw [List.length_take, Token.ending] at *
    omega

end Segmentation

/-- A text on one line. -/
def OneLine (s : String) : Prop := '\n' ∉ s.toList

namespace OneLine

theorem ofList {cs : List Char} (h : '\n' ∉ cs) : OneLine (String.ofList cs) := by
  rwa [OneLine, String.toList_ofList]

theorem append {a b : String} (h : OneLine a) (h' : OneLine b) : OneLine (a ++ b) := by
  unfold OneLine at *
  simp [h, h']

/-- A text without white space is on one line. -/
theorem of_not_isWhiteSpace {s : String} (h : ∀ x ∈ s.toList, Text.isWhiteSpace x = false) :
    OneLine s :=
  fun hmem => absurd (h _ hmem) (by decide)

theorem repr (n : Nat) : OneLine (Nat.repr n) := by
  intro h
  have hdigit := Text.isDigit_of_mem_toDigits '\n' (by simpa [Nat.repr] using h)
  exact absurd hdigit (by decide)

/-- The wording of an error that quotes a text and ends with a position. -/
theorem quoting {a b quoted : String} (ha : '\n' ∉ a.toList) (hq : OneLine quoted)
    (hb : '\n' ∉ b.toList) (p : Nat) : OneLine (a ++ quoted ++ b ++ Nat.repr p) :=
  ((append ha hq).append hb).append (repr p)

/-- A token is described on one line. -/
theorem describe (h : IsLexeme names t.kind t.text.toList) : OneLine t.describe := by
  have htext : OneLine t.text := of_not_isWhiteSpace h.not_isWhiteSpace
  have hquoted {s : String} (hs : OneLine s) : OneLine (s ++ t.text ++ "'") :=
    (hs.append htext).append (.ofList (by decide))
  unfold Token.describe
  cases t.kind with
  | number | identifier | operator | openParen | closeParen | question | colon =>
    exact hquoted (.ofList (by decide))

end OneLine

/-- **An error that is located**: it points at what it names, inside the formula, and is
worded on one line. -/
structure ParseError.Located (source : String) (names : List String) (limits : Limits)
    (e : ParseError) : Prop where
  pointsAt : e.PointsAt source names limits
  position_le : ∀ p, e.position = some p → p ≤ source.length
  oneLine : ∀ p, e.position = some p → OneLine e.message

/-- A text that stands at a place starts inside the formula. -/
theorem position_le_of_text {text : String} {p : Nat} (hne : text ≠ "")
    (h : text.toList <+: source.toList.drop p) : p ≤ source.length := by
  have hle := h.length_le
  have hpos : 0 < text.length := by
    rw [Nat.pos_iff_ne_zero]
    simpa using hne
  rw [List.length_drop, String.length_toList, String.length_toList] at hle
  omega

theorem position_le_of_getElem? {p : Nat} {c : Char} (h : source.toList[p]? = some c) :
    p ≤ source.length := by
  have hlt := (List.getElem?_eq_some_iff.1 h).1
  rw [String.length_toList] at hlt
  exact Nat.le_of_lt hlt

namespace ParseError.Located

variable {le : LexError}

/-- An error without a position points nowhere. -/
theorem of_position_eq_none (h : e.position = none) : Located source names limits e := by
  refine ⟨?_, by simp [h], by simp [h]⟩
  unfold PointsAt
  split
  all_goals first | exact h | cases h

/-- An error with a position is located if it is at that position. -/
theorem of_position_eq_some {p : Nat} (h : e.position = some p)
    (hpoints : e.PointsAt source names limits) (hle : p ≤ source.length)
    (hline : OneLine e.message) : Located source names limits e where
  pointsAt := hpoints
  position_le q hq := by
    obtain rfl : p = q := Option.some.inj (h.symm.trans hq)
    exact hle
  oneLine _ _ := hline

/-- An error of the lexer names a character, or digits and points. -/
theorem lex (h : tokenize source names limits = .error le) :
    Located source names limits (.lex le) := by
  have hpoints := tokenize_error h
  cases le with
  | tooLong | tooManyTokens => exact of_position_eq_none rfl
  | unexpectedChar ch p =>
    obtain ⟨hget, hw⟩ := hpoints
    have hch : OneLine (String.singleton ch) := .of_not_isWhiteSpace (by simpa using hw)
    exact of_position_eq_some rfl hget (position_le_of_getElem? hget)
      (.quoting (by decide) hch (by decide) p)
  | malformedNumber text p =>
    obtain ⟨hne, hprefix, hw⟩ := hpoints
    have htext : OneLine text := .of_not_isWhiteSpace hw
    exact of_position_eq_some rfl ⟨hne, hprefix⟩ (position_le_of_text hne hprefix)
      (.quoting (by decide) htext (by decide) p)

variable (hts : tokenize source names limits = .ok ts)
  (hseg : Segmentation names source.toList 0 ts)

include hseg

/-- An empty group is an opening parenthesis with a closing one behind it. -/
theorem emptyGroup (h : ts = before ++ t :: u :: after) (ht : t.kind = .openParen)
    (hu : u.kind = .closeParen) : Located source names limits (.emptyGroup t.position) := by
  subst h
  obtain ⟨hget, -⟩ := hseg.openParen (t := t) (by simp) ht
  exact of_position_eq_some rfl ⟨hget, hseg.find?_closeParen ht hu⟩
    (position_le_of_getElem? hget) (.append (.ofList (by decide)) (.repr t.position))

/-- A parenthesis without a partner is one. -/
theorem unbalancedParens (ht : t ∈ ts) (hk : t.kind = .openParen ∨ t.kind = .closeParen) :
    Located source names limits (.unbalancedParens t.position) := by
  have hget : source.toList[t.position]? = some '(' ∨ source.toList[t.position]? = some ')' :=
    hk.imp (fun hk => (hseg.openParen ht hk).1) (hseg.closeParen ht)
  have hle : t.position ≤ source.length := hget.elim position_le_of_getElem? position_le_of_getElem?
  exact of_position_eq_some rfl hget hle (.append (.ofList (by decide)) (.repr t.position))

/-- A name that is not declared is one of the tokens. -/
theorem unknownVariable (ht : t ∈ ts) (hn : t.text ∉ names) :
    Located source names limits (.unknownVariable t.text t.position) := by
  have hne := hseg.text_ne_empty ht
  have hprefix := hseg.text_prefix ht
  have htext : OneLine t.text := .of_not_isWhiteSpace (hseg.lexeme t ht).not_isWhiteSpace
  exact of_position_eq_some rfl ⟨hn, hne, hprefix⟩ (position_le_of_text hne hprefix)
    (.quoting (by decide) htext (by decide) t.position)

include hts

/-- A token that is out of place is one of them, and the end is behind the last of them. -/
theorem unexpected (hlast : ts.getLast? = some t) {rest : List Token} (h : rest <:+ ts)
    (depth : Nat) :
    Located source names limits (Scope.unexpected ⟨names, depth, t.ending⟩ rest) := by
  cases rest with
  | nil =>
    have hle := hseg.ending_le (List.mem_of_getLast? hlast)
    rw [String.length_toList] at hle
    exact of_position_eq_some rfl (.inr ⟨rfl, hseg.isEnd hlast⟩) hle
      (.quoting (by decide) (.ofList (by decide)) (by decide) t.ending)
  | cons u rest =>
    have hu : u ∈ ts := h.subset List.mem_cons_self
    have hle := position_le_of_text (hseg.text_ne_empty hu) (hseg.text_prefix hu)
    have hfound : OneLine u.describe := .describe (hseg.lexeme u hu)
    exact of_position_eq_some rfl (.inl ⟨ts, hts, u, hu, rfl, rfl⟩) hle
      (.quoting (by decide) hfound (by decide) u.position)

end ParseError.Located

/-- **Every error of a formula is located.** -/
theorem located_of_compile (h : Formula.compile source names limits = .error e) :
    e.Located source names limits := by
  rw [Formula.compile_eq] at h
  cases htokens : tokenize source names limits with
  | error le =>
    rw [htokens] at h
    cases h
    exact .lex htokens
  | ok ts =>
    have hseg := (segmentation_of_tokenize htokens).2.2
    have hparse : parse ts names limits = .error e := by
      rw [htokens] at h
      cases hparse : parse ts names limits with
      | ok root => simp [hparse, Except.map] at h
      | error e' => simpa [hparse, Except.map] using h
    obtain hnone | ⟨before, t, u, after, hts, ht, hu, rfl⟩ | ⟨t, ht, hk, rfl⟩ |
      ⟨last, hlast, hblames⟩ := parse_error hparse
    · exact .of_position_eq_none hnone
    · exact .emptyGroup hseg hts ht hu
    · exact .unbalancedParens hseg ht hk
    · cases hblames with
      | tooDeep => exact .of_position_eq_none rfl
      | unexpected hrest => exact .unexpected htokens hseg hlast hrest _
      | unknown hrest _ hn => exact .unknownVariable hseg (hrest.subset List.mem_cons_self) hn

/-- The lines of a text. -/
def Text.lines (s : String) : List String := (s.toList.splitOn '\n').map String.ofList

/-- Lines that are put together are the lines of the text. -/
theorem Text.lines_intercalate {ls : List String} (hne : ls ≠ []) (h : ∀ l ∈ ls, OneLine l) :
    Text.lines ("\n".intercalate ls) = ls := by
  have hlines : ∀ cs ∈ ls.map String.toList, '\n' ∉ cs := by
    rintro _ hcs
    obtain ⟨l, hl, rfl⟩ := List.mem_map.1 hcs
    exact h l hl
  have hsplit := List.splitOn_intercalate '\n' hlines (by simpa using hne)
  rw [Text.lines, String.toList_intercalate, show "\n".toList = ['\n'] from rfl, hsplit,
    List.map_map]
  simp [Function.comp_def]

theorem ErrorKind.oneLine_help (k : ErrorKind) : ∀ help ∈ k.help, OneLine help := by
  cases k with
  | unexpectedChar | tooDeep =>
    rintro _ ⟨rfl⟩
    exact .append (.ofList (by decide)) (.ofList (by decide))
  | tooLong | tooManyTokens | emptyGroup | unknownVariable | unexpectedToken | budgetExceeded =>
    rintro _ ⟨rfl⟩
    exact .ofList (by decide)
  | _ => exact fun _ h => nomatch h

namespace FormulaError

/-- The lines of advice, one or none. -/
def advice (e : FormulaError) : List String := (e.kind.help.map ("  = help: " ++ ·)).toList

theorem oneLine_advice (e : FormulaError) : ∀ l ∈ e.advice, OneLine l := by
  intro l hl
  obtain ⟨help, hk, rfl⟩ := Option.map_eq_some_iff.1 (Option.mem_toList.1 hl)
  exact .append (.ofList (by decide)) (e.kind.oneLine_help help hk)

theorem oneLine_headline (e : FormulaError) (h : OneLine e.message) : OneLine e.headline := by
  have hcode : OneLine e.kind.code := by
    cases e.kind <;> exact .ofList (by decide)
  exact ((OneLine.append (.ofList (by decide)) hcode).append (.ofList (by decide))).append h

/-- Advice is on lines of its own. -/
theorem append_helpLine (e : FormulaError) (line : String) :
    line ++ e.helpLine = "\n".intercalate (line :: e.advice) := by
  rw [helpLine, advice]
  cases e.kind.help with
  | none => simp
  | some help =>
    show line ++ ("\n" ++ "  = help: " ++ help) = _
    simp only [Option.map_some, Option.toList_some, String.intercalate_cons_cons,
      String.intercalate_singleton, String.append_assoc]

/-- A diagnostic with the formula in it has two lines more, behind the first one. -/
theorem render_eq (e : FormulaError) (source : String) {p : Nat} (h : e.position = some p) :
    e.render source = "\n".intercalate (e.headline :: ("  | " ++ sourceLine source) ::
      ("  | " ++ String.ofList (List.replicate p ' ' ++ ['^'])) :: e.advice) := by
  have hrender : e.render source = e.headline ++ caretLines source p ++ e.helpLine := by
    rw [render, h]
  rw [hrender, String.intercalate_cons_cons, String.intercalate_cons_cons, ← append_helpLine,
    caretLines, show "\n  | " = "\n" ++ "  | " from rfl]
  simp only [String.append_assoc]

theorem oneLine_sourceLine (source : String) : OneLine (sourceLine source) := by
  unfold OneLine sourceLine
  rw [String.toList_map, List.mem_map]
  rintro ⟨c, -, hc⟩
  split at hc
  · cases hc
  · rename_i hw
    subst hc
    exact hw (by decide)

end FormulaError

/-- **An error points at what it names, and the caret is drawn under it.** Where a formula
does not compile, what the error names stands at its position; and if it has one, that is
inside the formula or at its end, and the diagnostic is the description with two lines put
in behind its first one: the formula with a blank for each white space, and a caret below
the character at the position. -/
theorem compile_error_pointsAt {source : String} {names : List String} {limits : Limits}
    {e : ParseError} (h : Formula.compile source names limits = .error e) :
    e.PointsAt source names limits ∧
      ∀ p, e.position = some p → p ≤ source.length ∧
        ∃ first rest, Text.lines (FormulaError.parse e).describe = first :: rest ∧
          Text.lines ((FormulaError.parse e).render source) =
            first ::
            ("  | " ++ String.ofList
              (source.toList.map fun c => if Text.isWhiteSpace c then ' ' else c)) ::
            ("  | " ++ String.ofList (List.replicate p ' ' ++ ['^'])) :: rest := by
  obtain ⟨hpoints, hle, hline⟩ := located_of_compile h
  refine ⟨hpoints, fun p hp => ⟨hle p hp, (FormulaError.parse e).headline,
    (FormulaError.parse e).advice, ?_, ?_⟩⟩
  · rw [FormulaError.describe, FormulaError.append_helpLine]
    refine Text.lines_intercalate (by simp) (List.forall_mem_cons.2 ⟨?_, ?_⟩)
    · exact FormulaError.oneLine_headline _ (hline p hp)
    · exact FormulaError.oneLine_advice _
  · have hsource : String.ofList
        (source.toList.map fun c => if Text.isWhiteSpace c then ' ' else c) =
        FormulaError.sourceLine source := by
      rw [← String.toList_inj]
      simp [FormulaError.sourceLine]
    have hcaret : OneLine (String.ofList (List.replicate p ' ' ++ ['^'])) := by
      simp [OneLine, List.mem_replicate]
    rw [(FormulaError.parse e).render_eq source hp, hsource]
    refine Text.lines_intercalate (by simp) ?_
    simp only [List.forall_mem_cons]
    refine ⟨?_, ?_, ?_, ?_⟩
    · exact FormulaError.oneLine_headline _ (hline p hp)
    · exact .append (.ofList (by decide)) (FormulaError.oneLine_sourceLine source)
    · exact .append (.ofList (by decide)) hcaret
    · exact FormulaError.oneLine_advice _

/-- A character that starts no token, behind a tab and among blanks: the caret is drawn
under it. -/
theorem compile_error_pointsAt_semicolon :
    let source := "price *\t(1 + ;)"
    let e : ParseError := .lex (.unexpectedChar ';' 13)
    Formula.compile source ["price"] {} = .error e ∧ source.toList[13]? = some ';' ∧
      ∃ first rest, Text.lines (FormulaError.parse e).describe = first :: rest ∧
        Text.lines ((FormulaError.parse e).render source) =
          first :: "  | price * (1 + ;)" :: "  |              ^" :: rest := by
  intro source e
  have he : Formula.compile source ["price"] {} = .error e := by decide +kernel
  obtain ⟨hpoints, hplace⟩ := compile_error_pointsAt he
  obtain ⟨-, first, rest, hdescribe, hrender⟩ := hplace 13 rfl
  have hline : "  | " ++ String.ofList
      (source.toList.map fun c => if Text.isWhiteSpace c then ' ' else c) =
      "  | price * (1 + ;)" := by decide +kernel
  have hcaret : "  | " ++ String.ofList (List.replicate 13 ' ' ++ ['^']) =
      "  |              ^" := by decide +kernel
  rw [hline, hcaret] at hrender
  exact ⟨he, hpoints, first, rest, hdescribe, hrender⟩

end Formulary
