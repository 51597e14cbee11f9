import Formulary.Proofs.Token.Segmentation

/-!
# Where the lexer stops

A text that cannot be cut is refused at one place: at a character that starts no token, at
one inside a name that occurs in no declared name, or at a run of digits and points that
denotes nothing.

* `IsLexeme.not_isWhiteSpace`: no character of a token is white space.
* `firstForbidden?_eq_some_iff`: the character of a name that is refused.
* `LexError.PointsAt`: what stands where an error says.
* `lexeme_eq_error`: the three ways in which a token cannot be read.
* `scan_induction` (every text): the steps of the lexer, as a principle of induction.
* `scan_eq_error`: the lexer stops at the start of a token that it cannot read.
* `tokenize_error`: **an error of the lexer points at the character or the text it names.**
-/

namespace Formulary

open Lexer

variable {names : List String} {position : Nat} {c : Char} {cs : List Char} {e : LexError}

/-- What a name goes on with is a letter, a digit or an underscore, and no white space. -/
theorem not_isWhiteSpace_of_isNamePart (h : isNamePart c) : Text.isWhiteSpace c = false := by
  have hcases : isNameStart c ∨ c.isDigit := by
    simp only [isNamePart, Char.isAlphanum, Bool.or_eq_true] at h
    simp only [isNameStart, Bool.or_eq_true]
    exact or_right_comm.1 h
  rcases hcases with h | h
  · have hb := toNat_of_isNameStart h
    exact not_isWhiteSpace (by omega) (by omega)
  · have hb := toNat_of_isDigit h
    exact not_isWhiteSpace (by omega) (by omega)

theorem not_isWhiteSpace_of_numeral (h : c.isDigit ∨ c = '.') : Text.isWhiteSpace c = false := by
  rcases h with h | rfl
  · have hb := toNat_of_isDigit h
    exact not_isWhiteSpace (by omega) (by omega)
  · decide

/-- The test on a list, which is decided by its characters and not by all there are. -/
theorem not_isWhiteSpace_of_all (h : cs.all (!Text.isWhiteSpace ·)) :
    ∀ x ∈ cs, Text.isWhiteSpace x = false := by
  simpa using h

/-- **No character of a lexeme is white space.** -/
theorem IsLexeme.not_isWhiteSpace {kind : Token.Kind} (h : IsLexeme names kind cs) :
    ∀ x ∈ cs, Text.isWhiteSpace x = false := by
  cases kind with
  | number => exact fun x hx => not_isWhiteSpace_of_numeral (h.1.mem x hx)
  | identifier =>
    cases cs with
    | nil => simp
    | cons c cs =>
      obtain ⟨hc, hcs⟩ := isIdentifier_ofList_cons.1 h.1
      refine List.forall_mem_cons.2 ⟨?_, fun x hx => not_isWhiteSpace_of_isNamePart (hcs x hx)⟩
      have hb := toNat_of_isNameStart hc
      exact Formulary.not_isWhiteSpace (by omega) (by omega)
  | operator op =>
    obtain rfl : cs = op.symbol.toList := h
    exact not_isWhiteSpace_of_all (by cases op <;> decide)
  | openParen | closeParen | question | colon =>
    unfold IsLexeme at h
    subst h
    exact not_isWhiteSpace_of_all (by decide)

namespace Lexer

/-- A character of a name is refused where it is the first that neither is a digit nor
occurs in a declared name. -/
theorem firstForbidden?_eq_some_iff {allowed : Char → Bool} {p : Nat} :
    firstForbidden? allowed position cs = some (c, p) ↔
      ∃ before after, cs = before ++ c :: after ∧ p = position + before.length ∧
        (∀ x ∈ before, x.isDigit ∨ allowed x) ∧ ¬ (c.isDigit ∨ allowed c) := by
  induction cs generalizing position with
  | nil => simp [firstForbidden?]
  | cons d ds ih =>
    unfold firstForbidden?
    by_cases hd : d.isDigit || allowed d
    · rw [if_pos hd, ih]
      rw [Bool.or_eq_true] at hd
      constructor
      · rintro ⟨before, after, rfl, rfl, hbefore, hc⟩
        exact ⟨d :: before, after, rfl, by simp only [List.length_cons]; omega,
          List.forall_mem_cons.2 ⟨hd, hbefore⟩, hc⟩
      · rintro ⟨before, after, hcs, rfl, hbefore, hc⟩
        cases before with
        | nil =>
          obtain ⟨rfl, -⟩ := List.cons.inj hcs
          exact absurd hd hc
        | cons x before =>
          obtain ⟨rfl, rfl⟩ := List.cons.inj hcs
          exact ⟨before, after, rfl, by simp only [List.length_cons]; omega,
            fun x hx => hbefore x (List.mem_cons_of_mem _ hx), hc⟩
    · rw [if_neg hd]
      rw [Bool.or_eq_true] at hd
      constructor
      · intro h
        obtain ⟨rfl, rfl⟩ := Prod.mk.inj (Option.some.inj h)
        exact ⟨[], ds, rfl, rfl, by simp, hd⟩
      · rintro ⟨before, after, hcs, rfl, hbefore, hc⟩
        cases before with
        | nil =>
          obtain ⟨rfl, rfl⟩ := List.cons.inj hcs
          rfl
        | cons x before =>
          obtain ⟨rfl, rfl⟩ := List.cons.inj hcs
          exact absurd (hbefore _ List.mem_cons_self) hd

/-- A number is made of digits and points. -/
theorem mem_numberRest {x : Char} (h : x ∈ numberRest c cs) : x.isDigit ∨ x = '.' := by
  by_cases hc : c = '.'
  · subst hc
    exact .inl ((run_spec Char.isDigit cs).1 x h)
  · obtain ⟨-, -, hrest, -⟩ := numberRest_split hc cs
    rcases hrest with hds | ⟨ds, fs, hmore, hds, hfs⟩
    · exact .inl (hds x h)
    · rw [hmore, List.mem_append, List.mem_cons] at h
      rcases h with h | rfl | h
      · exact .inl (hds x h)
      · exact .inr rfl
      · exact .inl (hfs x h)

end Lexer

/-- **What stands where a lexer error says**, in the text `cs`: the character that it names,
or the text, of which none is white space. -/
def LexError.PointsAt (cs : List Char) : LexError → Prop
  | .unexpectedChar ch p => cs[p]? = some ch ∧ Text.isWhiteSpace ch = false
  | .malformedNumber text p =>
    text ≠ "" ∧ text.toList <+: cs.drop p ∧ ∀ x ∈ text.toList, Text.isWhiteSpace x = false
  | .tooLong .. | .tooManyTokens .. => True

namespace Lexer

/-- What the lexer refuses where a token should start: its first character, the whole run of
a number, or behind a name the first character that no declared name accounts for. -/
theorem lexeme_eq_error {more : List Char}
    (h : lexeme (occursIn names) position c more = .error e) :
    e = .unexpectedChar c position ∨
      e = .malformedNumber (String.ofList (c :: numberRest c more)) position ∨
      ∃ before d after, more = before ++ d :: after ∧
        e = .unexpectedChar d (position + 1 + before.length) ∧ isNamePart d ∧
        IsLexeme names .identifier (c :: before) := by
  by_cases hs : c ∈ symbols
  · obtain ⟨k, hk, -⟩ | ⟨second, long, short, hk, -⟩ | ⟨second, op, hk, -⟩ :=
      lexeme_symbol names hs position more
    · cases hk.symm.trans h
    · cases hk.symm.trans h
    · rw [hk, paired] at h
      split at h
      · cases h
      · exact .inl (Except.error.inj h).symm
  · rw [lexeme_of_not_symbol hs] at h
    split at h
    · unfold number at h
      dsimp only at h
      split at h
      · exact .inr (.inl (Except.error.inj h).symm)
      · cases h
    · split at h
      · rename_i hname
        unfold name at h
        dsimp only at h
        split at h
        · rename_i d p hforbidden
          obtain ⟨before, after, hrest, rfl, hbefore, -⟩ := firstForbidden?_eq_some_iff.1 hforbidden
          have hrun := (run_spec isNamePart more).1
          rw [hrest] at hrun
          -- the run of the name stands in front of what is behind it
          have hmore : more = before ++ d :: (after ++ more.dropWhile isNamePart) := by
            conv => lhs; rw [← List.takeWhile_append_dropWhile (p := isNamePart) (l := more), hrest]
            simp
          have hlex : IsLexeme names .identifier (c :: before) := by
            rw [Bool.and_eq_true] at hname
            refine ⟨isIdentifier_ofList_cons.2 ⟨hname.1, fun x hx => hrun x (by simp [hx])⟩, ?_⟩
            simp only [← occursIn_iff]
            exact List.forall_mem_cons.2 ⟨.inr hname.2, hbefore⟩
          exact .inr (.inr ⟨before, d, _, hmore, (Except.error.inj h).symm, hrun d (by simp), hlex⟩)
        · cases h
      · exact .inl (Except.error.inj h).symm

/-- A token that cannot be read is refused at one of its own characters, or as a whole. -/
theorem lexeme_error {start : Nat} {more : List Char} (hdrop : cs.drop start = c :: more)
    (hw : Text.isWhiteSpace c = false)
    (h : lexeme (occursIn names) start c more = .error e) : e.PointsAt cs := by
  have hget (k : Nat) : cs[start + k]? = (c :: more)[k]? := by rw [← hdrop, List.getElem?_drop]
  obtain rfl | rfl | ⟨before, d, after, rfl, rfl, hd, -⟩ := lexeme_eq_error h
  · exact ⟨hget 0, hw⟩
  · obtain ⟨rest, hrest⟩ := numberRest_prefix c more
    refine ⟨by simp, ?_, ?_⟩
    · rw [hdrop, String.toList_ofList]
      exact ⟨rest, by rw [List.cons_append, ← hrest]⟩
    · rw [String.toList_ofList]
      refine List.forall_mem_cons.2 ⟨hw, fun x hx => ?_⟩
      exact not_isWhiteSpace_of_numeral (mem_numberRest hx)
  · refine ⟨?_, not_isWhiteSpace_of_isNamePart hd⟩
    rw [show start + 1 + before.length = start + (before.length + 1) by omega, hget]
    simp

theorem scan_blank {allowed : Char → Bool} (hw : Text.isWhiteSpace c) (start : Nat) :
    scan allowed start (c :: cs) = scan allowed (start + 1) cs := by
  rw [scan, if_pos hw]

theorem scan_token {kind : Token.Kind} {more rest : List Char} (hw : Text.isWhiteSpace c = false)
    (hlex : IsLexeme names kind (c :: more))
    (hlongest : ∀ y ∈ rest.head?, ¬ Extends kind (c :: more) y) (start : Nat) :
    scan (occursIn names) start (c :: (more ++ rest)) =
      (scan (occursIn names) (start + 1 + more.length) rest).map
        (⟨kind, String.ofList (c :: more), start⟩ :: ·) := by
  rw [scan, if_neg (by simp [hw])]
  simp only [lexeme_eq_ok_iff.2 ⟨hlex, hlongest⟩, bind, Except.bind, List.drop_left]
  cases scan (occursIn names) (start + 1 + more.length) rest <;> rfl

/-- Where a text of tokens starts with a lexeme, that is the first token. -/
theorem scan_token_eq_ok {kind : Token.Kind} {more rest : List Char} {start : Nat}
    {ts : List Token} (hw : Text.isWhiteSpace c = false) (hlex : IsLexeme names kind (c :: more))
    (hlongest : ∀ y ∈ rest.head?, ¬ Extends kind (c :: more) y)
    (h : scan (occursIn names) start (c :: (more ++ rest)) = .ok ts) :
    ∃ us, scan (occursIn names) (start + 1 + more.length) rest = .ok us ∧
      ts = ⟨kind, String.ofList (c :: more), start⟩ :: us := by
  rw [scan_token hw hlex hlongest] at h
  cases hrest : scan (occursIn names) (start + 1 + more.length) rest with
  | error e => simp [hrest, Except.map] at h
  | ok us =>
    rw [hrest] at h
    exact ⟨us, rfl, (Except.ok.inj h).symm⟩

/-- The end of a text behind its first lexeme. -/
theorem start_add_length (start : Nat) (c : Char) (more rest : List Char) :
    start + (c :: (more ++ rest)).length = start + 1 + more.length + rest.length := by
  simp only [List.length_cons, List.length_append]
  omega

theorem scan_stuck {allowed : Char → Bool} {start : Nat} (hw : Text.isWhiteSpace c = false)
    (h : lexeme allowed start c cs = .error e) : scan allowed start (c :: cs) = .error e := by
  rw [scan, if_neg (by simp [hw])]
  simp only [h, bind, Except.bind]

/-- **Induction on what is left of a text**, in the steps of the lexer: white space, a longest
lexeme, or a token that cannot be read. -/
theorem scan_induction (names : List String) {motive : Nat → List Char → Prop}
    (nil : ∀ start, motive start [])
    (blank : ∀ start c cs, Text.isWhiteSpace c → motive (start + 1) cs → motive start (c :: cs))
    (token : ∀ start kind c more rest, Text.isWhiteSpace c = false →
      IsLexeme names kind (c :: more) → (∀ y ∈ rest.head?, ¬ Extends kind (c :: more) y) →
      motive (start + 1 + more.length) rest → motive start (c :: (more ++ rest)))
    (stuck : ∀ start c cs e, Text.isWhiteSpace c = false →
      lexeme (occursIn names) start c cs = .error e → motive start (c :: cs))
    (start : Nat) (cs : List Char) : motive start cs := by
  induction hn : cs.length using Nat.strongRecOn generalizing start cs with
  | _ n ih =>
    subst hn
    cases cs with
    | nil => exact nil start
    | cons c tail =>
      cases hw : Text.isWhiteSpace c with
      | true => exact blank start c tail hw (ih _ (Nat.lt_succ_self _) _ tail rfl)
      | false =>
        cases hl : lexeme (occursIn names) start c tail with
        | error e => exact stuck start c tail e hw hl
        | ok r =>
          obtain ⟨kind, more⟩ := r
          obtain ⟨rest, rfl⟩ := lexeme_prefix hl
          obtain ⟨hlex, hlongest⟩ := lexeme_eq_ok_iff.1 hl
          have hshorter : rest.length < (c :: (more ++ rest)).length := by
            simp only [List.length_cons, List.length_append]
            omega
          exact token start kind c more rest hw hlex hlongest (ih _ hshorter _ rest rfl)

/-- **The lexer stops at the start of a token that it cannot read.** The text before it has
tokens, and what stands there extends none of them. -/
theorem scan_eq_error {start : Nat} (h : scan (occursIn names) start cs = .error e) :
    ∃ before c more ts, cs = before ++ c :: more ∧ Text.isWhiteSpace c = false ∧
      lexeme (occursIn names) (start + before.length) c more = .error e ∧
      scan (occursIn names) start before = .ok ts ∧
      ∀ t ∈ ts, t.ending = start + before.length → ¬ Extends t.kind t.text.toList c := by
  induction start, cs using scan_induction names with
  | nil start => simp [scan] at h
  | blank start d cs hw ih =>
    rw [scan_blank hw] at h
    obtain ⟨before, c, more, ts, rfl, hc, hl, hts, hseam⟩ := ih h
    have hlength : start + (d :: before).length = start + 1 + before.length := by
      simp only [List.length_cons]
      omega
    refine ⟨d :: before, c, more, ts, rfl, hc, ?_, ?_, ?_⟩
    · rw [hlength]
      exact hl
    · rw [scan_blank hw]
      exact hts
    · rw [hlength]
      exact hseam
  | token start kind d taken rest hw hlex hlongest ih =>
    rw [scan_token hw hlex hlongest] at h
    have hrest : scan (occursIn names) (start + 1 + taken.length) rest = .error e := by
      cases hs : scan (occursIn names) (start + 1 + taken.length) rest with
      | ok ts => simp [hs, Except.map] at h
      | error e' => simpa [hs, Except.map] using h
    obtain ⟨before, c, more, ts, rfl, hc, hl, hts, hseam⟩ := ih hrest
    have hlength := start_add_length start d taken before
    have hbefore : ∀ y ∈ before.head?, ¬ Extends kind (d :: taken) y := by
      intro y hy
      exact hlongest y (by rw [List.head?_append, hy]; rfl)
    refine ⟨d :: (taken ++ before), c, more, ⟨kind, String.ofList (d :: taken), start⟩ :: ts,
      by simp, hc, ?_, ?_, ?_⟩
    · rw [hlength]
      exact hl
    · rw [scan_token hw hlex hbefore, hts]
      rfl
    · rw [hlength]
      refine List.forall_mem_cons.2 ⟨fun hending => ?_, hseam⟩
      -- the first token ends where the lexer stops only if nothing stands between
      have hnil : before = [] := by
        rw [← List.length_eq_zero_iff]
        simp only [Token.ending, String.length_ofList, List.length_cons] at hending
        omega
      subst hnil
      simpa using hlongest c rfl
  | stuck start c cs e' hw hl =>
    rw [scan_stuck hw hl] at h
    obtain rfl := Except.error.inj h
    exact ⟨[], c, cs, [], rfl, hw, hl, by simp [scan], by simp⟩

end Lexer

/-- A formula has no tokens because it is too long, because it has too many, or because the
lexer stops. -/
theorem tokenize_eq_error {source : String} {limits : Limits}
    (h : tokenize source names limits = .error e) :
    e = .tooLong source.length limits.maxFormulaLength ∨
      (∃ count, e = .tooManyTokens count limits.maxTokenCount) ∨
      source.length ≤ limits.maxFormulaLength ∧
        scan (occursIn names) 0 source.toList = .error e := by
  rw [tokenize_eq] at h
  split at h
  · exact .inl (Except.error.inj h).symm
  · rename_i hlength
    cases hscan : scan (occursIn names) 0 source.toList with
    | error e' =>
      rw [hscan] at h
      obtain rfl := Except.error.inj h
      exact .inr (.inr ⟨Nat.le_of_not_lt hlength, rfl⟩)
    | ok ts =>
      simp only [hscan] at h
      split at h
      · exact .inr (.inl ⟨_, (Except.error.inj h).symm⟩)
      · cases h

/-- **An error of the lexer points at what it names.** -/
theorem tokenize_error {source : String} {limits : Limits}
    (h : tokenize source names limits = .error e) : e.PointsAt source.toList := by
  obtain rfl | ⟨count, rfl⟩ | ⟨-, hscan⟩ := tokenize_eq_error h
  · trivial
  · trivial
  · obtain ⟨before, c, more, -, hsource, hw, hl, -⟩ := scan_eq_error hscan
    rw [Nat.zero_add] at hl
    have hdrop : source.toList.drop before.length = c :: more := by
      rw [hsource, List.drop_left]
    exact lexeme_error hdrop hw hl

end Formulary
