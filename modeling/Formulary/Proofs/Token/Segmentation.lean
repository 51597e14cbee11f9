import Mathlib.Tactic.ByContra
import Formulary.Proofs.Token.Lexeme

/-!
# The lexer accepts exactly the segmentations into longest lexemes

A segmentation says of a whole text where its tokens lie, with no order of
reading in it: tokens are slices of the text, in order and apart, everything else
is white space, and each is a lexeme that the next character does not extend.

* `Segmentation`: the relation, from some position of the text on.
* `scan_eq_ok_iff` (every text): the lexer finds the segmentation from where it
  stands, by induction on what is left.
* `tokenize_eq_ok_iff`: **a formula has tokens exactly when they segment it, within
  the limits on length and count, and no second list of tokens does.**
-/

namespace Formulary

open Lexer

/-- **A segmentation of the text `cs` from `start` on** into tokens: slices of the
text that increase and do not overlap, white space outside them, and lexemes
that are as long as they can be. -/
structure Segmentation (names : List String) (cs : List Char) (start : Nat) (ts : List Token) :
    Prop where
  slice : ∀ t ∈ ts, t.text.toList = (cs.drop t.position).take t.text.length
  start_le : ∀ t ∈ ts, start ≤ t.position
  ordered : ts.Pairwise fun t u => t.position < u.position ∧ t.ending ≤ u.position
  blank : ∀ i c, start ≤ i → cs[i]? = some c → (∀ t ∈ ts, ¬ (t.position ≤ i ∧ i < t.ending)) →
    Text.isWhiteSpace c
  lexeme : ∀ t ∈ ts, IsLexeme names t.kind t.text.toList
  longest : ∀ t ∈ ts, ∀ c, cs[t.ending]? = some c → ¬ Extends t.kind t.text.toList c

variable {names : List String} {cs : List Char} {start : Nat} {ts : List Token}

/-- White space has no visible character of ASCII. -/
theorem not_isWhiteSpace {c : Char} (h1 : 33 ≤ c.toNat) (h2 : c.toNat ≤ 126) :
    Text.isWhiteSpace c = false := by
  have hranges : ∀ r ∈ Text.whiteSpaceRanges, r.2 < 33 ∨ 126 < r.1 := by decide
  rw [Text.isWhiteSpace, List.any_eq_false]
  intro r hr
  have hr := hranges r hr
  simp only [Bool.and_eq_true, decide_eq_true_eq]
  omega

/-- A lexeme starts with a character that is not white space. -/
theorem IsLexeme.head {kind : Token.Kind} {text : List Char} (h : IsLexeme names kind text) :
    ∃ c more, text = c :: more ∧ Text.isWhiteSpace c = false := by
  cases kind with
  | number =>
    have hne : text ≠ [] := by
      cases h.1 <;> simp_all
    obtain ⟨c, more, rfl⟩ := List.exists_cons_of_ne_nil hne
    refine ⟨c, more, rfl, ?_⟩
    rcases isNumeral_head h.1 with hc | rfl
    · have hb := toNat_of_isDigit hc
      exact not_isWhiteSpace (by omega) (by omega)
    · decide
  | identifier =>
    cases text with
    | nil => exact absurd h.1 (by simp [isIdentifier])
    | cons c more =>
      have hb := toNat_of_isNameStart (isIdentifier_ofList_cons.1 h.1).1
      exact ⟨c, more, rfl, not_isWhiteSpace (by omega) (by omega)⟩
  | operator op =>
    unfold IsLexeme at h
    cases op <;> exact ⟨_, _, h, by decide⟩
  | openParen | closeParen | question | colon => exact ⟨_, _, h, by decide⟩

namespace Segmentation

theorem text_length_pos (h : Segmentation names cs start ts) {t : Token} (ht : t ∈ ts) :
    0 < t.text.length := by
  obtain ⟨c, more, htext, -⟩ := (h.lexeme t ht).head
  rw [← String.length_toList, htext]
  exact Nat.succ_pos _

/-- A token's first character is the text's at its position, and no white space. -/
theorem getElem?_position (h : Segmentation names cs start ts) {t : Token} (ht : t ∈ ts) :
    ∃ c, cs[t.position]? = some c ∧ Text.isWhiteSpace c = false := by
  obtain ⟨c, more, htext, hc⟩ := (h.lexeme t ht).head
  refine ⟨c, ?_, hc⟩
  have hslice := h.slice t ht
  rw [htext] at hslice
  have hget : (c :: more)[0]? = ((cs.drop t.position).take t.text.length)[0]? := by rw [hslice]
  rw [List.getElem?_take_of_lt (h.text_length_pos ht), List.getElem?_drop] at hget
  exact hget.symm

/-- At the end of the text no token is left. -/
theorem of_length_le (hle : cs.length ≤ start) : Segmentation names cs start ts ↔ ts = [] := by
  constructor
  · intro h
    refine List.eq_nil_iff_forall_not_mem.2 fun t ht => ?_
    obtain ⟨c, hc, -⟩ := h.getElem?_position ht
    have hlt := (List.getElem?_eq_some_iff.1 hc).1
    have hstart := h.start_le t ht
    omega
  · rintro rfl
    refine ⟨by simp, by simp, .nil, fun i c hi hc => ?_, by simp, by simp⟩
    have hlt := (List.getElem?_eq_some_iff.1 hc).1
    omega

/-- White space is passed over. -/
theorem of_isWhiteSpace {c : Char} (hc : cs[start]? = some c) (hw : Text.isWhiteSpace c) :
    Segmentation names cs start ts ↔ Segmentation names cs (start + 1) ts := by
  constructor
  · intro h
    refine ⟨h.slice, fun t ht => ?_, h.ordered, fun i c hi => h.blank i c (by omega), h.lexeme,
      h.longest⟩
    obtain ⟨d, hd, hdw⟩ := h.getElem?_position ht
    have hle := h.start_le t ht
    rcases Nat.eq_or_lt_of_le hle with heq | hlt
    · rw [← heq, hc, Option.some.injEq] at hd
      rw [hd, hdw] at hw
      cases hw
    · exact hlt
  · intro h
    refine ⟨h.slice, fun t ht => Nat.le_of_succ_le (h.start_le t ht), h.ordered,
      fun i d hi hd hout => ?_, h.lexeme, h.longest⟩
    rcases Nat.eq_or_lt_of_le hi with rfl | hlt
    · rw [hc, Option.some.injEq] at hd
      exact hd ▸ hw
    · exact h.blank i d hlt hd hout

/-- Where a token starts, it is the first one, and the others segment what is
behind it. -/
theorem exists_cons {c : Char} (hc : cs[start]? = some c) (hw : Text.isWhiteSpace c = false)
    (h : Segmentation names cs start ts) :
    ∃ t us, ts = t :: us ∧ t.position = start ∧ Segmentation names cs t.ending us := by
  -- a character that is not white space lies in some token, and none starts before it
  obtain ⟨t, ht, hle, hlt⟩ : ∃ t ∈ ts, t.position ≤ start ∧ start < t.ending := by
    by_contra hno
    have hblank := h.blank start c (Nat.le_refl _) hc fun t ht hin => hno ⟨t, ht, hin⟩
    rw [hw] at hblank
    cases hblank
  have hpos : t.position = start := Nat.le_antisymm hle (h.start_le t ht)
  cases ts with
  | nil => cases ht
  | cons u us =>
    obtain ⟨hfirst, hrest⟩ := List.pairwise_cons.1 h.ordered
    have hut : u = t := by
      rcases List.mem_cons.1 ht with rfl | htu
      · rfl
      · have hu := (hfirst t htu).1
        have hstart := h.start_le u List.mem_cons_self
        omega
    subst hut
    refine ⟨u, us, rfl, hpos, ⟨fun t ht => h.slice t (List.mem_cons_of_mem _ ht),
      fun t ht => (hfirst t ht).2, hrest, fun i d hi hd hout => ?_,
      fun t ht => h.lexeme t (List.mem_cons_of_mem _ ht),
      fun t ht => h.longest t (List.mem_cons_of_mem _ ht)⟩⟩
    refine h.blank i d (by omega) hd fun t ht => ?_
    rcases List.mem_cons.1 ht with rfl | ht
    · omega
    · exact hout t ht

/-- A longest lexeme in front of a segmentation of the rest segments the whole. -/
theorem cons {t : Token} (hpos : t.position = start)
    (hslice : t.text.toList = (cs.drop t.position).take t.text.length)
    (hlex : IsLexeme names t.kind t.text.toList)
    (hlongest : ∀ c, cs[t.ending]? = some c → ¬ Extends t.kind t.text.toList c)
    (h : Segmentation names cs t.ending ts) : Segmentation names cs start (t :: ts) := by
  have hlen : t.ending = start + t.text.length := by rw [← hpos]; rfl
  have htext : 0 < t.text.length := by
    obtain ⟨c, more, htext, -⟩ := hlex.head
    rw [← String.length_toList, htext]
    exact Nat.succ_pos _
  refine ⟨List.forall_mem_cons.2 ⟨hslice, h.slice⟩, ?_, ?_, fun i c hi hc hout => ?_,
    List.forall_mem_cons.2 ⟨hlex, h.lexeme⟩, List.forall_mem_cons.2 ⟨hlongest, h.longest⟩⟩
  · refine List.forall_mem_cons.2 ⟨by omega, fun u hu => ?_⟩
    have hle := h.start_le u hu
    omega
  · refine List.pairwise_cons.2 ⟨fun u hu => ?_, h.ordered⟩
    have hle := h.start_le u hu
    exact ⟨by omega, hle⟩
  · obtain ⟨htout, hout⟩ := List.forall_mem_cons.1 hout
    exact h.blank i c (by omega) hc hout

/-- Where no white space stands, a segmentation is a longest lexeme and a segmentation
of what is behind it. -/
theorem cons_iff {c : Char} {tail : List Char} (hdrop : cs.drop start = c :: tail)
    (hw : Text.isWhiteSpace c = false) :
    Segmentation names cs start ts ↔
      ∃ kind more rest us, tail = more ++ rest ∧ IsLexeme names kind (c :: more) ∧
        (∀ y ∈ rest.head?, ¬ Extends kind (c :: more) y) ∧
        Segmentation names cs (start + 1 + more.length) us ∧
        ts = ⟨kind, String.ofList (c :: more), start⟩ :: us := by
  have htail : cs.drop (start + 1) = tail := by
    rw [← List.drop_drop, hdrop]
    rfl
  constructor
  · intro h
    have hc : cs[start]? = some c := by
      rw [← List.head?_drop, hdrop]
      rfl
    obtain ⟨⟨kind, text, position⟩, us, rfl, hstart, hus⟩ := h.exists_cons hc hw
    dsimp only at hstart
    subst hstart
    have hlex := h.lexeme _ List.mem_cons_self
    have hlongest := h.longest _ List.mem_cons_self
    have hslice := h.slice _ List.mem_cons_self
    dsimp only at hlex hslice hlongest hus
    -- the token's text is a prefix of what is left, and so starts with `c`
    rw [← String.length_toList, hdrop] at hslice
    obtain ⟨rest, hrest⟩ := List.prefix_iff_eq_take.2 hslice
    obtain ⟨d, more, htext, -⟩ := hlex.head
    obtain ⟨rfl, rfl⟩ := List.cons.inj (htext ▸ hrest)
    have hending : Token.ending ⟨kind, text, position⟩ = position + 1 + more.length := by
      rw [Token.ending, ← String.length_toList, htext, List.length_cons]
      dsimp only
      omega
    have hbehind : cs.drop (position + 1 + more.length) = rest := by
      rw [← List.drop_drop, htail]
      exact List.drop_left
    rw [hending] at hlongest hus
    rw [htext] at hlex hlongest
    refine ⟨kind, more, rest, us, rfl, hlex, fun y hy => hlongest y ?_, hus, ?_⟩
    · rw [← List.head?_drop, hbehind]
      exact hy
    · rw [← htext, String.ofList_toList]
  · rintro ⟨kind, more, rest, us, rfl, hlex, hlongest, hus, rfl⟩
    have hending : Token.ending ⟨kind, String.ofList (c :: more), start⟩ =
        start + 1 + more.length := by
      simp [Token.ending]
      omega
    refine .cons rfl ?_ (by simpa using hlex) ?_ (hending ▸ hus)
    · rw [← String.length_toList]
      refine List.prefix_iff_eq_take.1 ⟨rest, ?_⟩
      simp [hdrop]
    · intro d hd
      rw [hending, ← List.head?_drop, ← List.drop_drop, htail, List.drop_left] at hd
      simpa using hlongest d hd

end Segmentation

namespace Lexer

/-- The lexer cuts a token off where a lexeme ends that the next character does not
extend, and then cuts what is behind it. -/
theorem scan_cons_eq_ok_iff {c : Char} {tail : List Char} (hw : Text.isWhiteSpace c = false) :
    scan (occursIn names) start (c :: tail) = .ok ts ↔
      ∃ kind more rest us, tail = more ++ rest ∧ IsLexeme names kind (c :: more) ∧
        (∀ y ∈ rest.head?, ¬ Extends kind (c :: more) y) ∧
        scan (occursIn names) (start + 1 + more.length) rest = .ok us ∧
        ts = ⟨kind, String.ofList (c :: more), start⟩ :: us := by
  rw [scan, if_neg (by simp [hw])]
  constructor
  · intro h
    cases hl : lexeme (occursIn names) start c tail with
    | error e => simp [hl, bind, Except.bind] at h
    | ok r =>
      obtain ⟨kind, more⟩ := r
      obtain ⟨rest, rfl⟩ := lexeme_prefix hl
      obtain ⟨hlex, hlongest⟩ := lexeme_eq_ok_iff.1 hl
      simp only [hl, bind, Except.bind, List.drop_left] at h
      cases hs : scan (occursIn names) (start + 1 + more.length) rest with
      | error e => simp [hs] at h
      | ok us =>
        rw [hs] at h
        exact ⟨kind, more, rest, us, rfl, hlex, hlongest, hs, (Except.ok.inj h).symm⟩
  · rintro ⟨kind, more, rest, us, rfl, hlex, hlongest, hs, rfl⟩
    simp only [lexeme_eq_ok_iff.2 ⟨hlex, hlongest⟩, bind, Except.bind, List.drop_left, hs]
    rfl

/-- **The lexer finds the segmentation** from where it stands: both pass over white space,
and both cut a longest lexeme off where none stands. -/
theorem scan_eq_ok_iff (names : List String) (cs : List Char) (start : Nat) (ts : List Token) :
    scan (occursIn names) start (cs.drop start) = .ok ts ↔ Segmentation names cs start ts := by
  induction hn : cs.length - start using Nat.strongRecOn generalizing start ts with
  | _ n ih =>
    subst hn
    cases hdrop : cs.drop start with
    | nil =>
      rw [scan, Segmentation.of_length_le (List.drop_eq_nil_iff.1 hdrop)]
      simp [eq_comm]
    | cons c tail =>
      have hc : cs[start]? = some c := by
        rw [← List.head?_drop, hdrop]
        rfl
      have hlt : start < cs.length := (List.getElem?_eq_some_iff.1 hc).1
      have htail : cs.drop (start + 1) = tail := by
        rw [← List.drop_drop, hdrop]
        rfl
      cases hw : Text.isWhiteSpace c with
      | true =>
        rw [scan, if_pos hw, ← htail, ih _ (by omega) (start + 1) ts rfl,
          Segmentation.of_isWhiteSpace hc hw]
      | false =>
        rw [scan_cons_eq_ok_iff hw, Segmentation.cons_iff hdrop hw]
        have hrest (more rest : List Char) (us : List Token) (h : tail = more ++ rest) :
            scan (occursIn names) (start + 1 + more.length) rest = .ok us ↔
              Segmentation names cs (start + 1 + more.length) us := by
          rw [← ih _ (by omega) _ us rfl, ← List.drop_drop, htail, h, List.drop_left]
        constructor
        · rintro ⟨kind, more, rest, us, hmore, hlex, hlongest, hs, hts⟩
          exact ⟨kind, more, rest, us, hmore, hlex, hlongest, (hrest more rest us hmore).1 hs, hts⟩
        · rintro ⟨kind, more, rest, us, hmore, hlex, hlongest, hs, hts⟩
          exact ⟨kind, more, rest, us, hmore, hlex, hlongest, (hrest more rest us hmore).2 hs, hts⟩

end Lexer

/-- A text has at most one segmentation. -/
theorem Segmentation.unique {us : List Token} (h : Segmentation names cs 0 ts)
    (h' : Segmentation names cs 0 us) : ts = us := by
  have hts := (scan_eq_ok_iff names cs 0 ts).2 h
  have hus := (scan_eq_ok_iff names cs 0 us).2 h'
  exact Except.ok.inj (hts.symm.trans hus)

/-- Cutting a formula, limit by limit: its length, its lexemes, and their number. -/
theorem tokenize_eq (formula : String) (names : List String) (limits : Limits) :
    tokenize formula names limits =
      if limits.maxFormulaLength < formula.length then
        .error (.tooLong formula.length limits.maxFormulaLength)
      else
        match scan (occursIn names) 0 formula.toList with
        | .error e => .error e
        | .ok ts =>
          if limits.maxTokenCount < ts.length then
            .error (.tooManyTokens ts.length limits.maxTokenCount)
          else .ok ts := by
  unfold tokenize
  by_cases hlen : limits.maxFormulaLength < formula.length
  · simp only [hlen, if_true]
    rfl
  · simp only [hlen, if_false]
    cases scan (occursIn names) 0 formula.toList with
    | error e => rfl
    | ok ts =>
      by_cases hcount : limits.maxTokenCount < ts.length
      · simp only [bind, Except.bind, hcount, if_true]
        rfl
      · simp only [bind, Except.bind, hcount, if_false]
        rfl

/-- The tokens of a formula segment it, within the limits. -/
theorem segmentation_of_tokenize {formula : String} {limits : Limits}
    (h : tokenize formula names limits = .ok ts) :
    formula.length ≤ limits.maxFormulaLength ∧ ts.length ≤ limits.maxTokenCount ∧
      Segmentation names formula.toList 0 ts := by
  rw [tokenize_eq] at h
  split at h
  · cases h
  · rename_i hlength
    cases hscan : scan (occursIn names) 0 formula.toList with
    | error e => simp [hscan] at h
    | ok us =>
      simp only [hscan] at h
      split at h
      · cases h
      · rename_i hcount
        cases h
        have hseg := (scan_eq_ok_iff names formula.toList 0 ts).1 hscan
        exact ⟨Nat.le_of_not_lt hlength, Nat.le_of_not_lt hcount, hseg⟩

/-- **The lexer accepts exactly the segmentations into longest lexemes**, and loses
nothing. A formula has tokens exactly when they segment its text and its
characters and the tokens are not too many; at most one list of tokens segments
the text. -/
theorem tokenize_eq_ok_iff (formula : String) (names : List String) (limits : Limits)
    (ts : List Token) :
    (tokenize formula names limits = .ok ts ↔
      formula.length ≤ limits.maxFormulaLength ∧ ts.length ≤ limits.maxTokenCount ∧
        Segmentation names formula.toList 0 ts) ∧
    ∀ us vs, Segmentation names formula.toList 0 us → Segmentation names formula.toList 0 vs →
      us = vs := by
  have hscan (us : List Token) := scan_eq_ok_iff names formula.toList 0 us
  simp only [List.drop_zero] at hscan
  refine ⟨?_, ?_⟩
  · rw [tokenize_eq, ← hscan]
    by_cases hlen : limits.maxFormulaLength < formula.length
    · rw [if_pos hlen]
      exact iff_of_false (by simp) fun h => Nat.not_lt_of_le h.1 hlen
    · rw [if_neg hlen]
      cases scan (occursIn names) 0 formula.toList with
      | error e => simp
      | ok us =>
        dsimp only
        by_cases hcount : limits.maxTokenCount < us.length
        · rw [if_pos hcount]
          refine iff_of_false (by simp) fun ⟨_, hle, heq⟩ => ?_
          obtain rfl := Except.ok.inj heq
          exact Nat.not_lt_of_le hle hcount
        · rw [if_neg hcount]
          refine ⟨fun heq => ⟨Nat.le_of_not_lt hlen, ?_, heq⟩, fun h => h.2.2⟩
          obtain rfl := Except.ok.inj heq
          exact Nat.le_of_not_lt hcount
  · intro us vs hu hv
    have huv := ((hscan us).2 hu).symm.trans ((hscan vs).2 hv)
    exact Except.ok.inj huv

end Formulary
