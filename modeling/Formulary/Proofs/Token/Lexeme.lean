import Formulary.Token.Lexer

/-!
# Lexemes

The texts of the tokens of each kind, and the characters that would make such a
text longer, both said without the lexer.

* `IsLexeme`, `Extends`: the texts, and the characters that extend them.
* `lexeme_eq_ok_iff`: the lexer takes the characters that are a lexeme which what
  comes next does not extend.
-/

namespace Formulary

open Lexer

/-- The texts of numbers: digits, with a point behind them and more digits or none,
or a point with digits behind it. -/
inductive IsNumeral : List Char → Prop
  | whole {ds : List Char} (hne : ds ≠ []) (hd : ∀ c ∈ ds, c.isDigit) : IsNumeral ds
  | fraction {ds fs : List Char} (hne : ds ≠ []) (hd : ∀ c ∈ ds, c.isDigit)
      (hf : ∀ c ∈ fs, c.isDigit) : IsNumeral (ds ++ '.' :: fs)
  | bare {fs : List Char} (hne : fs ≠ []) (hf : ∀ c ∈ fs, c.isDigit) : IsNumeral ('.' :: fs)

/-- A numeral is written with digits and a point. -/
theorem IsNumeral.mem {cs : List Char} (h : IsNumeral cs) : ∀ c ∈ cs, c.isDigit ∨ c = '.' := by
  cases h with
  | whole _ hd => exact fun c hc => .inl (hd c hc)
  | fraction _ hd hf =>
    intro c hc
    rcases List.mem_append.1 hc with hc | hc
    · exact .inl (hd c hc)
    · exact (List.mem_cons.1 hc).symm.imp (hf c) id
  | bare _ hf => exact fun c hc => (List.mem_cons.1 hc).symm.imp (hf c) id

/-- **The lexemes of a kind of token**, over the declared names: a number denotes a
decimal, and the letters of a name occur in declared ones. -/
def IsLexeme (names : List String) : Token.Kind → List Char → Prop
  | .number, cs => IsNumeral cs ∧ (literal? cs).isSome
  | .identifier, cs =>
    isIdentifier (String.ofList cs) ∧ ∀ c ∈ cs, c.isDigit ∨ ∃ name ∈ names, c ∈ name.toList
  | .operator op, cs => cs = op.symbol.toList
  | .openParen, cs => cs = ['(']
  | .closeParen, cs => cs = [')']
  | .question, cs => cs = ['?']
  | .colon, cs => cs = [':']

/-- Whether a character right behind a token's text would belong to it. -/
def Extends : Token.Kind → List Char → Char → Prop
  | .number, cs, c => c.isDigit ∨ (c = '.' ∧ '.' ∉ cs)
  | .identifier, _, c => isNamePart c
  | .operator .less, _, c => c = '='
  | .operator .greater, _, c => c = '='
  | _, _, _ => False

namespace Lexer

variable {names : List String} {position : Nat} {c : Char} {kind : Token.Kind}
  {more rest : List Char}

theorem occursIn_iff : occursIn names c = true ↔ ∃ name ∈ names, c ∈ name.toList := by
  simp [occursIn]

/-- A run of characters ends where the first one does not belong to it. -/
theorem takeWhile_append_eq_iff {p : Char → Bool} (xs ys : List Char) :
    (xs ++ ys).takeWhile p = xs ↔ (∀ x ∈ xs, p x) ∧ ∀ y ∈ ys.head?, ¬ p y := by
  induction xs with
  | nil => cases ys <;> simp [List.takeWhile_cons]
  | cons x xs ih =>
    by_cases hx : p x
    · simp [hx, ih]
    · simp [hx]

theorem run_spec (p : Char → Bool) (cs : List Char) :
    (∀ x ∈ cs.takeWhile p, p x) ∧ ∀ y ∈ (cs.dropWhile p).head?, ¬ p y :=
  (takeWhile_append_eq_iff _ _).1 (by rw [List.takeWhile_append_dropWhile])

theorem dropWhile_append_eq {p : Char → Bool} {xs ys : List Char} (hx : ∀ x ∈ xs, p x)
    (hy : ∀ y ∈ ys.head?, ¬ p y) : (xs ++ ys).dropWhile p = ys := by
  have htake := (takeWhile_append_eq_iff xs ys).2 ⟨hx, hy⟩
  have happend := List.takeWhile_append_dropWhile (p := p) (l := xs ++ ys)
  rw [htake] at happend
  exact List.append_cancel_left happend

theorem firstForbidden?_eq_none_iff {allowed : Char → Bool} (cs : List Char) :
    firstForbidden? allowed position cs = none ↔ ∀ c ∈ cs, c.isDigit ∨ allowed c := by
  induction cs generalizing position with
  | nil => simp [firstForbidden?]
  | cons c cs ih =>
    unfold firstForbidden?
    by_cases h : c.isDigit || allowed c
    · rw [if_pos h, ih]
      simp only [Bool.or_eq_true] at h
      simp [h]
    · rw [if_neg h]
      simp only [Bool.or_eq_true] at h
      simp [h]

theorem extends_number_iff {cs : List Char} {y : Char} (hdot : '.' ∈ cs) :
    Extends .number cs y ↔ y.isDigit := by
  simp [Extends, hdot]

theorem not_mem_of_digits {cs : List Char} (h : ∀ x ∈ cs, x.isDigit) : '.' ∉ cs :=
  fun hmem => absurd (h _ hmem) (by decide)

/-- The rest of a number that starts with a point is a run of digits. -/
theorem numberRest_point (more rest : List Char) :
    numberRest '.' (more ++ rest) = more ↔
      (∀ x ∈ more, x.isDigit) ∧ ∀ y ∈ rest.head?, ¬ Extends .number ('.' :: more) y := by
  have hx (y : Char) : Extends .number ('.' :: more) y ↔ y.isDigit :=
    extends_number_iff List.mem_cons_self
  simp only [hx]
  exact takeWhile_append_eq_iff more rest

/-- What may stand behind the first digit of a number: digits, with at most one point
among them. -/
def IsNumberRest (more : List Char) : Prop :=
  (∀ x ∈ more, x.isDigit) ∨
    ∃ ds fs, more = ds ++ '.' :: fs ∧ (∀ x ∈ ds, x.isDigit) ∧ ∀ x ∈ fs, x.isDigit

/-- The rest of a number is cut off where nothing extends the number. -/
theorem numberRest_split (hc : c ≠ '.') (cs : List Char) :
    ∃ rest, cs = numberRest c cs ++ rest ∧ IsNumberRest (numberRest c cs) ∧
      ∀ y ∈ rest.head?, ¬ Extends .number (c :: numberRest c cs) y := by
  obtain ⟨hds, hstop⟩ := run_spec Char.isDigit cs
  have happend := List.takeWhile_append_dropWhile (p := Char.isDigit) (l := cs)
  unfold numberRest
  rw [if_neg hc]
  split
  · rename_i fraction htail
    obtain ⟨hfs, hend⟩ := run_spec Char.isDigit fraction
    refine ⟨fraction.dropWhile Char.isDigit, ?_, .inr ⟨_, _, rfl, hds, hfs⟩, fun y hy => ?_⟩
    · rw [List.append_assoc, List.cons_append, List.takeWhile_append_dropWhile, ← htail, happend]
    · rw [extends_number_iff (by simp)]
      exact hend y hy
  · rename_i hne
    refine ⟨cs.dropWhile Char.isDigit, happend.symm, .inl hds, ?_⟩
    rintro y hy (hdigit | ⟨rfl, -⟩)
    · exact hstop y hy hdigit
    · obtain ⟨rest, hrest⟩ := List.head?_eq_some_iff.1 hy
      exact hne rest hrest

/-- Digits with at most one point are the rest of a number that nothing extends. -/
theorem numberRest_append (hc : c ≠ '.') (hmore : IsNumberRest more)
    (hend : ∀ y ∈ rest.head?, ¬ Extends .number (c :: more) y) :
    numberRest c (more ++ rest) = more := by
  have hdigit : ∀ y ∈ rest.head?, ¬ y.isDigit := fun y hy hd => hend y hy (.inl hd)
  unfold numberRest
  rw [if_neg hc]
  rcases hmore with hds | ⟨ds, fs, rfl, hds, hfs⟩
  · have hpoint : '.' ∉ c :: more := by
      simp [Ne.symm hc, not_mem_of_digits hds]
    rw [(takeWhile_append_eq_iff more rest).2 ⟨hds, hdigit⟩, dropWhile_append_eq hds hdigit]
    split
    · exact absurd (.inr ⟨rfl, hpoint⟩) (hend '.' rfl)
    · rfl
  · have hdot : ∀ y ∈ ('.' :: (fs ++ rest)).head?, ¬ y.isDigit := by
      rintro y ⟨rfl⟩
      decide
    rw [List.append_assoc, List.cons_append, (takeWhile_append_eq_iff ds _).2 ⟨hds, hdot⟩,
      dropWhile_append_eq hds hdot]
    change ds ++ '.' :: (fs ++ rest).takeWhile Char.isDigit = _
    rw [(takeWhile_append_eq_iff fs rest).2 ⟨hfs, hdigit⟩]

/-- The rest of a number that starts with a digit has at most one point. -/
theorem numberRest_digit (hc : c ≠ '.') (more rest : List Char) :
    numberRest c (more ++ rest) = more ↔
      IsNumberRest more ∧ ∀ y ∈ rest.head?, ¬ Extends .number (c :: more) y := by
  constructor
  · intro h
    obtain ⟨rest', hsplit, hmore, hend⟩ := numberRest_split hc (more ++ rest)
    rw [h] at hsplit hmore hend
    rw [List.append_cancel_left hsplit]
    exact ⟨hmore, hend⟩
  · rintro ⟨hmore, hend⟩
    exact numberRest_append hc hmore hend

theorem isNumeral_point_iff : IsNumeral ('.' :: more) ↔ more ≠ [] ∧ ∀ x ∈ more, x.isDigit := by
  constructor
  · intro h
    generalize hcs : '.' :: more = cs at h
    cases h with
    | whole _ hd => exact absurd List.mem_cons_self (not_mem_of_digits (hcs ▸ hd))
    | @fraction ds fs hne hd _ =>
      obtain ⟨d, ds, rfl⟩ := List.exists_cons_of_ne_nil hne
      obtain rfl : '.' = d := (List.cons.inj hcs).1
      exact absurd List.mem_cons_self (not_mem_of_digits hd)
    | bare hne hf =>
      obtain rfl := (List.cons.inj hcs).2
      exact ⟨hne, hf⟩
  · rintro ⟨hne, hf⟩
    exact .bare hne hf

theorem isNumeral_digit_iff (hc : c.isDigit) :
    IsNumeral (c :: more) ↔ IsNumberRest more := by
  constructor
  · intro h
    generalize hcs : c :: more = cs at h
    cases h with
    | whole _ hd =>
      subst hcs
      exact .inl fun x hx => hd x (List.mem_cons_of_mem _ hx)
    | @fraction ds fs hne hd hf =>
      obtain ⟨d, ds, rfl⟩ := List.exists_cons_of_ne_nil hne
      exact .inr ⟨ds, fs, (List.cons.inj hcs).2, fun x hx => hd x (List.mem_cons_of_mem _ hx), hf⟩
    | bare _ _ =>
      obtain rfl := (List.cons.inj hcs).1
      exact absurd hc (by decide)
  · rintro (hd | ⟨ds, fs, rfl, hd, hf⟩)
    · exact .whole (by simp) (by simpa [hc] using hd)
    · exact .fraction (List.cons_ne_nil c ds) (by simpa [hc] using hd) hf

theorem isNumeral_head (h : IsNumeral (c :: more)) : c.isDigit ∨ c = '.' := by
  generalize hcs : c :: more = cs at h
  cases h with
  | whole _ hd => exact .inl (hd c (hcs ▸ List.mem_cons_self))
  | @fraction ds fs hne hd _ =>
    obtain ⟨d, ds, rfl⟩ := List.exists_cons_of_ne_nil hne
    obtain rfl := (List.cons.inj hcs).1
    exact .inl (hd _ List.mem_cons_self)
  | bare _ _ => exact .inr (List.cons.inj hcs).1

/-- The lexer reads a number where a numeral that denotes a decimal ends. -/
theorem number_eq_ok_iff (names : List String) (hc : c.isDigit ∨ c = '.') :
    number position c (more ++ rest) = .ok (kind, more) ↔
      kind = .number ∧ IsLexeme names .number (c :: more) ∧
        ∀ y ∈ rest.head?, ¬ Extends .number (c :: more) y := by
  have hread : number position c (more ++ rest) = .ok (kind, more) ↔
      kind = .number ∧ numberRest c (more ++ rest) = more ∧ c :: more ≠ ['.'] ∧
        (literal? (c :: more)).isSome := by
    unfold number
    dsimp only
    constructor
    · intro h
      split at h
      · cases h
      · rename_i hok
        obtain ⟨hkind, hmore⟩ := Prod.mk.inj (Except.ok.inj h)
        rw [hmore, not_or, Bool.not_eq_true, Option.isNone_eq_false_iff] at hok
        exact ⟨hkind.symm, hmore, hok⟩
    · rintro ⟨rfl, hmore, hok⟩
      rw [hmore, if_neg]
      rwa [not_or, Bool.not_eq_true, Option.isNone_eq_false_iff]
  rw [hread]
  change _ ↔ kind = .number ∧ (IsNumeral (c :: more) ∧ (literal? (c :: more)).isSome) ∧ _
  generalize (literal? (c :: more)).isSome = denotes
  rcases hc with hc | rfl
  · have hne : c ≠ '.' := by
      rintro rfl
      exact absurd hc (by decide)
    have hp : c :: more ≠ ['.'] := fun h => hne (List.cons.inj h).1
    rw [numberRest_digit hne, isNumeral_digit_iff hc]
    simp only [hp, ne_eq, not_false_eq_true, true_and]
    exact and_congr_right fun _ => and_right_comm
  · have hp : '.' :: more ≠ ['.'] ↔ more ≠ [] := by simp
    rw [numberRest_point, isNumeral_point_iff, hp]
    constructor
    · rintro ⟨hk, ⟨hdigits, hstop⟩, hne, hdenotes⟩
      exact ⟨hk, ⟨⟨hne, hdigits⟩, hdenotes⟩, hstop⟩
    · rintro ⟨hk, ⟨⟨hne, hdigits⟩, hdenotes⟩, hstop⟩
      exact ⟨hk, ⟨hdigits, hstop⟩, hne, hdenotes⟩

theorem isIdentifier_ofList_cons :
    isIdentifier (String.ofList (c :: more)) ↔ isNameStart c ∧ ∀ x ∈ more, isNamePart x := by
  simp [isIdentifier]

/-- The lexer reads a name where a run of letters and digits ends, all letters of
which occur in declared names. -/
theorem name_eq_ok_iff (hc : isNameStart c) (ha : occursIn names c) :
    name (occursIn names) position (more ++ rest) = .ok (kind, more) ↔
      kind = .identifier ∧ IsLexeme names .identifier (c :: more) ∧
        ∀ y ∈ rest.head?, ¬ Extends .identifier (c :: more) y := by
  have hread : name (occursIn names) position (more ++ rest) = .ok (kind, more) ↔
      kind = .identifier ∧ (more ++ rest).takeWhile isNamePart = more ∧
        ∀ x ∈ more, x.isDigit ∨ occursIn names x := by
    unfold name
    dsimp only
    constructor
    · intro h
      split at h
      · cases h
      · rename_i hok
        obtain ⟨hkind, hmore⟩ := Prod.mk.inj (Except.ok.inj h)
        rw [hmore, firstForbidden?_eq_none_iff] at hok
        exact ⟨hkind.symm, hmore, hok⟩
    · rintro ⟨rfl, hmore, hok⟩
      rw [hmore, (firstForbidden?_eq_none_iff more).2 hok]
  have hlex : IsLexeme names .identifier (c :: more) ↔
      (∀ x ∈ more, isNamePart x) ∧ ∀ x ∈ more, x.isDigit ∨ occursIn names x := by
    have hfirst : c.isDigit ∨ ∃ name ∈ names, c ∈ name.toList := .inr (occursIn_iff.1 ha)
    simp only [IsLexeme, isIdentifier_ofList_cons, hc, true_and, List.forall_mem_cons, hfirst,
      occursIn_iff]
  rw [hread, takeWhile_append_eq_iff, hlex]
  exact and_congr_right fun _ => and_right_comm

theorem paired_eq_ok_iff {first second : Char} {op : BinaryOp} :
    paired position first second op (more ++ rest) = .ok (kind, more) ↔
      kind = .operator op ∧ more = [second] := by
  unfold paired
  constructor
  · intro h
    split at h
    · obtain ⟨hkind, hmore⟩ := Prod.mk.inj (Except.ok.inj h)
      exact ⟨hkind.symm, hmore.symm⟩
    · cases h
  · rintro ⟨rfl, rfl⟩
    exact if_pos rfl

theorem longer_eq_iff {second : Char} {long short : BinaryOp} :
    longer second long short (more ++ rest) = (kind, more) ↔
      (kind = .operator long ∧ more = [second]) ∨
        (kind = .operator short ∧ more = [] ∧ ∀ y ∈ rest.head?, ¬ y = second) := by
  unfold longer
  constructor
  · intro h
    split at h
    · obtain ⟨hkind, hmore⟩ := Prod.mk.inj h
      exact .inl ⟨hkind.symm, hmore.symm⟩
    · rename_i hne
      obtain ⟨hkind, rfl⟩ := Prod.mk.inj h
      exact .inr ⟨hkind.symm, rfl, fun y hy hs => hne (hs ▸ hy)⟩
  · rintro (⟨rfl, rfl⟩ | ⟨rfl, rfl, hne⟩)
    · exact if_pos rfl
    · exact if_neg fun h => hne second h rfl

/-- The first characters that are no digit, no point and no start of a name. -/
def symbols : List Char := ['(', ')', '?', ':', '+', '-', '*', '/', '<', '>', '=', '!', '&', '|']

/-- Any other character starts a number, a name or nothing. -/
theorem lexeme_of_not_symbol {allowed : Char → Bool} {cs : List Char} (h : c ∉ symbols) :
    lexeme allowed position c cs =
      if c.isDigit || c == '.' then number position c cs
      else if isNameStart c && allowed c then name allowed position cs
      else .error (.unexpectedChar c position) := by
  unfold lexeme
  split
  all_goals first | rfl | exact absurd h (by decide)

theorem not_symbol_of_isDigit (h : c.isDigit) : c ∉ symbols := by
  have hsymbols : symbols.any Char.isDigit = false := by decide
  exact fun hs => List.any_eq_false.1 hsymbols c hs h

theorem not_symbol_of_isNameStart (h : isNameStart c) : c ∉ symbols := by
  have hsymbols : symbols.any isNameStart = false := by decide
  exact fun hs => List.any_eq_false.1 hsymbols c hs h

theorem toNat_of_isDigit {c : Char} (h : c.isDigit) : 48 ≤ c.toNat ∧ c.toNat ≤ 57 := by
  simpa [Char.isDigit, UInt32.le_iff_toNat_le] using h

theorem toNat_of_isNameStart {c : Char} (h : isNameStart c) : 65 ≤ c.toNat ∧ c.toNat ≤ 122 := by
  delta isNameStart Char.isAlpha Char.isUpper Char.isLower at h
  simp only [UInt32.le_iff_toNat_le, Bool.or_eq_true, Bool.and_eq_true, decide_eq_true_eq,
    beq_iff_eq] at h
  obtain (⟨h1, h2⟩ | ⟨h1, h2⟩) | rfl := h
  · exact ⟨h1, Nat.le_trans h2 (by decide)⟩
  · exact ⟨Nat.le_trans (by decide) h1, h2⟩
  · decide

theorem not_isDigit_of_isNameStart (h : isNameStart c) : (c.isDigit || c == '.') = false := by
  have hb := toNat_of_isNameStart h
  rw [Bool.or_eq_false_iff]
  constructor
  · cases hd : c.isDigit with
    | false => rfl
    | true =>
      have hb' := toNat_of_isDigit hd
      omega
  · rw [beq_eq_false_iff_ne]
    rintro rfl
    exact absurd hb.1 (by decide)

/-- What the lexer does at a symbol: it takes the symbol alone, or with a second
character if that comes next, or only with the second character. -/
theorem lexeme_symbol (names : List String) {allowed : Char → Bool} (hs : c ∈ symbols)
    (position : Nat) (cs : List Char) :
    (∃ k, lexeme allowed position c cs = .ok (k, []) ∧ IsLexeme names k [c] ∧
      ∀ y, ¬ Extends k [c] y) ∨
    (∃ second long short, lexeme allowed position c cs = .ok (longer second long short cs) ∧
      IsLexeme names (.operator long) [c, second] ∧
      (∀ y, ¬ Extends (.operator long) [c, second] y) ∧ IsLexeme names (.operator short) [c] ∧
      ∀ y, Extends (.operator short) [c] y → y = second) ∨
    (∃ second op, lexeme allowed position c cs = paired position c second op cs ∧
      IsLexeme names (.operator op) [c, second] ∧ ∀ y, ¬ Extends (.operator op) [c, second] y) := by
  simp only [symbols, List.mem_cons, List.not_mem_nil, or_false] at hs
  rcases hs with rfl | rfl | rfl | rfl | rfl | rfl | rfl | rfl | rfl | rfl | rfl | rfl | rfl | rfl
  · exact .inl ⟨.openParen, rfl, rfl, fun _ h => h⟩
  · exact .inl ⟨.closeParen, rfl, rfl, fun _ h => h⟩
  · exact .inl ⟨.question, rfl, rfl, fun _ h => h⟩
  · exact .inl ⟨.colon, rfl, rfl, fun _ h => h⟩
  · exact .inl ⟨.operator .add, rfl, rfl, fun _ h => h⟩
  · exact .inl ⟨.operator .sub, rfl, rfl, fun _ h => h⟩
  · exact .inl ⟨.operator .mul, rfl, rfl, fun _ h => h⟩
  · exact .inl ⟨.operator .div, rfl, rfl, fun _ h => h⟩
  · exact .inr (.inl ⟨'=', .lessEq, .less, rfl, rfl, fun _ h => h, rfl, fun _ h => h⟩)
  · exact .inr (.inl ⟨'=', .greaterEq, .greater, rfl, rfl, fun _ h => h, rfl, fun _ h => h⟩)
  · exact .inr (.inr ⟨'=', .equal, rfl, rfl, fun _ h => h⟩)
  · exact .inr (.inr ⟨'=', .notEqual, rfl, rfl, fun _ h => h⟩)
  · exact .inr (.inr ⟨'&', .and, rfl, rfl, fun _ h => h⟩)
  · exact .inr (.inr ⟨'|', .or, rfl, rfl, fun _ h => h⟩)

theorem isLexeme_of_lexeme_symbol (hs : c ∈ symbols)
    (h : lexeme (occursIn names) position c (more ++ rest) = .ok (kind, more)) :
    IsLexeme names kind (c :: more) ∧ ∀ y ∈ rest.head?, ¬ Extends kind (c :: more) y := by
  obtain ⟨k, hk, hl, hx⟩ | ⟨second, long, short, hk, hlong, hxlong, hshort, hxshort⟩ |
    ⟨second, op, hk, hl, hx⟩ := lexeme_symbol names hs position (more ++ rest)
  · obtain ⟨rfl, rfl⟩ := Prod.mk.inj (Except.ok.inj (hk.symm.trans h))
    exact ⟨hl, fun y _ => hx y⟩
  · obtain ⟨rfl, rfl⟩ | ⟨rfl, rfl, hne⟩ := longer_eq_iff.1 (Except.ok.inj (hk.symm.trans h))
    · exact ⟨hlong, fun y _ => hxlong y⟩
    · exact ⟨hshort, fun y hy hext => hne y hy (hxshort y hext)⟩
  · obtain ⟨rfl, rfl⟩ := paired_eq_ok_iff.1 (hk.symm.trans h)
    exact ⟨hl, fun y _ => hx y⟩

theorem lexeme_operator {op : BinaryOp} (hl : c :: more = op.symbol.toList)
    (hx : ∀ y ∈ rest.head?, ¬ Extends (.operator op) (c :: more) y) :
    lexeme (occursIn names) position c (more ++ rest) = .ok (.operator op, more) := by
  cases op with
  | less =>
    obtain ⟨rfl, rfl⟩ := List.cons.inj hl
    exact congrArg Except.ok (longer_eq_iff.2 (.inr ⟨rfl, rfl, hx⟩))
  | greater =>
    obtain ⟨rfl, rfl⟩ := List.cons.inj hl
    exact congrArg Except.ok (longer_eq_iff.2 (.inr ⟨rfl, rfl, hx⟩))
  | lessEq =>
    obtain ⟨rfl, rfl⟩ := List.cons.inj hl
    exact congrArg Except.ok (longer_eq_iff.2 (.inl ⟨rfl, rfl⟩))
  | greaterEq =>
    obtain ⟨rfl, rfl⟩ := List.cons.inj hl
    exact congrArg Except.ok (longer_eq_iff.2 (.inl ⟨rfl, rfl⟩))
  | equal | notEqual | and | or =>
    obtain ⟨rfl, rfl⟩ := List.cons.inj hl
    exact paired_eq_ok_iff.2 ⟨rfl, rfl⟩
  | add | sub | mul | div =>
    obtain ⟨rfl, rfl⟩ := List.cons.inj hl
    rfl

theorem isLexeme_of_lexeme
    (h : lexeme (occursIn names) position c (more ++ rest) = .ok (kind, more)) :
    IsLexeme names kind (c :: more) ∧ ∀ y ∈ rest.head?, ¬ Extends kind (c :: more) y := by
  by_cases hs : c ∈ symbols
  · exact isLexeme_of_lexeme_symbol hs h
  · rw [lexeme_of_not_symbol hs] at h
    split at h
    · rename_i hd
      obtain ⟨rfl, hl⟩ := (number_eq_ok_iff names (by simpa using hd)).1 h
      exact hl
    · split at h
      · rename_i hn
        rw [Bool.and_eq_true] at hn
        obtain ⟨rfl, hl⟩ := (name_eq_ok_iff hn.1 hn.2).1 h
        exact hl
      · cases h

/-- Where a name starts, the lexer reads a name, whatever follows. -/
theorem lexeme_of_isIdentifier (hl : IsLexeme names .identifier (c :: more)) (cs : List Char) :
    isNameStart c ∧ occursIn names c ∧
      lexeme (occursIn names) position c cs = name (occursIn names) position cs := by
  have hc : isNameStart c := (isIdentifier_ofList_cons.1 hl.1).1
  have hd := not_isDigit_of_isNameStart hc
  -- the first character is no digit, so it occurs in a declared name
  have ha : occursIn names c := by
    rcases hl.2 c List.mem_cons_self with hdigit | ha
    · simp [hdigit] at hd
    · exact occursIn_iff.2 ha
  refine ⟨hc, ha, ?_⟩
  rw [lexeme_of_not_symbol (not_symbol_of_isNameStart hc), hd, if_neg (by simp),
    if_pos (by simp [hc, ha])]

theorem lexeme_of_isLexeme (hl : IsLexeme names kind (c :: more))
    (hx : ∀ y ∈ rest.head?, ¬ Extends kind (c :: more) y) :
    lexeme (occursIn names) position c (more ++ rest) = .ok (kind, more) := by
  cases kind with
  | number =>
    have hc := isNumeral_head hl.1
    have hs : c ∉ symbols := by
      rcases hc with hc | rfl
      · exact not_symbol_of_isDigit hc
      · decide
    rw [lexeme_of_not_symbol hs, if_pos (by simpa using hc)]
    exact (number_eq_ok_iff names hc).2 ⟨rfl, hl, hx⟩
  | identifier =>
    obtain ⟨hc, ha, hname⟩ := lexeme_of_isIdentifier hl (more ++ rest)
    rw [hname]
    exact (name_eq_ok_iff hc ha).2 ⟨rfl, hl, hx⟩
  | operator op => exact lexeme_operator hl hx
  | openParen | closeParen | question | colon =>
    obtain ⟨rfl, rfl⟩ := List.cons.inj hl
    rfl

/-- **The lexer takes the longest lexeme**: a first character and those behind it
are a token exactly if they are a lexeme that nothing behind them extends. -/
theorem lexeme_eq_ok_iff :
    lexeme (occursIn names) position c (more ++ rest) = .ok (kind, more) ↔
      IsLexeme names kind (c :: more) ∧ ∀ y ∈ rest.head?, ¬ Extends kind (c :: more) y := by
  constructor
  · exact isLexeme_of_lexeme
  · rintro ⟨hl, hx⟩
    exact lexeme_of_isLexeme hl hx

theorem numberRest_prefix (c : Char) (cs : List Char) : ∃ rest, cs = numberRest c cs ++ rest := by
  by_cases hc : c = '.'
  · subst hc
    exact ⟨cs.dropWhile Char.isDigit, List.takeWhile_append_dropWhile.symm⟩
  · obtain ⟨rest, hsplit, -⟩ := numberRest_split hc cs
    exact ⟨rest, hsplit⟩

theorem paired_prefix {first second : Char} {op : BinaryOp} {cs : List Char}
    (h : paired position first second op cs = .ok (kind, more)) : ∃ rest, cs = more ++ rest := by
  unfold paired at h
  split at h
  · rename_i hhead
    obtain ⟨-, rfl⟩ := Prod.mk.inj (Except.ok.inj h)
    obtain ⟨rest, rfl⟩ := List.head?_eq_some_iff.1 hhead
    exact ⟨rest, rfl⟩
  · cases h

theorem longer_prefix {second : Char} {long short : BinaryOp} {cs : List Char}
    (h : longer second long short cs = (kind, more)) : ∃ rest, cs = more ++ rest := by
  unfold longer at h
  split at h
  · rename_i hhead
    obtain ⟨-, rfl⟩ := Prod.mk.inj h
    obtain ⟨rest, rfl⟩ := List.head?_eq_some_iff.1 hhead
    exact ⟨rest, rfl⟩
  · obtain ⟨-, rfl⟩ := Prod.mk.inj h
    exact ⟨cs, rfl⟩

/-- What the lexer takes stands in front of what it leaves. -/
theorem lexeme_prefix {cs : List Char}
    (h : lexeme (occursIn names) position c cs = .ok (kind, more)) : ∃ rest, cs = more ++ rest := by
  by_cases hs : c ∈ symbols
  · obtain ⟨k, hk, -⟩ | ⟨second, long, short, hk, -⟩ | ⟨second, op, hk, -⟩ :=
      lexeme_symbol names hs position cs
    · obtain ⟨-, rfl⟩ := Prod.mk.inj (Except.ok.inj (hk.symm.trans h))
      exact ⟨cs, rfl⟩
    · exact longer_prefix (Except.ok.inj (hk.symm.trans h))
    · exact paired_prefix (hk.symm.trans h)
  · rw [lexeme_of_not_symbol hs] at h
    split at h
    · unfold number at h
      dsimp only at h
      split at h
      · cases h
      · obtain ⟨-, rfl⟩ := Prod.mk.inj (Except.ok.inj h)
        exact numberRest_prefix c cs
    · split at h
      · unfold name at h
        dsimp only at h
        split at h
        · cases h
        · obtain ⟨-, rfl⟩ := Prod.mk.inj (Except.ok.inj h)
          exact ⟨_, List.takeWhile_append_dropWhile.symm⟩
      · cases h

end Lexer

end Formulary
