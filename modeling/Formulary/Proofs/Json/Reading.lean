import Formulary.Proofs.Json.Grammar

/-!
# The reader is complete

Whatever the grammar derives is read, as the value that it spells: the reader refuses no
JSON, however deep and in whatever escapes. A reader is stated with the characters that it
leaves, so that the readers of the parts add up. Only a number has to know what comes behind
it, since it would go on with any digit there.

* `decode_eq_some_iff`: **text is decoded exactly as UTF-16 encodes it**.
* `reads_string`, `reads_number`: strings and numbers are read as they are spelled.
* `reads_value`: **so is every value**, by induction on the grammar.
* `ofText?_of_isText`: a JSON text is read as its value.
-/

namespace Formulary.Json.Reader

/-! ### Strings -/

theorem hexDigit?_of_isHexDigit {n : Nat} {c : Char} (h : IsHexDigit n c) :
    hexDigit? c = some n := by
  have hall : ∀ n < 16, hexDigit? (Nat.digitChar n) = some n ∧
      hexDigit? (Nat.digitChar n).toUpper = some n := by decide
  obtain ⟨hn, rfl | rfl⟩ := h
  · exact (hall n hn).1
  · exact (hall n hn).2

/-- Pieces are read in front of others as they are spelled. -/
theorem pieces_of_spellsPiece {p : Piece} {cs : List Char} (h : SpellsPiece p cs)
    (rest : List Char) :
    pieces (cs ++ rest) = (pieces rest).map fun r => (p :: r.1, r.2) := by
  cases h with
  | @plain c hcontrol hquote hbackslash =>
    have hplain : (c.toNat < 0x20 || c == '\\') = false := by
      simp [hbackslash]
      omega
    rw [List.singleton_append, pieces]
    · rw [if_neg (by simp [hplain])]
      cases pieces rest <;> rfl
    all_goals simp_all
  | @letter e c h =>
    have hletter : e ≠ 'u' ∧ escaped? e = some c := by
      have hall : ∀ p ∈ letters, p.1 ≠ 'u' ∧ escaped? p.1 = some p.2 := by decide
      exact hall (e, c) h
    rw [List.cons_append, List.singleton_append, pieces]
    · rw [hletter.2]
      cases pieces rest <;> rfl
    all_goals simp_all
  | unit h =>
    obtain ⟨ha, hb, hc, hd⟩ := h
    rw [List.cons_append, List.cons_append, List.cons_append, List.cons_append, List.cons_append,
      List.singleton_append, pieces, unit?, hexDigit?_of_isHexDigit ha,
      hexDigit?_of_isHexDigit hb, hexDigit?_of_isHexDigit hc, hexDigit?_of_isHexDigit hd]
    cases pieces rest <;> rfl

/-- A string is read up to its quote. -/
theorem pieces_of_spellsPieces {ps : List Piece} {cs : List Char} (h : SpellsPieces ps cs)
    (rest : List Char) : pieces (cs ++ '"' :: rest) = some (ps, rest) := by
  induction h with
  | nil => rfl
  | cons h hs ih => rw [List.append_assoc, pieces_of_spellsPiece h, ih, Option.map_some]

/-- A piece has at most the sixteen bits of a code unit. -/
def IsSmall : Piece → Prop
  | .char _ => True
  | .unit code => code < 0x10000

theorem isSmall_of_spellsPieces {ps : List Piece} {cs : List Char} (h : SpellsPieces ps cs) :
    ∀ p ∈ ps, IsSmall p := by
  induction h with
  | nil => exact fun p hp => absurd hp List.not_mem_nil
  | cons h hs ih =>
    refine List.forall_mem_cons.2 ⟨?_, ih⟩
    cases h with
    | plain | letter => trivial
    | unit h =>
      obtain ⟨⟨ha, -⟩, ⟨hb, -⟩, ⟨hc, -⟩, ⟨hd, -⟩⟩ := h
      unfold IsSmall
      omega

/-- A character is no surrogate, and can be told by its code point. -/
theorem code_point (c : Char) : c.toNat < 0xD800 ∨ 0xDFFF < c.toNat ∧ c.toNat < 0x110000 := c.valid

theorem toNat_ofNat {n : Nat} (h : n < 0xD800 ∨ 0xDFFF < n ∧ n < 0x110000) :
    (Char.ofNat n).toNat = n := by
  have hvalid : n.isValidChar := h
  rw [Char.ofNat, dif_pos hvalid]
  rfl

theorem isHighSurrogate_iff {code : Nat} :
    isHighSurrogate code ↔ 0xD800 ≤ code ∧ code < 0xDC00 := by
  simp [isHighSurrogate]

theorem isLowSurrogate_iff {code : Nat} :
    isLowSurrogate code ↔ 0xDC00 ≤ code ∧ code < 0xE000 := by
  simp [isLowSurrogate]

/-- A code unit that is no surrogate is a character. -/
theorem decode_unit {code : Nat} (hhigh : ¬ isHighSurrogate code) (hlow : ¬ isLowSurrogate code)
    (ps : List Piece) : decode (.unit code :: ps) = (decode ps).map (Char.ofNat code :: ·) := by
  rw [decode.eq_def]
  dsimp only
  rw [if_neg hhigh, if_neg hlow]
  cases decode ps <;> rfl

/-- Two code units that are a surrogate pair are a character. -/
theorem decode_pair {high low : Nat} (hhigh : isHighSurrogate high) (hlow : isLowSurrogate low)
    (ps : List Piece) :
    decode (.unit high :: .unit low :: ps) =
      (decode ps).map (Char.ofNat (0x10000 + (high - 0xD800) * 0x400 + (low - 0xDC00)) :: ·) := by
  rw [decode.eq_def]
  dsimp only
  rw [if_pos hhigh, if_pos hlow]
  cases decode ps <;> rfl

/-- What encodes a text is decoded as that text. -/
theorem decode_of_encodes {text : List Char} {ps : List Piece} (h : Encodes text ps) :
    decode ps = some text := by
  induction h with
  | nil => rfl
  | char h ih => simp [decode, ih]
  | @unit c cs ps hc h ih =>
    have hpoint := code_point c
    rw [decode_unit (by rw [isHighSurrogate_iff]; omega) (by rw [isLowSurrogate_iff]; omega), ih,
      Char.ofNat_toNat, Option.map_some]
  | @pair c cs ps hc h ih =>
    have hpoint := code_point c
    have hcode : 0x10000 + (0xD800 + (c.toNat - 0x10000) / 0x400 - 0xD800) * 0x400 +
        (0xDC00 + (c.toNat - 0x10000) % 0x400 - 0xDC00) = c.toNat := by
      omega
    rw [decode_pair (by rw [isHighSurrogate_iff]; omega) (by rw [isLowSurrogate_iff]; omega), ih,
      hcode, Char.ofNat_toNat, Option.map_some]

/-- What is decoded as a text encodes it. -/
theorem encodes_of_decode {text : List Char} {ps : List Piece} (hsmall : ∀ p ∈ ps, IsSmall p)
    (h : decode ps = some text) : Encodes text ps := by
  -- by the cases of decoding: a character, a pair of surrogates, three ways to fail, and a unit
  induction ps using decode.induct generalizing text with
  | case1 =>
    cases h
    exact .nil
  | case2 c ps ih =>
    simp only [decode, Option.bind_eq_bind, Option.bind_eq_some_iff, Option.pure_def,
      Option.some.injEq] at h
    obtain ⟨cs, hcs, rfl⟩ := h
    exact .char (ih (fun p hp => hsmall p (List.mem_cons_of_mem _ hp)) hcs)
  | case3 high hhigh low ps hlow ih =>
    rw [decode_pair hhigh hlow, Option.map_eq_some_iff] at h
    obtain ⟨cs, hcs, rfl⟩ := h
    rw [isHighSurrogate_iff] at hhigh
    rw [isLowSurrogate_iff] at hlow
    have htoNat := toNat_ofNat (n := 0x10000 + (high - 0xD800) * 0x400 + (low - 0xDC00)) (by omega)
    have hrest := ih (fun p hp => hsmall p (by simp [hp])) hcs
    have hpair := Encodes.pair (c := Char.ofNat (0x10000 + (high - 0xD800) * 0x400 + (low - 0xDC00)))
      (by omega) hrest
    rw [htoNat] at hpair
    have hhigh' : 0xD800 + (0x10000 + (high - 0xD800) * 0x400 + (low - 0xDC00) - 0x10000) / 0x400 =
        high := by omega
    have hlow' : 0xDC00 + (0x10000 + (high - 0xD800) * 0x400 + (low - 0xDC00) - 0x10000) % 0x400 =
        low := by omega
    rwa [hhigh', hlow'] at hpair
  | case4 high hhigh low ps hlow =>
    simp [decode, hhigh, hlow] at h
  | case5 high ps hhigh hnone =>
    rw [decode, if_pos hhigh] at h
    · cases h
    · exact hnone
  | case6 low ps hhigh hlow =>
    unfold decode at h
    simp [hhigh, hlow] at h
  | case7 code ps hhigh hlow ih =>
    rw [decode_unit hhigh hlow, Option.map_eq_some_iff] at h
    obtain ⟨cs, hcs, rfl⟩ := h
    have hcode : code < 0x10000 := hsmall _ List.mem_cons_self
    rw [isHighSurrogate_iff] at hhigh
    rw [isLowSurrogate_iff] at hlow
    have htoNat := toNat_ofNat (n := code) (by omega)
    have hrest := ih (fun p hp => hsmall p (List.mem_cons_of_mem _ hp)) hcs
    have hunit := Encodes.unit (c := Char.ofNat code) (by omega) hrest
    rwa [htoNat] at hunit

/-- **Text is decoded exactly as it is encoded.** -/
theorem decode_eq_some_iff {text : List Char} {ps : List Piece} (hsmall : ∀ p ∈ ps, IsSmall p) :
    decode ps = some text ↔ Encodes text ps :=
  ⟨encodes_of_decode hsmall, decode_of_encodes⟩

/-! ### Readers -/

/-- A reader reads `a`, and leaves the characters `rest`. -/
def Reads {cs : List Char} {α : Type} (read : Option (Read cs α)) (a : α) (rest : List Char) :
    Prop :=
  read.map (fun r => (r.value, r.rest)) = some (a, rest)

theorem Reads.eq {cs rest : List Char} {α : Type} {read : Option (Read cs α)} {a : α}
    (h : Reads read a rest) : ∃ hlt, read = some ⟨a, rest, hlt⟩ := by
  obtain ⟨⟨b, left, hlt⟩, hread, hparts⟩ := Option.map_eq_some_iff.1 h
  obtain ⟨rfl, rfl⟩ := Prod.mk.inj hparts
  exact ⟨hlt, hread⟩

/-- What is read within other characters is what is read. -/
theorem Reads.within {cs rest outer : List Char} {α β : Type} {read : Option (Read cs α)} {a : α}
    (h : Reads read a rest) (f : α → β) (hle : cs.length ≤ outer.length) :
    Reads (read.map fun r => r.within f outer hle) (f a) rest := by
  obtain ⟨hlt, rfl⟩ := h.eq
  rfl

/-- **A string is read as it is spelled**, up to its closing quote. -/
theorem reads_string {text : Option String} {cs : List Char} (h : SpellsString text cs)
    (rest : List Char) : Reads (string (cs ++ '"' :: rest)) text rest := by
  have hread {ps : List Piece} (hs : SpellsPieces ps cs) :
      Reads (string (cs ++ '"' :: rest)) ((decode ps).map String.ofList) rest := by
    have hpieces := pieces_of_spellsPieces hs rest
    unfold string Reads
    split
    · rename_i ps' rest' heq
      rw [hpieces] at heq
      cases heq
      rfl
    · rename_i heq
      rw [hpieces] at heq
      cases heq
  cases h with
  | text hs h =>
    have hdecode := hread hs
    rwa [(decode_eq_some_iff (isSmall_of_spellsPieces hs)).2 h, Option.map_some,
      String.ofList_toList] at hdecode
  | @unpaired ps _ hs h =>
    have hdecode := hread hs
    have hnone : decode ps = none := by
      refine Option.eq_none_iff_forall_ne_some.2 fun text htext => ?_
      exact h text ((decode_eq_some_iff (isSmall_of_spellsPieces hs)).1 htext)
    rwa [hnone, Option.map_none] at hdecode

/-! ### Numbers -/

/-- No number goes on in these characters. -/
def Ends (rest : List Char) : Prop :=
  ∀ c ∈ rest.head?, ¬ c.isDigit ∧ c ∉ ['.', 'e', 'E']

theorem digits_append {ds rest : List Char} (hd : ∀ c ∈ ds, c.isDigit)
    (hr : ∀ c ∈ rest.head?, ¬ c.isDigit) : digits (ds ++ rest) = (ds, rest) := by
  have hrest : rest.takeWhile Char.isDigit = [] ∧ rest.dropWhile Char.isDigit = rest := by
    cases rest with
    | nil => exact ⟨rfl, rfl⟩
    | cons c rest =>
      have hc : ¬ c.isDigit := hr c rfl
      exact ⟨List.takeWhile_cons_of_neg hc, List.dropWhile_cons_of_neg hc⟩
  unfold digits
  rw [List.takeWhile_append_of_pos hd, List.dropWhile_append_of_pos hd, hrest.1, hrest.2,
    List.append_nil]

theorem whole_append {ds rest : List Char} (hd : IsDigits ds)
    (hzero : ds.head? = some '0' → ds = ['0']) (hr : ∀ c ∈ rest.head?, ¬ c.isDigit) :
    whole (ds ++ rest) = some (ds, rest) := by
  unfold whole
  rw [digits_append hd.2 hr]
  split
  · rename_i heq
    exact absurd (Prod.mk.inj heq).1 hd.1
  · rename_i heq
    obtain ⟨rfl, rfl⟩ := Prod.mk.inj heq
    cases hzero rfl
  · rfl

theorem fraction_append {f cs rest : List Char} (h : SpellsFraction f cs)
    (hr : ∀ c ∈ rest.head?, ¬ c.isDigit ∧ c ≠ '.') : fraction (cs ++ rest) = some (f, rest) := by
  cases h with
  | absent =>
    rw [List.nil_append]
    unfold fraction
    split
    · exact absurd rfl (hr '.' rfl).2
    · rfl
  | point h =>
    rw [List.cons_append, fraction, digits_append h.2 fun c hc => (hr c hc).1]
    simp [h.1]

theorem exponentSign_append {lowers : Bool} {sign cs : List Char} (h : SpellsSign lowers sign)
    (hr : ∀ c ∈ cs.head?, c.isDigit) : exponentSign (sign ++ cs) = (lowers, cs) := by
  cases h with
  | plus | minus => rfl
  | absent =>
    rw [List.nil_append]
    unfold exponentSign
    split
    · exact absurd (hr '-' rfl) (by decide)
    · exact absurd (hr '+' rfl) (by decide)
    · rfl

theorem exponent_append {e : Option (Bool × List Char)} {cs rest : List Char}
    (h : SpellsExponent e cs) (hr : Ends rest) : exponent (cs ++ rest) = some (e, rest) := by
  cases h with
  | absent =>
    rw [List.nil_append]
    unfold exponent
    split
    · exact absurd (by decide) (hr 'e' rfl).2
    · exact absurd (by decide) (hr 'E' rfl).2
    · rfl
  | @marked mark lowers sign ds hmark hsign h =>
    have hhead : ∀ c ∈ (ds ++ rest).head?, c.isDigit := by
      obtain ⟨c, more, rfl⟩ := List.exists_cons_of_ne_nil h.1
      intro d hd
      obtain rfl : c = d := by simpa using hd
      exact h.2 c List.mem_cons_self
    have hdigits : exponentDigits (sign ++ (ds ++ rest)) = some (some (lowers, ds), rest) := by
      unfold exponentDigits
      rw [exponentSign_append hsign hhead]
      simp only [digits_append h.2 fun c hc => (hr c hc).1]
      simp [h.1]
    rw [List.cons_append, List.append_assoc]
    obtain rfl | rfl := hmark
    · exact hdigits
    · exact hdigits

/-- Behind the digits of a fraction stands neither a digit nor a point. -/
theorem head?_exponent {e : Option (Bool × List Char)} {cs rest : List Char}
    (h : SpellsExponent e cs) (hr : Ends rest) :
    ∀ c ∈ (cs ++ rest).head?, ¬ c.isDigit ∧ c ≠ '.' := by
  intro c hc
  cases h with
  | absent => exact ⟨(hr c hc).1, fun h => (hr c hc).2 (by rw [h]; decide)⟩
  | marked hmark hsign h =>
    obtain rfl := Option.some.inj hc
    rcases hmark with rfl | rfl <;> decide

/-- Behind the digits of the whole part stands no digit. -/
theorem head?_fraction {f cs rest : List Char} (h : SpellsFraction f cs)
    (hr : ∀ c ∈ rest.head?, ¬ c.isDigit ∧ c ≠ '.') : ∀ c ∈ (cs ++ rest).head?, ¬ c.isDigit := by
  intro c hc
  cases h with
  | absent => exact (hr c hc).1
  | point h =>
    obtain rfl := Option.some.inj hc
    decide

/-- A number is read as it is spelled behind its sign. -/
theorem unsigned_append {n : Number} {f e rest : List Char} (hwhole : IsDigits n.whole)
    (hzero : n.whole.head? = some '0' → n.whole = ['0']) (hf : SpellsFraction n.fraction f)
    (he : SpellsExponent n.exponent e) (hr : Ends rest) :
    unsigned n.negative (n.whole ++ (f ++ (e ++ rest))) = some (n, rest) := by
  have hexponent := head?_exponent he hr
  have hfraction := head?_fraction hf hexponent
  unfold unsigned
  rw [whole_append hwhole hzero hfraction]
  simp only [Option.bind_eq_bind, Option.bind_some, fraction_append hf hexponent,
    exponent_append he hr]
  rfl

theorem reads_number_minus {n : Number} {cs rest : List Char}
    (h : unsigned true cs = some (n, rest)) : Reads (number ('-' :: cs)) n rest := by
  rw [number, Reads]
  split
  · rename_i heq
    rw [h] at heq
    cases heq
    rfl
  · rename_i heq
    rw [h] at heq
    cases heq

theorem reads_number_plain {n : Number} {cs rest : List Char} (hsign : cs.head? ≠ some '-')
    (h : unsigned false cs = some (n, rest)) : Reads (number cs) n rest := by
  unfold number Reads
  split
  · exact absurd rfl hsign
  · split
    · rename_i heq
      rw [h] at heq
      cases heq
      rfl
    · rename_i heq
      rw [h] at heq
      cases heq

/-- **A number is read as it is spelled**, if it does not go on behind. -/
theorem reads_number {n : Number} {cs rest : List Char} (h : SpellsNumber n cs) (hr : Ends rest) :
    Reads (number (cs ++ rest)) n rest := by
  obtain ⟨hwhole, hzero, hf, he⟩ := h
  rename_i f e
  have hunsigned := unsigned_append hwhole hzero hf he hr
  cases hneg : n.negative with
  | true =>
    have hcs : (if true then ['-'] else []) ++ (n.whole ++ (f ++ e)) ++ rest =
        '-' :: (n.whole ++ (f ++ (e ++ rest))) := by simp
    rw [hcs]
    exact reads_number_minus (hneg ▸ hunsigned)
  | false =>
    have hcs : (if false then ['-'] else []) ++ (n.whole ++ (f ++ e)) ++ rest =
        n.whole ++ (f ++ (e ++ rest)) := by simp
    have hhead : (n.whole ++ (f ++ (e ++ rest))).head? ≠ some '-' := by
      obtain ⟨c, ds, hds⟩ := List.exists_cons_of_ne_nil hwhole.1
      have hc : c.isDigit := hwhole.2 c (hds ▸ List.mem_cons_self)
      rw [hds, List.cons_append, List.head?_cons]
      rintro ⟨⟩
      exact absurd hc (by decide)
    rw [hcs]
    exact reads_number_plain hhead (hneg ▸ hunsigned)

/-! ### Values -/

/-- Blanks in front are left out, and no more. -/
theorem skipBlanks_append {before rest : List Char} (hb : IsBlanks before)
    (hr : ∀ c ∈ rest.head?, c ∉ blanks) : skipBlanks (before ++ rest) = rest := by
  have hblank (c : Char) : isBlank c ↔ c ∈ blanks := by
    simp [isBlank, blanks, or_assoc]
  have hrest : rest.dropWhile isBlank = rest := by
    cases rest with
    | nil => rfl
    | cons c rest => exact List.dropWhile_cons_of_neg (mt (hblank c).1 (hr c rfl))
  unfold skipBlanks
  rw [List.dropWhile_append_of_pos fun c hc => (hblank c).2 (hb c hc), hrest]

section Value

variable {cs rest more : List Char} {j : Json}

theorem reads_value_string {text : Option String} (h : skipBlanks cs = '"' :: more)
    (hs : Reads (string more) text rest) : Reads (value cs) (.string text) rest := by
  rw [value]
  split
  case h_1 heq =>
    obtain ⟨-, rfl⟩ := List.cons.inj (heq.symm.trans h)
    exact hs.within _ _
  all_goals simp_all

theorem reads_value_emptyArray (h : skipBlanks cs = '[' :: more)
    (h' : skipBlanks more = ']' :: rest) : Reads (value cs) (.array []) rest := by
  rw [value]
  split
  case h_2 heq =>
    obtain ⟨-, rfl⟩ := List.cons.inj (heq.symm.trans h)
    dsimp only
    split
    · rename_i heq'
      obtain ⟨-, rfl⟩ := List.cons.inj (heq'.symm.trans h')
      rfl
    · simp_all
  all_goals simp_all

theorem reads_value_array {js : List Json} (h : skipBlanks cs = '[' :: more)
    (hhead : ∀ c ∈ (skipBlanks more).head?, c ≠ ']') (hs : Reads (items more) js rest) :
    Reads (value cs) (.array js) rest := by
  rw [value]
  split
  case h_2 heq =>
    obtain ⟨-, rfl⟩ := List.cons.inj (heq.symm.trans h)
    dsimp only
    split
    · rename_i heq'
      exact absurd rfl (hhead ']' (heq' ▸ rfl))
    · exact hs.within _ _
  all_goals simp_all

theorem reads_value_emptyObject (h : skipBlanks cs = '\x7b' :: more)
    (h' : skipBlanks more = '\x7d' :: rest) : Reads (value cs) (.object []) rest := by
  rw [value]
  split
  case h_3 heq =>
    obtain ⟨-, rfl⟩ := List.cons.inj (heq.symm.trans h)
    dsimp only
    split
    · rename_i heq'
      obtain ⟨-, rfl⟩ := List.cons.inj (heq'.symm.trans h')
      rfl
    · simp_all
  all_goals simp_all

theorem reads_value_object {ms : List (Option String × Json)} (h : skipBlanks cs = '\x7b' :: more)
    (hhead : ∀ c ∈ (skipBlanks more).head?, c ≠ '\x7d') (hs : Reads (members more) ms rest) :
    Reads (value cs) (.object ms) rest := by
  rw [value]
  split
  case h_3 heq =>
    obtain ⟨-, rfl⟩ := List.cons.inj (heq.symm.trans h)
    dsimp only
    split
    · rename_i heq'
      exact absurd rfl (hhead '\x7d' (heq' ▸ rfl))
    · exact hs.within _ _
  all_goals simp_all

theorem reads_value_scalar (hhead : ∀ c ∈ (skipBlanks cs).head?, c ∉ ['"', '[', '\x7b'])
    (hs : Reads (scalar (skipBlanks cs)) j rest) : Reads (value cs) j rest := by
  rw [value]
  split
  case h_4 => exact hs.within id _
  all_goals simp_all

theorem reads_scalar_word (h : word cs = some (j, rest)) : Reads (scalar cs) j rest := by
  unfold scalar Reads
  split
  · rename_i heq
    rw [h] at heq
    cases heq
    rfl
  · rename_i heq
    rw [h] at heq
    cases heq

theorem reads_scalar_number {n : Number} (h : word cs = none) (hs : Reads (number cs) n rest) :
    Reads (scalar cs) (.number n) rest := by
  obtain ⟨hlt, hnumber⟩ := hs.eq
  unfold scalar Reads
  split
  · rename_i heq
    rw [h] at heq
    cases heq
  · rw [hnumber]
    rfl

/-- The last item of an array. -/
theorem reads_items_last (hv : Reads (value cs) j more) (h : skipBlanks more = ']' :: rest) :
    Reads (items cs) [j] rest := by
  obtain ⟨hlt, hvalue⟩ := hv.eq
  rw [items, hvalue]
  dsimp only
  split
  · simp_all
  · rename_i heq
    obtain ⟨-, rfl⟩ := List.cons.inj (heq.symm.trans h)
    rfl
  · simp_all

/-- An item of an array, and the items behind its comma. -/
theorem reads_items_cons {js : List Json} {behind : List Char} (hv : Reads (value cs) j more)
    (h : skipBlanks more = ',' :: behind) (hs : Reads (items behind) js rest) :
    Reads (items cs) (j :: js) rest := by
  obtain ⟨hlt, hvalue⟩ := hv.eq
  rw [items, hvalue]
  dsimp only
  split
  · rename_i heq
    obtain ⟨-, rfl⟩ := List.cons.inj (heq.symm.trans h)
    exact hs.within (j :: ·) _
  · simp_all
  · simp_all

/-- A key, its colon and its value. -/
theorem reads_member {key : Option String} {behind after : List Char}
    (h : skipBlanks cs = '"' :: more) (hkey : Reads (string more) key behind)
    (hcolon : skipBlanks behind = ':' :: after) (hv : Reads (value after) j rest) :
    Reads (member cs) (key, j) rest := by
  obtain ⟨hlt, hstring⟩ := hkey.eq
  rw [member]
  split
  · rename_i heq
    obtain ⟨-, rfl⟩ := List.cons.inj (heq.symm.trans h)
    rw [hstring]
    dsimp only
    split
    · rename_i heq'
      obtain ⟨-, rfl⟩ := List.cons.inj (heq'.symm.trans hcolon)
      exact hv.within (key, ·) _
    · simp_all
  · simp_all

/-- The last member of an object. -/
theorem reads_members_last {m : Option String × Json} (hm : Reads (member cs) m more)
    (h : skipBlanks more = '\x7d' :: rest) : Reads (members cs) [m] rest := by
  obtain ⟨hlt, hmember⟩ := hm.eq
  rw [members, hmember]
  dsimp only
  split
  · simp_all
  · rename_i heq
    obtain ⟨-, rfl⟩ := List.cons.inj (heq.symm.trans h)
    rfl
  · simp_all

/-- A member of an object, and the members behind its comma. -/
theorem reads_members_cons {m : Option String × Json} {ms : List (Option String × Json)}
    {behind : List Char} (hm : Reads (member cs) m more) (h : skipBlanks more = ',' :: behind)
    (hs : Reads (members behind) ms rest) : Reads (members cs) (m :: ms) rest := by
  obtain ⟨hlt, hmember⟩ := hm.eq
  rw [members, hmember]
  dsimp only
  split
  · rename_i heq
    obtain ⟨-, rfl⟩ := List.cons.inj (heq.symm.trans h)
    exact hs.within (m :: ·) _
  · simp_all
  · simp_all

end Value

/-- The characters that hold a value together. No number goes on in them, and no blank is
among them. -/
def structural : List Char := ['[', ']', '\x7b', '\x7d', ',', ':', '"']

theorem ends_structural {c : Char} (h : c ∈ structural) (rest : List Char) : Ends (c :: rest) := by
  have hall : ∀ c ∈ structural, ¬ c.isDigit ∧ c ∉ ['.', 'e', 'E'] := by simp [structural]
  rintro d ⟨⟩
  exact hall c h

theorem skipBlanks_structural {before : List Char} {c : Char} (hb : IsBlanks before)
    (h : c ∈ structural) (rest : List Char) : skipBlanks (before ++ c :: rest) = c :: rest := by
  have hall : ∀ c ∈ structural, c ∉ blanks := by simp [structural, blanks]
  refine skipBlanks_append hb ?_
  rintro d ⟨⟩
  exact hall c h

/-- Blanks and something in which no number goes on end a number. -/
theorem ends_append {after rest : List Char} (h : IsBlanks after) (hr : Ends rest) :
    Ends (after ++ rest) := by
  have hall : ∀ c ∈ blanks, ¬ c.isDigit ∧ c ∉ ['.', 'e', 'E'] := by simp [blanks]
  cases after with
  | nil => exact hr
  | cons c after =>
    rintro d ⟨⟩
    exact hall c (h c List.mem_cons_self)

/-- A value is read wherever it stands: behind any blanks, and in front of anything that
no number goes on in. -/
def ReadsAnywhere (j : Json) (cs : List Char) : Prop :=
  ∀ before rest, IsBlanks before → Ends rest → Reads (value (before ++ (cs ++ rest))) j rest

theorem ReadsAnywhere.padded {j : Json} {p : Padded} {rest : List Char}
    (h : ReadsAnywhere j p.core) (hr : Ends rest) :
    Reads (value (p.chars ++ rest)) j (p.after ++ rest) := by
  have hchars : p.chars ++ rest = p.before ++ (p.core ++ (p.after ++ rest)) := by
    simp [Padded.chars]
  rw [hchars]
  exact h _ _ p.before_blank (ends_append p.after_blank hr)

theorem separate_cons {part : List Char} {parts : List (List Char)} (h : parts ≠ []) :
    separate (part :: parts) = part ++ ',' :: separate parts := by
  unfold separate
  rw [List.intercalate_cons_of_ne_nil h, List.append_assoc, List.singleton_append]

/-- Separated parts start with the first of them. -/
theorem separate_append (part : List Char) (parts : List (List Char)) (rest : List Char) :
    ∃ tail, separate (part :: parts) ++ rest = part ++ tail := by
  by_cases h : parts = []
  · rw [h, separate, List.intercalate_singleton]
    exact ⟨rest, rfl⟩
  · rw [separate_cons h, List.append_assoc]
    exact ⟨_, rfl⟩

/-- The items of an array are read as they are spelled. -/
theorem reads_items {is : List Item} (hne : is ≠ [])
    (h : ∀ i ∈ is, ReadsAnywhere i.value i.text.core) (rest : List Char) :
    Reads (items (separate (is.map (·.text.chars)) ++ ']' :: rest)) (is.map Item.value) rest := by
  induction is with
  | nil => exact absurd rfl hne
  | cons i is ih =>
    obtain ⟨hi, his⟩ := List.forall_mem_cons.1 h
    by_cases hlast : is = []
    · subst hlast
      have hread := hi.padded (ends_structural (by decide : ']' ∈ structural) rest)
      rw [List.map_singleton, List.map_singleton, separate, List.intercalate_singleton]
      exact reads_items_last hread (skipBlanks_structural i.text.after_blank (by decide) rest)
    · have hmap : is.map (·.text.chars) ≠ [] := by simpa using hlast
      rw [List.map_cons, List.map_cons, separate_cons hmap, List.append_assoc, List.cons_append]
      have hread := hi.padded (ends_structural (by decide : ',' ∈ structural)
        (separate (is.map (·.text.chars)) ++ ']' :: rest))
      exact reads_items_cons hread (skipBlanks_structural i.text.after_blank (by decide) _)
        (ih hlast his)

/-- A member of an object is read as it is spelled. -/
theorem reads_member_chars {m : Member} {rest : List Char}
    (hkey : SpellsString m.key m.keyText.core) (hvalue : ReadsAnywhere m.value m.valueText.core)
    (hr : Ends rest) :
    Reads (member (m.chars ++ rest)) m.pair (m.valueText.after ++ rest) := by
  have hchars : m.chars ++ rest =
      m.keyText.before ++ '"' :: (m.keyText.core ++
        '"' :: (m.keyText.after ++ ':' :: (m.valueText.chars ++ rest))) := by
    simp [Member.chars]
  rw [hchars]
  exact reads_member (skipBlanks_structural m.keyText.before_blank (by decide) _)
    (reads_string hkey _) (skipBlanks_structural m.keyText.after_blank (by decide) _)
    (hvalue.padded hr)

/-- The members of an object are read as they are spelled. -/
theorem reads_members {ms : List Member} (hne : ms ≠ [])
    (hkeys : ∀ m ∈ ms, SpellsString m.key m.keyText.core)
    (hvalues : ∀ m ∈ ms, ReadsAnywhere m.value m.valueText.core) (rest : List Char) :
    Reads (members (separate (ms.map Member.chars) ++ '\x7d' :: rest)) (ms.map Member.pair)
      rest := by
  induction ms with
  | nil => exact absurd rfl hne
  | cons m ms ih =>
    obtain ⟨hkey, hkeys⟩ := List.forall_mem_cons.1 hkeys
    obtain ⟨hvalue, hvalues⟩ := List.forall_mem_cons.1 hvalues
    by_cases hlast : ms = []
    · subst hlast
      have hread := reads_member_chars hkey hvalue
        (ends_structural (by decide : '\x7d' ∈ structural) rest)
      rw [List.map_singleton, List.map_singleton, separate, List.intercalate_singleton]
      exact reads_members_last hread (skipBlanks_structural m.valueText.after_blank (by decide) rest)
    · have hmap : ms.map Member.chars ≠ [] := by simpa using hlast
      rw [List.map_cons, List.map_cons, separate_cons hmap, List.append_assoc, List.cons_append]
      have hread := reads_member_chars hkey hvalue (ends_structural (by decide : ',' ∈ structural)
        (separate (ms.map Member.chars) ++ '\x7d' :: rest))
      exact reads_members_cons hread (skipBlanks_structural m.valueText.after_blank (by decide) _)
        (ih hlast hkeys hvalues)

/-- A word is read as its value. -/
theorem readsAnywhere_of_word {j : Json} {c : Char} {cs : List Char}
    (hc : c ∉ blanks ∧ c ∉ ['"', '[', '\x7b']) (h : ∀ rest, word (c :: cs ++ rest) = some (j, rest)) :
    ReadsAnywhere j (c :: cs) := by
  intro before rest hb hr
  have hstart : skipBlanks (before ++ (c :: cs ++ rest)) = c :: cs ++ rest := by
    refine skipBlanks_append hb ?_
    rintro d ⟨⟩
    exact hc.1
  refine reads_value_scalar ?_ ?_
  · rw [hstart]
    rintro d ⟨⟩
    exact hc.2
  · rw [hstart]
    exact reads_scalar_word (h rest)

/-- A number is read in front of anything in which it does not go on. -/
theorem readsAnywhere_of_number {n : Number} {cs : List Char} (h : SpellsNumber n cs) :
    ReadsAnywhere (.number n) cs := by
  intro before rest hb hr
  obtain ⟨c, more, rfl, hc⟩ := h.head
  have hstart : skipBlanks (before ++ (c :: more ++ rest)) = c :: more ++ rest := by
    refine skipBlanks_append hb ?_
    rintro d ⟨⟩
    rcases hc with rfl | hc
    · decide
    · exact not_mem_blanks_of_isDigit hc
  -- neither a sign nor a digit starts any other value
  have hhead {d : Char} (hd : d ≠ '-') (hdigit : ¬ d.isDigit) : c ≠ d := by
    rintro rfl
    exact hc.elim hd hdigit
  have hword : word (c :: more ++ rest) = none := by
    unfold word
    split
    · rename_i heq
      exact absurd (List.cons.inj heq).1 (hhead (by decide) (by decide))
    · rename_i heq
      exact absurd (List.cons.inj heq).1 (hhead (by decide) (by decide))
    · rename_i heq
      exact absurd (List.cons.inj heq).1 (hhead (by decide) (by decide))
    · rfl
  refine reads_value_scalar ?_ ?_
  · rw [hstart]
    rintro d ⟨⟩
    have hquote := hhead (by decide : '"' ≠ '-') (by decide)
    have hbracket := hhead (by decide : '[' ≠ '-') (by decide)
    have hbrace := hhead (by decide : '\x7b' ≠ '-') (by decide)
    simp [hquote, hbracket, hbrace]
  · rw [hstart]
    exact reads_scalar_number hword (reads_number h hr)

/-- **Every value is read as it is spelled**, wherever it stands. -/
theorem reads_value {j : Json} {cs : List Char} (h : Spells j cs) : ReadsAnywhere j cs := by
  induction h with
  | null => exact readsAnywhere_of_word (by decide) fun _ => rfl
  | yes => exact readsAnywhere_of_word (by decide) fun _ => rfl
  | no => exact readsAnywhere_of_word (by decide) fun _ => rfl
  | number h => exact readsAnywhere_of_number h
  | string h =>
    intro before rest hb hr
    rw [List.cons_append, List.append_assoc, List.singleton_append]
    exact reads_value_string (skipBlanks_structural hb (by decide) _) (reads_string h rest)
  | emptyArray h =>
    intro before rest hb hr
    rw [List.cons_append, List.append_assoc, List.singleton_append]
    exact reads_value_emptyArray (skipBlanks_structural hb (by decide) _)
      (skipBlanks_structural h (by decide) rest)
  | @array is hne h ih =>
    intro before rest hb hr
    rw [List.cons_append, List.append_assoc, List.singleton_append]
    refine reads_value_array (skipBlanks_structural hb (by decide) _) ?_ (reads_items hne ih rest)
    -- the first item does not start with the closing bracket
    obtain ⟨i, is, rfl⟩ := List.exists_cons_of_ne_nil hne
    obtain ⟨c, more, hcore, hblank, hclose⟩ := (h i List.mem_cons_self).head
    obtain ⟨tail, htail⟩ := separate_append i.text.chars (is.map (·.text.chars)) (']' :: rest)
    rw [List.map_cons, htail, Padded.chars, hcore, List.append_assoc,
      skipBlanks_append i.text.before_blank (by rintro d ⟨⟩; exact hblank)]
    rintro d ⟨⟩
    exact hclose
  | emptyObject h =>
    intro before rest hb hr
    rw [List.cons_append, List.append_assoc, List.singleton_append]
    exact reads_value_emptyObject (skipBlanks_structural hb (by decide) _)
      (skipBlanks_structural h (by decide) rest)
  | @object ms hne hkeys hvalues ih =>
    intro before rest hb hr
    rw [List.cons_append, List.append_assoc, List.singleton_append]
    refine reads_value_object (skipBlanks_structural hb (by decide) _) ?_
      (reads_members hne hkeys ih rest)
    -- the first member starts with a quote
    obtain ⟨m, ms, rfl⟩ := List.exists_cons_of_ne_nil hne
    obtain ⟨tail, htail⟩ := separate_append m.chars (ms.map Member.chars) ('\x7d' :: rest)
    rw [List.map_cons, htail, Member.chars, List.append_assoc, List.cons_append,
      skipBlanks_structural m.keyText.before_blank (by decide)]
    rintro d ⟨⟩
    decide

/-- **A JSON text is read as the value that it spells.** -/
theorem ofText?_of_isText {text : String} {j : Json} (h : IsText text j) :
    ofText? text = some j := by
  obtain ⟨p, htext, hspells⟩ := h
  have hnil : Ends [] := fun c hc => absurd hc (by simp)
  have hread := (reads_value hspells).padded hnil
  rw [List.append_nil, ← htext, List.append_nil] at hread
  obtain ⟨hlt, hvalue⟩ := hread.eq
  have hempty : ∀ c ∈ ([] : List Char).head?, c ∉ blanks := fun c hc => absurd hc (by simp)
  have hafter := skipBlanks_append p.after_blank hempty
  rw [List.append_nil] at hafter
  unfold ofText?
  rw [hvalue]
  simp [hafter]

end Formulary.Json.Reader
