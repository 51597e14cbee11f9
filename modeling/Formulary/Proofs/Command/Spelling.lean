import Formulary.Command.Arguments
import Formulary.Proofs.Token.Lexeme

/-!
# How options are spelled

An option is called by its name or by a letter, and its value stands in the next argument or in
the same one. This is said here by relations without a reader, and the reader of options is
proved to take arguments exactly as these have it: it reads the options that are spelled, up to
the argument that is none of them or the two dashes that end them.

* `Setting.Named`, `Setting.Lettered`: **what options are called.**
* `Setting.Spells`: how one option is spelled with its value.
* `classify_of_calls`, `calls_of_classify`: one argument calls the option it is read as.
* `scan_spells`: one option is read off the front of arguments, and leaves the others.
* `scan_eq_ok_iff` (any arguments): **options are read as they are spelled, up to where they
  end.**
-/

namespace Formulary.Command

/-! ### Names and spellings -/

/-- **What options are called.** -/
inductive Setting.Named : Setting → String → Prop
  | limits : Named .limitsFile "--limits"
  | maxLength : Named (.limit .formulaLength) "--max-length"
  | maxTokens : Named (.limit .tokenCount) "--max-tokens"
  | maxDepth : Named (.limit .treeDepth) "--max-depth"
  | maxSteps : Named (.limit .evalSteps) "--max-steps"
  | var : Named .name "--var"
  | bind : Named .binding "--bind"

/-- **What options are called by a letter.** -/
inductive Setting.Lettered : Setting → String → Prop
  | var : Lettered .name "-v"
  | bind : Lettered .binding "-b"

/-- An argument that is no option: it does not start with a dash, or is one. -/
def IsPlain (argument : String) : Prop := ∀ c cs, argument.toList ≠ '-' :: c :: cs

/-- **How an option is spelled with its value**: in two arguments, or in one, behind an equals
sign or directly behind the letter. A value that could be taken for an option does not stand in
an argument of its own. -/
inductive Setting.Spells (s : Setting) (value : String) : List String → Prop
  | apart {name : String} (hname : s.Named name ∨ s.Lettered name) (hvalue : IsPlain value) :
      Spells s value [name, value]
  | equals {name : String} (hname : s.Named name ∨ s.Lettered name) :
      Spells s value [name ++ "=" ++ value]
  | joined {letter : String} (hletter : s.Lettered letter) {c : Char} {cs : List Char}
      (hvalue : value.toList = c :: cs) (hc : c ≠ '=') : Spells s value [letter ++ value]

/-! ### One argument -/

variable {settings : List Setting} {s : Setting} {argument value : String}

theorem Setting.named_iff {name : String} : s.Named name ↔ name = "--" ++ s.long := by
  constructor
  · intro h
    cases h <;> decide
  · rintro rfl
    cases s with
    | limitsFile => exact .limits
    | limit field =>
      cases field with
      | formulaLength => exact .maxLength
      | tokenCount => exact .maxTokens
      | treeDepth => exact .maxDepth
      | evalSteps => exact .maxSteps
    | name => exact .var
    | binding => exact .bind

theorem Setting.lettered_iff {letter : String} :
    s.Lettered letter ↔ ∃ c, s.letter? = some c ∧ letter.toList = ['-', c] := by
  constructor
  · intro h
    cases h with
    | var => exact ⟨'v', rfl, by decide⟩
    | bind => exact ⟨'b', rfl, by decide⟩
  · rintro ⟨c, hc, hletter⟩
    obtain rfl := String.ofList_toList.symm.trans (congrArg String.ofList hletter)
    cases s with
    | limitsFile | limit => cases hc
    | name =>
      cases hc
      exact .var
    | binding =>
      cases hc
      exact .bind

theorem ne_equals {cs : List Char} (h : '=' ∉ cs) : ∀ c ∈ cs, (c != '=') = true := by
  intro c hc
  simpa using fun heq : c = '=' => h (heq ▸ hc)

/-- All options. -/
theorem Setting.mem_all (s : Setting) : s ∈ .name :: .binding :: globalSettings := by
  cases s with
  | limitsFile | name | binding => decide
  | limit field => cases field <;> decide

/-- A name has a first character, and no equals sign. -/
theorem Setting.long_spec (s : Setting) : s.long.toList ≠ [] ∧ '=' ∉ s.long.toList := by
  have hall : ∀ s ∈ .name :: .binding :: globalSettings,
      s.long.toList ≠ [] ∧ '=' ∉ s.long.toList := by decide
  exact hall s s.mem_all

/-- No two options have one name. -/
theorem Setting.eq_of_long {s s' : Setting} (h : s.long = s'.long) : s = s' := by
  have hall : ∀ s ∈ .name :: .binding :: globalSettings,
      ∀ s' ∈ .name :: .binding :: globalSettings, s.long = s'.long → s = s' := by decide
  exact hall s s.mem_all s' s'.mem_all h

/-- No two options have one letter. -/
theorem Setting.eq_of_letter {s s' : Setting} {c : Char} (h : s.letter? = some c)
    (h' : s'.letter? = some c) : s = s' := by
  have hall : ∀ s ∈ .name :: .binding :: globalSettings,
      ∀ s' ∈ .name :: .binding :: globalSettings, s.letter? = s'.letter? →
        s.letter? ≠ none → s = s' := by decide
  exact hall s s.mem_all s' s'.mem_all (h.trans h'.symm) (by simp [h])

/-- The option that is found is the one that there is. -/
theorem find?_eq_some_of_mem {p : Setting → Bool} (hs : s ∈ settings) (hp : p s)
    (hunique : ∀ s', p s' → s' = s) : settings.find? p = some s := by
  obtain ⟨s', hs'⟩ := Option.isSome_iff_exists.1 (List.find?_isSome.2 ⟨s, hs, hp⟩)
  rw [hs', hunique s' (List.find?_some hs')]

/-- Characters that call an option and go on: behind its name with nothing or an equals sign,
behind its letter with anything. -/
inductive Setting.Calls (s : Setting) : List Char → List Char → Prop
  | long {name : String} {tail : List Char} (hname : s.Named name)
      (htail : ∀ c ∈ tail.head?, c = '=') : Calls s (name.toList ++ tail) tail
  | letter {letter : String} (hletter : s.Lettered letter) (tail : List Char) :
      Calls s (letter.toList ++ tail) tail

theorem classify_long {c : Char} {cs : List Char} (h : argument.toList = '-' :: '-' :: c :: cs) :
    classify settings argument =
      match settings.find? (·.long == String.ofList ((c :: cs).takeWhile (· != '='))) with
      | some s => .setting s (attached ((c :: cs).dropWhile (· != '=')))
      | none => .unknown := by
  rw [classify, h]
  rfl

theorem classify_letter {c : Char} {cs : List Char} (h : argument.toList = '-' :: c :: cs)
    (hc : c ≠ '-') :
    classify settings argument =
      match settings.find? (·.letter? == some c) with
      | some s => .setting s (attached cs)
      | none => .unknown := by
  rw [classify, h]
  split
  · simp_all
  · simp_all
  · rename_i heq
    cases heq
    rfl
  · simp_all

/-- What calls an option is read as that option, -/
theorem classify_of_calls {tail : List Char} (hs : s ∈ settings)
    (h : s.Calls argument.toList tail) :
    classify settings argument = .setting s (attached tail) := by
  generalize hcs : argument.toList = cs at h
  cases h with
  | long hname htail =>
    obtain rfl := Setting.named_iff.1 hname
    obtain ⟨hne, hno⟩ := s.long_spec
    obtain ⟨c, cs, hlong⟩ := List.exists_cons_of_ne_nil hne
    have htail' : ∀ c ∈ tail.head?, ¬ (c != '=') = true := by simpa using htail
    have htake := (Lexer.takeWhile_append_eq_iff _ _).2 ⟨ne_equals hno, htail'⟩
    have hdrop := Lexer.dropWhile_append_eq (ne_equals hno) htail'
    have hfind : settings.find? (·.long == s.long) = some s :=
      find?_eq_some_of_mem hs (by simp) fun s' hs' => Setting.eq_of_long (by simpa using hs')
    rw [String.toList_append, hlong] at hcs
    rw [hlong, List.cons_append] at htake hdrop
    have hcs' : argument.toList = '-' :: '-' :: c :: (cs ++ tail) := hcs
    rw [classify_long hcs', htake, hdrop, ← hlong, String.ofList_toList, hfind]
  | letter hletter tail =>
    obtain ⟨c, hc, hname⟩ := Setting.lettered_iff.1 hletter
    have hne : c ≠ '-' := by
      rintro rfl
      cases s <;> cases hc
    have hfind : settings.find? (·.letter? == some c) = some s :=
      find?_eq_some_of_mem hs (by simp [hc]) fun s' hs' =>
        Setting.eq_of_letter (by simpa using hs') hc
    rw [hname] at hcs
    have hcs' : argument.toList = '-' :: c :: tail := hcs
    rw [classify_letter hcs' hne, hfind]

/-- and nothing else is. -/
theorem calls_of_classify {value? : Option String}
    (h : classify settings argument = .setting s value?) :
    s ∈ settings ∧ ∃ tail, s.Calls argument.toList tail ∧ attached tail = value? := by
  unfold classify at h
  split at h
  · cases h
  · rename_i cs _ hcs
    dsimp only at h
    split at h
    · rename_i s' hfind
      cases h
      have hlong : s.long = String.ofList (cs.takeWhile (· != '=')) := by
        simpa using List.find?_some hfind
      have hname : s.long.toList = cs.takeWhile (· != '=') := by rw [hlong, String.toList_ofList]
      obtain ⟨-, hhead⟩ := (Lexer.takeWhile_append_eq_iff (cs.takeWhile (· != '='))
        (cs.dropWhile (· != '='))).1 (by rw [List.takeWhile_append_dropWhile])
      refine ⟨List.mem_of_find?_eq_some hfind, _, ?_, rfl⟩
      have hargument : argument.toList =
          ("--" ++ s.long).toList ++ cs.dropWhile (· != '=') := by
        rw [hcs, String.toList_append, hname, List.append_assoc, List.takeWhile_append_dropWhile]
        rfl
      rw [hargument]
      exact .long (Setting.named_iff.2 rfl) (by simpa using hhead)
    · cases h
  · rename_i c cs _ _ hcs
    split at h
    · rename_i s' hfind
      cases h
      have hletter : s.letter? = some c := by simpa using List.find?_some hfind
      refine ⟨List.mem_of_find?_eq_some hfind, cs, ?_, rfl⟩
      have hargument : argument.toList = (String.ofList ['-', c]).toList ++ cs := by
        rw [hcs, String.toList_ofList]
        rfl
      rw [hargument]
      exact .letter (Setting.lettered_iff.2 ⟨c, hletter, String.toList_ofList⟩) cs
    · cases h
  · cases h

theorem eq_of_classify_escape (h : classify settings argument = .escape) : argument = "--" := by
  unfold classify at h
  split at h
  · rename_i hcs
    exact String.toList_inj.1 hcs
  · dsimp only at h
    split at h <;> cases h
  · split at h <;> cases h
  · cases h

theorem classify_eq_plain_iff {text : String} :
    classify settings argument = .plain text ↔ IsPlain argument ∧ argument = text := by
  unfold classify IsPlain
  split
  · rename_i hcs
    simp [hcs]
  · rename_i cs hcs
    dsimp only
    split <;> simp [hcs]
  · rename_i c cs hcs
    split <;> simp [hcs]
  · rename_i hplain
    simpa using fun _ => hplain

theorem attached_eq_none_iff {tail : List Char} : attached tail = none ↔ tail = [] := by
  unfold attached
  split <;> simp_all

theorem attached_equals (value : String) : attached ('=' :: value.toList) = some value := by
  rw [attached, String.ofList_toList]

theorem attached_joined {c : Char} {cs : List Char} (hvalue : value.toList = c :: cs)
    (hc : c ≠ '=') : attached value.toList = some value := by
  have hne : ∀ rest, c :: cs = '=' :: rest → False := fun rest h => hc (List.cons.inj h).1
  rw [hvalue, attached, ← hvalue, String.ofList_toList]
  · exact nofun
  · exact hne

/-- A name or a letter calls an option, and so it does in front of an equals sign. -/
theorem Setting.calls_of_named {name : String} (h : s.Named name ∨ s.Lettered name)
    (tail : List Char) (htail : ∀ c ∈ tail.head?, c = '=') :
    s.Calls (name.toList ++ tail) tail := by
  rcases h with h | h
  · exact .long h htail
  · exact .letter h tail

theorem Setting.named_of_calls {name : String} (h : s.Calls name.toList []) :
    s.Named name ∨ s.Lettered name := by
  generalize hcs : name.toList = cs at h
  cases h with
  | long hname =>
    rw [List.append_nil, String.toList_inj] at hcs
    exact .inl (hcs ▸ hname)
  | letter hletter =>
    rw [List.append_nil, String.toList_inj] at hcs
    exact .inr (hcs ▸ hletter)

/-- A value in the same argument as its option. -/
theorem Setting.spells_of_calls {tail : List Char} (h : s.Calls argument.toList tail)
    (hvalue : attached tail = some value) : s.Spells value [argument] := by
  -- behind an equals sign the name or the letter calls the option
  have hequals {name : String} (hname : s.Named name ∨ s.Lettered name) {cs : List Char}
      (htail : tail = '=' :: cs) (hcs : argument.toList = name.toList ++ tail) :
      s.Spells value [argument] := by
    subst htail
    obtain rfl : String.ofList cs = value := Option.some.inj hvalue
    have hargument : argument = name ++ "=" ++ String.ofList cs := by
      rw [← String.toList_inj, hcs]
      simp
    rw [hargument]
    exact .equals hname
  generalize hcs : argument.toList = cs at h
  cases h with
  | long hname htail =>
    cases tail with
    | nil => cases hvalue
    | cons c tail =>
      obtain rfl := htail c rfl
      exact hequals (.inl hname) rfl hcs
  | @letter letter hletter tail =>
    cases tail with
    | nil => cases hvalue
    | cons c tail =>
      by_cases hc : c = '='
      · subst hc
        exact hequals (.inr hletter) rfl hcs
      · have hjoined := attached_joined (String.toList_ofList (l := c :: tail)) hc
        rw [String.toList_ofList, hvalue, Option.some.injEq] at hjoined
        subst hjoined
        have hargument : argument = letter ++ String.ofList (c :: tail) := by
          rw [← String.toList_inj, hcs, String.toList_append, String.toList_ofList]
        rw [hargument]
        exact .joined hletter String.toList_ofList hc

theorem startsWithDash_iff : startsWithDash value = false ↔ IsPlain value := by
  unfold startsWithDash IsPlain
  split
  · rename_i c cs hcs
    simp [hcs]
  · rename_i h
    simpa using h

/-! ### One argument behind the other -/

/-- Where options end: at the end, in front of an argument that is none, or with two dashes. -/
inductive Stops : List String → Bool → List String → Prop
  | escape (rest : List String) : Stops ("--" :: rest) true rest
  | plain {rest : List String} (h : ∀ word ∈ rest.head?, IsPlain word) : Stops rest false rest

/-- Arguments that spell options, one behind the other. -/
inductive Spelled (Allowed : Setting → Prop) : List (Setting × String) → List String → Prop
  | nil : Spelled Allowed [] []
  | cons {s : Setting} {value : String} {words rest : List String}
      {options : List (Setting × String)} (hs : Allowed s) (h : s.Spells value words)
      (hrest : Spelled Allowed options rest) :
      Spelled Allowed ((s, value) :: options) (words ++ rest)

/-- One option is read off the front, and leaves the arguments behind it. -/
theorem scan_spells (hs : s ∈ settings) {words : List String} (h : s.Spells value words)
    (rest : List String) :
    scan settings (words ++ rest) = (scan settings rest).map (·.prepend s value) := by
  -- where the value stands in the argument of the option
  have hone {argument : String} {tail : List Char} (hcalls : s.Calls argument.toList tail)
      (hvalue : attached tail = some value) :
      scan settings ([argument] ++ rest) = (scan settings rest).map (·.prepend s value) := by
    have hclass := classify_of_calls hs hcalls
    rw [hvalue] at hclass
    rw [List.singleton_append, scan, hclass]
  cases h with
  | @apart name hname hvalue =>
    have hcalls : s.Calls name.toList [] := by
      have h := Setting.calls_of_named hname [] nofun
      rwa [List.append_nil] at h
    have hclass := classify_of_calls hs hcalls
    rw [attached] at hclass
    rw [List.cons_append, List.singleton_append, scan, hclass]
    dsimp only
    rw [startsWithDash_iff.2 hvalue]
    rfl
  | @equals name hname =>
    refine hone ?_ (attached_equals value)
    have h := Setting.calls_of_named hname ('=' :: value.toList) (by simp)
    simpa using h
  | @joined letter hletter c cs hvalue hc =>
    refine hone ?_ (attached_joined hvalue hc)
    rw [String.toList_append]
    exact .letter hletter _

theorem scan_stops {back rest : List String} {escaped : Bool} (h : Stops back escaped rest) :
    scan settings back = .ok ⟨[], escaped, rest⟩ := by
  cases h with
  | escape => rfl
  | plain h =>
    cases back with
    | nil => rfl
    | cons word rest => rw [scan, classify_eq_plain_iff.2 ⟨h word rfl, rfl⟩]

/-- **Options as they are spelled, up to where they end.** -/
def Scanned.IsOf (scanned : Scanned) (settings : List Setting) (arguments : List String) : Prop :=
  ∃ front back, arguments = front ++ back ∧ Spelled (· ∈ settings) scanned.settings front ∧
    Stops back scanned.escaped scanned.rest

/-- One more option in front. -/
theorem Scanned.IsOf.prepend {scanned : Scanned} {words rest : List String} (hs : s ∈ settings)
    (hspells : s.Spells value words) (h : scanned.IsOf settings rest) :
    (scanned.prepend s value).IsOf settings (words ++ rest) := by
  obtain ⟨front, back, rfl, hfront, hback⟩ := h
  exact ⟨words ++ front, back, (List.append_assoc ..).symm, .cons hs hspells hfront, hback⟩

/-- What is read is spelled so. -/
theorem isOf_of_scan {arguments : List String} {scanned : Scanned}
    (h : scan settings arguments = .ok scanned) : scanned.IsOf settings arguments := by
  -- the options behind the first are read first
  have hprepend {s : Setting} {value : String} {words rest : List String} (hs : s ∈ settings)
      (hspells : s.Spells value words)
      (ih : ∀ {scanned}, scan settings rest = .ok scanned → scanned.IsOf settings rest)
      {scanned : Scanned} (h : (scan settings rest).map (·.prepend s value) = .ok scanned) :
      scanned.IsOf settings (words ++ rest) := by
    cases hrest : scan settings rest with
    | error e =>
      rw [hrest] at h
      cases h
    | ok inner =>
      rw [hrest] at h
      cases h
      exact (ih hrest).prepend hs hspells
  fun_induction scan generalizing scanned with
  | case1 =>
    cases h
    exact ⟨[], [], rfl, .nil, .plain nofun⟩
  | case2 argument rest text hclass =>
    cases h
    exact ⟨[], _, rfl, .nil, .plain fun word hword =>
      Option.some.inj hword ▸ (classify_eq_plain_iff.1 hclass).1⟩
  | case3 argument rest hclass =>
    cases h
    obtain rfl := eq_of_classify_escape hclass
    exact ⟨[], _, rfl, .nil, .escape rest⟩
  | case4 | case6 | case7 => cases h
  | case5 argument rest s value hclass ih =>
    obtain ⟨hs, tail, hcalls, hvalue⟩ := calls_of_classify hclass
    exact hprepend hs (Setting.spells_of_calls hcalls hvalue) ih h
  | case8 argument s hclass value rest hdash ih =>
    obtain ⟨hs, tail, hcalls, hvalue⟩ := calls_of_classify hclass
    obtain rfl := attached_eq_none_iff.1 hvalue
    have hplain : IsPlain value := startsWithDash_iff.1 (Bool.of_not_eq_true hdash)
    exact hprepend hs (.apart (Setting.named_of_calls hcalls) hplain) ih h

/-- **Options are read as they are spelled**, up to where they end. -/
theorem scan_eq_ok_iff {arguments : List String} {scanned : Scanned} :
    scan settings arguments = .ok scanned ↔ scanned.IsOf settings arguments := by
  refine ⟨isOf_of_scan, ?_⟩
  rintro ⟨front, back, rfl, hfront, hback⟩
  obtain ⟨options, escaped, rest⟩ := scanned
  dsimp only at hfront hback
  induction hfront with
  | nil => exact scan_stops hback
  | cons hs hspells _ ih =>
    rw [List.append_assoc, scan_spells hs hspells, ih]
    rfl

end Formulary.Command
