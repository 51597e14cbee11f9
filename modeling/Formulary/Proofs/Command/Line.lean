import Mathlib.Data.List.Forall2
import Mathlib.Data.List.TakeWhile
import Formulary.Proofs.Command.Spelling

/-!
# The command lines that are accepted

A command line is put together from options, the name of a subcommand and a formula. What it
asks for follows from what its options give, however they are spelled: each limit that is given,
behind the subcommand or else in front of it, and all names and all bindings in the order in
which they stand. The command lines are exactly what is accepted, and nothing that they give is
dropped or mistaken for another thing.

* `Text.natural?_eq_some_iff`, `trim_eq_iff`, `binding?_eq_some_iff`: the values that are read.
* `Gives`: **what an option gives with its value.**
* `Options.add_eq_ok_iff`: one option adds what it gives, if that repeats nothing.
* `Options.ofSettings_eq_ok_iff` (any options): what all of them come to, by induction.
* `Line`, `Line.IsWrittenIn`: **a command line, and the arguments that it is written in.**
* `Line.invocation`: **what a command line asks for.**
* `ofArguments_eq_ok_iff` (any arguments): **what is accepted is a command line, and is taken
  for what that asks for.**
-/

namespace Formulary

-- `^` on natural numbers is that of the core library, whatever else is imported
attribute [local instance (high)] instPowNat

namespace Text

/-- The characters between the white space at both ends. -/
inductive Trims : List Char → List Char → Prop
  | intro {left core right : List Char} (hleft : ∀ c ∈ left, isWhiteSpace c)
      (hhead : ∀ c ∈ core.head?, ¬ isWhiteSpace c)
      (hlast : ∀ c ∈ core.getLast?, ¬ isWhiteSpace c)
      (hright : ∀ c ∈ right, isWhiteSpace c) : Trims (left ++ (core ++ right)) core

/-- A natural number in digits, behind a plus sign or none. -/
inductive IsNatural : List Char → Nat → Prop
  | unsigned {digits : List Char} (hne : digits ≠ []) (h : ∀ c ∈ digits, c.isDigit) :
      IsNatural digits (Nat.ofDigitChars 10 digits 0)
  | signed {digits : List Char} (hne : digits ≠ []) (h : ∀ c ∈ digits, c.isDigit) :
      IsNatural ('+' :: digits) (Nat.ofDigitChars 10 digits 0)

theorem withoutPlus_of_head {cs : List Char} (h : ∀ c ∈ cs.head?, c ≠ '+') :
    withoutPlus cs = cs := by
  unfold withoutPlus
  split
  · exact absurd rfl (h '+' rfl)
  · rfl

/-- **A natural number is read exactly where there is one**, and it is below the bound. -/
theorem natural?_eq_some_iff {bound n : Nat} {cs : List Char} :
    natural? bound cs = some n ↔ IsNatural cs n ∧ n < bound := by
  have hread : natural? bound cs = some n ↔ withoutPlus cs ≠ [] ∧
      (∀ c ∈ withoutPlus cs, c.isDigit) ∧ Nat.ofDigitChars 10 (withoutPlus cs) 0 = n ∧
      n < bound := by
    simp only [natural?, Bool.or_eq_true, Bool.not_eq_true', List.isEmpty_iff]
    split
    · rename_i h
      simp only [reduceCtorEq, false_iff]
      rintro ⟨hne, hall, -⟩
      exact h.elim hne fun hnot => by simp [List.all_eq_true.2 hall] at hnot
    · rename_i h
      rw [not_or, Bool.not_eq_false, List.all_eq_true] at h
      split
      · rename_i hlt
        simp only [Option.some.injEq]
        exact ⟨fun hn => ⟨h.1, h.2, hn, hn ▸ hlt⟩, fun hn => hn.2.2.1⟩
      · rename_i hlt
        simp only [reduceCtorEq, false_iff]
        exact fun hn => hlt (hn.2.2.1 ▸ hn.2.2.2)
  rw [hread]
  constructor
  · rintro ⟨hne, hall, rfl, hlt⟩
    refine ⟨?_, hlt⟩
    cases cs with
    | nil => exact .unsigned hne hall
    | cons c digits =>
      by_cases hc : c = '+'
      · subst hc
        exact .signed hne hall
      · have hhead : ∀ c' ∈ (c :: digits).head?, c' ≠ '+' := by simpa using hc
        rw [withoutPlus_of_head hhead] at hne hall ⊢
        exact .unsigned hne hall
  · rintro ⟨hn, hlt⟩
    cases hn with
    | unsigned hne hall =>
      have hhead : ∀ c ∈ cs.head?, c ≠ '+' := by
        rintro c hc rfl
        exact absurd (hall '+' (List.mem_of_mem_head? hc)) (by decide)
      rw [withoutPlus_of_head hhead]
      exact ⟨hne, hall, rfl, hlt⟩
    | signed hne hall => exact ⟨hne, hall, rfl, hlt⟩

/-- Leaving out the front of characters. -/
theorem dropWhile_eq_iff {p : Char → Bool} {cs rest : List Char} :
    cs.dropWhile p = rest ↔
      ∃ front, cs = front ++ rest ∧ (∀ c ∈ front, p c) ∧ ∀ c ∈ rest.head?, ¬ p c := by
  constructor
  · rintro rfl
    have happend := List.takeWhile_append_dropWhile (p := p) (l := cs)
    obtain ⟨hfront, hrest⟩ := (Lexer.takeWhile_append_eq_iff (cs.takeWhile p) (cs.dropWhile p)).1
      (by rw [happend])
    exact ⟨_, happend.symm, hfront, hrest⟩
  · rintro ⟨front, rfl, hfront, hrest⟩
    exact Lexer.dropWhile_append_eq hfront hrest

end Text

namespace Command

/-- **White space is trimmed at both ends**, and nothing else is. -/
theorem trim_eq_iff {cs core : List Char} : trim cs = core ↔ Text.Trims cs core := by
  have htrim : trim cs = core ↔
      ∃ rest, cs.dropWhile Text.isWhiteSpace = rest ∧
        rest.reverse.dropWhile Text.isWhiteSpace = core.reverse := by
    rw [trim, List.reverse_eq_iff, exists_eq_left']
  rw [htrim]
  constructor
  · rintro ⟨rest, hfront, hback⟩
    obtain ⟨left, rfl, hleft, hhead⟩ := Text.dropWhile_eq_iff.1 hfront
    obtain ⟨right, hrest, hright, hlast⟩ := Text.dropWhile_eq_iff.1 hback
    obtain rfl : rest = core ++ right.reverse := by
      rw [← List.reverse_reverse rest, hrest, List.reverse_append, List.reverse_reverse]
    refine .intro hleft (fun c hc => hhead c (List.mem_head?_append_of_mem_head? hc))
      (fun c hc => hlast c (by rwa [List.head?_reverse])) (fun c hc => ?_)
    exact hright c (List.mem_reverse.1 hc)
  · intro h
    cases h with
    | @intro left core right hleft hhead hlast hright =>
      have hlast' : ∀ c ∈ core.reverse.head?, ¬ Text.isWhiteSpace c := by
        simpa only [List.head?_reverse] using hlast
      have hright' : ∀ c ∈ right.reverse, Text.isWhiteSpace c := by
        simpa only [List.mem_reverse] using hright
      cases core with
      | nil =>
        have hall : ∀ c ∈ left ++ right, Text.isWhiteSpace c := by
          simpa only [List.forall_mem_append] using ⟨hleft, hright⟩
        exact ⟨[], List.dropWhile_eq_nil_iff.2 hall, rfl⟩
      | cons c core =>
        refine ⟨c :: core ++ right, Lexer.dropWhile_append_eq hleft hhead, ?_⟩
        rw [List.reverse_append]
        exact Lexer.dropWhile_append_eq hright' hlast'

/-- The characters around the first equals sign. -/
theorem split_equals {before : List Char} (h : '=' ∉ before) (behind : List Char) :
    (before ++ '=' :: behind).takeWhile (· != '=') = before ∧
      (before ++ '=' :: behind).dropWhile (· != '=') = '=' :: behind := by
  have hhead : ∀ c ∈ ('=' :: behind).head?, ¬ (c != '=') = true := by simp
  exact ⟨(Lexer.takeWhile_append_eq_iff _ _).2 ⟨ne_equals h, hhead⟩,
    Lexer.dropWhile_append_eq (ne_equals h) hhead⟩

/-! ### Values -/

/-- What an option gives: the path of a file of limits, a limit, the name of a variable, or a
name with its value. -/
inductive Given
  | limitsFile (path : String)
  | limit (field : Limits.Field) (max : Nat)
  | name (name : String)
  | binding (name : String) (value : Decimal)

/-- **What an option gives with its value.** A binding is split at the first equals sign. -/
inductive Gives : Setting × String → Given → Prop
  | limitsFile {path : String} (h : path ≠ "") : Gives (.limitsFile, path) (.limitsFile path)
  | limit {field : Limits.Field} {text : String} {n : Nat} (h : Text.IsNatural text.toList n)
      (hlt : n < 2 ^ (64 : Nat)) : Gives (.limit field, text) (.limit field n)
  | name (name : String) : Gives (.name, name) (.name name)
  | binding {text name value : String} {before behind : List Char} {d : Decimal}
      (htext : text.toList = before ++ '=' :: behind) (hfirst : '=' ∉ before)
      (hname : Text.Trims before name.toList) (hvalue : Text.Trims behind value.toList)
      (hread : Decimal.ofText value = .ok d) : Gives (.binding, text) (.binding name d)

/-- **A binding is read exactly where there is one.** -/
theorem binding?_eq_some_iff {text name : String} {d : Decimal} :
    binding? text = some (name, d) ↔ Gives (.binding, text) (.binding name d) := by
  constructor
  · intro h
    by_cases hmem : '=' ∈ text.toList
    · obtain ⟨before, behind, htext, hfirst⟩ := List.eq_append_cons_of_mem hmem
      obtain ⟨htake, hdrop⟩ := split_equals hfirst behind
      rw [binding?, htext, hdrop, htake] at h
      dsimp only at h
      split at h
      · rename_i hread
        cases h
        have hvalue : Decimal.ofText (String.ofList (trim behind)) = .ok d := by
          rw [Decimal.ofText, String.toList_ofList, hread]
        refine .binding htext hfirst ?_ ?_ hvalue
        · rw [String.toList_ofList, ← trim_eq_iff]
        · rw [String.toList_ofList, ← trim_eq_iff]
      · cases h
    · rw [binding?, List.dropWhile_eq_nil_iff.2 (ne_equals hmem)] at h
      cases h
  · intro h
    cases h with
    | @binding _ _ value before behind _ htext hfirst hname hvalue hread =>
      obtain ⟨htake, hdrop⟩ := split_equals hfirst behind
      rw [← trim_eq_iff] at hname hvalue
      rw [Decimal.ofText] at hread
      rw [binding?, htext, hdrop, htake]
      dsimp only
      rw [hvalue, hname, hread]
      dsimp only
      rw [String.ofList_toList]

/-! ### Options together -/

/-- A computation succeeds where its first part does and the rest does behind it. -/
theorem bind_eq_ok_iff {ε α β : Type} {x : Except ε α} {f : α → Except ε β} {b : β} :
    x >>= f = .ok b ↔ ∃ a, x = .ok a ∧ f a = .ok b := by
  cases x with
  | error e => exact iff_of_false nofun nofun
  | ok a =>
    constructor
    · exact fun h => ⟨a, rfl, h⟩
    · rintro ⟨a', ha, h⟩
      cases ha
      exact h

namespace Given

/-- The path of a file, if it is one. -/
def path? : Given → Option String
  | limitsFile path => some path
  | _ => none

/-- The limit of a field, if it is one. -/
def max? (field : Limits.Field) : Given → Option Nat
  | limit f max => if f = field then some max else none
  | _ => none

/-- The name of a variable, if it is one. -/
def name? : Given → Option String
  | name n => some n
  | _ => none

/-- A name with its value, if it is that. -/
def binding? : Given → Option (String × Decimal)
  | binding n value => some (n, value)
  | _ => none

/-- Two paths, or two limits of one field. -/
inductive Clashes : Given → Given → Prop
  | limitsFile (path path' : String) : Clashes (limitsFile path) (limitsFile path')
  | limit (field : Limits.Field) (max max' : Nat) : Clashes (limit field max) (limit field max')

theorem not_clashes_limitsFile_iff {g : Given} {path : String} :
    ¬ g.Clashes (limitsFile path) ↔ g.path? = none := by
  cases g with
  | limitsFile path' => exact iff_of_false (fun h => h (.limitsFile ..)) nofun
  | limit | name | binding => exact iff_of_true nofun rfl

theorem not_clashes_limit_iff {g : Given} {field : Limits.Field} {max : Nat} :
    ¬ g.Clashes (limit field max) ↔ g.max? field = none := by
  cases g with
  | limit field' max' =>
    by_cases hfield : field' = field
    · subst hfield
      exact iff_of_false (fun h => h (.limit ..)) (by simp [max?])
    · refine iff_of_true (fun h => ?_) (if_neg hfield)
      cases h
      exact hfield rfl
  | limitsFile | name | binding => exact iff_of_true nofun rfl

end Given

namespace Options

/-- The options that were given one after the other. -/
def ofGiven (given : List Given) : Options where
  limitsFile := given.findSome? (·.path?)
  limit := fun field => given.findSome? (·.max? field)
  names := given.filterMap (·.name?)
  bindings := given.filterMap (·.binding?)

variable {given : List Given}

/-- There is no path where another one would repeat nothing, -/
theorem limitsFile_ofGiven_eq_none_iff {path : String} :
    (ofGiven given).limitsFile = none ↔ ∀ g ∈ given, ¬ g.Clashes (.limitsFile path) := by
  simp only [ofGiven, List.findSome?_eq_none_iff, Given.not_clashes_limitsFile_iff]

/-- and no limit of a field where another one would not. -/
theorem limit_ofGiven_eq_none_iff {field : Limits.Field} {max : Nat} :
    (ofGiven given).limit field = none ↔ ∀ g ∈ given, ¬ g.Clashes (.limit field max) := by
  simp only [ofGiven, List.findSome?_eq_none_iff, Given.not_clashes_limit_iff]

theorem ofGiven_limitsFile {path : String} (h : (ofGiven given).limitsFile = none) :
    ofGiven (given ++ [.limitsFile path]) = { ofGiven given with limitsFile := some path } := by
  have hnone : given.findSome? (·.path?) = none := h
  simp only [ofGiven, List.findSome?_append, hnone]
  simp [Given.path?, Given.max?, Given.name?, Given.binding?]

theorem ofGiven_limit {field : Limits.Field} {max : Nat}
    (h : (ofGiven given).limit field = none) :
    ofGiven (given ++ [.limit field max]) =
      { ofGiven given with
        limit := fun f => if f = field then some max else (ofGiven given).limit f } := by
  have hnone : given.findSome? (·.max? field) = none := h
  have hlimit : (ofGiven (given ++ [.limit field max])).limit =
      fun f => if f = field then some max else (ofGiven given).limit f := by
    funext f
    by_cases hf : f = field
    · subst hf
      simp only [ofGiven, List.findSome?_append, hnone]
      simp [Given.max?]
    · simp [ofGiven, Given.max?, hf, Ne.symm hf]
  rw [← hlimit]
  simp [ofGiven, Given.path?, Given.name?, Given.binding?]

theorem ofGiven_name {name : String} :
    ofGiven (given ++ [.name name]) =
      { ofGiven given with names := (ofGiven given).names ++ [name] } := by
  simp [ofGiven, Given.path?, Given.max?, Given.name?, Given.binding?]

theorem ofGiven_binding {name : String} {d : Decimal} :
    ofGiven (given ++ [.binding name d]) =
      { ofGiven given with bindings := (ofGiven given).bindings ++ [(name, d)] } := by
  simp [ofGiven, Given.path?, Given.max?, Given.name?, Given.binding?]

/-- **An option is added where it gives something and repeats nothing.** -/
theorem add_eq_ok_iff {s : Setting} {value : String} {o : Options} :
    (ofGiven given).add s value = .ok o ↔
      ∃ g, Gives (s, value) g ∧ (∀ g' ∈ given, ¬ g'.Clashes g) ∧ o = ofGiven (given ++ [g]) := by
  cases s with
  | limitsFile =>
    dsimp only [add]
    constructor
    · intro h
      split at h
      · cases h
      · rename_i hnone
        rw [Option.not_isSome_iff_eq_none] at hnone
        split at h
        · cases h
        · rename_i hne
          cases h
          exact ⟨_, .limitsFile (by simpa using hne), limitsFile_ofGiven_eq_none_iff.1 hnone,
            (ofGiven_limitsFile hnone).symm⟩
    · rintro ⟨g, hg, hfree, rfl⟩
      cases hg with
      | limitsFile hne =>
        have hnone := limitsFile_ofGiven_eq_none_iff.2 hfree
        rw [ofGiven_limitsFile hnone, hnone, if_neg nofun, if_neg (by simpa using hne)]
  | limit field =>
    dsimp only [add]
    constructor
    · intro h
      split at h
      · cases h
      · rename_i hnone
        rw [Option.not_isSome_iff_eq_none] at hnone
        split at h
        · cases h
        · rename_i n hread
          obtain ⟨hn, hlt⟩ := Text.natural?_eq_some_iff.1 hread
          cases h
          exact ⟨_, .limit hn hlt, limit_ofGiven_eq_none_iff.1 hnone, (ofGiven_limit hnone).symm⟩
    · rintro ⟨g, hg, hfree, rfl⟩
      cases hg with
      | limit hn hlt =>
        have hnone := limit_ofGiven_eq_none_iff.2 hfree
        rw [ofGiven_limit hnone, hnone, if_neg nofun, Text.natural?_eq_some_iff.2 ⟨hn, hlt⟩]
  | name =>
    constructor
    · intro h
      cases h
      exact ⟨_, .name value, fun _ _ => nofun, ofGiven_name.symm⟩
    · rintro ⟨g, hg, -, rfl⟩
      cases hg with
      | name => rw [ofGiven_name, add]
  | binding =>
    dsimp only [add]
    constructor
    · intro h
      split at h
      · cases h
      · rename_i b hread
        cases h
        exact ⟨_, binding?_eq_some_iff.1 hread, fun _ _ => nofun, ofGiven_binding.symm⟩
    · rintro ⟨g, hg, -, rfl⟩
      have hg' := hg
      cases hg' with
      | binding => rw [ofGiven_binding, binding?_eq_some_iff.2 hg]

/-- Options come to what they give, behind what was given before. -/
theorem foldlM_add_eq_ok_iff {settings : List (Setting × String)} {before : List Given}
    {o : Options} (hbefore : before.Pairwise (¬ ·.Clashes ·)) :
    settings.foldlM (fun o (s, value) => o.add s value) (ofGiven before) = .ok o ↔
      ∃ given, List.Forall₂ Gives settings given ∧
        (before ++ given).Pairwise (¬ ·.Clashes ·) ∧ o = ofGiven (before ++ given) := by
  -- what is given so far is the accumulator, so the induction is for any of it
  induction settings generalizing before with
  | nil =>
    constructor
    · intro h
      cases h
      exact ⟨[], .nil, by rwa [List.append_nil], by rw [List.append_nil]⟩
    · rintro ⟨given, hgives, -, rfl⟩
      cases hgives
      rw [List.append_nil]
      rfl
  | cons setting settings ih =>
    obtain ⟨s, value⟩ := setting
    rw [List.foldlM_cons, bind_eq_ok_iff]
    constructor
    · rintro ⟨o', hadd, hrest⟩
      obtain ⟨g, hg, hfree, rfl⟩ := add_eq_ok_iff.1 hadd
      have honce : (before ++ [g]).Pairwise (¬ ·.Clashes ·) :=
        List.pairwise_append.2 ⟨hbefore, List.pairwise_singleton _ g, by simpa using hfree⟩
      obtain ⟨given, hgives, hall, rfl⟩ := (ih honce).1 hrest
      rw [List.append_assoc, List.singleton_append] at hall ⊢
      exact ⟨g :: given, .cons hg hgives, hall, rfl⟩
    · rintro ⟨given, hgives, hall, rfl⟩
      cases hgives with
      | @cons _ g _ given hg hgives =>
        have hsplit : before ++ g :: given = before ++ [g] ++ given := by simp
        rw [hsplit] at hall
        have honce := (List.pairwise_append.1 hall).1
        have hfree := (List.pairwise_append.1 honce).2.2
        exact ⟨_, add_eq_ok_iff.2 ⟨g, hg, fun g' hg' => hfree g' hg' g (by simp), rfl⟩,
          (ih honce).2 ⟨given, hgives, hall, by rw [hsplit]⟩⟩

end Options

/-- Options with what they give, a limit and the file of limits once at most. -/
structure GivesAll (settings : List (Setting × String)) (given : List Given) : Prop where
  gives : List.Forall₂ Gives settings given
  once : given.Pairwise (¬ ·.Clashes ·)

/-- **Options come to what they give**, one after the other. -/
theorem Options.ofSettings_eq_ok_iff {settings : List (Setting × String)} {o : Options} :
    ofSettings settings = .ok o ↔ ∃ given, GivesAll settings given ∧ o = ofGiven given := by
  constructor
  · intro h
    obtain ⟨given, hgives, honce, rfl⟩ := (foldlM_add_eq_ok_iff .nil).1 h
    exact ⟨given, ⟨hgives, honce⟩, rfl⟩
  · rintro ⟨given, h, rfl⟩
    exact (foldlM_add_eq_ok_iff .nil).2 ⟨given, h.gives, h.once, rfl⟩

/-! ### The whole line -/

/-- **The options for limits.** -/
inductive Setting.IsGlobal : Setting → Prop
  | limitsFile : IsGlobal .limitsFile
  | limit (field : Limits.Field) : IsGlobal (.limit field)

/-- **The options of a subcommand.** -/
inductive Subcommand.Takes : Subcommand → Setting → Prop
  | global {sub : Subcommand} {s : Setting} (h : s.IsGlobal) : Takes sub s
  | checkName : Takes .check .name
  | tokensName : Takes .tokens .name
  | evalBinding : Takes .eval .binding

/-- **The names of subcommands.** -/
inductive Subcommand.Named : Subcommand → String → Prop
  | check : Named .check "check"
  | eval : Named .eval "eval"
  | tokens : Named .tokens "tokens"

/-- **What stands behind a subcommand**: a formula that is not taken for an option, with options
on both sides, or a formula behind options and two dashes. -/
inductive Subcommand.Arranges (sub : Subcommand) (formula : String) :
    List (Setting × String) → List String → Prop
  | around {settings settings' : List (Setting × String)} {front back tail : List String}
      (hfront : Spelled sub.Takes settings front) (hformula : IsPlain formula)
      (hback : Spelled sub.Takes settings' back) (htail : tail = [] ∨ tail = ["--"]) :
      Arranges sub formula (settings ++ settings') (front ++ formula :: (back ++ tail))
  | escaped {settings : List (Setting × String)} {front : List String}
      (hfront : Spelled sub.Takes settings front) :
      Arranges sub formula settings (front ++ ["--", formula])

/-- A command line: a subcommand, a formula, and what the options give on either side of the
subcommand. -/
structure Line where
  subcommand : Subcommand
  formula : String
  before : List Given
  behind : List Given

/-- **The arguments that a command line is written in.** -/
inductive Line.IsWrittenIn (line : Line) : List String → Prop
  | intro {settings settings' : List (Setting × String)} {front back : List String} {name : String}
      (hfront : Spelled Setting.IsGlobal settings front) (hbefore : GivesAll settings line.before)
      (hname : line.subcommand.Named name)
      (hback : line.subcommand.Arranges line.formula settings' back)
      (hbehind : GivesAll settings' line.behind) : IsWrittenIn line (front ++ name :: back)

/-- **What a command line asks for**: the limits and the file behind the subcommand, or else
those in front of it, and all names and bindings in their order. -/
def Line.invocation (line : Line) : Invocation where
  subcommand := line.subcommand
  formula := line.formula
  options :=
    { limitsFile := (line.behind ++ line.before).findSome? (·.path?)
      limit := fun field => (line.behind ++ line.before).findSome? (·.max? field)
      names := line.behind.filterMap (·.name?)
      bindings := line.behind.filterMap (·.binding?) }

theorem Options.orElse_ofGiven (behind before : List Given) :
    (ofGiven behind).orElse (ofGiven before) =
      { limitsFile := (behind ++ before).findSome? (·.path?)
        limit := fun field => (behind ++ before).findSome? (·.max? field)
        names := behind.filterMap (·.name?)
        bindings := behind.filterMap (·.binding?) } := by
  simp only [orElse, ofGiven, List.findSome?_append, Option.orElse_eq_or]

theorem mem_globalSettings_iff {s : Setting} : s ∈ globalSettings ↔ s.IsGlobal := by
  constructor
  · intro h
    cases s with
    | limitsFile => exact .limitsFile
    | limit field => exact .limit field
    | name | binding => exact absurd h (by decide)
  · intro h
    cases h with
    | limitsFile => decide
    | limit field => cases field <;> decide

theorem Subcommand.mem_settings_iff {sub : Subcommand} {s : Setting} :
    s ∈ sub.settings ↔ sub.Takes s := by
  constructor
  · intro h
    cases sub with
    | check | tokens =>
      rcases List.mem_cons.1 h with rfl | h
      · first | exact .checkName | exact .tokensName
      · exact .global (mem_globalSettings_iff.1 h)
    | eval =>
      rcases List.mem_cons.1 h with rfl | h
      · exact .evalBinding
      · exact .global (mem_globalSettings_iff.1 h)
  · intro h
    cases h with
    | global h =>
      have hs := mem_globalSettings_iff.2 h
      cases sub <;> exact List.mem_cons_of_mem _ hs
    | checkName | tokensName | evalBinding => exact List.mem_cons_self

theorem Subcommand.ofName?_eq_some_iff {sub : Subcommand} {name : String} :
    ofName? name = some sub ↔ sub.Named name := by
  constructor
  · intro h
    unfold ofName? at h
    split at h
    · cases h
      exact .check
    · cases h
      exact .eval
    · cases h
      exact .tokens
    · cases h
  · intro h
    cases h <;> rfl

/-- The name of a subcommand is not taken for an option. -/
theorem Subcommand.Named.isPlain {sub : Subcommand} {name : String} (h : sub.Named name) :
    IsPlain name := by
  cases h <;> exact nofun

/-- Options with nothing behind them but two dashes, or nothing at all. -/
theorem scan_nil_iff {allowed : List Setting} {settings : List (Setting × String)}
    {arguments : List String} :
    (∃ escaped, scan allowed arguments = .ok ⟨settings, escaped, []⟩) ↔
      ∃ back tail, arguments = back ++ tail ∧ Spelled (· ∈ allowed) settings back ∧
        (tail = [] ∨ tail = ["--"]) := by
  constructor
  · rintro ⟨escaped, h⟩
    obtain ⟨back, tail, rfl, hback, hstops⟩ := scan_eq_ok_iff.1 h
    refine ⟨back, tail, rfl, hback, ?_⟩
    cases hstops with
    | escape => exact .inr rfl
    | plain => exact .inl rfl
  · rintro ⟨back, tail, rfl, hback, rfl | rfl⟩
    · exact ⟨_, scan_eq_ok_iff.2 ⟨back, _, rfl, hback, .plain nofun⟩⟩
    · exact ⟨_, scan_eq_ok_iff.2 ⟨back, _, rfl, hback, .escape []⟩⟩

/-- What stands behind a subcommand is read as it is arranged. -/
theorem formulaAndSettings_eq_ok_iff {sub : Subcommand} {arguments : List String}
    {formula : String} {settings : List (Setting × String)} :
    formulaAndSettings sub.settings arguments = .ok (formula, settings) ↔
      sub.Arranges formula settings arguments := by
  have htakes : sub.Takes = (· ∈ sub.settings) := funext fun s => propext sub.mem_settings_iff.symm
  rw [formulaAndSettings, bind_eq_ok_iff]
  constructor
  · rintro ⟨⟨settings, escaped, rest⟩, hscan, h⟩
    obtain ⟨front, back, rfl, hfront, hstops⟩ := scan_eq_ok_iff.1 hscan
    rw [← htakes] at hfront
    cases rest with
    | nil => cases h
    | cons formula rest =>
      dsimp only at h
      cases hstops with
      | escape =>
        cases rest with
        | nil =>
          cases h
          rw [List.append_nil]
          exact .escaped hfront
        | cons extra rest => cases h
      | plain hplain =>
        rw [if_neg nofun, bind_eq_ok_iff] at h
        obtain ⟨⟨settings', escaped, extra⟩, hbehind, h⟩ := h
        cases extra with
        | nil =>
          cases h
          obtain ⟨back, tail, rfl, hback, htail⟩ := scan_nil_iff.1 ⟨escaped, hbehind⟩
          rw [← htakes] at hback
          exact .around hfront (hplain formula rfl) hback htail
        | cons extra rest => cases h
  · intro h
    cases h with
    | @around settings settings' front back tail hfront hformula hback htail =>
      rw [htakes] at hfront hback
      obtain ⟨escaped, hbehind⟩ := scan_nil_iff.2 ⟨back, tail, rfl, hback, htail⟩
      have hstops : Stops (formula :: (back ++ tail)) false (formula :: (back ++ tail)) :=
        .plain fun word hword => Option.some.inj hword ▸ hformula
      refine ⟨⟨settings, false, _⟩, scan_eq_ok_iff.2 ⟨front, _, rfl, hfront, hstops⟩, ?_⟩
      dsimp only
      rw [if_neg nofun, hbehind]
      rfl
    | @escaped settings front hfront =>
      rw [htakes] at hfront
      refine ⟨⟨settings, true, _⟩, scan_eq_ok_iff.2 ⟨front, _, rfl, hfront, .escape _⟩, ?_⟩
      dsimp only
      rw [if_pos rfl]
      exact congrArg (fun all => Except.ok (formula, all)) (List.append_nil settings)

/-- **What is accepted is a command line, and is taken for what that asks for.** -/
theorem ofArguments_eq_ok_iff {arguments : List String} {i : Invocation} :
    Invocation.ofArguments arguments = .ok i ↔
      ∃ line : Line, line.IsWrittenIn arguments ∧ i = line.invocation := by
  have hglobal : Setting.IsGlobal = (· ∈ globalSettings) :=
    funext fun s => propext mem_globalSettings_iff.symm
  rw [Invocation.ofArguments, bind_eq_ok_iff]
  constructor
  · rintro ⟨⟨settings, escaped, rest⟩, hscan, h⟩
    obtain ⟨front, back, rfl, hfront, hstops⟩ := scan_eq_ok_iff.1 hscan
    obtain ⟨_, hof, h⟩ := bind_eq_ok_iff.1 h
    obtain ⟨before, hbefore, rfl⟩ := Options.ofSettings_eq_ok_iff.1 hof
    rw [← hglobal] at hfront
    dsimp only at h
    cases hstops with
    | escape => cases rest <;> cases h
    | plain hplain =>
      cases rest with
      | nil => cases h
      | cons name back =>
        dsimp only at h
        cases hname : Subcommand.ofName? name with
        | none =>
          rw [hname] at h
          cases h
        | some sub =>
          rw [hname] at h
          obtain ⟨⟨formula, settings'⟩, hback, h⟩ := bind_eq_ok_iff.1 h
          obtain ⟨_, hof', h⟩ := bind_eq_ok_iff.1 h
          obtain ⟨behind, hbehind, rfl⟩ := Options.ofSettings_eq_ok_iff.1 hof'
          cases h
          refine ⟨⟨sub, formula, before, behind⟩,
            .intro hfront hbefore (Subcommand.ofName?_eq_some_iff.1 hname)
              (formulaAndSettings_eq_ok_iff.1 hback) hbehind, ?_⟩
          rw [Options.orElse_ofGiven, Line.invocation]
  · rintro ⟨⟨sub, formula, before, behind⟩, hwritten, rfl⟩
    cases hwritten with
    | @intro settings settings' front back name hfront hbefore hname hback hbehind =>
      rw [hglobal] at hfront
      have hstops : Stops (name :: back) false (name :: back) :=
        .plain fun word hword => Option.some.inj hword ▸ hname.isPlain
      have hof := Options.ofSettings_eq_ok_iff.2 ⟨before, hbefore, rfl⟩
      have hof' := Options.ofSettings_eq_ok_iff.2 ⟨behind, hbehind, rfl⟩
      refine ⟨⟨settings, false, _⟩, scan_eq_ok_iff.2 ⟨front, _, rfl, hfront, hstops⟩,
        bind_eq_ok_iff.2 ⟨_, hof, ?_⟩⟩
      dsimp only
      rw [Subcommand.ofName?_eq_some_iff.2 hname]
      refine bind_eq_ok_iff.2 ⟨_, formulaAndSettings_eq_ok_iff.2 hback,
        bind_eq_ok_iff.2 ⟨_, hof', ?_⟩⟩
      rw [Options.orElse_ofGiven]
      rfl

end Command

end Formulary
