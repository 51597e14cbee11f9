import Mathlib.Data.List.Basic
import Formulary.Proofs.Decimal.Reading
import Formulary.Proofs.Json.Reading
import Formulary.Stored

/-!
# What is stored reads back

Rules, limits and values are written as JSON of the grammar, and the reader is complete for
the grammar, so what remains is what the members of an object say. Limits may be given in
part, in any order and among members of other names; each that is missing is the default.

* `Limits.IsGiven`: what the members of an object say about the limits.
* `Limits.ofJsonText?_eq`: **limits given in part are the default with those replaced**.
* `Record.ofJsonText?_json`, `Limits.ofJsonText?_json`: written rules and limits read back.
* `Value.ofJsonText?_json`: so do values; only the sign of a zero is lost.
* `stored_reads_back`: all of these.
-/

namespace Formulary

open Json

namespace Json

/-- What spells a value is a JSON text of it. -/
theorem isText_ofList {j : Json} {cs : List Char} (h : Spells j cs) :
    IsText (String.ofList cs) j :=
  ⟨.bare cs, by rw [String.toList_ofList, Padded.bare_chars], h⟩

/-- A count is read as itself, if it has at most 64 bits. -/
theorem count?_ofNat {n : Nat} (h : n < wordBound) : (ofNat n).count? = some n := by
  unfold ofNat count?
  simp [Number.isInteger, Nat.ofDigitChars_ten_toDigits, h]

/-- Members whose keys are all Unicode. -/
def ofMembers (members : List (String × Json)) : Json :=
  .object (members.map fun (key, value) => (some key, value))

end Json

/-! ### Limits -/

namespace Limits

theorem Field.name_injective {f g : Field} (h : f.name = g.name) : f = g := by
  revert h
  cases f <;> cases g <;> decide

theorem Field.ofName?_name (f : Field) : Field.ofName? f.name = some f := by
  cases f <;> rfl

theorem Field.ofName?_eq_none {key : String} (h : Field.ofName? key = none) (f : Field) :
    key ≠ f.name := by
  rintro rfl
  rw [Field.ofName?_name] at h
  cases h

theorem Field.name_of_ofName? {key : String} {f : Field} (h : Field.ofName? key = some f) :
    key = f.name := by
  have hname := List.find?_some h
  exact (beq_iff_eq.1 hname).symm

/-- **What the members of an object say about the limits**: each field that is given stands
among them once, as an integer of at most 64 bits, and no other field does. -/
structure IsGiven (members : List (String × Json)) (given : Field → Option Nat) : Prop where
  lt : ∀ field n, given field = some n → n < wordBound
  values : ∀ field, (members.filter (·.1 = field.name)).map (·.2) =
    (given field).toList.map Json.ofNat

namespace IsGiven

variable {key : String} {value : Json} {members : List (String × Json)} {given : Field → Option Nat}

/-- Where there are no members, nothing is given. -/
theorem nil (h : IsGiven [] given) (field : Field) : given field = none := by
  have hvalues := h.values field
  cases hgiven : given field with
  | none => rfl
  | some n => simp [hgiven] at hvalues

/-- A member of another name says nothing about the limits. -/
theorem other (h : IsGiven ((key, value) :: members) given) (hkey : ∀ f : Field, key ≠ f.name) :
    IsGiven members given := by
  refine ⟨h.lt, fun field => ?_⟩
  have hvalues := h.values field
  rwa [List.filter_cons_of_neg (by simpa using hkey field)] at hvalues

/-- A member with the name of a field gives that field, and the others do not. -/
theorem field {f : Field} (h : IsGiven ((f.name, value) :: members) given) :
    ∃ n, n < wordBound ∧ given f = some n ∧ value = Json.ofNat n ∧
      IsGiven members fun g => if g = f then none else given g := by
  have hvalues := h.values f
  rw [List.filter_cons_of_pos (by simp), List.map_cons] at hvalues
  cases hgiven : given f with
  | none => simp [hgiven] at hvalues
  | some n =>
    rw [hgiven, Option.toList_some, List.map_singleton] at hvalues
    obtain ⟨hvalue, hrest⟩ := List.cons.inj hvalues
    refine ⟨n, h.lt f n hgiven, rfl, hvalue, ⟨fun g m hg => ?_, fun g => ?_⟩⟩
    · by_cases hgf : g = f
      · simp [hgf] at hg
      · exact h.lt g m (by simpa [hgf] using hg)
    · by_cases hgf : g = f
      · subst hgf
        simpa using hrest
      · have hother := h.values g
        have hname : ¬ f.name = g.name := fun heq => hgf (Field.name_injective heq).symm
        rw [List.filter_cons_of_neg (by simpa using hname)] at hother
        simpa [hgf] using hother

end IsGiven

/-- Members replace the limits that they give, in whatever order they stand. -/
theorem ofMembers?_eq {members : List (String × Json)} {given : Field → Option Nat}
    (h : IsGiven members given) (seen : List Field) (hseen : ∀ f ∈ seen, given f = none)
    (limits : Limits) :
    ofMembers? seen limits (members.map fun (key, value) => (some key, value)) =
      some (ofFields fun f => (given f).getD (limits.get f)) := by
  induction members generalizing seen limits given with
  | nil =>
    rw [List.map_nil, ofMembers?]
    congr 1
    refine eq_of_get fun f => ?_
    rw [get_ofFields, h.nil f, Option.getD_none]
  | cons member members ih =>
    obtain ⟨key, value⟩ := member
    rw [List.map_cons, ofMembers?]
    cases hname : Field.ofName? key with
    | none =>
      have hrest := ih (h.other (Field.ofName?_eq_none hname)) seen hseen limits
      simpa [hname] using hrest
    | some f =>
      obtain rfl := Field.name_of_ofName? hname
      obtain ⟨n, hn, hgiven, rfl, hgivens⟩ := h.field
      have hfresh : f ∉ seen := by
        intro hmem
        rw [hseen f hmem] at hgiven
        cases hgiven
      have hseen' : ∀ g ∈ f :: seen, (if g = f then none else given g) = none := by
        intro g hg
        rcases List.mem_cons.1 hg with rfl | hg
        · exact if_pos rfl
        · rw [hseen g hg, ite_self]
      have hrest := ih hgivens (f :: seen) hseen' (limits.set f n)
      have hfields : (ofFields fun g => (if g = f then none else given g).getD
            ((limits.set f n).get g)) = ofFields fun g => (given g).getD (limits.get g) := by
        congr 1
        funext g
        by_cases hg : g = f
        · subst hg
          simp [hgiven]
        · simp [hg]
      rw [← hfields, ← hrest]
      simp [hname, hfresh, count?_ofNat hn]

/-- **Limits given in part are the default limits with those replaced**: in any order, among
members of any other names and values, and in whatever characters the object is spelled. -/
theorem ofJsonText?_eq {text : String} {members : List (String × Json)}
    {given : Field → Option Nat} (h : IsText text (Json.ofMembers members))
    (hgiven : IsGiven members given) :
    ofJsonText? text =
      some (ofFields fun f => (given f).getD (({} : Limits).get f)) := by
  have hmembers := ofMembers?_eq hgiven [] (by simp) {}
  unfold ofJsonText?
  rw [Reader.ofText?_of_isText h, Option.bind_eq_bind, Option.bind_some, Json.ofMembers, ofJson?,
    hmembers]

/-- **Written limits read back.** -/
theorem ofJsonText?_json {limits : Limits} (h : ∀ f, limits.get f < wordBound) :
    ofJsonText? limits.json = some limits := by
  have hspells := spells_writeObject Field.all Field.name (fun f => ofNat (limits.get f))
    (fun f => writeNat (limits.get f)) fun f _ => spells_writeNat (limits.get f)
  have htext : IsText limits.json
      (Json.ofMembers (Field.all.map fun f => (f.name, ofNat (limits.get f)))) := by
    rw [Json.ofMembers, List.map_map]
    exact isText_ofList hspells
  have hgiven : IsGiven (Field.all.map fun f => (f.name, ofNat (limits.get f)))
      fun f => some (limits.get f) := by
    refine ⟨fun f n hn => Option.some.inj hn ▸ h f, fun f => ?_⟩
    cases f <;> rfl
  have hsame : (ofFields fun f => (some (limits.get f)).getD (({} : Limits).get f)) = limits :=
    eq_of_get fun f => get_ofFields _ f
  rw [ofJsonText?_eq htext hgiven, hsame]

end Limits

/-! ### Rules -/

namespace Record

/-- The keys of a rule are the texts of their strings. -/
theorem keys?_strings (ks : List String) :
    keys? (.array (ks.map fun k => .string (some k))) = some ks := by
  unfold keys?
  induction ks with
  | nil => rfl
  | cons k ks ih => simp_all [text?]

/-- The fields of a rule: name, value, and the characters that are written for the value. -/
def fields (r : Record) : List (String × Json × List Char) :=
  [("formulaText", .string (some r.formulaText), writeText r.formulaText),
    ("dependentKeys", .array (r.dependentKeys.map fun k => .string (some k)),
      writeArray (r.dependentKeys.map writeText))]

/-- **A written rule reads back**, whatever characters its text and its keys hold. -/
theorem ofJsonText?_json (r : Record) : ofJsonText? r.json = some r := by
  have hkeys : Spells (.array (r.dependentKeys.map fun k => .string (some k)))
      (writeArray (r.dependentKeys.map writeText)) :=
    spells_writeArray r.dependentKeys _ writeText fun k _ => spells_writeText k
  have hfields : ∀ f ∈ r.fields, Spells f.2.1 f.2.2 :=
    List.forall_mem_cons.2 ⟨spells_writeText r.formulaText, List.forall_mem_singleton.2 hkeys⟩
  have htext : IsText r.json (.object
      [(some "formulaText", .string (some r.formulaText)),
        (some "dependentKeys", .array (r.dependentKeys.map fun k => .string (some k)))]) :=
    isText_ofList (spells_writeObject r.fields (·.1) (·.2.1) (·.2.2) hfields)
  unfold ofJsonText?
  rw [Reader.ofText?_of_isText htext]
  simp [ofJson?, ofMembers?, Json.text?, keys?_strings]

end Record

/-! ### Values -/

namespace Value

/-- A truth value is written as a word of JSON. -/
theorem spells_boolean (b : Bool) : Spells (.boolean b) (boolean b).json.toList := by
  cases b with
  | false => exact .no
  | true => exact .yes

/-- **A written truth value reads back.** -/
theorem ofJsonText?_boolean (b : Bool) : ofJsonText? (boolean b).json = some (boolean b) := by
  have htext := isText_ofList (spells_boolean b)
  rw [String.ofList_toList] at htext
  unfold ofJsonText?
  rw [Reader.ofText?_of_isText htext]
  rfl

/-- **A written number reads back in its form**; only the sign of a zero is lost. -/
theorem ofJsonText?_number (d : Decimal) :
    ofJsonText? (number d).json =
      some (number { d with negative := d.negative && d.mantissa != 0 }) := by
  have htext : IsText (number d).json (.string (some d.text)) :=
    isText_ofList (spells_writeText d.text)
  unfold ofJsonText?
  rw [Reader.ofText?_of_isText htext, Option.bind_eq_bind, Option.bind_some, ofJson?]
  simp [Decimal.ofText, Decimal.read_text, Except.toOption]

/-- **A written number reads back in its form**: with its scale, as a number of its value, and
as the number itself unless that is zero. -/
theorem ofJsonText?_number_form (d : Decimal) :
    ∃ r, ofJsonText? (number d).json = some (number r) ∧ r.sameValue d ∧ r.scale = d.scale ∧
      (d.isZero = false → r = d) := by
  refine ⟨_, ofJsonText?_number d, ?_, rfl, fun h => ?_⟩
  · unfold Decimal.sameValue Decimal.compareValue Decimal.signed
    by_cases h : d.mantissa = 0
    · simp [h]
    · simp [h]
  · have hmantissa : d.mantissa ≠ 0 := by simpa [Decimal.isZero] using h
    have hsign : (d.negative && d.mantissa != 0) = d.negative := by simp [hmantissa]
    show ({ d with negative := d.negative && d.mantissa != 0 } : Decimal) = d
    rw [hsign]

end Value

/-- **What is stored reads back.** A written rule reads back as the rule, for every text and
every list of keys; written limits as the limits, if each has at most 64 bits; a written truth
value as itself, and a written number as one of the same value and scale, which is the number
itself unless it is zero. And an object that gives some of the limits, each once, in any order
and among members of any other names and values, reads as the default limits with exactly
those replaced. -/
theorem stored_reads_back :
    (∀ r : Record, Record.ofJsonText? r.json = some r) ∧
    (∀ limits : Limits, (∀ f, limits.get f < wordBound) →
      Limits.ofJsonText? limits.json = some limits) ∧
    (∀ b, Value.ofJsonText? (Value.boolean b).json = some (.boolean b)) ∧
    (∀ d, ∃ r, Value.ofJsonText? (Value.number d).json = some (.number r) ∧
      (Value.number r).same (.number d) ∧ r.scale = d.scale ∧ (d.isZero = false → r = d)) ∧
    ∀ (text : String) (members : List (String × Json)) (given : Limits.Field → Option Nat),
      IsText text (Json.ofMembers members) → Limits.IsGiven members given →
      Limits.ofJsonText? text =
        some (Limits.ofFields fun f => (given f).getD (({} : Limits).get f)) :=
  ⟨Record.ofJsonText?_json, fun _ h => Limits.ofJsonText?_json h, Value.ofJsonText?_boolean,
    Value.ofJsonText?_number_form, fun _ _ _ htext hgiven => Limits.ofJsonText?_eq htext hgiven⟩

/-- One limit, behind a blank and a member that is not about limits. -/
theorem stored_reads_back_partial :
    Limits.ofJsonText? (Limits.json ⟨1, 2, 3, 4⟩) = some ⟨1, 2, 3, 4⟩ ∧
    Limits.ofJsonText? "\x7b\"note\":[null], \"max_eval_steps\":7\x7d" =
      some ⟨500, 256, 64, 7⟩ := by
  obtain ⟨-, hlimits, -, -, hpartial⟩ := stored_reads_back
  refine ⟨hlimits _ fun f => by cases f <;> decide, ?_⟩
  let note : Member := ⟨some "note", .array [.null], .bare "note".toList, .bare "[null]".toList⟩
  let steps : Member :=
    ⟨some "max_eval_steps", Json.ofNat 7,
      ⟨[' '], "max_eval_steps".toList, [], List.forall_mem_singleton.2 (by decide), isBlanks_nil⟩,
      .bare ['7']⟩
  have hkeys : ∀ m ∈ [note, steps], SpellsString m.key m.keyText.core :=
    List.forall_mem_cons.2 ⟨by simpa [note, escape] using spellsString_escape "note",
      List.forall_mem_singleton.2
        (by simpa [steps, escape] using spellsString_escape "max_eval_steps")⟩
  have hvalues : ∀ m ∈ [note, steps], Spells m.value m.valueText.core :=
    List.forall_mem_cons.2
      ⟨spells_writeArray [Json.null] id (fun _ => "null".toList) (List.forall_mem_singleton.2 .null),
        List.forall_mem_singleton.2 (spells_writeNat 7)⟩
  have htext := isText_ofList (Spells.object (List.cons_ne_nil note [steps]) hkeys hvalues)
  have hgiven : Limits.IsGiven [("note", .array [.null]), ("max_eval_steps", Json.ofNat 7)]
      fun f => if f = .evalSteps then some 7 else none := by
    refine ⟨fun f n hn => ?_, fun f => ?_⟩
    · obtain ⟨-, rfl⟩ := by simpa using hn
      decide
    · cases f <;> rfl
  exact hpartial _ _ _ htext hgiven

end Formulary
