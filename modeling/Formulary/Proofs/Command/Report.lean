import Mathlib.Data.List.Basic
import Formulary.Command
import Formulary.Proofs.Command.Line
import Formulary.Proofs.Diagnostic.Position

/-!
# The command is the library under the limits in effect

A command line asks for a formula, names and bindings, and for limits. The limits in effect are
taken field by field: from the options, or else from the file, or else from the default. The
command refuses to work under a limit of zero. Otherwise it says what the library says: the
result on one channel and with status 0, or a diagnostic on the other and with status 1, and
nothing of the one where it says the other.

* `Invocation.effective`: the limits in effect.
* `limits_eq`: they are what the command works under, if they are valid.
* `Report.Answers`: a report that says what a result of the library is.
* `lines_tokens`: the tokens of a formula are shown in their order, each on a line.
* `run_of_zero`: what is reported where one of them is zero.
* `answer_library` (any arguments): **the command lines are the ones that are answered, and the
  answer is what the library says under the limits in effect.**
-/

namespace Formulary

open Lexer

/-- Lines that each end in a line break are the lines of the text, and an empty one behind
the last break. -/
theorem Text.lines_join {ls : List String} (h : ∀ l ∈ ls, OneLine l) :
    Text.lines (String.join (ls.map (· ++ "\n"))) = ls ++ [""] := by
  have hjoin : String.join (ls.map (· ++ "\n")) = "\n".intercalate (ls ++ [""]) := by
    rw [← String.toList_inj]
    induction ls with
    | nil => simp
    | cons l ls ih =>
      have hrest := ih fun l hl => h l (List.mem_cons_of_mem _ hl)
      obtain ⟨m, ms, hms⟩ := List.exists_cons_of_ne_nil (show ls ++ [""] ≠ [] by simp)
      rw [hms] at hrest
      rw [List.cons_append, hms]
      simp_all [String.toList_intercalate]
  rw [hjoin]
  refine Text.lines_intercalate (by simp) fun l hl => ?_
  rcases List.mem_append.1 hl with hl | hl
  · exact h l hl
  · obtain rfl := List.mem_singleton.1 hl
    exact .ofList (by decide)

namespace Command

/-- The columns that show a token: its position, its kind and its text. -/
def columns (t : Token) : String :=
  String.ofList ((Nat.toDigits 10 t.position).leftpad 4 ' ') ++ "  " ++
    String.ofList ((kindColumn t.kind).toList.rightpad 10 ' ') ++ "  " ++ t.text

/-- The line about a token is its columns. -/
theorem columns_line : (fun t => columns t ++ "\n") = tokenLine := by
  funext t
  rw [← String.toList_inj]
  simp [tokenLine, columns]

/-- The columns of a token are on one line, as its text is. -/
theorem oneLine_columns {t : Token} (h : OneLine t.text) : OneLine (columns t) := by
  have hposition : '\n' ∉ (Nat.toDigits 10 t.position).leftpad 4 ' ' := by
    intro hmem
    rcases List.mem_append.1 (List.leftpad.eq_1 4 ' ' _ ▸ hmem) with hmem | hmem
    · exact absurd (List.eq_of_mem_replicate hmem) (by decide)
    · exact absurd (Text.isDigit_of_mem_toDigits _ hmem) (by decide)
  have hkind : '\n' ∉ (kindColumn t.kind).toList.rightpad 10 ' ' := by
    cases t.kind with
    | operator op =>
      exact fun hmem => absurd hmem (by decide : '\n' ∉ "operator".toList.rightpad 10 ' ')
    | number | identifier | openParen | closeParen | question | colon => decide
  exact ((((OneLine.ofList hposition).append (.ofList (by decide))).append (.ofList hkind)).append
    (.ofList (by decide))).append h

/-- **The tokens of a formula are shown in their order, each on a line of its own.** -/
theorem lines_tokens {source : String} {names : List String} {limits : Limits} {ts : List Token}
    (h : tokenize source names limits = .ok ts) :
    Text.lines (String.join (ts.map tokenLine)) = ts.map columns ++ [""] := by
  have hseg := (segmentation_of_tokenize h).2.2
  have hlines : (ts.map columns).map (· ++ "\n") = ts.map tokenLine := by
    rw [List.map_map, ← columns_line]
    rfl
  rw [← hlines]
  refine Text.lines_join fun l hl => ?_
  obtain ⟨t, ht, rfl⟩ := List.mem_map.1 hl
  exact oneLine_columns (.of_not_isWhiteSpace (hseg.lexeme t ht).not_isWhiteSpace)

/-! ### The limits in effect -/

/-- One override after the other replaces its own field. -/
theorem get_foldl_override (limits : Limits) (replacement : Limits.Field → Option Nat)
    (fields : List Limits.Field) (g : Limits.Field) :
    (fields.foldl
      (fun l field => match replacement field with
        | some n => l.set field n
        | none => l)
      limits).get g = if g ∈ fields then (replacement g).getD (limits.get g) else limits.get g := by
  induction fields generalizing limits with
  | nil => rfl
  | cons f fields ih =>
    rw [List.foldl_cons, ih]
    cases hf : replacement f with
    | none =>
      by_cases hg : g = f
      · subst hg
        simp [hf]
      · simp [hg]
    | some n =>
      by_cases hg : g = f
      · subst hg
        simp [hf]
      · simp [hg]

/-- **An override replaces its own field and no other.** -/
theorem get_overrideLimits (limits : Limits) (replacement : Limits.Field → Option Nat)
    (field : Limits.Field) :
    (overrideLimits limits replacement).get field =
      (replacement field).getD (limits.get field) := by
  have hall : field ∈ Limits.Field.all := by cases field <;> decide
  exact (get_foldl_override limits replacement _ field).trans (if_pos hall)

/-- What the file of a command line holds: nothing if no file is named, or else limits. -/
inductive FileHolds (i : Invocation) (read : String → Option String) : Option Limits → Prop
  | unnamed (h : i.options.limitsFile = none) : FileHolds i read none
  | limits {path text : String} {limits : Limits} (hpath : i.options.limitsFile = some path)
      (hread : read path = some text) (hlimits : Limits.ofJsonText? text = some limits) :
      FileHolds i read (some limits)

/-- **The limits in effect**: of each field the override, or else what the file says, or
else the default. -/
def Invocation.effective (i : Invocation) (file : Option Limits) : Limits where
  maxFormulaLength := (i.options.limit .formulaLength).getD (file.getD {}).maxFormulaLength
  maxTokenCount := (i.options.limit .tokenCount).getD (file.getD {}).maxTokenCount
  maxTreeDepth := (i.options.limit .treeDepth).getD (file.getD {}).maxTreeDepth
  maxEvalSteps := (i.options.limit .evalSteps).getD (file.getD {}).maxEvalSteps

theorem overrideLimits_eq (i : Invocation) (file : Option Limits) :
    overrideLimits (file.getD {}) i.options.limit = i.effective file := by
  refine Limits.eq_of_get fun field => ?_
  rw [get_overrideLimits]
  cases field <;> rfl

/-- The command works under the limits in effect, if none of them is zero. -/
theorem limits_eq {i : Invocation} {read : String → Option String} {file : Option Limits}
    (hfile : FileHolds i read file) :
    i.limits read =
      match (i.effective file).validate with
      | .ok () => .ok (i.effective file)
      | .error e => .error (.invalid e) := by
  have hbase : i.limits read =
      match (overrideLimits (file.getD {}) i.options.limit).validate with
      | .ok () => .ok (overrideLimits (file.getD {}) i.options.limit)
      | .error e => .error (.invalid e) := by
    unfold Invocation.limits
    cases hfile with
    | unnamed h =>
      rw [h]
      rfl
    | limits hpath hread hlimits =>
      simp only [hpath, hread, hlimits]
      rfl
  rw [hbase, overrideLimits_eq]

/-! ### Reports -/

/-- **A report that says what a result of the library is**: it has status 0 and prints exactly
where there is one, and else it has status 1, prints nothing and explains the error. -/
structure Report.Answers {α : Type} (report : Report) (source : String)
    (result : Except FormulaError α) (print : α → String) : Prop where
  ok_iff : ∀ output, report.status = 0 ∧ report.output = output ↔
    ∃ a, result = .ok a ∧ output = print a
  error : ∀ e, result = .error e → report = ⟨1, "", e.render source ++ "\n"⟩

/-- A report that is built from the result answers it. -/
theorem Report.answers_of_cases {α : Type} {report : Report} {source : String}
    {result : Except FormulaError α} {print : α → String} (notes : α → String)
    (hok : ∀ a, result = .ok a → report = .success (print a) (notes a))
    (herror : ∀ e, result = .error e → report = .ofError e source) :
    report.Answers source result print := by
  constructor
  · intro output
    cases hresult : result with
    | ok a =>
      rw [hok a hresult]
      simp [Report.success, eq_comm]
    | error e =>
      rw [herror e hresult]
      simp [Report.ofError, Report.failure]
  · exact herror

theorem check_answers (source : String) (names : List String) (limits : Limits) :
    (check source names limits).Answers source
      ((Formula.compile source names limits).mapError .parse) (fun f => f.text ++ "\n") := by
  refine Report.answers_of_cases (fun f =>
    "ok: " ++ Nat.repr f.nodeCount ++ " nodes, depth " ++ Nat.repr f.depth ++ "\n") ?_ ?_
  all_goals
    unfold check
    cases Formula.compile source names limits <;> simp [Except.mapError]

/-- The bindings of a command line, of which the last of two for one name would stay. -/
def bound (bindings : List (String × Decimal)) : Bindings :=
  .ofList (bindings.map fun (name, d) => (name, .decimal d))

theorem eval_answers (source : String) (bindings : List (String × Decimal)) (limits : Limits) :
    (eval source bindings limits).Answers source
      (evaluateText source (bindings.map (·.1)) (bound bindings) limits)
      (fun v => v.text ++ "\n") := by
  refine Report.answers_of_cases (fun _ => "") ?_ ?_
  · intro v hv
    unfold bound at hv
    simp only [eval, hv]
  · intro e he
    unfold bound at he
    simp only [eval, he]

theorem tokens_answers (source : String) (names : List String) (limits : Limits) :
    (tokens source names limits).Answers source
      ((tokenize source names limits).mapError fun e => .parse (.lex e))
      (fun ts => String.join (ts.map fun t => columns t ++ "\n")) := by
  rw [columns_line]
  refine Report.answers_of_cases (fun _ => "") ?_ ?_
  all_goals
    unfold tokens
    cases tokenize source names limits <;> simp [Except.mapError]

/-- **A name that is bound twice fails the formula**, whatever its values are: as a variable
that is declared twice, if the text has tokens and the names before it can be declared. -/
theorem evaluateText_duplicate (source : String) {name : String} {before : List String}
    (after : List String) (hmem : name ∈ before) (hnodup : before.Nodup) (bindings : Bindings)
    (limits : Limits) :
    (∃ e, evaluateText source (before ++ name :: after) bindings limits = .error e) ∧
    ((∃ ts, tokenize source (before ++ name :: after) limits = .ok ts) →
      (∀ n ∈ before, isIdentifier n) →
      evaluateText source (before ++ name :: after) bindings limits =
        .error (.parse (.duplicateVariable name))) := by
  have hrepeated : ¬ (before ++ name :: after).Nodup := by
    rw [List.nodup_append']
    exact fun h => h.2.2 hmem List.mem_cons_self
  constructor
  · unfold evaluateText
    cases hcompile : Formula.compile source (before ++ name :: after) limits with
    | error e => exact ⟨_, rfl⟩
    | ok f =>
      obtain ⟨-, -, hnames, -⟩ := stages_of_compile hcompile
      exact absurd ((Parser.checkNames_eq_ok_iff _).1 hnames).2 hrepeated
  · rintro ⟨ts, htokens⟩ hids
    have hnames := Parser.checkNames_duplicate [] after hnodup (by simp) hids
      (hids name hmem) (.inr hmem)
    have hcompile : Formula.compile source (before ++ name :: after) limits =
        .error (.duplicateVariable name) := by
      rw [Formula.compile_eq, htokens]
      simp only [parse_eq, hnames, Except.map]
    unfold evaluateText
    rw [hcompile]

/-- **A report that says what the library says** about a formula under limits, by subcommand. -/
structure Report.IsOfLibrary (report : Report) (i : Invocation) (limits : Limits) : Prop where
  check : i.subcommand = .check → report.Answers i.formula
    ((Formula.compile i.formula i.options.names limits).mapError .parse) (fun f => f.text ++ "\n")
  eval : i.subcommand = .eval → report.Answers i.formula
    (evaluateText i.formula (i.options.bindings.map (·.1)) (bound i.options.bindings) limits)
    (fun v => v.text ++ "\n")
  tokens : i.subcommand = .tokens → report.Answers i.formula
    ((tokenize i.formula i.options.names limits).mapError fun e => .parse (.lex e))
    (fun ts => String.join (ts.map fun t => columns t ++ "\n"))
  token_lines : i.subcommand = .tokens → ∀ ts, tokenize i.formula i.options.names limits = .ok ts →
    Text.lines report.output = ts.map columns ++ [""]
  bound_twice : i.subcommand = .eval → ∀ before name after,
    i.options.bindings.map (·.1) = before ++ name :: after → name ∈ before → before.Nodup →
    report.status = 1 ∧ report.output = "" ∧
    ((∃ ts, tokenize i.formula (i.options.bindings.map (·.1)) limits = .ok ts) →
      (∀ n ∈ before, isIdentifier n) →
      report = ⟨1, "", (FormulaError.parse (.duplicateVariable name)).render i.formula ++ "\n"⟩)

/-- What a subcommand reports under limits is what the library says. -/
theorem isOfLibrary_of_run {i : Invocation} {read : String → Option String} {limits : Limits}
    (h : i.limits read = .ok limits) : (i.run read).IsOfLibrary i limits := by
  have heval (hs : i.subcommand = .eval) : (i.run read).Answers i.formula
      (evaluateText i.formula (i.options.bindings.map (·.1)) (bound i.options.bindings) limits)
      (fun v => v.text ++ "\n") := by
    unfold Invocation.run
    rw [h, hs]
    exact eval_answers _ _ _
  have htokens (hs : i.subcommand = .tokens) : (i.run read).Answers i.formula
      ((tokenize i.formula i.options.names limits).mapError fun e => .parse (.lex e))
      (fun ts => String.join (ts.map fun t => columns t ++ "\n")) := by
    unfold Invocation.run
    rw [h, hs]
    exact tokens_answers _ _ _
  refine ⟨fun hs => ?_, heval, htokens, fun hs ts hts => ?_, ?_⟩
  · unfold Invocation.run
    rw [h, hs]
    exact check_answers _ _ _
  · have houtput := ((htokens hs).ok_iff (String.join (ts.map fun t => columns t ++ "\n"))).2
      ⟨ts, by rw [hts]; rfl, rfl⟩
    rw [houtput.2, columns_line]
    exact lines_tokens hts
  · intro hs before name after hnames hmem hnodup
    obtain ⟨⟨e, he⟩, hduplicate⟩ := evaluateText_duplicate i.formula after hmem hnodup
      (bound i.options.bindings) limits
    rw [← hnames] at he hduplicate
    have hfail := (heval hs).error e he
    refine ⟨by rw [hfail], by rw [hfail], fun htokens hids => ?_⟩
    exact (heval hs).error _ (hduplicate htokens hids)

/-- The limits with their names, in their order. -/
def limitNames : List (Limits.Field × String) :=
  [(.formulaLength, "max_formula_length"), (.tokenCount, "max_token_count"),
    (.treeDepth, "max_tree_depth"), (.evalSteps, "max_eval_steps")]

/-- The report about a limit of zero. -/
def zeroReport (name : String) : Report :=
  ⟨1, "", "Error: Invalid limits\n\nCaused by:\n    " ++
    ("limit '" ++ name ++ "' must be greater than zero") ++ "\n"⟩

/-- Under invalid limits the command reports the first that is zero. -/
theorem run_of_zero {i : Invocation} {read : String → Option String} {limits : Limits}
    (hlimits : i.limits read =
      match limits.validate with
      | .ok () => .ok limits
      | .error e => .error (.invalid e))
    {before after : List (Limits.Field × String)} {field : Limits.Field} {name : String}
    (hall : limitNames = before ++ (field, name) :: after) (hzero : limits.get field = 0)
    (hbefore : ∀ f ∈ before, limits.get f.1 ≠ 0) : i.run read = zeroReport name := by
  have hfields : limitNames.map (·.1) = Limits.Field.all := rfl
  rw [hall, List.map_append, List.map_cons] at hfields
  have hname : field.name = name := by
    have hnames : ∀ f ∈ limitNames, f.1.name = f.2 := by decide
    exact hnames (field, name) (by simp [hall])
  have hinvalid := (limits.validate_eq_error_iff field).2
    ⟨_, _, hfields.symm, hzero, by simpa using hbefore⟩
  rw [hinvalid] at hlimits
  unfold Invocation.run
  rw [hlimits, ← hname]
  unfold Report.failure zeroReport SetupError.message
  rfl

/-- What the command answers to its arguments, where `read` answers the contents of a file. -/
def answer (arguments : List String) (read : String → Option String) :
    Except UsageError Report :=
  (Invocation.ofArguments arguments).map (·.run read)

/-- **The command line is the library under the limits in effect.** What is accepted are exactly
the command lines that are put together from options, a subcommand and a formula. For each of
them whose file of limits can be read, if there is one: if a limit in effect is zero, the report
names the first such limit, with status 1 and nothing printed, whatever the subcommand and the
formula are. Otherwise the report says what the library says of the formula, the names and the
bindings under those limits. -/
theorem answer_library (arguments : List String) (read : String → Option String) :
    ((∃ report, answer arguments read = .ok report) ↔
      ∃ line : Line, line.IsWrittenIn arguments) ∧
    ∀ line : Line, line.IsWrittenIn arguments → ∀ file, FileHolds line.invocation read file →
      ∃ report, answer arguments read = .ok report ∧
        (∀ before field name after, limitNames = before ++ (field, name) :: after →
          (line.invocation.effective file).get field = 0 →
          (∀ f ∈ before, (line.invocation.effective file).get f.1 ≠ 0) →
          report = zeroReport name) ∧
        ((∀ f ∈ limitNames, (line.invocation.effective file).get f.1 ≠ 0) →
          report.IsOfLibrary line.invocation (line.invocation.effective file)) := by
  have hanswer {line : Line} (hline : line.IsWrittenIn arguments) :
      answer arguments read = .ok (line.invocation.run read) := by
    rw [answer, ofArguments_eq_ok_iff.2 ⟨line, hline, rfl⟩, Except.map]
  constructor
  · constructor
    · rintro ⟨report, hreport⟩
      cases hi : Invocation.ofArguments arguments with
      | error e =>
        rw [answer, hi] at hreport
        cases hreport
      | ok i =>
        obtain ⟨line, hline, -⟩ := ofArguments_eq_ok_iff.1 hi
        exact ⟨line, hline⟩
    · rintro ⟨line, hline⟩
      exact ⟨_, hanswer hline⟩
  · intro line hline file hfile
    have hlimits := limits_eq hfile
    refine ⟨_, hanswer hline, ?_, ?_⟩
    · intro before field name after hall hzero hbefore
      exact run_of_zero hlimits hall hzero hbefore
    · intro hvalid
      have hfields : ∀ field, (line.invocation.effective file).get field ≠ 0 := by
        intro field
        have hmem : ∃ name, (field, name) ∈ limitNames := by
          cases field <;> simp [limitNames]
        obtain ⟨name, hname⟩ := hmem
        exact hvalid _ hname
      rw [(Limits.validate_eq_ok_iff _).2 hfields] at hlimits
      exact isOfLibrary_of_run hlimits

/-- A zero in the file does no harm where an option replaces it. -/
theorem answer_library_replaced :
    let line : Line := ⟨.eval, "x / 4", [.limit .treeDepth 3],
      [.binding "x" Decimal.one, .limitsFile "low.json"]⟩
    let arguments := ["--max-depth", "3", "eval", "x / 4", "-b", "x=1", "--limits", "low.json"]
    let read : String → Option String :=
      fun _ => some "\x7b\"max_tree_depth\": 0, \"max_eval_steps\": 3\x7d"
    line.IsWrittenIn arguments ∧ FileHolds line.invocation read (some ⟨500, 256, 0, 3⟩) ∧
      ∃ report, answer arguments read = .ok report ∧
        report.status = 0 ∧ report.output = "0.25\n" := by
  intro line arguments read
  have hline : line.IsWrittenIn arguments := by
    have hdepth : Gives (.limit .treeDepth, "3") (.limit .treeDepth 3) :=
      .limit (Text.IsNatural.unsigned (by decide : "3".toList ≠ [])
        (List.forall_mem_singleton.2 (by decide))) (by decide)
    have hbind : Gives (.binding, "x=1") (.binding "x" Decimal.one) :=
      binding?_eq_some_iff.1 (by decide +kernel)
    have hformula : IsPlain "x / 4" := startsWithDash_iff.1 rfl
    exact .intro
      (.cons (.limit _) (.apart (.inl .maxDepth) (startsWithDash_iff.1 rfl)) .nil)
      ⟨.cons hdepth .nil, by simp [line]⟩ .eval
      (.around .nil hformula
        (.cons .evalBinding (.apart (.inr .bind) (startsWithDash_iff.1 rfl))
          (.cons (.global .limitsFile) (.apart (.inl .limits) (startsWithDash_iff.1 rfl)) .nil))
        (.inl rfl))
      ⟨.cons hbind (.cons (.limitsFile (by decide)) .nil), by simp [line]; nofun⟩
  have hfile : FileHolds line.invocation read (some ⟨500, 256, 0, 3⟩) :=
    .limits rfl rfl (by decide +kernel)
  refine ⟨hline, hfile, ?_⟩
  obtain ⟨report, hreport, -, hlibrary⟩ := (answer_library arguments read).2 line hline _ hfile
  have heval : evaluateText "x / 4" ["x"] (bound [("x", Decimal.one)]) ⟨500, 256, 3, 3⟩ =
      .ok (.number ⟨false, 25, 2, by decide, by decide⟩) := by
    decide +kernel
  have hanswers := (hlibrary (by decide)).eval rfl
  exact ⟨report, hreport, (hanswers.ok_iff "0.25\n").2 ⟨_, heval, by decide +kernel⟩⟩

end Command

end Formulary
