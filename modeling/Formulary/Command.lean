import Formulary.Command.Arguments
import Formulary.Diagnostic
import Formulary.Stored

/-!
# The command

`check` prints the canonical form of a formula, `eval` its value, and `tokens` its
tokens in columns, all of them within limits that come from a file, from options,
or else are the default.

* `Invocation.limits`: the limits that a command line asks for.
* `Invocation.run`: what the command prints, and its exit status.
-/

namespace Formulary.Command

/-- What a run of the command prints, and its exit status. -/
structure Report where
  status : Nat
  output : String
  errors : String
deriving DecidableEq

/-- Why there are no limits to work within. -/
inductive SetupError
  | unreadable (path : String)
  | malformed (path : String)
  | invalid (error : ConfigError)
deriving DecidableEq

/-- The wording of a failure to find limits. -/
def SetupError.message : SetupError → String
  | .unreadable path => "Error: Failed to read '" ++ path ++ "'"
  | .malformed path => "Error: Failed to parse limits in '" ++ path ++ "'"
  | .invalid error => "Error: Invalid limits\n\nCaused by:\n    " ++ error.message ++ "\n"

/-- A report of success. -/
def Report.success (output errors : String) : Report := ⟨0, output, errors⟩

/-- A report of failure. -/
def Report.failure (errors : String) : Report := ⟨1, "", errors⟩

/-- A report of what is wrong with a formula. -/
def Report.ofError (e : FormulaError) (formula : String) : Report :=
  .failure (e.render formula ++ "\n")

/-- Limits of which some are replaced. -/
def overrideLimits (limits : Limits) (replacement : Limits.Field → Option Nat) : Limits :=
  Limits.Field.all.foldl
    (fun l field => match replacement field with
      | some n => l.set field n
      | none => l)
    limits

/-- Reports on the canonical form and the size of a formula. -/
def check (formula : String) (names : List String) (limits : Limits) : Report :=
  match Formula.compile formula names limits with
  | .ok f =>
    .success (f.text ++ "\n")
      ("ok: " ++ Nat.repr f.nodeCount ++ " nodes, depth " ++ Nat.repr f.depth ++ "\n")
  | .error e => .ofError (.parse e) formula

/-- Reports on the value of a formula, whose variables are the bound ones. -/
def eval (formula : String) (bindings : List (String × Decimal)) (limits : Limits) : Report :=
  let bound := Bindings.ofList (bindings.map fun (name, d) => (name, .decimal d))
  match evaluateText formula (bindings.map (·.1)) bound limits with
  | .ok v => .success (v.text ++ "\n") ""
  | .error e => .ofError e formula

/-- The column that says what a token is. -/
def kindColumn : Token.Kind → String
  | .number => "number"
  | .identifier => "identifier"
  | .operator _ => "operator"
  | .openParen | .closeParen => "paren"
  | .question | .colon => "ternary"

/-- The line about a token: its position, its kind and its text. -/
def tokenLine (t : Token) : String :=
  String.ofList
    ((Nat.toDigits 10 t.position).leftpad 4 ' ' ++ ' ' :: ' ' ::
      ((kindColumn t.kind).toList.rightpad 10 ' ' ++ ' ' :: ' ' :: (t.text.toList ++ ['\n'])))

/-- Reports on the tokens of a formula, a line for each. -/
def tokens (formula : String) (names : List String) (limits : Limits) : Report :=
  match tokenize formula names limits with
  | .ok ts => .success (String.join (ts.map tokenLine)) ""
  | .error e => .ofError (.parse (.lex e)) formula

namespace Invocation

/-- The limits to work within: those of the file, if there is one, or else the
default, with some replaced. -/
def limits (i : Invocation) (read : String → Option String) : Except SetupError Limits := do
  let base ← match i.options.limitsFile with
    | none => pure {}
    | some path =>
      match read path with
      | none => throw (.unreadable path)
      | some text =>
        match Limits.ofJsonText? text with
        | none => throw (.malformed path)
        | some limits => pure limits
  let limits := overrideLimits base i.options.limit
  match limits.validate with
  | .ok () => return limits
  | .error e => throw (.invalid e)

/-- What the command does, where `read` answers the contents of a file. -/
def run (i : Invocation) (read : String → Option String) : Report :=
  match i.limits read with
  | .error e => .failure e.message
  | .ok limits =>
    match i.subcommand with
    | .check => check i.formula i.options.names limits
    | .eval => eval i.formula i.options.bindings limits
    | .tokens => tokens i.formula i.options.names limits

end Invocation

end Formulary.Command
