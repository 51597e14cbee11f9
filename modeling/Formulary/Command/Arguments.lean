import Formulary.Limits
import Formulary.Token

/-!
# Command-line arguments

A command line has a subcommand, a formula, and options. The options for limits
may stand on either side of the subcommand, the others only behind it.

    --limits PATH      a file of limits
    --max-length N     --max-tokens N     --max-depth N     --max-steps N
    -v, --var NAME     a declared variable of check and tokens
    -b, --bind N=V     a variable of eval with its value

The value of an option is the next argument, or follows in the same one, behind
the letter or behind an equals sign. Behind -- no argument is an option.

* `Invocation.ofArguments`: what a command line asks for, or why it asks for nothing.
-/

namespace Formulary.Command

-- `^` on natural numbers is that of the core library, whatever else is imported
attribute [local instance (high)] instPowNat

/-- Why a command line asks for nothing. -/
inductive UsageError
  | missingSubcommand
  | unknownSubcommand (argument : String)
  | unknownOption (argument : String)
  | missingValue (argument : String)
  | invalidValue (value : String)
  | repeatedOption
  | missingFormula
  | unexpectedArgument (argument : String)
deriving DecidableEq

/-- What a command line asks to do with a formula. -/
inductive Subcommand
  | check
  | eval
  | tokens
deriving DecidableEq

/-- The subcommand of that name. -/
def Subcommand.ofName? : String → Option Subcommand
  | "check" => some .check
  | "eval" => some .eval
  | "tokens" => some .tokens
  | _ => none

/-- An option. Each of them has a value. -/
inductive Setting
  | limitsFile
  | limit (field : Limits.Field)
  | name
  | binding
deriving DecidableEq

/-- The options for limits, which may stand in front of the subcommand. -/
def globalSettings : List Setting := .limitsFile :: Limits.Field.all.map .limit

/-- The options of a subcommand. -/
def Subcommand.settings : Subcommand → List Setting
  | .check | .tokens => .name :: globalSettings
  | .eval => .binding :: globalSettings

namespace Setting

/-- The long name of an option, behind two dashes. -/
def long : Setting → String
  | limitsFile => "limits"
  | limit .formulaLength => "max-length"
  | limit .tokenCount => "max-tokens"
  | limit .treeDepth => "max-depth"
  | limit .evalSteps => "max-steps"
  | name => "var"
  | binding => "bind"

/-- The letter of an option, behind one dash. -/
def letter? : Setting → Option Char
  | name => some 'v'
  | binding => some 'b'
  | _ => none

end Setting

/-- What one argument is. -/
inductive Argument
  | plain (text : String)
  | setting (s : Setting) (value : Option String)
  | escape
  | unknown

/-- The value behind an equals sign, which may be left out after a letter. -/
def attached (cs : List Char) : Option String :=
  match cs with
  | [] => none
  | '=' :: value => some (String.ofList value)
  | value => some (String.ofList value)

/-- What an argument is where these options are allowed. A lone dash is plain. -/
def classify (settings : List Setting) (argument : String) : Argument :=
  match argument.toList with
  | ['-', '-'] => .escape
  | '-' :: '-' :: cs =>
    let long := String.ofList (cs.takeWhile (· != '='))
    match settings.find? (·.long == long) with
    | some s => .setting s (attached (cs.dropWhile (· != '=')))
    | none => .unknown
  | '-' :: c :: cs =>
    match settings.find? (·.letter? == some c) with
    | some s => .setting s (attached cs)
    | none => .unknown
  | _ => .plain argument

/-- Whether an argument cannot be the value of the option before it. -/
def startsWithDash (argument : String) : Bool :=
  match argument.toList with
  | '-' :: _ :: _ => true
  | _ => false

/-- Options with their values, and the arguments behind them. -/
structure Scanned where
  settings : List (Setting × String)
  escaped : Bool
  rest : List String

/-- The same with one more option in front. -/
def Scanned.prepend (s : Setting) (value : String) (scanned : Scanned) : Scanned :=
  { scanned with settings := (s, value) :: scanned.settings }

/-- Reads options up to the first plain argument, or up to the two dashes behind
which all arguments are plain. -/
def scan (settings : List Setting) : List String → Except UsageError Scanned
  | [] => .ok ⟨[], false, []⟩
  | argument :: rest =>
    match classify settings argument with
    | .plain _ => .ok ⟨[], false, argument :: rest⟩
    | .escape => .ok ⟨[], true, rest⟩
    | .unknown => .error (.unknownOption argument)
    | .setting s (some value) => (scan settings rest).map (·.prepend s value)
    | .setting s none =>
      match rest with
      | [] => .error (.missingValue argument)
      | value :: rest =>
        if startsWithDash value then .error (.missingValue argument)
        else (scan settings rest).map (·.prepend s value)

/-- The values of options. -/
structure Options where
  limitsFile : Option String := none
  limit : Limits.Field → Option Nat := fun _ => none
  names : List String := []
  bindings : List (String × Decimal) := []

/-- The characters without the white space around them. -/
def trim (cs : List Char) : List Char :=
  ((cs.dropWhile Text.isWhiteSpace).reverse.dropWhile Text.isWhiteSpace).reverse

/-- A name and the decimal behind the first equals sign, each without white space
around it. -/
def binding? (text : String) : Option (String × Decimal) :=
  match text.toList.dropWhile (· != '=') with
  | [] => none
  | _ :: value =>
    match Decimal.read (trim value) with
    | .ok d => some (String.ofList (trim (text.toList.takeWhile (· != '='))), d)
    | .error _ => none

namespace Options

/-- Adds the value of one option. Names and bindings add up; another option has
one value. -/
def add (o : Options) (s : Setting) (value : String) : Except UsageError Options :=
  match s with
  | .limitsFile =>
    if o.limitsFile.isSome then .error .repeatedOption
    else if value.isEmpty then .error (.invalidValue value)
    else .ok { o with limitsFile := some value }
  | .limit field =>
    if (o.limit field).isSome then .error .repeatedOption
    else
      match Text.natural? (2 ^ (64 : Nat)) value.toList with
      | none => .error (.invalidValue value)
      | some n => .ok { o with limit := fun f => if f = field then some n else o.limit f }
  | .name => .ok { o with names := o.names ++ [value] }
  | .binding =>
    match binding? value with
    | none => .error (.invalidValue value)
    | some b => .ok { o with bindings := o.bindings ++ [b] }

/-- The values of options that stand together. -/
def ofSettings (settings : List (Setting × String)) : Except UsageError Options :=
  settings.foldlM (fun o (s, value) => o.add s value) {}

/-- The options behind a subcommand, and those before it where there is no value. -/
def orElse (o before : Options) : Options :=
  { o with
    limitsFile := o.limitsFile.orElse fun _ => before.limitsFile
    limit := fun f => (o.limit f).orElse fun _ => before.limit f }

end Options

/-- What a command line asks for. -/
structure Invocation where
  subcommand : Subcommand
  formula : String
  options : Options

/-- The formula of a subcommand, and the options around it. -/
def formulaAndSettings (settings : List Setting) (arguments : List String) :
    Except UsageError (String × List (Setting × String)) := do
  let before ← scan settings arguments
  match before.rest with
  | [] => throw .missingFormula
  | formula :: rest =>
    let behind ← if before.escaped then pure ⟨[], true, rest⟩ else scan settings rest
    match behind.rest with
    | [] => return (formula, before.settings ++ behind.settings)
    | extra :: _ => throw (.unexpectedArgument extra)

/-- What a command line asks for, or why it asks for nothing. -/
def Invocation.ofArguments (arguments : List String) : Except UsageError Invocation := do
  let front ← scan globalSettings arguments
  let before ← Options.ofSettings front.settings
  match front.escaped, front.rest with
  | false, word :: rest =>
    match Subcommand.ofName? word with
    | none => throw (.unknownSubcommand word)
    | some subcommand =>
      let (formula, settings) ← formulaAndSettings subcommand.settings rest
      let options ← Options.ofSettings settings
      return ⟨subcommand, formula, options.orElse before⟩
  | true, extra :: _ => throw (.unexpectedArgument extra)
  | _, [] => throw .missingSubcommand

end Formulary.Command
