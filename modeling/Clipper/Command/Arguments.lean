import Clipper.Layout

/-!
The arguments of the command line. Options may stand anywhere behind the name of a
command, with their value attached by an equals sign or as the next argument; two
hyphens make everything behind them operands. Values are looked at when the next
option or operand begins, or at the end.
-/

namespace Clipper

/-- What the command line asks for. -/
inductive Command
  /-- List the tokens of a file. -/
  | lex (path : String)
  /-- Write a file in canonical form. -/
  | render (path : String) (keywordCase : KeywordCase) (indent : Nat)
  /-- Look for faults in files. -/
  | check (paths : List String) (externals : List String)
  deriving DecidableEq, Repr

/-- Why there is nothing to carry out. -/
inductive Usage
  | help
  | version
  | helpForNothing
  | missingOperand
  | unknownArgument
  | unknownCommand
  /-- A value is missing, empty or none of those allowed. -/
  | invalidValue
  /-- A value is no number of the right size. -/
  | malformedValue
  | unexpectedValue
  /-- An option that is allowed once is given again. -/
  | conflict
  deriving DecidableEq, Repr

/-- Asking for help or for the version is no mistake. -/
def Usage.exitCode : Usage → Nat
  | help | version => 0
  | _ => 2

namespace Arguments

/-- What an argument is given for. -/
inductive Slot
  | operand | keywordCase | indent | external
  deriving DecidableEq, Repr

/-- The arguments a command takes: its options by name, and one operand or several. -/
structure Form where
  options : List (String × Slot)
  manyOperands : Bool
  deriving DecidableEq, Repr

def lexForm : Form := ⟨[], false⟩

def renderForm : Form := ⟨[("keyword-case", .keywordCase), ("indent", .indent)], false⟩

def checkForm : Form := ⟨[("extern", .external)], true⟩

def repeats (form : Form) : Slot → Bool
  | .operand => form.manyOperands
  | .external => true
  | .keywordCase | .indent => false

def keywordCase? : String → Option KeywordCase
  | "upper" => some .upper
  | "lower" => some .lower
  | "pascal" => some .pascal
  | _ => none

/-- A number below 2 to the power 64 in decimal digits, with or without a plus sign. -/
def number? (s : String) : Option Nat :=
  let digits :=
    match s.toList with
    | '+' :: ds => ds
    | ds => ds
  if digits.isEmpty || !digits.all Char.isDigit then none
  else
    let n := digits.foldl (fun n d => 10 * n + (d.toNat - '0'.toNat)) 0
    if n < UInt64.size then some n else none

def validate : Slot → String → Except Usage Unit
  | .operand, s => if s.isEmpty then .error .invalidValue else .ok ()
  | .keywordCase, s => if (keywordCase? s).isSome then .ok () else .error .invalidValue
  | .indent, s => if (number? s).isSome then .ok () else .error .malformedValue
  | .external, _ => .ok ()

/-- The values looked at so far, and the slot that is being filled. -/
structure Given where
  values : List (Slot × String)
  pending : Option (Slot × List String)
  deriving DecidableEq, Repr

namespace Given

def empty : Given := ⟨[], none⟩

/-- The values for a slot, in the order given. -/
def forSlot (g : Given) (slot : Slot) : List String :=
  g.values.filterMap fun v => if v.1 = slot then some v.2 else none

/-- Looks at the values of the pending slot. -/
def settle (form : Form) (g : Given) : Except Usage Given :=
  match g.pending with
  | none => .ok g
  | some (slot, values) => do
      if values.isEmpty then throw .invalidValue
      if !repeats form slot && g.values.any (·.1 == slot) then throw .conflict
      values.forM (validate slot)
      return ⟨g.values ++ values.map (slot, ·), none⟩

/-- Begins to fill a slot. -/
def start (form : Form) (slot : Slot) (values : List String) (g : Given) : Except Usage Given := do
  return { ← g.settle form with pending := some (slot, values) }

def extend (g : Given) (value : String) : Given :=
  { g with pending := g.pending.map fun p => (p.1, p.2 ++ [value]) }

def hasOperand (g : Given) : Bool :=
  g.values.any (·.1 == .operand) || g.pending.any (·.1 == .operand)

/-- Takes an operand, if the command has room for one more. -/
def operand (form : Form) (value : String) (g : Given) : Except Usage Given :=
  if g.hasOperand && !form.manyOperands then .error .unknownArgument
  else if g.pending.any (·.1 == .operand) then .ok (g.extend value)
  else g.start form .operand [value]

end Given

/-- An argument by its first characters. -/
inductive Shape
  /-- Two hyphens. -/
  | separator
  /-- Two hyphens and a name, with or without an attached value. -/
  | long (name : String) (value : Option String)
  /-- A hyphen and letters. -/
  | short (first : Char)
  | plain
  deriving DecidableEq, Repr

def Shape.of (arg : String) : Shape :=
  match arg.toList with
  | ['-', '-'] => .separator
  | '-' :: '-' :: cs =>
      let name := String.ofList (cs.takeWhile (· != '='))
      match cs.dropWhile (· != '=') with
      | [] => .long name none
      | _ :: value => .long name (some (String.ofList value))
  | '-' :: c :: _ => .short c
  | _ => .plain

/-- What an argument is taken for. -/
inductive Mode
  | free
  /-- An option waits for its value. -/
  | awaiting
  /-- Behind two hyphens. -/
  | operandsOnly
  deriving DecidableEq, Repr

/-- An option of a command by its long name. -/
def option (form : Form) (name : String) (value : Option String) (g : Given) :
    Except Usage (Mode × Given) :=
  if name = "help" then do
    if value.isSome then throw .unexpectedValue
    let _ ← g.settle form
    throw .help
  else
    match form.options.lookup name, value with
    | none, _ => .error .unknownArgument
    | some slot, none => do return (.awaiting, ← g.start form slot [])
    | some slot, some v => do return (.free, ← (← g.start form slot [v]).settle form)

def argument (form : Form) (mode : Mode) (arg : String) (g : Given) :
    Except Usage (Mode × Given) :=
  if mode = .operandsOnly then do return (mode, ← g.operand form arg)
  else
    match Shape.of arg with
    | .separator => .ok (.operandsOnly, g)
    | .long name value => option form name value g
    | .short c =>
        if c = 'h' then do
          let _ ← g.settle form
          throw .help
        else .error .unknownArgument
    | .plain =>
        if mode = .awaiting then .ok (.free, g.extend arg)
        else do return (.free, ← g.operand form arg)

/-- Reads the arguments behind the name of a command. -/
def given (form : Form) : Mode → Given → List String → Except Usage Given
  | _, g, [] => g.settle form
  | mode, g, arg :: args => do
      let (mode, g) ← argument form mode arg g
      given form mode g args

def operands (form : Form) (args : List String) : Except Usage (String × List String × Given) := do
  let g ← given form .free .empty args
  match g.forSlot .operand with
  | [] => throw .missingOperand
  | path :: paths => return (path, paths, g)

def lex (args : List String) : Except Usage Command := do
  let (path, _, _) ← operands lexForm args
  return .lex path

def render (args : List String) : Except Usage Command := do
  let (path, _, g) ← operands renderForm args
  let case := (g.forSlot .keywordCase).head?.bind keywordCase?
  let indent := (g.forSlot .indent).head?.bind number?
  let style : Style := {}
  return .render path (case.getD style.keywordCase) (indent.getD style.indent)

def check (args : List String) : Except Usage Command := do
  let (path, paths, g) ← operands checkForm args
  return .check (path :: paths) (g.forSlot .external)

def commandNames : List String := ["lex", "render", "check", "help"]

/-- Help may be asked for one command by its name. -/
def help : List String → Usage
  | [] => .help
  | [name] => if commandNames.contains name then .help else .unknownCommand
  | _ => .unknownCommand

/-- What stands before the name of a command. -/
def leading (arg : String) (args : List String) : Usage :=
  match Shape.of arg with
  | .separator =>
      match args with
      | [] => .helpForNothing
      | name :: _ => if commandNames.contains name then .unknownArgument else .unknownCommand
  | .long name value =>
      if name = "help" || name = "version" then
        if value.isSome then .unexpectedValue
        else if name = "help" then .help
        else .version
      else .unknownArgument
  | .short c => if c = 'h' then .help else if c = 'V' then .version else .unknownArgument
  | .plain => .unknownCommand

end Arguments

open Arguments in
/-- Reads a whole command line. -/
def Command.ofArguments : List String → Except Usage Command
  | [] => .error .helpForNothing
  | "lex" :: args => Arguments.lex args
  | "render" :: args => Arguments.render args
  | "check" :: args => Arguments.check args
  | "help" :: args => .error (help args)
  | arg :: args => .error (leading arg args)

end Clipper
