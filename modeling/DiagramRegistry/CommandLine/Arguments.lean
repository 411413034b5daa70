import DiagramRegistry.Text.Blank

/-
# The arguments of a command

A command line is a command with options before and after its name.  A long option is two
dashes and a name, with its value behind an equals sign or as the next argument; a short one
is a dash and a letter, several of which may stand together, and the rest of the argument can
be the value of the last.  Two dashes alone end the options.  An option is given at most
once, an argument that looks like an option is never the value of another, and asking for
help ends the reading at once.
-/
namespace DiagramRegistry.CommandLine

/-- Why a command line is not carried out. -/
inductive Refusal where
  /-- Help was asked for. -/
  | help
  /-- The arguments do not fit the command. -/
  | usage
deriving DecidableEq, Repr

/-- An option that a command knows. -/
structure Flag where
  /-- The name after the two dashes. -/
  name : String
  /-- The letter after a single dash, if it has one. -/
  letter : Option Char
  /-- The option has a value. -/
  takesValue : Bool
deriving DecidableEq, Repr

/-- A command: its name, its options and its positional arguments. -/
structure Grammar where
  /-- The name of the command. -/
  name : String
  /-- The options of the command. -/
  flags : List Flag
  /-- The number of positional arguments that must be given. -/
  leastPositionals : Nat
  /-- The number of positional arguments that may be given. -/
  mostPositionals : Nat
  /-- The options that must be given. -/
  required : List String
  /-- The options of which none or both are given. -/
  together : List (String × String)
deriving DecidableEq, Repr

/-- What was read from some arguments. -/
structure Given where
  /-- The options, with their values if they have one. -/
  flags : List (String × Option String)
  /-- The positional arguments. -/
  positionals : List String
  /-- An option that is not yet settled, and its value if that has come. -/
  pending : Option (String × Option String)
  /-- The options have ended. -/
  ended : Bool
deriving DecidableEq, Repr

namespace Given

/-- Before the first argument. -/
def nothing : Given := ⟨[], [], none, false⟩

/-- Whether an option was given. -/
def has (g : Given) (name : String) : Bool := g.flags.any fun f => f.1 = name

/-- The value of an option. -/
def value? (g : Given) (name : String) : Option String :=
  (g.flags.find? fun f => f.1 = name).bind Prod.snd

/-- The next argument can only be the value of an option. -/
def awaitsValue (g : Given) : Bool :=
  match g.pending with
  | some (_, none) => true
  | _ => false

/-- Record an option; it is given at most once. -/
def record (g : Given) (name : String) (value : Option String) : Except Refusal Given :=
  if g.has name then .error .usage else .ok { g with flags := g.flags ++ [(name, value)] }

/-- Settle the option that is not yet settled; it must have got its value. -/
def settle (g : Given) : Except Refusal Given :=
  match g.pending with
  | none => .ok g
  | some (_, none) => .error .usage
  | some (name, some value) => { g with pending := none }.record name (some value)

/-- Take an option in that is complete. -/
def giveFlag (g : Given) (name : String) (value : Option String) : Except Refusal Given := do
  (← g.settle).record name value

/-- Take an option in whose value is the next argument. -/
def beginFlag (g : Given) (name : String) : Except Refusal Given := do
  return { ← g.settle with pending := some (name, none) }

/-- Help is asked for, unless an option before lacks its value. -/
def help (g : Given) : Except Refusal Given := do
  let _ ← g.settle
  .error .help

/-- Take a positional argument in. -/
def givePositional (grammar : Grammar) (g : Given) (arg : String) : Except Refusal Given := do
  if g.positionals.length < grammar.mostPositionals then
    let g ← g.settle
    return { g with positionals := g.positionals ++ [arg] }
  else
    .error .usage

/-- Take a long option in, given without its dashes. -/
def giveLong (grammar : Grammar) (g : Given) (arg : List Char) : Except Refusal Given :=
  let (name, value) :=
    match Text.cutAtFirst? '=' arg with
    | some (name, value) => (String.ofList name, some (String.ofList value))
    | none => (String.ofList arg, none)
  if name = "help" then if value.isSome then .error .usage else g.help
  else
    match grammar.flags.find? fun f => f.name = name with
    | none => .error .usage
    | some f =>
      if f.takesValue then
        if value.isSome then g.giveFlag name value else g.beginFlag name
      else if value.isSome then .error .usage
      else g.giveFlag name none

/-- Take short options in that stand together, given without their dash. -/
def giveShort (grammar : Grammar) (g : Given) : List Char → Except Refusal Given
  | [] => .ok g
  | c :: cs =>
    if c = 'h' then g.help
    else
      match grammar.flags.find? fun f => f.letter = some c with
      | none => .error .usage
      | some f =>
        if f.takesValue then
          match cs with
          | [] => g.beginFlag f.name
          | '=' :: value => g.giveFlag f.name (some (String.ofList value))
          | value => g.giveFlag f.name (some (String.ofList value))
        else do
          giveShort grammar (← g.giveFlag f.name none) cs

/-- Take an argument in. -/
def step (grammar : Grammar) (g : Given) (arg : String) : Except Refusal Given :=
  if g.ended then g.givePositional grammar arg
  else
    match arg.toList with
    | ['-', '-'] => .ok { g with ended := true }
    | '-' :: '-' :: cs => g.giveLong grammar cs
    | '-' :: c :: cs => g.giveShort grammar (c :: cs)
    | _ =>
      match g.pending with
      | some (name, none) => .ok { g with pending := some (name, some arg) }
      | _ => g.givePositional grammar arg

/-- What is given fits the command: every option is settled, and what must be given is. -/
def check (grammar : Grammar) (g : Given) : Except Refusal Given := do
  let g ← g.settle
  if grammar.leastPositionals ≤ g.positionals.length ∧ grammar.required.all g.has ∧
      grammar.together.all fun p => g.has p.1 = g.has p.2 then
    return g
  else
    .error .usage

end Given

/-- Read the arguments of a command. -/
def Grammar.read (grammar : Grammar) (args : List String) : Except Refusal Given := do
  (← args.foldlM (Given.step grammar) .nothing).check grammar

/-- A program with several commands: the options that stand before the name of the command,
and the commands. -/
structure Program where
  /-- What may stand before the name of the command. -/
  grammar : Grammar
  /-- The commands. -/
  commands : List Grammar
deriving DecidableEq, Repr

namespace Program

/-- Help on a command, or on asking for help, is asked for; nothing else may follow. -/
def helpOn (p : Program) : List String → Refusal
  | [] => .help
  | [name] => if name = "help" ∨ p.commands.any fun c => c.name = name then .help else .usage
  | _ => .usage

/-- Read a command line: what was given before the name of the command, the command, and what
was given after its name. -/
def read (p : Program) (before : Given) :
    List String → Except Refusal (Given × Grammar × Given)
  | [] => .error .usage
  | arg :: args =>
    if !before.ended && !before.awaitsValue && arg = "help" then .error (p.helpOn args)
    else
      match if before.ended || before.awaitsValue then none
        else p.commands.find? fun c => c.name = arg with
      | some command => do
        let after ← command.read args
        let before ← before.settle
        return (before, command, after)
      | none => do
        p.read (← before.step p.grammar arg) args

end Program

end DiagramRegistry.CommandLine
