/-!
# Arguments of the command line

`gpc` has two commands. `compile` writes the assembly of a program to a file, and `check` only tells
what would be said. `Command.ofArgs` reads the arguments from left to right and ends at the first one
that is wrong, or that asks for the version or for help.

Flags stand anywhere after the name of their command; `--verbose` also before it. A value follows as
the next argument, which then may not begin with a dash; or it is attached: `--output=a.s`, `-o=a.s`,
`-oa.s`. Short flags may stand together. After `--` no argument is a flag.
-/

namespace PascalAsm.CommandLine

/-! ### Commands -/

/-- What a command does with its input. -/
inductive Action where
  /-- Writes the assembly. -/
  | compile (output : Option String) (comments : Bool)
  /-- Only checks whether there would be one. -/
  | check
deriving DecidableEq

/-- What the command line asks for. -/
structure Command where
  action : Action
  /-- The path of the tree. -/
  input : String
  registers : Nat
  /-- Whether the log is to tell what is done. -/
  verbose : Bool
deriving DecidableEq

/-! ### Flags -/

/-- A flag. -/
inductive Flag where
  | verbose
  | output
  | registers
  | comments
  | help
  | version
deriving DecidableEq

namespace Flag

/-- The long name of a flag. -/
def long : Flag → String
  | verbose => "verbose"
  | output => "output"
  | registers => "registers"
  | comments => "comments"
  | help => "help"
  | version => "version"

/-- The short name of a flag. -/
def short? : Flag → Option Char
  | verbose => some 'v'
  | output => some 'o'
  | help => some 'h'
  | version => some 'V'
  | registers | comments => none

/-- Whether a flag needs a value. -/
def takesValue : Flag → Bool
  | output | registers => true
  | _ => false

end Flag

/-- The part of the command line that an argument belongs to. -/
inductive Level where
  /-- Before the name of the command. -/
  | program
  | compile
  | check
deriving DecidableEq

/-- The flags that may stand at a level. -/
def Level.flags : Level → List Flag
  | program => [.verbose, .help, .version]
  | compile => [.verbose, .output, .registers, .comments, .help]
  | check => [.verbose, .registers, .help]

/-- The flag of a long name. -/
def Level.long? (l : Level) (name : String) : Option Flag := l.flags.find? (·.long = name)

/-- The flag of a letter. -/
def Level.short? (l : Level) (letter : Char) : Option Flag :=
  l.flags.find? (·.short? = some letter)

/-! ### Endings -/

/-- What is wrong with the arguments. -/
inductive Misuse where
  | unexpected (arg : String)
  | noCommand
  | unknownCommand (name : String)
  | noInput
  | noValue (flag : Flag)
  | needlessValue (flag : Flag)
  | repeated (flag : Flag)
  | emptyPath
  | notCount (text : String)
deriving DecidableEq

/-- What is said about wrong arguments. -/
def Misuse.message : Misuse → String
  | unexpected arg => "unexpected argument '" ++ arg ++ "' found"
  | noCommand => "a command is required"
  | unknownCommand name => "unrecognized command '" ++ name ++ "'"
  | noInput => "an input file is required"
  | noValue flag => "a value is required for '--" ++ flag.long ++ "'"
  | needlessValue flag => "no value is allowed for '--" ++ flag.long ++ "'"
  | repeated flag => "the argument '--" ++ flag.long ++ "' cannot be used multiple times"
  | emptyPath => "a path cannot be empty"
  | notCount text => "'" ++ text ++ "' is not a number of registers"

/-- Why there is no command to run. -/
inductive Ending where
  /-- The version was asked for. -/
  | version
  /-- Help was asked for. -/
  | help
  | misuse (misuse : Misuse)
deriving DecidableEq

/-! ### One argument -/

/-- What an argument is by its dashes. -/
inductive Arg where
  /-- Two dashes alone. -/
  | separator
  /-- A long flag, and the value that is attached to it. -/
  | long (name : String) (value : Option String)
  /-- Short flags, and perhaps the value of the last one. -/
  | short (letters : List Char)
  | plain (text : String)
deriving DecidableEq

/-- An argument by its dashes. A dash alone is no flag. -/
def Arg.ofString (s : String) : Arg :=
  match s.toList with
  | ['-', '-'] => .separator
  | '-' :: '-' :: body =>
    let name := String.ofList (body.takeWhile (· ≠ '='))
    match body.dropWhile (· ≠ '=') with
    -- the value is what follows the first equals sign, which may be nothing
    | _ :: value => .long name (some (String.ofList value))
    | [] => .long name none
  | '-' :: c :: letters => .short (c :: letters)
  | _ => .plain s

/-- The largest number that counts registers. -/
def maxCount : Nat := UInt64.size - 1

/-- The number of a text of decimal digits, before which a plus may stand. A number that does not
fit 64 bits is none. -/
def count? (s : String) : Option Nat :=
  -- no minus sign, and no sign alone
  let digits := match s.toList with
    | '+' :: rest => rest
    | chars => chars
  if digits ≠ [] ∧ digits.all Char.isDigit then
    let n := digits.foldl (fun n c => 10 * n + (c.toNat - '0'.toNat)) 0
    if n ≤ maxCount then some n else none
  else none

/-! ### All arguments -/

/-- What the arguments of one level said so far. Flags are noted with the latest first, and each can
stand once. -/
structure Given where
  flags : List Flag := []
  input : Option String := none
  output : Option String := none
  registers : Nat := 3
deriving DecidableEq

namespace Given

/-- Nothing so far. -/
def empty : Given := {}

/-- Notes a flag, which may stand only once. That holds at each level on its own. -/
def note (g : Given) (flag : Flag) : Except Ending Given :=
  if flag ∈ g.flags then .error (.misuse (.repeated flag))
  else .ok { g with flags := flag :: g.flags }

/-- Takes a flag that needs no value. -/
def raise (g : Given) : Flag → Except Ending Given
  | .help => .error .help
  | .version => .error .version
  | flag => g.note flag

/-- Takes a flag and its value. -/
def assign (g : Given) (flag : Flag) (value : String) : Except Ending Given := do
  let g ← g.note flag
  match flag with
  | .output =>
    -- an empty path is refused here, and not when the file is opened
    if value = "" then .error (.misuse .emptyPath) else return { g with output := some value }
  | .registers =>
    match count? value with
    | some n => return { g with registers := n }
    | none => .error (.misuse (.notCount value))
  | _ => .error (.misuse (.needlessValue flag))

/-- Takes an argument that is no flag: the input, which stands once. -/
def place (g : Given) (arg : String) : Except Ending Given :=
  if g.input.isSome then .error (.misuse (.unexpected arg))
  else if arg = "" then .error (.misuse .emptyPath)
  else .ok { g with input := some arg }

/-- Takes a long flag. Whether its value is still to come is said by the second part. -/
def takeLong (g : Given) (l : Level) (name : String) (value : Option String) :
    Except Ending (Given × Option Flag) :=
  match l.long? name with
  | none => .error (.misuse (.unexpected ("--" ++ name)))
  | some flag =>
    match flag.takesValue, value with
    | true, none => .ok (g, some flag)
    | true, some value => return (← g.assign flag value, none)
    | false, none => return (← g.raise flag, none)
    | false, some _ => .error (.misuse (.needlessValue flag))

/-- Takes short flags. What follows a flag that needs a value is its value. -/
def takeShort (g : Given) (l : Level) : List Char → Except Ending (Given × Option Flag)
  | [] => .ok (g, none)
  | letter :: rest =>
    match l.short? letter with
    | none => .error (.misuse (.unexpected (String.ofList ['-', letter])))
    | some flag =>
      if flag.takesValue then
        match rest with
        | [] => .ok (g, some flag)
        -- one equals sign belongs to the flag and not to the value
        | '=' :: value => return (← g.assign flag (String.ofList value), none)
        | value => return (← g.assign flag (String.ofList value), none)
      else do takeShort (← g.raise flag) l rest

/-- Takes the arguments of a command; the first one is the value of a flag that still has none. -/
def takeAll (l : Level) : Given → Option Flag → List String → Except Ending Given
  | g, none, [] => .ok g
  | _, some flag, [] => .error (.misuse (.noValue flag))
  | g, some flag, arg :: rest =>
    match Arg.ofString arg with
    | .plain value => do takeAll l (← g.assign flag value) none rest
    -- an argument that looks like a flag is never the value of the one before it
    | _ => .error (.misuse (.noValue flag))
  | g, none, arg :: rest =>
    match Arg.ofString arg with
    -- from here on everything is taken for the input, whatever it begins with
    | .separator => rest.foldlM place g
    | .long name value => do
      let (g, flag) ← g.takeLong l name value
      takeAll l g flag rest
    | .short letters => do
      let (g, flag) ← g.takeShort l letters
      takeAll l g flag rest
    | .plain arg => do takeAll l (← g.place arg) none rest

end Given

namespace Command

/-- The command that the arguments after its name ask for, given what was said before it. -/
def ofGiven (before g : Given) (action : Action) : Except Ending Command :=
  match g.input with
  | some input =>
    .ok { action, input, registers := g.registers, verbose := .verbose ∈ before.flags ++ g.flags }
  | none => .error (.misuse .noInput)

/-- What `help` says about the arguments after it: there is one text for everything. -/
def helpOn : List String → Ending
  | [] => .help
  | [topic] =>
    if topic ∈ ["compile", "check", "help"] then .help else .misuse (.unknownCommand topic)
  | topic :: _ => .misuse (.unknownCommand topic)

/-- The command of a name and the arguments after it, given what was said before it. Letter case
matters, and no name may be shortened. -/
def ofName (before : Given) (name : String) (args : List String) : Except Ending Command := do
  match name with
  | "compile" =>
    let g ← Given.takeAll .compile .empty none args
    ofGiven before g (.compile g.output (.comments ∈ g.flags))
  | "check" => ofGiven before (← Given.takeAll .check .empty none args) .check
  | "help" => .error (helpOn args)
  | name => .error (.misuse (.unknownCommand name))

/-- The command that arguments ask for, once some before them are taken. -/
def afterFlags : Given → List String → Except Ending Command
  | _, [] => .error (.misuse .noCommand)
  | g, arg :: rest =>
    match Arg.ofString arg with
    | .separator => .error (.misuse (rest.head?.elim .noCommand .unknownCommand))
    | .long name value => do afterFlags (← g.takeLong .program name value).1 rest
    | .short letters => do afterFlags (← g.takeShort .program letters).1 rest
    | .plain name => ofName g name rest

/-- The command that the arguments ask for. -/
def ofArgs (args : List String) : Except Ending Command := afterFlags .empty args

end Command

end PascalAsm.CommandLine
