import PascalAsm.Proofs.Meaning.Value
import PascalAsm.Lowering.Call

/-!
# The meaning of statements and programs

What a statement does to the variables of its routine and to the world, and what a program writes
on an input. Like the meaning of expressions it is said on the syntax, and it can be run.

* **`Terminal`** — a world that numbers are read from and written to.
* **`Stmt.exec`** — the effect of a statement. `fuel` bounds the passes of every loop; a statement
  that needs more has no effect, and so has one that traps, reads a variable without a value, or
  asks for input that is not there.
* **`Program.callWithin`** — the effect of a call of a routine, with calls nested at most so many
  deep. Parameters get the arguments, and the other variables start without a value. The result of
  a function is the value of the variable of its own name, if it has one at the end.
* **`Program.runWithin`** — the numbers that a program writes when it is run on an input.

`for v := a to b do s` stands for `v := a; while v < b do begin s; v := v + 1 end`.
-/

namespace PascalAsm

/-! ## Worlds -/

/-- A world that numbers are read from and written to. -/
class Terminal (W : Type) where
  /-- The next number of the input, if there is one, and the world after it was taken. -/
  read? : W → Option (Int32 × W)
  /-- The world after a number was written. -/
  write : Int32 → W → W

/-- Numbers that are still to be read, and those that were written, oldest first. It is what
`Terminal` is about: reading takes the first number of the input, writing adds one to the output. -/
structure World where
  input : List Int32
  output : List Int32
deriving DecidableEq

instance : Terminal World where
  read?
    | ⟨[], _⟩ => none
    | ⟨v :: rest, output⟩ => some (v, ⟨rest, output⟩)
  write v w := ⟨w.input, w.output ++ [v]⟩

/-! ## Statements -/

/-- The effect of a part of a routine on its variables and on the world. There is none where the
part has no meaning, for instance if a division traps or the input is at its end. -/
abbrev Effect (W : Type) := Store → W → Option (Store × W)

namespace Effect

variable {W : Type}

/-- No effect. -/
def skip : Effect W := fun store w => some (store, w)

/-- One effect after another. -/
def followedBy (first second : Effect W) : Effect W := fun store w => do
  let (store, w) ← first store w
  second store w

/-- Repeats an effect as long as a test holds, and makes fewer passes than `fuel`. Where the loop
ends, any larger bound gives the same; where it does not, none gives anything. -/
def repeatWhile (test : Store → Eval W Bool) (body : Effect W) : Nat → Effect W
  | 0 => fun _ _ => none
  | fuel + 1 => fun store w => do
    let (again, w) ← test store w
    if again then (body.followedBy (repeatWhile test body fuel)) store w else some (store, w)

end Effect

section

variable {W : Type} [Terminal W]

/-- A variable is given the value of an expression. The value is computed first, from the variables
as they were. -/
def Expr.assignTo (calls : Callees W) (target value : Expr) : Effect W := fun store w => do
  let x ← target.varName?
  let (v, w) ← value.eval calls store w
  return (store.set x v, w)

/-- Each value is written as soon as it is known. A later value may thus depend on what an earlier
one has written or read. -/
def Expr.writeAll (calls : Callees W) : List Expr → Effect W
  | [] => Effect.skip
  | e :: rest => fun store w => do
    let (v, w) ← e.eval calls store w
    writeAll calls rest store (Terminal.write v w)

/-- Each variable gets the next number of the input. Where one is no variable there is no meaning,
and the generator refuses it, too. -/
def Expr.readAll : List Expr → Effect W
  | [] => Effect.skip
  | e :: rest => fun store w => do
    let x ← e.varName?
    let (v, w) ← Terminal.read? w
    readAll rest (store.set x v) w

/-- A procedure is called; reading and writing are what the language brings along. Their names
cannot be taken by routines, since the generator asks for them first. -/
def Expr.callEffect (calls : Callees W) (callee : String) (args : List Expr) : Effect W :=
  match Lowering.Builtin.ofName? callee with
  | some .write => Expr.writeAll calls args
  | some .read => Expr.readAll args
  | none => fun store w => do
    let (values, w) ← Expr.evalAll calls store args w
    let (_, w) ← calls callee values w
    return (store, w)

namespace Stmt

/-- The first value of the variable of a `for` statement, if it is given one. Where it keeps its
value, the loop goes on from there. -/
def startEffect (calls : Callees W) : ForInit → Effect W
  | .assign var value => Expr.assignTo calls var value
  | .keep _ => Effect.skip

mutual

/-- The effect of a statement whose loops make fewer passes than `fuel`. The test of a loop is
evaluated before each pass, the limit of a `for` statement included. -/
def exec (calls : Callees W) (fuel : Nat) : Stmt → Effect W
  | assign _ target value => Expr.assignTo calls target value
  | call _ callee args => Expr.callEffect calls callee args
  | compound _ body => execAll calls fuel body
  | ifThen _ condition thenBranch => fun store w => do
    let (truth, w) ← condition.holds calls store w
    if truth then thenBranch.exec calls fuel store w else return (store, w)
  | ifElse _ condition thenBranch elseBranch => fun store w => do
    let (truth, w) ← condition.holds calls store w
    if truth then thenBranch.exec calls fuel store w else elseBranch.exec calls fuel store w
  | whileDo _ condition body =>
    Effect.repeatWhile (condition.holds calls) (body.exec calls fuel) fuel
  | forTo line init limit body =>
    let below : Expr := .relational line .lt init.var limit
    let next : Expr := .add line .plus init.var (.integer line 1)
    (startEffect calls init).followedBy
      (Effect.repeatWhile (below.holds calls)
        ((body.exec calls fuel).followedBy (Expr.assignTo calls init.var next)) fuel)

/-- The effect of statements one after another. -/
def execAll (calls : Callees W) (fuel : Nat) : List Stmt → Effect W
  | [] => Effect.skip
  | s :: rest => (s.exec calls fuel).followedBy (execAll calls fuel rest)

end

end Stmt

end

/-! ## Routines and programs -/

/-- The names that declarations give to integers, in order; arrays get no storage. It is the order
in which slots are handed out. -/
def Declaration.scalars (ds : List Declaration) : List String :=
  ds.flatMap fun
    | .vars _ names _ => names
    | .arrays .. => []

mutual

/-- The routines of a subprogram, each after those that are nested in it. -/
def Subprogram.routines : Subprogram → List Routine
  | s@(.mk _ _ _ _ subprograms _ _) => Subprogram.routinesAll subprograms ++ [s.routine]

/-- The routines of subprograms. -/
def Subprogram.routinesAll : List Subprogram → List Routine
  | [] => []
  | s :: rest => s.routines ++ Subprogram.routinesAll rest

end

/-- All routines of a program, its own the last. This is the order in which the functions of a unit
are finished. -/
def Program.routines (p : Program) : List Routine :=
  Subprogram.routinesAll p.subprograms ++ [p.routine]

namespace Routine

/-- The names of the parameters. -/
def parameters (r : Routine) : List String := Declaration.scalars r.params

/-- The names of the variables that are no parameters, the result of a function among them. -/
def locals (r : Routine) : List String :=
  Declaration.scalars r.declarations ++ if r.returnsValue then [r.name] else []

/-- The names of all variables. -/
def varNames (r : Routine) : List String := r.parameters ++ r.locals

/-- The variables at the start of a call: parameters have the arguments for their values. Locals
have no value before they are given one, whatever a frame may hold. -/
def entryStore (r : Routine) (args : List Int32) : Store := fun x =>
  ((r.parameters.zip args).find? (·.1 = x)).map (·.2)

end Routine

namespace Program

variable {W : Type} [Terminal W]

/-- The effect of a call of a routine, with calls nested at most `depth` deep and loops that make
fewer passes. -/
def callWithin (p : Program) : Nat → Callees W
  | 0 => fun _ _ => failure
  | depth + 1 => fun callee args w => do
    let r ← p.routines.find? (·.name = callee)
    if args.length = r.parameters.length then
      let (store, w) ← r.body.exec (callWithin p depth) depth (r.entryStore args) w
      return (if r.returnsValue then store r.name else none, w)
    else none

/-- The numbers that a program writes on an input, if it comes to its end within the bound. -/
def runWithin (p : Program) (bound : Nat) (input : List Int32) : Option (List Int32) := do
  let (_, world) ← p.callWithin bound p.name [] (⟨input, []⟩ : World)
  return world.output

end Program

end PascalAsm
