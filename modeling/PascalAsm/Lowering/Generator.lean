import PascalAsm.Lowering.Error
import PascalAsm.Lowering.Names
import PascalAsm.Diagnostic

/-!
# The generator monad

Code generation threads one `State` through everything: the open scopes, the register pool, the
label counter, and what was found on the way. A generator `Gen α` is a function from the state to
an `Outcome`, which has three parts:

* the result, or the error that ended it;
* the state afterwards, also after an error: what was changed before it stays changed;
* the code that was appended, also before an error.

Code is only ever appended: a generator has no access to the code that came before its own, and
sequencing two of them appends their code. `buffered` is the one way to withhold code.
-/

namespace PascalAsm.Lowering

open Assembly

/-! ### State -/

/-- What code generation knows at one moment. -/
structure State where
  /-- The open scopes, innermost first. -/
  scopes : Scopes := []
  /-- The arrays that each open scope declares; they have no slots. Innermost first. -/
  arrays : List (List String) := []
  pool : Pool
  /-- How many labels were drawn. -/
  labels : Nat := 0
  /-- How many calls have their arguments evaluated around the present place. -/
  callDepth : Nat := 0
  /-- The warnings, oldest first. -/
  warnings : List Warning := []
  /-- The routines that are complete, oldest first. -/
  finished : List Function := []

namespace State

/-- The state before anything is generated, with a pool of two or three registers. The pool is all
that can go wrong; nothing is open and nothing was drawn. -/
def initial (registers : Nat) : Except LoweringError State :=
  match Pool.ofSize registers with
  | .ok pool => .ok { pool }
  | .error e => .error (.ofPool e)

/-- Whether the innermost scope declares the name as an array. Arrays of the scopes around it are
not looked at, so a name of one of them is taken for undeclared. -/
def isArray (s : State) (name : String) : Bool :=
  match s.arrays with
  | [] => false
  | names :: _ => name ∈ names

/-- The slot of a variable of the present routine. A name without one is told apart by what else
it may be: an array, a variable of a routine around this one, or nothing at all. -/
def lookup (s : State) (name : String) (line : Line) : Except LoweringError Slot :=
  match s.scopes.find? name with
  | some slot => .ok slot
  | none =>
    -- only the innermost list of arrays is asked, and the names around it are asked for variables
    if s.isArray name then .error (.unsupported (.arrayVariable name) line)
    else if s.scopes.bindsOutside name then .error (.unsupported (.nonLocal name) line)
    else .error (.onLine (.undefinedVariable name) line)

/-- The warnings as a report about a source file. They keep the order in which they were raised. -/
def report (s : State) (source : String) : Report :=
  ⟨s.warnings.map fun w => ⟨.warning, w.coercion.message, .atLine source w.line⟩⟩

/-- At the end no scope is open and every register is free. A generator that got here has closed all
scopes and given back all registers, so this only guards against defects. -/
def checkDone (s : State) : Except LoweringError Unit :=
  if s.scopes.length ≠ 0 then .error (.fault (.internal (.openScopes s.scopes.length)) none)
  else if s.pool.isFull then .ok ()
  else .error (.fault (.registerImbalance s.pool.allocations s.pool.frees) none)

end State

/-! ### The monad -/

/-- What a generator leaves behind. All three are there whether it succeeded or not. -/
structure Outcome (α : Type) where
  result : Except LoweringError α
  state : State
  code : List Inst

/-- A step of code generation. It reads and changes the state, and appends code that nothing later
can change. -/
def Gen (α : Type) : Type := State → Outcome α

namespace Gen

variable {α β : Type}

/-- Runs a generator in a state. Everything that is shown of generators is about these runs. -/
def run (m : Gen α) (s : State) : Outcome α := m s

/-- Changes nothing and appends nothing. -/
protected def pure (a : α) : Gen α := fun s => ⟨.ok a, s, []⟩

/-- One generator after another, unless the first one fails. -/
protected def bind (m : Gen α) (f : α → Gen β) : Gen β := fun s =>
  match m s with
  | ⟨.ok a, s', code⟩ =>
    -- the second one sees the state of the first, but not its code
    let rest := f a s'
    { rest with code := code ++ rest.code }
  -- what was changed and emitted before the error stays
  | ⟨.error e, s', code⟩ => ⟨.error e, s', code⟩

instance : Monad Gen where
  pure := Gen.pure
  bind := Gen.bind

@[simp] theorem run_pure (a : α) (s : State) : (pure a : Gen α).run s = ⟨.ok a, s, []⟩ := rfl

/-- After a success the second generator runs in the state that the first one left, and its code
comes after the first one's. -/
theorem run_bind_of_ok {m : Gen α} (f : α → Gen β) {s s' : State} {a : α} {code : List Inst}
    (h : m.run s = ⟨.ok a, s', code⟩) :
    (m >>= f).run s = { (f a).run s' with code := code ++ ((f a).run s').code } := by
  change Gen.bind m f s = _
  rw [run] at h
  simp only [Gen.bind, h, run]

/-- After a failure there is no second generator. -/
theorem run_bind_of_error {m : Gen α} (f : α → Gen β) {s s' : State} {e : LoweringError}
    {code : List Inst} (h : m.run s = ⟨.error e, s', code⟩) :
    (m >>= f).run s = ⟨.error e, s', code⟩ := by
  change Gen.bind m f s = _
  rw [run] at h
  simp only [Gen.bind, h]

/-- Generators are equal when they leave the same behind in every state. -/
theorem ext {m n : Gen α} (h : ∀ s, m.run s = n.run s) : m = n := funext h

theorem bind_pure_right (m : Gen α) : (m >>= pure) = m := by
  refine ext fun s => ?_
  rcases h : m.run s with ⟨_ | a, s', code⟩
  · rw [run_bind_of_error _ h]
  · rw [run_bind_of_ok _ h, run_pure, List.append_nil]

theorem bind_assoc_right {γ : Type} (m : Gen α) (f : α → Gen β) (g : β → Gen γ) :
    (m >>= f >>= g) = m >>= fun a => f a >>= g := by
  refine ext fun s => ?_
  rcases h : m.run s with ⟨_ | a, s', code⟩
  · rw [run_bind_of_error _ (run_bind_of_error f h), run_bind_of_error _ h]
  · rw [run_bind_of_ok _ h]
    have hf := run_bind_of_ok f h
    rcases h' : (f a).run s' with ⟨_ | b, s'', code'⟩
    · rw [h'] at hf
      rw [run_bind_of_error g hf, run_bind_of_error g h']
    · rw [h'] at hf
      rw [run_bind_of_ok g hf, run_bind_of_ok g h']
      simp only [List.append_assoc]

instance : LawfulMonad Gen := LawfulMonad.mk' Gen bind_pure_right (fun _ _ => rfl) bind_assoc_right

/-- Fails. What was emitted before it stays emitted, unless it is withheld by `buffered`. -/
def fail (e : LoweringError) : Gen α := fun s => ⟨.error e, s, []⟩

/-- Goes on with the value of a computation, or fails as it did. -/
def ofExcept (r : Except LoweringError α) : Gen α := fun s => ⟨r, s, []⟩

/-- The present state. -/
def get : Gen State := fun s => ⟨.ok s, s, []⟩

/-- Changes the state. -/
def modify (f : State → State) : Gen Unit := fun s => ⟨.ok (), f s, []⟩

/-- Appends code. The state does not know what code there is, so code has no influence on what
follows. -/
def emit (code : List Inst) : Gen Unit := fun s => ⟨.ok (), s, code⟩

/-- An error of the generator is located on a line, unless it is already. So the line is that of the
innermost part that knew one. -/
def onLine (line : Line) (m : Gen α) : Gen α := fun s =>
  let o := m s
  { o with result := o.result.mapError (·.withLine line) }

/-- Runs a generator whose code counts only if it succeeds. -/
def buffered (m : Gen α) : Gen α := fun s =>
  match m s with
  | ⟨.ok a, s', code⟩ => ⟨.ok a, s', code⟩
  -- the state of the failing run is kept, its code is not
  | ⟨.error e, s', _⟩ => ⟨.error e, s', []⟩

/-- Runs a generator and goes on whether it failed or not. It is for what has to be undone before an
error may go on, such as an open scope. -/
def attempt (m : Gen α) : Gen (Except LoweringError α) := fun s =>
  let o := m s
  ⟨.ok o.result, o.state, o.code⟩

/-- Runs a generator and takes its code as a value instead of appending it. If it fails, its code is
lost. -/
def collect (m : Gen Unit) : Gen (List Inst) := fun s =>
  let o := m s
  ⟨o.result.map fun _ => o.code, o.state, []⟩

/-! ### Scopes and variables -/

/-- Opens a scope. A list of arrays is opened with it. -/
def enterScope : Gen Unit :=
  modify fun s => { s with scopes := s.scopes.enter, arrays := [] :: s.arrays }

/-- Closes the innermost scope. Without an open scope it fails, and that is its only failure. -/
def leaveScope : Gen Unit := do
  let (_, scopes) ← ofExcept ((← get).scopes.leave.mapError .frameLayout)
  -- the arrays of the scope go with it, so the two stacks stay as long as each other
  modify fun s => { s with scopes, arrays := s.arrays.tail }

/-- Notes an array of the innermost scope. An array has a name there and no slot. -/
def declareArray (name : String) : Gen Unit :=
  modify fun s => { s with arrays := s.arrays.modifyHead (· ++ [name]) }

/-- Gives a name a slot in the innermost scope. It is refused if the name has one there, or if a
later region has begun. -/
def addSlot (region : Region) (name : String) : Gen Slot := do
  let (slot, scopes) ← ofExcept ((Scopes.add region name (← get).scopes).mapError .frameLayout)
  modify fun s => { s with scopes }
  return slot

/-- The slot of a variable as an operand. The error, if there is none, is on the line of the
variable. -/
def varOperand (name : String) (line : Line) : Gen Operand := do
  let slot ← ofExcept ((← get).lookup name line)
  return slot.operand

/-- The slot of a temporary as an operand; its first use lays it out. -/
def tempOperand (name : String) : Gen Operand := do
  match (← get).scopes.find? name with
  | some slot => return slot.operand
  -- a later use of the same name finds this slot and lays out nothing
  | none => return (← addSlot .temporary name).operand

/-- The room that the innermost scope needs in its frame. It is asked for when the body is complete,
as temporaries are added until then. -/
def frameSize : Gen Nat := do
  let scope ← ofExcept ((← get).scopes.innermost.mapError .frameLayout)
  return scope.frameSize

/-! ### Registers -/

/-- An operation of the pool that gives a value. -/
def onPool (f : Pool → Except PoolError (α × Pool)) : Gen α := fun s =>
  match f s.pool with
  | .ok (a, pool) => ⟨.ok a, { s with pool }, []⟩
  -- a refusal leaves the state as it was
  | .error e => ⟨.error (.ofPool e), s, []⟩

/-- An operation of the pool that only changes it. -/
def changePool (f : Pool → Except PoolError Pool) : Gen Unit :=
  onPool fun p => (f p).map fun q => ((), q)

/-- A question to the pool. -/
def askPool (f : Pool → Except PoolError α) : Gen α :=
  onPool fun p => (f p).map fun a => (a, p)

/-- Takes the top register. It is handed out to keep a value while something else is computed. -/
def allocate : Gen Reg := onPool Pool.allocate

/-- Puts a register back on top. It has to be a member that is not free. -/
def free (r : Reg) : Gen Unit := changePool (·.give r)

/-- The register that is being computed into. It is not taken: what is computed into it may be taken
afterwards. -/
def target : Gen Reg := askPool Pool.top

/-- Exchanges the two topmost registers. -/
def swapTop : Gen Unit := changePool Pool.swap

/-- Takes those of the registers that belong to the pool. -/
def claim : List Reg → Gen (List Reg)
  | [] => return []
  | r :: rest => do
    if r ∈ (← get).pool.members then
      changePool (·.take r)
      return r :: (← claim rest)
    -- a register outside of the pool holds no value, so nothing has to be done about it
    else claim rest

/-- Puts registers back, the last one taken first. -/
def release (regs : List Reg) : Gen Unit := freeAll regs.reverse
where
  /-- Puts registers back in order. -/
  freeAll : List Reg → Gen Unit
    | [] => return ()
    | r :: rest => do free r; freeAll rest

/-! ### Labels, calls and warnings -/

/-- A label that was not drawn before. Numbers count up over a whole program, so no two functions
share a label. -/
def newLabel : Gen String := fun s =>
  ⟨.ok (localLabel s.labels), { s with labels := s.labels + 1 }, []⟩

/-- Begins to evaluate the arguments of a call. -/
def enterCall : Gen Unit := modify fun s => { s with callDepth := s.callDepth + 1 }

/-- Has evaluated the arguments of a call. -/
def leaveCall : Gen Unit := modify fun s => { s with callDepth := s.callDepth - 1 }

/-- Adds a warning. -/
def warn (w : Warning) : Gen Unit := modify fun s => { s with warnings := s.warnings ++ [w] }

/-- Adds warnings in order. -/
def warnAll (ws : List Warning) : Gen Unit := modify fun s => { s with warnings := s.warnings ++ ws }

/-- Completes a routine. Its function comes after those of the routines that were completed before.
-/
def finish (f : Function) : Gen Unit := modify fun s => { s with finished := s.finished ++ [f] }

end Gen

end PascalAsm.Lowering
