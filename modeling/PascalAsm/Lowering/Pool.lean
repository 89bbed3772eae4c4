import PascalAsm.Assembly.Instruction

/-!
# The register pool

The registers that hold intermediate values. The free ones form a stack: its top is the register
that is being computed into, and it is taken off only when its value has to outlive the evaluation
of something else.

An operation gives either the pool after it or the reason why it is impossible; in the second case
there is no new pool, so nothing has changed. The pool counts what it hands out and takes back,
and `balance` compares the counts with those at an earlier `checkpoint`.
-/

namespace PascalAsm.Lowering

open Assembly

/-- How a request names a register that the pool cannot be asked for. -/
inductive RegisterError where
  /-- No pool has that many registers. -/
  | poolSize (count : Nat)
  /-- The register does not belong to the pool. -/
  | notMember (r : Reg)
  /-- The register is free already. -/
  | freedTwice (r : Reg)
  /-- A failure in the caller's own words. -/
  | other (detail : String)
deriving DecidableEq

/-- What is said about a request that makes no sense. -/
def RegisterError.message : RegisterError → String
  | .poolSize count => "register pool must hold 2 or 3 registers, not " ++ toString count
  | .notMember r => r.name64 ++ " is not a pool register"
  | .freedTwice r => r.name64 ++ " freed twice"
  | .other detail => detail

/-- Why the pool refuses an operation. -/
inductive PoolError where
  /-- The operation needs more free registers than there are. -/
  | exhausted
  /-- Registers were lost or gained since a checkpoint, or their order changed. -/
  | unbalanced (allocations frees : Nat)
  /-- The operation makes no sense for this pool. -/
  | invalid (error : RegisterError)
deriving DecidableEq

/-- A stack of free registers among the members. The order of the free ones is part of it, since the
top one is computed into. -/
structure Pool where
  /-- All registers that the pool owns, in their first order. -/
  members : List Reg
  /-- The free registers, top first. -/
  free : List Reg
  /-- How often a register was handed out. -/
  allocations : Nat := 0
  /-- How often a register was taken back. -/
  frees : Nat := 0
deriving DecidableEq

/-- What a pool looked like at one moment. The members never change, so they are left out. -/
structure Checkpoint where
  allocations : Nat
  frees : Nat
  free : List Reg
deriving DecidableEq

namespace Pool

/-- A pool of registers that are all free, the first on top. -/
def ofRegs (regs : List Reg) : Pool := { members := regs, free := regs }

/-- The pool of two or of three registers; there is no other. -/
def ofSize (count : Nat) : Except PoolError Pool :=
  match count with
  | 2 => .ok (ofRegs [.rdi, .rsi])
  | 3 => .ok (ofRegs [.rdi, .rsi, .rcx])
  | n => .error (.invalid (.poolSize n))

theorem ofSize_eq_ok_iff {count : Nat} {p : Pool} : ofSize count = .ok p ↔
    count = 2 ∧ p = ofRegs [.rdi, .rsi] ∨ count = 3 ∧ p = ofRegs [.rdi, .rsi, .rcx] := by
  constructor
  · intro h
    unfold ofSize at h
    split at h
    · exact .inl ⟨rfl, (Except.ok.inj h).symm⟩
    · exact .inr ⟨rfl, (Except.ok.inj h).symm⟩
    · cases h
  · rintro (⟨rfl, rfl⟩ | ⟨rfl, rfl⟩) <;> rfl

/-- How many registers the pool owns. It bounds the labels of the trees that can be computed. -/
def capacity (p : Pool) : Nat := p.members.length

/-- Whether every register is free. -/
def isFull (p : Pool) : Bool := p.free.length = p.members.length

/-- The registers that are handed out, in member order. Around a call inside of an expression these
are saved. -/
def held (p : Pool) : List Reg := p.members.filter (· ∉ p.free)

/-! ### Taking and giving back -/

/-- Takes the top register. -/
def allocate (p : Pool) : Except PoolError (Reg × Pool) :=
  match p.free with
  | [] => .error .exhausted
  | r :: rest => .ok (r, { p with free := rest, allocations := p.allocations + 1 })

/-- Takes one particular register from wherever it stands in the stack. It is how the registers of
arguments are reserved for a call. -/
def take (p : Pool) (r : Reg) : Except PoolError Pool :=
  if r ∉ p.members then .error (.invalid (.notMember r))
  -- one that is taken already counts as none that is free
  else if r ∉ p.free then .error .exhausted
  else .ok { p with free := p.free.erase r, allocations := p.allocations + 1 }

/-- Puts a register back on top. -/
def give (p : Pool) (r : Reg) : Except PoolError Pool :=
  if r ∉ p.members then .error (.invalid (.notMember r))
  else if r ∈ p.free then .error (.invalid (.freedTwice r))
  -- on top, so that what was taken last is taken first again
  else .ok { p with free := r :: p.free, frees := p.frees + 1 }

/-- The top register, which stays where it is. -/
def top (p : Pool) : Except PoolError Reg :=
  match p.free with
  | [] => .error .exhausted
  | r :: _ => .ok r

/-- Exchanges the two topmost registers. It is done twice around an operation whose right side comes
first, so the order is the same afterwards. -/
def swap (p : Pool) : Except PoolError Pool :=
  match p.free with
  | a :: b :: rest => .ok { p with free := b :: a :: rest }
  | _ => .error .exhausted

/-- Frees every register at once, in the first order. Nothing is counted: whoever does this puts
the old stack back with `restore`. -/
def reset (p : Pool) : Pool := { p with free := p.members }

/-- Puts an earlier stack of free registers back. -/
def restore (p : Pool) (free : List Reg) : Pool := { p with free := free }

/-! ### Balance -/

/-- The present moment, to compare a later one with. -/
def checkpoint (p : Pool) : Checkpoint := ⟨p.allocations, p.frees, p.free⟩

/-- Since the checkpoint exactly `held` registers more were handed out than taken back; and if that
is none, the stack is as it was. -/
def balance (p : Pool) (since : Checkpoint) (held : Nat) : Except PoolError Unit :=
  let allocations := p.allocations - since.allocations
  let frees := p.frees - since.frees
  -- the order is compared only if all were given back
  if allocations = frees + held ∧ (held = 0 → p.free = since.free) then .ok ()
  else .error (.unbalanced allocations frees)

end Pool

end PascalAsm.Lowering
