import PascalAsm.Lowering.Routine
import PascalAsm.Proofs.Meaning.Run

/-!
# What is supported

The programs that code can be made for, said on the syntax alone. The names `S` are those of a
routine's variables, and `k` is the number of registers.

* **`Expr.Computable`** — the form of a value: no arrays and no truth values, only variables of the
  routine, and no calls of built-in procedures. The arguments of a call are values of their own.
* **`Expr.Supported`** — a value that needs no more registers than there are.
* **`Expr.Testable`** — a condition: comparisons under connectives.
* **`Stmt.Supported`** — a statement with such values and conditions.
* **`Routine.Supported`** — a routine whose variables can be laid out, with such a body.
* **`Program.Supported`** — a program of such routines, which can be told apart by their names.

All of this can be decided.
-/

namespace PascalAsm

open Assembly Lowering

namespace Expr

/-- The expression is one of the variables. So it is where a value is read into or assigned to. -/
def Names (S : List String) (e : Expr) : Prop := ∃ x ∈ S, e.varName? = some x

instance (S : List String) (e : Expr) : Decidable (e.Names S) := by unfold Names; infer_instance

mutual

/-- Code can be made for the expression as a part of a value, if there are registers enough. -/
def Computable (S : List String) (k : Nat) : Expr → Prop
  | var _ x => x ∈ S
  | integer .. | real .. => True
  | sign _ e => e.Computable S k
  | add _ _ left right | mul _ _ left right => left.Computable S k ∧ right.Computable S k
  | call _ callee args =>
    Builtin.ofName? callee = none ∧ args.length ≤ Convention.maxArguments ∧ Passable S k args
  | element .. | relational .. | logical .. | not .. => False

/-- Each of the expressions can be passed to a routine. -/
def Passable (S : List String) (k : Nat) : List Expr → Prop
  | [] => True
  | e :: rest => (e.Computable S k ∧ e.registers false ≤ k) ∧ Passable S k rest

end

/-- Code can be made for the expression as a value of its own. Its registers are those of a value
and not of an operand: a variable or a number needs none beside the one that takes it. -/
def Supported (S : List String) (k : Nat) (e : Expr) : Prop :=
  e.Computable S k ∧ e.registers false ≤ k

theorem passable_iff {S : List String} {k : Nat} {es : List Expr} :
    Passable S k es ↔ ∀ e ∈ es, e.Supported S k := by
  induction es with
  | nil => simp [Passable]
  | cons e rest ih => rw [Passable, List.forall_mem_cons, ih, Supported]

mutual

/-- Whether code can be made for the expression as a part of a value. -/
def decideComputable (S : List String) (k : Nat) : (e : Expr) → Decidable (e.Computable S k)
  | var _ x => inferInstanceAs (Decidable (x ∈ S))
  | integer .. | real .. => inferInstanceAs (Decidable True)
  | sign _ e => e.decideComputable S k
  | add _ _ left right | mul _ _ left right =>
    @instDecidableAnd _ _ (left.decideComputable S k) (right.decideComputable S k)
  | call _ callee args =>
    @instDecidableAnd _ _ (inferInstanceAs (Decidable (Builtin.ofName? callee = none)))
      (@instDecidableAnd _ _ (inferInstanceAs (Decidable (_ ≤ _))) (decidePassable S k args))
  | element .. | relational .. | logical .. | not .. => inferInstanceAs (Decidable False)

/-- Whether each of the expressions can be passed to a routine. -/
def decidePassable (S : List String) (k : Nat) : (es : List Expr) → Decidable (Passable S k es)
  | [] => inferInstanceAs (Decidable True)
  | e :: rest =>
    @instDecidableAnd _ _
      (@instDecidableAnd _ _ (e.decideComputable S k) (inferInstanceAs (Decidable (_ ≤ _))))
      (decidePassable S k rest)

end

instance (S : List String) (k : Nat) (e : Expr) : Decidable (e.Computable S k) :=
  e.decideComputable S k

instance (S : List String) (k : Nat) (e : Expr) : Decidable (e.Supported S k) := by
  unfold Supported; infer_instance

/-- Code can be made for the expression as a condition. Only comparisons and what connects them are;
an expression by itself is no condition, whatever its value. -/
def Testable (S : List String) (k : Nat) : Expr → Prop
  | relational _ _ left right =>
    (left.Computable S k ∧ right.Computable S k) ∧
      joinRegisters (left.registers true) (right.registers true) ≤ k
  | logical _ _ left right => left.Testable S k ∧ right.Testable S k
  | not _ e => e.Testable S k
  | _ => False

/-- Whether code can be made for the expression as a condition. -/
def decideTestable (S : List String) (k : Nat) : (e : Expr) → Decidable (e.Testable S k)
  | relational _ _ left right => inferInstanceAs (Decidable
      ((left.Computable S k ∧ right.Computable S k) ∧
        joinRegisters (left.registers true) (right.registers true) ≤ k))
  | logical _ _ left right =>
    @instDecidableAnd _ _ (left.decideTestable S k) (right.decideTestable S k)
  | not _ e => e.decideTestable S k
  | var .. | integer .. | real .. | sign .. | add .. | mul .. | call .. | element .. =>
    inferInstanceAs (Decidable False)

instance (S : List String) (k : Nat) (e : Expr) : Decidable (e.Testable S k) :=
  e.decideTestable S k

/-- Code can be made for a call as a statement. What is asked of the arguments depends on who is
called: values to be written, variables to be read, or at most as many values as there are
registers. -/
def Callable (S : List String) (k : Nat) (callee : String) (args : List Expr) : Prop :=
  match Builtin.ofName? callee with
  | some .write => ∀ e ∈ args, e.Supported S k
  | some .read => ∀ e ∈ args, e.Names S
  | none => args.length ≤ Convention.maxArguments ∧ ∀ e ∈ args, e.Supported S k

instance (S : List String) (k : Nat) (callee : String) (args : List Expr) :
    Decidable (Callable S k callee args) := by
  unfold Callable
  split <;> infer_instance

end Expr

/-- Code can be made for the start of a `for` statement. -/
def ForInit.Supported (S : List String) (k : Nat) : ForInit → Prop
  | .assign var value => var.Names S ∧ value.Supported S k
  | .keep var => var.Names S

instance (S : List String) (k : Nat) (init : ForInit) : Decidable (init.Supported S k) := by
  cases init <;> unfold ForInit.Supported <;> infer_instance

namespace Stmt

mutual

/-- Code can be made for the statement. -/
def Supported (S : List String) (k : Nat) : Stmt → Prop
  | assign _ target value => target.Names S ∧ value.Supported S k
  | call _ callee args => Expr.Callable S k callee args
  | compound _ body => SupportedAll S k body
  | ifThen _ condition thenBranch => condition.Testable S k ∧ thenBranch.Supported S k
  | ifElse _ condition thenBranch elseBranch =>
    condition.Testable S k ∧ thenBranch.Supported S k ∧ elseBranch.Supported S k
  | whileDo _ condition body => condition.Testable S k ∧ body.Supported S k
  | forTo line init limit body =>
    init.Supported S k ∧ (init.test line limit).Testable S k ∧ body.Supported S k

/-- Code can be made for each of the statements. -/
def SupportedAll (S : List String) (k : Nat) : List Stmt → Prop
  | [] => True
  | s :: rest => s.Supported S k ∧ SupportedAll S k rest

end

mutual

/-- Whether code can be made for the statement. -/
def decideSupported (S : List String) (k : Nat) : (s : Stmt) → Decidable (s.Supported S k)
  | assign _ target value => inferInstanceAs (Decidable (target.Names S ∧ value.Supported S k))
  | call _ callee args => inferInstanceAs (Decidable (Expr.Callable S k callee args))
  | compound _ body => decideSupportedAll S k body
  | ifThen _ condition thenBranch =>
    @instDecidableAnd _ _ (inferInstanceAs (Decidable (condition.Testable S k)))
      (thenBranch.decideSupported S k)
  | ifElse _ condition thenBranch elseBranch =>
    @instDecidableAnd _ _ (inferInstanceAs (Decidable (condition.Testable S k)))
      (@instDecidableAnd _ _ (thenBranch.decideSupported S k) (elseBranch.decideSupported S k))
  | whileDo _ condition body =>
    @instDecidableAnd _ _ (inferInstanceAs (Decidable (condition.Testable S k)))
      (body.decideSupported S k)
  | forTo line init limit body =>
    @instDecidableAnd _ _ (inferInstanceAs (Decidable (init.Supported S k)))
      (@instDecidableAnd _ _ (inferInstanceAs (Decidable ((init.test line limit).Testable S k)))
        (body.decideSupported S k))

/-- Whether code can be made for each of the statements. -/
def decideSupportedAll (S : List String) (k : Nat) :
    (ss : List Stmt) → Decidable (SupportedAll S k ss)
  | [] => inferInstanceAs (Decidable True)
  | s :: rest => @instDecidableAnd _ _ (s.decideSupported S k) (decideSupportedAll S k rest)

end

instance (S : List String) (k : Nat) (s : Stmt) : Decidable (s.Supported S k) :=
  s.decideSupported S k

end Stmt

namespace Routine

/-- The routine can be laid out: not too many parameters, no array among them, and different names
for all variables. -/
structure Sized (r : Routine) : Prop where
  count : r.paramCount ≤ Convention.maxArguments
  scalar : ∀ d ∈ r.params, ∃ line names type, d = .vars line names type
  nodup : r.varNames.Nodup

instance (d : Declaration) : Decidable (∃ line names type, d = .vars line names type) :=
  match d with
  | .vars line names type => .isTrue ⟨line, names, type, rfl⟩
  | .arrays .. => .isFalse fun ⟨_, _, _, h⟩ => nomatch h

instance (r : Routine) : Decidable r.Sized :=
  decidable_of_iff (r.paramCount ≤ Convention.maxArguments ∧
      (∀ d ∈ r.params, ∃ line names type, d = .vars line names type) ∧ r.varNames.Nodup)
    ⟨fun ⟨hcount, hscalar, hnodup⟩ => ⟨hcount, hscalar, hnodup⟩,
      fun h => ⟨h.count, h.scalar, h.nodup⟩⟩

/-- The routine can be laid out, and code can be made for its body. -/
structure Supported (r : Routine) (k : Nat) : Prop where
  sized : r.Sized
  body : r.body.Supported r.varNames k

instance (r : Routine) (k : Nat) : Decidable (r.Supported k) :=
  decidable_of_iff (r.Sized ∧ r.body.Supported r.varNames k)
    ⟨fun ⟨hsized, hbody⟩ => ⟨hsized, hbody⟩, fun h => ⟨h.sized, h.body⟩⟩

end Routine

/-- A program can be compiled with some number of registers. None of this mentions the generator: it
is said of the tree, and can be decided. -/
structure Program.Supported (p : Program) (k : Nat) : Prop where
  registers : k = 2 ∨ k = 3
  main : "main" ∉ p.routines.map (·.name)
  nodup : (p.routines.map (·.name)).Nodup
  routines : ∀ r ∈ p.routines, r.Supported k

instance (p : Program) (k : Nat) : Decidable (p.Supported k) :=
  decidable_of_iff ((k = 2 ∨ k = 3) ∧ "main" ∉ p.routines.map (·.name) ∧
      (p.routines.map (·.name)).Nodup ∧ ∀ r ∈ p.routines, r.Supported k)
    ⟨fun ⟨hregisters, hmain, hnodup, hroutines⟩ => ⟨hregisters, hmain, hnodup, hroutines⟩,
      fun h => ⟨h.registers, h.main, h.nodup, h.routines⟩⟩

end PascalAsm
