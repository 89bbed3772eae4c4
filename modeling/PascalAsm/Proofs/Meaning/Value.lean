import PascalAsm.Syntax.Program

/-!
# The meaning of expressions

What an expression of the source language is worth, said on the syntax alone.

* **`Store`** — the values of a routine's variables. A variable without a value has not been
  assigned yet, and reading it has no meaning.
* **`Callees`** — what the calls of an expression do. A callee gets its arguments and the world `W`
  around the program, and answers with a result, which a procedure does not have, and the world
  afterwards. It refuses a call that it has no answer to, for instance one with a wrong number of
  arguments.
* **`Expr.eval`** — the value of an integer expression: 32-bit arithmetic that wraps, division
  truncated toward zero, a real read as the integer part of its value. An operation that traps has
  no value: a division by zero, and the division of the least integer by minus one.
* **`Expr.outcome`** — the truth value of a condition, together with the comparisons that were made
  to find it, in the order in which they were made.

Where both operands have effects, it matters which one is evaluated first: it is the one that needs
more registers, and the left one if both need the same number. `Expr.registers` is that number.
Connectives go from left to right and leave out a right side that cannot change the outcome.
-/

namespace PascalAsm

/-! ## Operators -/

/-- A division that the processor refuses: by zero, or with a quotient beyond 32 bits. -/
def Traps (a b : Int32) : Prop := b = 0 ∨ (a = Int32.minValue ∧ b = -1)

instance (a b : Int32) : Decidable (Traps a b) := by unfold Traps; infer_instance

/-- The value of a sum or difference. -/
def AddOp.value : AddOp → Int32 → Int32 → Int32
  | .plus, a, b => a + b
  | .minus, a, b => a - b

/-- The value of a product, quotient or remainder, unless the operation traps. A division of reals
is one of integers here, as the generator has it after a warning. -/
def MulOp.value? : MulOp → Int32 → Int32 → Option Int32
  | .star, a, b => some (a * b)
  | .slash, a, b | .div, a, b => if Traps a b then none else some (a / b)
  | .mod, a, b => if Traps a b then none else some (a % b)

/-- Whether two integers are in a relation, as signed numbers. The jump that tests it has to be the
one for signed numbers, `holds_jumpCondition`. -/
def RelOp.holds : RelOp → Int32 → Int32 → Bool
  | .eq, a, b => a = b
  | .ne, a, b => a ≠ b
  | .lt, a, b => a < b
  | .le, a, b => a ≤ b
  | .gt, a, b => b < a
  | .ge, a, b => b ≤ a

/-! ## Stores and effects -/

/-- The values of the variables of a routine; a variable that was not assigned has none. -/
abbrev Store := String → Option Int32

namespace Store

/-- No variable has a value. -/
def empty : Store := fun _ => none

/-- A variable gets a value. -/
def set (s : Store) (x : String) (v : Int32) : Store := fun y => if y = x then some v else s y

@[simp] theorem set_self (s : Store) (x : String) (v : Int32) : s.set x v x = some v := by
  simp [set]

theorem set_of_ne (s : Store) {x y : String} (v : Int32) (h : y ≠ x) : s.set x v y = s y := by
  simp [set, h]

end Store

/-- A computation that may change the world around the program, and may have no meaning. The world
comes in because calls may read and write; a failure has no world to go on with. -/
abbrev Eval (W : Type) := StateT W Option

namespace Eval

variable {W α β : Type}

/-- A value that may be missing. -/
def ofOption (a : Option α) : Eval W α := fun w => a.map (·, w)

@[simp] theorem ofOption_apply (a : Option α) (w : W) :
    (ofOption a : Eval W α) w = a.map (·, w) := rfl

@[simp] theorem ofOption_some (a : α) : (ofOption (some a) : Eval W α) = pure a := rfl

@[simp] theorem pure_apply (a : α) (w : W) : (pure a : Eval W α) w = some (a, w) := rfl

@[simp] theorem failure_apply (w : W) : (failure : Eval W α) w = none := rfl

/-- A computation of two steps has a result exactly when the first step has one and the second
has one after it. -/
theorem bind_eq_some_iff {m : Eval W α} {f : α → Eval W β} {w w'' : W} {b : β} :
    (m >>= f) w = some (b, w'') ↔ ∃ a w', m w = some (a, w') ∧ f a w' = some (b, w'') := by
  change (m w).bind (fun p => f p.1 p.2) = _ ↔ _
  rw [Option.bind_eq_some_iff]
  exact ⟨fun ⟨p, h, h'⟩ => ⟨p.1, p.2, h, h'⟩, fun ⟨a, w', h, h'⟩ => ⟨(a, w'), h, h'⟩⟩

/-- Two operands, of which the right one may be evaluated first. The one that needs more registers
comes first in the code, and since both may have effects the order is part of the meaning. -/
def operands (rightFirst : Bool) (left right : Eval W Int32) : Eval W (Int32 × Int32) :=
  if rightFirst then do
    let b ← right
    let a ← left
    return (a, b)
  else do
    let a ← left
    let b ← right
    return (a, b)

/-- A first step without an effect leaves the world to the second one. `h` says that the first step
does not look at the world. -/
theorem bind_of_eq_map {m : Eval W α} {o : Option α} {w : W} (h : m w = o.map (·, w))
    (f : α → Eval W β) : (m >>= f) w = o.bind fun a => f a w := by
  change (m w).bind (fun p => f p.1 p.2) = _
  rw [h]
  cases o <;> rfl

/-- An operand that has no effect has the same value before the other one and after it. -/
theorem operands_ofOption {rightFirst : Bool} {left : Eval W Int32} {o : Option Int32} {a b : Int32}
    {w w' : W} (h : operands rightFirst left (ofOption o) w = some ((a, b), w')) :
    left w = some (a, w') ∧ o = some b := by
  -- In either order the side without effects leaves the world as it is, by `hw`.
  cases rightFirst with
  | true =>
    obtain ⟨b', w₁, hb, h⟩ := bind_eq_some_iff.1 h
    obtain ⟨a', w₂, ha, h⟩ := bind_eq_some_iff.1 h
    obtain ⟨⟨rfl, rfl⟩, rfl⟩ := by simpa using h
    obtain ⟨_, rfl, hw⟩ := Option.map_eq_some_iff.1 hb
    obtain ⟨rfl, rfl⟩ := Prod.mk.inj hw
    exact ⟨ha, rfl⟩
  | false =>
    obtain ⟨a', w₁, ha, h⟩ := bind_eq_some_iff.1 h
    obtain ⟨b', w₂, hb, h⟩ := bind_eq_some_iff.1 h
    obtain ⟨⟨rfl, rfl⟩, rfl⟩ := by simpa using h
    obtain ⟨_, rfl, hw⟩ := Option.map_eq_some_iff.1 hb
    obtain ⟨rfl, rfl⟩ := Prod.mk.inj hw
    exact ⟨ha, rfl⟩

/-- Operands without effects can be evaluated in either order. That is how the meaning with effects
and the one without come together, `eval_callees`. -/
theorem operands_of_eq_map {left right : Eval W Int32} {o o' : Option Int32} {w : W}
    (hl : left w = o.map (·, w)) (hr : right w = o'.map (·, w)) (rightFirst : Bool) :
    operands rightFirst left right w =
      (o.bind fun a => o'.bind fun b => some (a, b)).map (·, w) := by
  -- In either order `bind_of_eq_map` removes both binds, by `hl` and by `hr`.
  cases rightFirst with
  | true =>
    rw [operands, if_pos rfl, bind_of_eq_map hr]
    simp only [bind_of_eq_map hl]
    cases o <;> cases o' <;> rfl
  | false =>
    rw [operands, if_neg Bool.false_ne_true, bind_of_eq_map hl]
    simp only [bind_of_eq_map hr]
    cases o <;> cases o' <;> rfl

end Eval

/-- What calls do: from the callee, its arguments and the world to the result, which may be absent,
and the world afterwards. -/
abbrev Callees (W : Type) := String → List Int32 → Eval W (Option Int32)

/-! ## Integer expressions -/

namespace Expr

/-- The number of registers that two operands need together: one more than either if both need the
same number, else the greater number. -/
def joinRegisters (left right : Nat) : Nat := if left = right then left + 1 else max left right

/-- The number of registers that an expression needs. A variable, a number or a call needs one if it
is the operand of something, and otherwise none beside the one that takes the value. -/
def registers (operand : Bool) : Expr → Nat
  | var .. | integer .. | real .. | call .. => if operand then 1 else 0
  | sign _ e => e.registers true
  | add _ _ left right | mul _ _ left right | relational _ _ left right =>
    joinRegisters (left.registers true) (right.registers true)
  | element .. | logical .. | not .. => 0

/-- Whether the right one of two operands is evaluated before the left one. The numbers of registers
are those of the expressions themselves, so that the meaning does not mention the trees. -/
def rightFirst (left right : Expr) : Bool := left.registers true < right.registers true

variable {W : Type}

mutual

/-- The value of an integer expression. Real numbers are cut off to integers, and variables that
have no value leave the expression without one. -/
def eval (calls : Callees W) (store : Store) : Expr → Eval W Int32
  | var _ x => Eval.ofOption (store x)
  | integer _ v => pure v
  | real _ v => pure v.truncate
  | sign _ e => do return -(← e.eval calls store)
  | add _ op left right => do
    let (a, b) ← Eval.operands (rightFirst left right) (left.eval calls store)
      (right.eval calls store)
    return op.value a b
  | mul _ op left right => do
    let (a, b) ← Eval.operands (rightFirst left right) (left.eval calls store)
      (right.eval calls store)
    Eval.ofOption (op.value? a b)
  | call _ callee args => do
    let values ← evalAll calls store args
    let result ← calls callee values
    Eval.ofOption result
  | element .. | relational .. | logical .. | not .. => failure

/-- The values of expressions, evaluated from left to right. Arguments are staged in this order. -/
def evalAll (calls : Callees W) (store : Store) : List Expr → Eval W (List Int32)
  | [] => pure []
  | e :: rest => do
    let v ← e.eval calls store
    let values ← evalAll calls store rest
    return v :: values

end

end Expr

/-! ## Integer expressions without effects -/

/-- Results of functions that depend on their arguments alone. A function has a result for as many
arguments as it takes. -/
abbrev Functions := String → List Int32 → Option Int32

/-- Functions as callees, which leave the world as it is. With them an expression has a value that
depends on its variables only. -/
def Functions.callees {W : Type} (F : Functions) : Callees W := fun name args w =>
  (F name args).map fun v => (some v, w)

namespace Expr

mutual

/-- The value of an integer expression whose calls have no effects, the operands in the order in
which they are written. -/
def value? (F : Functions) (store : Store) : Expr → Option Int32
  | var _ x => store x
  | integer _ v => some v
  | real _ v => some v.truncate
  | sign _ e => do return -(← e.value? F store)
  | add _ op left right => do
    let a ← left.value? F store
    let b ← right.value? F store
    return op.value a b
  | mul _ op left right => do
    let a ← left.value? F store
    let b ← right.value? F store
    op.value? a b
  | call _ callee args => do
    let values ← values? F store args
    F callee values
  | element .. | relational .. | logical .. | not .. => none

/-- The values of expressions whose calls have no effects. -/
def values? (F : Functions) (store : Store) : List Expr → Option (List Int32)
  | [] => some []
  | e :: rest => do
    let v ← e.value? F store
    let values ← values? F store rest
    return v :: values

end

mutual

/-- Without effects the order of evaluation does not matter. By recursion over the expression,
`operands_of_eq_map` at each operation. -/
theorem eval_callees {W : Type} (F : Functions) (store : Store) (w : W) :
    ∀ e : Expr, e.eval F.callees store w = (e.value? F store).map (·, w)
  | var _ x => rfl
  | integer _ v => rfl
  | real _ v => rfl
  | sign _ e => by
    rw [eval, Eval.bind_of_eq_map (eval_callees F store w e), value?]
    cases e.value? F store <;> rfl
  | add _ op left right => by
    rw [eval, Eval.bind_of_eq_map (Eval.operands_of_eq_map (eval_callees F store w left)
      (eval_callees F store w right) _), value?]
    cases left.value? F store <;> cases right.value? F store <;> rfl
  | mul _ op left right => by
    rw [eval, Eval.bind_of_eq_map (Eval.operands_of_eq_map (eval_callees F store w left)
      (eval_callees F store w right) _), value?]
    cases left.value? F store <;> cases right.value? F store <;> rfl
  | call _ callee args => by
    rw [eval, Eval.bind_of_eq_map (evalAll_callees F store w args), value?]
    cases values? F store args with
    | none => rfl
    | some values =>
      -- the world is passed on as it is
      change (F callee values).map _ >>= _ = (F callee values).map _
      cases F callee values <;> rfl
  | element .. | relational .. | logical .. | not .. => rfl

/-- The same for several expressions. -/
theorem evalAll_callees {W : Type} (F : Functions) (store : Store) (w : W) :
    ∀ es : List Expr, evalAll F.callees store es w = (values? F store es).map (·, w)
  | [] => rfl
  | e :: rest => by
    rw [evalAll, Eval.bind_of_eq_map (eval_callees F store w e), values?]
    simp only [Eval.bind_of_eq_map (evalAll_callees F store w rest)]
    cases e.value? F store <;> cases values? F store rest <;> rfl

end

end Expr

/-! ## Conditions -/

namespace Expr

/-- The number of comparisons that are written in a condition. -/
def comparisons : Expr → Nat
  | relational .. => 1
  | logical _ _ left right => left.comparisons + right.comparisons
  | not _ e => e.comparisons
  | _ => 0

end Expr

/-- A comparison that was made: which one, counted from zero, and what was compared. Two comparisons
with the same sides at different places are told apart by it. -/
structure Comparison where
  number : Nat
  left : Int32
  right : Int32
deriving DecidableEq

namespace Expr

variable {W : Type}

/-- The truth value of a condition and the comparisons that were made to find it. The comparisons of
the condition are counted on from `number`, in the order in which they are written. -/
def outcome (calls : Callees W) (store : Store) (number : Nat) :
    Expr → Eval W (Bool × List Comparison)
  | relational _ op left right => do
    let (a, b) ← Eval.operands (rightFirst left right) (left.eval calls store)
      (right.eval calls store)
    return (op.holds a b, [⟨number, a, b⟩])
  | not _ e => do
    let (truth, made) ← e.outcome calls store number
    return (!truth, made)
  | logical _ op left right => do
    let (truth, made) ← left.outcome calls store number
    -- a true side settles an `or`, a false side settles an `and`
    if truth = (op = .or : Bool) then return (truth, made)
    else do
      let (truth', made') ← right.outcome calls store (number + left.comparisons)
      return (truth', made ++ made')
  | _ => failure

/-- The left side of a connective settles the outcome, or the right side decides it. It is the
inversion that the code of a connective is compared with, one disjunct for each way out. -/
theorem outcome_logical {calls : Callees W} {store : Store} {number : Nat} {line : Line}
    {op : LogicalOp} {left right : Expr} {w w' : W} {truth : Bool} {made : List Comparison}
    (h : (logical line op left right).outcome calls store number w = some ((truth, made), w')) :
    ∃ truth₁ made₁ w₁, left.outcome calls store number w = some ((truth₁, made₁), w₁) ∧
      (truth₁ = (op = .or : Bool) ∧ truth = truth₁ ∧ made = made₁ ∧ w' = w₁ ∨
        truth₁ ≠ (op = .or : Bool) ∧ ∃ made₂, made = made₁ ++ made₂ ∧
          right.outcome calls store (number + left.comparisons) w₁ = some ((truth, made₂), w')) := by
  obtain ⟨⟨truth₁, made₁⟩, w₁, hl, h⟩ := Eval.bind_eq_some_iff.1 h
  refine ⟨truth₁, made₁, w₁, hl, ?_⟩
  -- `or` is settled by a true left side and `and` by a false one.
  by_cases hsettled : truth₁ = (op = .or : Bool)
  · obtain ⟨⟨rfl, rfl⟩, rfl⟩ := by simpa [hsettled] using h
    exact .inl ⟨hsettled, hsettled.symm, rfl, rfl⟩
  · simp only [hsettled, if_false] at h
    obtain ⟨⟨truth₂, made₂⟩, w₂, hr, hp⟩ := Eval.bind_eq_some_iff.1 h
    obtain ⟨⟨rfl, rfl⟩, rfl⟩ := by simpa using hp
    exact .inr ⟨hsettled, made₂, rfl, hr⟩

/-- No comparison of a condition is made twice, and none before one that is written further to the
left. -/
theorem outcome_increasing {calls : Callees W} {store : Store} {e : Expr} {number : Nat} {w w' : W}
    {truth : Bool} {made : List Comparison}
    (h : e.outcome calls store number w = some ((truth, made), w')) :
    made.Pairwise (·.number < ·.number) ∧
      ∀ c ∈ made, number ≤ c.number ∧ c.number < number + e.comparisons := by
  induction number, e using outcome.induct generalizing w w' truth made with
  | case1 number line op left right =>
    obtain ⟨⟨a, b⟩, w₁, -, hp⟩ := Eval.bind_eq_some_iff.1 h
    obtain ⟨⟨rfl, rfl⟩, rfl⟩ := by simpa using hp
    simp [comparisons]
  | case2 number line e ih =>
    obtain ⟨⟨truth', made'⟩, w₁, hv, hp⟩ := Eval.bind_eq_some_iff.1 h
    obtain ⟨⟨rfl, rfl⟩, rfl⟩ := by simpa using hp
    exact ih hv
  | case3 number line op left right ihl ihr =>
    -- the left side settles the condition, or the right side counts on from it
    obtain ⟨truth₁, made₁, w₁, hl, ⟨-, -, rfl, -⟩ | ⟨-, made₂, rfl, hr⟩⟩ := outcome_logical h
    · obtain ⟨hinc, hrange⟩ := ihl hl
      refine ⟨hinc, fun c hc => ?_⟩
      have := hrange c hc
      simp only [comparisons]
      omega
    · obtain ⟨hinc₁, hrange₁⟩ := ihl hl
      obtain ⟨hinc₂, hrange₂⟩ := ihr hr
      refine ⟨List.pairwise_append.2 ⟨hinc₁, hinc₂, fun a ha b hb => ?_⟩, fun c hc => ?_⟩
      · have hleft := hrange₁ a ha
        have hright := hrange₂ b hb
        omega
      · simp only [comparisons]
        rcases List.mem_append.1 hc with hc | hc
        · have := hrange₁ c hc
          omega
        · have := hrange₂ c hc
          omega
  | case4 e number hcomparison hnot hlogical =>
    rw [outcome.eq_4 calls store number e hcomparison hnot hlogical] at h
    simp at h

/-- The truth value of a condition does not depend on how its comparisons are counted. Their numbers
only tell them apart in the list that comes with it. -/
theorem outcome_renumber {calls : Callees W} {store : Store} {e : Expr} {number : Nat} {w w' : W}
    {truth : Bool} {made : List Comparison}
    (h : e.outcome calls store number w = some ((truth, made), w')) (number' : Nat) :
    ∃ made', e.outcome calls store number' w = some ((truth, made'), w') := by
  induction number, e using outcome.induct generalizing w w' truth made number' with
  | case1 number line op left right =>
    obtain ⟨⟨a, b⟩, w₁, hab, hp⟩ := Eval.bind_eq_some_iff.1 h
    obtain ⟨⟨rfl, rfl⟩, rfl⟩ := by simpa using hp
    exact ⟨_, Eval.bind_eq_some_iff.2 ⟨(a, b), w₁, hab, rfl⟩⟩
  | case2 number line e ih =>
    obtain ⟨⟨truth', made'⟩, w₁, hv, hp⟩ := Eval.bind_eq_some_iff.1 h
    obtain ⟨⟨rfl, rfl⟩, rfl⟩ := by simpa using hp
    obtain ⟨made₁, hv₁⟩ := ih hv number'
    exact ⟨made₁, Eval.bind_eq_some_iff.2 ⟨_, _, hv₁, by simp⟩⟩
  | case3 number line op left right ihl ihr =>
    obtain ⟨truth₁, made₁, w₁, hl, hrest⟩ := outcome_logical h
    obtain ⟨made₁', hl'⟩ := ihl hl number'
    -- whether the right side is evaluated depends on the truth of the left one alone
    rcases hrest with ⟨hsettled, rfl, -, rfl⟩ | ⟨hopen, made₂, -, hr⟩
    · refine ⟨made₁', Eval.bind_eq_some_iff.2 ⟨(truth, made₁'), w', hl', ?_⟩⟩
      simp only [if_pos hsettled]
      rfl
    · obtain ⟨made₂', hr'⟩ := ihr hr (number' + left.comparisons)
      refine ⟨made₁' ++ made₂', Eval.bind_eq_some_iff.2 ⟨(truth₁, made₁'), w₁, hl', ?_⟩⟩
      simp only [if_neg hopen]
      exact Eval.bind_eq_some_iff.2 ⟨(truth, made₂'), w', hr', rfl⟩
  | case4 e number hcomparison hnot hlogical =>
    rw [outcome.eq_4 calls store number e hcomparison hnot hlogical] at h
    simp at h

/-- The truth value of a condition. -/
def holds (calls : Callees W) (store : Store) (e : Expr) : Eval W Bool := do
  let (truth, _) ← e.outcome calls store 0
  return truth

/-- A condition that holds or not comes out so, however its comparisons are counted. Statements ask
for the truth value and not for the list, so the code can be given any number to count from. -/
theorem exists_outcome {calls : Callees W} {store : Store} {e : Expr} {w w' : W} {truth : Bool}
    (h : e.holds calls store w = some (truth, w')) (number : Nat) :
    ∃ made, e.outcome calls store number w = some ((truth, made), w') := by
  obtain ⟨⟨truth', made⟩, w₁, hv, hp⟩ := Eval.bind_eq_some_iff.1 h
  obtain ⟨rfl, rfl⟩ := Prod.mk.inj (Option.some.inj hp)
  exact outcome_renumber hv number

end Expr

end PascalAsm
