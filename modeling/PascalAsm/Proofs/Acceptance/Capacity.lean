import PascalAsm.Proofs.Acceptance.Values
import PascalAsm.Proofs.Failures.Recovery

/-!
# The registers that arithmetic needs

An expression without calls needs registers for what its operations wait for, and nothing else. How
many these are can be read off its shape (`Expr.registers`), and it has code exactly if the pool has
that many members: `Expr.lower_of_isArithmetic`. Only the root of a tree is compared with the whole
pool. The nodes below find fewer registers free, and yet each of them finds enough.

A number of registers is needed only where there are operands for it. One register more takes twice as
many operands (`Expr.two_pow_registers_le`), so that an expression with few of them is never refused,
however it is nested.
-/

namespace PascalAsm

open Assembly Lowering Gen State

namespace Expr

/-- Whether the expression is made of variables and numbers by sums, products and minus signs. It
says nothing about the slots of the variables. -/
def isArithmetic : Expr → Bool
  | var .. | integer .. | real .. => true
  | sign _ e => e.isArithmetic
  | add _ _ left right | mul _ _ left right => left.isArithmetic && right.isArithmetic
  | element .. | call .. | relational .. | logical .. | not .. => false

/-- Whether the expression is a single variable or number. As the whole of an expression it goes
into the register that takes the value. -/
def isLeaf : Expr → Bool
  | var .. | integer .. | real .. => true
  | _ => false

/-- How many operands the operations of the expression have that are not operations themselves. It
is the number that registers are bounded by; a minus sign does not add to it. -/
def leaves : Expr → Nat
  | var .. | integer .. | real .. | call .. | element .. => 1
  | sign _ e | not _ e => e.leaves
  | add _ _ left right | mul _ _ left right | relational _ _ left right
  | logical _ _ left right => left.leaves + right.leaves

/-! ## Shape -/

/-- Registers are taken where two sides need equally many, and there the operands of both sides are
counted. -/
theorem two_pow_joinRegisters_le {m n a b : Nat} (ha : 2 ^ m ≤ a) (hb : 2 ^ n ≤ b) :
    2 ^ joinRegisters m n ≤ a + b := by
  unfold joinRegisters
  -- Either both need equally many and one more is taken, or the larger of the two is enough.
  split
  · rename_i heq
    rw [← heq] at hb
    calc 2 ^ (m + 1) = 2 ^ m + 2 ^ m := Nat.two_pow_succ m
      _ ≤ a + b := Nat.add_le_add ha hb
  · rcases Nat.le_total m n with hle | hle
    · rw [Nat.max_eq_right hle]
      omega
    · rw [Nat.max_eq_left hle]
      omega

/-- One register more takes twice as many operands. By induction on the expression, with
`two_pow_joinRegisters_le` at every operation on two operands. -/
theorem two_pow_registers_le : ∀ {e : Expr}, e.isArithmetic = true →
    2 ^ e.registers true ≤ 2 * e.leaves
  | var .., _ | integer .., _ | real .., _ => Nat.le_refl 2
  | sign _ e, h => two_pow_registers_le (e := e) h
  | add _ _ left right, h | mul _ _ left right, h => by
    rw [isArithmetic, Bool.and_eq_true] at h
    rw [registers, leaves, Nat.mul_add]
    exact two_pow_joinRegisters_le (two_pow_registers_le h.1) (two_pow_registers_le h.2)

/-- Only a single operand needs no register of its own. As an operand it counts for one all the
same, and all other expressions have one number for both. -/
theorem registers_false {e : Expr} (h : e.isArithmetic = true) :
    e.registers false = if e.isLeaf then 0 else e.registers true := by
  cases e with
  | var | integer | real | sign | add | mul => rfl
  | element | call | relational | logical | not => cases h

theorem registers_false_le {e : Expr} (h : e.isArithmetic = true) :
    e.registers false ≤ e.registers true := by
  rw [registers_false h]
  split
  · exact Nat.zero_le _
  · exact Nat.le_refl _

/-! ## Code -/

theorem computable_of_isArithmetic {S : List String} {k : Nat} : ∀ {e : Expr},
    e.isArithmetic = true → e.identifiers ⊆ S → e.Computable S k
  | var _ x, _, hS => hS (List.mem_singleton_self x)
  | integer .., _, _ | real .., _, _ => trivial
  | sign _ e, h, hS => computable_of_isArithmetic (e := e) h hS
  | add _ _ left right, h, hS | mul _ _ left right, h, hS => by
    rw [isArithmetic, Bool.and_eq_true] at h
    rw [identifiers, List.append_subset] at hS
    rw [Computable]
    exact ⟨computable_of_isArithmetic h.1 hS.1, computable_of_isArithmetic h.2 hS.2⟩

/-- The root of a tree is on the line of its expression. Errors of the root are on this line. -/
theorem line_of_ready {e : Expr} {operand : Bool} {ws : List Warning} {t : Tree}
    (h : Plan.ofExpr operand e = .ready ws t) : t.line = e.line := by
  refine tree_induction (motive := fun _ e t => t.line = e.line)
    ?var ?integer ?real ?call ?sign ?add ?mul e h
  case var | integer | real | call | sign | add | mul => intros; rfl

/-- Where all of its variables have slots, arithmetic has code exactly if there are registers enough. -/
theorem accepts_lower_of_isArithmetic {e : Expr} {s : State} {scope : Scope} {outer : Scopes}
    {r : Reg} {rest : List Reg} (hidle : s.pool.Idle) (hfree : s.pool.free = r :: rest)
    (hscopes : s.scopes = scope :: outer) (he : e.isArithmetic = true)
    (hbound : ∀ x ∈ e.identifiers, scope.binds x = true) :
    Accepts (· = s) e.lower (e.registers false ≤ s.pool.capacity) fun q _ => q = r := by
  have hnames : e.identifiers ⊆ scope.slots.map (·.name) := fun x hx =>
    Scope.binds_iff.1 (hbound x hx)
  have hperm : (r :: rest).Perm s.pool.members := hfree ▸ hidle.perm
  have hregs : s.pool.members.Nodup := hidle.perm.nodup_iff.1 hidle.sound.nodup
  have hne : s.pool.members ≠ [] := fun hnil =>
    hidle.free_ne_nil (List.perm_nil.1 (hnil ▸ hidle.perm))
  have haccepts := accepts_lower hregs hne hperm (e := e) fun x hx _ => hnames hx
  refine (haccepts.mono ?_ fun q t hq => hq.1).congr ?_
  · rintro t rfl
    exact hfree ▸ within_names hscopes
  · -- an expression of this form is a value, whatever the number of registers
    exact and_iff_right (computable_of_isArithmetic he hnames)

/-- **Registers needed against registers there are.** Let all registers of the pool be free, in any
order, and let the innermost scope have slots for the variables of an arithmetic expression. The label
of its tree is zero for a single operand and otherwise the number of registers that its shape needs. The
expression has code exactly if this is no more than the pool has, and its value is then in the register
that was on top; otherwise it is refused for being too complex, with these two numbers and its line.
A label takes `2 ^ (label - 1)` operands at least, so with fewer than `2 ^ capacity` operands every
expression has code.

Two provisos come with this. A scope has to be open, also where there are no variables, because a
division by a constant lays out a temporary in it (`hscopes`). And `Pool.Idle` speaks of the pools of
two and of three registers, which are all that `Pool.ofSize` makes. -/
theorem lower_of_isArithmetic {e : Expr} {s : State} {scope : Scope} {outer : Scopes}
    (hidle : s.pool.Idle) (hscopes : s.scopes = scope :: outer) (he : e.isArithmetic = true)
    (hbound : ∀ x ∈ e.identifiers, scope.binds x = true) :
    ∃ ws t, Plan.ofExpr false e = .ready ws t ∧
      t.label = (if e.isLeaf then 0 else e.registers true) ∧
      ((∃ r s' c, e.lower.Yields s r s' c) ↔ t.label ≤ s.pool.capacity) ∧
      (∀ r s' c, e.lower.Yields s r s' c → s.pool.free.head? = some r) ∧
      (s.pool.capacity < t.label → (e.lower.run s).result =
        .error (.onLine (.expressionTooComplex t.label s.pool.capacity) e.line)) ∧
      (1 ≤ t.label → 2 ^ (t.label - 1) ≤ e.leaves) ∧
      (e.leaves < 2 ^ s.pool.capacity → ∃ r s' c, e.lower.Yields s r s' c) := by
  obtain ⟨ws, t, hready⟩ :=
    (computable_of_isArithmetic (k := 0) he (List.Subset.refl _)).exists_ready false
  obtain ⟨r, rest, hfree⟩ := List.exists_cons_of_ne_nil hidle.free_ne_nil
  have haccepts := accepts_lower_of_isArithmetic hidle hfree hscopes he hbound
  have hlabel : t.label = e.registers false := label_of_ready hready
  have hleaves : 2 ^ t.label ≤ 2 * e.leaves :=
    calc 2 ^ t.label ≤ 2 ^ e.registers true :=
          Nat.pow_le_pow_right Nat.two_pos (hlabel ▸ registers_false_le he)
      _ ≤ 2 * e.leaves := two_pow_registers_le he
  have hyields : (∃ r s' c, e.lower.Yields s r s' c) ↔ t.label ≤ s.pool.capacity := by
    rw [hlabel]
    exact haccepts.yields_iff rfl
  refine ⟨ws, t, hready, hlabel.trans (registers_false he), hyields, fun q s' c hq => ?top,
    fun hlt => ?refused, fun hpos => ?operands, fun hfew => hyields.2 ?few⟩
  case top =>
    rw [hfree, haccepts.after rfl hq, List.head?_cons]
  case refused =>
    rw [lower, hready, Plan.run_lower_of_lt hlt, line_of_ready hready]
  case operands =>
    have htwo : 2 ^ t.label = 2 * 2 ^ (t.label - 1) := by
      rw [← Nat.pow_succ', Nat.succ_eq_add_one, Nat.sub_add_cancel hpos]
    omega
  case few =>
    -- with a register more than there are, there would be too many operands
    by_contra hmany
    have hpow : 2 ^ (s.pool.capacity + 1) ≤ 2 ^ t.label :=
      Nat.pow_le_pow_right Nat.two_pos (Nat.not_le.1 hmany)
    rw [Nat.pow_succ'] at hpow
    omega

/-! ### At the limit of two registers

In `-x + 2 * y` the right side is harder and comes first; two registers do, and the value is in the one
that was on top, here the second member of the pool. In `(x * y) * (x - y)` both sides need two registers,
and there are only two. -/

/-- The pool of two registers, all of them free, after they have been exchanged. It is the order in
which two values may have put them back, and not the order of a new pool. -/
def exchanged : State where
  scopes := [argumentAndLocal]
  pool := { members := [.rdi, .rsi], free := [.rsi, .rdi] }

/-- `-x + 2 * y`, which fits into two registers: the minus sign takes none, and the product takes
two. -/
def oppositeAndDouble : Expr :=
  .add 1 .plus (.sign 1 (.var 1 "x")) (.mul 1 .star (.integer 1 2) (.var 1 "y"))

/-- `(x * y) * (x - y)` on line 3, which takes three registers, since both sides take two of them.
-/
def productTimesDifference : Expr :=
  .mul 3 .star (.mul 3 .star (.var 3 "x") (.var 3 "y")) (.add 3 .minus (.var 3 "x") (.var 3 "y"))

theorem lower_of_isArithmetic_exchanged :
    (∃ s' c, oppositeAndDouble.lower.Yields exchanged .rsi s' c) ∧
    (productTimesDifference.lower.run exchanged).result =
      .error (.onLine (.expressionTooComplex 3 2) 3) := by
  have hidle : exchanged.pool.Idle := ⟨.inl rfl, List.Perm.swap ..⟩
  have hscopes : exchanged.scopes = argumentAndLocal :: [] := rfl
  -- Two registers, in exchanged order: enough for a tree of two, and too few for one of three.
  constructor
  · obtain ⟨ws, t, -, -, -, htop, -, -, hfew⟩ :=
      lower_of_isArithmetic hidle hscopes (e := oppositeAndDouble) (by decide) (by decide)
    obtain ⟨r, s', c, hyields⟩ := hfew (by decide)
    obtain rfl : .rsi = r := Option.some.inj (htop r s' c hyields)
    exact ⟨s', c, hyields⟩
  · obtain ⟨ws, t, -, hlabel, -, -, hrefused, -⟩ :=
      lower_of_isArithmetic hidle hscopes (e := productTimesDifference) (by decide) (by decide)
    have hthree : t.label = 3 := hlabel
    rw [hthree] at hrefused
    exact hrefused (by decide)

end Expr

end PascalAsm
