import Mathlib
import PascalAsm.Proofs.Simulation.Values

/-!
# Expressions are compiled correctly

The code of an expression computes the value of the expression, whatever registers are free when it
is made, and whatever calls leave in the registers when it is run.

* **`InBody`** — a state in which the code of a function body is made, as far as variables and
  registers are concerned.
* **`Scope.Holds`** — the slots of arguments and locals hold the values of a store.
* **`Targets.Compute`** — calls compute functions of their arguments.
-/

namespace PascalAsm

open Assembly Lowering

variable {W : Type}

/-! ## Bodies -/

/-- A scope is open whose slots are laid out; no argument or local begins with a dollar sign; and
the pool is that of two or three registers. -/
structure InBody (s : State) (scope : Scope) : Prop where
  isOpen : ∃ outer, s.scopes = scope :: outer
  laid : scope.Laid
  user : ∀ slot ∈ scope.slots, slot.region ≠ .temporary → ¬ Dollar slot.name
  sound : s.pool.Sound

/-- Arguments and locals hold the values of a store; nothing else has a value. It is said of the
slots of the scope, so that no layout has to be named. -/
def Lowering.Scope.Holds (scope : Scope) (store : Store) (m : Machine W) : Prop :=
  ∀ x v, store x = some v →
    ∃ slot ∈ scope.slots, slot.region ≠ .temporary ∧ slot.name = x ∧ m.slots slot.disp = v

/-- The slots of arguments and locals are the same in two machines. Temporaries may have changed,
and usually have. -/
def Lowering.Scope.SameVariables (scope : Scope) (m m' : Machine W) : Prop :=
  ∀ slot ∈ scope.slots, slot.region ≠ .temporary → m'.slots slot.disp = m.slots slot.disp

namespace InBody

variable {s s' : State} {scope : Scope} {P : String → Prop}

/-- What is laid out while the code of a part of a body is made. The scope was laid out before, and
temporaries that are added keep it so. -/
theorem laid_of_grows (h : InBody s scope) (hs : Scopes.Grows P s.scopes s'.scopes) :
    s'.scopes.Laid := by
  refine hs.laid ?_
  obtain ⟨outer, ho⟩ := h.isOpen
  intro q hq
  obtain rfl : scope = q := by simpa [ho] using hq
  exact h.laid

/-- A layout of a later state knows the slots of the scope. Slots that were there before are found
later, `Grows.find?`. -/
theorem place_eq (h : InBody s scope) (hs : Scopes.Grows P s.scopes s'.scopes) {L : Layout}
    (hL : L.Covers s'.scopes) {slot : Slot} (hslot : slot ∈ scope.slots) :
    L.place slot.name = some slot.disp := by
  obtain ⟨outer, ho⟩ := h.isOpen
  have hfind : s.scopes.find? slot.name = some slot := by
    rw [ho]
    exact h.laid.find?_of_mem hslot
  exact hL (hs.find? hfind)

theorem holds (h : InBody s scope) (hs : Scopes.Grows P s.scopes s'.scopes) {L : Layout}
    (hL : L.Covers s'.scopes) {store : Store} {m : Machine W} (hm : scope.Holds store m) :
    PascalAsm.Holds L store m := by
  intro x v hx
  obtain ⟨slot, hslot, hregion, rfl, hv⟩ := hm x v hx
  exact ⟨h.user slot hslot hregion, slot.disp, h.place_eq hs hL hslot, hv⟩

/-- Arguments and locals are not touched by what only uses temporaries. Their names have no dollar
sign, `h.user`, and those of temporaries do. -/
theorem sameVariables (h : InBody s scope) (hs : Scopes.Grows P s.scopes s'.scopes) {L : Layout}
    (hL : L.Covers s'.scopes) {R : Reg → Prop} {m m' : Machine W} {depth : Nat}
    (hk : Kept L (Temp depth) R m m') : scope.SameVariables m m' := by
  intro slot hslot hregion
  have htemp : ¬ Temp depth slot.name := fun ht => h.user slot hslot hregion (dollar_of_temp ht)
  exact hk.slot htemp (h.place_eq hs hL hslot)

end InBody

/-! ## Expressions -/

/-- Calls compute functions: a call that finds the arguments of a function in the registers comes
back with its result, and has changed neither the slots of the caller nor the world. What it leaves
in the other registers is open. -/
def Assembly.Targets.Compute (targets : Targets W) (F : Functions) : Prop :=
  ∀ name args (m : Machine W) v, m.Passes args → F name args = some v →
    ∃ m', targets name m = some m' ∧ m'.slots = m.slots ∧ m'.world = m.world ∧
      m'.regs Convention.resultReg = v

theorem answers_of_compute {targets : Targets W} {F : Functions} (h : targets.Compute F) :
    Answers targets F.callees := by
  intro name args m result w hpass hcall
  obtain ⟨v, hv, hp⟩ := Option.map_eq_some_iff.1 hcall
  obtain ⟨rfl, rfl⟩ := Prod.mk.inj hp
  obtain ⟨m', hm', hslots, hworld, hax⟩ := h name args m v hpass hv
  exact ⟨m', hm', hslots, hworld, fun _ hw => Option.some.inj hw ▸ hax⟩

/-- **The code of an expression computes its value.** It runs to its end; the register that the
generator names holds the value of the expression then; the registers that were in use before the
code was made have kept their contents, and so have the slots of arguments and locals. -/
theorem Expr.reaches_value_of_lower {e : Expr} {s s' : State} {r : Reg} {c : List Inst}
    {scope : Scope} {targets : Targets W} {F : Functions} {store : Store} {m : Machine W}
    {v : Int32} (hbody : InBody s scope) (hgen : e.lower.run s = ⟨.ok r, s', c⟩)
    (hcalls : targets.Compute F) (hstore : scope.Holds store m)
    (hvalue : e.value? F store = some v) :
    ∃ m', Reaches targets c ⟨.ahead c, m, []⟩ ⟨.ahead [], m', []⟩ ∧ m'.regs r = v ∧
      (∀ q ∈ s.pool.held, m'.regs q = m.regs q) ∧ scope.SameVariables m m' ∧
      m'.world = m.world := by
  obtain ⟨hs, -, -⟩ := Expr.lower_steady hgen
  let L := Layout.ofScopes s'.scopes (hbody.laid_of_grows hs.scopes)
  have hL : L.Covers s'.scopes := Layout.covers_ofScopes _ _
  -- The calls of `F` have no effect, so evaluation leaves the world alone.
  have heval : e.eval F.callees store m.world = some (v, m.world) := by
    rw [Expr.eval_callees, hvalue, Option.map_some]
  -- `Expr.lower_runs` keeps what is `Busy`, and held registers are busy.
  obtain ⟨m', hex, hr, hk, hw⟩ := Expr.lower_runs (answers_of_compute hcalls) hgen hL hbody.sound
    (hbody.holds hs.scopes hL hstore) heval
  refine ⟨m', ?_, hr, fun q hq => hk.regs q ?_, hbody.sameVariables hs.scopes hL hk, hw⟩
  · simpa only [List.append_nil] using Reaches.ofExecAll [] [] hex
  · obtain ⟨hmem, hfree⟩ := List.mem_filter.1 hq
    exact ⟨hmem, by simpa using hfree⟩

/-! ### An expression between others

The code of `x div 2 - sqr(y + 1)`, made where one register is in use already: the constant divisor,
the saved registers and the argument all get temporaries. -/

/-- One function, which squares its argument. It is there to give calls in examples a meaning. -/
def squares : Functions
  | "sqr", [a] => some (a * a)
  | _, _ => none

/-- The same on a machine: all registers but that of the result are overwritten. So nothing that is
held in a register survives by accident. -/
def squareTargets : Targets Unit := fun _ m =>
  some { m with
    regs := fun r => if r = Convention.resultReg then m.regs .rdi * m.regs .rdi else -1
    address := fun _ => none }

theorem compute_squareTargets : squareTargets.Compute squares := by
  intro name args m v hpass hv
  unfold squares at hv
  split at hv
  · rename_i a
    have ha : a = m.regs .rdi := by simpa [Machine.Passes, Convention.argumentRegs] using hpass
    subst ha
    exact ⟨_, rfl, rfl, rfl, Option.some.inj hv⟩
  · simp at hv

/-- An argument and a local. -/
def argumentAndLocal : Scope := ⟨[⟨"x", 4, .argument⟩, ⟨"y", 8, .local⟩]⟩

/-- The body of a routine with these variables, while one register is in use. The register that is
in use, `%rdi`, must not change. -/
def midway : State where
  scopes := [argumentAndLocal]
  pool := (Pool.ofRegs [.rdi, .rsi, .rcx]).moved [.rsi, .rcx] 1 0

theorem inBody_midway : InBody midway argumentAndLocal where
  isOpen := ⟨[], rfl⟩
  laid := ⟨by decide, by decide⟩
  user := by decide
  sound := ⟨.inr rfl, by decide, by decide⟩

/-- A difference of a division by a constant and of a call with a computed argument: both a
temporary and saved registers are needed. -/
def differenceExpr : Expr :=
  .add 1 .minus (.mul 1 .div (.var 1 "x") (.integer 1 2))
    (.call 1 "sqr" [.add 1 .plus (.var 1 "y") (.integer 1 1)])

/-- What its code is made to be. -/
def differenceOutcome : Outcome Reg := differenceExpr.lower.run midway

/-- Values for the variables. The first is negative, so that the division has to round towards zero.
-/
def minusSevenAndFour : Store := (Store.empty.set "x" (-7)).set "y" 4

/-- A machine whose slots hold these values. -/
def midwayMachine : Machine Unit where
  regs _ := 90
  address _ := none
  slots d := if d = -4 then -7 else if d = -8 then 4 else 1000
  low _ := 0
  flags := none
  seed := 0
  world := ()

theorem holds_midwayMachine : argumentAndLocal.Holds minusSevenAndFour midwayMachine := by
  intro x v hx
  -- Two variables have values, and each is in its slot.
  by_cases hy : x = "y"
  · subst hy
    rw [minusSevenAndFour, Store.set_self] at hx
    exact ⟨⟨"y", 8, .local⟩, by decide, by decide, rfl, Option.some.inj hx⟩
  · rw [minusSevenAndFour, Store.set_of_ne _ _ hy] at hx
    by_cases hx' : x = "x"
    · subst hx'
      rw [Store.set_self] at hx
      exact ⟨⟨"x", 4, .argument⟩, by decide, by decide, rfl, Option.some.inj hx⟩
    · simp [Store.set_of_ne _ _ hx', Store.empty] at hx

/-- With `-7` and `4` for the variables, the register that is named holds `-28` at the end, and the
register that was in use holds what it held. -/
theorem reaches_value_difference :
    differenceOutcome.result = .ok .rsi ∧
    ∃ m', Reaches squareTargets differenceOutcome.code
        ⟨.ahead differenceOutcome.code, midwayMachine, []⟩ ⟨.ahead [], m', []⟩ ∧
      m'.regs .rsi = -28 ∧ m'.regs .rdi = 90 ∧
      argumentAndLocal.SameVariables midwayMachine m' := by
  have hgen : differenceExpr.lower.run midway =
      ⟨.ok .rsi, differenceOutcome.state, differenceOutcome.code⟩ := by cbv
  refine ⟨congrArg Outcome.result hgen, ?_⟩
  -- The theorem says where the value is; that the code can be made is computed, `hgen`.
  obtain ⟨m', hreaches, hvalue, hheld, hsame, -⟩ := Expr.reaches_value_of_lower inBody_midway hgen
    compute_squareTargets holds_midwayMachine (show _ = some (-28) by decide)
  exact ⟨m', hreaches, hvalue, hheld .rdi (by decide), hsame⟩

end PascalAsm
