import PascalAsm.Proofs.Simulation.Relation

/-!
# Running the code of values

The code of a tree computes the value of its expression into the register that was free and on top,
and keeps the registers in use and all slots but those of temporaries.

* **`Tree.Computes`** — this, for one tree. There is one lemma for each kind of node: it assumes it
  of the trees below the node and says how the values are put together.
* **`StageComputes`** — the same for the arguments of a call, which end in operands that the calls
  among later arguments do not touch.
* **`Expr.computes_of_ready`** — the tree of every expression computes its value.
-/

namespace PascalAsm

open Assembly Lowering Gen State

variable {W : Type} {targets : Targets W} {calls : Callees W} {L : Layout} {store : Store}

/-! ## One operation -/

/-- The result of an operation, unless it traps. -/
def Lowering.BinOp.value? : BinOp → Int32 → Int32 → Option Int32
  | .add, a, b => some (a + b)
  | .sub, a, b => some (a - b)
  | .mul, a, b => some (a * b)
  | .div, a, b => if Traps a b then none else some (a / b)
  | .mod, a, b => if Traps a b then none else some (a % b)
  | .compare _, _, _ => none

theorem value?_ofAddOp (op : AddOp) (a b : Int32) :
    (BinOp.ofAddOp op).value? a b = some (op.value a b) := by
  cases op <;> rfl

theorem value?_ofMulOp (op : MulOp) (a b : Int32) :
    (BinOp.ofMulOp op).value? a b = op.value? a b := by
  cases op <;> rfl

/-- A register that is neither the destination nor one of those that a division needs. -/
def Aside (dest r : Reg) : Prop := r ≠ dest ∧ r ≠ .rax ∧ r ≠ .rdx

/-- A source that a division does not overwrite. Both are overwritten before the divisor is read, so
it must not be in one of them. -/
def Undivided (src : Operand) : Prop := src ≠ .reg .rax ∧ src ≠ .reg .rdx

/-- The operand of a leaf is no register. It is a slot or a number, and so not overwritten by what
the other side computes. -/
theorem undivided_of_operand? {leaf : Leaf} {S : Scopes} {op : Operand}
    (h : leaf.operand? S = some op) : Undivided op := by
  cases leaf with
  | var name =>
    obtain ⟨slot, -, rfl⟩ := Option.map_eq_some_iff.1 h
    exact ⟨by simp [Slot.operand_eq], by simp [Slot.operand_eq]⟩
  | int v =>
    obtain rfl := Option.some.inj h
    exact ⟨by simp, by simp⟩

/-- The instructions of a division leave the quotient or remainder in the destination. `ht` lets the
division be carried out, and `hsrc` keeps the divisor until then. -/
theorem exec_divideCode (targets : Targets W) (L : Layout) {divisor : Operand} {dest : Reg}
    {m : Machine W} {a b : Int32} {result : Reg} {v : Int32} (hsrc : Undivided divisor)
    (ha : m.regs dest = a) (hb : m.read? divisor = some b) (ht : ¬ Traps a b)
    (hresult : result = .rax ∧ v = a / b ∨ result = .rdx ∧ v = a % b) :
    ∃ m', execAll targets (divideCode result divisor dest) m = some m' ∧ m'.regs dest = v ∧
      (∀ P, Kept L P (Aside dest) m m') ∧ m'.world = m.world := by
  let m₁ := m.setReg .rax a
  let m₂ := m₁.setReg .rdx (signHalf a)
  let m₃ := (m₂.clearFlags.setReg .rax (a / b)).setReg .rdx (a % b)
  have h₁ : (Inst.movl (.reg dest) (.reg Convention.resultReg)).exec targets m = some m₁ :=
    exec_movl_reg .rax (congrArg some ha)
  have hrax : m₁.regs .rax = a := m.regs_setReg_self .rax a
  -- the dividend is extended to 64 bits over `eax` and `edx`, and divided
  have h₂ : Inst.cdq.exec targets m₁ = some m₂ := by
    simp only [Inst.exec, hrax]
    rfl
  -- the divisor is in neither of the two registers, so it is still there
  have hread : m₂.read? divisor = some b := by
    cases divisor with
    | reg r =>
      have hrax : r ≠ .rax := fun e => hsrc.1 (e ▸ rfl)
      have hrdx : r ≠ .rdx := fun e => hsrc.2 (e ▸ rfl)
      rw [← hb]
      simp only [m₂, m₁, Machine.read?, Machine.regs_setReg_of_ne _ _ hrdx,
        Machine.regs_setReg_of_ne _ _ hrax]
    | imm => exact hb
    | mem base disp => cases base <;> exact hb
    | rip => exact hb
  have h₃ : (Inst.idivl divisor).exec targets m₂ = some m₃ := by
    have hax : m₂.regs .rax = a := by
      rw [m₁.regs_setReg_of_ne _ (by decide)]
      exact hrax
    have hdx : m₂.regs .rdx = signHalf a := m₁.regs_setReg_self ..
    exact exec_idivl hread (by rw [hax, hdx, wideDivide_signHalf ht])
  have hv : m₃.regs result = v := by
    rcases hresult with ⟨rfl, rfl⟩ | ⟨rfl, rfl⟩
    · rw [Machine.regs_setReg_of_ne _ _ (by decide), Machine.regs_setReg_self]
    · rw [Machine.regs_setReg_self]
  have h₄ : (Inst.movl (.reg result) (.reg dest)).exec targets m₃ = some (m₃.setReg dest v) :=
    exec_movl_reg dest (congrArg some hv)
  refine ⟨m₃.setReg dest v, ?_, Machine.regs_setReg_self .., fun P => ?_, rfl⟩
  · rw [divideCode, execAll_cons h₁, execAll_cons h₂, execAll_cons h₃, execAll_cons h₄, execAll_nil]
  · refine .ofRegs rfl fun r hr => ?_
    obtain ⟨hd, hax, hdx⟩ := hr
    rw [Machine.regs_setReg_of_ne _ _ hd, Machine.regs_setReg_of_ne _ _ hdx,
      Machine.regs_setReg_of_ne _ _ hax, Machine.regs_clearFlags, Machine.regs_setReg_of_ne _ _ hdx,
      Machine.regs_setReg_of_ne _ _ hax]

/-- A slot that was found or laid out for a name lies where the layout has it. -/
theorem tempOperand_place {name : String} {s s' : State} {op : Operand} {c : List Inst}
    (hcov : L.Covers s'.scopes) (h : (tempOperand name).Yields s op s' c) :
    ∃ d, op = .mem .rbp d ∧ L.place name = some d := by
  obtain ⟨slot, hfind, rfl⟩ := find?_of_tempOperand h
  exact ⟨slot.disp, rfl, hcov hfind⟩

theorem divide_runs {result dest : Reg} {src : Operand} {s s' : State} {u : Unit} {c : List Inst}
    {m : Machine W} {a b v : Int32} (depth : Nat)
    (h : (divide result src dest).Yields s u s' c) (hcov : L.Covers s'.scopes)
    (hsrc : Undivided src) (ha : m.regs dest = a)
    (hb : m.read? src = some b) (ht : ¬ Traps a b)
    (hresult : result = .rax ∧ v = a / b ∨ result = .rdx ∧ v = a % b) :
    ∃ m', execAll targets c m = some m' ∧ m'.regs dest = v ∧
      Kept L (Temp depth) (Aside dest) m m' ∧ m'.world = m.world := by
  obtain ⟨-, -, rfl⟩ | ⟨himm, slot, htemp, rfl⟩ := yields_divide.1 h
  · obtain ⟨m', hex, hv, hk, hw⟩ :=
      exec_divideCode targets L hsrc ha hb ht hresult
    exact ⟨m', hex, hv, hk _, hw⟩
  -- a constant cannot be divided by, so it goes through a temporary
  · obtain ⟨d, rfl, hd⟩ := tempOperand_place hcov htemp
    have hmov : (Inst.movl src (.mem .rbp d)).exec targets m = some (m.setSlot d b) :=
      exec_movl_slot d hb
    have hslot : Undivided (.mem .rbp d) := ⟨by simp, by simp⟩
    have hread : (m.setSlot d b).read? (.mem .rbp d) = some b := by simp [Machine.read?]
    obtain ⟨m', hex, hv, hk, hw⟩ := exec_divideCode targets L hslot (m := m.setSlot d b) ha hread ht
      hresult
    exact ⟨m', by rw [execAll_cons hmov, hex], hv, (Kept.setSlot m b .divisor hd).trans (hk _), hw⟩

/-- Combining an operand into a register computes the result of the operation there. Registers
outside of `Aside` may change, as a division overwrites two of them. -/
theorem combine_runs {op : BinOp} {src : Operand} {dest : Reg} {s s' : State} {u : Unit}
    {c : List Inst} {m : Machine W} {a b v : Int32} (depth : Nat)
    (h : (combine op src dest).Yields s u s' c) (hcov : L.Covers s'.scopes)
    (hsrc : Undivided src) (ha : m.regs dest = a)
    (hb : m.read? src = some b) (hv : op.value? a b = some v) :
    ∃ m', execAll targets c m = some m' ∧ m'.regs dest = v ∧
      Kept L (Temp depth) (Aside dest) m m' ∧ m'.world = m.world := by
  cases op with
  | add | sub | mul =>
    obtain ⟨-, rfl⟩ := yields_emit.1 h
    obtain rfl := Option.some.inj hv
    subst ha
    refine ⟨_, (execAll_cons (exec_arith_reg _ dest hb)).trans (execAll_nil _),
      Machine.regs_setReg_self .., ?_, rfl⟩
    exact .ofRegs rfl fun r hr => Machine.regs_setReg_of_ne _ _ hr.1
  | compare => simp [BinOp.value?] at hv
  -- A division that has a value does not trap, `ht`.
  | div =>
    obtain ⟨ht, hv⟩ := Option.ite_none_left_eq_some.1 hv
    exact divide_runs depth h hcov hsrc ha hb ht (.inl ⟨rfl, (Option.some.inj hv).symm⟩)
  | mod =>
    obtain ⟨ht, hv⟩ := Option.ite_none_left_eq_some.1 hv
    exact divide_runs depth h hcov hsrc ha hb ht (.inr ⟨rfl, (Option.some.inj hv).symm⟩)

/-! ## Trees -/

section

variable (targets L store)

/-- The code of the tree computes a value: into the register that is on top, with the registers in
use and all slots but those of temporaries as they were. -/
structure Lowering.Tree.Computes (t : Tree) (value : Eval W Int32) : Prop where
  settled : t.Settled
  /-- A leaf has a value that depends on the store alone. -/
  leaf : ∀ {line leaf}, t.leaf? = some (line, leaf) → value = Eval.ofOption (leaf.value store)
  run : ∀ ⦃s s' : State⦄ ⦃u : Unit⦄ ⦃c : List Inst⦄ ⦃dest : Reg⦄ ⦃rest : List Reg⦄,
    t.lower.Yields s u s' c → L.Covers s'.scopes → s.pool.Sound → s.pool.free = dest :: rest →
    ∀ ⦃m : Machine W⦄ ⦃v : Int32⦄ ⦃w : W⦄, Holds L store m → value m.world = some (v, w) →
    ∃ m', execAll targets c m = some m' ∧ m'.regs dest = v ∧
      Kept L (Temp s.callDepth) s.pool.Busy m m' ∧ m'.world = w

end

namespace Lowering.Tree

theorem computes_leaf (label : Nat) (line : Line) (leaf : Leaf) :
    (Tree.leaf label line leaf).Computes targets L store (Eval.ofOption (leaf.value store)) where
  settled := settled_leaf label line leaf
  leaf h := by
    obtain ⟨rfl, rfl⟩ := Prod.mk.inj (Option.some.inj h)
    rfl
  run := by
    intro s s' u c dest rest h hcov _ hfree m v w hstore hv
    obtain ⟨-, rfl, dest', rest', src, hfree', ho, rfl⟩ := yields_leaf.1 h
    obtain ⟨rfl, rfl⟩ := List.cons.inj (hfree'.symm.trans hfree)
    obtain ⟨v', hleaf, hv'⟩ := Option.map_eq_some_iff.1 hv
    obtain ⟨rfl, rfl⟩ := Prod.mk.inj hv'
    -- `hcov` ties the slot that was found to the place that the layout gives it.
    have hread := (hstore.reads_leaf hcov ho hleaf).read?_eq
    refine ⟨m.setReg dest' v', (execAll_cons (exec_movl_reg dest' hread)).trans (execAll_nil _),
      m.regs_setReg_self .., Kept.setReg m v' fun hb => ?_, rfl⟩
    exact hb.2 (hfree' ▸ List.mem_cons_self)

theorem Computes.negated {t : Tree} {value : Eval W Int32} (ht : t.Computes targets L store value)
    (line : Line) : (t.negated line).Computes targets L store (do return -(← value)) where
  settled := ht.settled.negated line
  leaf h := by simp [Tree.negated, Tree.leaf?] at h
  run := by
    intro s s' u c dest rest h hcov hsound hfree m v w hstore hv
    obtain ⟨-, c₁, dest', rest', hc, hfree', rfl⟩ := yields_negate.1 h
    obtain ⟨-, hrest, -⟩ := ht.settled hc
    rw [hrest.free_eq, hfree] at hfree'
    obtain ⟨rfl, rfl⟩ := List.cons.inj hfree'
    obtain ⟨a, w₁, ha, hp⟩ := Eval.bind_eq_some_iff.1 hv
    obtain ⟨rfl, rfl⟩ := Prod.mk.inj (Option.some.inj hp)
    -- The operand is in the register on top, `hfree`, and is negated there.
    obtain ⟨m₁, hex, rfl, hk, rfl⟩ := ht.run hc hcov hsound hfree hstore ha
    refine ⟨m₁.clearFlags.setReg dest (-m₁.regs dest), ?_, Machine.regs_setReg_self .., ?_, rfl⟩
    · exact execAll_append_of hex ((execAll_cons (exec_negl_reg m₁ dest)).trans (execAll_nil _))
    · exact hk.trans (.ofRegs rfl fun r hr => Machine.regs_setReg_of_ne _ _ fun e =>
        hr.2 (e ▸ hfree ▸ List.mem_cons_self))

/-- Both operands of an operation are computed, in the order that their labels ask for. Afterwards
the left one is in the register on top, and the right one where the last instruction reads it. -/
def Operands (left right : Tree) (x y : Eval W Int32) (s : State) (dest : Reg) (src : Operand)
    (targets : Targets W) (L : Layout) (store : Store) (c : List Inst) : Prop :=
  ∀ ⦃m : Machine W⦄ ⦃a b : Int32⦄ ⦃w : W⦄, Holds L store m →
    Eval.operands (left.label < right.label) x y m.world = some ((a, b), w) →
    ∃ m', execAll targets c m = some m' ∧ m'.regs dest = a ∧ m'.read? src = some b ∧
      Kept L (Temp s.callDepth) s.pool.Busy m m' ∧ m'.world = w

section

variable {label : Nat} {line : Line} {op : BinOp} {left right : Tree} {x y : Eval W Int32}
  {s s' : State} {u : Unit} {c : List Inst} {dest : Reg} {rest : List Reg}

/-- One tree after another: the register of the first one is in use while the second is computed. -/
theorem Computes.run_two {t t' : Tree} {x y : Eval W Int32} {s s₁ s₂ : State} {c₁ c₂ : List Inst}
    {r q : Reg} {rest : List Reg} (ht : t.Computes targets L store x)
    (ht' : t'.Computes targets L store y) (h₁ : t.lower.Yields s () s₁ c₁)
    (h₂ : t'.lower.Yields (s₁.withPool (s₁.pool.moved (q :: rest) 1 0)) () s₂ c₂)
    (hcov : L.Covers s₂.scopes) (hsound : s.pool.Sound) (hfree : s.pool.free = r :: q :: rest)
    {m : Machine W} {a b : Int32} {w₁ w : W} (hstore : Holds L store m)
    (ha : x m.world = some (a, w₁)) (hb : y w₁ = some (b, w)) :
    ∃ m', execAll targets (c₁ ++ c₂) m = some m' ∧ m'.regs r = a ∧ m'.regs q = b ∧
      Kept L (Temp s.callDepth) s.pool.Busy m m' ∧ m'.world = w := by
  obtain ⟨hs₁, hp₁, -⟩ := ht.settled h₁
  obtain ⟨hs₂, -, -⟩ := ht'.settled h₂
  have hnodup : (r :: q :: rest).Nodup := hfree ▸ hsound.nodup
  have hsubset : (r :: q :: rest) ⊆ s.pool.members := hfree ▸ hsound.subset
  have hmembers : s₁.pool.members = s.pool.members := hp₁.members_eq
  have hsound₂ : (s₁.pool.moved (q :: rest) 1 0).Sound :=
    (hsound.restored hp₁).taken (hp₁.free_eq.trans hfree)
  -- the first value is kept because its register is not free while the second one is computed
  have hbusy : (s₁.pool.moved (q :: rest) 1 0).Busy r :=
    ⟨hmembers ▸ hsubset List.mem_cons_self, (List.nodup_cons.1 hnodup).1⟩
  obtain ⟨m₁, hex₁, hr, hk₁, rfl⟩ := ht.run h₁ (hcov.of_grows hs₂.scopes) hsound hfree hstore ha
  obtain ⟨m₂, hex₂, hq, hk₂, rfl⟩ := ht'.run h₂ hcov hsound₂ rfl
    (hstore.kept hk₁ fun _ => dollar_of_temp) hb
  have hstill : ∀ x, s.pool.Busy x → (s₁.pool.moved (q :: rest) 1 0).Busy x := fun _ hx =>
    hx.of_subset hmembers (hfree ▸ List.subset_cons_self r _)
  have hdepth : (s₁.withPool (s₁.pool.moved (q :: rest) 1 0)).callDepth = s.callDepth :=
    hs₁.callDepth
  rw [hdepth] at hk₂
  exact ⟨m₂, execAll_append_of hex₁ hex₂, (hk₂.regs r hbusy).trans hr, hq,
    hk₁.trans (hk₂.mono (fun _ h => h) hstill), rfl⟩

/-- What is combined is not in the registers of a division, unless they are in the pool. -/
theorem Sides.undivided {src : Operand} {s₁ : State} {c₁ : List Inst}
    (h : Sides left right s src dest s₁ c₁) (hax : .rax ∉ s.pool.free)
    (hdx : .rdx ∉ s.pool.free) : Undivided src := by
  cases h with
  | swapped _ hfree | ordered _ hfree =>
    rw [hfree] at hax hdx
    refine ⟨fun e => hax ?_, fun e => hdx ?_⟩ <;> simp [Operand.reg.inj e]
  | operand _ _ _ hsrc => exact undivided_of_operand? hsrc

/-- Whichever side comes first, afterwards both have their values. What is computed second keeps the
register that the first value is in, since it is taken and not free. -/
theorem Computes.sides {src : Operand} {s₁ : State} {c₁ : List Inst}
    (hl : left.Computes targets L store x) (hr : right.Computes targets L store y)
    (h : Sides left right s src dest s₁ c₁) (hcov : L.Covers s₁.scopes) (hsound : s.pool.Sound) :
    Operands left right x y s dest src targets L store c₁ := by
  intro m a b w hstore hab
  cases h with
  | @swapped dest r rest _ _ _ _ hlt hfree hright hleft =>
    have hswap : (r :: dest :: rest).Perm (dest :: r :: rest) := List.Perm.swap ..
    rw [decide_eq_true hlt] at hab
    obtain ⟨_, w₁, hb, hab⟩ := Eval.bind_eq_some_iff.1 hab
    obtain ⟨_, _, ha, hab⟩ := Eval.bind_eq_some_iff.1 hab
    obtain ⟨⟨rfl, rfl⟩, rfl⟩ := by simpa using hab
    obtain ⟨m', hex, hvb, hva, hk, hw⟩ := hr.run_two hl hright hleft hcov (hsound.swap hfree) rfl
      hstore hb ha
    refine ⟨m', hex, hva, congrArg some hvb, hk.mono (fun _ h => h) fun _ hx => ?_, hw⟩
    exact hx.of_subset rfl fun _ hy => hfree ▸ hswap.mem_iff.1 hy
  | ordered hge hfree hleft hright =>
    rw [decide_eq_false hge] at hab
    obtain ⟨_, w₁, ha, hab⟩ := Eval.bind_eq_some_iff.1 hab
    obtain ⟨_, _, hb, hab⟩ := Eval.bind_eq_some_iff.1 hab
    obtain ⟨⟨rfl, rfl⟩, rfl⟩ := by simpa using hab
    obtain ⟨m', hex, hva, hvb, hk, hw⟩ := hl.run_two hr hleft hright hcov hsound hfree hstore ha hb
    exact ⟨m', hex, hva, congrArg some hvb, hk, hw⟩
  | operand hleaf hfree hleft hsrc =>
    -- the value of a leaf does not depend on when it is asked for
    rw [hr.leaf hleaf] at hab
    obtain ⟨ha, hb⟩ := Eval.operands_ofOption hab
    obtain ⟨m₁, hex, hv, hk, hw⟩ := hl.run hleft hcov hsound hfree hstore ha
    have hread := (hstore.kept hk fun _ => dollar_of_temp).reads_leaf hcov hsrc hb
    exact ⟨m₁, hex, hv, hread.read?_eq, hk, hw⟩

/-- Before the last instructions of an operation, its operands are computed. From there on the
operation and the comparison differ, and both start from this. -/
theorem Computes.operands (hl : left.Computes targets L store x)
    (hr : right.Computes targets L store y)
    (h : (Tree.binary label line op left right).lower.Yields s u s' c) (hcov : L.Covers s'.scopes)
    (hsound : s.pool.Sound) (hfree : s.pool.free = dest :: rest) :
    ∃ s₁ s₂ c₁ c₂ src, c = c₁ ++ c₂ ∧ (combine op src dest).Yields s₁ () s₂ c₂ ∧
      L.Covers s₂.scopes ∧ Undivided src ∧
      Operands left right x y s dest src targets L store c₁ := by
  obtain ⟨src, dest', s₁, s₂, p, c₁, c₂, hsides, hcombine, rfl, -, rfl⟩ :=
    hl.settled.combines hr.settled h
  obtain ⟨rest', hfree'⟩ := hsides.exists_free_eq
  obtain ⟨rfl, rfl⟩ := List.cons.inj (hfree'.symm.trans hfree)
  obtain ⟨hs₂, -, -⟩ := combine_steady 0 hcombine
  -- No side is read from a register that a division uses: `hsound` keeps them out of the pool.
  refine ⟨s₁, s₂, c₁, c₂, src, rfl, hcombine, hcov, ?_, ?_⟩
  · exact hsides.undivided (fun h => (hsound.ne_of_mem (hsound.subset h)).1 rfl)
      fun h => (hsound.ne_of_mem (hsound.subset h)).2 rfl
  · exact hl.sides hr hsides (hcov.of_grows hs₂.scopes) hsound

end

theorem Computes.joined {op : BinOp} {left right : Tree} {x y : Eval W Int32}
    (hl : left.Computes targets L store x) (hr : right.Computes targets L store y)
    (hop : op.computes = true) (line : Line) :
    (Tree.joined line op left right).Computes targets L store (do
      let (a, b) ← Eval.operands (left.label < right.label) x y
      Eval.ofOption (op.value? a b)) where
  settled := hl.settled.joined hr.settled hop line
  leaf h := by simp [Tree.joined, Tree.leaf?] at h
  run := by
    intro s s' u c dest rest h hcov hsound hfree m v w hstore hv
    obtain ⟨s₁, s₂, c₁, c₂, src, rfl, hcomb, hcov₂, hsrc, hrun⟩ := hl.operands hr h hcov hsound hfree
    obtain ⟨⟨a, b⟩, w₁, hab, hv'⟩ := Eval.bind_eq_some_iff.1 hv
    obtain ⟨v', hval, hv''⟩ := Option.map_eq_some_iff.1 hv'
    obtain ⟨rfl, rfl⟩ := Prod.mk.inj hv''
    -- First the operands, `hrun`, then the instructions that combine them, `combine_runs`.
    obtain ⟨m₁, hex₁, ha, hb, hk₁, rfl⟩ := hrun hstore hab
    obtain ⟨m₂, hex₂, hv₂, hk₂, hw₂⟩ := combine_runs s.callDepth hcomb hcov₂
      hsrc ha hb hval
    refine ⟨m₂, execAll_append_of hex₁ hex₂, hv₂, hk₁.trans (hk₂.mono (fun _ h => h) ?_), hw₂⟩
    intro r hr
    exact ⟨fun e => hr.2 (e ▸ hfree ▸ List.mem_cons_self), hsound.ne_of_mem hr.1⟩

end Lowering.Tree

/-! ## Loading and saving registers -/

/-- Operands that depend on no register are loaded one after another. By induction on the operands;
the registers are different, so that no load overwrites an earlier one. -/
theorem exec_loads (targets : Targets W) {P : String → Prop} {ops : List Operand}
    {vs : List Int32} {m : Machine W} (h : List.Forall₂ (Reads L P m) ops vs)
    {regs : List Reg} (hn : regs.Nodup) (hlen : regs.length = ops.length) :
    ∃ m', execAll targets (ops.zipWith (fun src r => .movl src (.reg r)) regs) m = some m' ∧
      regs.map m'.regs = vs ∧ (∀ r, r ∉ regs → m'.regs r = m.regs r) ∧ m'.slots = m.slots ∧
      m'.world = m.world := by
  induction regs generalizing ops vs m with
  | nil =>
    obtain rfl := List.length_eq_zero_iff.1 hlen.symm
    cases h
    exact ⟨m, rfl, rfl, fun _ _ => rfl, rfl, rfl⟩
  | cons r regs ih =>
    cases h with
    | nil => simp at hlen
    | @cons op v ops vs hop hops =>
      obtain ⟨hr, hn'⟩ := List.nodup_cons.1 hn
      have hkept : Kept L P (fun _ => False) m (m.setReg r v) := Kept.setReg m v not_false
      obtain ⟨m', hex, hvs, hothers, hslots, hworld⟩ :=
        ih (hops.imp fun _ _ h => h.kept hkept) hn' (Nat.succ.inj hlen)
      -- the registers differ, so the first one is not loaded a second time
      refine ⟨m', ?_, ?_, ?_, hslots, hworld⟩
      · rw [List.zipWith_cons_cons, execAll_cons (exec_movl_reg r hop.read?_eq), hex]
      · rw [List.map_cons, hvs, hothers r hr, Machine.regs_setReg_self]
      · intro q hq
        rw [List.mem_cons, not_or] at hq
        rw [hothers q hq.2, Machine.regs_setReg_of_ne _ _ hq.1]

/-- Registers that were saved are loaded again: they hold what they held before. That the slots were
not changed in between is part of `Reads`. -/
theorem exec_reload (targets : Targets W) {P : String → Prop} {saved : List (Reg × Operand)}
    {m m' : Machine W}
    (h : List.Forall₂ (Reads L P m') (saved.map (·.2)) ((saved.map (·.1)).map m.regs))
    (hn : (saved.map (·.1)).Nodup) :
    ∃ m'', execAll targets (saved.map fun q => .movl q.2 (.reg q.1)) m' = some m'' ∧
      (∀ r ∈ saved.map (·.1), m''.regs r = m.regs r) ∧
      (∀ r, r ∉ saved.map (·.1) → m''.regs r = m'.regs r) ∧ m''.slots = m'.slots ∧
      m''.world = m'.world := by
  obtain ⟨m'', hex, hregs, hothers, hslots, hworld⟩ := exec_loads targets h hn (by simp)
  -- Loading register by register is what `exec_loads` does with the two lists of `saved`.
  have hload : (saved.map (·.2)).zipWith (fun src r => Inst.movl src (.reg r)) (saved.map (·.1)) =
      saved.map fun q => Inst.movl q.2 (.reg q.1) := by
    rw [List.zipWith_map, List.zipWith_self]
  exact ⟨m'', hload ▸ hex, List.map_inj_left.1 hregs, hothers, hslots, hworld⟩

/-- The slots that staging the arguments of a call changes, from one of them on. Arguments that were
staged before are in slots of smaller index, and so are not among these. -/
def Staged (depth index : Nat) (x : String) : Prop :=
  Temp (depth + 1) x ∨ ∃ j, index ≤ j ∧ x = argumentTemp depth j

theorem Staged.temp {depth index : Nat} {x : String} (h : Staged depth index x) : Temp depth x := by
  rcases h with h | ⟨j, -, rfl⟩
  · exact h.mono (Nat.le_succ depth)
  · exact .argument j (Nat.le_refl depth)

theorem not_staged_saveTemp (depth index : Nat) (r : Reg) :
    ¬ Staged depth index (saveTemp depth r) := by
  rintro (h | ⟨j, -, h⟩)
  · exact not_temp_saveTemp r (Nat.lt_succ_self depth) h
  · exact argumentTemp_ne_saveTemp _ _ _ _ h.symm

theorem not_staged_argumentTemp (depth : Nat) {index j : Nat} (h : j < index) :
    ¬ Staged depth index (argumentTemp depth j) := by
  rintro (h' | ⟨i, hi, h'⟩)
  · exact not_temp_argumentTemp j (Nat.lt_succ_self depth) h'
  · have := (eq_of_argumentTemp_eq h').2
    omega

/-- Saved registers are in slots that staging arguments does not change. Their names have the depth
of the call, and what is staged is further in or an argument. -/
theorem saveAll_runs (targets : Targets W) {depth : Nat} {regs : List Reg} {s s' : State}
    {l : List (Reg × Operand)} {c : List Inst} (h : (saveAll depth regs).Yields s l s' c)
    (hcov : L.Covers s'.scopes) (hn : regs.Nodup) (m : Machine W) :
    ∃ m', execAll targets c m = some m' ∧ m'.world = m.world ∧ l.map (·.1) = regs ∧
      Kept L (fun x => ∃ r ∈ regs, x = saveTemp depth r) (fun _ => True) m m' ∧
      List.Forall₂ (Reads L (Staged depth 0) m') (l.map (·.2)) (regs.map m.regs) := by
  induction regs generalizing s s' l c m with
  | nil =>
    obtain ⟨rfl, rfl, rfl⟩ := yields_saveAll_nil.1 h
    exact ⟨m, rfl, rfl, rfl, .refl m, .nil⟩
  | cons r regs ih =>
    obtain ⟨slot, s₁, l', c', ht, hl, rfl, rfl⟩ := yields_saveAll_cons.1 h
    obtain ⟨hs, -, -⟩ := saveAll_steady hl
    obtain ⟨d, rfl, hd⟩ := tempOperand_place (hcov.of_grows hs.scopes) ht
    obtain ⟨hr, hn'⟩ := List.nodup_cons.1 hn
    have hmov : (Inst.movl (.reg r) (.mem .rbp d)).exec targets m = some (m.setSlot d (m.regs r)) :=
      exec_movl_slot d rfl
    obtain ⟨m', hex, hworld, hmap, hk, hreads⟩ := ih hl hcov hn' (m.setSlot d (m.regs r))
    -- the slot is named after the register, so no other register is saved there
    have hother : ¬ ∃ q ∈ regs, saveTemp depth r = saveTemp depth q := by
      rintro ⟨q, hq, he⟩
      exact hr ((eq_of_saveTemp_eq he).2 ▸ hq)
    refine ⟨m', by rw [execAll_cons hmov, hex], hworld, by rw [List.map_cons, hmap], ?_, ?_⟩
    · refine (Kept.setSlot m _ ⟨r, List.mem_cons_self, rfl⟩ hd).trans (hk.mono ?_ fun _ h => h)
      rintro _ ⟨q, hq, rfl⟩
      exact ⟨q, List.mem_cons_of_mem r hq, rfl⟩
    · refine .cons ?_ hreads
      have hslot : m'.slots d = m.regs r := (hk.slot hother hd).trans (m.slots_setSlot_self ..)
      rw [← hslot]
      exact .slot (not_staged_saveTemp depth 0 r) hd

/-! ## Calls -/

section

variable (targets L store)

/-- The arguments of a call, which are so many, are evaluated to operands that depend on no
register. -/
structure StageComputes (stage : Nat → Gen (List Operand)) (count : Nat)
    (values : Eval W (List Int32)) : Prop where
  settled : StageSettled stage
  run : ∀ ⦃s s' : State⦄ ⦃ops : List Operand⦄ ⦃c : List Inst⦄ ⦃depth : Nat⦄,
    s.callDepth = depth + 1 → (stage depth).Yields s ops s' c → L.Covers s'.scopes →
    s.pool.Sound → ∀ ⦃m : Machine W⦄ ⦃vs : List Int32⦄ ⦃w : W⦄, Holds L store m →
    values m.world = some (vs, w) →
    ∃ m', execAll targets c m = some m' ∧ List.Forall₂ (Reads L (fun _ => False) m') ops vs ∧
      vs.length = count ∧ Kept L (Staged depth 0) (fun _ => False) m m' ∧ m'.world = w

end

/-- A call passes its arguments and comes back with the result of the callee. `hans` says what the
callee gives for its arguments; the registers it may have changed are dealt with by the caller. -/
theorem callRoutine_runs {callee : String} {count : Nat} {line : Line}
    {stage : Nat → Gen (List Operand)} {values : Eval W (List Int32)} {s s' : State} {u : Unit}
    {c : List Inst} {m : Machine W} {vs : List Int32} {result : Option Int32} {w₁ w : W}
    (hans : Answers targets calls) (hstage : StageComputes targets L store stage count values)
    (h : (callRoutine callee count line stage).Yields s u s' c) (hcov : L.Covers s'.scopes)
    (hsound : s.pool.Sound) (hstore : Holds L store m) (hvs : values m.world = some (vs, w₁))
    (hcall : calls callee vs w₁ = some (result, w)) :
    ∃ m', execAll targets c m = some m' ∧ (∀ v ∈ result, m'.regs Convention.resultReg = v) ∧
      Kept L (Staged s.callDepth 0) (fun _ => False) m m' ∧ m'.world = w := by
  obtain ⟨hcount, ops, s₁, s₂, c₁, claimed, hs, hclaim, hrelease, rfl⟩ := yields_callRoutine.1 h
  obtain ⟨q, rfl, -⟩ := claim_release_even hclaim hrelease
  obtain ⟨m₁, hex₁, hreads, hlen, hk₁, rfl⟩ := hstage.run rfl hs hcov hsound hstore hvs
  have hops : ops.length ≤ Convention.argumentRegs.length := by
    rw [hreads.length_eq, hlen]
    exact hcount
  have hnodup : (Convention.argumentRegs.take ops.length).Nodup :=
    (List.take_sublist ..).nodup (by decide)
  obtain ⟨m₂, hex₂, hregs, -, hslots, hworld⟩ :=
    exec_loads targets hreads hnodup (List.length_take_of_le hops)
  let m₃ := m₂.setReg Convention.vectorCountReg 0
  have hclear : (clear Convention.vectorCountReg).exec targets m₂ = some m₃ :=
    exec_movl_reg Convention.vectorCountReg rfl
  -- the register that is cleared is not one of those that pass arguments
  have hpass : m₃.Passes vs := by
    rw [Machine.Passes, ← hreads.length_eq]
    refine hregs.symm.trans (List.map_congr_left fun r hr => ?_)
    have hr : r ∈ Convention.argumentRegs := List.mem_of_mem_take hr
    refine (Machine.regs_setReg_of_ne _ _ ?_).symm
    revert hr
    cases r <;> decide
  obtain ⟨m₄, hcalled, hslots₄, hworld₄, hresult⟩ := hans callee vs m₃ result w hpass
    (by rw [show m₃.world = m₁.world from hworld]; exact hcall)
  refine ⟨m₄, ?_, hresult, hk₁.trans (.ofRegs ?_ fun _ h => h.elim), hworld₄⟩
  · refine execAll_append_of hex₁ (execAll_append_of hex₂ ?_)
    have hinst : (Inst.call callee).exec targets m₃ = some m₄ := hcalled
    rw [execAll_cons hclear, execAll_cons hinst, execAll_nil]
  · rw [hslots₄]
    exact hslots

/-- Around a call inside an expression, the registers in use are saved and loaded again. They are
the ones that are held, `exec_reload`; the result is then moved to the register on top. -/
theorem Lowering.Tree.computes_call {label : Nat} {line : Line} {callee : String} {args : List Arg}
    {values : Eval W (List Int32)} (hans : Answers targets calls)
    (hstage : StageComputes targets L store (fun depth => Arg.stageAll depth 0 args) args.length
      values) :
    (Tree.call label line callee args).Computes targets L store (do
      let vs ← values
      let result ← calls callee vs
      Eval.ofOption result) where
  settled := Tree.settled_call hstage.settled label line
  leaf h := by simp [Tree.leaf?] at h
  run := by
    intro s s' u c dest rest h hcov hsound hfree m v w hstore hv
    obtain ⟨-, dest', rest', hfree', hcall⟩ := Tree.yields_call.1 h
    obtain ⟨rfl, rfl⟩ := List.cons.inj (hfree'.symm.trans hfree)
    obtain ⟨-, saved, s₁, s₂, c₁, c₂, hsave, hroutine, rfl, rfl⟩ := yields_callValue.1 hcall
    obtain ⟨hs₁, hp₁, -⟩ := saveAll_steady hsave
    obtain ⟨hs₂, -, -⟩ := callRoutine_steady hstage.settled hroutine
    have hdepth : (s₁.withPool s₁.pool.reset).callDepth = s.callDepth := hs₁.callDepth
    -- the registers are saved
    obtain ⟨m₁, hex₁, hworld₁, hregs, hk₁, hreads₁⟩ :=
      saveAll_runs targets hsave (hcov.of_grows hs₂.scopes) hsound.nodup_held m
    have hk₁' : Kept L (Temp s.callDepth) (fun _ => True) m m₁ :=
      hk₁.mono (by rintro _ ⟨r, -, rfl⟩; exact .save r (Nat.le_refl _)) fun _ h => h
    -- the call is made
    obtain ⟨vs, w₁, hvs, hv⟩ := Eval.bind_eq_some_iff.1 hv
    obtain ⟨result, w₂, hresult, hv⟩ := Eval.bind_eq_some_iff.1 hv
    obtain ⟨v', rfl, hv'⟩ := Option.map_eq_some_iff.1 hv
    obtain ⟨rfl, rfl⟩ := Prod.mk.inj hv'
    obtain ⟨m₂, hex₂, hax, hk₂, hworld₂⟩ := callRoutine_runs hans hstage hroutine hcov
      (hp₁ ▸ hsound).reset (hstore.kept hk₁' fun _ => dollar_of_temp) (hworld₁ ▸ hvs) hresult
    rw [hdepth] at hk₂
    -- the registers are loaded again
    have hreads₂ := hreads₁.imp fun _ _ h => h.kept hk₂
    rw [← hregs] at hreads₂
    obtain ⟨m₃, hex₃, hregs₃, hothers, hslots₃, hworld₃⟩ :=
      exec_reload targets hreads₂ (hregs ▸ hsound.nodup_held)
    rw [hregs] at hregs₃ hothers
    have hnotHeld : Convention.resultReg ∉ s.pool.held := fun hmem =>
      (hsound.ne_of_mem (List.mem_of_mem_filter hmem)).1 rfl
    have hax₃ : m₃.regs Convention.resultReg = v' := (hothers _ hnotHeld).trans (hax v' rfl)
    have hmov : (Inst.movl (.reg Convention.resultReg) (.reg dest')).exec targets m₃ =
        some (m₃.setReg dest' v') := exec_movl_reg dest' (congrArg some hax₃)
    refine ⟨m₃.setReg dest' v', ?_, Machine.regs_setReg_self .., ⟨?_, ?_⟩, ?_⟩
    · refine execAll_append_of hex₁ (execAll_append_of hex₂ (execAll_append_of hex₃ ?_))
      exact (execAll_cons hmov).trans (execAll_nil _)
    · intro d hd
      change m₃.slots d = m.slots d
      rw [hslots₃, hk₂.slots d fun x hx => hd x hx.temp, hk₁'.slots d hd]
    · intro r hr
      have hne : r ≠ dest' := fun e => hr.2 (e ▸ hfree' ▸ List.mem_cons_self)
      rw [Machine.regs_setReg_of_ne _ _ hne]
      exact hregs₃ r (List.mem_filter.2 ⟨hr.1, by simpa using hr.2⟩)
    · change m₃.world = _
      rw [hworld₃, hworld₂]

/-! ## Expressions and their arguments -/

/-- Computing a plan leaves the value in the register that is taken. It is the run of the tree,
since taking the register is no code. -/
theorem plan_lower_runs {plan : Plan} {line : Line} {value : Eval W Int32} {s s' : State} {r : Reg}
    {c : List Inst} {m : Machine W} {v : Int32} {w : W}
    (ht : ∀ {ws t}, plan = .ready ws t → t.Computes targets L store value)
    (h : (plan.lower line).Yields s r s' c) (hcov : L.Covers s'.scopes) (hsound : s.pool.Sound)
    (hstore : Holds L store m) (hv : value m.world = some (v, w)) :
    ∃ m', execAll targets c m = some m' ∧ m'.regs r = v ∧
      Kept L (Temp s.callDepth) s.pool.Busy m m' ∧ m'.world = w := by
  obtain ⟨ws, t, rfl, hc⟩ := yields_plan_lower.1 h
  obtain ⟨s₁, hm, -, ha, -⟩ := yields_compute.1 hc
  obtain ⟨-, hp, -⟩ := (ht rfl).settled hm
  obtain ⟨rest, hf, rfl, -⟩ := yields_allocate.1 ha
  -- The tree leaves the pool as it was, so the register that is taken was on top at the start.
  rw [hp.free_eq] at hf
  exact (ht rfl).run hm hcov hsound hf hstore hv

/-- An argument of a call ends in an operand that later arguments do not change. A computed one is
in a temporary of its own, and a variable or a number is not written at all. -/
theorem stage_runs {e : Expr} {depth index : Nat} {s s' : State} {op : Operand} {c : List Inst}
    {m : Machine W} {v : Int32} {w : W}
    (ht : ∀ {ws t}, Plan.ofExpr false e = .ready ws t →
      t.Computes targets L store (e.eval calls store))
    (hdepth : s.callDepth = depth + 1)
    (h : ((Arg.ofPlan e (Plan.ofExpr false e)).stage depth index).Yields s op s' c)
    (hcov : L.Covers s'.scopes) (hsound : s.pool.Sound) (hstore : Holds L store m)
    (hv : e.eval calls store m.world = some (v, w)) :
    ∃ m', execAll targets c m = some m' ∧ Reads L (Staged depth (index + 1)) m' op v ∧
      Kept L (Staged depth index) (fun _ => False) m m' ∧ m'.world = w := by
  -- a variable or a constant is its own operand, any other value waits in a temporary
  cases e with
  | var line name =>
    rw [Arg.ofPlan, Arg.stage, yields_varOperand] at h
    obtain ⟨⟨slot, hf, rfl⟩, rfl, rfl⟩ := h
    obtain ⟨_, hname, hp⟩ := Option.map_eq_some_iff.1 hv
    obtain ⟨rfl, rfl⟩ := Prod.mk.inj hp
    have hop : (Leaf.var name).operand? s'.scopes = some slot.operand := by simp [Leaf.operand?, hf]
    have hread := hstore.reads_leaf hcov hop hname
    exact ⟨m, rfl, hread.mono fun _ hx => dollar_of_temp hx.temp, .refl m, rfl⟩
  | integer line value =>
    rw [Arg.ofPlan, Arg.stage, yields_pure] at h
    obtain ⟨rfl, rfl, rfl⟩ := h
    obtain ⟨rfl, rfl⟩ := Prod.mk.inj (Option.some.inj hv)
    exact ⟨m, rfl, .imm _, .refl m, rfl⟩
  | element =>
    rw [Arg.ofPlan, Arg.stage, yields_fail] at h
    exact h.elim
  | _ =>
    obtain ⟨r, s₁, s₂, c₁, hl, htemp, hf, rfl⟩ := Arg.yields_computed.1 h
    obtain ⟨-, -, rfl, -⟩ := yields_free.1 hf
    obtain ⟨hs₂, -⟩ := tempOperand_steady (Temp.argument index (Nat.le_refl depth)) htemp
    have hcov₂ : L.Covers s₂.scopes := hcov
    obtain ⟨m₁, hex₁, hr, hk₁, hw⟩ :=
      plan_lower_runs ht hl (hcov₂.of_grows hs₂.scopes) hsound hstore hv
    obtain ⟨d, rfl, hd⟩ := tempOperand_place hcov₂ htemp
    rw [hdepth] at hk₁
    have hmov : (Inst.movl (.reg r) (.mem .rbp d)).exec targets m₁ = some (m₁.setSlot d v) :=
      exec_movl_slot d (congrArg some hr)
    refine ⟨m₁.setSlot d v, execAll_append_of hex₁ ((execAll_cons hmov).trans (execAll_nil _)), ?_,
      ?_, hw⟩
    · have hread := Reads.slot (m := m₁.setSlot d v)
        (not_staged_argumentTemp depth (Nat.lt_succ_self index)) hd
      rwa [Machine.slots_setSlot_self] at hread
    · refine (hk₁.mono (fun _ hx => .inl hx) fun _ h => h.elim).trans ?_
      exact .setSlot m₁ v (.inr ⟨index, Nat.le_refl index, rfl⟩) hd

theorem stageAll_runs {es : List Expr} {depth index : Nat} {s s' : State} {ops : List Operand}
    {c : List Inst} {m : Machine W} {vs : List Int32} {w : W}
    (ht : ∀ e ∈ es, ∀ {ws t}, Plan.ofExpr false e = .ready ws t →
      t.Computes targets L store (e.eval calls store))
    (hdepth : s.callDepth = depth + 1)
    (h : (Arg.stageAll depth index (Arg.ofExprs es)).Yields s ops s' c) (hcov : L.Covers s'.scopes)
    (hsound : s.pool.Sound) (hstore : Holds L store m)
    (hvs : Expr.evalAll calls store es m.world = some (vs, w)) :
    ∃ m', execAll targets c m = some m' ∧ List.Forall₂ (Reads L (fun _ => False) m') ops vs ∧
      vs.length = es.length ∧ Kept L (Staged depth index) (fun _ => False) m m' ∧ m'.world = w := by
  induction es generalizing index s ops c m vs with
  | nil =>
    obtain ⟨rfl, rfl, rfl⟩ := Arg.yields_stageAll_nil.1 h
    obtain ⟨rfl, rfl⟩ := Prod.mk.inj (Option.some.inj hvs)
    exact ⟨m, rfl, .nil, rfl, .refl m, rfl⟩
  | cons e es ih =>
    obtain ⟨op, s₁, l', c₁, c₂, ha, hl, rfl, rfl⟩ := Arg.yields_stageAll_cons.1 h
    have hte := @ht e List.mem_cons_self
    have htes := fun e' he => @ht e' (List.mem_cons_of_mem e he)
    obtain ⟨hs₁, hp₁, -⟩ := stage_steady (fun h => (hte h).settled) hdepth ha
    obtain ⟨hs₂, -, -⟩ := stageAll_settled (fun e' he _ _ h => (htes e' he h).settled) depth
      (hs₁.callDepth.trans hdepth) hl
    obtain ⟨v, w₁, hv, hrest⟩ := Eval.bind_eq_some_iff.1 hvs
    obtain ⟨vs', w₂, hvs', hp⟩ := Eval.bind_eq_some_iff.1 hrest
    obtain ⟨rfl, rfl⟩ := Prod.mk.inj (Option.some.inj hp)
    obtain ⟨m₁, hex₁, hread, hk₁, rfl⟩ :=
      stage_runs hte hdepth ha (hcov.of_grows hs₂.scopes) hsound hstore hv
    obtain ⟨m₂, hex₂, hreads, hlen, hk₂, hw⟩ := ih htes (hs₁.callDepth.trans hdepth) hl
      (hsound.restored hp₁) (hstore.kept hk₁ fun _ hx => dollar_of_temp hx.temp) hvs'
    refine ⟨m₂, execAll_append_of hex₁ hex₂, .cons ?_ hreads, congrArg (· + 1) hlen, ?_, hw⟩
    -- what is staged later has a larger index, and so it has another slot
    · exact (hread.kept hk₂).mono fun _ h => h.elim
    · refine hk₁.trans (hk₂.mono ?_ fun _ h => h)
      rintro x (hx | ⟨j, hj, rfl⟩)
      · exact .inl hx
      · exact .inr ⟨j, by omega, rfl⟩

theorem stageComputes_of_trees {es : List Expr}
    (ht : ∀ e ∈ es, ∀ {ws t}, Plan.ofExpr false e = .ready ws t →
      t.Computes targets L store (e.eval calls store)) :
    StageComputes targets L store (fun depth => Arg.stageAll depth 0 (Arg.ofExprs es)) es.length
      (Expr.evalAll calls store es) where
  settled := stageAll_settled fun e he _ _ h => (ht e he h).settled
  run := fun _ _ _ _ _ hdepth h hcov hsound _ _ _ hstore hvs =>
    stageAll_runs ht hdepth h hcov hsound hstore hvs

namespace Expr

/-- The tree of every expression computes its value. By induction on the plan, with one lemma for
each kind of node. -/
theorem computes_of_ready (hans : Answers targets calls) {e : Expr} {operand : Bool}
    {ws : List Warning} {t : Tree} (h : Plan.ofExpr operand e = .ready ws t) :
    t.Computes targets L store (e.eval calls store) := by
  -- with the label, which decides on the order of evaluation
  suffices t.label = e.registers operand ∧ t.Computes targets L store (e.eval calls store) from this.2
  refine tree_induction (motive := fun operand e t => t.label = e.registers operand ∧
    t.Computes targets L store (e.eval calls store)) ?var ?integer ?real ?call ?sign ?add ?mul e h
  case var => intro operand line name; exact ⟨rfl, Tree.computes_leaf _ line (.var name)⟩
  case integer => intro operand line v; exact ⟨rfl, Tree.computes_leaf _ line (.int v)⟩
  case real => intro operand line v; exact ⟨rfl, Tree.computes_leaf _ line (.int v.truncate)⟩
  case call =>
    intro operand line callee args ih
    have hlen : (Arg.ofExprs args).length = args.length := by simp [Arg.ofExprs_eq_map]
    refine ⟨rfl, ?_⟩
    exact Tree.computes_call hans (hlen ▸ stageComputes_of_trees fun e he _ _ h => (ih e he h).2)
  case sign => intro operand line e t ih; exact ⟨ih.1, ih.2.negated line⟩
  case add =>
    intro operand line op left right t u ⟨hl, ht⟩ ⟨hr, hu⟩
    refine ⟨by rw [Tree.label_joined, hl, hr]; rfl, ?_⟩
    have := ht.joined hu (BinOp.computes_ofAddOp op) line
    rw [hl, hr] at this
    simpa only [value?_ofAddOp, Eval.ofOption_some, eval, rightFirst] using this
  case mul =>
    intro operand line op left right t u ⟨hl, ht⟩ ⟨hr, hu⟩
    refine ⟨by rw [Tree.label_joined, hl, hr]; rfl, ?_⟩
    have := ht.joined hu (BinOp.computes_ofMulOp op) line
    rw [hl, hr] at this
    simpa only [value?_ofMulOp, eval, rightFirst] using this

/-- The arguments of a procedure are computed from left to right. Their trees compute their values
by `computes_of_ready`. -/
theorem stageAll_computes (hans : Answers targets calls) (args : List Expr) :
    StageComputes targets L store (Expr.stageAll args) args.length (evalAll calls store args) :=
  stageComputes_of_trees fun _ _ => computes_of_ready hans

/-- Computing an expression into a register leaves its value there. It is what statements use, and
what the main statement about expressions is read off. -/
theorem lower_runs (hans : Answers targets calls) {e : Expr} {s s' : State} {r : Reg}
    {c : List Inst} {m : Machine W} {v : Int32} {w : W} (h : e.lower.Yields s r s' c)
    (hcov : L.Covers s'.scopes) (hsound : s.pool.Sound) (hstore : Holds L store m)
    (hv : e.eval calls store m.world = some (v, w)) :
    ∃ m', execAll targets c m = some m' ∧ m'.regs r = v ∧
      Kept L (Temp s.callDepth) s.pool.Busy m m' ∧ m'.world = w :=
  plan_lower_runs (computes_of_ready hans) h hcov hsound hstore hv

end Expr

end PascalAsm
