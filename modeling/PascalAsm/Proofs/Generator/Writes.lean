import PascalAsm.Proofs.Machine.Stack
import PascalAsm.Proofs.Simulation.Relation

/-!
# What code writes

Which slots and which registers some code may change can be seen from its instructions, without
running it.

* **`Stores`** — of the frame, the code writes the slots of some names only.
* **`Clobbers`** — the code makes no calls, and of the registers it changes these only.

Code of which both is known keeps everything else when it is run: `execAll_kept`. For trees,
`Tree.StoresOnly` says which slots their code writes. It has one lemma for each kind of node that is
no call.
-/

namespace PascalAsm.Lowering

open Assembly Gen State

/-! ## Code -/

/-- The operand is a register, or the slot of one of these names. Which names these are is the
footprint: the temporaries of a depth, or the one for divisors. -/
inductive Writable (P : String → Prop) (S : Scopes) : Operand → Prop
  | reg (r : Reg) : Writable P S (.reg r)
  | slot {x : String} {slot : Slot} (hx : P x) (hfind : S.find? x = some slot) :
    Writable P S slot.operand

attribute [simp] Writable.reg

/-- The code writes registers and the slots of these names. That the names have slots is part of it,
so it is said of the scopes at the end. -/
def Stores (P : String → Prop) (S : Scopes) (c : List Inst) : Prop :=
  ∀ i ∈ c, ∀ op ∈ i.written, Writable P S op

/-- The code makes no calls, and changes these registers only. Together with `Stores` it bounds all
that the code can change but the flags. -/
def Clobbers (R : Reg → Prop) (c : List Inst) : Prop :=
  ∀ i ∈ c, (∀ r ∈ i.writes, R r) ∧ ∀ name, i ≠ .call name

namespace Stores

variable {P Q : String → Prop} {S T : Scopes} {c d : List Inst}

@[simp] theorem nil : Stores P S [] := by simp [Stores]

@[simp] theorem cons_iff {i : Inst} :
    Stores P S (i :: c) ↔ (∀ op ∈ i.written, Writable P S op) ∧ Stores P S c := by
  simp [Stores]

@[simp] theorem append_iff : Stores P S (c ++ d) ↔ Stores P S c ∧ Stores P S d := by
  simp [Stores, or_imp, forall_and]

theorem mono (hPQ : ∀ x, P x → Q x) (h : Stores P S c) : Stores Q S c := by
  intro i hi op hop
  cases h i hi op hop with
  | reg r => exact .reg r
  | slot hx hfind => exact .slot (hPQ _ hx) hfind

/-- A slot that was handed out stays where it is. So code that was made early keeps its footprint
while temporaries are added. -/
theorem of_grows (h : Stores P S c) (hg : Scopes.Grows Q S T) : Stores P T c := by
  intro i hi op hop
  cases h i hi op hop with
  | reg r => exact .reg r
  | slot hx hfind => exact .slot hx (hg.find? hfind)

end Stores

namespace Clobbers

variable {R Q : Reg → Prop} {c d : List Inst}

theorem append (h : Clobbers R c) (h' : Clobbers R d) : Clobbers R (c ++ d) := fun i hi =>
  (List.mem_append.1 hi).elim (h i) (h' i)

theorem left (h : Clobbers R (c ++ d)) : Clobbers R c := fun i hi => h i (List.mem_append_left d hi)

theorem mono (hRQ : ∀ r, R r → Q r) (h : Clobbers R c) : Clobbers Q c := fun i hi =>
  ⟨fun r hr => hRQ r ((h i hi).1 r hr), (h i hi).2⟩

end Clobbers

/-! ## Running it -/

section

variable {W : Type} {targets : Targets W} {L : Layout} {P : String → Prop} {R : Reg → Prop}
  {S : Scopes} {m m' : Machine W}

theorem write?_kept {v : Int32} {op : Operand} (hcov : L.Covers S) (hop : Writable P S op)
    (hregs : ∀ r ∈ op.regs, R r) (h : m.write? v op = some m') :
    Kept L P (fun r => ¬ R r) m m' := by
  cases hop with
  | reg r =>
    obtain rfl := Option.some.inj h
    exact .setReg m v (not_not_intro (hregs r List.mem_cons_self))
  | slot hx hfind =>
    obtain rfl := Option.some.inj h
    exact .setSlot m v hx (hcov hfind)

/-- An instruction that is no call keeps what it does not write. `hslots` and `hregs` bound what it
writes; a call could do more, so it is excluded. -/
theorem exec_kept {i : Inst} (hcov : L.Covers S) (hslots : ∀ op ∈ i.written, Writable P S op)
    (hregs : ∀ r ∈ i.writes, R r) (hcall : ∀ name, i ≠ .call name)
    (h : i.exec targets m = some m') : Kept L P (fun r => ¬ R r) m m' := by
  -- flags are neither slots nor registers
  have hclear : Kept L P (fun r => ¬ R r) m m.clearFlags := .ofRegs rfl fun _ _ => rfl
  cases i with
  | movl src dest =>
    obtain ⟨v, -, hwrite⟩ := Option.bind_eq_some_iff.1 h
    exact write?_kept hcov (hslots dest List.mem_cons_self) hregs hwrite
  | arith op src dest =>
    obtain ⟨b, -, h⟩ := Option.bind_eq_some_iff.1 h
    obtain ⟨a, -, hwrite⟩ := Option.bind_eq_some_iff.1 h
    exact hclear.trans (write?_kept hcov (hslots dest List.mem_cons_self) hregs hwrite)
  | negl dest =>
    obtain ⟨a, -, hwrite⟩ := Option.bind_eq_some_iff.1 h
    exact hclear.trans (write?_kept hcov (hslots dest List.mem_cons_self) hregs hwrite)
  | cdq =>
    obtain rfl := Option.some.inj h
    exact .setReg m _ (not_not_intro (hregs .rdx List.mem_cons_self))
  | idivl divisor =>
    obtain ⟨b, -, h⟩ := Option.bind_eq_some_iff.1 h
    obtain ⟨⟨quotient, remainder⟩, -, h⟩ := Option.bind_eq_some_iff.1 h
    obtain rfl := Option.some.inj h
    have hax : ¬ ¬ R .rax := not_not_intro (hregs .rax (by simp [Inst.writes]))
    have hdx : ¬ ¬ R .rdx := not_not_intro (hregs .rdx (by simp [Inst.writes]))
    exact hclear.trans ((Kept.setReg _ quotient hax).trans (.setReg _ remainder hdx))
  | leaq src dest =>
    have hdest : ∀ q, ¬ R q → q ≠ dest := fun q hq e => hq (e ▸ hregs dest List.mem_cons_self)
    have hpoint (p : Place) : Kept L P (fun r => ¬ R r) m (m.point dest p) :=
      .ofRegs rfl fun q hq => Function.update_of_ne (hdest q hq) ..
    cases src with
    | mem base disp =>
      cases base with
      | rbp =>
        obtain rfl := Option.some.inj h
        exact hpoint _
      | _ => cases h
    | rip label =>
      obtain rfl := Option.some.inj h
      exact hpoint _
    | _ => cases h
  | label | comment =>
    obtain rfl := Option.some.inj h
    exact .refl m
  | call name => exact (hcall name rfl).elim
  | _ => cases h

/-- **Code keeps what it does not write.** By induction on the code, with `exec_kept` for each
instruction. -/
theorem execAll_kept {c : List Inst} (hcov : L.Covers S) (hslots : Stores P S c)
    (hregs : Clobbers R c) (h : execAll targets c m = some m') :
    Kept L P (fun r => ¬ R r) m m' := by
  induction c generalizing m with
  | nil =>
    obtain rfl := Option.some.inj h
    exact .refl m
  | cons i c ih =>
    obtain ⟨hi, hc⟩ := Stores.cons_iff.1 hslots
    obtain ⟨m₁, hfirst, hrest⟩ := Option.bind_eq_some_iff.1 h
    obtain ⟨hiregs, hcall⟩ := hregs i List.mem_cons_self
    -- `exec_kept` for the first instruction, and `ih` for the others with what is left of `hregs`.
    exact (exec_kept hcov hi hiregs hcall hfirst).trans
      (ih hc (fun j hj => hregs j (List.mem_cons_of_mem i hj)) hrest)

end

/-! ## The last step of an operation -/

section

variable {P : String → Prop} {s s' : State} {u : Unit} {c : List Inst} {src : Operand} {dest : Reg}

theorem stores_divide {result : Reg} (hP : P divisorTemp)
    (h : (divide result src dest).Yields s u s' c) : Stores P s'.scopes c := by
  obtain ⟨-, -, rfl⟩ | ⟨-, op, htemp, rfl⟩ := yields_divide.1 h
  · simp [divideCode, Inst.written]
  · obtain ⟨slot, hfind, rfl⟩ := find?_of_tempOperand htemp
    simp [divideCode, Inst.written, Writable.slot hP hfind]

/-- Only a division by a constant writes a slot. The others read memory at most. -/
theorem stores_combine {op : BinOp} (hP : P divisorTemp) (h : (combine op src dest).Yields s u s' c) :
    Stores P s'.scopes c := by
  cases op with
  | add | sub | mul | compare =>
    obtain ⟨-, rfl⟩ := yields_emit.1 h
    simp [Inst.written]
  | div | mod => exact stores_divide hP h

theorem clobbers_divide {R : Reg → Prop} {result : Reg} (hdest : R dest) (hax : R .rax)
    (hdx : R .rdx) (h : (divide result src dest).Yields s u s' c) : Clobbers R c := by
  have hdivide (divisor : Operand) : Clobbers R (divideCode result divisor dest) := by
    simp [Clobbers, divideCode, Inst.writes, Operand.regs, Convention.resultReg, hdest, hax, hdx]
  obtain ⟨-, -, rfl⟩ | ⟨-, op, htemp, rfl⟩ := yields_divide.1 h
  · exact hdivide src
  · obtain ⟨slot, -, rfl⟩ := find?_of_tempOperand htemp
    refine .append (c := [_]) ?_ (hdivide slot.operand)
    simp [Clobbers, Inst.writes, Slot.operand_eq, Operand.regs]

/-- An operation changes its destination, and a division the two registers that it works in. `R` has
to allow the three of them, whichever operation it is. -/
theorem clobbers_combine {R : Reg → Prop} {op : BinOp} (hdest : R dest) (hax : R .rax) (hdx : R .rdx)
    (h : (combine op src dest).Yields s u s' c) : Clobbers R c := by
  cases op with
  | add | sub | mul | compare =>
    obtain ⟨-, rfl⟩ := yields_emit.1 h
    simp [Clobbers, Inst.writes, Operand.regs, hdest]
  | div | mod => exact clobbers_divide hdest hax hdx h

end

/-! ## Trees -/

/-- The code of the tree writes the slots of some names only. Which ones these are may depend on how
many calls are under way around it. -/
structure Tree.StoresOnly (P : Nat → String → Prop) (t : Tree) : Prop where
  settled : t.Settled
  stores : ∀ ⦃s s' : State⦄ ⦃u : Unit⦄ ⦃c : List Inst⦄, t.lower.Yields s u s' c →
    Stores (P s.callDepth) s'.scopes c

namespace Tree

variable {P : Nat → String → Prop} {t t' left right : Tree} {s s₁ s₂ s' : State} {u : Unit}
  {c c₁ c₂ : List Inst}

theorem storesOnly_leaf (label : Nat) (line : Line) (leaf : Leaf) :
    (Tree.leaf label line leaf).StoresOnly P where
  settled := settled_leaf label line leaf
  stores := by
    intro s s' u c h
    obtain ⟨-, -, dest, rest, src, -, -, rfl⟩ := yields_leaf.1 h
    simp [Inst.written]

namespace StoresOnly

theorem negated (ht : t.StoresOnly P) (line : Line) : (t.negated line).StoresOnly P where
  settled := ht.settled.negated line
  stores := by
    intro s s' u c h
    obtain ⟨-, c₁, dest, rest, hc, -, rfl⟩ := yields_negate.1 h
    simpa [Inst.written] using ht.stores hc

/-- One tree after another, whatever happens to the pool in between. The depth of calls is the same
for both, which is what `P` depends on. -/
theorem two {p : Pool} (ht : t.StoresOnly P) (ht' : t'.StoresOnly P)
    (h : t.lower.Yields s () s₁ c₁) (h' : t'.lower.Yields (s₁.withPool p) () s₂ c₂) :
    Stores (P s.callDepth) s₂.scopes (c₁ ++ c₂) := by
  obtain ⟨hs₁, -, -⟩ := ht.settled h
  obtain ⟨hs₂, -, -⟩ := ht'.settled h'
  have hdepth : (s₁.withPool p).callDepth = s.callDepth := hs₁.callDepth
  have hgrows : Scopes.Grows _ s₁.scopes s₂.scopes := hs₂.scopes
  exact Stores.append_iff.2 ⟨(ht.stores h).of_grows hgrows, hdepth ▸ ht'.stores h'⟩

variable {label : Nat} {line : Line} {op : BinOp}

/-- The sides of an operation, whichever of them comes first. In two of the three orders another
register is set aside in between, which writes nothing. -/
theorem sides {src : Operand} {dest : Reg} (hl : left.StoresOnly P) (hr : right.StoresOnly P)
    (h : Sides left right s src dest s₁ c₁) : Stores (P s.callDepth) s₁.scopes c₁ := by
  cases h with
  | swapped hlt hfree hright hleft =>
    have hcode := hr.two hl hright hleft
    exact hcode
  | ordered hge hfree hleft hright => exact hl.two hr hleft hright
  | operand hleaf hfree hleft hsrc => exact hl.stores hleft

/-- An operation or a comparison: its sides, and then what combines them. A comparison is no settled
tree, so the lemma is about both kinds of nodes at once. -/
theorem binary (hl : left.StoresOnly P) (hr : right.StoresOnly P) (hP : ∀ depth, P depth divisorTemp)
    (h : (Tree.binary label line op left right).lower.Yields s u s' c) :
    Stores (P s.callDepth) s'.scopes c := by
  obtain ⟨src, dest, s₁, s₂, p, c₁, c₂, hsides, hcombine, rfl, -, rfl⟩ :=
    hl.settled.combines hr.settled h
  obtain ⟨hs₂, -, -⟩ := combine_steady 0 hcombine
  have hlast := stores_combine (hP s.callDepth) hcombine
  exact Stores.append_iff.2 ⟨(hl.sides hr hsides).of_grows hs₂.scopes, hlast⟩

theorem joined (hl : left.StoresOnly P) (hr : right.StoresOnly P) (hP : ∀ depth, P depth divisorTemp)
    (hop : op.computes = true) (line : Line) : (Tree.joined line op left right).StoresOnly P where
  settled := hl.settled.joined hr.settled hop line
  stores := fun _ _ _ _ h => hl.binary hr hP h

end StoresOnly

end Tree

end PascalAsm.Lowering
