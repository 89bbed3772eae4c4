import PascalAsm.Proofs.Generator.Routines
import PascalAsm.Proofs.Generator.Targets

/-!
# The phrases that bodies consist of

The generator appends its code in a few fixed phrases: mostly single instructions, but a division
and a call are several instructions that belong together. `Phrase` lists them, with the operands
that each of them can have. What holds of every phrase, and of code that follows code, holds of every
body; so a property of all emitted instructions need only be looked at once for each phrase.

A phrase names slots, and which slots there are depends on the scope. While code is made the scope
only grows, so phrases stay phrases (`Phrases.of_grows`).

`Stmt.phrases_of_lower` says that the code of a statement consists of phrases, whose slots are those of
the scope in which the statement ends.
-/

namespace PascalAsm

open Assembly Lowering Gen State

/-! ## Phrases -/

namespace Assembly

/-- An operand that a value is taken from: a constant, a register of the pool, or a slot. -/
inductive Source (pooled : List Reg) (slot : Operand → Prop) : Operand → Prop
  | imm (v : Int32) : Source pooled slot (.imm v)
  | reg {r : Reg} (h : r ∈ pooled) : Source pooled slot (.reg r)
  | slot {op : Operand} (h : slot op) : Source pooled slot op

/-- The pieces of code that bodies are put together from, given which registers the pool has and which
operands are slots. -/
inductive Phrase (pooled : List Reg) (slot : Operand → Prop) : List Inst → Prop
  /-- A register gets a value. -/
  | load {src : Operand} {dest : Reg} (hs : Source pooled slot src) (hd : dest.isData = true) :
    Phrase pooled slot [.movl src (.reg dest)]
  /-- The result of a call goes where it is wanted. -/
  | result {dest : Reg} (hd : dest ∈ pooled) :
    Phrase pooled slot [.movl (.reg Convention.resultReg) (.reg dest)]
  /-- A slot gets what is in a register. -/
  | store {src : Reg} {dest : Operand} (hs : src.isData = true) (hd : slot dest) :
    Phrase pooled slot [.movl (.reg src) dest]
  /-- A slot gets a constant. -/
  | constant (v : Int32) {dest : Operand} (hd : slot dest) : Phrase pooled slot [.movl (.imm v) dest]
  | arith (op : ArithOp) {src : Operand} {dest : Reg} (hs : Source pooled slot src)
    (hd : dest ∈ pooled) : Phrase pooled slot [.arith op src (.reg dest)]
  | negate {dest : Reg} (hd : dest ∈ pooled) : Phrase pooled slot [.negl (.reg dest)]
  | compare {src : Operand} {dest : Reg} (hs : Source pooled slot src) (hd : dest ∈ pooled) :
    Phrase pooled slot [.cmpl src (.reg dest)]
  /-- A division, whose divisor is no constant. -/
  | divide {result dest : Reg} {divisor : Operand}
    (hr : result = Convention.resultReg ∨ result = Convention.remainderReg)
    (hs : Source pooled slot divisor) (hv : divisor.isImm = false) (hd : dest ∈ pooled) :
    Phrase pooled slot (divideCode result divisor dest)
  /-- A call, after the register for variadic functions was cleared. -/
  | call (name : String) : Phrase pooled slot [clear Convention.vectorCountReg, .call name]
  /-- The address of the slot that is read into. -/
  | address {op : Operand} (h : slot op) : Phrase pooled slot [.leaq op .rsi]
  /-- The address of a format string. -/
  | format {label : String} (h : label = Runtime.writeFormat ∨ label = Runtime.readFormat) :
    Phrase pooled slot [.leaq (.rip label) .rdi]
  | jmp (name : String) : Phrase pooled slot [.jmp name]
  | jcc (condition : Condition) (name : String) : Phrase pooled slot [.jcc condition name]
  | label (name : String) : Phrase pooled slot [.label name]
  | comment (line : String) : Phrase pooled slot [.comment line]

/-- Some phrases one after another. The cuts between them are not part of the code, so they exist
without being unique. -/
inductive Phrases (pooled : List Reg) (slot : Operand → Prop) : List Inst → Prop
  | nil : Phrases pooled slot []
  | cons {c d : List Inst} (h : Phrase pooled slot c) (h' : Phrases pooled slot d) :
    Phrases pooled slot (c ++ d)

variable {pooled : List Reg} {slot slot' : Operand → Prop} {c d : List Inst}

theorem Source.mono (hslot : ∀ op, slot op → slot' op) {op : Operand} (h : Source pooled slot op) :
    Source pooled slot' op := by
  cases h with
  | imm v => exact .imm v
  | reg h => exact .reg h
  | slot h => exact .slot (hslot _ h)

theorem Phrase.mono (hslot : ∀ op, slot op → slot' op) (h : Phrase pooled slot c) :
    Phrase pooled slot' c := by
  cases h with
  | load hs hd => exact .load (hs.mono hslot) hd
  | result hd => exact .result hd
  | store hs hd => exact .store hs (hslot _ hd)
  | constant v hd => exact .constant v (hslot _ hd)
  | arith op hs hd => exact .arith op (hs.mono hslot) hd
  | negate hd => exact .negate hd
  | compare hs hd => exact .compare (hs.mono hslot) hd
  | divide hr hs hv hd => exact .divide hr (hs.mono hslot) hv hd
  | call name => exact .call name
  | address h => exact .address (hslot _ h)
  | format h => exact .format h
  | jmp name => exact .jmp name
  | jcc condition name => exact .jcc condition name
  | label name => exact .label name
  | comment line => exact .comment line

namespace Phrases

theorem single (h : Phrase pooled slot c) : Phrases pooled slot c := by
  have := Phrases.cons h .nil
  rwa [List.append_nil] at this

theorem append (h : Phrases pooled slot c) (h' : Phrases pooled slot d) :
    Phrases pooled slot (c ++ d) := by
  induction h with
  | nil => exact h'
  | cons hc _ ih =>
    rw [List.append_assoc]
    exact .cons hc ih

theorem mono (hslot : ∀ op, slot op → slot' op) (h : Phrases pooled slot c) :
    Phrases pooled slot' c := by
  induction h with
  | nil => exact .nil
  | cons hc _ ih => exact .cons (hc.mono hslot) ih

/-- Instructions that are phrases each. It is how code that is made by a map over a list comes to
consist of phrases. -/
theorem of_forall : ∀ {c : List Inst}, (∀ i ∈ c, Phrase pooled slot [i]) → Phrases pooled slot c
  | [], _ => .nil
  | i :: _, h =>
    .cons (h i List.mem_cons_self) (of_forall fun j hj => h j (List.mem_cons_of_mem i hj))

end Phrases

end Assembly

/-! ## The slots of a scope -/

namespace Lowering

/-- The operand is a slot of the innermost scope. What it is the slot of plays no part here;
`Grows.slot` says that it stays one. -/
def Scopes.Slots (S : Scopes) (op : Operand) : Prop := ∃ x slot, S.find? x = some slot ∧ op = slot.operand

namespace Scopes

variable {P : String → Prop} {pooled : List Reg} {S T : Scopes} {c : List Inst}

theorem slots_of_find? {x : String} {slot : Slot} (h : S.find? x = some slot) :
    S.Slots slot.operand := ⟨x, slot, h, rfl⟩

/-- A slot that was handed out stays a slot. Phrases that were made early are therefore phrases at
the end, too, `Grows.phrases`. -/
theorem Grows.slot (h : Grows P S T) {op : Operand} (hop : S.Slots op) : T.Slots op := by
  obtain ⟨x, slot, hfind, rfl⟩ := hop
  exact slots_of_find? (h.find? hfind)

/-- What was said with the slots of a scope can still be said when the scope has grown. -/
theorem Grows.phrases (h : Grows P S T) (hc : Phrases pooled S.Slots c) :
    Phrases pooled T.Slots c :=
  hc.mono fun _ => h.slot

end Scopes

/-! ## Steps -/

section

variable {pooled : List Reg} {s s' : State} {u : Unit} {c : List Inst}

theorem Leaf.source {leaf : Leaf} {S : Scopes} {op : Operand} (h : leaf.operand? S = some op) :
    Source pooled S.Slots op := by
  cases leaf with
  | var name =>
    obtain ⟨slot, hfind, rfl⟩ := Option.map_eq_some_iff.1 h
    exact .slot (Scopes.slots_of_find? hfind)
  | int v =>
    obtain rfl := Option.some.inj h
    exact .imm v

theorem slots_of_tempOperand {name : String} {op : Operand}
    (h : (tempOperand name).Yields s op s' c) : s'.scopes.Slots op :=
  ⟨name, find?_of_tempOperand h⟩

theorem phrases_divide {result dest : Reg} {divisor : Operand}
    (hr : result = Convention.resultReg ∨ result = Convention.remainderReg)
    (hs : Source pooled s.scopes.Slots divisor) (hd : dest ∈ pooled)
    (h : (divide result divisor dest).Yields s u s' c) : Phrases pooled s'.scopes.Slots c := by
  obtain ⟨hv, rfl, rfl⟩ | ⟨hv, slot, ht, rfl⟩ := yields_divide.1 h
  · exact .single (.divide hr hs hv hd)
  · -- a constant goes through a temporary
    obtain ⟨v, rfl⟩ : ∃ v, divisor = .imm v := by
      cases divisor with
      | imm v => exact ⟨v, rfl⟩
      | _ => simp [Operand.isImm] at hv
    have hslot := slots_of_tempOperand ht
    have hnot : slot.isImm = false := by
      obtain ⟨_, _, -, rfl⟩ := hslot
      rfl
    exact .cons (.constant v hslot) (.single (.divide hr (.slot hslot) hnot hd))

theorem phrases_combine {op : BinOp} {src : Operand} {dest : Reg}
    (hs : Source pooled s.scopes.Slots src) (hd : dest ∈ pooled)
    (h : (combine op src dest).Yields s u s' c) : Phrases pooled s'.scopes.Slots c := by
  cases op with
  | add | sub | mul =>
    obtain ⟨rfl, rfl⟩ := yields_emit.1 h
    exact .single (.arith _ hs hd)
  | compare =>
    obtain ⟨rfl, rfl⟩ := yields_emit.1 h
    exact .single (.compare hs hd)
  -- Only a division has more than one instruction: `phrases_divide`.
  | div => exact phrases_divide (.inl rfl) hs hd h
  | mod => exact phrases_divide (.inr rfl) hs hd h

end

/-! ## Trees -/

/-- The code of the tree consists of phrases. The first field is what the second one needs between
two trees: the pool after one of them is managed because it is restored. -/
structure Tree.Phrased (t : Tree) : Prop where
  settled : t.Settled
  phrases : ∀ ⦃pooled : List Reg⦄ ⦃s s' : State⦄ ⦃u : Unit⦄ ⦃c : List Inst⦄,
    s.pool.Manages pooled → t.lower.Yields s u s' c → Phrases pooled s'.scopes.Slots c

namespace Tree

variable {pooled : List Reg} {s s' : State} {u : Unit} {c : List Inst}

theorem phrased_leaf (label : Nat) (line : Line) (leaf : Leaf) :
    (Tree.leaf label line leaf).Phrased where
  settled := settled_leaf label line leaf
  phrases := by
    intro pooled s s' u c hsound h
    obtain ⟨-, rfl, dest, rest, src, hfree, hop, rfl⟩ := yields_leaf.1 h
    have hdest := hsound.subset (hfree ▸ List.mem_cons_self)
    exact .single (.load (Leaf.source hop) (hsound.isData hdest))

theorem Phrased.negated {t : Tree} (ht : t.Phrased) (line : Line) : (t.negated line).Phrased where
  settled := ht.settled.negated line
  phrases := by
    intro pooled s s' u c hsound h
    obtain ⟨-, c₁, dest, rest, hc, hfree, rfl⟩ := yields_negate.1 h
    obtain ⟨-, hp, -⟩ := ht.settled hc
    have hsound' := hsound.restored hp
    have hdest := hsound'.subset (hfree ▸ List.mem_cons_self)
    exact (ht.phrases hsound hc).append (.single (.negate hdest))

variable {label : Nat} {line : Line} {op : BinOp} {left right t t' : Tree}

/-- One tree after another: while the second is computed, the register of the first is taken. -/
theorem Phrased.two {s₁ s₂ : State} {c₁ c₂ : List Inst} {r q : Reg} {rest : List Reg}
    (ht : t.Phrased) (ht' : t'.Phrased) (h₁ : t.lower.Yields s () s₁ c₁)
    (h₂ : t'.lower.Yields (s₁.withPool (s₁.pool.moved (q :: rest) 1 0)) () s₂ c₂)
    (hsound : s.pool.Manages pooled) (hfree : s.pool.free = r :: q :: rest) :
    Phrases pooled s₂.scopes.Slots (c₁ ++ c₂) := by
  obtain ⟨-, hp₁, -⟩ := ht.settled h₁
  obtain ⟨hs₂, -, -⟩ := ht'.settled h₂
  -- By `hp₁` the pool is as before, so that taking `r` leaves it managed.
  have hsound₂ : (s₁.pool.moved (q :: rest) 1 0).Manages pooled :=
    (hsound.restored hp₁).taken (hp₁.free_eq.trans hfree)
  have hgrows : Scopes.Grows _ s₁.scopes s₂.scopes := hs₂.scopes
  exact (hgrows.phrases (ht.phrases hsound h₁)).append (ht'.phrases hsound₂ h₂)

/-- The sides of an operation, whichever of them comes first. What is read of the right one is a
source. -/
theorem Phrased.sides {src : Operand} {dest : Reg} {s₁ : State} {c₁ : List Inst}
    (hl : left.Phrased) (hr : right.Phrased) (hsound : s.pool.Manages pooled)
    (h : Sides left right s src dest s₁ c₁) :
    Phrases pooled s₁.scopes.Slots c₁ ∧ Source pooled s₁.scopes.Slots src := by
  cases h with
  | @swapped dest b rest _ _ _ _ hlt hfree hright hleft =>
    have hsubset : (dest :: b :: rest) ⊆ pooled := hfree ▸ hsound.subset
    exact ⟨hr.two hl hright hleft (hsound.swap hfree) rfl, .reg (hsubset (by simp))⟩
  | @ordered dest b rest _ _ _ _ hge hfree hleft hright =>
    have hsubset : (dest :: b :: rest) ⊆ pooled := hfree ▸ hsound.subset
    exact ⟨hl.two hr hleft hright hsound hfree, .reg (hsubset (by simp))⟩
  | operand hleaf hfree hleft hsrc => exact ⟨hl.phrases hsound hleft, Leaf.source hsrc⟩

/-- An operation or a comparison: its sides, and then what combines them. The three ways of ordering
the sides are in `Settled.combines`, and `Phrased.sides` deals with each. -/
theorem Phrased.binary (hl : left.Phrased) (hr : right.Phrased) (hsound : s.pool.Manages pooled)
    (h : (Tree.binary label line op left right).lower.Yields s u s' c) :
    Phrases pooled s'.scopes.Slots c := by
  obtain ⟨src, dest, s₁, s₂, p, c₁, c₂, hsides, hcombine, rfl, -, rfl⟩ :=
    hl.settled.combines hr.settled h
  obtain ⟨rest, hfree⟩ := hsides.exists_free_eq
  obtain ⟨hcode, hsrc⟩ := hl.sides hr hsound hsides
  obtain ⟨hs₂, -, -⟩ := combine_steady 0 hcombine
  have hdest : dest ∈ pooled := hsound.subset (hfree ▸ List.mem_cons_self)
  exact (hs₂.scopes.phrases hcode).append (phrases_combine hsrc hdest hcombine)

theorem Phrased.joined (hl : left.Phrased) (hr : right.Phrased) (hop : op.computes = true)
    (line : Line) : (Tree.joined line op left right).Phrased where
  settled := hl.settled.joined hr.settled hop line
  phrases := fun _ _ _ _ _ hsound h => hl.binary hr hsound h

end Tree

/-! ## Calls -/

section

variable {pooled : List Reg} {s s' : State} {u : Unit} {c : List Inst}

theorem phrases_saveAll {depth : Nat} {regs : List Reg} {l : List (Reg × Operand)}
    (hregs : ∀ r ∈ regs, r ∈ pooled ∧ r.isData = true)
    (h : (saveAll depth regs).Yields s l s' c) :
    Phrases pooled s'.scopes.Slots c ∧ ∀ p ∈ l, p.1 ∈ pooled ∧ s'.scopes.Slots p.2 := by
  induction regs generalizing s l c with
  | nil =>
    obtain ⟨rfl, rfl, rfl⟩ := yields_saveAll_nil.1 h
    exact ⟨.nil, by simp⟩
  | cons r rest ih =>
    obtain ⟨slot, s₁, l', c', ht, hl, rfl, rfl⟩ := yields_saveAll_cons.1 h
    obtain ⟨hs, -, -⟩ := saveAll_steady hl
    obtain ⟨hcode, hsaved⟩ := ih (fun q hq => hregs q (List.mem_cons_of_mem r hq)) hl
    obtain ⟨hr, hdata⟩ := hregs r List.mem_cons_self
    -- The slot was made first, and stays when those of the rest are made: `hs.scopes.slot`.
    have hslot := hs.scopes.slot (slots_of_tempOperand ht)
    refine ⟨.cons (.store hdata hslot) hcode, ?_⟩
    rintro p (_ | ⟨_, hp⟩)
    · exact ⟨hr, hslot⟩
    · exact hsaved p hp

/-- Staging some arguments gives phrases, and operands that depend on no call that is under way. -/
structure StagePhrased (stage : Nat → Gen (List Operand)) : Prop where
  settled : StageSettled stage
  phrases : ∀ ⦃pooled : List Reg⦄ ⦃s s' : State⦄ ⦃ops : List Operand⦄ ⦃c : List Inst⦄
    (depth : Nat),
    s.callDepth = depth + 1 → s.pool.Manages pooled → (stage depth).Yields s ops s' c →
    Phrases pooled s'.scopes.Slots c ∧ ∀ op ∈ ops, Source pooled s'.scopes.Slots op

theorem phrases_loadArgs {slot : Operand → Prop} {ops : List Operand}
    (h : ∀ op ∈ ops, Source pooled slot op) : Phrases pooled slot (loadArgs ops) := by
  refine .of_forall fun i hi => ?_
  rw [loadArgs, ← List.map_uncurry_zip_eq_zipWith, List.mem_map] at hi
  obtain ⟨⟨op, r⟩, hmem, rfl⟩ := hi
  obtain ⟨hop, hr⟩ := List.of_mem_zip hmem
  have hdata : r.isData = true := by
    have hr := List.mem_of_mem_take hr
    revert hr
    cases r <;> decide
  exact .load (h op hop) hdata

theorem phrases_callRoutine {callee : String} {count : Nat} {line : Line}
    {stage : Nat → Gen (List Operand)} (hstage : StagePhrased stage) (hsound : s.pool.Manages pooled)
    (h : (callRoutine callee count line stage).Yields s u s' c) : Phrases pooled s'.scopes.Slots c := by
  obtain ⟨-, operands, s₁, s₂, c₁, claimed, hs, hclaim, hrelease, rfl⟩ := yields_callRoutine.1 h
  obtain ⟨hcode, hops⟩ := hstage.phrases s.callDepth rfl (by exact hsound) hs
  obtain ⟨q, rfl, -⟩ := claim_release_even hclaim hrelease
  exact hcode.append ((phrases_loadArgs hops).append (.single (.call callee)))

/-- Around a call inside an expression, registers of the pool are saved and loaded again. The
registers are those that are held, hence members of the pool, and the slots are temporaries. -/
theorem Tree.phrased_call {callee : String} {args : List Arg}
    (hstage : StagePhrased fun depth => Arg.stageAll depth 0 args) (label : Nat) (line : Line) :
    (Tree.call label line callee args).Phrased where
  settled := settled_call hstage.settled label line
  phrases := by
    intro pooled s s' u c hsound h
    obtain ⟨-, dest, rest, hfree, hcall⟩ := Tree.yields_call.1 h
    obtain ⟨-, saved, s₁, s₂, c₁, c₂, hsave, hroutine, rfl, rfl⟩ := yields_callValue.1 hcall
    obtain ⟨-, hp₁, -⟩ := saveAll_steady hsave
    obtain ⟨hs₂, -, -⟩ := callRoutine_steady hstage.settled hroutine
    have hgrows : Scopes.Grows _ s₁.scopes s₂.scopes := hs₂.scopes
    -- What is saved are the registers that are held, and those are members of the pool.
    have hheld : ∀ r ∈ s.pool.held, r ∈ pooled ∧ r.isData = true := by
      intro r hr
      have hmem : r ∈ pooled := hsound.members ▸ List.mem_of_mem_filter hr
      exact ⟨hmem, hsound.isData hmem⟩
    obtain ⟨hstores, hsaved⟩ := phrases_saveAll hheld hsave
    have hcode := phrases_callRoutine hstage (hp₁ ▸ hsound).reset hroutine
    -- The slots that were stored into are those that are loaded from, `hsaved`.
    have hloads : Phrases pooled s₂.scopes.Slots (saved.map fun q => Inst.movl q.2 (.reg q.1)) := by
      refine .of_forall fun i hi => ?_
      obtain ⟨p, hp, rfl⟩ := List.mem_map.1 hi
      obtain ⟨hr, hslot⟩ := hsaved p hp
      exact .load (.slot (hgrows.slot hslot)) (hsound.isData hr)
    have hdest := hsound.subset (hfree ▸ List.mem_cons_self)
    exact (hgrows.phrases hstores).append (hcode.append (hloads.append (.single (.result hdest))))

end

/-! ## Expressions and arguments -/

section

variable {pooled : List Reg} {s s' : State} {c : List Inst}

/-- Computing an expression gives phrases, and a register of the pool. The register is on top of the
free ones before the code, which is why it is a member. -/
theorem phrases_plan_lower {plan : Plan} {line : Line} {r : Reg}
    (ht : ∀ {ws t}, plan = .ready ws t → t.Phrased) (hsound : s.pool.Manages pooled)
    (h : (plan.lower line).Yields s r s' c) : Phrases pooled s'.scopes.Slots c ∧ r ∈ pooled := by
  obtain ⟨ws, t, rfl, hc⟩ := yields_plan_lower.1 h
  obtain ⟨s₁, hm, -, ha, -⟩ := yields_compute.1 hc
  obtain ⟨-, hp, -⟩ := (ht rfl).settled hm
  obtain ⟨rest, hfree, rfl, -⟩ := yields_allocate.1 ha
  have hsound₁ : s₁.pool.Manages pooled := hsound.restored hp
  have hcode : Phrases pooled s₁.scopes.Slots c := (ht rfl).phrases (by exact hsound) hm
  exact ⟨hcode, hsound₁.subset (hfree ▸ List.mem_cons_self)⟩

theorem phrases_stage {e : Expr} {depth index : Nat} {op : Operand}
    (ht : ∀ {ws t}, Plan.ofExpr false e = .ready ws t → t.Phrased) (hsound : s.pool.Manages pooled)
    (h : ((Arg.ofPlan e (Plan.ofExpr false e)).stage depth index).Yields s op s' c) :
    Phrases pooled s'.scopes.Slots c ∧ Source pooled s'.scopes.Slots op := by
  cases e with
  | var =>
    rw [Arg.ofPlan, Arg.stage, yields_varOperand] at h
    obtain ⟨⟨slot, hfind, rfl⟩, rfl, rfl⟩ := h
    exact ⟨.nil, .slot (Scopes.slots_of_find? hfind)⟩
  | integer =>
    rw [Arg.ofPlan, Arg.stage, yields_pure] at h
    obtain ⟨rfl, rfl, rfl⟩ := h
    exact ⟨.nil, .imm _⟩
  | element =>
    rw [Arg.ofPlan, Arg.stage, yields_fail] at h
    exact h.elim
  -- Everything else is computed into a register, which is then stored.
  | _ =>
    obtain ⟨r, s₁, s₂, c₁, hl, htemp, hf, rfl⟩ := Arg.yields_computed.1 h
    obtain ⟨-, -, rfl, -⟩ := yields_free.1 hf
    obtain ⟨hs₂, -⟩ := tempOperand_steady (Temp.argument index (Nat.le_refl depth)) htemp
    obtain ⟨hcode, hr⟩ := phrases_plan_lower ht hsound hl
    have hslot := slots_of_tempOperand htemp
    have hstore : Phrases pooled s₂.scopes.Slots [.movl (.reg r) op] :=
      .single (.store (hsound.isData hr) hslot)
    exact ⟨(hs₂.scopes.phrases hcode).append hstore, .slot hslot⟩

theorem phrased_stageAll {es : List Expr}
    (ht : ∀ e ∈ es, ∀ {ws t}, Plan.ofExpr false e = .ready ws t → t.Phrased) (index : Nat) :
    StagePhrased fun depth => Arg.stageAll depth index (Arg.ofExprs es) where
  settled := stageAll_settled fun e he _ _ h => (ht e he h).settled
  phrases := by
    intro pooled s s' ops c depth hdepth hsound h
    induction es generalizing index s ops c with
    | nil =>
      obtain ⟨rfl, rfl, rfl⟩ := Arg.yields_stageAll_nil.1 h
      exact ⟨.nil, by simp⟩
    | cons e es ih =>
      obtain ⟨op, s₁, l', c₁, c₂, ha, hl, rfl, rfl⟩ := Arg.yields_stageAll_cons.1 h
      have hte := @ht e List.mem_cons_self
      have htes := fun e' he => @ht e' (List.mem_cons_of_mem e he)
      obtain ⟨hs₁, hp₁, -⟩ := stage_steady (fun h => (hte h).settled) hdepth ha
      obtain ⟨hs₂, -, -⟩ := stageAll_settled (fun e' he _ _ h => (htes e' he h).settled) depth
        (hs₁.callDepth.trans hdepth) hl
      obtain ⟨hcode₁, hop⟩ := phrases_stage hte hsound ha
      obtain ⟨hcode₂, hops⟩ := ih htes (index + 1) (hs₁.callDepth.trans hdepth)
        (hsound.restored hp₁) hl
      -- Slots of the first argument are still there after the others are staged: `hs₂`.
      refine ⟨(hs₂.scopes.phrases hcode₁).append hcode₂, ?_⟩
      rintro op' (_ | ⟨_, hop'⟩)
      · exact hop.mono fun _ => hs₂.scopes.slot
      · exact hops op' hop'

end

end Lowering

namespace Expr

variable {pooled : List Reg} {s s' : State} {u : Unit} {c : List Inst}

/-- The tree of every expression gives phrases. By induction on the plan, one lemma for each kind of
node. -/
theorem phrased_of_ready {e : Expr} {operand : Bool} {ws : List Warning} {t : Tree}
    (h : Plan.ofExpr operand e = .ready ws t) : t.Phrased := by
  refine tree_induction (motive := fun _ _ t => t.Phrased)
    ?var ?integer ?real ?call ?sign ?add ?mul e h
  case var | integer | real => intros; exact Tree.phrased_leaf ..
  case call => intro _ _ _ args ih; exact Tree.phrased_call (phrased_stageAll ih 0) ..
  case sign => intro _ line _ _ ih; exact ih.negated line
  case add => intro _ line op _ _ _ _ hl hr; exact hl.joined hr (BinOp.computes_ofAddOp op) line
  case mul => intro _ line op _ _ _ _ hl hr; exact hl.joined hr (BinOp.computes_ofMulOp op) line

theorem phrases_lower {e : Expr} {r : Reg} (hsound : s.pool.Manages pooled)
    (h : e.lower.Yields s r s' c) :
    Phrases pooled s'.scopes.Slots c ∧ r ∈ pooled :=
  phrases_plan_lower phrased_of_ready hsound h

theorem phrased_stageAll (args : List Expr) : StagePhrased (Expr.stageAll args) :=
  Lowering.phrased_stageAll (fun _ _ => phrased_of_ready) 0

/-- The code of a condition consists of phrases. By induction along the recursion of `jumpWhen`: a
comparison ends in one phrase that jumps, a connective in a label. -/
theorem phrases_jumpWhen {e : Expr} {sense : Bool} {goal : String} (hsound : s.pool.Manages pooled)
    (h : (e.jumpWhen sense goal).Yields s u s' c) : Phrases pooled s'.scopes.Slots c := by
  -- Along the recursion of `jumpWhen`; between two sides the pool is as before, by `hp₁`.
  induction sense, goal, e using jumpWhen.induct generalizing s s' u c with
  | case1 sense goal line op left right =>
    obtain ⟨ws, t, c', hplan, ht, -, rfl⟩ := yields_jumpWhen_comparison.1 h
    obtain ⟨_, _, tl, tr, hl, hr, -, rfl⟩ := Plan.joined_eq_ready_iff.1 hplan
    have hcode := (phrased_of_ready hl).binary (phrased_of_ready hr) (by exact hsound) ht
    exact hcode.append (.single (.jcc ..))
  | case2 sense goal line e ih => exact ih hsound h
  | case3 goal line op left right ihl ihr =>
    obtain ⟨s₁, c₁, c₂, hl, hr, rfl⟩ := yields_jumpWhen_either.1 h
    obtain ⟨-, hp₁, -⟩ := jumpWhen_settled hl
    obtain ⟨ha₂, -⟩ := jumpWhen_settled hr
    exact (ha₂.scopes.phrases (ihl hsound hl)).append (ihr (hsound.restored hp₁) hr)
  | case4 sense goal line op left right hsense ihl ihr =>
    obtain ⟨s₁, c₁, c₂, hl, hr, rfl⟩ := (yields_jumpWhen_both hsense).1 h
    obtain ⟨-, hp₁, -⟩ := jumpWhen_settled hl
    obtain ⟨ha₂, -⟩ := jumpWhen_settled hr
    have hleft := ihl _ (by exact hsound) hl
    have hright := ihr (Pool.Manages.restored (by exact hsound) hp₁) hr
    exact (ha₂.scopes.phrases hleft).append (hright.append (.single (.label _)))
  | case5 sense goal e hcomparison hnot hlogical =>
    exact (not_yields_jumpWhen hcomparison hnot hlogical h).elim

end Expr

/-! ## Statements -/

namespace Lowering

variable {pooled : List Reg} {s s' : State} {u : Unit} {c : List Inst}

theorem Gen.phrases_heading (slot : Operand → Prop) (wanted : Bool) (line : Line)
    (summary : String) : Phrases pooled slot (heading wanted line summary) := by
  cases wanted with
  | true => exact .single (.comment _)
  | false => exact .nil

theorem phrases_assignValue {line : Line} {target value : Expr} (hsound : s.pool.Manages pooled)
    (h : (assignValue line target value).Yields s u s' c) : Phrases pooled s'.scopes.Slots c := by
  obtain ⟨x, slot, r, s₁, c₁, -, hfind, hr, hf, rfl⟩ := yields_assignValue.1 h
  obtain ⟨hs, -, -⟩ := Expr.lower_steady hr
  obtain ⟨hcode, hpooled⟩ := Expr.phrases_lower hsound hr
  obtain ⟨-, -, rfl, -⟩ := yields_free.1 hf
  have hslot := hs.scopes.slot (Scopes.slots_of_find? hfind)
  exact hcode.append (.single (.store (hsound.isData hpooled) hslot))

theorem phrases_callLibrary {slot : Operand → Prop} {symbol : String} {load : List Inst}
    (hload : Phrases pooled slot load) (h : (callLibrary symbol load).Yields s u s' c) :
    Phrases pooled slot c := by
  obtain ⟨_, _, -, -, rfl⟩ := yields_callLibrary.1 h
  exact hload.append (.single (.call symbol))

theorem phrases_writeAll : ∀ {es : List Expr} {s s' : State} {c : List Inst}, s.pool.Rests pooled →
    (writeAll es).Yields s u s' c → Phrases pooled s'.scopes.Slots c
  | [], _, _, _, _, h => by
    obtain ⟨-, rfl⟩ := yields_writeAll_nil.1 h
    exact .nil
  | e :: rest, s, s', _, hidle, h => by
    obtain ⟨r, s₁, s₂, c₁, c₂, c₃, hr, hw, hrest, rfl⟩ := yields_writeAll_cons.1 h
    have hwritten := writeReg_made hr hw
    have hlater := (writeAll_made hrest).advanced.scopes
    obtain ⟨hcode, hpooled⟩ := Expr.phrases_lower hidle.sound hr
    obtain ⟨_, c', -, hl, rfl⟩ := yields_writeReg.1 hw
    have hscopes := writeReg_scopes hw
    -- What stands before the call is the value in `%rsi` and the address of the format string.
    have hformat : Phrases pooled s₂.scopes.Slots [.leaq (.rip Runtime.writeFormat) .rdi] :=
      .single (.format (.inl rfl))
    have hcall := phrases_callLibrary hformat hl
    have hmove : Phrases pooled s₂.scopes.Slots [.movl (.reg r) (.reg .rsi)] :=
      .single (.load (.reg hpooled) rfl)
    rw [← hscopes] at hcode
    have hfirst := hcode.append (hmove.append hcall)
    have hothers := phrases_writeAll (hidle.even hwritten.pool) hrest
    rw [← List.append_assoc]
    exact (hlater.phrases hfirst).append hothers

theorem phrases_readAll {line : Line} : ∀ {es : List Expr} {s s' : State} {c : List Inst},
    (readAll line es).Yields s u s' c → Phrases pooled s'.scopes.Slots c
  | [], _, _, _, h => by
    obtain ⟨-, rfl⟩ := yields_readAll_nil.1 h
    exact .nil
  | e :: rest, s, s', _, h => by
    obtain ⟨x, slot, s₁, c₁, c₂, -, hfind, hr, hrest, rfl⟩ := yields_readAll_cons.1 h
    have hfirst := (callLibrary_made (by simp [Inst.isStraight]) hr).advanced.scopes
    have hlater := (readAll_made hrest).advanced.scopes
    -- The slot of the variable is there before the call is, `hfind`, and stays.
    have hslot := hlater.slot (hfirst.slot (Scopes.slots_of_find? hfind))
    have hload : Phrases pooled s'.scopes.Slots
        [.leaq slot.operand .rsi, .leaq (.rip Runtime.readFormat) .rdi] :=
      .cons (.address hslot) (.single (.format (.inr rfl)))
    have hcall := phrases_callLibrary hload hr
    exact hcall.append (phrases_readAll hrest)

theorem phrases_callProcedure {line : Line} {callee : String} {args : List Expr}
    (hidle : s.pool.Rests pooled) (h : (callProcedure line callee args).Yields s u s' c) :
    Phrases pooled s'.scopes.Slots c := by
  rw [callProcedure] at h
  split at h
  · exact phrases_writeAll hidle h
  · exact phrases_readAll h
  · exact phrases_callRoutine (Expr.phrased_stageAll args) hidle.sound h

theorem phrases_loop {condition : Expr} {body : Gen Unit}
    (hmade : ∀ {s s' : State} {c : List Inst}, body.Yields s () s' c → Made (s.Drawn s') s s' c)
    (hbody : ∀ {s s' : State} {c : List Inst}, s.pool.Rests pooled → body.Yields s () s' c →
      Phrases pooled s'.scopes.Slots c) (hidle : s.pool.Rests pooled)
    (h : (loop condition body).Yields s u s' c) : Phrases pooled s'.scopes.Slots c := by
  obtain ⟨s₁, c₁, c₂, hb, hc, rfl⟩ := yields_loop.1 h
  have hidle₁ : s₁.pool.Rests pooled := hidle.even (hmade hb).pool
  obtain ⟨ha₂, -⟩ := Expr.jumpWhen_settled hc
  -- The test is lowered after the body, from a pool that rests again: `hidle₁`.
  have htest := Expr.phrases_jumpWhen hidle₁.sound hc
  have hpass := ha₂.scopes.phrases (hbody (by exact hidle) hb)
  exact .cons (.jmp _) (.cons (.label _) (hpass.append (.cons (.label _) htest)))

end Lowering

namespace Stmt

variable {comments : Bool}

mutual

/-- The code of a statement consists of phrases. By recursion over the statement. Every part of it
finds the pool at rest, since the parts before it have given back what they took. -/
theorem phrases_of_lower : ∀ {t : Stmt} {s s' : State} {u : Unit} {c : List Inst}, s.pool.Rests pooled →
    (t.lower comments).Yields s u s' c → Phrases pooled s'.scopes.Slots c
  | .assign .., _, _, _, _, hidle, h => by
    obtain ⟨c', h', rfl⟩ := yields_assign.1 h
    exact (phrases_heading ..).append (phrases_assignValue hidle.sound h')
  | .call .., _, _, _, _, hidle, h => by
    obtain ⟨c', h', rfl⟩ := yields_call.1 h
    exact (phrases_heading ..).append (phrases_callProcedure hidle h')
  | .compound .., _, _, _, _, hidle, h => phrases_of_lowerAll hidle (yields_compound.1 h)
  | .ifThen .., s, _, _, _, hidle, h => by
    obtain ⟨s₁, c₁, c₂, hc, ht, rfl⟩ := yields_ifThen.1 h
    obtain ⟨-, hp₁, -⟩ := Expr.jumpWhen_settled hc
    have hcode₁ := Expr.phrases_jumpWhen (by exact hidle.sound) hc
    have hcode₂ := phrases_of_lower (Pool.Rests.even (by exact hidle) hp₁.even) ht
    -- slots are only added, so the phrases of the test are still phrases
    have hgrows := (lower_made ht).advanced.scopes
    exact (phrases_heading ..).append
      ((hgrows.phrases hcode₁).append (hcode₂.append (.single (.label _))))
  | .ifElse .., s, _, _, _, hidle, h => by
    obtain ⟨s₁, s₂, c₁, c₂, c₃, hc, ht, he, rfl⟩ := yields_ifElse.1 h
    obtain ⟨-, hp₁, -⟩ := Expr.jumpWhen_settled hc
    have hidle₁ : s₁.pool.Rests pooled := Pool.Rests.even (by exact hidle) hp₁.even
    have hcode₁ := Expr.phrases_jumpWhen (by exact hidle.sound) hc
    have hcode₂ := phrases_of_lower hidle₁ ht
    have hcode₃ := phrases_of_lower (by exact hidle₁.even (lower_made ht).pool) he
    have hgrows₂ := (lower_made ht).advanced.scopes
    have hgrows₃ := (lower_made he).advanced.scopes
    have hthen := hgrows₃.phrases ((hgrows₂.phrases hcode₁).append hcode₂)
    rw [← List.append_assoc c₁]
    exact (phrases_heading ..).append (hthen.append
      (.cons (.jmp _) (.cons (.label _) (hcode₃.append (.single (.label _))))))
  | .whileDo .., _, _, _, _, hidle, h => by
    obtain ⟨c', h', rfl⟩ := yields_whileDo.1 h
    exact (phrases_heading ..).append (phrases_loop lower_made phrases_of_lower hidle h')
  | .forTo line init limit body, _, _, _, _, hidle, h => by
    obtain ⟨s₁, c₁, c₂, summary, -, hi, hl, -, rfl⟩ := yields_forTo.1 h
    -- a variable that keeps its value needs no code
    have hstart : Phrases pooled s₁.scopes.Slots c₁ := by
      cases init with
      | assign => exact phrases_assignValue hidle.sound hi
      | keep =>
        obtain ⟨-, rfl⟩ := yields_keep.1 hi
        exact .nil
    have hgrows := (loop_made (pass_made lower_made) hl).advanced.scopes
    have hloop := phrases_loop (pass_made lower_made) ?_ (hidle.even (initial_made hi).pool) hl
    · exact (phrases_heading ..).append ((hgrows.phrases hstart).append hloop)
    · intro s s' c hidle hbody
      obtain ⟨s₂, c₃, c₄, hb, hstep, rfl⟩ := yields_pass.1 hbody
      have hpass := (assignValue_made hstep).advanced.scopes.phrases (phrases_of_lower hidle hb)
      have hcount := phrases_assignValue (hidle.even (lower_made hb).pool).sound hstep
      exact hpass.append ((phrases_heading ..).append hcount)

/-- The code of statements one after another consists of phrases. Slots of the first statement are
still slots when the others are made, by `Grows.phrases`. -/
theorem phrases_of_lowerAll : ∀ {ts : List Stmt} {s s' : State} {u : Unit} {c : List Inst},
    s.pool.Rests pooled → (Stmt.lowerAll comments ts).Yields s u s' c → Phrases pooled s'.scopes.Slots c
  | [], _, _, _, _, _, h => by
    obtain ⟨-, rfl⟩ := yields_lowerAll_nil.1 h
    exact .nil
  | t :: rest, _, _, _, _, hidle, h => by
    obtain ⟨s₁, c₁, c₂, ht, hrest, rfl⟩ := yields_lowerAll_cons.1 h
    have hgrows := (lowerAll_made hrest).advanced.scopes
    have hothers := phrases_of_lowerAll (hidle.even (lower_made ht).pool) hrest
    exact (hgrows.phrases (phrases_of_lower hidle ht)).append hothers

end

end Stmt

end PascalAsm
