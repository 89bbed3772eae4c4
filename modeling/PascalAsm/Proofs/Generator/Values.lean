import PascalAsm.Lowering.Value
import PascalAsm.Proofs.Generator.Unreached

/-!
# Successful generation of values

What the success of each step of `Tree.lower` comes to: the successes of the steps that it is made
of, and the pieces that its code is put together from. Each lemma is an equivalence, so it serves
both to take a success apart and to establish one.
-/

namespace PascalAsm.Lowering

open Assembly Gen

/-! ## Leaves and divisions -/

/-- The operand of a leaf, if its variable has a slot. It depends on the scopes only, so it is the
same as long as no slot is lost. -/
def Leaf.operand? (S : Scopes) : Leaf → Option Operand
  | .var name => (S.find? name).map Slot.operand
  | .int value => some (.imm value)

namespace Gen

variable {s s' : State} {u : Unit} {c : List Inst}

theorem yields_requireRegs {label : Nat} {line : Line} :
    (requireRegs label line).Yields s u s' c ↔ label ≤ s.pool.capacity ∧ s' = s ∧ c = [] := by
  rw [requireRegs, yields_get_bind, ← Nat.not_lt]
  by_cases h : s.pool.capacity < label <;> simp [h]

theorem yields_requireRegs_bind {β : Type} {label : Nat} {line : Line} {k : Unit → Gen β} {b : β} :
    (requireRegs label line >>= k).Yields s b s' c ↔
      label ≤ s.pool.capacity ∧ (k ()).Yields s b s' c := by
  rw [requireRegs, bind_assoc, yields_get_bind, ← Nat.not_lt]
  by_cases h : s.pool.capacity < label <;> simp [h, yields_bind]

theorem yields_leafOperand {line : Line} {leaf : Leaf} {op : Operand} :
    (leafOperand line leaf).Yields s op s' c ↔
      leaf.operand? s.scopes = some op ∧ s' = s ∧ c = [] := by
  cases leaf with
  | var name => simp [leafOperand, yields_varOperand, Leaf.operand?, eq_comm (a := op)]
  | int v => simp [leafOperand, Leaf.operand?, eq_comm (a := op)]

theorem yields_leafOperand_bind {β : Type} {line : Line} {leaf : Leaf} {k : Operand → Gen β}
    {b : β} :
    (leafOperand line leaf >>= k).Yields s b s' c ↔
      ∃ op, leaf.operand? s.scopes = some op ∧ (k op).Yields s b s' c := by
  simp only [yields_bind, yields_leafOperand]
  constructor
  · rintro ⟨op, _, _, _, ⟨ho, rfl, rfl⟩, h, rfl⟩
    exact ⟨op, ho, h⟩
  · rintro ⟨op, ho, h⟩
    exact ⟨op, s, [], c, ⟨ho, rfl, rfl⟩, h, rfl⟩

/-- The instructions of a division by a register or a slot. The dividend goes to `%eax` and has its
sign extended; the quotient or the remainder comes back from `result`. -/
def divideCode (result : Reg) (divisor : Operand) (dest : Reg) : List Inst :=
  [.movl (.reg dest) (.reg Convention.resultReg),
   .cdq,
   .idivl divisor,
   .movl (.reg result) (.reg dest)]

theorem yields_divide {result dest : Reg} {divisor : Operand} :
    (divide result divisor dest).Yields s u s' c ↔
      divisor.isImm = false ∧ s' = s ∧ c = divideCode result divisor dest ∨
      divisor.isImm = true ∧ ∃ slot, (tempOperand divisorTemp).Yields s slot s' [] ∧
        c = .movl divisor slot :: divideCode result slot dest := by
  -- `idivl` takes no immediate: only a constant is stored first, into a temporary.
  cases hd : divisor.isImm with
  | false => simp [divide, hd, divideCode]
  | true =>
    simp only [divide, hd, if_true, reduceCtorEq, false_and, true_and, false_or]
    simp only [pure_bind, yields_bind, yields_emit]
    constructor
    · rintro ⟨slot, s₁, c₁, _, ht, ⟨_, _, _, _, ⟨rfl, rfl⟩, ⟨rfl, rfl⟩, rfl⟩, rfl⟩
      obtain ⟨-, -, rfl, -⟩ := yields_tempOperand.1 ht
      exact ⟨slot, ht, rfl⟩
    · rintro ⟨slot, ht, rfl⟩
      exact ⟨slot, s', [], _, ht, ⟨(), s', _, _, ⟨rfl, rfl⟩, ⟨rfl, rfl⟩, rfl⟩, rfl⟩

end Gen

/-! ## Operations -/

namespace Tree

variable {s s' : State} {u : Unit} {c : List Inst}

theorem yields_leaf {label : Nat} {line : Line} {leaf : Leaf} :
    (Tree.leaf label line leaf).lower.Yields s u s' c ↔
      label ≤ s.pool.capacity ∧ s' = s ∧ ∃ dest rest src, s.pool.free = dest :: rest ∧
        leaf.operand? s.scopes = some src ∧ c = [.movl src (.reg dest)] := by
  rw [Tree.lower, yields_requireRegs_bind, yields_target_bind]
  simp only [yields_leafOperand_bind, yields_emit]
  constructor
  · rintro ⟨hl, dest, rest, hf, src, ho, rfl, rfl⟩
    exact ⟨hl, rfl, dest, rest, src, hf, ho, rfl⟩
  · rintro ⟨hl, rfl, dest, rest, src, hf, ho, rfl⟩
    exact ⟨hl, dest, rest, hf, src, ho, rfl, rfl⟩

theorem yields_negate {label : Nat} {line : Line} {child : Tree} :
    (Tree.negate label line child).lower.Yields s u s' c ↔
      label ≤ s.pool.capacity ∧ ∃ c₁ dest rest, child.lower.Yields s () s' c₁ ∧
        s'.pool.free = dest :: rest ∧ c = c₁ ++ [.negl (.reg dest)] := by
  rw [Tree.lower, yields_requireRegs_bind, yields_bind]
  simp only [yields_target_bind, yields_emit]
  constructor
  · rintro ⟨hl, _, s₁, c₁, _, hc, ⟨dest, rest, hf, rfl, rfl⟩, rfl⟩
    exact ⟨hl, c₁, dest, rest, hc, hf, rfl⟩
  · rintro ⟨hl, c₁, dest, rest, hc, hf, rfl⟩
    exact ⟨hl, (), s', c₁, _, hc, ⟨dest, rest, hf, rfl, rfl⟩, rfl⟩

/-- The right side is an operand: the left side is computed, then combined with it. No register is
set aside for it, although the label counts one for every operand. -/
theorem yields_binary_operand {label : Nat} {line leafLine : Line} {op : BinOp}
    {left right : Tree} {leaf : Leaf} (hr : right.leaf? = some (leafLine, leaf)) :
    (Tree.binary label line op left right).lower.Yields s u s' c ↔
      label ≤ s.pool.capacity ∧ ∃ s₁ c₁ c₂ src dest rest, left.lower.Yields s () s₁ c₁ ∧
        leaf.operand? s₁.scopes = some src ∧ s₁.pool.free = dest :: rest ∧
        (combine op src dest).Yields s₁ () s' c₂ ∧ c = c₁ ++ c₂ := by
  rw [Tree.lower_binary, yields_requireRegs_bind]
  simp only [hr]
  rw [yields_bind]
  simp only [yields_target_bind, yields_leafOperand_bind]
  constructor
  · rintro ⟨hl, _, s₁, c₁, c₂, h₁, ⟨src, ho, dest, rest, hf, h₂⟩, rfl⟩
    exact ⟨hl, s₁, c₁, c₂, src, dest, rest, h₁, ho, hf, h₂, rfl⟩
  · rintro ⟨hl, s₁, c₁, c₂, src, dest, rest, h₁, ho, hf, h₂, rfl⟩
    exact ⟨hl, (), s₁, c₁, c₂, h₁, ⟨src, ho, dest, rest, hf, h₂⟩, rfl⟩

/-- The right side is harder: it is computed first, into the second register. The two registers on
top are exchanged before and afterwards, which is why the result is where it belongs in the end. -/
theorem yields_binary_swapped {label : Nat} {line : Line} {op : BinOp} {left right : Tree}
    (hr : right.leaf? = none) (hlt : left.label < right.label) :
    (Tree.binary label line op left right).lower.Yields s u s' c ↔
      label ≤ s.pool.capacity ∧ ∃ s₀ s₁ s₂ s₃ s₄ s₅ c₁ c₂ c₃ held dest rest,
        swapTop.Yields s () s₀ [] ∧ right.lower.Yields s₀ () s₁ c₁ ∧
        allocate.Yields s₁ held s₂ [] ∧ left.lower.Yields s₂ () s₃ c₂ ∧
        s₃.pool.free = dest :: rest ∧ (combine op (.reg held) dest).Yields s₃ () s₄ c₃ ∧
        (free held).Yields s₄ () s₅ [] ∧ swapTop.Yields s₅ () s' [] ∧ c = c₁ ++ (c₂ ++ c₃) := by
  rw [Tree.lower_binary, yields_requireRegs_bind]
  simp only [hr, hlt, if_true]
  -- the swaps and the register that is held emit nothing, so the code is that of three steps
  refine and_congr_right fun _ => ⟨fun h => ?_, fun h => ?_⟩
  · obtain ⟨_, s₀, _, _, h₀, k₁, rfl⟩ := yields_bind.1 h
    obtain ⟨_, s₁, c₁, _, h₁, k₂, rfl⟩ := yields_bind.1 k₁
    obtain ⟨held, s₂, _, _, h₂, k₃, rfl⟩ := yields_bind.1 k₂
    obtain ⟨_, s₃, c₂, _, h₃, k₄, rfl⟩ := yields_bind.1 k₃
    obtain ⟨dest, rest, hf, k₅⟩ := yields_target_bind.1 k₄
    obtain ⟨_, s₄, c₃, _, h₄, k₆, rfl⟩ := yields_bind.1 k₅
    obtain ⟨_, s₅, _, _, h₅, h₆, rfl⟩ := yields_bind.1 k₆
    obtain ⟨-, -, -, -, -, rfl⟩ := yields_swapTop.1 h₀
    obtain ⟨-, -, -, rfl⟩ := yields_allocate.1 h₂
    obtain ⟨-, -, -, rfl⟩ := yields_free.1 h₅
    obtain ⟨-, -, -, -, -, rfl⟩ := yields_swapTop.1 h₆
    exact ⟨s₀, s₁, s₂, s₃, s₄, s₅, c₁, c₂, c₃, held, dest, rest, h₀, h₁, h₂, h₃, hf, h₄, h₅, h₆,
      by simp⟩
  · obtain ⟨s₀, s₁, s₂, s₃, s₄, s₅, c₁, c₂, c₃, held, dest, rest, h₀, h₁, h₂, h₃, hf, h₄, h₅, h₆,
      rfl⟩ := h
    refine yields_bind.2 ⟨(), s₀, [], _, h₀, ?_, rfl⟩
    refine yields_bind.2 ⟨(), s₁, c₁, _, h₁, ?_, rfl⟩
    refine yields_bind.2 ⟨held, s₂, [], _, h₂, ?_, rfl⟩
    refine yields_bind.2 ⟨(), s₃, c₂, _, h₃, ?_, rfl⟩
    refine yields_target_bind.2 ⟨dest, rest, hf, ?_⟩
    refine yields_bind.2 ⟨(), s₄, c₃, [], h₄, ?_, by simp⟩
    exact yields_bind.2 ⟨(), s₅, [], [], h₅, h₆, rfl⟩

/-- The left side is computed first, and its register is set aside. The registers that are left have
to be enough for the right side: it does not need more than the left one. -/
theorem yields_binary_ordered {label : Nat} {line : Line} {op : BinOp} {left right : Tree}
    (hr : right.leaf? = none) (hge : ¬ left.label < right.label) :
    (Tree.binary label line op left right).lower.Yields s u s' c ↔
      label ≤ s.pool.capacity ∧ ∃ s₁ s₂ s₃ s₄ c₁ c₂ c₃ held src rest,
        left.lower.Yields s () s₁ c₁ ∧ allocate.Yields s₁ held s₂ [] ∧
        right.lower.Yields s₂ () s₃ c₂ ∧ s₃.pool.free = src :: rest ∧
        (combine op (.reg src) held).Yields s₃ () s₄ c₃ ∧ (free held).Yields s₄ () s' [] ∧
        c = c₁ ++ (c₂ ++ c₃) := by
  rw [Tree.lower_binary, yields_requireRegs_bind]
  simp only [hr, hge, if_false]
  -- The five binds are taken apart and put together in the same order by `yields_bind`.
  refine and_congr_right fun _ => ⟨fun h => ?_, fun h => ?_⟩
  · obtain ⟨_, s₁, c₁, _, h₁, k₁, rfl⟩ := yields_bind.1 h
    obtain ⟨held, s₂, _, _, h₂, k₂, rfl⟩ := yields_bind.1 k₁
    obtain ⟨_, s₃, c₂, _, h₃, k₃, rfl⟩ := yields_bind.1 k₂
    obtain ⟨src, rest, hf, k₄⟩ := yields_target_bind.1 k₃
    obtain ⟨_, s₄, c₃, _, h₄, h₅, rfl⟩ := yields_bind.1 k₄
    obtain ⟨-, -, -, rfl⟩ := yields_allocate.1 h₂
    obtain ⟨-, -, -, rfl⟩ := yields_free.1 h₅
    exact ⟨s₁, s₂, s₃, s₄, c₁, c₂, c₃, held, src, rest, h₁, h₂, h₃, hf, h₄, h₅, by simp⟩
  · obtain ⟨s₁, s₂, s₃, s₄, c₁, c₂, c₃, held, src, rest, h₁, h₂, h₃, hf, h₄, h₅, rfl⟩ := h
    refine yields_bind.2 ⟨(), s₁, c₁, _, h₁, ?_, rfl⟩
    refine yields_bind.2 ⟨held, s₂, [], _, h₂, ?_, rfl⟩
    refine yields_bind.2 ⟨(), s₃, c₂, _, h₃, ?_, rfl⟩
    refine yields_target_bind.2 ⟨src, rest, hf, ?_⟩
    exact yields_bind.2 ⟨(), s₄, c₃, [], h₄, h₅, by simp⟩

end Tree

/-! ## Expressions in registers -/

namespace Gen

variable {s s' : State} {u : Unit} {c : List Inst}

theorem yields_warnAll_bind {β : Type} {ws : List Warning} {k : Unit → Gen β} {b : β} :
    (warnAll ws >>= k).Yields s b s' c ↔
      (k ()).Yields { s with warnings := s.warnings ++ ws } b s' c :=
  yields_modify_bind

theorem yields_askPool_bind {α β : Type} {f : Pool → Except PoolError α} {k : α → Gen β} {b : β} :
    (askPool f >>= k).Yields s b s' c ↔ ∃ a, f s.pool = .ok a ∧ (k a).Yields s b s' c := by
  simp only [yields_bind, yields_askPool]
  constructor
  · rintro ⟨a, _, _, _, ⟨hf, rfl, rfl⟩, h, rfl⟩
    exact ⟨a, hf, h⟩
  · rintro ⟨a, hf, h⟩
    exact ⟨a, s, [], c, ⟨hf, rfl, rfl⟩, h, rfl⟩

theorem yields_balanced {m : Gen Unit} {since : Checkpoint} :
    (balanced m).Yields s since s' c ↔ since = s.pool.checkpoint ∧ m.Yields s () s' c ∧
      s'.pool.balance s.pool.checkpoint 0 = .ok () := by
  rw [balanced, yields_get_bind, yields_bind]
  simp only [yields_askPool_bind, yields_pure]
  constructor
  · rintro ⟨_, _, _, _, hm, ⟨_, hb, rfl, rfl, rfl⟩, rfl⟩
    exact ⟨rfl, by simpa using hm, hb⟩
  · rintro ⟨rfl, hm, hb⟩
    exact ⟨(), s', c, [], hm, ⟨(), hb, rfl, rfl, rfl⟩, by simp⟩

/-- A value is computed into the register that is on top afterwards, and the register is taken. -/
theorem yields_compute {line : Line} {m : Gen Unit} {r : Reg} :
    (compute line m).Yields s r s' c ↔ ∃ s₁, m.Yields s () s₁ c ∧
      s₁.pool.balance s.pool.checkpoint 0 = .ok () ∧ allocate.Yields s₁ r s' [] ∧
      s'.pool.balance s.pool.checkpoint 1 = .ok () := by
  rw [compute, yields_buffered, yields_onLine, yields_bind]
  simp only [yields_balanced]
  -- The inner check is that of `yields_balanced`, and the outer one, `hb'`, counts the register.
  constructor
  · rintro ⟨_, s₁, c₁, _, ⟨rfl, hm, hb⟩, h, rfl⟩
    obtain ⟨q, s₂, _, _, ha, h', rfl⟩ := yields_bind.1 h
    obtain ⟨_, hb', hp⟩ := yields_askPool_bind.1 h'
    obtain ⟨rfl, rfl, rfl⟩ := yields_pure.1 hp
    obtain ⟨-, -, -, rfl⟩ := yields_allocate.1 ha
    exact ⟨s₁, by simpa using hm, hb, ha, hb'⟩
  · rintro ⟨s₁, hm, hb, ha, hb'⟩
    refine ⟨_, s₁, c, [], ⟨rfl, hm, hb⟩, yields_bind.2 ⟨r, s', [], [], ha, ?_, rfl⟩, by simp⟩
    exact yields_askPool_bind.2 ⟨(), hb', by simp⟩

theorem yields_setFlags {line : Line} {m : Gen Unit} :
    (setFlags line m).Yields s u s' c ↔ m.Yields s () s' c ∧
      s'.pool.balance s.pool.checkpoint 0 = .ok () := by
  rw [setFlags, yields_buffered, yields_onLine, yields_bind]
  constructor
  · rintro ⟨_, _, _, _, h, hp, rfl⟩
    obtain ⟨rfl, hm, hb⟩ := yields_balanced.1 h
    obtain ⟨-, rfl, rfl⟩ := yields_pure.1 hp
    exact ⟨by simpa using hm, hb⟩
  · rintro ⟨hm, hb⟩
    exact ⟨_, s', c, [], yields_balanced.2 ⟨rfl, hm, hb⟩, by simp, by simp⟩

end Gen

theorem yields_lower_ready {s s' : State} {r : Reg} {c : List Inst} {line : Line}
    {ws : List Warning} {t : Tree} :
    ((Plan.ready ws t).lower line).Yields s r s' c ↔
      (compute line t.lower).Yields { s with warnings := s.warnings ++ ws } r s' c := by
  rw [Plan.lower, yields_warnAll_bind]

theorem yields_lower_rejected {s s' : State} {r : Reg} {c : List Inst} {line place : Line}
    {ws : List Warning} {construct : Construct} :
    ((Plan.rejected ws construct place).lower line).Yields s r s' c ↔ False := by
  rw [Plan.lower, yields_warnAll_bind, yields_fail]

/-- Carrying out a plan succeeds only if it was not given up. The warnings of the plan are given
first, whether or not the tree can be lowered after that. -/
theorem yields_plan_lower {s s' : State} {r : Reg} {c : List Inst} {line : Line} {plan : Plan} :
    (plan.lower line).Yields s r s' c ↔ ∃ ws t, plan = .ready ws t ∧
      (compute line t.lower).Yields { s with warnings := s.warnings ++ ws } r s' c := by
  cases plan with
  | ready ws t =>
    rw [yields_lower_ready]
    constructor
    · exact fun h => ⟨ws, t, rfl, h⟩
    · rintro ⟨_, _, ⟨rfl, rfl⟩, h⟩
      exact h
  | rejected => simp [yields_lower_rejected]

/-! ## Arguments and calls -/

namespace Gen

variable {s s' : State} {u : Unit} {c : List Inst}

/-- The instructions that load operands into the registers of arguments. `zipWith` stops with the
shorter list, and there are never more operands than registers. -/
def loadArgs (operands : List Operand) : List Inst :=
  operands.zipWith (fun src r => .movl src (.reg r)) (Convention.argumentRegs.take operands.length)

/-- Registers of the pool are taken out of the stack of free ones. Registers that are none of the
pool are passed over, because nothing is ever held in them. -/
theorem claim_spec : ∀ {regs : List Reg} {s s' : State} {l : List Reg} {c : List Inst},
    (claim regs).Yields s l s' c → c = [] ∧ l = regs.filter (· ∈ s.pool.members) ∧
      ∃ free, (l ++ free).Perm s.pool.free ∧ s' = s.withPool (s.pool.moved free l.length 0)
  | [], s, s', l, c, h => by
    obtain ⟨rfl, rfl, rfl⟩ := yields_pure.1 (by simpa only [claim] using h)
    exact ⟨rfl, rfl, s'.pool.free, .refl _, rfl⟩
  -- a register that is not in the pool is passed over
  | r :: rest, s, s', l, c, h => by
    rw [claim, yields_get_bind] at h
    split at h
    · rename_i hm
      obtain ⟨_, s₁, _, _, ht, h', rfl⟩ := yields_bind.1 h
      obtain ⟨l', s₂, _, _, hc, hp, rfl⟩ := yields_bind.1 h'
      obtain ⟨rfl, rfl, rfl⟩ := yields_pure.1 hp
      obtain ⟨q, hq, rfl, rfl⟩ := yields_changePool.1 ht
      obtain ⟨-, hf, rfl⟩ := take_eq_ok_iff.1 hq
      obtain ⟨rfl, rfl, free, hperm, rfl⟩ := claim_spec hc
      refine ⟨rfl, ?_, free, ?_, by simp [Nat.add_comm]⟩
      · rw [List.filter_cons_of_pos (by simpa using hm)]
        rfl
      · exact (List.Perm.cons r hperm).trans (List.perm_cons_erase hf).symm
    · rename_i hm
      obtain ⟨rfl, rfl, free, hperm, rfl⟩ := claim_spec h
      exact ⟨rfl, by simp [hm], free, hperm, rfl⟩

/-- The registers that were claimed are missing from the stack of free ones; the others are in order. -/
theorem free_of_claim : ∀ {regs : List Reg} {s s' : State} {l : List Reg} {c : List Inst},
    s.pool.free.Nodup → (claim regs).Yields s l s' c →
    s'.pool.free = s.pool.free.filter (· ∉ l)
  | [], _, _, _, _, _, h => by
    obtain ⟨rfl, rfl, rfl⟩ := yields_pure.1 (by simpa only [claim] using h)
    exact (List.filter_eq_self.2 fun _ _ => decide_eq_true List.not_mem_nil).symm
  | r :: rest, s, _, _, _, hn, h => by
    rw [claim, yields_get_bind] at h
    split at h
    · obtain ⟨_, s₁, _, _, ht, h', rfl⟩ := yields_bind.1 h
      obtain ⟨l', s₂, _, _, hc, hp, rfl⟩ := yields_bind.1 h'
      obtain ⟨rfl, rfl, rfl⟩ := yields_pure.1 hp
      obtain ⟨q, hq, rfl, rfl⟩ := yields_changePool.1 ht
      obtain ⟨-, -, rfl⟩ := take_eq_ok_iff.1 hq
      have hrest := free_of_claim (hn.erase r) hc
      simp only [State.pool_withPool, Pool.free_moved] at hrest
      -- a stack without repetitions is the same whether `r` is erased or filtered out
      rw [hrest, hn.erase_eq_filter, List.filter_filter]
      refine List.filter_congr fun q _ => ?_
      by_cases hq : q = r <;> simp [hq]
    · exact free_of_claim hn h

theorem freeAll_spec : ∀ {regs : List Reg} {s s' : State} {u : Unit} {c : List Inst},
    (release.freeAll regs).Yields s u s' c → c = [] ∧
      s' = s.withPool (s.pool.moved (regs.reverse ++ s.pool.free) 0 regs.length)
  | [], s, s', u, c, h => by
    obtain ⟨-, rfl, rfl⟩ := yields_pure.1 (by simpa only [release.freeAll] using h)
    exact ⟨rfl, rfl⟩
  -- The registers come to lie in reverse order: `freeAll_spec` of the rest starts from one more.
  | r :: rest, s, s', u, c, h => by
    rw [release.freeAll] at h
    obtain ⟨_, s₁, _, _, hr, h', rfl⟩ := yields_bind.1 h
    obtain ⟨-, -, rfl, rfl⟩ := yields_free.1 hr
    obtain ⟨rfl, rfl⟩ := freeAll_spec h'
    exact ⟨rfl, by simp [Nat.add_comm]⟩

/-- Registers are put back in front of the free ones. Their order is the one in which they were
claimed, so that a claim and a release change at most the order of the free ones. -/
theorem release_spec {regs : List Reg} (h : (release regs).Yields s u s' c) :
    c = [] ∧ s' = s.withPool (s.pool.moved (regs ++ s.pool.free) 0 regs.length) := by
  simpa using freeAll_spec h

/-- The arguments are staged one level deeper; then the registers are loaded and the call made. -/
theorem yields_callRoutine {callee : String} {count : Nat} {line : Line}
    {stage : Nat → Gen (List Operand)} :
    (callRoutine callee count line stage).Yields s u s' c ↔
      count ≤ Convention.maxArguments ∧ ∃ operands s₁ s₂ c₁ claimed,
        (stage s.callDepth).Yields { s with callDepth := s.callDepth + 1 } operands s₁ c₁ ∧
        (claim (Convention.argumentRegs.take operands.length)).Yields
          { s₁ with callDepth := s₁.callDepth - 1 } claimed s₂ [] ∧
        (release claimed).Yields s₂ () s' [] ∧
        c = c₁ ++ (loadArgs operands ++ [clear Convention.vectorCountReg, .call callee]) := by
  rw [callRoutine, ← Nat.not_lt]
  -- nothing is staged if there are too many arguments
  by_cases hn : Convention.maxArguments < count
  · simp [hn, yields_bind]
  simp only [hn, if_false, not_false_eq_true, true_and, enterCall, leaveCall]
  rw [yields_get_bind, yields_modify_bind, yields_attempt_ofExcept]
  constructor
  · rintro ⟨operands, s₁, c₁, _, hs, h, rfl⟩
    obtain ⟨claimed, s₂, _, _, hc, h', rfl⟩ := yields_bind.1 h
    obtain ⟨_, h'', rfl⟩ := yields_emit_bind.1 h'
    obtain ⟨_, hr, rfl⟩ := yields_emit_bind.1 h''
    obtain rfl := (claim_spec hc).1
    obtain rfl := (release_spec hr).1
    exact ⟨operands, s₁, s₂, c₁, claimed, hs, hc, hr, by simp [loadArgs]⟩
  · rintro ⟨operands, s₁, s₂, c₁, claimed, hs, hc, hr, rfl⟩
    refine ⟨operands, s₁, c₁, _, hs, yields_bind.2 ⟨claimed, s₂, [], _, hc, ?_, rfl⟩, rfl⟩
    exact yields_emit_bind.2 ⟨_, yields_emit_bind.2 ⟨[], hr, rfl⟩, by simp [loadArgs]⟩

/-- Registers in use are saved, the whole pool is made free for the call and put back after it. -/
theorem yields_callValue {callee : String} {count : Nat} {line : Line} {dest : Reg}
    {stage : Nat → Gen (List Operand)} :
    (callValue callee count line dest stage).Yields s u s' c ↔
      Builtin.ofName? callee = none ∧ ∃ saved s₁ s₂ c₁ c₂,
        (saveAll s.callDepth s.pool.held).Yields s saved s₁ c₁ ∧
        (callRoutine callee count line stage).Yields (s₁.withPool s₁.pool.reset) () s₂ c₂ ∧
        s' = s₂.withPool (s₂.pool.restore s₁.pool.free) ∧
        c = c₁ ++ (c₂ ++ (saved.map (fun (r, slot) => Inst.movl slot (.reg r)) ++
          [.movl (.reg Convention.resultReg) (.reg dest)])) := by
  rw [callValue]
  -- a built-in procedure has no value
  rcases hb : Builtin.ofName? callee with _ | b
  · simp only [Option.isSome_none, Bool.false_eq_true, if_false, true_and]
    rw [yields_get_bind, yields_bind]
    simp only [yields_get_bind, yields_modify_bind, yields_attempt_ofExcept, yields_emit_bind,
      yields_emit]
    constructor
    · rintro ⟨saved, s₁, c₁, _, hs, ⟨_, s₂, c₂, _, hc, ⟨_, ⟨rfl, rfl⟩, rfl⟩, rfl⟩, rfl⟩
      exact ⟨saved, s₁, s₂, c₁, c₂, hs, hc, rfl, rfl⟩
    · rintro ⟨saved, s₁, s₂, c₁, c₂, hs, hc, rfl, rfl⟩
      exact ⟨saved, s₁, c₁, _, hs, ⟨(), s₂, c₂, _, hc, ⟨_, ⟨rfl, rfl⟩, rfl⟩, rfl⟩, rfl⟩
  · simp [yields_bind]

theorem yields_saveAll_nil {depth : Nat} {l : List (Reg × Operand)} :
    (saveAll depth []).Yields s l s' c ↔ l = [] ∧ s' = s ∧ c = [] := by
  rw [saveAll, yields_pure]

theorem yields_saveAll_cons {depth : Nat} {r : Reg} {rest : List Reg} {l : List (Reg × Operand)} :
    (saveAll depth (r :: rest)).Yields s l s' c ↔ ∃ slot s₁ l' c',
      (tempOperand (saveTemp depth r)).Yields s slot s₁ [] ∧ (saveAll depth rest).Yields s₁ l' s' c' ∧
      l = (r, slot) :: l' ∧ c = .movl (.reg r) slot :: c' := by
  rw [saveAll, yields_bind]
  simp only [yields_emit_bind]
  -- `yields_tempOperand` gives no code, so that the store is the first instruction.
  constructor
  · rintro ⟨slot, s₁, _, _, ht, ⟨_, h, rfl⟩, rfl⟩
    obtain ⟨l', s₂, c', _, hl, hp, rfl⟩ := yields_bind.1 h
    obtain ⟨rfl, rfl, rfl⟩ := yields_pure.1 hp
    obtain ⟨_, -, rfl, -⟩ := yields_tempOperand.1 ht
    exact ⟨slot, s₁, l', c', ht, hl, rfl, by simp⟩
  · rintro ⟨slot, s₁, l', c', ht, hl, rfl, rfl⟩
    exact ⟨slot, s₁, [], _, ht, ⟨_, yields_bind.2 ⟨l', s', c', [], hl, by simp, rfl⟩, rfl⟩, by simp⟩

end Gen

theorem Tree.yields_call {s s' : State} {u : Unit} {c : List Inst} {label : Nat} {line : Line}
    {callee : String} {args : List Arg} :
    (Tree.call label line callee args).lower.Yields s u s' c ↔
      label ≤ s.pool.capacity ∧ ∃ dest rest, s.pool.free = dest :: rest ∧
        (callValue callee args.length line dest fun depth => Arg.stageAll depth 0 args).Yields
          s u s' c := by
  rw [Tree.lower, yields_requireRegs_bind, yields_target_bind]

/-- A computed argument is stored as soon as it is known, and its register is given back. -/
theorem Arg.yields_computed {s s' : State} {op : Operand} {c : List Inst} {depth index : Nat}
    {line : Line} {plan : Plan} :
    ((Arg.computed line plan).stage depth index).Yields s op s' c ↔ ∃ r s₁ s₂ c₁,
      (plan.lower line).Yields s r s₁ c₁ ∧
      (tempOperand (argumentTemp depth index)).Yields s₁ op s₂ [] ∧ (free r).Yields s₂ () s' [] ∧
      c = c₁ ++ [.movl (.reg r) op] := by
  rw [Arg.stage]
  -- The plan alone gives code, `c₁`; the temporary and the register that is freed give none.
  constructor
  · intro h
    obtain ⟨r, s₁, c₁, _, hl, h₁, rfl⟩ := yields_bind.1 h
    obtain ⟨slot, s₂, _, _, ht, h₂, rfl⟩ := yields_bind.1 h₁
    obtain ⟨_, h₃, rfl⟩ := yields_emit_bind.1 h₂
    obtain ⟨_, s₃, _, _, hf, hp, rfl⟩ := yields_bind.1 h₃
    obtain ⟨rfl, rfl, rfl⟩ := yields_pure.1 hp
    obtain ⟨_, -, rfl, -⟩ := yields_tempOperand.1 ht
    obtain ⟨-, -, -, rfl⟩ := yields_free.1 hf
    exact ⟨r, s₁, s₂, c₁, hl, ht, hf, by simp⟩
  · rintro ⟨r, s₁, s₂, c₁, hl, ht, hf, rfl⟩
    refine yields_bind.2 ⟨r, s₁, c₁, _, hl, yields_bind.2 ⟨op, s₂, [], _, ht, ?_, rfl⟩, rfl⟩
    exact yields_emit_bind.2 ⟨[], yields_bind.2 ⟨(), s', [], [], hf, by simp, rfl⟩, by simp⟩

theorem Arg.yields_stageAll_nil {s s' : State} {l : List Operand} {c : List Inst}
    {depth index : Nat} : (Arg.stageAll depth index []).Yields s l s' c ↔ l = [] ∧ s' = s ∧ c = [] := by
  rw [Arg.stageAll, yields_pure]

theorem Arg.yields_stageAll_cons {s s' : State} {l : List Operand} {c : List Inst}
    {depth index : Nat} {arg : Arg} {rest : List Arg} :
    (Arg.stageAll depth index (arg :: rest)).Yields s l s' c ↔ ∃ op s₁ l' c₁ c₂,
      (arg.stage depth index).Yields s op s₁ c₁ ∧
      (Arg.stageAll depth (index + 1) rest).Yields s₁ l' s' c₂ ∧ l = op :: l' ∧ c = c₁ ++ c₂ := by
  rw [Arg.stageAll]
  constructor
  · intro h
    obtain ⟨op, s₁, c₁, _, ha, h₁, rfl⟩ := yields_bind.1 h
    obtain ⟨l', s₂, c₂, _, hl, hp, rfl⟩ := yields_bind.1 h₁
    obtain ⟨rfl, rfl, rfl⟩ := yields_pure.1 hp
    exact ⟨op, s₁, l', c₁, c₂, ha, hl, rfl, by simp⟩
  · rintro ⟨op, s₁, l', c₁, c₂, ha, hl, rfl, rfl⟩
    refine yields_bind.2 ⟨op, s₁, c₁, _, ha, ?_, rfl⟩
    exact yields_bind.2 ⟨l', s', c₂, [], hl, by simp, by simp⟩

end PascalAsm.Lowering
