import PascalAsm.Proofs.Generator.Layout
import PascalAsm.Proofs.Generator.Temporaries
import PascalAsm.Proofs.Generator.Trees
import PascalAsm.Proofs.Generator.Values
import PascalAsm.Proofs.Machine.Basic

/-!
# What the code of values leaves as it was

The generation of a value gives back the registers that it takes, and apart from the registers it
only lays out temporaries. So what is known of the state before it is known of the state after it.

* **`State.Steady`** — nothing has changed but the pool and the warnings, and slots for some
  temporaries were added.
* **`Pool.Restored`** — the pool has the free registers that it had, in the same order; as many were
  handed out as were taken back.
* **`Straight`** — the code neither jumps nor compares and has no labels.
* **`Tree.Sides`** — the three ways in which the sides of an operation are computed. Whatever is said
  of the code of an operation is a case analysis over them (`Tree.Settled.combines`).

`Expr.settled_of_ready` says of the tree of every expression that it leaves things as they were.
-/

namespace PascalAsm

open Assembly

/-! ## Straight code -/

namespace Assembly

/-- Whether the next instruction always follows, and nothing is compared. A call comes back to the
next instruction, if it comes back, and so counts as one of these. -/
def Inst.isStraight : Inst → Bool
  | .movl .. | .arith .. | .negl _ | .cdq | .idivl _ | .leaq .. | .call _ | .comment _ => true
  | _ => false

/-- Code that goes straight on from one instruction to the next. It is run by `execAll` instead of
by steps, and neither defines a label nor jumps to one. -/
def Straight (c : List Inst) : Prop := ∀ i ∈ c, i.isStraight = true

namespace Straight

@[simp] theorem nil : Straight [] := by simp [Straight]

@[simp] theorem cons_iff {i : Inst} {c : List Inst} :
    Straight (i :: c) ↔ i.isStraight = true ∧ Straight c := by
  simp [Straight]

@[simp] theorem append_iff {c d : List Inst} : Straight (c ++ d) ↔ Straight c ∧ Straight d := by
  simp [Straight, or_imp, forall_and]

theorem labels_eq {c : List Inst} (h : Straight c) : labels c = [] := by
  rw [labels, List.filterMap_eq_nil_iff]
  intro i hi
  have := h i hi
  cases i with
  | label => simp [Inst.isStraight] at this
  | _ => rfl

theorem compareCount_eq {c : List Inst} (h : Straight c) : compareCount c = 0 := by
  rw [compareCount, List.countP_eq_zero]
  intro i hi
  have := h i hi
  cases i with
  | cmpl => simp [Inst.isStraight] at this
  | _ => simp [Inst.compares]

end Straight

/-- A register that holds data, and no address of the stack. Members of the pool are of this kind,
and so are the registers of arguments and of results. -/
def Reg.isData : Reg → Bool
  | .rbp | .rsp => false
  | _ => true

end Assembly

namespace Lowering

open Gen

/-! ## Pools and states -/

namespace Pool

/-- The free registers are those of before, in order, and the counts moved on together. As many
registers were taken as were given back; how many there were is not said. -/
def Restored (p q : Pool) : Prop := ∃ n, q = p.moved p.free n n

/-- The free registers are those of before, and the counts moved on together. Their order may be
another one, as it is after a call. -/
def Even (p q : Pool) : Prop := ∃ free n, free.Perm p.free ∧ q = p.moved free n n

namespace Restored

variable {p q r : Pool}

theorem refl (p : Pool) : p.Restored p := ⟨0, rfl⟩

theorem trans (h : p.Restored q) (h' : q.Restored r) : p.Restored r := by
  obtain ⟨m, rfl⟩ := h
  obtain ⟨n, rfl⟩ := h'
  exact ⟨m + n, by simp⟩

theorem free_eq (h : p.Restored q) : q.free = p.free := by
  obtain ⟨n, rfl⟩ := h
  rfl

theorem members_eq (h : p.Restored q) : q.members = p.members := by
  obtain ⟨n, rfl⟩ := h
  rfl

theorem even (h : p.Restored q) : p.Even q := by
  obtain ⟨n, rfl⟩ := h
  exact ⟨p.free, n, .refl _, rfl⟩

end Restored

namespace Even

variable {p q r : Pool}

theorem refl (p : Pool) : p.Even p := (Restored.refl p).even

theorem trans (h : p.Even q) (h' : q.Even r) : p.Even r := by
  obtain ⟨free, m, hperm, rfl⟩ := h
  obtain ⟨free', n, hperm', rfl⟩ := h'
  exact ⟨free', m + n, hperm'.trans hperm, by simp⟩

end Even

/-- A register that belongs to the pool and is not free. Such a register holds a value that is still
needed, so code has to leave it alone. -/
def Busy (p : Pool) (r : Reg) : Prop := r ∈ p.members ∧ r ∉ p.free

/-- The pool of two or of three registers, with some of them free. No register is free twice, so
that taking one of them leaves it in use: this is what keeps values apart. -/
structure Sound (p : Pool) : Prop where
  members : p.members = [.rdi, .rsi] ∨ p.members = [.rdi, .rsi, .rcx]
  nodup : p.free.Nodup
  subset : p.free ⊆ p.members

/-- The members of a pool are different registers. Both pools are spelled out, so there is nothing
to be assumed of them. -/
theorem nodup_of_members {regs : List Reg} (h : regs = [.rdi, .rsi] ∨ regs = [.rdi, .rsi, .rcx]) :
    regs.Nodup := by
  rcases h with rfl | rfl <;> decide

namespace Sound

variable {p q : Pool}

theorem nodup_members (h : p.Sound) : p.members.Nodup := nodup_of_members h.members

theorem nodup_held (h : p.Sound) : p.held.Nodup := List.filter_sublist.nodup h.nodup_members

theorem moved (h : p.Sound) {free : List Reg} (hn : free.Nodup) (hs : free ⊆ p.members)
    (m n : Nat) : (p.moved free m n).Sound :=
  ⟨h.members, hn, hs⟩

theorem restored (h : p.Sound) (hr : p.Restored q) : q.Sound := by
  obtain ⟨n, rfl⟩ := hr
  exact h.moved h.nodup h.subset n n

theorem reset (h : p.Sound) : p.reset.Sound := h.moved h.nodup_members (List.Subset.refl _) 0 0

/-- The two registers on top change places. Exchanging them is how the right side of an operation
comes to be computed into the second one. -/
theorem swap (h : p.Sound) {a b : Reg} {rest : List Reg} (hfree : p.free = a :: b :: rest) :
    (p.moved (b :: a :: rest) 0 0).Sound := by
  have hswap : (b :: a :: rest).Perm p.free := hfree ▸ .swap a b rest
  exact h.moved (hswap.nodup_iff.2 h.nodup) (List.Subset.trans hswap.subset h.subset) 0 0

/-- The register on top is taken. It is not free any more because it was free only once, `nodup`. -/
theorem taken (h : p.Sound) {r : Reg} {rest : List Reg} (hfree : p.free = r :: rest) :
    (p.moved rest 1 0).Sound := by
  have htail : List.Sublist rest p.free := hfree ▸ List.sublist_cons_self r rest
  exact h.moved (htail.nodup h.nodup) (List.Subset.trans htail.subset h.subset) 1 0

/-- The registers of division do not belong to the pool. A division may thus overwrite `%eax` and
`%edx` without asking who uses them. -/
theorem ne_of_mem (h : p.Sound) {r : Reg} (hr : r ∈ p.members) : r ≠ .rax ∧ r ≠ .rdx := by
  rcases h.members with hm | hm <;> rw [hm] at hr <;>
    simp only [List.mem_cons, List.not_mem_nil, or_false] at hr <;> grind

end Sound

/-- With fewer registers free, those in use stay in use. So what is kept for the registers in use
later on is kept for those in use now. -/
theorem Busy.of_subset {p q : Pool} {r : Reg} (h : p.Busy r) (hm : q.members = p.members)
    (hf : q.free ⊆ p.free) : q.Busy r :=
  ⟨hm ▸ h.1, fun hr => h.2 (hf hr)⟩

/-- The pool of two or of three registers, with all of them free. Statements start from such a pool,
and leave one behind, in which the order may have changed. -/
structure Idle (p : Pool) : Prop where
  members : p.members = [.rdi, .rsi] ∨ p.members = [.rdi, .rsi, .rcx]
  perm : p.free.Perm p.members

theorem Idle.even {p q : Pool} (h : p.Idle) (hq : p.Even q) : q.Idle := by
  obtain ⟨free, n, hperm, rfl⟩ := hq
  exact ⟨h.members, hperm.trans h.perm⟩

namespace Idle

variable {p : Pool}

theorem sound (h : p.Idle) : p.Sound :=
  ⟨h.members, h.perm.nodup_iff.2 (nodup_of_members h.members), h.perm.subset⟩

theorem free_ne_nil (h : p.Idle) : p.free ≠ [] := by
  intro hnil
  have hlength := h.perm.length_eq
  rw [hnil] at hlength
  rcases h.members with hm | hm <;> rw [hm] at hlength <;> simp at hlength

end Idle

/-- A sound pool with these registers for members. Where the members matter by name, as for the
operands of a division, they are given as `pooled`. -/
structure Manages (p : Pool) (pooled : List Reg) : Prop where
  sound : p.Sound
  members : p.members = pooled

/-- A pool with these registers for members, all of them free. It is `Idle` with the members given
by name. -/
structure Rests (p : Pool) (pooled : List Reg) : Prop where
  idle : p.Idle
  members : p.members = pooled

namespace Manages

variable {p q : Pool} {pooled : List Reg}

theorem nodup (h : p.Manages pooled) : p.free.Nodup := h.sound.nodup

theorem subset (h : p.Manages pooled) : p.free ⊆ pooled := h.members ▸ h.sound.subset

/-- No member holds an address of the stack. Hence no code of an expression touches the two
registers that make up the frame. -/
theorem isData (h : p.Manages pooled) {r : Reg} (hr : r ∈ pooled) : r.isData = true := by
  rw [← h.members] at hr
  rcases h.sound.members with hm | hm <;> rw [hm] at hr <;> revert hr <;> cases r <;> decide

theorem moved (h : p.Manages pooled) {free : List Reg} (hn : free.Nodup) (hs : free ⊆ pooled)
    (m n : Nat) : (p.moved free m n).Manages pooled :=
  ⟨h.sound.moved hn (h.members ▸ hs) m n, h.members⟩

theorem swap (h : p.Manages pooled) {a b : Reg} {rest : List Reg} (hfree : p.free = a :: b :: rest) :
    (p.moved (b :: a :: rest) 0 0).Manages pooled := ⟨h.sound.swap hfree, h.members⟩

theorem taken (h : p.Manages pooled) {r : Reg} {rest : List Reg} (hfree : p.free = r :: rest) :
    (p.moved rest 1 0).Manages pooled := ⟨h.sound.taken hfree, h.members⟩

theorem restored (h : p.Manages pooled) (hr : p.Restored q) : q.Manages pooled :=
  ⟨h.sound.restored hr, hr.members_eq.trans h.members⟩

theorem reset (h : p.Manages pooled) : p.reset.Manages pooled := ⟨h.sound.reset, h.members⟩

end Manages

namespace Rests

variable {p q : Pool} {pooled : List Reg}

theorem sound (h : p.Rests pooled) : p.Manages pooled := ⟨h.idle.sound, h.members⟩

theorem even (h : p.Rests pooled) (hq : p.Even q) : q.Rests pooled := by
  refine ⟨h.idle.even hq, ?_⟩
  obtain ⟨free, n, -, rfl⟩ := hq
  exact h.members

end Rests

end Pool

namespace State

/-- Nothing has changed but the pool, the warnings, and the temporaries that were laid out. It is
what code of values does to the state; that of statements also draws labels. -/
structure Steady (P : String → Prop) (s s' : State) : Prop where
  scopes : Scopes.Grows P s.scopes s'.scopes
  arrays : s'.arrays = s.arrays
  labels : s'.labels = s.labels
  callDepth : s'.callDepth = s.callDepth
  finished : s'.finished = s.finished

namespace Steady

variable {P Q : String → Prop} {s s₁ s' : State}

theorem refl (s : State) : Steady P s s := ⟨.refl _, rfl, rfl, rfl, rfl⟩

theorem trans (h : Steady P s s₁) (h' : Steady P s₁ s') : Steady P s s' :=
  ⟨h.scopes.trans h'.scopes, h'.arrays.trans h.arrays, h'.labels.trans h.labels,
    h'.callDepth.trans h.callDepth, h'.finished.trans h.finished⟩

theorem mono (hPQ : ∀ x, P x → Q x) (h : Steady P s s') : Steady Q s s' :=
  { h with scopes := h.scopes.mono hPQ }

theorem withPool (s : State) (p : Pool) : Steady P s (s.withPool p) := ⟨.refl _, rfl, rfl, rfl, rfl⟩

end Steady

end State

open State

/-! ## Steps -/

section

variable {P : String → Prop} {s s' : State} {u : Unit} {c : List Inst}

theorem tempOperand_steady {name : String} {op : Operand} (hP : P name)
    (h : (tempOperand name).Yields s op s' c) : Steady P s s' ∧ s'.pool = s.pool := by
  obtain ⟨slot, -, -, ⟨-, rfl⟩ | ⟨-, S, hadd, rfl⟩⟩ := yields_tempOperand.1 h
  · exact ⟨.refl _, rfl⟩
  · exact ⟨⟨.single hP hadd, rfl, rfl, rfl, rfl⟩, rfl⟩

/-- A temporary that was asked for has a slot under its name. Whether it was there before does not
matter any more. -/
theorem find?_of_tempOperand {name : String} {op : Operand}
    (h : (tempOperand name).Yields s op s' c) :
    ∃ slot, s'.scopes.find? name = some slot ∧ op = slot.operand := by
  obtain ⟨slot, rfl, -, ⟨hfind, rfl⟩ | ⟨-, S, hadd, rfl⟩⟩ := yields_tempOperand.1 h
  · exact ⟨slot, hfind, rfl⟩
  · -- the slot that was just added
    obtain ⟨scope, scope', outer, hs, rfl, hadd'⟩ := Scopes.add_eq_ok_iff.1 hadd
    obtain ⟨-, hnone, rfl, rfl⟩ := Scope.add_eq_ok_iff.1 hadd'
    exact ⟨_, (Scope.find?_append hnone name).trans (if_pos rfl), rfl⟩

theorem divide_steady (depth : Nat) {result dest : Reg} {divisor : Operand}
    (h : (divide result divisor dest).Yields s u s' c) :
    Steady (Temp depth) s s' ∧ s'.pool = s.pool ∧ Straight c := by
  obtain ⟨-, rfl, rfl⟩ | ⟨-, slot, ht, rfl⟩ := yields_divide.1 h
  · exact ⟨.refl _, rfl, by simp [divideCode, Inst.isStraight]⟩
  · obtain ⟨hs, hp⟩ := tempOperand_steady (Temp.divisor : Temp depth divisorTemp) ht
    exact ⟨hs, hp, by simp [divideCode, Inst.isStraight]⟩

/-- Whether the operation computes something. A comparison leaves its outcome in the flags and no
value in a register. -/
def BinOp.computes : BinOp → Bool
  | .compare _ => false
  | _ => true

theorem BinOp.computes_ofAddOp (op : AddOp) : (BinOp.ofAddOp op).computes = true := by
  cases op <;> rfl

theorem BinOp.computes_ofMulOp (op : MulOp) : (BinOp.ofMulOp op).computes = true := by
  cases op <;> rfl

theorem combine_steady (depth : Nat) {op : BinOp} {src : Operand} {dest : Reg}
    (h : (combine op src dest).Yields s u s' c) :
    Steady (Temp depth) s s' ∧ s'.pool = s.pool ∧ (op.computes = true → Straight c) := by
  cases op with
  | add | sub | mul =>
    obtain ⟨rfl, rfl⟩ := yields_emit.1 h
    exact ⟨.refl _, rfl, fun _ => by simp [Inst.isStraight]⟩
  -- A comparison sets flags, so it is excluded from what is straight.
  | compare =>
    obtain ⟨rfl, rfl⟩ := yields_emit.1 h
    exact ⟨.refl _, rfl, fun h => by simp [BinOp.computes] at h⟩
  | div | mod =>
    obtain ⟨hs, hp, hc⟩ := divide_steady depth h
    exact ⟨hs, hp, fun _ => hc⟩

theorem saveAll_steady {depth : Nat} : ∀ {regs : List Reg} {s s' : State}
    {l : List (Reg × Operand)} {c : List Inst}, (saveAll depth regs).Yields s l s' c →
    Steady (Temp depth) s s' ∧ s'.pool = s.pool ∧ Straight c
  | [], _, _, _, _, h => by
    obtain ⟨-, rfl, rfl⟩ := yields_saveAll_nil.1 h
    exact ⟨.refl _, rfl, .nil⟩
  | r :: rest, _, _, _, _, h => by
    obtain ⟨slot, s₁, l', c', ht, hl, rfl, rfl⟩ := yields_saveAll_cons.1 h
    obtain ⟨hs, hp⟩ := tempOperand_steady (Temp.save r (Nat.le_refl depth)) ht
    obtain ⟨hs', hp', hc⟩ := saveAll_steady hl
    exact ⟨hs.trans hs', hp'.trans hp, by simp [Inst.isStraight, hc]⟩

/-- The registers that are taken for a call are given back after it. Their order may be another one
afterwards: claimed registers come back on top. -/
theorem claim_release_even {regs claimed : List Reg} {s₁ : State} {c₁ c₂ : List Inst}
    (hc : (claim regs).Yields s claimed s₁ c₁) (hr : (release claimed).Yields s₁ u s' c₂) :
    ∃ q, s' = s.withPool q ∧ s.pool.Even q := by
  obtain ⟨-, -, free, hperm, rfl⟩ := claim_spec hc
  obtain ⟨-, rfl⟩ := release_spec hr
  exact ⟨_, by simp, claimed ++ free, claimed.length, hperm, rfl⟩

theorem straight_loadArgs (operands : List Operand) : Straight (loadArgs operands) := by
  intro i hi
  obtain ⟨n, hn, rfl⟩ := List.getElem_of_mem hi
  simp [loadArgs, Inst.isStraight]

/-- The arguments of a call can be staged for a call at any depth, with what that leaves behind. -/
def StageSettled (stage : Nat → Gen (List Operand)) : Prop :=
  ∀ ⦃s s' : State⦄ ⦃l : List Operand⦄ ⦃c : List Inst⦄ (depth : Nat), s.callDepth = depth + 1 →
    (stage depth).Yields s l s' c →
    Steady (Temp depth) s s' ∧ s.pool.Restored s'.pool ∧ Straight c

/-- If staging its arguments settles, then so does a call. Staging is a parameter, so that the lemma
serves calls inside expressions as well as procedures. -/
theorem callRoutine_steady {callee : String} {count : Nat} {line : Line}
    {stage : Nat → Gen (List Operand)} (hstage : StageSettled stage)
    (h : (callRoutine callee count line stage).Yields s u s' c) :
    Steady (Temp s.callDepth) s s' ∧ s.pool.Even s'.pool ∧ Straight c := by
  obtain ⟨-, operands, s₁, s₂, c₁, claimed, hs, hc, hr, rfl⟩ := yields_callRoutine.1 h
  obtain ⟨hsteady, ⟨n, hn⟩, hstr⟩ := hstage s.callDepth rfl hs
  obtain ⟨q, rfl, free, m, hperm, rfl⟩ := claim_release_even hc hr
  -- The depth goes up for the arguments and comes down again; `claim_release_even` is for the pool.
  refine ⟨⟨hsteady.scopes, hsteady.arrays, hsteady.labels, ?_, hsteady.finished⟩, ?_, ?_⟩
  · simp [hsteady.callDepth]
  · exact ⟨free, n + m, by simpa [hn] using hperm, by simp [hn]⟩
  · simp [hstr, straight_loadArgs, clear, Inst.isStraight]

/-- A call inside an expression puts the free registers back in their old order. The pool is saved
as a whole before the call and put back after it, which restores the order that `claim` has changed.
-/
theorem callValue_steady {callee : String} {count : Nat} {line : Line} {dest : Reg}
    {stage : Nat → Gen (List Operand)} (hstage : StageSettled stage)
    (h : (callValue callee count line dest stage).Yields s u s' c) :
    Steady (Temp s.callDepth) s s' ∧ s.pool.Restored s'.pool ∧ Straight c := by
  obtain ⟨-, saved, s₁, s₂, c₁, c₂, hs, hc, rfl, rfl⟩ := yields_callValue.1 h
  obtain ⟨hs₁, hp₁, hc₁⟩ := saveAll_steady hs
  obtain ⟨hs₂, ⟨free, n, -, hn⟩, hc₂⟩ := callRoutine_steady hstage hc
  -- What is saved is done at the depth of the call; the arguments are one deeper.
  have hd : (s₁.withPool s₁.pool.reset).callDepth = s.callDepth := hs₁.callDepth
  rw [hd] at hs₂
  have hall := (hs₁.trans (.withPool s₁ s₁.pool.reset)).trans hs₂
  have hload : Straight (saved.map fun q => Inst.movl q.2 (.reg q.1)) := by
    intro i hi
    obtain ⟨_, -, rfl⟩ := List.mem_map.1 hi
    rfl
  refine ⟨hall.trans (.withPool _ _), ⟨n, by simp [hn, hp₁]⟩, ?_⟩
  simp only [Straight.append_iff, Straight.cons_iff, Straight.nil, and_true]
  exact ⟨hc₁, hc₂, hload, rfl⟩

end

/-! ## Trees -/

/-- Computing the tree changes nothing of importance. It is proved for all trees by
`settled_of_ready`, and most of what is shown of trees starts from it. -/
def Tree.Settled (t : Tree) : Prop :=
  ∀ ⦃s s' : State⦄ ⦃u : Unit⦄ ⦃c : List Inst⦄, t.lower.Yields s u s' c →
    Steady (Temp s.callDepth) s s' ∧ s.pool.Restored s'.pool ∧ Straight c

namespace Tree

theorem settled_leaf (label : Nat) (line : Line) (leaf : Leaf) :
    (Tree.leaf label line leaf).Settled := by
  intro s s' u c h
  obtain ⟨-, rfl, dest, rest, src, -, -, rfl⟩ := yields_leaf.1 h
  exact ⟨.refl _, .refl _, by simp [Inst.isStraight]⟩

theorem Settled.negated {t : Tree} (ht : t.Settled) (line : Line) :
    (t.negated line).Settled := by
  intro s s' u c h
  obtain ⟨-, c₁, dest, rest, hc, -, rfl⟩ := yields_negate.1 h
  obtain ⟨hs, hp, hstr⟩ := ht hc
  exact ⟨hs, hp, by simp [hstr, Inst.isStraight]⟩

variable {label : Nat} {line : Line} {op : BinOp} {left right : Tree} {s s' : State} {u : Unit}
  {c : List Inst}

/-- The sides of an operation are computed, in the order that their labels ask for: the left side
into a register, and the right side into another one, unless it stays where the last instructions
read it. -/
inductive Sides (left right : Tree) (s : State) : Operand → Reg → State → List Inst → Prop where
  /-- The right side is harder: it goes into the second register, and then the left side into the
  first one. -/
  | swapped {a b : Reg} {rest : List Reg} {s₁ s₂ : State} {c₁ c₂ : List Inst}
      (hlt : left.label < right.label) (hfree : s.pool.free = a :: b :: rest)
      (hright : right.lower.Yields (s.withPool (s.pool.moved (b :: a :: rest) 0 0)) () s₁ c₁)
      (hleft : left.lower.Yields (s₁.withPool (s₁.pool.moved (a :: rest) 1 0)) () s₂ c₂) :
      Sides left right s (.reg b) a s₂ (c₁ ++ c₂)
  /-- Otherwise the left side goes into the first register, and the right side into the second. -/
  | ordered {a b : Reg} {rest : List Reg} {s₁ s₂ : State} {c₁ c₂ : List Inst}
      (hge : ¬ left.label < right.label) (hfree : s.pool.free = a :: b :: rest)
      (hleft : left.lower.Yields s () s₁ c₁)
      (hright : right.lower.Yields (s₁.withPool (s₁.pool.moved (b :: rest) 1 0)) () s₂ c₂) :
      Sides left right s (.reg b) a s₂ (c₁ ++ c₂)
  /-- A leaf on the right stays where it is. -/
  | operand {line : Line} {leaf : Leaf} {src : Operand} {dest : Reg} {rest : List Reg} {s₁ : State}
      {c₁ : List Inst} (hleaf : right.leaf? = some (line, leaf))
      (hfree : s.pool.free = dest :: rest) (hleft : left.lower.Yields s () s₁ c₁)
      (hsrc : leaf.operand? s₁.scopes = some src) : Sides left right s src dest s₁ c₁

/-- The code of an operation computes its sides, and combines what is read of the right one into the
register of the left one. -/
def Combines (op : BinOp) (left right : Tree) (s s' : State) (c : List Inst) : Prop :=
  ∃ src dest s₁ s₂ p c₁ c₂, Sides left right s src dest s₁ c₁ ∧
    (combine op src dest).Yields s₁ () s₂ c₂ ∧ s' = s₂.withPool p ∧ s.pool.Restored p ∧ c = c₁ ++ c₂

theorem Settled.combines_swapped (hl : left.Settled) (hr : right.Settled)
    (hleaf : right.leaf? = none) (hlt : left.label < right.label)
    (h : (Tree.binary label line op left right).lower.Yields s u s' c) :
    Combines op left right s s' c := by
  obtain ⟨-, s₀, s₁, s₂, s₃, s₄, s₅, c₁, c₂, c₃, held, dest, rest₃, h₀, h₁, h₂, h₃, hf₃, h₄, h₅, h₆,
    rfl⟩ := (yields_binary_swapped hleaf hlt).1 h
  obtain ⟨a, b, rest, hf₀, rfl, -⟩ := yields_swapTop.1 h₀
  obtain ⟨-, ⟨m, hm⟩, -⟩ := hr h₁
  obtain ⟨rest₁, hf₁, rfl, -⟩ := yields_allocate.1 h₂
  obtain ⟨-, ⟨n, hn⟩, -⟩ := hl h₃
  obtain ⟨-, hp₄, -⟩ := combine_steady 0 h₄
  obtain ⟨-, -, rfl, -⟩ := yields_free.1 h₅
  obtain ⟨q, r, rest₅, hf₅, rfl, -⟩ := yields_swapTop.1 h₆
  -- what is free is followed through the seven steps
  simp only [pool_withPool, Pool.free_moved, Pool.moved_moved] at hm hn hf₅
  simp only [hm, Pool.free_moved, List.cons.injEq, Pool.moved_moved] at hf₁ hn
  obtain ⟨rfl, rfl⟩ := hf₁
  simp only [hn, Pool.free_moved, List.cons.injEq, hp₄] at hf₃ hf₅
  obtain ⟨rfl, rfl⟩ := hf₃
  obtain ⟨rfl, rfl, rfl⟩ := hf₅
  refine ⟨.reg b, a, s₃, s₄, _, c₁ ++ c₂, c₃, .swapped hlt hf₀ h₁ h₃, h₄, rfl, ⟨m + 1 + n, ?_⟩,
    by rw [List.append_assoc]⟩
  simp only [pool_withPool, hp₄, hn, hf₀, Pool.moved_moved]
  congr 1 <;> omega

theorem Settled.combines_ordered (hl : left.Settled) (hr : right.Settled)
    (hleaf : right.leaf? = none) (hge : ¬ left.label < right.label)
    (h : (Tree.binary label line op left right).lower.Yields s u s' c) :
    Combines op left right s s' c := by
  obtain ⟨-, s₁, s₂, s₃, s₄, c₁, c₂, c₃, held, src, rest₃, h₁, h₂, h₃, hf₃, h₄, h₅, rfl⟩ :=
    (yields_binary_ordered hleaf hge).1 h
  obtain ⟨-, ⟨m, hm⟩, -⟩ := hl h₁
  obtain ⟨rest₁, hf₁, rfl, -⟩ := yields_allocate.1 h₂
  obtain ⟨-, ⟨n, hn⟩, -⟩ := hr h₃
  obtain ⟨-, hp₄, -⟩ := combine_steady 0 h₄
  obtain ⟨-, -, rfl, -⟩ := yields_free.1 h₅
  -- The pools one after another, by `hm`, `hn` and `hp₄`: each differs by what was taken.
  simp only [pool_withPool, Pool.free_moved, Pool.moved_moved] at hn
  rw [hm, Pool.free_moved] at hf₁
  rw [hn, Pool.free_moved] at hf₃
  subst hf₃
  refine ⟨.reg src, held, s₃, s₄, _, c₁ ++ c₂, c₃, .ordered hge hf₁ h₁ h₃, h₄, rfl,
    ⟨m + 1 + n, ?_⟩, by rw [List.append_assoc]⟩
  simp only [hp₄, hn, hm, hf₁, Pool.moved_moved, Pool.free_moved]
  congr 1 <;> omega

theorem Settled.combines (hl : left.Settled) (hr : right.Settled)
    (h : (Tree.binary label line op left right).lower.Yields s u s' c) :
    Combines op left right s s' c := by
  -- One case for each way the sides can be computed; the third needs no second register.
  rcases hleaf : right.leaf? with _ | ⟨leafLine, leaf⟩
  · by_cases hlt : left.label < right.label
    · exact hl.combines_swapped hr hleaf hlt h
    · exact hl.combines_ordered hr hleaf hlt h
  · obtain ⟨-, s₁, c₁, c₂, src, dest, rest, h₁, hsrc, hfree, h₂, rfl⟩ :=
      (yields_binary_operand hleaf).1 h
    obtain ⟨-, hp₁, -⟩ := hl h₁
    obtain ⟨-, hp₂, -⟩ := combine_steady 0 h₂
    exact ⟨src, dest, s₁, s', s'.pool, c₁, c₂, .operand hleaf (hp₁.free_eq ▸ hfree) h₁ hsrc, h₂, rfl,
      hp₂ ▸ hp₁, rfl⟩

namespace Sides

variable {src : Operand} {dest : Reg} {s₁ : State} {c₁ : List Inst}

/-- The left side goes into the register on top. This does not depend on which side is computed
first. -/
theorem exists_free_eq (h : Sides left right s src dest s₁ c₁) :
    ∃ rest, s.pool.free = dest :: rest := by
  cases h with
  | swapped _ hfree | ordered _ hfree => exact ⟨_, hfree⟩
  | operand _ hfree => exact ⟨_, hfree⟩

theorem steady (h : Sides left right s src dest s₁ c₁) (hl : left.Settled) (hr : right.Settled) :
    Steady (Temp s.callDepth) s s₁ ∧ Straight c₁ := by
  -- Both sides are computed at the depth of `s`, which `hdepth` carries over the first of them.
  cases h with
  | @swapped a b rest t₁ _ d₁ d₂ hlt hfree hright hleft =>
    obtain ⟨hs₁, -, hd₁⟩ := hr hright
    obtain ⟨hs₂, -, hd₂⟩ := hl hleft
    have hdepth : t₁.callDepth = s.callDepth := hs₁.callDepth
    simp only [callDepth_withPool, hdepth] at hs₁ hs₂
    refine ⟨?_, by simp [hd₁, hd₂]⟩
    exact (((Steady.withPool s _).trans hs₁).trans (.withPool t₁ _)).trans hs₂
  | @ordered a b rest t₁ _ d₁ d₂ hge hfree hleft hright =>
    obtain ⟨hs₁, -, hd₁⟩ := hl hleft
    obtain ⟨hs₂, -, hd₂⟩ := hr hright
    have hdepth : t₁.callDepth = s.callDepth := hs₁.callDepth
    simp only [callDepth_withPool, hdepth] at hs₂
    exact ⟨(hs₁.trans (.withPool t₁ _)).trans hs₂, by simp [hd₁, hd₂]⟩
  | operand hleaf hfree hleft hsrc =>
    obtain ⟨hs₁, -, hd₁⟩ := hl hleft
    exact ⟨hs₁, hd₁⟩

end Sides

/-- What comes before the last step of an operation settles, and the last step combines an operand
into a register. -/
theorem Settled.binary (hl : left.Settled) (hr : right.Settled)
    (h : (Tree.binary label line op left right).lower.Yields s u s' c) :
    Steady (Temp s.callDepth) s s' ∧ s.pool.Restored s'.pool ∧ ∃ s₁ s₂ c₁ c₂ src dest,
      Straight c₁ ∧ (combine op src dest).Yields s₁ () s₂ c₂ ∧ c = c₁ ++ c₂ := by
  obtain ⟨src, dest, s₁, s₂, p, c₁, c₂, hsides, hcombine, rfl, hp, rfl⟩ := hl.combines hr h
  obtain ⟨hs₁, hc₁⟩ := hsides.steady hl hr
  obtain ⟨hs₂, -, -⟩ := combine_steady s.callDepth hcombine
  exact ⟨(hs₁.trans hs₂).trans (.withPool s₂ p), hp, s₁, s₂, c₁, c₂, src, dest, hc₁, hcombine, rfl⟩

theorem Settled.joined (hl : left.Settled) (hr : right.Settled) (hop : op.computes = true)
    (line : Line) : (Tree.joined line op left right).Settled := by
  intro s s' u c h
  obtain ⟨hs, hp, s₁, s₂, c₁, c₂, src, dest, hc₁, hcomb, rfl⟩ := hl.binary hr h
  obtain ⟨-, -, hc₂⟩ := combine_steady 0 hcomb
  exact ⟨hs, hp, by simp [hc₁, hc₂ hop]⟩

/-- If staging its arguments settles, then so does the tree of a call. The register that takes the
result is on top before and stays there, since the pool is restored. -/
theorem settled_call {callee : String} {args : List Arg}
    (h : StageSettled fun depth => Arg.stageAll depth 0 args) (label : Nat) (line : Line) :
    (Tree.call label line callee args).Settled := by
  intro s s' u c hc
  obtain ⟨-, dest, rest, -, hv⟩ := yields_call.1 hc
  exact callValue_steady h hv

end Tree

/-! ## Expressions and arguments -/

/-- The register is taken; apart from that the pool is restored. One more was taken than was given
back, and what is free are the others in their old order. -/
def Pool.Taken (p q : Pool) (r : Reg) : Prop :=
  ∃ rest n, p.free = r :: rest ∧ q = p.moved rest (n + 1) n

theorem compute_steady {t : Tree} {line : Line} {s s' : State} {r : Reg} {c : List Inst}
    (ht : t.Settled) (h : (compute line t.lower).Yields s r s' c) :
    Steady (Temp s.callDepth) s s' ∧ s.pool.Taken s'.pool r ∧ Straight c := by
  obtain ⟨s₁, hm, -, ha, -⟩ := yields_compute.1 h
  obtain ⟨hs, ⟨n, hn⟩, hc⟩ := ht hm
  obtain ⟨rest, hf, rfl, -⟩ := yields_allocate.1 ha
  rw [hn, Pool.free_moved] at hf
  exact ⟨hs.trans (.withPool _ _), ⟨rest, n, hf, by simp [hn]⟩, hc⟩

/-- Computing an expression takes one register. The warnings of the plan are the only other thing
that changes, and `Steady` does not look at them. -/
theorem plan_lower_steady {plan : Plan} {line : Line} {s s' : State} {r : Reg} {c : List Inst}
    (ht : ∀ {ws t}, plan = .ready ws t → t.Settled)
    (h : (plan.lower line).Yields s r s' c) :
    Steady (Temp s.callDepth) s s' ∧ s.pool.Taken s'.pool r ∧ Straight c := by
  obtain ⟨ws, t, rfl, hc⟩ := yields_plan_lower.1 h
  obtain ⟨hs, hp, hstr⟩ := compute_steady (ht rfl) hc
  exact ⟨⟨hs.scopes, hs.arrays, hs.labels, hs.callDepth, hs.finished⟩, hp, hstr⟩

theorem stage_steady {e : Expr} {depth index : Nat} {s s' : State} {op : Operand} {c : List Inst}
    (ht : ∀ {ws t}, Plan.ofExpr false e = .ready ws t → t.Settled) (hd : s.callDepth = depth + 1)
    (h : ((Arg.ofPlan e (Plan.ofExpr false e)).stage depth index).Yields s op s' c) :
    Steady (Temp depth) s s' ∧ s.pool.Restored s'.pool ∧ Straight c := by
  -- only a computed argument takes a register, and it gives it back
  cases e with
  | var =>
    rw [Arg.ofPlan, Arg.stage, yields_varOperand] at h
    obtain ⟨-, rfl, rfl⟩ := h
    exact ⟨.refl _, .refl _, .nil⟩
  | integer =>
    rw [Arg.ofPlan, Arg.stage, yields_pure] at h
    obtain ⟨-, rfl, rfl⟩ := h
    exact ⟨.refl _, .refl _, .nil⟩
  | element =>
    rw [Arg.ofPlan, Arg.stage, yields_fail] at h
    exact h.elim
  | _ =>
    obtain ⟨r, s₁, s₂, c₁, hl, htemp, hf, rfl⟩ := Arg.yields_computed.1 h
    obtain ⟨hs₁, ⟨rest, n, hfree, hn⟩, hc⟩ := plan_lower_steady ht hl
    obtain ⟨hs₂, hp₂⟩ := tempOperand_steady (Temp.argument index (Nat.le_refl depth)) htemp
    obtain ⟨-, -, rfl, -⟩ := yields_free.1 hf
    have hs₁ := hs₁.mono fun x hx => hx.mono (show depth ≤ s.callDepth by omega)
    refine ⟨(hs₁.trans hs₂).trans (.withPool _ _), ⟨n + 1, ?_⟩, by simp [hc, Inst.isStraight]⟩
    simp [hp₂, hn, hfree]

theorem stageAll_settled : ∀ {es : List Expr} {index : Nat},
    (∀ e ∈ es, ∀ {ws t}, Plan.ofExpr false e = .ready ws t → t.Settled) →
    StageSettled fun depth => Arg.stageAll depth index (Arg.ofExprs es)
  | [], _, _ => by
    intro s s' l c depth _ h
    obtain ⟨-, rfl, rfl⟩ := Arg.yields_stageAll_nil.1 h
    exact ⟨.refl _, .refl _, .nil⟩
  | e :: rest, index, ht => by
    intro s s' l c depth hd h
    obtain ⟨op, s₁, l', c₁, c₂, ha, hl, -, rfl⟩ := Arg.yields_stageAll_cons.1 h
    obtain ⟨hs₁, hp₁, hc₁⟩ := stage_steady (ht e List.mem_cons_self) hd ha
    -- The depth of the call is the same for the rest, as `hs₁` leaves it alone.
    obtain ⟨hs₂, hp₂, hc₂⟩ := stageAll_settled (fun e' he => ht e' (List.mem_cons_of_mem e he))
      depth (hs₁.callDepth.trans hd) hl
    exact ⟨hs₁.trans hs₂, hp₁.trans hp₂, by simp [hc₁, hc₂]⟩

end Lowering

open Lowering State

namespace Expr

/-- The tree of every expression settles. By induction on the plan; the sides of an operation are
combined by `Settled.combines`. -/
theorem settled_of_ready {e : Expr} {operand : Bool} {ws : List Warning} {t : Tree}
    (h : Plan.ofExpr operand e = .ready ws t) : t.Settled := by
  refine tree_induction (motive := fun _ _ t => t.Settled)
    ?var ?integer ?real ?call ?sign ?add ?mul e h
  case var | integer | real => intros; exact Tree.settled_leaf ..
  case call => intro _ _ _ args ih; exact Tree.settled_call (stageAll_settled ih) ..
  case sign => intro _ line _ _ ih; exact ih.negated line
  case add => intro _ line op _ _ _ _ hl hr; exact hl.joined hr (BinOp.computes_ofAddOp op) line
  case mul => intro _ line op _ _ _ _ hl hr; exact hl.joined hr (BinOp.computes_ofMulOp op) line

variable {s s' : State} {u : Unit} {c : List Inst}

/-- Computing an expression takes one register, and changes nothing else of importance. It is the
form in which statements use it. -/
theorem lower_steady {e : Expr} {r : Reg} (h : e.lower.Yields s r s' c) :
    Steady (Temp s.callDepth) s s' ∧ s.pool.Taken s'.pool r ∧ Straight c :=
  plan_lower_steady settled_of_ready h

/-- The arguments of a call of a procedure of the program settle. For each of them it is
`settled_of_ready`. -/
theorem stageAll_settled (args : List Expr) : StageSettled (Expr.stageAll args) :=
  Lowering.stageAll_settled fun _ _ => settled_of_ready

end Expr

end PascalAsm
