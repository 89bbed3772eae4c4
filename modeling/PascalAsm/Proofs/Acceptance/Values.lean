import PascalAsm.Proofs.Acceptance.Basic
import PascalAsm.Proofs.Meaning.Identifiers
import PascalAsm.Proofs.Meaning.Supported

/-!
# Which values code can be made for

With as many registers free as the label of its tree says, and one at least, the code of an
expression can be made exactly if the expression is `Expr.Computable`. No other register is ever
missing: the side that is evaluated second has one register less, and needs one less.
-/

namespace PascalAsm

open Assembly Lowering Gen State

namespace Lowering

variable {S : List String} {regs free rest : List Reg} {r : Reg} {P Q : Prop}

/-! ## Trees -/

theorem Tree.joinLabels_le_iff {m n k : Nat} :
    Tree.joinLabels m n ≤ k ↔ m ≤ k ∧ n ≤ k ∧ (m = n → m < k) := by
  unfold Tree.joinLabels
  split <;> omega

theorem Tree.one_le_joinLabels {m n : Nat} (h : 1 ≤ m) : 1 ≤ Tree.joinLabels m n := by
  unfold Tree.joinLabels
  split <;> omega

/-- Where registers are enough for an operation, there is a second one. The side that comes second
finds one less, but then it needs fewer than the other side, or there is one more than both need. -/
theorem Tree.exists_second {m n : Nat} {a : Reg} (hm : 1 ≤ m) (hn : 1 ≤ n)
    (h : Tree.joinLabels m n ≤ (a :: rest).length) : ∃ b below, rest = b :: below ∧
      (m < n → m ≤ (a :: below).length) ∧ (¬ m < n → n ≤ (b :: below).length) := by
  obtain ⟨hmfree, hnfree, hsame⟩ := joinLabels_le_iff.1 h
  cases rest with
  -- With one register there is no room for two sides that need one each, `hm` and `hn`.
  | nil =>
    simp only [List.length_cons, List.length_nil] at hmfree hnfree hsame
    omega
  | cons b below =>
    simp only [List.length_cons] at *
    exact ⟨b, below, rfl, by omega, by omega⟩

/-- With registers enough, the code of the tree can be made exactly if `Q` holds, and then the same
registers are free again. -/
def Tree.Accepted (S : List String) (regs : List Reg) (Q : Prop) (t : Tree) : Prop :=
  ∀ ⦃free⦄, Stack regs free → free ≠ [] → t.label ≤ free.length →
    Accepts (Within S regs free) t.lower Q fun _ => Within S regs free

/-- A pool with registers enough free has enough of them. So the check in front of an operation is
met by `hlabel` and can be forgotten. -/
theorem Stack.requireRegs_andThen {β : Type} {label : Nat} {line : Line} {f : Unit → Gen β}
    {K : β → State → Prop} (hstack : Stack regs free) (hlabel : label ≤ free.length)
    (hf : Accepts (Within S regs free) (f ()) Q K) :
    Accepts (Within S regs free) (requireRegs label line >>= f) Q K :=
  (accepts_requireRegs.bind fun _ => hf).congr (and_iff_right (Nat.le_trans hlabel hstack.length_le))

namespace Tree

variable {left right : Tree}

theorem accepted_var {x : String} (hx : Temp 0 x → x ∈ S) (label : Nat) (line : Line) :
    (Tree.leaf label line (.var x)).Accepted S regs (x ∈ S) := by
  intro free hstack hfree hlabel
  obtain ⟨r, rest, rfl⟩ := List.exists_cons_of_ne_nil hfree
  rw [Tree.lower]
  refine hstack.requireRegs_andThen hlabel (accepts_target.andThen_eq ?_)
  exact (accepts_varOperand hx).finish fun _ => accepts_emit

theorem accepted_int (value : Int32) (label : Nat) (line : Line) :
    (Tree.leaf label line (.int value)).Accepted S regs True := by
  intro free hstack hfree hlabel
  obtain ⟨r, rest, rfl⟩ := List.exists_cons_of_ne_nil hfree
  rw [Tree.lower]
  refine hstack.requireRegs_andThen hlabel (accepts_target.andThen_eq ?_)
  exact (accepts_pure fun _ hs => hs).andThen fun _ => accepts_emit

namespace Accepted

theorem negated {t : Tree} (h : t.Accepted S regs Q) (line : Line) :
    (t.negated line).Accepted S regs Q := by
  intro free hstack hfree hlabel
  have hchild := h hstack hfree hlabel
  obtain ⟨r, rest, rfl⟩ := List.exists_cons_of_ne_nil hfree
  rw [Tree.negated, Tree.lower]
  refine hstack.requireRegs_andThen hlabel ?_
  exact hchild.finish fun _ => accepts_target.andThen_eq accepts_emit

/-- A leaf on the right is named by the instruction. It is acceptable there when it is so as a value
of its own. -/
theorem operand {t : Tree} {line : Line} {leaf : Leaf} (h : t.Accepted S regs Q)
    (hleaf : t.leaf? = some (line, leaf)) (hstack : Stack regs free) (hfree : free ≠ [])
    (hlabel : t.label ≤ free.length) :
    Accepts (Within S regs free) (leafOperand line leaf) Q fun _ => Within S regs free := by
  cases t with
  | leaf label leafLine l =>
    obtain ⟨rfl, rfl⟩ : leafLine = line ∧ l = leaf := by simpa [leaf?] using hleaf
    refine ⟨fun {s} hs => ?_, fun hs hm => ?_⟩
    · rw [← (h hstack hfree hlabel).yields_iff hs]
      constructor
      -- what the leaf would need on its own is at hand: a slot, and a register to load it into
      · rintro ⟨op, s', c, hm⟩
        obtain ⟨hop, -, -⟩ := yields_leafOperand.1 hm
        obtain ⟨r, rest, rfl⟩ := List.exists_cons_of_ne_nil hfree
        have hcapacity : label ≤ s.pool.capacity := by
          rw [Pool.capacity, hs.members]
          exact Nat.le_trans hlabel hstack.length_le
        exact ⟨(), s, _, yields_leaf.2 ⟨hcapacity, rfl, r, rest, op, hs.free, hop, rfl⟩⟩
      · rintro ⟨_, s', c, hm⟩
        obtain ⟨-, -, dest, rest, op, -, hop, -⟩ := yields_leaf.1 hm
        exact ⟨op, s, [], yields_leafOperand.2 ⟨hop, rfl, rfl⟩⟩
    · obtain ⟨-, rfl, -⟩ := yields_leafOperand.1 hm
      exact hs
  | _ => simp [leaf?] at hleaf

/-- An operation on two values needs nothing but them. By cases on which side needs more registers,
since that side is computed first. -/
theorem joined (hl : left.Accepted S regs P) (hr : right.Accepted S regs Q)
    (hleft : 1 ≤ left.label) (hright : 1 ≤ right.label) (line : Line) (op : BinOp) :
    (Tree.joined line op left right).Accepted S regs (P ∧ Q) := by
  intro free hstack hfree hlabel
  obtain ⟨hlfree, hrfree, -⟩ := joinLabels_le_iff.1 hlabel
  obtain ⟨a, rest, rfl⟩ := List.exists_cons_of_ne_nil hfree
  have hleft' := hl hstack hfree hlfree
  rw [Tree.joined, Tree.lower_binary]
  refine hstack.requireRegs_andThen hlabel ?_
  -- a leaf on the right is an operand, and needs no register of its own
  rcases hleaf : right.leaf? with _ | ⟨leafLine, leaf⟩
  · dsimp only
    obtain ⟨b, rest, rfl, hlsecond, hrsecond⟩ := exists_second hleft hright hlabel
    -- the side that needs more registers comes first, when all of them are free
    by_cases hlt : left.label < right.label
    · rw [if_pos hlt]
      have hright' := hr hstack.swap (List.cons_ne_nil _ _) hrfree
      have hleft' := hl hstack.swap.tail (List.cons_ne_nil _ _) (hlsecond hlt)
      refine Accepts.congr ?_ and_comm
      refine accepts_swapTop.andThen fun _ => ?_
      refine hright'.bind fun _ => ?_
      refine accepts_allocate.andThen_eq ?_
      refine hleft'.finish fun _ => ?_
      refine accepts_target.andThen_eq ?_
      refine accepts_combine.andThen fun _ => ?_
      exact (accepts_free hstack.swap.mem hstack.swap.not_mem).andThen fun _ => accepts_swapTop
    · rw [if_neg hlt]
      have hright' := hr hstack.tail (List.cons_ne_nil _ _) (hrsecond hlt)
      refine hleft'.bind fun _ => ?_
      refine accepts_allocate.andThen_eq ?_
      refine hright'.finish fun _ => ?_
      refine accepts_target.andThen_eq ?_
      refine accepts_combine.andThen fun _ => ?_
      exact accepts_free hstack.mem hstack.not_mem
  · dsimp only
    have hoperand := hr.operand hleaf hstack hfree hrfree
    refine hleft'.bind fun _ => ?_
    refine hoperand.finish fun _ => ?_
    exact accepts_target.andThen_eq accepts_combine

end Accepted

end Tree

/-! ## Calls -/

theorem accepts_saveAll (depth : Nat) : ∀ held : List Reg,
    Accepts (Within S regs free) (saveAll depth held) True fun _ => Within S regs free
  | [] => accepts_pure fun _ hs => hs
  | r :: rest => by
    rw [saveAll]
    refine (accepts_tempOperand (.save r (Nat.zero_le depth))).andThen fun slot => ?_
    refine accepts_emit.andThen fun _ => ?_
    exact (accepts_saveAll depth rest).andThen fun _ => accepts_pure fun _ hs => hs

/-- Registers of the pool can be claimed if they are free. Registers that are no members are passed
over, so the condition leaves them out. -/
theorem exists_claim : ∀ (wanted : List Reg) {s : State}, wanted.Nodup →
    (∀ q ∈ wanted, q ∈ s.pool.members → q ∈ s.pool.free) →
    ∃ claimed s', (claim wanted).Yields s claimed s' []
  | [], s, _, _ => ⟨[], s, yields_pure.2 ⟨rfl, rfl, rfl⟩⟩
  | r :: rest, s, hnodup, hfree => by
    rw [List.nodup_cons] at hnodup
    simp only [claim, yields_get_bind]
    by_cases hr : r ∈ s.pool.members
    -- By `hfree` a wanted register of the pool can be taken; the others are still free by `hne`.
    · have htake := take_eq_ok_iff.2 ⟨hr, hfree r List.mem_cons_self hr, rfl⟩
      obtain ⟨claimed, s', hrest⟩ := exists_claim rest
        (s := s.withPool (s.pool.moved (s.pool.free.erase r) 1 0)) hnodup.2 fun q hq hmem => by
          have hne : q ≠ r := fun e => hnodup.1 (e ▸ hq)
          exact (List.mem_erase_of_ne hne).2 (hfree q (List.mem_cons_of_mem r hq) hmem)
      refine ⟨r :: claimed, s', ?_⟩
      rw [if_pos hr]
      refine yields_bind.2 ⟨(), _, [], [], yields_changePool.2 ⟨_, htake, rfl, rfl⟩, ?_, rfl⟩
      exact yields_bind.2 ⟨claimed, s', [], [], hrest, yields_pure.2 ⟨rfl, rfl, rfl⟩, rfl⟩
    · rw [if_neg hr]
      exact exists_claim rest hnodup.2 fun q hq => hfree q (List.mem_cons_of_mem r hq)

theorem exists_freeAll : ∀ (taken : List Reg) {s : State}, taken.Nodup →
    (∀ q ∈ taken, q ∈ s.pool.members ∧ q ∉ s.pool.free) →
    ∃ s', (release.freeAll taken).Yields s () s' []
  | [], s, _, _ => ⟨s, yields_pure.2 ⟨rfl, rfl, rfl⟩⟩
  | r :: rest, s, hnodup, htaken => by
    rw [List.nodup_cons] at hnodup
    obtain ⟨hmem, hnew⟩ := htaken r List.mem_cons_self
    -- The registers are distinct, so that the others are still not free afterwards.
    obtain ⟨s', hrest⟩ := exists_freeAll rest
      (s := s.withPool (s.pool.moved (r :: s.pool.free) 0 1)) hnodup.2 fun q hq => by
        obtain ⟨hq', hnew'⟩ := htaken q (List.mem_cons_of_mem r hq)
        have hne : q ≠ r := fun e => hnodup.1 (e ▸ hq)
        exact ⟨hq', by simpa [hne] using hnew'⟩
    rw [release.freeAll]
    exact ⟨s', yields_bind.2 ⟨(), _, [], [], yields_free.2 ⟨hmem, hnew, rfl, rfl⟩, hrest, rfl⟩⟩

/-- Registers that were claimed can be put back. None of them can be free already, since `hnodup`
excludes that a register was there twice. -/
theorem exists_release_of_claim {wanted claimed : List Reg} {s s₁ : State} {c : List Inst}
    (hnodup : s.pool.free.Nodup) (hclaim : (claim wanted).Yields s claimed s₁ c) :
    ∃ s', (release claimed).Yields s₁ () s' [] := by
  obtain ⟨-, hclaimed, left, hleft, rfl⟩ := claim_spec hclaim
  -- What was claimed and what is left were free together, so they have no register in common.
  have hall := hleft.nodup_iff.2 hnodup
  rw [List.nodup_append] at hall
  refine exists_freeAll claimed.reverse ((List.reverse_perm claimed).nodup_iff.2 hall.1) fun q hq => ?_
  rw [List.mem_reverse] at hq
  refine ⟨?_, fun hfree => hall.2.2 q hq q hfree rfl⟩
  rw [hclaimed] at hq
  simpa using (List.mem_filter.1 hq).2

/-- When all registers are free, some of them can be taken for a call and given back after it. -/
theorem exists_claim_release {s : State} (hnodup : s.pool.members.Nodup)
    (hperm : s.pool.free.Perm s.pool.members) (wanted : List Reg) (hwanted : wanted.Nodup) :
    ∃ claimed s₁ s', (claim wanted).Yields s claimed s₁ [] ∧
      (release claimed).Yields s₁ () s' [] := by
  obtain ⟨claimed, s₁, hclaim⟩ := exists_claim wanted hwanted fun q _ hq => hperm.mem_iff.2 hq
  obtain ⟨s', hrelease⟩ := exists_release_of_claim (hperm.nodup_iff.2 hnodup) hclaim
  exact ⟨claimed, s₁, s', hclaim, hrelease⟩

theorem State.Ready.exists_claim_release {s : State} (hregs : regs.Nodup) (hs : s.Ready S regs)
    (wanted : List Reg) (hwanted : wanted.Nodup) : ∃ claimed s₁ s',
      (claim wanted).Yields s claimed s₁ [] ∧ (release claimed).Yields s₁ () s' [] := by
  obtain ⟨free, hperm, hs⟩ := hs
  refine Lowering.exists_claim_release ?_ ?_ wanted hwanted
  · rwa [hs.members]
  · rwa [hs.free, hs.members]

theorem State.Ready.claim_release {s s₁ s' : State} {wanted claimed : List Reg} {u : Unit}
    {c₁ c₂ : List Inst} (hs : s.Ready S regs) (hclaim : (claim wanted).Yields s claimed s₁ c₁)
    (hrelease : (release claimed).Yields s₁ u s' c₂) : s'.Ready S regs := by
  obtain ⟨free, hperm, hs⟩ := hs
  obtain ⟨_, rfl, free', n, hperm', rfl⟩ := claim_release_even hclaim hrelease
  rw [hs.free] at hperm'
  have hs' := hs.withPool (p := s.pool.moved free' n n) rfl rfl
  exact hs'.ready (hperm'.trans hperm)

/-- A call can be made if its arguments can be staged and are not too many. -/
theorem accepts_callRoutine (hregs : regs.Nodup) {callee : String} {count : Nat} {line : Line}
    {stage : Nat → Gen (List Operand)} (hstage : ∀ depth free, free.Perm regs →
      Accepts (Within S regs free) (stage depth) Q fun _ => Within S regs free) :
    Accepts (Ready S regs) (callRoutine callee count line stage)
      (count ≤ Convention.maxArguments ∧ Q) fun _ => Ready S regs := by
  have hargs (n : Nat) : (Convention.argumentRegs.take n).Nodup :=
    List.Nodup.sublist (List.take_sublist n _) (by decide)
  refine ⟨fun {s} hs => ?_, fun {s} _ _ _ hs h => ?_⟩
  · obtain ⟨free, hperm, hs⟩ := hs
    have hinner : State.Within S regs free { s with callDepth := s.callDepth + 1 } := hs.congr rfl rfl
    have hstage' := hstage s.callDepth free hperm
    -- staging is all that can go wrong, since what is claimed has been free
    constructor
    · rintro ⟨_, _, _, h⟩
      obtain ⟨hcount, operands, s₁, _, c₁, _, hargs, -, -, -⟩ := yields_callRoutine.1 h
      exact ⟨hcount, (hstage'.yields_iff hinner).1 ⟨operands, s₁, c₁, hargs⟩⟩
    · rintro ⟨hcount, hQ⟩
      obtain ⟨operands, s₁, c₁, hstaged⟩ := (hstage'.yields_iff hinner).2 hQ
      have hs₁ : State.Within S regs free { s₁ with callDepth := s₁.callDepth - 1 } :=
        (hstage'.after hinner hstaged).congr rfl rfl
      obtain ⟨claimed, s₂, s', hclaim, hrelease⟩ :=
        (hs₁.ready hperm).exists_claim_release hregs _ (hargs operands.length)
      exact ⟨(), s', _, yields_callRoutine.2
        ⟨hcount, operands, s₁, s₂, c₁, claimed, hstaged, hclaim, hrelease, rfl⟩⟩
  · obtain ⟨free, hperm, hs⟩ := hs
    obtain ⟨-, operands, s₁, s₂, c₁, claimed, hstaged, hclaim, hrelease, -⟩ :=
      yields_callRoutine.1 h
    have hinner : State.Within S regs free { s with callDepth := s.callDepth + 1 } := hs.congr rfl rfl
    have hs₁ := (hstage s.callDepth free hperm).after hinner hstaged
    have hs₂ : State.Within S regs free { s₁ with callDepth := s₁.callDepth - 1 } :=
      hs₁.congr rfl rfl
    exact (hs₂.ready hperm).claim_release hclaim hrelease

/-- Inside an expression, a call finds the whole pool free, and afterwards the registers that were free
before. -/
theorem accepts_callValue (hregs : regs.Nodup) {callee : String} {count : Nat} {line : Line}
    {dest : Reg} {stage : Nat → Gen (List Operand)} (hstage : ∀ depth free, free.Perm regs →
      Accepts (Within S regs free) (stage depth) Q fun _ => Within S regs free) :
    Accepts (Within S regs free) (callValue callee count line dest stage)
      (Builtin.ofName? callee = none ∧ count ≤ Convention.maxArguments ∧ Q)
      fun _ => Within S regs free := by
  have hcall : Accepts (Ready S regs) (callRoutine callee count line stage)
      (count ≤ Convention.maxArguments ∧ Q) fun _ => Ready S regs :=
    accepts_callRoutine hregs hstage
  -- what is in use is saved first, so the call itself finds the pool full
  have hreset {s : State} (hs : s.Within S regs free) : (s.withPool s.pool.reset).Ready S regs :=
    (hs.withPool (p := s.pool.reset) rfl hs.members).ready (.refl regs)
  refine ⟨fun {s} hs => ?_, fun {s} _ _ _ hs h => ?_⟩
  · constructor
    · rintro ⟨_, _, _, h⟩
      obtain ⟨hbuiltin, saved, s₁, s₂, c₁, c₂, hsaved, hcalled, -⟩ := yields_callValue.1 h
      have hs₁ := (accepts_saveAll ..).after hs hsaved
      exact ⟨hbuiltin, (hcall.yields_iff (hreset hs₁)).1 ⟨(), s₂, c₂, hcalled⟩⟩
    · rintro ⟨hbuiltin, hQ⟩
      obtain ⟨saved, s₁, c₁, hsaved⟩ :=
        ((accepts_saveAll s.callDepth s.pool.held).yields_iff hs).2 trivial
      have hs₁ := (accepts_saveAll ..).after hs hsaved
      obtain ⟨_, s₂, c₂, hcalled⟩ := (hcall.yields_iff (hreset hs₁)).2 hQ
      exact ⟨(), _, _, yields_callValue.2
        ⟨hbuiltin, saved, s₁, s₂, c₁, c₂, hsaved, hcalled, rfl, rfl⟩⟩
  · obtain ⟨-, saved, s₁, s₂, c₁, c₂, hsaved, hcalled, rfl, -⟩ := yields_callValue.1 h
    have hs₁ := (accepts_saveAll ..).after hs hsaved
    obtain ⟨_, -, hs₂⟩ := hcall.after (hreset hs₁) hcalled
    exact hs₂.withPool rfl hs₁.free

theorem Tree.accepted_call (hregs : regs.Nodup) {args : List Arg}
    (hstage : ∀ depth free, free.Perm regs → Accepts (Within S regs free)
      (Arg.stageAll depth 0 args) Q fun _ => Within S regs free)
    (label : Nat) (line : Line) (callee : String) :
    (Tree.call label line callee args).Accepted S regs
      (Builtin.ofName? callee = none ∧ args.length ≤ Convention.maxArguments ∧ Q) := by
  intro free hstack hfree hlabel
  obtain ⟨r, rest, rfl⟩ := List.exists_cons_of_ne_nil hfree
  rw [Tree.lower]
  -- The label of a call is 1, which `hlabel` grants; the rest is up to the call.
  exact hstack.requireRegs_andThen hlabel
    (accepts_target.andThen_eq (accepts_callValue hregs hstage))

/-! ## Values in registers -/

theorem Pool.Restored.balance {p q : Pool} (h : p.Restored q) :
    q.balance p.checkpoint 0 = .ok () := by
  obtain ⟨n, rfl⟩ := h
  simp [Pool.balance, Pool.checkpoint, Pool.moved]

theorem Pool.Taken.balance {p q : Pool} {r : Reg} (h : p.Taken q r) :
    q.balance p.checkpoint 1 = .ok () := by
  obtain ⟨rest, n, -, rfl⟩ := h
  simp [Pool.balance, Pool.checkpoint, Pool.moved]

/-- The counts of a pool never show anything wrong. They are compared before the register of the
value is taken and after it, and agree both times by `hsettled`. -/
theorem accepts_compute {t : Tree} (ht : t.Accepted S regs Q) (hsettled : t.Settled)
    (hstack : Stack regs (r :: rest)) (hlabel : t.label ≤ (r :: rest).length) (line : Line) :
    Accepts (Within S regs (r :: rest)) (compute line t.lower) Q
      fun q s => q = r ∧ s.Within S regs rest := by
  have ht' := ht hstack (List.cons_ne_nil r rest) hlabel
  refine ⟨fun {s} hs => ⟨?_, fun hQ => ?_⟩, fun {s q s' c} hs h => ?_⟩
  · rintro ⟨q, s', c, h⟩
    obtain ⟨s₁, hm, -⟩ := yields_compute.1 h
    exact (ht'.yields_iff hs).1 ⟨(), s₁, c, hm⟩
  -- The balance is kept because the tree is settled: `hrestored` before and `htaken` after.
  · obtain ⟨_, s₁, c, hm⟩ := (ht'.yields_iff hs).2 hQ
    obtain ⟨-, hrestored, -⟩ := hsettled hm
    have htaken : s.pool.Taken (s₁.pool.moved rest 1 0) r := by
      obtain ⟨n, hn⟩ := hrestored
      exact ⟨rest, n, hs.free, by simp [hn]⟩
    have halloc := yields_allocate.2 ⟨rest, (ht'.after hs hm).free, rfl, rfl⟩
    exact ⟨r, _, c, yields_compute.2 ⟨s₁, hm, hrestored.balance, halloc, htaken.balance⟩⟩
  · obtain ⟨hsteady, ⟨rest', n, hfree, hpool⟩, -⟩ := compute_steady hsettled h
    obtain ⟨rfl, rfl⟩ := List.cons.inj (hs.free.symm.trans hfree)
    exact ⟨rfl, hs.of_grows hsteady.scopes (by rw [hpool]; rfl) (by rw [hpool]; rfl)⟩

theorem accepts_warnAll {ws : List Warning} :
    Accepts (Within S regs free) (warnAll ws) True fun _ => Within S regs free :=
  .always fun _ hs => ⟨(), _, [], yields_modify.2 ⟨rfl, rfl⟩, hs.congr rfl rfl⟩

theorem Tree.label_le_of_yields {t : Tree} {s s' : State} {u : Unit} {c : List Inst}
    (h : t.lower.Yields s u s' c) : t.label ≤ s.pool.capacity := by
  cases t <;> rw [Tree.lower, yields_requireRegs_bind] at h <;> exact h.1

end Lowering

namespace Expr

variable {S : List String} {regs free rest : List Reg} {r : Reg}

/-- Computable values have trees. The converse does not hold, since a tree may need more registers
than there are. -/
theorem Computable.exists_ready {k : Nat} : ∀ {e : Expr}, e.Computable S k → ∀ operand : Bool,
    ∃ ws t, Plan.ofExpr operand e = .ready ws t
  | var .., _, _ | integer .., _, _ | real .., _, _ | call .., _, _ => ⟨_, _, rfl⟩
  | sign line e, h, _ => by
    rw [Computable] at h
    obtain ⟨ws, t, hready⟩ := h.exists_ready true
    exact ⟨ws, t.negated line, Plan.negated_eq_ready_iff.2 ⟨t, hready, rfl⟩⟩
  | add line op left right, h, _ => by
    rw [Computable] at h
    obtain ⟨ws, t, hleft⟩ := h.1.exists_ready true
    obtain ⟨ws', u, hright⟩ := h.2.exists_ready true
    exact ⟨_, _, Plan.joined_eq_ready_iff.2 ⟨ws, ws', t, u, hleft, hright, rfl, rfl⟩⟩
  | mul line op left right, h, _ => by
    rw [Computable] at h
    obtain ⟨ws, t, hleft⟩ := h.1.exists_ready true
    obtain ⟨ws', u, hright⟩ := h.2.exists_ready true
    simp only [Plan.ofExpr, hleft, hright, Plan.joined]
    -- a warning changes nothing about the tree
    split
    · exact ⟨_, _, rfl⟩
    · exact ⟨_, _, rfl⟩
  | element .., h, _ | relational .., h, _ | logical .., h, _ | not .., h, _ => by
    simp [Computable] at h

end Expr

namespace Lowering

variable {S : List String} {regs free rest : List Reg} {r : Reg}

/-- With all registers free, a whole value can be computed exactly if it is supported. The tree is
given by `htree` as accepted already; what is added is the check of the registers and the warnings.
-/
theorem accepts_plan_lower (hregs : regs.Nodup) (hperm : (r :: rest).Perm regs) {e : Expr}
    (htree : ∀ {ws t}, Plan.ofExpr false e = .ready ws t →
      t.Accepted S regs (e.Computable S regs.length)) (line : Line) :
    Accepts (Within S regs (r :: rest)) ((Plan.ofExpr false e).lower line)
      (e.Supported S regs.length) fun q s => q = r ∧ s.Within S regs rest := by
  rcases hplan : Plan.ofExpr false e with ⟨ws, t⟩ | ⟨ws, construct, place⟩
  · have hlabel : t.label = e.registers false := Expr.label_of_ready hplan
    rw [Plan.lower]
    refine accepts_warnAll.andThen fun _ => ?_
    -- a tree that is too large fails, whatever it is made of
    rcases Nat.lt_or_ge regs.length (e.registers false) with hmany | hfew
    · refine Accepts.congr (.never fun hs h => ?_) (iff_of_false not_false fun h => ?_)
      · obtain ⟨s₁, hm, -⟩ := yields_compute.1 h
        have hle := Tree.label_le_of_yields hm
        rw [Pool.capacity, hs.members, hlabel] at hle
        omega
      · exact Nat.not_le.2 hmany h.2
    · refine (accepts_compute (htree hplan) (Expr.settled_of_ready hplan) (.of_perm hregs hperm) ?_
        line).congr (and_iff_left hfew).symm
      rw [hlabel, hperm.length_eq]
      exact hfew
  · refine Accepts.congr (.never fun _ h => yields_lower_rejected.1 h)
      (iff_of_false not_false fun h => ?_)
    obtain ⟨_, _, hready⟩ := h.1.exists_ready false
    rw [hplan] at hready
    exact nomatch hready

/-- A computed argument leaves its register free. Its value is in a temporary by then, so the next
argument has the same registers. -/
theorem accepts_stage_computed (hregs : regs.Nodup) (hne : regs ≠ []) (hperm : free.Perm regs)
    {e : Expr} (htree : ∀ {ws t}, Plan.ofExpr false e = .ready ws t →
      t.Accepted S regs (e.Computable S regs.length)) (depth index : Nat) (line : Line) :
    Accepts (Within S regs free) ((Arg.computed line (Plan.ofExpr false e)).stage depth index)
      (e.Supported S regs.length) fun _ => Within S regs free := by
  obtain ⟨r, rest, rfl⟩ := Stack.exists_top hne hperm
  have hstack : Stack regs (r :: rest) := .of_perm hregs hperm
  rw [Arg.stage]
  -- The register that the plan takes is given back once it is stored.
  refine (accepts_plan_lower hregs hperm htree line).finish_eq ?_
  refine (accepts_tempOperand (.argument index (Nat.zero_le depth))).andThen fun slot => ?_
  refine accepts_emit.andThen fun _ => ?_
  exact (accepts_free hstack.mem hstack.not_mem).andThen fun _ => accepts_pure fun _ hs => hs

/-- An argument can be staged if it can be passed. Numbers and strings can always be passed; an
array never can. -/
theorem accepts_stage (hregs : regs.Nodup) (hne : regs ≠ []) (hperm : free.Perm regs) {e : Expr}
    (hnames : Apart S e.identifiers)
    (htree : ∀ {ws t}, Plan.ofExpr false e = .ready ws t →
      t.Accepted S regs (e.Computable S regs.length)) (depth index : Nat) :
    Accepts (Within S regs free) ((Arg.ofPlan e (Plan.ofExpr false e)).stage depth index)
      (e.Supported S regs.length) fun _ => Within S regs free := by
  cases e with
  | var line x =>
    rw [Arg.ofPlan, Arg.stage]
    exact (accepts_varOperand (hnames x List.mem_cons_self)).congr
      (and_iff_left (Nat.zero_le _)).symm
  | integer line value =>
    rw [Arg.ofPlan, Arg.stage]
    refine Accepts.congr (accepts_pure fun _ hs => hs) (iff_of_true trivial ?_)
    exact ⟨trivial, Nat.zero_le _⟩
  -- An element of an array can neither be passed nor is it supported.
  | element line array index =>
    rw [Arg.ofPlan, Arg.stage]
    exact accepts_fail.congr (iff_of_false not_false fun h => h.1)
  | _ => exact accepts_stage_computed hregs hne hperm htree depth index _

theorem accepts_stageAll (hregs : regs.Nodup) (hne : regs ≠ []) (hperm : free.Perm regs) :
    ∀ {es : List Expr}, Apart S (Expr.identifiersAll es) →
    (∀ e ∈ es, ∀ {ws t}, Plan.ofExpr false e = .ready ws t →
      t.Accepted S regs (e.Computable S regs.length)) → ∀ depth index,
    Accepts (Within S regs free) (Arg.stageAll depth index (Arg.ofExprs es))
      (Expr.Passable S regs.length es) fun _ => Within S regs free
  | [], _, _, depth, index => by
    rw [Arg.ofExprs, Arg.stageAll]
    exact accepts_pure fun _ hs => hs
  | e :: rest, hnames, htree, depth, index => by
    rw [Expr.identifiersAll] at hnames
    have hfirst := accepts_stage hregs hne hperm hnames.left (htree e List.mem_cons_self) depth index
    have hothers := accepts_stageAll hregs hne hperm hnames.right
      (fun e' he => htree e' (List.mem_cons_of_mem e he)) depth (index + 1)
    rw [Arg.ofExprs, Arg.stageAll, Expr.Passable]
    -- Each argument leaves the registers as they were, so the next one is asked the same.
    exact hfirst.bind fun _ => hothers.finish fun _ => accepts_pure fun _ hs => hs

end Lowering

namespace Expr

variable {S : List String} {regs free rest : List Reg} {r : Reg}

/-- The tree of an expression is accepted exactly if the expression is computable. By induction on
the expression, with the arguments of its calls among its parts. -/
theorem accepted_of_ready (hregs : regs.Nodup) (hne : regs ≠ []) {e : Expr} {operand : Bool}
    {ws : List Warning} {t : Tree} (hready : Plan.ofExpr operand e = .ready ws t) (hnames : Apart S e.identifiers) :
    t.Accepted S regs (e.Computable S regs.length) := by
  -- the labels of operands are needed on the way, since a second register is taken only for them
  suffices h : (operand = true → 1 ≤ t.label) ∧
      (Apart S e.identifiers → t.Accepted S regs (e.Computable S regs.length)) from h.2 hnames
  refine tree_induction (motive := fun operand e t => (operand = true → 1 ≤ t.label) ∧
      (Apart S e.identifiers → t.Accepted S regs (e.Computable S regs.length)))
    ?var ?integer ?real ?call ?sign ?add ?mul e hready
  case var =>
    intro operand line x
    refine ⟨fun h => by simp [h, Tree.label, Tree.leafLabel], fun hnames => ?_⟩
    exact Tree.accepted_var (hnames x List.mem_cons_self) ..
  case integer =>
    intro operand line value
    exact ⟨fun h => by simp [h, Tree.label, Tree.leafLabel], fun _ => Tree.accepted_int ..⟩
  case real =>
    intro operand line value
    exact ⟨fun h => by simp [h, Tree.label, Tree.leafLabel], fun _ => Tree.accepted_int ..⟩
  case call =>
    intro operand line callee args ih
    refine ⟨fun h => by simp [h, Tree.label, Tree.leafLabel], fun hnames => ?_⟩
    have hargs : Apart S (identifiersAll args) := hnames.mono fun x hx => List.mem_cons_of_mem _ hx
    have hstage (depth : Nat) (free : List Reg) (hperm : free.Perm regs) :=
      Lowering.accepts_stageAll hregs hne hperm hargs (fun e he ws t hplan =>
        (ih e he hplan).2 (hargs.mono (identifiers_subset_of_mem he))) depth 0
    have hlength : (Arg.ofExprs args).length = args.length := by simp [Arg.ofExprs_eq_map]
    rw [Computable, ← hlength]
    exact Tree.accepted_call hregs hstage ..
  case sign =>
    intro operand line e t ih
    exact ⟨fun _ => ih.1 rfl, fun hnames => (ih.2 hnames).negated line⟩
  case add | mul =>
    intro operand line op left right t u hl hr
    refine ⟨fun _ => Tree.one_le_joinLabels (hl.1 rfl), fun hnames => ?_⟩
    rw [identifiers] at hnames
    rw [Computable]
    exact (hl.2 hnames.left).joined (hr.2 hnames.right) (hl.1 rfl) (hr.1 rfl) line _

/-- With all registers free, a value can be computed into one of them exactly if it is supported. -/
theorem accepts_lower (hregs : regs.Nodup) (hne : regs ≠ []) (hperm : (r :: rest).Perm regs)
    {e : Expr} (hnames : Apart S e.identifiers) :
    Accepts (Within S regs (r :: rest)) e.lower (e.Supported S regs.length)
      fun q s => q = r ∧ s.Within S regs rest :=
  accepts_plan_lower hregs hperm (fun hready => accepted_of_ready hregs hne hready hnames) e.line

/-- Arguments can be staged exactly if each of them is supported. -/
theorem accepts_stageAll (hregs : regs.Nodup) (hne : regs ≠ []) (hperm : free.Perm regs)
    {args : List Expr} (hnames : Apart S (identifiersAll args)) (depth : Nat) :
    Accepts (Within S regs free) (stageAll args depth) (∀ e ∈ args, e.Supported S regs.length)
      fun _ => Within S regs free :=
  (Lowering.accepts_stageAll hregs hne hperm hnames (fun _ he _ _ hready => accepted_of_ready hregs
    hne hready (hnames.mono (identifiers_subset_of_mem he))) depth 0).congr passable_iff

end Expr

end PascalAsm
