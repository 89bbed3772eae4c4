import PascalAsm.Lowering.Statement
import PascalAsm.Proofs.Generator.Jumps

/-!
# The code of statements, form by form

For each form of a statement one lemma says exactly when its code can be made, and which pieces the
code consists of: `Stmt.yields_assign` and the lemmas after it. Every piece is the code of an
expression, a condition or another statement, or a few fixed instructions.
-/

namespace PascalAsm

open Assembly Lowering Gen State

namespace Lowering

theorem Gen.yields_varOperand_bind {β : Type} {name : String} {line : Line} {f : Operand → Gen β}
    {s s' : State} {b : β} {c : List Inst} :
    (varOperand name line >>= f).Yields s b s' c ↔
      ∃ slot, s.scopes.find? name = some slot ∧ (f slot.operand).Yields s b s' c := by
  simp only [yields_bind, yields_varOperand]
  constructor
  · rintro ⟨_, _, _, _, ⟨⟨slot, hf, rfl⟩, rfl, rfl⟩, h, rfl⟩
    exact ⟨slot, hf, h⟩
  · rintro ⟨slot, hf, h⟩
    exact ⟨slot.operand, s, [], c, ⟨⟨slot, hf, rfl⟩, rfl, rfl⟩, h, rfl⟩

namespace Gen

variable {s s' : State} {u : Unit} {c : List Inst}

/-- The line that names a statement, if that is wanted. It is the only thing that the option for
comments changes; where it is not wanted there is no instruction at all. -/
def heading (wanted : Bool) (line : Line) (summary : String) : List Inst :=
  if wanted then [.comment ("line " ++ toString line.toNat ++ ": " ++ summary)] else []

theorem yields_comment_bind {β : Type} {wanted : Bool} {line : Line} {summary : String}
    {f : Unit → Gen β} {b : β} :
    (comment wanted line summary >>= f).Yields s b s' c ↔
      ∃ c', (f ()).Yields s b s' c' ∧ c = heading wanted line summary ++ c' := by
  cases wanted with
  | true => exact yields_emit_bind
  | false => simp [comment, heading]

/-! ## Values stored, written and read -/

/-- The value is computed and stored into the slot of the variable. The slot is looked up before the
value is lowered, and the register is given back once the value is stored. -/
theorem yields_assignValue {line : Line} {target value : Expr} :
    (assignValue line target value).Yields s u s' c ↔
      ∃ x slot r s₁ c₁, target.varName? = some x ∧ s.scopes.find? x = some slot ∧
        value.lower.Yields s r s₁ c₁ ∧ (free r).Yields s₁ () s' [] ∧
        c = c₁ ++ [.movl (.reg r) slot.operand] := by
  cases target with
  | var varLine name =>
    simp only [assignValue, assignmentSlot, yields_varOperand_bind, Expr.varName?,
      Option.some.injEq]
    constructor
    · rintro ⟨slot, hf, h⟩
      obtain ⟨r, s₁, c₁, _, hr, h', rfl⟩ := yields_bind.1 h
      obtain ⟨_, h'', rfl⟩ := yields_emit_bind.1 h'
      obtain ⟨_, _, _, rfl⟩ := yields_free.1 h''
      exact ⟨name, slot, r, s₁, c₁, rfl, hf, hr, h'', rfl⟩
    · rintro ⟨_, slot, r, s₁, c₁, rfl, hf, hr, hfree, rfl⟩
      exact ⟨slot, hf, yields_bind.2 ⟨r, s₁, c₁, _, hr, yields_emit_bind.2 ⟨[], hfree, rfl⟩, rfl⟩⟩
  -- Only a variable can be assigned to: for every other target both sides are false.
  | _ => simp [assignValue, assignmentSlot, yields_bind, Expr.varName?]

/-- A call of the runtime library takes its two registers for as long as it lasts. -/
theorem yields_callLibrary {symbol : String} {load : List Inst} :
    (callLibrary symbol load).Yields s u s' c ↔
      ∃ claimed s₁, (claim [.rdi, .rsi]).Yields s claimed s₁ [] ∧
        (release claimed).Yields s₁ () s' [] ∧
        c = load ++ [clear Convention.vectorCountReg, .call symbol] := by
  rw [callLibrary]
  constructor
  · intro h
    obtain ⟨claimed, s₁, _, _, hc, h', rfl⟩ := yields_bind.1 h
    obtain ⟨_, hr, rfl⟩ := yields_emit_bind.1 h'
    -- Claiming and releasing give no code, so all of it is `load` and the call.
    obtain rfl := (claim_spec hc).1
    obtain rfl := (release_spec hr).1
    exact ⟨claimed, s₁, hc, hr, by simp⟩
  · rintro ⟨claimed, s₁, hc, hr, rfl⟩
    exact yields_bind.2 ⟨claimed, s₁, [], _, hc, yields_emit_bind.2 ⟨[], hr, by simp⟩, rfl⟩

theorem yields_writeReg {r : Reg} :
    (writeReg r).Yields s u s' c ↔ ∃ s₁ c', (free r).Yields s () s₁ [] ∧
      (callLibrary Runtime.printf [.leaq (.rip Runtime.writeFormat) .rdi]).Yields s₁ () s' c' ∧
      c = .movl (.reg r) (.reg .rsi) :: c' := by
  rw [writeReg, yields_emit_bind]
  simp only [yields_bind]
  constructor
  · rintro ⟨_, ⟨_, s₁, _, c', hf, hl, rfl⟩, rfl⟩
    obtain ⟨-, -, -, rfl⟩ := yields_free.1 hf
    exact ⟨s₁, c', hf, hl, rfl⟩
  · rintro ⟨s₁, c', hf, hl, rfl⟩
    exact ⟨c', ⟨(), s₁, [], c', hf, hl, rfl⟩, rfl⟩

theorem yields_writeAll_nil : (writeAll []).Yields s u s' c ↔ s' = s ∧ c = [] := by
  simp [writeAll]

theorem yields_writeAll_cons {e : Expr} {rest : List Expr} :
    (writeAll (e :: rest)).Yields s u s' c ↔ ∃ r s₁ s₂ c₁ c₂ c₃, e.lower.Yields s r s₁ c₁ ∧
      (writeReg r).Yields s₁ () s₂ c₂ ∧ (writeAll rest).Yields s₂ () s' c₃ ∧
      c = c₁ ++ (c₂ ++ c₃) := by
  rw [writeAll]
  simp only [yields_bind]
  constructor
  · rintro ⟨r, s₁, c₁, _, hr, ⟨_, s₂, c₂, c₃, hw, hrest, rfl⟩, rfl⟩
    exact ⟨r, s₁, s₂, c₁, c₂, c₃, hr, hw, hrest, rfl⟩
  · rintro ⟨r, s₁, s₂, c₁, c₂, c₃, hr, hw, hrest, rfl⟩
    exact ⟨r, s₁, c₁, _, hr, ⟨(), s₂, c₂, c₃, hw, hrest, rfl⟩, rfl⟩

theorem yields_readAll_nil {line : Line} : (readAll line []).Yields s u s' c ↔ s' = s ∧ c = [] := by
  simp [readAll]

theorem yields_readAll_cons {line : Line} {e : Expr} {rest : List Expr} :
    (readAll line (e :: rest)).Yields s u s' c ↔ ∃ x slot s₁ c₁ c₂, e.varName? = some x ∧
      s.scopes.find? x = some slot ∧ (readSlot slot.operand).Yields s () s₁ c₁ ∧
      (readAll line rest).Yields s₁ () s' c₂ ∧ c = c₁ ++ c₂ := by
  cases e with
  | var varLine name =>
    simp only [readAll, readTarget, yields_varOperand_bind, Expr.varName?, Option.some.injEq]
    constructor
    · rintro ⟨slot, hf, h⟩
      obtain ⟨_, s₁, c₁, c₂, hr, hrest, rfl⟩ := yields_bind.1 h
      exact ⟨name, slot, s₁, c₁, c₂, rfl, hf, hr, hrest, rfl⟩
    · rintro ⟨_, slot, s₁, c₁, c₂, rfl, hf, hr, hrest, rfl⟩
      exact ⟨slot, hf, yields_bind.2 ⟨(), s₁, c₁, c₂, hr, hrest, rfl⟩⟩
  | _ => simp [readAll, readTarget, yields_bind, Expr.varName?]

/-! ## Loops -/

/-- A loop starts at its test, which stands behind the body and jumps back to it. -/
theorem yields_loop {condition : Expr} {body : Gen Unit} :
    (loop condition body).Yields s u s' c ↔ ∃ s₁ c₁ c₂,
      body.Yields (s.draw 2) () s₁ c₁ ∧
      (condition.jumpWhen true (localLabel s.labels)).Yields s₁ () s' c₂ ∧
      c = .jmp (localLabel (s.labels + 1)) :: .label (localLabel s.labels) ::
        (c₁ ++ .label (localLabel (s.labels + 1)) :: c₂) := by
  rw [loop, yields_newLabel_bind, yields_newLabel_bind, yields_emit_bind]
  -- The two labels are drawn first; they bound what the body may draw.
  constructor
  · rintro ⟨_, h, rfl⟩
    obtain ⟨_, s₁, c₁, _, hb, h', rfl⟩ := yields_bind.1 h
    obtain ⟨c₂, hc, rfl⟩ := yields_emit_bind.1 h'
    exact ⟨s₁, c₁, c₂, hb, hc, rfl⟩
  · rintro ⟨s₁, c₁, c₂, hb, hc, rfl⟩
    exact ⟨_, yields_bind.2 ⟨(), s₁, c₁, _, hb, yields_emit_bind.2 ⟨c₂, hc, rfl⟩, rfl⟩, rfl⟩

end Gen

end Lowering

/-! ## Statements -/

namespace Stmt

variable {comments : Bool} {line : Line} {s s' : State} {u : Unit} {c : List Inst}

theorem yields_assign {target value : Expr} :
    ((assign line target value).lower comments).Yields s u s' c ↔
      ∃ c', (assignValue line target value).Yields s () s' c' ∧
        c = heading comments line (assignText target value) ++ c' := by
  rw [Stmt.lower]
  exact yields_comment_bind

theorem yields_call {callee : String} {args : List Expr} :
    ((call line callee args).lower comments).Yields s u s' c ↔
      ∃ c', (callProcedure line callee args).Yields s () s' c' ∧
        c = heading comments line (Expr.callText callee args) ++ c' := by
  rw [Stmt.lower]
  exact yields_comment_bind

theorem yields_compound {body : List Stmt} :
    ((compound line body).lower comments).Yields s u s' c ↔
      (Stmt.lowerAll comments body).Yields s u s' c := by
  rw [Stmt.lower]
  exact Iff.rfl

theorem yields_ifThen {condition : Expr} {thenBranch : Stmt} :
    ((ifThen line condition thenBranch).lower comments).Yields s u s' c ↔ ∃ s₁ c₁ c₂,
      (condition.jumpWhen false (localLabel s.labels)).Yields (s.draw 1) () s₁ c₁ ∧
      (thenBranch.lower comments).Yields s₁ () s' c₂ ∧
      c = heading comments line ("if " ++ condition.text ++ " then ...") ++
        (c₁ ++ (c₂ ++ [.label (localLabel s.labels)])) := by
  rw [Stmt.lower]
  refine yields_comment_bind.trans ?_
  constructor
  · rintro ⟨_, h, rfl⟩
    obtain ⟨_, s₁, c₁, _, hc, h', rfl⟩ := yields_bind.1 (yields_newLabel_bind.1 h)
    obtain ⟨_, s₂, c₂, _, ht, he, rfl⟩ := yields_bind.1 h'
    obtain ⟨rfl, rfl⟩ := yields_emit.1 he
    exact ⟨s₁, c₁, c₂, hc, ht, rfl⟩
  · rintro ⟨s₁, c₁, c₂, hc, ht, rfl⟩
    refine ⟨_, yields_newLabel_bind.2 (yields_bind.2 ⟨(), s₁, c₁, _, hc, ?_, rfl⟩), rfl⟩
    exact yields_bind.2 ⟨(), s', c₂, _, ht, yields_emit.2 ⟨rfl, rfl⟩, rfl⟩

/-- The label behind the whole statement is drawn after the code of the first branch was made. -/
theorem yields_ifElse {condition : Expr} {thenBranch elseBranch : Stmt} :
    ((ifElse line condition thenBranch elseBranch).lower comments).Yields s u s' c ↔
      ∃ s₁ s₂ c₁ c₂ c₃,
        (condition.jumpWhen false (localLabel s.labels)).Yields (s.draw 1) () s₁ c₁ ∧
        (thenBranch.lower comments).Yields s₁ () s₂ c₂ ∧
        (elseBranch.lower comments).Yields (s₂.draw 1) () s' c₃ ∧
        c = heading comments line ("if " ++ condition.text ++ " then ... else ...") ++
          (c₁ ++ (c₂ ++ (.jmp (localLabel s₂.labels) :: .label (localLabel s.labels) ::
            (c₃ ++ [.label (localLabel s₂.labels)])))) := by
  rw [Stmt.lower]
  refine yields_comment_bind.trans ?_
  -- Two labels: one before the condition, one after the code of the first branch.
  constructor
  · rintro ⟨_, h, rfl⟩
    obtain ⟨_, s₁, c₁, _, hc, h', rfl⟩ := yields_bind.1 (yields_newLabel_bind.1 h)
    obtain ⟨_, s₂, c₂, _, ht, h'', rfl⟩ := yields_bind.1 h'
    obtain ⟨_, h₃, rfl⟩ := yields_emit_bind.1 (yields_newLabel_bind.1 h'')
    obtain ⟨_, s₃, c₃, _, he, h₄, rfl⟩ := yields_bind.1 h₃
    obtain ⟨rfl, rfl⟩ := yields_emit.1 h₄
    exact ⟨s₁, s₂, c₁, c₂, c₃, hc, ht, he, rfl⟩
  · rintro ⟨s₁, s₂, c₁, c₂, c₃, hc, ht, he, rfl⟩
    refine ⟨_, yields_newLabel_bind.2 (yields_bind.2 ⟨(), s₁, c₁, _, hc, ?_, rfl⟩), rfl⟩
    refine yields_bind.2 ⟨(), s₂, c₂, _, ht, yields_newLabel_bind.2 ?_, rfl⟩
    refine yields_emit_bind.2 ⟨_, yields_bind.2 ⟨(), s', c₃, _, he, ?_, rfl⟩, rfl⟩
    exact yields_emit.2 ⟨rfl, rfl⟩

theorem yields_whileDo {condition : Expr} {body : Stmt} :
    ((whileDo line condition body).lower comments).Yields s u s' c ↔ ∃ c',
      (loop condition (body.lower comments)).Yields s () s' c' ∧
      c = heading comments line ("while " ++ condition.text ++ " do ...") ++ c' := by
  rw [Stmt.lower]
  exact yields_comment_bind

/-- A `for` statement has a line that names it, whatever it starts with. So the heading of the
statement is never left out for want of a text. -/
theorem exists_summary_forTo (line : Line) (init : ForInit) (limit : Expr) (body : Stmt) :
    ∃ summary, (forTo line init limit body).summary? = some summary := by
  cases init <;> exact ⟨_, rfl⟩

/-- The variable is given its first value, and then the loop tests it and counts it up. -/
theorem yields_forTo {init : ForInit} {limit : Expr} {body : Stmt} :
    ((forTo line init limit body).lower comments).Yields s u s' c ↔ ∃ s₁ c₁ c₂ summary,
      init.var.varName?.isSome = true ∧ (init.lower line).Yields s () s₁ c₁ ∧
      (loop (init.test line limit) (do body.lower comments; init.step comments line)).Yields
        s₁ () s' c₂ ∧
      (forTo line init limit body).summary? = some summary ∧
      c = heading comments line summary ++ (c₁ ++ c₂) := by
  obtain ⟨summary, hsummary⟩ := exists_summary_forTo line init limit body
  rw [Stmt.lower, hsummary]
  refine yields_comment_bind.trans ?_
  -- Without a variable to count, the code is refused before anything is lowered.
  cases hx : init.var.varName? with
  | none => simp [yields_bind]
  | some x =>
    simp only [Option.isNone_some, Bool.false_eq_true, if_false, Option.isSome_some, true_and,
      Option.some.injEq]
    constructor
    · rintro ⟨_, h, rfl⟩
      obtain ⟨_, s₁, c₁, c₂, hi, hl, rfl⟩ := yields_bind.1 h
      exact ⟨s₁, c₁, c₂, summary, hi, hl, rfl, rfl⟩
    · rintro ⟨s₁, c₁, c₂, _, hi, hl, rfl, rfl⟩
      exact ⟨_, yields_bind.2 ⟨(), s₁, c₁, c₂, hi, hl, rfl⟩, rfl⟩

/-- A loop that goes on from where its variable is needs no code before it. -/
theorem yields_keep {var : Expr} :
    ((ForInit.keep var).lower line).Yields s u s' c ↔ s' = s ∧ c = [] := by
  simp [ForInit.lower]

/-- A pass of a `for` loop: its statement, and then the step, which is an assignment. -/
theorem yields_pass {init : ForInit} {body : Stmt} :
    (do body.lower comments; init.step comments line : Gen Unit).Yields s u s' c ↔ ∃ s₁ c₁ c₂,
      (body.lower comments).Yields s () s₁ c₁ ∧
      (assignValue line init.var (init.next line)).Yields s₁ () s' c₂ ∧
      c = c₁ ++ (heading comments line (assignText init.var (init.next line)) ++ c₂) := by
  -- The step is a comment and an assignment, so that `yields_comment_bind` applies to it.
  simp only [yields_bind, ForInit.step]
  constructor
  · rintro ⟨_, s₁, c₁, _, hbody, hstep, rfl⟩
    obtain ⟨c₂, hassign, rfl⟩ := yields_comment_bind.1 (yields_bind.2 hstep)
    exact ⟨s₁, c₁, c₂, hbody, hassign, rfl⟩
  · rintro ⟨s₁, c₁, c₂, hbody, hassign, rfl⟩
    exact ⟨(), s₁, c₁, _, hbody, yields_bind.1 (yields_comment_bind.2 ⟨c₂, hassign, rfl⟩), rfl⟩

theorem yields_lowerAll_nil :
    (Stmt.lowerAll comments []).Yields s u s' c ↔ s' = s ∧ c = [] := by
  simp [Stmt.lowerAll]

theorem yields_lowerAll_cons {t : Stmt} {rest : List Stmt} :
    (Stmt.lowerAll comments (t :: rest)).Yields s u s' c ↔ ∃ s₁ c₁ c₂,
      (t.lower comments).Yields s () s₁ c₁ ∧ (Stmt.lowerAll comments rest).Yields s₁ () s' c₂ ∧
      c = c₁ ++ c₂ := by
  rw [Stmt.lowerAll, yields_bind]
  constructor
  · rintro ⟨_, s₁, c₁, c₂, ht, hrest, rfl⟩
    exact ⟨s₁, c₁, c₂, ht, hrest, rfl⟩
  · rintro ⟨s₁, c₁, c₂, ht, hrest, rfl⟩
    exact ⟨(), s₁, c₁, c₂, ht, hrest, rfl⟩

end Stmt

/-! ## What the code of statements leaves behind -/

namespace Lowering

/-- Making some code has given back the registers; of the labels that were drawn, the code defines
some. -/
structure Made (K : Nat → Prop) (s s' : State) (c : List Inst) : Prop where
  advanced : Advanced (Temp s.callDepth) s s'
  pool : s.pool.Even s'.pool
  labels : Defines K c

namespace Made

variable {K K' : Nat → Prop} {s s₁ s' : State} {c d : List Inst}

theorem congr (h : Made K s s' c) (hK : ∀ k, K k ↔ K' k) : Made K' s s' c :=
  { h with labels := h.labels.congr hK }

/-- Code without labels. Steady generators draw none, so the set of labels that were drawn is empty.
-/
theorem ofSteady (hs : Steady (Temp s.callDepth) s s') (hp : s.pool.Even s'.pool)
    (hc : Straight c) : Made (s.Drawn s') s s' c := by
  have hlabels : s'.labels = s.labels := hs.labels
  exact ⟨hs.advanced, hp, .none hc.labels_eq fun k => by omega⟩

/-- A condition, made on its own. What it defines are the labels for jumping past its parts; the
goal is defined by whoever hands it in. -/
theorem ofJumpWhen {e : Expr} {sense : Bool} {goal : String} {u : Unit}
    (h : (e.jumpWhen sense goal).Yields s u s' c) : Made (s.Drawn s') s s' c := by
  obtain ⟨ha, hp, hd, -⟩ := Expr.jumpWhen_settled h
  exact ⟨ha, hp.even, hd⟩

/-- A label that was drawn earlier. Its number is in none of the other pieces, which is what
`append` will ask for. -/
theorem label (s : State) (k : Nat) : Made (· = k) s s [.label (localLabel k)] :=
  ⟨.refl s, .refl _, .label k⟩

theorem append (h : Made K s s₁ c) (h' : Made K' s₁ s' d) (hK : ∀ k, K k → ¬ K' k) :
    Made (fun k => K k ∨ K' k) s s' (c ++ d) := by
  have hdepth : Advanced (Temp s.callDepth) s₁ s' := h.advanced.callDepth ▸ h'.advanced
  exact ⟨h.advanced.trans hdepth, h.pool.trans h'.pool, h.labels.append h'.labels hK⟩

/-- All labels that were drawn in two steps. The numbers of the second step begin where those of the
first one end, so that no label is defined twice. -/
theorem append_drawn (h : Made (s.Drawn s₁) s s₁ c) (h' : Made (s₁.Drawn s') s₁ s' d) :
    Made (s.Drawn s') s s' (c ++ d) := by
  have h₁ := h.advanced.labels
  have h₂ := h'.advanced.labels
  exact (h.append h' fun k => by omega).congr fun k => by omega

theorem cons {i : Inst} (hi : i.labelName? = none) (h : Made K s s' c) : Made K s s' (i :: c) :=
  { h with labels := h.labels.cons hi }

/-- A comment in front changes nothing. Comments define no labels, whether or not they are wanted.
-/
theorem heading (h : Made K s s' c) (wanted : Bool) (line : Line) (summary : String) :
    Made K s s' (Gen.heading wanted line summary ++ c) := by
  cases wanted with
  | true => exact h.cons rfl
  | false => exact h

/-- Labels can be drawn before the code is made. Which of the numbers become labels of the code is
up to `K`. -/
theorem drawn {n : Nat} (h : Made K (s.draw n) s' c) : Made K s s' c :=
  ⟨(Advanced.draw s n).trans h.advanced, h.pool, h.labels⟩

end Made

section

variable {s s' : State} {u : Unit} {c : List Inst}

/-- A value that was computed and stored gives its register back. `hp` says that this register was
on top before, so that it is again. -/
theorem free_restored {p : Pool} {r : Reg} {s₁ : State} (hp : p.Taken s₁.pool r)
    (hf : (free r).Yields s₁ u s' c) : p.Restored s'.pool := by
  obtain ⟨rest, n, hfree, hn⟩ := hp
  obtain ⟨-, -, rfl, -⟩ := yields_free.1 hf
  exact ⟨n + 1, by simp [hn, hfree]⟩

theorem callLibrary_made {symbol : String} {load : List Inst} (hload : Straight load)
    (h : (callLibrary symbol load).Yields s u s' c) : Made (s.Drawn s') s s' c := by
  obtain ⟨claimed, s₁, hc, hr, rfl⟩ := yields_callLibrary.1 h
  obtain ⟨q, rfl, hq⟩ := claim_release_even hc hr
  exact .ofSteady (.withPool s _) hq (by simp [hload, clear, Inst.isStraight])

theorem assignValue_made {line : Line} {target value : Expr}
    (h : (assignValue line target value).Yields s u s' c) : Made (s.Drawn s') s s' c := by
  obtain ⟨x, slot, r, s₁, c₁, -, -, hr, hf, rfl⟩ := yields_assignValue.1 h
  obtain ⟨hs, hp, hc⟩ := Expr.lower_steady hr
  have hrestored := free_restored hp hf
  obtain ⟨-, -, rfl, -⟩ := yields_free.1 hf
  exact .ofSteady (hs.trans (.withPool _ _)) hrestored.even (by simp [hc, Inst.isStraight])

theorem writeReg_scopes {r : Reg} (h : (writeReg r).Yields s u s' c) : s'.scopes = s.scopes := by
  obtain ⟨s₁, c', hf, hl, -⟩ := yields_writeReg.1 h
  obtain ⟨claimed, s₂, hc, hr, -⟩ := yields_callLibrary.1 hl
  obtain ⟨q, rfl, -⟩ := claim_release_even hc hr
  obtain ⟨-, -, rfl, -⟩ := yields_free.1 hf
  rfl

/-- A value that was computed and written gives its register back. It is given back before the call,
because the value is in `%rsi` by then. -/
theorem writeReg_made {e : Expr} {r : Reg} {s₁ : State} {c₁ : List Inst}
    (hr : e.lower.Yields s r s₁ c₁) (hw : (writeReg r).Yields s₁ u s' c) :
    Made (s.Drawn s') s s' (c₁ ++ c) := by
  obtain ⟨s₂, c', hf, hl, rfl⟩ := yields_writeReg.1 hw
  obtain ⟨hs, hp, hc⟩ := Expr.lower_steady hr
  have hrestored := free_restored hp hf
  obtain ⟨-, -, rfl, -⟩ := yields_free.1 hf
  have hvalue : Made (s.Drawn _) s _ (c₁ ++ [.movl (.reg r) (.reg .rsi)]) :=
    .ofSteady (hs.trans (.withPool _ _)) hrestored.even (by simp [hc, Inst.isStraight])
  simpa using hvalue.append_drawn (callLibrary_made (by simp [Inst.isStraight]) hl)

theorem writeAll_made : ∀ {es : List Expr} {s s' : State} {c : List Inst},
    (writeAll es).Yields s u s' c → Made (s.Drawn s') s s' c
  | [], _, _, _, h => by
    obtain ⟨rfl, rfl⟩ := yields_writeAll_nil.1 h
    exact .ofSteady (.refl _) (.refl _) .nil
  | e :: rest, _, _, _, h => by
    obtain ⟨r, s₁, s₂, c₁, c₂, c₃, hr, hw, hrest, rfl⟩ := yields_writeAll_cons.1 h
    rw [← List.append_assoc]
    exact (writeReg_made hr hw).append_drawn (writeAll_made hrest)

theorem readAll_made {line : Line} : ∀ {es : List Expr} {s s' : State} {c : List Inst},
    (readAll line es).Yields s u s' c → Made (s.Drawn s') s s' c
  | [], _, _, _, h => by
    obtain ⟨rfl, rfl⟩ := yields_readAll_nil.1 h
    exact .ofSteady (.refl _) (.refl _) .nil
  | e :: rest, _, _, _, h => by
    obtain ⟨x, slot, s₁, c₁, c₂, -, -, hr, hrest, rfl⟩ := yields_readAll_cons.1 h
    exact (callLibrary_made (by simp [Inst.isStraight]) hr).append_drawn (readAll_made hrest)

theorem callProcedure_made {line : Line} {callee : String} {args : List Expr}
    (h : (callProcedure line callee args).Yields s u s' c) : Made (s.Drawn s') s s' c := by
  rw [callProcedure] at h
  split at h
  · exact writeAll_made h
  · exact readAll_made h
  · obtain ⟨hs, hp, hc⟩ := callRoutine_steady (Expr.stageAll_settled args) h
    exact .ofSteady hs hp hc

theorem loop_made {condition : Expr} {body : Gen Unit}
    (hbody : ∀ {s s' : State} {c : List Inst}, body.Yields s () s' c → Made (s.Drawn s') s s' c)
    (h : (loop condition body).Yields s u s' c) : Made (s.Drawn s') s s' c := by
  obtain ⟨s₁, c₁, c₂, hb, hc, rfl⟩ := yields_loop.1 h
  have hmade₁ := hbody hb
  have hmade₂ := Made.ofJumpWhen hc
  have h₁ := hmade₁.advanced.labels
  have h₂ := hmade₂.advanced.labels
  simp only [labels_draw] at h₁
  -- Three pieces, each with labels of its own: what they draw follows one another, `h₁` and `h₂`.
  have htest := (Made.label s₁ (s.labels + 1)).append hmade₂ fun k => by omega
  have hlater := hmade₁.append htest fun k => by
    simp only [Drawn, labels_draw]
    omega
  have hstart := (Made.label (s.draw 2) s.labels).append hlater fun k => by
    simp only [Drawn, labels_draw]
    omega
  refine (hstart.cons rfl).drawn.congr fun k => ?_
  simp only [Drawn, labels_draw]
  omega

/-- What a `for` statement does before its loop. Either it assigns a value, or there is nothing to
do. -/
theorem initial_made {line : Line} {init : ForInit} (h : (init.lower line).Yields s u s' c) :
    Made (s.Drawn s') s s' c := by
  cases init with
  | assign => exact assignValue_made h
  | keep =>
    obtain ⟨rfl, rfl⟩ := Stmt.yields_keep.1 h
    exact .ofSteady (.refl _) (.refl _) .nil

theorem pass_made {line : Line} {init : ForInit} {comments : Bool} {body : Stmt}
    (hbody : ∀ {s s' : State} {c : List Inst},
      (body.lower comments).Yields s () s' c → Made (s.Drawn s') s s' c)
    (h : (do body.lower comments; init.step comments line : Gen Unit).Yields s u s' c) :
    Made (s.Drawn s') s s' c := by
  obtain ⟨s₁, c₁, c₂, hb, hstep, rfl⟩ := Stmt.yields_pass.1 h
  exact (hbody hb).append_drawn ((assignValue_made hstep).heading ..)

end

end Lowering

namespace Stmt

variable {comments : Bool}

mutual

/-- The code of a statement defines the labels that were drawn for it. By recursion over the
statement: pieces without labels by `ofSteady`, labels by `label`, and all of them together by
`append`. -/
theorem lower_made : ∀ {t : Stmt} {s s' : State} {u : Unit} {c : List Inst},
    (t.lower comments).Yields s u s' c → Made (s.Drawn s') s s' c
  | .assign .., _, _, _, _, h => by
    obtain ⟨c', h', rfl⟩ := yields_assign.1 h
    exact (assignValue_made h').heading ..
  | .call .., _, _, _, _, h => by
    obtain ⟨c', h', rfl⟩ := yields_call.1 h
    exact (callProcedure_made h').heading ..
  | .compound .., _, _, _, _, h => lowerAll_made (yields_compound.1 h)
  | .ifThen .., s, _, _, _, h => by
    obtain ⟨s₁, c₁, c₂, hc, ht, rfl⟩ := yields_ifThen.1 h
    have hmade₁ := Made.ofJumpWhen hc
    have hmade₂ := lower_made ht
    have h₁ := hmade₁.advanced.labels
    have h₂ := hmade₂.advanced.labels
    simp only [labels_draw] at h₁
    have hpast := hmade₂.append (.label _ s.labels) fun k => by omega
    have hall := hmade₁.append hpast fun k => by
      simp only [Drawn, labels_draw]
      omega
    refine (hall.drawn.congr fun k => ?_).heading ..
    simp only [Drawn, labels_draw]
    omega
  | .ifElse .., s, _, _, _, h => by
    obtain ⟨s₁, s₂, c₁, c₂, c₃, hc, ht, he, rfl⟩ := yields_ifElse.1 h
    have hmade₁ := Made.ofJumpWhen hc
    have hmade₂ := lower_made ht
    have hmade₃ := lower_made he
    have h₁ := hmade₁.advanced.labels
    have h₂ := hmade₂.advanced.labels
    have h₃ := hmade₃.advanced.labels
    simp only [labels_draw] at h₁ h₃
    -- the labels are collected from the end of the code to its beginning
    have hpast := hmade₃.append (.label _ s₂.labels) fun k => by
      simp only [Drawn, labels_draw]
      omega
    have hotherwise := (Made.label s₂ s.labels).append hpast.drawn fun k => by
      simp only [Drawn, labels_draw]
      omega
    have hbranches := hmade₂.append (hotherwise.cons (i := .jmp (localLabel s₂.labels)) rfl) fun k => by
      simp only [Drawn, labels_draw]
      omega
    have hall := hmade₁.append hbranches fun k => by
      simp only [Drawn, labels_draw]
      omega
    refine (hall.drawn.congr fun k => ?_).heading ..
    simp only [Drawn, labels_draw]
    omega
  | .whileDo .., _, _, _, _, h => by
    obtain ⟨c', h', rfl⟩ := yields_whileDo.1 h
    exact (loop_made lower_made h').heading ..
  | .forTo .., _, _, _, _, h => by
    obtain ⟨s₁, c₁, c₂, summary, -, hi, hl, -, rfl⟩ := yields_forTo.1 h
    exact ((initial_made hi).append_drawn (loop_made (pass_made lower_made) hl)).heading ..

/-- The code of statements one after another defines the labels that were drawn for them. The pieces
are joined by `append_drawn`. -/
theorem lowerAll_made : ∀ {ts : List Stmt} {s s' : State} {u : Unit} {c : List Inst},
    (Stmt.lowerAll comments ts).Yields s u s' c → Made (s.Drawn s') s s' c
  | [], _, _, _, _, h => by
    obtain ⟨rfl, rfl⟩ := yields_lowerAll_nil.1 h
    exact .ofSteady (.refl _) (.refl _) .nil
  | t :: rest, _, _, _, _, h => by
    obtain ⟨s₁, c₁, c₂, ht, hrest, rfl⟩ := yields_lowerAll_cons.1 h
    exact (lower_made ht).append_drawn (lowerAll_made hrest)

end

end Stmt

end PascalAsm
