import PascalAsm.Proofs.Generator.Statements

/-!
# Where jumps lead

Code with jumps is made from the inside out: a condition is handed the label that it is to jump to,
and the statement around it puts that label down. `Aims goals c` says what that comes to for a piece
of code: it jumps to each label that it defines itself, to each of its goals, and nowhere else.

Goals add up where code follows code (`Aims.join`), and a goal is done with when its label is put
down (`Aims.label`). A condition has one goal, the label that it was handed
(`Expr.aims_of_jumpWhen`), and a statement has none (`Stmt.aims_of_lower`).
-/

namespace PascalAsm

open Assembly Lowering Gen State

namespace Assembly

/-- The label that an instruction jumps to. Calls are no jumps, as they lead to another function. -/
def Inst.target? : Inst → Option String
  | .jmp name | .jcc _ name => some name
  | _ => none

/-- The labels that the code jumps to, in order. -/
def targets (code : List Inst) : List String := code.filterMap Inst.target?

@[simp] theorem targets_nil : targets [] = [] := rfl

theorem targets_cons (i : Inst) (rest : List Inst) :
    targets (i :: rest) = i.target?.toList ++ targets rest := by
  cases h : i.target? <;> simp [targets, h]

@[simp] theorem targets_append (c d : List Inst) : targets (c ++ d) = targets c ++ targets d :=
  List.filterMap_append

theorem Straight.targets_eq {c : List Inst} (h : Straight c) : targets c = [] := by
  rw [targets, List.filterMap_eq_nil_iff]
  intro i hi
  have hstraight := h i hi
  cases i with
  | jmp | jcc => simp [Inst.isStraight] at hstraight
  | _ => rfl

/-- The code jumps to its own labels, all of them, and to its goals. A goal is a label that is
handed in and put down by someone else. -/
structure Aims (goals : List String) (c : List Inst) : Prop where
  mem_iff : ∀ name, name ∈ targets c ↔ name ∈ labels c ∨ name ∈ goals

namespace Aims

variable {goals goals' : List String} {c d : List Inst}

theorem straight (h : Straight c) : Aims [] c :=
  ⟨by simp [h.targets_eq, h.labels_eq]⟩

theorem jmp (name : String) : Aims [name] [.jmp name] :=
  ⟨by simp [targets_cons, labels_cons, Inst.target?, Inst.labelName?]⟩

/-- The goals of two pieces of code are those of both. Which of the two a label belongs to plays no
part. -/
theorem join (hc : Aims goals c) (hd : Aims goals' d) : Aims (goals ++ goals') (c ++ d) := by
  refine ⟨fun name => ?_⟩
  rw [targets_append, labels_append]
  simp only [List.mem_append, hc.mem_iff, hd.mem_iff]
  exact or_or_or_comm

theorem append (hc : Aims goals c) (hd : Aims [] d) : Aims goals (c ++ d) := by
  simpa using hc.join hd

/-- Two pieces of code with the same goals. The goals of a statement are none, so this is how
statements follow one another. -/
theorem both (hc : Aims goals c) (hd : Aims goals d) : Aims goals (c ++ d) :=
  ⟨fun name => by simpa using (hc.join hd).mem_iff name⟩

/-- A goal that is put down somewhere in the code is no goal any more. It becomes one of the labels
of the code itself. -/
theorem label {past : String} (h : Aims (past :: goals) (c ++ d)) :
    Aims goals (c ++ .label past :: d) := by
  refine ⟨fun name => ?_⟩
  have hname := h.mem_iff name
  simp only [targets_append, labels_append, targets_cons, labels_cons, Inst.target?,
    Inst.labelName?, Option.toList, List.mem_append, List.mem_cons, List.nil_append,
    List.cons_append] at hname ⊢
  rw [hname]
  tauto

/-- A goal that is put down behind the code is no goal any more. This is the end of every
conditional. -/
theorem label_end {past : String} (h : Aims (past :: goals) c) :
    Aims goals (c ++ [.label past]) :=
  label (d := []) (by rwa [List.append_nil])

/-- A comment in front changes nothing. -/
theorem heading (h : Aims goals c) (wanted : Bool) (line : Line) (summary : String) :
    Aims goals (Gen.heading wanted line summary ++ c) := by
  cases wanted with
  | true => exact ⟨h.mem_iff⟩
  | false => exact h

end Aims

end Assembly

/-! ## Conditions -/

namespace Lowering

variable {s s' : State} {u : Unit} {c : List Inst}

/-- A comparison ends with the instruction that compares, and the code before goes straight on. The
only jump of a condition is the one behind it. -/
theorem Tree.Settled.targets_comparison {line : Line} {op : RelOp} {left right : Tree}
    (hl : left.Settled) (hr : right.Settled)
    (h : (Tree.joined line (.compare op) left right).lower.Yields s u s' c) :
    targets c = [] ∧ labels c = [] := by
  obtain ⟨-, -, s₁, s₂, c₁, c₂, src, dest, hc₁, h₂, rfl⟩ := hl.binary hr h
  obtain ⟨-, rfl⟩ := yields_emit.1 h₂
  rw [targets_append, labels_append, hc₁.targets_eq, hc₁.labels_eq]
  exact ⟨rfl, rfl⟩

end Lowering

namespace Expr

variable {s s' : State} {u : Unit} {c : List Inst} {sense : Bool} {goal : String}

/-- The code of a condition jumps to the label that it was handed, and to the labels that it puts
down past the right sides of connectives. -/
theorem aims_of_jumpWhen {e : Expr} (h : (e.jumpWhen sense goal).Yields s u s' c) :
    Aims [goal] c := by
  induction sense, goal, e using jumpWhen.induct generalizing s s' u c with
  | case1 sense goal line op left right =>
    obtain ⟨ws, t, c', hplan, ht, -, rfl⟩ := yields_jumpWhen_comparison.1 h
    obtain ⟨_, _, tl, tr, hl, hr, -, rfl⟩ := Plan.joined_eq_ready_iff.1 hplan
    obtain ⟨htargets, hlabels⟩ := (settled_of_ready hl).targets_comparison (settled_of_ready hr) ht
    refine ⟨fun name => ?_⟩
    simp [htargets, hlabels, targets_cons, labels_cons, Inst.target?, Inst.labelName?]
  | case2 sense goal line e ih => exact ih h
  | case3 goal line op left right ihl ihr =>
    obtain ⟨s₁, c₁, c₂, hl, hr, rfl⟩ := yields_jumpWhen_either.1 h
    exact (ihl hl).both (ihr hr)
  | case4 sense goal line op left right hsense ihl ihr =>
    obtain ⟨s₁, c₁, c₂, hl, hr, rfl⟩ := (yields_jumpWhen_both hsense).1 h
    -- the goal of the left side is the label past the right one
    have hgoals : Aims [localLabel s.labels, goal] (c₁ ++ c₂) := (ihl _ hl).join (ihr hr)
    simpa using hgoals.label_end
  | case5 sense goal e hcomparison hnot hlogical =>
    exact (not_yields_jumpWhen hcomparison hnot hlogical h).elim

end Expr

/-! ## Statements without jumps -/

namespace Lowering

variable {s s' : State} {u : Unit} {c : List Inst}

theorem straight_of_callLibrary {symbol : String} {load : List Inst} (hload : Straight load)
    (h : (callLibrary symbol load).Yields s u s' c) : Straight c := by
  obtain ⟨_, _, -, -, rfl⟩ := yields_callLibrary.1 h
  simp [hload, clear, Inst.isStraight]

theorem straight_of_assignValue {line : Line} {target value : Expr}
    (h : (assignValue line target value).Yields s u s' c) : Straight c := by
  obtain ⟨x, slot, r, s₁, c₁, -, -, hr, -, rfl⟩ := yields_assignValue.1 h
  obtain ⟨-, -, hc⟩ := Expr.lower_steady hr
  simp [hc, Inst.isStraight]

theorem straight_of_writeAll : ∀ {es : List Expr} {s s' : State} {c : List Inst},
    (writeAll es).Yields s u s' c → Straight c
  | [], _, _, _, h => by
    obtain ⟨-, rfl⟩ := yields_writeAll_nil.1 h
    exact .nil
  -- `Expr.lower_steady` for the value, `straight_of_callLibrary` for the call that writes it.
  | e :: rest, _, _, _, h => by
    obtain ⟨r, s₁, s₂, c₁, c₂, c₃, hr, hw, hrest, rfl⟩ := yields_writeAll_cons.1 h
    obtain ⟨-, -, hc₁⟩ := Expr.lower_steady hr
    obtain ⟨_, c', -, hl, rfl⟩ := yields_writeReg.1 hw
    have hc' := straight_of_callLibrary (by simp [Inst.isStraight]) hl
    simp [hc₁, hc', straight_of_writeAll hrest, Inst.isStraight]

theorem straight_of_readAll {line : Line} : ∀ {es : List Expr} {s s' : State} {c : List Inst},
    (readAll line es).Yields s u s' c → Straight c
  | [], _, _, _, h => by
    obtain ⟨-, rfl⟩ := yields_readAll_nil.1 h
    exact .nil
  | e :: rest, _, _, _, h => by
    obtain ⟨x, slot, s₁, c₁, c₂, -, -, hr, hrest, rfl⟩ := yields_readAll_cons.1 h
    have hc₁ := straight_of_callLibrary (by simp [Inst.isStraight]) hr
    simp [hc₁, straight_of_readAll hrest]

theorem straight_of_callProcedure {line : Line} {callee : String} {args : List Expr}
    (h : (callProcedure line callee args).Yields s u s' c) : Straight c := by
  rw [callProcedure] at h
  split at h
  · exact straight_of_writeAll h
  · exact straight_of_readAll h
  · exact (callRoutine_steady (Expr.stageAll_settled args) h).2.2

/-! ## Loops -/

/-- A loop jumps to its test, and the test jumps to the start. Both labels are put down in the code
of the loop, so it has no goals. -/
theorem aims_of_loop {condition : Expr} {body : Gen Unit}
    (hbody : ∀ {s s' : State} {c : List Inst}, body.Yields s () s' c → Aims [] c)
    (h : (loop condition body).Yields s u s' c) : Aims [] c := by
  obtain ⟨s₁, c₁, c₂, hb, hc, rfl⟩ := yields_loop.1 h
  have hgoals : Aims [localLabel (s.labels + 1), localLabel s.labels]
      (([.jmp (localLabel (s.labels + 1))] ++ c₁) ++ c₂) :=
    ((Aims.jmp _).append (hbody hb)).join (Expr.aims_of_jumpWhen hc)
  have htest := hgoals.label
  rw [List.append_assoc] at htest
  exact htest.label

end Lowering

/-! ## All statements -/

namespace Stmt

variable {comments : Bool}

mutual

/-- The code of a statement jumps to its own labels, to all of them, and nowhere else. -/
theorem aims_of_lower : ∀ {t : Stmt} {s s' : State} {u : Unit} {c : List Inst},
    (t.lower comments).Yields s u s' c → Aims [] c
  | .assign .., _, _, _, _, h => by
    obtain ⟨c', h', rfl⟩ := yields_assign.1 h
    exact (Aims.straight (straight_of_assignValue h')).heading ..
  | .call .., _, _, _, _, h => by
    obtain ⟨c', h', rfl⟩ := yields_call.1 h
    exact (Aims.straight (straight_of_callProcedure h')).heading ..
  | .compound .., _, _, _, _, h => aims_of_lowerAll (yields_compound.1 h)
  | .ifThen .., s, _, _, _, h => by
    obtain ⟨s₁, c₁, c₂, hc, ht, rfl⟩ := yields_ifThen.1 h
    have hgoals : Aims [localLabel s.labels] (c₁ ++ c₂) :=
      (Expr.aims_of_jumpWhen hc).append (aims_of_lower ht)
    have hlabel := hgoals.label_end
    rw [List.append_assoc] at hlabel
    exact hlabel.heading ..
  | .ifElse .., s, _, _, _, h => by
    obtain ⟨s₁, s₂, c₁, c₂, c₃, hc, ht, he, rfl⟩ := yields_ifElse.1 h
    -- the condition jumps to the `else` branch, and the `then` branch past that
    have hgoals : Aims [localLabel s.labels, localLabel s₂.labels]
        ((c₁ ++ c₂ ++ [.jmp (localLabel s₂.labels)]) ++ c₃) :=
      (((Expr.aims_of_jumpWhen hc).append (aims_of_lower ht)).join (.jmp _)).append
        (aims_of_lower he)
    have hlabels := hgoals.label.label_end
    simp only [List.append_assoc, List.cons_append, List.nil_append] at hlabels
    exact hlabels.heading ..
  | .whileDo .., _, _, _, _, h => by
    obtain ⟨c', h', rfl⟩ := yields_whileDo.1 h
    exact (aims_of_loop aims_of_lower h').heading ..
  | .forTo line init .., _, _, _, _, h => by
    obtain ⟨s₁, c₁, c₂, summary, -, hi, hl, -, rfl⟩ := yields_forTo.1 h
    have hinit : Straight c₁ := by
      cases init with
      | assign => exact straight_of_assignValue hi
      | keep =>
        obtain ⟨-, rfl⟩ := yields_keep.1 hi
        exact .nil
    refine ((Aims.straight hinit).append (aims_of_loop ?_ hl)).heading ..
    intro s s' c hbody
    obtain ⟨s₂, c₃, c₄, hb, hstep, rfl⟩ := yields_pass.1 hbody
    exact (aims_of_lower hb).append ((Aims.straight (straight_of_assignValue hstep)).heading ..)

/-- The code of statements one after another jumps to its own labels. Each piece is closed, and
`both` joins them. -/
theorem aims_of_lowerAll : ∀ {ts : List Stmt} {s s' : State} {u : Unit} {c : List Inst},
    (Stmt.lowerAll comments ts).Yields s u s' c → Aims [] c
  | [], _, _, _, _, h => by
    obtain ⟨-, rfl⟩ := yields_lowerAll_nil.1 h
    exact .straight .nil
  | t :: rest, _, _, _, _, h => by
    obtain ⟨s₁, c₁, c₂, ht, hrest, rfl⟩ := yields_lowerAll_cons.1 h
    exact (aims_of_lower ht).append (aims_of_lowerAll hrest)

end

end Stmt

end PascalAsm
