import Mathlib.Data.List.Nodup
import PascalAsm.Lowering.Jump
import PascalAsm.Proofs.Generator.Steady

/-!
# Labels, and the code of conditions

Code with jumps draws labels, and it defines each label that it draws. So the labels of two pieces
of code that were made one after the other differ, and a jump to one of them can only lead there.

* **`State.Advanced`** — as `State.Steady`, but labels were drawn.
* **`Defines`** — which labels some code defines, each of them once.

`Expr.yields_jumpWhen_comparison` and the lemmas after it say for each form of a condition what its
code consists of; `Expr.jumpWhen_settled` says what making it leaves behind.
-/

namespace PascalAsm

open Assembly

namespace Lowering

open Gen

/-! ## States in which labels were drawn -/

namespace State

/-- The state after some labels were drawn. Numbers are never given back, so a label that was drawn
is never drawn again. -/
def draw (s : State) (n : Nat) : State := { s with labels := s.labels + n }

@[simp] theorem labels_draw (s : State) (n : Nat) : (s.draw n).labels = s.labels + n := rfl

@[simp] theorem callDepth_draw (s : State) (n : Nat) : (s.draw n).callDepth = s.callDepth := rfl

/-- The numbers of the labels that were drawn between two states. They are an interval, so that two
steps one after another have disjoint ones. -/
abbrev Drawn (s s' : State) (k : Nat) : Prop := s.labels ≤ k ∧ k < s'.labels

/-- Nothing has changed but the pool and the warnings; temporaries were laid out and labels drawn. -/
structure Advanced (P : String → Prop) (s s' : State) : Prop where
  scopes : Scopes.Grows P s.scopes s'.scopes
  arrays : s'.arrays = s.arrays
  labels : s.labels ≤ s'.labels
  callDepth : s'.callDepth = s.callDepth
  finished : s'.finished = s.finished

theorem Steady.advanced {P : String → Prop} {s s' : State} (h : Steady P s s') :
    Advanced P s s' :=
  ⟨h.scopes, h.arrays, Nat.le_of_eq h.labels.symm, h.callDepth, h.finished⟩

namespace Advanced

variable {P Q : String → Prop} {s s₁ s' : State}

theorem refl (s : State) : Advanced P s s := (Steady.refl s).advanced

theorem trans (h : Advanced P s s₁) (h' : Advanced P s₁ s') : Advanced P s s' :=
  ⟨h.scopes.trans h'.scopes, h'.arrays.trans h.arrays, Nat.le_trans h.labels h'.labels,
    h'.callDepth.trans h.callDepth, h'.finished.trans h.finished⟩

theorem draw (s : State) (n : Nat) : Advanced P s (s.draw n) :=
  ⟨.refl _, rfl, Nat.le_add_right .., rfl, rfl⟩

end Advanced

end State

/-! ## Labels that code defines -/

/-- The code defines the labels of some numbers, each of them once, and no others. `K` is a set of
numbers and not a list, because the order in which labels are put down is not that in which they are
drawn. -/
def Defines (K : Nat → Prop) (c : List Inst) : Prop :=
  ∃ ids : List Nat, labels c = ids.map localLabel ∧ ids.Nodup ∧ ∀ k, k ∈ ids ↔ K k

namespace Defines

variable {K K' : Nat → Prop} {c d : List Inst}

theorem congr (h : Defines K c) (hK : ∀ k, K k ↔ K' k) : Defines K' c := by
  obtain ⟨ids, hl, hn, hm⟩ := h
  exact ⟨ids, hl, hn, fun k => (hm k).trans (hK k)⟩

theorem none (h : labels c = []) (hK : ∀ k, ¬ K k) : Defines K c :=
  ⟨[], h, .nil, fun k => by simpa using hK k⟩

theorem label (k : Nat) : Defines (· = k) [.label (localLabel k)] :=
  ⟨[k], rfl, List.nodup_singleton k, by simp⟩

/-- Pieces of code that define different labels can follow one another. That they are different is
said of the numbers, `hK`, and follows by arithmetic wherever it is used. -/
theorem append (hc : Defines K c) (hd : Defines K' d) (hK : ∀ k, K k → ¬ K' k) :
    Defines (fun k => K k ∨ K' k) (c ++ d) := by
  obtain ⟨is, hl, hn, hm⟩ := hc
  obtain ⟨js, hl', hn', hm'⟩ := hd
  refine ⟨is ++ js, by rw [labels_append, hl, hl', List.map_append], ?_, fun k => ?_⟩
  · rw [List.nodup_append]
    refine ⟨hn, hn', fun i hi j hj hij => ?_⟩
    subst hij
    exact hK i ((hm i).1 hi) ((hm' i).1 hj)
  · rw [List.mem_append, hm, hm']

theorem cons {i : Inst} (hi : i.labelName? = .none) (h : Defines K c) : Defines K (i :: c) := by
  obtain ⟨ids, hl, hn, hm⟩ := h
  refine ⟨ids, ?_, hn, hm⟩
  rw [labels_cons, hi, hl]
  rfl

theorem nodup (h : Defines K c) : (labels c).Nodup := by
  obtain ⟨ids, hl, hn, -⟩ := h
  rw [hl]
  exact hn.map fun _ _ => eq_of_localLabel_eq

/-- A label that the code defines is that of one of the numbers. -/
theorem exists_of_mem (h : Defines K c) {name : String} (hname : name ∈ labels c) :
    ∃ k, K k ∧ name = localLabel k := by
  obtain ⟨ids, hl, -, hm⟩ := h
  rw [hl, List.mem_map] at hname
  obtain ⟨k, hk, rfl⟩ := hname
  exact ⟨k, (hm k).1 hk, rfl⟩

end Defines

/-! ## Comparisons -/

namespace Gen

theorem yields_newLabel_bind {β : Type} {f : String → Gen β} {s s' : State} {b : β}
    {c : List Inst} : (newLabel >>= f).Yields s b s' c ↔
      (f (localLabel s.labels)).Yields (s.draw 1) b s' c := by
  have h : newLabel.Yields s (localLabel s.labels) (s.draw 1) [] := rfl
  simp [h.bind_iff]

end Gen

/-- The code of a comparison: some code that goes straight on, and an instruction that compares. -/
theorem Tree.Settled.comparison {line : Line} {op : RelOp} {left right : Tree} {s s' : State}
    {u : Unit} {c : List Inst} (hl : left.Settled) (hr : right.Settled)
    (h : (Tree.joined line (.compare op) left right).lower.Yields s u s' c) :
    State.Steady (Temp s.callDepth) s s' ∧ s.pool.Restored s'.pool ∧
      labels c = [] ∧ compareCount c = 1 := by
  -- `hc₁` says that the operands leave straight code, in which no label and no comparison is.
  obtain ⟨hs, hp, s₁, s₂, c₁, c₂, src, dest, hc₁, h₂, rfl⟩ := hl.binary hr h
  obtain ⟨-, rfl⟩ := yields_emit.1 h₂
  refine ⟨hs, hp, ?_, ?_⟩
  · rw [labels_append, hc₁.labels_eq]
    rfl
  · rw [compareCount_append, hc₁.compareCount_eq]
    rfl

end Lowering

/-! ## Conditions -/

namespace Expr

open Lowering Gen State

variable {s s' : State} {u : Unit} {c : List Inst} {sense : Bool} {goal : String} {line : Line}
  {op : LogicalOp} {left right : Expr}

/-- A comparison sets the flags, and a jump looks at them. The warnings of the plan come before the
code of the sides, and the jump is inverted if it is to be taken when the comparison fails. -/
theorem yields_jumpWhen_comparison {op : RelOp} :
    ((relational line op left right).jumpWhen sense goal).Yields s u s' c ↔
      ∃ ws t c', Plan.ofComparison line op left right = .ready ws t ∧
        t.lower.Yields { s with warnings := s.warnings ++ ws } () s' c' ∧
        s'.pool.balance s.pool.checkpoint 0 = .ok () ∧
        c = c' ++ [.jcc (if sense then conditionOf op else (conditionOf op).inverse) goal] := by
  rw [jumpWhen, lowerComparison_eq, Plan.ofCondition, bind_assoc, yields_ofExcept_bind]
  simp only [Except.ok.injEq, exists_eq_left', bind_assoc, pure_bind, Plan.lowerFlags]
  -- A plan that was given up fails; one that is ready warns and then sets the flags.
  cases hp : Plan.ofComparison line op left right with
  | rejected ws construct place =>
    simp [Plan.tree, bind_assoc, yields_bind]
  | ready ws t =>
    simp only [Plan.tree, bind_assoc, pure_bind, yields_warnAll_bind, Plan.ready.injEq]
    rw [yields_bind]
    simp only [yields_setFlags, yields_emit]
    constructor
    · rintro ⟨_, s₁, c', _, ⟨ht, hb⟩, ⟨rfl, rfl⟩, rfl⟩
      exact ⟨ws, t, c', ⟨rfl, rfl⟩, ht, hb, rfl⟩
    · rintro ⟨_, _, c', ⟨rfl, rfl⟩, ht, hb, rfl⟩
      exact ⟨(), s', c', _, ⟨ht, hb⟩, ⟨rfl, rfl⟩, rfl⟩

/-- Where one side alone settles the outcome to jump on, both sides jump to the goal. -/
theorem yields_jumpWhen_either :
    ((logical line op left right).jumpWhen (op = .or) goal).Yields s u s' c ↔
      ∃ s₁ c₁ c₂, (left.jumpWhen (op = .or) goal).Yields s () s₁ c₁ ∧
        (right.jumpWhen (op = .or) goal).Yields s₁ () s' c₂ ∧ c = c₁ ++ c₂ := by
  rw [jumpWhen, if_pos rfl, yields_bind]
  constructor
  · rintro ⟨_, s₁, c₁, c₂, hl, hr, rfl⟩
    exact ⟨s₁, c₁, c₂, hl, hr, rfl⟩
  · rintro ⟨s₁, c₁, c₂, hl, hr, rfl⟩
    exact ⟨(), s₁, c₁, c₂, hl, hr, rfl⟩

/-- Where one side alone settles the other outcome, the left side jumps past the right one. -/
theorem yields_jumpWhen_both (hsense : sense ≠ (op = .or : Bool)) :
    ((logical line op left right).jumpWhen sense goal).Yields s u s' c ↔
      ∃ s₁ c₁ c₂, (left.jumpWhen (!sense) (localLabel s.labels)).Yields (s.draw 1) () s₁ c₁ ∧
        (right.jumpWhen sense goal).Yields s₁ () s' c₂ ∧
        c = c₁ ++ (c₂ ++ [.label (localLabel s.labels)]) := by
  rw [jumpWhen, if_neg hsense, yields_newLabel_bind]
  constructor
  · intro h
    obtain ⟨_, s₁, c₁, _, hl, h', rfl⟩ := yields_bind.1 h
    obtain ⟨_, s₂, c₂, _, hr, he, rfl⟩ := yields_bind.1 h'
    obtain ⟨rfl, rfl⟩ := yields_emit.1 he
    exact ⟨s₁, c₁, c₂, hl, hr, rfl⟩
  · rintro ⟨s₁, c₁, c₂, hl, hr, rfl⟩
    refine yields_bind.2 ⟨(), s₁, c₁, _, hl, ?_, rfl⟩
    exact yields_bind.2 ⟨(), s', c₂, _, hr, yields_emit.2 ⟨rfl, rfl⟩, rfl⟩

/-- Other expressions are not taken for conditions. The three hypotheses are those of the last case
of the recursion. -/
theorem not_yields_jumpWhen {e : Expr}
    (hcomparison : ∀ line op left right, e = relational line op left right → False)
    (hnot : ∀ line e', e = not line e' → False)
    (hlogical : ∀ line op left right, e = logical line op left right → False) :
    ¬ (e.jumpWhen sense goal).Yields s u s' c := by
  rw [jumpWhen.eq_4 sense goal e hcomparison hnot hlogical]
  exact yields_fail.1

/-- The code of a condition defines the labels that were drawn for it. It compares as often as there
are comparisons in the condition, and gives back all registers. -/
theorem jumpWhen_settled {e : Expr} (h : (e.jumpWhen sense goal).Yields s u s' c) :
    Advanced (Temp s.callDepth) s s' ∧ s.pool.Restored s'.pool ∧
      Defines (s.Drawn s') c ∧ compareCount c = e.comparisons := by
  induction sense, goal, e using jumpWhen.induct generalizing s s' u c with
  | case1 sense goal line op left right =>
    obtain ⟨ws, t, c', hplan, ht, -, rfl⟩ := yields_jumpWhen_comparison.1 h
    obtain ⟨_, _, tl, tr, hl, hr, -, rfl⟩ := Plan.joined_eq_ready_iff.1 hplan
    obtain ⟨hs, hp, hlabels, hcount⟩ := (settled_of_ready hl).comparison (settled_of_ready hr) ht
    have ha := hs.advanced
    refine ⟨⟨ha.scopes, ha.arrays, ha.labels, ha.callDepth, ha.finished⟩, hp, .none ?_ ?_, ?_⟩
    · rw [labels_append, hlabels]
      rfl
    · have hsame : s'.labels = s.labels := hs.labels
      omega
    · rw [compareCount_append, hcount]
      rfl
  | case2 sense goal line e ih => exact ih h
  | case3 goal line op left right ihl ihr =>
    obtain ⟨s₁, c₁, c₂, hl, hr, rfl⟩ := yields_jumpWhen_either.1 h
    obtain ⟨ha₁, hp₁, hd₁, hn₁⟩ := ihl hl
    obtain ⟨ha₂, hp₂, hd₂, hn₂⟩ := ihr hr
    rw [ha₁.callDepth] at ha₂
    refine ⟨ha₁.trans ha₂, hp₁.trans hp₂, ?_, by rw [compareCount_append, hn₁, hn₂]; rfl⟩
    have h₁ := ha₁.labels
    have h₂ := ha₂.labels
    refine (hd₁.append hd₂ fun k => ?_).congr fun k => ?_ <;> omega
  | case4 sense goal line op left right hsense ihl ihr =>
    obtain ⟨s₁, c₁, c₂, hl, hr, rfl⟩ := (yields_jumpWhen_both hsense).1 h
    obtain ⟨ha₁, hp₁, hd₁, hn₁⟩ := ihl _ hl
    obtain ⟨ha₂, hp₂, hd₂, hn₂⟩ := ihr hr
    rw [ha₁.callDepth, callDepth_draw] at ha₂
    refine ⟨((Advanced.draw s 1).trans ha₁).trans ha₂, hp₁.trans hp₂, ?_, ?_⟩
    · -- the label past the right side is the first one that was drawn
      have h₁ := ha₁.labels
      have h₂ := ha₂.labels
      rw [labels_draw] at h₁
      have hright := hd₂.append (.label s.labels) fun k => by omega
      refine (hd₁.append hright fun k => ?_).congr fun k => ?_ <;> simp only [Drawn, labels_draw] <;> omega
    · rw [compareCount_append, compareCount_append, hn₁, hn₂]
      rfl
  | case5 sense goal e hcomparison hnot hlogical =>
    exact (not_yields_jumpWhen hcomparison hnot hlogical h).elim

end Expr

end PascalAsm
