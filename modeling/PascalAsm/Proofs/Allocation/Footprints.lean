import PascalAsm.Proofs.Acceptance.Capacity
import PascalAsm.Proofs.Generator.Writes
import PascalAsm.Proofs.Simulation.Conditions

/-!
# What a tree without calls touches

The label of a node says how many registers its evaluation needs. It also says which: those on top
of the stack of free registers, and no others but the two that a division works in. So what the
registers further down hold is safe, and that is where the operands that wait are kept: when the
right side is computed first, the two topmost registers change places for it, and the left side
finds the second one taken and is not harder than what is left.

* **`Tree.CallFree`** — the trees of arithmetic expressions and of comparisons between them.
* **`Tree.value?`** — what such a tree evaluates to.
* **`Tree.CallFree.lower_footprint`** — code is made for such a tree whenever the variables are
  bound and registers enough are free; it gives all of them back, touches nothing but the registers
  on top, those of division and the temporary for divisors, and leaves the value, or the two sides
  of the comparison, where it is wanted.

A variable with the name of that temporary shares its slot, and a division may overwrite it before
it is read. So the value is promised only for trees that do not name it; nor is it if the pool hands
out the registers of division: `footprint_misses`.
-/

namespace PascalAsm

open Assembly Lowering Gen State

namespace Lowering

/-! ## Trees without calls -/

namespace Tree

/-- The tree of an integer expression without calls. As an operand of another node, even a variable
or a number is counted with a register. -/
inductive Arithmetic : Bool → Tree → Prop
  | leaf (operand : Bool) (line : Line) (leaf : Leaf) :
    Arithmetic operand (.leaf (leafLabel operand) line leaf)
  | negated (operand : Bool) (line : Line) {child : Tree} (h : Arithmetic true child) :
    Arithmetic operand (child.negated line)
  | joined (operand : Bool) (line : Line) {op : BinOp} {left right : Tree}
    (hop : op.computes = true) (hl : Arithmetic true left) (hr : Arithmetic true right) :
    Arithmetic operand (.joined line op left right)

/-- The tree of an integer expression or of a comparison, without calls. The two are apart because a
value may be a part of either, and a comparison of neither. -/
inductive CallFree : Tree → Prop
  | value {operand : Bool} {t : Tree} (h : Arithmetic operand t) : CallFree t
  | comparison (line : Line) (op : RelOp) {left right : Tree} (hl : Arithmetic true left)
    (hr : Arithmetic true right) : CallFree (.joined line (.compare op) left right)

/-- The variables that the tree names outside calls. What is inside calls is of no use here, since
there are none in the trees that are considered. -/
def names : Tree → List String
  | leaf _ _ (.var name) => [name]
  | leaf _ _ (.int _) | call .. => []
  | negate _ _ child => child.names
  | binary _ _ _ left right => left.names ++ right.names

/-- The value of the tree, if it has no calls and no division traps. It is computed without regard
to registers, and so independent of the order in which sides are. -/
def value? (store : Store) : Tree → Option Int32
  | leaf _ _ l => l.value store
  | call .. => none
  | negate _ _ child => (child.value? store).map (-·)
  | binary _ _ op left right => do op.value? (← left.value? store) (← right.value? store)

/-- The values of the two sides, if the tree is a comparison. They are what ends up in the flags. -/
def sides? (store : Store) : Tree → Option (Int32 × Int32)
  | binary _ _ (.compare _) left right => do return (← left.value? store, ← right.value? store)
  | _ => none

@[simp] theorem value?_leaf (store : Store) (label : Nat) (line : Line) (l : Leaf) :
    (leaf label line l).value? store = l.value store := by rw [value?]

theorem value?_of_leaf? {t : Tree} {line : Line} {l : Leaf} (store : Store)
    (h : t.leaf? = some (line, l)) : t.value? store = l.value store := by
  cases t with
  | leaf label line' l' =>
    obtain ⟨rfl, rfl⟩ := Prod.mk.inj (Option.some.inj h)
    exact value?_leaf ..
  | _ => cases h

/-- The value depends on the variables that are named, and on no others. It is used with the
contents of the slots before and after some code. -/
theorem value?_congr {store store' : Store} : ∀ {t : Tree}, (∀ x ∈ t.names, store x = store' x) →
    t.value? store = t.value? store'
  | leaf _ _ (.var name), h => h name List.mem_cons_self
  | leaf _ _ (.int _), _ | call .., _ => rfl
  | negate _ _ child, h => by rw [value?, value?, value?_congr (t := child) h]
  | binary _ _ _ left right, h => by
    rw [names, List.forall_mem_append] at h
    rw [value?, value?, value?_congr h.1, value?_congr h.2]

theorem sides?_congr {store store' : Store} {t : Tree} (h : ∀ x ∈ t.names, store x = store' x) :
    t.sides? store = t.sides? store' := by
  cases t with
  | binary label line op left right =>
    rw [names, List.forall_mem_append] at h
    cases op with
    | compare => rw [sides?, sides?, value?_congr h.1, value?_congr h.2]
    | _ => rfl
  | _ => rfl

theorem Arithmetic.label_pos {t : Tree} (h : Arithmetic true t) : 1 ≤ t.label := by
  generalize hoperand : true = operand at h
  induction h with
  | leaf => exact hoperand ▸ Nat.le_refl 1
  | negated _ _ _ ih => exact ih rfl
  | joined _ _ _ _ _ ihl _ => exact one_le_joinLabels (ihl rfl)

end Tree

/-- Without calls in the expression, there are none in its tree. By induction on the plan; what is
no value has no plan. -/
theorem arithmetic_of_isArithmetic {e : Expr} (he : e.isArithmetic = true) {operand : Bool}
    {ws : List Warning} {t : Tree} (h : Plan.ofExpr operand e = .ready ws t) :
    t.Arithmetic operand := by
  refine Expr.tree_induction
    (motive := fun operand e t => e.isArithmetic = true → t.Arithmetic operand)
    ?var ?integer ?real ?call ?sign ?add ?mul e h he
  case var | integer | real => intros; exact .leaf ..
  -- A call is the one kind of value that `he` excludes.
  case call => intro _ _ _ _ _ he; cases he
  case sign => intro operand line _ _ ih he; exact .negated operand line (ih he)
  case add =>
    intro operand line op _ _ _ _ hl hr he
    obtain ⟨hleft, hright⟩ := Bool.and_eq_true_iff.1 he
    exact .joined operand line (BinOp.computes_ofAddOp op) (hl hleft) (hr hright)
  case mul =>
    intro operand line op _ _ _ _ hl hr he
    obtain ⟨hleft, hright⟩ := Bool.and_eq_true_iff.1 he
    exact .joined operand line (BinOp.computes_ofMulOp op) (hl hleft) (hr hright)

theorem callFree_of_comparison {left right : Expr} (hleft : left.isArithmetic = true)
    (hright : right.isArithmetic = true) {line : Line} {op : RelOp} {ws : List Warning} {t : Tree}
    (h : Plan.ofComparison line op left right = .ready ws t) : t.CallFree := by
  obtain ⟨_, _, tl, tr, hl, hr, -, rfl⟩ := Plan.joined_eq_ready_iff.1 h
  exact .comparison line op (arithmetic_of_isArithmetic hleft hl)
    (arithmetic_of_isArithmetic hright hr)

/-! ## The registers on top -/

/-- The first registers of a stack of free ones, one at least, and those of a division. -/
def Used (free : List Reg) (label : Nat) (r : Reg) : Prop :=
  r ∈ free.take (max label 1) ∨ r = .rax ∨ r = .rdx

instance (free : List Reg) (label : Nat) : DecidablePred (Used free label) := fun _ =>
  inferInstanceAs (Decidable (_ ∨ _ ∨ _))

namespace Used

variable {free rest : List Reg} {m n : Nat} {a b r : Reg}

theorem rax (free : List Reg) (n : Nat) : Used free n .rax := .inr (.inl rfl)

theorem rdx (free : List Reg) (n : Nat) : Used free n .rdx := .inr (.inr rfl)

theorem top (a : Reg) (rest : List Reg) (n : Nat) : Used (a :: rest) n a := by
  refine .inl ?_
  rw [← Nat.sub_add_cancel (Nat.le_max_right n 1), List.take_succ_cons]
  exact List.mem_cons_self

theorem mono (h : Used free m r) (hle : m ≤ n) : Used free n r :=
  h.imp_left fun hr => (List.take_prefix_take_left (by omega)).subset hr

/-- Below the register on top, one fewer will do. It is the step from the free registers of a side
to those of the whole. -/
theorem below (h : Used rest m r) (hpos : 1 ≤ m) (hlt : m < n) : Used (a :: rest) n r := by
  refine h.imp_left fun hr => ?_
  obtain ⟨k, rfl⟩ : ∃ k, n = k + 1 := ⟨n - 1, by omega⟩
  rw [Nat.max_eq_left (by omega), List.take_succ_cons]
  refine List.mem_cons_of_mem a ((List.take_prefix_take_left ?_).subset hr)
  omega

/-- Where there are two at least, it does not matter which of them is on top. -/
theorem swap (h : Used (b :: a :: rest) n r) (htwo : 2 ≤ n) : Used (a :: b :: rest) n r := by
  refine h.imp_left fun hr => ?_
  obtain ⟨k, rfl⟩ : ∃ k, n = k + 2 := ⟨n - 2, by omega⟩
  rw [Nat.max_eq_left (by omega), List.take_succ_cons, List.take_succ_cons] at hr ⊢
  exact (List.Perm.swap ..).subset hr

end Used

/-! ## Code -/

/-- The code of the tree writes no slot but that of the temporary for divisors, and no registers but
as many from the top as the label says, one at least, and those of a division. -/
structure Tree.Footprint (t : Tree) : Prop where
  storesOnly : t.StoresOnly fun _ x => x = divisorTemp
  clobbers : ∀ ⦃s s' : State⦄ ⦃u : Unit⦄ ⦃c : List Inst⦄, t.lower.Yields s u s' c →
    Clobbers (Used s.pool.free t.label) c

namespace Tree

variable {t left right : Tree} {line : Line} {op : BinOp} {s s' : State} {u : Unit} {c : List Inst}

theorem footprint_leaf (label : Nat) (line : Line) (leaf : Leaf) :
    (Tree.leaf label line leaf).Footprint where
  storesOnly := storesOnly_leaf label line leaf
  clobbers := by
    intro s s' u c h
    obtain ⟨-, rfl, dest, rest, src, hfree, -, rfl⟩ := yields_leaf.1 h
    simp [Clobbers, Inst.writes, Operand.regs, hfree, Used.top]

namespace Footprint

theorem settled (h : t.Footprint) : t.Settled := h.storesOnly.settled

theorem negated (h : t.Footprint) (line : Line) : (t.negated line).Footprint where
  storesOnly := h.storesOnly.negated line
  clobbers := by
    intro s s' u c hc
    obtain ⟨-, c₁, dest, rest, hc₁, hfree, rfl⟩ := yields_negate.1 hc
    obtain ⟨-, hpool, -⟩ := h.settled hc₁
    rw [hpool.free_eq] at hfree
    refine (h.clobbers hc₁).append ?_
    simp [Clobbers, Inst.writes, Operand.regs, hfree, Used.top]

/-- The side that is computed second finds one register less, but needs fewer than there are. -/
theorem clobbers_sides {src : Operand} {dest : Reg} {s₁ : State} {c₁ : List Inst}
    (hl : left.Footprint) (hr : right.Footprint) (hleft : 1 ≤ left.label) (hright : 1 ≤ right.label)
    (h : Sides left right s src dest s₁ c₁) :
    Clobbers (Used s.pool.free (joinLabels left.label right.label)) c₁ := by
  obtain ⟨hlle, hrle, hsame⟩ := joinLabels_le_iff.1 (Nat.le_refl (joinLabels left.label right.label))
  cases h with
  | swapped hlt hfree h₁ h₂ =>
    -- the right side has all of them, the second one first, and the left side all but that one
    rw [hfree]
    refine .append ((hr.clobbers h₁).mono fun r hused => ?_) ((hl.clobbers h₂).mono fun r hused => ?_)
    · exact (hused.mono hrle).swap (by omega)
    · exact (hused.below hleft (by omega)).swap (by omega)
  | ordered hge hfree h₁ h₂ =>
    -- the left side has all of them, and the right side all but the one on top
    have hfirst := hl.clobbers h₁
    rw [hfree] at hfirst ⊢
    refine .append (hfirst.mono fun r hused => ?_) ((hr.clobbers h₂).mono fun r hused => ?_)
    · exact hused.mono hlle
    · exact hused.below hright (by omega)
  | operand hleaf hfree h₁ hsrc => exact (hl.clobbers h₁).mono fun r hused => hused.mono hlle

/-- An operation or a comparison: its sides, and then what combines them. Each side uses as many
registers as its label says, below those that are set aside. -/
theorem clobbers_joined (hl : left.Footprint) (hr : right.Footprint) (hleft : 1 ≤ left.label)
    (hright : 1 ≤ right.label) (h : (Tree.joined line op left right).lower.Yields s u s' c) :
    Clobbers (Used s.pool.free (joinLabels left.label right.label)) c := by
  obtain ⟨src, dest, s₁, s₂, p, c₁, c₂, hsides, hcombine, rfl, -, rfl⟩ :=
    hl.settled.combines hr.settled h
  obtain ⟨rest, hfree⟩ := hsides.exists_free_eq
  refine (hl.clobbers_sides hr hleft hright hsides).append ?_
  rw [hfree]
  exact clobbers_combine (.top dest _ _) (.rax _ _) (.rdx _ _) hcombine

theorem joined (hl : left.Footprint) (hr : right.Footprint) (hleft : 1 ≤ left.label)
    (hright : 1 ≤ right.label) (hop : op.computes = true) (line : Line) :
    (Tree.joined line op left right).Footprint where
  storesOnly := hl.storesOnly.joined hr.storesOnly (fun _ => rfl) hop line
  clobbers := fun _ _ _ _ h => hl.clobbers_joined hr hleft hright h

/-- What the code of the tree does not write, it keeps. This puts both halves of the footprint to
use at once: `storesOnly` for slots and `clobbers` for registers. -/
theorem kept {W : Type} {targets : Targets W} {L : Layout} {m m' : Machine W} (h : t.Footprint)
    (hy : t.lower.Yields s u s' c) (hcov : L.Covers s'.scopes) (hex : execAll targets c m = some m') :
    Kept L (· = divisorTemp) (fun r => ¬ Used s.pool.free t.label r) m m' :=
  execAll_kept hcov (h.storesOnly.stores hy) (h.clobbers hy) hex

end Footprint

/-- The code of every such tree has this footprint. By induction on the tree, as `Arithmetic` has
one constructor for each kind of node. -/
theorem Arithmetic.footprint {operand : Bool} {t : Tree} (h : Arithmetic operand t) :
    t.Footprint := by
  induction h with
  | leaf operand line leaf => exact footprint_leaf _ line leaf
  | negated operand line _ ih => exact ih.negated line
  | joined operand line hop hl hr ihl ihr => exact ihl.joined ihr hl.label_pos hr.label_pos hop line

end Tree

/-! ## Values -/

section

variable {W : Type} {targets : Targets W} {L : Layout}

/-- What the slots of the names hold. Here a name is a variable if the layout places it, whether or
not it was given a value. -/
def Layout.contents (L : Layout) (m : Machine W) : Store := fun x => (L.place x).map m.slots

theorem Layout.contents_kept {P : String → Prop} {R : Reg → Prop} {m m' : Machine W}
    (h : Kept L P R m m') {x : String} (hx : ¬ P x) : L.contents m' x = L.contents m x := by
  unfold Layout.contents
  cases hplace : L.place x with
  | none => rfl
  | some d => exact congrArg some (h.slot hx hplace)

/-- Computing one tree does not change the value of another. It would if that tree named the
temporary for divisors, which `hname` excludes. -/
theorem Tree.Footprint.value?_kept {t t' : Tree} {s s' : State} {u : Unit} {c : List Inst}
    {m m' : Machine W} (h : t.Footprint) (hyields : t.lower.Yields s u s' c)
    (hcov : L.Covers s'.scopes) (hex : execAll targets c m = some m')
    (hname : divisorTemp ∉ t'.names) : t'.value? (L.contents m') = t'.value? (L.contents m) :=
  value?_congr fun _ hx => Layout.contents_kept (h.kept hyields hcov hex) fun e => hname (e ▸ hx)

/-- The operand of a leaf reads its value. `hcov` makes the place of a variable that of its slot. -/
theorem Leaf.read?_operand {leaf : Leaf} {S : Scopes} {op : Operand} {m : Machine W} {v : Int32}
    (hcov : L.Covers S) (ho : leaf.operand? S = some op) (hv : leaf.value (L.contents m) = some v) :
    m.read? op = some v := by
  cases leaf with
  -- `L.contents` reads the place of the name, and `hcov` says that its slot is there.
  | var name =>
    obtain ⟨slot, hfind, rfl⟩ := Option.map_eq_some_iff.1 ho
    obtain ⟨d, hplace, rfl⟩ := Option.map_eq_some_iff.1 hv
    obtain rfl : slot.disp = d := Option.some.inj ((hcov hfind).symm.trans hplace)
    rfl
  | int w =>
    obtain rfl := Option.some.inj ho
    exact hv

/-- The free registers are different ones, and division works in others. It is what is needed of a
pool, apart from what the two pools of the generator have in addition. -/
structure Workable (free : List Reg) : Prop where
  nodup : free.Nodup
  rax : .rax ∉ free
  rdx : .rdx ∉ free

namespace Workable

variable {free rest : List Reg} {a b r : Reg}

theorem below (h : Workable (a :: rest)) : Workable rest where
  nodup := h.nodup.of_cons
  rax := List.not_mem_of_not_mem_cons h.rax
  rdx := List.not_mem_of_not_mem_cons h.rdx

theorem swap (h : Workable (a :: b :: rest)) : Workable (b :: a :: rest) :=
  have hperm : (b :: a :: rest).Perm (a :: b :: rest) := .swap ..
  ⟨hperm.nodup_iff.2 h.nodup, mt hperm.mem_iff.1 h.rax, mt hperm.mem_iff.1 h.rdx⟩

/-- The register on top is not among those that are used when it is taken. So a value that was set
aside there is still there after the next side. -/
theorem not_used (h : Workable (r :: rest)) (n : Nat) : ¬ Used rest n r := by
  rintro (hr | rfl | rfl)
  · exact (List.nodup_cons.1 h.nodup).1 (List.mem_of_mem_take hr)
  · exact h.rax List.mem_cons_self
  · exact h.rdx List.mem_cons_self

end Workable

variable (targets L)

/-- Run on a machine whose slots give the tree a value, its code leaves the value in the register on
top. -/
structure Tree.Evaluates (t : Tree) : Prop where
  footprint : t.Footprint
  run : ∀ ⦃s s' : State⦄ ⦃u : Unit⦄ ⦃c : List Inst⦄ ⦃dest : Reg⦄ ⦃rest : List Reg⦄,
    t.lower.Yields s u s' c → L.Covers s'.scopes → Workable s.pool.free → s.pool.free = dest :: rest →
    divisorTemp ∉ t.names → ∀ ⦃m : Machine W⦄ ⦃v : Int32⦄, t.value? (L.contents m) = some v →
    ∃ m', execAll targets c m = some m' ∧ m'.regs dest = v

variable {targets L}

namespace Tree

variable {t t' left right : Tree} {label : Nat} {line : Line} {op : BinOp} {s s₁ s₂ s' : State}
  {u : Unit} {c c₁ c₂ : List Inst} {dest q r : Reg} {rest : List Reg}

theorem evaluates_leaf (label : Nat) (line : Line) (leaf : Leaf) :
    (Tree.leaf label line leaf).Evaluates targets L where
  footprint := footprint_leaf label line leaf
  run := by
    intro s s' u c dest rest h hcov _ hfree _ m v hv
    obtain ⟨-, rfl, dest', rest', src, hfree', ho, rfl⟩ := yields_leaf.1 h
    obtain ⟨rfl, rfl⟩ := List.cons.inj (hfree'.symm.trans hfree)
    rw [value?_leaf] at hv
    have hread := leaf.read?_operand hcov ho hv
    exact ⟨_, (execAll_cons (exec_movl_reg dest' hread)).trans (execAll_nil _), m.regs_setReg_self ..⟩

namespace Evaluates

theorem settled (h : t.Evaluates targets L) : t.Settled := h.footprint.settled

theorem negated (h : t.Evaluates targets L) (line : Line) : (t.negated line).Evaluates targets L where
  footprint := h.footprint.negated line
  run := by
    intro s s' u c dest rest hc hcov hwork hfree hname m v hv
    obtain ⟨-, c₁, dest', rest', hc₁, hfree', rfl⟩ := yields_negate.1 hc
    obtain ⟨-, hpool, -⟩ := h.settled hc₁
    rw [hpool.free_eq, hfree] at hfree'
    obtain ⟨rfl, rfl⟩ := List.cons.inj hfree'
    obtain ⟨a, ha, rfl⟩ := Option.map_eq_some_iff.1 hv
    -- The operand comes into `dest`, since `hpool` says that it is on top there too.
    obtain ⟨m₁, hex, rfl⟩ := h.run hc₁ hcov hwork hfree hname ha
    refine ⟨m₁.clearFlags.setReg dest (-m₁.regs dest), ?_, Machine.regs_setReg_self ..⟩
    exact execAll_append_of hex ((execAll_cons (exec_negl_reg m₁ dest)).trans (execAll_nil _))

/-- One tree after another. The second does not touch the register of the first, and the first does
not touch the variables of the second. -/
theorem run_two (ht : t.Evaluates targets L) (ht' : t'.Evaluates targets L)
    (h₁ : t.lower.Yields s () s₁ c₁)
    (h₂ : t'.lower.Yields (s₁.withPool (s₁.pool.moved (q :: rest) 1 0)) () s₂ c₂)
    (hcov : L.Covers s₂.scopes) (hwork : Workable s.pool.free) (hfree : s.pool.free = r :: q :: rest)
    (hname : divisorTemp ∉ t.names) (hname' : divisorTemp ∉ t'.names) {m : Machine W} {a b : Int32}
    (ha : t.value? (L.contents m) = some a) (hb : t'.value? (L.contents m) = some b) :
    ∃ m', execAll targets (c₁ ++ c₂) m = some m' ∧ m'.regs r = a ∧ m'.regs q = b := by
  obtain ⟨-, hpool, -⟩ := ht.settled h₁
  obtain ⟨hs₂, -, -⟩ := ht'.settled h₂
  have hcov₁ : L.Covers s₁.scopes := hcov.of_grows hs₂.scopes
  have hall : Workable (r :: q :: rest) := hfree ▸ hwork
  obtain ⟨m₁, hex₁, hr⟩ := ht.run h₁ hcov₁ hwork hfree hname ha
  -- the second tree still has its value, and does not use the register of the first
  rw [← ht.footprint.value?_kept h₁ hcov₁ hex₁ hname'] at hb
  obtain ⟨m₂, hex₂, hq⟩ := ht'.run h₂ hcov hall.below rfl hname' hb
  have hkept₂ := ht'.footprint.kept h₂ hcov hex₂
  exact ⟨m₂, execAll_append_of hex₁ hex₂, (hkept₂.regs r (hall.not_used _)).trans hr, hq⟩

/-- Whichever side comes first, afterwards both have their values. The second side keeps the value
of the first by `not_used`, and reads its variables as they were by `value?_kept`. -/
theorem sides {src : Operand} (hl : left.Evaluates targets L) (hr : right.Evaluates targets L)
    (h : Sides left right s src dest s₁ c₁) (hcov : L.Covers s₁.scopes)
    (hwork : Workable s.pool.free) (hnameLeft : divisorTemp ∉ left.names)
    (hnameRight : divisorTemp ∉ right.names) {m : Machine W} {a b : Int32}
    (ha : left.value? (L.contents m) = some a) (hb : right.value? (L.contents m) = some b) :
    ∃ m', execAll targets c₁ m = some m' ∧ m'.regs dest = a ∧ m'.read? src = some b := by
  cases h with
  | swapped hlt hfree hright hleft =>
    -- the right side comes first, and its value waits in the second register
    have hall := (hfree ▸ hwork).swap
    obtain ⟨m', hex, hvb, hva⟩ :=
      hr.run_two hl hright hleft hcov hall rfl hnameRight hnameLeft hb ha
    exact ⟨m', hex, hva, congrArg some hvb⟩
  | ordered hge hfree hleft hright =>
    obtain ⟨m', hex, hva, hvb⟩ :=
      hl.run_two hr hleft hright hcov hwork hfree hnameLeft hnameRight ha hb
    exact ⟨m', hex, hva, congrArg some hvb⟩
  | operand hleaf hfree hleft hsrc =>
    -- the right side is read after the left side was computed
    obtain ⟨m₁, hex, hva⟩ := hl.run hleft hcov hwork hfree hnameLeft ha
    rw [← hl.footprint.value?_kept hleft hcov hex hnameRight, value?_of_leaf? _ hleaf] at hb
    exact ⟨m₁, hex, hva, Leaf.read?_operand hcov hsrc hb⟩

/-- Before the last instructions of a node over two others, the left side is in the register on top,
and the right side where those instructions read it. -/
theorem operands (hl : left.Evaluates targets L) (hr : right.Evaluates targets L)
    (h : (Tree.binary label line op left right).lower.Yields s u s' c) (hcov : L.Covers s'.scopes)
    (hwork : Workable s.pool.free) (hfree : s.pool.free = dest :: rest)
    (hleft : divisorTemp ∉ left.names) (hright : divisorTemp ∉ right.names) :
    ∃ s₁ s₂ c₁ c₂ src, c = c₁ ++ c₂ ∧ (combine op src dest).Yields s₁ () s₂ c₂ ∧
      L.Covers s₂.scopes ∧ Undivided src ∧ ∀ (m : Machine W) (a b : Int32),
        left.value? (L.contents m) = some a → right.value? (L.contents m) = some b →
        ∃ m', execAll targets c₁ m = some m' ∧ m'.regs dest = a ∧ m'.read? src = some b := by
  obtain ⟨src, dest', s₁, s₂, p, c₁, c₂, hsides, hcombine, rfl, -, rfl⟩ :=
    hl.settled.combines hr.settled h
  -- Whichever side comes first, the result is in the register on top: `exists_free_eq`.
  obtain ⟨rest', hfree'⟩ := hsides.exists_free_eq
  obtain ⟨rfl, rfl⟩ := List.cons.inj (hfree'.symm.trans hfree)
  obtain ⟨hs₂, -, -⟩ := combine_steady 0 hcombine
  have hcov₁ : L.Covers s₁.scopes := hcov.of_grows hs₂.scopes
  exact ⟨s₁, s₂, c₁, c₂, src, rfl, hcombine, hcov, hsides.undivided hwork.rax hwork.rdx,
    fun m a b ha hb => hl.sides hr hsides hcov₁ hwork hleft hright ha hb⟩

theorem joined (hl : left.Evaluates targets L) (hr : right.Evaluates targets L)
    (hleft : 1 ≤ left.label) (hright : 1 ≤ right.label) (hop : op.computes = true) (line : Line) :
    (Tree.joined line op left right).Evaluates targets L where
  footprint := hl.footprint.joined hr.footprint hleft hright hop line
  run := by
    intro s s' u c dest rest h hcov hwork hfree hname m v hv
    -- That no variable is called like the divisor's temporary holds of both sides, by `hname`.
    obtain ⟨hnameLeft, hnameRight⟩ := not_or.1 (mt List.mem_append.2 hname)
    obtain ⟨s₁, s₂, c₁, c₂, src, rfl, hcombine, hcov₂, hsrc, hrun⟩ :=
      hl.operands hr h hcov hwork hfree hnameLeft hnameRight
    obtain ⟨a, ha, hv⟩ := Option.bind_eq_some_iff.1 hv
    obtain ⟨b, hb, hv⟩ := Option.bind_eq_some_iff.1 hv
    obtain ⟨m₁, hex₁, hdest, hread⟩ := hrun m a b ha hb
    obtain ⟨m₂, hex₂, hresult, -, -⟩ := combine_runs 0 hcombine hcov₂ hsrc hdest hread hv
    exact ⟨m₂, execAll_append_of hex₁ hex₂, hresult⟩

end Evaluates

theorem Arithmetic.evaluates {operand : Bool} (h : Arithmetic operand t) : t.Evaluates targets L := by
  induction h with
  | leaf operand line leaf => exact evaluates_leaf _ line leaf
  | negated operand line _ ih => exact ih.negated line
  | joined operand line hop hl hr ihl ihr => exact ihl.joined ihr hl.label_pos hr.label_pos hop line

end Tree

end

/-! ## Success -/

section

variable {names : List String} {regs : List Reg} {operand : Bool} {t : Tree} {s s' : State} {u : Unit}
  {c : List Inst}

/-- With registers enough, code is made for arithmetic over bound variables. Divisions need no more:
a temporary can always be added. -/
theorem Tree.Arithmetic.accepted (h : Arithmetic operand t) (hnames : t.names ⊆ names) :
    t.Accepted names regs True := by
  -- Along the tree; only at a variable is `hnames` asked for anything.
  induction h with
  | leaf operand line leaf =>
    cases leaf with
    | var x =>
      have hx : x ∈ names := hnames (List.mem_singleton_self x)
      intro free hstack hfree hlabel
      exact ((accepted_var (fun _ => hx) _ line) hstack hfree hlabel).congr (iff_true_intro hx)
    | int v => exact accepted_int v _ line
  | negated operand line _ ih => exact (ih hnames).negated line
  | @joined operand line op left right hop hl hr ihl ihr =>
    obtain ⟨hleft, hright⟩ := List.append_subset.1 hnames
    intro free hstack hfree hlabel
    have hboth := (ihl hleft).joined (ihr hright) hl.label_pos hr.label_pos line op
    exact (hboth hstack hfree hlabel).congr (iff_of_eq (and_self True))

namespace Tree.CallFree

theorem accepted (h : t.CallFree) (hnames : t.names ⊆ names) : t.Accepted names regs True := by
  cases h with
  | value h => exact h.accepted hnames
  | @comparison line op left right hl hr =>
    obtain ⟨hleft, hright⟩ := List.append_subset.1 hnames
    intro free hstack hfree hlabel
    have hboth : (Tree.joined line (.compare op) left right).Accepted names regs (True ∧ True) :=
      (hl.accepted hleft).joined (hr.accepted hright) hl.label_pos hr.label_pos line (.compare op)
    exact (hboth hstack hfree hlabel).congr (iff_of_eq (and_self True))

/-- Where the variables are bound, registers enough are all that is needed. A call would need more,
namely a callee that is no built-in procedure and not too many arguments. -/
theorem exists_yields {scope : Scope} {outer : Scopes} (h : t.CallFree)
    (hstack : Stack s.pool.members s.pool.free) (hroom : max t.label 1 ≤ s.pool.free.length)
    (hscopes : s.scopes = scope :: outer) (hbound : ∀ x ∈ t.names, scope.binds x = true) :
    ∃ s' c, t.lower.Yields s () s' c := by
  -- `hbound` says of the scope what `accepted` asks of its names.
  have hnames : t.names ⊆ scope.slots.map (·.name) := fun x hx => Scope.binds_iff.1 (hbound x hx)
  have hne : s.pool.free ≠ [] := fun hnil => by
    rw [hnil, List.length_nil] at hroom
    omega
  have haccepts := h.accepted hnames hstack hne (Nat.le_trans (Nat.le_max_left ..) hroom)
  obtain ⟨u, s', c, hyields⟩ := (haccepts.yields_iff (within_names hscopes)).2 trivial
  exact ⟨s', c, hyields⟩

/-- Comparisons, too, give all registers back and keep to the footprint. It puts the two kinds of
trees together again. -/
theorem stores_clobbers (h : t.CallFree) (hyields : t.lower.Yields s u s' c) :
    Steady (Temp s.callDepth) s s' ∧ s.pool.Restored s'.pool ∧
      Stores (· = divisorTemp) s'.scopes c ∧ Clobbers (Used s.pool.free t.label) c := by
  cases h with
  | value h =>
    obtain ⟨hsteady, hpool, -⟩ := h.footprint.settled hyields
    exact ⟨hsteady, hpool, h.footprint.storesOnly.stores hyields, h.footprint.clobbers hyields⟩
  -- A comparison is no `Footprint` of its own, but both its sides are.
  | comparison line op hl hr =>
    have hleft := hl.footprint
    have hright := hr.footprint
    obtain ⟨hsteady, hpool, -⟩ := hleft.settled.binary hright.settled hyields
    exact ⟨hsteady, hpool, hleft.storesOnly.binary hright.storesOnly (fun _ => rfl) hyields,
      hleft.clobbers_joined hright hl.label_pos hr.label_pos hyields⟩

section

variable {W : Type} {targets : Targets W} {L : Layout} {m : Machine W}

/-- A value ends up in the register on top. Its code has no jumps, so `Reaches.ofExecAll` runs it.
-/
theorem reaches_value {dest : Reg} {rest : List Reg} {v : Int32} (h : t.CallFree)
    (hyields : t.lower.Yields s u s' c) (hcov : L.Covers s'.scopes) (hwork : Workable s.pool.free)
    (hfree : s.pool.free = dest :: rest) (hname : divisorTemp ∉ t.names)
    (hv : t.value? (L.contents m) = some v) :
    ∃ m', Reaches targets c ⟨.ahead c, m, []⟩ ⟨.ahead [], m', []⟩ ∧ m'.regs dest = v ∧
      Kept L (· = divisorTemp) (fun r => ¬ Used s.pool.free t.label r) m m' := by
  cases h with
  | value h =>
    obtain ⟨m', hex, hdest⟩ := h.evaluates.run hyields hcov hwork hfree hname hv
    have hkept := h.footprint.kept hyields hcov hex
    exact ⟨m', by simpa only [List.append_nil] using Reaches.ofExecAll [] [] hex, hdest, hkept⟩
  | comparison line op hl hr =>
    -- a comparison has no value
    obtain ⟨a, -, hv⟩ := Option.bind_eq_some_iff.1 hv
    obtain ⟨b, -, hv⟩ := Option.bind_eq_some_iff.1 hv
    cases hv

/-- The last instruction of a comparison sets the flags from its two sides. Nothing comes between
that instruction and the end of the code. -/
theorem reaches_sides {a b : Int32} (h : t.CallFree) (hyields : t.lower.Yields s u s' c)
    (hcov : L.Covers s'.scopes) (hwork : Workable s.pool.free) (hfree : s.pool.free ≠ [])
    (hname : divisorTemp ∉ t.names) (hsides : t.sides? (L.contents m) = some (a, b)) :
    ∃ m', Reaches targets c ⟨.ahead c, m, []⟩ ⟨.ahead [], m', [⟨0, a, b⟩]⟩ ∧
      m'.flags = some (a, b) ∧
      Kept L (· = divisorTemp) (fun r => ¬ Used s.pool.free t.label r) m m' := by
  obtain ⟨-, -, hstores, hclobbers⟩ := h.stores_clobbers hyields
  cases h with
  | value h =>
    -- a value has no sides
    cases h with
    | leaf | negated => cases hsides
    | @joined _ _ op _ _ hop =>
      cases op with
      | compare => cases hop
      | _ => cases hsides
  | @comparison line op left right hl hr =>
    obtain ⟨dest, rest, hfree⟩ := List.exists_cons_of_ne_nil hfree
    obtain ⟨hnameLeft, hnameRight⟩ := not_or.1 (mt List.mem_append.2 hname)
    obtain ⟨s₁, s₂, c₁, c₂, src, rfl, hcombine, -, -, hrun⟩ :=
      hl.evaluates.operands hr.evaluates hyields hcov hwork hfree hnameLeft hnameRight
    obtain ⟨-, rfl⟩ := yields_emit.1 hcombine
    obtain ⟨x, hx, hsides⟩ := Option.bind_eq_some_iff.1 hsides
    obtain ⟨y, hy, hsides⟩ := Option.bind_eq_some_iff.1 hsides
    obtain ⟨rfl, rfl⟩ := Prod.mk.inj (Option.some.inj hsides)
    obtain ⟨m₁, hex, hdest, hread⟩ := hrun m x y hx hy
    obtain ⟨-, -, -, hone⟩ := hl.footprint.settled.comparison hr.footprint.settled hyields
    have hkept := execAll_kept hcov (Stores.append_iff.1 hstores).1 hclobbers.left hex
    -- it is the only comparison of the code, and so the first one that is noted down
    have hcount : compareCount (c₁ ++ [Inst.cmpl src (.reg dest)]) =
        0 + compareCount [Inst.cmpl src (.reg dest)] := hone
    refine ⟨{ m₁ with flags := some (x, y) }, ?_, rfl, hkept.trans (.ofRegs rfl fun _ _ => rfl)⟩
    refine (Reaches.ofExecAll [Inst.cmpl src (.reg dest)] [] hex).tail ?_
    exact step_cmpl (congrArg some hdest) hread hcount

end

end Tree.CallFree

end

/-! ## The footprint of a tree -/

section

variable {W : Type}

/-- The variables of a scope hold what is in their slots. Names that have no slot have no value. -/
def Scope.contents (scope : Scope) (m : Machine W) : Store := fun x =>
  (scope.find? x).map fun slot => m.slots slot.disp

/-- Nothing has changed but the registers on top, those of a division and the slot of the temporary
for divisors. -/
structure Spared (free : List Reg) (label : Nat) (S : Scopes) (m m' : Machine W) : Prop where
  regs : ∀ r, ¬ Used free label r → m'.regs r = m.regs r
  slots : ∀ d, (∀ slot, S.find? divisorTemp = some slot → slot.disp ≠ d) → m'.slots d = m.slots d

theorem spared_of_kept {S : Scopes} (hlaid : S.Laid) {free : List Reg} {label : Nat}
    {m m' : Machine W}
    (h : Kept (.ofScopes S hlaid) (· = divisorTemp) (fun r => ¬ Used free label r) m m') :
    Spared free label S m m' where
  regs := h.regs
  slots := by
    intro d hd
    refine h.slots d fun x hx hplace => ?_
    obtain ⟨slot, hfind, hdisp⟩ := Option.map_eq_some_iff.1 hplace
    exact hd slot (hx ▸ hfind) hdisp

/-- **The footprint of a tree.** Code is made for every tree without calls whose variables are
bound, if as many registers are free as its label says, and one at least. All of them are free again
afterwards, in the same order. The code makes no calls; it writes no registers but those, the ones
on top, and the two of a division, and no slot but that of the temporary for divisors. If division
works in other registers than the free ones and no variable has the name of that temporary, then
running the code leaves the value of the tree in the register on top, or sets the flags from the
left and the right side of the comparison. -/
theorem Tree.CallFree.lower_footprint {t : Tree} {s : State} {scope : Scope} {outer : Scopes}
    (ht : t.CallFree) (hstack : Stack s.pool.members s.pool.free)
    (hroom : max t.label 1 ≤ s.pool.free.length) (hscopes : s.scopes = scope :: outer)
    (hlaid : scope.Laid) (hbound : ∀ x ∈ t.names, scope.binds x = true) :
    ∃ s' c, t.lower.Yields s () s' c ∧ s'.pool.free = s.pool.free ∧
      Clobbers (Used s.pool.free t.label) c ∧ Stores (· = divisorTemp) s'.scopes c ∧
      (.rax ∉ s.pool.free → .rdx ∉ s.pool.free → divisorTemp ∉ t.names →
        ∀ (targets : Targets W) (m : Machine W), (∀ v, t.value? (scope.contents m) = some v →
          ∃ m', Reaches targets c ⟨.ahead c, m, []⟩ ⟨.ahead [], m', []⟩ ∧
            (∀ dest ∈ s.pool.free.head?, m'.regs dest = v) ∧
            Spared s.pool.free t.label s'.scopes m m') ∧
        ∀ a b, t.sides? (scope.contents m) = some (a, b) →
          ∃ m', Reaches targets c ⟨.ahead c, m, []⟩ ⟨.ahead [], m', [⟨0, a, b⟩]⟩ ∧
            m'.flags = some (a, b) ∧ Spared s.pool.free t.label s'.scopes m m') := by
  obtain ⟨s', c, hyields⟩ := ht.exists_yields hstack hroom hscopes hbound
  obtain ⟨hsteady, hpool, hstores, hclobbers⟩ := ht.stores_clobbers hyields
  refine ⟨s', c, hyields, hpool.free_eq, hclobbers, hstores, fun hax hdx hname targets m => ?_⟩
  have hwork : Workable s.pool.free := ⟨hstack.nodup, hax, hdx⟩
  have hgrows := hsteady.scopes
  rw [hscopes] at hgrows
  have hlaid' : s'.scopes.Laid := hgrows.laid fun _ h => Option.some.inj h ▸ hlaid
  have hcov : (Layout.ofScopes s'.scopes hlaid').Covers s'.scopes := Layout.covers_ofScopes _ _
  -- the variables have the same slots after the temporary was added
  have hcontents : ∀ x ∈ t.names,
      (Layout.ofScopes s'.scopes hlaid').contents m x = scope.contents m x := by
    intro x hx
    obtain ⟨slot, hfind⟩ := Option.isSome_iff_exists.1 (hbound x hx)
    rw [Layout.contents, hcov (hgrows.find? hfind), Scope.contents, hfind]
    rfl
  obtain ⟨dest, rest, hfree⟩ : ∃ dest rest, s.pool.free = dest :: rest := by
    refine List.exists_cons_of_length_pos ?_
    omega
  constructor
  · intro v hv
    rw [← value?_congr hcontents] at hv
    obtain ⟨m', hreaches, hdest, hkept⟩ := ht.reaches_value hyields hcov hwork hfree hname hv
    refine ⟨m', hreaches, fun q hq => ?_, spared_of_kept hlaid' hkept⟩
    rw [hfree] at hq
    exact Option.some.inj hq ▸ hdest
  · intro a b hsides
    rw [← sides?_congr hcontents] at hsides
    have hne : s.pool.free ≠ [] := hfree ▸ List.cons_ne_nil dest rest
    obtain ⟨m', hreaches, hflags, hkept⟩ := ht.reaches_sides hyields hcov hwork hne hname hsides
    exact ⟨m', hreaches, hflags, spared_of_kept hlaid' hkept⟩

/-! ### Two registers, the second one on top

In `x < y div 2` the right side is harder. It is computed in the register below the one on top, and
its divisor gets the only slot that is written. -/

/-- The comparison of a variable with half of another one, as a tree. -/
def lessThanHalf : Tree :=
  .joined 1 (.compare .lt) (.leaf 1 1 (.var "x"))
    (.joined 1 .div (.leaf 1 1 (.var "y")) (.leaf 1 1 (.int 2)))

theorem lower_footprint_lessThanHalf :
    ∃ s' c, lessThanHalf.lower.Yields Expr.exchanged () s' c ∧ s'.pool.free = [.rsi, .rdi] ∧
      ∃ m', Reaches squareTargets c ⟨.ahead c, midwayMachine, []⟩ ⟨.ahead [], m', [⟨0, -7, 2⟩]⟩ ∧
        m'.flags = some (-7, 2) ∧ m'.regs .rcx = 90 := by
  have hplan : Plan.ofComparison 1 .lt (.var 1 "x") (.mul 1 .div (.var 1 "y") (.integer 1 2)) =
      .ready [] lessThanHalf := rfl
  have hfree : lessThanHalf.CallFree := callFree_of_comparison rfl rfl hplan
  -- `y div 2` has a constant divisor, so that the temporary is written on the way.
  obtain ⟨s', c, hyields, hpool, -, -, hrun⟩ :=
    hfree.lower_footprint (s := Expr.exchanged) (W := Unit) ⟨by decide, by decide⟩ (by decide) rfl
      ⟨by decide, by decide⟩ (by decide)
  obtain ⟨-, hsides⟩ := hrun (by decide) (by decide) (by decide) squareTargets midwayMachine
  obtain ⟨m', hreaches, hflags, hspared⟩ := hsides (-7) 2 (by decide)
  exact ⟨s', c, hyields, hpool, m', hreaches, hflags, hspared.regs .rcx (by decide)⟩

/-! ### A name that is taken, no scope, and registers that are not apart

What can go wrong otherwise. In `10 div 2 + $div_const` the divisor is put where the variable is.
Outside all scopes there is no slot for it. And in `(1 + 1) + 7 div 2` the left side must not wait
in a register of the division, nor in one that the pool hands out twice. -/

/-- A run has one end. Steps are determined, so this is a fact about any relation of that kind. -/
theorem Reaches.end_unique {targets : Targets W} {body : List Inst} {start : Config W}
    {m m' : Machine W} {log log' : List Comparison}
    (h : Reaches targets body start ⟨.ahead [], m, log⟩)
    (h' : Reaches targets body start ⟨.ahead [], m', log'⟩) : m = m' := by
  have hstop {m : Machine W} {log : List Comparison} (d : Config W) :
      ¬ step targets body ⟨.ahead [], m, log⟩ = some d := nofun
  -- Of two runs from one start one goes on from the other; at the end it cannot, `hstop`.
  have hdet : Relator.RightUnique fun c d : Config W => step targets body c = some d :=
    fun _ _ _ h h' => Option.some.inj (h.symm.trans h')
  rcases Relation.ReflTransGen.total_of_right_unique hdet h h' with hnext | hnext
  · rcases hnext.cases_head with heq | ⟨d, hstep, -⟩
    · exact congrArg Config.machine heq
    · exact (hstop d hstep).elim
  · rcases hnext.cases_head with heq | ⟨d, hstep, -⟩
    · exact (congrArg Config.machine heq).symm
    · exact (hstop d hstep).elim

/-- Code is made for the tree, and when it has run the value is in the register on top. -/
def Tree.Leaves (t : Tree) (s : State) (m : Machine Unit) (v : Int32) : Prop :=
  ∃ s' c m' dest, t.lower.Yields s () s' c ∧
    Reaches squareTargets c ⟨.ahead c, m, []⟩ ⟨.ahead [], m', []⟩ ∧
    s.pool.free.head? = some dest ∧ m'.regs dest = v

namespace Tree.Leaves

variable {t : Tree} {s : State} {m : Machine Unit} {v w : Int32}

theorem of_run {dest : Reg} (hok : (t.lower.run s).result = .ok ())
    (hdest : s.pool.free.head? = some dest)
    (hex : (execAll squareTargets (t.lower.run s).code m).map (·.regs dest) = some v) :
    t.Leaves s m v := by
  obtain ⟨m', hex, hv⟩ := Option.map_eq_some_iff.1 hex
  rcases hgen : t.lower.run s with ⟨result, s', c⟩
  rw [hgen] at hok hex
  obtain rfl : result = .ok () := hok
  have hreaches : Reaches squareTargets c ⟨.ahead (c ++ []), m, []⟩ _ := .ofExecAll [] [] hex
  rw [List.append_nil] at hreaches
  exact ⟨s', c, m', dest, hgen, hreaches, hdest, hv⟩

theorem not_of_error {e : LoweringError} (h : (t.lower.run s).result = .error e) :
    ¬ t.Leaves s m v := by
  rintro ⟨s', c, m', dest, hyields, -⟩
  rw [hyields] at h
  cases h

theorem unique (hv : t.Leaves s m v) (hw : t.Leaves s m w) : v = w := by
  obtain ⟨s₁, c, m₁, dest, hyields₁, hreaches₁, hdest₁, rfl⟩ := hv
  obtain ⟨s₂, d, m₂, q, hyields₂, hreaches₂, hdest₂, rfl⟩ := hw
  obtain ⟨-, -, rfl⟩ := hyields₁.unique hyields₂
  obtain rfl : dest = q := Option.some.inj (hdest₁.symm.trans hdest₂)
  rw [Reaches.end_unique hreaches₁ hreaches₂]

end Tree.Leaves

/-- The tree has no calls, its variables are bound and registers enough are free, and yet its value
is not what its code leaves. -/
structure Tree.Misses (t : Tree) (s : State) (m : Machine Unit) : Prop where
  callFree : t.CallFree
  room : max t.label 1 ≤ s.pool.free.length
  bound : ∀ x ∈ t.names, (s.scopes.find? x).isSome
  misses : ∃ v, t.value? (fun x => (s.scopes.find? x).map fun slot => m.slots slot.disp) = some v ∧
    ¬ t.Leaves s m v

/-- Half of a number, by a division with a constant divisor. -/
def halfOf (n : Int32) : Tree := .joined 1 .div (.leaf 1 1 (.int n)) (.leaf 1 1 (.int 2))

/-- A sum with a variable that has the name of the temporary. Computing the left side overwrites
what the right side names. -/
def borrowing : Tree := .joined 1 .add (halfOf 10) (.leaf 1 1 (.var divisorTemp))

/-- A sum of numbers. -/
def twoAndHalf : Tree :=
  .joined 1 .add (.joined 1 .add (.leaf 1 1 (.int 1)) (.leaf 1 1 (.int 1))) (halfOf 7)

/-- The body of a routine with that variable. -/
def sharing : State where
  scopes := [⟨[⟨divisorTemp, 4, .local⟩]⟩]
  pool := .ofRegs [.rdi, .rsi, .rcx]

/-- A state outside all scopes. There is no place for the temporary of a division. -/
def unscoped : State where
  pool := .ofRegs [.rdi, .rsi, .rcx]

/-- A pool with a register of division on top. The division overwrites what was just computed into
it. -/
def dividing : State where
  scopes := [argumentAndLocal]
  pool := .ofRegs [.rax, .rdi, .rsi]

/-- A pool that has the same register three times. A value that was set aside is overwritten by the
next one. -/
def repeating : State where
  scopes := [argumentAndLocal]
  pool := .ofRegs [.rdi, .rdi, .rdi]

/-- A machine with this number in all slots. -/
def thirties : Machine Unit := { midwayMachine with slots := fun _ => 30 }

theorem footprint_misses :
    borrowing.Misses sharing thirties ∧ (halfOf 10).Misses unscoped thirties ∧
      twoAndHalf.Misses dividing thirties ∧ twoAndHalf.Misses repeating thirties := by
  have hleaf (l : Leaf) : Tree.Arithmetic true (.leaf 1 1 l) := .leaf true 1 l
  have hhalf (n : Int32) : Tree.Arithmetic true (halfOf n) := .joined true 1 rfl (hleaf _) (hleaf _)
  have hborrowing : borrowing.CallFree := .value (.joined true 1 rfl (hhalf 10) (hleaf _))
  have htwoAndHalf : twoAndHalf.CallFree :=
    .value (.joined true 1 rfl (.joined true 1 rfl (hleaf _) (hleaf _)) (hhalf 7))
  refine ⟨⟨hborrowing, by decide, by decide, 35, by decide, fun h => ?borrowed⟩,
    ⟨.value (hhalf 10), by decide, by decide, 5, by decide, ?unscoped⟩,
    ⟨htwoAndHalf, by decide, by decide, 5, by decide, fun h => ?divided⟩,
    ⟨htwoAndHalf, by decide, by decide, 5, by decide, ?repeated⟩⟩
  case borrowed =>
    -- the variable is 2 when it is added
    have hseven : borrowing.Leaves sharing thirties 7 := .of_run (by cbv) rfl (by cbv)
    exact absurd (h.unique hseven) (by decide)
  case unscoped =>
    have hfails : ((halfOf 10).lower.run unscoped).result =
        .error (.frameLayout (.noScopeFor divisorTemp)) := by cbv
    exact Tree.Leaves.not_of_error hfails
  case divided =>
    -- the quotient replaces the left side
    have hsix : twoAndHalf.Leaves dividing thirties 6 := .of_run (by cbv) rfl (by cbv)
    exact absurd (h.unique hsix) (by decide)
  case repeated =>
    have hfails : (twoAndHalf.lower.run repeating).result =
        .error (.invalidRegister (.freedTwice .rdi)) := by cbv
    exact Tree.Leaves.not_of_error hfails

end

end Lowering

end PascalAsm
