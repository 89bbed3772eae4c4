import PascalAsm.Proofs.Acceptance.Values
import PascalAsm.Proofs.Generator.Targets

/-!
# Two generations in lockstep

Code for the same thing is made twice, in two states that need not agree in everything: the scopes
around the present one may differ, the second generation may number its labels from elsewhere, and
its pool may have a register more. `m.Mirrors o k V n` says that the second generation does what the
first one does: whenever `m` succeeds, so does `n`, its value is in relation `V`, and its code is
the same but for the numbers of labels (`Renumbered`).

What makes this go through step after step is **`State.Lockstep`**. All that a generator can read
without failing is the same on both sides: the `k` innermost scopes, the depth of calls, and the free
registers. The register that only the second pool has lies below all the others, where nobody who
succeeds without it ever gets.

The rules come first: one for each combinator of the monad, then one for each step.
-/

namespace PascalAsm

open Assembly Lowering

/-! ## Code with other labels -/

namespace Assembly

/-- The second label has the number of the first one, moved by a distance. The distance may be
negative, so it is an integer. -/
def LabelMoved (distance : Int) (a b : String) : Prop :=
  ∃ j k : Nat, a = localLabel j ∧ b = localLabel k ∧ (k : Int) = j + distance

/-- The instructions are the same, but for the number of the label in them. Only labels of the
generator are renumbered; names of functions and of data are the same. -/
inductive Inst.Renumbered (distance : Int) : Inst → Inst → Prop
  | label {a b : String} (h : LabelMoved distance a b) : Renumbered distance (.label a) (.label b)
  | jmp {a b : String} (h : LabelMoved distance a b) : Renumbered distance (.jmp a) (.jmp b)
  | jcc {condition : Condition} {a b : String} (h : LabelMoved distance a b) :
    Renumbered distance (.jcc condition a) (.jcc condition b)
  /-- Other instructions have no number in them. -/
  | same {i : Inst} (hlabel : i.labelName? = none) (htarget : i.target? = none) :
    Renumbered distance i i

/-- The code is the same, but for the numbers of labels. -/
abbrev Renumbered (distance : Int) : List Inst → List Inst → Prop :=
  List.Forall₂ (Inst.Renumbered distance)

/-- The functions are the same, but for the numbers of labels. Frames are the same because slots are
handed out alike. -/
structure Function.Renumbered (distance : Int) (f g : Function) : Prop where
  name : g.name = f.name
  frameSize : g.frameSize = f.frameSize
  body : Assembly.Renumbered distance f.body g.body

/-- Code without labels and jumps stays as it is. So code of values is the same in both generations,
instruction by instruction. -/
theorem renumbered_self {distance : Int} {c : List Inst} (hl : labels c = []) (ht : targets c = []) :
    Renumbered distance c c := by
  rw [labels, List.filterMap_eq_nil_iff] at hl
  rw [targets, List.filterMap_eq_nil_iff] at ht
  exact List.forall₂_same.2 fun i hi => .same (hl i hi) (ht i hi)

theorem Straight.renumbered {distance : Int} {c : List Inst} (h : Straight c) :
    Renumbered distance c c :=
  renumbered_self h.labels_eq h.targets_eq

theorem LabelMoved.eq {a b : String} (h : LabelMoved 0 a b) : b = a := by
  obtain ⟨j, k, rfl, rfl, hk⟩ := h
  have : k = j := by omega
  rw [this]

/-- Moved by nothing, labels are where they were. It is the case of two pools: the labels begin with
the same number. -/
theorem Inst.Renumbered.eq {i j : Inst} (h : i.Renumbered 0 j) : j = i := by
  cases h with
  | label h | jmp h | jcc h => rw [h.eq]
  | same => rfl

theorem Renumbered.eq {c d : List Inst} (h : Renumbered 0 c d) : d = c :=
  (List.forall₂_eq_eq_eq ▸ h.imp fun _ _ hi => hi.eq.symm : c = d).symm

theorem Function.Renumbered.eq {f g : Function} (h : f.Renumbered 0 g) : g = f := by
  cases g
  cases f
  obtain ⟨rfl, rfl, hbody⟩ := h
  simp only [Function.mk.injEq, true_and]
  exact hbody.eq

end Assembly

namespace Lowering

/-! ## States in lockstep -/

/-- Two generations side by side: the states that they begin in, and the registers of their pools,
which are the same but for one that only the second pool may have. -/
structure Pairing where
  first : State
  second : State
  own : List Reg
  extra : List Reg
  registers : extra = [] ∧ (own = [.rdi, .rsi] ∨ own = [.rdi, .rsi, .rcx]) ∨
    extra = [.rcx] ∧ own = [.rdi, .rsi]

namespace Pairing

/-- How many more labels were drawn before the second generation. The distance stays the same from
then on, because labels are drawn in step. -/
def distance (o : Pairing) : Int := o.second.labels - o.first.labels

theorem nodup (o : Pairing) : (o.own ++ o.extra).Nodup := by
  rcases o.registers with ⟨hextra, hown | hown⟩ | ⟨hextra, hown⟩ <;> rw [hextra, hown] <;> decide

theorem not_mem_extra (o : Pairing) {r : Reg} (h : r ∈ o.own) : r ∉ o.extra := fun h' =>
  (List.nodup_append.1 o.nodup).2.2 r h r h' rfl

end Pairing

variable {o : Pairing} {k : Nat}

/-- The second pool has the free registers of the first one in their order, and below them the
registers that only it has. -/
structure Pool.Paired (o : Pairing) (p q : Pool) : Prop where
  members : p.members = o.own
  members' : q.members = o.own ++ o.extra
  free : q.free = p.free ++ o.extra
  nodup : p.free.Nodup
  subset : p.free ⊆ o.own

namespace Pool.Paired

variable {p q : Pool}

theorem moved (h : p.Paired o q) {free free' : List Reg} (hfree : free' = free ++ o.extra)
    (hn : free.Nodup) (hs : free ⊆ o.own) (m n i j : Nat) :
    (p.moved free m n).Paired o (q.moved free' i j) :=
  ⟨h.members, h.members', hfree, hn, hs⟩

/-- The same registers are in use. The further registers of the second pool are free all the time,
so that the same ones are saved around calls. -/
theorem held_eq (h : p.Paired o q) : q.held = p.held := by
  have hown : o.own.filter (· ∉ p.free ++ o.extra) = o.own.filter (· ∉ p.free) := by
    refine List.filter_congr fun r hr => ?_
    simp [o.not_mem_extra hr]
  have hextra : o.extra.filter (· ∉ p.free ++ o.extra) = [] := by
    rw [List.filter_eq_nil_iff]
    intro r hr
    simp [hr]
  rw [Pool.held, Pool.held, h.members', h.members, h.free, List.filter_append, hown, hextra,
    List.append_nil]

theorem nodup_second (h : p.Paired o q) : q.free.Nodup := by
  rw [h.free, List.nodup_append]
  refine ⟨h.nodup, (List.nodup_append.1 o.nodup).2.1, ?_⟩
  rintro r hr r' hr' rfl
  exact o.not_mem_extra (h.subset hr) hr'

theorem capacity_le (h : p.Paired o q) : p.capacity ≤ q.capacity := by
  rw [Pool.capacity, Pool.capacity, h.members', h.members, List.length_append]
  exact Nat.le_add_right _ _

end Pool.Paired

/-- The states have the `k` innermost scopes in common, around which are those of the start. Since the
start the same warnings were given, functions were finished that are the same but for the numbers of
labels, and the same number of labels was drawn. -/
structure State.Lockstep (o : Pairing) (k : Nat) (s t : State) : Prop where
  scopes : ∃ inner, inner.length = k ∧ s.scopes = inner ++ o.first.scopes ∧
    t.scopes = inner ++ o.second.scopes
  pool : s.pool.Paired o t.pool
  labels : (t.labels : Int) = s.labels + o.distance
  callDepth : t.callDepth = s.callDepth
  warnings : ∃ ws, s.warnings = o.first.warnings ++ ws ∧ t.warnings = o.second.warnings ++ ws
  finished : ∃ fs gs, s.finished = o.first.finished ++ fs ∧ t.finished = o.second.finished ++ gs ∧
    List.Forall₂ (Function.Renumbered o.distance) fs gs

namespace State.Lockstep

variable {s t : State}

/-- At the start nothing was done yet. Scopes that are open already may be different ones, and are
not looked at. -/
theorem start (hpool : o.first.pool.Paired o o.second.pool)
    (hdepth : o.second.callDepth = o.first.callDepth) : o.first.Lockstep o 0 o.second where
  scopes := ⟨[], rfl, rfl, rfl⟩
  pool := hpool
  labels := by rw [Pairing.distance]; omega
  callDepth := hdepth
  warnings := ⟨[], by simp, by simp⟩
  finished := ⟨[], [], by simp, by simp, .nil⟩

theorem withPool (h : s.Lockstep o k t) {p q : Pool} (hp : p.Paired o q) :
    (s.withPool p).Lockstep o k (t.withPool q) :=
  { h with pool := hp }

/-- The innermost scope is the same. So a name is found in both states or in neither. -/
theorem head (h : s.Lockstep o (k + 1) t) : ∃ scope outer outer',
    s.scopes = scope :: outer ∧ t.scopes = scope :: outer' := by
  obtain ⟨inner, hlength, hs, ht⟩ := h.scopes
  obtain ⟨scope, rest, rfl⟩ := List.exists_cons_of_length_eq_add_one hlength
  exact ⟨scope, _, _, hs, ht⟩

theorem find?_eq (h : s.Lockstep o (k + 1) t) (name : String) :
    t.scopes.find? name = s.scopes.find? name := by
  obtain ⟨scope, outer, outer', hs, ht⟩ := h.head
  rw [hs, ht]
  rfl

/-- The innermost scopes are extended alike. What is refused in one is refused in the other, since
it is decided by the innermost scope. -/
theorem add (h : s.Lockstep o (k + 1) t) {region : Region} {name : String} {slot : Slot} {S : Scopes}
    (hadd : Scopes.add region name s.scopes = .ok (slot, S)) : ∃ T,
      Scopes.add region name t.scopes = .ok (slot, T) ∧
      State.Lockstep o (k + 1) { s with scopes := S } { t with scopes := T } := by
  obtain ⟨inner, hlength, hs, ht⟩ := h.scopes
  -- `k + 1` scopes are common to both, so there is an innermost one and it is the same.
  obtain ⟨scope, rest, rfl⟩ := List.exists_cons_of_length_eq_add_one hlength
  obtain ⟨scope₁, scope', outer, hs', rfl, hscope⟩ := Scopes.add_eq_ok_iff.1 hadd
  rw [hs, List.cons_append] at hs'
  obtain ⟨rfl, rfl⟩ := List.cons.inj hs'
  refine ⟨scope' :: (rest ++ o.second.scopes), Scopes.add_eq_ok_iff.2 ⟨scope, scope', _, ht, rfl, hscope⟩, ?_⟩
  exact { h with scopes := ⟨scope' :: rest, hlength, rfl, rfl⟩ }

end State.Lockstep

open State

namespace Gen

variable {α β γ δ : Type} {V : α → β → Prop} {W : γ → δ → Prop}

/-- In states in lockstep, the second generator does what the first one does. It is about success
only: where the first one fails, nothing is said of the second. -/
def Mirrors (o : Pairing) (k : Nat) (V : α → β → Prop) (m : Gen α) (n : Gen β) : Prop :=
  ∀ ⦃s t s' : State⦄ ⦃a : α⦄ ⦃c : List Inst⦄, s.Lockstep o k t → m.Yields s a s' c →
    ∃ b t' d, n.Yields t b t' d ∧ V a b ∧ s'.Lockstep o k t' ∧ Renumbered o.distance c d

/-- In states in lockstep, the generator does the same twice. It is what is shown of every generator
that is not handed a label. -/
abbrev Repeats (o : Pairing) (k : Nat) (m : Gen α) : Prop := m.Mirrors o k Eq m

/-! ## Rules -/

theorem Mirrors.pure {a : α} {b : β} (h : V a b) :
    Mirrors o k V (Pure.pure a) (Pure.pure b) := by
  intro s t s' a' c hst hm
  obtain ⟨rfl, rfl, rfl⟩ := yields_pure.1 hm
  exact ⟨b, t, [], yields_pure.2 ⟨rfl, rfl, rfl⟩, h, hst, .nil⟩

theorem repeats_pure (a : α) : (Pure.pure a : Gen α).Repeats o k := Mirrors.pure rfl

theorem Mirrors.bind {m : Gen α} {n : Gen β} {f : α → Gen γ} {g : β → Gen δ}
    (h : m.Mirrors o k V n) (hf : ∀ a b, V a b → (f a).Mirrors o k W (g b)) :
    (m >>= f).Mirrors o k W (n >>= g) := by
  intro s t s' x c hst hm
  obtain ⟨a, s₁, c₁, c₂, hm₁, hm₂, rfl⟩ := yields_bind.1 hm
  obtain ⟨b, t₁, d₁, hn₁, hab, hst₁, hd₁⟩ := h hst hm₁
  obtain ⟨y, t', d₂, hn₂, hxy, hst', hd₂⟩ := hf a b hab hst₁ hm₂
  exact ⟨y, t', d₁ ++ d₂, yields_bind.2 ⟨b, t₁, d₁, d₂, hn₁, hn₂, rfl⟩, hxy, hst',
    List.rel_append hd₁ hd₂⟩

/-- After a step that is the same twice, what follows has to be mirrored for the same value only. -/
theorem Mirrors.andThen {m n : Gen α} {f : α → Gen γ} {g : α → Gen δ} (h : m.Mirrors o k Eq n)
    (hf : ∀ a, (f a).Mirrors o k W (g a)) : (m >>= f).Mirrors o k W (n >>= g) :=
  h.bind fun a _ hab => hab ▸ hf a

/-- Nothing has to be done for what fails. `Mirrors` starts from a success of the first one. -/
theorem mirrors_fail {e : LoweringError} {n : Gen β} : (fail e : Gen α).Mirrors o k V n :=
  fun _ _ _ _ _ _ hm => (yields_fail.1 hm).elim

theorem mirrors_fail_bind {e : LoweringError} {f : γ → Gen α} {n : Gen β} :
    ((fail e : Gen γ) >>= f).Mirrors o k V n := by
  intro s t s' a c _ hm
  obtain ⟨_, _, _, _, hfail, -⟩ := yields_bind.1 hm
  exact (yields_fail.1 hfail).elim

theorem Mirrors.ite {p : Prop} {_ : Decidable p} {m m' : Gen α} {n n' : Gen β}
    (h : m.Mirrors o k V n) (h' : m'.Mirrors o k V n') :
    (if p then m else m').Mirrors o k V (if p then n else n') := by
  split
  · exact h
  · exact h'

theorem mirrors_emit {c d : List Inst} (h : Renumbered o.distance c d) :
    (emit c).Mirrors o k Eq (emit d) := by
  intro s t s' u c' hst hm
  obtain ⟨rfl, rfl⟩ := yields_emit.1 hm
  exact ⟨(), t, d, yields_emit.2 ⟨rfl, rfl⟩, rfl, hst, h⟩

theorem repeats_emit {c : List Inst} (h : Straight c) : (emit c).Repeats o k :=
  mirrors_emit h.renumbered

theorem mirrors_modify {f g : State → State}
    (h : ∀ s t, s.Lockstep o k t → (f s).Lockstep o k (g t)) :
    (modify f).Mirrors o k Eq (modify g) := by
  intro s t s' u c hst hm
  obtain ⟨rfl, rfl⟩ := yields_modify.1 hm
  exact ⟨(), g t, [], yields_modify.2 ⟨rfl, rfl⟩, rfl, h s t hst, .nil⟩

theorem repeats_warnAll (ws : List Warning) : (warnAll ws).Repeats o k := by
  refine mirrors_modify fun s t hst => ?_
  obtain ⟨vs, hs, ht⟩ := hst.warnings
  exact { hst with warnings := ⟨vs ++ ws, by simp [hs], by simp [ht]⟩ }

/-- A label is drawn in both generations, at the distance that all labels have. This is the one
place where the two results are not equal. -/
theorem mirrors_newLabel : newLabel.Mirrors o k (LabelMoved o.distance) newLabel := by
  intro s t s' a c hst hm
  obtain ⟨⟨rfl⟩, rfl, rfl⟩ := Outcome.mk.inj hm
  refine ⟨_, _, [], rfl, ⟨s.labels, t.labels, rfl, rfl, hst.labels⟩, ?_, .nil⟩
  have hlabels := hst.labels
  exact { hst with labels := by dsimp only; omega }

/-! ## Registers -/

theorem repeats_requireRegs (label : Nat) (line : Line) : (requireRegs label line).Repeats o k := by
  intro s t s' u c hst hm
  obtain ⟨hlabel, rfl, rfl⟩ := yields_requireRegs.1 hm
  have hcapacity := hst.pool.capacity_le
  exact ⟨(), t, [], yields_requireRegs.2 ⟨by omega, rfl, rfl⟩, rfl, hst, .nil⟩

theorem repeats_target : target.Repeats o k := by
  intro s t s' r c hst hm
  obtain ⟨⟨rest, hfree⟩, rfl, rfl⟩ := yields_target.1 hm
  refine ⟨r, t, [], yields_target.2 ⟨⟨rest ++ o.extra, ?_⟩, rfl, rfl⟩, rfl, hst, .nil⟩
  rw [hst.pool.free, hfree, List.cons_append]

theorem repeats_allocate : allocate.Repeats o k := by
  intro s t s' r c hst hm
  obtain ⟨rest, hfree, rfl, rfl⟩ := yields_allocate.1 hm
  have hfree' : t.pool.free = r :: (rest ++ o.extra) := by
    rw [hst.pool.free, hfree, List.cons_append]
  have hnodup := hst.pool.nodup
  have hsubset := hst.pool.subset
  rw [hfree] at hnodup hsubset
  refine ⟨r, _, [], yields_allocate.2 ⟨_, hfree', rfl, rfl⟩, rfl, hst.withPool ?_, .nil⟩
  exact hst.pool.moved rfl hnodup.of_cons (List.subset_of_cons_subset hsubset) 1 0 1 0

theorem repeats_free (r : Reg) : (free r).Repeats o k := by
  intro s t s' u c hst hm
  obtain ⟨hmem, hnew, rfl, rfl⟩ := yields_free.1 hm
  rw [hst.pool.members] at hmem
  have hmem' : r ∈ t.pool.members := by
    rw [hst.pool.members']
    exact List.mem_append_left _ hmem
  -- The further registers of the second pool are no members of the first, `o.not_mem_extra`.
  have hnew' : r ∉ t.pool.free := by
    rw [hst.pool.free, List.mem_append, not_or]
    exact ⟨hnew, o.not_mem_extra hmem⟩
  refine ⟨(), _, [], yields_free.2 ⟨hmem', hnew', rfl, rfl⟩, rfl, hst.withPool ?_, .nil⟩
  refine hst.pool.moved ?_ (hst.pool.nodup.cons hnew) (List.cons_subset.2 ⟨hmem, hst.pool.subset⟩) ..
  rw [hst.pool.free, List.cons_append]

theorem repeats_swapTop : swapTop.Repeats o k := by
  intro s t s' u c hst hm
  obtain ⟨a, b, rest, hfree, rfl, rfl⟩ := yields_swapTop.1 hm
  have hfree' : t.pool.free = a :: b :: (rest ++ o.extra) := by
    rw [hst.pool.free, hfree, List.cons_append, List.cons_append]
  have hswap : (b :: a :: rest).Perm s.pool.free := hfree ▸ .swap a b rest
  refine ⟨(), _, [], yields_swapTop.2 ⟨a, b, _, hfree', rfl, rfl⟩, rfl, hst.withPool ?_, .nil⟩
  exact hst.pool.moved rfl (hswap.nodup_iff.2 hst.pool.nodup)
    (List.Subset.trans hswap.subset hst.pool.subset) ..

/-! ## Variables -/

theorem repeats_varOperand (name : String) (line : Line) :
    (varOperand name line).Repeats o (k + 1) := by
  intro s t s' op c hst hm
  obtain ⟨⟨slot, hslot, rfl⟩, rfl, rfl⟩ := yields_varOperand.1 hm
  rw [← hst.find?_eq] at hslot
  exact ⟨_, t, [], yields_varOperand.2 ⟨⟨slot, hslot, rfl⟩, rfl, rfl⟩, rfl, hst, .nil⟩

theorem repeats_tempOperand (name : String) : (tempOperand name).Repeats o (k + 1) := by
  intro s t s' op c hst hm
  obtain ⟨slot, rfl, rfl, ⟨hslot, rfl⟩ | ⟨hnew, S, hadd, rfl⟩⟩ := yields_tempOperand.1 hm
  · rw [← hst.find?_eq] at hslot
    exact ⟨_, t, [], yields_tempOperand.2 ⟨slot, rfl, rfl, .inl ⟨hslot, rfl⟩⟩, rfl, hst, .nil⟩
  · obtain ⟨T, hadd', hst'⟩ := hst.add hadd
    rw [← hst.find?_eq] at hnew
    exact ⟨_, _, [], yields_tempOperand.2 ⟨slot, rfl, rfl, .inr ⟨hnew, T, hadd', rfl⟩⟩, rfl, hst', .nil⟩

theorem repeats_leafOperand (line : Line) (leaf : Leaf) :
    (leafOperand line leaf).Repeats o (k + 1) := by
  cases leaf with
  | var name => exact repeats_varOperand name line
  | int value => exact repeats_pure _

end Gen

end Lowering

end PascalAsm
