import Mathlib.Data.List.Perm.Subperm
import PascalAsm.Proofs.Generator.Steady

/-!
# Which generators succeed

* **`Gen.Accepts`** — when a generator succeeds, whatever the state is in which it is run: exactly if
  a condition holds that does not mention the state. Conditions of generators in sequence are joined
  by `Accepts.bind`.
* **`State.Within`** — the states in which the code of a routine is made. The innermost scope has
  slots for its variables, and for temporaries besides them; which registers are free is known.
* **`Stack`** — what the free registers can be.

After that there is one lemma for each step that the code of values is made by. Most of them always
succeed; only the use of a variable and the number of registers can go wrong.
-/

namespace PascalAsm.Lowering

open Assembly Gen

namespace Gen

variable {α β : Type}

theorem Yields.unique {m : Gen α} {s s₁ s₂ : State} {a b : α} {c d : List Inst}
    (h : m.Yields s a s₁ c) (h' : m.Yields s b s₂ d) : a = b ∧ s₁ = s₂ ∧ c = d := by
  obtain ⟨⟨rfl⟩, rfl, rfl⟩ := Outcome.mk.inj (h.symm.trans h')
  exact ⟨rfl, rfl, rfl⟩

/-- In every state with the property `I`, the generator succeeds exactly if `Q` holds; the result and
the state after it then satisfy `J`. -/
structure Accepts (I : State → Prop) (m : Gen α) (Q : Prop) (J : α → State → Prop) : Prop where
  yields_iff : ∀ {s}, I s → ((∃ a s' c, m.Yields s a s' c) ↔ Q)
  after : ∀ {s a s' c}, I s → m.Yields s a s' c → J a s'

section

variable {I I' : State → Prop} {m : Gen α} {f : α → Gen β} {Q R : Prop} {J J' : α → State → Prop}
  {K : β → State → Prop}

namespace Accepts

theorem congr (h : Accepts I m Q J) (hQ : Q ↔ R) : Accepts I m R J :=
  ⟨fun hs => (h.yields_iff hs).trans hQ, h.after⟩

theorem mono (h : Accepts I m Q J) (hI : ∀ s, I' s → I s) (hJ : ∀ a s, J a s → J' a s) :
    Accepts I' m Q J' :=
  ⟨fun hs => h.yields_iff (hI _ hs), fun hs hm => hJ _ _ (h.after (hI _ hs) hm)⟩

/-- A generator that succeeds in all of the states. It is for what cannot fail there, such as giving
back the register of a value. -/
theorem always (h : ∀ s, I s → ∃ a s' c, m.Yields s a s' c ∧ J a s') : Accepts I m True J where
  yields_iff hs := by
    obtain ⟨a, s', c, hm, -⟩ := h _ hs
    exact iff_of_true ⟨a, s', c, hm⟩ trivial
  after hs hm := by
    obtain ⟨b, s₁, d, hm', hJ⟩ := h _ hs
    obtain ⟨rfl, rfl, -⟩ := hm.unique hm'
    exact hJ

/-- A generator that fails in all of the states. Expressions without a value are of this kind,
whatever the pool is like. -/
theorem never (h : ∀ {s a s' c}, I s → ¬ m.Yields s a s' c) : Accepts I m False J where
  yields_iff hs := iff_of_false (fun ⟨_, _, _, hm⟩ => h hs hm) not_false
  after hs hm := (h hs hm).elim

/-- Generators in sequence succeed if each of them does. The second condition may be about whatever
the first one has made, as long as the states after it are in `J`. -/
theorem bind (hm : Accepts I m Q J) (hf : ∀ a, Accepts (J a) (f a) R K) :
    Accepts I (m >>= f) (Q ∧ R) K where
  -- `Q` is about the start and `R` about anything in `J`, so that both can be asked at once.
  yields_iff hs := by
    constructor
    · rintro ⟨b, s', c, h⟩
      obtain ⟨a, s₁, c₁, c₂, hm', hf', -⟩ := yields_bind.1 h
      have hs₁ := hm.after hs hm'
      exact ⟨(hm.yields_iff hs).1 ⟨a, s₁, c₁, hm'⟩, ((hf a).yields_iff hs₁).1 ⟨b, s', c₂, hf'⟩⟩
    · rintro ⟨hQ, hR⟩
      obtain ⟨a, s₁, c₁, hm'⟩ := (hm.yields_iff hs).2 hQ
      have hs₁ := hm.after hs hm'
      obtain ⟨b, s', c₂, hf'⟩ := ((hf a).yields_iff hs₁).2 hR
      exact ⟨b, s', c₁ ++ c₂, yields_bind.2 ⟨a, s₁, c₁, c₂, hm', hf', rfl⟩⟩
  after hs h := by
    obtain ⟨a, s₁, c₁, c₂, hm', hf', -⟩ := yields_bind.1 h
    exact (hf a).after (hm.after hs hm') hf'

/-- If the result of the first generator is known, the second one has to be looked at for this result
only. -/
theorem bind_eq {a : α} {J : State → Prop} (hm : Accepts I m Q fun b s => b = a ∧ J s)
    (hf : Accepts J (f a) R K) : Accepts I (m >>= f) (Q ∧ R) K := by
  refine hm.bind fun b => ⟨?_, ?_⟩
  · rintro s ⟨rfl, hs⟩
    exact hf.yields_iff hs
  · rintro s _ s' c ⟨rfl, hs⟩ h
    exact hf.after hs h

/-- What comes after a generator that always succeeds decides. It is `bind` for a first condition
that is `True`, and keeps conditions free of such parts. -/
theorem andThen (hm : Accepts I m True J) (hf : ∀ a, Accepts (J a) (f a) R K) :
    Accepts I (m >>= f) R K :=
  (hm.bind hf).congr (iff_of_eq (true_and R))

theorem andThen_eq {a : α} {J : State → Prop} (hm : Accepts I m True fun b s => b = a ∧ J s)
    (hf : Accepts J (f a) R K) : Accepts I (m >>= f) R K :=
  (hm.bind_eq hf).congr (iff_of_eq (true_and R))

/-- What comes before generators that always succeed decides. It is `bind` for a second condition
that is `True`; the end of a statement is of this kind. -/
theorem finish (hm : Accepts I m Q J) (hf : ∀ a, Accepts (J a) (f a) True K) :
    Accepts I (m >>= f) Q K :=
  (hm.bind hf).congr (iff_of_eq (and_true Q))

theorem finish_eq {a : α} {J : State → Prop} (hm : Accepts I m Q fun b s => b = a ∧ J s)
    (hf : Accepts J (f a) True K) : Accepts I (m >>= f) Q K :=
  (hm.bind_eq hf).congr (iff_of_eq (and_true Q))

end Accepts

theorem accepts_pure {a : α} (h : ∀ s, I s → J a s) : Accepts I (pure a) True J :=
  .always fun s hs => ⟨a, s, [], yields_pure.2 ⟨rfl, rfl, rfl⟩, h s hs⟩

theorem accepts_emit {code : List Inst} : Accepts I (emit code) True fun _ => I :=
  .always fun s hs => ⟨(), s, code, yields_emit.2 ⟨rfl, rfl⟩, hs⟩

theorem accepts_fail {e : LoweringError} : Accepts I (fail e) False J :=
  .never fun _ => yields_fail.1

end

end Gen

/-! ## States -/

/-- None of the names can be taken for a temporary, unless it is the name of a variable. Without it
a body could use a temporary that code before it has laid out. -/
def Apart (S names : List String) : Prop := ∀ x ∈ names, Temp 0 x → x ∈ S

namespace Apart

variable {S names more : List String}

theorem mono (h : Apart S more) (hs : names ⊆ more) : Apart S names := fun x hx => h x (hs hx)

theorem left (h : Apart S (names ++ more)) : Apart S names := h.mono (List.subset_append_left ..)

theorem right (h : Apart S (names ++ more)) : Apart S more := h.mono (List.subset_append_right ..)

theorem of_not_dollar (h : ∀ x ∈ names, ¬ Dollar x) : Apart S names := fun x hx ht =>
  (h x hx (dollar_of_temp ht)).elim

end Apart

/-- The registers can be the free ones of a pool. Lemmas about values are stated over any such
stack, since the free registers change on the way. -/
structure Stack (regs free : List Reg) : Prop where
  nodup : free.Nodup
  subset : free ⊆ regs

namespace Stack

variable {regs free rest : List Reg} {a b : Reg}

theorem length_le (h : Stack regs free) : free.length ≤ regs.length :=
  (List.Nodup.subperm h.nodup h.subset).length_le

theorem tail (h : Stack regs (a :: rest)) : Stack regs rest :=
  ⟨h.nodup.of_cons, fun _ hr => h.subset (List.mem_cons_of_mem a hr)⟩

theorem not_mem (h : Stack regs (a :: rest)) : a ∉ rest := (List.nodup_cons.1 h.nodup).1

theorem mem (h : Stack regs (a :: rest)) : a ∈ regs := h.subset List.mem_cons_self

theorem swap (h : Stack regs (a :: b :: rest)) : Stack regs (b :: a :: rest) :=
  ⟨(List.Perm.swap a b rest).nodup_iff.2 h.nodup,
    fun _ hr => h.subset ((List.Perm.swap a b rest).mem_iff.1 hr)⟩

theorem of_perm (hn : regs.Nodup) (h : free.Perm regs) : Stack regs free :=
  ⟨h.nodup_iff.2 hn, h.subset⟩

/-- When all registers are free, one of them is on top. What computes a value needs at least this
one. -/
theorem exists_top (hne : regs ≠ []) (h : free.Perm regs) : ∃ r rest, free = r :: rest :=
  List.exists_cons_of_ne_nil fun hnil => hne (List.perm_nil.1 (hnil ▸ h.symm))

end Stack

namespace State

/-- The innermost scope has slots for the variables, and for temporaries besides them; which registers
belong to the pool and which are free is known. -/
structure Within (S : List String) (regs free : List Reg) (s : State) : Prop where
  isOpen : s.scopes ≠ []
  bound : ∀ x ∈ S, ∃ slot, s.scopes.find? x = some slot
  known : ∀ {x slot}, s.scopes.find? x = some slot → x ∈ S ∨ Temp 0 x
  members : s.pool.members = regs
  free : s.pool.free = free

namespace Within

variable {S : List String} {regs free free' : List Reg} {s s' : State}

theorem of_grows {depth : Nat} (h : s.Within S regs free)
    (hg : Scopes.Grows (Temp depth) s.scopes s'.scopes)
    (hm : s'.pool.members = s.pool.members) (hf : s'.pool.free = free') :
    s'.Within S regs free' where
  isOpen hnil := by
    rcases hg.slots with heq | ⟨_, _, _, _, -, heq, -⟩
    · exact h.isOpen (heq.trans hnil)
    · rw [hnil] at heq
      simp at heq
  bound x hx := (h.bound x hx).imp fun _ hfind => hg.find? hfind
  -- A name that is new is a temporary at some depth, so it is one at depth 0.
  known hfind := by
    rcases hg.find?_inv hfind with hold | ⟨hnew, -⟩
    · exact h.known hold
    · exact .inr (hnew.mono (Nat.zero_le _))
  members := hm.trans h.members
  free := hf

theorem withPool (h : s.Within S regs free) {p : Pool} (hm : p.members = s.pool.members)
    (hf : p.free = free') : (s.withPool p).Within S regs free' :=
  ⟨h.isOpen, h.bound, h.known, hm.trans h.members, hf⟩

/-- Only the scopes and the pool matter. So labels, warnings and the count of calls may be changed
in between. -/
theorem congr (h : s.Within S regs free) (hs : s'.scopes = s.scopes) (hp : s'.pool = s.pool) :
    s'.Within S regs free := by
  have hg : Scopes.Grows (Temp 0) s.scopes s'.scopes := hs ▸ .refl _
  exact h.of_grows hg (hp ▸ rfl) (hp ▸ h.free)

end Within

/-- An open scope is the scope of exactly the names that it has slots for. The members and the free
registers of its pool are those it has, so there is nothing to show about them. -/
theorem within_names {s : State} {scope : Scope} {outer : Scopes}
    (hscopes : s.scopes = scope :: outer) :
    s.Within (scope.slots.map (·.name)) s.pool.members s.pool.free := by
  -- Only the innermost scope is looked at.
  have hfind (x : String) : s.scopes.find? x = scope.find? x := by rw [hscopes]; rfl
  refine ⟨?isOpen, fun x hx => ?bound, fun {x slot} hslot => .inl ?known, rfl, rfl⟩
  case isOpen =>
    rw [hscopes]
    exact List.cons_ne_nil _ _
  case bound =>
    rw [hfind]
    exact Option.ne_none_iff_exists'.1 fun hnone => Scope.find?_eq_none_iff.1 hnone hx
  case known =>
    rw [hfind] at hslot
    exact (Scope.mem_of_find? hslot).2 ▸ List.mem_map_of_mem (Scope.mem_of_find? hslot).1

/-- Between statements all registers are free, in some order. Which of them is first depends on what
was computed before, so statements are about all orders at once. -/
def Ready (S : List String) (regs : List Reg) (s : State) : Prop :=
  ∃ free, free.Perm regs ∧ s.Within S regs free

theorem Within.ready {S : List String} {regs free : List Reg} {s : State}
    (h : s.Within S regs free) (hperm : free.Perm regs) : s.Ready S regs :=
  ⟨free, hperm, h⟩

end State

open State

/-! ## Steps -/

namespace Gen

section

variable {S : List String} {regs free rest : List Reg} {r a b : Reg}

theorem accepts_target : Accepts (Within S regs (r :: rest)) target True
    fun q s => q = r ∧ s.Within S regs (r :: rest) :=
  .always fun s hs => ⟨r, s, [], yields_target.2 ⟨⟨rest, hs.free⟩, rfl, rfl⟩, rfl, hs⟩

theorem accepts_allocate : Accepts (Within S regs (r :: rest)) allocate True
    fun q s => q = r ∧ s.Within S regs rest :=
  .always fun _ hs =>
    ⟨r, _, [], yields_allocate.2 ⟨rest, hs.free, rfl, rfl⟩, rfl, hs.withPool rfl rfl⟩

theorem accepts_free (hmem : r ∈ regs) (hnew : r ∉ free) :
    Accepts (Within S regs free) (Gen.free r) True fun _ => Within S regs (r :: free) := by
  refine .always fun _ hs => ⟨(), _, [], yields_free.2 ⟨?_, ?_, rfl, rfl⟩, hs.withPool rfl ?_⟩
  · rwa [hs.members]
  · rwa [hs.free]
  · exact congrArg (r :: ·) hs.free

theorem accepts_swapTop : Accepts (Within S regs (a :: b :: rest)) swapTop True
    fun _ => Within S regs (b :: a :: rest) :=
  .always fun _ hs =>
    ⟨(), _, [], yields_swapTop.2 ⟨a, b, rest, hs.free, rfl, rfl⟩, hs.withPool rfl rfl⟩

theorem accepts_requireRegs {label : Nat} {line : Line} :
    Accepts (Within S regs free) (requireRegs label line) (label ≤ regs.length)
      fun _ => Within S regs free := by
  refine ⟨fun {s} hs => ?_, fun hs h => ?_⟩
  · have hcapacity : s.pool.capacity = regs.length := congrArg List.length hs.members
    rw [← hcapacity]
    -- The capacity of the pool is the length of `regs`, `hcapacity`.
    constructor
    · rintro ⟨_, _, _, h⟩
      exact (yields_requireRegs.1 h).1
    · exact fun hlabel => ⟨(), s, [], yields_requireRegs.2 ⟨hlabel, rfl, rfl⟩⟩
  · obtain ⟨-, rfl, -⟩ := yields_requireRegs.1 h
    exact hs

/-- A variable has a slot exactly if it is one of those in scope; no temporary may be taken for it. -/
theorem accepts_varOperand {x : String} {line : Line} (hx : Temp 0 x → x ∈ S) :
    Accepts (Within S regs free) (varOperand x line) (x ∈ S) fun _ => Within S regs free := by
  refine ⟨fun {s} hs => ?_, fun hs h => ?_⟩
  · constructor
    · rintro ⟨_, _, _, h⟩
      obtain ⟨⟨slot, hfind, -⟩, -⟩ := yields_varOperand.1 h
      -- What is found is in scope or a temporary, and `hx` takes care of the latter.
      exact (hs.known hfind).elim id hx
    · intro hmem
      obtain ⟨slot, hfind⟩ := hs.bound x hmem
      exact ⟨slot.operand, s, [], yields_varOperand.2 ⟨⟨slot, hfind, rfl⟩, rfl, rfl⟩⟩
  · obtain ⟨-, rfl, -⟩ := yields_varOperand.1 h
    exact hs

/-- There is always room for a temporary: its region is the last one of a frame. It either has a
slot already or is laid out now. -/
theorem exists_tempOperand (x : String) {s : State} (hopen : s.scopes ≠ []) :
    ∃ op s', (tempOperand x).Yields s op s' [] := by
  cases hfind : s.scopes.find? x with
  | some slot => exact ⟨slot.operand, s, yields_tempOperand.2 ⟨slot, rfl, rfl, .inl ⟨hfind, rfl⟩⟩⟩
  | none =>
    obtain ⟨scope, outer, hscopes⟩ := List.exists_cons_of_ne_nil hopen
    -- No region comes after that of the temporaries, so it is never closed.
    have hlast : scope.isClosed .temporary = false := by
      rw [Scope.isClosed, List.any_eq_false]
      intro slot _
      cases slot.region <;> simp [Region.rank]
    have hadd : Scopes.add .temporary x s.scopes =
        .ok (scope.nextSlot .temporary x, ⟨scope.slots ++ [scope.nextSlot .temporary x]⟩ :: outer) := by
      rw [hscopes] at hfind ⊢
      exact Scopes.add_eq_ok_iff.2 ⟨scope, _, outer, rfl, rfl,
        Scope.add_eq_ok_iff.2 ⟨hlast, hfind, rfl, rfl⟩⟩
    exact ⟨_, _, yields_tempOperand.2 ⟨_, rfl, rfl, .inr ⟨hfind, _, hadd, rfl⟩⟩⟩

theorem accepts_tempOperand {x : String} (hx : Temp 0 x) :
    Accepts (Within S regs free) (tempOperand x) True fun _ => Within S regs free := by
  refine .always fun s hs => ?_
  obtain ⟨op, s', h⟩ := exists_tempOperand x hs.isOpen
  obtain ⟨hsteady, hpool⟩ := tempOperand_steady hx h
  exact ⟨op, s', [], h, hs.of_grows hsteady.scopes (hpool ▸ rfl) (hpool ▸ hs.free)⟩

theorem accepts_divide {result dest : Reg} {divisor : Operand} :
    Accepts (Within S regs free) (divide result divisor dest) True fun _ => Within S regs free := by
  rw [divide]
  split
  · refine (accepts_tempOperand .divisor).andThen fun slot => ?_
    refine accepts_emit.andThen fun _ => ?_
    exact (accepts_pure fun _ hs => hs).andThen fun _ => accepts_emit
  · exact (accepts_pure fun _ hs => hs).andThen fun _ => accepts_emit

theorem accepts_combine {op : BinOp} {src : Operand} {dest : Reg} :
    Accepts (Within S regs free) (combine op src dest) True fun _ => Within S regs free := by
  cases op with
  | add | sub | mul | compare => exact accepts_emit
  | div | mod => exact accepts_divide

end

end Gen

end PascalAsm.Lowering
