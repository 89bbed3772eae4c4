import PascalAsm.Lowering.Routine

/-!
# Successful generation

`m.Yields s a s' c` says that the generator `m`, run in the state `s`, succeeds with `a`, leaves the
state `s'` and has appended the code `c`. For each combinator of the monad one lemma says exactly
when that is so. Read from left to right these lemmas take a success apart; read from right to left
they put one together.
-/

namespace PascalAsm.Lowering

open Assembly

/-! ## Pools that moved on -/

/-- The pool with other free registers, after some more were handed out and taken back. All that a
generator does to a pool is of this form, so that pools can be compared by their free registers and
two numbers. -/
def Pool.moved (p : Pool) (free : List Reg) (taken given : Nat) : Pool :=
  { p with free, allocations := p.allocations + taken, frees := p.frees + given }

namespace Pool

@[simp] theorem members_moved (p : Pool) (free : List Reg) (m n : Nat) :
    (p.moved free m n).members = p.members := rfl

@[simp] theorem capacity_moved (p : Pool) (free : List Reg) (m n : Nat) :
    (p.moved free m n).capacity = p.capacity := rfl

@[simp] theorem free_moved (p : Pool) (free : List Reg) (m n : Nat) :
    (p.moved free m n).free = free := rfl

@[simp] theorem moved_moved (p : Pool) (f g : List Reg) (m n i j : Nat) :
    (p.moved f m n).moved g i j = p.moved g (m + i) (n + j) := by
  simp [moved, Nat.add_assoc]

@[simp] theorem moved_self (p : Pool) : p.moved p.free 0 0 = p := rfl

@[simp] theorem reset_eq (p : Pool) : p.reset = p.moved p.members 0 0 := rfl

@[simp] theorem restore_eq (p : Pool) (free : List Reg) : p.restore free = p.moved free 0 0 := rfl

end Pool

namespace State

/-- The state with another pool. -/
def withPool (s : State) (p : Pool) : State := { s with pool := p }

variable (s : State) (p q : Pool)

@[simp] theorem pool_withPool : (s.withPool p).pool = p := rfl

@[simp] theorem scopes_withPool : (s.withPool p).scopes = s.scopes := rfl

@[simp] theorem arrays_withPool : (s.withPool p).arrays = s.arrays := rfl

@[simp] theorem labels_withPool : (s.withPool p).labels = s.labels := rfl

@[simp] theorem callDepth_withPool : (s.withPool p).callDepth = s.callDepth := rfl

@[simp] theorem finished_withPool : (s.withPool p).finished = s.finished := rfl

@[simp] theorem withPool_withPool : (s.withPool p).withPool q = s.withPool q := rfl

@[simp] theorem withPool_self : s.withPool s.pool = s := rfl

end State

namespace Gen

variable {α β : Type}

/-- Renaming errors does not touch a success. -/
theorem mapError_ok {ε δ : Type} {f : ε → δ} {a : α} : (Except.ok a).mapError f = .ok a := rfl

theorem mapError_error {ε δ : Type} {f : ε → δ} {e : ε} :
    (Except.error e : Except ε α).mapError f = .error (f e) := rfl

theorem mapError_eq_ok_iff {ε δ : Type} {f : ε → δ} {r : Except ε α} {a : α} :
    r.mapError f = .ok a ↔ r = .ok a := by
  cases r <;> simp [mapError_ok, mapError_error]

/-- The generator succeeds with a result, a state and some code. It is the form in which every
generator is described: a lemma `yields_…` for each says when it holds, and from there on no
generator is unfolded. -/
def Yields (m : Gen α) (s : State) (a : α) (s' : State) (c : List Inst) : Prop :=
  m.run s = ⟨.ok a, s', c⟩

theorem yields_iff {m : Gen α} {s s' : State} {a : α} {c : List Inst} :
    m.Yields s a s' c ↔ m.run s = ⟨.ok a, s', c⟩ := Iff.rfl

/-! ## Sequencing -/

@[simp] theorem yields_pure {b : α} {s s' : State} {a : α} {c : List Inst} :
    (pure b : Gen α).Yields s a s' c ↔ a = b ∧ s' = s ∧ c = [] := by
  simp [Yields, eq_comm]

/-- Two generators in sequence succeed when the first one does, and the second one from where the
first one left off. Generators that are written with `do` are taken apart by it, without opening the
monad. -/
theorem yields_bind {m : Gen α} {f : α → Gen β} {s s'' : State} {b : β} {c : List Inst} :
    (m >>= f).Yields s b s'' c ↔
      ∃ a s' c₁ c₂, m.Yields s a s' c₁ ∧ (f a).Yields s' b s'' c₂ ∧ c = c₁ ++ c₂ := by
  -- If the first one fails both sides are false; else `run_bind_of_ok` says how to go on.
  rcases h : m.run s with ⟨_ | a, s₁, c₁⟩
  · simp [Yields, run_bind_of_error f h, h]
  · simp only [Yields, run_bind_of_ok f h, h, Outcome.mk.injEq, Except.ok.injEq]
    constructor
    · rintro ⟨hr, rfl, rfl⟩
      exact ⟨a, s₁, c₁, _, ⟨rfl, rfl, rfl⟩, by rw [← hr], rfl⟩
    · rintro ⟨_, _, _, c₂, ⟨rfl, rfl, rfl⟩, hr, rfl⟩
      simp [hr]

@[simp] theorem yields_fail {e : LoweringError} {s s' : State} {a : α} {c : List Inst} :
    (fail e : Gen α).Yields s a s' c ↔ False := by
  simp [Yields, fail, run]

@[simp] theorem yields_ofExcept {r : Except LoweringError α} {s s' : State} {a : α}
    {c : List Inst} : (ofExcept r).Yields s a s' c ↔ r = .ok a ∧ s' = s ∧ c = [] := by
  simp [Yields, ofExcept, run, eq_comm]

@[simp] theorem yields_get {s s' t : State} {c : List Inst} :
    get.Yields s t s' c ↔ t = s ∧ s' = s ∧ c = [] := by
  simp [Yields, get, run, eq_comm]

@[simp] theorem yields_modify {f : State → State} {s s' : State} {a : Unit} {c : List Inst} :
    (modify f).Yields s a s' c ↔ s' = f s ∧ c = [] := by
  simp [Yields, modify, run, eq_comm]

@[simp] theorem yields_emit {code : List Inst} {s s' : State} {a : Unit} {c : List Inst} :
    (emit code).Yields s a s' c ↔ s' = s ∧ c = code := by
  simp [Yields, emit, run, eq_comm]

@[simp] theorem yields_onLine {line : Line} {m : Gen α} {s s' : State} {a : α} {c : List Inst} :
    (onLine line m).Yields s a s' c ↔ m.Yields s a s' c := by
  simp only [Yields, onLine, run]
  rcases m s with ⟨_ | _, _, _⟩ <;> simp [mapError_ok, mapError_error]

@[simp] theorem yields_buffered {m : Gen α} {s s' : State} {a : α} {c : List Inst} :
    (buffered m).Yields s a s' c ↔ m.Yields s a s' c := by
  simp only [Yields, buffered, run]
  rcases m s with ⟨_ | _, _, _⟩ <;> simp

@[simp] theorem yields_attempt_ok {m : Gen α} {s s' : State} {a : α} {c : List Inst} :
    (attempt m).Yields s (.ok a) s' c ↔ m.Yields s a s' c := by
  simp only [Yields, attempt, run]
  rcases m s with ⟨_ | _, _, _⟩ <;> simp

@[simp] theorem yields_collect {m : Gen Unit} {s s' : State} {code c : List Inst} :
    (collect m).Yields s code s' c ↔ m.Yields s () s' code ∧ c = [] := by
  simp only [Yields, collect, run]
  rcases m s with ⟨_ | _, _, _⟩ <;> simp [Except.map, eq_comm, and_left_comm, and_assoc]

/-- Where only the result is changed, the state and the code are those of the generator. -/
theorem run_map (m : Gen α) (g : α → β) (s : State) :
    (m >>= fun a => pure (g a)).run s =
      ⟨(m.run s).result.map g, (m.run s).state, (m.run s).code⟩ := by
  rcases h : m.run s with ⟨e | a, s', c⟩
  · rw [run_bind_of_error _ h]
    rfl
  · rw [run_bind_of_ok _ h, run_pure, List.append_nil]
    rfl

/-- After a step that is known to succeed, what matters is the rest. It saves naming the state in
between where `h` already fixes it. -/
theorem Yields.bind_iff {m : Gen α} {f : α → Gen β} {s s₁ s' : State} {a : α} {b : β}
    {c₁ c : List Inst} (h : m.Yields s a s₁ c₁) :
    (m >>= f).Yields s b s' c ↔ ∃ c₂, (f a).Yields s₁ b s' c₂ ∧ c = c₁ ++ c₂ := by
  rw [yields_bind]
  constructor
  · rintro ⟨a', s₂, c₂, c₃, h', hf, rfl⟩
    obtain ⟨⟨rfl⟩, rfl, rfl⟩ := Outcome.mk.inj (h.symm.trans h')
    exact ⟨c₃, hf, rfl⟩
  · rintro ⟨c₂, hf, rfl⟩
    exact ⟨a, s₁, c₁, c₂, h, hf, rfl⟩

theorem yields_get_bind {f : State → Gen β} {s s' : State} {b : β} {c : List Inst} :
    (get >>= f).Yields s b s' c ↔ (f s).Yields s b s' c := by
  simp [Yields.bind_iff (yields_get.2 ⟨rfl, rfl, rfl⟩)]

theorem yields_modify_bind {f : State → State} {k : Unit → Gen β} {s s' : State} {b : β}
    {c : List Inst} : (modify f >>= k).Yields s b s' c ↔ (k ()).Yields (f s) b s' c := by
  simp [Yields.bind_iff (a := ()) (yields_modify.2 ⟨rfl, rfl⟩)]

theorem yields_emit_bind {code : List Inst} {k : Unit → Gen β} {s s' : State} {b : β}
    {c : List Inst} :
    (emit code >>= k).Yields s b s' c ↔ ∃ c', (k ()).Yields s b s' c' ∧ c = code ++ c' :=
  Yields.bind_iff (yields_emit.2 ⟨rfl, rfl⟩)

theorem yields_ofExcept_bind {r : Except LoweringError α} {f : α → Gen β} {s s' : State} {b : β}
    {c : List Inst} :
    (ofExcept r >>= f).Yields s b s' c ↔ ∃ a, r = .ok a ∧ (f a).Yields s b s' c := by
  simp only [yields_bind, yields_ofExcept]
  constructor
  · rintro ⟨a, _, _, _, ⟨hr, rfl, rfl⟩, h, rfl⟩
    exact ⟨a, hr, h⟩
  · rintro ⟨a, hr, h⟩
    exact ⟨a, s, [], c, ⟨hr, rfl, rfl⟩, h, rfl⟩

/-- A generator does what it does between two others whose outcome does not depend on it, such as
the opening and closing of something, and fails afterwards if it failed. -/
theorem yields_attempt_ofExcept {m : Gen α} {f : State → State} {k : α → Gen β} {s s'' : State}
    {b : β} {c : List Inst} :
    (do let r ← attempt m; modify f; k (← ofExcept r)).Yields s b s'' c ↔
      ∃ a s' c₁ c₂, m.Yields s a s' c₁ ∧ (k a).Yields (f s') b s'' c₂ ∧ c = c₁ ++ c₂ := by
  rw [yields_bind]
  simp only [yields_modify_bind, yields_ofExcept_bind]
  constructor
  · rintro ⟨_, s', c₁, c₂, hm, ⟨a, rfl, hk⟩, rfl⟩
    exact ⟨a, s', c₁, c₂, yields_attempt_ok.1 hm, hk, rfl⟩
  · rintro ⟨a, s', c₁, c₂, hm, hk, rfl⟩
    exact ⟨.ok a, s', c₁, c₂, yields_attempt_ok.2 hm, ⟨a, rfl, hk⟩, rfl⟩

/-! ## Registers -/

@[simp] theorem yields_onPool {f : Pool → Except PoolError (α × Pool)} {s s' : State} {a : α}
    {c : List Inst} :
    (onPool f).Yields s a s' c ↔ ∃ q, f s.pool = .ok (a, q) ∧ s' = s.withPool q ∧ c = [] := by
  simp only [Yields, onPool, run]
  rcases f s.pool with _ | ⟨_, _⟩
  · simp
  · simp only [Outcome.mk.injEq, Except.ok.injEq, Prod.mk.injEq, and_assoc]
    constructor
    · rintro ⟨rfl, rfl, rfl⟩
      exact ⟨_, rfl, rfl, rfl, rfl⟩
    · rintro ⟨_, rfl, rfl, rfl, rfl⟩
      exact ⟨rfl, rfl, rfl⟩

@[simp] theorem yields_changePool {f : Pool → Except PoolError Pool} {s s' : State} {a : Unit}
    {c : List Inst} :
    (changePool f).Yields s a s' c ↔ ∃ q, f s.pool = .ok q ∧ s' = s.withPool q ∧ c = [] := by
  rw [changePool, yields_onPool]
  rcases f s.pool with _ | q <;> simp [Except.map]

@[simp] theorem yields_askPool {f : Pool → Except PoolError α} {s s' : State} {a : α}
    {c : List Inst} : (askPool f).Yields s a s' c ↔ f s.pool = .ok a ∧ s' = s ∧ c = [] := by
  rw [askPool, yields_onPool]
  rcases f s.pool with _ | b
  · simp [Except.map]
  · simp only [Except.map, Except.ok.injEq, Prod.mk.injEq]
    constructor
    · rintro ⟨_, ⟨rfl, rfl⟩, rfl, rfl⟩
      exact ⟨rfl, rfl, rfl⟩
    · rintro ⟨rfl, rfl, rfl⟩
      exact ⟨_, ⟨rfl, rfl⟩, rfl, rfl⟩

theorem take_eq_ok_iff {p q : Pool} {r : Reg} :
    p.take r = .ok q ↔ r ∈ p.members ∧ r ∈ p.free ∧ q = p.moved (p.free.erase r) 1 0 := by
  by_cases hm : r ∈ p.members <;> by_cases hf : r ∈ p.free <;>
    simp [Pool.take, Pool.moved, hm, hf, eq_comm]

theorem yields_target {s s' : State} {r : Reg} {c : List Inst} :
    target.Yields s r s' c ↔ (∃ rest, s.pool.free = r :: rest) ∧ s' = s ∧ c = [] := by
  rw [target, yields_askPool, Pool.top]
  cases s.pool.free <;> simp

theorem yields_allocate {s s' : State} {r : Reg} {c : List Inst} :
    allocate.Yields s r s' c ↔ ∃ rest, s.pool.free = r :: rest ∧
      s' = s.withPool (s.pool.moved rest 1 0) ∧ c = [] := by
  rw [allocate, yields_onPool]
  rcases h : s.pool.free with _ | ⟨q, rest⟩ <;> simp [Pool.allocate, Pool.moved, h, and_assoc]

theorem yields_free {s s' : State} {r : Reg} {a : Unit} {c : List Inst} :
    (free r).Yields s a s' c ↔ r ∈ s.pool.members ∧ r ∉ s.pool.free ∧
      s' = s.withPool (s.pool.moved (r :: s.pool.free) 0 1) ∧ c = [] := by
  rw [free, yields_changePool]
  by_cases hm : r ∈ s.pool.members <;> by_cases hf : r ∈ s.pool.free <;>
    simp [Pool.give, Pool.moved, hm, hf]

theorem yields_swapTop {s s' : State} {a : Unit} {c : List Inst} :
    swapTop.Yields s a s' c ↔ ∃ q r rest, s.pool.free = q :: r :: rest ∧
      s' = s.withPool (s.pool.moved (r :: q :: rest) 0 0) ∧ c = [] := by
  rw [swapTop, yields_changePool]
  rcases h : s.pool.free with _ | ⟨q, _ | ⟨r, rest⟩⟩
  · simp [Pool.swap, h]
  · simp [Pool.swap, h]
  · simp only [Pool.swap, h, Except.ok.injEq, List.cons.injEq]
    constructor
    · rintro ⟨_, rfl, hs, hc⟩
      exact ⟨q, r, rest, ⟨rfl, rfl, rfl⟩, hs, hc⟩
    · rintro ⟨_, _, _, ⟨rfl, rfl, rfl⟩, hs, hc⟩
      exact ⟨_, rfl, hs, hc⟩

theorem yields_target_bind {f : Reg → Gen β} {s s' : State} {b : β} {c : List Inst} :
    (target >>= f).Yields s b s' c ↔
      ∃ r rest, s.pool.free = r :: rest ∧ (f r).Yields s b s' c := by
  simp only [yields_bind, yields_target]
  constructor
  · rintro ⟨r, _, _, _, ⟨⟨rest, hf⟩, rfl, rfl⟩, h, rfl⟩
    exact ⟨r, rest, hf, h⟩
  · rintro ⟨r, rest, hf, h⟩
    exact ⟨r, s, [], c, ⟨⟨rest, hf⟩, rfl, rfl⟩, h, rfl⟩

/-! ## Variables -/

theorem lookup_eq_ok_iff {s : State} {name : String} {line : Line} {slot : Slot} :
    s.lookup name line = .ok slot ↔ s.scopes.find? name = some slot := by
  rcases h : s.scopes.find? name with _ | q
  · by_cases ha : s.isArray name = true <;> by_cases hb : s.scopes.bindsOutside name = true <;>
      simp [State.lookup, h, ha, hb]
  · simp [State.lookup, h]

theorem yields_varOperand {name : String} {line : Line} {s s' : State} {op : Operand}
    {c : List Inst} :
    (varOperand name line).Yields s op s' c ↔
      (∃ slot, s.scopes.find? name = some slot ∧ op = slot.operand) ∧ s' = s ∧ c = [] := by
  simp only [varOperand, yields_get_bind, yields_ofExcept_bind, yields_pure, lookup_eq_ok_iff]
  constructor
  · rintro ⟨slot, h, rfl, rfl, rfl⟩
    exact ⟨⟨slot, h, rfl⟩, rfl, rfl⟩
  · rintro ⟨⟨slot, h, rfl⟩, rfl, rfl⟩
    exact ⟨slot, h, rfl, rfl, rfl⟩

theorem yields_addSlot {region : Region} {name : String} {s s' : State} {slot : Slot}
    {c : List Inst} :
    (addSlot region name).Yields s slot s' c ↔
      ∃ scopes, Scopes.add region name s.scopes = .ok (slot, scopes) ∧ s' = { s with scopes } ∧
        c = [] := by
  simp only [addSlot, yields_get_bind, yields_ofExcept_bind, yields_modify_bind, yields_pure,
    mapError_eq_ok_iff]
  constructor
  · rintro ⟨⟨_, S⟩, h, rfl, rfl, rfl⟩
    exact ⟨S, h, rfl, rfl⟩
  · rintro ⟨S, h, rfl, rfl⟩
    exact ⟨(slot, S), h, rfl, rfl, rfl⟩

/-- A temporary has a slot already, or is given the next one. Which of the two it is depends on
whether the scope was asked for the name before. -/
theorem yields_tempOperand {name : String} {s s' : State} {op : Operand} {c : List Inst} :
    (tempOperand name).Yields s op s' c ↔ ∃ slot, op = slot.operand ∧ c = [] ∧
      (s.scopes.find? name = some slot ∧ s' = s ∨
        s.scopes.find? name = none ∧ ∃ scopes,
          Scopes.add .temporary name s.scopes = .ok (slot, scopes) ∧ s' = { s with scopes }) := by
  rw [tempOperand, yields_get_bind]
  -- A name that is found leaves the state alone; else `yields_addSlot` gives it one.
  cases hf : s.scopes.find? name with
  | some slot =>
    simp only [yields_pure, Option.some.injEq, reduceCtorEq, false_and, or_false]
    constructor
    · rintro ⟨rfl, rfl, rfl⟩
      exact ⟨slot, rfl, rfl, rfl, rfl⟩
    · rintro ⟨_, rfl, rfl, rfl, rfl⟩
      exact ⟨rfl, rfl, rfl⟩
  | none =>
    simp only [yields_bind, yields_addSlot, yields_pure, reduceCtorEq, false_and, true_and, false_or]
    constructor
    · rintro ⟨slot, _, _, _, ⟨S, hadd, rfl, rfl⟩, ⟨rfl, rfl, rfl⟩, rfl⟩
      exact ⟨slot, rfl, rfl, S, hadd, rfl⟩
    · rintro ⟨slot, rfl, rfl, S, hadd, rfl⟩
      exact ⟨slot, _, [], [], ⟨S, hadd, rfl, rfl⟩, ⟨rfl, rfl, rfl⟩, rfl⟩

end Gen

end PascalAsm.Lowering
