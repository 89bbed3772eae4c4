import PascalAsm.Proofs.Acceptance.Values

/-!
# How generators fail

`Gen.Ends I m J E` is a triple with two postconditions: run in a state with the property `I`, the
generator `m` succeeds, and then the result and the state satisfy `J`, or it fails, and then the error
and the state satisfy `E`. The state matters after an error too, since a scope has to be closed then.

The states in which the code of a body is made are those with `State.Inside`: a scope is open inside
others, and the free registers are known. The errors that may come up there are those with `Blame`: a
fault of a kind that the source is to blame for, on one of certain lines. The registers run out in no
step, and no count is ever wrong.
-/

namespace PascalAsm.Lowering

open Assembly Gen

namespace Gen

variable {α β : Type}

/-- The generator fails with an error and leaves a state. Code that was made before does not matter,
so it is left out; it stands in `Yields` for successes. -/
def Fails (m : Gen α) (s : State) (e : LoweringError) (s' : State) : Prop :=
  ∃ c, m.run s = ⟨.error e, s', c⟩

theorem Yields.not_fails {m : Gen α} {s s₁ s₂ : State} {a : α} {c : List Inst} {e : LoweringError}
    (h : m.Yields s a s₁ c) : ¬ m.Fails s e s₂ := by
  rintro ⟨d, h'⟩
  exact nomatch (Outcome.mk.inj (h.symm.trans h')).1

/-- Generators in sequence fail where the first one fails, or after it where the second one does. -/
theorem fails_bind {m : Gen α} {f : α → Gen β} {s s' : State} {e : LoweringError} :
    (m >>= f).Fails s e s' ↔
      m.Fails s e s' ∨ ∃ a s₁ c, m.Yields s a s₁ c ∧ (f a).Fails s₁ e s' := by
  -- `run_bind_of_error` and `run_bind_of_ok` say how the second one is run, if at all.
  rcases h : m.run s with ⟨e' | a, s₁, c₁⟩
  · simp [Fails, Yields, run_bind_of_error f h, h]
  · simp only [Fails, Yields, run_bind_of_ok f h, h, Outcome.mk.injEq, Except.ok.injEq, reduceCtorEq,
      false_and, exists_false, false_or]
    constructor
    · rintro ⟨c, hr, rfl, rfl⟩
      exact ⟨a, s₁, c₁, ⟨rfl, rfl, rfl⟩, _, by rw [← hr]⟩
    · rintro ⟨_, _, _, ⟨rfl, rfl, rfl⟩, c, hr⟩
      exact ⟨_, by rw [hr], by rw [hr], rfl⟩

theorem fails_ofExcept {r : Except LoweringError α} {s s' : State} {e : LoweringError} :
    (ofExcept r).Fails s e s' ↔ r = .error e ∧ s' = s := by
  simp [Fails, ofExcept, run, eq_comm]

/-- An operation of the pool that fails leaves everything as it was. The refusals of the pool are
few, and `LoweringError.ofPool` gives them their texts. -/
theorem fails_onPool {f : Pool → Except PoolError (α × Pool)} {s s' : State} {e : LoweringError} :
    (onPool f).Fails s e s' ↔ (∃ refusal, f s.pool = .error refusal ∧ e = .ofPool refusal) ∧ s' = s := by
  simp only [Fails, onPool, run]
  rcases f s.pool with refusal | ⟨_, _⟩ <;> simp [eq_comm]

theorem fails_onLine {line : Line} {m : Gen α} {s s' : State} {e : LoweringError} :
    (onLine line m).Fails s e s' ↔ ∃ e', m.Fails s e' s' ∧ e = e'.withLine line := by
  simp only [Fails, onLine, run]
  rcases m s with ⟨_ | _, _, _⟩ <;> simp [mapError_ok, mapError_error, eq_comm, and_comm]

theorem fails_buffered {m : Gen α} {s s' : State} {e : LoweringError} :
    (buffered m).Fails s e s' ↔ m.Fails s e s' := by
  simp only [Fails, buffered, run]
  rcases m s with ⟨_ | _, _, _⟩ <;> simp

theorem fails_collect {m : Gen Unit} {s s' : State} {e : LoweringError} :
    (collect m).Fails s e s' ↔ m.Fails s e s' := by
  simp only [Fails, collect, run]
  rcases m s with ⟨_ | _, _, _⟩ <;> simp [Except.map]

theorem fails_addSlot {region : Region} {name : String} {s s' : State} {e : LoweringError} :
    (addSlot region name).Fails s e s' ↔
      ∃ le, Scopes.add region name s.scopes = .error le ∧ e = .frameLayout le ∧ s' = s := by
  cases h : Scopes.add region name s.scopes with
  | error le =>
    simp [Fails, addSlot, run, bind, Gen.bind, get, ofExcept, h, mapError_error, eq_comm]
  | ok added =>
    simp [Fails, addSlot, run, bind, Gen.bind, get, ofExcept, h, mapError_ok, modify, pure, Gen.pure]

/-- Trying never fails; what would be an error is the result. So what must happen after a failure
can be done before the error is passed on. -/
theorem yields_attempt_error {m : Gen α} {s s' : State} {e : LoweringError} :
    (∃ c, (attempt m).Yields s (.error e) s' c) ↔ m.Fails s e s' := by
  simp only [Fails, Yields, attempt, run]
  rcases m s with ⟨_ | _, _, _⟩ <;> simp

/-- In a state with the property `I` the generator succeeds, and then the result and the state after
it satisfy `J`, or it fails, and then the error and the state satisfy `E`. -/
structure Ends (I : State → Prop) (m : Gen α) (J : α → State → Prop)
    (E : LoweringError → State → Prop) : Prop where
  after : ∀ {s a s' c}, I s → m.Yields s a s' c → J a s'
  fails : ∀ {s e s'}, I s → m.Fails s e s' → E e s'

section

variable {I I' : State → Prop} {m : Gen α} {f : α → Gen β} {J J' : α → State → Prop}
  {K : β → State → Prop} {E E' : LoweringError → State → Prop}

namespace Ends

theorem mono (h : Ends I m J E) (hI : ∀ s, I' s → I s) (hJ : ∀ a s, J a s → J' a s)
    (hE : ∀ e s, E e s → E' e s) : Ends I' m J' E' :=
  ⟨fun hs hm => hJ _ _ (h.after (hI _ hs) hm), fun hs hm => hE _ _ (h.fails (hI _ hs) hm)⟩

theorem imp_start (h : Ends I m J E) (hI : ∀ s, I' s → I s) : Ends I' m J E :=
  h.mono hI (fun _ _ hs => hs) fun _ _ he => he

theorem imp_after (h : Ends I m J E) (hJ : ∀ a s, J a s → J' a s) : Ends I m J' E :=
  h.mono (fun _ hs => hs) hJ fun _ _ he => he

theorem imp_error (h : Ends I m J E) (hE : ∀ e s, E e s → E' e s) : Ends I m J E' :=
  h.mono (fun _ hs => hs) (fun _ _ hs => hs) hE

/-- Nothing has to be said where there are no states. It closes cases that the invariant of the
states rules out. -/
theorem absurd (h : ∀ s, ¬ I s) : Ends I m J E :=
  ⟨fun hs => (h _ hs).elim, fun hs => (h _ hs).elim⟩

/-- A generator that succeeds in all of the states. Drawing a label, giving a warning and adding
code are of this kind. -/
theorem always (h : ∀ s, I s → ∃ a s' c, m.Yields s a s' c ∧ J a s') : Ends I m J E where
  after hs hm := by
    obtain ⟨b, s₁, d, hm', hJ⟩ := h _ hs
    obtain ⟨rfl, rfl, -⟩ := hm.unique hm'
    exact hJ
  fails hs hm := by
    obtain ⟨b, s₁, d, hm', -⟩ := h _ hs
    exact (hm'.not_fails hm).elim

theorem bind (hm : Ends I m J E) (hf : ∀ a, Ends (J a) (f a) K E) : Ends I (m >>= f) K E where
  after hs h := by
    obtain ⟨a, s₁, c₁, c₂, hm', hf', -⟩ := yields_bind.1 h
    exact (hf a).after (hm.after hs hm') hf'
  fails hs h := by
    obtain h | ⟨a, s₁, c, hm', hf'⟩ := fails_bind.1 h
    · exact hm.fails hs h
    · exact (hf a).fails (hm.after hs hm') hf'

/-- If the result of the first generator is known, the second one has to be looked at for this result
only. -/
theorem bind_eq {a : α} {J : State → Prop} (hm : Ends I m (fun b s => b = a ∧ J s) E)
    (hf : Ends J (f a) K E) : Ends I (m >>= f) K E := by
  refine hm.bind fun b => ⟨?_, ?_⟩
  · rintro s _ s' c ⟨rfl, hs⟩ h
    exact hf.after hs h
  · rintro s e s' ⟨rfl, hs⟩ h
    exact hf.fails hs h

/-- What follows on a look at the state may rely on it. The state that was looked at is known to be
the one that the rest starts from. -/
theorem get_bind {f : State → Gen β} (h : ∀ t, I t → Ends (fun s => I s ∧ s = t) (f t) K E) :
    Ends I (get >>= f) K E where
  after hs hm := (h _ hs).after ⟨hs, rfl⟩ (yields_get_bind.1 hm)
  fails hs hm := by
    obtain ⟨c, hm⟩ | ⟨_, _, _, hget, hm⟩ := fails_bind.1 hm
    · exact nomatch (Outcome.mk.inj hm).1
    · obtain ⟨rfl, rfl, -⟩ := yields_get.1 hget
      exact (h _ hs).fails ⟨hs, rfl⟩ hm

/-- Often only the property of the state matters. It is `get_bind` without the equation, for a rest
that uses one part of the state only. -/
theorem look {f : State → Gen β} (h : ∀ t, I t → Ends I (f t) K E) : Ends I (get >>= f) K E :=
  get_bind fun t ht => (h t ht).imp_start fun _ hs => hs.1

/-- After a success it is known which run it was. With it a fact about successful runs, such as the
one about a run that gives back what it takes, can be used. -/
theorem traced (h : Ends I m J E) (t : State) :
    Ends (fun s => I s ∧ s = t) m (fun a s => J a s ∧ ∃ c, m.Yields t a s c) E where
  after := by
    rintro s a s' c ⟨hs, rfl⟩ hm
    exact ⟨h.after hs hm, c, hm⟩
  fails hs hm := h.fails hs.1 hm

theorem ite {p : Prop} {_ : Decidable p} {m' : Gen α} (h : p → Ends I m J E)
    (h' : ¬ p → Ends I m' J E) : Ends I (if p then m else m') J E := by
  by_cases hp : p
  · rw [if_pos hp]
    exact h hp
  · rw [if_neg hp]
    exact h' hp

theorem onLine (h : Ends I m J E) {line : Line} (hE : ∀ e s, E e s → E (e.withLine line) s) :
    Ends I (Gen.onLine line m) J E where
  after hs hm := h.after hs (yields_onLine.1 hm)
  fails hs hm := by
    obtain ⟨e, hm', rfl⟩ := fails_onLine.1 hm
    exact hE _ _ (h.fails hs hm')

theorem buffered (h : Ends I m J E) : Ends I (Gen.buffered m) J E :=
  ⟨fun hs hm => h.after hs (yields_buffered.1 hm), fun hs hm => h.fails hs (fails_buffered.1 hm)⟩

theorem collect {m : Gen Unit} {J : State → Prop} (h : Ends I m (fun _ => J) E) :
    Ends I (Gen.collect m) (fun _ => J) E :=
  ⟨fun hs hm => h.after hs (yields_collect.1 hm).1, fun hs hm => h.fails hs (fails_collect.1 hm)⟩

/-- What follows on a trial has to deal with both outcomes. The rest is a generator on its own,
which may fail again; `E'` is about its errors only. -/
theorem attempt_bind {f : Except LoweringError α → Gen β} (h : Ends I m J E)
    (hok : ∀ a, Ends (J a) (f (.ok a)) K E') (herror : ∀ e, Ends (E e) (f (.error e)) K E') :
    Ends I (attempt m >>= f) K E' := by
  refine bind (J := fun r s => match r with | .ok a => J a s | .error e => E e s)
    ⟨fun {s r s' c} hs hm => ?_, fun {s e s'} _ hm => ?_⟩ fun r => ?_
  -- A trial never fails itself; what `h` says of the two outcomes becomes one condition on `r`.
  · cases r with
    | ok a => exact h.after hs (yields_attempt_ok.1 hm)
    | error e => exact h.fails hs (yields_attempt_error.1 ⟨c, hm⟩)
  · obtain ⟨c, hm⟩ := hm
    simp [run, attempt] at hm
  · cases r with
    | ok a => exact hok a
    | error e => exact herror e

end Ends

theorem ends_pure {a : α} (h : ∀ s, I s → J a s) : Ends I (pure a) J E :=
  .always fun s hs => ⟨a, s, [], yields_pure.2 ⟨rfl, rfl, rfl⟩, h s hs⟩

theorem ends_emit {code : List Inst} : Ends I (emit code) (fun _ => I) E :=
  .always fun s hs => ⟨(), s, code, yields_emit.2 ⟨rfl, rfl⟩, hs⟩

theorem ends_modify {g : State → State} {J : State → Prop} (h : ∀ s, I s → J (g s)) :
    Ends I (modify g) (fun _ => J) E :=
  .always fun s hs => ⟨(), g s, [], yields_modify.2 ⟨rfl, rfl⟩, h s hs⟩

theorem ends_ofExcept {r : Except LoweringError α} (hok : ∀ a, r = .ok a → ∀ s, I s → J a s)
    (herror : ∀ e, r = .error e → ∀ s, I s → E e s) : Ends I (ofExcept r) J E where
  after hs h := by
    obtain ⟨hr, rfl, -⟩ := yields_ofExcept.1 h
    exact hok _ hr _ hs
  fails hs h := by
    obtain ⟨hr, rfl⟩ := fails_ofExcept.1 h
    exact herror _ hr _ hs

theorem ends_ofExcept_ok {a : α} : Ends I (ofExcept (.ok a)) (fun b s => b = a ∧ I s) E :=
  .always fun s hs => ⟨a, s, [], yields_ofExcept.2 ⟨rfl, rfl, rfl⟩, rfl, hs⟩

theorem ends_fail {e : LoweringError} (h : ∀ s, I s → E e s) : Ends I (fail e) J E :=
  ends_ofExcept (fun _ h => nomatch h) fun _ he s hs => Except.error.inj he ▸ h s hs

theorem ends_fail_bind {e : LoweringError} (h : ∀ s, I s → E e s) :
    Ends I ((fail e : Gen α) >>= f) K E :=
  .bind (J := fun _ _ => False) (ends_fail h) fun _ => .absurd fun _ => id

end

end Gen

/-! ## Errors and states -/

/-- The fault is in the source, and not in the generator. The others speak of the generator, which
is also how a target that is no variable is reported. -/
def Fault.isOrdinary : Fault → Bool
  | .expressionTooComplex .. | .tooManyArguments .. | .unsupported _ | .undefinedVariable _ => true
  | .registerExhausted | .registerImbalance .. | .internal _ => false

/-- The error is a fault of some kind on one of some lines. That it has a line at all is part of it.
-/
def LoweringError.Blames (P : Fault → Prop) (lines : List Line) (e : LoweringError) : Prop :=
  ∃ f, P f ∧ ∃ line ∈ lines, e = .onLine f line

namespace LoweringError.Blames

variable {P P' : Fault → Prop} {lines more : List Line} {e : LoweringError} {f : Fault} {line : Line}

theorem mono (h : e.Blames P lines) (hP : ∀ f, P f → P' f) (hlines : lines ⊆ more) :
    e.Blames P' more := by
  obtain ⟨f, hf, line, hline, rfl⟩ := h
  exact ⟨f, hP f hf, line, hlines hline, rfl⟩

/-- A line that is known stays. It is the line that lies nearest to the fault, and outer nodes do
not overwrite it. -/
theorem withLine (h : e.Blames P lines) (line : Line) : (e.withLine line).Blames P lines := by
  obtain ⟨f, hf, known, hknown, rfl⟩ := h
  exact ⟨f, hf, known, hknown, rfl⟩

end LoweringError.Blames

namespace State

/-- One scope is open inside others. Which variables it has by now does not matter for a failure. -/
def Opened (outer : Scopes) (s : State) : Prop := ∃ scope, s.scopes = scope :: outer

/-- A scope is open inside others, and it is known which registers belong to the pool and which are
free. -/
structure Inside (outer : Scopes) (regs free : List Reg) (s : State) : Prop where
  isOpen : s.Opened outer
  members : s.pool.members = regs
  free : s.pool.free = free

/-- Between statements all registers are free. It is `Inside` without an order of the registers, as
`Ready` is for what is accepted. -/
def Rested (outer : Scopes) (regs : List Reg) (s : State) : Prop :=
  ∃ free, free.Perm regs ∧ s.Inside outer regs free

section

variable {outer : Scopes} {regs free free' : List Reg} {s s' : State} {P : String → Prop}

theorem Opened.of_grows (h : s.Opened outer) (hg : Scopes.Grows P s.scopes s'.scopes) :
    s'.Opened outer := by
  obtain ⟨scope, hscope⟩ := h
  rcases hg.slots with heq | ⟨_, scope', outer', _, h₁, h₂, -⟩
  · exact ⟨scope, heq ▸ hscope⟩
  · obtain ⟨-, rfl⟩ := List.cons.inj (h₁.symm.trans hscope)
    exact ⟨scope', h₂⟩

namespace Inside

theorem of_grows (h : s.Inside outer regs free) (hg : Scopes.Grows P s.scopes s'.scopes)
    (hp : s'.pool = s.pool) : s'.Inside outer regs free :=
  ⟨h.isOpen.of_grows hg, hp ▸ h.members, hp ▸ h.free⟩

theorem withPool (h : s.Inside outer regs free) {p : Pool} (hm : p.members = s.pool.members)
    (hf : p.free = free') : (s.withPool p).Inside outer regs free' :=
  ⟨h.isOpen, hm.trans h.members, hf⟩

/-- Only the scopes and the pool matter. -/
theorem congr (h : s.Inside outer regs free) (hs : s'.scopes = s.scopes) (hp : s'.pool = s.pool) :
    s'.Inside outer regs free := by
  refine ⟨?_, hp ▸ h.members, hp ▸ h.free⟩
  rw [Opened, hs]
  exact h.isOpen

theorem rested (h : s.Inside outer regs free) (hperm : free.Perm regs) : s.Rested outer regs :=
  ⟨free, hperm, h⟩

end Inside

theorem Rested.isOpen (h : s.Rested outer regs) : s.Opened outer := by
  obtain ⟨free, -, h⟩ := h
  exact h.isOpen

theorem Rested.congr (h : s.Rested outer regs) (hs : s'.scopes = s.scopes) (hp : s'.pool = s.pool) :
    s'.Rested outer regs := by
  obtain ⟨free, hperm, h⟩ := h
  exact ⟨free, hperm, h.congr hs hp⟩

end

end State

/-- An error that can come up in the code of a body, and the state that it leaves: the fault is of some
kind and on one of some lines, and the scope is still to be closed. -/
structure Blame (P : Fault → Prop) (lines : List Line) (outer : Scopes) (e : LoweringError)
    (s : State) : Prop where
  blames : e.Blames P lines
  isOpen : s.Opened outer

namespace Blame

variable {P P' : Fault → Prop} {lines more : List Line} {outer : Scopes} {e : LoweringError}
  {s s' : State}

theorem mono (h : Blame P lines outer e s) (hP : ∀ f, P f → P' f) (hlines : lines ⊆ more) :
    Blame P' more outer e s :=
  ⟨h.blames.mono hP hlines, h.isOpen⟩

theorem withLine (h : Blame P lines outer e s) (line : Line) :
    Blame P lines outer (e.withLine line) s :=
  ⟨h.blames.withLine line, h.isOpen⟩

/-- Only the scopes matter. -/
theorem congr (h : Blame P lines outer e s) (hs : s'.scopes = s.scopes) : Blame P lines outer e s' := by
  refine ⟨h.blames, ?_⟩
  rw [State.Opened, hs]
  exact h.isOpen

end Blame

/-- A generator that fails for fewer reasons fails for more. The lines of a part are among those of
the whole, which is what it is mostly used for. -/
theorem Gen.Ends.blame_mono {α : Type} {I : State → Prop} {m : Gen α} {J : α → State → Prop}
    {P P' : Fault → Prop} {lines more : List Line} {outer : Scopes}
    (h : Ends I m J (Blame P lines outer)) (hP : ∀ f, P f → P' f) (hlines : lines ⊆ more) :
    Ends I m J (Blame P' more outer) :=
  h.imp_error fun _ _ he => he.mono hP hlines

/-- The errors of values: faults of the source. -/
abbrev ValueBlame : List Line → Scopes → LoweringError → State → Prop := Blame (·.isOrdinary = true)

open State

/-! ## Steps -/

namespace Gen

section

variable {outer : Scopes} {regs free rest : List Reg} {r a b : Reg} {lines : List Line}
  {line : Line} {E : LoweringError → State → Prop}

theorem ends_target : Ends (Inside outer regs (r :: rest)) target
    (fun q s => q = r ∧ s.Inside outer regs (r :: rest)) E :=
  .always fun s hs => ⟨r, s, [], yields_target.2 ⟨⟨rest, hs.free⟩, rfl, rfl⟩, rfl, hs⟩

theorem ends_allocate : Ends (Inside outer regs (r :: rest)) allocate
    (fun q s => q = r ∧ s.Inside outer regs rest) E :=
  .always fun _ hs =>
    ⟨r, _, [], yields_allocate.2 ⟨rest, hs.free, rfl, rfl⟩, rfl, hs.withPool rfl rfl⟩

theorem ends_free (hmem : r ∈ regs) (hnew : r ∉ free) :
    Ends (Inside outer regs free) (Gen.free r) (fun _ => Inside outer regs (r :: free)) E := by
  refine .always fun _ hs => ⟨(), _, [], yields_free.2 ⟨?_, ?_, rfl, rfl⟩, hs.withPool rfl ?_⟩
  · rwa [hs.members]
  · rwa [hs.free]
  · exact congrArg (r :: ·) hs.free

theorem ends_swapTop : Ends (Inside outer regs (a :: b :: rest)) swapTop
    (fun _ => Inside outer regs (b :: a :: rest)) E :=
  .always fun _ hs =>
    ⟨(), _, [], yields_swapTop.2 ⟨a, b, rest, hs.free, rfl, rfl⟩, hs.withPool rfl rfl⟩

theorem ends_warnAll {ws : List Warning} : Ends (Inside outer regs free) (warnAll ws)
    (fun _ => Inside outer regs free) E :=
  ends_modify fun _ hs => hs.congr rfl rfl

/-- A failure is blamed on a fault of the source. The line has to be one of those of the construct,
by `hline`. -/
theorem ends_blame {α : Type} {J : α → State → Prop} {f : Fault} (hf : f.isOrdinary = true)
    (hline : line ∈ lines) :
    Ends (Inside outer regs free) (fail (.onLine f line)) J (ValueBlame lines outer) :=
  ends_fail fun _ hs => ⟨⟨f, hf, line, hline, rfl⟩, hs.isOpen⟩

/-- What needs more registers than the pool has is not begun. Then there are as many free ones as
the label says, which the next step relies on. -/
theorem ends_requireRegs {label : Nat} (hline : line ∈ lines) :
    Ends (Inside outer regs free) (requireRegs label line)
      (fun _ s => label ≤ regs.length ∧ s.Inside outer regs free) (ValueBlame lines outer) := by
  refine .look fun t ht => .ite (fun _ => ends_blame rfl hline) fun hle => ?_
  rw [Pool.capacity, ht.members] at hle
  exact ends_pure fun _ hs => ⟨Nat.not_lt.1 hle, hs⟩

/-- A variable that has no slot is blamed on its line, for one reason or another. It is undefined,
an array, or in an enclosing scope, and all three are ordinary faults. -/
theorem ends_varOperand {x : String} (hline : line ∈ lines) :
    Ends (Inside outer regs free) (varOperand x line) (fun _ => Inside outer regs free)
      (ValueBlame lines outer) := by
  refine .look fun t _ => .bind (J := fun _ => Inside outer regs free) ?_ fun slot =>
    ends_pure fun _ hs => hs
  refine ends_ofExcept (fun slot _ s hs => hs) fun e he s hs => ⟨?_, hs.isOpen⟩
  -- a name without a slot is an array, a variable of another routine, or nothing at all
  rw [State.lookup] at he
  split at he
  · cases he
  · split at he
    · exact ⟨_, rfl, line, hline, (Except.error.inj he).symm⟩
    · split at he
      · exact ⟨_, rfl, line, hline, (Except.error.inj he).symm⟩
      · exact ⟨_, rfl, line, hline, (Except.error.inj he).symm⟩

theorem ends_leafOperand {leaf : Leaf} (hline : line ∈ lines) :
    Ends (Inside outer regs free) (leafOperand line leaf) (fun _ => Inside outer regs free)
      (ValueBlame lines outer) := by
  cases leaf with
  | var x => exact ends_varOperand hline
  | int value => exact ends_pure fun _ hs => hs

theorem ends_tempOperand {x : String} :
    Ends (Inside outer regs free) (tempOperand x) (fun _ => Inside outer regs free) E := by
  refine .always fun s hs => ?_
  obtain ⟨scope, hscopes⟩ := hs.isOpen
  obtain ⟨op, s', h⟩ := exists_tempOperand x (s := s) (by simp [hscopes])
  obtain ⟨hsteady, hpool⟩ := tempOperand_steady (P := fun _ => True) trivial h
  exact ⟨op, s', [], h, hs.of_grows hsteady.scopes hpool⟩

theorem ends_combine {op : BinOp} {src : Operand} {dest : Reg} :
    Ends (Inside outer regs free) (combine op src dest) (fun _ => Inside outer regs free) E := by
  -- a divisor that is a constant is kept in a temporary, which is laid out if need be
  have hdivide (result : Reg) : Ends (Inside outer regs free) (divide result src dest)
      (fun _ => Inside outer regs free) E := by
    rw [divide]
    refine .ite (fun _ => ?_) fun _ => ends_emit
    exact ends_tempOperand.bind fun _ => ends_emit.bind fun _ => ends_emit
  cases op with
  | add | sub | mul | compare => exact ends_emit
  | div | mod => exact hdivide _

theorem ends_saveAll (depth : Nat) : ∀ held : List Reg, Ends (Inside outer regs free)
    (saveAll depth held) (fun _ => Inside outer regs free) E
  | [] => ends_pure fun _ hs => hs
  | r :: held => by
    rw [saveAll]
    exact ends_tempOperand.bind fun _ => ends_emit.bind fun _ =>
      (ends_saveAll depth held).bind fun _ => ends_pure fun _ hs => hs

end

end Gen

end PascalAsm.Lowering
