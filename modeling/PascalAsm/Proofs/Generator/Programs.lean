import PascalAsm.Compile
import PascalAsm.Proofs.Generator.Routines

/-!
# When a program is compiled

Once the routines of a program are completed, two more things can go wrong: the names of functions
can clash, and a frame can be of the wrong size. `Program.compile_eq_ok_iff` takes a compilation
apart into these steps. No frame is ever of the wrong size: `Program.exists_compile_iff`.
-/

namespace PascalAsm

open Assembly Lowering Gen State

/-- Two steps succeed when the first one does, and the second one with its result. The steps of a
compilation that are no generators are taken apart by it, as those that are by `yields_bind`. -/
theorem bind_eq_ok_iff {ε α β : Type} {x : Except ε α} {f : α → Except ε β} {b : β} :
    (x >>= f) = .ok b ↔ ∃ a, x = .ok a ∧ f a = .ok b := by
  cases x with
  | error e => exact Iff.intro nofun nofun
  | ok a =>
    constructor
    · exact fun h => ⟨a, rfl, h⟩
    · rintro ⟨_, ha, h⟩
      obtain rfl := Except.ok.inj ha
      exact h

theorem exists_of_isOk {ε α : Type} {x : Except ε α} (h : x.isOk = true) : ∃ a, x = .ok a := by
  cases x with
  | error e => cases h
  | ok a => exact ⟨a, rfl⟩

/-- A function is applied to all values of a list if it gives a result for each of them. -/
theorem mapM_eq_ok_iff {ε α β : Type} {f : α → Except ε β} {xs : List α} {ys : List β} :
    xs.mapM f = .ok ys ↔ List.Forall₂ (fun x y => f x = .ok y) xs ys := by
  -- Along the values: the first result, and by `ih` those of the rest.
  induction xs generalizing ys with
  | nil => simp [pure, Except.pure, eq_comm]
  | cons x xs ih =>
    simp only [List.mapM_cons, bind_eq_ok_iff, ih, List.forall₂_cons_left_iff]
    constructor
    · rintro ⟨y, hy, ys', hys, h⟩
      exact ⟨y, ys', hy, hys, (Except.ok.inj h).symm⟩
    · rintro ⟨y, ys', hy, hys, rfl⟩
      exact ⟨y, hy, ys', hys, rfl⟩

/-! ## Units as text -/

namespace Assembly

theorem Function.exists_render_iff {f : Function} :
    (∃ text, f.render = .ok text) ↔ f.frameSize % Convention.stackAlignment = 0 := by
  rw [Function.render, Function.code, Frame.make]
  by_cases h : f.frameSize % Convention.stackAlignment = 0
  · simp [h, Except.map]
  · simp [h, Except.map]

/-- The texts of functions can be made if each of them can. Which of them is the first to fail does
not matter for this. -/
theorem exists_mapM_render_iff {fs : List Function} :
    (∃ texts, fs.mapM Function.render = .ok texts) ↔ ∀ f ∈ fs, ∃ text, f.render = .ok text := by
  induction fs with
  | nil => exact ⟨fun _ f hf => (List.not_mem_nil hf).elim, fun _ => ⟨[], rfl⟩⟩
  | cons f fs ih =>
    rw [List.forall_mem_cons, ← ih]
    simp only [List.mapM_cons, bind_eq_ok_iff]
    constructor
    · rintro ⟨_, text, hf, texts, hfs, -⟩
      exact ⟨⟨text, hf⟩, texts, hfs⟩
    · rintro ⟨⟨text, hf⟩, texts, hfs⟩
      exact ⟨text :: texts, text, hf, texts, hfs, rfl⟩

/-- A unit has a text if its names do not clash and its frames keep the stack aligned. -/
theorem Program.exists_render_iff {unit : Program} :
    (∃ text, unit.render = .ok text) ↔ "main" ∉ unit.functions.map (·.name) ∧
      (unit.functions.map (·.name)).Nodup ∧
      ∀ f ∈ unit.functions, f.frameSize % Convention.stackAlignment = 0 := by
  rw [Program.render]
  cases hclash : firstClash? (unit.functions.map (·.name)) with
  | some name =>
    have hbad := mt (firstClash?_eq_none_iff _).2 (by rw [hclash]; exact Option.some_ne_none name)
    exact ⟨fun ⟨_, h⟩ => (nomatch h), fun ⟨hmain, hnodup, _⟩ => (hbad ⟨hmain, hnodup⟩).elim⟩
  -- The wrapper always has a text, so the texts of the functions decide: `exists_mapM_render_iff`.
  | none =>
    obtain ⟨hmain, hnodup⟩ := (firstClash?_eq_none_iff _).1 hclash
    obtain ⟨wrapper, hwrapper⟩ := Function.exists_render_iff (f := mainWrapper unit.entry).2 rfl
    simp only [bind_eq_ok_iff, hwrapper, ← Function.exists_render_iff, ← exists_mapM_render_iff]
    constructor
    · rintro ⟨_, texts, htexts, -⟩
      exact ⟨hmain, hnodup, texts, htexts⟩
    · rintro ⟨-, -, texts, htexts⟩
      exact ⟨_, texts, htexts, wrapper, rfl, rfl⟩

end Assembly

/-! ## Compilations -/

namespace Lowering.State

/-- There are pools of two and of three registers; nothing else is set at the start. -/
theorem initial_eq_ok_iff {registers : Nat} {s : State} : State.initial registers = .ok s ↔
    registers = 2 ∧ s = { pool := .ofRegs [.rdi, .rsi] } ∨
      registers = 3 ∧ s = { pool := .ofRegs [.rdi, .rsi, .rcx] } := by
  unfold State.initial Pool.ofSize
  -- Two sizes have a pool; every other is refused.
  by_cases h₂ : registers = 2
  · subst h₂
    simp [eq_comm]
  · by_cases h₃ : registers = 3
    · subst h₃
      simp [eq_comm]
    · simp [h₂, h₃]

end Lowering.State

namespace Program

variable {p : Program} {options : Options}

/-- A program is compiled in four steps: a pool is made, the routines are completed, all is checked
once more, and the unit is written. -/
theorem compile_eq_ok_iff {compiled : Compiled} : p.compile options = .ok compiled ↔
    ∃ s s' c, State.initial options.registers = .ok s ∧
      (p.lower options.comments).Yields s () s' c ∧ s'.checkDone = .ok () ∧
      compiled.unit = ⟨options.source, p.name, s'.finished⟩ ∧
      compiled.unit.render = .ok compiled.assembly ∧
      compiled.report = s'.report options.source := by
  unfold compile generate
  simp only [bind_eq_ok_iff]
  -- The four steps are the binds of `compile`, `generate` included.
  constructor
  · rintro ⟨s, hs, u, hresult, v, hdone, text, htext, hcompiled⟩
    obtain rfl := Except.ok.inj hcompiled
    have hlower : (p.lower options.comments).Yields s () ((p.lower options.comments).run s).state
        ((p.lower options.comments).run s).code := by rw [yields_iff, ← hresult]
    exact ⟨s, _, _, hs, hlower, hdone, rfl, mapError_eq_ok_iff.1 htext, rfl⟩
  · rintro ⟨s, s', c, hs, hlower, hdone, hunit, htext, hreport⟩
    obtain ⟨unit, text, report⟩ := compiled
    subst hunit hreport
    rw [yields_iff] at hlower
    refine ⟨s, hs, (), ?_⟩
    rw [hlower]
    exact ⟨rfl, (), hdone, text, mapError_eq_ok_iff.2 htext, rfl⟩

/-- From the start, the routines of a program are completed in order; at the end no scope is open, and
all registers are free. -/
theorem completed_of_initial {registers : Nat} {comments : Bool} {s s' : State} {c : List Inst}
    (hs : State.initial registers = .ok s) (h : (p.lower comments).Yields s () s' c) :
    List.Forall₂ (fun r f => r.Compiled comments f) p.routines s'.finished ∧
      s'.checkDone = .ok () := by
  -- Both pools start with all their registers free.
  have hstart : s.pool.Idle ∧ s.callDepth = 0 ∧ s.finished = [] ∧ s.scopes = [] := by
    rcases State.initial_eq_ok_iff.1 hs with ⟨-, rfl⟩ | ⟨-, rfl⟩
    · exact ⟨⟨.inl rfl, .refl _⟩, rfl, rfl, rfl⟩
    · exact ⟨⟨.inr rfl, .refl _⟩, rfl, rfl, rfl⟩
  obtain ⟨hidle, hdepth, hfinished, hscopes⟩ := hstart
  obtain ⟨-, hcompleted⟩ := Program.completed_of_lower hdepth hidle h
  obtain ⟨fs, hfs, hcompiled⟩ := hcompleted.functions
  rw [hfinished, List.nil_append] at hfs
  -- Every routine leaves as many registers free as it found.
  have hfull : s'.pool.isFull = true :=
    decide_eq_true (hidle.even hcompleted.pool).perm.length_eq
  refine ⟨hfs ▸ hcompiled, ?_⟩
  simp [State.checkDone, hcompleted.scopes, hscopes, hfull]

/-- The functions of a compiled unit are those of the routines, and the program is its entry. -/
theorem functions_of_compile {compiled : Compiled} (h : p.compile options = .ok compiled) :
    compiled.unit.entry = p.name ∧
      List.Forall₂ (fun r f => r.Compiled options.comments f) p.routines compiled.unit.functions := by
  obtain ⟨s, s', c, hs, hlower, -, hunit, -, -⟩ := compile_eq_ok_iff.1 h
  rw [hunit]
  exact ⟨rfl, (completed_of_initial hs hlower).1⟩

/-- The functions have the names of their routines, and their frames keep the stack aligned. So
whether the unit has a text is decided by the names of the routines. -/
theorem names_of_compiled {comments : Bool} {rs : List Routine} {fs : List Function}
    (h : List.Forall₂ (fun r f => r.Compiled comments f) rs fs) :
    fs.map (·.name) = rs.map (·.name) ∧
      ∀ f ∈ fs, f.frameSize % Convention.stackAlignment = 0 := by
  induction h with
  | nil => simp
  | cons hrf _ ih =>
    rw [List.map_cons, List.map_cons, hrf.name, ih.1, List.forall_mem_cons]
    exact ⟨rfl, hrf.aligned, ih.2⟩

/-- Once the routines of a program are completed, the program is compiled unless two of them have the
same name or one is called `main`. -/
theorem exists_compile_iff : (∃ compiled, p.compile options = .ok compiled) ↔
    "main" ∉ p.routines.map (·.name) ∧ (p.routines.map (·.name)).Nodup ∧
      ∃ s s' c, State.initial options.registers = .ok s ∧
        (p.lower options.comments).Yields s () s' c := by
  constructor
  · rintro ⟨compiled, h⟩
    obtain ⟨s, s', c, hs, hlower, -, hunit, htext, -⟩ := compile_eq_ok_iff.1 h
    obtain ⟨hmain, hnodup, -⟩ := Assembly.Program.exists_render_iff.1 ⟨_, htext⟩
    rw [(names_of_compiled (functions_of_compile h).2).1] at hmain hnodup
    exact ⟨hmain, hnodup, s, s', c, hs, hlower⟩
  · rintro ⟨hmain, hnodup, s, s', c, hs, hlower⟩
    obtain ⟨hcompiled, hdone⟩ := completed_of_initial hs hlower
    obtain ⟨hsame, haligned⟩ := names_of_compiled hcompiled
    let unit : Assembly.Program := ⟨options.source, p.name, s'.finished⟩
    -- `names_of_compiled` gives the names and that every frame is aligned.
    obtain ⟨text, htext⟩ : ∃ text, unit.render = .ok text := by
      rw [Assembly.Program.exists_render_iff, hsame]
      exact ⟨hmain, hnodup, haligned⟩
    exact ⟨⟨unit, text, s'.report options.source⟩,
      compile_eq_ok_iff.2 ⟨s, s', c, hs, hlower, hdone, rfl, htext, rfl⟩⟩

end Program

end PascalAsm
