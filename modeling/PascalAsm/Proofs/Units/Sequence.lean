import PascalAsm.Proofs.Generator.Programs

/-!
# How the functions of a unit came about

The functions of a program are completed one after another, those of nested routines first, and all
of them count the labels that they draw with one counter. So each function has the labels of an
interval of its own, and together the intervals are all labels that were ever drawn.

* **`Routine.Generated`** — all that is known of how the function of one routine came about.
* **`Routine.GeneratedAll`** — the functions of some routines, one after another.

`Program.generated_of_initial` says this of the functions of a whole program.
-/

namespace PascalAsm

open Assembly Lowering Gen State

/-- How the function of a routine came about: its body was made with the variables of the routine in
scope, all registers of the pool free, and no call under way. For the body the labels with the
numbers from `n` on were drawn, up to but not including `n'`; and the frame was measured when the
body was made. -/
structure Routine.Generated (r : Routine) (pooled : List Reg) (comments : Bool) (n n' : Nat)
    (f : Function) : Prop where
  sized : r.Sized
  body : ∃ s s' c scope outer, s.scopes = r.entry :: outer ∧ s.callDepth = 0 ∧ s.pool.Rests pooled ∧
    s.labels = n ∧ (r.body.lower comments).Yields s () s' c ∧ s'.labels = n' ∧
    s'.scopes = scope :: outer ∧ f = ⟨r.name, scope.frameSize, r.storing ++ (c ++ r.loading)⟩

/-- The functions of some routines, each with labels of its own that follow those of the function
before it. -/
inductive Routine.GeneratedAll (pooled : List Reg) (comments : Bool) :
    List Routine → Nat → List Function → Nat → Prop
  | nil (n : Nat) : GeneratedAll pooled comments [] n [] n
  | cons {r : Routine} {rs : List Routine} {f : Function} {fs : List Function} {n m n' : Nat}
    (head : r.Generated pooled comments n m f) (tail : GeneratedAll pooled comments rs m fs n') :
    GeneratedAll pooled comments (r :: rs) n (f :: fs) n'

namespace Routine

variable {pooled : List Reg} {comments : Bool} {r : Routine} {rs qs : List Routine} {f : Function}
  {fs gs : List Function} {n m n' : Nat}

theorem Generated.le (h : r.Generated pooled comments n n' f) : n ≤ n' := by
  obtain ⟨s, s', c, scope, outer, -, -, -, rfl, hbody, rfl, -, -⟩ := h.body
  exact (Stmt.lower_made hbody).advanced.labels

namespace GeneratedAll

theorem single (h : r.Generated pooled comments n n' f) : GeneratedAll pooled comments [r] n [f] n' :=
  .cons h (.nil n')

theorem append (h : GeneratedAll pooled comments rs n fs m)
    (h' : GeneratedAll pooled comments qs m gs n') :
    GeneratedAll pooled comments (rs ++ qs) n (fs ++ gs) n' := by
  induction h with
  | nil => exact h'
  | cons head _ ih => exact .cons head (ih h')

/-- Every function is that of a routine. It is made with the same pool and the same option, between
labels of its own. -/
theorem exists_of_mem (h : GeneratedAll pooled comments rs n fs n') (hf : f ∈ fs) :
    ∃ r ∈ rs, ∃ m m', r.Generated pooled comments m m' f := by
  induction h with
  | nil => exact (List.not_mem_nil hf).elim
  | cons head _ ih =>
    rcases List.mem_cons.1 hf with rfl | hf
    · exact ⟨_, List.mem_cons_self, _, _, head⟩
    · obtain ⟨r, hr, h⟩ := ih hf
      exact ⟨r, List.mem_cons_of_mem _ hr, h⟩

end GeneratedAll

/-- A routine adds its function to those that are nested in it. Nested subprograms come first, so
its own function is the last one. -/
theorem generated_of_lower {nested : Gen Unit}
    (hnested : ∀ {s s' : State} {c : List Inst}, s.callDepth = 0 → s.pool.Rests pooled →
      nested.Yields s () s' c → (c = [] ∧ s.Completed comments rs s') ∧
        ∃ fs, s'.finished = s.finished ++ fs ∧ GeneratedAll pooled comments rs s.labels fs s'.labels)
    {s s' : State} {u : Unit} {c : List Inst} (hdepth : s.callDepth = 0) (hidle : s.pool.Rests pooled)
    (h : (r.lower comments nested).Yields s u s' c) :
    ∃ fs, s'.finished = s.finished ++ fs ∧
      GeneratedAll pooled comments (rs ++ [r]) s.labels fs s'.labels := by
  obtain ⟨hsized, s₁, s₂, c₁, c₂, scope, outer, hn, hbody, hscopes, rfl, rfl⟩ :=
    Routine.yields_lower.1 h
  obtain ⟨⟨rfl, hcompleted⟩, fs, hfs, hall⟩ := hnested (s := r.entered s) hdepth hidle hn
  have hadvanced := (Stmt.lower_made hbody).advanced
  have hscopes₁ : s₁.scopes = r.entry :: s.scopes := hcompleted.scopes
  -- the body adds temporaries to the scope of the routine and to no other
  obtain rfl : outer = s.scopes := by
    have hgrows := hadvanced.scopes
    rw [hscopes₁, hscopes] at hgrows
    exact hgrows.outer_eq
  let f : Function := ⟨r.name, scope.frameSize, r.storing ++ (c₂ ++ r.loading)⟩
  have hf : r.Generated pooled comments s₁.labels s₂.labels f :=
    ⟨hsized, s₁, s₂, c₂, scope, s.scopes, hscopes₁, hcompleted.callDepth.trans hdepth,
      hidle.even hcompleted.pool, rfl, hbody, rfl, hscopes, rfl⟩
  refine ⟨fs ++ [f], ?_, hall.append (.single hf)⟩
  show s₂.finished ++ [f] = s.finished ++ (fs ++ [f])
  rw [hadvanced.finished, hfs, List.append_assoc]
  rfl

end Routine

section

variable {pooled : List Reg} {comments : Bool} {s s' : State} {u : Unit} {c : List Inst}

mutual

theorem Subprogram.generated_of_lower : ∀ {p : Subprogram} {s s' : State} {u : Unit}
    {c : List Inst}, s.callDepth = 0 → s.pool.Rests pooled → (p.lower comments).Yields s u s' c →
    ∃ fs, s'.finished = s.finished ++ fs ∧
      Routine.GeneratedAll pooled comments p.routines s.labels fs s'.labels
  | .mk _ _ _ _ subprograms _ _, _, _, _, _, hdepth, hidle, h => by
    rw [Subprogram.lower] at h
    refine Routine.generated_of_lower (fun hdepth hidle h => ?_) hdepth hidle h
    exact ⟨Subprogram.completed_of_lowerAll hdepth hidle.idle h,
      Subprogram.generated_of_lowerAll hdepth hidle h⟩

/-- The functions of subprograms follow one another. By induction on them; each begins with the
labels that are left by those before it. -/
theorem Subprogram.generated_of_lowerAll : ∀ {ps : List Subprogram} {s s' : State} {u : Unit}
    {c : List Inst}, s.callDepth = 0 → s.pool.Rests pooled →
    (Subprogram.lowerAll comments ps).Yields s u s' c →
    ∃ fs, s'.finished = s.finished ++ fs ∧
      Routine.GeneratedAll pooled comments (Subprogram.routinesAll ps) s.labels fs s'.labels
  | [], s, _, _, _, _, _, h => by
    obtain ⟨-, rfl, -⟩ := yields_pure.1 (by simpa only [Subprogram.lowerAll] using h)
    exact ⟨[], by simp, .nil _⟩
  | p :: rest, s, s', _, _, hdepth, hidle, h => by
    rw [Subprogram.lowerAll] at h
    obtain ⟨_, s₁, c₁, c₂, hp, hrest, rfl⟩ := yields_bind.1 h
    obtain ⟨-, hcompleted⟩ := Subprogram.completed_of_lower hdepth hidle.idle hp
    obtain ⟨fs, hfs, hfirst⟩ := Subprogram.generated_of_lower hdepth hidle hp
    -- Labels go on where the first subprogram stopped, so that the two parts append.
    obtain ⟨gs, hgs, hothers⟩ := Subprogram.generated_of_lowerAll
      (hcompleted.callDepth.trans hdepth) (hidle.even hcompleted.pool) hrest
    exact ⟨fs ++ gs, by rw [hgs, hfs, List.append_assoc], hfirst.append hothers⟩

end

/-- The functions of a program, and all labels that were drawn for them. This is what the results
about whole units start from. -/
theorem Program.generated_of_initial {p : Program} {registers : Nat}
    (hs : State.initial registers = .ok s) (h : (p.lower comments).Yields s u s' c) :
    Routine.GeneratedAll s.pool.members comments p.routines 0 s'.finished s'.labels := by
  -- At the start no label is drawn and nothing is finished, for either pool.
  have hstart : s.callDepth = 0 ∧ s.pool.Idle ∧ s.finished = [] ∧ s.labels = 0 := by
    rcases State.initial_eq_ok_iff.1 hs with ⟨-, rfl⟩ | ⟨-, rfl⟩
    · exact ⟨rfl, ⟨.inl rfl, .refl _⟩, rfl, rfl⟩
    · exact ⟨rfl, ⟨.inr rfl, .refl _⟩, rfl, rfl⟩
  obtain ⟨hdepth, hidle, hfinished, hlabels⟩ := hstart
  obtain ⟨fs, hfs, hall⟩ := Routine.generated_of_lower (fun hdepth hidle h =>
    ⟨Subprogram.completed_of_lowerAll hdepth hidle.idle h,
      Subprogram.generated_of_lowerAll hdepth hidle h⟩) hdepth ⟨hidle, rfl⟩ h
  rw [hfinished, List.nil_append] at hfs
  rw [hfs, ← hlabels]
  exact hall

end

end PascalAsm
