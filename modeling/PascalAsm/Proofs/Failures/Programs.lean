import Mathlib.Data.List.Duplicate
import PascalAsm.Proofs.Failures.Statements
import PascalAsm.Proofs.Units.Clashes

/-!
# Why compilations fail

`Program.Explains` says which errors compiling a program may end with. The source is to blame for each
of them: nothing is wrong with the registers, the scopes, the regions of a frame or the calling
convention, whatever the program is. `Program.explains_of_compile` goes through the routines, where
the frame is laid out before the body is made, and through the steps that follow.
-/

namespace PascalAsm

open Assembly Lowering Gen State

/-! ## What a routine is to blame for -/

namespace Routine

/-- The lines that the nodes of a routine stand on, what is nested in it left out. -/
def lines (r : Routine) : List Line :=
  r.line :: ((r.params ++ r.declarations).map (·.line) ++ r.body.lines)

/-- Why the function of a routine cannot be made. Whether there is such a cause is told by the
routine alone, whatever the pool is. -/
inductive Causes (r : Routine) : LoweringError → Prop
  /-- There is a fault on one of its lines. -/
  | blames {e : LoweringError} (h : e.Blames (fun f => f.isOrdinary = true ∨ r.body.Misuses f) r.lines) :
    r.Causes e
  /-- There are two variables of one name. -/
  | rebinds {name : String} (h : List.Duplicate name r.varNames) :
    r.Causes (.frameLayout (.alreadyBound name))

end Routine

namespace Lowering

/-- One of the routines is the cause of the error. Which one it is depends on how many registers
there are. -/
def Caused (rs : List Routine) (e : LoweringError) : Prop := ∃ r ∈ rs, r.Causes e

theorem Caused.mono {rs qs : List Routine} {e : LoweringError} (h : Caused rs e) (hsub : rs ⊆ qs) :
    Caused qs e := by
  obtain ⟨r, hr, hcauses⟩ := h
  exact ⟨r, hsub hr, hcauses⟩

namespace State

/-- Some names have slots in the innermost scope, and there may be more slots of a region. -/
structure Laying (outer : Scopes) (regs : List Reg) (region : Region) (names : List String) (s : State) :
    Prop where
  scope : ∃ scope, s.scopes = scope :: outer ∧ scope.slots.map (·.name) = names ∧
    scope.isClosed region = false
  rested : s.Rested outer regs

/-- Between routines it is known which scopes are open, and all registers are free. A routine that
succeeds leads from such a state to such a state. -/
structure Between (S : Scopes) (regs : List Reg) (s : State) : Prop where
  scopes : s.scopes = S
  members : s.pool.members = regs
  free : s.pool.free.Perm regs

variable {outer : Scopes} {regs : List Reg} {region region' : Region} {names : List String} {s s' : State}

/-- A region that comes later can be begun. Regions are begun in the order of their ranks, so the
earlier ones are not asked for again. -/
theorem Laying.later (h : s.Laying outer regs region names) (hrank : region.rank ≤ region'.rank) :
    s.Laying outer regs region' names := by
  obtain ⟨scope, hscopes, hnames, hopen⟩ := h.scope
  refine ⟨⟨scope, hscopes, hnames, ?_⟩, h.rested⟩
  rw [Scope.isClosed, List.any_eq_false] at hopen ⊢
  intro slot hslot hlater
  exact hopen slot hslot (decide_eq_true (Nat.lt_of_le_of_lt hrank (of_decide_eq_true hlater)))

theorem rested_iff : s.Rested outer regs ↔ ∃ scope, s.Between (scope :: outer) regs := by
  constructor
  · rintro ⟨free, hperm, ⟨scope, hscopes⟩, hmembers, rfl⟩
    exact ⟨scope, hscopes, hmembers, hperm⟩
  · rintro ⟨scope, h⟩
    exact ⟨s.pool.free, h.free, ⟨scope, h.scopes⟩, h.members, rfl⟩

/-- Only the scopes and the pool matter. -/
theorem Laying.congr (h : s.Laying outer regs region names) (hs : s'.scopes = s.scopes)
    (hp : s'.pool = s.pool) : s'.Laying outer regs region names :=
  ⟨hs ▸ h.scope, h.rested.congr hs hp⟩

end State

namespace Gen

variable {outer : Scopes} {regs : List Reg} {r : Routine} {region : Region} {names more : List String}
  {line : Line}

/-! ### Frames -/

/-- A name is given a slot unless it has one: a scope is open, and the region has not been left. -/
theorem ends_addSlot {name : String} (hnames : List.Sublist (names ++ [name]) r.varNames) :
    Ends (Laying outer regs region names) (addSlot region name)
      (fun _ => Laying outer regs region (names ++ [name]))
      (fun e s => r.Causes e ∧ s.Opened outer) where
  after {s slot s' c} hs hm := by
    obtain ⟨scope, hscopes, rfl, hopen⟩ := hs.scope
    obtain ⟨-, -, rfl, -⟩ := (yields_addSlot_below hscopes hopen).1 hm
    refine ⟨⟨_, rfl, scope.names_laidOut region [name], ?_⟩, ?_⟩
    · exact scope.isClosed_laidOut region [name] (Nat.le_refl _) hopen
    · obtain ⟨free, hperm, hinside⟩ := hs.rested
      exact ⟨free, hperm, ⟨_, rfl⟩, hinside.members, hinside.free⟩
  fails {s e s'} hs hm := by
    obtain ⟨scope, hscopes, rfl, hopen⟩ := hs.scope
    obtain ⟨le, hadd, rfl, rfl⟩ := fails_addSlot.1 hm
    refine ⟨?_, scope, hscopes⟩
    -- a scope is open and so is the region, which leaves one reason
    rw [hscopes, Scopes.add, Scope.add, if_neg (by simp [hopen])] at hadd
    split at hadd
    case isTrue hbinds =>
      obtain rfl : .alreadyBound name = le := Except.error.inj hadd
      refine .rebinds (List.duplicate_iff_sublist.2 (.trans ?_ hnames))
      exact (List.singleton_sublist.2 (Scope.binds_iff.1 hbinds)).append_right [name]
    case isFalse => cases hadd

theorem ends_addSlots : ∀ {more names : List String}, List.Sublist (names ++ more) r.varNames →
    Ends (Laying outer regs region names) (addSlots region more)
      (fun _ => Laying outer regs region (names ++ more)) (fun e s => r.Causes e ∧ s.Opened outer)
  | [], names, _ => by
    rw [addSlots, List.append_nil]
    exact ends_pure fun _ hs => hs
  | name :: more, names, hnames => by
    -- The names so far grow by one, and stay the first part of all variables: `hnames`.
    have hsplit : names ++ name :: more = (names ++ [name]) ++ more := by simp
    rw [hsplit] at hnames ⊢
    rw [addSlots]
    refine (ends_addSlot ((List.sublist_append_left _ _).trans hnames)).bind fun slot => ?_
    exact (ends_addSlots hnames).bind fun slots => ends_pure fun _ hs => hs

theorem ends_warn {w : Warning} {E : LoweringError → State → Prop} :
    Ends (Laying outer regs region names) (warn w) (fun _ => Laying outer regs region names) E :=
  ends_modify fun _ hs => hs.congr rfl rfl

theorem ends_dropArrays {E : LoweringError → State → Prop} : ∀ dropped : List String,
    Ends (Laying outer regs region names) (dropArrays line dropped)
      (fun _ => Laying outer regs region names) E
  | [] => ends_pure fun _ hs => hs
  | name :: dropped => by
    rw [dropArrays]
    refine ends_warn.bind fun _ => .bind (J := fun _ => Laying outer regs region names) ?_ fun _ =>
      ends_dropArrays dropped
    exact ends_modify fun _ hs => hs.congr rfl rfl

/-- Among the parameters, an array is to blame. Parameters are no arrays in a supported program; the
others get a slot, or their name is bound already. -/
theorem ends_bindParams : ∀ {ds : List Declaration} {names : List String},
    (∀ d ∈ ds, d.line ∈ r.lines) → List.Sublist (names ++ Declaration.scalars ds) r.varNames →
    Ends (Laying outer regs .argument names) (bindParams ds)
      (fun _ => Laying outer regs .argument (names ++ Declaration.scalars ds))
      (fun e s => r.Causes e ∧ s.Opened outer)
  | [], names, _, _ => by
    rw [bindParams]
    exact ends_pure fun s hs => by simpa [Declaration.scalars] using hs
  | .vars line added type :: ds, names, hlines, hnames => by
    rw [Declaration.scalars_vars, ← List.append_assoc] at hnames ⊢
    -- a warning about a real parameter may come before
    have hslots : Ends (Laying outer regs .argument names)
        (addSlots .argument added >>= fun slots => bindParams ds >>= fun more => pure (slots ++ more))
        (fun _ => Laying outer regs .argument ((names ++ added) ++ Declaration.scalars ds))
        (fun e s => r.Causes e ∧ s.Opened outer) := by
      refine (ends_addSlots ((List.sublist_append_left _ _).trans hnames)).bind fun _ => ?_
      refine (ends_bindParams (fun d hd => hlines d (List.mem_cons_of_mem _ hd)) hnames).bind fun _ => ?_
      exact ends_pure fun _ hs => hs
    rw [bindParams]
    exact .ite (fun _ => ends_warn.bind fun _ => hslots) fun _ => hslots
  | .arrays line added type first last :: ds, names, hlines, _ => by
    have hline : line ∈ r.lines := hlines _ List.mem_cons_self
    rw [bindParams]
    refine ends_fail fun s hs => ⟨.blames ⟨_, .inl rfl, line, hline, rfl⟩, hs.rested.isOpen⟩

theorem ends_bindLocals : ∀ {ds : List Declaration} {names : List String},
    List.Sublist (names ++ Declaration.scalars ds) r.varNames →
    Ends (Laying outer regs .local names) (bindLocals ds)
      (fun _ => Laying outer regs .local (names ++ Declaration.scalars ds))
      (fun e s => r.Causes e ∧ s.Opened outer)
  | [], names, _ => by
    rw [bindLocals]
    exact ends_pure fun s hs => by simpa [Declaration.scalars] using hs
  | .vars line added type :: ds, names, hnames => by
    rw [Declaration.scalars_vars, ← List.append_assoc] at hnames ⊢
    -- a warning about a real variable may come before
    have hslots : Ends (Laying outer regs .local names)
        (addSlots .local added >>= fun _ => bindLocals ds)
        (fun _ => Laying outer regs .local ((names ++ added) ++ Declaration.scalars ds))
        (fun e s => r.Causes e ∧ s.Opened outer) :=
      (ends_addSlots ((List.sublist_append_left _ _).trans hnames)).bind fun _ => ends_bindLocals hnames
    rw [bindLocals]
    exact .ite (fun _ => ends_warn.bind fun _ => hslots) fun _ => hslots
  | .arrays line added type first last :: ds, names, hnames => by
    rw [bindLocals]
    exact (ends_dropArrays added).bind fun _ => ends_bindLocals hnames

/-! ### Scopes -/

/-- Where a scope is open, the room in its frame is known. So the function can be put together,
whatever its size is. -/
theorem ends_frameSize {I : State → Prop} {E : LoweringError → State → Prop}
    (hopen : ∀ s, I s → s.Opened outer) : Ends I frameSize (fun _ => I) E := by
  refine .always fun s hs => ?_
  obtain ⟨scope, hscopes⟩ := hopen s hs
  refine ⟨scope.frameSize, s, [], ?_, hs⟩
  rw [frameSize, yields_get_bind, yields_ofExcept_bind]
  refine ⟨scope, ?_, yields_pure.2 ⟨rfl, rfl, rfl⟩⟩
  rw [hscopes]
  rfl

/-- Where a scope is open, it can be closed, and then the scopes around it are left. -/
theorem ends_leaveScope {I : State → Prop} {E : LoweringError → State → Prop}
    (hopen : ∀ s, I s → s.Opened outer) :
    Ends I leaveScope
      (fun _ s => ∃ t, I t ∧ s = { t with scopes := outer, arrays := t.arrays.tail }) E := by
  refine .always fun s hs => ?_
  obtain ⟨scope, hscopes⟩ := hopen s hs
  refine ⟨(), { s with scopes := outer, arrays := s.arrays.tail }, [], ?_, s, hs, rfl⟩
  rw [leaveScope, yields_get_bind, yields_ofExcept_bind]
  -- By `hscopes` there is a scope to close, so the step cannot be refused.
  refine ⟨(scope, outer), ?_, yields_modify.2 ⟨rfl, rfl⟩⟩
  rw [hscopes]
  rfl

end Gen

end Lowering

/-! ## Routines -/

namespace Routine

variable {r : Routine} {rs : List Routine} {outer S : Scopes} {regs : List Reg} {comments : Bool}
  {nested : Gen Unit}

/-- What is nested in a routine comes to nothing but functions, or it is to blame itself. -/
def Nests (rs : List Routine) (regs : List Reg) (nested : Gen Unit) : Prop :=
  ∀ S, Ends (Between S regs) nested (fun _ => Between S regs) fun e s => Caused rs e ∧ s.scopes = S

/-- Inside a scope, it leaves the scope open. It closes its own scopes and gives back its registers
before it ends, either way. -/
theorem Nests.rested (h : Nests rs regs nested) : Ends (Rested outer regs) nested
    (fun _ => Rested outer regs) fun e s => Caused rs e ∧ s.Opened outer where
  after hs hm := by
    obtain ⟨scope, hs⟩ := rested_iff.1 hs
    exact rested_iff.2 ⟨scope, (h _).after hs hm⟩
  fails hs hm := by
    obtain ⟨scope, hs⟩ := rested_iff.1 hs
    obtain ⟨hcaused, hscopes⟩ := (h _).fails hs hm
    exact ⟨hcaused, scope, hscopes⟩

/-- The frame is laid out, what is nested is made, and then the body; whichever fails, the scope of the
routine is left open. -/
theorem ends_lowerBody (hregs : regs.Nodup) (hne : regs ≠ []) (hnested : Nests rs regs nested) :
    Ends (Laying outer regs .argument []) (r.lowerBody comments nested) (fun _ => Rested outer regs)
      (fun e s => Caused (rs ++ [r]) e ∧ s.Opened outer) := by
  -- the routine itself is to blame for its frame and its body, but not for what is nested in it
  have hown (e : LoweringError) (s : State) (h : r.Causes e ∧ s.Opened outer) :
      Caused (rs ++ [r]) e ∧ s.Opened outer :=
    ⟨⟨r, List.mem_append_right rs (List.mem_singleton_self r), h.1⟩, h.2⟩
  have hinner (e : LoweringError) (s : State) (h : Caused rs e ∧ s.Opened outer) :
      Caused (rs ++ [r]) e ∧ s.Opened outer :=
    ⟨h.1.mono (List.subset_append_left ..), h.2⟩
  have hbody (e : LoweringError) (s : State) (h : StmtBlame (r.body.Misuses ·) r.body.lines outer e s) :
      Caused (rs ++ [r]) e ∧ s.Opened outer := by
    refine hown e s ⟨.blames (h.blames.mono (fun _ hf => hf) ?_), h.isOpen⟩
    exact List.subset_cons_of_subset r.line (List.subset_append_right ..)
  have hlines (d : Declaration) (hd : d ∈ r.params) : d.line ∈ r.lines :=
    List.mem_cons_of_mem _ (List.mem_append_left _ (List.mem_map_of_mem (List.mem_append_left _ hd)))
  by_cases hcount : Convention.maxArguments < r.paramCount
  · rw [lowerBody, if_pos hcount]
    refine ends_fail_bind fun s hs => hown _ s ⟨.blames ?_, hs.rested.isOpen⟩
    exact ⟨_, .inl rfl, r.line, List.mem_cons_self, rfl⟩
  · have hresult : r.varNames = (r.parameters ++ Declaration.scalars r.declarations) ++
        if r.returnsValue then [r.name] else [] := (List.append_assoc ..).symm
    have hlocals : List.Sublist (r.parameters ++ Declaration.scalars r.declarations) r.varNames :=
      hresult ▸ List.sublist_append_left ..
    have hparams : List.Sublist ([] ++ r.parameters) r.varNames :=
      (List.sublist_append_left r.parameters _).trans hlocals
    -- parameters, variables and the result get slots in this order, so no region is closed too early
    rw [lowerBody_eq hcount]
    refine ((ends_bindParams hlines hparams).imp_error hown).bind fun params => ?_
    refine Ends.bind (J := fun _ => Laying outer regs .local _)
      (((ends_bindLocals hlocals).imp_error hown).imp_start fun s hs => hs.later (by decide)) fun _ => ?_
    refine ((ends_addSlots (hresult ▸ .refl _)).imp_error hown).bind fun result => ?_
    refine ((hnested.rested.imp_error hinner).imp_start fun s hs => hs.rested).bind fun _ => ?_
    refine ends_emit.bind fun _ => ?_
    exact ((r.body.ends_lower hregs hne comments).imp_error hbody).bind fun _ => ends_emit

/-- Whether or not the body of a routine can be made, its scope is closed again, and the scopes around
it are as before. -/
theorem nests_lower (hregs : regs.Nodup) (hne : regs ≠ []) (hnested : Nests rs regs nested) :
    Nests (rs ++ [r]) regs (r.lower comments nested) := by
  intro S
  have henter (s : State) (hs : s.Between S regs) :
      State.Laying S regs .argument [] { s with scopes := s.scopes.enter, arrays := [] :: s.arrays } :=
    ⟨⟨Scope.empty, congrArg (Scope.empty :: ·) hs.scopes, rfl, rfl⟩,
      rested_iff.2 ⟨Scope.empty, congrArg (Scope.empty :: ·) hs.scopes, hs.members, hs.free⟩⟩
  rw [lower]
  refine (ends_modify henter).bind fun _ => ?_
  refine (ends_lowerBody hregs hne hnested).collect.attempt_bind (fun body => ?_) fun e => ?_
  -- the same follows in both cases, and only then is it asked whether the body was made
  · have hopen (s : State) (hs : s.Rested S regs) : s.Opened S := hs.isOpen
    refine (ends_frameSize hopen).attempt_bind (fun size => ?_) fun _ => .absurd fun _ => id
    refine (ends_leaveScope hopen).bind fun _ => ?_
    refine ends_ofExcept_ok.bind_eq (ends_ofExcept_ok.bind_eq (ends_modify ?_))
    rintro s ⟨t, ht, rfl⟩
    obtain ⟨scope, ht⟩ := rested_iff.1 ht
    exact ⟨rfl, ht.members, ht.free⟩
  · have hopen (s : State) (hs : Caused (rs ++ [r]) e ∧ s.Opened S) : s.Opened S := hs.2
    refine (ends_frameSize hopen).attempt_bind (fun size => ?_) fun _ => .absurd fun _ => id
    refine (ends_leaveScope hopen).bind fun _ => ends_fail_bind ?_
    rintro s ⟨t, ht, rfl⟩
    exact ⟨ht.1, rfl⟩

end Routine

/-! ## All routines of a program -/

section

variable {regs : List Reg} {comments : Bool}

open Routine

mutual

theorem Subprogram.nests_lower (hregs : regs.Nodup) (hne : regs ≠ []) :
    ∀ p : Subprogram, Nests p.routines regs (p.lower comments)
  | .mk _ _ _ _ subprograms _ _ => by
    rw [Subprogram.lower, Subprogram.routines]
    exact Routine.nests_lower hregs hne (Subprogram.nests_lowerAll hregs hne subprograms)

/-- Of subprograms in order, the first one that is to blame ends it all. -/
theorem Subprogram.nests_lowerAll (hregs : regs.Nodup) (hne : regs ≠ []) :
    ∀ ps : List Subprogram, Nests (Subprogram.routinesAll ps) regs (Subprogram.lowerAll comments ps)
  | [] => by
    intro S
    rw [Subprogram.lowerAll]
    exact ends_pure fun _ hs => hs
  | p :: ps => by
    intro S
    rw [Subprogram.lowerAll, Subprogram.routinesAll]
    -- The blame is handed on: a cause in one subprogram is a cause in the list.
    refine ((Subprogram.nests_lower hregs hne p S).imp_error fun e s he => ?_).bind fun _ =>
      (Subprogram.nests_lowerAll hregs hne ps S).imp_error fun e s he => ?_
    · exact ⟨he.1.mono (List.subset_append_left ..), he.2⟩
    · exact ⟨he.1.mono (List.subset_append_right ..), he.2⟩

end

theorem Program.nests_lower (hregs : regs.Nodup) (hne : regs ≠ []) (p : Program) :
    Nests p.routines regs (p.lower comments) :=
  Routine.nests_lower hregs hne (Subprogram.nests_lowerAll hregs hne p.subprograms)

end

/-! ## Compilations -/

/-- A name that clashes belongs to the unit itself, or there are two functions of that name. -/
theorem Assembly.IsFirstClash.duplicate {names : List String} {name : String}
    (h : IsFirstClash names name) : name = "main" ∨ List.Duplicate name names := by
  obtain ⟨front, back, rfl, hclash, -, -⟩ := h
  refine hclash.imp_right fun hfront => List.duplicate_iff_sublist.2 ?_
  exact (List.singleton_sublist.2 hfront).append (List.singleton_sublist.2 List.mem_cons_self)

namespace Program

/-- The lines that the nodes of a program stand on. They are those of all its routines, and the
error of a failing compilation names one of them. -/
def lines (p : Program) : List Line := p.routines.flatMap Routine.lines

/-- The errors that compiling a program may end with. -/
def Explains (p : Program) (options : Options) : LoweringError → Prop
  -- a fault of the source on one of its lines, or a use of something as a place that is none
  | .fault f line => (∃ known ∈ p.lines, line = some known) ∧
      (f.isOrdinary = true ∨ ∃ r ∈ p.routines, r.body.Misuses f)
  -- a name that is bound twice in one frame
  | .frameLayout e => ∃ r ∈ p.routines, ∃ name, List.Duplicate name r.varNames ∧ e = .alreadyBound name
  -- a pool of a size that there is not
  | .invalidRegister _ => options.registers ≠ 2 ∧ options.registers ≠ 3
  -- a name that is given to two functions, or that the unit needs for itself
  | .emit e => ∃ name, e = .duplicateSymbol name ∧
      (name = "main" ∨ List.Duplicate name (p.routines.map (·.name)))

variable {p : Program} {options : Options}

theorem explains_of_caused {e : LoweringError} (h : Caused p.routines e) : p.Explains options e := by
  obtain ⟨r, hr, hcauses⟩ := h
  cases hcauses with
  | blames h =>
    obtain ⟨f, hf, line, hline, rfl⟩ := h
    exact ⟨⟨line, List.mem_flatMap.2 ⟨r, hr, hline⟩, rfl⟩, hf.imp_right fun hmisuses => ⟨r, hr, hmisuses⟩⟩
  | rebinds h => exact ⟨r, hr, _, h, rfl⟩

theorem explains_of_initial {e : LoweringError} (h : State.initial options.registers = .error e) :
    p.Explains options e := by
  have hnone (s : State) : State.initial options.registers ≠ .ok s := by
    rw [h]
    exact nofun
  -- `initial_eq_ok_iff` names the two sizes that have a pool.
  have htwo : options.registers ≠ 2 := fun htwo => hnone _ (initial_eq_ok_iff.2 (.inl ⟨htwo, rfl⟩))
  have hthree : options.registers ≠ 3 := fun hthree =>
    hnone _ (initial_eq_ok_iff.2 (.inr ⟨hthree, rfl⟩))
  obtain rfl : .invalidRegister (.poolSize options.registers) = e := by
    simpa [State.initial, Pool.ofSize, htwo, hthree, LoweringError.ofPool] using h
  exact ⟨htwo, hthree⟩

/-- From the start, a failure while the routines are made is explained by one of them. No such
failure is one of rendering, which comes after all routines are made. -/
theorem explains_of_fails {s s' : State} {e : LoweringError}
    (hs : State.initial options.registers = .ok s)
    (h : (p.lower options.comments).Fails s e s') : p.Explains options e := by
  obtain ⟨regs, hregs, hne, hbetween⟩ : ∃ regs : List Reg, regs.Nodup ∧ regs ≠ [] ∧
      s.Between [] regs := by
    rcases initial_eq_ok_iff.1 hs with ⟨-, rfl⟩ | ⟨-, rfl⟩
    · exact ⟨[.rdi, .rsi], by decide, by decide, rfl, rfl, .refl _⟩
    · exact ⟨[.rdi, .rsi, .rcx], by decide, by decide, rfl, rfl, .refl _⟩
  exact explains_of_caused ((Program.nests_lower hregs hne p []).fails hbetween h).1

/-- **Every failure is explained by the source.** Whatever the program, its compilation ends with no
other errors than those, and what is checked at the end is never found wrong. -/
theorem explains_of_compile (p : Program) (options : Options) :
    (∀ e, p.compile options = .error e → p.Explains options e) ∧
      ∀ s, State.initial options.registers = .ok s →
        (p.generate options.comments s).result = .ok () →
        (p.generate options.comments s).state.checkDone = .ok () := by
  have hlower {s : State} (hresult : (p.generate options.comments s).result = .ok ()) :
      (p.lower options.comments).Yields s () (p.generate options.comments s).state
        (p.generate options.comments s).code := by
    rw [yields_iff, ← hresult, generate]
  refine ⟨fun e h => ?_, fun s hs hresult => (completed_of_initial hs (hlower hresult)).2⟩
  -- of the four steps of a compilation, the third one never fails
  cases hinitial : State.initial options.registers with
  | error e' =>
    obtain rfl : e' = e := by simpa [compile, hinitial, bind, Except.bind] using h
    exact explains_of_initial hinitial
  | ok s =>
    cases hresult : (p.generate options.comments s).result with
    | error e' =>
      obtain rfl : e' = e := by simpa [compile, hinitial, hresult, bind, Except.bind] using h
      have hfails : (p.lower options.comments).Fails s e' (p.generate options.comments s).state :=
        ⟨(p.generate options.comments s).code, by rw [← hresult, generate]⟩
      exact explains_of_fails hinitial hfails
    | ok u =>
      -- the routines are complete, so `compile_eq_error_iff` leaves only a clash of their names
      obtain ⟨name, hclash, rfl⟩ := (compile_eq_error_iff hinitial (hlower hresult)).1 h
      obtain ⟨hcompiled, -⟩ := completed_of_initial hinitial (hlower hresult)
      rw [Explains, ← (names_of_compiled hcompiled).1]
      exact ⟨name, rfl, hclash.duplicate⟩

/-- A constant is no place, so assigning to it is the defect that no source text has. -/
example : (compile ⟨"constant", [], [], [], .assign 2 (.integer 2 1) (.integer 2 3), 1⟩ {}).map
    (·.assembly) = .error (.onLine (.internal (.assignmentTarget "1")) 2) := rfl

end Program

end PascalAsm
