import PascalAsm.Proofs.Meaning.Run

/-!
# Identifiers

The names that are written in a program: those of variables, arrays and routines, where they are
declared and where they are used. The names of temporaries begin with a dollar sign, which the
identifiers of the language do not; a syntax tree that was not read from a source text may break
this rule, so that it has to be asked for. `isIdentifier` is the rule of the language itself.
-/

namespace PascalAsm

/-- Whether a name is a letter with letters, digits and underscores after it. These are the names
that a Pascal program can use; generated names are none of them, for each has a dollar sign or a
point. -/
def isIdentifier (name : String) : Bool :=
  match name.toList with
  | [] => false
  | c :: rest => c.isAlpha && rest.all fun d => d.isAlphanum || d = '_'

namespace Expr

mutual

/-- The names in an expression. -/
def identifiers : Expr → List String
  | var _ x => [x]
  | integer .. | real .. => []
  | sign _ e | not _ e => e.identifiers
  | add _ _ left right | mul _ _ left right | relational _ _ left right
  | logical _ _ left right => left.identifiers ++ right.identifiers
  | element _ array index => array :: index.identifiers
  | call _ callee args => callee :: identifiersAll args

/-- The names in some expressions. -/
def identifiersAll : List Expr → List String
  | [] => []
  | e :: rest => e.identifiers ++ identifiersAll rest

end

theorem identifiers_subset_of_mem {e : Expr} {es : List Expr} (h : e ∈ es) :
    e.identifiers ⊆ identifiersAll es := by
  induction es with
  | nil => simp at h
  | cons f rest ih =>
    rw [identifiersAll]
    rcases List.mem_cons.1 h with rfl | h
    · exact List.subset_append_left ..
    · exact fun x hx => List.mem_append_right _ (ih h hx)

theorem mem_identifiers_of_varName? {e : Expr} {x : String} (h : e.varName? = some x) :
    x ∈ e.identifiers := by
  cases e with
  | var line y =>
    obtain rfl : y = x := Option.some.inj h
    exact List.mem_singleton_self y
  | _ => simp [varName?] at h

end Expr

/-- The names at the start of a `for` statement. -/
def ForInit.identifiers : ForInit → List String
  | .assign var value => var.identifiers ++ value.identifiers
  | .keep var => var.identifiers

theorem ForInit.identifiers_var_subset (init : ForInit) :
    init.var.identifiers ⊆ init.identifiers := by
  cases init with
  | assign var value => exact List.subset_append_left ..
  | keep var => exact List.Subset.refl _

namespace Stmt

mutual

/-- The names in a statement. -/
def identifiers : Stmt → List String
  | assign _ target value => target.identifiers ++ value.identifiers
  | call _ callee args => callee :: Expr.identifiersAll args
  | compound _ body => identifiersAll body
  | ifThen _ condition thenBranch => condition.identifiers ++ thenBranch.identifiers
  | ifElse _ condition thenBranch elseBranch =>
    condition.identifiers ++ (thenBranch.identifiers ++ elseBranch.identifiers)
  | whileDo _ condition body => condition.identifiers ++ body.identifiers
  | forTo _ init limit body => init.identifiers ++ (limit.identifiers ++ body.identifiers)

/-- The names in some statements. -/
def identifiersAll : List Stmt → List String
  | [] => []
  | s :: rest => s.identifiers ++ identifiersAll rest

end

end Stmt

/-- The names of the routine, of its parameters and variables, arrays among them, and the names in
its body. -/
def Routine.identifiers (r : Routine) : List String :=
  r.name :: (r.params ++ r.declarations).flatMap Declaration.names ++ r.body.identifiers

/-- The names in a program. The arguments of the program are names too, although nothing is done
with them. -/
def Program.identifiers (p : Program) : List String :=
  p.args ++ p.routines.flatMap Routine.identifiers

theorem Declaration.scalars_subset (ds : List Declaration) :
    Declaration.scalars ds ⊆ ds.flatMap Declaration.names := by
  intro x hx
  obtain ⟨d, hd, hx⟩ := List.mem_flatMap.1 hx
  refine List.mem_flatMap.2 ⟨d, hd, ?_⟩
  cases d with
  | vars => exact hx
  | arrays => simp at hx

/-- The variables of a routine are among its names. So what is asked of the names of a program holds
of the variables in each of its routines. -/
theorem Routine.varNames_subset_identifiers (r : Routine) : r.varNames ⊆ r.identifiers := by
  intro x hx
  rw [varNames, parameters, locals, List.mem_append, List.mem_append] at hx
  rw [identifiers, List.flatMap_append, List.cons_append, List.mem_cons, List.mem_append,
    List.mem_append]
  -- Parameters, then locals, then the name of a function as its result.
  rcases hx with hx | hx | hx
  · exact .inr (.inl (.inl (Declaration.scalars_subset _ hx)))
  · exact .inr (.inl (.inr (Declaration.scalars_subset _ hx)))
  · split at hx
    · exact .inl (List.mem_singleton.1 hx)
    · simp at hx

theorem Program.identifiers_routine_subset {p : Program} {r : Routine} (h : r ∈ p.routines) :
    r.identifiers ⊆ p.identifiers := fun _ hx =>
  List.mem_append_right _ (List.mem_flatMap.2 ⟨r, h, hx⟩)

/-! ## Variables that get values -/

/-- No variable has lost its value, and only some have got one. The first field carries what is
known of the last store back to those before it, and the second one bounds the names by those that
are written in the program. -/
structure Store.Grows (names : List String) (store store' : Store) : Prop where
  keeps : ∀ x, (store x).isSome → (store' x).isSome
  only : ∀ x, (store' x).isSome → (store x).isSome ∨ x ∈ names

namespace Store.Grows

variable {names more : List String} {store store₁ store' : Store}

theorem refl (store : Store) : Grows names store store := ⟨fun _ => id, fun _ => .inl⟩

theorem trans (h : Grows names store store₁) (h' : Grows names store₁ store') :
    Grows names store store' :=
  ⟨fun x hx => h'.keeps x (h.keeps x hx), fun x hx => (h'.only x hx).elim (h.only x) .inr⟩

theorem mono (h : Grows names store store') (hmore : names ⊆ more) : Grows more store store' :=
  ⟨h.keeps, fun x hx => (h.only x hx).imp_right (hmore ·)⟩

theorem set {x : String} (hx : x ∈ names) (store : Store) (v : Int32) :
    Grows names store (store.set x v) := by
  -- A value is kept or given to `x`, and one that is there now was there before or is that of `x`.
  constructor
  · intro y hy
    by_cases hyx : y = x
    · rw [hyx, Store.set_self]
      rfl
    · rwa [Store.set_of_ne _ _ hyx]
  · intro y hy
    by_cases hyx : y = x
    · exact .inr (hyx ▸ hx)
    · exact .inl (by rwa [Store.set_of_ne _ _ hyx] at hy)

end Store.Grows

/-- The effect gives values to some variables and takes none away. It is a property of effects and
not of statements, so that it can be put together along `followedBy` and `repeatWhile`. -/
def Effect.Assigns {W : Type} (names : List String) (effect : Effect W) : Prop :=
  ∀ ⦃store store' : Store⦄ ⦃w w' : W⦄, effect store w = some (store', w') →
    store.Grows names store'

namespace Effect.Assigns

variable {W : Type} {names more : List String} {first second effect : Effect W}

theorem mono (h : effect.Assigns names) (hmore : names ⊆ more) : effect.Assigns more :=
  fun _ _ _ _ heffect => (h heffect).mono hmore

theorem skip : (Effect.skip : Effect W).Assigns names := by
  intro store store' w w' heffect
  obtain ⟨rfl, -⟩ := Prod.mk.inj (Option.some.inj heffect)
  exact .refl store

theorem followedBy (h : first.Assigns names) (h' : second.Assigns names) :
    (first.followedBy second).Assigns names := by
  intro store store' w w' heffect
  simp only [Effect.followedBy, Option.bind_eq_bind, Option.bind_eq_some_iff, Prod.exists] at heffect
  obtain ⟨store₁, w₁, hfirst, hsecond⟩ := heffect
  exact (h hfirst).trans (h' hsecond)

/-- What depends on a test assigns what either outcome does. The test may have an effect on the
world, but none on the variables. -/
theorem branch {test : Store → Eval W Bool} (h : first.Assigns names) (h' : second.Assigns names) :
    Assigns (W := W) names (fun store w => do
      let (truth, w) ← test store w
      if truth then first store w else second store w) := by
  intro store store' w w' heffect
  simp only [Option.bind_eq_bind, Option.bind_eq_some_iff, Prod.exists] at heffect
  obtain ⟨truth, w₁, -, heffect⟩ := heffect
  cases truth with
  | true => exact h heffect
  | false => exact h' heffect

theorem repeatWhile {test : Store → Eval W Bool} (h : effect.Assigns names) :
    ∀ fuel, (Effect.repeatWhile test effect fuel).Assigns names
  | 0 => fun _ _ _ _ heffect => by simp [Effect.repeatWhile] at heffect
  | fuel + 1 => by
    rw [Effect.repeatWhile]
    exact branch (h.followedBy (repeatWhile h fuel)) skip

end Effect.Assigns

section

variable {W : Type} {calls : Callees W}

namespace Expr

theorem assigns_assignTo (target value : Expr) :
    (assignTo calls target value).Assigns target.identifiers := by
  intro store store' w w' heffect
  simp only [assignTo, Option.bind_eq_bind, Option.bind_eq_some_iff, Prod.exists] at heffect
  obtain ⟨x, hx, v, w₁, -, hp⟩ := heffect
  obtain ⟨rfl, -⟩ := Prod.mk.inj (Option.some.inj hp)
  exact .set (mem_identifiers_of_varName? hx) store v

variable [Terminal W]

theorem assigns_writeAll (names : List String) (es : List Expr) :
    (writeAll calls es).Assigns names := by
  induction es with
  | nil => exact .skip
  | cons e rest ih =>
    intro store store' w w' heffect
    simp only [writeAll, Option.bind_eq_bind, Option.bind_eq_some_iff, Prod.exists] at heffect
    obtain ⟨v, w₁, -, hrest⟩ := heffect
    exact ih hrest

theorem assigns_readAll (es : List Expr) :
    (readAll es : Effect W).Assigns (identifiersAll es) := by
  -- `hfirst` puts the variable that is read among the names, and `ih` those that are read later.
  induction es with
  | nil => exact .skip
  | cons e rest ih =>
    intro store store' w w' heffect
    simp only [readAll, Option.bind_eq_bind, Option.bind_eq_some_iff, Prod.exists] at heffect
    obtain ⟨x, hx, v, w₁, -, hrest⟩ := heffect
    have hfirst : x ∈ identifiersAll (e :: rest) :=
      List.mem_append_left _ (mem_identifiers_of_varName? hx)
    exact (Store.Grows.set hfirst store v).trans ((ih hrest).mono (List.subset_append_right ..))

theorem assigns_callEffect (callee : String) (args : List Expr) :
    (callEffect calls callee args).Assigns (identifiersAll args) := by
  rw [callEffect]
  split
  · exact assigns_writeAll _ args
  · exact assigns_readAll args
  -- A routine of the program has variables of its own: the store is the same afterwards.
  · intro store store' w w' heffect
    simp only [Option.bind_eq_bind, Option.bind_eq_some_iff, Prod.exists] at heffect
    obtain ⟨values, w₁, -, result, w₂, -, hp⟩ := heffect
    obtain ⟨rfl, -⟩ := Prod.mk.inj (Option.some.inj hp)
    exact .refl store

end Expr

theorem Stmt.assigns_startEffect (init : ForInit) :
    (Stmt.startEffect calls init).Assigns init.var.identifiers := by
  cases init with
  | assign var value => exact Expr.assigns_assignTo var value
  | keep var => exact .skip

namespace Stmt

variable [Terminal W] {fuel : Nat}

mutual

/-- A statement gives values to variables that are named in it, and takes none away. By recursion
over the statement, with one lemma for each way in which effects are combined. -/
theorem assigns_exec : ∀ t : Stmt, (t.exec calls fuel).Assigns t.identifiers
  | .assign _ target value => by
    rw [exec, identifiers]
    exact (Expr.assigns_assignTo target value).mono (List.subset_append_left ..)
  | .call _ callee args => by
    rw [exec, identifiers]
    exact (Expr.assigns_callEffect callee args).mono (List.subset_cons_self ..)
  | .compound _ body => by
    rw [exec, identifiers]
    exact assigns_execAll body
  | .ifThen _ condition thenBranch => by
    rw [exec, identifiers]
    exact ((assigns_exec thenBranch).branch .skip).mono (List.subset_append_right ..)
  | .ifElse _ condition thenBranch elseBranch => by
    rw [exec, identifiers]
    have hthen : (thenBranch.exec calls fuel).Assigns
        (thenBranch.identifiers ++ elseBranch.identifiers) :=
      (assigns_exec thenBranch).mono (List.subset_append_left ..)
    have helse : (elseBranch.exec calls fuel).Assigns
        (thenBranch.identifiers ++ elseBranch.identifiers) :=
      (assigns_exec elseBranch).mono (List.subset_append_right ..)
    exact (hthen.branch helse).mono (List.subset_append_right ..)
  | .whileDo _ condition body => by
    rw [exec, identifiers]
    exact ((assigns_exec body).repeatWhile fuel).mono (List.subset_append_right ..)
  -- The variable of the loop is given values besides those that the body gives: `hvar`.
  | .forTo _ init limit body => by
    rw [exec, identifiers]
    have hvar : init.var.identifiers ⊆
        init.identifiers ++ (limit.identifiers ++ body.identifiers) :=
      fun x hx => List.mem_append_left _ (init.identifiers_var_subset hx)
    have hbody : body.identifiers ⊆ init.identifiers ++ (limit.identifiers ++ body.identifiers) :=
      fun x hx => List.mem_append_right _ (List.mem_append_right _ hx)
    refine ((assigns_startEffect init).mono hvar).followedBy (.repeatWhile (.followedBy ?_ ?_) fuel)
    · exact (assigns_exec body).mono hbody
    · exact (Expr.assigns_assignTo init.var _).mono hvar

theorem assigns_execAll : ∀ ts : List Stmt, (execAll calls fuel ts).Assigns (identifiersAll ts)
  | [] => by
    rw [execAll]
    exact .skip
  | t :: rest => by
    rw [execAll, identifiersAll]
    exact ((assigns_exec t).mono (List.subset_append_left ..)).followedBy
      ((assigns_execAll rest).mono (List.subset_append_right ..))

end

end Stmt

end

end PascalAsm
