import PascalAsm.Proofs.RoundTrip.Expressions

/-!
# Statements that are read back

The same of statements as of expressions: `Stmt.ReadsBack`, by the forms of statements. The content
of a statement is always a container, so a statement takes up three levels before anything in it
does.

What sets `if` apart is that a missing branch is written as a value. It is told from a branch
because no statement is written like it.
-/

namespace PascalAsm

open Json

/-! ## The start of a loop -/

namespace ForInit

/-- The reals at the start of a `for` statement. A start without a value has those of its variable
only. -/
def reals : ForInit → List Single
  | assign var value => var.reals ++ value.reals
  | keep var => var.reals

variable {init : ForInit}

theorem spelled_toJson (h : ∀ x ∈ init.reals, x.Rereads) : init.toJson.Spelled := by
  cases init with
  | assign var value =>
    rw [reals, List.forall_mem_append] at h
    simpa [toJson, spelled_record, SpelledAll] using
      ⟨Expr.spelled_toJson h.1, Expr.spelled_toJson h.2⟩
  | keep var => simpa [toJson] using Expr.spelled_toJson h

theorem ofJson?_toJson (h : ∀ x ∈ init.reals, x.Rereads) (levels : Nat) :
    ForInit.ofJson? levels init.toJson = ifFits levels init.toJson.depth init := by
  cases init with
  | assign var value =>
    rw [reals, List.forall_mem_append] at h
    have hdepth : (ForInit.assign var value).toJson.depth =
        max var.toJson.depth value.toJson.depth + 2 := by
      simp [toJson, depth_record, depthOfItems]
    rw [hdepth]
    refine ifFits_below (fun n => ForInit.ofJson? n _) 2 (fun n hn => ?_) fun n => ?_
    · obtain rfl | rfl : n = 0 ∨ n = 1 := by omega
      · rfl
      · rfl
    · show ((Expr.ofJson? n var.toJson).bind fun x =>
        (Expr.ofJson? n value.toJson).bind fun y => some (ForInit.assign x y)) = _
      exact bind_ifFits (Expr.readsBack h.1 n) (map_ifFits (Expr.readsBack h.2 n) rfl)
  | keep var =>
    rw [reals] at h
    rw [toJson, depth_variant]
    refine ifFits_within (fun n => ForInit.ofJson? n _) rfl fun n => ?_
    show ((Expr.ofJson? n var.toJson).bind fun x => some (ForInit.keep x)) = _
    exact map_ifFits (Expr.readsBack h n) rfl

end ForInit

/-! ## Statements -/

namespace Stmt

mutual

/-- The reals in a statement. Those of its expressions and of the statements in it. -/
def reals : Stmt → List Single
  | assign _ target value => target.reals ++ value.reals
  | call _ _ args => Expr.realsAll args
  | compound _ body => realsAll body
  | ifThen _ condition thenBranch => condition.reals ++ thenBranch.reals
  | ifElse _ condition thenBranch elseBranch =>
    condition.reals ++ (thenBranch.reals ++ elseBranch.reals)
  | whileDo _ condition body => condition.reals ++ body.reals
  | forTo _ init limit body => init.reals ++ (limit.reals ++ body.reals)

/-- The reals in some statements. In the order of the statements. -/
def realsAll : List Stmt → List Single
  | [] => []
  | s :: rest => s.reals ++ realsAll rest

end

theorem toJsons_eq_map (body : List Stmt) : toJsons body = body.map toJson := by
  induction body with
  | nil => rfl
  | cons s rest ih => rw [toJsons, ih, List.map_cons]

mutual

theorem spelled_toJson : ∀ {s : Stmt}, (∀ x ∈ s.reals, x.Rereads) → s.toJson.Spelled
  | assign _ target value, h => by
    rw [reals, List.forall_mem_append] at h
    simpa [toJson, spelled_record, SpelledAll] using
      ⟨Expr.spelled_toJson h.1, Expr.spelled_toJson h.2⟩
  | call _ _ args, h => by
    rw [reals] at h
    simpa [toJson, spelled_record, SpelledAll, Spelled] using Expr.spelledAll_toJsons h
  | compound _ body, h => by
    rw [reals] at h
    simpa [toJson, Spelled] using spelledAll_toJsons h
  | ifThen _ condition thenBranch, h => by
    rw [reals, List.forall_mem_append] at h
    simpa [toJson, spelled_record, SpelledAll, Spelled] using
      ⟨Expr.spelled_toJson h.1, spelled_toJson h.2⟩
  | ifElse _ condition thenBranch elseBranch, h => by
    rw [reals, List.forall_mem_append, List.forall_mem_append] at h
    simpa [toJson, spelled_record, SpelledAll] using
      ⟨Expr.spelled_toJson h.1, spelled_toJson h.2.1, spelled_toJson h.2.2⟩
  | whileDo _ condition body, h => by
    rw [reals, List.forall_mem_append] at h
    simpa [toJson, spelled_record, SpelledAll] using ⟨Expr.spelled_toJson h.1, spelled_toJson h.2⟩
  | forTo _ init limit body, h => by
    rw [reals, List.forall_mem_append, List.forall_mem_append] at h
    simpa [toJson, spelled_record, SpelledAll] using
      ⟨ForInit.spelled_toJson h.1, Expr.spelled_toJson h.2.1, spelled_toJson h.2.2⟩

theorem spelledAll_toJsons : ∀ {body : List Stmt}, (∀ x ∈ realsAll body, x.Rereads) →
    SpelledAll (toJsons body)
  | [], _ => trivial
  | s :: rest, h => by
    rw [realsAll, List.forall_mem_append] at h
    exact ⟨spelled_toJson h.1, spelledAll_toJsons h.2⟩

end

/-- The statement is read where there are levels enough for it, and nowhere else. It is stated like
that of expressions, for the tree of a statement. -/
def ReadsBack (s : Stmt) : Prop :=
  ∀ levels, Stmt.ofJson? levels s.toJson = ifFits levels s.toJson.depth s

/-- A node whose content is a container takes up three levels. The third one is the content, which
is an object or an array by `hdepth`. -/
theorem readsBack_of_node {s : Stmt} {name : String} {content : Json} {line : UInt32} {d : Nat}
    (hjson : s.toJson = node (variant name content) line) (hdepth : content.depth = d + 1)
    (h : ∀ n, Stmt.ofJson? (n + 3) (node (variant name content) line) = ifFits n d s) :
    s.ReadsBack := by
  intro levels
  rw [hjson, depth_node, depth_variant, hdepth]
  refine ifFits_below (fun n => Stmt.ofJson? n _) 3 (fun n hn => ?_) h
  -- With fewer than three levels the container is not reached, whatever is in it.
  obtain rfl | rfl | rfl : n = 0 ∨ n = 1 ∨ n = 2 := by omega
  · rfl
  · rfl
  · rfl

/-- No statement is written like a branch that is missing. A missing branch is written as `null`, so
a reader can tell them apart. -/
theorem toJson_eq_object (s : Stmt) : ∃ members, s.toJson = .object members := by
  cases s <;> exact ⟨_, rfl⟩

section

variable {condition target value limit : Expr} {body thenBranch elseBranch : Stmt} {init : ForInit}

theorem readsBack_assign (line : Line) (ht : target.ReadsBack) (hv : value.ReadsBack) :
    (assign line target value).ReadsBack := by
  refine readsBack_of_node (d := max target.toJson.depth value.toJson.depth) rfl ?_ fun n => ?_
  · simp [depth_record, depthOfItems]
  rw [Stmt.ofJson?, node?_node]
  show ((Expr.ofJson? n target.toJson).bind fun x =>
    (Expr.ofJson? n value.toJson).bind fun y => some (assign line x y)) = _
  exact bind_ifFits (ht n) (map_ifFits (hv n) rfl)

theorem readsBack_call (line : Line) (callee : String) {args : List Expr}
    (h : ∀ e ∈ args, e.ReadsBack) : (call line callee args).ReadsBack := by
  refine readsBack_of_node (d := (Json.array (args.map Expr.toJson)).depth) rfl ?_ fun n => ?_
  · simp [depth_record, depthOfItems, Expr.toJsons_eq_map]
  rw [Stmt.ofJson?, node?_node, Expr.toJsons_eq_map]
  show ((list? Expr.ofJson? n (.array (args.map Expr.toJson))).bind fun args =>
    some (call line callee args)) = _
  exact map_ifFits (list?_ifFits h n) rfl

theorem readsBack_compound (line : Line) {body : List Stmt} (h : ∀ s ∈ body, s.ReadsBack) :
    (compound line body).ReadsBack := by
  refine readsBack_of_node (d := depthOfItems (body.map toJson)) rfl ?_ fun n => ?_
  · rw [depth, toJsons_eq_map]
  rw [Stmt.ofJson?, node?_node, toJsons_eq_map]
  show (((body.map toJson).mapM (Stmt.ofJson? n)).bind fun body => some (compound line body)) = _
  exact map_ifFits (mapM_ifFits h n) rfl

theorem readsBack_ifThen (line : Line) (hc : condition.ReadsBack) (ht : thenBranch.ReadsBack) :
    (ifThen line condition thenBranch).ReadsBack := by
  refine readsBack_of_node (d := max condition.toJson.depth thenBranch.toJson.depth) rfl ?_ fun n => ?_
  · simp [depth_record, depthOfItems, depth]
  rw [Stmt.ofJson?, node?_node]
  show ((Expr.ofJson? n condition.toJson).bind fun x =>
    (Stmt.ofJson? n thenBranch.toJson).bind fun y => some (ifThen line x y)) = _
  exact bind_ifFits (hc n) (map_ifFits (ht n) rfl)

theorem readsBack_ifElse (line : Line) (hc : condition.ReadsBack) (ht : thenBranch.ReadsBack)
    (he : elseBranch.ReadsBack) : (ifElse line condition thenBranch elseBranch).ReadsBack := by
  refine readsBack_of_node
    (d := max condition.toJson.depth (max thenBranch.toJson.depth elseBranch.toJson.depth)) rfl ?_
    fun n => ?_
  · simp [depth_record, depthOfItems]
  rw [Stmt.ofJson?, node?_node]
  have he' := he n
  -- only when it is known to be an object is the last field not a branch that is missing
  obtain ⟨members, hmembers⟩ := elseBranch.toJson_eq_object
  rw [hmembers] at he' ⊢
  show ((Expr.ofJson? n condition.toJson).bind fun x =>
    (Stmt.ofJson? n thenBranch.toJson).bind fun y =>
      (Stmt.ofJson? n (.object members)).bind fun z => some (ifElse line x y z)) = _
  exact bind_ifFits (hc n) (bind_ifFits (ht n) (map_ifFits he' rfl))

theorem readsBack_whileDo (line : Line) (hc : condition.ReadsBack) (hb : body.ReadsBack) :
    (whileDo line condition body).ReadsBack := by
  refine readsBack_of_node (d := max condition.toJson.depth body.toJson.depth) rfl ?_ fun n => ?_
  · simp [depth_record, depthOfItems]
  rw [Stmt.ofJson?, node?_node]
  show ((Expr.ofJson? n condition.toJson).bind fun x =>
    (Stmt.ofJson? n body.toJson).bind fun y => some (whileDo line x y)) = _
  exact bind_ifFits (hc n) (map_ifFits (hb n) rfl)

theorem readsBack_forTo (line : Line) (hi : ∀ x ∈ init.reals, x.Rereads) (hl : limit.ReadsBack)
    (hb : body.ReadsBack) : (forTo line init limit body).ReadsBack := by
  refine readsBack_of_node
    (d := max init.toJson.depth (max limit.toJson.depth body.toJson.depth)) rfl ?_ fun n => ?_
  · simp [depth_record, depthOfItems]
  rw [Stmt.ofJson?, node?_node]
  show ((ForInit.ofJson? n init.toJson).bind fun x => (Expr.ofJson? n limit.toJson).bind fun y =>
    (Stmt.ofJson? n body.toJson).bind fun z => some (forTo line x y z)) = _
  exact bind_ifFits (ForInit.ofJson?_toJson hi n) (bind_ifFits (hl n) (map_ifFits (hb n) rfl))

end

mutual

/-- Every statement is read back if the reals in it are. By recursion over the statement, with one
lemma for each of its forms. -/
theorem readsBack : ∀ {s : Stmt}, (∀ x ∈ s.reals, x.Rereads) → s.ReadsBack
  | assign line target value, h => by
    rw [reals, List.forall_mem_append] at h
    exact readsBack_assign line (Expr.readsBack h.1) (Expr.readsBack h.2)
  | call line callee args, h => by
    rw [reals] at h
    exact readsBack_call line callee (Expr.readsBack_all h)
  | compound line body, h => by
    rw [reals] at h
    exact readsBack_compound line (readsBack_all h)
  | ifThen line condition thenBranch, h => by
    rw [reals, List.forall_mem_append] at h
    exact readsBack_ifThen line (Expr.readsBack h.1) (readsBack h.2)
  | ifElse line condition thenBranch elseBranch, h => by
    rw [reals, List.forall_mem_append, List.forall_mem_append] at h
    exact readsBack_ifElse line (Expr.readsBack h.1) (readsBack h.2.1) (readsBack h.2.2)
  | whileDo line condition body, h => by
    rw [reals, List.forall_mem_append] at h
    exact readsBack_whileDo line (Expr.readsBack h.1) (readsBack h.2)
  | forTo line init limit body, h => by
    rw [reals, List.forall_mem_append, List.forall_mem_append] at h
    exact readsBack_forTo line h.1 (Expr.readsBack h.2.1) (readsBack h.2.2)

theorem readsBack_all : ∀ {body : List Stmt}, (∀ x ∈ realsAll body, x.Rereads) →
    ∀ s ∈ body, s.ReadsBack
  | [], _ => by simp
  | s :: rest, h => by
    rw [realsAll, List.forall_mem_append] at h
    exact List.forall_mem_cons.2 ⟨readsBack h.1, readsBack_all h.2⟩

end

end Stmt

end PascalAsm
