import PascalAsm.Proofs.RoundTrip.Records
import PascalAsm.Syntax.Reread

/-!
# Expressions that are read back

An expression is written as a record whose kind is a variant, and each form of an expression is read
back from what it was written as: if there are levels enough for it to nest as deep as it does, and
not otherwise.

* **`Single.Rereads`** — all that has to be assumed: a real is read from its spelling as it was.
* **`Expr.ReadsBack`** — what is shown of every expression, by the forms of expressions.
-/

namespace PascalAsm

open Json

/-! ## Reals -/

namespace Single

/-- The number has a spelling, and it is read from that as it was. Writing and reading reals is left
to their numerals, so this is what is asked of them. -/
def Rereads (x : Single) : Prop :=
  ∃ spelling, x.numeral? = some spelling ∧ (Json.number spelling).single? = some x

@[simp] theorem depth_toJson (x : Single) : x.toJson.depth = 0 := by
  unfold toJson
  split <;> rfl

theorem Rereads.single?_toJson {x : Single} (h : x.Rereads) : x.toJson.single? = some x := by
  obtain ⟨spelling, hspelling, hsingle⟩ := h
  rw [toJson, hspelling]
  exact hsingle

theorem Rereads.spelled {x : Single} (h : x.Rereads) : x.toJson.Spelled := by
  obtain ⟨spelling, hspelling, hsingle⟩ := h
  obtain ⟨n, hn, -⟩ := Option.bind_eq_some_iff.1 hsingle
  rw [toJson, hspelling]
  show (Numeral.ofString? spelling).isSome = true
  rw [hn]
  rfl

end Single

/-! ## Expressions -/

namespace Expr

mutual

/-- The reals in an expression. Each of them is listed as often as it occurs, which does not matter
here. -/
def reals : Expr → List Single
  | real _ x => [x]
  | var .. | integer .. => []
  | sign _ e | not _ e => e.reals
  | add _ _ left right | mul _ _ left right | relational _ _ left right
  | logical _ _ left right => left.reals ++ right.reals
  | element _ _ index => index.reals
  | call _ _ args => realsAll args

/-- The reals in some expressions. In the order of the expressions. -/
def realsAll : List Expr → List Single
  | [] => []
  | e :: rest => e.reals ++ realsAll rest

end

theorem toJsons_eq_map (es : List Expr) : toJsons es = es.map toJson := by
  induction es with
  | nil => rfl
  | cons e rest ih => rw [toJsons, ih, List.map_cons]

mutual

theorem spelled_toJson : ∀ {e : Expr}, (∀ x ∈ e.reals, x.Rereads) → e.toJson.Spelled
  -- Only a real asks for something: that its shortest text reads back, `h`.
  | real _ x, h => by
    have hx := (h x (by simp [reals])).spelled
    simpa [toJson] using hx
  | var .., _ | integer .., _ => by simp [toJson]
  | sign _ e, h | not _ e, h => by
    rw [reals] at h
    simpa [toJson] using spelled_toJson h
  | add _ _ left right, h | mul _ _ left right, h | relational _ _ left right, h
  | logical _ _ left right, h => by
    rw [reals, List.forall_mem_append] at h
    simpa [toJson] using ⟨spelled_toJson h.1, spelled_toJson h.2⟩
  | element _ _ index, h => by
    rw [reals] at h
    simpa [toJson, spelled_record, SpelledAll] using spelled_toJson h
  | call _ _ args, h => by
    rw [reals] at h
    simpa [toJson, spelled_record, SpelledAll, Spelled] using spelledAll_toJsons h

theorem spelledAll_toJsons : ∀ {es : List Expr}, (∀ x ∈ realsAll es, x.Rereads) →
    SpelledAll (toJsons es)
  | [], _ => trivial
  | e :: rest, h => by
    rw [realsAll, List.forall_mem_append] at h
    exact ⟨spelled_toJson h.1, spelledAll_toJsons h.2⟩

end

/-- The expression is read where there are levels enough for it, and nowhere else. The number of
levels is any, so that the lemma can be used inside of a tree. -/
def ReadsBack (e : Expr) : Prop :=
  ∀ levels, Expr.ofJson? levels e.toJson = ifFits levels e.toJson.depth e

/-- A node takes up two levels, so all that matters is how its content is read. One of them is the
object of the node, and the other the name of its kind with the content. -/
theorem readsBack_of_node {e : Expr} {name : String} {content : Json} {line : UInt32}
    (hjson : e.toJson = node (variant name content) line)
    (h : ∀ n, Expr.ofJson? (n + 2) (node (variant name content) line) = ifFits n content.depth e) :
    e.ReadsBack := by
  intro levels
  rw [hjson, depth_node, depth_variant]
  refine ifFits_below (fun n => Expr.ofJson? n _) 2 (fun n hn => ?_) h
  obtain rfl | rfl : n = 0 ∨ n = 1 := by omega
  · rfl
  · rfl

section

variable {left right e : Expr}

/-- An operator and two operands take up one level more than the operands. Both operands are read
with what is left, and the operator is a text and needs none. -/
theorem operation?_operation (hl : left.ReadsBack) (hr : right.ReadsBack) (op : String) (n : Nat) :
    Expr.operation? n (operation op left.toJson right.toJson) =
      ifFits n (operation op left.toJson right.toJson).depth (op, left, right) := by
  rw [depth_operation]
  refine ifFits_within (fun n => Expr.operation? n _) rfl fun n => ?_
  show Expr.operation? (n + 1) _ = _
  rw [Expr.operation?]
  show ((Expr.ofJson? n left.toJson).bind fun x =>
    (Expr.ofJson? n right.toJson).bind fun y => some (op, x, y)) = _
  exact bind_ifFits (hl n) (map_ifFits (hr n) rfl)

/-- The forms with an operator differ in what they make of its name. What is made of it is `make`;
the rest of their proofs is the same and stands here. -/
theorem readsBack_operation {name op : String} {line : UInt32}
    (make : String × Expr × Expr → Option Expr) (hl : left.ReadsBack) (hr : right.ReadsBack)
    (hmake : make (op, left, right) = some e)
    (hjson : e.toJson = node (variant name (operation op left.toJson right.toJson)) line)
    (hread : ∀ n, Expr.ofJson? (n + 2) e.toJson =
      (Expr.operation? n (operation op left.toJson right.toJson)).bind make) : e.ReadsBack := by
  refine readsBack_of_node hjson fun n => ?_
  rw [← hjson, hread n]
  exact map_ifFits (operation?_operation hl hr op n) hmake

theorem readsBack_relational (line : Line) (op : RelOp) (hl : left.ReadsBack) (hr : right.ReadsBack) :
    (relational line op left right).ReadsBack := by
  refine readsBack_operation (fun found => do
    return relational line (← RelOp.ofTag? found.1) found.2.1 found.2.2) hl hr (by simp) rfl fun n => ?_
  rw [Expr.ofJson?, toJson, node?_node]
  rfl

theorem readsBack_logical (line : Line) (op : LogicalOp) (hl : left.ReadsBack) (hr : right.ReadsBack) :
    (logical line op left right).ReadsBack := by
  refine readsBack_operation (fun found => do
    return logical line (← LogicalOp.ofTag? found.1) found.2.1 found.2.2) hl hr (by simp) rfl fun n => ?_
  rw [Expr.ofJson?, toJson, node?_node]
  rfl

theorem readsBack_add (line : Line) (op : AddOp) (hl : left.ReadsBack) (hr : right.ReadsBack) :
    (add line op left right).ReadsBack := by
  refine readsBack_operation (fun found => do
    return add line (← AddOp.ofTag? found.1) found.2.1 found.2.2) hl hr (by simp) rfl fun n => ?_
  rw [Expr.ofJson?, toJson, node?_node]
  rfl

theorem readsBack_mul (line : Line) (op : MulOp) (hl : left.ReadsBack) (hr : right.ReadsBack) :
    (mul line op left right).ReadsBack := by
  refine readsBack_operation (fun found => do
    return mul line (← MulOp.ofTag? found.1) found.2.1 found.2.2) hl hr (by simp) rfl fun n => ?_
  rw [Expr.ofJson?, toJson, node?_node]
  rfl

theorem readsBack_not (line : Line) (h : e.ReadsBack) : (not line e).ReadsBack := by
  refine readsBack_of_node rfl fun n => ?_
  rw [Expr.ofJson?, node?_node]
  show ((Expr.ofJson? n e.toJson).bind fun x => some (not line x)) = _
  exact map_ifFits (h n) rfl

theorem readsBack_sign (line : Line) (h : e.ReadsBack) : (sign line e).ReadsBack := by
  refine readsBack_of_node rfl fun n => ?_
  rw [Expr.ofJson?, node?_node]
  show ((Expr.ofJson? n e.toJson).bind fun x => some (sign line x)) = _
  exact map_ifFits (h n) rfl

theorem readsBack_element (line : Line) (name : String) (h : e.ReadsBack) :
    (element line name e).ReadsBack := by
  refine readsBack_of_node rfl fun n => ?_
  rw [Expr.ofJson?, node?_node]
  show ((Expr.element? n _).bind fun found => some (element line found.1 found.2)) = _
  refine map_ifFits (a := (name, e)) ?_ rfl
  -- The record around the index is one level; below it `h` says when the index is read.
  have hdepth : (record [("id", str name), ("index", e.toJson)]).depth = e.toJson.depth + 1 := by
    simp [depth_record, depthOfItems]
  rw [hdepth]
  refine ifFits_within (fun n => Expr.element? n _) rfl fun n => ?_
  show Expr.element? (n + 1) _ = _
  rw [Expr.element?]
  show ((Expr.ofJson? n e.toJson).bind fun index => some (name, index)) = _
  exact map_ifFits (h n) rfl

theorem readsBack_call (line : Line) (callee : String) {args : List Expr}
    (h : ∀ e ∈ args, e.ReadsBack) : (call line callee args).ReadsBack := by
  refine readsBack_of_node rfl fun n => ?_
  rw [Expr.ofJson?, node?_node]
  show ((Expr.call? n _).bind fun found => some (call line found.1 found.2)) = _
  refine map_ifFits (a := (callee, args)) ?_ rfl
  have hdepth : (record [("id", str callee), ("args", .array (toJsons args))]).depth =
      depthOfItems (args.map toJson) + 2 := by
    simp [depth_record, depthOfItems, depth, toJsons_eq_map]
  rw [hdepth]
  -- Two levels for the record and the list of arguments; with fewer nothing is read.
  refine ifFits_below (fun n => Expr.call? n _) 2 (fun n hn => ?_) fun n => ?_
  · obtain rfl | rfl : n = 0 ∨ n = 1 := by omega
    · rfl
    · rfl
  · show Expr.call? (n + 2) _ = _
    rw [Expr.call?]
    show (((toJsons args).mapM (Expr.ofJson? n)).bind fun args => some (callee, args)) = _
    rw [toJsons_eq_map]
    exact map_ifFits (mapM_ifFits h n) rfl

end

mutual

/-- Every expression is read back if the reals in it are. By recursion over the expression, with one
lemma for each of its forms. -/
theorem readsBack : ∀ {e : Expr}, (∀ x ∈ e.reals, x.Rereads) → e.ReadsBack
  | real line x, h => by
    -- this is what is assumed of the reals
    have hx := (h x (by simp [reals])).single?_toJson
    refine readsBack_of_node rfl fun n => ?_
    rw [Expr.ofJson?, node?_node]
    show (x.toJson.single?.bind fun x => some (real line x)) = _
    rw [hx, Single.depth_toJson, ifFits_zero]
    rfl
  | var line name, _ => readsBack_of_node rfl fun n => by
    rw [Expr.ofJson?, node?_node, depth_str, ifFits_zero]
    rfl
  | integer line i, _ => by
    refine readsBack_of_node rfl fun n => ?_
    rw [Expr.ofJson?, node?_node]
    show ((int i.toInt).int32?.bind fun i => some (integer line i)) = _
    rw [int32?_int, depth_int, ifFits_zero]
    rfl
  | not line e, h => by
    rw [reals] at h
    exact readsBack_not line (readsBack h)
  | sign line e, h => by
    rw [reals] at h
    exact readsBack_sign line (readsBack h)
  | relational line op left right, h => by
    rw [reals, List.forall_mem_append] at h
    exact readsBack_relational line op (readsBack h.1) (readsBack h.2)
  | logical line op left right, h => by
    rw [reals, List.forall_mem_append] at h
    exact readsBack_logical line op (readsBack h.1) (readsBack h.2)
  | add line op left right, h => by
    rw [reals, List.forall_mem_append] at h
    exact readsBack_add line op (readsBack h.1) (readsBack h.2)
  | mul line op left right, h => by
    rw [reals, List.forall_mem_append] at h
    exact readsBack_mul line op (readsBack h.1) (readsBack h.2)
  | element line name index, h => by
    rw [reals] at h
    exact readsBack_element line name (readsBack h)
  | call line callee args, h => by
    rw [reals] at h
    exact readsBack_call line callee (readsBack_all h)

theorem readsBack_all : ∀ {es : List Expr}, (∀ x ∈ realsAll es, x.Rereads) →
    ∀ e ∈ es, e.ReadsBack
  | [], _ => by simp
  | e :: rest, h => by
    rw [realsAll, List.forall_mem_append] at h
    exact List.forall_mem_cons.2 ⟨readsBack h.1, readsBack_all h.2⟩

end

end Expr

end PascalAsm
