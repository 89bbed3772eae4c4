import PascalAsm.Proofs.RoundTrip.Statements
import PascalAsm.Proofs.RoundTrip.Values

/-!
# Programs that are read back

A program is written as a text, and **`Program.read?_render`** says what becomes of the text: it is
read as the program that was written, unless its arrays and objects nest too deep. Nothing else can
be lost, whatever the names in the program are. All that is assumed is that the reals in it are read
as they were.
-/

namespace PascalAsm

open Json

/-! ## Declarations -/

theorem VarType.ofJson?_tag (levels : Nat) (type : VarType) :
    VarType.ofJson? levels (str type.tag) = some type := by
  show VarType.ofTag? type.tag = some type
  rw [VarType.ofTag?_tag]

namespace Declaration

theorem spelled_toJson (d : Declaration) : d.toJson.Spelled := by
  cases d <;> simp [toJson, spelled_record, SpelledAll]

theorem ofJson?_toJson (d : Declaration) (levels : Nat) :
    Declaration.ofJson? levels d.toJson = ifFits levels d.toJson.depth d := by
  have hdepth : d.toJson.depth = 1 + 3 := by
    cases d <;> simp [toJson, depth_record, depthOfItems]
  rw [hdepth]
  -- Below three levels there is no room for the list of names.
  refine ifFits_below (fun n => Declaration.ofJson? n _) 3 (fun n hn => ?_) fun n => ?_
  · obtain rfl | rfl | rfl : n = 0 ∨ n = 1 ∨ n = 2 := by omega
    · rfl
    · rfl
    · rfl
  have htexts (names : List String) : (strs names).texts? n = ifFits n 1 names := by
    rw [texts?_strs, depth_strs]
  show Declaration.ofJson? (n + 3) _ = _
  cases d with
  | vars line names type =>
    rw [toJson, Declaration.ofJson?, node?_node]
    show ((strs names).texts? n).bind (fun names =>
      (VarType.ofJson? n (str type.tag)).bind fun type => some (vars line names type)) = _
    rw [VarType.ofJson?_tag]
    exact map_ifFits (htexts names) rfl
  | arrays line names type first last =>
    rw [toJson, Declaration.ofJson?, node?_node]
    show ((strs names).texts? n).bind (fun names => (VarType.ofJson? n (str type.tag)).bind fun type =>
      (int first.toInt).int32?.bind fun first => (int last.toInt).int32?.bind fun last =>
        some (arrays line names type first last)) = _
    rw [VarType.ofJson?_tag, int32?_int, int32?_int]
    exact map_ifFits (htexts names) rfl

theorem spelledAll_toJsons (ds : List Declaration) : SpelledAll (ds.map toJson) := by
  induction ds with
  | nil => trivial
  | cons d rest ih => exact ⟨d.spelled_toJson, ih⟩

theorem listOfJson?_toJsons (ds : List Declaration) (levels : Nat) :
    Declaration.listOfJson? levels (.array (ds.map toJson)) =
      ifFits levels (Json.array (ds.map toJson)).depth ds :=
  list?_ifFits (fun d _ => d.ofJson?_toJson) levels

end Declaration

/-! ## Subprograms -/

namespace SubprogramKind

theorem spelled_toJson (kind : SubprogramKind) : kind.toJson.Spelled := by
  cases kind <;> simp [toJson, spelled_record, SpelledAll]

theorem ofJson?_toJson (kind : SubprogramKind) (levels : Nat) :
    SubprogramKind.ofJson? levels kind.toJson = ifFits levels kind.toJson.depth kind := by
  cases kind with
  | procedure => exact (ifFits_zero levels _).symm
  | function result =>
    have hdepth : (SubprogramKind.function result).toJson.depth = 0 + 2 := by
      simp [toJson, depth_record, depthOfItems]
    rw [hdepth]
    refine ifFits_below (fun n => SubprogramKind.ofJson? n _) 2 (fun n hn => ?_) fun n => ?_
    · obtain rfl | rfl : n = 0 ∨ n = 1 := by omega
      · rfl
      · rfl
    · show ((VarType.ofJson? n (str result.tag)).bind fun result =>
        some (SubprogramKind.function result)) = _
      rw [VarType.ofJson?_tag, ifFits_zero]
      rfl

end SubprogramKind

namespace Subprogram

mutual

/-- The reals in a subprogram. Those of the nested subprograms come first. -/
def reals : Subprogram → List Single
  | mk _ _ _ _ subprograms body _ => realsAll subprograms ++ body.reals

/-- The reals in some subprograms. In the order of the subprograms. -/
def realsAll : List Subprogram → List Single
  | [] => []
  | s :: rest => s.reals ++ realsAll rest

end

theorem toJsons_eq_map (subprograms : List Subprogram) :
    toJsons subprograms = subprograms.map toJson := by
  induction subprograms with
  | nil => rfl
  | cons s rest ih => rw [toJsons, ih, List.map_cons]

mutual

theorem spelled_toJson : ∀ {s : Subprogram}, (∀ x ∈ s.reals, x.Rereads) → s.toJson.Spelled
  | mk kind _ params declarations subprograms body _, h => by
    rw [reals, List.forall_mem_append] at h
    have hsubprograms := spelledAll_toJsons h.1
    simpa [toJson, spelled_record, SpelledAll, Spelled] using ⟨kind.spelled_toJson,
      Declaration.spelledAll_toJsons params, Declaration.spelledAll_toJsons declarations, hsubprograms,
      Stmt.spelled_toJson h.2⟩

theorem spelledAll_toJsons : ∀ {subprograms : List Subprogram},
    (∀ x ∈ realsAll subprograms, x.Rereads) → SpelledAll (toJsons subprograms)
  | [], _ => trivial
  | s :: rest, h => by
    rw [realsAll, List.forall_mem_append] at h
    exact ⟨spelled_toJson h.1, spelledAll_toJsons h.2⟩

end

/-- The subprogram is read where there are levels enough for it, and nowhere else. Deeper nesting
makes its tree deeper, so the levels it needs are those of its tree. -/
def ReadsBack (s : Subprogram) : Prop :=
  ∀ levels, Subprogram.ofJson? levels s.toJson = ifFits levels s.toJson.depth s

theorem readsBack_mk (kind : SubprogramKind) (name : String) (params declarations : List Declaration)
    {subprograms : List Subprogram} {body : Stmt} (line : Line) (hs : ∀ s ∈ subprograms, s.ReadsBack)
    (hb : body.ReadsBack) : (mk kind name params declarations subprograms body line).ReadsBack := by
  intro levels
  have hdepth : (mk kind name params declarations subprograms body line).toJson.depth =
      max kind.toJson.depth (max (Json.array (params.map Declaration.toJson)).depth
        (max (Json.array (declarations.map Declaration.toJson)).depth
          (max (Json.array (subprograms.map toJson)).depth body.toJson.depth))) + 1 := by
    simp [toJson, depth_record, depthOfItems, toJsons_eq_map]
  rw [hdepth]
  refine ifFits_within (fun n => Subprogram.ofJson? n _) rfl fun n => ?_
  show Subprogram.ofJson? (n + 1) _ = _
  cases n with
  | zero =>
    -- there is a level for the record, but none for the arrays in it
    have hpos : 0 < (Json.array (params.map Declaration.toJson)).depth := by
      rw [depth]
      exact Nat.succ_pos _
    rw [ifFits, if_neg (by omega)]
    rfl
  | succ n =>
    have hsubprograms : (subprograms.map toJson).mapM (Subprogram.ofJson? n) =
        ifFits (n + 1) (Json.array (subprograms.map toJson)).depth subprograms := by
      rw [depth, ifFits_succ]
      exact mapM_ifFits hs n
    rw [toJson, Subprogram.ofJson?, toJsons_eq_map]
    show ((SubprogramKind.ofJson? (n + 1) kind.toJson).bind fun kind =>
      (Declaration.listOfJson? (n + 1) (.array (params.map Declaration.toJson))).bind fun params =>
      (Declaration.listOfJson? (n + 1) (.array (declarations.map Declaration.toJson))).bind
        fun declarations => ((subprograms.map toJson).mapM (Subprogram.ofJson? n)).bind
        fun subprograms => (Stmt.ofJson? (n + 1) body.toJson).bind fun body =>
        (int line.toNat).nat32?.bind fun line =>
          some (mk kind name params declarations subprograms body line)) = _
    rw [nat32?_int]
    exact bind_ifFits (kind.ofJson?_toJson _) <|
      bind_ifFits (Declaration.listOfJson?_toJsons params _) <|
      bind_ifFits (Declaration.listOfJson?_toJsons declarations _) <| bind_ifFits hsubprograms <|
      map_ifFits (hb _) rfl

mutual

/-- Every subprogram is read back if the reals in it are. By recursion over the subprogram, and over
those that are nested in it. -/
theorem readsBack : ∀ {s : Subprogram}, (∀ x ∈ s.reals, x.Rereads) → s.ReadsBack
  | mk kind name params declarations subprograms body line, h => by
    rw [reals, List.forall_mem_append] at h
    exact readsBack_mk kind name params declarations line (readsBack_all h.1) (Stmt.readsBack h.2)

theorem readsBack_all : ∀ {subprograms : List Subprogram}, (∀ x ∈ realsAll subprograms, x.Rereads) →
    ∀ s ∈ subprograms, s.ReadsBack
  | [], _ => by simp
  | s :: rest, h => by
    rw [realsAll, List.forall_mem_append] at h
    exact List.forall_mem_cons.2 ⟨readsBack h.1, readsBack_all h.2⟩

end

theorem listOfJson?_toJsons {subprograms : List Subprogram}
    (h : ∀ x ∈ realsAll subprograms, x.Rereads) (levels : Nat) :
    Subprogram.listOfJson? levels (.array (subprograms.map toJson)) =
      ifFits levels (Json.array (subprograms.map toJson)).depth subprograms :=
  list?_ifFits (readsBack_all h) levels

end Subprogram

/-! ## Programs -/

namespace Program

/-- The reals in a program. It is all that the spelling of numbers is asked about. -/
def reals (p : Program) : List Single := Subprogram.realsAll p.subprograms ++ p.body.reals

variable {p : Program}

theorem spelled_toJson (h : ∀ x ∈ p.reals, x.Rereads) : p.toJson.Spelled := by
  rw [reals, List.forall_mem_append] at h
  have hsubprograms := Subprogram.spelledAll_toJsons h.1
  simpa [toJson, spelled_record, SpelledAll, Spelled] using
    ⟨Declaration.spelledAll_toJsons p.declarations, hsubprograms, Stmt.spelled_toJson h.2⟩

/-- A program is read where there are levels enough for it, and nowhere else. Here the levels are
still any; the reader of texts has a fixed number of them. -/
theorem ofJson?_toJson (h : ∀ x ∈ p.reals, x.Rereads) (levels : Nat) :
    Program.ofJson? levels p.toJson = ifFits levels p.toJson.depth p := by
  rw [reals, List.forall_mem_append] at h
  have hdepth : p.toJson.depth = max (strs p.args).depth
      (max (Json.array (p.declarations.map Declaration.toJson)).depth
        (max (Json.array (p.subprograms.map Subprogram.toJson)).depth p.body.toJson.depth)) + 1 := by
    simp [toJson, depth_record, depthOfItems, Subprogram.toJsons_eq_map]
  rw [hdepth]
  refine ifFits_within (fun n => Program.ofJson? n _) rfl fun n => ?_
  show Program.ofJson? (n + 1) _ = _
  rw [toJson, Program.ofJson?, Subprogram.toJsons_eq_map]
  show (((strs p.args).texts? n).bind fun args =>
    (Declaration.listOfJson? n (.array (p.declarations.map Declaration.toJson))).bind
      fun declarations => (Subprogram.listOfJson? n
        (.array (p.subprograms.map Subprogram.toJson))).bind fun subprograms =>
    (Stmt.ofJson? n p.body.toJson).bind fun body => (int p.line.toNat).nat32?.bind fun line =>
      some (Program.mk p.name args declarations subprograms body line)) = _
  rw [nat32?_int]
  exact bind_ifFits (texts?_strs n p.args) <|
    bind_ifFits (Declaration.listOfJson?_toJsons p.declarations n) <|
    bind_ifFits (Subprogram.listOfJson?_toJsons h.1 n) <| map_ifFits (Stmt.readsBack h.2 n) rfl

/-- What is read from the text of a program. The text gives the value that was written, by
`parse?_render`, and `ofJson?_toJson` says what is made of that. -/
theorem read?_render_eq (h : ∀ x ∈ p.reals, x.Rereads) :
    Program.read? p.render = ifFits maxDepth p.toJson.depth p := by
  show (Json.parse? p.toJson.render).bind (Program.ofJson? maxDepth) = _
  rw [parse?_render (spelled_toJson h), Option.bind_some, ofJson?_toJson h]

/-- A program survives being written and read exactly if it does not nest too deep. Both sides are
truth values, so the depth can be computed instead of the round trip. -/
theorem rereads_eq_decide (h : ∀ x ∈ p.reals, x.Rereads) :
    p.rereads = decide (p.toJson.depth ≤ maxDepth) := by
  rw [rereads, read?_render_eq h, ifFits]
  by_cases hdepth : p.toJson.depth ≤ maxDepth <;> simp [hdepth]

/-- **What is read of what was written.** If the reals in a program are read as they were, then the
program is read back from its text exactly if the arrays and objects of its form nest no deeper than
127 levels; and if they do, then the text is refused. -/
theorem read?_render (h : ∀ x ∈ p.reals, x.Rereads) :
    (Program.read? p.render = some p ↔ p.toJson.depth ≤ 127) ∧
      (¬ p.toJson.depth ≤ 127 → Program.read? p.render = none) := by
  have hread : Program.read? p.render = ifFits 127 p.toJson.depth p := read?_render_eq h
  rw [hread, ifFits]
  constructor
  · by_cases hdepth : p.toJson.depth ≤ 127 <;> simp [hdepth]
  · exact fun hdepth => if_neg hdepth

/-- A statement inside of so many compound statements. Each of them takes up three levels of the
tree. -/
def enclosed : Nat → Stmt → Stmt
  | 0, s => s
  | n + 1, s => .compound 1 [enclosed n s]

theorem depth_enclosed (n : Nat) (s : Stmt) :
    (enclosed n s).toJson.depth = 3 * n + s.toJson.depth := by
  induction n with
  | zero => simp [enclosed]
  | succ n ih =>
    simp [enclosed, Stmt.toJson, Stmt.toJsons, depth, depthOfItems, ih]
    omega

theorem reals_enclosed (n : Nat) (s : Stmt) : (enclosed n s).reals = s.reals := by
  induction n with
  | zero => rfl
  | succ n ih => simp [enclosed, Stmt.reals, Stmt.realsAll, ih]

/-- A program that assigns a tenth, with names that no source text could have. A tenth is no binary
fraction, so its numeral stands for a number close to it. -/
def tenthProgram (n : Nat) : Program where
  name := "\"\\\n\x01\u00e9\u4e2d"
  args := ["", "\x7f"]
  declarations := [.arrays 4294967295 ["a\tb"] .real .minValue .maxValue]
  subprograms := []
  body := enclosed n (.assign 0 (.var 0 "x / y") (.real 0 ⟨0x3dcccccd⟩))
  line := 0

/-- Inside of forty compound statements the assignment is read back, inside of one more it is not.
-/
theorem read?_render_tenthProgram :
    Program.read? (tenthProgram 40).render = some (tenthProgram 40) ∧
      Program.read? (tenthProgram 41).render = none := by
  have htenth : (⟨0x3dcccccd⟩ : Single).Rereads := ⟨"0.1", by decide +kernel, by decide +kernel⟩
  have hreals (n : Nat) : ∀ x ∈ (tenthProgram n).reals, x.Rereads := by
    have hall : (tenthProgram n).reals = [⟨0x3dcccccd⟩] := by
      simp [tenthProgram, reals, reals_enclosed, Stmt.reals, Expr.reals, Subprogram.realsAll]
    simpa [hall] using htenth
  -- Three levels for each compound statement, so that forty of them reach 126 and one more 129.
  have hdepth (n : Nat) : (tenthProgram n).toJson.depth = 3 * n + 6 := by
    simp [tenthProgram, toJson, depth_record, depthOfItems, depth, depth_enclosed, Stmt.toJson,
      Expr.toJson, Subprogram.toJsons, Declaration.toJson]
  have hshallow := read?_render (hreals 40)
  have hdeep := read?_render (hreals 41)
  rw [hdepth] at hshallow hdeep
  exact ⟨hshallow.1.2 (by omega), hdeep.2 (by omega)⟩

end Program

end PascalAsm
