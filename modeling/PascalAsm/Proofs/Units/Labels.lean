import Mathlib.Data.List.Perm.Basic
import PascalAsm.Proofs.Correctness.Programs
import PascalAsm.Proofs.Generator.Targets
import PascalAsm.Proofs.Units.Sequence

/-!
# The labels of a unit

One counter numbers the labels of all functions of a unit, so a label that was put down twice, or not
at all, or in another body than the jump to it, would not be noticed by looking at one function.
`Program.labels_of_generate` says that none of this happens: every label that was drawn is defined
exactly once in the whole unit, and a body jumps to its own labels, to each of them, and nowhere else.
-/

namespace PascalAsm

open Assembly Lowering Gen State

namespace Lowering

/-- If the labels of code are those of the first `n` numbers, then each of them is there once. -/
theorem Defines.perm_range {n : Nat} {c : List Inst} (h : Defines (· < n) c) :
    (labels c).Perm ((List.range n).map localLabel) := by
  obtain ⟨ids, hlabels, hnodup, hmem⟩ := h
  have hperm : ids.Perm (List.range n) := by
    rw [List.perm_ext_iff_of_nodup hnodup List.nodup_range]
    intro k
    rw [hmem, List.mem_range]
  rw [hlabels]
  exact hperm.map localLabel

end Lowering

namespace Routine

variable {pooled : List Reg} {comments : Bool} {r : Routine} {rs : List Routine} {f : Function}
  {fs : List Function} {n n' : Nat}

theorem labels_storing_loading (r : Routine) (c : List Inst) :
    labels (r.storing ++ (c ++ r.loading)) = labels c := by
  rw [labels_append, labels_append, (straight_storing r).labels_eq, (straight_loading r).labels_eq,
    List.nil_append, List.append_nil]

/-- A body defines the labels that were drawn for it. They are the numbers between `n` and `n'`,
each of them once. -/
theorem Generated.defines (h : r.Generated pooled comments n n' f) :
    Defines (fun k => n ≤ k ∧ k < n') f.body := by
  obtain ⟨s, s', c, scope, outer, -, -, -, rfl, hbody, rfl, -, rfl⟩ := h.body
  obtain ⟨ids, hlabels, hids⟩ := (Stmt.lower_made hbody).labels
  exact ⟨ids, (r.labels_storing_loading c).trans hlabels, hids⟩

/-- A body jumps to its own labels, to all of them, and nowhere else. So no label in it is made in
vain. -/
theorem Generated.aims (h : r.Generated pooled comments n n' f) : Aims [] f.body := by
  obtain ⟨s, s', c, scope, outer, -, -, -, -, hbody, -, -, rfl⟩ := h.body
  have hstoring := Aims.straight (straight_storing r)
  have hloading := Aims.straight (straight_loading r)
  exact hstoring.append ((Stmt.aims_of_lower hbody).append hloading)

/-- Bodies that were made one after another define all labels that were drawn meanwhile. The next
body begins to draw where the one before it has ended, so the ranges add up. -/
theorem GeneratedAll.defines (h : GeneratedAll pooled comments rs n fs n') :
    n ≤ n' ∧ Defines (fun k => n ≤ k ∧ k < n') (fs.flatMap (·.body)) := by
  induction h with
  | nil n => exact ⟨Nat.le_refl n, .none rfl fun k => by omega⟩
  | cons head _ ih =>
    obtain ⟨hle', hrest⟩ := ih
    have hle := head.le
    -- the intervals of the first body and of the others do not meet
    have hall := head.defines.append hrest fun k => by omega
    rw [List.flatMap_cons]
    exact ⟨by omega, hall.congr fun k => by omega⟩

end Routine

/-- If the code of a program is generated, then the labels that were drawn are defined once each in
the whole unit; every jump leads to a label of its own body, and to every label there is a jump. -/
theorem Program.labels_of_generate {p : Program} {comments : Bool} {registers : Nat} {s : State}
    (hs : State.initial registers = .ok s) (h : (p.generate comments s).result = .ok ()) :
    ((p.generate comments s).state.finished.flatMap fun f => labels f.body).Perm
        ((List.range (p.generate comments s).state.labels).map localLabel) ∧
      ∀ f ∈ (p.generate comments s).state.finished,
        (∀ name ∈ targets f.body, name ∈ labels f.body) ∧
          ∀ name ∈ labels f.body, name ∈ targets f.body := by
  have hlower : (p.lower comments).Yields s () (p.generate comments s).state
      (p.generate comments s).code := by
    rw [yields_iff, ← h]
    rfl
  have hall := Program.generated_of_initial hs hlower
  constructor
  · have hdefines := hall.defines.2.congr fun k => by rw [and_iff_right (Nat.zero_le k)]
    -- the labels of a unit are those of its bodies, one after another
    have hlabels (fs : List Function) :
        labels (fs.flatMap (·.body)) = fs.flatMap fun f => labels f.body := by
      induction fs with
      | nil => rfl
      | cons f rest ih => rw [List.flatMap_cons, labels_append, ih, List.flatMap_cons]
    rw [← hlabels]
    exact hdefines.perm_range
  · intro f hf
    obtain ⟨r, -, m, m', hr⟩ := hall.exists_of_mem hf
    have haims (name : String) : name ∈ targets f.body ↔ name ∈ labels f.body := by
      simpa using hr.aims.mem_iff name
    exact ⟨fun name => (haims name).1, fun name => (haims name).2⟩

/-- The two functions of the program of sums share four labels: two of them belong to the `if`
statement of the one, the others to the loop of the other. -/
theorem labels_sumProgram :
    (sumProgram.generate false sumStart).result = .ok () ∧
      ((sumProgram.generate false sumStart).state.finished.flatMap fun f => labels f.body).Perm
        ((List.range 4).map localLabel) ∧
      ∀ f ∈ (sumProgram.generate false sumStart).state.finished,
        (∀ name ∈ targets f.body, name ∈ labels f.body) ∧
          ∀ name ∈ labels f.body, name ∈ targets f.body := by
  have hresult : (sumProgram.generate false sumStart).result = .ok () :=
    congrArg Outcome.result yields_sumProgram
  have hcount : (sumProgram.generate false sumStart).state.labels = 4 := by cbv
  -- The number of labels, `hcount`, is what the theorem leaves open.
  have hlabels := @Program.labels_of_generate sumProgram false 3 sumStart rfl hresult
  rw [hcount] at hlabels
  exact ⟨hresult, hlabels⟩

end PascalAsm
