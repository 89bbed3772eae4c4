import PascalAsm.Assembly.Program
import PascalAsm.Lowering.Names
import Std.Data.String.ToNat

/-!
# Which temporaries a piece of code uses

A temporary is found by its name alone, so what keeps the temporaries of one call apart from those
of another one, and from the variables of the program, is how they are named:

* all of them begin with a dollar sign (`dollar_of_temp`), and the names of a program do not;
* the name of an argument or of a saved register fixes the depth of the call that it belongs to,
  and its index or register.

`Temp depth` are the names that the code of a value may use while calls are nested `depth` deep
around it: those of calls at this depth or deeper, and the one for divisors.

`generatedNames_distinct` says that no two of the names that the generator makes up are the same, labels
included.
-/

namespace PascalAsm.Lowering

open Assembly

/-! ## Names of programs and of temporaries -/

/-- The name begins with a dollar sign. No identifier does, and all temporaries do: this keeps
variables and temporaries apart. -/
def Dollar (name : String) : Prop := name.toList.head? = some '$'

instance (name : String) : Decidable (Dollar name) := by unfold Dollar; infer_instance

/-- The temporaries of calls at a depth or deeper, and the one for divisors. Since depth is counted
from outside to inside, code at some depth may use these and has to leave alone the others. -/
inductive Temp (depth : Nat) : String → Prop
  | divisor : Temp depth divisorTemp
  | argument {d : Nat} (index : Nat) (h : depth ≤ d) : Temp depth (argumentTemp d index)
  | save {d : Nat} (r : Reg) (h : depth ≤ d) : Temp depth (saveTemp d r)

/-- Deeper inside there are fewer temporaries. What is written by an inner call is thus within the
footprint of the outer one. -/
theorem Temp.mono {depth d : Nat} {name : String} (h : depth ≤ d) (ht : Temp d name) :
    Temp depth name := by
  cases ht with
  | divisor => exact .divisor
  | argument index h' => exact .argument index (Nat.le_trans h h')
  | save r h' => exact .save r (Nat.le_trans h h')

theorem toList_argumentTemp (d i : Nat) : (argumentTemp d i).toList =
    ['$', 'a', 'r', 'g'] ++ (Nat.toDigits 10 d ++ '_' :: Nat.toDigits 10 i) := by
  simp [argumentTemp]

theorem toList_saveTemp (d : Nat) (r : Reg) : (saveTemp d r).toList =
    ['$', 's', 'a', 'v', 'e'] ++ (Nat.toDigits 10 d ++ '_' :: r.bareName.toList) := by
  simp [saveTemp]

theorem toList_divisorTemp :
    divisorTemp.toList = ['$', 'd', 'i', 'v', '_', 'c', 'o', 'n', 's', 't'] := by
  simp [divisorTemp]

theorem dollar_of_temp {depth : Nat} {name : String} (h : Temp depth name) : Dollar name := by
  cases h with
  | divisor => rw [Dollar, toList_divisorTemp]; rfl
  | argument => rw [Dollar, toList_argumentTemp]; rfl
  | save => rw [Dollar, toList_saveTemp]; rfl

/-! ## What a name tells -/

theorem toDigits_inj {m n : Nat} (h : Nat.toDigits 10 m = Nat.toDigits 10 n) : m = n := by
  rw [← Nat.toList_repr, ← Nat.toList_repr, String.toList_inj] at h
  exact Nat.repr_inj.1 h

/-- Digits end at an underscore. So two numbers that are separated by one can both be read back. -/
theorem toDigits_underscore_inj {m n : Nat} {xs ys : List Char}
    (h : Nat.toDigits 10 m ++ '_' :: xs = Nat.toDigits 10 n ++ '_' :: ys) : m = n ∧ xs = ys := by
  -- The digits are what stands before the first underscore, so they can be read back.
  have digits (k : Nat) (zs : List Char) :
      (Nat.toDigits 10 k ++ '_' :: zs).takeWhile (· ≠ '_') = Nat.toDigits 10 k := by
    rw [List.takeWhile_append_of_pos]
    · simp
    · intro c hc
      simpa using fun e : c = '_' => Nat.underscore_not_in_toDigits (e ▸ hc)
  have hd : Nat.toDigits 10 m = Nat.toDigits 10 n := by rw [← digits m xs, h, digits]
  rw [hd, List.append_cancel_left_eq] at h
  exact ⟨toDigits_inj hd, (List.cons.inj h).2⟩

/-- The name of an argument fixes its call and its index. The depth ends at the underscore, and the
index is the rest. -/
theorem eq_of_argumentTemp_eq {d e i j : Nat} (h : argumentTemp d i = argumentTemp e j) :
    d = e ∧ i = j := by
  rw [← String.toList_inj, toList_argumentTemp, toList_argumentTemp, List.append_cancel_left_eq] at h
  obtain ⟨hd, hi⟩ := toDigits_underscore_inj h
  exact ⟨hd, toDigits_inj hi⟩

/-- The name of a saved register fixes its call and the register. Names of registers differ, so what
stands behind the underscore tells which it is. -/
theorem eq_of_saveTemp_eq {d e : Nat} {q r : Reg} (h : saveTemp d q = saveTemp e r) :
    d = e ∧ q = r := by
  rw [← String.toList_inj, toList_saveTemp, toList_saveTemp, List.append_cancel_left_eq] at h
  obtain ⟨hd, hr⟩ := toDigits_underscore_inj h
  refine ⟨hd, ?_⟩
  revert hr
  cases q <;> cases r <;> decide

theorem argumentTemp_ne_saveTemp (d e i : Nat) (r : Reg) : argumentTemp d i ≠ saveTemp e r := by
  intro h
  rw [← String.toList_inj, toList_argumentTemp, toList_saveTemp] at h
  simp at h

theorem argumentTemp_ne_divisorTemp (d i : Nat) : argumentTemp d i ≠ divisorTemp := by
  intro h
  rw [← String.toList_inj, toList_argumentTemp, toList_divisorTemp] at h
  simp at h

theorem saveTemp_ne_divisorTemp (d : Nat) (r : Reg) : saveTemp d r ≠ divisorTemp := by
  intro h
  rw [← String.toList_inj, toList_saveTemp, toList_divisorTemp] at h
  simp at h

/-- An argument of a call is no temporary of the calls among its arguments. Once it is stored it
therefore keeps its value until the call, whatever is computed in between. -/
theorem not_temp_argumentTemp {depth d : Nat} (i : Nat) (h : d < depth) :
    ¬ Temp depth (argumentTemp d i) := by
  intro ht
  generalize hn : argumentTemp d i = name at ht
  cases ht with
  | divisor => exact argumentTemp_ne_divisorTemp _ _ hn
  | argument index h' =>
    have := (eq_of_argumentTemp_eq hn).1
    omega
  | save r h' => exact argumentTemp_ne_saveTemp _ _ _ _ hn

/-- A register that is saved around a call is no temporary of the calls among its arguments. -/
theorem not_temp_saveTemp {depth d : Nat} (r : Reg) (h : d < depth) :
    ¬ Temp depth (saveTemp d r) := by
  intro ht
  generalize hn : saveTemp d r = name at ht
  cases ht with
  | divisor => exact saveTemp_ne_divisorTemp _ _ hn
  | argument index h' => exact argumentTemp_ne_saveTemp _ _ _ _ hn.symm
  | save q h' =>
    have := (eq_of_saveTemp_eq hn).1
    omega

/-- The label of a number fixes it. Digits can be read back to the number, `toDigits_inj`. -/
theorem eq_of_localLabel_eq {m n : Nat} (h : localLabel m = localLabel n) : m = n := by
  rw [← String.toList_inj] at h
  simp only [localLabel, String.toList_append, Nat.toString_eq_repr, Nat.toList_repr,
    List.append_cancel_left_eq] at h
  exact toDigits_inj h

/-- After the first two characters of a label there are only digits. The labels of format strings
have a letter there, and so differ from all of them. -/
theorem ne_localLabel {name : String} (h : (name.toList.drop 2).all Char.isDigit = false) (k : Nat) :
    name ≠ localLabel k := by
  rintro rfl
  have hdrop : (localLabel k).toList.drop 2 = Nat.toDigits 10 k := by
    rw [localLabel, String.toList_append, Nat.toString_eq_repr, Nat.toList_repr]
    rfl
  have hall : (Nat.toDigits 10 k).all Char.isDigit = true :=
    List.all_eq_true.2 fun c => Nat.isDigit_of_mem_toDigits (by decide) (by decide)
  rw [hdrop, hall] at h
  cases h

/-! ## Names that are made up -/

/-- **No two generated names are the same.** The name of an argument fixes the depth of its call and its
index, and the name of a saved register fixes the depth and the register; the temporary for divisors is
neither of the two. Labels with different numbers differ, and none of them labels a format string. -/
theorem generatedNames_distinct (d e i j m n : Nat) (q r : Reg) :
    (argumentTemp d i = argumentTemp e j ↔ d = e ∧ i = j) ∧
    (saveTemp d q = saveTemp e r ↔ d = e ∧ q = r) ∧
    argumentTemp d i ≠ saveTemp e r ∧
    argumentTemp d i ≠ divisorTemp ∧
    saveTemp d q ≠ divisorTemp ∧
    (localLabel m = localLabel n ↔ m = n) ∧
    localLabel m ≠ Runtime.writeFormat ∧
    localLabel m ≠ Runtime.readFormat := by
  -- One lemma for each pair of kinds; what is left are the converses and two fixed names.
  refine ⟨⟨eq_of_argumentTemp_eq, ?argument⟩, ⟨eq_of_saveTemp_eq, ?save⟩, argumentTemp_ne_saveTemp d e i r,
    argumentTemp_ne_divisorTemp d i, saveTemp_ne_divisorTemp d q, ⟨eq_of_localLabel_eq, ?label⟩,
    (ne_localLabel ?write m).symm, (ne_localLabel ?read m).symm⟩
  case argument | save =>
    rintro ⟨rfl, rfl⟩
    rfl
  case label => exact congrArg localLabel
  case write | read => rfl

end PascalAsm.Lowering
