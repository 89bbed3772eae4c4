import PascalAsm.Proofs.RoundTrip.Tokens
import PascalAsm.Syntax.Write

/-!
# Records that are read back, level by level

A record that was written with its fields in some order gives back their values in that order. How
deep it may nest is another matter: every reader is told how many levels are left.

* **`Json.depth`** — how deep the arrays and objects of a value nest.
* **`Json.ifFits`** — a result that is given if the levels that are left are enough. A reader of
  something that has parts gives such results if the readers of the parts do; `bind_ifFits` and
  `ifFits_below` say how the depths add up.
-/

namespace PascalAsm

namespace Json

/-! ## Depth -/

mutual

/-- How deep the arrays and objects of a value nest. It is how many levels a reader needs for it. -/
def depth : Json → Nat
  | array items => depthOfItems items + 1
  | object members => depthOfMembers members + 1
  | null | bool _ | number _ | string _ => 0

/-- How deep the items nest that do so most deeply. An empty array has none. -/
def depthOfItems : List Json → Nat
  | [] => 0
  | item :: rest => max item.depth (depthOfItems rest)

/-- How deep the values of the members nest that do so most deeply. The names of members do not
nest. -/
def depthOfMembers : List (Option String × Json) → Nat
  | [] => 0
  | (_, value) :: rest => max value.depth (depthOfMembers rest)

end

theorem depth_record (members : List (String × Json)) :
    (record members).depth = depthOfItems (members.map (·.2)) + 1 := by
  rw [record, depth]
  induction members with
  | nil => rfl
  | cons m rest ih =>
    rw [Nat.add_right_cancel_iff] at ih ⊢
    rw [List.map_cons, List.map_cons, depthOfMembers, depthOfItems, ih]

@[simp] theorem depth_str (s : String) : (str s).depth = 0 := rfl

@[simp] theorem depth_int (i : Int) : (int i).depth = 0 := rfl

@[simp] theorem depth_variant (name : String) (content : Json) :
    (variant name content).depth = content.depth + 1 := by
  simp [variant, depth_record, depthOfItems]

@[simp] theorem depth_node (kind : Json) (line : UInt32) : (node kind line).depth = kind.depth + 1 := by
  simp [node, depth_record, depthOfItems]

@[simp] theorem depth_operation (op : String) (left right : Json) :
    (operation op left right).depth = max left.depth right.depth + 1 := by
  simp [operation, depth_record, depthOfItems]

@[simp] theorem depth_strs (texts : List String) : (strs texts).depth = 1 := by
  have hitems : depthOfItems (texts.map str) = 0 := by
    induction texts with
    | nil => rfl
    | cons s rest ih => rw [List.map_cons, depthOfItems, ih, depth_str, Nat.max_self]
  rw [strs, depth, hitems]

/-! ## Spelling -/

theorem spelled_record (members : List (String × Json)) :
    (record members).Spelled ↔ SpelledAll (members.map (·.2)) := by
  rw [record, Spelled]
  induction members with
  | nil => simp [SpelledMembers, SpelledAll]
  | cons m rest ih => rw [List.map_cons, List.map_cons, SpelledMembers, SpelledAll, ih]

@[simp] theorem spelled_str (s : String) : (str s).Spelled := by
  rw [str, Spelled]
  trivial

@[simp] theorem spelled_int (i : Int) : (int i).Spelled := by
  obtain ⟨n, hn, -⟩ := Option.bind_eq_some_iff.1 (Numeral.integer?_toString i)
  rw [int, Spelled, hn]
  rfl

@[simp] theorem spelled_variant (name : String) (content : Json) :
    (variant name content).Spelled ↔ content.Spelled := by
  simp [variant, spelled_record, SpelledAll]

@[simp] theorem spelled_node (kind : Json) (line : UInt32) :
    (node kind line).Spelled ↔ kind.Spelled := by
  simp [node, spelled_record, SpelledAll]

@[simp] theorem spelled_operation (op : String) (left right : Json) :
    (operation op left right).Spelled ↔ left.Spelled ∧ right.Spelled := by
  simp [operation, spelled_record, SpelledAll]

@[simp] theorem spelled_strs (texts : List String) : (strs texts).Spelled := by
  rw [strs, Spelled]
  induction texts with
  | nil => trivial
  | cons s rest ih => exact ⟨spelled_str s, ih⟩

/-! ## Records -/

/-- A node gives its line, the name of its kind and the content of that. Whether there are levels
enough for the content is not asked yet. -/
theorem node?_node (name : String) (content : Json) (line : UInt32) :
    (node (variant name content) line).node? = some (line, name, content) := by
  have hrecord : (node (variant name content) line).record? ["kind", "line"] =
      some [variant name content, int line.toNat] := rfl
  have hvariant : (variant name content).variant? = some (name, some content) := rfl
  simp only [node?, hrecord, hvariant, nat32?_int]

/-! ## Levels -/

/-- A result that is given if so many levels are enough. Reading a value that was written has this
form, whatever is read. -/
def ifFits {α : Type} (levels depth : Nat) (a : α) : Option α :=
  if depth ≤ levels then some a else none

section

variable {α β : Type} {levels d e : Nat} {a : α} {b : β}

@[simp] theorem ifFits_zero (levels : Nat) (a : α) : ifFits levels 0 a = some a :=
  if_pos (Nat.zero_le levels)

/-- What has two parts fits if both parts do. Side by side, the two parts need as many levels as the
deeper one. -/
theorem bind_ifFits {r : Option α} {f : α → Option β} (hr : r = ifFits levels d a)
    (hf : f a = ifFits levels e b) : r.bind f = ifFits levels (max d e) b := by
  rw [hr]
  by_cases hd : d ≤ levels
  · rw [ifFits, if_pos hd, Option.bind_some, hf]
    by_cases he : e ≤ levels
    · rw [ifFits, ifFits, if_pos he, if_pos (Nat.max_le.2 ⟨hd, he⟩)]
    · rw [ifFits, ifFits, if_neg he, if_neg fun hmax => he (Nat.max_le.1 hmax).2]
  · rw [ifFits, ifFits, if_neg hd, if_neg fun hmax => hd (Nat.max_le.1 hmax).1]
    rfl

/-- What becomes of a part by itself fits if the part does. It is used for the last part of a
record, which is followed by nothing. -/
theorem map_ifFits {r : Option α} {f : α → Option β} (hr : r = ifFits levels d a) (hf : f a = some b) :
    r.bind f = ifFits levels d b := by
  rw [hr, ifFits, ifFits]
  split
  · exact hf
  · rfl

theorem ifFits_succ (levels d : Nat) (a : α) : ifFits (levels + 1) (d + 1) a = ifFits levels d a := by
  simp only [ifFits, Nat.add_le_add_iff_right]

/-- What stands inside of `k` containers fits if it does with so many levels fewer. A reader that
gives nothing when there are fewer than `k` levels need only be looked at when there are more. -/
theorem ifFits_below (read : Nat → Option α) (k : Nat) (hshort : ∀ n < k, read n = none)
    (h : ∀ n, read (n + k) = ifFits n d a) : read levels = ifFits levels (d + k) a := by
  rcases Nat.lt_or_ge levels k with hlt | hge
  · rw [hshort levels hlt, ifFits, if_neg (by omega)]
  · obtain ⟨n, rfl⟩ := Nat.exists_eq_add_of_le' hge
    rw [h n, ifFits, ifFits]
    simp only [Nat.add_le_add_iff_right]

/-- What stands inside of one container, the same. A reader without any level gives nothing,
`hzero`, and with one more it goes into the container. -/
theorem ifFits_within (read : Nat → Option α) (hzero : read 0 = none)
    (h : ∀ n, read (n + 1) = ifFits n d a) : read levels = ifFits levels (d + 1) a :=
  ifFits_below read 1 (fun n hn => by rw [Nat.lt_one_iff.1 hn, hzero]) h

/-- Some values fit if each of them does. By induction on them, with `bind_ifFits` for each. -/
theorem mapM_ifFits {read : Nat → Json → Option α} {write : α → Json} {xs : List α}
    (h : ∀ x ∈ xs, ∀ levels, read levels (write x) = ifFits levels (write x).depth x) (levels : Nat) :
    (xs.map write).mapM (read levels) = ifFits levels (depthOfItems (xs.map write)) xs := by
  induction xs with
  | nil => exact (ifFits_zero levels []).symm
  | cons x rest ih =>
    obtain ⟨hx, hrest⟩ := List.forall_mem_cons.1 h
    rw [List.map_cons, List.mapM_cons, depthOfItems]
    exact bind_ifFits (hx levels) (map_ifFits (ih hrest) rfl)

/-- An array of values uses up one level more than the values. All arrays of trees are read in this
way. -/
theorem list?_ifFits {read : Nat → Json → Option α} {write : α → Json} {xs : List α}
    (h : ∀ x ∈ xs, ∀ levels, read levels (write x) = ifFits levels (write x).depth x) (levels : Nat) :
    list? read levels (.array (xs.map write)) = ifFits levels (Json.array (xs.map write)).depth xs := by
  rw [depth]
  exact ifFits_within (fun n => list? read n (.array (xs.map write))) rfl (mapM_ifFits h)

theorem texts?_strs (levels : Nat) (texts : List String) :
    (strs texts).texts? levels = ifFits levels (strs texts).depth texts := by
  rw [strs, texts?]
  exact list?_ifFits (fun s _ n => by rw [depth_str, ifFits_zero]; rfl) levels

end

end Json

end PascalAsm
