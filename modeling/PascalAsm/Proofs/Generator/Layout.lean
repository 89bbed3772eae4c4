import Mathlib.Logic.Relation
import PascalAsm.Lowering.Scope

/-!
# How frames grow

While code is made, slots are only ever added to the innermost scope, and a slot that was handed out
stays where it is.

* **`Scope.Laid`** — the slots lie one below the other, and no name has two of them. It holds of a
  scope without slots and survives every addition.
* **`Scopes.Grows`** — slots for some temporaries were added to the innermost scope.
* **`Layout`** — where the names of a whole function body have their slots. Code that was made early
  knows only a part of it, which the layout `Covers`.
-/

namespace PascalAsm.Lowering

open Assembly Relation

/-! ## One scope -/

/-- The displacement of the slot from the frame pointer. It is a doubleword with a sign, and wraps
where a frame is too large. -/
def Slot.disp (s : Slot) : Int := Operand.slotDisplacement s.offset

theorem Slot.operand_eq (s : Slot) : s.operand = .mem .rbp s.disp := rfl

/-- Offsets that differ have displacements that differ, even where they wrap. So that slots can be
told apart by it, no bound on the size of a frame is needed. -/
theorem slotDisplacement_injective {a b : Nat}
    (h : Operand.slotDisplacement a = Operand.slotDisplacement b) : a = b := by
  simp only [Operand.slotDisplacement, UInt32.size, Int.bmod_def] at h
  omega

namespace Scope

/-- The slots lie one below the other, and no name has two. Both fields are kept by every addition,
`Laid.add`, and hold of the empty scope. -/
structure Laid (s : Scope) : Prop where
  offset : ∀ i (h : i < s.slots.length), s.slots[i].offset = slotSize * (i + 1)
  names : (s.slots.map (·.name)).Nodup

theorem laid_empty : Laid empty := ⟨by simp [empty], by simp [empty]⟩

theorem find?_eq_none_iff {s : Scope} {name : String} :
    s.find? name = none ↔ name ∉ s.slots.map (·.name) := by
  simp only [find?, List.find?_eq_none, decide_eq_true_eq, List.mem_map, not_exists, not_and]

theorem binds_iff {s : Scope} {name : String} :
    s.binds name = true ↔ name ∈ s.slots.map (·.name) := by
  rw [binds, Option.isSome_iff_ne_none, ne_eq, find?_eq_none_iff, Decidable.not_not]

theorem mem_of_find? {s : Scope} {name : String} {slot : Slot} (h : s.find? name = some slot) :
    slot ∈ s.slots ∧ slot.name = name :=
  ⟨List.mem_of_find?_eq_some h, by simpa using List.find?_some h⟩

/-- A slot is what its name is found as. No slot is hidden by another one of its name. -/
theorem Laid.find?_of_mem {s : Scope} (h : s.Laid) {slot : Slot} (hm : slot ∈ s.slots) :
    s.find? slot.name = some slot := by
  have hn := h.names
  rw [find?]
  generalize s.slots = slots at hm hn
  -- Along the slots: `hn` says that no slot before it has its name.
  induction slots with
  | nil => simp at hm
  | cons q rest ih =>
    rw [List.map_cons, List.nodup_cons] at hn
    rcases List.mem_cons.1 hm with rfl | hr
    · simp
    · have hne : q.name ≠ slot.name := fun e => hn.1 (e ▸ List.mem_map_of_mem hr)
      rw [List.find?_cons_of_neg (by simpa using hne), ih hr hn.2]

/-- Slots with the same offset are the same. The offset determines the place in the list. -/
theorem Laid.eq_of_offset {s : Scope} (h : s.Laid) {a b : Slot} (ha : a ∈ s.slots)
    (hb : b ∈ s.slots) (he : a.offset = b.offset) : a = b := by
  obtain ⟨i, hi, rfl⟩ := List.getElem_of_mem ha
  obtain ⟨j, hj, rfl⟩ := List.getElem_of_mem hb
  rw [h.offset, h.offset, slotSize] at he
  have : i = j := by omega
  subst this
  rfl

theorem add_eq_ok_iff {s t : Scope} {region : Region} {name : String} {slot : Slot} :
    s.add region name = .ok (slot, t) ↔
      s.isClosed region = false ∧ s.find? name = none ∧ slot = s.nextSlot region name ∧
        t = ⟨s.slots ++ [s.nextSlot region name]⟩ := by
  cases hc : s.isClosed region <;> cases hb : s.find? name <;>
    simp [add, hc, binds, hb, eq_comm]

/-- A new slot is found under its name, and the others as before. `h` is what the addition has
checked. -/
theorem find?_append {s : Scope} {slot : Slot} (h : s.find? slot.name = none) (x : String) :
    find? ⟨s.slots ++ [slot]⟩ x = if slot.name = x then some slot else s.find? x := by
  by_cases hx : slot.name = x
  · rw [if_pos hx, find?, List.find?_append, ← hx]
    rw [find?] at h
    simp [h]
  · simp [find?, List.find?_append, hx]

theorem Laid.add {s t : Scope} {region : Region} {name : String} {slot : Slot} (h : s.Laid)
    (ha : s.add region name = .ok (slot, t)) : t.Laid := by
  obtain ⟨-, hb, -, rfl⟩ := add_eq_ok_iff.1 ha
  constructor
  -- The new slot is the last one, and its end is what is in use afterwards.
  · intro i hi
    rcases Nat.lt_or_ge i s.slots.length with hl | hl
    · rw [List.getElem_append_left hl, h.offset i hl]
    · have : i = s.slots.length := by
        simp only [List.length_append, List.length_singleton] at hi
        omega
      subst this
      simp [nextSlot, usedBytes, slotSize]
      omega
  -- `hb` says that the name was not bound before.
  · rw [List.map_append, List.nodup_append]
    refine ⟨h.names, by simp, ?_⟩
    intro a ha b hb' e
    rw [find?_eq_none_iff] at hb
    simp only [List.map_cons, List.map_nil, List.mem_singleton] at hb'
    exact hb (by rw [← show b = name from hb', ← e]; exact ha)

end Scope

/-! ## Nested scopes -/

namespace Scopes

/-- The innermost scope is laid out. -/
def Laid (S : Scopes) : Prop := ∀ scope ∈ S.head?, scope.Laid

/-- Slots for temporaries of some kind were added to the innermost scope. It is a relation and not a
function of names, since which temporaries are needed depends on what was asked for before. -/
def Grows (P : String → Prop) : Scopes → Scopes → Prop :=
  ReflTransGen fun S T => ∃ name slot, P name ∧ Scopes.add .temporary name S = .ok (slot, T)

theorem add_eq_ok_iff {S T : Scopes} {region : Region} {name : String} {slot : Slot} :
    Scopes.add region name S = .ok (slot, T) ↔
      ∃ scope scope' outer, S = scope :: outer ∧ T = scope' :: outer ∧
        scope.add region name = .ok (slot, scope') := by
  -- a slot is added to the innermost scope, and the ones around it stay
  cases S with
  | nil => simp [Scopes.add]
  | cons scope outer =>
    rcases h : scope.add region name with e | ⟨q, scope'⟩
    · simp only [Scopes.add, h, Except.map, reduceCtorEq, List.cons.injEq, false_iff]
      rintro ⟨_, _, _, ⟨rfl, rfl⟩, rfl, h'⟩
      rw [h] at h'
      simp at h'
    · simp only [Scopes.add, h, Except.map, Except.ok.injEq, Prod.mk.injEq, List.cons.injEq]
      constructor
      · rintro ⟨rfl, rfl⟩
        exact ⟨scope, scope', outer, ⟨rfl, rfl⟩, rfl, h⟩
      · rintro ⟨_, _, _, ⟨rfl, rfl⟩, rfl, h'⟩
        rw [h] at h'
        simp only [Except.ok.injEq, Prod.mk.injEq] at h'
        exact ⟨h'.1, by rw [h'.2]⟩

variable {P Q : String → Prop} {S T U : Scopes}

namespace Grows

theorem refl (S : Scopes) : Grows P S S := ReflTransGen.refl

theorem trans (h : Grows P S T) (h' : Grows P T U) : Grows P S U := ReflTransGen.trans h h'

theorem mono (hPQ : ∀ x, P x → Q x) (h : Grows P S T) : Grows Q S T :=
  ReflTransGen.mono (fun _ _ ⟨x, slot, hx, ha⟩ => ⟨x, slot, hPQ x hx, ha⟩) _ _ h

theorem single {name : String} {slot : Slot} (hx : P name)
    (ha : Scopes.add .temporary name S = .ok (slot, T)) : Grows P S T :=
  ReflTransGen.single ⟨name, slot, hx, ha⟩

/-- The scopes around the innermost one stay, and the innermost one keeps its slots. It is the
inversion that the other lemmas about `Grows` are read off. -/
theorem slots (h : Grows P S T) : S = T ∨ ∃ scope scope' outer new,
    S = scope :: outer ∧ T = scope' :: outer ∧ scope'.slots = scope.slots ++ new ∧
      ∀ slot ∈ new, P slot.name ∧ slot.region = .temporary := by
  induction h with
  | refl => exact .inl rfl
  | @tail T U _ hadd ih =>
    obtain ⟨name, slot, hP, ha⟩ := hadd
    obtain ⟨scope₁, scope₂, outer, rfl, rfl, hs⟩ := add_eq_ok_iff.1 ha
    obtain ⟨-, -, -, rfl⟩ := Scope.add_eq_ok_iff.1 hs
    refine .inr ?_
    -- the scope that grows is the one that has grown before, if any has
    rcases ih with rfl | ⟨scope, scope', outer', new, rfl, ht, hnew, hnames⟩
    · refine ⟨scope₁, _, outer, _, rfl, rfl, rfl, ?_⟩
      simp [Scope.nextSlot, hP]
    · obtain ⟨rfl, rfl⟩ := List.cons.inj ht
      refine ⟨scope, _, outer, new ++ [scope₁.nextSlot .temporary name], rfl, rfl, ?_, ?_⟩
      · simp [hnew]
      · intro slot hm
        rcases List.mem_append.1 hm with hm | hm
        · exact hnames slot hm
        · simp only [List.mem_singleton] at hm
          simp [hm, Scope.nextSlot, hP]

/-- The scopes around the innermost one stay. -/
theorem outer_eq {scope scope' : Scope} {outer outer' : Scopes}
    (h : Grows P (scope :: outer) (scope' :: outer')) : outer' = outer := by
  rcases h.slots with heq | ⟨_, _, _, _, h₁, h₂, -⟩
  · exact (List.cons.inj heq).2.symm
  · rw [(List.cons.inj h₂).2, (List.cons.inj h₁).2]

/-- A slot that was handed out stays. Operands in code that was already made therefore stay right.
-/
theorem find? (h : Grows P S T) {x : String} {slot : Slot} (hf : S.find? x = some slot) :
    T.find? x = some slot := by
  rcases h.slots with rfl | ⟨scope, scope', outer, new, rfl, rfl, hnew, -⟩
  · exact hf
  · simp only [Scopes.find?, Scope.find?, hnew, List.find?_append] at hf ⊢
    rw [hf, Option.some_or]

/-- What is found afterwards was there before, or is one of the temporaries that were added. -/
theorem find?_inv (h : Grows P S T) {x : String} {slot : Slot} (hf : T.find? x = some slot) :
    S.find? x = some slot ∨ P x ∧ slot.region = .temporary := by
  rcases h.slots with rfl | ⟨scope, scope', outer, new, rfl, rfl, hnew, hnames⟩
  · exact .inl hf
  · simp only [Scopes.find?, Scope.find?, hnew, List.find?_append] at hf ⊢
    -- New slots come after the old ones, so that one that was found before is found first.
    cases hs : scope.slots.find? (·.name = x) with
    | some q => rw [hs, Option.some_or] at hf; exact .inl hf
    | none =>
      rw [hs, Option.none_or] at hf
      have hx : slot.name = x := by simpa using List.find?_some hf
      exact .inr (hx ▸ hnames slot (List.mem_of_find?_eq_some hf))

theorem laid (h : Grows P S T) (hS : S.Laid) : T.Laid := by
  induction h with
  | refl => exact hS
  | tail _ hadd ih =>
    obtain ⟨name, slot, -, ha⟩ := hadd
    obtain ⟨scope₁, scope₂, outer, rfl, rfl, hs⟩ := add_eq_ok_iff.1 ha
    intro scope hm
    obtain rfl : scope₂ = scope := by simpa using hm
    exact (ih scope₁ rfl).add hs

end Grows

end Scopes

/-! ## Layouts -/

/-- Where the names of a function body have their slots: no two at the same place. -/
structure Layout where
  place : String → Option Int
  inj : ∀ {x y d}, place x = some d → place y = some d → x = y

namespace Layout

/-- The layout knows the slots of the innermost scope. It may know more of them: a layout is taken
at the end of a body, and covers the scopes at every moment of it. -/
def Covers (L : Layout) (S : Scopes) : Prop :=
  ∀ {x slot}, S.find? x = some slot → L.place x = some slot.disp

/-- The slots of the innermost scope as a layout. Places differ because offsets do,
`slotDisplacement_injective`. -/
def ofScopes (S : Scopes) (h : S.Laid) : Layout where
  place x := (S.find? x).map Slot.disp
  inj := by
    intro x y d hx hy
    obtain ⟨a, ha, hd⟩ := Option.map_eq_some_iff.1 hx
    obtain ⟨b, hb, rfl⟩ := Option.map_eq_some_iff.1 hy
    cases S with
    | nil => simp [Scopes.find?] at ha
    | cons scope outer =>
      have hl := h scope rfl
      obtain ⟨ham, rfl⟩ := Scope.mem_of_find? ha
      obtain ⟨hbm, rfl⟩ := Scope.mem_of_find? hb
      rw [hl.eq_of_offset ham hbm (slotDisplacement_injective hd)]

theorem covers_ofScopes (S : Scopes) (h : S.Laid) : (ofScopes S h).Covers S := fun hf => by
  simp [ofScopes, hf]

/-- A layout of a body knows what was laid out early. That is how the layout at the end of a body
serves for each piece of its code. -/
theorem Covers.of_grows {L : Layout} {P : String → Prop} {S T : Scopes} (h : L.Covers T)
    (hg : Scopes.Grows P S T) : L.Covers S :=
  fun hf => h (hg.find? hf)

end Layout

end PascalAsm.Lowering
