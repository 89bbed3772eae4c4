import Mathlib.Data.List.Forall2
import PascalAsm.Proofs.Generator.Steady
import PascalAsm.Proofs.Machine.Division

/-!
# Stores and machines

How the meaning of the source and the state of the machine are related while code runs.

* **`Holds`** — the slots of the variables hold the values that a store gives to them.
* **`Kept`** — some code has changed only the slots of some names, and not the registers in use.
  Most facts about a state survive code that keeps what they are about.
* **`Answers`** — the targets of calls do what the callees of the source do, when they find their
  arguments in the registers for arguments.
-/

namespace PascalAsm

open Assembly Lowering

variable {W : Type}

/-! ## Slots of variables -/

/-- The slots of variables hold the values of a store; no variable is named as temporaries are. -/
def Holds (L : Layout) (store : Store) (m : Machine W) : Prop :=
  ∀ x v, store x = some v → ¬ Dollar x ∧ ∃ d, L.place x = some d ∧ m.slots d = v

/-- The slots of the other names are as before, and so are some registers. Code of a value keeps all
but its own temporaries and the registers it computes in; this is how the lemmas say so. -/
structure Kept (L : Layout) (P : String → Prop) (R : Reg → Prop) (m m' : Machine W) : Prop where
  slots : ∀ d, (∀ x, P x → L.place x ≠ some d) → m'.slots d = m.slots d
  regs : ∀ r, R r → m'.regs r = m.regs r

namespace Kept

variable {L : Layout} {P Q : String → Prop} {R T : Reg → Prop} {m m₁ m' : Machine W}

theorem refl (m : Machine W) : Kept L P R m m := ⟨fun _ _ => rfl, fun _ _ => rfl⟩

theorem trans (h : Kept L P R m m₁) (h' : Kept L P R m₁ m') : Kept L P R m m' :=
  ⟨fun d hd => (h'.slots d hd).trans (h.slots d hd),
    fun r hr => (h'.regs r hr).trans (h.regs r hr)⟩

theorem mono (hPQ : ∀ x, P x → Q x) (hRT : ∀ r, T r → R r) (h : Kept L P R m m') :
    Kept L Q T m m' :=
  ⟨fun d hd => h.slots d fun x hx => hd x (hPQ x hx), fun r hr => h.regs r (hRT r hr)⟩

/-- The slot of a name that is none of those is as before. Places are different for different names,
`L.inj`. -/
theorem slot {x : String} {d : Int} (h : Kept L P R m m') (hx : ¬ P x)
    (hd : L.place x = some d) : m'.slots d = m.slots d :=
  h.slots d fun _ hy hyd => hx (L.inj hyd hd ▸ hy)

/-- A change of registers alone. Memory plays no part in it. -/
theorem ofRegs (hs : m'.slots = m.slots) (hr : ∀ r, R r → m'.regs r = m.regs r) :
    Kept L P R m m' :=
  ⟨fun _ _ => by rw [hs], hr⟩

/-- A change of one register that is not in use. Most instructions of a value are of this kind. -/
theorem setReg (m : Machine W) {r : Reg} (v : Int32) (h : ¬ R r) : Kept L P R m (m.setReg r v) :=
  ofRegs rfl fun _ hq => m.regs_setReg_of_ne v fun e => h (e ▸ hq)

/-- A change of the slot of one of the names. This is what storing into a temporary is. -/
theorem setSlot (m : Machine W) {x : String} {d : Int} (v : Int32) (hx : P x)
    (hd : L.place x = some d) : Kept L P R m (m.setSlot d v) :=
  ⟨fun _ he => m.slots_setSlot_of_ne v fun h => he x hx (h ▸ hd), fun _ _ => rfl⟩

end Kept

/-- Variables are not touched by what only uses temporaries. Temporaries begin with a dollar sign
and variables with a value do not, so no name is of both kinds. -/
theorem Holds.kept {L : Layout} {P : String → Prop} {R : Reg → Prop} {store : Store}
    {m m' : Machine W} (h : Holds L store m) (hk : Kept L P R m m')
    (hP : ∀ x, P x → Dollar x) : Holds L store m' := by
  intro x v hx
  obtain ⟨hdollar, d, hd, hv⟩ := h x v hx
  exact ⟨hdollar, d, hd, (hk.slot (fun hp => hdollar (hP x hp)) hd).trans hv⟩

/-! ## Operands that stay what they are -/

/-- The operand has a value that depends on no register, and on no slot of some names. -/
inductive Reads (L : Layout) (P : String → Prop) (m : Machine W) : Operand → Int32 → Prop
  | imm (v : Int32) : Reads L P m (.imm v) v
  | slot {x : String} {d : Int} (hx : ¬ P x) (hd : L.place x = some d) :
    Reads L P m (.mem .rbp d) (m.slots d)

namespace Reads

variable {L : Layout} {P Q : String → Prop} {R : Reg → Prop} {m m' : Machine W} {op : Operand}
  {v : Int32}

theorem read?_eq (h : Reads L P m op v) : m.read? op = some v := by
  cases h <;> rfl

theorem mono (hQP : ∀ x, Q x → P x) (h : Reads L P m op v) : Reads L Q m op v := by
  cases h with
  | imm => exact .imm _
  | slot hx hd => exact .slot (fun hq => hx (hQP _ hq)) hd

/-- What changes only slots of those names does not change the value. Registers are no operands
here, so it does not matter which of them change. -/
theorem kept (h : Reads L P m op v) (hk : Kept L P R m m') : Reads L P m' op v := by
  cases h with
  | imm => exact .imm _
  | slot hx hd =>
    rw [← hk.slot hx hd]
    exact .slot hx hd

end Reads

/-- The value of a leaf. It needs no calls, so it is there or not before any code runs. -/
def Lowering.Leaf.value (store : Store) : Leaf → Option Int32
  | .var name => store name
  | .int v => some v

/-- The operand of a leaf reads its value, whatever happens to temporaries. The operand was looked
up in scopes, the value in the store; `hS` and `h` bring both to the same place. -/
theorem Holds.reads_leaf {L : Layout} {store : Store} {m : Machine W} (h : Holds L store m)
    {S : Scopes} (hS : L.Covers S) {leaf : Leaf} {op : Operand} {v : Int32}
    (ho : leaf.operand? S = some op) (hv : leaf.value store = some v) : Reads L Dollar m op v := by
  cases leaf with
  -- `hstore` says where the variable is, and `hS` that the slot which was found is there.
  | var name =>
    obtain ⟨slot, hf, rfl⟩ := Option.map_eq_some_iff.1 ho
    obtain ⟨hdollar, d, hd, rfl⟩ := h name v hv
    have hslot : L.place name = some slot.disp := hS hf
    obtain rfl : slot.disp = d := Option.some.inj (hslot.symm.trans hd)
    exact .slot hdollar hslot
  | int w =>
    obtain rfl := Option.some.inj ho
    obtain rfl := Option.some.inj hv
    exact .imm w

/-! ## Calls -/

/-- The first registers for arguments hold the arguments. How many there are is told by the list
itself; the other registers may hold anything. -/
def Assembly.Machine.Passes (m : Machine W) (args : List Int32) : Prop :=
  args = (Convention.argumentRegs.take args.length).map m.regs

/-- A call that finds its arguments comes back as the callee of the source does: with the slots of
the caller as they were, and with the result, if there is one, in its register. -/
def Answers (targets : Targets W) (calls : Callees W) : Prop :=
  ∀ name args (m : Machine W) result w, m.Passes args →
    calls name args m.world = some (result, w) →
    ∃ m', targets name m = some m' ∧ m'.slots = m.slots ∧ m'.world = w ∧
      ∀ v ∈ result, m'.regs Convention.resultReg = v

end PascalAsm
