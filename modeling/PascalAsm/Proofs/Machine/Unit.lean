import PascalAsm.Proofs.Machine.Basic

/-!
# Running a unit

How calls work on the machine: a call of a function of the unit runs its body in a frame of its own,
and the two functions of the runtime library read and write.

Nothing is promised that the calling convention does not promise. A new frame holds arbitrary values,
and after a call all registers but those that a callee preserves are arbitrary, except that `rax`
holds the result of a function of the unit. Where arbitrary values come from is a parameter: a stream
of **`Garbage`**, of which every call and every return takes the next element.

`Program.callWithin` bounds the depth of calls and the steps of each body, so that it can be run.
More of either changes nothing once there is an outcome (`Program.callWithin_mono`), and
`Program.calls` is what calls do without a bound.
-/

namespace PascalAsm.Assembly

/-- Arbitrary contents of registers and of a frame, and the low halves of the addresses in it. -/
structure Garbage where
  regs : Reg → Int32
  slots : Int → Int32
  low : Place → Int32

variable {W : Type}

/-! ## Calls and returns -/

/-- Whether a callee leaves the register as it was. The generator relies on no others: what it holds
around a call is saved into the frame. -/
def Reg.isPreserved : Reg → Bool
  | .rbp | .rsp => true
  | _ => false

namespace Machine

variable (garbage : Nat → Garbage)

/-- The machine at the start of a callee: the registers are those of the caller, the frame is new. -/
def enter (m : Machine W) : Machine W where
  regs := m.regs
  address _ := none
  slots := (garbage m.seed).slots
  low := (garbage m.seed).low
  flags := none
  seed := m.seed + 1
  world := m.world

/-- After a call the registers hold anything, but for those that are preserved. Since the garbage is
arbitrary, nothing that holds afterwards can depend on what a callee leaves in a register. -/
def scramble (m : Machine W) : Machine W :=
  { m with
    regs := fun r => if r.isPreserved then m.regs r else (garbage m.seed).regs r
    address := fun _ => none
    flags := none
    seed := m.seed + 1 }

/-- The machine after a callee has come to its end: the caller has its frame back, and the result. -/
def leave (caller callee : Machine W) : Machine W :=
  let m : Machine W :=
    { caller with seed := callee.seed, world := callee.world }
  { m.scramble garbage with
    regs := Function.update (m.scramble garbage).regs Convention.resultReg
      (callee.regs Convention.resultReg) }

variable [Terminal W]

/-- The library function that writes: it is given its format, no vector arguments, and a number. -/
def print (m : Machine W) : Option (Machine W) :=
  if m.address .rdi = some (.datum Runtime.writeFormat) ∧ m.regs Convention.vectorCountReg = 0 then
    some ({ m with world := Terminal.write (m.regs .rsi) m.world }.scramble garbage)
  else none

/-- The library function that reads: it is given its format, no vector arguments, and the address
of a slot of the caller. -/
def scan (m : Machine W) : Option (Machine W) :=
  if m.address .rdi = some (.datum Runtime.readFormat) ∧ m.regs Convention.vectorCountReg = 0 then
    match m.address .rsi with
    | some (.slot disp) => do
      let (v, world) ← Terminal.read? m.world
      some (({ m with world }.setSlot disp v).scramble garbage)
    | _ => none
  else none

theorem print_eq_some {m : Machine W} (hformat : m.address .rdi = some (.datum Runtime.writeFormat))
    (hcount : m.regs Convention.vectorCountReg = 0) : ∃ m', m.print garbage = some m' ∧
      m'.slots = m.slots ∧ m'.world = Terminal.write (m.regs .rsi) m.world :=
  ⟨_, if_pos ⟨hformat, hcount⟩, rfl, rfl⟩

theorem scan_eq_some {m : Machine W} {d : Int} {v : Int32} {w : W}
    (hformat : m.address .rdi = some (.datum Runtime.readFormat))
    (hcount : m.regs Convention.vectorCountReg = 0) (hplace : m.address .rsi = some (.slot d))
    (hread : Terminal.read? m.world = some (v, w)) : ∃ m', m.scan garbage = some m' ∧
      m'.slots = Function.update m.slots d v ∧ m'.world = w := by
  refine ⟨(({ m with world := w } : Machine W).setSlot d v).scramble garbage, ?_, rfl, rfl⟩
  rw [scan, if_pos ⟨hformat, hcount⟩]
  simp only [hplace, hread, Option.bind_eq_bind, Option.bind_some]

end Machine

/-! ## Bodies and units -/

/-- Runs a body to its end, in fewer steps than `fuel`. Fuel counts steps here; that of calls is
counted by `callWithin`. -/
def runBody (targets : Targets W) (body : List Inst) : Nat → Config W → Option (Machine W)
  | 0, _ => none
  | fuel + 1, c =>
    if c.control = .ahead [] then some c.machine
    else (step targets body c).bind (runBody targets body fuel)

namespace Program

variable [Terminal W] (garbage : Nat → Garbage) (unit : Program)

/-- What a call does, with calls nested fewer than `fuel` deep and as few steps in each body. -/
def callWithin : Nat → Targets W
  | 0 => fun _ _ => none
  | fuel + 1 => fun name m =>
    if name = Runtime.printf then m.print garbage
    else if name = Runtime.scanf then m.scan garbage
    else do
      let f ← unit.functions.find? (·.name = name)
      let callee ← runBody (callWithin fuel) f.body fuel ⟨.ahead f.body, m.enter garbage, []⟩
      some (m.leave garbage callee)

/-- The numbers that are written when the entry of the unit is called on a machine. -/
def outputWithin (fuel : Nat) (start : Machine World) : Option (List Int32) := do
  let m ← unit.callWithin garbage fuel unit.entry start
  return m.world.output

end Program

/-! ## More fuel -/

/-- One target comes back whenever the other one does, and in the same way. Calls with more fuel are
related to those with less in this way, `callWithin_mono`. -/
def Targets.Within (few many : Targets W) : Prop :=
  ∀ name m m', few name m = some m' → many name m = some m'

section

variable {few many : Targets W} {body : List Inst}

theorem exec_mono (h : few.Within many) {i : Inst} {m m' : Machine W}
    (hi : i.exec few m = some m') : i.exec many m = some m' := by
  cases i with
  | call name => exact h name m m' hi
  | leaq src dest =>
    cases src with
    | mem base disp => cases base <;> exact hi
    | _ => exact hi
  | _ => exact hi

theorem step_mono (h : few.Within many) {c d : Config W} (hs : step few body c = some d) :
    step many body c = some d := by
  obtain ⟨control, m, log⟩ := c
  cases control with
  -- Outside the code and at its end there is no step, so `hs` is absurd.
  | outside label => simp [step] at hs
  | ahead rest =>
    cases rest with
    | nil => simp [step] at hs
    | cons i rest =>
      cases i with
      -- A comparison and a jump do not ask what a call does; the rest goes through `exec_mono`.
      | cmpl | jmp | jcc => exact hs
      | _ =>
        simp only [step, Option.bind_eq_bind, Option.bind_eq_some_iff] at hs ⊢
        obtain ⟨m', hi, hd⟩ := hs
        exact ⟨m', exec_mono h hi, hd⟩

theorem runBody_mono (h : few.Within many) {n k : Nat} (hle : n ≤ k) {c : Config W}
    {m : Machine W} (hr : runBody few body n c = some m) : runBody many body k c = some m := by
  -- Over the smaller fuel; `step_mono` carries the step and `ih` the steps after it.
  induction n generalizing k c with
  | zero => simp [runBody] at hr
  | succ n ih =>
    obtain ⟨k, rfl⟩ : ∃ j, k = j + 1 := ⟨k - 1, by omega⟩
    rw [runBody] at hr ⊢
    by_cases hend : c.control = .ahead []
    · rwa [if_pos hend] at hr ⊢
    · rw [if_neg hend, Option.bind_eq_some_iff] at hr
      obtain ⟨d, hs, hr⟩ := hr
      rw [if_neg hend, step_mono h hs, Option.bind_some]
      exact ih (by omega) hr

end

namespace Program

variable [Terminal W] {garbage : Nat → Garbage} {unit : Program}

/-- More fuel gives the same outcome. By induction on the fuel, with `runBody_mono` for the body of
the callee. -/
theorem callWithin_mono {n k : Nat} (hle : n ≤ k) :
    Targets.Within (W := W) (unit.callWithin garbage n) (unit.callWithin garbage k) := by
  induction n generalizing k with
  | zero => exact fun name m m' h => by simp [callWithin] at h
  | succ n ih =>
    intro name m m' h
    obtain ⟨k, rfl⟩ : ∃ j, k = j + 1 := ⟨k - 1, by omega⟩
    simp only [callWithin] at h ⊢
    by_cases hprint : name = Runtime.printf
    · rwa [if_pos hprint] at h ⊢
    · by_cases hscan : name = Runtime.scanf
      · rwa [if_neg hprint, if_pos hscan] at h ⊢
      -- A function of the unit: its body is run with one less, where `ih` compares the callees.
      · simp only [if_neg hprint, if_neg hscan, Option.bind_eq_bind, Option.bind_eq_some_iff] at h ⊢
        obtain ⟨f, hf, callee, hr, hm⟩ := h
        have hle' : n ≤ k := by omega
        exact ⟨f, hf, callee, runBody_mono (ih hle') hle' hr, hm⟩

variable (garbage unit)

open Classical in
/-- What a call does, however deep the calls in it are nested and however long it takes. -/
noncomputable def calls : Targets W := fun name m =>
  if h : ∃ m' n, unit.callWithin garbage n name m = some m' then some h.choose else none

variable {garbage unit}

theorem calls_eq_some_iff {name : String} {m m' : Machine W} :
    unit.calls garbage name m = some m' ↔ ∃ n, unit.callWithin garbage n name m = some m' := by
  -- more fuel does not change a result, so there is only one
  have hunique : ∀ {a b : Machine W} {i j : Nat}, unit.callWithin garbage i name m = some a →
      unit.callWithin garbage j name m = some b → a = b := by
    intro a b i j ha hb
    have ha' := callWithin_mono (Nat.le_max_left i j) name m a ha
    have hb' := callWithin_mono (Nat.le_max_right i j) name m b hb
    exact Option.some.inj (ha'.symm.trans hb')
  rw [calls]
  by_cases h : ∃ m' n, unit.callWithin garbage n name m = some m'
  · rw [dif_pos h]
    obtain ⟨i, hi⟩ := h.choose_spec
    constructor
    · rintro ⟨⟩
      exact ⟨i, hi⟩
    · rintro ⟨j, hj⟩
      exact congrArg some (hunique hi hj)
  · rw [dif_neg h]
    constructor
    · intro h'
      cases h'
    · rintro ⟨j, hj⟩
      exact (h ⟨m', j, hj⟩).elim

/-- One step needs only so much fuel for the call that it makes, if it makes one. -/
theorem exists_step {body : List Inst} {c d : Config W}
    (h : step (unit.calls garbage) body c = some d) :
    ∃ n, step (unit.callWithin garbage n) body c = some d := by
  obtain ⟨control, m, log⟩ := c
  -- a call is the only instruction that asks what others do
  cases control with
  | outside label => simp [step] at h
  | ahead rest =>
    cases rest with
    | nil => simp [step] at h
    | cons i rest =>
      cases i with
      | call name =>
        simp only [step, Option.bind_eq_bind, Option.bind_eq_some_iff] at h
        obtain ⟨m', hcall, hd⟩ := h
        obtain ⟨n, hn⟩ := calls_eq_some_iff.1 hcall
        refine ⟨n, ?_⟩
        simp only [step, Option.bind_eq_bind, Option.bind_eq_some_iff]
        exact ⟨m', hn, hd⟩
      | leaq src dest =>
        cases src with
        | mem base disp => cases base <;> exact ⟨0, h⟩
        | _ => exact ⟨0, h⟩
      | _ => exact ⟨0, h⟩

/-- A body that comes to its end does so with enough fuel. Each step needs some fuel for its call;
the maximum of all of them is enough, by `callWithin_mono`. -/
theorem exists_runBody {body : List Inst} {c d : Config W}
    (h : Reaches (unit.calls garbage) body c d) (hend : d.control = .ahead []) :
    ∃ n, runBody (unit.callWithin garbage n) body n c = some d.machine := by
  -- From the last step backwards. The first step needs some fuel `n` and the others some `k`;
  -- their maximum is enough for both by `callWithin_mono`.
  induction h using Relation.ReflTransGen.head_induction_on with
  | refl => exact ⟨1, by rw [runBody, if_pos hend]⟩
  | @head c e hstep _ ih =>
    obtain ⟨n, hn⟩ := exists_step hstep
    obtain ⟨k, hk⟩ := ih
    refine ⟨max n k + 1, ?_⟩
    have hahead : c.control ≠ .ahead [] := by
      intro hc
      obtain ⟨control, m, log⟩ := c
      subst hc
      simp [step] at hstep
    have hfirst := step_mono (callWithin_mono (by omega : n ≤ max n k + 1)) hn
    rw [runBody, if_neg hahead, hfirst, Option.bind_some]
    exact runBody_mono (callWithin_mono (by omega)) (by omega) hk

theorem calls_of_print {m m' : Machine W} (h : m.print garbage = some m') :
    unit.calls garbage Runtime.printf m = some m' :=
  calls_eq_some_iff.2 ⟨1, by simp [callWithin, h]⟩

theorem calls_of_scan {m m' : Machine W} (h : m.scan garbage = some m') :
    unit.calls garbage Runtime.scanf m = some m' := by
  have hne : Runtime.scanf ≠ Runtime.printf := by decide
  exact calls_eq_some_iff.2 ⟨1, by simp [callWithin, hne, h]⟩

/-- A call of a function of the unit runs its body. So a run of the body that was found by
simulation is a call that comes back, for `unit.calls` takes any fuel that is enough. -/
theorem calls_of_reaches {name : String} {f : Function} {m m' : Machine W} {log : List Comparison}
    (hprint : name ≠ Runtime.printf) (hscan : name ≠ Runtime.scanf)
    (hf : unit.functions.find? (·.name = name) = some f)
    (h : Reaches (unit.calls garbage) f.body ⟨.ahead f.body, m.enter garbage, []⟩
      ⟨.ahead [], m', log⟩) :
    unit.calls garbage name m = some (m.leave garbage m') := by
  obtain ⟨n, hn⟩ := exists_runBody h rfl
  refine calls_eq_some_iff.2 ⟨n + 1, ?_⟩
  simp [callWithin, hprint, hscan, hf, hn]

end Program

end PascalAsm.Assembly
