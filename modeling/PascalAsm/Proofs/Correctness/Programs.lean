import Mathlib
import PascalAsm.Proofs.Generator.Programs
import PascalAsm.Proofs.Machine.Unit
import PascalAsm.Proofs.Simulation.Routines

/-!
# Programs are compiled correctly

When a program comes to its end on an input, the compiled unit does so too, and has written the same
numbers: `Program.outputWithin_of_runWithin`. It does not matter what frames and registers hold that
no one has written to.

The proof is by induction on the depth to which calls are nested. A call at some depth runs the body
of a routine, whose calls are nested less deep, so they are known to be answered already.
-/

namespace PascalAsm

open Assembly Lowering Gen State

variable {W : Type} [Terminal W] {garbage : Nat → Garbage} {unit : Assembly.Program}

/-! ## Calls -/

/-- The runtime library is there, whatever the unit is. It does with a machine what `Machine.print`
and `Machine.scan` say, and leaves garbage in the registers. -/
theorem library_calls : Library (W := W) (unit.calls garbage) where
  write m hformat hcount := by
    obtain ⟨m', hprint, hslots, hworld⟩ := Machine.print_eq_some garbage hformat hcount
    exact ⟨m', Assembly.Program.calls_of_print hprint, hslots, hworld⟩
  read m d v w hformat hcount hplace hread := by
    obtain ⟨m', hscan, hslots, hworld⟩ :=
      Machine.scan_eq_some garbage hformat hcount hplace hread
    exact ⟨m', Assembly.Program.calls_of_scan hscan, hslots, hworld⟩

/-- The function of a routine is found by the name of the routine. The two lists are in the same
order, so the first routine of the name becomes the first function of it. -/
theorem exists_function {comments : Bool} {rs : List Routine} {fs : List Function}
    (h : List.Forall₂ (fun r f => r.Compiled comments f) rs fs) {name : String} {r : Routine}
    (hr : rs.find? (·.name = name) = some r) :
    ∃ f, fs.find? (·.name = name) = some f ∧ r.Compiled comments f := by
  induction h with
  | nil => simp at hr
  | @cons q g rs fs hqg _ ih =>
    -- Both lists have the same names in the same order, so the searches stop together.
    by_cases hq : q.name = name
    · rw [List.find?_cons_of_pos (by simpa using hq)] at hr
      obtain rfl := Option.some.inj hr
      exact ⟨g, List.find?_cons_of_pos (by simp [hqg.name, hq]), hqg⟩
    · rw [List.find?_cons_of_neg (by simpa using hq)] at hr
      rw [List.find?_cons_of_neg (by simp [hqg.name, hq])]
      exact ih hr

/-- **Calls of functions are calls of routines**, however deep they are nested. By induction on the
depth: the body of a callee runs with calls that answer one level less. -/
theorem answers_callWithin (garbage : Nat → Garbage) {p : Program} {comments : Bool}
    (hfunctions : List.Forall₂ (fun r f => r.Compiled comments f) p.routines unit.functions)
    (hnames : ∀ x ∈ p.identifiers, ¬ Dollar x)
    (hlibrary : ∀ r ∈ p.routines, r.name ≠ Runtime.printf ∧ r.name ≠ Runtime.scanf) (depth : Nat) :
    Answers (W := W) (unit.calls garbage) (p.callWithin depth) := by
  induction depth with
  | zero =>
    intro name args m result w _ hcall
    simp [Program.callWithin] at hcall
  | succ depth ih =>
    intro name args m result w hpass hcall
    simp only [Program.callWithin, Option.bind_eq_bind, Option.bind_eq_some_iff] at hcall
    obtain ⟨r, hr, hcall⟩ := hcall
    obtain ⟨hcount, hcall⟩ := Option.ite_none_right_eq_some.1 hcall
    simp only [Option.bind_eq_some_iff, Prod.exists] at hcall
    obtain ⟨store, w', heffect, hp⟩ := hcall
    obtain ⟨rfl, rfl⟩ := Prod.mk.inj (Option.some.inj hp)
    obtain ⟨f, hfind, hf⟩ := exists_function hfunctions hr
    have hmem : r ∈ p.routines := List.mem_of_find?_eq_some hr
    obtain rfl : r.name = name := by simpa using List.find?_some hr
    have hpass' : (m.enter garbage).Passes args := hpass
    -- by induction the calls in the body are answered one level further in
    obtain ⟨m', log, hreaches, rfl, hresult⟩ := hf.reaches ih library_calls
      (fun x hx => hnames x (p.identifiers_routine_subset hmem hx)) hpass' hcount heffect
    obtain ⟨hprint, hscan⟩ := hlibrary r hmem
    refine ⟨_, Assembly.Program.calls_of_reaches hprint hscan hfind hreaches, rfl, rfl, ?_⟩
    intro v hv
    rw [← hresult v hv]
    simp [Machine.leave]

/-! ## Units -/

/-- **A compiled program writes what the program writes.** If the program comes to its end on an
input, then so does the unit, started at its entry on a machine with this input and with anything in
its registers and frames; and it has written the same numbers by then. Beyond the fuel that this
takes, more fuel makes no difference. -/
theorem Program.outputWithin_of_runWithin {p : Program} {options : Options} {compiled : Compiled}
    {bound : Nat} {input output : List Int32} {garbage : Nat → Garbage} {start : Machine World}
    (hcompile : p.compile options = .ok compiled) (hnames : ∀ x ∈ p.identifiers, ¬ Dollar x)
    (hlibrary : ∀ r ∈ p.routines, r.name ≠ Runtime.printf ∧ r.name ≠ Runtime.scanf)
    (hrun : p.runWithin bound input = some output) (hstart : start.world = ⟨input, []⟩) :
    ∃ n, ∀ k, n ≤ k → compiled.unit.outputWithin garbage k start = some output := by
  obtain ⟨hentry, hfunctions⟩ := Program.functions_of_compile hcompile
  simp only [Program.runWithin, Option.bind_eq_bind, Option.bind_eq_some_iff, Prod.exists] at hrun
  obtain ⟨result, world, hcall, hp⟩ := hrun
  obtain rfl := Option.some.inj hp
  have hpass : start.Passes [] := rfl
  -- The entry is a routine without arguments, `hpass`; its call answers the one in the source.
  obtain ⟨m', hm', -, rfl, -⟩ := answers_callWithin garbage hfunctions hnames hlibrary bound
    p.name [] start result world hpass (hstart ▸ hcall)
  obtain ⟨n, hn⟩ := Assembly.Program.calls_eq_some_iff.1 hm'
  refine ⟨n, fun k hk => ?_⟩
  -- Fuel that is enough stays enough, by `callWithin_mono`.
  have hmore := Assembly.Program.callWithin_mono hk p.name start m' hn
  rw [Assembly.Program.outputWithin, hentry, hmore]
  rfl

/-! ### A program that counts and calls itself

`sum(n)` adds up the numbers to `n`, by calling itself; the program reads a number and writes the sums
for all numbers below it. -/

/-- A function that adds up the numbers to its argument by calling itself. -/
def sumFunction : Subprogram :=
  .mk (.function .integer) "sum" [.vars 2 ["n"] .integer] [] []
    (.ifElse 3 (.relational 3 .le (.var 3 "n") (.integer 3 0))
      (.assign 4 (.var 4 "sum") (.integer 4 0))
      (.assign 5 (.var 5 "sum")
        (.add 5 .plus (.var 5 "n") (.call 5 "sum" [.add 5 .minus (.var 5 "n") (.integer 5 1)])))) 2

/-- A program that reads a number and writes the sums of all smaller ones: it calls, loops, reads
and writes. -/
def sumProgram : Program where
  name := "sums"
  args := ["input", "output"]
  declarations := [.vars 1 ["n", "i"] .integer]
  subprograms := [sumFunction]
  body := .compound 6
    [.call 7 "read" [.var 7 "n"],
     .forTo 8 (.assign (.var 8 "i") (.integer 8 0)) (.var 8 "n")
      (.call 9 "write" [.call 9 "sum" [.var 9 "i"]])]
  line := 1

/-- The state before it is compiled. -/
def sumStart : State := { pool := .ofRegs [.rdi, .rsi, .rcx] }

/-- What its code is made to be. -/
def sumOutcome : Outcome Unit := (sumProgram.lower false).run sumStart

/-- Something else in every frame, and in the registers after every call. What a callee leaves
behind is different each time, so nothing can rest on it. -/
def counted (seed : Nat) : Garbage where
  regs _ := .ofNat seed
  slots d := .ofNat seed + .ofInt d
  low _ := 0

/-- A machine on which the input is four. -/
def fourMachine : Machine World where
  regs _ := 90
  address _ := none
  slots _ := -1
  low _ := 0
  flags := none
  seed := 0
  world := ⟨[4], []⟩

theorem runWithin_sumProgram : sumProgram.runWithin 8 [4] = some [0, 1, 3, 6] := by cbv

theorem yields_sumProgram :
    (sumProgram.lower false).Yields sumStart () sumOutcome.state sumOutcome.code := by
  rw [yields_iff]
  cbv

/-- On the input four, the compiled program writes four sums. With any fuel that is enough, the
output is the same. -/
theorem outputWithin_sumProgram :
    ∃ compiled, sumProgram.compile {} = .ok compiled ∧
      ∃ n, ∀ k, n ≤ k → compiled.unit.outputWithin counted k fourMachine = some [0, 1, 3, 6] := by
  obtain ⟨compiled, hcompile⟩ : ∃ compiled, sumProgram.compile {} = .ok compiled :=
    Program.exists_compile_iff.2
      ⟨by decide, by decide, sumStart, sumOutcome.state, sumOutcome.code, rfl, yields_sumProgram⟩
  exact ⟨compiled, hcompile, Program.outputWithin_of_runWithin hcompile (by decide) (by decide)
    runWithin_sumProgram rfl⟩

end PascalAsm
