import Mathlib
import PascalAsm.Proofs.Correctness.Conditions
import PascalAsm.Proofs.Correctness.Programs

/-!
# Statements are compiled correctly

The code of a statement does what the statement does, wherever in a body it stands: it leaves the values
of the variables in their slots, and has read and written the same numbers and called the same routines
with the same arguments, in the same order.

* **`Traced`** — a world that keeps a record of what is done to it.
* **`Callees.traced`** — callees whose calls are recorded. What a callee itself does is its own affair;
  it can change the world in any way, and read and write as well.
-/

namespace PascalAsm

open Assembly Lowering Gen

variable {W : Type}

/-! ## Traces -/

/-- What a statement does to the world around it. These are all the ways in which a statement and
its surroundings come in touch. -/
inductive Event where
  | read (value : Int32)
  | wrote (value : Int32)
  | called (name : String) (args : List Int32)
deriving DecidableEq

/-- A world and what was done to it, oldest first. Since events are only ever added, their order is
that in which the world was touched. -/
structure Traced (W : Type) where
  world : W
  events : List Event
deriving DecidableEq

instance [Terminal W] : Terminal (Traced W) where
  read? w := (Terminal.read? w.world).map fun (v, world) => (v, ⟨world, w.events ++ [.read v]⟩)
  write v w := ⟨Terminal.write v w.world, w.events ++ [.wrote v]⟩

/-- Every call is recorded with its arguments. What is recorded is what the callee is given, before
it does anything. -/
def Callees.traced (calls : Callees W) : Callees (Traced W) := fun name args w =>
  (calls name args w.world).map fun (result, world) =>
    (result, ⟨world, w.events ++ [.called name args]⟩)

/-! ## Statements -/

/-- A sound pool that is full has all of its registers free, in some order. Statements ask for no
more, whatever the order is. -/
theorem Lowering.Pool.Sound.idle {p : Pool} (h : p.Sound) (hfull : p.isFull = true) : p.Idle := by
  have hlength : p.free.length = p.members.length := of_decide_eq_true hfull
  exact ⟨h.members, (h.nodup.subperm h.subset).perm_of_length_le (Nat.le_of_eq hlength.symm)⟩

/-- The variables that have values are arguments and locals, which are not in the way of temporaries. -/
theorem InBody.plain {s : State} {scope : Scope} {store : Store} {m : Machine W}
    (h : InBody s scope) (hstore : scope.Holds store m) : store.Plain := by
  intro x v hx
  obtain ⟨slot, hslot, hregion, rfl, -⟩ := hstore x v hx
  exact h.user slot hslot hregion

/-- **The code of a statement does what the statement does.** Let the code stand in a body where its
labels are not defined before it. When the statement comes to its end, so does the code, whatever was
in registers and temporaries; the slots of arguments and locals hold the values that their variables
have then; and the world is the same, with the same record of numbers read, numbers written, and calls
with their arguments. -/
theorem Stmt.reaches_of_lower [Terminal W] {t : Stmt} {comments : Bool} {s s' : State}
    {c before after : List Inst} {scope : Scope} {targets : Targets (Traced W)} {calls : Callees W}
    {fuel : Nat} {store store' : Store} {m : Machine (Traced W)} {w : Traced W}
    (hbody : InBody s scope) (hfull : s.pool.isFull = true)
    (hgen : (t.lower comments).run s = ⟨.ok (), s', c⟩) (honce : ∀ l ∈ labels c, l ∉ labels before)
    (hcalls : Answers targets calls.traced) (hlib : Library targets) (hstore : scope.Holds store m)
    (hexec : t.exec calls.traced fuel store m.world = some (store', w))
    (hnames : ∀ x v, store' x = some v → ¬ Dollar x) :
    ∃ m' log, Reaches targets (before ++ (c ++ after)) ⟨.ahead (c ++ after), m, []⟩
        ⟨.ahead after, m', log⟩ ∧
      (∀ slot ∈ scope.slots, slot.region ≠ .temporary →
        ∀ v, store' slot.name = some v → m'.slots slot.disp = v) ∧
      m'.world = w := by
  have hmade := lower_made hgen
  have hgrows := hmade.advanced.scopes
  let L := Layout.ofScopes s'.scopes (hbody.laid_of_grows hgrows)
  have hL : L.Covers s'.scopes := Layout.covers_ofScopes _ _
  have hplaced : Placed (before ++ (c ++ after)) c after := ⟨before, rfl, hmade.labels.nodup, honce⟩
  obtain ⟨m', log, hreaches, hstore', hw⟩ := lower_performs hcalls hlib hgen hL
    (hbody.sound.idle hfull) hplaced [] (hbody.holds hgrows hL hstore) hexec hnames
  refine ⟨m', log, hreaches, fun slot hslot _ v hv => ?_, hw⟩
  -- the place of the variable is that of its slot
  obtain ⟨-, d, hd, rfl⟩ := hstore' slot.name v hv
  obtain rfl : slot.disp = d := Option.some.inj ((hbody.place_eq hgrows hL hslot).symm.trans hd)
  rfl

/-! ### Squares, and then a subtraction

A number is read into `x`, the squares of the numbers below it are written, and `x` goes down to zero by
steps of `y`. The callee writes its argument before it answers. -/

/-- One function, which writes its argument and squares it. So calls in expressions have an effect,
and their order can be told. -/
def loudSquares : Callees World
  | "sqr", [a] => fun w => some (some (a * a), Terminal.write a w)
  | _, _ => failure

/-- The same on a machine, with the runtime library; calls leave garbage in all registers. It
records what it does in the same way as `Callees.traced`. -/
def squareServer : Targets (Traced World) := fun name m =>
  if name = Runtime.printf then m.print counted
  else if name = Runtime.scanf then m.scan counted
  else if name = "sqr" then
    let world : Traced World := ⟨Terminal.write (m.regs .rdi) m.world.world,
      m.world.events ++ [.called "sqr" [m.regs .rdi]]⟩
    some (m.leave counted { m with regs := fun _ => m.regs .rdi * m.regs .rdi, world })
  else none

theorem library_squareServer : Library squareServer where
  write _ hformat hcount := Machine.print_eq_some counted hformat hcount
  read _ _ _ _ hformat hcount hplace hread :=
    Machine.scan_eq_some counted hformat hcount hplace hread

theorem answers_squareServer : Answers squareServer loudSquares.traced := by
  intro name args m result w hpass hcall
  obtain ⟨⟨r, world⟩, hsquare, hp⟩ := Option.map_eq_some_iff.1 hcall
  obtain ⟨rfl, rfl⟩ := Prod.mk.inj hp
  unfold loudSquares at hsquare
  -- With one argument there is an answer, and by `hpass` the argument is in the first register.
  split at hsquare
  · rename_i a
    obtain rfl : a = m.regs .rdi := by simpa [Machine.Passes, Convention.argumentRegs] using hpass
    obtain ⟨rfl, rfl⟩ := Prod.mk.inj (Option.some.inj hsquare)
    refine ⟨_, rfl, rfl, rfl, fun v hv => ?_⟩
    rw [← Option.some.inj hv]
    simp [Machine.leave]
  · cases hsquare

/-- A statement that reads a number, writes squares in one loop and counts down in another one. -/
def squaresAndZero : Stmt :=
  .compound 1
    [.call 2 "read" [.var 2 "x"],
     .forTo 3 (.assign (.var 3 "y") (.integer 3 0)) (.var 3 "x")
       (.call 4 "write" [.call 4 "sqr" [.var 4 "y"]]),
     .whileDo 5 (.relational 5 .gt (.var 5 "x") (.integer 5 0))
       (.assign 5 (.var 5 "x") (.add 5 .minus (.var 5 "x") (.var 5 "y")))]

/-- What its code is made to be. -/
def squaresOutcome : Outcome Unit := (squaresAndZero.lower true).run between

/-- The machine, with three for the input. -/
def threeMachine : Machine (Traced World) := { midwayMachine with world := ⟨⟨[3], []⟩, []⟩ }

/-- Between two other labels the code reads the number, and writes what the callee and the statement
write by turns. -/
theorem reaches_of_lower_squares :
    squaresOutcome.result = .ok () ∧
    ∃ m' log, Reaches squareServer
        (.label "top" :: (squaresOutcome.code ++ [.label "end", .jmp "top"]))
        ⟨.ahead (squaresOutcome.code ++ [.label "end", .jmp "top"]), threeMachine, []⟩
        ⟨.ahead [.label "end", .jmp "top"], m', log⟩ ∧
      m'.slots (-4) = 0 ∧ m'.slots (-8) = 3 ∧ m'.world.world = ⟨[], [0, 0, 1, 1, 2, 4]⟩ ∧
      m'.world.events = [.read 3, .called "sqr" [0], .wrote 0, .called "sqr" [1], .wrote 1,
        .called "sqr" [2], .wrote 4] := by
  have hgen : (squaresAndZero.lower true).run between =
      ⟨.ok (), squaresOutcome.state, squaresOutcome.code⟩ := by cbv
  have hlabels : labels squaresOutcome.code = [".L0", ".L1", ".L2", ".L3"] := by cbv
  have honce : ∀ l ∈ labels squaresOutcome.code, l ∉ labels [.label "top"] := by
    rw [hlabels]
    decide
  -- the effect of the statement, with everything that is read, called and written on the way
  have hrun : (squaresAndZero.exec loudSquares.traced 5 minusSevenAndFour threeMachine.world).map
      (fun p => (p.1 "x", p.1 "y", p.2)) = some (some 0, some 3, ⟨⟨[], [0, 0, 1, 1, 2, 4]⟩,
        [.read 3, .called "sqr" [0], .wrote 0, .called "sqr" [1], .wrote 1, .called "sqr" [2],
          .wrote 4]⟩) := by cbv
  obtain ⟨⟨store, w⟩, hexec, hp⟩ := Option.map_eq_some_iff.1 hrun
  obtain ⟨hx, hp⟩ := Prod.mk.inj hp
  obtain ⟨hy, rfl⟩ := Prod.mk.inj hp
  have hstore : argumentAndLocal.Holds minusSevenAndFour threeMachine :=
    fun x v hv => holds_midwayMachine x v hv
  have hnames : store.Plain := (Stmt.assigns_exec squaresAndZero hexec).plain_of_names
    (inBody_between.plain hstore) (by decide)
  refine ⟨congrArg Outcome.result hgen, ?_⟩
  obtain ⟨m', log, hreaches, hslots, hworld⟩ := Stmt.reaches_of_lower inBody_between (by decide) hgen
    honce answers_squareServer library_squareServer hstore hexec hnames
  refine ⟨m', log, hreaches, ?_, ?_, congrArg Traced.world hworld, congrArg Traced.events hworld⟩
  · exact hslots ⟨"x", 4, .argument⟩ (by decide) (by decide) 0 hx
  · exact hslots ⟨"y", 8, .local⟩ (by decide) (by decide) 3 hy

end PascalAsm
