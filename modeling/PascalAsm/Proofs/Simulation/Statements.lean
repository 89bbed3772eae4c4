import PascalAsm.Proofs.Generator.Statements
import PascalAsm.Proofs.Meaning.Identifiers
import PascalAsm.Proofs.Simulation.Conditions

/-!
# Running the code of statements

The code of a statement has the effect of the statement, on the variables and on the world, and
control comes to its end.

* **`Executes`** — straight code has an effect.
* **`Performs`** — code that stands in a body has an effect and is left at its end.
* **`Decides`** — code that stands in a body makes a test, and jumps as the test comes out.
* **`Realizes`** — all code that a generator makes has an effect, wherever it stands in a body.

There is one lemma for each way to put statements together, among them `Performs.repeatWhile` for
loops, which is by induction on the number of passes. `Stmt.lower_performs` collects them.
-/

namespace PascalAsm

open Assembly Lowering Gen State

variable {W : Type}

/-! ## Names of variables -/

/-- No variable that has a value is named as temporaries are. It is asked of the last store of a
run, and by `Store.Grows.plain` it holds of all stores before. -/
def Store.Plain (store : Store) : Prop := ∀ x v, store x = some v → ¬ Dollar x

namespace Store.Grows

variable {names : List String} {store store' : Store}

/-- A variable that would be in the way later is in the way already. Names are never lost on the
way, so the last store has all of them. -/
theorem plain (h : store.Grows names store') (hplain : store'.Plain) : store.Plain := by
  intro x v hx
  obtain ⟨v', hv'⟩ := Option.isSome_iff_exists.1 (h.keeps x (by rw [hx]; rfl))
  exact hplain x v' hv'

theorem plain_of_names (h : store.Grows names store') (hplain : store.Plain)
    (hnames : ∀ x ∈ names, ¬ Dollar x) : store'.Plain := by
  intro x v hx
  rcases h.only x (by rw [hx]; rfl) with hsome | hmem
  · obtain ⟨v', hv'⟩ := Option.isSome_iff_exists.1 hsome
    exact hplain x v' hv'
  · exact hnames x hmem

end Store.Grows

theorem Holds.plain {L : Layout} {store : Store} {m : Machine W} (h : Holds L store m) :
    store.Plain :=
  fun x v hx => (h x v hx).1

/-! ## The runtime library -/

/-- The functions of the runtime library, as a body calls them: they find their format and no vector
arguments, and leave the slots alone, but for the one that a number is read into. -/
structure Library [Terminal W] (targets : Targets W) : Prop where
  write : ∀ m : Machine W, m.address .rdi = some (.datum Runtime.writeFormat) →
    m.regs Convention.vectorCountReg = 0 →
    ∃ m', targets Runtime.printf m = some m' ∧ m'.slots = m.slots ∧
      m'.world = Terminal.write (m.regs .rsi) m.world
  read : ∀ (m : Machine W) (d : Int) (v : Int32) (w : W),
    m.address .rdi = some (.datum Runtime.readFormat) → m.regs Convention.vectorCountReg = 0 →
    m.address .rsi = some (.slot d) → Terminal.read? m.world = some (v, w) →
    ∃ m', targets Runtime.scanf m = some m' ∧ m'.slots = Function.update m.slots d v ∧ m'.world = w

/-- A variable is given a value in its slot. The other variables are in other places, so their slots
are as before. -/
theorem Holds.assign {L : Layout} {store : Store} {m m' : Machine W} {x : String} {d : Int}
    {v : Int32} (h : Holds L store m) (hx : ¬ Dollar x) (hd : L.place x = some d)
    (hslots : m'.slots = Function.update m.slots d v) : Holds L (store.set x v) m' := by
  intro y u hy
  -- Places are distinct, `L.inj`, so that every other variable keeps its value.
  by_cases hyx : y = x
  · subst hyx
    rw [Store.set_self] at hy
    exact ⟨hx, d, hd, by rw [hslots, Function.update_self, Option.some.inj hy]⟩
  · rw [Store.set_of_ne _ _ hyx] at hy
    obtain ⟨hdollar, e, he, hu⟩ := h y u hy
    have hne : e ≠ d := fun hed => hyx (L.inj he (hed ▸ hd))
    exact ⟨hdollar, e, he, by rw [hslots, Function.update_of_ne hne, hu]⟩

/-- Only the slots matter. Registers and the world may be different. -/
theorem Holds.of_slots {L : Layout} {store : Store} {m m' : Machine W} (h : Holds L store m)
    (hslots : m'.slots = m.slots) : Holds L store m' := by
  intro x v hx
  obtain ⟨hdollar, d, hd, hv⟩ := h x v hx
  exact ⟨hdollar, d, hd, by rw [hslots, hv]⟩

/-! ## Straight statements -/

section

variable (targets : Targets W) (L : Layout)

/-- Straight code has an effect on the variables and on the world, unless a variable is in the way of
temporaries. -/
def Executes (c : List Inst) (effect : Effect W) : Prop :=
  ∀ ⦃store store' : Store⦄ ⦃m : Machine W⦄ ⦃w : W⦄, Holds L store m →
    effect store m.world = some (store', w) → store'.Plain →
    ∃ m', execAll targets c m = some m' ∧ Holds L store' m' ∧ m'.world = w

end

section

variable {targets : Targets W} {calls : Callees W} {L : Layout} {s s' : State} {u : Unit}
  {c : List Inst} {line : Line}

theorem executes_skip : Executes targets L [] Effect.skip := by
  intro store store' m w hstore heffect _
  obtain ⟨rfl, rfl⟩ := Prod.mk.inj (Option.some.inj heffect)
  exact ⟨m, rfl, hstore, rfl⟩

/-- An assignment stores the value of its right side. `hplain` is used for the target, which has a
value afterwards and so is no temporary. -/
theorem assignValue_executes (hans : Answers targets calls) {target value : Expr}
    (h : (assignValue line target value).Yields s u s' c) (hcov : L.Covers s'.scopes)
    (hidle : s.pool.Idle) : Executes targets L c (Expr.assignTo calls target value) := by
  intro store store' m w hstore heffect hplain
  have hgrows := (assignValue_made h).advanced.scopes
  obtain ⟨x, slot, r, s₁, c₁, hx, hslot, hr, hf, rfl⟩ := yields_assignValue.1 h
  obtain ⟨-, -, rfl, -⟩ := yields_free.1 hf
  simp only [Expr.assignTo, hx, Option.bind_eq_bind, Option.bind_some, Option.bind_eq_some_iff,
    Prod.exists] at heffect
  obtain ⟨v, w₁, hv, hp⟩ := heffect
  obtain ⟨rfl, rfl⟩ := Prod.mk.inj (Option.some.inj hp)
  have hd : L.place x = some slot.disp := hcov (hgrows.find? hslot)
  -- The value comes into a register by `Expr.lower_runs`, and one `movl` stores it.
  obtain ⟨m₁, hex, rfl, hk, hw⟩ := Expr.lower_runs hans hr hcov hidle.sound hstore hv
  have hmov : (Inst.movl (.reg r) slot.operand).exec targets m₁ =
      some (m₁.setSlot slot.disp (m₁.regs r)) := exec_movl_slot slot.disp rfl
  refine ⟨m₁.setSlot slot.disp (m₁.regs r), ?_, ?_, hw⟩
  · exact execAll_append_of hex ((execAll_cons hmov).trans (execAll_nil _))
  -- Up to then only temporaries were written; no variable of the program is called like one.
  · have hstore₁ := hstore.kept hk fun _ => dollar_of_temp
    exact hstore₁.assign (hplain x _ (Store.set_self ..)) hd rfl

/-- What a `for` statement does before its loop. If the variable keeps its value, there is no code
and no effect. -/
theorem initial_executes (hans : Answers targets calls) {init : ForInit}
    (h : (init.lower line).Yields s u s' c) (hcov : L.Covers s'.scopes) (hidle : s.pool.Idle) :
    Executes targets L c (Stmt.startEffect calls init) := by
  cases init with
  | assign var value => exact assignValue_executes hans h hcov hidle
  | keep var =>
    obtain ⟨-, rfl⟩ := Stmt.yields_keep.1 h
    exact executes_skip

variable [Terminal W]

/-- The number in a register is written. The format string and the number are in the registers that
the library looks at, and no vector register is announced. -/
theorem writeReg_runs (hlib : Library targets) {r : Reg} {m : Machine W}
    (h : (writeReg r).Yields s u s' c) :
    ∃ m', execAll targets c m = some m' ∧ m'.slots = m.slots ∧
      m'.world = Terminal.write (m.regs r) m.world := by
  obtain ⟨s₁, c', -, hlibrary, rfl⟩ := yields_writeReg.1 h
  obtain ⟨_, _, -, -, rfl⟩ := yields_callLibrary.1 hlibrary
  let m₁ := m.setReg .rsi (m.regs r)
  let m₂ := m₁.point .rdi (.datum Runtime.writeFormat)
  let m₃ := m₂.setReg Convention.vectorCountReg 0
  have h₁ : (Inst.movl (.reg r) (.reg .rsi)).exec targets m = some m₁ := rfl
  have h₂ : (Inst.leaq (.rip Runtime.writeFormat) .rdi).exec targets m₁ = some m₂ := rfl
  have h₃ : (clear Convention.vectorCountReg).exec targets m₂ = some m₃ := rfl
  have hformat : m₃.address .rdi = some (.datum Runtime.writeFormat) := rfl
  have hnumber : m₃.regs .rsi = m.regs r := m.regs_setReg_self .rsi _
  -- What the library asks of its caller is `hformat` and the cleared count of vector registers.
  obtain ⟨m₄, hcall, hslots, hworld⟩ := hlib.write m₃ hformat (m₂.regs_setReg_self ..)
  have h₄ : (Inst.call Runtime.printf).exec targets m₃ = some m₄ := hcall
  refine ⟨m₄, ?_, hslots, by rw [hworld, hnumber]; rfl⟩
  rw [execAll_cons h₁, List.singleton_append, execAll_cons h₂, execAll_cons h₃, execAll_cons h₄,
    execAll_nil]

/-- A number is read into a slot. The library is given the address of the slot and stores the number
there by itself. -/
theorem readSlot_runs (hlib : Library targets) {slot : Slot} {m : Machine W} {v : Int32} {w : W}
    (h : (readSlot slot.operand).Yields s u s' c) (hread : Terminal.read? m.world = some (v, w)) :
    ∃ m', execAll targets c m = some m' ∧ m'.slots = Function.update m.slots slot.disp v ∧
      m'.world = w := by
  obtain ⟨_, _, -, -, rfl⟩ := yields_callLibrary.1 h
  let m₁ := m.point .rsi (.slot slot.disp)
  let m₂ := m₁.point .rdi (.datum Runtime.readFormat)
  let m₃ := m₂.setReg Convention.vectorCountReg 0
  have h₁ : (Inst.leaq slot.operand .rsi).exec targets m = some m₁ := rfl
  have h₂ : (Inst.leaq (.rip Runtime.readFormat) .rdi).exec targets m₁ = some m₂ := rfl
  have h₃ : (clear Convention.vectorCountReg).exec targets m₂ = some m₃ := rfl
  have hformat : m₃.address .rdi = some (.datum Runtime.readFormat) := rfl
  have hplace : m₃.address .rsi = some (.slot slot.disp) := rfl
  -- `hplace` is the address the library stores through, and `hread` the number it reads.
  obtain ⟨m₄, hcall, hslots, hworld⟩ :=
    hlib.read m₃ slot.disp v w hformat (m₂.regs_setReg_self ..) hplace hread
  have h₄ : (Inst.call Runtime.scanf).exec targets m₃ = some m₄ := hcall
  refine ⟨m₄, ?_, hslots, hworld⟩
  rw [List.cons_append, List.singleton_append, execAll_cons h₁, execAll_cons h₂, execAll_cons h₃,
    execAll_cons h₄, execAll_nil]

/-- The values are written one after another. By recursion over the values: each is computed by
`Expr.lower_runs` and written by `writeReg_runs`. -/
theorem writeAll_executes (hans : Answers targets calls) (hlib : Library targets) :
    ∀ {es : List Expr} {s s' : State} {u : Unit} {c : List Inst},
    (writeAll es).Yields s u s' c → L.Covers s'.scopes → s.pool.Idle →
    Executes targets L c (Expr.writeAll calls es)
  | [], _, _, _, _, h, _, _ => by
    obtain ⟨-, rfl⟩ := yields_writeAll_nil.1 h
    exact executes_skip
  | e :: rest, s, _, _, _, h, hcov, hidle => by
    intro store store' m w hstore heffect hplain
    obtain ⟨r, s₁, s₂, c₁, c₂, c₃, hr, hwrite, hrest, rfl⟩ := yields_writeAll_cons.1 h
    simp only [Expr.writeAll, Option.bind_eq_bind, Option.bind_eq_some_iff, Prod.exists] at heffect
    obtain ⟨v, w₁, hv, heffect⟩ := heffect
    have hmade := writeReg_made hr hwrite
    have hcov₂ : L.Covers s₂.scopes := hcov.of_grows (writeAll_made hrest).advanced.scopes
    have hcov₁ : L.Covers s₁.scopes := writeReg_scopes hwrite ▸ hcov₂
    obtain ⟨m₁, hex₁, rfl, hk, rfl⟩ := Expr.lower_runs hans hr hcov₁ hidle.sound hstore hv
    obtain ⟨m₂, hex₂, hslots, hworld⟩ := writeReg_runs (m := m₁) hlib hwrite
    -- only temporaries were written, and no variable is named like one
    have hstore₂ := (hstore.kept hk fun _ => dollar_of_temp).of_slots hslots
    obtain ⟨m₃, hex₃, hstore₃, hw⟩ := writeAll_executes hans hlib hrest hcov
      (hidle.even hmade.pool) hstore₂ (hworld ▸ heffect) hplain
    exact ⟨m₃, execAll_append_of hex₁ (execAll_append_of hex₂ hex₃), hstore₃, hw⟩

/-- The numbers are read one after another. Each is stored into the slot of its variable before the
next one is read. -/
theorem readAll_executes (hlib : Library targets) {line : Line} :
    ∀ {es : List Expr} {s s' : State} {u : Unit} {c : List Inst},
    (readAll line es).Yields s u s' c → L.Covers s'.scopes →
    Executes targets L c (Expr.readAll es)
  | [], _, _, _, _, h, _ => by
    obtain ⟨-, rfl⟩ := yields_readAll_nil.1 h
    exact executes_skip
  | e :: rest, s, _, _, _, h, hcov => by
    intro store store' m w hstore heffect hplain
    have hgrows := (readAll_made h).advanced.scopes
    obtain ⟨x, slot, s₁, c₁, c₂, hx, hslot, hr, hrest, rfl⟩ := yields_readAll_cons.1 h
    simp only [Expr.readAll, hx, Option.bind_eq_bind, Option.bind_some, Option.bind_eq_some_iff,
      Prod.exists] at heffect
    obtain ⟨v, w₁, hread, heffect⟩ := heffect
    have hd : L.place x = some slot.disp := hcov (hgrows.find? hslot)
    -- the variable still has a value when all numbers are read
    have hdollar := (Expr.assigns_readAll rest heffect).plain hplain x v (Store.set_self ..)
    obtain ⟨m₁, hex₁, hslots, rfl⟩ := readSlot_runs hlib hr hread
    obtain ⟨m₂, hex₂, hstore₂, hw⟩ := readAll_executes hlib hrest hcov
      (hstore.assign hdollar hd hslots) heffect hplain
    exact ⟨m₂, execAll_append_of hex₁ hex₂, hstore₂, hw⟩

/-- A procedure is called, or numbers are written or read. Which of the three it is depends on the
name, in the meaning as in the generator. -/
theorem callProcedure_executes (hans : Answers targets calls) (hlib : Library targets)
    {callee : String} {args : List Expr} (h : (callProcedure line callee args).Yields s u s' c)
    (hcov : L.Covers s'.scopes) (hidle : s.pool.Idle) :
    Executes targets L c (Expr.callEffect calls callee args) := by
  rw [callProcedure] at h
  rw [Expr.callEffect]
  -- the built-in names are looked at first, whatever the program calls its routines
  cases hbuiltin : Builtin.ofName? callee with
  | some builtin =>
    rw [hbuiltin] at h
    cases builtin with
    | write => exact writeAll_executes hans hlib h hcov hidle
    | read => exact readAll_executes hlib h hcov
  | none =>
    rw [hbuiltin] at h
    intro store store' m w hstore heffect hplain
    simp only [Option.bind_eq_bind, Option.bind_eq_some_iff, Prod.exists] at heffect
    obtain ⟨values, w₁, hvalues, result, w₂, hcall, hp⟩ := heffect
    obtain ⟨rfl, rfl⟩ := Prod.mk.inj (Option.some.inj hp)
    obtain ⟨m₁, hex, -, hk, hw⟩ := callRoutine_runs hans (Expr.stageAll_computes hans args) h hcov
      hidle.sound hstore hvalues hcall
    exact ⟨m₁, hex, hstore.kept hk fun _ hx => dollar_of_temp hx.temp, hw⟩

end

/-! ## Code in a body -/

section

variable (targets : Targets W) (L : Layout) (body : List Inst)

/-- Code that stands in a body, with some code behind it, has an effect, and control gets behind the
code, unless a variable is in the way of temporaries. -/
def Performs (c k : List Inst) (effect : Effect W) : Prop :=
  ∀ ⦃store store' : Store⦄ ⦃m : Machine W⦄ ⦃w : W⦄ (log : List Comparison), Holds L store m →
    effect store m.world = some (store', w) → store'.Plain →
    ∃ m' log', Reaches targets body ⟨.ahead (c ++ k), m, log⟩ ⟨.ahead k, m', log'⟩ ∧
      Holds L store' m' ∧ m'.world = w

/-- Code that stands in a body makes a test, and control goes to a goal if the test comes out as the
code is to jump on, and behind the code otherwise. -/
def Decides (c k : List Inst) (sense : Bool) (goal : Control) (test : Store → Eval W Bool) : Prop :=
  ∀ ⦃store : Store⦄ ⦃m : Machine W⦄ ⦃truth : Bool⦄ ⦃w : W⦄ (log : List Comparison),
    Holds L store m → test store m.world = some (truth, w) →
    ∃ m' log', Reaches targets body ⟨.ahead (c ++ k), m, log⟩
        ⟨if truth = sense then goal else .ahead k, m', log'⟩ ∧ Holds L store m' ∧ m'.world = w

end

section

variable {targets : Targets W} {calls : Callees W} {L : Layout} {body c d k : List Inst}
  {first second effect : Effect W} {test : Store → Eval W Bool} {names : List String}

theorem Executes.performs (h : Executes targets L c effect) :
    Performs targets L body c k effect := by
  intro store store' m w log hstore heffect hplain
  obtain ⟨m', hex, hstore', hw⟩ := h hstore heffect hplain
  exact ⟨m', log, .ofExecAll k log hex, hstore', hw⟩

/-- The code of a condition makes the test that the condition is. What was compared on the way is
not of interest to a statement, so the log may be any. -/
theorem Expr.jumpWhen_decides (hans : Answers targets calls) {e : Expr} {sense : Bool}
    {goal : String} {s s' : State} {u : Unit} (h : (e.jumpWhen sense goal).Yields s u s' c)
    (hcov : L.Covers s'.scopes) (hidle : s.pool.Idle) (hplaced : Placed body c k) :
    Decides targets L body c k sense (goto goal body) (e.holds calls) := by
  intro store m truth w log hstore htest
  obtain ⟨number, hcount⟩ := hplaced.compareCount
  obtain ⟨made, hv⟩ := Expr.exists_outcome htest number
  obtain ⟨m', hreaches, hk, hw⟩ := Expr.jumpWhen_resolves hans h hcov hidle.sound
    hidle.free_ne_nil hplaced hcount log hstore hv
  exact ⟨m', log ++ made, hreaches, hstore.kept hk fun _ => dollar_of_temp, hw⟩

namespace Performs

/-- One instruction that changes nothing can stand in front. Comments and labels are such
instructions. -/
theorem cons {i : Inst} (hi : ∀ m : Machine W, i.exec targets m = some m)
    (h : Performs targets L body c k effect) : Performs targets L body (i :: c) k effect := by
  intro store store' m w log hstore heffect hplain
  obtain ⟨m', log', hreaches, hstore', hw⟩ := h log hstore heffect hplain
  exact ⟨m', log', .head (step_of_exec log (hi m)) hreaches, hstore', hw⟩

theorem heading (wanted : Bool) (line : Line) (summary : String)
    (h : Performs targets L body c k effect) :
    Performs targets L body (Gen.heading wanted line summary ++ c) k effect := by
  cases wanted with
  | true => exact h.cons fun _ => rfl
  | false => exact h

/-- The effect of code after code is one effect after the other. In the run of the first piece the
second one is part of what lies ahead. -/
theorem followedBy (h : Performs targets L body c (d ++ k) first)
    (h' : Performs targets L body d k second) (hsecond : second.Assigns names) :
    Performs targets L body (c ++ d) k (first.followedBy second) := by
  intro store store' m w log hstore heffect hplain
  simp only [Effect.followedBy, Option.bind_eq_bind, Option.bind_eq_some_iff, Prod.exists]
    at heffect
  obtain ⟨store₁, w₁, heffect₁, heffect₂⟩ := heffect
  -- `hplain` is about the last store; by `hsecond` the one in between has no more names.
  have hplain₁ : store₁.Plain := (hsecond heffect₂).plain hplain
  obtain ⟨m₁, log₁, hreaches₁, hstore₁, rfl⟩ := h log hstore heffect₁ hplain₁
  obtain ⟨m₂, log₂, hreaches₂, hstore₂, hw⟩ := h' log₁ hstore₁ heffect₂ hplain
  rw [List.append_assoc]
  exact ⟨m₂, log₂, hreaches₁.trans hreaches₂, hstore₂, hw⟩

/-- If the condition is false, the branch is jumped over. The label behind the branch is placed, so
the jump leads there. -/
theorem ifThen {past : String}
    (hc : Decides targets L body c (d ++ .label past :: k) false (.ahead k) test)
    (hd : Performs targets L body d (.label past :: k) effect) :
    Performs targets L body (c ++ (d ++ [.label past])) k (fun store w => do
      let (truth, w) ← test store w
      if truth then effect store w else return (store, w)) := by
  intro store store' m w log hstore heffect hplain
  simp only [Option.bind_eq_bind, Option.bind_eq_some_iff, Prod.exists] at heffect
  obtain ⟨truth, w₁, htest, heffect⟩ := heffect
  obtain ⟨m₁, log₁, hreaches₁, hstore₁, rfl⟩ := hc log hstore htest
  have hcode : c ++ (d ++ [.label past]) ++ k = c ++ (d ++ .label past :: k) := by simp
  rw [hcode]
  cases truth with
  -- the jump leads behind the label, so there is nothing left to do
  | false =>
    obtain ⟨rfl, rfl⟩ := Prod.mk.inj (Option.some.inj heffect)
    exact ⟨m₁, log₁, hreaches₁, hstore₁, rfl⟩
  | true =>
    obtain ⟨m₂, log₂, hreaches₂, hstore₂, hw⟩ := hd log₁ hstore₁ heffect hplain
    have hlabel : step targets body ⟨.ahead (.label past :: k), m₂, log₂⟩ =
        some ⟨.ahead k, m₂, log₂⟩ := step_of_exec log₂ rfl
    exact ⟨m₂, log₂, (hreaches₁.trans hreaches₂).tail hlabel, hstore₂, hw⟩

/-- If the condition is false, the first branch is jumped over, and else the second one is. -/
theorem ifElse {otherwise past : String} {e : List Inst} (hpast : goto past body = .ahead k)
    (hc : Decides targets L body c
      (d ++ .jmp past :: .label otherwise :: (e ++ .label past :: k)) false
      (.ahead (e ++ .label past :: k)) test)
    (hd : Performs targets L body d (.jmp past :: .label otherwise :: (e ++ .label past :: k)) first)
    (he : Performs targets L body e (.label past :: k) second) :
    Performs targets L body
      (c ++ (d ++ (.jmp past :: .label otherwise :: (e ++ [.label past])))) k (fun store w => do
        let (truth, w) ← test store w
        if truth then first store w else second store w) := by
  intro store store' m w log hstore heffect hplain
  simp only [Option.bind_eq_bind, Option.bind_eq_some_iff, Prod.exists] at heffect
  obtain ⟨truth, w₁, htest, heffect⟩ := heffect
  obtain ⟨m₁, log₁, hreaches₁, hstore₁, rfl⟩ := hc log hstore htest
  have hcode : c ++ (d ++ (.jmp past :: .label otherwise :: (e ++ [.label past]))) ++ k =
      c ++ (d ++ .jmp past :: .label otherwise :: (e ++ .label past :: k)) := by simp
  rw [hcode]
  cases truth with
  -- the jump leads to the second branch, which runs into the last label
  | false =>
    obtain ⟨m₂, log₂, hreaches₂, hstore₂, hw⟩ := he log₁ hstore₁ heffect hplain
    have hlabel : step targets body ⟨.ahead (.label past :: k), m₂, log₂⟩ =
        some ⟨.ahead k, m₂, log₂⟩ := step_of_exec log₂ rfl
    exact ⟨m₂, log₂, (hreaches₁.trans hreaches₂).tail hlabel, hstore₂, hw⟩
  -- the first branch ends in a jump over the second one
  | true =>
    obtain ⟨m₂, log₂, hreaches₂, hstore₂, hw⟩ := hd log₁ hstore₁ heffect hplain
    have hjump : step targets body
        ⟨.ahead (.jmp past :: .label otherwise :: (e ++ .label past :: k)), m₂, log₂⟩ =
        some ⟨.ahead k, m₂, log₂⟩ := by
      rw [← hpast]
      rfl
    exact ⟨m₂, log₂, (hreaches₁.trans hreaches₂).tail hjump, hstore₂, hw⟩

/-- From the test of a loop, the passes are made one after another until the test fails. -/
theorem repeatWhile_test {again : String}
    (hd : Decides targets L body d k true (.ahead (c ++ .label again :: (d ++ k))) test)
    (hc : Performs targets L body c (.label again :: (d ++ k)) effect)
    (heffect : effect.Assigns names) (fuel : Nat) :
    Performs targets L body d k (Effect.repeatWhile test effect fuel) := by
  induction fuel with
  | zero =>
    intro store store' m w log _ hrepeat
    simp [Effect.repeatWhile] at hrepeat
  | succ fuel ih =>
    intro store store' m w log hstore hrepeat hplain
    simp only [Effect.repeatWhile, Option.bind_eq_bind, Option.bind_eq_some_iff, Prod.exists]
      at hrepeat
    obtain ⟨truth, w₁, htest, hrepeat⟩ := hrepeat
    obtain ⟨m₁, log₁, hreaches₁, hstore₁, rfl⟩ := hd log hstore htest
    cases truth with
    | false =>
      obtain ⟨rfl, rfl⟩ := Prod.mk.inj (Option.some.inj hrepeat)
      exact ⟨m₁, log₁, hreaches₁, hstore₁, rfl⟩
    | true =>
      simp only [if_true, Effect.followedBy, Option.bind_eq_bind, Option.bind_eq_some_iff,
        Prod.exists] at hrepeat
      obtain ⟨store₁, w₂, hpass, hothers⟩ := hrepeat
      -- no pass takes a value away, so this store is as plain as the last one
      have hplain₁ : store₁.Plain := (heffect.repeatWhile fuel hothers).plain hplain
      obtain ⟨m₂, log₂, hreaches₂, hstore₂, rfl⟩ := hc log₁ hstore₁ hpass hplain₁
      obtain ⟨m₃, log₃, hreaches₃, hstore₃, hw⟩ := ih log₂ hstore₂ hothers hplain
      -- the pass ends where the next test begins
      have hlabel : step targets body ⟨.ahead (.label again :: (d ++ k)), m₂, log₂⟩ =
          some ⟨.ahead (d ++ k), m₂, log₂⟩ := step_of_exec log₂ rfl
      exact ⟨m₃, log₃, ((hreaches₁.trans hreaches₂).tail hlabel).trans hreaches₃, hstore₃, hw⟩

/-- A loop starts with its test. The jump to the test comes first; from there on it is
`repeatWhile_test`, by induction on the number of passes. -/
theorem repeatWhile {start again : String} (hagain : goto again body = .ahead (d ++ k))
    (hd : Decides targets L body d k true (.ahead (c ++ .label again :: (d ++ k))) test)
    (hc : Performs targets L body c (.label again :: (d ++ k)) effect)
    (heffect : effect.Assigns names) (fuel : Nat) :
    Performs targets L body (.jmp again :: .label start :: (c ++ .label again :: d)) k
      (Effect.repeatWhile test effect fuel) := by
  intro store store' m w log hstore hrepeat hplain
  obtain ⟨m', log', hreaches, hstore', hw⟩ :=
    repeatWhile_test hd hc heffect fuel log hstore hrepeat hplain
  -- The first step jumps over the body to the test; the rest is `repeatWhile_test`.
  have hjump : step targets body
      ⟨.ahead (.jmp again :: .label start :: (c ++ .label again :: d) ++ k), m, log⟩ =
      some ⟨.ahead (d ++ k), m, log⟩ := by
    rw [← hagain]
    rfl
  exact ⟨m', log', .head hjump hreaches, hstore', hw⟩

end Performs

variable (targets L body) in
/-- All code that the generator makes has the effect, wherever it stands in the body. It quantifies
over states, so that it can be used for a part of a statement before its state is known. -/
def Realizes (gen : Gen Unit) (effect : Effect W) : Prop :=
  ∀ ⦃s s' : State⦄ ⦃c k : List Inst⦄, gen.Yields s () s' c → L.Covers s'.scopes → s.pool.Idle →
    Placed body c k → Performs targets L body c k effect

/-- A loop makes its passes, whatever its body is made of. The body is given as a generator with an
effect, so that `while` and `for` are both instances. -/
theorem loop_performs (hans : Answers targets calls) {condition : Expr} {gen : Gen Unit}
    (hmade : ∀ {s s' : State} {c : List Inst}, gen.Yields s () s' c → Made (s.Drawn s') s s' c)
    (hgen : Realizes targets L body gen effect)
    (heffect : effect.Assigns names) {s s' : State} {u : Unit}
    (h : (loop condition gen).Yields s u s' c) (hcov : L.Covers s'.scopes) (hidle : s.pool.Idle)
    (hplaced : Placed body c k) (fuel : Nat) :
    Performs targets L body c k (Effect.repeatWhile (condition.holds calls) effect fuel) := by
  obtain ⟨s₁, c₁, c₂, hb, hc, rfl⟩ := yields_loop.1 h
  have hcov₁ : L.Covers s₁.scopes := hcov.of_grows (Made.ofJumpWhen hc).advanced.scopes
  -- Each label stands where it is placed, so jumps to it lead there: `Placed.goto`.
  have hstart := hplaced.tail.goto
  have hagain := hplaced.tail.tail.right.goto
  have hbody := hgen hb hcov₁ hidle hplaced.tail.tail.left
  have htest := Expr.jumpWhen_decides hans hc hcov (hidle.even (hmade hb).pool)
    hplaced.tail.tail.right.tail
  rw [hstart, List.append_assoc] at htest
  exact .repeatWhile hagain htest hbody heffect fuel

namespace Stmt

variable [Terminal W] {comments : Bool} {fuel : Nat}

/-- A pass of a `for` loop has the effect of its statement, and then counts the variable up. -/
theorem realizes_pass (hans : Answers targets calls) {t : Stmt} {init : ForInit} {line : Line}
    (hbody : Realizes targets L body (t.lower comments) (t.exec calls fuel)) :
    Realizes targets L body (do t.lower comments; init.step comments line)
      ((t.exec calls fuel).followedBy (Expr.assignTo calls init.var (init.next line))) := by
  intro s s' c k h hcov hidle hplaced
  obtain ⟨s₁, c₁, c₂, hb, hstep, rfl⟩ := yields_pass.1 h
  have hcov₁ : L.Covers s₁.scopes := hcov.of_grows (assignValue_made hstep).advanced.scopes
  have hidle₁ : s₁.pool.Idle := hidle.even (lower_made hb).pool
  -- The step is an assignment, which has no jumps and needs no place.
  have hcount := assignValue_executes hans hstep hcov hidle₁
  exact (hbody hb hcov₁ hidle hplaced.left).followedBy (hcount.performs.heading ..)
    (Expr.assigns_assignTo ..)

/-- A `for` statement starts, and then makes its passes. A pass is the statement and then the step,
`realizes_pass`. -/
theorem forTo_performs (hans : Answers targets calls) {t : Stmt} {init : ForInit} {limit : Expr}
    {line : Line} {s s' : State} {u : Unit}
    (hbody : Realizes targets L body (t.lower comments) (t.exec calls fuel))
    (h : ((forTo line init limit t).lower comments).Yields s u s' c) (hcov : L.Covers s'.scopes)
    (hidle : s.pool.Idle) (hplaced : Placed body c k) :
    Performs targets L body c k ((forTo line init limit t).exec calls fuel) := by
  obtain ⟨s₁, c₁, c₂, summary, -, hi, hl, -, rfl⟩ := yields_forTo.1 h
  have hidle₁ : s₁.pool.Idle := hidle.even (initial_made hi).pool
  have hcov₁ : L.Covers s₁.scopes :=
    hcov.of_grows (loop_made (pass_made lower_made) hl).advanced.scopes
  -- Which variables a pass may change is needed twice: for the start and for the loop.
  have hassigns : ((t.exec calls fuel).followedBy
      (Expr.assignTo calls init.var (init.next line))).Assigns
        (t.identifiers ++ init.var.identifiers) :=
    ((assigns_exec t).mono (List.subset_append_left ..)).followedBy
      ((Expr.assigns_assignTo ..).mono (List.subset_append_right ..))
  have hstart := initial_executes hans hi hcov₁ hidle
  have hloop := loop_performs hans (pass_made lower_made) (realizes_pass hans hbody) hassigns hl
    hcov hidle₁ hplaced.right.right fuel
  rw [exec]
  exact (hstart.performs.followedBy hloop (hassigns.repeatWhile fuel)).heading ..

mutual

/-- **The code of a statement has the effect of the statement.** -/
theorem lower_performs (hans : Answers targets calls) (hlib : Library targets) :
    ∀ {t : Stmt} {s s' : State} {u : Unit} {c k : List Inst}, (t.lower comments).Yields s u s' c →
    L.Covers s'.scopes → s.pool.Idle → Placed body c k →
    Performs targets L body c k (t.exec calls fuel)
  | .assign .., _, _, _, _, _, h, hcov, hidle, _ => by
    obtain ⟨c', h', rfl⟩ := yields_assign.1 h
    rw [exec]
    exact (assignValue_executes hans h' hcov hidle).performs.heading ..
  | .call .., _, _, _, _, _, h, hcov, hidle, _ => by
    obtain ⟨c', h', rfl⟩ := yields_call.1 h
    rw [exec]
    exact (callProcedure_executes hans hlib h' hcov hidle).performs.heading ..
  | .compound .., _, _, _, _, _, h, hcov, hidle, hplaced => by
    rw [exec]
    exact lowerAll_performs hans hlib (yields_compound.1 h) hcov hidle hplaced
  | .ifThen .., s, _, _, _, k, h, hcov, hidle, hplaced => by
    obtain ⟨s₁, c₁, c₂, hc, ht, rfl⟩ := yields_ifThen.1 h
    rw [exec]
    have hplaced₁ := hplaced.right
    have hidle₁ : s₁.pool.Idle := hidle.even (Made.ofJumpWhen hc).pool
    have hcov₁ : L.Covers s₁.scopes := hcov.of_grows (lower_made ht).advanced.scopes
    -- the label stands once in the whole body, so the jump ends behind the branch
    have hpast : goto (localLabel s.labels) body = .ahead k := hplaced₁.right.right.goto
    have htest := Expr.jumpWhen_decides hans hc hcov₁ hidle hplaced₁.left
    have hthen := lower_performs hans hlib ht hcov hidle₁ hplaced₁.right.left
    rw [hpast, List.append_assoc] at htest
    exact (Performs.ifThen htest hthen).heading ..
  | .ifElse .., s, _, _, _, k, h, hcov, hidle, hplaced => by
    obtain ⟨s₁, s₂, c₁, c₂, c₃, hc, ht, he, rfl⟩ := yields_ifElse.1 h
    rw [exec]
    have hplaced₁ := hplaced.right
    have hidle₁ : s₁.pool.Idle := hidle.even (Made.ofJumpWhen hc).pool
    have hidle₂ : s₂.pool.Idle := hidle₁.even (lower_made ht).pool
    have hcov₂ : L.Covers s₂.scopes := hcov.of_grows (lower_made he).advanced.scopes
    have hcov₁ : L.Covers s₁.scopes := hcov₂.of_grows (lower_made ht).advanced.scopes
    have hpast : goto (localLabel s₂.labels) body = .ahead k :=
      hplaced₁.right.right.tail.tail.right.goto
    have hotherwise := hplaced₁.right.right.tail.goto
    have htest := Expr.jumpWhen_decides hans hc hcov₁ hidle hplaced₁.left
    have hthen := lower_performs hans hlib ht hcov₂ hidle₁ hplaced₁.right.left
    have helse := lower_performs hans hlib he hcov hidle₂ hplaced₁.right.right.tail.tail.left
    simp only [hotherwise, List.append_assoc, List.cons_append, List.nil_append] at htest hthen
    exact (Performs.ifElse hpast htest hthen helse).heading ..
  | .whileDo _ _ t, _, _, _, _, _, h, hcov, hidle, hplaced => by
    obtain ⟨c', h', rfl⟩ := yields_whileDo.1 h
    rw [exec]
    have hbody : Realizes targets L body (t.lower comments) (t.exec calls fuel) :=
      fun _ _ _ _ hb hcov hidle hplaced => lower_performs hans hlib hb hcov hidle hplaced
    exact (loop_performs hans lower_made hbody (assigns_exec t) h' hcov hidle hplaced.right
      fuel).heading ..
  | .forTo _ _ _ t, _, _, _, _, _, h, hcov, hidle, hplaced => by
    have hbody : Realizes targets L body (t.lower comments) (t.exec calls fuel) :=
      fun _ _ _ _ hb hcov hidle hplaced => lower_performs hans hlib hb hcov hidle hplaced
    exact forTo_performs hans hbody h hcov hidle hplaced

/-- The code of statements one after another has their effects one after another. -/
theorem lowerAll_performs (hans : Answers targets calls) (hlib : Library targets) :
    ∀ {ts : List Stmt} {s s' : State} {u : Unit} {c k : List Inst},
    (Stmt.lowerAll comments ts).Yields s u s' c → L.Covers s'.scopes → s.pool.Idle →
    Placed body c k → Performs targets L body c k (execAll calls fuel ts)
  | [], _, _, _, _, _, h, _, _, _ => by
    obtain ⟨-, rfl⟩ := yields_lowerAll_nil.1 h
    rw [execAll]
    exact executes_skip.performs
  | t :: rest, _, _, _, _, _, h, hcov, hidle, hplaced => by
    obtain ⟨s₁, c₁, c₂, ht, hrest, rfl⟩ := yields_lowerAll_cons.1 h
    rw [execAll]
    have hcov₁ : L.Covers s₁.scopes := hcov.of_grows (lowerAll_made hrest).advanced.scopes
    -- The first statement leaves the pool idle, as the next one needs it.
    have hidle₁ : s₁.pool.Idle := hidle.even (lower_made ht).pool
    exact (lower_performs hans hlib ht hcov₁ hidle hplaced.left).followedBy
      (lowerAll_performs hans hlib hrest hcov hidle₁ hplaced.right) (assigns_execAll rest)

end

end Stmt

end

end PascalAsm
