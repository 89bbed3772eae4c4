import PascalAsm.Proofs.Failures.Recovery
import PascalAsm.Proofs.Generator.Phrases
import PascalAsm.Proofs.Generator.Writes

/-!
# Temporaries of nested calls

All calls of a function body keep their temporaries in the same frame, and one call may be made
while the arguments of another are staged. What keeps them apart is the depth in the names: while
the arguments of a call at some depth are computed, all temporaries but the one for divisors are
those of calls further in.

* **`Pieces`** — the code that stages some arguments: for one after the other, the code that
  computes it, and then the store into its temporary.
* **`Expr.stageAll_pieces`** — the code is made of such pieces, whether staging succeeds or fails.
  So the temporary of an argument is written once at most, when the argument has been computed, and
  not by the code of any argument. The depth of calls is what it was afterwards.
-/

namespace PascalAsm

open Assembly Lowering Gen State

namespace Lowering

/-! ## Calls -/

section

variable {P : String → Prop} {S : Scopes} {s s' : State} {u : Unit} {c : List Inst}

/-- Staging its arguments for a call at some depth writes only temporaries of calls at that depth or
further in. -/
structure StageStores (stage : Nat → Gen (List Operand)) : Prop where
  settled : StageSettled stage
  stores : ∀ ⦃s s' : State⦄ ⦃ops : List Operand⦄ ⦃c : List Inst⦄ (depth : Nat),
    s.callDepth = depth + 1 → (stage depth).Yields s ops s' c → Stores (Temp depth) s'.scopes c

theorem stores_saveAll {depth : Nat} {regs : List Reg} {l : List (Reg × Operand)}
    (h : (saveAll depth regs).Yields s l s' c) : Stores (Temp depth) s'.scopes c := by
  induction regs generalizing s l c with
  | nil =>
    obtain ⟨-, -, rfl⟩ := yields_saveAll_nil.1 h
    exact .nil
  | cons r rest ih =>
    obtain ⟨op, s₁, l', c', htemp, hl, -, rfl⟩ := yields_saveAll_cons.1 h
    obtain ⟨hs, -, -⟩ := saveAll_steady hl
    -- The slot was made for this register, and is found under the same name at the end.
    obtain ⟨slot, hfind, rfl⟩ := find?_of_tempOperand htemp
    have hslot : Writable (Temp depth) s'.scopes slot.operand :=
      .slot (.save r (Nat.le_refl depth)) (hs.scopes.find? hfind)
    exact Stores.cons_iff.2 ⟨by simpa [Inst.written] using hslot, ih hl⟩

/-- Loading registers writes no slots. It only writes registers, and those are not counted among
what is stored. -/
theorem stores_loadArgs (ops : List Operand) : Stores P S (loadArgs ops) := by
  intro i hi
  obtain ⟨n, hn, rfl⟩ := List.getElem_of_mem hi
  simp [loadArgs, Inst.written]

theorem stores_callRoutine {callee : String} {count : Nat} {line : Line}
    {stage : Nat → Gen (List Operand)} (hstage : StageStores stage)
    (h : (callRoutine callee count line stage).Yields s u s' c) :
    Stores (Temp s.callDepth) s'.scopes c := by
  obtain ⟨-, operands, s₁, s₂, c₁, claimed, hs, hclaim, hrelease, rfl⟩ := yields_callRoutine.1 h
  obtain ⟨q, rfl, -⟩ := claim_release_even hclaim hrelease
  have hcode : Stores (Temp s.callDepth) s₁.scopes c₁ := hstage.stores s.callDepth rfl hs
  simpa [clear, Inst.written, stores_loadArgs] using hcode

/-- Around a call inside an expression, registers are saved in temporaries of the call's depth.
Those of the arguments are one level further in, or belong to the call itself. -/
theorem Tree.storesOnly_call {callee : String} {args : List Arg}
    (hstage : StageStores fun depth => Arg.stageAll depth 0 args) (label : Nat) (line : Line) :
    (Tree.call label line callee args).StoresOnly Temp where
  settled := settled_call hstage.settled label line
  stores := by
    intro s s' u c h
    obtain ⟨-, dest, rest, hfree, hcall⟩ := Tree.yields_call.1 h
    obtain ⟨-, saved, s₁, s₂, c₁, c₂, hsave, hroutine, rfl, rfl⟩ := yields_callValue.1 hcall
    obtain ⟨hs₁, -, -⟩ := saveAll_steady hsave
    obtain ⟨hs₂, -, -⟩ := callRoutine_steady hstage.settled hroutine
    have hdepth : (s₁.withPool s₁.pool.reset).callDepth = s.callDepth := hs₁.callDepth
    have hgrows : Scopes.Grows _ s₁.scopes s₂.scopes := hs₂.scopes
    have hcode := stores_callRoutine hstage hroutine
    rw [hdepth] at hcode
    -- loading the registers back writes registers only
    have hloads : Stores (Temp s.callDepth) s₂.scopes
        (saved.map fun q => Inst.movl q.2 (.reg q.1)) := by
      intro i hi
      obtain ⟨q, -, rfl⟩ := List.mem_map.1 hi
      simp [Inst.written]
    simp only [Stores.append_iff]
    exact ⟨(stores_saveAll hsave).of_grows hgrows, hcode, hloads, by simp [Inst.written]⟩

theorem stores_plan_lower {plan : Plan} {line : Line} {r : Reg}
    (ht : ∀ {ws t}, plan = .ready ws t → t.StoresOnly Temp)
    (h : (plan.lower line).Yields s r s' c) : Stores (Temp s.callDepth) s'.scopes c := by
  obtain ⟨ws, t, rfl, hc⟩ := yields_plan_lower.1 h
  obtain ⟨s₁, hm, -, ha, -⟩ := yields_compute.1 hc
  obtain ⟨rest, hfree, rfl, -⟩ := yields_allocate.1 ha
  have htree := (ht rfl).stores hm
  exact htree

end

/-! ## Pieces -/

/-- What the code of one argument consists of: the code that computes the argument, and the store of
the register that it is in. Variables and numbers need neither. If there is an operand, then this is
all; if staging has failed, something may be missing. -/
inductive Piece (depth index : Nat) (S : Scopes) (e : Expr) :
    Option Operand → List Inst → List Inst → Prop
  | number {line : Line} {v : Int32} (he : e = .integer line v) :
    Piece depth index S e (some (.imm v)) [] []
  | inSlot {line : Line} {name : String} {slot : Slot} (he : e = .var line name)
    (hfind : S.find? name = some slot) : Piece depth index S e (some slot.operand) [] []
  | stored {s s' : State} {r : Reg} {own : List Inst} {slot : Slot} {given : Option Operand}
    (hdepth : s.callDepth = depth + 1) (hown : e.lower.Yields s r s' own)
    (hkeeps : Stores (Temp (depth + 1)) S own)
    (hfind : S.find? (argumentTemp depth index) = some slot)
    (hgiven : ∀ op ∈ given, op = slot.operand) :
    Piece depth index S e given own [.movl (.reg r) slot.operand]
  | unstored {s s' : State} {r : Reg} {own : List Inst} (hdepth : s.callDepth = depth + 1)
    (hown : e.lower.Yields s r s' own) (hkeeps : Stores (Temp (depth + 1)) S own) :
    Piece depth index S e none own []
  | nothing : Piece depth index S e none [] []

/-- The operands of some arguments and their code, one after the other: what computes it, and what
stores it. The first argument has the given index. -/
inductive Pieces (depth : Nat) (S : Scopes) :
    Nat → List Expr → List (Option Operand) → List Inst → Prop
  | nil (index : Nat) : Pieces depth S index [] [] []
  | cons {index : Nat} {e : Expr} {es : List Expr} {given : Option Operand}
    {ops : List (Option Operand)} {own store rest : List Inst}
    (hpiece : Piece depth index S e given own store)
    (hrest : Pieces depth S (index + 1) es ops rest) :
    Pieces depth S index (e :: es) (given :: ops) (own ++ (store ++ rest))

section

variable {P : String → Prop} {S T : Scopes} {depth index : Nat} {e : Expr} {es : List Expr}
  {given : Option Operand} {ops : List (Option Operand)} {own store c : List Inst}

theorem Piece.of_grows (h : Piece depth index S e given own store) (hg : Scopes.Grows P S T) :
    Piece depth index T e given own store := by
  cases h with
  | number he => exact .number he
  | inSlot he hfind => exact .inSlot he (hg.find? hfind)
  | stored hdepth hown hkeeps hfind hgiven =>
    exact .stored hdepth hown (hkeeps.of_grows hg) (hg.find? hfind) hgiven
  | unstored hdepth hown hkeeps => exact .unstored hdepth hown (hkeeps.of_grows hg)
  | nothing => exact .nothing

/-- Arguments that were not reached have no operands and no code. They come behind the one that
failed. -/
theorem Pieces.nothing : ∀ (index : Nat) (es : List Expr),
    Pieces depth S index es (es.map fun _ => none) []
  | index, [] => .nil index
  | index, _ :: es => .cons .nothing (Pieces.nothing (index + 1) es)

/-- What is staged is a number or in a slot. So loading the registers of arguments afterwards does
not change any of them. -/
theorem Piece.operand {op : Operand} (h : Piece depth index S e (some op) own store) :
    (∃ v, op = .imm v) ∨ S.Slots op := by
  cases h with
  | number => exact .inl ⟨_, rfl⟩
  | inSlot _ hfind => exact .inr (Scopes.slots_of_find? hfind)
  | stored _ _ _ hfind hgiven => exact .inr (hgiven op rfl ▸ Scopes.slots_of_find? hfind)

theorem Pieces.operand {op : Operand} (h : Pieces depth S index es ops c) (hop : some op ∈ ops) :
    (∃ v, op = .imm v) ∨ S.Slots op := by
  induction h with
  | nil => cases hop
  | cons hpiece _ ih =>
    rcases List.mem_cons.1 hop with rfl | hop
    · exact hpiece.operand
    · exact ih hop

/-- The code of an argument does not write the temporaries of the call itself, nor those of calls
around it. -/
theorem Piece.own_keeps (h : Piece depth index S e given own store) :
    Stores (Temp (depth + 1)) S own := by
  cases h with
  | number | inSlot | nothing => exact .nil
  | stored _ _ hkeeps | unstored _ _ hkeeps => exact hkeeps

theorem Piece.stores (h : Piece depth index S e given own store) :
    Stores (· = argumentTemp depth index) S store := by
  cases h with
  | number | inSlot | unstored | nothing => exact .nil
  | stored _ _ _ hfind =>
    have hslot := Writable.slot (P := (· = argumentTemp depth index)) rfl hfind
    exact Stores.cons_iff.2 ⟨by simpa [Inst.written] using hslot, .nil⟩

/-- An argument is stored once at most. The instruction is the one that moves its value into the
temporary. -/
theorem Piece.length_store (h : Piece depth index S e given own store) : store.length ≤ 1 := by
  cases h with
  | number | inSlot | unstored | nothing => exact Nat.zero_le 1
  | stored => exact Nat.le_refl 1

/-- The names of the slots that staging some of the arguments of a call changes: so many from one of
them on. -/
def CallTemp (depth index count : Nat) (x : String) : Prop :=
  Temp (depth + 1) x ∨ ∃ i, index ≤ i ∧ i < index + count ∧ x = argumentTemp depth i

theorem CallTemp.staged {count : Nat} {x : String} (h : CallTemp depth index count x) :
    Staged depth index x := by
  rcases h with htemp | ⟨i, hle, -, rfl⟩
  · exact .inl htemp
  · exact .inr ⟨i, hle, rfl⟩

theorem Pieces.stores (h : Pieces depth S index es ops c) :
    Stores (CallTemp depth index es.length) S c := by
  induction h with
  | nil => exact .nil
  | @cons index e es given ops own store rest hpiece _ ih =>
    simp only [Stores.append_iff]
    -- A piece writes its own temporary, at `index`, or what is further in; the others come later.
    refine ⟨hpiece.own_keeps.mono fun x => .inl, hpiece.stores.mono fun x hx => ?_,
      ih.mono fun x hx => ?_⟩
    · exact .inr ⟨index, Nat.le_refl index, by simp, hx⟩
    · rcases hx with htemp | ⟨i, hle, hlt, rfl⟩
      · exact .inl htemp
      · rw [List.length_cons]
        exact .inr ⟨i, by omega, by omega, rfl⟩

/-- A slot with another name is not written. A layout of the scopes is made for the proof only: it
says that different names have different places. -/
theorem Stores.not_written {x : String} {slot : Slot} (h : Stores P S c) (hlaid : S.Laid)
    (hfind : S.find? x = some slot) (hx : ¬ P x) {i : Inst} (hi : i ∈ c) :
    slot.operand ∉ i.written := by
  intro hop
  have hcov : (Layout.ofScopes S hlaid).Covers S := Layout.covers_ofScopes _ _
  generalize heq : slot.operand = op at hop
  cases h i hi op hop with
  | reg r => cases heq
  -- Slots at one place have one name, by `inj`, and a name that may be written is not `x`.
  | @slot y slot' hy hfind' =>
    have hdisp : slot.disp = slot'.disp := (Operand.mem.inj heq).2
    have hname : x = y := (Layout.ofScopes S hlaid).inj (hcov hfind) (hdisp ▸ hcov hfind')
    exact hx (hname ▸ hy)

/-- How many instructions of some code write an operand. Instructions that read it are not counted.
-/
def writeCount (op : Operand) (c : List Inst) : Nat := c.countP (op ∈ ·.written)

theorem writeCount_append (op : Operand) (c d : List Inst) :
    writeCount op (c ++ d) = writeCount op c + writeCount op d :=
  List.countP_append

theorem Stores.writeCount_eq_zero {x : String} {slot : Slot} (h : Stores P S c) (hlaid : S.Laid)
    (hfind : S.find? x = some slot) (hx : ¬ P x) : writeCount slot.operand c = 0 := by
  refine List.countP_eq_zero.2 fun i hi => ?_
  simpa using h.not_written hlaid hfind hx hi

/-- The temporary of an argument is written once at most: not by the code of the arguments, and only
by the store of its own. -/
theorem Pieces.writeCount_le (h : Pieces depth S index es ops c) (hlaid : S.Laid) {i : Nat}
    {slot : Slot} (hfind : S.find? (argumentTemp depth i) = some slot) :
    writeCount slot.operand c ≤ 1 := by
  have hdeeper : ¬ Temp (depth + 1) (argumentTemp depth i) :=
    not_temp_argumentTemp i (Nat.lt_succ_self depth)
  induction h with
  | nil => exact Nat.zero_le 1
  | @cons index e es given ops own store rest hpiece hrest ih =>
    have hown : writeCount slot.operand own = 0 :=
      hpiece.own_keeps.writeCount_eq_zero hlaid hfind hdeeper
    rw [writeCount_append, writeCount_append, hown, Nat.zero_add]
    by_cases hi : i = index
    · -- the arguments that follow have temporaries of their own
      have hlater := not_staged_argumentTemp depth (show i < index + 1 by omega)
      have hrest : writeCount slot.operand rest = 0 :=
        hrest.stores.writeCount_eq_zero hlaid hfind fun h => hlater h.staged
      rw [hrest, Nat.add_zero]
      exact Nat.le_trans List.countP_le_length hpiece.length_store
    · have hstore : writeCount slot.operand store = 0 :=
        hpiece.stores.writeCount_eq_zero hlaid hfind fun heq => hi (eq_of_argumentTemp_eq heq).2
      rw [hstore, Nat.zero_add]
      exact ih

end

/-! ## Staging -/

/-- The code of an outcome is the piece of an argument. It covers failure: an argument that cannot
be staged has code but no operand. -/
def Outcome.IsPiece (depth index : Nat) (e : Expr) (o : Outcome Operand) : Prop :=
  ∃ own store, o.code = own ++ store ∧
    Piece depth index o.state.scopes e o.result.toOption own store

theorem isPiece_of_error (depth index : Nat) (e : Expr) (err : LoweringError) (s : State)
    {c : List Inst} (h : c = []) : (Outcome.mk (.error err) s c).IsPiece depth index e :=
  ⟨[], [], h, .nothing⟩

section

variable {depth index : Nat} {s : State}

/-- Even if the register cannot be given back, what it holds has been stored. -/
theorem run_store (r : Reg) (op : Operand) (s : State) : ∃ result q,
    (emit [.movl (.reg r) op] >>= fun _ => Gen.free r >>= fun _ => pure op).run s =
      ⟨result, s.withPool q, [.movl (.reg r) op]⟩ ∧ ∀ op' ∈ result.toOption, op' = op := by
  rw [run_bind_of_ok _ (show (emit [.movl (.reg r) op]).run s = ⟨.ok (), s, _⟩ from rfl)]
  -- Giving the register back changes only the pool, whether or not it is refused.
  rcases hfree : (Gen.free r).run s with ⟨e | u, s', c⟩
  · have hrun : (onPool fun p => (p.give r).map fun q => ((), q)).run s = ⟨.error e, s', c⟩ := hfree
    obtain rfl := withholds_onPool _ hrun
    obtain ⟨-, rfl⟩ := fails_onPool.1 ⟨_, hrun⟩
    exact ⟨.error e, s'.pool, by rw [run_bind_of_error _ hfree]; rfl, fun _ h => by cases h⟩
  · obtain ⟨-, -, rfl, rfl⟩ := yields_free.1 hfree
    exact ⟨.ok op, _, by rw [run_bind_of_ok _ hfree]; rfl, fun _ h => (Option.some.inj h).symm⟩

/-- Whatever goes wrong, a computed argument has its code and its store, or its code, or nothing. -/
theorem isPiece_computed {e : Expr} (hdepth : s.callDepth = depth + 1)
    (ht : ∀ {ws t}, Plan.ofExpr false e = .ready ws t → t.StoresOnly Temp) :
    (((Arg.computed e.line (Plan.ofExpr false e)).stage depth index).run s).IsPiece
      depth index e := by
  rw [Arg.stage]
  -- the code is missing if the value cannot be computed, and the store if there is no slot for it
  rcases hown : ((Plan.ofExpr false e).lower e.line).run s with ⟨err | r, s₁, own⟩
  · rw [run_bind_of_error _ hown]
    exact isPiece_of_error depth index e err s₁ (Plan.withholds_lower _ _ hown)
  have hkeeps : Stores (Temp (depth + 1)) s₁.scopes own := hdepth ▸ stores_plan_lower ht hown
  have hgrows := ((orderly_tempOperand (argumentTemp depth index)).follows s₁).steady.scopes
  rw [run_bind_of_ok _ hown]
  rcases htemp : (tempOperand (argumentTemp depth index)).run s₁ with ⟨err | op, s₂, c₂⟩
  · obtain rfl := withholds_tempOperand _ htemp
    rw [htemp] at hgrows
    rw [run_bind_of_error _ htemp]
    exact ⟨own, [], rfl, .unstored hdepth hown (hkeeps.of_grows hgrows)⟩
  · obtain ⟨slot, hfind, rfl⟩ := find?_of_tempOperand htemp
    obtain ⟨_, -, rfl, -⟩ := yields_tempOperand.1 htemp
    obtain ⟨result, q, hstore, hstaged⟩ := run_store r slot.operand s₂
    rw [htemp] at hgrows
    rw [run_bind_of_ok _ htemp, hstore]
    exact ⟨own, _, rfl, .stored hdepth hown (hkeeps.of_grows hgrows) hfind hstaged⟩

theorem isPiece_stage {e : Expr} (index : Nat) (hdepth : s.callDepth = depth + 1)
    (ht : ∀ {ws t}, Plan.ofExpr false e = .ready ws t → t.StoresOnly Temp) :
    (((Arg.ofPlan e (Plan.ofExpr false e)).stage depth index).run s).IsPiece depth index e := by
  cases e with
  | var line name =>
    rw [Arg.ofPlan, Arg.stage]
    rcases hrun : (varOperand name line).run s with ⟨err | op, s', c⟩
    · exact isPiece_of_error depth index _ err s' (withholds_varOperand name line hrun)
    · obtain ⟨⟨slot, hfind, rfl⟩, rfl, rfl⟩ := yields_varOperand.1 hrun
      exact ⟨[], [], rfl, .inSlot rfl hfind⟩
  | integer line value =>
    rw [Arg.ofPlan, Arg.stage]
    exact ⟨[], [], rfl, .number rfl⟩
  | element =>
    rw [Arg.ofPlan, Arg.stage]
    exact isPiece_of_error depth index _ _ s rfl
  -- All others are computed; a variable and a number are operands as they are, without code.
  | _ => exact isPiece_computed hdepth ht

/-- Arguments are staged one after the other; after a failure, those that follow have no code. -/
theorem pieces_stageAll {es : List Expr} (index : Nat) (hdepth : s.callDepth = depth + 1)
    (ht : ∀ e ∈ es, ∀ {ws t}, Plan.ofExpr false e = .ready ws t → t.StoresOnly Temp)
    {o : Outcome (List Operand)} (ho : (Arg.stageAll depth index (Arg.ofExprs es)).run s = o) :
    ∃ ops, Pieces depth o.state.scopes index es ops o.code ∧
      ∀ l, o.result = .ok l → ops = l.map some := by
  subst ho
  induction es generalizing index s with
  | nil =>
    rw [Arg.ofExprs, Arg.stageAll]
    exact ⟨[], .nil index, fun l h => Except.ok.inj h ▸ rfl⟩
  | cons e es ih =>
    obtain ⟨own, store, hcode, hpiece⟩ := isPiece_stage index hdepth (@ht e List.mem_cons_self)
    have hfollows := (Arg.orderly_stage depth index (.ofPlan e (Plan.ofExpr false e))).follows s
    rw [Arg.ofExprs, Arg.stageAll]
    rcases hstage : ((Arg.ofPlan e (Plan.ofExpr false e)).stage depth index).run s with
      ⟨err | op, s₁, c₁⟩
    all_goals
      rw [hstage] at hcode hpiece hfollows
      obtain rfl : c₁ = own ++ store := hcode
    -- an argument without an operand is the last one that has code
    · have hpieces := Pieces.cons hpiece (.nothing (index + 1) es)
      rw [run_bind_of_error _ hstage]
      exact ⟨_, by simpa using hpieces, fun l hl => by cases hl⟩
    · have hlater := (Arg.orderly_stageAll depth (index + 1) (Arg.ofExprs es)).follows s₁
      obtain ⟨ops, hpieces, hops⟩ := ih (index + 1) (hfollows.steady.callDepth.trans hdepth)
        fun e' he => @ht e' (List.mem_cons_of_mem e he)
      -- what has a slot by then keeps it while the other arguments are staged
      have hall := Pieces.cons (hpiece.of_grows hlater.steady.scopes) hpieces
      rw [run_bind_of_ok _ hstage, run_map]
      refine ⟨some op :: ops, by simpa [Except.toOption] using hall, fun l hl => ?_⟩
      rcases hrest : ((Arg.stageAll depth (index + 1) (Arg.ofExprs es)).run s₁).result with err | l'
      · rw [hrest] at hl
        cases hl
      · rw [hrest] at hl
        obtain rfl : op :: l' = l := Except.ok.inj hl
        rw [hops l' hrest]
        rfl

theorem stageStores_stageAll {es : List Expr} (index : Nat)
    (ht : ∀ e ∈ es, ∀ {ws t}, Plan.ofExpr false e = .ready ws t → t.StoresOnly Temp) :
    StageStores fun depth => Arg.stageAll depth index (Arg.ofExprs es) where
  settled := stageAll_settled fun e he _ _ h => (ht e he h).settled
  stores := by
    intro s s' ops c depth hdepth h
    obtain ⟨_, hpieces, -⟩ := pieces_stageAll index hdepth ht h
    exact hpieces.stores.mono fun x hx => hx.staged.temp

end

end Lowering

namespace Expr

/-- The code of an expression writes only temporaries of calls at the present depth or further in.
-/
theorem storesOnly_of_ready {e : Expr} {operand : Bool} {ws : List Warning} {t : Tree}
    (h : Plan.ofExpr operand e = .ready ws t) : t.StoresOnly Temp := by
  refine tree_induction (motive := fun _ _ t => t.StoresOnly Temp)
    ?var ?integer ?real ?call ?sign ?add ?mul e h
  case var | integer | real => intros; exact Tree.storesOnly_leaf ..
  -- The arguments of a call are one level further in, which `Temp` includes.
  case call => intro _ _ _ args ih; exact Tree.storesOnly_call (stageStores_stageAll 0 ih) ..
  case sign => intro _ line _ _ ih; exact ih.negated line
  case add =>
    intro _ line op _ _ _ _ hl hr
    exact hl.joined hr (fun _ => .divisor) (BinOp.computes_ofAddOp op) line
  case mul =>
    intro _ line op _ _ _ _ hl hr
    exact hl.joined hr (fun _ => .divisor) (BinOp.computes_ofMulOp op) line

/-- **Calls at different depths have temporaries of their own.** The arguments of a call at some
depth are staged one after the other. Success or failure, the code for each is the code of the
argument, which writes only the temporary for divisors and those of calls further in, and behind it
the store into the temporary of the argument; so that one is written once at most. What is staged
are numbers and slots. When a call has been made, or has failed to be, as many calls are under way
as before. -/
theorem stageAll_pieces (args : List Expr) {depth : Nat} {s : State}
    (hdepth : s.callDepth = depth + 1) (hlaid : s.scopes.Laid) {o : Outcome (List Operand)}
    (ho : (stageAll args depth).run s = o) :
    (∃ staged, Pieces depth o.state.scopes 0 args staged o.code ∧
      ∀ ops, o.result = .ok ops → staged = ops.map some) ∧
    Stores (CallTemp depth 0 args.length) o.state.scopes o.code ∧
    (∀ i slot, o.state.scopes.find? (argumentTemp depth i) = some slot →
      writeCount slot.operand o.code ≤ 1) ∧
    (∀ ops, o.result = .ok ops → ∀ op ∈ ops, (∃ v, op = .imm v) ∨ o.state.scopes.Slots op) ∧
    o.state.callDepth = s.callDepth ∧
    ∀ (callee : String) (count : Nat) (line : Line) (dest : Reg) (t : State),
      ((callRoutine callee count line (stageAll args)).run t).state.callDepth = t.callDepth ∧
      ((callValue callee count line dest (stageAll args)).run t).state.callDepth = t.callDepth := by
  -- how many calls are under way does not depend on success
  have horderly (depth : Nat) : (stageAll args depth).Orderly := Arg.orderly_stageAll depth 0 _
  have hfollows : s.Follows o.state := ho ▸ (horderly depth).follows s
  obtain ⟨staged, hpieces, hstaged⟩ :=
    pieces_stageAll 0 hdepth (fun _ _ _ _ => storesOnly_of_ready) ho
  refine ⟨⟨staged, hpieces, hstaged⟩, hpieces.stores, fun i slot hfind => ?_,
    fun ops hok op hop => ?_, hfollows.steady.callDepth, fun callee count line dest t => ⟨?_, ?_⟩⟩
  · exact hpieces.writeCount_le (hfollows.steady.scopes.laid hlaid) hfind
  · exact hpieces.operand (hstaged ops hok ▸ List.mem_map_of_mem hop)
  · exact ((orderly_callRoutine horderly).follows t).steady.callDepth
  · exact ((orderly_callValue horderly).follows t).steady.callDepth

/-! ### A call among the arguments of another

The arguments of `f(sqr(x + 1) + 2, y div 2, x)`, staged where one register is in use: the call of
`sqr` keeps that register and its own argument in temporaries of the next depth. -/

/-- Arguments of a call: one with a call in it, one with a division by a constant, and a variable.
-/
def nestedArguments : List Expr :=
  [.add 1 .plus (.call 1 "sqr" [.add 1 .plus (.var 1 "x") (.integer 1 1)]) (.integer 1 2),
    .mul 1 .div (.var 1 "y") (.integer 1 2), .var 1 "x"]

/-- The state while they are staged. -/
def oneCall : State := { midway with callDepth := 1 }

/-- What staging them leaves. -/
def nestedStaged : Outcome (List Operand) := (stageAll nestedArguments 0).run oneCall

theorem stageAll_pieces_nested :
    nestedStaged.result = .ok [.mem .rbp (-20), .mem .rbp (-28), .mem .rbp (-4)] ∧
    Pieces 0 nestedStaged.state.scopes 0 nestedArguments
      [some (.mem .rbp (-20)), some (.mem .rbp (-28)), some (.mem .rbp (-4))] nestedStaged.code ∧
    writeCount (.mem .rbp (-20)) nestedStaged.code ≤ 1 ∧ nestedStaged.state.callDepth = 1 := by
  have hlaid : oneCall.scopes.Laid := fun _ h => Option.some.inj h ▸ inBody_midway.laid
  have hfind : nestedStaged.state.scopes.find? (argumentTemp 0 0) =
      some ⟨"$arg0_0", 20, .temporary⟩ := by cbv
  have hone : oneCall.callDepth = 0 + 1 := rfl
  have hok : nestedStaged.result =
      .ok [.mem .rbp (-20), .mem .rbp (-28), .mem .rbp (-4)] := by cbv
  -- The theorem gives the pieces; that three operands come out is computed, `hok`.
  obtain ⟨⟨staged, hpieces, hstaged⟩, -, honce, -, hdepth, -⟩ :=
    stageAll_pieces nestedArguments hone hlaid (o := nestedStaged) rfl
  obtain rfl := hstaged _ hok
  exact ⟨hok, hpieces, honce 0 _ hfind, hdepth⟩

end Expr

end PascalAsm
