import PascalAsm.Proofs.Failures.Basic

/-!
# What every run keeps of the register pool

A pool has a stack of free registers and two counts, and nothing but its operations ties them to one
another. Parking the pool around a call goes past the counts on purpose. So what `balance` says,
which compares the counts with those of a checkpoint, is right only along runs of a certain form,
and this is about those: every operation may come at any time and may fail; a checkpoint may be
taken at any time; and the pool may be parked and put back any number of times, one bracket inside
another, if within each bracket as many registers are handed out as are taken back.

* **`PoolRun`** — the states of such runs, with the checkpoints of the present stretch and the
  brackets that are open.
* **`Pool.Moves`** — what one step does: the stack grows or shrinks by as much as the counts say.
  Putting the pool back is such a step too, from the pool that was parked.
* **`PoolRun.accounts`** — the result: no register is lost or free twice, the counts agree with the
  stack outside brackets, a failed operation changes nothing, and `balance` is neither fooled nor
  alarmed without a reason.
-/

namespace PascalAsm.Lowering

open Assembly Gen

/-! ## Moves -/

namespace Pool

/-- Other registers of the pool are free, each once, and the counts account for the difference. -/
def Moves (p q : Pool) : Prop :=
  ∃ free taken given, free.Nodup ∧ free ⊆ p.members ∧
    free.length + taken = p.free.length + given ∧ q = p.moved free taken given

namespace Moves

variable {p q : Pool}

theorem manages {pooled : List Reg} (h : p.Moves q) (hp : p.Manages pooled) : q.Manages pooled := by
  obtain ⟨free, taken, given, hnodup, hsubset, -, rfl⟩ := h
  exact hp.moved hnodup (hp.members ▸ hsubset) taken given

theorem allocations_le (h : p.Moves q) : p.allocations ≤ q.allocations := by
  obtain ⟨free, taken, given, -, -, -, rfl⟩ := h
  exact Nat.le_add_right ..

theorem frees_le (h : p.Moves q) : p.frees ≤ q.frees := by
  obtain ⟨free, taken, given, -, -, -, rfl⟩ := h
  exact Nat.le_add_right ..

end Moves

/-- A pool that is put back has moved on from the one that was parked. Order and number of the free
registers are those of before. -/
theorem Restored.moves {p q : Pool} (h : p.Restored q) (hp : p.Sound) : p.Moves q := by
  obtain ⟨n, rfl⟩ := h
  exact ⟨p.free, n, n, hp.nodup, hp.subset, rfl, rfl⟩

/-- The registers that are handed out and those that are free are the members, each once. -/
theorem Sound.held_append_free {p : Pool} (h : p.Sound) : (p.held ++ p.free).Perm p.members := by
  -- The members are split by whether they are free; by `h.nodup` the free ones are the same set.
  have hfree : (p.members.filter (· ∈ p.free)).Perm p.free := by
    rw [List.perm_ext_iff_of_nodup (h.nodup_members.filter _) h.nodup]
    intro r
    rw [List.mem_filter, decide_eq_true_eq]
    exact ⟨And.right, fun hr => ⟨h.subset hr, hr⟩⟩
  have hsplit := List.filter_append_perm (fun r => decide (r ∈ p.free)) p.members
  have hheld : p.held = p.members.filter fun r => !decide (r ∈ p.free) := by
    simp only [held, decide_not]
  rw [hheld]
  exact List.perm_append_comm.trans ((hfree.symm.append_right _).trans hsplit)

theorem balance_eq_ok_iff {p : Pool} {since : Checkpoint} {held : Nat} :
    p.balance since held = .ok () ↔
      p.allocations - since.allocations = p.frees - since.frees + held ∧
        (held = 0 → p.free = since.free) := by
  simp only [balance]
  split <;> simp_all

end Pool

/-! ## Checkpoints -/

namespace Checkpoint

/-- The checkpoint is behind the pool: since then the counts have only grown, and they account for
the registers that are free no longer, or again. -/
structure Precedes (c : Checkpoint) (p : Pool) : Prop where
  allocations : c.allocations ≤ p.allocations
  frees : c.frees ≤ p.frees
  counted : p.allocations + c.frees + p.free.length = c.allocations + p.frees + c.free.length

theorem precedes_checkpoint (p : Pool) : p.checkpoint.Precedes p :=
  ⟨Nat.le_refl _, Nat.le_refl _, rfl⟩

namespace Precedes

variable {c : Checkpoint} {p q : Pool}

theorem moves (h : c.Precedes p) (hq : p.Moves q) : c.Precedes q := by
  obtain ⟨hallocations, hfrees, hcounted⟩ := h
  refine ⟨Nat.le_trans hallocations hq.allocations_le, Nat.le_trans hfrees hq.frees_le, ?_⟩
  obtain ⟨free, taken, given, -, -, hlength, rfl⟩ := hq
  show p.allocations + taken + c.frees + free.length =
    c.allocations + (p.frees + given) + c.free.length
  omega

/-- That nothing is held is believed exactly if the stack is as it was. The counters alone would not
tell an exchange of two registers. -/
theorem balance_zero_iff (h : c.Precedes p) : p.balance c 0 = .ok () ↔ p.free = c.free := by
  obtain ⟨hallocations, hfrees, hcounted⟩ := h
  rw [Pool.balance_eq_ok_iff]
  constructor
  · rintro ⟨-, hfree⟩
    exact hfree rfl
  · intro hfree
    -- stacks that are the same have the same height, so the counts have grown by the same
    rw [hfree] at hcounted
    exact ⟨by omega, fun _ => hfree⟩

/-- That some registers are held is believed exactly if so many fewer are free. Which ones they are
is not asked, nor in which order the others are. -/
theorem balance_iff (h : c.Precedes p) {held : Nat} (hheld : 0 < held) :
    p.balance c held = .ok () ↔ p.free.length + held = c.free.length := by
  obtain ⟨hallocations, hfrees, hcounted⟩ := h
  rw [Pool.balance_eq_ok_iff]
  constructor
  · rintro ⟨hcounts, -⟩
    omega
  · intro hlength
    exact ⟨by omega, by omega⟩

end Precedes

end Checkpoint

/-! ## Operations -/

/-- What can be asked of the pool. -/
inductive PoolOp where
  /-- The top register is taken. -/
  | allocate
  /-- One particular register is taken. -/
  | take (r : Reg)
  /-- A register is put back on top. -/
  | give (r : Reg)
  /-- The two topmost registers are exchanged. -/
  | swap

/-- Asks it of the pool of the generator. -/
def PoolOp.carryOut : PoolOp → Gen Unit
  | .allocate => do
    let _ ← Gen.allocate
    return ()
  | .take r => changePool (·.take r)
  | .give r => Gen.free r
  | .swap => swapTop

namespace PoolOp

variable {s s' : State} {e : LoweringError} {u : Unit} {c : List Inst}

/-- An operation that fails leaves everything as it was. So a run can go on after a failure, as if
nothing had been asked. -/
theorem eq_of_fails {op : PoolOp} (h : op.carryOut.Fails s e s') : s' = s := by
  cases op with
  | allocate =>
    rcases fails_bind.1 h with h | ⟨_, _, _, -, _, hpure⟩
    · exact (fails_onPool.1 h).2
    · cases hpure
  | take r | give r | swap =>
    simp only [carryOut, Gen.free, swapTop, changePool] at h
    exact (fails_onPool.1 h).2

theorem moves_of_yields {op : PoolOp} (hp : s.pool.Sound) (h : op.carryOut.Yields s u s' c) :
    ∃ q, s.pool.Moves q ∧ s' = s.withPool q := by
  have hnodup := hp.nodup
  have hsubset := hp.subset
  -- each operation rearranges the free registers and counts what it moved
  cases op with
  | allocate =>
    obtain ⟨r, s₁, _, _, hallocate, hpure, -⟩ := yields_bind.1 h
    obtain ⟨-, rfl, -⟩ := yields_pure.1 hpure
    obtain ⟨rest, hfree, rfl, -⟩ := yields_allocate.1 hallocate
    rw [hfree] at hnodup hsubset
    have hrest : rest ⊆ s.pool.members := fun q hq => hsubset (List.mem_cons_of_mem r hq)
    refine ⟨_, ⟨rest, 1, 0, hnodup.of_cons, hrest, ?_, rfl⟩, rfl⟩
    rw [hfree, List.length_cons]
  | take r =>
    obtain ⟨q, htake, rfl, -⟩ := yields_changePool.1 h
    obtain ⟨-, hr, rfl⟩ := take_eq_ok_iff.1 htake
    have hrest : s.pool.free.erase r ⊆ s.pool.members := fun q hq =>
      hsubset (List.mem_of_mem_erase hq)
    refine ⟨_, ⟨_, 1, 0, hnodup.erase r, hrest, ?_, rfl⟩, rfl⟩
    have hpos := List.length_pos_of_mem hr
    rw [List.length_erase_of_mem hr]
    omega
  | give r =>
    obtain ⟨hmember, hbusy, rfl, -⟩ := yields_free.1 h
    refine ⟨_, ⟨_, 0, 1, List.nodup_cons.2 ⟨hbusy, hnodup⟩, ?_, by rw [List.length_cons], rfl⟩, rfl⟩
    exact List.cons_subset.2 ⟨hmember, hsubset⟩
  | swap =>
    obtain ⟨a, b, rest, hfree, rfl, -⟩ := yields_swapTop.1 h
    rw [hfree] at hnodup hsubset
    have hswap : (b :: a :: rest).Perm (a :: b :: rest) := .swap ..
    have hswapped : b :: a :: rest ⊆ s.pool.members := fun q hq => hsubset (hswap.subset hq)
    refine ⟨_, ⟨_, 0, 0, hswap.nodup_iff.2 hnodup, hswapped, ?_, rfl⟩, rfl⟩
    rw [hfree, hswap.length_eq]

/-- An operation moves the pool on, or it fails and the pool stays. -/
theorem moves (op : PoolOp) (hp : s.pool.Sound) :
    ∃ q, s.pool.Moves q ∧ (op.carryOut.run s).state = s.withPool q := by
  rcases hrun : op.carryOut.run s with ⟨e | u, s', c⟩
  · obtain rfl : s' = s := eq_of_fails ⟨c, hrun⟩
    exact ⟨s'.pool, (Pool.Restored.refl _).moves hp, rfl⟩
  · exact moves_of_yields hp hrun

end PoolOp

/-! ## Runs -/

/-- A bracket that is open. Brackets nest, and only the innermost one can be closed. -/
structure Bracket where
  /-- The pool as it was before. -/
  parked : Pool
  /-- The checkpoints that were taken around the bracket, in the stretch that it interrupts. -/
  checkpoints : List Checkpoint

/-- The states that a run leads to from a pool, with the checkpoints that were taken inside the same
innermost bracket (or outside all of them) and the brackets that are open, innermost first. -/
inductive PoolRun (start : Pool) : State → List Checkpoint → List Bracket → Prop
  | start {s : State} (h : s.pool = start) : PoolRun start s [] []
  /-- An operation is carried out; it may fail. -/
  | step {s : State} {taken : List Checkpoint} {brackets : List Bracket} (op : PoolOp)
    (h : PoolRun start s taken brackets) : PoolRun start (op.carryOut.run s).state taken brackets
  /-- A checkpoint is taken. -/
  | checkpoint {s : State} {taken : List Checkpoint} {brackets : List Bracket}
    (h : PoolRun start s taken brackets) : PoolRun start s (s.pool.checkpoint :: taken) brackets
  /-- The pool is parked and all of its registers are free. -/
  | opened {s : State} {taken : List Checkpoint} {brackets : List Bracket}
    (h : PoolRun start s taken brackets) :
    PoolRun start (s.withPool s.pool.reset) [] (⟨s.pool, taken⟩ :: brackets)
  /-- The free registers of the parked pool are put back, after as many registers were handed out as
  were taken back. -/
  | closed {s : State} {taken : List Checkpoint} {bracket : Bracket} {brackets : List Bracket}
    (h : PoolRun start s taken (bracket :: brackets))
    (heven : s.pool.allocations - bracket.parked.allocations = s.pool.frees - bracket.parked.frees) :
    PoolRun start (s.withPool (s.pool.restore bracket.parked.free)) bracket.checkpoints brackets

/-- The pool and its checkpoints agree, those that are parked do too, and the counts have only grown
since they were parked. Outside all brackets the start counts as a checkpoint. -/
def Accounted (start : Pool) : Pool → List Checkpoint → List Bracket → Prop
  | p, taken, [] => p.Manages start.members ∧ ∀ c ∈ start.checkpoint :: taken, c.Precedes p
  | p, taken, bracket :: brackets => (p.Manages start.members ∧ ∀ c ∈ taken, c.Precedes p) ∧
    bracket.parked.allocations ≤ p.allocations ∧ bracket.parked.frees ≤ p.frees ∧
    Accounted start bracket.parked bracket.checkpoints brackets

namespace Accounted

variable {start p q : Pool} {taken : List Checkpoint} {bracket : Bracket} {brackets : List Bracket}

theorem manages (h : Accounted start p taken brackets) : p.Manages start.members := by
  cases brackets with
  | nil => exact h.1
  | cons => exact h.1.1

theorem precedes (h : Accounted start p taken brackets) {c : Checkpoint} (hc : c ∈ taken) :
    c.Precedes p := by
  cases brackets with
  | nil => exact h.2 c (List.mem_cons_of_mem _ hc)
  | cons => exact h.1.2 c hc

theorem moves (h : Accounted start p taken brackets) (hq : p.Moves q) :
    Accounted start q taken brackets := by
  -- Only the innermost bracket watches the counters, and a move only lets them grow.
  cases brackets with
  | nil =>
    obtain ⟨hmanages, hprecedes⟩ := h
    exact ⟨hq.manages hmanages, fun c hc => (hprecedes c hc).moves hq⟩
  | cons =>
    obtain ⟨⟨hmanages, hprecedes⟩, hallocations, hfrees, hparked⟩ := h
    refine ⟨⟨hq.manages hmanages, fun c hc => (hprecedes c hc).moves hq⟩, ?_, ?_, hparked⟩
    · exact Nat.le_trans hallocations hq.allocations_le
    · exact Nat.le_trans hfrees hq.frees_le

theorem checkpoint (h : Accounted start p taken brackets) :
    Accounted start p (p.checkpoint :: taken) brackets := by
  have hnow := Checkpoint.precedes_checkpoint p
  -- The new checkpoint precedes the pool because it was just made of it, `hnow`.
  cases brackets with
  | nil =>
    obtain ⟨hmanages, hprecedes⟩ := h
    obtain ⟨hstart, htaken⟩ := List.forall_mem_cons.1 hprecedes
    exact ⟨hmanages, List.forall_mem_cons.2 ⟨hstart, List.forall_mem_cons.2 ⟨hnow, htaken⟩⟩⟩
  | cons =>
    obtain ⟨⟨hmanages, hprecedes⟩, hrest⟩ := h
    exact ⟨⟨hmanages, List.forall_mem_cons.2 ⟨hnow, hprecedes⟩⟩, hrest⟩

/-- Inside a new bracket no checkpoint has been taken yet, so nothing is asked of the counts. -/
theorem opened (h : Accounted start p taken brackets) :
    Accounted start p.reset [] (⟨p, taken⟩ :: brackets) :=
  ⟨⟨h.manages.reset, by simp⟩, Nat.le_refl _, Nat.le_refl _, h⟩

/-- Seen from the parked pool, the bracket has only moved both counts on by the same. -/
theorem closed (h : Accounted start p taken (bracket :: brackets))
    (heven : p.allocations - bracket.parked.allocations = p.frees - bracket.parked.frees) :
    Accounted start (p.restore bracket.parked.free) bracket.checkpoints brackets := by
  -- what is known of the checkpoints in the bracket is not needed any more
  obtain ⟨⟨hmanages, -⟩, hallocations, hfrees, hparked⟩ := h
  have hrestored : bracket.parked.Restored (p.restore bracket.parked.free) := by
    refine ⟨p.allocations - bracket.parked.allocations, ?_⟩
    obtain ⟨members, free, allocations, frees⟩ := p
    have hmembers : members = bracket.parked.members :=
      hmanages.members.trans hparked.manages.members.symm
    simp only at hallocations hfrees heven
    simp only [Pool.restore, Pool.moved, Pool.mk.injEq, true_and]
    exact ⟨hmembers, by omega, by omega⟩
  exact hparked.moves (hrestored.moves hparked.manages.sound)

end Accounted

/-- The pools of two and of three registers start with everything accounted for. The counters are
zero, and no register is missing. -/
theorem accounted_ofSize {registers : Nat} {start : Pool} (h : Pool.ofSize registers = .ok start) :
    Accounted start start [] [] := by
  have hnow := Checkpoint.precedes_checkpoint start
  obtain ⟨-, rfl⟩ | ⟨-, rfl⟩ := Pool.ofSize_eq_ok_iff.1 h
  · exact ⟨⟨⟨.inl rfl, by decide, by decide⟩, rfl⟩, by simpa using hnow⟩
  · exact ⟨⟨⟨.inr rfl, by decide, by decide⟩, rfl⟩, by simpa using hnow⟩

namespace PoolRun

variable {start : Pool} {s : State} {taken : List Checkpoint} {brackets : List Bracket}

/-- Each step keeps the accounts. By induction on the run. -/
theorem accounted (hstart : Accounted start start [] []) (h : PoolRun start s taken brackets) :
    Accounted start s.pool taken brackets := by
  -- One lemma for each kind of step: `moves`, `checkpoint`, `opened` and `closed`.
  induction h with
  | start h => rwa [h]
  | step op _ ih =>
    obtain ⟨q, hmoves, hstate⟩ := op.moves ih.manages.sound
    rw [hstate]
    exact ih.moves hmoves
  | checkpoint _ ih => exact ih.checkpoint
  | opened _ ih => exact ih.opened
  | closed _ heven ih => exact ih.closed heven

/-- **The pool along every run.** The free registers are members, none of them twice, and with those
that are handed out they make up the members. Outside all brackets the counts differ by the number
of registers that are handed out. An operation that fails leaves the state as it was. And for every
checkpoint of the present stretch, that nothing is held since then is believed exactly if the free
registers are those of then in the same order, and that some are held exactly if so many fewer are
free. -/
theorem accounts {registers : Nat} (hstart : Pool.ofSize registers = .ok start)
    (h : PoolRun start s taken brackets) :
    s.pool.members = start.members ∧ s.pool.free.Nodup ∧ s.pool.free ⊆ s.pool.members ∧
      (s.pool.held ++ s.pool.free).Nodup ∧ (s.pool.held ++ s.pool.free).Perm s.pool.members ∧
      (brackets = [] →
        s.pool.allocations = s.pool.frees + (s.pool.capacity - s.pool.free.length)) ∧
      (∀ (op : PoolOp) (e : LoweringError), (op.carryOut.run s).result = .error e →
        (op.carryOut.run s).state = s) ∧
      ∀ c ∈ taken, (s.pool.balance c 0 = .ok () ↔ s.pool.free = c.free) ∧
        ∀ held, 0 < held → (s.pool.balance c held = .ok () ↔
          s.pool.free.length + held = c.free.length) := by
  have hfirst := accounted_ofSize hstart
  have haccounted := h.accounted hfirst
  have hsound := haccounted.manages.sound
  have hperm := hsound.held_append_free
  have hmembers : s.pool.members.Nodup := by
    have hreset := hsound.reset.nodup
    exact hreset
  refine ⟨haccounted.manages.members, hsound.nodup, hsound.subset, hperm.nodup_iff.2 hmembers, hperm,
    ?_, ?_, ?_⟩
  · rintro rfl
    -- the start is a checkpoint at which every register was free and nothing had been counted
    have hcounted := (haccounted.2 _ List.mem_cons_self).counted
    have hlength := hperm.length_eq
    rw [List.length_append] at hlength
    have hnew : start.allocations = 0 ∧ start.frees = 0 ∧ start.free = start.members := by
      obtain ⟨-, rfl⟩ | ⟨-, rfl⟩ := Pool.ofSize_eq_ok_iff.1 hstart <;> exact ⟨rfl, rfl, rfl⟩
    obtain ⟨ha, hf, hfree⟩ := hnew
    simp only [Pool.checkpoint, ha, hf, hfree, ← haccounted.manages.members] at hcounted
    rw [Pool.capacity]
    omega
  · intro op e hresult
    rcases hrun : op.carryOut.run s with ⟨e' | u, s', c⟩
    · exact PoolOp.eq_of_fails ⟨c, hrun⟩
    · rw [hrun] at hresult
      cases hresult
  · intro c hc
    have hprecedes := haccounted.precedes hc
    exact ⟨hprecedes.balance_zero_iff, fun held hheld => hprecedes.balance_iff hheld⟩

/-- A register is taken. In a bracket it is given back although it is free there, which fails, and
is taken and given back. After the bracket the other register is taken, and then there is none. -/
theorem accounts_twoRegisters : ∃ s, PoolRun (.ofRegs [.rdi, .rsi]) s [⟨1, 0, [.rsi]⟩] [] ∧
    s.pool.allocations = s.pool.frees + 2 ∧ (PoolOp.allocate.carryOut.run s).state = s ∧
    s.pool.balance ⟨1, 0, [.rsi]⟩ 1 = .ok () ∧ s.pool.balance ⟨1, 0, [.rsi]⟩ 0 ≠ .ok () := by
  have hstart : Pool.ofSize 2 = .ok (.ofRegs [.rdi, .rsi]) := rfl
  -- The checkpoint comes after the first register and before the bracket.
  have hopened := PoolRun.start (s := { pool := .ofRegs [.rdi, .rsi] }) rfl
    |>.step .allocate |>.checkpoint |>.opened
  have hinside := hopened.step (.give .rdi) |>.step .allocate |>.step (.give .rdi)
  have hrun := (hinside.closed rfl).step .allocate
  obtain ⟨-, -, -, -, -, hcounts, hfails, hbalance⟩ := accounts hstart hrun
  obtain ⟨hzero, hone⟩ := hbalance ⟨1, 0, [.rsi]⟩ List.mem_cons_self
  refine ⟨_, hrun, hcounts rfl, hfails .allocate _ rfl, (hone 1 (by decide)).2 rfl, ?_⟩
  intro hnone
  exact absurd (hzero.1 hnone) (by decide)

end PoolRun

end PascalAsm.Lowering
