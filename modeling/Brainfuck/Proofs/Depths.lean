import Brainfuck.Compiler
import Brainfuck.Machine
import Brainfuck.Proofs.Firing

/-! Depths play no part. Every rule, at every instruction, does the same to a program as to the one
with all depths zero, but for the depths themselves; hence so do a pass and whole optimisation. The
machine does not look at depths at all. -/

namespace Brainfuck

/-- The instruction at depth zero. -/
def Instr.flat (i : Instr) : Instr := ⟨0, i.op⟩

@[simp] theorem Instr.op_flat (i : Instr) : i.flat.op = i.op := rfl

@[simp] theorem Instr.depth_flat (i : Instr) : i.flat.depth = 0 := rfl

@[simp] theorem Instr.flat_mk (depth : Int) (op : Op) : flat ⟨depth, op⟩ = ⟨0, op⟩ := rfl

@[simp] theorem Instr.flat_shift (distance : Int) (i : Instr) :
    (i.shift distance).flat = i.flat.shift distance := rfl

/-- The program with all depths zero. -/
def Program.flat (p : Program) : Program := p.map .flat

theorem Program.flat_cons (i : Instr) (p : Program) : flat (i :: p) = i.flat :: p.flat := rfl

theorem Program.flat_eq_iff {p q : Program} : p.flat = q.flat ↔ p.ops = q.ops := by
  have hflat (p : Program) : p.flat = p.ops.map (⟨0, ·⟩) := by simp [flat, ops, Instr.flat]
  rw [hflat, hflat]
  refine List.map_inj_right ?_
  intro a b h
  cases h
  rfl

/-! ### Rules -/

theorem MoveRules.flat_moveBy (depth distance : Int) :
    (moveBy depth distance).map .flat = moveBy 0 distance := by
  unfold moveBy
  cases Op.ofDisplacement distance <;> rfl

theorem StoreRules.flat_adjustBy (depth change offset : Int) :
    (adjustBy depth change offset).map .flat = adjustBy 0 change offset := by
  unfold adjustBy
  cases Op.ofChange change offset <;> rfl

theorem LoopRules.adjustments_flat (body : List Instr) :
    (body.map Instr.flat).mapM (·.op.adjustment?) = body.mapM (·.op.adjustment?) := by
  induction body with
  | nil => rfl
  | cons i rest ih => rw [List.map_cons, List.mapM_cons, List.mapM_cons, ih, Instr.op_flat]

/-- What replaces instructions at depth zero is what replaces the same operations at any depths, at
depth zero. -/
def Pattern.IgnoresDepth : Pattern → Prop
  | pair f => ∀ a b, f a.flat b.flat = (f a b).map (·.map .flat)
  | triple f => ∀ a b c, f a.flat b.flat c.flat = (f a b c).map (·.map .flat)
  | quadruple f => ∀ a b c d, f a.flat b.flat c.flat d.flat = (f a b c d).map (·.map .flat)
  | block f => ∀ a body last,
      f a.flat (body.map .flat) last.flat = (f a body last).map (·.map .flat)

theorem Rule.ignoresDepth (r : Rule) : r.pattern.IgnoresDepth := by
  cases r with
  | loopToOnce =>
    intro a body last
    simp only [LoopRules.toOnce?, Instr.op_flat, List.all_map, List.any_map, Function.comp_def]
    split <;> simp [*]
  | loopToTransfers =>
    intro a body last
    simp only [LoopRules.toTransfers?, Instr.op_flat, LoopRules.adjustments_flat]
    split
    · rfl
    · split <;> simp [*, Function.comp_def]
  | bracketedMove =>
    intro a b c
    simp only [MoveRules.bracketed?, Instr.op_flat]
    split
    · split <;> simp [*, MoveRules.flat_moveBy]
    · rfl
  | commuteAccess | commuteTransfer =>
    intro a b
    simp only [MoveRules.commuted?, Instr.op_flat]
    split
    · split <;> simp [*]
    · rfl
  | foldAddend | assignIncrease | assignAdjustment | sortStores | reorderWrite =>
    intro a b
    simp only [StoreRules.foldedAddend?, StoreRules.assignedIncrease?,
      StoreRules.assignedAdjustment?, StoreRules.sorted?, StoreRules.reorderedWrite?,
      Instr.op_flat]
    split
    · split <;> simp [*]
    · rfl
  | deadStore =>
    intro a b
    simp only [StoreRules.deadStore?, Instr.op_flat]
    split
    · split <;> simp [*]
    · split <;> simp [*]
    · rfl
  | combineAdjustments =>
    intro a b
    simp only [StoreRules.combined?, Instr.op_flat]
    split
    · split <;> simp [StoreRules.flat_adjustBy]
    · rfl
  | combineMoves =>
    intro a b
    simp only [MoveRules.combined?, Instr.op_flat]
    split
    · simp [MoveRules.flat_moveBy]
    · rfl
  | biasWrite =>
    intro a b c
    simp only [StoreRules.biasedWrite?, Instr.op_flat]
    split
    · split <;> simp [StoreRules.flat_adjustBy]
    · rfl
  | commuteSeekLoop =>
    intro a b c d
    simp only [MoveRules.seekLoop?, Instr.op_flat]
    split
    · simp
    · rfl

def Rewrite.flat (w : Rewrite) : Rewrite := ⟨w.size, w.items.map .flat⟩

theorem Program.splitAtClose_flat (p : List Instr) :
    splitAtClose (p.map .flat) = (splitAtClose p).map fun (body, last, after) =>
      (body.map .flat, last.flat, after.map .flat) := by
  induction p with
  | nil => rfl
  | cons i rest ih =>
    simp only [List.map_cons, splitAtClose, Instr.op_flat, ih]
    split
    · rfl
    · simp [Function.comp_def]

theorem Pattern.rewrite?_flat {pattern : Pattern} (h : pattern.IgnoresDepth) (p : List Instr) :
    pattern.rewrite? (p.map .flat) = (pattern.rewrite? p).map .flat := by
  cases pattern with
  | pair f =>
    rcases p with _ | ⟨a, _ | ⟨b, rest⟩⟩
    · rfl
    · rfl
    · simp [rewrite?, h a b, Function.comp_def, Rewrite.flat]
  | triple f =>
    rcases p with _ | ⟨a, _ | ⟨b, _ | ⟨c, rest⟩⟩⟩
    · rfl
    · rfl
    · rfl
    · simp [rewrite?, h a b c, Function.comp_def, Rewrite.flat]
  | quadruple f =>
    rcases p with _ | ⟨a, _ | ⟨b, _ | ⟨c, _ | ⟨d, rest⟩⟩⟩⟩
    · rfl
    · rfl
    · rfl
    · rfl
    · simp [rewrite?, h a b c d, Function.comp_def, Rewrite.flat]
  | block f =>
    cases p with
    | nil => rfl
    | cons a rest =>
      simp only [List.map_cons, rewrite?, Program.splitAtClose_flat]
      cases Program.splitAtClose rest with
      | none => rfl
      | some parts => simp [h a parts.1 parts.2.1, Function.comp_def, Rewrite.flat]

theorem Rule.endsInMove_flat (items : List Instr) :
    endsInMove (items.map .flat) = endsInMove items := by
  unfold endsInMove
  rw [List.getLast?_map]
  cases items.getLast? with
  | none => rfl
  | some i =>
    obtain ⟨depth, op⟩ := i
    cases op <;> rfl

/-! ### Passes -/

namespace Cursor

def flat (c : Cursor) : Cursor :=
  ⟨c.passed.map .flat, c.current.map .flat, c.ahead.map .flat, c.changed⟩

theorem applyAt?_flat (r : Rule) (c : Cursor) : r.applyAt? c.flat = (r.applyAt? c).map flat := by
  have hremaining : c.flat.remaining = c.remaining.map .flat := by simp [remaining, flat]
  simp only [Rule.applyAt?_eq, hremaining, Pattern.rewrite?_flat r.ignoresDepth]
  cases r.pattern.rewrite? c.remaining with
  | none => rfl
  | some w =>
    simp only [Option.map_some, Rewrite.flat, Rule.endsInMove_flat]
    split <;> simp [flat, replace, rewind, remaining, List.map_drop, List.map_take]

theorem rewrite_flat (c : Cursor) : c.flat.rewrite = c.rewrite.flat := by
  have hfirst : Rule.all.findSome? (·.applyAt? c.flat) =
      (Rule.all.findSome? (·.applyAt? c)).map flat := by
    simp [applyAt?_flat, List.map_findSome?, Function.comp_def]
  rw [rewrite, rewrite, hfirst]
  cases Rule.all.findSome? (·.applyAt? c) <;> rfl

theorem advance?_flat (c : Cursor) : c.flat.advance? = c.advance?.map flat := by
  obtain ⟨passed, current, ahead, changed⟩ := c
  cases ahead <;> simp [advance?, flat]

end Cursor

namespace Program

variable {p q : Program}

theorem pass_flat (p : Program) : p.flat.pass = (p.pass.1.flat, p.pass.2) := by
  have hstart : Cursor.ofProgram p.flat = (Cursor.ofProgram p).flat := rfl
  rw [pass, hstart, Cursor.finish_comm Cursor.advance?_flat Cursor.rewrite_flat]
  simp [pass, flat, Cursor.flat, Cursor.program, Cursor.remaining]

theorem pass_of_ops_eq (h : p.ops = q.ops) :
    p.pass.1.ops = q.pass.1.ops ∧ p.pass.2 = q.pass.2 := by
  have hpass : (p.pass.1.flat, p.pass.2) = (q.pass.1.flat, q.pass.2) := by
    rw [← pass_flat, ← pass_flat, flat_eq_iff.mpr h]
  injection hpass with hprogram hchanged
  exact ⟨flat_eq_iff.mp hprogram, hchanged⟩

theorem settleFrom_flat (done limit : Nat) (p : Program) :
    settleFrom done limit p.flat =
      (settleFrom done limit p).map fun s => ⟨s.program.flat, s.passes⟩ := by
  induction limit generalizing done p with
  | zero => rfl
  | succ limit ih =>
    rw [settleFrom, settleFrom, pass_flat]
    obtain ⟨next, changed⟩ := p.pass
    cases changed with
    | false => rfl
    | true => exact ih (done + 1) next

end Program

theorem Options.optimize_flat (o : Options) (p : Program) :
    o.optimize p.flat = (o.optimize p).map fun r => ⟨r.program.flat, r.passes⟩ := by
  have hlimit : p.flat.passLimit = p.passLimit := by simp [Program.passLimit, Program.flat]
  simp only [optimize, hlimit, Program.settle?, Program.settleFrom_flat]
  split
  · cases Program.settleFrom 0 (o.maxPasses.getD p.passLimit).toNat p <;> rfl
  · rfl

theorem Options.optimize_of_ops_eq (o : Options) {p q : Program} (h : p.ops = q.ops) :
    (∃ e, o.optimize p = .error e ∧ o.optimize q = .error e) ∨
      ∃ r s, o.optimize p = .ok r ∧ o.optimize q = .ok s ∧ r.program.ops = s.program.ops ∧
        r.passes = s.passes := by
  have hsame := o.optimize_flat p
  rw [Program.flat_eq_iff.mpr h, o.optimize_flat q] at hsame
  cases hp : o.optimize p with
  | error e =>
    cases hq : o.optimize q with
    | error e' =>
      rw [hp, hq] at hsame
      cases hsame
      exact .inl ⟨e, rfl, rfl⟩
    | ok s =>
      rw [hp, hq] at hsame
      contradiction
  | ok r =>
    cases hq : o.optimize q with
    | error e =>
      rw [hp, hq] at hsame
      contradiction
    | ok s =>
      rw [hp, hq] at hsame
      injection hsame with hsame
      injection hsame with hprogram hpasses
      exact .inr ⟨r, s, rfl, rfl, Program.flat_eq_iff.mp hprogram.symm, hpasses.symm⟩

/-! ### Execution -/

theorem Jumps.extend_flat (table : Jumps) (opened : List Nat) (position : Nat) (p : Program) :
    extend table opened position p.flat = extend table opened position p := by
  induction p generalizing table opened position with
  | nil => rfl
  | cons i rest ih =>
    rw [Program.flat_cons]
    by_cases hop : i.op = .close
    · obtain ⟨depth, op⟩ := i
      cases hop
      cases opened with
      | nil => rfl
      | cons start outer => exact ih _ outer (position + 1)
    · rw [extend_cons hop, extend_cons (i := i.flat) hop, ih]
      rfl

namespace Machine.Code

variable {m : Int}

def flat (code : Code) : Code := ⟨code.instrs.map .flat, code.jumps⟩

theorem ofProgram_flat (p : Program) : ofProgram p.flat = (ofProgram p).map flat := by
  rw [ofProgram, ofProgram, Jumps.ofProgram, Jumps.extend_flat]
  cases h : Jumps.extend ∅ [] 0 p with
  | error e => simp [Jumps.ofProgram, h, Except.map]
  | ok table => simp [Jumps.ofProgram, h, Except.map, flat, Program.flat]

theorem isLoop_flat (code : Code) (pc : Nat) : code.flat.isLoop pc = code.isLoop pc := by
  simp only [isLoop, flat, Array.getElem?_map]
  cases code.instrs[pc]? with
  | none => rfl
  | some i =>
    obtain ⟨depth, op⟩ := i
    cases op <;> rfl

theorem next_flat (code : Code) (pc : Nat) (s : State m) (op : Op) :
    code.flat.next pc s op = code.next pc s op := by
  have hpartner : code.flat.partner pc = code.partner pc := rfl
  cases op <;> simp only [next, hpartner, isLoop_flat]

theorem run_flat (code : Code) (steps pc : Nat) (s : State m) :
    code.flat.run steps pc s = code.run steps pc s := by
  induction steps generalizing pc s with
  | zero =>
    unfold run
    simp only [flat, Array.getElem?_map]
    cases code.instrs[pc]? <;> rfl
  | succ steps ih =>
    unfold run
    simp only [next_flat, ih]
    simp only [flat, Array.getElem?_map]
    cases code.instrs[pc]? <;> rfl

end Machine.Code

theorem Program.run_flat {m : Int} (p : Program) (steps : Nat) (s : Machine.State m) :
    p.flat.run steps s = p.run steps s := by
  unfold run
  rw [Machine.Code.ofProgram_flat]
  cases Machine.Code.ofProgram p with
  | error e => rfl
  | ok code => exact congrArg Except.ok (code.run_flat steps 0 s.mark)

theorem Program.run_of_ops_eq {m : Int} {p q : Program} (h : p.ops = q.ops) (steps : Nat)
    (s : Machine.State m) : p.run steps s = q.run steps s := by
  rw [← run_flat p, flat_eq_iff.mpr h, run_flat]

end Brainfuck
