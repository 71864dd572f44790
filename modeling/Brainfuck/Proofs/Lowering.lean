import Brainfuck.Proofs.Simulation

/-! Lowering, one character at a time. `Op.ofChars` gives every command an operation of its own, and
the operations that `Op.ofText` reads, which join runs of commands, do the same and are of the same
kinds. The brackets of a text are well nested if and only if its operations have matching blocks. -/

namespace Brainfuck

open Machine

variable {m : Int}

theorem Direction.displacement_add (way : Direction) (a b : Int) :
    way.displacement (a + b) = way.displacement a + way.displacement b := by
  cases way with
  | left => exact Int.neg_add
  | right => rfl

theorem Sign.change_add (sign : Sign) (a b : Int) :
    sign.change (a + b) = sign.change a + sign.change b := by
  cases sign with
  | plus => rfl
  | minus => exact Int.neg_add

namespace Op

/-- What an operation is about, its amounts and cells apart. -/
inductive Kind where
  | move
  | adjust
  | assign
  | read
  | write
  | transfer
  | dump
  /-- Opens or ends a block. -/
  | block
  deriving DecidableEq, Repr

def kind : Op → Kind
  | move .. => .move
  | adjust .. => .adjust
  | assign .. => .assign
  | read _ => .read
  | write .. => .write
  | addScaled .. | addTo .. | copy .. => .transfer
  | dump => .dump
  | loop _ | once | close => .block

/-- The operation that a character stands for on its own. -/
def ofChar? : Char → Option Op
  | '<' => some (move .left 1)
  | '>' => some (move .right 1)
  | '+' => some (adjust .plus 1 0)
  | '-' => some (adjust .minus 1 0)
  | '0' => some (assign 0 0)
  | '.' => some (write 0 0)
  | ',' => some (read 0)
  | '[' => some (loop 0)
  | ']' => some close
  | '#' => some dump
  | _ => none

/-- The operations of the characters, one by one. -/
def ofChars (text : List Char) : List Op := text.filterMap ofChar?

theorem ofChars_append (xs ys : List Char) : ofChars (xs ++ ys) = ofChars xs ++ ofChars ys :=
  List.filterMap_append

/-- All blocks of a text are loops on the current cell. -/
theorem eq_loop_of_mem_ofChars {op : Op} {text : List Char} (h : op ∈ ofChars text)
    (hop : op.isOpener = true) : op = loop 0 := by
  obtain ⟨c, _, hc⟩ := List.mem_filterMap.mp h
  unfold ofChar? at hc
  grind [isOpener]

theorem ofChars_cons {c : Char} {op : Op} (hc : ofChar? c = some op) (rest : List Char) :
    ofChars (c :: rest) = op :: ofChars rest := List.filterMap_cons_some hc

theorem ofChars_run {c : Char} {op : Op} (hc : ofChar? c = some op) (rest : List Char) :
    ofChars rest =
      List.replicate (Source.runLength c rest) op ++ ofChars (Source.dropRun c rest) := by
  induction rest with
  | nil => rfl
  | cons d rest ih =>
    by_cases hd : d = c
    · subst hd
      rw [ofChars_cons hc, ih]
      simp [Source.runLength, Source.dropRun, List.replicate_succ]
    · simp [Source.runLength, Source.dropRun, hd]

theorem actAll_replicate_move (way : Direction) (n : Nat) (w : Observed m) :
    actAll (List.replicate n (move way 1)) w = w.move (way.displacement n) := by
  induction n generalizing w with
  | zero => cases way <;> simp [Direction.displacement, Observed.move, Tape.move_zero]
  | succ n ih =>
    rw [List.replicate_succ, actAll_cons, ih, act_move, Int.natCast_succ, Int.add_comm,
      Direction.displacement_add]
    simp only [Observed.move, Tape.move_move]

theorem actAll_replicate_adjust (sign : Sign) (n : Nat) (w : Observed m) :
    actAll (List.replicate n (adjust sign 1 0)) w =
      { w with tape := w.tape.put 0 (w.tape.cell 0 + sign.change n) } := by
  induction n generalizing w with
  | zero => cases sign <;> simp [Sign.change, Tape.put_eq_self]
  | succ n ih =>
    rw [List.replicate_succ, actAll_cons, ih, act_adjust, Tape.put_cell_add, Int.natCast_succ,
      Int.add_comm n, Sign.change_add, Int.add_assoc]

theorem alike_moves (way : Direction) (n : Nat) :
    Alike [move way n] (List.replicate n (move way 1)) :=
  ⟨by simp, by simp [List.mem_replicate], fun w => by simp [actAll_replicate_move]⟩

theorem alike_adjusts (sign : Sign) (n : Nat) :
    Alike [adjust sign n 0] (List.replicate n (adjust sign 1 0)) :=
  ⟨by simp, by simp [List.mem_replicate], fun w => by simp [actAll_replicate_adjust]⟩

theorem alike_assigns (sign : Sign) (n : Nat) :
    Alike [assign (sign.change n) 0] (assign 0 0 :: List.replicate n (adjust sign 1 0)) := by
  refine ⟨by simp, by simp [List.mem_replicate], fun w => ?_⟩
  simp only [actAll_cons, actAll_nil, actAll_replicate_adjust, act_assign, Tape.put_cell_add,
    Int.zero_add]

/-- Each of the two lists may stand for the other. -/
def Interchangeable (xs ys : List Op) : Prop := Replaces xs ys ∧ Replaces ys xs

theorem Alike.interchangeable {xs ys : List Op} (h : Alike xs ys) : Interchangeable xs ys :=
  ⟨h.replaces, h.symm.replaces⟩

namespace Interchangeable

variable {xs xs' ys ys' : List Op}

theorem refl (xs : List Op) : Interchangeable xs xs := ⟨.refl xs, .refl xs⟩

theorem append (h : Interchangeable xs ys) (h' : Interchangeable xs' ys') :
    Interchangeable (xs ++ xs') (ys ++ ys') :=
  ⟨h.1.append h'.1, h.2.append h'.2⟩

end Interchangeable

/-- Straight operations give way to others that act alike and are of no other kinds. -/
structure Condenses (xs ys : List Op) : Prop extends Alike xs ys where
  kinds : ys.map kind ⊆ xs.map kind

theorem Condenses.exists_kind_eq {xs ys : List Op} (h : Condenses xs ys) {op : Op}
    (hop : op ∈ ys) : ∃ op' ∈ xs, op'.kind = op.kind :=
  List.mem_map.mp (h.kinds (List.mem_map_of_mem hop))

/-- Stretches of operations are condensed, and the others stay. -/
inductive CondensesTo : List Op → List Op → Prop
  | nil : CondensesTo [] []
  | keep (op : Op) {xs ys : List Op} (rest : CondensesTo xs ys) : CondensesTo (op :: xs) (op :: ys)
  | condense {xs ys xs' ys' : List Op} (h : Condenses xs ys) (rest : CondensesTo xs' ys') :
      CondensesTo (xs ++ xs') (ys ++ ys')

/-- A run of a command, read as one operation. -/
theorem CondensesTo.run (start : List Op) {c : Char} {op whole : Op} {rest : List Char}
    {ys : List Op} (hc : ofChar? c = some op)
    (h : Alike [whole] (start ++ List.replicate (Source.runLength c rest + 1) op))
    (hkind : whole.kind ∈ (start ++ [op]).map kind)
    (h' : CondensesTo (ofChars (Source.dropRun c rest)) ys) :
    CondensesTo (start ++ ofChars (c :: rest)) (whole :: ys) := by
  rw [ofChars_cons hc, ofChars_run hc rest, ← List.cons_append, ← List.replicate_succ,
    ← List.append_assoc]
  refine .condense ⟨h.symm, ?_⟩ h'
  simpa using hkind

theorem condensesTo_ofText (text : List Char) : CondensesTo (ofChars text) (ofText text) := by
  fun_induction ofText text with
  | case1 => exact .nil
  | case2 rest ih | case3 rest ih => exact .run [] rfl (alike_moves _ _) (by simp [kind]) ih
  | case4 rest ih => exact .run [] rfl (alike_adjusts .plus _) (by simp [kind]) ih
  | case5 rest ih => exact .run [] rfl (alike_adjusts .minus _) (by simp [kind]) ih
  | case6 rest ih => exact .run [assign 0 0] rfl (alike_assigns .plus _) (by simp [kind]) ih
  | case7 rest ih => exact .run [assign 0 0] rfl (alike_assigns .minus _) (by simp [kind]) ih
  | case8 rest _ _ ih | case9 rest ih | case10 rest ih | case11 rest ih | case12 rest ih
  | case13 rest ih => exact .keep _ ih
  | case14 c rest _ _ _ _ _ _ _ _ _ _ _ _ ih =>
    have hc : ofChar? c = none := by grind [ofChar?]
    rwa [ofChars, List.filterMap_cons_none hc]

theorem CondensesTo.kinds {xs ys : List Op} (h : CondensesTo xs ys) :
    ys.map kind ⊆ xs.map kind := by
  induction h with
  | nil => exact List.Subset.refl _
  | keep op _ ih => exact List.cons_subset_cons _ ih
  | condense h _ ih =>
    rw [List.map_append, List.map_append]
    exact List.append_subset.mpr ⟨List.subset_append_of_subset_left _ h.kinds,
      List.subset_append_of_subset_right _ ih⟩

theorem CondensesTo.interchangeable {xs ys : List Op} (h : CondensesTo xs ys) :
    Interchangeable ys xs := by
  induction h with
  | nil => exact .refl []
  | keep op _ ih => exact .append (.refl [op]) ih
  | condense h _ ih => exact .append h.symm.interchangeable ih

/-- Runs may be taken apart. -/
theorem ofText_interchangeable (text : List Char) : Interchangeable (ofText text) (ofChars text) :=
  (condensesTo_ofText text).interchangeable

end Op

namespace Source

/-- At no point of the text have more brackets been closed than opened, and at its end as many. -/
def WellNested (text : List Char) : Prop :=
  balance text = 0 ∧ ∀ before, before <+: text → 0 ≤ balance before

theorem balance_nil : balance [] = 0 := rfl

theorem balance_open (text : List Char) : balance ('[' :: text) = balance text + 1 := by
  simp [balance]
  omega

theorem balance_close (text : List Char) : balance (']' :: text) = balance text - 1 := by
  simp [balance]
  omega

theorem balance_other {c : Char} (ho : c ≠ '[') (hc : c ≠ ']') (text : List Char) :
    balance (c :: text) = balance text := by
  simp [balance, ho, hc]

/-- Only brackets matter to the blocks. -/
theorem blockError?_other {c : Char} (ho : c ≠ '[') (hc : c ≠ ']') (depth : Nat)
    (text : List Char) :
    Op.blockError? depth (Op.ofChars (c :: text)) = Op.blockError? depth (Op.ofChars text) := by
  cases hop : Op.ofChar? c with
  | none => rw [Op.ofChars, List.filterMap_cons_none hop]; rfl
  | some op =>
    have hplain : op.isPlain = true := by
      unfold Op.ofChar? at hop
      grind [Op.isPlain]
    rw [Op.ofChars_cons hop, Op.blockError?_plain hplain]

/-- With `depth` blocks open before the text. -/
theorem blockError?_ofChars_eq_none_iff {depth : Nat} {text : List Char} :
    Op.blockError? depth (Op.ofChars text) = none ↔
      depth + balance text = 0 ∧ ∀ before, before <+: text → 0 ≤ depth + balance before := by
  induction text generalizing depth with
  | nil =>
    cases depth <;> simp [Op.ofChars, Op.blockError?, balance_nil]
    omega
  | cons c text ih =>
    have hbefore : (∀ before, before <+: c :: text → 0 ≤ depth + balance before) ↔
        ∀ before, before <+: text → 0 ≤ depth + balance (c :: before) := by
      constructor
      · exact fun h before hb => h _ (List.cons_prefix_cons.mpr ⟨rfl, hb⟩)
      · intro h before hb
        rcases List.prefix_cons_iff.mp hb with rfl | ⟨rest, rfl, hrest⟩
        · exact Int.natCast_nonneg depth
        · exact h rest hrest
    rw [hbefore]
    by_cases ho : c = '['
    · subst ho
      have hsum : ∀ x : Int, depth + (x + 1) = (depth + 1 : Nat) + x := by omega
      simp only [balance_open, hsum, ← ih]
      rfl
    · by_cases hc : c = ']'
      · subst hc
        cases depth with
        | zero =>
          refine ⟨fun h => ?_, fun h => ?_⟩
          · contradiction
          · exact absurd (h.2 [] List.nil_prefix) (by decide)
        | succ outer =>
          have hsum : ∀ x : Int, (outer + 1 : Nat) + (x - 1) = outer + x := by omega
          simp only [balance_close, hsum, ← ih]
          rfl
      · simp only [blockError?_other ho hc, balance_other ho hc, ih]

/-- Characters that are no brackets may be left out. -/
theorem blockError?_filter {keep : Char → Bool} (ho : keep '[' = true) (hc : keep ']' = true)
    (depth : Nat) (text : List Char) :
    Op.blockError? depth (Op.ofChars (text.filter keep)) =
      Op.blockError? depth (Op.ofChars text) := by
  induction text generalizing depth with
  | nil => rfl
  | cons c text ih =>
    by_cases hkeep : keep c = true
    · have hsplit : ∀ rest, Op.ofChars (c :: rest) = Op.ofChars [c] ++ Op.ofChars rest :=
        fun rest => Op.ofChars_append [c] rest
      rw [List.filter_cons_of_pos hkeep, hsplit (text.filter keep), hsplit text]
      exact Op.blockError?_append_congr ih _ depth
    · have hother : c ≠ '[' ∧ c ≠ ']' := by
        constructor <;> rintro rfl <;> contradiction
      rw [List.filter_cons_of_neg hkeep, ih, blockError?_other hother.1 hother.2]

theorem blockError?_strip (debugging : Bool) (depth : Nat) (text : List Char) :
    Op.blockError? depth (Op.ofChars (strip debugging text)) =
      Op.blockError? depth (Op.ofChars text) :=
  blockError?_filter rfl rfl depth text

/-- The text has matching blocks, whether or not it is stripped to its commands. -/
theorem wellNested_iff (debugging : Bool) (text : List Char) :
    WellNested text ↔ Op.blockError? 0 (Op.ofChars (strip debugging text)) = none := by
  rw [blockError?_strip, blockError?_ofChars_eq_none_iff]
  simp [WellNested]

instance (text : List Char) : Decidable (WellNested text) :=
  decidable_of_iff _ (wellNested_iff false text).symm

end Source

end Brainfuck
