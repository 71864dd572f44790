import Brainfuck.Instr.Lower
import Brainfuck.Jumps

/-! The nesting of operations. A `Body` holds operations in order, and among them whole blocks with
their own bodies. `Pieces.ofOps?` reads the nesting off a flat list from its end to its start, so
that any suffix of a program has pieces: the bodies between the block ends that the suffix does not
open. `Op.blockError?` tells whether and how a flat list fails to nest, and the jump table, the
depths of lowered instructions and the nesting all agree with it. -/

namespace Brainfuck

namespace Op

/-- An operation that neither opens nor ends a block. -/
def isPlain : Op → Bool
  | loop _ | once | close => false
  | _ => true

@[simp] theorem isPlain_move (way : Direction) (amount : Int) :
    (move way amount).isPlain = true := rfl

@[simp] theorem isPlain_adjust (sign : Sign) (amount offset : Int) :
    (adjust sign amount offset).isPlain = true := rfl

@[simp] theorem isPlain_assign (value offset : Int) : (assign value offset).isPlain = true := rfl

@[simp] theorem isPlain_read (offset : Int) : (read offset).isPlain = true := rfl

@[simp] theorem isPlain_write (offset bias : Int) : (write offset bias).isPlain = true := rfl

@[simp] theorem isPlain_copy (value dest src multiplier : Int) :
    (copy value dest src multiplier).isPlain = true := rfl

@[simp] theorem isPlain_ofTerms (addend multiplier dest src : Int) :
    (ofTerms addend multiplier dest src).isPlain = true := by
  unfold ofTerms
  split <;> rfl

/-- The part that an operation plays in the nesting. -/
theorem nesting_cases (op : Op) :
    op = close ∨ (∃ offset, op = loop offset) ∨ op = once ∨ op.isPlain = true := by
  cases op <;> simp [isPlain]

theorem isOpener_of_isPlain {op : Op} (h : op.isPlain = true) : op.isOpener = false := by
  cases op <;> simp_all [isPlain, isOpener]

theorem ne_close_of_isPlain {op : Op} (h : op.isPlain = true) : op ≠ close := by
  rintro rfl
  simp [isPlain] at h

/-- What is wrong with the blocks of a list of operations, when `depth` blocks are open before the
first: the first end of a block that is not open, or else a block that is open after the last. -/
def blockError? (depth : Nat) : List Op → Option BlockError
  | [] => if depth = 0 then none else some .unclosed
  | close :: rest =>
    match depth with
    | 0 => some .unopened
    | outer + 1 => blockError? outer rest
  | op :: rest => blockError? (if op.isOpener then depth + 1 else depth) rest

theorem blockError?_cons {op : Op} (h : op ≠ close) (depth : Nat) (rest : List Op) :
    blockError? depth (op :: rest) =
      blockError? (if op.isOpener then depth + 1 else depth) rest := by
  cases op with
  | close => exact absurd rfl h
  | _ => rfl

theorem blockError?_plain {op : Op} (h : op.isPlain = true) (depth : Nat) (rest : List Op) :
    blockError? depth (op :: rest) = blockError? depth rest := by
  rw [blockError?_cons (ne_close_of_isPlain h), isOpener_of_isPlain h]
  rfl

theorem blockError?_plains {ops : List Op} (h : ∀ op ∈ ops, op.isPlain = true) (depth : Nat)
    (rest : List Op) : blockError? depth (ops ++ rest) = blockError? depth rest := by
  induction ops with
  | nil => rfl
  | cons op ops ih =>
    rw [List.cons_append, blockError?_plain (h op (by simp)), ih fun op hop => h op (by simp [hop])]

/-- A straight block is no error. -/
theorem blockError?_block {opener : Op} {body : List Op} (hopener : opener.isOpener = true)
    (hbody : ∀ op ∈ body, op.isPlain = true) (depth : Nat) (rest : List Op) :
    blockError? depth (opener :: (body ++ close :: rest)) = blockError? depth rest := by
  have hclose : opener ≠ close := by
    rintro rfl
    contradiction
  rw [blockError?_cons hclose, blockError?_plains hbody, hopener]
  rfl

/-- Equal ends after the same beginning. -/
theorem blockError?_append_congr {xs ys : List Op}
    (h : ∀ depth, blockError? depth xs = blockError? depth ys) (before : List Op) (depth : Nat) :
    blockError? depth (before ++ xs) = blockError? depth (before ++ ys) := by
  induction before generalizing depth with
  | nil => exact h depth
  | cons op before ih =>
    by_cases hop : op = close
    · subst hop
      cases depth with
      | zero => rfl
      | succ outer => exact ih outer
    · rw [List.cons_append, List.cons_append, blockError?_cons hop, blockError?_cons hop]
      exact ih _

end Op

/-- Operations in order, with blocks nested. -/
inductive Body where
  | done
  | step (op : Op) (next : Body)
  /-- A block repeated while the cell at `offset` is not zero, and what comes after it. -/
  | loop (offset : Int) (body next : Body)
  /-- A block run once if the current cell is not zero, and what comes after it. -/
  | once (body next : Body)
  deriving DecidableEq, Repr

namespace Body

def append : Body → Body → Body
  | done, c => c
  | step op next, c => step op (next.append c)
  | loop offset body next, c => loop offset body (next.append c)
  | once body next, c => once body (next.append c)

/-- The body with `ops`, taken as they are, before it. -/
def prepend (ops : List Op) (b : Body) : Body := ops.foldr step b

/-- The number of operations, those that open and end blocks included. -/
def length : Body → Nat
  | done => 0
  | step _ next => next.length + 1
  | loop _ body next => body.length + next.length + 2
  | once body next => body.length + next.length + 2

@[simp] theorem prepend_nil (b : Body) : prepend [] b = b := rfl

@[simp] theorem prepend_cons (op : Op) (ops : List Op) (b : Body) :
    prepend (op :: ops) b = step op (prepend ops b) := rfl

theorem append_done (b : Body) : b.append done = b := by
  induction b with
  | done => rfl
  | step op next ih => rw [append, ih]
  | loop offset body next _ ih => rw [append, ih]
  | once body next _ ih => rw [append, ih]

end Body

/-- What a list of operations is cut into by the ends of blocks that it does not open: the body up
to the first such end, and the bodies after each. -/
structure Pieces where
  first : Body
  others : List Body
  deriving DecidableEq, Repr

namespace Pieces

/-- The pieces with one more operation in front. One that opens a block takes the first two pieces
as the body of the block and what comes after it; none if there is only one. -/
def cons? : Op → Pieces → Option Pieces
  | .close, ⟨b, bs⟩ => some ⟨.done, b :: bs⟩
  | .loop offset, ⟨b, c :: bs⟩ => some ⟨.loop offset b c, bs⟩
  | .loop _, ⟨_, []⟩ => none
  | .once, ⟨b, c :: bs⟩ => some ⟨.once b c, bs⟩
  | .once, ⟨_, []⟩ => none
  | op, ⟨b, bs⟩ => some ⟨.step op b, bs⟩

/-- The pieces of a list of operations; none if a block is not ended. -/
def ofOps? : List Op → Option Pieces
  | [] => some ⟨.done, []⟩
  | op :: rest => (ofOps? rest).bind (cons? op)

theorem cons?_plain {op : Op} (h : op.isPlain = true) (p : Pieces) :
    cons? op p = some ⟨.step op p.first, p.others⟩ := by
  cases op with
  | loop _ | once | close => contradiction
  | _ => rfl

theorem ofOps?_plain {op : Op} (h : op.isPlain = true) (rest : List Op) :
    ofOps? (op :: rest) = (ofOps? rest).map fun p => ⟨.step op p.first, p.others⟩ := by
  rw [ofOps?, funext (cons?_plain h)]
  cases ofOps? rest <;> rfl

/-- Operations that leave the nesting as it is come in front of the first piece. -/
theorem ofOps?_prepend {ops : List Op} (h : ∀ op ∈ ops, op.isPlain = true) (rest : List Op) :
    ofOps? (ops ++ rest) = (ofOps? rest).map fun p => ⟨.prepend ops p.first, p.others⟩ := by
  induction ops with
  | nil => cases hr : ofOps? rest <;> simp [hr]
  | cons op ops ih =>
    rw [List.cons_append, ofOps?_plain (h op (by simp)), ih fun op hop => h op (by simp [hop])]
    cases ofOps? rest <;> rfl

/-- There is one more piece than blocks that must be open before the operations. -/
theorem blockError?_eq_none_iff {depth : Nat} {ops : List Op} :
    Op.blockError? depth ops = none ↔ ∃ p, ofOps? ops = some p ∧ p.others.length = depth := by
  induction ops generalizing depth with
  | nil => cases depth <;> simp [Op.blockError?, ofOps?]
  | cons op rest ih =>
    rcases op.nesting_cases with rfl | ⟨offset, rfl⟩ | rfl | hop
    · cases depth with
      | zero =>
        simp only [Op.blockError?, reduceCtorEq, ofOps?, false_iff]
        rintro ⟨p, hp, hl⟩
        cases hr : ofOps? rest with
        | none => simp [hr] at hp
        | some q =>
          obtain rfl : ⟨.done, q.first :: q.others⟩ = p := by simpa [hr, cons?] using hp
          simp at hl
      | succ outer =>
        rw [Op.blockError?, ih, ofOps?]
        cases ofOps? rest <;> simp [cons?]
    · rw [Op.blockError?_cons (by simp), ih, ofOps?]
      cases ofOps? rest with
      | none => simp
      | some q => rcases q with ⟨b, _ | ⟨c, bs⟩⟩ <;> simp [cons?, Op.isOpener]
    · rw [Op.blockError?_cons (by simp), ih, ofOps?]
      cases ofOps? rest with
      | none => simp
      | some q => rcases q with ⟨b, _ | ⟨c, bs⟩⟩ <;> simp [cons?, Op.isOpener]
    · rw [Op.blockError?_plain hop, ih, ofOps?_plain hop]
      cases ofOps? rest <;> simp

end Pieces

/-- The nesting of a list of operations; none if its blocks do not match. -/
def Body.ofOps? (ops : List Op) : Option Body :=
  match Pieces.ofOps? ops with
  | some ⟨b, []⟩ => some b
  | _ => none

theorem Body.ofOps?_eq_some_iff {ops : List Op} {b : Body} :
    ofOps? ops = some b ↔ Pieces.ofOps? ops = some ⟨b, []⟩ := by
  unfold ofOps?
  split
  · next h => simp [h]
  · next h =>
    constructor
    · intro h'
      contradiction
    · intro h'
      exact absurd h' (h b)

theorem Body.exists_ofOps?_iff {ops : List Op} :
    (∃ b, ofOps? ops = some b) ↔ Op.blockError? 0 ops = none := by
  simp only [ofOps?_eq_some_iff, Pieces.blockError?_eq_none_iff]
  constructor
  · rintro ⟨b, hb⟩
    exact ⟨_, hb, rfl⟩
  · rintro ⟨⟨b, bs⟩, hp, hl⟩
    obtain rfl : bs = [] := List.eq_nil_of_length_eq_zero hl
    exact ⟨b, hp⟩

/-- The operations of a program. -/
def Program.ops (program : Program) : List Op := program.map (·.op)

theorem Jumps.extend_cons {i : Instr} (h : i.op ≠ .close) (table : Jumps) (opened : List Nat)
    (position : Nat) (rest : Program) :
    extend table opened position (i :: rest) =
      extend table (if i.op.isOpener then position :: opened else opened) (position + 1) rest := by
  obtain ⟨depth, op⟩ := i
  cases op with
  | close => exact absurd rfl h
  | _ => rfl

/-- The jump table fails for what is wrong with the blocks. -/
theorem Jumps.extend_eq_error_iff {table : Jumps} {opened : List Nat} {position : Nat}
    {program : Program} {e : BlockError} :
    extend table opened position program = .error e ↔
      Op.blockError? opened.length program.ops = some e := by
  induction program generalizing table opened position with
  | nil => cases opened <;> simp [extend, Program.ops, Op.blockError?]
  | cons i rest ih =>
    obtain ⟨depth, op⟩ := i
    by_cases hop : op = .close
    · subst hop
      cases opened with
      | nil => simp [extend, Program.ops, Op.blockError?]
      | cons start outer => exact ih
    · rw [Program.ops, List.map_cons, Op.blockError?_cons hop, extend_cons hop, ih]
      by_cases ho : op.isOpener = true <;> simp [ho, Program.ops]

theorem Jumps.ofProgram_eq_error_iff {program : Program} {e : BlockError} :
    ofProgram program = .error e ↔ Op.blockError? 0 program.ops = some e :=
  extend_eq_error_iff

theorem Jumps.exists_ofProgram_iff {program : Program} :
    (∃ table, ofProgram program = .ok table) ↔ Op.blockError? 0 program.ops = none := by
  cases h : ofProgram program with
  | ok table =>
    refine ⟨fun _ => ?_, fun _ => ⟨table, rfl⟩⟩
    refine Option.eq_none_iff_forall_ne_some.mpr fun e he => ?_
    rw [ofProgram_eq_error_iff.mpr he] at h
    contradiction
  | error e => simp [ofProgram_eq_error_iff.mp h]

theorem Program.nest_cons {op : Op} (h : op ≠ .close) (depth : Nat) (rest : List Op) :
    nest depth (op :: rest) =
      (nest (if op.isOpener then depth + 1 else depth) rest).map (⟨depth, op⟩ :: ·) := by
  cases op with
  | close => exact absurd rfl h
  | _ => rfl

/-- Operations get depths if their blocks match. -/
theorem Program.exists_nest_iff {depth : Nat} {ops : List Op} :
    (∃ program, nest depth ops = .ok program) ↔ Op.blockError? depth ops = none := by
  induction ops generalizing depth with
  | nil => cases depth <;> simp [nest, Op.blockError?]
  | cons op rest ih =>
    by_cases hop : op = .close
    · subst hop
      cases depth with
      | zero => simp [nest, Op.blockError?]
      | succ outer =>
        rw [Op.blockError?, ← ih, nest]
        cases nest outer rest <;> simp [Except.map]
    · rw [Op.blockError?_cons hop, ← ih, nest_cons hop]
      generalize nest _ rest = r
      cases r <;> simp [Except.map]

theorem exists_of_map_eq_ok {e a b : Type} {x : Except e a} {f : a → b} {y : b}
    (h : x.map f = .ok y) : ∃ z, x = .ok z ∧ f z = y := by
  cases x with
  | error _ => contradiction
  | ok z => exact ⟨z, rfl, Except.ok.inj h⟩

theorem Program.ops_of_nest {depth : Nat} {ops : List Op} {program : Program}
    (h : nest depth ops = .ok program) : program.ops = ops := by
  induction ops generalizing depth program with
  | nil =>
    unfold nest at h
    split at h
    · cases h
      rfl
    · contradiction
  | cons op rest ih =>
    by_cases hop : op = .close
    · subst hop
      cases depth with
      | zero => simp [nest] at h
      | succ outer =>
        obtain ⟨inner, hn, rfl⟩ := exists_of_map_eq_ok h
        exact congrArg _ (ih hn)
    · rw [nest_cons hop] at h
      obtain ⟨inner, hn, rfl⟩ := exists_of_map_eq_ok h
      exact congrArg _ (ih hn)

/-- The instructions of a body that stands `depth` blocks deep. -/
def Body.program (depth : Nat) : Body → Program
  | done => []
  | step op next => ⟨depth, op⟩ :: next.program depth
  | loop offset body next =>
    ⟨depth, .loop offset⟩ :: (body.program (depth + 1) ++ ⟨depth, .close⟩ :: next.program depth)
  | once body next =>
    ⟨depth, .once⟩ :: (body.program (depth + 1) ++ ⟨depth, .close⟩ :: next.program depth)

/-- The instructions of bodies that each come after the end of a block, the first such block
standing `depth - 1` deep. -/
def Body.programsAfter (depth : Nat) : List Body → Program
  | [] => []
  | b :: bs =>
    ⟨(depth - 1 : Nat), .close⟩ :: (b.program (depth - 1) ++ programsAfter (depth - 1) bs)

/-- The instructions with the right depths are those of the nesting. -/
theorem Pieces.program_of_nest {depth : Nat} {ops : List Op} {program : Program}
    (h : Program.nest depth ops = .ok program) {p : Pieces} (hp : ofOps? ops = some p) :
    program = p.first.program depth ++ Body.programsAfter depth p.others := by
  induction ops generalizing depth program p with
  | nil =>
    cases hp
    unfold Program.nest at h
    split at h
    · cases h
      rfl
    · contradiction
  | cons op rest ih =>
    obtain ⟨⟨b, bs⟩, hq, hp⟩ := Option.bind_eq_some_iff.mp hp
    rcases op.nesting_cases with rfl | ⟨offset, rfl⟩ | rfl | hop
    · cases hp
      cases depth with
      | zero => contradiction
      | succ outer =>
        obtain ⟨inner, hn, rfl⟩ := exists_of_map_eq_ok h
        exact congrArg _ (ih hn hq)
    · obtain ⟨inner, hn, rfl⟩ := exists_of_map_eq_ok h
      cases bs with
      | nil => contradiction
      | cons c bs =>
        cases hp
        rw [ih hn hq]
        simp [Body.program, Body.programsAfter, Op.isOpener]
    · obtain ⟨inner, hn, rfl⟩ := exists_of_map_eq_ok h
      cases bs with
      | nil => contradiction
      | cons c bs =>
        cases hp
        rw [ih hn hq]
        simp [Body.program, Body.programsAfter, Op.isOpener]
    · rw [cons?_plain hop] at hp
      cases hp
      rw [Program.nest_cons (Op.ne_close_of_isPlain hop), Op.isOpener_of_isPlain hop] at h
      obtain ⟨inner, hn, rfl⟩ := exists_of_map_eq_ok h
      rw [ih hn hq]
      rfl

/-- The operations of a body that are no part of its nesting all satisfy `P`. -/
def Body.Steps (P : Op → Prop) : Body → Prop
  | done => True
  | step op next => op.isPlain = true ∧ P op ∧ next.Steps P
  | loop _ body next | once body next => body.Steps P ∧ next.Steps P

theorem Pieces.steps_of_ofOps? {P : Op → Prop} {ops : List Op} (h : ∀ op ∈ ops, P op) {p : Pieces}
    (hp : ofOps? ops = some p) : p.first.Steps P ∧ ∀ b ∈ p.others, b.Steps P := by
  induction ops generalizing p with
  | nil =>
    cases hp
    exact ⟨trivial, by simp⟩
  | cons op rest ih =>
    obtain ⟨⟨b, bs⟩, hq, hp⟩ := Option.bind_eq_some_iff.mp hp
    obtain ⟨hop, hrest⟩ := List.forall_mem_cons.mp h
    obtain ⟨hb, hbs⟩ := ih hrest hq
    rcases op.nesting_cases with rfl | ⟨offset, rfl⟩ | rfl | hplain
    · cases hp
      exact ⟨trivial, List.forall_mem_cons.mpr ⟨hb, hbs⟩⟩
    · cases bs with
      | nil => contradiction
      | cons c bs =>
        cases hp
        obtain ⟨hc, hbs⟩ := List.forall_mem_cons.mp hbs
        exact ⟨⟨hb, hc⟩, hbs⟩
    · cases bs with
      | nil => contradiction
      | cons c bs =>
        cases hp
        obtain ⟨hc, hbs⟩ := List.forall_mem_cons.mp hbs
        exact ⟨⟨hb, hc⟩, hbs⟩
    · rw [cons?_plain hplain] at hp
      cases hp
      exact ⟨⟨hplain, hop, hb⟩, hbs⟩

namespace Body

/-- The operations of the body in order, with those that open and end blocks. -/
def ops : Body → List Op
  | done => []
  | step op next => op :: next.ops
  | loop offset body next => .loop offset :: (body.ops ++ .close :: next.ops)
  | once body next => .once :: (body.ops ++ .close :: next.ops)

/-- The body is the nesting of the operations: they are its operations in order, and those of its
steps neither open nor end blocks. -/
def IsNestingOf (b : Body) (ops : List Op) : Prop := b.ops = ops ∧ b.Steps fun _ => True

theorem ops_program (b : Body) (depth : Nat) : (b.program depth).ops = b.ops := by
  induction b generalizing depth with
  | done => rfl
  | step op next ih => simpa [program, Program.ops, ops] using ih depth
  | loop offset body next ihb ihn | once body next ihb ihn =>
    have hbody := ihb (depth + 1)
    have hnext := ihn depth
    simp only [Program.ops] at hbody hnext ⊢
    simp [program, ops, hbody, hnext]

end Body

/-- The operations of a body come before the first piece. -/
theorem Pieces.ofOps?_body {b : Body} {P : Op → Prop} (hb : b.Steps P) (rest : List Op) :
    ofOps? (b.ops ++ rest) = (ofOps? rest).map fun p => ⟨b.append p.first, p.others⟩ := by
  induction b generalizing rest with
  | done => simp [Body.ops, Body.append]
  | step op next ih =>
    rw [Body.ops, List.cons_append, ofOps?_plain hb.1, ih hb.2.2, Option.map_map]
    rfl
  | loop offset body next ihb ihn | once body next ihb ihn =>
    rw [Body.ops, List.cons_append, List.append_assoc, List.cons_append, ofOps?, ihb hb.1, ofOps?,
      ihn hb.2]
    cases ofOps? rest <;> simp [cons?, Body.append, Body.append_done]

theorem Body.program_of_nest {ops : List Op} {program : Program} {b : Body}
    (h : Program.nest 0 ops = .ok program) (hb : ofOps? ops = some b) : program = b.program 0 := by
  simpa [programsAfter] using Pieces.program_of_nest h (ofOps?_eq_some_iff.mp hb)

theorem Body.isNestingOf_iff {b : Body} {ops : List Op} :
    b.IsNestingOf ops ↔ ofOps? ops = some b := by
  constructor
  · rintro ⟨rfl, hsteps⟩
    rw [ofOps?_eq_some_iff]
    simpa [Pieces.ofOps?, append_done] using Pieces.ofOps?_body hsteps []
  · intro h
    have hpieces := ofOps?_eq_some_iff.mp h
    refine ⟨?_, (Pieces.steps_of_ofOps? (fun _ _ => trivial) hpieces).1⟩
    obtain ⟨program, hnest⟩ := Program.exists_nest_iff.mpr (exists_ofOps?_iff.mp ⟨b, h⟩)
    rw [← ops_program b 0, ← program_of_nest hnest h, Program.ops_of_nest hnest]

/-- Operations with matching blocks, one list after the other. -/
theorem Body.ofOps?_append {xs ys : List Op} {b c : Body} (hx : ofOps? xs = some b)
    (hy : ofOps? ys = some c) : ofOps? (xs ++ ys) = some (b.append c) := by
  obtain ⟨rfl, hsteps⟩ := isNestingOf_iff.mpr hx
  rw [ofOps?_eq_some_iff] at hy ⊢
  rw [Pieces.ofOps?_body hsteps, hy]
  rfl

end Brainfuck
