import Brainfuck.Machine
import Brainfuck.Proofs.Nesting

/-! How the nesting of a program lies in the machine's code: the operations of a body stand one
after the other from some position on, and the jump table joins both ends of every block in it. -/

namespace Brainfuck

open Machine

namespace Machine.Code

/-- The operation at `pc`. -/
def op? (code : Code) (pc : Nat) : Option Op := code.instrs[pc]?.map (·.op)

/-- The block opened by `op` at `pc` has a body of `size` operations. -/
structure Spans (code : Code) (op : Op) (pc size : Nat) : Prop where
  opens : code.op? pc = some op
  ends : code.op? (pc + 1 + size) = some .close
  forth : code.jumps[pc]? = some (pc + 1 + size)
  back : code.jumps[pc + 1 + size]? = some pc

/-- The body lies in the code from `pc` on. -/
def Holds (code : Code) : Nat → Body → Prop
  | _, .done => True
  | pc, .step op next => code.op? pc = some op ∧ op.isPlain = true ∧ code.Holds (pc + 1) next
  | pc, .loop offset body next =>
    code.Spans (.loop offset) pc body.length ∧ code.Holds (pc + 1) body ∧
      code.Holds (pc + 1 + body.length + 1) next
  | pc, .once body next =>
    code.Spans .once pc body.length ∧ code.Holds (pc + 1) body ∧
      code.Holds (pc + 1 + body.length + 1) next

/-- The bodies lie in the code from `pc` on, each after the end of a block. The blocks were opened
at the positions in `opened`, the innermost first. -/
def HoldsAfter (code : Code) : Nat → List Nat → List Body → Prop
  | _, _, [] => True
  | _, [], _ :: _ => False
  | pc, start :: outer, b :: bs =>
    code.op? pc = some .close ∧ code.jumps[start]? = some pc ∧ code.jumps[pc]? = some start ∧
      code.Holds (pc + 1) b ∧ code.HoldsAfter (pc + 1 + b.length) outer bs

/-- The first end of a block that follows a body closes the block that was opened before it. -/
theorem HoldsAfter.block {code : Code} {op : Op} {pc : Nat} {opened : List Nat} {b c : Body}
    {bs : List Body} (hop : code.op? pc = some op)
    (h : code.HoldsAfter (pc + 1 + b.length) (pc :: opened) (c :: bs)) :
    code.Spans op pc b.length ∧ code.Holds (pc + 1 + b.length + 1) c ∧
      code.HoldsAfter (pc + (b.length + c.length + 2)) opened bs := by
  obtain ⟨hclose, hforth, hback, hc, hbs⟩ := h
  refine ⟨⟨hop, hclose, hforth, hback⟩, hc, ?_⟩
  rwa [show pc + (b.length + c.length + 2) = pc + 1 + b.length + 1 + c.length by omega]

end Machine.Code

namespace Jumps

/-- The positions of open blocks lie below `position`, each below the one before. -/
def Descend (position : Nat) (opened : List Nat) : Prop := (position :: opened).Pairwise (· > ·)

theorem Descend.succ {position : Nat} {opened : List Nat} (h : Descend position opened) :
    Descend (position + 1) opened :=
  List.pairwise_cons.mpr ⟨fun k hk => Nat.lt_succ_of_lt ((List.pairwise_cons.mp h).1 k hk),
    (List.pairwise_cons.mp h).2⟩

theorem Descend.push {position : Nat} {opened : List Nat} (h : Descend position opened) :
    Descend (position + 1) (position :: opened) :=
  List.pairwise_cons.mpr ⟨fun k hk => by
    rcases List.mem_cons.mp hk with rfl | hk
    · exact Nat.lt_succ_self k
    · exact Nat.lt_succ_of_lt ((List.pairwise_cons.mp h).1 k hk), h⟩

theorem Descend.pop {position start : Nat} {outer : List Nat}
    (h : Descend position (start :: outer)) :
    start < position ∧ start ∉ outer ∧ position ∉ outer ∧ Descend position outer := by
  obtain ⟨habove, houter⟩ := List.pairwise_cons.mp h
  refine ⟨habove start (by simp), fun hmem => ?_, fun hmem => ?_, h.sublist (by simp)⟩
  · exact Nat.lt_irrefl _ ((List.pairwise_cons.mp houter).1 start hmem)
  · exact Nat.lt_irrefl _ (habove position (by simp [hmem]))

/-- Entries made before stay, unless they are for blocks that are open. -/
theorem getElem?_extend {table final : Jumps} {opened : List Nat} {position : Nat}
    {program : Program} (h : extend table opened position program = .ok final)
    {k : Nat} (hk : k < position) (hopened : k ∉ opened) : final[k]? = table[k]? := by
  induction program generalizing table opened position with
  | nil =>
    unfold extend at h
    split at h
    · cases h
      rfl
    · contradiction
  | cons i rest ih =>
    by_cases hop : i.op = .close
    · obtain ⟨depth, op⟩ := i
      cases hop
      cases opened with
      | nil => contradiction
      | cons start outer =>
        simp only [List.mem_cons, not_or] at hopened
        rw [extend] at h
        rw [ih h (by omega) hopened.2]
        grind
    · rw [extend_cons hop] at h
      refine ih h (by omega) ?_
      split
      · simp only [List.mem_cons, not_or]
        exact ⟨by omega, hopened⟩
      · exact hopened

/-- The pieces of the program that the table is extended by lie in the code. -/
theorem holds_of_extend {code : Code} {table : Jumps} {opened : List Nat} {position : Nat}
    {program : Program} {p : Pieces} (h : extend table opened position program = .ok code.jumps)
    (hinstrs : ∀ k, code.instrs[position + k]? = program[k]?)
    (hopened : Descend position opened) (hp : Pieces.ofOps? program.ops = some p) :
    code.Holds position p.first ∧
      code.HoldsAfter (position + p.first.length) opened p.others := by
  induction program generalizing table opened position p with
  | nil =>
    cases hp
    simp [Code.Holds, Code.HoldsAfter]
  | cons i rest ih =>
    have hop : code.op? position = some i.op := by
      have := hinstrs 0
      simp_all [Code.op?]
    have hrest : ∀ k, code.instrs[position + 1 + k]? = rest[k]? := by
      intro k
      rw [show position + 1 + k = position + (k + 1) by omega, hinstrs]
      simp
    obtain ⟨q, hq, hp⟩ := Option.bind_eq_some_iff.mp hp
    obtain ⟨depth, op⟩ := i
    obtain ⟨b, bs⟩ := q
    rcases op.nesting_cases with rfl | ⟨offset, rfl⟩ | rfl | hplain
    · cases hp
      cases opened with
      | nil => contradiction
      | cons start outer =>
        rw [extend] at h
        obtain ⟨hlt, hstart, hposition, houter⟩ := hopened.pop
        obtain ⟨hb, hbs⟩ := ih h hrest houter.succ hq
        refine ⟨trivial, hop, ?_, ?_, hb, hbs⟩
        · rw [getElem?_extend h (by omega) hstart, Std.ExtTreeMap.getElem?_insert,
            Std.ExtTreeMap.getElem?_insert]
          simp [Nat.ne_of_gt hlt, Body.length]
        · show code.jumps[position]? = some start
          rw [getElem?_extend h (by omega) hposition, Std.ExtTreeMap.getElem?_insert]
          simp
    · rw [extend_cons (by simp)] at h
      obtain ⟨hb, hbs⟩ := ih h hrest hopened.push hq
      cases bs with
      | nil => contradiction
      | cons c bs =>
        cases hp
        obtain ⟨hspans, hc, hbs⟩ := hbs.block hop
        exact ⟨⟨hspans, hb, hc⟩, hbs⟩
    · rw [extend_cons (by simp)] at h
      obtain ⟨hb, hbs⟩ := ih h hrest hopened.push hq
      cases bs with
      | nil => contradiction
      | cons c bs =>
        cases hp
        obtain ⟨hspans, hc, hbs⟩ := hbs.block hop
        exact ⟨⟨hspans, hb, hc⟩, hbs⟩
    · rw [extend_cons (Op.ne_close_of_isPlain hplain), Op.isOpener_of_isPlain hplain] at h
      rw [Pieces.cons?_plain hplain] at hp
      cases hp
      obtain ⟨hb, hbs⟩ := ih h hrest hopened.succ hq
      refine ⟨⟨hop, hplain, hb⟩, ?_⟩
      rwa [Body.length, show position + (b.length + 1) = position + 1 + b.length by omega]

end Jumps

/-- The number of operations of bodies that each come after the end of a block. -/
def Body.lengthAfter : List Body → Nat
  | [] => 0
  | b :: bs => b.length + 1 + lengthAfter bs

/-- No operation is lost in the pieces. -/
theorem Pieces.length_of_ofOps? {ops : List Op} {p : Pieces} (h : ofOps? ops = some p) :
    p.first.length + Body.lengthAfter p.others = ops.length := by
  induction ops generalizing p with
  | nil =>
    cases h
    rfl
  | cons op rest ih =>
    obtain ⟨⟨b, bs⟩, hq, hp⟩ := Option.bind_eq_some_iff.mp h
    have hlength := ih hq
    rcases op.nesting_cases with rfl | ⟨offset, rfl⟩ | rfl | hplain
    · cases hp
      simp only [Body.length, Body.lengthAfter, List.length_cons] at hlength ⊢
      omega
    · cases bs with
      | nil => contradiction
      | cons c bs =>
        cases hp
        simp only [Body.length, Body.lengthAfter, List.length_cons] at hlength ⊢
        omega
    · cases bs with
      | nil => contradiction
      | cons c bs =>
        cases hp
        simp only [Body.length, Body.lengthAfter, List.length_cons] at hlength ⊢
        omega
    · rw [cons?_plain hplain] at hp
      cases hp
      simp only [Body.length, List.length_cons] at hlength ⊢
      omega

namespace Machine.Code

/-- The code of a program whose blocks match holds the nesting of the program, and nothing else. -/
theorem holds_ofProgram {program : Program} {code : Code} {b : Body}
    (h : ofProgram program = .ok code) (hb : Body.ofOps? program.ops = some b) :
    code.Holds 0 b ∧ ∀ pc, code.op? pc = none ↔ b.length ≤ pc := by
  have hp := Body.ofOps?_eq_some_iff.mp hb
  unfold ofProgram at h
  cases hj : Jumps.ofProgram program with
  | error e => simp [hj, Except.map] at h
  | ok table =>
    simp only [hj, Except.map, Except.ok.injEq] at h
    subst h
    constructor
    · have hext : Jumps.extend ∅ [] 0 program = .ok (Code.mk program.toArray table).jumps := hj
      exact (Jumps.holds_of_extend hext (by simp) (by simp [Jumps.Descend]) hp).1
    · have hlength := Pieces.length_of_ofOps? hp
      simp only [Body.lengthAfter, Program.ops, List.length_map, Nat.add_zero] at hlength
      simp [op?, hlength]

end Machine.Code

end Brainfuck
