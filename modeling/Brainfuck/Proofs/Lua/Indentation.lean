import Brainfuck.Proofs.Depths
import Brainfuck.Proofs.Lua.Parsed

/-! Where bodies are not made functions, a depth is printed as tabs at the beginning of a line, and
in no other way. -/

namespace Brainfuck

namespace Lua

/-- The text without the tabs at the beginnings of its lines. `fresh` tells whether a line begins
with the text. -/
def unindentFrom (fresh : Bool) : List Char → List Char
  | [] => []
  | c :: cs =>
    if fresh && c == '\t' then unindentFrom true cs else c :: unindentFrom (c == '\n') cs

def unindent (text : String) : String := String.ofList (unindentFrom true text.toList)

theorem unindentFrom_tabs (count : Nat) (cs : List Char) :
    unindentFrom true (List.replicate count '\t' ++ cs) = unindentFrom true cs := by
  induction count with
  | zero => rfl
  | succ count ih =>
    rw [List.replicate_succ, List.cons_append, unindentFrom]
    exact ih

/-- After the end of a line the text before it does not matter. -/
theorem unindentFrom_append_newline (fresh : Bool) (cs rest : List Char) :
    unindentFrom fresh (cs ++ ['\n'] ++ rest) =
      unindentFrom fresh (cs ++ ['\n']) ++ unindentFrom true rest := by
  induction cs generalizing fresh with
  | nil => simp [unindentFrom]
  | cons c cs ih =>
    simp only [List.cons_append, unindentFrom, ih]
    split <;> rfl

/-- The line of a statement, without indentation. -/
def Stmt.unindented (s : Stmt) : List Char := unindentFrom true (s.render.toList ++ ['\n'])

theorem unindentFrom_lines (ls : List Line) :
    unindentFrom true (String.join (ls.map (·.render))).toList =
      (ls.map (·.stmt)).flatMap (·.unindented) := by
  induction ls with
  | nil => rfl
  | cons l ls ih =>
    have hline : l.render.toList =
        List.replicate l.indent '\t' ++ (l.stmt.render.toList ++ ['\n']) := by
      simp [Line.render]
    rw [List.map_cons, String.join_cons, String.toList_append, hline, List.append_assoc,
      unindentFrom_tabs, unindentFrom_append_newline, ih]
    rfl

variable {o : Options}

/-- The statements of an operation are the same at any depth if there are no functions. -/
theorem stmts_of_not_functions (ho : o.functions = false) (f : Functions) (i : Instr) :
    stmts o f i = .ok (plainStmts o i.op, f) := by
  obtain ⟨depth, op⟩ := i
  rcases op.nesting_cases with rfl | ⟨offset, rfl⟩ | rfl | hplain
  · simp [stmts, plainStmts, closeBlock, ho]
  · simp [stmts, plainStmts, openBlock, ho]
  · simp [stmts, plainStmts, openBlock, ho]
  · exact stmts_plain hplain f depth

theorem lines_of_not_functions (ho : o.functions = false) (f : Functions) (p : Program) :
    ∃ ls, lines o f p = .ok ls ∧ ls.map (·.stmt) = p.ops.flatMap (plainStmts o) := by
  induction p with
  | nil => exact ⟨[], rfl, rfl⟩
  | cons i rest ih =>
    obtain ⟨ls, hls, hstmts⟩ := ih
    refine ⟨_, by rw [lines_cons (stmts_of_not_functions ho f i), hls]; rfl, ?_⟩
    simp [hstmts, Program.ops, Function.comp_def]

theorem exists_toList_header (o : Options) : ∃ cs, (header o).toList = cs ++ ['\n'] := by
  unfold header
  rw [String.toList_append]
  exact ⟨_, rfl⟩

/-- Without its indentation the code is determined by the operations. -/
theorem unindent_code (ho : o.functions = false) (p : Program) :
    ∃ text, code o p = .ok text ∧
      unindentFrom true text.toList =
        unindentFrom true (if o.header then header o else "").toList ++
          (p.ops.flatMap (plainStmts o)).flatMap (·.unindented) := by
  obtain ⟨ls, hls, hstmts⟩ := lines_of_not_functions ho .start p
  refine ⟨_, by rw [code, hls]; rfl, ?_⟩
  rw [← hstmts, ← unindentFrom_lines, String.toList_append]
  split
  · obtain ⟨cs, hcs⟩ := exists_toList_header o
    rw [hcs, unindentFrom_append_newline]
  · rfl

end Lua

open Machine

/-- Programs that differ in their depths only remain so in a pass and through all passes, which
either settle for both or for neither. They run alike, and their code without functions differs in
nothing but the tabs that its lines begin with. -/
theorem Program.depths_play_no_part {p q : Program} (h : p.ops = q.ops) :
    (p.pass.1.ops = q.pass.1.ops ∧ p.pass.2 = q.pass.2) ∧
      (∀ o : Options,
        (∃ e, o.optimize p = .error e ∧ o.optimize q = .error e) ∨
          ∃ r s, o.optimize p = .ok r ∧ o.optimize q = .ok s ∧ r.program.ops = s.program.ops ∧
            r.passes = s.passes) ∧
      (∀ (m : Int) (steps : Nat) (s : State m), p.run steps s = q.run steps s) ∧
      ∀ o : Options, o.functions = false →
        ∃ s t, o.print p = .ok s ∧ o.print q = .ok t ∧ Lua.unindent s = Lua.unindent t := by
  refine ⟨pass_of_ops_eq h, fun o => o.optimize_of_ops_eq h,
    fun m steps s => run_of_ops_eq h steps s, fun o ho => ?_⟩
  obtain ⟨s, hs, hsame⟩ := Lua.unindent_code ho p
  obtain ⟨t, ht, hsame'⟩ := Lua.unindent_code ho q
  refine ⟨s, t, by rw [Options.print, hs]; rfl, by rw [Options.print, ht]; rfl, ?_⟩
  rw [Lua.unindent, Lua.unindent, hsame, hsame', h]

/-- A loop whose depths fit its nesting, and the same loop with depths that do not. -/
theorem Program.depths_play_no_part_clearing :
    ops [⟨0, .loop 0⟩, ⟨1, .adjust .minus 1 0⟩, ⟨0, .close⟩] =
        ops [⟨2, .loop 0⟩, ⟨-1, .adjust .minus 1 0⟩, ⟨7, .close⟩] ∧
      ops (pass [⟨0, .loop 0⟩, ⟨1, .adjust .minus 1 0⟩, ⟨0, .close⟩]).1 =
        ops (pass [⟨2, .loop 0⟩, ⟨-1, .adjust .minus 1 0⟩, ⟨7, .close⟩]).1 ∧
      ∃ s t,
        Options.print ⟨.full, 256, false, false, true, none⟩
          [⟨0, .loop 0⟩, ⟨1, .adjust .minus 1 0⟩, ⟨0, .close⟩] = .ok s ∧
        Options.print ⟨.full, 256, false, false, true, none⟩
          [⟨2, .loop 0⟩, ⟨-1, .adjust .minus 1 0⟩, ⟨7, .close⟩] = .ok t ∧
        Lua.unindent s = Lua.unindent t := by
  refine ⟨rfl, (depths_play_no_part ?_).1.1, (depths_play_no_part ?_).2.2.2 _ rfl⟩
  · rfl
  · rfl

end Brainfuck
