import Brainfuck.Proofs.Lua.Printed

/-! The lines of blocks. A line shows by how it begins whether it opens a block, ends one, declares
a function or calls one, so what is known of statements holds of their lines. -/

namespace Brainfuck.Lua

/-- The line that calls the function with the given number. -/
def callLine (number : Nat) : String := "loop" ++ toString number ++ "()"

/-- The line that declares the function with the given number. -/
def declarationLine (number : Nat) : String := "local function " ++ callLine number

/-- The line that opens the block of an operation. -/
def openingLine? : Op → Option String
  | .loop offset => some ("while " ++ Expr.renderCell offset ++ " ~= 0 do")
  | .once => some "if data[ptr] ~= 0 then"
  | _ => none

def isDeclaration (line : String) : Bool := line.startsWith "local function "

def opensBlock (line : String) : Bool :=
  line.startsWith "while " || line.startsWith "if " || isDeclaration line

/-- Whether a line has a part in blocks: it opens one, ends one or calls a function. -/
def IsBlockLine (line : String) : Prop :=
  opensBlock line = true ∨ line = "end" ∨ ∃ number, line = callLine number

/-- The number of blocks open after the lines, if `blocks` are open before; none if one is ended
that is not open. -/
def openAfter? (blocks : Nat) : List String → Option Nat
  | [] => some blocks
  | line :: rest =>
    if line = "end" then
      if blocks = 0 then none else openAfter? (blocks - 1) rest
    else openAfter? (if opensBlock line then blocks + 1 else blocks) rest

theorem callLine_injective : Function.Injective callLine := by
  intro a b h
  have hdigits : Decimal.natural a = Decimal.natural b := by
    simp only [callLine, String.append_left_inj, String.append_right_inj] at h
    exact h
  rw [← Decimal.ofDigitChars_natural a, hdigits, Decimal.ofDigitChars_natural]

namespace Stmt

/-- A statement that opens or ends a block, or calls a function. -/
def isBlockPart : Stmt → Bool
  | whileCell _ | ifCell | function _ | call _ | close => true
  | _ => false

def opens : Stmt → Bool
  | whileCell _ | ifCell | function _ => true
  | _ => false

/-- The number of the function that a statement declares. -/
def declared? : Stmt → Option Nat
  | function number => some number
  | _ => none

/-- The number of blocks open after the statements, if `depth` are open before; none if one is ended
that is not open. -/
def depthAfter? (depth : Nat) : List Stmt → Option Nat
  | [] => some depth
  | s :: rest =>
    match s with
    | whileCell _ | ifCell | function _ => depthAfter? (depth + 1) rest
    | close =>
      match depth with
      | 0 => none
      | outer + 1 => depthAfter? outer rest
    | _ => depthAfter? depth rest

theorem depthAfter?_plain {body : List Stmt} (h : ∀ s ∈ body, s.isBlockPart = false) (depth : Nat)
    (rest : List Stmt) : depthAfter? depth (body ++ rest) = depthAfter? depth rest := by
  induction body with
  | nil => rfl
  | cons s body ih =>
    obtain ⟨hs, hbody⟩ := List.forall_mem_cons.mp h
    rw [← ih hbody]
    cases s with
    | whileCell _ | ifCell | function _ | call _ | close => contradiction
    | _ => rfl

/-- What the line of a statement begins with. -/
def beginning : Stmt → String
  | setCell .. => "d"
  | movePtr .. => "ptr = "
  | writeByte _ => "io.write(string.char("
  | whileCell _ => "while "
  | ifCell => "if "
  | function _ => "local function "
  | call _ => "loop"
  | close => "end"
  | dump => "bf_debug()"

theorem exists_toList_render (s : Stmt) :
    ∃ rest, s.render.toList = s.beginning.toList ++ rest := by
  have hstart (rest : String) (h : s.render = s.beginning ++ rest) :
      ∃ rest, s.render.toList = s.beginning.toList ++ rest :=
    ⟨rest.toList, by rw [h, String.toList_append]⟩
  cases s with
  | setCell offset value =>
    obtain ⟨cs, hcs⟩ := Expr.renderCell_toList offset
    refine ⟨cs ++ (" = " ++ value.render).toList, ?_⟩
    have hd : "d".toList = ['d'] := rfl
    dsimp only [render, beginning]
    rw [String.append_assoc, String.toList_append, hcs, hd, List.cons_append, List.cons_append,
      List.nil_append]
  | movePtr way amount =>
    cases way with
    | left =>
      have hline : "ptr = ptr - " = "ptr = " ++ "ptr - " := by decide
      refine hstart ("ptr - " ++ Decimal.signed amount) ?_
      dsimp only [render, beginning]
      rw [hline, String.append_assoc]
    | right =>
      have hline : "ptr = ptr + " = "ptr = " ++ "ptr + " := by decide
      refine hstart ("ptr + " ++ Decimal.signed amount) ?_
      dsimp only [render, beginning]
      rw [hline, String.append_assoc]
  | writeByte value =>
    refine hstart (value.render ++ "))") ?_
    dsimp only [render, beginning]
    rw [String.append_assoc]
  | whileCell offset =>
    refine hstart (Expr.renderCell offset ++ " ~= 0 do") ?_
    dsimp only [render, beginning]
    rw [String.append_assoc]
  | ifCell =>
    refine hstart (Expr.renderCell 0 ++ " ~= 0 then") ?_
    dsimp only [render, beginning]
    rw [String.append_assoc]
  | function number => exact hstart (renderCall number) rfl
  | call number =>
    refine hstart (Decimal.natural number ++ "()") ?_
    dsimp only [render, renderCall, beginning]
    rw [String.append_assoc]
  | close | dump => exact hstart "" String.append_empty.symm

theorem render_call (number : Nat) : (call number).render = callLine number := rfl

theorem render_function (number : Nat) : (function number).render = declarationLine number :=
  congrArg ("local function " ++ ·) (render_call number)

theorem render_eq_end_iff {s : Stmt} : s.render = "end" ↔ s = close := by
  refine ⟨fun hend => ?_, fun hs => hs ▸ rfl⟩
  obtain ⟨rest, hrest⟩ := s.exists_toList_render
  rw [hend] at hrest
  cases s with
  | close => rfl
  | _ => simp [beginning] at hrest

theorem render_eq_callLine_iff {s : Stmt} {number : Nat} :
    s.render = callLine number ↔ s = call number := by
  refine ⟨fun hcall => ?_, fun hs => hs ▸ render_call number⟩
  obtain ⟨rest, hrest⟩ := s.exists_toList_render
  cases s with
  | call n => exact congrArg call (callLine_injective hcall)
  | _ => simp [hcall, callLine, beginning] at hrest

theorem render_eq_declarationLine_iff {s : Stmt} {number : Nat} :
    s.render = declarationLine number ↔ s = function number := by
  refine ⟨fun hdeclares => ?_, fun hs => hs ▸ render_function number⟩
  obtain ⟨rest, hrest⟩ := s.exists_toList_render
  cases s with
  | function n =>
    rw [render_function] at hdeclares
    exact congrArg function (callLine_injective ((String.append_right_inj _).mp hdeclares))
  | _ => simp [hdeclares, declarationLine, callLine, beginning] at hrest

theorem isDeclaration_render (s : Stmt) : isDeclaration s.render = s.declared?.isSome := by
  obtain ⟨rest, hrest⟩ := s.exists_toList_render
  rw [Bool.eq_iff_iff, isDeclaration, String.startsWith_string_iff, hrest]
  cases s <;> simp [beginning, declared?]

theorem opensBlock_render (s : Stmt) : opensBlock s.render = s.opens := by
  obtain ⟨rest, hrest⟩ := s.exists_toList_render
  rw [Bool.eq_iff_iff, opensBlock, isDeclaration]
  simp only [Bool.or_eq_true, String.startsWith_string_iff, hrest]
  cases s <;> simp [beginning, opens]

theorem not_isBlockLine_render {s : Stmt} (h : s.isBlockPart = false) : ¬ IsBlockLine s.render := by
  rintro (hopens | hend | ⟨number, hcall⟩)
  · rw [opensBlock_render] at hopens
    cases s <;> contradiction
  · rw [render_eq_end_iff.mp hend] at h
    contradiction
  · rw [render_eq_callLine_iff.mp hcall] at h
    contradiction

theorem openAfter?_render (blocks : Nat) (body : List Stmt) :
    openAfter? blocks (body.map render) = depthAfter? blocks body := by
  induction body generalizing blocks with
  | nil => rfl
  | cons s body ih =>
    rw [List.map_cons, openAfter?]
    by_cases hclose : s = close
    · subst hclose
      cases blocks with
      | zero => rfl
      | succ outer => exact ih outer
    · rw [if_neg (mt render_eq_end_iff.mp hclose), opensBlock_render, ih]
      cases s with
      | close => contradiction
      | _ => rfl

theorem filter_isDeclaration_render (body : List Stmt) :
    (body.map render).filter isDeclaration = (body.filterMap declared?).map declarationLine := by
  induction body with
  | nil => rfl
  | cons s body ih =>
    rw [List.map_cons, List.filter_cons, isDeclaration_render, ih]
    cases s with
    | function number =>
      rw [render_function]
      rfl
    | _ => rfl

end Stmt

end Brainfuck.Lua
