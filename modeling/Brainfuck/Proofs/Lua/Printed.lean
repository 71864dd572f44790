import Brainfuck.Lua.Code
import Brainfuck.Proofs.Lua.Grammar

/-! The tokens of printed code. A number or a word that is followed by a blank or a closing bracket
is a token of its own, and a minus sign is never printed right after another, so that a line is read
as the tokens of its parts. -/

namespace Brainfuck.Lua

namespace Lexer

/-- A character that may follow an expression. -/
def ends (c : Char) : Bool := c == ' ' || c == ')' || c == ']' || c == '\n'

theorem scan_flush {mode : Mode} {c : Char} (h : mode.extend? c = none) (rest : List Char) :
    scan mode (c :: rest) = mode.tokens ++ scan .blank (c :: rest) := by
  rw [scan, h, scan]
  rfl

theorem not_isLetter_of_isDigit {c : Char} (h : c.isDigit = true) : isLetter c = false := by
  have hne : c ≠ '_' := by
    rintro rfl
    contradiction
  have hless (d : Char) (hd : '9'.toNat < d.toNat) : ¬ d.val ≤ c.val := by
    intro hle
    exact absurd (UInt32.le_iff_toNat_le.mp hle)
      (Nat.not_le_of_lt (Nat.lt_of_le_of_lt (Char.isDigit_iff_toNat.mp h).2 hd))
  show ((decide (c.val ≥ 'A'.val ∧ c.val ≤ 'Z'.val) ||
    (decide (c.val ≥ 'a'.val) && decide (c.val ≤ 'z'.val))) || c == '_') = false
  rw [decide_eq_false fun hupper => hless 'A' (by decide) hupper.1,
    decide_eq_false (hless 'a' (by decide))]
  simp [hne]

theorem not_isDigit_of_ends {c : Char} (h : ends c = true) : c.isDigit = false := by
  simp only [ends, Bool.or_eq_true, beq_iff_eq] at h
  rcases h with ((rfl | rfl) | rfl) | rfl <;> rfl

theorem not_isLetter_of_ends {c : Char} (h : ends c = true) : isLetter c = false := by
  simp only [ends, Bool.or_eq_true, beq_iff_eq] at h
  rcases h with ((rfl | rfl) | rfl) | rfl <;> rfl

theorem scan_digits {ds : List Char} (h : ∀ d ∈ ds, d.isDigit = true) (cs rest : List Char) :
    scan (.digits cs) (ds ++ rest) = scan (.digits (cs ++ ds)) rest := by
  induction ds generalizing cs with
  | nil => simp
  | cons d ds ih =>
    obtain ⟨hd, hds⟩ := List.forall_mem_cons.mp h
    rw [List.cons_append, scan, Mode.extend?, if_pos hd]
    simpa using ih hds (cs ++ [d])

theorem scan_word_digits {ds : List Char} (h : ∀ d ∈ ds, d.isDigit = true) (cs rest : List Char) :
    scan (.word cs) (ds ++ rest) = scan (.word (cs ++ ds)) rest := by
  induction ds generalizing cs with
  | nil => simp
  | cons d ds ih =>
    obtain ⟨hd, hds⟩ := List.forall_mem_cons.mp h
    rw [List.cons_append, scan, Mode.extend?, if_pos (by simp [hd])]
    simpa using ih hds (cs ++ [d])

theorem scan_word_flush (cs : List Char) {c : Char} (hc : ends c = true) (rest : List Char) :
    scan (.word cs) (c :: rest) = .word (String.ofList cs) :: scan .blank (c :: rest) := by
  refine scan_flush ?_ rest
  simp [Mode.extend?, not_isLetter_of_ends hc, not_isDigit_of_ends hc]

theorem scan_natural (n : Nat) {c : Char} (hc : ends c = true) (rest : List Char) :
    scan .blank ((Decimal.natural n).toList ++ c :: rest) =
      .number n :: scan .blank (c :: rest) := by
  obtain ⟨d, ds, hds, hdigits⟩ := Decimal.exists_toList_natural n
  obtain ⟨hd, hdigits⟩ := List.forall_mem_cons.mp hdigits
  have hstart : Mode.start d = .digits [d] := by
    simp [Mode.start, not_isLetter_of_isDigit hd, hd]
  have hvalue : Nat.ofDigitChars 10 (d :: ds) 0 = n := by
    rw [← hds, Decimal.ofDigitChars_natural]
  rw [hds, List.cons_append, scan, Mode.extend?]
  simp only [hstart, scan_digits hdigits]
  rw [scan_flush (by simp [Mode.extend?, not_isDigit_of_ends hc])]
  simp only [Mode.tokens, List.nil_append, List.cons_append, hvalue]

/-- A symbol that no symbol of two characters begins with. -/
theorem scan_symbol {s : Char} (hs : s ∉ ['-', '=', '~', '.']) (rest : List Char) :
    scan (.symbol [s]) rest = .symbol (String.ofList [s]) :: scan .blank rest := by
  cases rest with
  | nil => rfl
  | cons c rest =>
    refine scan_flush ?_ rest
    simp only [List.mem_cons, List.not_mem_nil, or_false, not_or] at hs
    simp [Mode.extend?, doubled, hs]

theorem scan_minus {c : Char} (hc : c ≠ '-') (rest : List Char) :
    scan (.symbol ['-']) (c :: rest) = .symbol "-" :: scan .blank (c :: rest) :=
  scan_flush (by simp [Mode.extend?, doubled, hc]) rest

end Lexer

def signedTokens (n : Int) : List Token :=
  (if n < 0 then [.symbol "-"] else []) ++ [.number n.natAbs]

open Lexer in
theorem scan_signed (n : Int) {c : Char} (hc : ends c = true) (rest : List Char) :
    scan .blank ((Decimal.signed n).toList ++ c :: rest) =
      signedTokens n ++ scan .blank (c :: rest) := by
  rw [Decimal.signed, String.toList_append, List.append_assoc, Decimal.minus, signedTokens,
    List.append_assoc, List.singleton_append, ← scan_natural n.natAbs hc rest]
  by_cases hn : n < 0
  · obtain ⟨d, ds, hds, hdigits⟩ := Decimal.exists_toList_natural n.natAbs
    have hd : d ≠ '-' := by
      rintro rfl
      exact absurd (hdigits '-' (by simp)) (by decide)
    rw [if_pos hn, if_pos hn, hds]
    exact scan_minus hd _
  · rw [if_neg hn, if_neg hn]
    rfl

namespace Expr

def cellTokens (offset : Int) : List Token :=
  [.word "data", .symbol "[", .word "ptr"] ++
    (if offset > 0 then .symbol "+" :: signedTokens offset
    else if offset < 0 then .symbol "-" :: signedTokens (-offset)
    else []) ++ [.symbol "]"]

def tokens : Expr → List Token
  | int n => signedTokens n
  | cell offset => cellTokens offset
  | max => [.word "max"]
  | readByte =>
    [.word "string", .symbol ".", .word "byte", .symbol "(", .word "io", .symbol ".", .word "read",
      .symbol "(", .number 1, .symbol ")", .word "or", .text "\x00", .symbol ")"]
  | neg e => .symbol "-" :: e.tokens
  | add a b => a.tokens ++ .symbol "+" :: b.tokens
  | sub a b => a.tokens ++ .symbol "-" :: b.tokens
  | mul a b => a.tokens ++ .symbol "*" :: b.tokens
  | mod a b => a.tokens ++ .symbol "%" :: b.tokens
  | paren e => .symbol "(" :: e.tokens ++ [.symbol ")"]

/-- How strongly an expression holds together: the priority of its weakest operator outside
parentheses. -/
def level : Expr → Nat
  | int n => if n < 0 then unaryPriority else unaryPriority + 1
  | neg _ => unaryPriority
  | add _ _ | sub _ _ => Binary.add.left
  | mul _ _ | mod _ _ => Binary.mul.left
  | cell _ | max | readByte | paren _ => unaryPriority + 1

/-- The parentheses printed are all that the expression needs. -/
def Fits : Expr → Prop
  | int _ | cell _ | max | readByte => True
  | neg e => ∃ offset, e = cell offset
  | add a b | sub a b => a.Fits ∧ b.Fits ∧ Binary.add.left ≤ a.level ∧ Binary.add.right < b.level
  | mul a b | mod a b => a.Fits ∧ b.Fits ∧ Binary.mul.left ≤ a.level ∧ Binary.mul.right < b.level
  | paren e => e.Fits

open Lexer

theorem renderCell_toList (offset : Int) : ∃ cs, (renderCell offset).toList = 'd' :: cs := by
  unfold renderCell
  split
  · exact ⟨_, by simp only [String.toList_append, List.append_assoc]; rfl⟩
  · split
    · exact ⟨_, by simp only [String.toList_append, List.append_assoc]; rfl⟩
    · exact ⟨_, rfl⟩

theorem scan_renderCell (offset : Int) (rest : List Char) :
    scan .blank ((renderCell offset).toList ++ rest) = cellTokens offset ++ scan .blank rest := by
  have hclose : scan .blank (']' :: rest) = .symbol "]" :: scan .blank rest :=
    scan_symbol (s := ']') (by decide) rest
  have hoffset (n : Int) : scan .blank ((Decimal.signed n).toList ++ ']' :: rest) =
      signedTokens n ++ .symbol "]" :: scan .blank rest := by
    rw [scan_signed n rfl, hclose]
  unfold renderCell cellTokens
  split
  · simp only [String.toList_append, List.append_assoc, List.cons_append, List.nil_append]
    rw [← hoffset]
    rfl
  · split
    · simp only [String.toList_append, List.append_assoc, List.cons_append, List.nil_append]
      rw [← hoffset]
      rfl
    · exact congrArg ([Token.word "data", .symbol "[", .word "ptr"] ++ ·) hclose

theorem scan_render {e : Expr} (he : e.Fits) {c : Char} (hc : ends c = true) (rest : List Char) :
    scan .blank (e.render.toList ++ c :: rest) = e.tokens ++ scan .blank (c :: rest) := by
  induction e generalizing c rest with
  | int n => exact scan_signed n hc rest
  | cell offset => exact scan_renderCell offset (c :: rest)
  | max => exact scan_word_flush "max".toList hc rest
  | readByte =>
    exact congrArg ((readByte.tokens.take 12) ++ ·) (scan_symbol (s := ')') (by decide) (c :: rest))
  | neg e ih =>
    obtain ⟨offset, rfl⟩ := he
    obtain ⟨cs, hcs⟩ := renderCell_toList offset
    simp only [render, tokens, String.toList_append, List.append_assoc, List.cons_append]
    rw [← scan_renderCell, hcs]
    exact scan_minus (c := 'd') (by decide) _
  | add a b iha ihb | sub a b iha ihb | mul a b iha ihb | mod a b iha ihb =>
    obtain ⟨ha, hb, -⟩ := he
    simp only [render, tokens, String.toList_append, List.append_assoc, List.cons_append]
    rw [← ihb hb hc]
    exact iha ha (c := ' ') rfl _
  | paren e ih =>
    have hclose : scan .blank (')' :: c :: rest) = .symbol ")" :: scan .blank (c :: rest) :=
      scan_symbol (s := ')') (by decide) _
    simp only [render, tokens, String.toList_append, List.append_assoc, List.cons_append,
      List.nil_append]
    rw [← hclose, ← ih he (c := ')') rfl]
    exact scan_symbol (s := '(') (by decide) _

end Expr

/-- The name of the function with the given number. -/
def functionName (number : Nat) : String := "loop" ++ Decimal.natural number

namespace Stmt

def callTokens (number : Nat) : List Token :=
  [.word (functionName number), .symbol "(", .symbol ")"]

def tokens : Stmt → List Token
  | setCell offset value => Expr.cellTokens offset ++ .symbol "=" :: value.tokens
  | movePtr .left amount =>
    [.word "ptr", .symbol "=", .word "ptr", .symbol "-"] ++ signedTokens amount
  | movePtr .right amount =>
    [.word "ptr", .symbol "=", .word "ptr", .symbol "+"] ++ signedTokens amount
  | writeByte value =>
    [.word "io", .symbol ".", .word "write", .symbol "(", .word "string", .symbol ".",
      .word "char", .symbol "("] ++ value.tokens ++ [.symbol ")", .symbol ")"]
  | whileCell offset =>
    .word "while" :: Expr.cellTokens offset ++ [.symbol "~=", .number 0, .word "do"]
  | ifCell => .word "if" :: Expr.cellTokens 0 ++ [.symbol "~=", .number 0, .word "then"]
  | function number => [.word "local", .word "function"] ++ callTokens number
  | call number => callTokens number
  | close => [.word "end"]
  | dump => [.word "bf_debug", .symbol "(", .symbol ")"]

/-- The expression in the statement needs no more parentheses than are printed. -/
def Fits : Stmt → Prop
  | setCell _ value | writeByte value => value.Fits
  | _ => True

open Lexer

theorem scan_renderCall (number : Nat) (rest : List Char) :
    scan .blank ((renderCall number).toList ++ rest) =
      callTokens number ++ scan .blank rest := by
  obtain ⟨d, ds, hds, hdigits⟩ := Decimal.exists_toList_natural number
  have hname : functionName number = String.ofList ("loop".toList ++ d :: ds) := by
    rw [functionName, ← hds, String.ofList_append, String.ofList_toList, String.ofList_toList]
  simp only [renderCall, String.toList_append, List.append_assoc, callTokens, hname, hds]
  calc scan .blank ("loop".toList ++ ((d :: ds) ++ ("()".toList ++ rest)))
      = scan (.word "loop".toList) ((d :: ds) ++ ('(' :: ')' :: rest)) := rfl
    _ = scan (.word ("loop".toList ++ d :: ds)) ('(' :: ')' :: rest) :=
        scan_word_digits hdigits _ _
    _ = .word (String.ofList ("loop".toList ++ d :: ds)) ::
          .symbol "(" :: scan .blank (')' :: rest) := scan_flush rfl _
    _ = _ := congrArg (Token.word (String.ofList _) :: .symbol "(" :: ·)
        (scan_symbol (s := ')') (by decide) rest)

theorem scan_render {s : Stmt} (hs : s.Fits) (rest : List Char) :
    scan .blank (s.render.toList ++ '\n' :: rest) = s.tokens ++ scan .blank rest := by
  cases s with
  | setCell offset value =>
    dsimp only [render, tokens]
    simp only [String.toList_append, List.append_assoc, List.cons_append]
    rw [Expr.scan_renderCell]
    exact congrArg (_ ++ .symbol "=" :: ·) (Expr.scan_render hs (c := '\n') rfl rest)
  | movePtr way amount =>
    cases way with
    | left =>
      dsimp only [render, tokens]
      simp only [String.toList_append, List.append_assoc]
      exact congrArg ([Token.word "ptr", .symbol "=", .word "ptr", .symbol "-"] ++ ·)
        (scan_signed amount (c := '\n') rfl rest)
    | right =>
      dsimp only [render, tokens]
      simp only [String.toList_append, List.append_assoc]
      exact congrArg ([Token.word "ptr", .symbol "=", .word "ptr", .symbol "+"] ++ ·)
        (scan_signed amount (c := '\n') rfl rest)
  | writeByte value =>
    dsimp only [render, tokens]
    simp only [String.toList_append, List.append_assoc]
    have hvalue : scan (.symbol ['(']) (value.render.toList ++ ')' :: ')' :: '\n' :: rest) =
        .symbol "(" :: (value.tokens ++ .symbol ")" :: .symbol ")" :: scan .blank rest) :=
      (scan_symbol (s := '(') (by decide) _).trans
        (congrArg (Token.symbol "(" :: ·) (Expr.scan_render hs (c := ')') rfl _))
    exact congrArg ([Token.word "io", .symbol ".", .word "write", .symbol "(", .word "string",
      .symbol ".", .word "char"] ++ ·) hvalue
  | whileCell offset =>
    dsimp only [render, tokens]
    simp only [String.toList_append, List.append_assoc]
    exact congrArg (Token.word "while" :: ·) (Expr.scan_renderCell offset _)
  | ifCell => rfl
  | function number =>
    dsimp only [render, tokens]
    simp only [String.toList_append, List.append_assoc]
    exact congrArg ([Token.word "local", .word "function"] ++ ·) (scan_renderCall number _)
  | call number => exact scan_renderCall number _
  | close => rfl
  | dump => rfl

end Stmt

/-- The tokens of printed lines. -/
def tokens (ls : List Line) : List Token := ls.flatMap (·.stmt.tokens)

theorem scan_tabs (n : Nat) (rest : List Char) :
    Lexer.scan .blank (List.replicate n '\t' ++ rest) = Lexer.scan .blank rest := by
  induction n with
  | zero => rfl
  | succ n ih => exact ih

theorem lex_lines {ls : List Line} (h : ∀ l ∈ ls, l.stmt.Fits) (rest : List Char) :
    lex ((String.join (ls.map (·.render))).toList ++ rest) = tokens ls ++ lex rest := by
  induction ls with
  | nil => rfl
  | cons l ls ih =>
    obtain ⟨hl, hls⟩ := List.forall_mem_cons.mp h
    rw [tokens, List.flatMap_cons, ← tokens, List.append_assoc, ← ih hls, lex, List.map_cons,
      String.join_cons, Line.render, lex]
    simp only [String.toList_append, String.toList_ofList, List.append_assoc]
    rw [scan_tabs]
    exact Stmt.scan_render hl _

end Brainfuck.Lua
