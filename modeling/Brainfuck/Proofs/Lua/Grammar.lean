/-! A fragment of Lua as text: its tokens, its grammar and its trees. The fragment has the
statements and expressions of printed programs and of their header. Expressions are read by an
operator-precedence parser, with the priorities of the language: unary minus binds more tightly than
`*` and `%`, these more tightly than `+` and `-`, then come `..`, comparisons and `or`. Every
function here is a structural recursion over the text or the tokens, so that a text in two parts is
read part by part. -/

namespace Brainfuck.Lua

inductive Token where
  /-- A name or a reserved word. -/
  | word (s : String)
  | number (n : Nat)
  /-- A quoted text. -/
  | text (s : String)
  | symbol (s : String)
  deriving DecidableEq, Repr

namespace Lexer

/-- What the characters since the last complete token are part of. -/
inductive Mode where
  | blank
  | word (cs : List Char)
  | digits (cs : List Char)
  | symbol (cs : List Char)
  /-- Inside a quoted text. -/
  | text (cs : List Char)
  /-- After a backslash in a quoted text. -/
  | escape (cs : List Char)
  | quoted (cs : List Char)
  | comment

def isLetter (c : Char) : Bool := c.isAlpha || c == '_'

/-- The symbols of two characters. -/
def doubled : List (List Char) := [['=', '='], ['~', '='], ['.', '.']]

def unescape : Char → Char
  | '0' => '\x00'
  | 'n' => '\n'
  | c => c

namespace Mode

/-- The mode after a character that begins something new. -/
def start (c : Char) : Mode :=
  if isLetter c then word [c]
  else if c.isDigit then digits [c]
  else if c.isWhitespace then blank
  else if c = '"' then text []
  else symbol [c]

/-- The mode after a character that belongs to what came before it. -/
def extend? : Mode → Char → Option Mode
  | word cs, c => if isLetter c || c.isDigit then some (word (cs ++ [c])) else none
  | digits cs, c => if c.isDigit then some (digits (cs ++ [c])) else none
  | symbol cs, c =>
    if cs = ['-'] ∧ c = '-' then some comment
    else if cs ++ [c] ∈ doubled then some (symbol (cs ++ [c]))
    else none
  | text cs, c =>
    some (if c = '"' then quoted cs else if c = '\\' then escape cs else text (cs ++ [c]))
  | escape cs, c => some (text (cs ++ [unescape c]))
  | comment, c => some (if c = '\n' then blank else comment)
  | blank, _ | quoted _, _ => none

/-- The token that is complete if nothing more belongs to it. A quote that is never closed is a
symbol, and no statement has such a symbol. -/
def tokens : Mode → List Token
  | word cs => [.word (String.ofList cs)]
  | digits cs => [.number (Nat.ofDigitChars 10 cs 0)]
  | symbol cs => [.symbol (String.ofList cs)]
  | quoted cs => [.text (String.ofList cs)]
  | text _ | escape _ => [.symbol "\""]
  | blank | comment => []

end Mode

def scan (mode : Mode) : List Char → List Token
  | [] => mode.tokens
  | c :: rest =>
    match mode.extend? c with
    | some mode => scan mode rest
    | none => mode.tokens ++ scan (.start c) rest

end Lexer

def lex (text : List Char) : List Token := Lexer.scan .blank text

inductive Binary where
  | or
  | eq
  | ne
  | concat
  | add
  | sub
  | mul
  | mod
  deriving DecidableEq, Repr

namespace Binary

def ofToken? : Token → Option Binary
  | .word "or" => some or
  | .symbol "==" => some eq
  | .symbol "~=" => some ne
  | .symbol ".." => some concat
  | .symbol "+" => some add
  | .symbol "-" => some sub
  | .symbol "*" => some mul
  | .symbol "%" => some mod
  | _ => none

/-- How strongly the operator takes the operand to its left. -/
def left : Binary → Nat
  | or => 1
  | eq | ne => 3
  | concat => 9
  | add | sub => 10
  | mul | mod => 11

/-- How strongly the operator holds the operand to its right; `..` groups to the right. -/
def right : Binary → Nat
  | concat => 8
  | op => op.left

end Binary

/-- The priority of unary minus. -/
def unaryPriority : Nat := 12

inductive Term where
  | number (n : Nat)
  | text (s : String)
  | var (x : String)
  /-- `x[k]`. -/
  | index (x : String) (k : Term)
  | negate (e : Term)
  | binary (op : Binary) (a b : Term)
  /-- `f()`. -/
  | invoke (f : String)
  /-- `f(a)`, where `f` may have a dot in it. -/
  | call (f : String) (a : Term)
  | call₂ (f : String) (a b : Term)
  | emptyTable
  /-- `{__index = function() return n end}`. -/
  | fallbackTable (n : Nat)
  deriving DecidableEq, Repr

inductive Command where
  | assign (x : String) (e : Term)
  /-- `x[k] = e`. -/
  | store (x : String) (k e : Term)
  /-- A call. -/
  | evaluate (e : Term)
  | whileDo (condition : Term) (body : List Command)
  | ifElse (condition : Term) (yes no : List Command)
  | forTo (x : String) (first last : Term) (body : List Command)
  /-- The rounds of a `for` loop that are left, each with the value of the variable. -/
  | forEach (x : String) (values : List Int) (body : List Command)
  | localFunction (f : String) (body : List Command)
  | function (f : String) (body : List Command)

namespace Parser

/-- What an expression that is being read is part of. -/
inductive Frame where
  | binary (op : Binary) (a : Term)
  | negate
  | paren
  | index (x : String)
  | call (f : String)
  | call₂ (f : String) (a : Term)
  | assign (x : String)
  | store (x : String) (k : Term)
  | whileDo
  | ifThen
  | forFirst (x : String)
  | forLast (x : String) (first : Term)

/-- A block that is open. -/
inductive Opened where
  | whileDo (condition : Term)
  | ifThen (condition : Term)
  | ifElse (condition : Term) (yes : List Command)
  | forTo (x : String) (first last : Term)
  | localFunction (f : String)
  | function (f : String)

/-- Where in the grammar the next token stands. -/
inductive Stage where
  /-- At the start of a statement. -/
  | start
  /-- These tokens must come next. -/
  | await (tokens : List Token) (next : Stage)
  | operand
  /-- After a name, which may be continued. -/
  | named (x : String)
  | field (x : String)
  /-- After a complete operand. -/
  | after (e : Term)
  | table
  | fallback
  | forName
  | functionName (opened : String → Opened)

end Parser

open Brainfuck.Lua.Parser in
structure Parser where
  /-- The open blocks, each with the statements before it, the last one first. -/
  outer : List (Opened × List Command)
  /-- The statements of the innermost block, the last one first. -/
  done : List Command
  frames : List Frame
  stage : Stage

namespace Parser

/-- The block as a statement. -/
def Opened.command (body : List Command) : Opened → Command
  | whileDo c => .whileDo c body
  | ifThen c => .ifElse c body []
  | ifElse c yes => .ifElse c yes body
  | forTo x a b => .forTo x a b body
  | localFunction f => .localFunction f body
  | function f => .function f body

/-- The parser at the start of a statement. -/
def atStart (outer : List (Opened × List Command)) (done : List Command) : Parser :=
  ⟨outer, done, [], .start⟩

/-- Applies the operators that hold the operand `e` at least as strongly as `priority`. -/
def reduce (priority : Nat) (e : Term) : List Frame → Term × List Frame
  | .binary op a :: rest =>
    if priority ≤ op.right then reduce priority (.binary op a e) rest else (e, .binary op a :: rest)
  | .negate :: rest =>
    if priority ≤ unaryPriority then reduce priority (.negate e) rest else (e, .negate :: rest)
  | rest => (e, rest)

/-- Opens a block. -/
def enter (p : Parser) (opened : Opened) : Parser := atStart ((opened, p.done) :: p.outer) []

/-- Adds a statement to the innermost block. -/
def add (p : Parser) (c : Command) : Parser := atStart p.outer (c :: p.done)

/-- The statement that the expression `e` completes. -/
def complete? (p : Parser) (e : Term) : List Frame → Option Parser
  | [.assign x] => some (p.add (.assign x e))
  | [.store x k] => some (p.add (.store x k e))
  | [] =>
    match e with
    | .invoke _ | .call _ _ | .call₂ _ _ _ => some (p.add (.evaluate e))
    | _ => none
  | _ => none

/-- The words that are no names. -/
def reserved : List String :=
  ["while", "do", "end", "if", "then", "else", "for", "local", "function", "return", "or"]

/-- The first token of a statement, or a word that ends a block. -/
def begin? (p : Parser) : Token → Option Parser
  | .word "while" => some { p with frames := [.whileDo], stage := .operand }
  | .word "if" => some { p with frames := [.ifThen], stage := .operand }
  | .word "for" => some { p with stage := .forName }
  | .word "local" =>
    some { p with stage := .await [.word "function"] (.functionName .localFunction) }
  | .word "function" => some { p with stage := .functionName .function }
  | .word "else" =>
    match p.outer with
    | (.ifThen c, before) :: outer =>
      some (atStart ((.ifElse c p.done.reverse, before) :: outer) [])
    | _ => none
  | .word "end" =>
    match p.outer with
    | (opened, before) :: outer => some (atStart outer (opened.command p.done.reverse :: before))
    | [] => none
  | .word x => if x ∈ reserved then none else some { p with frames := [], stage := .named x }
  | _ => none

/-- The token after a complete operand `e`: an operator, the end of what `e` is part of, or the
first token of the next statement. -/
def resume? (p : Parser) (e : Term) (t : Token) : Option Parser :=
  match Binary.ofToken? t with
  | some op =>
    let (a, frames) := reduce op.left e p.frames
    some { p with frames := .binary op a :: frames, stage := .operand }
  | none =>
    match reduce 0 e p.frames, t with
    | (e, .paren :: frames), .symbol ")" => some { p with frames, stage := .after e }
    | (e, .index x :: frames), .symbol "]" => some { p with frames, stage := .after (.index x e) }
    | (e, .call f :: frames), .symbol ")" => some { p with frames, stage := .after (.call f e) }
    | (e, .call f :: frames), .symbol "," =>
      some { p with frames := .call₂ f e :: frames, stage := .operand }
    | (e, .call₂ f a :: frames), .symbol ")" =>
      some { p with frames, stage := .after (.call₂ f a e) }
    | (e, [.whileDo]), .word "do" => some (p.enter (.whileDo e))
    | (e, [.ifThen]), .word "then" => some (p.enter (.ifThen e))
    | (e, [.forFirst x]), .symbol "," =>
      some { p with frames := [.forLast x e], stage := .operand }
    | (e, [.forLast x a]), .word "do" => some (p.enter (.forTo x a e))
    | (.var x, []), .symbol "=" => some { p with frames := [.assign x], stage := .operand }
    | (.index x k, []), .symbol "=" => some { p with frames := [.store x k], stage := .operand }
    | (e, frames), t => (p.complete? e frames).bind (·.begin? t)

/-- The first token of an expression or of an operand. -/
def operand? (p : Parser) : Token → Option Parser
  | .number n => some { p with stage := .after (.number n) }
  | .text s => some { p with stage := .after (.text s) }
  | .word x => if x ∈ reserved then none else some { p with stage := .named x }
  | .symbol "-" => some { p with frames := .negate :: p.frames }
  | .symbol "(" => some { p with frames := .paren :: p.frames }
  | .symbol "\x7b" => some { p with stage := .table }
  | .symbol ")" =>
    match p.frames with
    | .call f :: frames => some { p with frames, stage := .after (.invoke f) }
    | _ => none
  | _ => none

def step? (p : Parser) (t : Token) : Option Parser :=
  match p.stage, t with
  | .start, t => p.begin? t
  | .await [] _, _ => none
  | .await [u] next, t => if t = u then some { p with stage := next } else none
  | .await (u :: us) next, t => if t = u then some { p with stage := .await us next } else none
  | .operand, t => p.operand? t
  | .named x, .symbol "." => some { p with stage := .field x }
  | .named x, .symbol "[" => some { p with frames := .index x :: p.frames, stage := .operand }
  | .named x, .symbol "(" => some { p with frames := .call x :: p.frames, stage := .operand }
  | .named x, t => p.resume? (.var x) t
  | .field x, .word y => some { p with stage := .named (x ++ "." ++ y) }
  | .field _, _ => none
  | .after e, t => p.resume? e t
  | .table, .symbol "\x7d" => some { p with stage := .after .emptyTable }
  | .table, .word "__index" =>
    some { p with stage := .await [.symbol "=", .word "function", .symbol "(", .symbol ")",
      .word "return"] .fallback }
  | .table, _ => none
  | .fallback, .number n =>
    some { p with stage := .await [.word "end", .symbol "\x7d"] (.after (.fallbackTable n)) }
  | .fallback, _ => none
  | .forName, .word x =>
    some { p with frames := [.forFirst x], stage := .await [.symbol "="] .operand }
  | .forName, _ => none
  | .functionName opened, .word f =>
    some { p.enter (opened f) with stage := .await [.symbol "(", .symbol ")"] .start }
  | .functionName _, _ => none

def run? (p : Parser) : List Token → Option Parser
  | [] => some p
  | t :: rest => (p.step? t).bind (run? · rest)

/-- The parser with the statement before it completed. -/
def settle? (p : Parser) : Option Parser :=
  match p.stage with
  | .start => some p
  | .named x => let (e, frames) := reduce 0 (.var x) p.frames; p.complete? e frames
  | .after e => let (e, frames) := reduce 0 e p.frames; p.complete? e frames
  | _ => none

/-- The statements read, if all blocks are closed. -/
def commands? (p : Parser) : Option (List Command) :=
  match p.settle? with
  | some ⟨[], done, _, _⟩ => some done.reverse
  | _ => none

end Parser

/-- The statements of a text. -/
def parse? (text : String) : Option (List Command) :=
  ((Parser.atStart [] []).run? (lex text.toList)).bind Parser.commands?

end Brainfuck.Lua
