import Brainfuck.Proofs.Lua.Grammar
import Brainfuck.Text.Decimal

/-! What statements of the Lua fragment do. Integers are unbounded, the remainder `%` goes with the
quotient rounded down, and absent entries of a table come from its metatable. `io.read(1)` gives
nothing at the end of the input, `string.char` takes the values of a byte and fails on others, and
`string.format` knows `%03d`. A run has a budget of statements, as the machine has; what is not
finished within one budget may be with a larger one. -/

namespace Brainfuck.Lua

/-- A local name. -/
inductive Binding where
  | value (x : String) (n : Int)
  | function (f : String) (body : List Command)

/-- The local names in scope, the innermost first. -/
abbrev Scope := List Binding

inductive Value where
  | nil
  | bool (b : Bool)
  | int (n : Int)
  | bytes (s : List UInt8)
  | table (entries : Int → Value)
  /-- A table that, as a metatable, gives `n` for absent entries. -/
  | fallback (n : Int)
  | function (body : List Command) (scope : Scope)

/-- Why a run is broken off. -/
inductive Trap where
  /-- `string.char` was applied to a value that is no byte. -/
  | noByte (n : Int)
  | zeroDivisor
  | wrongType

structure World where
  globals : String → Value
  input : List UInt8
  output : Array UInt8

namespace World

def set (w : World) (x : String) (v : Value) : World :=
  { w with globals := fun y => if y = x then v else w.globals y }

/-- Nothing is defined. -/
def blank : World := ⟨fun _ => .nil, [], #[]⟩

end World

def bytesOf (s : String) : List UInt8 := s.toUTF8.data.toList

namespace Value

def isTrue : Value → Bool
  | nil | bool false => false
  | _ => true

/-- The text of a value in a concatenation. -/
def bytes? : Value → Option (List UInt8)
  | int n => some (bytesOf (Decimal.signed n))
  | bytes s => some s
  | _ => none

end Value

def Scope.value? (x : String) : Scope → Option Int
  | [] => none
  | .value y n :: outer => if y = x then some n else value? x outer
  | .function y _ :: outer => if y = x then none else value? x outer

/-- The body of a local function, with the names in scope there: itself and those outside it. -/
def Scope.function? (f : String) : Scope → Option (List Command × Scope)
  | [] => none
  | .value _ _ :: outer => function? f outer
  | .function g body :: outer =>
    if g = f then some (body, .function g body :: outer) else function? f outer

namespace World

def lookup (w : World) (scope : Scope) (x : String) : Value :=
  match scope.value? x with
  | some n => .int n
  | none => w.globals x

/-- The function that a name stands for. -/
def function? (w : World) (scope : Scope) (f : String) : Option (List Command × Scope) :=
  match scope.function? f, w.globals f with
  | some found, _ => some found
  | none, .function body scope => some (body, scope)
  | none, _ => none

end World

/-- The value of an operation other than `or`. -/
def Binary.apply : Binary → Value → Value → Except Trap Value
  | add, .int a, .int b => .ok (.int (a + b))
  | sub, .int a, .int b => .ok (.int (a - b))
  | mul, .int a, .int b => .ok (.int (a * b))
  | mod, .int a, .int b => if b = 0 then .error .zeroDivisor else .ok (.int (Int.fmod a b))
  | eq, .int a, .int b => .ok (.bool (a = b))
  | ne, .int a, .int b => .ok (.bool (a ≠ b))
  | concat, a, b =>
    match a.bytes?, b.bytes? with
    | some s, some t => .ok (.bytes (s ++ t))
    | _, _ => .error .wrongType
  | _, _, _ => .error .wrongType

/-- The text of `n` in a format in which `%03d` is the only directive. -/
def format? (n : Int) : List UInt8 → Option (List UInt8)
  | [] => some []
  | 37 :: 48 :: 51 :: 100 :: rest => (format? n rest).map (bytesOf (Decimal.padded 3 n) ++ ·)
  | 37 :: _ => none
  | b :: rest => (format? n rest).map (b :: ·)

/-- A function of the library, applied to one value. -/
def library (w : World) : String → Value → Except Trap (Value × World)
  | "string.char", .int n =>
    if 0 ≤ n ∧ n ≤ 255 then .ok (.bytes [UInt8.ofNat n.toNat], w) else .error (.noByte n)
  | "string.byte", .bytes s => .ok (s.head?.elim .nil fun b => .int b.toNat, w)
  | "io.read", .int 1 =>
    match w.input with
    | [] => .ok (.nil, w)
    | b :: rest => .ok (.bytes [b], { w with input := rest })
  | "io.write", v =>
    match v.bytes? with
    | some s => .ok (.nil, { w with output := w.output ++ s })
    | none => .error .wrongType
  | _, _ => .error .wrongType

def library₂ : String → Value → Value → Except Trap Value
  | "string.format", .bytes s, .int n =>
    match format? n s with
    | some s => .ok (.bytes s)
    | none => .error .wrongType
  | "setmetatable", .table entries, .fallback n =>
    .ok (.table fun k => match entries k with | .nil => .int n | v => v)
  | _, _, _ => .error .wrongType

def eval (scope : Scope) (w : World) : Term → Except Trap (Value × World)
  | .number n => .ok (.int n, w)
  | .text s => .ok (.bytes (bytesOf s), w)
  | .var x => .ok (w.lookup scope x, w)
  | .index x k =>
    match eval scope w k with
    | .error e => .error e
    | .ok (k, w) =>
      match w.lookup scope x, k with
      | .table entries, .int k => .ok (entries k, w)
      | _, _ => .error .wrongType
  | .negate a =>
    match eval scope w a with
    | .error e => .error e
    | .ok (.int n, w) => .ok (.int (-n), w)
    | .ok _ => .error .wrongType
  | .binary op a b =>
    match eval scope w a with
    | .error e => .error e
    | .ok (x, w) =>
      if op = .or ∧ x.isTrue then .ok (x, w)
      else
        match eval scope w b with
        | .error e => .error e
        | .ok (y, w) => if op = .or then .ok (y, w) else (op.apply x y).map (·, w)
  | .call f a =>
    match eval scope w a with
    | .error e => .error e
    | .ok (x, w) => library w f x
  | .call₂ f a b =>
    match eval scope w a with
    | .error e => .error e
    | .ok (x, w) =>
      match eval scope w b with
      | .error e => .error e
      | .ok (y, w) => (library₂ f x y).map (·, w)
  | .invoke _ => .error .wrongType
  | .emptyTable => .ok (.table fun _ => .nil, w)
  | .fallbackTable n => .ok (.fallback n, w)

/-- How a run ends. -/
inductive Result where
  | finished (w : World)
  | trapped (trap : Trap)
  /-- The budget is used up. -/
  | unfinished

def Result.andThen (r : Result) (next : World → Result) : Result :=
  match r with
  | finished w => next w
  | trapped trap => .trapped trap
  | unfinished => .unfinished

/-- The integers from `first` to `last`. -/
def upTo (first last : Int) : List Int :=
  (List.range (last + 1 - first).toNat).map fun k => first + (k : Nat)

/-- Executes statements with a budget. -/
def exec : Nat → List Command → Scope → World → Result
  | _, [], _, w => .finished w
  | 0, _ :: _, _, _ => .unfinished
  | budget + 1, c :: rest, scope, w =>
    match c with
    | .assign x e =>
      match eval scope w e with
      | .error trap => .trapped trap
      | .ok (v, w) => exec budget rest scope (w.set x v)
    | .store x k e =>
      match eval scope w k with
      | .error trap => .trapped trap
      | .ok (i, w) =>
        match eval scope w e with
        | .error trap => .trapped trap
        | .ok (v, w) =>
          match w.globals x, i with
          | .table entries, .int i =>
            exec budget rest scope
              (w.set x (.table fun j => if j = i then v else entries j))
          | _, _ => .trapped .wrongType
    | .evaluate (.invoke f) =>
      match w.function? scope f with
      | none => .trapped .wrongType
      | some (body, inner) => (exec budget body inner w).andThen (exec budget rest scope)
    | .evaluate e =>
      match eval scope w e with
      | .error trap => .trapped trap
      | .ok (_, w) => exec budget rest scope w
    | .whileDo e body =>
      match eval scope w e with
      | .error trap => .trapped trap
      | .ok (v, w) =>
        if v.isTrue then
          (exec budget body scope w).andThen (exec budget (.whileDo e body :: rest) scope)
        else exec budget rest scope w
    | .ifElse e yes no =>
      match eval scope w e with
      | .error trap => .trapped trap
      | .ok (v, w) =>
        (exec budget (if v.isTrue then yes else no) scope w).andThen (exec budget rest scope)
    | .forTo x a b body =>
      match eval scope w a with
      | .error trap => .trapped trap
      | .ok (first, w) =>
        match eval scope w b with
        | .error trap => .trapped trap
        | .ok (last, w) =>
          match first, last with
          | .int first, .int last =>
            exec budget (.forEach x (upTo first last) body :: rest) scope w
          | _, _ => .trapped .wrongType
    | .forEach _ [] _ => exec budget rest scope w
    | .forEach x (n :: values) body =>
      (exec budget body (.value x n :: scope) w).andThen
        (exec budget (.forEach x values body :: rest) scope)
    | .localFunction f body => exec budget rest (.function f body :: scope) w
    | .function f body => exec budget rest scope (w.set f (.function body scope))

end Brainfuck.Lua
