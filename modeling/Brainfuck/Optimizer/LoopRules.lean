import Brainfuck.Instr

/-! Rewrites of whole loops. Both take a loop on the current cell whose body holds no other block,
and need only look at how the body treats that cell: a body that sets it to zero runs at most once,
and a body of adjustments that decreases it by one runs as often as its value says. -/

namespace Brainfuck

namespace Op

/-- Whether the operation may stand in a body that runs at most once: it does not move, read or
nest, and stores nothing but zero in the current cell. -/
def allowsOnce : Op → Bool
  | adjust _ _ offset => offset != 0
  | assign value offset => offset != 0 || value == 0
  | write .. => true
  | addScaled _ _ dest _ => dest != 0
  | addTo _ dest _ => dest != 0
  | copy _ dest _ _ => dest != 0
  | _ => false

/-- The offset and the change of an adjustment. -/
def adjustment? : Op → Option (Int × Int)
  | adjust sign amount offset => some (offset, sign.change amount)
  | _ => none

end Op

namespace LoopRules

/-- A loop that sets the current cell to zero, and stores nothing else there, is a block that runs
at most once. -/
def toOnce? (opener : Instr) (body : List Instr) (last : Instr) : Option (List Instr) :=
  if opener.op = .loop 0 ∧ body.all (·.op.allowsOnce) ∧ body.any (·.op == .assign 0 0) then
    some (⟨opener.depth, .once⟩ :: body ++ [last])
  else none

/-- The sum of the changes at `offset`. -/
def netChange (offset : Int) : List (Int × Int) → Int
  | [] => 0
  | (k, change) :: rest =>
    if k = offset then change + netChange offset rest else netChange offset rest

/-- `offset` at its place in an ascending list, unless it is there already. -/
def insertOffset (offset : Int) : List Int → List Int
  | [] => [offset]
  | k :: rest =>
    if offset < k then offset :: k :: rest
    else if offset = k then k :: rest
    else k :: insertOffset offset rest

/-- The offsets that are adjusted, ascending, each once. -/
def offsets (adjustments : List (Int × Int)) : List Int :=
  adjustments.foldr (fun a ks => insertOffset a.1 ks) []

/-- A loop of adjustments that decreases the current cell by one adds a multiple of that cell to
every other cell, and leaves zero in it. -/
def toTransfers? (opener : Instr) (body : List Instr) (_last : Instr) : Option (List Instr) :=
  match body.mapM (·.op.adjustment?) with
  | none => none
  | some adjustments =>
    if opener.op = .loop 0 ∧ netChange 0 adjustments = -1 then
      let others := (offsets adjustments).filter fun k => k != 0 && netChange k adjustments != 0
      some (others.map (fun k => ⟨opener.depth, .ofTerms 0 (netChange k adjustments) k 0⟩) ++
        [⟨opener.depth, .assign 0 0⟩])
    else none

end LoopRules

end Brainfuck
