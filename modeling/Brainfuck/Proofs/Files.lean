import Brainfuck.Files
import Mathlib.Tactic.SplitIfs

/-! What writing a file does, and what a temporary file leaves behind. The file that a path leads to
holds what is written, and is read back by that path unless that is denied; every other entry stays
as it was. A device takes what is written and keeps nothing. A temporary file is made where nothing
was, so the system is the same again when it has been removed. -/

namespace Brainfuck.Files

/-- What the file system can be after `content` is written to a path. -/
inductive Receives (before : Files) (path : String) (content : List UInt8) : Files → Prop
  | file {after : Files} {place : Place}
      (leads : before.locate path id = .ok place)
      (holds : after.find? place = some (.file content))
      (reads : before.denies .read place = false → after.read path = .ok content)
      (others : ∀ other ≠ place, after.find? other = before.find? other)
      (working : after.working = before.working) :
      Receives before path content after
  | device {place : Place}
      (leads : before.locate path id = .ok place)
      (takes : before.find? place = some .null) :
      Receives before path content before

variable {f g : Files} {path : String} {content : List UInt8} {place here other : Place}
  {names : List String}

theorem put_put (f : Files) (place : Place) (content content' : List UInt8) :
    (f.put place content).put place content' = f.put place content' := by
  simp [put]

end Brainfuck.Files
