import Brainfuck.Machine
import Brainfuck.Proofs.Cells

/-! What can be seen of a run: the tape, the rest of the input and the output, and the events, the
bytes and texts that the machine has exchanged with its surroundings, in order. `Op.act` is what an
operation does to all of these; the trail of the pointer plays no part in it. -/

namespace Brainfuck

namespace Machine

variable {m : Int}

/-- What a state of the machine shows. -/
@[ext]
structure View (m : Int) where
  tape : Tape m
  input : List UInt8
  output : Option (Array UInt8)

def State.view (s : State m) : View m := ⟨s.tape, s.input, s.output⟩

/-- An exchange of the machine with its surroundings. -/
inductive Event where
  /-- A byte was taken from the input; none if the input was at its end. -/
  | received (byte : Option UInt8)
  | sent (byte : UInt8)
  /-- The text of the tape was written out. -/
  | dumped (text : String)
  deriving DecidableEq, Repr

/-- A view, and the events that led to it. -/
@[ext]
structure Observed (m : Int) extends View m where
  events : List Event

/-- The observation of a state when nothing has happened yet. -/
def State.observed (s : State m) : Observed m := ⟨s.view, []⟩

def Observed.move (w : Observed m) (distance : Int) : Observed m :=
  { w with tape := w.tape.move distance }

end Machine

open Machine

namespace Op

variable {m : Int}

/-- The event that an operation causes, if it causes any. -/
def event? (v : View m) : Op → Option Event
  | read _ => some (.received v.input.head?)
  | write offset bias => some (.sent (UInt8.ofInt (wrap m (v.tape.cell offset + bias))))
  | dump => some (.dumped v.tape.render)
  | _ => none

/-- What an operation does to an observation. -/
def act (op : Op) (w : Observed m) : Observed m :=
  ⟨(op.perform ⟨w.tape, w.input, w.output, none⟩).view, w.events ++ (op.event? w.toView).toList⟩

/-- What a state shows after an operation depends only on what it showed before. -/
theorem view_perform (op : Op) (s : State m) :
    (op.perform s).view = (op.perform ⟨s.tape, s.input, s.output, none⟩).view := by
  obtain ⟨tape, input, output, trail⟩ := s
  cases op with
  | read offset => cases input <;> rfl
  | _ => rfl

@[simp] theorem act_move (way : Direction) (amount : Int) (w : Observed m) :
    (move way amount).act w = w.move (way.displacement amount) := by
  simp [act, perform, State.move, State.mark, State.view, event?, Observed.move]

@[simp] theorem act_adjust (sign : Sign) (amount offset : Int) (w : Observed m) :
    (adjust sign amount offset).act w =
      { w with tape := w.tape.put offset (w.tape.cell offset + sign.change amount) } := by
  simp [act, perform, State.put, State.view, event?]

@[simp] theorem act_assign (value offset : Int) (w : Observed m) :
    (assign value offset).act w = { w with tape := w.tape.put offset value } := by
  simp [act, perform, State.put, State.view, event?]

@[simp] theorem act_read (offset : Int) (w : Observed m) :
    (read offset).act w =
      { tape := w.tape.put offset (w.input.head?.elim 0 fun byte => byte.toNat)
        input := w.input.tail
        output := w.output
        events := w.events ++ [.received w.input.head?] } := by
  obtain ⟨⟨tape, input, output⟩, events⟩ := w
  cases input <;> simp [act, perform, State.read, State.put, State.view, event?]

@[simp] theorem act_write (offset bias : Int) (w : Observed m) :
    (write offset bias).act w =
      { w with
        output := w.output.map (·.push (UInt8.ofInt (wrap m (w.tape.cell offset + bias))))
        events := w.events ++ [.sent (UInt8.ofInt (wrap m (w.tape.cell offset + bias)))] } := by
  simp [act, perform, State.write, State.view, event?]

@[simp] theorem act_addScaled (addend multiplier dest src : Int) (w : Observed m) :
    (addScaled addend multiplier dest src).act w =
      { w with
        tape := w.tape.put dest (w.tape.cell dest + addend + multiplier * w.tape.cell src) } := by
  simp [act, perform, State.put, State.view, event?]

@[simp] theorem act_addTo (sign dest src : Int) (w : Observed m) :
    (addTo sign dest src).act w =
      { w with tape := w.tape.put dest (w.tape.cell dest + sign * w.tape.cell src) } := by
  simp [act, perform, State.put, State.view, event?]

@[simp] theorem act_copy (value dest src multiplier : Int) (w : Observed m) :
    (copy value dest src multiplier).act w =
      { w with tape := w.tape.put dest (value + multiplier * w.tape.cell src) } := by
  simp [act, perform, State.put, State.view, event?]

/-- The simpler of two operations does the same as the other. -/
@[simp] theorem act_ofTerms (addend multiplier dest src : Int) (w : Observed m) :
    (ofTerms addend multiplier dest src).act w =
      { w with
        tape := w.tape.put dest (w.tape.cell dest + addend + multiplier * w.tape.cell src) } := by
  unfold ofTerms
  split
  · next h => simp [h.1]
  · simp

/-- Whether there is somewhere to send to does not change. -/
theorem isSome_output_act (op : Op) (w : Observed m) :
    (op.act w).output.isSome = w.output.isSome := by
  cases op with
  | read offset => rw [act_read]
  | write offset bias => simp
  | dump => simp [act, perform, State.dump, State.view]
  | _ => rfl

/-- An operation with shifted offsets, and then a movement, do what the operation does after the
movement. -/
theorem act_shift {op : Op} (h : op.isCellAccess = true ∨ op.isTransfer = true) (distance : Int)
    (w : Observed m) :
    ((op.shift distance).act w).move distance = op.act (w.move distance) := by
  cases op with
  | adjust sign amount offset =>
    simp [shift, Observed.move, Tape.cell_move, Tape.put_move]
  | assign value offset => simp [shift, Observed.move, Tape.put_move]
  | read offset => simp [shift, Observed.move, Tape.put_move]
  | write offset bias => simp [shift, Observed.move, Tape.cell_move]
  | addScaled addend multiplier dest src =>
    simp [shift, Observed.move, Tape.cell_move, Tape.put_move]
  | addTo sign dest src => simp [shift, Observed.move, Tape.cell_move, Tape.put_move]
  | copy value dest src multiplier =>
    simp [shift, Observed.move, Tape.cell_move, Tape.put_move]
  | _ => simp [isCellAccess, isTransfer] at h

/-- The operations one after the other. -/
def actAll (ops : List Op) (w : Observed m) : Observed m := ops.foldl (fun w op => op.act w) w

@[simp] theorem actAll_nil (w : Observed m) : actAll [] w = w := rfl

@[simp] theorem actAll_cons (op : Op) (ops : List Op) (w : Observed m) :
    actAll (op :: ops) w = actAll ops (op.act w) := rfl

theorem actAll_append (xs ys : List Op) (w : Observed m) :
    actAll (xs ++ ys) w = actAll ys (actAll xs w) := List.foldl_append

theorem events_act (op : Op) (w : Observed m) :
    (op.act w).events = w.events ++ (op.event? w.toView).toList := rfl

/-- Events are only added. -/
theorem events_prefix_act (op : Op) (w : Observed m) : w.events <+: (op.act w).events :=
  List.prefix_append ..

/-- An operation adds at most one event. -/
theorem eq_or_eq_of_prefix_act (op : Op) {w : Observed m} {events : List Event}
    (h : w.events <+: events) (h' : events <+: (op.act w).events) :
    events = w.events ∨ events = (op.act w).events := by
  rw [events_act] at h' ⊢
  generalize op.event? w.toView = event? at h' ⊢
  cases event? with
  | none =>
    simp only [Option.toList_none, List.append_nil] at h' ⊢
    exact .inl (h'.eq_of_length_le h.length_le)
  | some event =>
    rcases List.prefix_concat_iff.mp h' with rfl | h'
    · exact .inr rfl
    · exact .inl (h'.eq_of_length_le h.length_le)

theorem events_prefix_actAll (ops : List Op) (w : Observed m) :
    w.events <+: (actAll ops w).events := by
  induction ops generalizing w with
  | nil => exact List.prefix_refl _
  | cons op ops ih => exact (events_prefix_act op w).trans (ih _)

end Op

end Brainfuck
