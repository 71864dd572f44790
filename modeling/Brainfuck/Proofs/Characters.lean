import Brainfuck.Proofs.Refinement
import Brainfuck.Proofs.Simplification

/-! Texts, interpreted one character at a time. A `Reader` knows the characters ahead of it and
where the loops around it begin; it joins no runs, has no jump table, and looks for the end of a
loop in the text when it has to skip it. What lowering makes of a text halts exactly as the reader
does, and the reader makes no difference between a text and its simplification, as far as loops
without a modulus end. -/

namespace Brainfuck

open Machine

variable {m : Int}

theorem Op.isSome_output_actAll (ops : List Op) (w : Observed m) :
    (actAll ops w).output.isSome = w.output.isSome := by
  induction ops generalizing w with
  | nil => rfl
  | cons op ops ih => rw [actAll_cons, ih, isSome_output_act]

theorem Body.Run.isSome_output {b : Body} {w u : Observed m} (h : b.Run w (.over u)) :
    u.output.isSome = w.output.isSome := by
  generalize hr : Progress.over u = r at h
  induction h generalizing u with
  | pause | loopInside | onceInside => cases hr
  | done w =>
    cases hr
    rfl
  | @step op next w r _ ih => exact (ih hr).trans (op.isSome_output_act w)
  | loopSkip _ _ ih | onceSkip _ _ ih => exact ih hr
  | loopAgain _ _ _ ih ih' | onceAfter _ _ _ ih ih' => exact (ih' hr).trans (ih rfl)

namespace Source

/-- What a character does that is no bracket; none if a byte is to be written and there is nothing
to write to. Characters without meaning change nothing. -/
def act? (v : View m) : Char → Option (View m)
  | '+' => some { v with tape := v.tape.put 0 (v.tape.cell 0 + 1) }
  | '-' => some { v with tape := v.tape.put 0 (v.tape.cell 0 - 1) }
  | '<' => some { v with tape := v.tape.move (-1) }
  | '>' => some { v with tape := v.tape.move 1 }
  | '0' => some { v with tape := v.tape.put 0 0 }
  | '.' => v.output.map fun bytes =>
    { v with output := some (bytes.push (UInt8.ofInt (v.tape.cell 0))) }
  | ',' =>
    match v.input with
    | [] => some { v with tape := v.tape.put 0 0 }
    | byte :: rest => some { v with tape := v.tape.put 0 byte.toNat, input := rest }
  | '#' => some { v with output := v.output.map (· ++ (v.tape.render ++ "\n").toUTF8.data) }
  | _ => some v

/-- The text after the bracket that ends the loop around it, when `depth` more loops have been
opened inside that one. -/
def afterLoop (depth : Nat) : List Char → List Char
  | [] => []
  | '[' :: rest => afterLoop (depth + 1) rest
  | ']' :: rest =>
    match depth with
    | 0 => rest
    | outer + 1 => afterLoop outer rest
  | _ :: rest => afterLoop depth rest

/-- A text that is being interpreted. -/
structure Reader (m : Int) where
  ahead : List Char
  /-- The text from the beginning of each loop around the reader, the innermost first. -/
  loops : List (List Char)
  view : View m

namespace Reader

/-- Interprets one character. At the beginning of a loop the cell is tested; its end leads back to
the beginning. -/
def step? (r : Reader m) : Option (Reader m) :=
  match r.ahead with
  | [] => none
  | '[' :: rest =>
    if r.view.tape.cell 0 = 0 then some { r with ahead := afterLoop 0 rest }
    else some { r with ahead := rest, loops := ('[' :: rest) :: r.loops }
  | ']' :: _ =>
    match r.loops with
    | [] => none
    | start :: outer => some { r with ahead := start, loops := outer }
  | c :: rest => (act? r.view c).map fun v => { r with ahead := rest, view := v }

/-- What is seen at the end of the text; none if that is not reached in so many steps. -/
def run : Nat → Reader m → Option (View m)
  | 0, r => if r.ahead = [] then some r.view else none
  | steps + 1, r => if r.ahead = [] then some r.view else r.step?.bind (run steps)

/-- The reader comes to the end of the text, and `u` is seen then. -/
def Finishes (r : Reader m) (u : View m) : Prop := ∃ steps, r.run steps = some u

end Reader

/-- The interpretation of the text comes to its end from `v`, and `u` is seen then. -/
def Halts (text : List Char) (v u : View m) : Prop := Reader.Finishes ⟨text, [], v⟩ u

/-! ### The loops of a text -/

/-- The body is the nesting of the commands of the text. -/
inductive Nests : List Char → Body → Prop
  | nil : Nests [] .done
  | char {c : Char} {rest : List Char} {b : Body} (hc : c ≠ '[' ∧ c ≠ ']') (h : Nests rest b) :
      Nests (c :: rest) (.prepend (Op.ofChar? c).toList b)
  | loop {text rest : List Char} {b n : Body} (hb : Nests text b) (hn : Nests rest n) :
      Nests ('[' :: (text ++ ']' :: rest)) (.loop 0 b n)

/-- The texts that each come after the end of a loop. -/
def joinClosed : List (List Char) → List Char
  | [] => []
  | text :: texts => ']' :: (text ++ joinClosed texts)

theorem isPlain_ofChar? {c : Char} (hc : c ≠ '[' ∧ c ≠ ']') :
    ∀ op ∈ (Op.ofChar? c).toList, op.isPlain = true := by
  unfold Op.ofChar?
  split <;> simp_all [Op.isPlain]

theorem ofChars_cons (c : Char) (rest : List Char) :
    Op.ofChars (c :: rest) = (Op.ofChar? c).toList ++ Op.ofChars rest := by
  cases hc : Op.ofChar? c with
  | none => rw [Op.ofChars, List.filterMap_cons_none hc]; rfl
  | some op => rw [Op.ofChars_cons hc]; rfl

/-- The pieces of a text are its parts between the brackets that it does not open. -/
theorem exists_nests_of_pieces {text : List Char} {p : Pieces}
    (h : Pieces.ofOps? (Op.ofChars text) = some p) :
    ∃ first others, text = first ++ joinClosed others ∧ Nests first p.first ∧
      List.Forall₂ Nests others p.others := by
  induction text generalizing p with
  | nil =>
    cases h
    exact ⟨[], [], rfl, .nil, .nil⟩
  | cons c text ih =>
    by_cases ho : c = '['
    · subst ho
      obtain ⟨⟨b, bs⟩, hq, hp⟩ := Option.bind_eq_some_iff.mp h
      obtain ⟨first, others, rfl, hfirst, hothers⟩ := ih hq
      cases hothers with
      | nil => contradiction
      | @cons rest n others bs hn hothers =>
        cases hp
        refine ⟨'[' :: (first ++ ']' :: rest), others, ?_, .loop hfirst hn, hothers⟩
        simp [joinClosed]
    · by_cases hc : c = ']'
      · subst hc
        obtain ⟨⟨b, bs⟩, hq, hp⟩ := Option.bind_eq_some_iff.mp h
        obtain ⟨first, others, rfl, hfirst, hothers⟩ := ih hq
        cases hp
        exact ⟨[], first :: others, rfl, .nil, .cons hfirst hothers⟩
      · rw [ofChars_cons, Pieces.ofOps?_prepend (isPlain_ofChar? ⟨ho, hc⟩)] at h
        obtain ⟨q, hq, rfl⟩ := Option.map_eq_some_iff.mp h
        obtain ⟨first, others, rfl, hfirst, hothers⟩ := ih hq
        exact ⟨c :: first, others, rfl, .char ⟨ho, hc⟩ hfirst, hothers⟩

theorem nests_of_ofOps? {text : List Char} {b : Body} (h : Body.ofOps? (Op.ofChars text) = some b) :
    Nests text b := by
  obtain ⟨first, others, rfl, hfirst, hothers⟩ :=
    exists_nests_of_pieces (Body.ofOps?_eq_some_iff.mp h)
  cases hothers
  simpa [joinClosed] using hfirst

theorem afterLoop_char {c : Char} (hc : c ≠ '[' ∧ c ≠ ']') (depth : Nat) (rest : List Char) :
    afterLoop depth (c :: rest) = afterLoop depth rest := by
  rw [afterLoop]
  · exact hc.1
  · exact hc.2

/-- A part with matching brackets is passed over as a whole. -/
theorem Nests.afterLoop_append {text : List Char} {b : Body} (h : Nests text b) (depth : Nat)
    (rest : List Char) : afterLoop depth (text ++ rest) = afterLoop depth rest := by
  induction h generalizing depth rest with
  | nil => rfl
  | char hc _ ih => rw [List.cons_append, afterLoop_char hc, ih]
  | loop _ _ ihb ihn =>
    rw [List.cons_append, List.append_assoc, afterLoop, ihb, List.cons_append, afterLoop, ihn]

/-! ### The reader follows the nesting -/

theorem canSend_append {w : Observed m} {events : List Event} {event : Event}
    (hw : w.CanSend events) (hevent : ∀ byte, .sent byte ≠ event) :
    w.CanSend (events ++ [event]) := by
  refine hw.imp_right fun hquiet byte hmem => ?_
  rcases List.mem_append.mp hmem with hmem | hmem
  · exact hquiet byte hmem
  · exact hevent byte (List.mem_singleton.mp hmem)

/-- A character does what its operation does, except that the reader stops where a byte cannot be
sent. -/
theorem act?_eq_some_iff {c : Char} (hc : c ≠ '[' ∧ c ≠ ']') {w : Observed m}
    (hw : w.CanSend w.events) {v : View m} :
    act? w.toView c = some v ↔
      w.CanSend (Op.actAll (Op.ofChar? c).toList w).events ∧
        (Op.actAll (Op.ofChar? c).toList w).toView = v := by
  obtain ⟨⟨tape, input, output⟩, events⟩ := w
  unfold act?
  split
  case h_1 => simp [Op.ofChar?, Sign.change, hw]
  case h_2 => simp [Op.ofChar?, Sign.change, hw, Int.sub_eq_add_neg]
  case h_3 | h_4 => simp [Op.ofChar?, Direction.displacement, hw, Observed.move]
  case h_5 => simp [Op.ofChar?, hw]
  case h_6 =>
    cases output with
    | none =>
      have hstuck : ¬ Quiet (events ++ [.sent (UInt8.ofInt (tape.cell 0))]) :=
        fun hquiet => hquiet _ (List.mem_append_right _ List.mem_cons_self)
      simp [Op.ofChar?, Observed.CanSend, hstuck]
    | some bytes => simp [Op.ofChar?, Observed.CanSend]
  case h_7 =>
    have hsend : Observed.CanSend _ (events ++ [.received input.head?]) :=
      canSend_append hw (by simp)
    cases input <;> simp_all [Op.ofChar?]
  case h_8 =>
    have hsend : Observed.CanSend _ (events ++ [.dumped tape.render]) :=
      canSend_append hw (by simp)
    simp [Op.ofChar?, Op.act, Op.perform, State.dump, State.view, Op.event?, hsend]
  case h_9 =>
    have hnone : Op.ofChar? c = none := by
      unfold Op.ofChar?
      split <;> simp_all
    simp [hnone, hw]

namespace Reader

variable {r r' : Reader m} {u : View m}

theorem ahead_ne_nil_of_step? (h : r.step? = some r') : r.ahead ≠ [] := by
  intro hnil
  simp [step?, hnil] at h

theorem Finishes.step (h : r.step? = some r') (h' : r'.Finishes u) : r.Finishes u := by
  obtain ⟨steps, hsteps⟩ := h'
  refine ⟨steps + 1, ?_⟩
  rw [run, if_neg (ahead_ne_nil_of_step? h), h]
  exact hsteps

theorem exists_step?_of_run {steps : Nat} (h : r.run steps = some u) (hahead : r.ahead ≠ []) :
    ∃ r' fewer, steps = fewer + 1 ∧ r.step? = some r' ∧ r'.run fewer = some u := by
  cases steps with
  | zero => simp [run, hahead] at h
  | succ fewer =>
    rw [run, if_neg hahead] at h
    obtain ⟨r', hr', h⟩ := Option.bind_eq_some_iff.mp h
    exact ⟨r', fewer, rfl, hr', h⟩

theorem step?_char {c : Char} (hc : c ≠ '[' ∧ c ≠ ']') (rest : List Char)
    (loops : List (List Char)) (v : View m) :
    step? ⟨c :: rest, loops, v⟩ = (act? v c).map fun v => ⟨rest, loops, v⟩ := by
  simp only [step?]
  split <;> simp_all

theorem step?_skip {text : List Char} {b : Body} (h : Nests text b) (rest : List Char)
    (loops : List (List Char)) {v : View m} (hv : v.tape.cell 0 = 0) :
    step? ⟨'[' :: (text ++ ']' :: rest), loops, v⟩ = some ⟨rest, loops, v⟩ := by
  simp [step?, hv, h.afterLoop_append, afterLoop]

theorem step?_enter (rest : List Char) (loops : List (List Char)) {v : View m}
    (hv : v.tape.cell 0 ≠ 0) :
    step? ⟨'[' :: rest, loops, v⟩ = some ⟨rest, ('[' :: rest) :: loops, v⟩ := by
  simp [step?, hv]

theorem step?_back (rest start : List Char) (loops : List (List Char)) (v : View m) :
    step? ⟨']' :: rest, start :: loops, v⟩ = some ⟨start, loops, v⟩ := rfl

end Reader

/-- Where the nesting of a text runs to its end, the reader comes to what follows the text. -/
theorem Nests.finishes {text : List Char} {b : Body} (h : Nests text b) {w w' : Observed m}
    (hrun : b.Run w (.over w')) (hsend : w.CanSend w'.events) {rest : List Char}
    {loops : List (List Char)} {u : View m} (hrest : Reader.Finishes ⟨rest, loops, w'.toView⟩ u) :
    Reader.Finishes ⟨text ++ rest, loops, w.toView⟩ u := by
  induction h generalizing w w' rest loops with
  | nil =>
    rcases Body.run_done_iff.mp hrun with heq | heq
    · cases heq
      exact hrest
    · contradiction
  | @char c text b hc _ ih =>
    rcases Body.run_prepend_iff.mp hrun with ⟨_, hr, _⟩ | hrun
    · contradiction
    · have hnow := hsend.of_prefix hrun.events_prefix
      have hbefore := hnow.of_prefix (Op.events_prefix_actAll _ w)
      have hact := (act?_eq_some_iff hc hbefore).mpr ⟨hnow, rfl⟩
      refine .step (by rw [List.cons_append, Reader.step?_char hc, hact]; rfl) ?_
      exact ih hrun (hsend.congr (Op.isSome_output_actAll _ w)) hrest
  | @loop text after b n hb _ ihb ihn =>
    rw [List.cons_append, List.append_assoc, List.cons_append]
    obtain ⟨v, hv, ⟨hzero, hnext⟩ | ⟨_, _, hr, _⟩⟩ := Body.run_loop_iff.mp hrun
    · -- Each round leads back to the same text.
      induction hv using Relation.ReflTransGen.head_induction_on with
      | refl =>
        exact .step (Reader.step?_skip hb (after ++ rest) loops hzero) (ihn hnext hsend hrest)
      | @head w t hround hrounds ih =>
        have hagain : (Body.loop 0 b n).Run t (.over w') :=
          Body.run_loop_iff.mpr ⟨v, hrounds, .inl ⟨hzero, hnext⟩⟩
        refine .step (Reader.step?_enter _ loops hround.1) ?_
        refine ihb hround.2 (hsend.of_prefix hagain.events_prefix) ?_
        refine .step (Reader.step?_back ..) ?_
        exact ih hagain (hsend.congr hround.2.isSome_output)
    · contradiction

/-- A reader that comes to the end has gone through the nesting of the text before it. -/
theorem Nests.exists_run {text : List Char} {b : Body} (h : Nests text b) {steps : Nat}
    {w : Observed m} {rest : List Char} {loops : List (List Char)} {u : View m}
    (hw : w.CanSend w.events)
    (hsteps : Reader.run steps ⟨text ++ rest, loops, w.toView⟩ = some u) :
    ∃ fewer w', fewer ≤ steps ∧ b.Run w (.over w') ∧ w'.CanSend w'.events ∧
      Reader.run fewer ⟨rest, loops, w'.toView⟩ = some u := by
  induction h generalizing steps w rest loops with
  | nil => exact ⟨steps, w, le_rfl, .done w, hw, hsteps⟩
  | @char c text b hc _ ih =>
    obtain ⟨r, fewer, rfl, hr, hrun⟩ := Reader.exists_step?_of_run hsteps (by simp)
    rw [List.cons_append, Reader.step?_char hc] at hr
    obtain ⟨v, hv, rfl⟩ := Option.map_eq_some_iff.mp hr
    obtain ⟨hsend, rfl⟩ := (act?_eq_some_iff hc hw).mp hv
    obtain ⟨least, w', hle, hrun, hw', hrest⟩ :=
      ih (hsend.congr (Op.isSome_output_actAll _ w)) hrun
    exact ⟨least, w', by omega, Body.run_prepend_iff.mpr (.inr hrun), hw', hrest⟩
  | @loop text after b n hb _ ihb ihn =>
    rw [List.cons_append, List.append_assoc, List.cons_append] at hsteps
    -- The end of a round leads back to the same text, with fewer steps left.
    induction steps using Nat.strong_induction_on generalizing w with
    | _ steps ih =>
    obtain ⟨r, fewer, rfl, hr, hrun⟩ := Reader.exists_step?_of_run hsteps (by simp)
    by_cases hzero : w.tape.cell 0 = 0
    · rw [Reader.step?_skip hb _ loops hzero] at hr
      cases hr
      obtain ⟨least, w', hle, hrun, hw', hrest⟩ := ihn hw hrun
      exact ⟨least, w', by omega, .loopSkip hzero hrun, hw', hrest⟩
    · rw [Reader.step?_enter _ loops hzero] at hr
      cases hr
      obtain ⟨least, t, hle, hround, ht, hrest⟩ := ihb hw hrun
      obtain ⟨r, still, rfl, hr, hrun⟩ := Reader.exists_step?_of_run hrest (by simp)
      rw [Reader.step?_back] at hr
      cases hr
      obtain ⟨last, w', hle', hagain, hw', hrest⟩ := ih still (by omega) ht hrun
      exact ⟨last, w', by omega, .loopAgain hzero hround hagain, hw', hrest⟩

/-- The reader and the structured execution of the nesting come to the same end. -/
theorem Nests.halts_iff {text : List Char} {b : Body} (h : Nests text b) {s : State m}
    {v : View m} :
    Halts text s.view v ↔
      ∃ w : Observed m, b.Run s.observed (.over w) ∧ w.toView = v ∧
        s.observed.CanSend w.events := by
  rw [Halts, ← List.append_nil text]
  constructor
  · rintro ⟨steps, hsteps⟩
    have hquiet : s.observed.CanSend s.observed.events := .inr fun byte hmem => nomatch hmem
    obtain ⟨fewer, w, _, hrun, hw, hend⟩ := h.exists_run hquiet hsteps
    refine ⟨w, hrun, ?_, hw.congr hrun.isSome_output.symm⟩
    cases fewer <;> simpa [Reader.run] using hend
  · rintro ⟨w, hrun, rfl, hsend⟩
    exact h.finishes hrun hsend ⟨0, rfl⟩

theorem blockError?_ofChars_of_wellNested {text : List Char} (h : WellNested text) :
    Op.blockError? 0 (Op.ofChars text) = none := by
  rw [← blockError?_strip true]
  exact (wellNested_iff true text).mp h

/-- A program with one operation for each command halts as the text does. -/
theorem halts_ofChars_iff {text : List Char} (h : WellNested text) {p : Program}
    (hp : p.ops = Op.ofChars text) {s : State m} {v : View m} :
    p.Halts s v ↔ Halts text s.view v := by
  obtain ⟨b, hb⟩ := Body.exists_ofOps?_iff.mpr (blockError?_ofChars_of_wellNested h)
  rw [(nests_of_ofOps? hb).halts_iff, Program.halts_iff (hp ▸ hb)]

/-- Depths play no part in a run, so any program with these operations will do. -/
theorem exists_ops_eq (ops : List Op) : ∃ p : Program, p.ops = ops :=
  ⟨ops.map (Instr.mk 0), by simp [Program.ops, Function.comp_def]⟩

/-- Every text with matching brackets is lowered, and the program halts exactly as the text does
when it is interpreted one character at a time, with the same tape, rest of the input and output. -/
theorem lowered_text_halts_alike (text : List Char) (h : WellNested text) :
    ∃ p, Program.lower text = .ok p ∧
      ∀ (m : Nat) (s : State m) (v : View m), p.Halts s v ↔ Halts text s.view v := by
  have hruns := Op.ofText_interchangeable text
  have hblocks := hruns.1.blockError?_nil 0
  rw [blockError?_ofChars_of_wellNested h] at hblocks
  obtain ⟨p, hp⟩ := Program.exists_nest_iff.mpr hblocks
  have hops : p.ops = Op.ofText text := Program.ops_of_nest hp
  obtain ⟨q, hq⟩ := exists_ops_eq (Op.ofChars text)
  refine ⟨p, hp, fun m s v => ?_⟩
  have hforth : Op.Refines (fun _ : Observed m => True) p.ops q.ops := by
    rw [hops, hq]
    exact hruns.1.refines_nil
  have hback : Op.Refines (fun _ : Observed m => True) q.ops p.ops := by
    rw [hops, hq]
    exact hruns.2.refines_nil
  rw [← halts_ofChars_iff h hq]
  exact ⟨hforth.halts, hback.halts⟩

/-- A clear mark before a run, a comment that cuts a run in two, and runs on both sides of the
brackets. -/
theorem lowered_text_halts_alike_marked :
    WellNested ['0', '+', '+', '[', '-', 'x', '-', '>', '>', '0', '0', '-', '<', '<', ']', '.'] ∧
      ∀ (s : State 256) (v : View 256),
        Program.Halts [⟨0, .assign 2 0⟩, ⟨0, .loop 0⟩, ⟨1, .adjust .minus 1 0⟩,
            ⟨1, .adjust .minus 1 0⟩, ⟨1, .move .right 2⟩, ⟨1, .assign 0 0⟩, ⟨1, .assign (-1) 0⟩,
            ⟨1, .move .left 2⟩, ⟨0, .close⟩, ⟨0, .write 0 0⟩] s v ↔
          Halts ['0', '+', '+', '[', '-', 'x', '-', '>', '>', '0', '0', '-', '<', '<', ']', '.']
            s.view v := by
  have hnested : WellNested
      ['0', '+', '+', '[', '-', 'x', '-', '>', '>', '0', '0', '-', '<', '<', ']', '.'] := by decide
  have hlower : Program.lower
      ['0', '+', '+', '[', '-', 'x', '-', '>', '>', '0', '0', '-', '<', '<', ']', '.'] =
        .ok [⟨0, .assign 2 0⟩, ⟨0, .loop 0⟩, ⟨1, .adjust .minus 1 0⟩,
            ⟨1, .adjust .minus 1 0⟩, ⟨1, .move .right 2⟩, ⟨1, .assign 0 0⟩, ⟨1, .assign (-1) 0⟩,
            ⟨1, .move .left 2⟩, ⟨0, .close⟩, ⟨0, .write 0 0⟩] := by decide +kernel
  obtain ⟨p, hp, h⟩ := lowered_text_halts_alike _ hnested
  rw [hlower] at hp
  cases hp
  exact ⟨hnested, h 256⟩

/-- Where the interpretation of a text comes to its end, that of the simplified text comes to the
same end. With a modulus above zero it comes to no other. -/
theorem simplified_text_halts_alike (text : List Char) (h : WellNested text) (m : Nat)
    (v u : View m) :
    (Halts text v u → Halts (simplify text) v u) ∧
      (0 < m → Halts (simplify text) v u → Halts text v u) := by
  have hsimplifies := simplifiesTo_simplify text
  have hnested : WellNested (simplify text) := by
    rw [wellNested_iff true, blockError?_strip, ← hsimplifies.blockError?_eq]
    exact blockError?_ofChars_of_wellNested h
  obtain ⟨p, hp⟩ := exists_ops_eq (Op.ofChars text)
  obtain ⟨q, hq⟩ := exists_ops_eq (Op.ofChars (simplify text))
  have hrefines : Op.Refines (Observed.Cleared (m := m)) p.ops q.ops := by
    rw [hp, hq]
    exact hsimplifies.refines
  let s : State m := ⟨v.tape, v.input, v.output, none⟩
  have htext : p.Halts s u ↔ Halts text v u := halts_ofChars_iff h hp
  have hsimple : q.Halts s u ↔ Halts (simplify text) v u := halts_ofChars_iff hnested hq
  rw [← htext, ← hsimple]
  exact ⟨hrefines.halts, fun hm => (hrefines.halts_iff (by exact_mod_cast hm)).mpr⟩

/-- A pair is removed, which leaves a loop that clears a cell, and a mark after a loop goes. -/
theorem simplified_text_halts_alike_nested :
    WellNested ['+', '[', '>', '[', '+', '-', '-', ']', '<', '-', ']', '0', '.'] ∧
      simplify ['+', '[', '>', '[', '+', '-', '-', ']', '<', '-', ']', '0', '.'] =
        ['+', '[', '>', '0', '<', '-', ']', '.'] ∧
      ∀ v u : View 256,
        Halts ['+', '[', '>', '[', '+', '-', '-', ']', '<', '-', ']', '0', '.'] v u ↔
          Halts ['+', '[', '>', '0', '<', '-', ']', '.'] v u := by
  have hnested : WellNested
      ['+', '[', '>', '[', '+', '-', '-', ']', '<', '-', ']', '0', '.'] := by decide
  have hsimple : simplify ['+', '[', '>', '[', '+', '-', '-', ']', '<', '-', ']', '0', '.'] =
      ['+', '[', '>', '0', '<', '-', ']', '.'] := by decide +kernel
  refine ⟨hnested, hsimple, fun v u => ?_⟩
  have h := simplified_text_halts_alike _ hnested 256 v u
  rw [hsimple] at h
  exact ⟨h.1, h.2 (by decide)⟩

end Source

end Brainfuck
