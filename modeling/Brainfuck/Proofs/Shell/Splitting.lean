import Brainfuck.Proofs.BigStep
import Brainfuck.Proofs.Shell.Statement

/-! A program may be typed in as one statement or as several. Compiled together, two texts may be
simplified and rewritten across the place where they meet; compiled one by one, the second starts
with the tape and the input that the session has kept. With a modulus above zero this makes no
difference that can be seen, but for the trail of the pointer. -/

namespace Brainfuck

open Machine

theorem Op.Refines.halts_iff_ends {m : Int} {Z : Observed m → Prop} {ops : List Op} {q : Program}
    (h : Refines Z ops q.ops) (hm : 0 < m) {b : Body} (hb : Body.ofOps? ops = some b)
    {s : State m} (hs : s.output.isSome = true) {v : View m} : q.Halts s v ↔ b.Ends s.view v := by
  -- Depths play no part in a run.
  obtain ⟨p, rfl⟩ : ∃ p : Program, p.ops = ops :=
    ⟨ops.map (Instr.mk 0), by simp [Program.ops, Function.comp_def]⟩
  rw [← h.halts_iff hm, Program.halts_iff_ends hb hs]

namespace Options

open Source

variable {o : Options} {text : List Char}

/-- The text is compiled, and its program halts exactly as the body ends. -/
def CompilesTo (o : Options) (text : List Char) (b : Body) : Prop :=
  ∃ p, (o.build text).result = .ok p ∧
    ∀ {s : State o.modulus} {v : View o.modulus}, s.output.isSome = true →
      (p.Halts s v ↔ b.Ends s.view v)

theorem refines_ofChars {q : Program} (h : WellNested text) (hq : (o.build text).result = .ok q)
    {m : Int} :
    Op.Refines (Observed.Cleared (m := m)) (Op.ofChars (strip o.debugging text)) q.ops := by
  obtain ⟨plain, hplain, hops⟩ := exists_lower { o with level := .plain } h
  obtain ⟨p, hp, ⟨_, limit, hunsettled⟩ | ⟨q', hq', hrefines⟩⟩ := o.refines_of_build h
  · rw [hq] at hunsettled
    contradiction
  · rw [build, hplain] at hp
    cases hp
    cases hq.symm.trans hq'
    have hchars := (Op.ofText_interchangeable (strip o.debugging text)).2
    refine hchars.refines_nil.trans ?_
    rw [← show plain.program.ops = Op.ofText (strip o.debugging text) from hops]
    exact hrefines

/-- Whatever the level, a text is compiled to the nesting of its commands. -/
theorem compilesTo_of_ofOps? {b : Body} (hm : 0 < o.modulus)
    (hb : Body.ofOps? (Op.ofChars (strip o.debugging text)) = some b)
    (hsettles : ∀ limit, (o.build text).result ≠ .error (.unsettled limit)) :
    o.CompilesTo text b := by
  have hnested : WellNested text :=
    (wellNested_iff o.debugging text).mpr (Body.exists_ofOps?_iff.mp ⟨b, hb⟩)
  obtain ⟨q, hq⟩ := exists_build hnested hsettles
  refine ⟨q, hq, fun hs => ?_⟩
  exact (refines_ofChars hnested hq).halts_iff_ends (by exact_mod_cast hm) hb hs

/-- Two texts are compiled to one body after the other, together or apart. -/
theorem exists_compilesTo_append {text' : List Char} (hm : 0 < o.modulus) (h : WellNested text)
    (h' : WellNested text')
    (hsettles : ∀ code ∈ [text, text', text ++ text'], ∀ limit,
      (o.build code).result ≠ .error (.unsettled limit)) :
    ∃ b c, o.CompilesTo text b ∧ o.CompilesTo text' c ∧
      o.CompilesTo (text ++ text') (b.append c) := by
  obtain ⟨b, hb⟩ := Body.exists_ofOps?_iff.mpr ((wellNested_iff o.debugging text).mp h)
  obtain ⟨c, hc⟩ := Body.exists_ofOps?_iff.mpr ((wellNested_iff o.debugging text').mp h')
  have hbc : Body.ofOps? (Op.ofChars (strip o.debugging (text ++ text'))) = some (b.append c) := by
    rw [strip, List.filter_append, Op.ofChars_append]
    exact Body.ofOps?_append hb hc
  exact ⟨b, c, compilesTo_of_ofOps? hm hb (hsettles _ (by simp)),
    compilesTo_of_ofOps? hm hc (hsettles _ (by simp)),
    compilesTo_of_ofOps? hm hbc (hsettles _ (by simp))⟩

end Options

namespace Shell

def Event.bytes : Event → List UInt8
  | .output bytes => bytes.toList
  | .say _ | .log _ => []

/-- The bytes that were sent to the standard output, in order. -/
def Reply.written (r : Reply) : List UInt8 := r.events.flatMap Event.bytes

theorem Reply.written_after {events : List Event} (h : ∀ bytes, .output bytes ∉ events)
    (r : Reply) : (r.after events).written = r.written := by
  have hnone : events.flatMap Event.bytes = [] := by
    rw [List.flatMap_eq_nil_iff]
    intro event hevent
    cases event with
    | output bytes => exact absurd hevent (h bytes)
    | say | log => rfl
  rw [written, after, List.flatMap_append, hnone, List.nil_append, written]

namespace Session

/-- With enough steps, the statement is carried out to its end. It leaves the session `t`, and has
sent the bytes `written` to the standard output. -/
def Completes (s : Session) (text : List Char) (t : Session) (written : List UInt8) : Prop :=
  ∃ steps, (s.run steps text).failure = none ∧ (s.run steps text).session = t ∧
    (s.run steps text).written = written

/-- The session without the trail of the pointer. -/
def untraced (s : Session) : Session := { s with trail := none }

variable {s t t' : Session} {text text' : List Char} {written written' : List UInt8}

theorem untraced_resume {f g : State s.options.modulus} (htape : f.tape = g.tape)
    (hinput : f.input = g.input) : (s.resume f).untraced = (s.resume g).untraced := by
  unfold resume untraced
  split <;> simp [htape, hinput]

theorem resume_self {input : List UInt8} (h : s.input? = some input)
    (output : Option (Array UInt8)) : s.resume ⟨s.tape, input, output, s.trail⟩ = s := by
  obtain ⟨options, tape, stdin, printing, trail, typed⟩ := s
  cases typed with
  | none =>
    cases h
    rfl
  | some text =>
    have htext : Text.ofBytes input = text := Text.ofBytes_of_toBytes? h
    simp [resume, htext]

theorem completes_iff {p : Program} (hp : (s.options.build text).result = .ok p)
    {input : List UInt8} (hinput : s.input? = some input) :
    s.Completes text t written ↔
      ∃ steps final, p.run steps ⟨s.tape, input, some #[], s.trail⟩ = .ok (.halted final) ∧
        s.resume final = t ∧ (final.output.getD #[]).toList = written := by
  obtain ⟨events, hquiet, hrun⟩ := run_of_build hp
  refine exists_congr fun steps => ?_
  rw [hrun, Reply.written_after hquiet, execute, hinput]
  simp only [Reply.after]
  split <;> simp_all [finish, Reply.written, Event.bytes]

theorem completes_resume_iff {p : Program} (hp : (s.options.build text).result = .ok p)
    {f : State s.options.modulus} :
    (s.resume f).Completes text t written ↔
      ∃ steps final, p.run steps { f with output := some #[] } = .ok (.halted final) ∧
        s.resume final = t ∧ (final.output.getD #[]).toList = written := by
  obtain ⟨options, tape, stdin, printing, trail, typed⟩ := s
  cases typed with
  | none => exact completes_iff (s := resume _ f) hp rfl
  | some typed => exact completes_iff (s := resume _ f) hp (Text.toBytes?_ofBytes f.input)

/-! A statement that is compiled to a body is completed exactly where the body ends. -/

theorem Completes.exists_ends {b : Body} (hb : s.options.CompilesTo text b)
    {f : State s.options.modulus} (h : (s.resume f).Completes text t written) :
    ∃ final : State s.options.modulus, s.resume final = t ∧
      b.Ends ⟨f.tape, f.input, some #[]⟩ ⟨final.tape, final.input, some written.toArray⟩ := by
  obtain ⟨p, hp, hhalts⟩ := hb
  obtain ⟨steps, final, hrun, ht, rfl⟩ := (completes_resume_iff hp).mp h
  have hends := (hhalts (s := { f with output := some #[] }) rfl).mp ⟨steps, final, hrun, rfl⟩
  obtain ⟨bytes, hbytes, _⟩ := hends.exists_written
  replace hbytes : final.output = some (#[] ++ bytes) := hbytes
  refine ⟨final, ht, ?_⟩
  simpa [State.view, hbytes] using hends

theorem exists_completes {b : Body} (hb : s.options.CompilesTo text b)
    {f : State s.options.modulus} {tape : Tape s.options.modulus} {input : List UInt8}
    {bytes : Array UInt8} (h : b.Ends ⟨f.tape, f.input, some #[]⟩ ⟨tape, input, some bytes⟩) :
    ∃ final : State s.options.modulus, final.tape = tape ∧ final.input = input ∧
      (s.resume f).Completes text (s.resume final) bytes.toList := by
  obtain ⟨p, hp, hhalts⟩ := hb
  obtain ⟨steps, ⟨tape', input', output, trail⟩, hrun, hview⟩ :=
    (hhalts (s := { f with output := some #[] }) rfl).mpr h
  cases hview
  exact ⟨_, rfl, rfl, (completes_resume_iff hp).mpr ⟨steps, _, hrun, rfl, rfl⟩⟩

theorem Completes.unique {b : Body} (hb : s.options.CompilesTo text b)
    {f : State s.options.modulus} (h : (s.resume f).Completes text t written)
    (h' : (s.resume f).Completes text t' written') :
    t.untraced = t'.untraced ∧ written = written' := by
  obtain ⟨final, rfl, hends⟩ := h.exists_ends hb
  obtain ⟨final', rfl, hends'⟩ := h'.exists_ends hb
  have hsame := hends.unique hends'
  simp only [View.mk.injEq, Option.some.injEq] at hsame
  exact ⟨untraced_resume hsame.1 hsame.2.1, by simpa using congrArg Array.toList hsame.2.2⟩

theorem Completes.append {b c : Body} (hb : s.options.CompilesTo text b)
    (hc : s.options.CompilesTo text' c) (hbc : s.options.CompilesTo (text ++ text') (b.append c))
    {f : State s.options.modulus} (h : (s.resume f).Completes text t written)
    (h' : t.Completes text' t' written') :
    ∃ r, (s.resume f).Completes (text ++ text') r (written ++ written') ∧
      r.untraced = t'.untraced := by
  obtain ⟨middle, rfl, hfirst⟩ := h.exists_ends hb
  obtain ⟨final, rfl, hsecond⟩ := h'.exists_ends hc
  -- The second body runs after the first, and writes after what that has written.
  obtain ⟨bytes, hbytes, hanywhere⟩ := hsecond.exists_written
  have hwritten' : bytes = written'.toArray := by simpa using hbytes.symm
  have hboth := Body.ends_append_iff.mpr ⟨_, hfirst, hanywhere (some written.toArray)⟩
  obtain ⟨r, htape, hinput, hcompletes⟩ := exists_completes hbc hboth
  refine ⟨s.resume r, ?_, untraced_resume htape hinput⟩
  simpa [hwritten'] using hcompletes

theorem Completes.split {b c : Body} (hb : s.options.CompilesTo text b)
    (hc : s.options.CompilesTo text' c) (hbc : s.options.CompilesTo (text ++ text') (b.append c))
    {f : State s.options.modulus} (h : (s.resume f).Completes (text ++ text') t written) :
    ∃ u x r y, (s.resume f).Completes text u x ∧ u.Completes text' r y := by
  obtain ⟨final, rfl, hends⟩ := h.exists_ends hbc
  obtain ⟨⟨tape, input, output⟩, hfirst, hsecond⟩ := Body.ends_append_iff.mp hends
  obtain ⟨x, hx, _⟩ := hfirst.exists_written
  obtain ⟨y, _, hanywhere⟩ := hsecond.exists_written
  cases hx
  obtain ⟨middle, rfl, rfl, hcompletes⟩ := exists_completes hb hfirst
  obtain ⟨last, _, _, hcompletes'⟩ := exists_completes hc (hanywhere (some #[]))
  exact ⟨_, _, _, _, hcompletes, hcompletes'⟩

/-- Two well-nested texts that the compiler settles, together and apart. Carried out one after the
other they are completed if and only if they are completed as one statement. They leave the same
session, but for the trail of the pointer, and send the same bytes to the standard output. -/
theorem split_statement_completes_alike (s : Session) (a b : List Char)
    (hm : 0 < s.options.modulus)
    (htyped : ∀ typed, s.typed = some typed → ∀ c ∈ typed, c.toNat < 256)
    (ha : Source.WellNested a) (hb : Source.WellNested b)
    (hsettles : ∀ text ∈ [a, b, a ++ b], ∀ limit,
      (s.options.build text).result ≠ .error (.unsettled limit)) :
    ((∃ u x t y, s.Completes a u x ∧ u.Completes b t y) ↔ ∃ t z, s.Completes (a ++ b) t z) ∧
      ∀ u x t y t' z, s.Completes a u x → u.Completes b t y → s.Completes (a ++ b) t' z →
        t'.untraced = t.untraced ∧ z = x ++ y := by
  obtain ⟨input, hinput⟩ : ∃ input, s.input? = some input := by
    unfold input?
    split
    · exact ⟨_, rfl⟩
    · next typed h => exact Text.exists_toBytes?_iff.mpr (htyped typed h)
  obtain ⟨first, second, hfirst, hsecond, hboth⟩ :=
    Options.exists_compilesTo_append hm ha hb hsettles
  -- The session is what a run would have left that ended with its tape and input.
  obtain ⟨f, hf⟩ : ∃ f : State s.options.modulus, s.resume f = s := ⟨_, resume_self hinput none⟩
  have hs : s.Completes = (s.resume f).Completes := by rw [hf]
  rw [hs]
  refine ⟨⟨?_, ?_⟩, ?_⟩
  · rintro ⟨u, x, t, y, hu, ht⟩
    obtain ⟨r, hr, _⟩ := hu.append hfirst hsecond hboth ht
    exact ⟨r, _, hr⟩
  · rintro ⟨t, z, h⟩
    exact h.split hfirst hsecond hboth
  · intro u x t y t' z hu ht h
    obtain ⟨r, hr, hsame⟩ := hu.append hfirst hsecond hboth ht
    obtain ⟨heq, hz⟩ := h.unique hboth hr
    exact ⟨heq.trans hsame, hz⟩

/-- The first statement adds one to the byte that it has read and written. The second takes it away
again, of which nothing is left when they are compiled together, and reads on. -/
theorem split_statement_completes_alike_echo :
    let s : Session :=
      ⟨⟨.full, 256, true, true, false, none⟩, .empty 256, [], false, some #[], some ['A', 'ÿ']⟩
    (∀ typed, s.typed = some typed → ∀ c ∈ typed, c.toNat < 256) ∧
      Source.WellNested [',', '.', '+'] ∧ Source.WellNested ['-', '.', ',', '.'] ∧
      ∃ t, s.Completes ([',', '.', '+'] ++ ['-', '.', ',', '.']) t [65, 65, 255] ∧
        t.typed = some [] := by
  intro s
  have htyped : ∀ typed, s.typed = some typed → ∀ c ∈ typed, c.toNat < 256 := by
    rintro _ ⟨⟩
    simp
  have hbuilds : ∀ text ∈ [[',', '.', '+'], ['-', '.', ',', '.'],
      [',', '.', '+'] ++ ['-', '.', ',', '.']], (s.options.build text).result.isOk = true := by
    decide +kernel
  have hfirst : s.Completes [',', '.', '+'] _ [65] :=
    ⟨9, by decide +kernel, rfl, by decide +kernel⟩
  have hsecond : (s.run 9 [',', '.', '+']).session.Completes ['-', '.', ',', '.'] _ [65, 255] :=
    ⟨9, by decide +kernel, rfl, by decide +kernel⟩
  refine ⟨htyped, by decide, by decide, ?_⟩
  obtain ⟨hiff, hsame⟩ := split_statement_completes_alike s [',', '.', '+'] ['-', '.', ',', '.']
    (by decide) htyped (by decide) (by decide) fun text htext limit hlimit => by
      have hbuild := hbuilds text htext
      rw [hlimit] at hbuild
      contradiction
  obtain ⟨t, z, ht⟩ := hiff.mp ⟨_, _, _, _, hfirst, hsecond⟩
  obtain ⟨hleft, rfl⟩ := hsame _ _ _ _ _ _ hfirst hsecond ht
  refine ⟨t, ht, ?_⟩
  have htyped' : ((s.run 9 [',', '.', '+']).session.run 9 ['-', '.', ',', '.']).session.typed =
      some [] := by decide +kernel
  exact (congrArg typed hleft).trans htyped'

end Session

end Shell

end Brainfuck
