import Brainfuck.Proofs.Shell.Statement

/-! Statements that the shell refuses. Brackets are counted when the lines are put together, counted
again when the text has been simplified, and seen to nest in lowering; the bytes that the program is
to read are looked at last. Whichever of these refuses a statement, the session stays as it was and
the program has written nothing. -/

namespace Brainfuck.Shell.Session

open Source

variable {s : Session} {text : List Char}

theorem run_of_not_wellNested (h : ¬ WellNested text) (steps : Nat) :
    s.run steps text =
      ⟨s, [.say ("Error: " ++ missing (if balance text = 0 then -1 else balance text) ++ "\n")],
        none⟩ := by
  rw [run, s.options.build_of_not_wellNested h]
  rfl

theorem not_wellNested_of_balance (h : balance text ≠ 0) : ¬ WellNested text :=
  fun hnested => h hnested.1

theorem run_of_balance_pos (h : 0 < balance text) (steps : Nat) :
    s.run steps text =
      ⟨s, [.say ("Error: missing " ++ Decimal.signed (balance text) ++ " ]\n")], none⟩ := by
  have hmessage : "Error: " ++ missing (balance text) ++ "\n" =
      "Error: missing " ++ Decimal.signed (balance text) ++ " ]\n" := by
    rw [missing, if_pos h]
    simp only [String.append_assoc]
    rw [← String.append_assoc]
    rfl
  rw [run_of_not_wellNested (not_wellNested_of_balance (by omega)), if_neg (by omega), hmessage]

theorem run_of_balance_zero (h : balance text = 0) (hnested : ¬ WellNested text) (steps : Nat) :
    s.run steps text = ⟨s, [.say "Error: missing 1 [\n"], none⟩ := by
  rw [run_of_not_wellNested hnested, if_pos h]
  rfl

theorem input?_eq_none {typed : List Char} (htyped : s.typed = some typed) {c : Char}
    (hc : c ∈ typed) (hwide : 255 < c.toNat) : s.input? = none := by
  rw [input?, htyped, Option.eq_none_iff_forall_ne_some]
  intro bytes hbytes
  have hnarrow := Text.exists_toBytes?_iff.mp ⟨bytes, hbytes⟩ c hc
  omega

theorem run_of_wide_input (h : WellNested text)
    (hsettles : ∀ limit, (s.options.build text).result ≠ .error (.unsettled limit))
    (hinput : s.input? = none) (steps : Nat) :
    (s.run steps text).session = s ∧ (s.run steps text).failure = some .notBytes ∧
      ∀ bytes, .output bytes ∉ (s.run steps text).events := by
  obtain ⟨p, hp⟩ := Options.exists_build h hsettles
  obtain ⟨events, hquiet, hrun⟩ := run_of_build hp
  have hexecute : s.execute steps p = ⟨s, [], some .notBytes⟩ := by
    rw [execute, hinput]
  rw [hrun, hexecute]
  refine ⟨rfl, rfl, fun bytes hmem => hquiet bytes ?_⟩
  simpa [Reply.after] using hmem

/-- Whatever the state of the session, a refused statement leaves it as it was, writes exactly one
line to the console, and its program writes nothing. The line depends on the brackets alone. Where
the brackets are well nested, a character that is no byte in the text to be read is an error. -/
theorem refused_statement_changes_nothing (s : Session) (steps : Nat) (line : List Char)
    (more : List (List Char)) (h : LineKind.ofLine line = .statement) :
    let code := (s.feedLines steps line more).1.text
    let reply := (s.feedLines steps line more).2
    (balance code < 0 → reply = ⟨s, [.say "unmatched ]\n"], none⟩) ∧
    (0 < balance code →
      reply = ⟨s, [.say ("Error: missing " ++ Decimal.signed (balance code) ++ " ]\n")], none⟩) ∧
    (balance code = 0 → ¬ WellNested code →
      reply = ⟨s, [.say "Error: missing 1 [\n"], none⟩) ∧
    (WellNested code → (∃ typed c, s.typed = some typed ∧ c ∈ typed ∧ 255 < c.toNat) →
      (∀ limit, (s.options.build code).result ≠ .error (.unsettled limit)) →
      reply.session = s ∧ reply.failure = some .notBytes ∧ ∀ bytes, .output bytes ∉ reply.events) ∧
    ∀ (s' : Session) (steps' : Nat), ¬ WellNested code →
      (s'.feedLines steps' line more).1.text = code ∧
        (s'.feedLines steps' line more).2.events = reply.events := by
  intro code reply
  have hcode : (Entry.assemble line more).text = code :=
    congrArg (·.1.text) (feedLines_statement h steps more).symm
  have hfed (s' : Session) (steps' : Nat) :
      s'.feedLines steps' line more = (Entry.assemble line more, s'.conclude steps' code) := by
    rw [feedLines_statement h, hcode]
  have hreply : reply = s.conclude steps code := congrArg Prod.snd (hfed s steps)
  have hrun : 0 ≤ balance code → reply = s.run steps code := by
    intro hcount
    rw [hreply, conclude, if_neg (by omega)]
  refine ⟨fun hcount => ?_, fun hcount => ?_, fun hcount hnested => ?_,
    fun hnested hwide hsettles => ?_, fun s' steps' hnested => ⟨?_, ?_⟩⟩
  · rw [hreply, conclude, if_pos hcount]
  · rw [hrun (by omega), run_of_balance_pos hcount]
  · rw [hrun (by omega), run_of_balance_zero hcount hnested]
  · obtain ⟨typed, c, htyped, hc, hwide⟩ := hwide
    rw [hrun (by rw [hnested.1])]
    exact run_of_wide_input hnested hsettles (input?_eq_none htyped hc hwide) steps
  · rw [hfed, hcode]
  · rw [hfed, hreply, conclude, conclude, run_of_not_wellNested hnested,
      run_of_not_wellNested hnested]
    split <;> rfl

/-- A loop over three lines, to be listed with its functions, that is to read a character that is no
byte. -/
theorem refused_statement_changes_nothing_omega :
    LineKind.ofLine ['[', '[', '-', ']'] = .statement ∧
      ∀ (tape : Tape 256) (steps : Nat),
        let s : Session :=
          ⟨⟨.full, 256, true, true, false, none⟩, tape, [65], true, some #[1], some ['a', 'Ω']⟩
        let reply := (s.feedLines steps ['[', '[', '-', ']'] [['#', ','], [']', '.']]).2
        reply.session = s ∧ reply.failure = some .notBytes ∧
          ∀ bytes, .output bytes ∉ reply.events := by
  have hkind : LineKind.ofLine ['[', '[', '-', ']'] = .statement := by decide
  have hcode : (Entry.assemble ['[', '[', '-', ']'] [['#', ','], [']', '.']]).text =
      ['[', '[', '-', ']', '\n', '#', ',', '\n', ']', '.'] := by decide +kernel
  have hbuild : (Options.build ⟨.full, 256, true, true, false, none⟩
      ['[', '[', '-', ']', '\n', '#', ',', '\n', ']', '.']).result =
        .ok [⟨0, .loop 0⟩, ⟨1, .assign 0 0⟩, ⟨1, .dump⟩, ⟨1, .read 0⟩, ⟨0, .close⟩,
          ⟨0, .write 0 0⟩] := by decide +kernel
  refine ⟨hkind, fun tape steps => ?_⟩
  intro s reply
  obtain ⟨_, _, _, hwide, _⟩ := refused_statement_changes_nothing s steps ['[', '[', '-', ']']
    [['#', ','], [']', '.']] hkind
  rw [feedLines_statement hkind, hcode] at hwide
  refine hwide (by decide) ⟨_, 'Ω', rfl, by decide, by decide⟩ fun limit hlimit => ?_
  exact nomatch hbuild.symm.trans hlimit

end Brainfuck.Shell.Session
