import Brainfuck.Proofs.Acceptance
import Brainfuck.Proofs.Lua.Parsed
import Brainfuck.Proofs.WellFormed
import Brainfuck.Shell.Session
import Mathlib.Data.List.TakeWhile

/-! Statements of the shell. Lines that are added to a statement leave it a statement. When it has
been compiled, its code can be listed whatever the options are, so the bytes that the program is to
read are all that can still keep it from being executed. -/

namespace Brainfuck

namespace Text

theorem exists_toBytes?_iff {text : List Char} :
    (∃ bytes, toBytes? text = some bytes) ↔ ∀ c ∈ text, c.toNat < 256 := by
  induction text with
  | nil => simp [toBytes?]
  | cons c text ih =>
    rw [List.forall_mem_cons, ← ih]
    unfold toBytes?
    rw [List.mapM_cons]
    by_cases hc : c.toNat < 256
    · cases text.mapM toByte? <;> simp [toByte?, hc]
    · simp [toByte?, hc]

theorem toByte?_ofByte (b : UInt8) : toByte? (ofByte b) = some b := by
  have hb : b.toNat < 256 := b.toNat_lt
  have hchar : (Char.ofNat b.toNat).toNat = b.toNat := by
    have hvalid : b.toNat.isValidChar := .inl (by omega)
    rw [Char.ofNat, dif_pos hvalid]
    rfl
  simp [toByte?, ofByte, hchar, hb]

theorem toBytes?_ofBytes (bytes : List UInt8) : toBytes? (ofBytes bytes) = some bytes := by
  induction bytes with
  | nil => rfl
  | cons b bytes ih =>
    unfold toBytes? ofBytes at ih ⊢
    rw [List.map_cons, List.mapM_cons, toByte?_ofByte, ih]
    rfl

theorem ofBytes_of_toBytes? {text : List Char} {bytes : List UInt8}
    (h : toBytes? text = some bytes) : ofBytes bytes = text := by
  induction text generalizing bytes with
  | nil =>
    cases h
    rfl
  | cons c text ih =>
    unfold toBytes? at h ih
    simp only [List.mapM_cons, Option.bind_eq_bind, Option.bind_eq_some_iff] at h
    obtain ⟨b, hb, rest, hrest, hbytes⟩ := h
    cases hbytes
    have hc : ofByte b = c := by
      unfold toByte? at hb
      split at hb
      · next hnarrow =>
        cases hb
        simp [ofByte, Nat.mod_eq_of_lt hnarrow, Char.ofNat_toNat]
      · contradiction
    simp [ofBytes, hc, ← ih hrest]

end Text

theorem Lua.exists_code (o : Options) {p : Program} (h : p.Nested 0) :
    ∃ text, code o p = .ok text := by
  obtain ⟨b, hb⟩ := Body.exists_ofOps?_iff.mpr (Program.exists_nest_iff.mp ⟨p, h⟩)
  have hsteps : b.Steps fun _ => True := (Body.isNestingOf_iff.mpr hb).2
  obtain ⟨ls, hls, _⟩ := exists_lines (o := o) hsteps
  refine ⟨(if o.header then header o else "") ++ String.join (ls.map (·.render)), ?_⟩
  rw [code, Body.program_of_nest h hb, hls]
  rfl

namespace Options

open Source

variable {o : Options} {text : List Char}

theorem build_of_not_wellNested (o : Options) (h : ¬ WellNested text) :
    o.build text =
      ⟨[], .error (.unbalanced ⟨if balance text = 0 then -1 else balance text⟩)⟩ := by
  rw [build, o.lower_of_not_wellNested h]

/-- Only the limit on passes keeps the compiler from compiling a well-nested text. -/
theorem exists_build (h : WellNested text)
    (hsettles : ∀ limit, (o.build text).result ≠ .error (.unsettled limit)) :
    ∃ p, (o.build text).result = .ok p := by
  obtain ⟨_, _, ⟨_, limit, hunsettled⟩ | ⟨p, hp, _⟩⟩ := o.refines_of_build h
  · exact absurd hunsettled (hsettles limit)
  · exact ⟨p, hp⟩

end Options

namespace Shell

theorem LineKind.ofLine_append {line : List Char} (h : ofLine line = .statement)
    (hline : ∃ c ∈ line, Text.isBlank c = false) (more : List Char) :
    ofLine (line ++ '\n' :: more) = .statement := by
  have hsome : line.dropWhile Text.isBlank ≠ [] := by
    intro hnil
    obtain ⟨c, hc, hblank⟩ := hline
    rw [List.dropWhile_eq_nil_iff.mp hnil c hc] at hblank
    contradiction
  have hdrop : (line ++ '\n' :: more).dropWhile Text.isBlank =
      line.dropWhile Text.isBlank ++ '\n' :: more := by
    rw [List.dropWhile_append, if_neg (by simpa using hsome)]
  unfold ofLine at h ⊢
  rw [hdrop]
  generalize line.dropWhile Text.isBlank = rest at h hsome
  -- What the line is shows in its first two characters, and a line break is not the second slash.
  rcases rest with _ | ⟨c, _ | ⟨d, rest⟩⟩
  · contradiction
  · simpa using h
  · rw [List.cons_append, List.cons_append]
    split at h
    · contradiction
    · next hslash heq =>
      cases heq
      split <;> grind
    · contradiction

theorem LineKind.ofLine_append_of_balance {line : List Char} (h : ofLine line = .statement)
    (hbalance : 0 < Source.balance line) (more : List Char) :
    ofLine (line ++ '\n' :: more) = .statement := by
  refine ofLine_append h ⟨'[', ?_, rfl⟩ more
  apply List.count_pos_iff.mp
  unfold Source.balance at hbalance
  omega

theorem Entry.ofLine_assemble {line : List Char} (h : LineKind.ofLine line = .statement)
    (more : List (List Char)) : LineKind.ofLine (assemble line more).text = .statement := by
  fun_induction assemble line more with
  | case1 | case2 => exact h
  | case3 line loops hloops next rest ih =>
    unfold openLoops at hloops
    exact ih (LineKind.ofLine_append_of_balance h (by omega) next)

namespace Session

variable {s : Session} {text line : List Char} {p : Program}

theorem feed_statement (h : LineKind.ofLine text = .statement) (steps : Nat) :
    s.feed steps text = s.conclude steps text := by
  rw [feed, h]

theorem feedLines_statement (h : LineKind.ofLine line = .statement) (steps : Nat)
    (more : List (List Char)) :
    s.feedLines steps line more =
      (Entry.assemble line more, s.conclude steps (Entry.assemble line more).text) := by
  rw [feedLines, h]

theorem exists_listing (h : (s.options.build text).result = .ok p) :
    ∃ events, s.listing p = .ok events ∧ ∀ bytes, .output bytes ∉ events := by
  obtain ⟨code, hcode⟩ := Lua.exists_code s.options (Options.regular_of_build h).nested
  unfold listing
  split
  · refine ⟨[.say code], by rw [hcode]; rfl, ?_⟩
    simp
  · exact ⟨[], rfl, by simp⟩

/-- A statement that has been compiled is executed, after some messages. -/
theorem run_of_build (h : (s.options.build text).result = .ok p) :
    ∃ events, (∀ bytes, .output bytes ∉ events) ∧
      ∀ steps, s.run steps text = (s.execute steps p).after events := by
  obtain ⟨events, hevents, hquiet⟩ := exists_listing h
  generalize hbuild : s.options.build text = built at h
  obtain ⟨log, result⟩ := built
  cases h
  refine ⟨log.map .log ++ events, by simpa using hquiet, fun steps => ?_⟩
  simp only [run, hbuild, hevents]

end Session

end Shell

end Brainfuck
