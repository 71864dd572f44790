import Brainfuck.Text.Escape
import Mathlib.Data.List.Chain

/-! Which texts can be typed with escapes. Each kind of escape is replaced in the whole text before
the next kind is looked at, and the doubled backslash comes last. So a backslash is taken together
with an `n` or a `0` after it even if another backslash escapes it, and no text with a backslash
right before one of these letters can be typed at all; every other text can. -/

namespace Brainfuck.Text

/-- How a character is typed. -/
def escapeChar : Char → List Char
  | '\\' => ['\\', '\\']
  | '\n' => ['\\', 'n']
  | '\x00' => ['\\', '0']
  | c => [c]

/-- The text with each backslash, line break and null character escaped. -/
def escape (text : List Char) : List Char := text.flatMap escapeChar

/-- No backslash stands right before the letter. -/
def Spares (letter : Char) (text : List Char) : Prop :=
  text.IsChain fun c d => c = '\\' → d ≠ letter

instance (letter : Char) (text : List Char) : Decidable (Spares letter text) :=
  inferInstanceAs (Decidable (List.IsChain _ text))

variable {letter meaning other c : Char} {text : List Char}

theorem replaceEscape_cons (h : c ≠ '\\' ∨ text.head? ≠ some letter) :
    replaceEscape letter meaning (c :: text) = c :: replaceEscape letter meaning text := by
  cases text with
  | nil => simp [replaceEscape]
  | cons d rest =>
    rw [replaceEscape, if_neg]
    rintro ⟨rfl, rfl⟩
    simp at h

theorem head?_replaceEscape_ne (h : text.head? ≠ some other) (hmeaning : meaning ≠ other) :
    (replaceEscape letter meaning text).head? ≠ some other := by
  fun_cases replaceEscape letter meaning text <;> simp_all

theorem spares_cons :
    Spares letter (c :: text) ↔ (c = '\\' → text.head? ≠ some letter) ∧ Spares letter text := by
  simp only [Spares, List.isChain_cons, Option.mem_def]
  grind

/-- What takes the place of an escape begins no other one. -/
theorem Spares.replaceEscape (h : Spares other text) (hmeaning : meaning ≠ other)
    (hletter : meaning = '\\' → letter = '\\') :
    Spares other (replaceEscape letter meaning text) := by
  fun_induction Text.replaceEscape letter meaning text with
  | case1 => exact h
  | case2 c => exact h
  | case3 c d rest hescape ih =>
    obtain ⟨rfl, rfl⟩ := hescape
    obtain ⟨_, hnext, hrest⟩ := by simpa only [spares_cons] using h
    refine spares_cons.mpr ⟨fun hback => ?_, ih hrest⟩
    exact head?_replaceEscape_ne (hnext (hletter hback)) hmeaning
  | case4 c d rest _ ih =>
    obtain ⟨hfirst, hrest⟩ := spares_cons.mp h
    refine spares_cons.mpr ⟨fun hback => ?_, ih hrest⟩
    exact head?_replaceEscape_ne (hfirst hback) hmeaning

theorem spares_replaceEscape (hletter : meaning ≠ letter) (hback : meaning ≠ '\\') :
    Spares letter (replaceEscape letter meaning text) := by
  fun_induction replaceEscape letter meaning text with
  | case1 => exact .nil
  | case2 c => exact .singleton c
  | case3 c d rest _ ih => exact spares_cons.mpr ⟨fun h => absurd h hback, ih⟩
  | case4 c d rest hescape ih =>
    refine spares_cons.mpr ⟨?_, ih⟩
    rintro rfl
    exact head?_replaceEscape_ne (by simpa using hescape) hletter

theorem eq_backslash_of_escapeChar (h : escapeChar c = ['\\', '\\']) : c = '\\' := by
  fun_cases escapeChar c <;> simp_all [escapeChar]

/-- The text with only the given characters escaped. -/
def escapeOnly (kinds : List Char) (text : List Char) : List Char :=
  text.flatMap fun c => if c ∈ kinds then escapeChar c else [c]

theorem escape_eq (text : List Char) : escape text = escapeOnly ['\n', '\x00', '\\'] text := by
  refine List.flatMap_congr fun c _ => ?_
  fun_cases escapeChar c <;> simp_all

theorem escapeOnly_nil (text : List Char) : escapeOnly [] text = text := by
  simp [escapeOnly]

theorem escapeOnly_cons (kinds : List Char) (c : Char) (text : List Char) :
    escapeOnly kinds (c :: text) =
      (if c ∈ kinds then escapeChar c else [c]) ++ escapeOnly kinds text := rfl

/-- Escaping a text puts nothing but backslashes at its front. -/
theorem head?_escapeOnly_ne (kinds : List Char) (h : text.head? ≠ some letter)
    (hletter : letter ≠ '\\') : (escapeOnly kinds text).head? ≠ some letter := by
  cases text with
  | nil => exact h
  | cons c text =>
    rw [escapeOnly_cons]
    split
    · fun_cases escapeChar c with
      | case1 | case2 | case3 => simpa using hletter.symm
      | case4 => exact h
    · exact h

/-- One kind of escape is undone, unless a doubled backslash stands before its letter. -/
theorem replaceEscape_escapeOnly {kinds : List Char}
    (hmeaning : escapeChar meaning = ['\\', letter])
    (hkinds : ∀ c ∈ kinds, c ≠ meaning ∧ ∃ l ≠ letter, escapeChar c = ['\\', l])
    (hback : '\\' ∈ meaning :: kinds) (htext : letter ≠ '\\' → Spares letter text) :
    replaceEscape letter meaning (escapeOnly (meaning :: kinds) text) = escapeOnly kinds text := by
  induction text with
  | nil => rfl
  | cons c text ih =>
    have ih := ih fun hletter => (spares_cons.mp (htext hletter)).2
    rw [escapeOnly_cons, escapeOnly_cons]
    by_cases hc : c = meaning
    · subst hc
      have hother : c ∉ kinds := fun hmem => (hkinds c hmem).1 rfl
      rw [if_pos List.mem_cons_self, if_neg hother, hmeaning]
      simp only [List.cons_append, List.nil_append]
      rw [replaceEscape, if_pos ⟨rfl, rfl⟩, ih]
    by_cases hkind : c ∈ kinds
    · obtain ⟨_, l, hl, hescape⟩ := hkinds c hkind
      rw [if_pos (List.mem_cons_of_mem _ hkind), if_pos hkind, hescape]
      simp only [List.cons_append, List.nil_append]
      rw [replaceEscape_cons (.inr (by simpa using hl)), replaceEscape_cons ?_, ih]
      -- The second of two backslashes must not be taken together with what follows.
      by_cases hdouble : l = '\\'
      · subst hdouble
        obtain ⟨hnext, _⟩ := spares_cons.mp (htext hl.symm)
        have hhead := hnext (eq_backslash_of_escapeChar hescape)
        exact .inr (head?_escapeOnly_ne (meaning :: kinds) hhead hl.symm)
      · exact .inl hdouble
    · have hmem : c ∉ meaning :: kinds := by simp [hc, hkind]
      have hplain : c ≠ '\\' := fun heq => hmem (heq ▸ hback)
      rw [if_neg hmem, if_neg hkind]
      simp only [List.cons_append, List.nil_append]
      rw [replaceEscape_cons (.inl hplain), ih]

theorem unescape_escape (hn : Spares 'n' text) (h0 : Spares '0' text) :
    unescape (escape text) = text := by
  calc unescape (escape text)
      = replaceEscape '\\' '\\' (replaceEscape '0' '\x00'
          (replaceEscape 'n' '\n' (escapeOnly ['\n', '\x00', '\\'] text))) := by
        rw [unescape, escape_eq]
    _ = replaceEscape '\\' '\\' (replaceEscape '0' '\x00' (escapeOnly ['\x00', '\\'] text)) := by
        rw [replaceEscape_escapeOnly rfl (by simp [escapeChar]) (by decide) fun _ => hn]
    _ = replaceEscape '\\' '\\' (escapeOnly ['\\'] text) := by
        rw [replaceEscape_escapeOnly rfl (by simp [escapeChar]) (by decide) fun _ => h0]
    _ = escapeOnly [] text := by
        rw [replaceEscape_escapeOnly rfl (by simp) (by decide) fun h => absurd rfl h]
    _ = text := escapeOnly_nil text

theorem spares_unescape (typed : List Char) :
    Spares 'n' (unescape typed) ∧ Spares '0' (unescape typed) := by
  have hn : Spares 'n' (replaceEscape 'n' '\n' typed) :=
    spares_replaceEscape (by decide) (by decide)
  have h0 : Spares '0' (replaceEscape '0' '\x00' (replaceEscape 'n' '\n' typed)) :=
    spares_replaceEscape (by decide) (by decide)
  constructor
  · exact (hn.replaceEscape (by decide) (by decide)).replaceEscape (by decide) (by decide)
  · exact h0.replaceEscape (by decide) (by decide)

/-- A text can be typed just if no backslash in it stands right before `n` or `0`; and just then it
is typed by escaping each backslash, line break and null character. -/
theorem typed_text_iff_spares (text : List Char) :
    ((∃ typed, unescape typed = text) ↔ Spares 'n' text ∧ Spares '0' text) ∧
      (unescape (escape text) = text ↔ Spares 'n' text ∧ Spares '0' text) := by
  have hescape : Spares 'n' text ∧ Spares '0' text → unescape (escape text) = text :=
    fun h => unescape_escape h.1 h.2
  constructor
  · constructor
    · rintro ⟨typed, rfl⟩
      exact spares_unescape typed
    · exact fun h => ⟨escape text, hescape h⟩
  · constructor
    · intro heq
      rw [← heq]
      exact spares_unescape (escape text)
    · exact hescape

/-- A backslash that is escaped before `n` begins a line break nevertheless. -/
theorem backslash_before_n_is_misread :
    escape ['\\', 'n'] = ['\\', '\\', 'n'] ∧ unescape ['\\', '\\', 'n'] = ['\\', '\n'] ∧
      unescape (escape ['\\', 'n']) ≠ ['\\', 'n'] := by
  decide

/-- An escaped backslash before a line break is read as it was meant. -/
example : unescape ['\\', '\\', '\\', 'n', '\\', '\\'] = ['\\', '\n', '\\'] := by
  decide

end Brainfuck.Text
