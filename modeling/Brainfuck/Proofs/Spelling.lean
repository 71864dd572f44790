import Brainfuck.Proofs.Characters
import Mathlib.Data.List.Chain
import Mathlib.Data.List.TakeWhile

/-! Lowering loses nothing. The operations that a text of commands and clear marks is lowered to can
be spelled out, one after the other, and the result is the text. Each run of a command is one
operation, whether it stands alone or starts from a cleared cell, and no operation goes on with the
run of the one before it. -/

namespace Brainfuck

namespace Source

/-- The characters that stand for operations. -/
def meaningful : List Char := commands ++ [dumpCommand, '0']

/-- A run, and what comes after it. -/
theorem replicate_append_dropRun (c : Char) (rest : List Char) :
    List.replicate (runLength c rest + 1) c ++ dropRun c rest = c :: rest := by
  have hrun : rest.takeWhile (· == c) = List.replicate (runLength c rest) c := by
    refine List.eq_replicate_iff.mpr ⟨rfl, fun d hd => ?_⟩
    simpa using List.mem_takeWhile_imp hd
  rw [List.replicate_succ, List.cons_append, ← hrun, dropRun, List.takeWhile_append_dropWhile]

/-- The run does not go on after its end. -/
theorem head?_dropRun (c : Char) (rest : List Char) : (dropRun c rest).head? ≠ some c := by
  intro h
  have := List.head?_dropWhile_not (· == c) rest
  unfold dropRun at h
  simp [h] at this

theorem mem_of_mem_dropRun {c d : Char} {rest : List Char} (h : d ∈ dropRun c rest) : d ∈ rest :=
  (List.dropWhile_sublist _).subset h

end Source

namespace Op

/-- The text that stands for the operation. For the operations that only the optimiser makes there
is none. -/
def spelling : Op → List Char
  | move .left amount => List.replicate amount.toNat '<'
  | move .right amount => List.replicate amount.toNat '>'
  | adjust .plus amount _ => List.replicate amount.toNat '+'
  | adjust .minus amount _ => List.replicate amount.toNat '-'
  | assign value _ => '0' :: (List.replicate value.toNat '+' ++ List.replicate (-value).toNat '-')
  | write .. => ['.']
  | read _ => [',']
  | loop _ => ['[']
  | close => [']']
  | dump => ['#']
  | once | addScaled .. | addTo .. | copy .. => []

/-- A text can stand for the operation: its amount is positive, and it is about the current cell. -/
def Literal : Op → Prop
  | move _ amount => 0 < amount
  | adjust _ amount offset => 0 < amount ∧ offset = 0
  | assign _ offset => offset = 0
  | read offset => offset = 0
  | write offset bias => offset = 0 ∧ bias = 0
  | loop offset => offset = 0
  | close | dump => True
  | once | addScaled .. | addTo .. | copy .. => False

/-- The second operation goes on with the run that the first one is, or ends with. -/
def Continues : Op → Op → Prop
  | move way _, move way' _ => way = way'
  | adjust sign _ _, adjust sign' _ _ => sign = sign'
  | assign value _, adjust .plus _ _ => 0 ≤ value
  | assign value _, adjust .minus _ _ => value ≤ 0
  | _, _ => False

theorem literal_of_mem_ofText {op : Op} {text : List Char} (h : op ∈ ofText text) : op.Literal := by
  fun_induction ofText text with
  | case1 => contradiction
  | case2 rest ih | case3 rest ih =>
    rcases List.mem_cons.mp h with rfl | h
    · show (0 : Int) < Source.runLength _ rest + 1
      omega
    · exact ih h
  | case4 rest ih | case5 rest ih =>
    rcases List.mem_cons.mp h with rfl | h
    · refine ⟨?_, rfl⟩
      omega
    · exact ih h
  | case6 rest ih | case7 rest ih | case8 rest _ _ ih | case9 rest ih | case10 rest ih
  | case11 rest ih | case12 rest ih | case13 rest ih =>
    rcases List.mem_cons.mp h with rfl | h
    · simp [Literal]
    · exact ih h
  | case14 c rest _ _ _ _ _ _ _ _ _ _ _ _ ih => exact ih h

/-- The operations of a text, spelled out one after the other, are the text. -/
theorem spelling_ofText {text : List Char} (h : ∀ c ∈ text, c ∈ Source.meaningful) :
    (ofText text).flatMap spelling = text := by
  fun_induction ofText text with
  | case1 => rfl
  | case2 rest ih | case3 rest ih | case4 rest ih | case5 rest ih =>
    rw [List.forall_mem_cons] at h
    rw [List.flatMap_cons, ih fun c hc => h.2 c (Source.mem_of_mem_dropRun hc)]
    exact Source.replicate_append_dropRun _ rest
  | case6 rest ih =>
    simp only [List.forall_mem_cons] at h
    rw [List.flatMap_cons, ih fun c hc => h.2.2 c (Source.mem_of_mem_dropRun hc),
      ← Source.replicate_append_dropRun '+' rest]
    simp [spelling]
  | case7 rest ih =>
    simp only [List.forall_mem_cons] at h
    rw [List.flatMap_cons, ih fun c hc => h.2.2 c (Source.mem_of_mem_dropRun hc),
      ← Source.replicate_append_dropRun '-' rest]
    simp [spelling]
  | case8 rest _ _ ih | case9 rest ih | case10 rest ih | case11 rest ih | case12 rest ih
  | case13 rest ih =>
    rw [List.forall_mem_cons] at h
    rw [List.flatMap_cons, ih h.2]
    rfl
  | case14 c rest _ _ _ _ _ _ _ _ _ _ _ _ ih =>
    have hc : c ∈ Source.meaningful := h c List.mem_cons_self
    simp only [Source.meaningful, Source.commands, Source.dumpCommand] at hc
    grind

/-- The characters that would go on with the run that the operation is, or ends with. -/
def continuing : Op → List Char
  | move .left _ => ['<']
  | move .right _ => ['>']
  | adjust .plus _ _ => ['+']
  | adjust .minus _ _ => ['-']
  | assign value _ => (if 0 ≤ value then ['+'] else []) ++ (if value ≤ 0 then ['-'] else [])
  | _ => []

theorem head?_replicate_toNat {amount : Int} (h : 0 < amount) (c : Char) :
    (List.replicate amount.toNat c).head? = some c := by
  obtain ⟨n, hn⟩ : ∃ n, amount.toNat = n + 1 := ⟨amount.toNat - 1, by omega⟩
  rw [hn, List.replicate_succ, List.head?_cons]

theorem Continues.exists_continuing {a b : Op} (h : a.Continues b) (hb : b.Literal) :
    ∃ c ∈ a.continuing, b.spelling.head? = some c := by
  cases b with
  | move way amount =>
    cases a with
    | move way' amount' =>
      obtain rfl : way' = way := h
      cases way' <;> exact ⟨_, List.mem_singleton.mpr rfl, head?_replicate_toNat hb _⟩
    | _ => simp [Continues] at h
  | adjust sign amount offset =>
    have hhead := head?_replicate_toNat hb.1
    cases a with
    | adjust sign' amount' offset' =>
      obtain rfl : sign' = sign := h
      cases sign' <;> exact ⟨_, List.mem_singleton.mpr rfl, hhead _⟩
    | assign value offset' =>
      cases sign with
      | plus => exact ⟨'+', by simp [continuing, show 0 ≤ value from h], hhead '+'⟩
      | minus => exact ⟨'-', by simp [continuing, show value ≤ 0 from h], hhead '-'⟩
    | _ => simp [Continues] at h
  | _ => cases a <;> simp [Continues] at h

/-- The first operation of a text does not go on with a run that the text does not go on with. -/
theorem not_continues {a b : Op} {text : List Char} (h : ∀ c ∈ text, c ∈ Source.meaningful)
    (hb : b ∈ (ofText text).head?) (ha : ∀ c ∈ a.continuing, text.head? ≠ some c) :
    ¬ a.Continues b := by
  intro hcontinues
  obtain ⟨rest, hrest⟩ : ∃ rest, ofText text = b :: rest := by
    cases htext : ofText text with
    | nil => simp [htext] at hb
    | cons op rest => exact ⟨rest, by simpa [htext] using hb⟩
  have hliteral : b.Literal := literal_of_mem_ofText (hrest ▸ List.mem_cons_self)
  obtain ⟨c, hc, hhead⟩ := hcontinues.exists_continuing hliteral
  apply ha c hc
  rw [← spelling_ofText h, hrest, List.flatMap_cons, List.head?_append, hhead]
  rfl

theorem isChain_run {a : Op} {c : Char} {rest : List Char}
    (h : ∀ d ∈ rest, d ∈ Source.meaningful) (ha : a.continuing = [c])
    (ih : (∀ d ∈ Source.dropRun c rest, d ∈ Source.meaningful) →
      (ofText (Source.dropRun c rest)).IsChain fun a b => ¬ a.Continues b) :
    (a :: ofText (Source.dropRun c rest)).IsChain fun a b => ¬ a.Continues b := by
  have hrest : ∀ d ∈ Source.dropRun c rest, d ∈ Source.meaningful :=
    fun d hd => h d (Source.mem_of_mem_dropRun hd)
  refine List.isChain_cons.mpr ⟨fun b hb => not_continues hrest hb ?_, ih hrest⟩
  simpa [ha] using Source.head?_dropRun c rest

/-- Runs are read up to their ends. -/
theorem isChain_ofText {text : List Char} (h : ∀ c ∈ text, c ∈ Source.meaningful) :
    (ofText text).IsChain fun a b => ¬ a.Continues b := by
  fun_induction ofText text with
  | case1 => exact .nil
  | case2 rest ih | case3 rest ih | case4 rest ih | case5 rest ih =>
    exact isChain_run (List.forall_mem_cons.mp h).2 rfl ih
  | case6 rest ih =>
    simp only [List.forall_mem_cons] at h
    refine isChain_run h.2.2 ?_ ih
    simp only [continuing]
    rw [if_pos (by omega), if_neg (by omega), List.append_nil]
  | case7 rest ih =>
    simp only [List.forall_mem_cons] at h
    refine isChain_run h.2.2 ?_ ih
    simp only [continuing]
    rw [if_neg (by omega), if_pos (by omega), List.nil_append]
  | case8 rest hplus hminus ih =>
    rw [List.forall_mem_cons] at h
    refine List.isChain_cons.mpr ⟨fun b hb => not_continues h.2 hb ?_, ih h.2⟩
    -- A mark before a run is read together with the run.
    cases rest with
    | nil => simp
    | cons d rest =>
      have hd : d ≠ '+' ∧ d ≠ '-' := by
        constructor <;> rintro rfl
        · exact hplus rest rfl
        · exact hminus rest rfl
      simpa [continuing] using hd
  | case9 rest ih | case10 rest ih | case11 rest ih | case12 rest ih | case13 rest ih =>
    rw [List.forall_mem_cons] at h
    refine List.isChain_cons.mpr ⟨fun b hb => not_continues h.2 hb ?_, ih h.2⟩
    simp [continuing]
  | case14 c rest _ _ _ _ _ _ _ _ _ _ _ _ ih => exact ih (List.forall_mem_cons.mp h).2

end Op

namespace Source

/-- A text that is well nested and made of commands and clear marks is lowered, and the operations
spelled out are the text. They have positive amounts and are about the current cell, and no run of a
command is cut in two. -/
theorem lowering_loses_nothing (text : List Char) (h : ∀ c ∈ text, c ∈ meaningful)
    (hnested : WellNested text) :
    ∃ p, Program.lower text = .ok p ∧ p.ops.flatMap Op.spelling = text ∧
      (∀ op ∈ p.ops, op.Literal) ∧ p.ops.IsChain fun a b => ¬ a.Continues b := by
  have hblocks := (Op.ofText_interchangeable text).1.blockError?_nil 0
  rw [blockError?_ofChars_of_wellNested hnested] at hblocks
  obtain ⟨p, hp⟩ := Program.exists_nest_iff.mpr hblocks
  have hops : p.ops = Op.ofText text := Program.ops_of_nest hp
  refine ⟨p, hp, ?_, ?_, ?_⟩
  · rw [hops, Op.spelling_ofText h]
  · rw [hops]
    exact fun op => Op.literal_of_mem_ofText
  · rw [hops]
    exact Op.isChain_ofText h

/-- Of two marks the second starts a run, which ends where the other command begins; the last run
ends at a bracket. -/
theorem lowering_loses_nothing_marked :
    let text := ['0', '0', '+', '+', '-', '[', '0', '-', '-', '>', '>', ']', '#']
    (∀ c ∈ text, c ∈ meaningful) ∧ WellNested text ∧
      ∃ p, Program.lower text = .ok p ∧
        p.ops = [.assign 0 0, .assign 2 0, .adjust .minus 1 0, .loop 0, .assign (-2) 0,
          .move .right 2, .close, .dump] ∧
        p.ops.flatMap Op.spelling = text ∧ p.ops.IsChain fun a b => ¬ a.Continues b := by
  intro text
  have halphabet : ∀ c ∈ text, c ∈ meaningful := by
    simp [text, meaningful, commands, dumpCommand]
  have hnested : WellNested text := by decide
  obtain ⟨p, hp, hspelling, _, hchain⟩ := lowering_loses_nothing text halphabet hnested
  refine ⟨halphabet, hnested, p, hp, ?_, hspelling, hchain⟩
  have hops : (Program.lower text).map Program.ops = .ok [.assign 0 0, .assign 2 0,
      .adjust .minus 1 0, .loop 0, .assign (-2) 0, .move .right 2, .close, .dump] := by
    decide +kernel
  rw [hp] at hops
  exact Except.ok.inj hops

end Source

end Brainfuck
