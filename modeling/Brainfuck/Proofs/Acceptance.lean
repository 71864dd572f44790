import Brainfuck.Proofs.Levels

/-! Which texts are accepted. Brackets are counted after the text has been simplified, and whether
they nest is seen only in lowering. Neither simplification nor the choice of commands changes the
balance or the nesting, so all levels accept the same texts, and refuse others for the same
reason. -/

namespace Brainfuck

namespace Source

def brackets (text : List Char) : List Char := text.filter fun c => c == '[' || c == ']'

theorem balance_append (xs ys : List Char) : balance (xs ++ ys) = balance xs + balance ys := by
  simp only [balance, List.count_append]
  omega

theorem balance_filter {keep : Char → Bool} (ho : keep '[' = true) (hc : keep ']' = true)
    (text : List Char) : balance (text.filter keep) = balance text := by
  simp only [balance, List.count_filter ho, List.count_filter hc]

theorem Shortens.balance_eq {xs ys : List Char} (h : Shortens xs ys) : balance xs = balance ys := by
  cases h <;> rfl

theorem SimplifiesTo.balance_eq {text text' : List Char} (h : SimplifiesTo text text') :
    balance text = balance text' := by
  induction h with
  | refl => rfl
  | tail _ h ih =>
    obtain ⟨before, hshorter, after⟩ := h
    simp only [balance_append, hshorter.balance_eq] at ih ⊢
    exact ih

theorem wellNested_brackets_iff (text : List Char) :
    WellNested (brackets text) ↔ WellNested text := by
  rw [wellNested_iff false, wellNested_iff false, blockError?_strip, blockError?_strip, brackets,
    blockError?_filter rfl rfl]

theorem balance_brackets (text : List Char) : balance (brackets text) = balance text :=
  balance_filter rfl rfl text

/-- A block that is not ended shows in the balance. -/
theorem balance_pos_of_unclosed {depth : Nat} {text : List Char}
    (h : Op.blockError? depth (Op.ofChars text) = some .unclosed) : 0 < depth + balance text := by
  induction text generalizing depth with
  | nil =>
    cases depth with
    | zero => contradiction
    | succ depth =>
      rw [balance_nil]
      omega
  | cons c text ih =>
    by_cases ho : c = '['
    · subst ho
      have hinner : 0 < (depth + 1 : Nat) + balance text := ih h
      rw [balance_open]
      omega
    · by_cases hc : c = ']'
      · subst hc
        cases depth with
        | zero =>
          replace h : some BlockError.unopened = some .unclosed := h
          contradiction
        | succ outer =>
          have houter : 0 < outer + balance text := ih h
          rw [balance_close]
          omega
      · rw [blockError?_other ho hc] at h
        rw [balance_other ho hc]
        exact ih h

end Source

theorem Program.nest_of_unopened {depth : Nat} {ops : List Op}
    (h : Op.blockError? depth ops = some .unopened) : nest depth ops = .error ⟨-1⟩ := by
  induction ops generalizing depth with
  | nil =>
    rw [Op.blockError?] at h
    split at h <;> contradiction
  | cons op rest ih =>
    by_cases hop : op = .close
    · subst hop
      cases depth with
      | zero => rfl
      | succ outer => rw [nest, ih h, Except.map]
    · rw [Op.blockError?_cons hop] at h
      rw [nest_cons hop, ih h, Except.map]

namespace Options

open Source

theorem balance_commands (o : Options) (text : List Char) :
    balance (o.level.simplify (strip o.debugging text)) = balance text := by
  rw [← (o.level.simplifiesTo _).balance_eq]
  exact balance_filter rfl rfl text

theorem lower_of_not_wellNested (o : Options) {text : List Char} (h : ¬ WellNested text) :
    o.lower text = .error ⟨if balance text = 0 then -1 else balance text⟩ := by
  have hbalance := o.balance_commands text
  by_cases hzero : balance text = 0
  · -- The count does not tell; since as many blocks are ended as opened, one is ended too early.
    have hunopened : Op.blockError? 0
        (Op.ofText (o.level.simplify (strip o.debugging text))) = some .unopened := by
      rw [Level.blockError?_simplify, blockError?_strip]
      cases he : Op.blockError? 0 (Op.ofChars text) with
      | none =>
        rw [← blockError?_strip o.debugging, ← wellNested_iff] at he
        contradiction
      | some e =>
        cases e with
        | unopened => rfl
        | unclosed =>
          have hpos := balance_pos_of_unclosed he
          omega
    simp [lower, prepare, hbalance, hzero, Program.lower, Program.nest_of_unopened hunopened,
      Except.map]
  · simp [lower, prepare, hbalance, hzero]

theorem exists_lower_iff (o : Options) (text : List Char) :
    (∃ l, o.lower text = .ok l) ↔ WellNested text := by
  constructor
  · rintro ⟨l, hl⟩
    by_contra h
    rw [o.lower_of_not_wellNested h] at hl
    contradiction
  · intro h
    obtain ⟨l, hl, _⟩ := o.exists_lower h
    exact ⟨l, hl⟩

theorem lower_eq_error_iff (o : Options) (text : List Char) (e : Unbalanced) :
    o.lower text = .error e ↔
      ¬ WellNested text ∧ e = ⟨if balance text = 0 then -1 else balance text⟩ := by
  by_cases h : WellNested text
  · obtain ⟨l, hl, _⟩ := o.exists_lower h
    simp [hl, h]
  · simp [o.lower_of_not_wellNested h, h, eq_comm]

/-- A text is accepted if and only if its brackets are well nested. Otherwise the error counts the
brackets that are missing, or one opening bracket where the numbers agree. Neither the level nor any
other character makes a difference. -/
theorem lower_accepts_wellNested (o : Options) (text : List Char) :
    ((∃ l, o.lower text = .ok l) ↔ WellNested text) ∧
      (¬ WellNested text →
        o.lower text = .error ⟨if balance text = 0 then -1 else balance text⟩) ∧
      ∀ (o' : Options) (text' : List Char), brackets text' = brackets text →
        ((∃ l, o'.lower text' = .ok l) ↔ ∃ l, o.lower text = .ok l) ∧
          ∀ e, o'.lower text' = .error e ↔ o.lower text = .error e := by
  refine ⟨o.exists_lower_iff text, o.lower_of_not_wellNested, fun o' text' hbrackets => ?_⟩
  have hnested : WellNested text' ↔ WellNested text := by
    rw [← wellNested_brackets_iff text', hbrackets, wellNested_brackets_iff]
  have hbalance : balance text' = balance text := by
    rw [← balance_brackets text', hbrackets, balance_brackets]
  refine ⟨?_, fun e => ?_⟩
  · rw [exists_lower_iff, exists_lower_iff, hnested]
  · rw [lower_eq_error_iff, lower_eq_error_iff, hnested, hbalance]

end Options

end Brainfuck
