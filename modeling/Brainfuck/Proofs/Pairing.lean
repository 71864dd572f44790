import Brainfuck.Proofs.WellFormed
import Mathlib.Data.List.Infix

/-! The jump table as a pairing of positions. There is a table if and only if no block is ended
before it is opened and none is left open; which of the two is wrong is told by counting. The table
pairs both ends of every block, pairs do not cross, and no other table does the same. -/

namespace Brainfuck

namespace Program

variable {p : Program} {i : Instr} {k start stop : Nat}

/-- The instructions end no block that they do not open, and leave none open. -/
def Balanced (p : Program) : Prop :=
  openBlocks p = 0 ∧ ∀ before, before <+: p → 0 ≤ openBlocks before

theorem openBlocks_nil : openBlocks [] = 0 := rfl

theorem openBlocks_append (p q : Program) :
    openBlocks (p ++ q) = openBlocks p + openBlocks q := by
  simp only [openBlocks, List.countP_append]
  omega

/-- How many blocks are open before the instruction at `k`. -/
def level (p : Program) (k : Nat) : Int := openBlocks (p.take k)

theorem level_succ (h : p[k]? = some i) :
    p.level (k + 1) =
      p.level k + (if i.op.isOpener then 1 else 0) - (if i.op == .close then 1 else 0) := by
  rw [level, List.take_add_one, h, openBlocks_append, Option.toList_some, openBlocks_cons,
    openBlocks_nil, level]
  omega

theorem level_opener (h : p[k]? = some i) (hop : i.op.isOpener = true) :
    p.level (k + 1) = p.level k + 1 := by
  have hclose : (i.op == .close) = false := by
    rw [beq_eq_false_iff_ne]
    intro heq
    simp [heq, Op.isOpener] at hop
  simp [level_succ h, hop, hclose]

theorem level_close (h : p[k]? = some i) (hop : i.op = .close) :
    p.level (k + 1) = p.level k - 1 := by
  simp [level_succ h, hop, Op.isOpener]

theorem level_plain (h : p[k]? = some i) (hop : i.op.isPlain = true) :
    p.level (k + 1) = p.level k := by
  simp [level_succ h, Op.isOpener_of_isPlain hop, Op.ne_close_of_isPlain hop]

theorem openBlocks_drop_take (h : start ≤ stop) :
    openBlocks ((p.take stop).drop start) = p.level stop - p.level start := by
  have hsplit : p.take stop = p.take start ++ (p.take stop).drop start := by
    conv_lhs => rw [← List.take_append_drop start (p.take stop)]
    rw [List.take_take, Nat.min_eq_left h]
  rw [level, hsplit, openBlocks_append, ← hsplit, level]
  omega

/-- Whether a part of the program is balanced shows in the levels. -/
theorem balanced_drop_take_iff (h : start ≤ stop) :
    Balanced ((p.take stop).drop start) ↔
      p.level stop = p.level start ∧ ∀ k, start ≤ k → k ≤ stop → p.level start ≤ p.level k := by
  have htotal := openBlocks_drop_take (p := p) h
  constructor
  · rintro ⟨hzero, hbefore⟩
    refine ⟨by omega, fun k hstart hstop => ?_⟩
    have hnonneg := hbefore _ (List.IsPrefix.drop (List.take_prefix_take_left hstop) start)
    rw [openBlocks_drop_take hstart] at hnonneg
    omega
  · rintro ⟨hzero, hlevel⟩
    refine ⟨by omega, fun before hbefore => ?_⟩
    have hpart : before = (p.take (min (start + before.length) stop)).drop start := by
      conv_lhs => rw [List.prefix_iff_eq_take.mp hbefore]
      rw [List.take_drop, List.take_take]
    have hk := hlevel (min (start + before.length) stop) (by omega) (by omega)
    rw [hpart, openBlocks_drop_take (by omega)]
    omega

/-- The instructions at `start` and `stop` are the two ends of a block. -/
structure Encloses (p : Program) (start stop : Nat) : Prop where
  opens : ∃ i, p[start]? = some i ∧ i.op.isOpener = true
  ends : ∃ i, p[stop]? = some i ∧ i.op = .close
  lt : start < stop
  /-- The blocks between them match. -/
  inner : Balanced ((p.take stop).drop (start + 1))

theorem Encloses.levels (h : p.Encloses start stop) :
    p.level (start + 1) = p.level start + 1 ∧ p.level stop = p.level start + 1 ∧
      p.level (stop + 1) = p.level start ∧
      ∀ k, start < k → k ≤ stop → p.level start < p.level k := by
  obtain ⟨⟨i, hi, hopener⟩, ⟨j, hj, hclose⟩, hlt, hinner⟩ := h
  have hstart := level_opener hi hopener
  have hstop := level_close hj hclose
  obtain ⟨hsame, habove⟩ := (balanced_drop_take_iff (show start + 1 ≤ stop from hlt)).mp hinner
  refine ⟨hstart, by omega, by omega, fun k hk hle => ?_⟩
  have := habove k hk hle
  omega

/-- A block has one end. -/
theorem Encloses.stop_unique {stop' : Nat} (h : p.Encloses start stop)
    (h' : p.Encloses start stop') : stop = stop' := by
  obtain ⟨_, _, hafter, habove⟩ := h.levels
  obtain ⟨_, _, hafter', habove'⟩ := h'.levels
  rcases Nat.lt_trichotomy stop stop' with hlt | heq | hlt
  · have := habove' (stop + 1) (by have := h.lt; omega) hlt
    omega
  · exact heq
  · have := habove (stop' + 1) (by have := h'.lt; omega) hlt
    omega

/-- A block that is opened in another ends in it. -/
theorem Encloses.lt_of_opens {inner innerStop : Nat} (h : p.Encloses start stop)
    (h' : p.Encloses inner innerStop) (hlt : start < inner) (hinner : inner < stop) :
    innerStop < stop := by
  obtain ⟨_, _, hafter, habove⟩ := h.levels
  obtain ⟨_, hbefore', hafter', habove'⟩ := h'.levels
  have hlevel := habove inner hlt (by omega)
  by_contra hle
  rcases Nat.lt_or_eq_of_le (Nat.le_of_not_lt hle) with hcross | rfl
  · have := habove' (stop + 1) (by omega) hcross
    omega
  · omega

/-- A block that ends in another is opened in it. -/
theorem Encloses.lt_of_ends {inner innerStop : Nat} (h : p.Encloses start stop)
    (h' : p.Encloses inner innerStop) (hlt : start < innerStop) (hinner : innerStop < stop) :
    start < inner := by
  obtain ⟨_, _, _, habove⟩ := h.levels
  obtain ⟨_, _, hafter', habove'⟩ := h'.levels
  have hlevel := habove (innerStop + 1) (by omega) hinner
  by_contra hle
  rcases Nat.lt_or_eq_of_le (Nat.le_of_not_lt hle) with hcross | rfl
  · have := habove' start hcross (by omega)
    omega
  · omega

theorem openBlocks_cons_close (hop : i.op = .close) (p : Program) :
    openBlocks (i :: p) = openBlocks p - 1 := by
  simp [openBlocks_cons, hop, Op.isOpener]

theorem openBlocks_cons_other (hop : i.op ≠ .close) (p : Program) :
    openBlocks (i :: p) = openBlocks p + if i.op.isOpener then 1 else 0 := by
  simp [openBlocks_cons, hop]

/-- A block is ended that is not open if and only if counting finds it. -/
theorem blockError?_eq_unopened_iff {depth : Nat} :
    Op.blockError? depth p.ops = some .unopened ↔
      ∃ before, before <+: p ∧ depth + openBlocks before < 0 := by
  induction p generalizing depth with
  | nil =>
    refine iff_of_false (by cases depth <;> simp [ops, Op.blockError?]) ?_
    rintro ⟨before, hbefore, hneg⟩
    rw [List.prefix_nil.mp hbefore, openBlocks_nil] at hneg
    omega
  | cons i rest ih =>
    have hbefore : (∃ before, before <+: i :: rest ∧ depth + openBlocks before < 0) ↔
        ∃ before, before <+: rest ∧ depth + openBlocks (i :: before) < 0 := by
      constructor
      · rintro ⟨before, hb, hneg⟩
        rcases List.prefix_cons_iff.mp hb with rfl | ⟨inner, rfl, hinner⟩
        · rw [openBlocks_nil] at hneg
          omega
        · exact ⟨inner, hinner, hneg⟩
      · rintro ⟨before, hb, hneg⟩
        exact ⟨i :: before, List.cons_prefix_cons.mpr ⟨rfl, hb⟩, hneg⟩
    rw [hbefore, ops, List.map_cons]
    by_cases hop : i.op = .close
    · simp only [openBlocks_cons_close hop, hop]
      cases depth with
      | zero =>
        exact iff_of_true rfl ⟨[], List.nil_prefix, by decide⟩
      | succ outer =>
        have hsum : ∀ x : Int, (outer + 1 : Nat) + (x - 1) = outer + x := by omega
        simp only [hsum]
        exact ih
    · rw [Op.blockError?_cons hop]
      simp only [openBlocks_cons_other hop]
      refine ih.trans (exists_congr fun before => and_congr_right fun _ => ?_)
      split <;> omega

/-- Where no block is ended that is not open, counting finds those that are left open. -/
theorem blockError?_eq_none_iff {depth : Nat} (h : Op.blockError? depth p.ops ≠ some .unopened) :
    Op.blockError? depth p.ops = none ↔ depth + openBlocks p = 0 := by
  induction p generalizing depth with
  | nil =>
    rw [openBlocks_nil]
    cases depth with
    | zero => exact iff_of_true rfl rfl
    | succ depth => exact iff_of_false (by simp [ops, Op.blockError?]) (by omega)
  | cons i rest ih =>
    rw [ops, List.map_cons] at h ⊢
    by_cases hop : i.op = .close
    · rw [openBlocks_cons_close hop]
      rw [hop] at h ⊢
      cases depth with
      | zero => exact absurd rfl h
      | succ outer =>
        refine (ih h).trans ?_
        omega
    · rw [Op.blockError?_cons hop] at h ⊢
      rw [openBlocks_cons_other hop]
      refine (ih h).trans ?_
      split <;> omega

end Program

theorem Op.isPlain_eq_false_iff {op : Op} :
    op.isPlain = false ↔ op.isOpener = true ∨ op = .close := by
  cases op <;> simp [isPlain, isOpener]

namespace Jumps

open Program

variable {p rest : Program} {i : Instr} {table table' final : Jumps} {opened outer : List Nat}
  {position start : Nat}

/-- The table pairs the two ends of every block. -/
structure Pairs (table : Jumps) (p : Program) : Prop where
  defined_iff (k : Nat) : (∃ l, table[k]? = some l) ↔
    ∃ i, p[k]? = some i ∧ (i.op.isOpener = true ∨ i.op = .close)
  back {k l : Nat} : table[k]? = some l → table[l]? = some k
  ne {k l : Nat} : table[k]? = some l → k ≠ l
  encloses {start : Nat} {i : Instr} : p[start]? = some i → i.op.isOpener = true →
    ∃ stop, table[start]? = some stop ∧ p.Encloses start stop

/-- What is known when the instructions before `position` have been gone through, and the blocks
opened at the positions in `opened` are open, the innermost first. -/
structure Scanned (p : Program) (table : Jumps) (opened : List Nat) (position : Nat) : Prop where
  descend : Descend position opened
  level_eq : p.level position = opened.length
  /-- A block that is open has not been left since it was opened. -/
  pending {start : Nat} {outer : List Nat} : start :: outer <:+ opened →
    (∃ i, p[start]? = some i ∧ i.op.isOpener = true) ∧ p.level start = outer.length ∧
      ∀ k, start < k → k ≤ position → outer.length < p.level k
  defined_iff (k : Nat) : (∃ l, table[k]? = some l) ↔
    k < position ∧ k ∉ opened ∧ ∃ i, p[k]? = some i ∧ i.op.isPlain = false
  joined {k l : Nat} : table[k]? = some l →
    table[l]? = some k ∧ (p.Encloses k l ∨ p.Encloses l k)

namespace Scanned

theorem pending_succ (h : Scanned p table opened position) {opened' : List Nat}
    (hlevel : p.level (position + 1) = opened'.length) (hs : start :: outer <:+ opened)
    (hs' : start :: outer <:+ opened') :
    (∃ i, p[start]? = some i ∧ i.op.isOpener = true) ∧ p.level start = outer.length ∧
      ∀ k, start < k → k ≤ position + 1 → outer.length < p.level k := by
  obtain ⟨hopener, hstart, habove⟩ := h.pending hs
  refine ⟨hopener, hstart, fun k hlt hle => ?_⟩
  rcases Nat.lt_or_eq_of_le hle with hk | rfl
  · exact habove k hlt (by omega)
  · have hlength := hs'.length_le
    rw [List.length_cons] at hlength
    omega

theorem empty (p : Program) : Scanned p ∅ [] 0 where
  descend := by simp [Descend]
  level_eq := rfl
  pending := by simp
  defined_iff := by simp
  joined := by simp

theorem plain (h : Scanned p table opened position) (hi : p[position]? = some i)
    (hop : i.op.isPlain = true) : Scanned p table opened (position + 1) where
  descend := h.descend.succ
  level_eq := (level_plain hi hop).trans h.level_eq
  pending hs := h.pending_succ ((level_plain hi hop).trans h.level_eq) hs hs
  defined_iff k := by
    rw [h.defined_iff]
    constructor
    · rintro ⟨hlt, hrest⟩
      exact ⟨by omega, hrest⟩
    · rintro ⟨hlt, hmem, j, hj, hplain⟩
      refine ⟨?_, hmem, j, hj, hplain⟩
      rcases Nat.lt_or_eq_of_le (Nat.le_of_lt_succ hlt) with hlt | rfl
      · exact hlt
      · cases hi.symm.trans hj
        rw [hop] at hplain
        contradiction
  joined := h.joined

theorem push (h : Scanned p table opened position) (hi : p[position]? = some i)
    (hop : i.op.isOpener = true) : Scanned p table (position :: opened) (position + 1) where
  descend := h.descend.push
  level_eq := by
    rw [level_opener hi hop, h.level_eq]
    rfl
  pending {start outer} hs := by
    have hlevel : p.level (position + 1) = (position :: opened).length := by
      rw [level_opener hi hop, h.level_eq]
      rfl
    rcases List.suffix_cons_iff.mp hs with heq | hopened
    · obtain ⟨rfl, rfl⟩ := List.cons.inj heq
      refine ⟨⟨i, hi, hop⟩, h.level_eq, fun k hlt hle => ?_⟩
      obtain rfl : k = start + 1 := by omega
      rw [hlevel, List.length_cons]
      omega
    · exact h.pending_succ hlevel hopened hs
  defined_iff k := by
    rw [h.defined_iff, List.mem_cons, not_or]
    constructor
    · rintro ⟨hlt, hmem, hk⟩
      exact ⟨by omega, ⟨by omega, hmem⟩, hk⟩
    · rintro ⟨hlt, ⟨hne, hmem⟩, hk⟩
      exact ⟨by omega, hmem, hk⟩
  joined := h.joined

/-- The instruction at `position` ends the innermost block that is open. -/
theorem encloses (h : Scanned p table (start :: outer) position) (hi : p[position]? = some i)
    (hop : i.op = .close) : p.Encloses start position := by
  obtain ⟨hopener, hstart, habove⟩ := h.pending (List.suffix_refl _)
  have hlt : start < position := h.descend.pop.1
  have hlevel : p.level position = outer.length + 1 := h.level_eq
  have hsucc : p.level (start + 1) = p.level start + 1 := by
    obtain ⟨j, hj, hjop⟩ := hopener
    exact level_opener hj hjop
  refine ⟨hopener, ⟨i, hi, hop⟩, hlt, (balanced_drop_take_iff hlt).mpr ⟨?_, fun k hk hle => ?_⟩⟩
  · rw [Nat.succ_eq_add_one]
    omega
  · have := habove k hk hle
    rw [Nat.succ_eq_add_one]
    omega

theorem pop (h : Scanned p table (start :: outer) position) (hi : p[position]? = some i)
    (hop : i.op = .close) :
    Scanned p ((table.insert start position).insert position start) outer (position + 1) := by
  obtain ⟨hlt, hstart, hposition, hdescend⟩ := h.descend.pop
  have hlevel : p.level (position + 1) = outer.length := by
    rw [level_close hi hop, h.level_eq]
    simp
  have hget : ∀ k, ((table.insert start position).insert position start)[k]? =
      if position = k then some start else if start = k then some position else table[k]? := by
    intro k
    simp only [Std.ExtTreeMap.getElem?_insert, Nat.compare_eq_eq]
  -- Neither end of the block has an entry so far.
  have hfree : ∀ k l, table[k]? = some l → position ≠ k ∧ start ≠ k := by
    intro k l hk
    obtain ⟨hbefore, hmem, _⟩ := (h.defined_iff k).mp ⟨l, hk⟩
    rw [List.mem_cons, not_or] at hmem
    exact ⟨by omega, Ne.symm hmem.1⟩
  have hencloses := h.encloses hi hop
  refine ⟨hdescend.succ, hlevel, fun hs => ?_, fun k => ?_, fun {k l} hk => ?_⟩
  · exact h.pending_succ hlevel (hs.trans (List.suffix_cons start outer)) hs
  · rw [hget]
    by_cases hk : position = k
    · subst hk
      simpa [hposition] using ⟨i, hi, Op.isPlain_eq_false_iff.mpr (.inr hop)⟩
    · by_cases hk' : start = k
      · subst hk'
        obtain ⟨j, hj, hjop⟩ := hencloses.opens
        simpa [hk, hstart, Nat.lt_succ_of_lt hlt] using
          ⟨j, hj, Op.isPlain_eq_false_iff.mpr (.inl hjop)⟩
      · rw [if_neg hk, if_neg hk', h.defined_iff, List.mem_cons, not_or]
        constructor
        · rintro ⟨hbefore, ⟨_, hmem⟩, hplain⟩
          exact ⟨by omega, hmem, hplain⟩
        · rintro ⟨hbefore, hmem, hplain⟩
          exact ⟨by omega, ⟨Ne.symm hk', hmem⟩, hplain⟩
  · rw [hget] at hk ⊢
    split at hk
    · next heq =>
      subst heq
      cases hk
      simp [Nat.ne_of_gt hlt, hencloses]
    · split at hk
      · next hne heq =>
        subst heq
        cases hk
        simp [hencloses]
      · obtain ⟨hback, hends⟩ := h.joined hk
        obtain ⟨hne, hne'⟩ := hfree _ _ hback
        rw [if_neg hne, if_neg hne']
        exact ⟨hback, hends⟩

/-- The table that is built joins the ends of the blocks that have been left, at every point of the
scan, and so at its end. -/
theorem extend (h : Scanned p table opened position) (hrest : p.drop position = rest)
    (hextend : extend table opened position rest = .ok final) :
    ∃ stop, p.length ≤ stop ∧ Scanned p final [] stop := by
  induction rest generalizing table opened position with
  | nil =>
    unfold Jumps.extend at hextend
    split at hextend
    · next hempty =>
      cases hextend
      rw [List.isEmpty_iff.mp hempty] at h
      exact ⟨position, List.drop_eq_nil_iff.mp hrest, h⟩
    · contradiction
  | cons i rest ih =>
    have hi : p[position]? = some i := by
      rw [← List.head?_drop, hrest]
      rfl
    have hrest' : p.drop (position + 1) = rest := by
      rw [← List.tail_drop, hrest]
      rfl
    by_cases hop : i.op = .close
    · cases opened with
      | nil =>
        obtain ⟨_, op⟩ := i
        cases hop
        contradiction
      | cons start outer =>
        refine ih (h.pop hi hop) hrest' ?_
        obtain ⟨_, op⟩ := i
        cases hop
        exact hextend
    · rw [extend_cons hop] at hextend
      by_cases hopener : i.op.isOpener = true
      · rw [if_pos hopener] at hextend
        exact ih (h.push hi hopener) hrest' hextend
      · rw [if_neg hopener] at hextend
        have hplain : i.op.isPlain = true := by
          by_contra hplain
          rcases Op.isPlain_eq_false_iff.mp (Bool.eq_false_of_not_eq_true hplain) with h | h
          · exact hopener h
          · exact hop h
        exact ih (h.plain hi hplain) hrest' hextend

theorem pairs (h : Scanned p table [] position) (hend : p.length ≤ position) :
    table.Pairs p where
  defined_iff k := by
    rw [h.defined_iff]
    simp only [← Op.isPlain_eq_false_iff]
    refine ⟨fun hk => hk.2.2, fun hk => ⟨?_, List.not_mem_nil, hk⟩⟩
    obtain ⟨i, hi, _⟩ := hk
    have hlt := (List.getElem?_eq_some_iff.mp hi).1
    omega
  back hk := (h.joined hk).1
  ne hk := by
    rcases (h.joined hk).2 with henclose | henclose
    · exact Nat.ne_of_lt henclose.lt
    · exact Nat.ne_of_gt henclose.lt
  encloses {start i} hi hop := by
    have hlt := (List.getElem?_eq_some_iff.mp hi).1
    obtain ⟨stop, hstop⟩ := (h.defined_iff start).mpr
      ⟨by omega, List.not_mem_nil, i, hi, Op.isPlain_eq_false_iff.mpr (.inl hop)⟩
    refine ⟨stop, hstop, ?_⟩
    rcases (h.joined hstop).2 with henclose | henclose
    · exact henclose
    · obtain ⟨j, hj, hclose⟩ := henclose.ends
      cases hi.symm.trans hj
      rw [hclose] at hop
      contradiction

/-- A pairing has no choice: where a block ends shows in the program. -/
theorem eq_of_pairs (h : Scanned p table [] position) (hend : p.length ≤ position)
    (h' : table'.Pairs p) : table' = table := by
  have hpartner : ∀ {start stop : Nat}, p.Encloses start stop → table'[start]? = some stop := by
    intro start stop henclose
    obtain ⟨i, hi, hop⟩ := henclose.opens
    obtain ⟨stop', hstop', henclose'⟩ := h'.encloses hi hop
    rw [hstop', henclose.stop_unique henclose']
  apply Std.ExtTreeMap.ext_getElem?
  intro k
  cases hk : table[k]? with
  | some l =>
    rcases (h.joined hk).2 with henclose | henclose
    · exact hpartner henclose
    · exact h'.back (hpartner henclose)
  | none =>
    rw [Option.eq_none_iff_forall_ne_some]
    intro l hl
    obtain ⟨l', hl'⟩ := ((h.pairs hend).defined_iff k).mpr ((h'.defined_iff k).mp ⟨l, hl⟩)
    rw [hk] at hl'
    contradiction

/-- What lies between two ends is paired between them. -/
theorem not_crossing (h : Scanned p table opened position) {a b c d : Nat}
    (hab : table[a]? = some b) (hcd : table[c]? = some d) (hac : a < c) (hcb : c < b) :
    a < d ∧ d < b := by
  rcases (h.joined hab).2 with houter | houter
  · rcases (h.joined hcd).2 with hinner | hinner
    · exact ⟨Nat.lt_trans hac hinner.lt, houter.lt_of_opens hinner hac hcb⟩
    · exact ⟨houter.lt_of_ends hinner hac hcb, Nat.lt_trans hinner.lt hcb⟩
  · have := houter.lt
    omega

end Scanned

theorem ofProgram_eq_unopened_iff :
    ofProgram p = .error .unopened ↔ ∃ before, before <+: p ∧ openBlocks before < 0 := by
  rw [ofProgram_eq_error_iff, blockError?_eq_unopened_iff]
  simp

theorem ofProgram_ne_unopened_iff :
    ofProgram p ≠ .error .unopened ↔ ∀ before, before <+: p → 0 ≤ openBlocks before := by
  rw [ne_eq, ofProgram_eq_unopened_iff]
  simp

theorem exists_ofProgram_iff_balanced : (∃ table, ofProgram p = .ok table) ↔ p.Balanced := by
  have hcount : ofProgram p ≠ .error .unopened →
      ((∃ table, ofProgram p = .ok table) ↔ openBlocks p = 0) := by
    intro h
    rw [ne_eq, ofProgram_eq_error_iff] at h
    simpa [exists_ofProgram_iff] using blockError?_eq_none_iff h
  constructor
  · rintro ⟨table, htable⟩
    have hopened : ofProgram p ≠ .error .unopened := by simp [htable]
    exact ⟨(hcount hopened).mp ⟨table, htable⟩, ofProgram_ne_unopened_iff.mp hopened⟩
  · rintro ⟨hzero, hbefore⟩
    exact (hcount (ofProgram_ne_unopened_iff.mpr hbefore)).mpr hzero

theorem ofProgram_eq_unclosed_iff :
    ofProgram p = .error .unclosed ↔
      (∀ before, before <+: p → 0 ≤ openBlocks before) ∧ 0 < openBlocks p := by
  constructor
  · intro h
    have hbefore := ofProgram_ne_unopened_iff.mp (show ofProgram p ≠ .error .unopened by simp [h])
    have hnone : ¬ p.Balanced := by simp [← exists_ofProgram_iff_balanced, h]
    refine ⟨hbefore, Int.lt_iff_le_and_ne.mpr ⟨hbefore p List.prefix_rfl, fun hzero => ?_⟩⟩
    exact hnone ⟨hzero.symm, hbefore⟩
  · rintro ⟨hbefore, hpos⟩
    have hopened := ofProgram_ne_unopened_iff.mpr hbefore
    cases h : ofProgram p with
    | ok table =>
      have hzero := (exists_ofProgram_iff_balanced.mp ⟨table, h⟩).1
      omega
    | error e =>
      cases e with
      | unopened => exact absurd h hopened
      | unclosed => rfl

/-- There is a table unless some part up to an instruction ends more blocks than it opens, or else
the whole program opens more than it ends. The table pairs the two ends of every block and nothing
else, pairs do not cross, and no other table does so. -/
theorem blocks_pair_in_one_way (p : Program) :
    (ofProgram p = .error .unopened ↔ ∃ before, before <+: p ∧ openBlocks before < 0) ∧
    (ofProgram p = .error .unclosed ↔
      (∀ before, before <+: p → 0 ≤ openBlocks before) ∧ 0 < openBlocks p) ∧
    (p.Balanced → ∃ table, ofProgram p = .ok table ∧ table.Pairs p ∧
      (∀ a b c d : Nat, table[a]? = some b → table[c]? = some d → a < c → c < b →
        a < d ∧ d < b) ∧
      ∀ table' : Jumps, table'.Pairs p → table' = table) := by
  refine ⟨ofProgram_eq_unopened_iff, ofProgram_eq_unclosed_iff, fun hbalanced => ?_⟩
  obtain ⟨table, htable⟩ := exists_ofProgram_iff_balanced.mpr hbalanced
  obtain ⟨stop, hstop, hscanned⟩ := (Scanned.empty p).extend List.drop_zero htable
  exact ⟨table, htable, hscanned.pairs hstop, fun _ _ _ _ => hscanned.not_crossing,
    fun _ => hscanned.eq_of_pairs hstop⟩

end Jumps

end Brainfuck
