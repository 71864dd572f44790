import Brainfuck.Proofs.Layout

/-! Matching ends of blocks, in programs whose depths follow the nesting. A walk through such a
program keeps the positions of the blocks that are open; the jump table joins whatever ends a block
to the innermost of them, and both ends have the same depth. -/

namespace Brainfuck

namespace Program

/-- The depths of the instructions are those that their operations have by nesting, when `depth`
blocks are open before the first. -/
def Nested (depth : Nat) (p : Program) : Prop := nest depth p.ops = .ok p

theorem map_cons_eq_ok_iff {x : Except Unbalanced Program} {i j : Instr} {rest : Program} :
    x.map (j :: ·) = .ok (i :: rest) ↔ j = i ∧ x = .ok rest := by
  cases x <;> simp [Except.map]

theorem nested_close_iff {i : Instr} (h : i.op = .close) {depth : Nat} {rest : Program} :
    Nested depth (i :: rest) ↔
      ∃ outer : Nat, depth = outer + 1 ∧ i.depth = outer ∧ Nested outer rest := by
  obtain ⟨k, op⟩ := i
  cases h
  unfold Nested
  cases depth with
  | zero => simp [ops, nest]
  | succ outer =>
    simp only [ops, List.map_cons, nest, map_cons_eq_ok_iff, Instr.mk.injEq, and_true]
    constructor
    · rintro ⟨rfl, hrest⟩
      exact ⟨outer, rfl, rfl, hrest⟩
    · rintro ⟨_, ⟨⟩, rfl, hrest⟩
      exact ⟨rfl, hrest⟩

theorem nested_cons_iff {i : Instr} (h : i.op ≠ .close) {depth : Nat} {rest : Program} :
    Nested depth (i :: rest) ↔
      i.depth = depth ∧ Nested (if i.op.isOpener then depth + 1 else depth) rest := by
  obtain ⟨k, op⟩ := i
  simp only [Nested, ops, List.map_cons, nest_cons h, map_cons_eq_ok_iff, Instr.mk.injEq, and_true]
  rw [eq_comm]

theorem nested_opener_iff {i : Instr} (h : i.op.isOpener = true) {depth : Nat} {rest : Program} :
    Nested depth (i :: rest) ↔ i.depth = depth ∧ Nested (depth + 1) rest := by
  have hclose : i.op ≠ .close := by
    intro hop
    simp [hop, Op.isOpener] at h
  simp [nested_cons_iff hclose, h]

theorem nested_plain_iff {i : Instr} (h : i.op.isPlain = true) {depth : Nat} {rest : Program} :
    Nested depth (i :: rest) ↔ i.depth = depth ∧ Nested depth rest := by
  simp [nested_cons_iff (Op.ne_close_of_isPlain h), Op.isOpener_of_isPlain h]

theorem nested_plains_iff {xs : Program} (h : ∀ i ∈ xs, i.op.isPlain = true) {depth : Nat}
    {rest : Program} :
    Nested depth (xs ++ rest) ↔ (∀ i ∈ xs, i.depth = depth) ∧ Nested depth rest := by
  induction xs with
  | nil => simp
  | cons i xs ih =>
    obtain ⟨hi, hxs⟩ := List.forall_mem_cons.mp h
    rw [List.cons_append, nested_plain_iff hi, ih hxs, List.forall_mem_cons, and_assoc]

theorem Nested.append_congr {xs ys : Program} (hxy : ∀ depth, Nested depth xs → Nested depth ys)
    {before : Program} {depth : Nat} (h : Nested depth (before ++ xs)) :
    Nested depth (before ++ ys) := by
  induction before generalizing depth with
  | nil => exact hxy depth h
  | cons i before ih =>
    by_cases hop : i.op = .close
    · obtain ⟨outer, hdepth, hi, h⟩ := (nested_close_iff hop).mp h
      exact (nested_close_iff hop).mpr ⟨outer, hdepth, hi, ih h⟩
    · obtain ⟨hi, h⟩ := (nested_cons_iff hop).mp h
      exact (nested_cons_iff hop).mpr ⟨hi, ih h⟩

end Program

namespace Jumps

/-- The instructions at these positions open blocks, each at the depth that goes with the number of
those that follow. -/
def OpenedAt (program : Program) : List Nat → Prop
  | [] => True
  | start :: outer =>
    (∃ opener : Instr, program[start]? = some opener ∧ opener.op.isOpener = true ∧
      opener.depth = outer.length) ∧ OpenedAt program outer

/-- The table joins both ends of a block. -/
structure Joins (table : Jumps) (p : Program) (start stop : Nat) : Prop where
  opens : ∃ i, p[start]? = some i ∧ i.op.isOpener = true
  ends : ∃ i, p[stop]? = some i ∧ i.op = .close
  depth_eq : p[start]?.map (·.depth) = p[stop]?.map (·.depth)
  forth : table[start]? = some stop
  back : table[stop]? = some start

/-- A walk through the rest of a program from `position` on, with the positions of the blocks that
are open, the innermost first. Depths tell how many these are, and a block that ends is joined to
the innermost. -/
inductive Walk (p : Program) (table : Jumps) : Nat → List Nat → Program → Prop
  | done {position : Nat} (hend : p.length ≤ position) : Walk p table position [] []
  | opener {position : Nat} {opened : List Nat} {i : Instr} {rest : Program}
      (hi : p[position]? = some i) (hop : i.op.isOpener = true) (hdepth : i.depth = opened.length)
      (hrest : Walk p table (position + 1) (position :: opened) rest) :
      Walk p table position opened (i :: rest)
  | close {position start : Nat} {outer : List Nat} {i : Instr} {rest : Program}
      (hi : p[position]? = some i) (hop : i.op = .close) (hdepth : i.depth = outer.length)
      (hjoins : table.Joins p start position) (hrest : Walk p table (position + 1) outer rest) :
      Walk p table position (start :: outer) (i :: rest)
  | plain {position : Nat} {opened : List Nat} {i : Instr} {rest : Program}
      (hi : p[position]? = some i) (hop : i.op.isPlain = true) (hdepth : i.depth = opened.length)
      (hrest : Walk p table (position + 1) opened rest) : Walk p table position opened (i :: rest)

variable {p rest : Program} {table final : Jumps} {position : Nat} {opened : List Nat}

theorem walk_of_extend (h : extend table opened position rest = .ok final)
    (hrest : ∀ k, p[position + k]? = rest[k]?) (hnested : Program.Nested opened.length rest)
    (hdescend : Descend position opened) (hopened : OpenedAt p opened) :
    Walk p final position opened rest := by
  induction rest generalizing table opened position with
  | nil =>
    unfold extend at h
    split at h
    · next hempty =>
      rw [List.isEmpty_iff.mp hempty]
      exact .done (List.getElem?_eq_none_iff.mp (hrest 0))
    · contradiction
  | cons i rest ih =>
    have hi : p[position]? = some i := hrest 0
    have hrest' : ∀ k, p[position + 1 + k]? = rest[k]? := by
      intro k
      rw [show position + 1 + k = position + (k + 1) by omega, hrest]
      simp
    by_cases hop : i.op = .close
    · obtain ⟨outer, hlength, hdepth, hafter⟩ := (Program.nested_close_iff hop).mp hnested
      cases opened with
      | nil => contradiction
      | cons start opened =>
        obtain rfl : opened.length = outer := by simpa using hlength
        obtain ⟨hlt, hstart, hposition, hdescend⟩ := hdescend.pop
        obtain ⟨⟨opener, hopener, hopens, hdepth'⟩, hopened⟩ := hopened
        have hextend : extend ((table.insert start position).insert position start) opened
            (position + 1) rest = .ok final := by
          obtain ⟨_, op⟩ := i
          cases hop
          exact h
        have hforth : final[start]? = some position := by
          rw [getElem?_extend hextend (by omega) hstart, Std.ExtTreeMap.getElem?_insert,
            Std.ExtTreeMap.getElem?_insert]
          simp [Nat.ne_of_gt hlt]
        have hback : final[position]? = some start := by
          rw [getElem?_extend hextend (by omega) hposition, Std.ExtTreeMap.getElem?_insert]
          simp
        have hsame : p[start]?.map (·.depth) = p[position]?.map (·.depth) := by
          rw [hopener, hi, Option.map_some, Option.map_some, hdepth', hdepth]
        exact .close hi hop hdepth
          ⟨⟨opener, hopener, hopens⟩, ⟨i, hi, hop⟩, hsame, hforth, hback⟩
          (ih hextend hrest' hafter hdescend.succ hopened)
    · rw [extend_cons hop] at h
      obtain ⟨hdepth, hafter⟩ := (Program.nested_cons_iff hop).mp hnested
      by_cases hopener : i.op.isOpener = true
      · simp only [hopener, if_true] at h hafter
        exact .opener hi hopener hdepth
          (ih h hrest' hafter hdescend.push ⟨⟨i, hi, hopener, hdepth⟩, hopened⟩)
      · simp only [hopener, Bool.false_eq_true, if_false] at h hafter
        refine .plain hi ?_ hdepth (ih h hrest' hafter hdescend.succ hopened)
        cases hop' : i.op <;> simp_all [Op.isPlain, Op.isOpener]

theorem walk_ofProgram (h : ofProgram p = .ok table) (hp : p.Nested 0) : Walk p table 0 [] p :=
  walk_of_extend h (by simp) hp (by simp [Descend]) trivial

/-- The walk comes by every instruction. -/
theorem Walk.exists_at (h : Walk p table position opened rest) {k : Nat} {i : Instr}
    (hle : position ≤ k) (hi : p[k]? = some i) :
    ∃ opened' rest', Walk p table k opened' (i :: rest') := by
  induction h with
  | done hend =>
    rw [List.getElem?_eq_none (by omega)] at hi
    contradiction
  | opener hj hop hdepth hrest ih =>
    rcases Nat.lt_or_eq_of_le hle with hlt | rfl
    · exact ih hlt
    · cases hj.symm.trans hi
      exact ⟨_, _, .opener hj hop hdepth hrest⟩
  | close hj hop hdepth hjoins hrest ih =>
    rcases Nat.lt_or_eq_of_le hle with hlt | rfl
    · exact ih hlt
    · cases hj.symm.trans hi
      exact ⟨_, _, .close hj hop hdepth hjoins hrest⟩
  | plain hj hop hdepth hrest ih =>
    rcases Nat.lt_or_eq_of_le hle with hlt | rfl
    · exact ih hlt
    · cases hj.symm.trans hi
      exact ⟨_, _, .plain hj hop hdepth hrest⟩

/-- Blocks that are open come to an end. -/
theorem Walk.exists_joins_of_mem (h : Walk p table position opened rest) {start : Nat}
    (hstart : start ∈ opened) : ∃ stop, table.Joins p start stop := by
  induction h with
  | done hend => contradiction
  | opener hi hop hdepth hrest ih => exact ih (List.mem_cons_of_mem _ hstart)
  | @close position start' outer i rest hi hop hdepth hjoins hrest ih =>
    rcases List.mem_cons.mp hstart with rfl | hstart
    · exact ⟨position, hjoins⟩
    · exact ih hstart
  | plain hi hop hdepth hrest ih => exact ih hstart

theorem Walk.exists_stop (h : Walk p table position opened rest) {start : Nat} {i : Instr}
    (hle : position ≤ start) (hi : p[start]? = some i) (hop : i.op.isOpener = true) :
    ∃ stop, table.Joins p start stop := by
  obtain ⟨opened', rest', hat⟩ := h.exists_at hle hi
  cases hat with
  | opener _ _ _ hrest => exact hrest.exists_joins_of_mem List.mem_cons_self
  | close _ hclose _ _ _ =>
    rw [hclose] at hop
    contradiction
  | plain _ hplain _ _ =>
    rw [Op.isOpener_of_isPlain hplain] at hop
    contradiction

theorem Walk.exists_start (h : Walk p table position opened rest) {stop : Nat} {i : Instr}
    (hle : position ≤ stop) (hi : p[stop]? = some i) (hop : i.op = .close) :
    ∃ start, table.Joins p start stop := by
  obtain ⟨opened', rest', hat⟩ := h.exists_at hle hi
  cases hat with
  | opener _ hopener _ _ =>
    rw [hop] at hopener
    contradiction
  | close _ _ _ hjoins _ => exact ⟨_, hjoins⟩
  | plain _ hplain _ _ => exact absurd hop (Op.ne_close_of_isPlain hplain)

end Jumps

namespace Program

variable {p : Program}

/-- The number of the block that is opened at `start`, if blocks are counted from 1 on. -/
def ordinal (p : Program) (start : Nat) : Nat := (p.take start).countP (·.op.isOpener) + 1

theorem ordinal_succ {position : Nat} {i : Instr} (h : p[position]? = some i) :
    p.ordinal (position + 1) = p.ordinal position + if i.op.isOpener then 1 else 0 := by
  rw [ordinal, ordinal, List.take_add_one, h, List.countP_append]
  simp only [Option.toList_some, List.countP_singleton]
  omega

theorem ordinal_lt {start later : Nat} {i : Instr} (h : p[start]? = some i)
    (hop : i.op.isOpener = true) (hlt : start < later) : p.ordinal start < p.ordinal later := by
  have hsucc := ordinal_succ h
  rw [if_pos hop] at hsucc
  have hle : p.ordinal (start + 1) ≤ p.ordinal later := by
    refine Nat.succ_le_succ (List.Sublist.countP_le ?_)
    exact (List.take_prefix_take_left hlt).sublist
  omega

theorem eq_of_ordinal_eq {start start' : Nat} {i i' : Instr} (h : p[start]? = some i)
    (hop : i.op.isOpener = true) (h' : p[start']? = some i') (hop' : i'.op.isOpener = true)
    (heq : p.ordinal start = p.ordinal start') : start = start' := by
  rcases Nat.lt_trichotomy start start' with hlt | heq' | hlt
  · have := ordinal_lt h hop hlt
    omega
  · exact heq'
  · have := ordinal_lt h' hop' hlt
    omega

end Program

end Brainfuck
