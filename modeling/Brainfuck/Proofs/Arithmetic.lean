import Brainfuck.Proofs.NormalForm
import Brainfuck.Proofs.Settled
import Mathlib.Data.List.Sort

/-! Straight arithmetic: texts that move the pointer, change cells by one, and clear them with a
loop that counts to zero. Such a text has an effect on each cell and a displacement, and the
optimised program can be read off these. The argument is about meaning rather than about rules: with
unbounded cells, a settled program of movements, adjustments and assignments is determined by what
it does, and rewriting keeps what a program does. -/

namespace Brainfuck

open Machine

/-- What happens to a cell: it may be cleared, and it is changed by `net` after that. -/
structure CellEffect where
  cleared : Bool
  net : Int
  deriving DecidableEq, Repr

namespace CellEffect

def none : CellEffect := ⟨false, 0⟩

def andThen (e f : CellEffect) : CellEffect :=
  if f.cleared then f else ⟨e.cleared, e.net + f.net⟩

/-- The value of a cell that held `x` before. -/
def apply (e : CellEffect) (x : Int) : Int := if e.cleared then e.net else x + e.net

/-- The operation on the cell at `k` that has the effect; nothing if the cell keeps its value. -/
def ops (k : Int) (e : CellEffect) : List Op :=
  if e.cleared then [.assign e.net k] else (Op.ofChange e.net k).toList

@[simp] theorem apply_none (x : Int) : none.apply x = x := by
  simp [none, apply]

@[simp] theorem none_andThen (e : CellEffect) : none.andThen e = e := by
  obtain ⟨_ | _, net⟩ := e <;> simp [none, andThen]

@[simp] theorem andThen_none (e : CellEffect) : e.andThen none = e := by
  simp [none, andThen]

theorem apply_andThen (e f : CellEffect) (x : Int) :
    (e.andThen f).apply x = f.apply (e.apply x) := by
  obtain ⟨_ | _, a⟩ := e <;> obtain ⟨_ | _, b⟩ := f <;> simp [andThen, apply, Int.add_assoc]

/-- Two values of a cell tell effects apart. -/
theorem eq_of_apply_eq {e f : CellEffect} (h : ∀ x, e.apply x = f.apply x) : e = f := by
  have hzero := h 0
  have hone := h 1
  obtain ⟨_ | _, a⟩ := e <;> obtain ⟨_ | _, b⟩ := f <;> simp [apply] at hzero hone ⊢ <;> omega

theorem ops_eq_nil_iff {k : Int} {e : CellEffect} : e.ops k = [] ↔ e = none := by
  obtain ⟨_ | _, net⟩ := e
  · simp only [ops, none, Op.ofChange, Bool.false_eq_true, if_false, mk.injEq, true_and]
    split_ifs <;> simp <;> omega
  · simp [ops, none]

end CellEffect

namespace Op

def displacement : Op → Int
  | move way amount => way.displacement amount
  | _ => 0

/-- The effect of an adjustment or assignment on the cell at `k`. -/
def effectAt (k : Int) : Op → CellEffect
  | adjust sign amount offset => if offset = k then ⟨false, sign.change amount⟩ else .none
  | assign value offset => if offset = k then ⟨true, value⟩ else .none
  | _ => .none

def Kind.IsArithmetic (k : Kind) : Prop := k = .move ∨ k = .adjust ∨ k = .assign

/-- The operation moves, adjusts or assigns. -/
abbrev IsArithmetic (op : Op) : Prop := op.kind.IsArithmetic

theorem isPlain_of_isArithmetic {op : Op} (h : op.IsArithmetic) : op.isPlain = true := by
  cases op <;> simp_all [Kind.IsArithmetic, kind, isPlain]

theorem ptr_act {op : Op} (h : op.IsArithmetic) (w : Observed 0) :
    (op.act w).tape.ptr = w.tape.ptr + op.displacement := by
  rcases h with h | h | h
  · obtain ⟨way, amount, rfl⟩ := exists_eq_move h
    rw [act_move]
    rfl
  · obtain ⟨sign, amount, offset, rfl⟩ := exists_eq_adjust h
    simp [Tape.ptr_put, displacement]
  · obtain ⟨value, offset, rfl⟩ := exists_eq_assign h
    simp [Tape.ptr_put, displacement]

theorem get_put (t : Tape 0) (offset v k : Int) :
    (t.put offset v).get (t.ptr + k) = if offset = k then v else t.get (t.ptr + k) := by
  have hcell := Tape.cell_put t offset k v
  rwa [wrap_zero_left, Tape.cell, Tape.ptr_put, Tape.cell] at hcell

theorem get_act {op : Op} (h : op.IsArithmetic) (w : Observed 0) (k : Int) :
    (op.act w).tape.get (w.tape.ptr + k) =
      (op.effectAt k).apply (w.tape.get (w.tape.ptr + k)) := by
  rcases h with h | h | h
  · obtain ⟨way, amount, rfl⟩ := exists_eq_move h
    rw [act_move]
    exact (CellEffect.apply_none _).symm
  · obtain ⟨sign, amount, offset, rfl⟩ := exists_eq_adjust h
    rw [act_adjust, get_put, effectAt]
    split
    · next hk => simp [CellEffect.apply, Tape.cell, hk]
    · rw [CellEffect.apply_none]
  · obtain ⟨value, offset, rfl⟩ := exists_eq_assign h
    rw [act_assign, get_put, effectAt]
    split
    · rfl
    · rw [CellEffect.apply_none]

/-- The first stores to a cell, and the second stores to none at or before it. -/
def Precedes (a b : Op) : Prop := ∃ x, a.target? = some x ∧ ∀ y, b.target? = some y → x < y

instance : Std.Irrefl Precedes where
  irrefl := by
    rintro a ⟨x, hx, hlt⟩
    exact Int.lt_irrefl x (hlt x hx)

instance : Std.Antisymm Precedes where
  antisymm := by
    rintro a b ⟨x, hx, hxy⟩ ⟨y, hy, hyx⟩
    have hlt := hxy y hy
    have hgt := hyx x hx
    omega

instance : Trans Precedes Precedes Precedes where
  trans := by
    rintro a b c ⟨x, hx, hxy⟩ ⟨y, hy, hyz⟩
    exact ⟨x, hx, fun z hz => Int.lt_trans (hxy y hy) (hyz z hz)⟩

end Op

namespace Arithmetic

def displacement : List Op → Int
  | [] => 0
  | op :: rest => op.displacement + displacement rest

/-- The effect on the cell at `k` from where the pointer is at first. -/
def effectAt (k : Int) : List Op → CellEffect
  | [] => .none
  | op :: rest => (op.effectAt k).andThen (effectAt (k - op.displacement) rest)

variable {ops ops' : List Op}

theorem ptr_actAll (h : ∀ op ∈ ops, op.IsArithmetic) (w : Observed 0) :
    (Op.actAll ops w).tape.ptr = w.tape.ptr + displacement ops := by
  induction ops generalizing w with
  | nil => simp [displacement]
  | cons op ops ih =>
    obtain ⟨hop, hops⟩ := List.forall_mem_cons.mp h
    rw [Op.actAll_cons, ih hops, Op.ptr_act hop, displacement, Int.add_assoc]

theorem get_actAll (h : ∀ op ∈ ops, op.IsArithmetic) (w : Observed 0) (k : Int) :
    (Op.actAll ops w).tape.get (w.tape.ptr + k) =
      (effectAt k ops).apply (w.tape.get (w.tape.ptr + k)) := by
  induction ops generalizing w k with
  | nil => simp [effectAt]
  | cons op ops ih =>
    obtain ⟨hop, hops⟩ := List.forall_mem_cons.mp h
    have hrest := ih hops (op.act w) (k - op.displacement)
    rw [Op.ptr_act hop, show w.tape.ptr + op.displacement + (k - op.displacement) =
      w.tape.ptr + k by omega, Op.get_act hop] at hrest
    rw [Op.actAll_cons, hrest, effectAt, CellEffect.apply_andThen]

/-! Operations that act alike have the same displacement and effects: the pointer shows the one, and
a cell that may hold anything before shows the other. -/

theorem displacement_eq_of_actAll_eq (h : ∀ op ∈ ops, op.IsArithmetic)
    (h' : ∀ op ∈ ops', op.IsArithmetic)
    (heq : ∀ w : Observed 0, Op.actAll ops w = Op.actAll ops' w) :
    displacement ops = displacement ops' := by
  have hptr := congrArg (·.tape.ptr) (heq ⟨⟨.empty 0, [], none⟩, []⟩)
  simp only [ptr_actAll h, ptr_actAll h'] at hptr
  omega

theorem effectAt_eq_of_actAll_eq (h : ∀ op ∈ ops, op.IsArithmetic)
    (h' : ∀ op ∈ ops', op.IsArithmetic)
    (heq : ∀ w : Observed 0, Op.actAll ops w = Op.actAll ops' w) (k : Int) :
    effectAt k ops = effectAt k ops' := by
  apply CellEffect.eq_of_apply_eq
  intro x
  obtain ⟨w, hw⟩ : ∃ w : Observed 0, w.tape.get (w.tape.ptr + k) = x := by
    refine ⟨⟨⟨(Tape.empty 0).put k x, [], none⟩, []⟩, ?_⟩
    rw [Tape.ptr_put, Op.get_put, if_pos rfl]
  rw [← hw, ← get_actAll h, ← get_actAll h', heq]

/-! ### Programs in order -/

/-- The offsets from `-reach` to `reach`, ascending. -/
def offsetsWithin (reach : Nat) : List Int :=
  (List.range (2 * reach + 1)).map fun (i : Nat) => (i : Int) - reach

/-- For each cell, in ascending order, the operation with the effect of all operations on it; then
one movement for all movements. Cells farther away than `reach` are left out. -/
def summary (reach : Nat) (ops : List Op) : List Op :=
  (offsetsWithin reach).flatMap (fun k => (effectAt k ops).ops k) ++
    (Op.ofDisplacement (displacement ops)).toList

theorem mem_offsetsWithin {reach : Nat} {k : Int} :
    k ∈ offsetsWithin reach ↔ -(reach : Int) ≤ k ∧ k ≤ reach := by
  simp only [offsetsWithin, List.mem_map, List.mem_range]
  constructor
  · rintro ⟨i, hi, rfl⟩
    omega
  · intro h
    exact ⟨(k + reach).toNat, by omega, by omega⟩

theorem pairwise_offsetsWithin (reach : Nat) : (offsetsWithin reach).Pairwise (· < ·) := by
  refine List.pairwise_map.mpr (List.pairwise_lt_range.imp ?_)
  omega

/-- A program of arithmetic that stores to each cell at most once, in ascending order. -/
structure InOrder (ops : List Op) : Prop where
  arithmetic : ∀ op ∈ ops, op.IsArithmetic
  proper : ∀ op ∈ ops, op.Proper
  ascending : ops.Pairwise Op.Precedes

theorem InOrder.of_cons {op : Op} (h : InOrder (op :: ops)) : InOrder ops :=
  ⟨(List.forall_mem_cons.mp h.arithmetic).2, (List.forall_mem_cons.mp h.proper).2,
    (List.pairwise_cons.mp h.ascending).2⟩

/-- A store, and what comes after it; or a movement, and nothing after it. -/
theorem InOrder.cons_cases {op : Op} (h : InOrder (op :: ops)) :
    (∃ x, op.target? = some x ∧ op.displacement = 0 ∧ (op.effectAt x).ops x = [op] ∧
      (∀ k, k ≠ x → op.effectAt k = .none) ∧ ∀ b ∈ ops, b.target? ≠ some x) ∨
    (op.target? = none ∧ ops = [] ∧ (Op.ofDisplacement op.displacement).toList = [op] ∧
      ∀ k, op.effectAt k = .none) := by
  have hproper := h.proper op List.mem_cons_self
  have hbefore := (List.pairwise_cons.mp h.ascending).1
  have hlater : ∀ {x}, op.target? = some x → ∀ b ∈ ops, b.target? ≠ some x := by
    intro x hx b hb hbx
    obtain ⟨y, hy, hlt⟩ := hbefore b hb
    have hself := hlt x hbx
    rw [hx] at hy
    cases hy
    omega
  rcases h.arithmetic op List.mem_cons_self with hop | hop | hop
  · obtain ⟨way, amount, rfl⟩ := Op.exists_eq_move hop
    refine .inr ⟨rfl, ?_, ?_, fun k => rfl⟩
    · apply List.eq_nil_iff_forall_not_mem.mpr
      intro b hb
      obtain ⟨x, hx, _⟩ := hbefore b hb
      contradiction
    · replace hproper : 0 < amount := hproper
      cases way <;>
        simp [Op.displacement, Direction.displacement, Op.ofDisplacement, hproper, hproper.le]
  · obtain ⟨sign, amount, offset, rfl⟩ := Op.exists_eq_adjust hop
    refine .inl ⟨offset, rfl, rfl, ?_, fun k hk => if_neg hk.symm, hlater rfl⟩
    replace hproper : 0 < amount := hproper
    cases sign <;> simp [Op.effectAt, CellEffect.ops, Sign.change, Op.ofChange, hproper, hproper.le]
  · obtain ⟨value, offset, rfl⟩ := Op.exists_eq_assign hop
    refine .inl ⟨offset, rfl, rfl, ?_, fun k hk => if_neg hk.symm, hlater rfl⟩
    simp [Op.effectAt, CellEffect.ops]

/-- The effect on a cell is that of the one operation that stores to it. -/
theorem InOrder.ops_effectAt (h : InOrder ops) (k : Int) :
    (effectAt k ops).ops k = ops.filter (·.target? = some k) := by
  induction ops with
  | nil => rfl
  | cons op ops ih =>
    have hrest := ih h.of_cons
    rcases h.cons_cases with ⟨x, hx, hstill, hops, hother, hlater⟩ | ⟨hx, rfl, _, hnone⟩
    · rw [effectAt, hstill, Int.sub_zero]
      by_cases hk : k = x
      · subst hk
        have hempty : ops.filter (·.target? = some k) = [] := by
          simpa [List.filter_eq_nil_iff] using hlater
        rw [List.filter_cons_of_pos (by simpa using hx), hempty]
        rw [hempty] at hrest
        rw [CellEffect.ops_eq_nil_iff.mp hrest, CellEffect.andThen_none, hops]
      · rw [List.filter_cons_of_neg (by simpa [hx] using Ne.symm hk), hother k hk,
          CellEffect.none_andThen, hrest]
    · rw [effectAt, hnone, List.filter_cons_of_neg (by simp [hx])]
      rfl

theorem InOrder.ops_displacement (h : InOrder ops) :
    (Op.ofDisplacement (displacement ops)).toList = ops.filter (·.target? = none) := by
  induction ops with
  | nil => rfl
  | cons op ops ih =>
    rcases h.cons_cases with ⟨x, hx, hstill, _⟩ | ⟨hx, rfl, hops, _⟩
    · rw [displacement, hstill, Int.zero_add, ih h.of_cons,
        List.filter_cons_of_neg (by simp [hx])]
    · rw [displacement, displacement, Int.add_zero, hops,
        List.filter_cons_of_pos (by simpa using hx)]
      rfl

theorem pairwise_byTarget {offsets : List Int} (hoffsets : offsets.Pairwise (· < ·))
    (h : ops.Pairwise Op.Precedes) :
    (offsets.flatMap (fun k => ops.filter (·.target? = some k)) ++
      ops.filter (·.target? = none)).Pairwise Op.Precedes := by
  have htarget : ∀ {op x}, op ∈ ops.filter (·.target? = x) → op.target? = x :=
    fun hop => by simpa using (List.mem_filter.mp hop).2
  refine List.pairwise_append.mpr ⟨List.pairwise_flatMap.mpr ⟨fun k _ => h.filter _, ?_⟩,
    h.filter _, fun a ha b hb => ?_⟩
  · refine hoffsets.imp fun {j k} hjk a ha b hb => ⟨j, htarget ha, fun y hy => ?_⟩
    rw [htarget hb] at hy
    cases hy
    exact hjk
  · obtain ⟨k, _, hk⟩ := List.mem_flatMap.mp ha
    exact ⟨k, htarget hk, by simp [htarget hb]⟩

/-- A program in order is the summary of itself: both are ascending and have the same members. -/
theorem InOrder.eq_summary (h : InOrder ops) {reach : Nat}
    (hreach : ∀ k, effectAt k ops ≠ .none → k ∈ offsetsWithin reach) :
    ops = summary reach ops := by
  simp only [summary, h.ops_effectAt, h.ops_displacement]
  refine List.Pairwise.eq_of_mem_iff h.ascending
    (pairwise_byTarget (pairwise_offsetsWithin reach) h.ascending) fun op => ?_
  simp only [List.mem_append, List.mem_flatMap, List.mem_filter, decide_eq_true_eq]
  constructor
  · intro hop
    cases htarget : op.target? with
    | none => exact .inr ⟨hop, rfl⟩
    | some k =>
      refine .inl ⟨k, hreach k fun hnone => ?_, hop, rfl⟩
      have hempty := h.ops_effectAt k
      rw [CellEffect.ops_eq_nil_iff.mpr hnone, eq_comm, List.filter_eq_nil_iff] at hempty
      exact hempty op hop (by simpa using htarget)
  · rintro (⟨_, _, hop, _⟩ | ⟨hop, _⟩) <;> exact hop

end Arithmetic

/-! ### Arithmetic that is settled -/

namespace Op

/-- An adjustment of the cell at `x`, or an assignment to it. -/
def StoresAt (x : Int) (op : Op) : Prop :=
  (∃ sign amount, op = adjust sign amount x) ∨ ∃ value, op = assign value x

theorem StoresAt.source?_eq {x : Int} {op : Op} (h : op.StoresAt x) : op.source? = none := by
  rcases h with ⟨_, _, rfl⟩ | ⟨_, rfl⟩ <;> rfl

theorem exists_storesAt {op : Op} (h : op.IsArithmetic) (hmove : op.kind ≠ .move) :
    ∃ x, op.target? = some x ∧ op.StoresAt x := by
  rcases h with h | h | h
  · contradiction
  · obtain ⟨sign, amount, offset, rfl⟩ := exists_eq_adjust h
    exact ⟨offset, rfl, .inl ⟨sign, amount, rfl⟩⟩
  · obtain ⟨value, offset, rfl⟩ := exists_eq_assign h
    exact ⟨offset, rfl, .inr ⟨value, rfl⟩⟩

end Op

namespace Program

variable {a b : Instr} {rest : Program}

/-- No two neighbours store to the same cell. -/
theorem Normal.not_storesAt (h : Normal (a :: b :: rest)) {x : Int} (ha : a.op.StoresAt x) :
    ¬ b.op.StoresAt x := by
  intro hb
  have hassign := h.pair (r := .assignAdjustment) rfl
  have hdead := h.pair (r := .deadStore) rfl
  have hcombine := h.pair (r := .combineAdjustments) rfl
  rcases ha with ⟨sign, amount, ha⟩ | ⟨value, ha⟩ <;>
    rcases hb with ⟨sign', amount', hb⟩ | ⟨value', hb⟩
  · simp [StoreRules.combined?, ha, hb] at hcombine
  · simp [StoreRules.deadStore?, StoreRules.overwritten?, ha, hb] at hdead
  · simp [StoreRules.assignedAdjustment?, ha, hb] at hassign
  · simp [StoreRules.deadStore?, StoreRules.overwritten?, ha, hb] at hdead

theorem Normal.precedes (h : Normal (a :: b :: rest)) (ha : a.op.IsArithmetic)
    (hb : b.op.IsArithmetic) : a.op.Precedes b.op := by
  have hmove : a.op.kind ≠ .move := by
    intro hmove
    rcases h.kind_after_move hmove with hkind | hkind <;> simp [Op.Kind.IsArithmetic, hkind] at hb
  obtain ⟨x, hx, hstore⟩ := Op.exists_storesAt ha hmove
  refine ⟨x, hx, fun y hy => ?_⟩
  have hmove' : b.op.kind ≠ .move := by
    intro hmove
    obtain ⟨way, amount, hb⟩ := Op.exists_eq_move hmove
    rw [hb] at hy
    contradiction
  obtain ⟨y, hy', hstore'⟩ := Op.exists_storesAt hb hmove'
  rw [hy'] at hy
  cases hy
  have hle : ¬ y < x := by
    intro hlt
    have hsorted := h.pair (r := .sortStores) rfl
    simp [StoreRules.sorted?, hx, hy', hstore.source?_eq, hstore'.source?_eq, hlt] at hsorted
  have hne : x ≠ y := by
    rintro rfl
    exact h.not_storesAt hstore hstore'
  omega

/-- A stretch of arithmetic in a settled program. -/
theorem Normal.inOrder {p : Program} (h : Normal (p ++ rest))
    (harith : ∀ i ∈ p, i.op.IsArithmetic) (hproper : ∀ i ∈ p, i.op.Proper) :
    Arithmetic.InOrder p.ops := by
  refine ⟨List.forall_mem_map.mpr harith, List.forall_mem_map.mpr hproper, ?_⟩
  rw [← List.isChain_iff_pairwise]
  induction p with
  | nil => exact .nil
  | cons a p ih =>
    obtain ⟨ha, hp⟩ := List.forall_mem_cons.mp harith
    have hrest := ih (normal_cons_iff.mp h).2 hp (List.forall_mem_cons.mp hproper).2
    cases p with
    | nil => exact .singleton _
    | cons b p => exact .cons_cons (h.precedes ha (hp b List.mem_cons_self)) hrest

end Program

/-! ### Texts of arithmetic -/

namespace Source

/-- Without loops, simplifying a text brings no commands of other kinds. -/
theorem SimplifiesTo.kinds {K : Op.Kind → Prop} (hblock : ¬ K .block)
    {text text' : List Char} (h : SimplifiesTo text text')
    (htext : ∀ op ∈ Op.ofChars text, K op.kind) :
    ∀ op ∈ Op.ofChars text', K op.kind := by
  induction h with
  | refl => exact htext
  | tail _ h ih =>
    obtain ⟨before, h, after⟩ := h
    simp only [Op.ofChars_append, List.forall_mem_append] at ih ⊢
    refine ⟨ih.1, ?_, ih.2.2⟩
    have hpart := ih.2.1
    cases h with
    | leftRight | rightLeft | upDown | downUp => simp [Op.ofChars]
    | countDown | countUp | clearAfterLoop =>
      exact absurd (hpart _ List.mem_cons_self) hblock
    | clearTwice => exact fun op hop => hpart op (List.mem_cons_of_mem _ hop)

end Source

/-- The pieces that texts of arithmetic consist of. -/
inductive Token where
  | left
  | right
  | plus
  | minus
  /-- A loop that counts up or down to zero. -/
  | clear (sign : Sign)
  deriving DecidableEq, Repr

namespace Token

def spelling : Token → List Char
  | left => ['<']
  | right => ['>']
  | plus => ['+']
  | minus => ['-']
  | clear .plus => ['[', '+', ']']
  | clear .minus => ['[', '-', ']']

/-- What a token does. -/
def op : Token → Op
  | left => .move .left 1
  | right => .move .right 1
  | plus => .adjust .plus 1 0
  | minus => .adjust .minus 1 0
  | clear _ => .assign 0 0

/-- The character for the token in simplified text. -/
def mark : Token → Char
  | left => '<'
  | right => '>'
  | plus => '+'
  | minus => '-'
  | clear _ => '0'

theorem ofChar?_mark (t : Token) : Op.ofChar? t.mark = some t.op := by
  cases t <;> rfl

theorem isArithmetic_op (t : Token) : t.op.IsArithmetic := by
  cases t <;> simp [op, Op.Kind.IsArithmetic, Op.kind]

theorem simplifiesTo_mark (t : Token) : Source.SimplifiesTo t.spelling [t.mark] := by
  rcases t with _ | _ | _ | _ | _ | _
  case clear.plus => exact .single (.apply [] .countUp [])
  case clear.minus => exact .single (.apply [] .countDown [])
  all_goals exact .refl

end Token

namespace Arithmetic

def spell (tokens : List Token) : List Char := tokens.flatMap Token.spelling

variable {tokens : List Token}

theorem simplifiesTo_marks (tokens : List Token) :
    Source.SimplifiesTo (spell tokens) (tokens.map Token.mark) := by
  induction tokens with
  | nil => exact .refl
  | cons t tokens ih => exact t.simplifiesTo_mark.append ih

theorem ofChars_marks (tokens : List Token) :
    Op.ofChars (tokens.map Token.mark) = tokens.map Token.op := by
  induction tokens with
  | nil => rfl
  | cons t tokens ih => rw [List.map_cons, Op.ofChars_cons t.ofChar?_mark, ih, List.map_cons]

theorem isArithmetic_of_mem {op : Op} (h : op ∈ tokens.map Token.op) : op.IsArithmetic := by
  obtain ⟨t, _, rfl⟩ := List.mem_map.mp h
  exact t.isArithmetic_op

/-- Each token moves by one cell at most. -/
theorem effectAt_eq_none {k : Int} (hk : k ∉ offsetsWithin tokens.length) :
    effectAt k (tokens.map Token.op) = .none := by
  rw [mem_offsetsWithin] at hk
  induction tokens generalizing k with
  | nil => rfl
  | cons t tokens ih =>
    rw [List.length_cons] at hk
    have hhere : t.op.effectAt k = .none := by
      have hne : ¬ 0 = k := by omega
      cases t <;> simp [Token.op, Op.effectAt, hne]
    have hstep : t.op.displacement ≤ 1 ∧ -1 ≤ t.op.displacement := by
      cases t <;> simp [Token.op, Op.displacement, Direction.displacement]
    rw [List.map_cons, effectAt, hhere, CellEffect.none_andThen]
    exact ih (by omega)

end Arithmetic

/-- Straight operations that refine others act alike. -/
theorem Op.Refines.actAll_eq {m : Int} {Z : Observed m → Prop} {xs ys : List Op}
    (h : Refines Z xs ys) (hx : ∀ op ∈ xs, op.isPlain = true) (hy : ∀ op ∈ ys, op.isPlain = true)
    (w : Observed m) : actAll xs w = actAll ys w := by
  have hbody : ∀ {ops : List Op}, (∀ op ∈ ops, op.isPlain = true) →
      Body.ofOps? ops = some (.prepend ops .done) := by
    intro ops hops
    rw [Body.ofOps?_eq_some_iff]
    simpa [Pieces.ofOps?] using Pieces.ofOps?_prepend hops []
  obtain ⟨c, hc, hsimulated⟩ := h.forward.exists_body (hbody hx)
  rw [hbody hy] at hc
  cases hc
  exact Body.run_straight_iff.mp (hsimulated trivial trivial (Body.run_straight_iff.mpr rfl))

namespace Arithmetic

variable {tokens : List Token} {p q : Program}

theorem blockError?_spell (tokens : List Token) :
    Op.blockError? 0 (Op.ofChars (spell tokens)) = none := by
  have hplain : ∀ op ∈ tokens.map Token.op, op.isPlain = true :=
    fun op hop => Op.isPlain_of_isArithmetic (isArithmetic_of_mem hop)
  rw [(simplifiesTo_marks tokens).blockError?_eq, ofChars_marks]
  simpa [Op.blockError?] using Op.blockError?_plains hplain 0 []

theorem simplifiesTo_simplify_spell (tokens : List Token) :
    Source.SimplifiesTo (tokens.map Token.mark) (Source.simplify (spell tokens)) := by
  rw [← Source.simplify_eq_of_simplifiesTo (simplifiesTo_marks tokens)]
  exact Source.simplifiesTo_simplify _

theorem isArithmetic_of_mem_ofText {op : Op}
    (h : op ∈ Op.ofText (Source.simplify (spell tokens))) : op.IsArithmetic := by
  obtain ⟨op', hop', hkind⟩ :=
    List.mem_map.mp ((Op.condensesTo_ofText _).kinds (List.mem_map_of_mem h))
  rw [Op.IsArithmetic, ← hkind]
  refine (simplifiesTo_simplify_spell tokens).kinds
    (K := Op.Kind.IsArithmetic) (by simp [Op.Kind.IsArithmetic]) ?_ op' hop'
  rw [ofChars_marks]
  exact fun op => isArithmetic_of_mem

/-- However the program is rewritten, it stays arithmetic. -/
theorem isArithmetic_of_rewritesTo (hp : p.ops = Op.ofText (Source.simplify (spell tokens)))
    (h : p.RewritesTo q) : ∀ i ∈ q, i.op.IsArithmetic := by
  refine h.kinds (K := Op.Kind.IsArithmetic) (by simp [Op.Kind.IsArithmetic]) ?_
  intro i hi
  have hmem : i.op ∈ p.ops := List.mem_map_of_mem hi
  rw [hp] at hmem
  exact isArithmetic_of_mem_ofText hmem

/-- With unbounded cells, the program acts as the tokens do. -/
theorem actAll_of_rewritesTo (hp : p.ops = Op.ofText (Source.simplify (spell tokens)))
    (h : p.RewritesTo q) (w : Observed 0) :
    Op.actAll (tokens.map Token.op) w = Op.actAll q.ops w := by
  have hrefines : Op.Refines (Observed.Cleared (m := 0)) (tokens.map Token.op) q.ops := by
    rw [← ofChars_marks]
    refine ((simplifiesTo_simplify_spell tokens).refines.trans ?_).trans h.refines.restrict
    rw [hp]
    exact (Op.ofText_interchangeable _).2.refines_nil
  apply hrefines.actAll_eq
  · exact fun op hop => Op.isPlain_of_isArithmetic (isArithmetic_of_mem hop)
  · exact List.forall_mem_map.mpr fun i hi =>
      Op.isPlain_of_isArithmetic (isArithmetic_of_rewritesTo hp h i hi)

theorem ops_eq_summary (hp : p.ops = Op.ofText (Source.simplify (spell tokens)))
    (h : p.RewritesTo q) (hq : q.Normal) (hproper : ∀ i ∈ q, i.op.Proper) :
    q.ops = summary tokens.length (tokens.map Token.op) := by
  have harith := isArithmetic_of_rewritesTo hp h
  have htokens : ∀ op ∈ tokens.map Token.op, op.IsArithmetic := fun op => isArithmetic_of_mem
  have hops : ∀ op ∈ q.ops, op.IsArithmetic := List.forall_mem_map.mpr harith
  have hact := actAll_of_rewritesTo hp h
  have heffect := effectAt_eq_of_actAll_eq htokens hops hact
  have hsummary : summary tokens.length (tokens.map Token.op) = summary tokens.length q.ops := by
    simp only [summary, heffect, displacement_eq_of_actAll_eq htokens hops hact]
  rw [hsummary]
  rw [← List.append_nil q] at hq
  apply (hq.inOrder harith hproper).eq_summary
  intro k hk
  by_contra hfar
  rw [← heffect, effectAt_eq_none hfar] at hk
  contradiction

end Arithmetic

/-- Without blocks, every instruction has depth zero. -/
theorem Program.Nested.eq_map_ops {p : Program} (h : p.Nested 0)
    (hplain : ∀ i ∈ p, i.op.isPlain = true) : p = p.ops.map (Instr.mk 0) := by
  have hdepth : ∀ i ∈ p, i.depth = 0 := by
    rw [← List.append_nil p] at h
    exact ((nested_plains_iff hplain).mp h).1
  rw [ops, List.map_map]
  calc
    p = p.map id := (List.map_id p).symm
    _ = p.map (Instr.mk 0 ∘ Instr.op) := List.map_congr_left fun i hi => by
      rw [id_eq, Function.comp_apply, ← hdepth i hi]

namespace Options

/-- A text of movements, single adjustments and clearing loops is optimised to one assignment for
each cell that is cleared, of the net change after that, one adjustment for each other cell with a
net change, in ascending order, and one movement. -/
theorem arithmetic_becomes_summary (o : Options) (hlevel : o.level = .full) (text : List Char)
    (tokens : List Token) (htext : Source.strip o.debugging text = Arithmetic.spell tokens) :
    ∃ l, o.lower text = .ok l ∧
      (∀ r, o.optimize l.program = .ok r → r.program =
        (Arithmetic.summary tokens.length (tokens.map Token.op)).map (Instr.mk 0)) ∧
      ∃ limit : Nat, ∀ n : Int, limit ≤ n →
        ∃ r, { o with maxPasses := some n }.optimize l.program = .ok r ∧ r.program =
          (Arithmetic.summary tokens.length (tokens.map Token.op)).map (Instr.mk 0) := by
  have hnested : Source.WellNested text := by
    rw [Source.wellNested_iff o.debugging, htext]
    exact Arithmetic.blockError?_spell tokens
  refine exists_settled (P := fun q => q = _) hlevel hnested ?_
  intro p q hregular hp h hnormal
  rw [htext] at hp
  obtain ⟨hnest, hproper, _⟩ := h.regular hregular
  rw [← Arithmetic.ops_eq_summary hp h hnormal hproper]
  exact hnest.eq_map_ops fun i hi =>
    Op.isPlain_of_isArithmetic (Arithmetic.isArithmetic_of_rewritesTo hp h i hi)

/-- Cells on both sides are cleared, and the pointer crosses the one between them. -/
theorem arithmetic_becomes_summary_crossing :
    Source.strip false "> [-] ++ < + < [+] - >>".toList =
        Arithmetic.spell [.right, .clear .minus, .plus, .plus, .left, .plus, .left, .clear .plus,
          .minus, .right, .right] ∧
      standard.optimize [⟨0, .move .right 1⟩, ⟨0, .assign 2 0⟩, ⟨0, .move .left 1⟩,
          ⟨0, .adjust .plus 1 0⟩, ⟨0, .move .left 1⟩, ⟨0, .assign (-1) 0⟩, ⟨0, .move .right 2⟩] =
        .ok ⟨[⟨0, .assign (-1) (-1)⟩, ⟨0, .adjust .plus 1 0⟩, ⟨0, .assign 2 1⟩,
          ⟨0, .move .right 1⟩], some 5⟩ ∧
      [⟨0, .assign (-1) (-1)⟩, ⟨0, .adjust .plus 1 0⟩, ⟨0, .assign 2 1⟩, ⟨0, .move .right 1⟩] =
        (Arithmetic.summary 11 (List.map Token.op [.right, .clear .minus, .plus, .plus, .left,
          .plus, .left, .clear .plus, .minus, .right, .right])).map (Instr.mk 0) := by
  have htext : Source.strip false "> [-] ++ < + < [+] - >>".toList =
      Arithmetic.spell [.right, .clear .minus, .plus, .plus, .left, .plus, .left, .clear .plus,
        .minus, .right, .right] := by decide +kernel
  have hlower : standard.lower "> [-] ++ < + < [+] - >>".toList = .ok ⟨">0++<+<0->>".toList,
      [⟨0, .move .right 1⟩, ⟨0, .assign 2 0⟩, ⟨0, .move .left 1⟩, ⟨0, .adjust .plus 1 0⟩,
        ⟨0, .move .left 1⟩, ⟨0, .assign (-1) 0⟩, ⟨0, .move .right 2⟩]⟩ := by decide +kernel
  have hoptimize : standard.optimize [⟨0, .move .right 1⟩, ⟨0, .assign 2 0⟩, ⟨0, .move .left 1⟩,
      ⟨0, .adjust .plus 1 0⟩, ⟨0, .move .left 1⟩, ⟨0, .assign (-1) 0⟩, ⟨0, .move .right 2⟩] =
        .ok ⟨[⟨0, .assign (-1) (-1)⟩, ⟨0, .adjust .plus 1 0⟩, ⟨0, .assign 2 1⟩,
          ⟨0, .move .right 1⟩], some 5⟩ := by decide +kernel
  obtain ⟨l, hl, hr, _⟩ := arithmetic_becomes_summary standard rfl _ _ htext
  rw [hlower] at hl
  cases hl
  exact ⟨htext, hoptimize, hr _ hoptimize⟩

end Options

end Brainfuck
