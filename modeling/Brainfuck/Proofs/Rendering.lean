import Brainfuck.Instr.Render
import Brainfuck.Proofs.Nesting

/-! The compact text of a program can be read back, the depths of its instructions apart. The names
of operations are told apart by their letters, numbers end where no digit follows, and what a text
leaves out is read as the value for which it is left out. Two programs with the same compact text
therefore have the same operations. -/

namespace Brainfuck

namespace Op

/-- A transfer without a multiplier adds or subtracts. -/
def HasUnitSign : Op → Prop
  | addTo sign _ _ => sign = 1 ∨ sign = -1
  | _ => True

end Op

/-! Each reader gives what the text begins with, and the text after it. -/

namespace Compact

/-- A number without a sign. -/
def natural (text : List Char) : Nat × List Char :=
  (Nat.ofDigitChars 10 (text.takeWhile Char.isDigit) 0, text.dropWhile Char.isDigit)

/-- A number, with or without a sign. It is zero if there are no digits. -/
def number : List Char → Int × List Char
  | '-' :: text => (-(natural text).1, (natural text).2)
  | '+' :: text => ((natural text).1, (natural text).2)
  | text => ((natural text).1, (natural text).2)

def cell? : List Char → Option (Int × List Char)
  | '\x7b' :: text =>
    match number text with
    | (offset, '\x7d' :: rest) => some (offset, rest)
    | _ => none
  | _ => none

/-- A constant, a multiplier and the cell that is multiplied. -/
def terms? (text : List Char) : Option ((Int × Int × Int) × List Char) :=
  match number (number text).2 with
  | (multiplier, '*' :: rest) =>
    (cell? rest).map fun (src, rest) => (((number text).1, multiplier, src), rest)
  | _ => none

/-- What is done to the cell that comes before. -/
def store? (offset : Int) : List Char → Option (Op × List Char)
  | '+' :: '=' :: text => some (.adjust .plus (number text).1 offset, (number text).2)
  | '-' :: '=' :: text => some (.adjust .minus (number text).1 offset, (number text).2)
  | '=' :: 'R' :: 'e' :: 'a' :: 'd' :: '[' :: ']' :: rest => some (.read offset, rest)
  | '=' :: text => some (.assign (number text).1 offset, (number text).2)
  | _ => none

def addTo? (dest : Int) : List Char → Option (Op × List Char)
  | '+' :: '=' :: text => (cell? text).map fun (src, rest) => (.addTo 1 dest src, rest)
  | '-' :: '=' :: text => (cell? text).map fun (src, rest) => (.addTo (-1) dest src, rest)
  | _ => none

def addScaled? (dest : Int) : List Char → Option (Op × List Char)
  | '+' :: '=' :: text =>
    (terms? text).map fun ((addend, multiplier, src), rest) =>
      (.addScaled addend multiplier dest src, rest)
  | _ => none

def copy? (dest : Int) : List Char → Option (Op × List Char)
  | '=' :: '\x7b' :: text =>
    (cell? ('\x7b' :: text)).map fun (src, rest) => (.copy 0 dest src 1, rest)
  | '=' :: text =>
    (terms? text).map fun ((value, multiplier, src), rest) => (.copy value dest src multiplier, rest)
  | _ => none

/-- The operations that are written with a name. -/
inductive Name where
  | moveLeft
  | moveRight
  | write
  | loop
  | once
  | close
  | addScaled
  | addTo
  | copy
  | dump
  deriving DecidableEq, Repr

namespace Name

def letters : Name → List Char
  | moveLeft => ['M', 'o', 'v', 'e', 'L', 'e', 'f', 't']
  | moveRight => ['M', 'o', 'v', 'e', 'R', 'i', 'g', 'h', 't']
  | write => ['W', 'r', 'i', 't', 'e']
  | loop => ['L', 'o', 'o', 'p']
  | once => ['I', 'f']
  | close => ['E', 'n', 'd']
  | addScaled => ['A', 'd', 'd', 'T', 'o', 'S', 'c', 'a', 'l', 'e', 'd']
  | addTo => ['A', 'd', 'd', 'T', 'o']
  | copy => ['M', 'o', 'v', 'e', 'T', 'o']
  | dump => ['D', 'e', 'b', 'u', 'g']

def all : List Name :=
  [moveLeft, moveRight, write, loop, once, close, addScaled, addTo, copy, dump]

def ofLetters? (letters : List Char) : Option Name := all.find? (·.letters == letters)

/-- What stands in brackets after the name. -/
def arguments? (text : List Char) : Name → Option (Op × List Char)
  | moveLeft => some (.move .left (number text).1, (number text).2)
  | moveRight => some (.move .right (number text).1, (number text).2)
  | write => (cell? text).map fun (offset, text) => (.write offset (number text).1, (number text).2)
  | loop => (cell? text).map fun (offset, rest) => (.loop offset, rest)
  | once => (cell? text).map fun (_, rest) => (.once, rest)
  | close => some (.close, text)
  | addScaled => (cell? text).bind fun (dest, text) => addScaled? dest text
  | addTo => (cell? text).bind fun (dest, text) => addTo? dest text
  | copy => (cell? text).bind fun (dest, text) => copy? dest text
  | dump => some (.dump, text)

theorem ofLetters?_letters (name : Name) : ofLetters? name.letters = some name := by
  cases name <;> decide

theorem isAlpha_of_mem_letters {name : Name} : ∀ c ∈ name.letters, c.isAlpha = true := by
  apply List.all_eq_true.mp
  cases name <;> decide

end Name

def op? (text : List Char) : Option (Op × List Char) :=
  match Name.ofLetters? (text.takeWhile Char.isAlpha), text.dropWhile Char.isAlpha with
  | some name, '[' :: text =>
    match name.arguments? text with
    | some (op, ']' :: rest) => some (op, rest)
    | _ => none
  | _, text => (cell? text).bind fun (offset, text) => store? offset text

/-- The text does not go on with a digit. -/
def Stops (text : List Char) : Prop := ∀ c ∈ text.head?, c.isDigit = false

@[simp] theorem stops_cons (c : Char) (text : List Char) :
    Stops (c :: text) ↔ c.isDigit = false := by simp [Stops]

theorem stops_explicit (n : Int) (rest : List Char) :
    Stops ((Decimal.explicit n).toList ++ rest) := by
  unfold Decimal.explicit
  split <;> simp

theorem exists_signed_eq (n : Int) :
    ∃ c cs, (Decimal.signed n).toList = c :: cs ∧ (c = '-' ∨ c.isDigit = true) := by
  by_cases hn : n < 0
  · exact ⟨'-', (Decimal.natural n.natAbs).toList, by simp [Decimal.signed, Decimal.minus, hn],
      .inl rfl⟩
  · obtain ⟨c, cs, hcs, hdigits⟩ := Decimal.exists_toList_natural n.natAbs
    exact ⟨c, cs, by simp [Decimal.signed, Decimal.minus, hn, hcs],
      .inr (hdigits c List.mem_cons_self)⟩

theorem natural_append (n : Nat) {rest : List Char} (h : Stops rest) :
    natural ((Decimal.natural n).toList ++ rest) = (n, rest) := by
  have hdigits : ∀ c ∈ (Decimal.natural n).toList, c.isDigit = true := by
    obtain ⟨d, ds, hds, hdigits⟩ := Decimal.exists_toList_natural n
    rwa [hds]
  have hrest : rest.takeWhile Char.isDigit = [] ∧ rest.dropWhile Char.isDigit = rest := by
    cases rest with
    | nil => exact ⟨rfl, rfl⟩
    | cons c rest =>
      rw [stops_cons] at h
      simp [h]
  rw [natural, List.takeWhile_append_of_pos hdigits, List.dropWhile_append_of_pos hdigits, hrest.1,
    hrest.2, List.append_nil, Decimal.ofDigitChars_natural]

theorem number_of_isDigit {c : Char} (h : c.isDigit = true) (text : List Char) :
    number (c :: text) = (((natural (c :: text)).1 : Int), (natural (c :: text)).2) := by
  unfold number
  split <;> simp_all

theorem number_signed (n : Int) {rest : List Char} (h : Stops rest) :
    number ((Decimal.signed n).toList ++ rest) = (n, rest) := by
  have hnatural := natural_append n.natAbs h
  by_cases hn : n < 0
  · have htext : (Decimal.signed n).toList = '-' :: (Decimal.natural n.natAbs).toList := by
      simp [Decimal.signed, Decimal.minus, hn]
    rw [htext, List.cons_append, number, hnatural]
    exact congrArg (·, rest) (by omega)
  · obtain ⟨c, cs, hcs, hdigits⟩ := Decimal.exists_toList_natural n.natAbs
    have hc : c.isDigit = true := hdigits c List.mem_cons_self
    have htext : (Decimal.signed n).toList = c :: cs := by
      simp [Decimal.signed, Decimal.minus, hn, hcs]
    rw [hcs, List.cons_append] at hnatural
    rw [htext, List.cons_append, number_of_isDigit hc, hnatural]
    exact congrArg (·, rest) (by omega)

theorem number_explicit (n : Int) {rest : List Char} (h : Stops rest) :
    number ((Decimal.explicit n).toList ++ rest) = (n, rest) := by
  have hnatural := natural_append n.natAbs h
  by_cases hn : n < 0
  · have htext : (Decimal.explicit n).toList = '-' :: (Decimal.natural n.natAbs).toList := by
      simp [Decimal.explicit, hn]
    rw [htext, List.cons_append, number, hnatural]
    exact congrArg (·, rest) (by omega)
  · have htext : (Decimal.explicit n).toList = '+' :: (Decimal.natural n.natAbs).toList := by
      simp [Decimal.explicit, hn]
    rw [htext, List.cons_append, number, hnatural]
    exact congrArg (·, rest) (by omega)

theorem cell?_append (offset : Int) (rest : List Char) :
    cell? ((Op.renderCell offset).toList ++ rest) = some (offset, rest) := by
  have hnumber := number_signed offset (show Stops ('\x7d' :: rest) by simp)
  simp [Op.renderCell, cell?, hnumber]

theorem terms?_append (constant multiplier src : Int) (rest : List Char) :
    terms? ((Op.renderTerms constant multiplier src).toList ++ rest) =
      some ((constant, multiplier, src), rest) := by
  have hconstant := number_signed constant
    (stops_explicit multiplier ('*' :: ((Op.renderCell src).toList ++ rest)))
  have hmultiplier := number_explicit multiplier
    (show Stops ('*' :: ((Op.renderCell src).toList ++ rest)) by simp)
  simp [Op.renderTerms, terms?, hconstant, hmultiplier, cell?_append]

/-- An operation with a name is read by its arguments. -/
theorem op?_name (name : Name) (args : List Char) {op : Op} {rest : List Char}
    (hop : op.render.toList = name.letters ++ '[' :: (args ++ [']']))
    (h : name.arguments? (args ++ ']' :: rest) = some (op, ']' :: rest)) :
    op? (op.render.toList ++ rest) = some (op, rest) := by
  have htext : op.render.toList ++ rest = name.letters ++ '[' :: (args ++ ']' :: rest) := by
    simp [hop]
  have htake : (name.letters ++ '[' :: (args ++ ']' :: rest)).takeWhile Char.isAlpha =
      name.letters := by
    rw [List.takeWhile_append_of_pos Name.isAlpha_of_mem_letters]
    simp
  have hdrop : (name.letters ++ '[' :: (args ++ ']' :: rest)).dropWhile Char.isAlpha =
      '[' :: (args ++ ']' :: rest) := by
    rw [List.dropWhile_append_of_pos Name.isAlpha_of_mem_letters]
    simp
  rw [htext, op?, htake, hdrop, Name.ofLetters?_letters]
  simp only [h]

/-- An operation without a name begins with its cell. -/
theorem op?_store (offset : Int) (text : List Char) :
    op? ((Op.renderCell offset).toList ++ text) = store? offset text := by
  obtain ⟨cs, hcs⟩ : ∃ cs, (Op.renderCell offset).toList ++ text = '\x7b' :: cs :=
    ⟨(Decimal.signed offset).toList ++ '\x7d' :: text, by simp [Op.renderCell]⟩
  have hnone : Name.ofLetters? [] = none := by decide +kernel
  have hread : op? ('\x7b' :: cs) =
      (cell? ('\x7b' :: cs)).bind fun (offset, text) => store? offset text := by
    simp [op?, hnone]
  rw [hcs, hread, ← hcs, cell?_append]
  rfl

theorem store?_assign (value offset : Int) {rest : List Char} (h : Stops rest) :
    store? offset ('=' :: ((Decimal.signed value).toList ++ rest)) =
      some (.assign value offset, rest) := by
  have hnumber := number_signed value h
  obtain ⟨c, cs, hcs, hc⟩ := exists_signed_eq value
  have hne : c ≠ 'R' := by
    rintro rfl
    simp at hc
  rw [hcs, List.cons_append] at hnumber ⊢
  simp [store?, hne, hnumber]

theorem copy?_terms (dest value multiplier src : Int) (rest : List Char) :
    copy? dest ('=' :: ((Op.renderTerms value multiplier src).toList ++ rest)) =
      some (.copy value dest src multiplier, rest) := by
  have hterms := terms?_append value multiplier src rest
  obtain ⟨c, cs, hcs, hc⟩ := exists_signed_eq value
  have hne : c ≠ '\x7b' := by
    rintro rfl
    simp at hc
  obtain ⟨text, htext⟩ : ∃ text, (Op.renderTerms value multiplier src).toList ++ rest = c :: text :=
    ⟨cs ++ (Decimal.explicit multiplier ++ "*" ++ Op.renderCell src).toList ++ rest,
      by simp [Op.renderTerms, hcs]⟩
  rw [htext] at hterms ⊢
  simp [copy?, hne, hterms]

theorem copy?_cell (dest src : Int) (rest : List Char) :
    copy? dest ('=' :: ((Op.renderCell src).toList ++ rest)) = some (.copy 0 dest src 1, rest) := by
  have hcell := cell?_append src rest
  obtain ⟨text, htext⟩ : ∃ text, (Op.renderCell src).toList ++ rest = '\x7b' :: text :=
    ⟨(Decimal.signed src).toList ++ '\x7d' :: rest, by simp [Op.renderCell]⟩
  rw [htext] at hcell ⊢
  simp [copy?, hcell]

/-- What an operation is written as is read as the operation. -/
theorem op?_append {op : Op} (h : op.HasUnitSign) {rest : List Char} (hrest : Stops rest) :
    op? (op.render.toList ++ rest) = some (op, rest) := by
  have hstops : Stops (']' :: rest) := by simp
  cases op with
  | move way amount =>
    have hnumber := number_signed amount hstops
    cases way with
    | left =>
      refine op?_name .moveLeft (Decimal.signed amount).toList ?_ ?_
      · unfold Op.render
        simp [Name.letters]
      · simp [Name.arguments?, hnumber]
    | right =>
      refine op?_name .moveRight (Decimal.signed amount).toList ?_ ?_
      · unfold Op.render
        simp [Name.letters]
      · simp [Name.arguments?, hnumber]
  | adjust sign amount offset =>
    have hnumber := number_signed amount hrest
    unfold Op.render
    cases sign <;> simp [op?_store, store?, hnumber]
  | assign value offset =>
    unfold Op.render
    simp [op?_store, store?_assign value offset hrest]
  | read offset =>
    unfold Op.render
    simp [op?_store, store?]
  | write offset bias =>
    by_cases hbias : bias = 0
    · refine op?_name .write (Op.renderCell offset).toList ?_ ?_
      · unfold Op.render
        simp [Name.letters, hbias]
      · simp [Name.arguments?, cell?_append, number, natural, hbias]
    · refine op?_name .write ((Op.renderCell offset).toList ++ (Decimal.explicit bias).toList) ?_ ?_
      · unfold Op.render
        simp [Name.letters, hbias]
      · simp [Name.arguments?, cell?_append, number_explicit bias hstops]
  | loop offset =>
    refine op?_name .loop (Op.renderCell offset).toList ?_ ?_
    · unfold Op.render
      simp [Name.letters]
    · simp [Name.arguments?, cell?_append]
  | once =>
    refine op?_name .once (Op.renderCell 0).toList ?_ ?_
    · unfold Op.render
      simp [Name.letters]
    · simp [Name.arguments?, cell?_append]
  | close =>
    refine op?_name .close [] ?_ rfl
    unfold Op.render
    simp [Name.letters]
  | addScaled addend multiplier dest src =>
    refine op?_name .addScaled ((Op.renderCell dest).toList ++
      '+' :: '=' :: (Op.renderTerms addend multiplier src).toList) ?_ ?_
    · unfold Op.render
      simp [Name.letters]
    · simp [Name.arguments?, cell?_append, addScaled?, terms?_append]
  | addTo sign dest src =>
    rcases h with rfl | rfl
    · refine op?_name .addTo ((Op.renderCell dest).toList ++
        '+' :: '=' :: (Op.renderCell src).toList) ?_ ?_
      · unfold Op.render
        simp [Name.letters]
      · simp [Name.arguments?, cell?_append, addTo?]
    · refine op?_name .addTo ((Op.renderCell dest).toList ++
        '-' :: '=' :: (Op.renderCell src).toList) ?_ ?_
      · unfold Op.render
        simp [Name.letters]
      · simp [Name.arguments?, cell?_append, addTo?]
  | copy value dest src multiplier =>
    by_cases hplain : value = 0 ∧ multiplier = 1
    · obtain ⟨rfl, rfl⟩ := hplain
      refine op?_name .copy ((Op.renderCell dest).toList ++ '=' :: (Op.renderCell src).toList) ?_ ?_
      · unfold Op.render
        simp [Name.letters]
      · simp [Name.arguments?, cell?_append, copy?_cell]
    · refine op?_name .copy ((Op.renderCell dest).toList ++
        '=' :: (Op.renderTerms value multiplier src).toList) ?_ ?_
      · unfold Op.render
        simp [Name.letters, hplain]
      · simp [Name.arguments?, cell?_append, copy?_terms]
  | dump =>
    refine op?_name .dump [] ?_ rfl
    unfold Op.render
    simp [Name.letters]

/-- The rest of the text of a program, after an operation. -/
def following : List Op → List Char
  | [] => [']']
  | op :: ops => ',' :: ' ' :: (op.render.toList ++ following ops)

theorem stops_following (ops : List Op) : Stops (following ops) := by
  cases ops <;> simp [following]

theorem eq_of_append_following {a b : Op} {xs ys : List Op} (ha : a.HasUnitSign)
    (hb : b.HasUnitSign)
    (h : a.render.toList ++ following xs = b.render.toList ++ following ys) :
    a = b ∧ following xs = following ys := by
  have hread := op?_append ha (stops_following xs)
  rw [h, op?_append hb (stops_following ys), Option.some.injEq, Prod.mk.injEq] at hread
  exact ⟨hread.1.symm, hread.2.symm⟩

theorem eq_of_following {xs ys : List Op} (hxs : ∀ op ∈ xs, op.HasUnitSign)
    (hys : ∀ op ∈ ys, op.HasUnitSign) (h : following xs = following ys) : xs = ys := by
  induction xs generalizing ys with
  | nil =>
    cases ys with
    | nil => rfl
    | cons b ys => simp [following] at h
  | cons a xs ih =>
    cases ys with
    | nil => simp [following] at h
    | cons b ys =>
      rw [List.forall_mem_cons] at hxs hys
      simp only [following, List.cons.injEq, true_and] at h
      obtain ⟨rfl, hrest⟩ := eq_of_append_following hxs.1 hys.1 h
      rw [ih hxs.2 hys.2 hrest]

/-- The text of a program after the opening bracket. -/
def body : List Op → List Char
  | [] => [']']
  | op :: ops => op.render.toList ++ following ops

theorem intercalate_render (ops : List Op) :
    (", ".intercalate (ops.map Op.render)).toList ++ [']'] = body ops := by
  induction ops with
  | nil => simp [body]
  | cons op ops ih =>
    cases ops with
    | nil => simp [body, following]
    | cons op' ops =>
      rw [List.map_cons, List.map_cons, String.intercalate_cons_cons, ← List.map_cons,
        String.toList_append, List.append_assoc, ih]
      simp [body, following]

theorem eq_of_body {xs ys : List Op} (hxs : ∀ op ∈ xs, op.HasUnitSign)
    (hys : ∀ op ∈ ys, op.HasUnitSign) (h : body xs = body ys) : xs = ys := by
  -- No operation is written as a closing bracket.
  have hempty : ∀ {op : Op} {ops : List Op}, op.HasUnitSign → body [] ≠ body (op :: ops) := by
    intro op ops hop heq
    have hread := op?_append hop (stops_following ops)
    have hnone : op? (body []) = none := by decide +kernel
    rw [heq] at hnone
    exact nomatch hnone.symm.trans hread
  cases xs with
  | nil =>
    cases ys with
    | nil => rfl
    | cons b ys => exact absurd h (hempty (hys b List.mem_cons_self))
  | cons a xs =>
    cases ys with
    | nil => exact absurd h.symm (hempty (hxs a List.mem_cons_self))
    | cons b ys =>
      rw [List.forall_mem_cons] at hxs hys
      obtain ⟨rfl, hrest⟩ := eq_of_append_following hxs.1 hys.1 h
      rw [eq_of_following hxs.2 hys.2 hrest]

end Compact

namespace Program

theorem toList_render (p : Program) :
    p.render.toList = "Program[".toList ++ Compact.body p.ops := by
  rw [← Compact.intercalate_render, ops, List.map_map]
  simp [render, Function.comp_def]

/-- The compact text of a program determines its operations, and nothing of its depths. -/
theorem compact_text_determines_ops (p q : Program) (hp : ∀ i ∈ p, i.op.HasUnitSign)
    (hq : ∀ i ∈ q, i.op.HasUnitSign) : p.render = q.render ↔ p.ops = q.ops := by
  rw [← String.toList_inj, toList_render, toList_render, List.append_cancel_left_eq]
  constructor
  · exact Compact.eq_of_body (List.forall_mem_map.mpr hp) (List.forall_mem_map.mpr hq)
  · intro h
    rw [h]

/-- Programs that differ in their depths are written alike. The sign of a multiplier shows also where
the multiplier itself could be left out. -/
theorem compact_text_determines_ops_copying :
    let p : Program := [⟨0, .addTo (-1) 1 0⟩, ⟨0, .copy 0 (-1) 0 1⟩, ⟨0, .write (-1) 0⟩]
    let q : Program := [⟨1, .addTo (-1) 1 0⟩, ⟨2, .copy 0 (-1) 0 1⟩, ⟨3, .write (-1) 0⟩]
    let r : Program := [⟨0, .addTo (-1) 1 0⟩, ⟨0, .copy 0 (-1) 0 (-1)⟩, ⟨0, .write (-1) 0⟩]
    (∀ x ∈ [p, q, r], ∀ i ∈ x, i.op.HasUnitSign) ∧ p.render = q.render ∧ p.render ≠ r.render := by
  intro p q r
  have hsigns : ∀ x ∈ [p, q, r], ∀ i ∈ x, i.op.HasUnitSign := by
    simp [p, q, r, Op.HasUnitSign]
  have hp := hsigns p (by simp)
  refine ⟨hsigns, ?_, fun h => ?_⟩
  · exact (compact_text_determines_ops p q hp (hsigns q (by simp))).mpr rfl
  · have hops := (compact_text_determines_ops p r hp (hsigns r (by simp))).mp h
    revert hops
    decide

end Program

end Brainfuck
