import Brainfuck.Proofs.Lua.Header

/-! What the statements of one operation do. In a world that shows a tape, the expressions printed
for an operation have the values that the machine computes, reduced where the cell does not do it;
so the statement leaves a world that shows what the operation leaves. Values that are not reduced
are below the modulus already, because all cells are. -/

namespace Brainfuck.Lua

open Machine

/-- The local names are those of the functions that blocks are made. -/
def Scope.OfBlocks (scope : Scope) : Prop :=
  ∀ binding ∈ scope, ∃ number body, binding = .function (functionName number) body

namespace Scope.OfBlocks

theorem nil : OfBlocks [] := by simp [OfBlocks]

theorem cons {scope : Scope} (h : scope.OfBlocks) (number : Nat) (body : List Command) :
    OfBlocks (.function (functionName number) body :: scope) :=
  List.forall_mem_cons.mpr ⟨⟨number, body, rfl⟩, h⟩

theorem lookup_eq {scope : Scope} (h : scope.OfBlocks) (w : World) (x : String) :
    w.lookup scope x = w.globals x := by
  have hvalue : scope.value? x = none := by
    induction scope with
    | nil => rfl
    | cons binding scope ih =>
      obtain ⟨⟨number, body, rfl⟩, hscope⟩ := List.forall_mem_cons.mp h
      rw [Scope.value?, ih hscope]
      split <;> rfl
  rw [World.lookup, hvalue]

theorem function?_dump {scope : Scope} (h : scope.OfBlocks) :
    scope.function? "bf_debug" = none := by
  induction scope with
  | nil => rfl
  | cons binding scope ih =>
    obtain ⟨⟨number, body, rfl⟩, hscope⟩ := List.forall_mem_cons.mp h
    have hname : functionName number ≠ "bf_debug" := by
      intro hname
      have := congrArg String.toList hname
      rw [functionName, String.toList_append] at this
      exact absurd (List.cons.inj this).1 (by decide)
    rw [Scope.function?, if_neg hname, ih hscope]

end Scope.OfBlocks

/-- The expression has the value `n` in the world `w`, and leaves the world `w'`. -/
def Yields (scope : Scope) (w : World) (e : Expr) (n : Int) (w' : World) : Prop :=
  eval scope w e.term = .ok (.int n, w')

section Values

variable {o : Options} {scope : Scope} {w w' u : World} {a b e : Expr} {n k : Int}

theorem eval_literal (n : Int) : eval scope w (literal n) = .ok (.int n, w) := by
  unfold literal
  split
  · next hn =>
    rw [eval_negate (n := n.natAbs) rfl]
    rw [show -(n.natAbs : Int) = n by omega]
  · next hn =>
    show Except.ok (Value.int (n.natAbs : Int), w) = _
    rw [show (n.natAbs : Int) = n by omega]

theorem Yields.int (n : Int) : Yields scope w (.int n) n w := eval_literal n

theorem Yields.neg (h : Yields scope w e n w') : Yields scope w (.neg e) (-n) w' := eval_negate h

theorem Yields.add (ha : Yields scope w a n w') (hb : Yields scope w' b k u) :
    Yields scope w (.add a b) (n + k) u := eval_binary (by decide) ha hb rfl

theorem Yields.sub (ha : Yields scope w a n w') (hb : Yields scope w' b k u) :
    Yields scope w (.sub a b) (n - k) u := eval_binary (by decide) ha hb rfl

theorem Yields.mul (ha : Yields scope w a n w') (hb : Yields scope w' b k u) :
    Yields scope w (.mul a b) (n * k) u := eval_binary (by decide) ha hb rfl

theorem Yields.mod (ha : Yields scope w a n w') (hb : Yields scope w' b k u) (hk : k ≠ 0) :
    Yields scope w (.mod a b) (wrap k n) u := eval_binary (by decide) ha hb (if_neg hk)

theorem Yields.paren (h : Yields scope w e n w') : Yields scope w (.paren e) n w' := h

theorem Yields.max (hscope : scope.OfBlocks) (hw : w.Ready o) (hm : o.modulus ≠ 0) :
    Yields scope w .max o.modulus w :=
  eval_var ((hscope.lookup_eq w "max").trans (hw.max hm))

theorem Yields.reduced (hscope : scope.OfBlocks) (hw : w'.Ready o) (h : Yields scope w e n w') :
    Yields scope w (reduced o e) (wrap o.modulus n) w' := by
  unfold Lua.reduced
  split
  · next hm => simpa [hm] using h
  · next hm => exact h.paren.mod (.max hscope hw hm) (by exact_mod_cast hm)

theorem Yields.plus (h : Yields scope w e n w') (k : Int) :
    Yields scope w (e.plus k) (n + k) w' := by
  unfold Expr.plus
  split
  · simpa using h.sub (.int (-k))
  · exact h.add (.int k)

theorem Yields.multiple (h : Yields scope w e n w') (k : Int) :
    Yields scope w (Expr.multiple k e) (k.natAbs * n) w' := by
  unfold Expr.multiple
  split
  · next hk => simpa [hk] using h
  · exact (Yields.int (k.natAbs : Int)).mul h

theorem Yields.plusMultiple (ha : Yields scope w a n w') (hb : Yields scope w' b k u) (c : Int) :
    Yields scope w (a.plusMultiple c b) (n + c * k) u := by
  unfold Expr.plusMultiple
  split
  · next hc =>
    have h := ha.sub (hb.multiple c)
    rwa [show n - (c.natAbs : Int) * k = n + c * k by
      rw [show (c.natAbs : Int) = -c by omega]; ring] at h
  · next hc =>
    have h := ha.add (hb.multiple c)
    rwa [show (c.natAbs : Int) = c by omega] at h

variable {t : Tape o.modulus}

theorem eval_position {m : Int} {t : Tape m} (hscope : scope.OfBlocks) (hw : w.HasTape t)
    (offset : Int) : eval scope w (Expr.position offset) = .ok (.int (t.ptr + offset), w) := by
  have hptr : eval scope w (.var "ptr") = .ok (.int t.ptr, w) :=
    eval_var ((hscope.lookup_eq w "ptr").trans hw.ptr)
  unfold Expr.position
  split
  · exact eval_binary (by decide) hptr (eval_literal offset) rfl
  · split
    · have h : eval scope w (.binary .sub (.var "ptr") (literal (-offset))) =
          .ok (.int (t.ptr - -offset), w) :=
        eval_binary (by decide) hptr (eval_literal (-offset)) rfl
      rwa [sub_neg_eq_add] at h
    · rw [hptr, show t.ptr + offset = t.ptr by omega]

theorem Yields.cell {m : Int} {t : Tape m} (hscope : scope.OfBlocks) (hw : w.HasTape t)
    (offset : Int) : Yields scope w (.cell offset) (t.cell offset) w := by
  have hdata := (hscope.lookup_eq w "data").trans hw.data
  have h := eval_index (eval_position hscope hw offset) hdata
  exact h

theorem Yields.increased (hscope : scope.OfBlocks) (hready : w.Ready o) (hw : w.HasTape t)
    (addend multiplier dest src : Int) :
    Yields scope w (increased o addend multiplier dest src)
      (wrap o.modulus (t.cell dest + addend + multiplier * t.cell src)) w := by
  have hbase : Yields scope w (if addend = 0 then .cell dest else (Expr.cell dest).plus addend)
      (t.cell dest + addend) w := by
    split
    · next h => simpa [h] using Yields.cell hscope hw dest
    · exact (Yields.cell hscope hw dest).plus addend
  refine Yields.reduced hscope hready ?_
  split
  · next h => simpa [h] using hbase
  · exact hbase.plusMultiple (.cell hscope hw src) multiplier

/-- A cell alone is not reduced, and need not be. -/
theorem Yields.copied (hscope : scope.OfBlocks) (hready : w.Ready o) (hw : w.HasTape t)
    (value src multiplier : Int) :
    Yields scope w (copied o value src multiplier)
      (wrap o.modulus (value + multiplier * t.cell src)) w := by
  have hcell : Yields scope w (.cell src) (t.cell src) w := .cell hscope hw src
  unfold Lua.copied
  split
  · next h => simpa [h.1, h.2] using hcell
  · have hbase : Yields scope w (if multiplier = 1 then .cell src
        else if multiplier = -1 then .neg (.cell src) else .mul (.int multiplier) (.cell src))
        (multiplier * t.cell src) w := by
      split
      · next h => simpa [h] using hcell
      · split
        · next h => simpa [h] using hcell.neg
        · exact (Yields.int multiplier).mul hcell
    refine Yields.reduced hscope hready ?_
    split
    · next h => simpa [h] using hbase
    · rw [add_comm value]
      exact hbase.plus value

/-- Only the byte of a value is written. -/
theorem Yields.byteOf (hscope : scope.OfBlocks) (hready : w.Ready o) (hw : w.HasTape t)
    (offset bias : Int) :
    Yields scope w (byteOf o offset bias)
      (wrap 256 (wrap o.modulus (t.cell offset + bias))) w := by
  have hcell : Yields scope w (.cell offset) (t.cell offset) w := .cell hscope hw offset
  have hbyte (hm : o.modulus = 256) (n : Int) :
      wrap 256 (wrap o.modulus n) = wrap o.modulus n := by
    rw [hm]
    exact wrap_wrap 256 n
  unfold Lua.byteOf
  split
  · next hb =>
    subst hb
    split
    · next hm => rwa [hbyte hm, add_zero, Tape.wrap_cell]
    · rw [add_zero, Tape.wrap_cell]
      exact hcell.mod (.int 256) (by decide)
  · have hvalue := Yields.reduced hscope hready (hcell.plus bias)
    dsimp only
    split
    · next hm => rwa [hbyte hm]
    · exact hvalue.paren.mod (.int 256) (by decide)

theorem Yields.readByte : Yields scope w .readByte (w.input.head?.elim 0 fun b => b.toNat)
    { w with input := w.input.tail } := by
  obtain ⟨globals, input, output⟩ := w
  cases input <;> rfl

/-- A byte is reduced only if the modulus may be below it. -/
theorem Yields.byteRead (hscope : scope.OfBlocks) (hready : w.Ready o) :
    Yields scope w (byteRead o) (wrap o.modulus (w.input.head?.elim 0 fun b => b.toNat))
      { w with input := w.input.tail } := by
  have hread : Yields scope w .readByte (w.input.head?.elim 0 fun b => b.toNat)
      { w with input := w.input.tail } := .readByte
  unfold Lua.byteRead
  split
  · exact Yields.reduced hscope ⟨hready.max, hready.dump⟩ hread
  · next hm =>
    have hbyte : 0 ≤ (w.input.head?.elim 0 fun b => (b.toNat : Int)) ∧
        (w.input.head?.elim 0 fun b => (b.toNat : Int)) < 256 := by
      cases w.input with
      | nil => decide
      | cons b rest =>
        have := b.toNat_lt
        simp only [List.head?_cons, Option.elim_some]
        omega
    by_cases h0 : o.modulus = 0
    · simpa [h0] using hread
    · rwa [wrap_eq_self hbyte.1 (by omega)]

end Values

/-- The statement `c` is left in the world `w'`, if the budget is enough for it. -/
structure Advances (c : Command) (scope : Scope) (w w' : World) : Prop where
  exec_eq_or : ∀ budget rest, exec (budget + 1) (c :: rest) scope w = .unfinished ∨
    exec (budget + 1) (c :: rest) scope w = exec budget rest scope w'
  exec_eq : ∃ enough, ∀ budget rest, enough ≤ budget →
    exec (budget + 1) (c :: rest) scope w = exec budget rest scope w'

namespace Advances

variable {scope : Scope} {w w' : World}

theorem of_exec {c : Command}
    (h : ∀ budget rest, exec (budget + 1) (c :: rest) scope w = exec budget rest scope w') :
    Advances c scope w w' :=
  ⟨fun budget rest => .inr (h budget rest), 0, fun budget rest _ => h budget rest⟩

theorem assign {x : String} {e : Term} {v : Value} (h : eval scope w e = .ok (v, w')) :
    Advances (.assign x e) scope w (w'.set x v) := by
  refine of_exec fun budget rest => ?_
  simp only [exec, h]

theorem store {x : String} {i : Int} {entries : Int → Value} {k e : Term} {v : Value}
    (hk : eval scope w k = .ok (.int i, w)) (he : eval scope w e = .ok (v, w'))
    (hx : w'.globals x = .table entries) :
    Advances (.store x k e) scope w
      (w'.set x (.table fun j => if j = i then v else entries j)) := by
  refine of_exec fun budget rest => ?_
  simp only [exec, hk, he, hx]

theorem call {f : String} {a : Term} {v : Value} (h : eval scope w (.call f a) = .ok (v, w')) :
    Advances (.evaluate (.call f a)) scope w w' :=
  of_exec fun budget rest => exec_call h budget rest

theorem invoke {f : String} {body : List Command} {inner : Scope} {enough : Nat}
    (hf : w.function? scope f = some (body, inner))
    (hbody : exec enough body inner w = .finished w') :
    Advances (.evaluate (.invoke f)) scope w w' := by
  have hends : exec enough body inner w ≠ .unfinished := by simp [hbody]
  refine ⟨fun budget rest => ?_, enough, fun budget rest hle => ?_⟩
  · simp only [exec, hf]
    by_cases h : exec budget body inner w = .unfinished
    · exact .inl (by rw [h]; rfl)
    · exact .inr (by rw [exec_unique h hends, hbody]; rfl)
  · simp only [exec, hf, exec_mono hle hends, hbody, Result.andThen]

end Advances

namespace World

variable {m : Int} {o : Options} {w : World}

theorem Ready.set (h : w.Ready o) {x : String} (v : Value) (hmax : x ≠ "max")
    (hdump : x ≠ "bf_debug") : (w.set x v).Ready o where
  max := fun hm => (if_neg hmax.symm).trans (h.max hm)
  dump := fun hd => (if_neg hdump.symm).trans (h.dump hd)

theorem HasTape.put {t : Tape m} (h : w.HasTape t) (offset value : Int) :
    (w.set "data" (.table fun j =>
      if j = t.ptr + offset then .int (wrap m value) else .int (t.get j))).HasTape
        (t.put offset value) where
  data := by
    refine congrArg Value.table (funext fun j => ?_)
    rw [Tape.put, Tape.get_set]
    split
    · next hj => rw [if_pos hj.symm]
    · next hj => rw [if_neg (Ne.symm hj)]
  ptr := h.ptr.trans (congrArg Value.int (t.ptr_put offset value).symm)

theorem HasTape.move {t : Tape m} (h : w.HasTape t) (distance : Int) :
    (w.set "ptr" (.int (t.ptr + distance))).HasTape (t.move distance) where
  data := h.data
  ptr := rfl

end World

section Operations

variable {o : Options} {scope : Scope} {w w' : World} {v : Observed o.modulus}

/-- The world after a statement shows what the machine shows after the operation. -/
def Performs (o : Options) (op : Op) (scope : Scope) (w : World) (v : Observed o.modulus) : Prop :=
  ∃ c w', opCommands o op = [c] ∧ Advances c scope w w' ∧ w'.Ready o ∧
    w'.Shows (op.act v).toView

theorem performs_store {op : Op} {e : Expr} {offset value : Int} {input : List UInt8}
    (hscope : scope.OfBlocks) (hw : w.HasTape v.tape)
    (he : Yields scope w e (wrap o.modulus value) w') (hready : w'.Ready o)
    (hw' : w'.Shows ⟨v.tape, input, v.output⟩)
    (hop : opCommands o op = [.store "data" (Expr.position offset) e.term])
    (hact : (op.act v).toView = ⟨v.tape.put offset value, input, v.output⟩) :
    Performs o op scope w v := by
  refine ⟨_, _, hop, .store (eval_position hscope hw offset) he hw'.data,
    hready.set _ (by decide) (by decide), ?_⟩
  rw [hact]
  exact ⟨hw'.toHasTape.put offset value, hw'.input, hw'.output⟩

theorem performs_move (hscope : scope.OfBlocks) (hready : w.Ready o) (hw : w.Shows v.toView)
    (way : Direction) (amount : Int) : Performs o (.move way amount) scope w v := by
  have hptr : eval scope w (.var "ptr") = .ok (.int v.tape.ptr, w) :=
    eval_var ((hscope.lookup_eq w "ptr").trans hw.ptr)
  have hshows (distance : Int) : (w.set "ptr" (.int (v.tape.ptr + distance))).Shows
      (v.move distance).toView := ⟨hw.toHasTape.move distance, hw.input, hw.output⟩
  have hset (v : Value) : (w.set "ptr" v).Ready o := hready.set v (by decide) (by decide)
  cases way with
  | left =>
    refine ⟨_, _, rfl, .assign (eval_binary (by decide) hptr (eval_literal amount) rfl), hset _, ?_⟩
    rw [Op.act_move]
    exact hshows (-amount)
  | right =>
    refine ⟨_, _, rfl, .assign (eval_binary (by decide) hptr (eval_literal amount) rfl), hset _, ?_⟩
    rw [Op.act_move]
    exact hshows amount

theorem ofNat_wrap (n : Int) : UInt8.ofNat (wrap 256 n).toNat = UInt8.ofInt n := by
  rw [wrap, Int.fmod_eq_emod_of_nonneg n (by decide)]
  rfl

theorem performs_write (hscope : scope.OfBlocks) (hready : w.Ready o) (hw : w.Shows v.toView)
    (offset bias : Int) : Performs o (.write offset bias) scope w v := by
  have hvalue := Yields.byteOf hscope hready hw.toHasTape offset bias
  generalize hn : wrap o.modulus (v.tape.cell offset + bias) = n at hvalue
  have hchar : library w "string.char" (.int (wrap 256 n)) = .ok (.bytes [UInt8.ofInt n], w) := by
    have hrange : 0 ≤ wrap 256 n ∧ wrap 256 n ≤ 255 :=
      ⟨wrap_nonneg (by decide) n, Int.le_sub_one_of_lt (wrap_lt (by decide) n)⟩
    rw [← ofNat_wrap]
    exact if_pos hrange
  have hwrite : library w "io.write" (.bytes [UInt8.ofInt n]) =
      .ok (.nil, w.emit [UInt8.ofInt n]) := rfl
  refine ⟨_, _, rfl, .call (eval_call (eval_call hvalue hchar) hwrite),
    ⟨hready.max, hready.dump⟩, ?_⟩
  rw [Op.act_write, hn]
  simpa using hw.emit [UInt8.ofInt n]

theorem performs_dump (hscope : scope.OfBlocks) (hready : w.Ready o) (hw : w.Shows v.toView)
    (hdebugging : o.debugging = true) : Performs o .dump scope w v := by
  have hfunction : w.function? scope "bf_debug" = some (dumpBody, []) := by
    rw [World.function?, hscope.function?_dump, hready.dump hdebugging]
  obtain ⟨enough, hbody⟩ := exec_dumpBody hw.toHasTape
  have hop : opCommands o .dump = [.evaluate (.invoke "bf_debug")] := by
    simp [opCommands, plainStmts, stmts, hdebugging, Stmt.command?]
  refine ⟨_, _, hop, .invoke hfunction hbody, ⟨hready.max, hready.dump⟩, ?_⟩
  have hbytes (a : Array UInt8) : a ++ bytesOf (v.tape.render ++ "\n") =
      a ++ (v.tape.render ++ "\n").toUTF8.data := Array.ext' (by simp [bytesOf])
  have h := hw.emit (bytesOf (v.tape.render ++ "\n"))
  simp only [hbytes] at h
  exact h

theorem performs {op : Op} (hop : op.isPlain = true) (hdump : o.debugging = true ∨ op ≠ .dump)
    (hscope : scope.OfBlocks) (hready : w.Ready o) (hw : w.Shows v.toView) :
    Performs o op scope w v := by
  have htape := hw.toHasTape
  cases op with
  | move way amount => exact performs_move hscope hready hw way amount
  | adjust sign amount offset =>
    have hcell : Yields scope w (.cell offset) (v.tape.cell offset) w := .cell hscope htape offset
    cases sign with
    | plus =>
      have h := Yields.reduced hscope hready (hcell.add (.int amount))
      exact performs_store hscope htape h hready hw rfl (by rw [Op.act_adjust]; rfl)
    | minus =>
      have h := Yields.reduced hscope hready (hcell.sub (.int amount))
      exact performs_store hscope htape h hready hw rfl (by rw [Op.act_adjust]; rfl)
  | assign value offset =>
    exact performs_store hscope htape (.int _) hready hw rfl (by rw [Op.act_assign])
  | read offset =>
    have h := Yields.byteRead hscope hready
    have hrest : World.Shows { w with input := w.input.tail } ⟨v.tape, v.input.tail, v.output⟩ :=
      ⟨⟨hw.data, hw.ptr⟩, congrArg List.tail hw.input, hw.output⟩
    rw [hw.input] at h hrest
    exact performs_store hscope htape h ⟨hready.max, hready.dump⟩ hrest rfl (by rw [Op.act_read])
  | write offset bias => exact performs_write hscope hready hw offset bias
  | addScaled addend multiplier dest src =>
    have h := Yields.increased hscope hready htape addend multiplier dest src
    exact performs_store hscope htape h hready hw rfl (by rw [Op.act_addScaled])
  | addTo sign dest src =>
    have h := Yields.increased hscope hready htape 0 sign dest src
    rw [add_zero] at h
    exact performs_store hscope htape h hready hw rfl (by rw [Op.act_addTo])
  | copy value dest src multiplier =>
    have h := Yields.copied hscope hready htape value src multiplier
    exact performs_store hscope htape h hready hw rfl (by rw [Op.act_copy])
  | dump => exact performs_dump hscope hready hw (hdump.resolve_right (by simp))
  | loop _ | once | close => contradiction

end Operations

end Brainfuck.Lua
