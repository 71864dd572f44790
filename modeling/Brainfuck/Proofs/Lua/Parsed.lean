import Brainfuck.Proofs.Lua.Reading
import Brainfuck.Proofs.Nesting

/-! The code of a program read back. The statements of a block stand in the block that its lines
open and end, and a body that is made a function is called right after the function. -/

namespace Brainfuck.Lua

open Brainfuck.Lua.Parser

variable {o : Options}

namespace Expr

theorem fits_cell (offset : Int) : (cell offset).Fits := trivial

theorem add_le_level_cell (offset : Int) : Binary.add.left ≤ (cell offset).level := by
  simp [level, Binary.left, unaryPriority]

theorem fits_reduced {e : Expr} (he : e.Fits) : (reduced o e).Fits := by
  unfold reduced
  split
  · exact he
  · simp [Fits, he, level, Binary.left, Binary.right, unaryPriority]

theorem fits_plus {e : Expr} (he : e.Fits) (hl : Binary.add.left ≤ e.level) (n : Int) :
    (e.plus n).Fits ∧ Binary.add.left ≤ (e.plus n).level := by
  have hint (k : Int) : Binary.add.right < (int k).level :=
    Nat.lt_of_lt_of_le (by decide) (le_level_int k)
  unfold plus
  split
  · exact ⟨⟨he, trivial, hl, hint _⟩, Nat.le_refl _⟩
  · exact ⟨⟨he, trivial, hl, hint _⟩, Nat.le_refl _⟩

theorem fits_scaled (n offset : Int) : (mul (int n) (cell offset)).Fits := by
  have hn : Binary.mul.left ≤ (int n).level := Nat.le_trans (by decide) (le_level_int n)
  exact ⟨trivial, trivial, hn, by simp [level, Binary.left, Binary.right, unaryPriority]⟩

theorem fits_plusMultiple {e : Expr} (he : e.Fits) (hl : Binary.add.left ≤ e.level)
    (n offset : Int) : (e.plusMultiple n (cell offset)).Fits := by
  have hmultiple : (multiple n (cell offset)).Fits ∧
      Binary.add.right < (multiple n (cell offset)).level := by
    unfold multiple
    split
    · exact ⟨trivial, by simp [level, Binary.left, Binary.right, unaryPriority]⟩
    · exact ⟨fits_scaled _ _, by simp [level, Binary.left, Binary.right]⟩
  unfold plusMultiple
  split
  · exact ⟨he, hmultiple.1, hl, hmultiple.2⟩
  · exact ⟨he, hmultiple.1, hl, hmultiple.2⟩

theorem fits_byteOf (offset bias : Int) : (byteOf o offset bias).Fits := by
  have hvalue : (reduced o ((cell offset).plus bias)).Fits :=
    fits_reduced (fits_plus (fits_cell offset) (add_le_level_cell offset) bias).1
  unfold byteOf
  split
  · split
    · trivial
    · simp [Fits, level, Binary.left, Binary.right, unaryPriority]
  · dsimp only
    split
    · exact hvalue
    · simp [Fits, hvalue, level, Binary.left, Binary.right, unaryPriority]

theorem fits_byteRead : (byteRead o).Fits := by
  unfold byteRead
  split
  · exact fits_reduced (e := readByte) trivial
  · trivial

theorem fits_increased (addend multiplier dest src : Int) :
    (increased o addend multiplier dest src).Fits := by
  have hbase : (if addend = 0 then cell dest else (cell dest).plus addend).Fits ∧
      Binary.add.left ≤ (if addend = 0 then cell dest else (cell dest).plus addend).level := by
    split
    · exact ⟨trivial, add_le_level_cell dest⟩
    · exact fits_plus (fits_cell dest) (add_le_level_cell dest) addend
  refine fits_reduced ?_
  split
  · exact hbase.1
  · exact fits_plusMultiple hbase.1 hbase.2 multiplier src

theorem fits_copied (value src multiplier : Int) : (copied o value src multiplier).Fits := by
  unfold copied
  split
  · trivial
  · generalize hbase : (if multiplier = 1 then cell src
      else if multiplier = -1 then neg (cell src) else mul (int multiplier) (cell src)) = base
    have hfits : base.Fits ∧ Binary.add.left ≤ base.level := by
      subst hbase
      split
      · exact ⟨trivial, add_le_level_cell src⟩
      · split
        · exact ⟨⟨src, rfl⟩, by simp [level, Binary.left, unaryPriority]⟩
        · exact ⟨fits_scaled _ _, by simp [level, Binary.left]⟩
    refine fits_reduced ?_
    split
    · exact hfits.1
    · exact (fits_plus hfits.1 hfits.2 value).1

end Expr

/-- The statements of an operation that is no part of the nesting. -/
def plainStmts (o : Options) (op : Op) : List Stmt :=
  match stmts o .start ⟨0, op⟩ with
  | .ok (body, _) => body
  | .error _ => []

theorem stmts_plain {op : Op} (hop : op.isPlain = true) (f : Functions) (depth : Int) :
    stmts o f ⟨depth, op⟩ = .ok (plainStmts o op, f) := by
  cases op with
  | adjust sign amount offset => cases sign <;> rfl
  | loop _ | once | close => contradiction
  | _ => rfl

theorem of_mem_plainStmts {op : Op} (hop : op.isPlain = true) {s : Stmt}
    (hs : s ∈ plainStmts o op) : s.Fits ∧ ∃ c, s.command? = some c := by
  cases op with
  | move way amount =>
    obtain rfl := List.mem_singleton.mp hs
    cases way <;> exact ⟨trivial, _, rfl⟩
  | adjust sign amount offset =>
    have hint : Binary.add.right < (Expr.int amount).level :=
      Nat.lt_of_lt_of_le (by decide) (Expr.le_level_int amount)
    cases sign with
    | plus =>
      obtain rfl := List.mem_singleton.mp hs
      exact ⟨Expr.fits_reduced ⟨trivial, trivial, Expr.add_le_level_cell offset, hint⟩, _, rfl⟩
    | minus =>
      obtain rfl := List.mem_singleton.mp hs
      exact ⟨Expr.fits_reduced ⟨trivial, trivial, Expr.add_le_level_cell offset, hint⟩, _, rfl⟩
  | assign value offset =>
    obtain rfl := List.mem_singleton.mp hs
    exact ⟨trivial, _, rfl⟩
  | read offset =>
    obtain rfl := List.mem_singleton.mp hs
    exact ⟨Expr.fits_byteRead, _, rfl⟩
  | write offset bias =>
    obtain rfl := List.mem_singleton.mp hs
    exact ⟨Expr.fits_byteOf offset bias, _, rfl⟩
  | addScaled addend multiplier dest src =>
    obtain rfl := List.mem_singleton.mp hs
    exact ⟨Expr.fits_increased addend multiplier dest src, _, rfl⟩
  | addTo sign dest src =>
    obtain rfl := List.mem_singleton.mp hs
    exact ⟨Expr.fits_increased 0 sign dest src, _, rfl⟩
  | copy value dest src multiplier =>
    obtain rfl := List.mem_singleton.mp hs
    exact ⟨Expr.fits_copied value src multiplier, _, rfl⟩
  | dump =>
    replace hs : s ∈ if o.debugging then [.dump] else [] := hs
    split at hs
    · obtain rfl := List.mem_singleton.mp hs
      exact ⟨trivial, _, rfl⟩
    · contradiction
  | loop _ | once | close => contradiction

/-- The lines are read as the statements `cs`, wherever they stand. -/
structure ReadAs (ls : List Line) (cs : List Command) : Prop where
  fits : ∀ l ∈ ls, l.stmt.Fits
  begins : ∀ ts, Begins ts → Begins (tokens ls ++ ts)
  finish_eq : ∀ (outer : List (Opened × List Command)) (done : List Command) (ts : List Token),
    Begins ts → finish (atStart outer done) (tokens ls ++ ts) =
      finish (atStart outer (cs.reverse ++ done)) ts

namespace ReadAs

theorem nil : ReadAs [] [] where
  fits := by simp
  begins := fun _ h => h
  finish_eq := fun _ _ _ _ => rfl

theorem append {ls ls' : List Line} {cs cs' : List Command} (h : ReadAs ls cs)
    (h' : ReadAs ls' cs') : ReadAs (ls ++ ls') (cs ++ cs') where
  fits := List.forall_mem_append.mpr ⟨h.fits, h'.fits⟩
  begins := by
    intro ts hts
    rw [tokens, List.flatMap_append, List.append_assoc]
    exact h.begins _ (h'.begins ts hts)
  finish_eq := by
    intro outer done ts hts
    rw [tokens, List.flatMap_append, List.append_assoc]
    rw [List.reverse_append, List.append_assoc, ← h'.finish_eq _ _ _ hts]
    exact h.finish_eq _ _ _ (h'.begins ts hts)

theorem single {l : Line} (hl : l.stmt.Fits) {c : Command} (hc : l.stmt.command? = some c) :
    ReadAs [l] [c] where
  fits := by simpa using hl
  begins := by
    intro ts _
    rw [tokens, List.flatMap_singleton]
    exact l.stmt.begins_tokens ts
  finish_eq := by
    intro outer done ts hts
    rw [tokens, List.flatMap_singleton]
    exact Stmt.finish_command hl hc hts

/-- Lines in a block. -/
theorem block {l : Line} {opened : Opened} (hl : l.stmt.opened? = some opened) {ls : List Line}
    {cs : List Command} (h : ReadAs ls cs) (indent : Nat) :
    ReadAs (l :: ls ++ [⟨indent, .close⟩]) [opened.command cs] where
  fits := by
    have hopener : l.stmt.Fits := by
      cases hstmt : l.stmt with
      | setCell _ _ | writeByte _ =>
        rw [hstmt] at hl
        contradiction
      | _ => trivial
    exact List.forall_mem_append.mpr
      ⟨List.forall_mem_cons.mpr ⟨hopener, h.fits⟩, by simp [Stmt.Fits]⟩
  begins := by
    intro ts _
    rw [tokens, List.cons_append, List.flatMap_cons, List.append_assoc]
    exact l.stmt.begins_tokens _
  finish_eq := by
    intro outer done ts hts
    have hclose : Begins (.word "end" :: ts) := ⟨"end", rfl, by decide⟩
    rw [tokens, List.cons_append, List.flatMap_cons, List.flatMap_append, List.append_assoc,
      Stmt.finish_opener hl, List.append_assoc]
    refine (h.finish_eq _ _ _ hclose).trans ?_
    rw [List.append_nil]
    show finish (atStart outer (opened.command cs.reverse.reverse :: done)) ts = _
    rw [List.reverse_reverse]
    rfl

end ReadAs

/-- The statements of an operation, as trees. -/
def opCommands (o : Options) (op : Op) : List Command := (plainStmts o op).filterMap (·.command?)

theorem readAs_plain {op : Op} (hop : op.isPlain = true) (indent : Nat) :
    ReadAs ((plainStmts o op).map (⟨indent, ·⟩)) (opCommands o op) := by
  have h : ∀ s ∈ plainStmts o op, s.Fits ∧ ∃ c, s.command? = some c :=
    fun s hs => of_mem_plainStmts hop hs
  rw [opCommands]
  generalize plainStmts o op = body at h ⊢
  induction body with
  | nil => exact .nil
  | cons s body ih =>
    obtain ⟨⟨hs, c, hc⟩, hbody⟩ := List.forall_mem_cons.mp h
    rw [List.filterMap_cons_some hc]
    exact (ReadAs.single hs hc).append (ih hbody)

/-- The number of functions that the blocks of a body are made. -/
def functionCount (o : Options) : Body → Nat
  | .done => 0
  | .step _ next => functionCount o next
  | .loop _ body next | .once body next =>
    o.functions.toNat + functionCount o body + functionCount o next

/-- The statements of a block whose body has the statements `cs`, if the next function has the
given number. -/
def enclosed (o : Options) (number : Nat) (cs : List Command) : List Command :=
  if o.functions then
    [.localFunction (functionName number) cs, .evaluate (.invoke (functionName number))]
  else cs

/-- The statements of a body, if the next function has the given number. -/
def commands (o : Options) (number : Nat) : Body → List Command
  | .done => []
  | .step op next => opCommands o op ++ commands o number next
  | .loop offset body next =>
    .whileDo (isNonzero offset)
      (enclosed o number (commands o (number + o.functions.toNat) body)) ::
        commands o (number + o.functions.toNat + functionCount o body) next
  | .once body next =>
    .ifElse (isNonzero 0) (enclosed o number (commands o (number + o.functions.toNat) body)) [] ::
      commands o (number + o.functions.toNat + functionCount o body) next

namespace Functions

/-- The functions when `count` more have been made and closed. -/
def skip (f : Functions) (count : Nat) : Functions := { f with next := f.next + count }

/-- No function is open at `depth` or deeper. -/
def Below (f : Functions) (depth : Nat) : Prop := ∀ entry ∈ f.opened, entry.1 < (depth : Int)

theorem skip_zero (f : Functions) : f.skip 0 = f := rfl

theorem skip_skip (f : Functions) (n k : Nat) : (f.skip n).skip k = f.skip (n + k) := by
  rw [skip, skip, skip, Nat.add_assoc]

theorem filter_opened {f : Functions} {depth : Nat} (h : f.Below depth) :
    f.opened.filter (·.1 != (depth : Int)) = f.opened := by
  refine List.filter_eq_self.mpr fun entry hentry => ?_
  have := h entry hentry
  rw [bne_iff_ne]
  omega

theorem Below.enter {f : Functions} {depth : Nat} (h : f.Below depth) :
    (f.enter depth).Below (depth + 1) := by
  intro entry hentry
  rw [Functions.enter, filter_opened h] at hentry
  rcases List.mem_cons.mp hentry with rfl | hentry
  · omega
  · have := h entry hentry
    omega

/-- The function of a block is the one that its body leaves open. -/
theorem leave?_enter {f : Functions} {depth : Nat} (h : f.Below depth) (count : Nat) :
    ((f.enter depth).skip count).leave? depth = some (f.next, f.skip (1 + count)) := by
  have hfilter := filter_opened h
  simp only [leave?, Functions.enter, skip, hfilter, List.lookup_cons_self, Option.map_some]
  simp [hfilter, Nat.add_assoc]

end Functions

/-- From `f` the instructions are printed as lines that are read as `cs`, and `count` functions are
made of their blocks. -/
def PrintsAs (o : Options) (f : Functions) (program : Program) (cs : List Command) (count : Nat) :
    Prop :=
  ∃ ls, ReadAs ls cs ∧
    ∀ rest, lines o f (program ++ rest) = (lines o (f.skip count) rest).map (ls ++ ·)

theorem lines_cons {f g : Functions} {i : Instr} {body : List Stmt}
    (h : stmts o f i = .ok (body, g)) (rest : Program) :
    lines o f (i :: rest) = (lines o g rest).map (body.map (⟨i.depth.toNat, ·⟩) ++ ·) := by
  rw [lines, h]

namespace PrintsAs

theorem nil (f : Functions) : PrintsAs o f [] [] 0 := by
  refine ⟨[], .nil, fun rest => ?_⟩
  rw [Functions.skip_zero, List.nil_append]
  cases lines o f rest <;> rfl

theorem append {f : Functions} {p q : Program} {cs ds : List Command} {n k : Nat}
    (h : PrintsAs o f p cs n) (h' : PrintsAs o (f.skip n) q ds k) :
    PrintsAs o f (p ++ q) (cs ++ ds) (n + k) := by
  obtain ⟨ls, hls, heq⟩ := h
  obtain ⟨ls', hls', heq'⟩ := h'
  refine ⟨ls ++ ls', hls.append hls', fun rest => ?_⟩
  rw [List.append_assoc, heq, heq', Functions.skip_skip]
  cases lines o (f.skip (n + k)) rest <;> simp [Except.map]

theorem plain {op : Op} (hop : op.isPlain = true) (f : Functions) (depth : Nat) :
    PrintsAs o f [⟨depth, op⟩] (opCommands o op) 0 :=
  ⟨_, readAs_plain hop depth, fun rest => lines_cons (stmts_plain hop f depth) rest⟩

/-- A block around instructions. -/
theorem block {f : Functions} {op : Op} {opener : Stmt} {opened : Opened} {depth : Nat}
    (hop : stmts o f ⟨depth, op⟩ = .ok (openBlock o f depth opener))
    (hopener : opener.opened? = some opened) (hf : f.Below depth) {p : Program}
    {cs : List Command} {n : Nat} (h : PrintsAs o (openBlock o f depth opener).2 p cs n) :
    PrintsAs o f (⟨depth, op⟩ :: (p ++ [⟨depth, .close⟩])) [opened.command (enclosed o f.next cs)]
      (o.functions.toNat + n) := by
  obtain ⟨ls, hls, heq⟩ := h
  unfold enclosed
  unfold openBlock at hop heq
  cases hfun : o.functions with
  | true =>
    rw [if_pos hfun] at hop heq
    have hcall : ReadAs [⟨depth, .call f.next⟩] [.evaluate (.invoke (functionName f.next))] :=
      .single (l := ⟨depth, .call f.next⟩) trivial rfl
    have hfunction := (hls.block (l := ⟨depth, .function f.next⟩) rfl depth).append hcall
    refine ⟨_, hfunction.block (l := ⟨depth, opener⟩) hopener depth, fun rest => ?_⟩
    have hclose : stmts o ((f.enter depth).skip n) ⟨depth, .close⟩ =
        .ok ([.close, .call f.next, .close], f.skip (1 + n)) := by
      simp only [stmts, closeBlock, hfun, if_true, Functions.leave?_enter hf]
    rw [List.cons_append, List.append_assoc, lines_cons hop, heq, List.singleton_append,
      lines_cons hclose]
    show _ = Except.map _ (lines o (f.skip (1 + n)) rest)
    cases lines o (f.skip (1 + n)) rest <;> simp [Except.map]
  | false =>
    rw [if_neg (by simp [hfun])] at hop heq
    refine ⟨_, hls.block (l := ⟨depth, opener⟩) hopener depth, fun rest => ?_⟩
    have hclose : stmts o (f.skip n) ⟨depth, .close⟩ = .ok ([.close], f.skip n) := by
      simp [stmts, closeBlock, hfun]
    rw [List.cons_append, List.append_assoc, lines_cons hop, heq, List.singleton_append,
      lines_cons hclose]
    show _ = Except.map _ (lines o (f.skip (0 + n)) rest)
    rw [Nat.zero_add]
    cases lines o (f.skip n) rest <;> simp [Except.map]

end PrintsAs

theorem next_openBlock (f : Functions) (depth : Nat) (opener : Stmt) :
    (openBlock o f depth opener).2.next = f.next + o.functions.toNat := by
  cases hfun : o.functions <;> simp [openBlock, hfun, Functions.enter]

theorem below_openBlock (o : Options) {f : Functions} {depth : Nat} (hf : f.Below depth)
    (opener : Stmt) : (openBlock o f depth opener).2.Below (depth + 1) := by
  unfold openBlock
  split
  · exact hf.enter
  · intro entry hentry
    have := hf entry hentry
    omega

/-- The code of a body is read as its statements. -/
theorem printsAs_body {b : Body} {P : Op → Prop} (hb : b.Steps P) {f : Functions} {depth : Nat}
    (hf : f.Below depth) :
    PrintsAs o f (b.program depth) (commands o f.next b) (functionCount o b) := by
  induction b generalizing f depth with
  | done => exact .nil f
  | step op next ih =>
    have h := (PrintsAs.plain hb.1 f depth).append (ih hb.2.2 hf)
    rwa [Nat.zero_add] at h
  | loop offset body next ihb ihn =>
    have hbody := ihb hb.1 (below_openBlock o hf (.whileCell offset))
    have hop : stmts o f ⟨depth, .loop offset⟩ = .ok (openBlock o f depth (.whileCell offset)) :=
      rfl
    -- What comes after the block is numbered from the last function inside it.
    have h := (hbody.block hop rfl hf).append (ihn hb.2 hf)
    rw [next_openBlock] at h
    simpa [Body.program, commands, functionCount, Functions.skip, Opened.command, Nat.add_assoc]
      using h
  | once body next ihb ihn =>
    have hbody := ihb hb.1 (below_openBlock o hf .ifCell)
    have hop : stmts o f ⟨depth, .once⟩ = .ok (openBlock o f depth .ifCell) := rfl
    have h := (hbody.block hop rfl hf).append (ihn hb.2 hf)
    rw [next_openBlock] at h
    simpa [Body.program, commands, functionCount, Functions.skip, Opened.command, Nat.add_assoc]
      using h

/-- The text is read as the statements `cs`, whatever statements come before and after it. -/
structure Spells (text : String) (cs : List Command) : Prop where
  begins : ∀ rest, Begins (lex rest) → Begins (lex (text.toList ++ rest))
  finish_eq : ∀ (outer : List (Opened × List Command)) (done : List Command) (rest : List Char),
    Begins (lex rest) → finish (atStart outer done) (lex (text.toList ++ rest)) =
      finish (atStart outer (cs.reverse ++ done)) (lex rest)

namespace Spells

theorem append {s t : String} {cs ds : List Command} (hs : Spells s cs) (ht : Spells t ds) :
    Spells (s ++ t) (cs ++ ds) where
  begins := by
    intro rest hrest
    rw [String.toList_append, List.append_assoc]
    exact hs.begins _ (ht.begins _ hrest)
  finish_eq := by
    intro outer done rest hrest
    rw [String.toList_append, List.append_assoc, hs.finish_eq _ _ _ (ht.begins _ hrest),
      ht.finish_eq _ _ _ hrest, List.reverse_append, List.append_assoc]

theorem of_readAs {ls : List Line} {cs : List Command} (h : ReadAs ls cs) :
    Spells (String.join (ls.map (·.render))) cs where
  begins := by
    intro rest hrest
    rw [lex_lines h.fits]
    exact h.begins _ hrest
  finish_eq := by
    intro outer done rest hrest
    rw [lex_lines h.fits]
    exact h.finish_eq _ _ _ hrest

theorem parse?_eq {text : String} {cs : List Command} (h : Spells text cs) :
    parse? text = some cs := by
  have hfinish : finish (atStart [] []) (lex text.toList) = some (atStart [] cs.reverse) := by
    have := h.finish_eq [] [] [] trivial
    rwa [List.append_nil, List.append_nil] at this
  obtain ⟨p, hp, hsettle⟩ := Option.bind_eq_some_iff.mp hfinish
  rw [parse?, hp, Option.bind_some, commands?, hsettle]
  exact congrArg some cs.reverse_reverse

end Spells

/-- The code of a program whose depths are those of its nesting, without the header. -/
theorem exists_lines {b : Body} {P : Op → Prop} (hb : b.Steps P) :
    ∃ ls, lines o .start (b.program 0) = .ok ls ∧ ReadAs ls (commands o 1 b) := by
  have hstart : Functions.start.Below 0 := by simp [Functions.Below, Functions.start]
  obtain ⟨ls, hls, heq⟩ := printsAs_body (o := o) hb hstart
  refine ⟨ls, ?_, hls⟩
  have h := heq []
  simpa [lines, Except.map] using h

end Brainfuck.Lua
