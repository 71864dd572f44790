import Brainfuck.Proofs.Levels
import Brainfuck.Proofs.Lua.BlockLines
import Brainfuck.Proofs.Lua.Parsed
import Brainfuck.Proofs.WellFormed

/-! The functions that bodies are made. They are kept by the depth of their blocks, and as depths
follow the nesting, the function found at the end of a block is the one that the block declared. -/

namespace Brainfuck

namespace Lua

open Jumps

variable {o : Options} {p rest : Program} {table : Jumps} {position : Nat} {opened : List Nat}

/-- The statements of every instruction, and the functions that are open after the last. -/
def emit (o : Options) (f : Functions) : Program → Except NoFunction (List (List Stmt) × Functions)
  | [] => .ok ([], f)
  | i :: rest =>
    match stmts o f i with
    | .error e => .error e
    | .ok (body, f) => (emit o f rest).map fun (groups, f) => (body :: groups, f)

/-- The lines of a program whose instructions have the given statements. -/
def indented (p : Program) (groups : List (List Stmt)) : List Line :=
  (List.zipWith (fun i body => body.map (⟨i.depth.toNat, ·⟩)) p groups).flatten

theorem lines_eq_emit (f : Functions) (p : Program) :
    lines o f p = (emit o f p).map fun r => indented p r.1 := by
  induction p generalizing f with
  | nil => rfl
  | cons i rest ih =>
    rw [lines, emit]
    cases stmts o f i with
    | error e => rfl
    | ok r =>
      obtain ⟨body, f⟩ := r
      dsimp only
      rw [ih]
      cases emit o f rest <;> rfl

/-- The text of a program whose instructions have the given lines, each indented by the depth of its
instruction. -/
def laidOut (p : Program) (texts : List (List String)) : String :=
  String.join (List.zipWith (fun i body => String.join (body.map fun line =>
    String.ofList (List.replicate i.depth.toNat '\t') ++ line ++ "\n")) p texts)

theorem join_indented (p : Program) (groups : List (List Stmt)) :
    String.join ((indented p groups).map (·.render)) =
      laidOut p (groups.map (·.map (·.render))) := by
  induction p generalizing groups with
  | nil => rfl
  | cons i p ih =>
    cases groups with
    | nil => rfl
    | cons body groups =>
      have hbody : (body.map (Line.mk i.depth.toNat)).map (·.render) =
          (body.map (·.render)).map fun line =>
            String.ofList (List.replicate i.depth.toNat '\t') ++ line ++ "\n" := by
        simp only [List.map_map, Function.comp_def, Line.render]
      have hrest := ih groups
      unfold indented laidOut at hrest ⊢
      rw [List.map_cons, List.zipWith_cons_cons, List.zipWith_cons_cons, List.flatten_cons,
        List.map_append, String.join_append, String.join_cons, hbody, hrest]

theorem isBlockPart_of_mem_plainStmts {op : Op} (hop : op.isPlain = true) {s : Stmt}
    (hs : s ∈ plainStmts o op) : s.isBlockPart = false := by
  cases op with
  | adjust sign amount offset =>
    cases sign <;> simp_all [plainStmts, stmts, Stmt.isBlockPart]
  | loop _ | once | close => contradiction
  | dump =>
    simp only [plainStmts, stmts] at hs
    split at hs <;> simp_all [Stmt.isBlockPart]
  | _ => simp_all [plainStmts, stmts, Stmt.isBlockPart]

/-- The statement that opens the block of an operation. -/
def opening? : Op → Option Stmt
  | .loop offset => some (.whileCell offset)
  | .once => some .ifCell
  | _ => none

theorem of_opening? {op : Op} {s : Stmt} (h : opening? op = some s) :
    s = .ifCell ∨ ∃ offset, s = .whileCell offset := by
  cases op with
  | loop offset =>
    cases h
    exact .inr ⟨offset, rfl⟩
  | once =>
    cases h
    exact .inl rfl
  | _ => contradiction

theorem map_render_opening? (op : Op) : (opening? op).map (·.render) = openingLine? op := by
  cases op with
  | once =>
    have hline : Stmt.ifCell.render = "if data[ptr] ~= 0 then" := by decide
    exact congrArg some hline
  | _ => rfl

/-- The statements of the operation at `position`, if a block has a function of its own number. -/
def ownStmts (o : Options) (p : Program) (table : Jumps) (position : Nat) : Op → List Stmt
  | .loop offset => [.whileCell offset, .function (p.ordinal position)]
  | .once => [.ifCell, .function (p.ordinal position)]
  | .close =>
    match table[position]? with
    | none => []
    | some start => [.close, .call (p.ordinal start), .close]
  | op => plainStmts o op

theorem ownStmts_opener (o : Options) (p : Program) (table : Jumps) (position : Nat) {op : Op}
    (hop : op.isOpener = true) :
    ∃ s, opening? op = some s ∧
      ownStmts o p table position op = [s, .function (p.ordinal position)] := by
  cases op with
  | loop offset => exact ⟨.whileCell offset, rfl, rfl⟩
  | once => exact ⟨.ifCell, rfl, rfl⟩
  | _ => contradiction

theorem ownStmts_close {start : Nat} (h : table[position]? = some start) :
    ownStmts o p table position .close = [.close, .call (p.ordinal start), .close] := by
  simp [ownStmts, h]

theorem ownStmts_plain {op : Op} (hop : op.isPlain = true) :
    ownStmts o p table position op = plainStmts o op := by
  cases op with
  | loop _ | once | close => contradiction
  | _ => rfl

/-- The statements of the instructions from `position` on, if a block has a function of its own
number. -/
def ownGroups (o : Options) (p : Program) (table : Jumps) (position : Nat) (rest : Program) :
    List (List Stmt) :=
  (rest.zipIdx position).map fun (i, k) => ownStmts o p table k i.op

theorem ownGroups_cons (i : Instr) (rest : Program) :
    ownGroups o p table position (i :: rest) =
      ownStmts o p table position i.op :: ownGroups o p table (position + 1) rest := rfl

theorem getElem?_ownGroups (k : Nat) :
    (ownGroups o p table 0 p)[k]? = p[k]?.map fun i => ownStmts o p table k i.op := by
  simp [ownGroups, List.getElem?_zipIdx, Function.comp_def]

/-- The functions of blocks opened at these positions, the innermost first. -/
def pending (p : Program) : List Nat → List (Int × Nat)
  | [] => []
  | start :: outer => (outer.length, p.ordinal start) :: pending p outer

/-- The functions at `position`, when blocks opened at the positions in `opened` are open. -/
def Functions.along (p : Program) (position : Nat) (opened : List Nat) : Functions :=
  ⟨p.ordinal position, pending p opened⟩

namespace Functions

theorem below_along (p : Program) (position : Nat) (opened : List Nat) :
    (along p position opened).Below opened.length := by
  induction opened with
  | nil => simp [Below, along, pending]
  | cons start outer ih =>
    refine List.forall_mem_cons.mpr ⟨?_, fun entry hentry => ?_⟩
    · simp only [List.length_cons]
      omega
    · have := ih entry hentry
      simp only [List.length_cons]
      omega

theorem along_succ {i : Instr} (hi : p[position]? = some i) (hop : i.op.isOpener = false) :
    along p (position + 1) opened = along p position opened := by
  rw [along, along, Program.ordinal_succ hi, hop]
  rfl

theorem enter_along {i : Instr} (hi : p[position]? = some i) (hop : i.op.isOpener = true)
    (opened : List Nat) :
    (along p position opened).enter opened.length =
      along p (position + 1) (position :: opened) := by
  rw [enter, filter_opened (below_along p position opened), along, along,
    Program.ordinal_succ hi, if_pos hop]
  rfl

/-- The function found at the end of the innermost block is the one with its number. -/
theorem leave?_along {start : Nat} {outer : List Nat} :
    (along p position (start :: outer)).leave? outer.length =
      some (p.ordinal start, along p position outer) := by
  have hfilter := filter_opened (below_along p position outer)
  simp only [along] at hfilter
  simp [leave?, along, pending, hfilter]

end Functions

/-- One step of a walk: the instruction has the statements that it should have, and the functions
that are open then are those of the blocks that are open then. -/
theorem stmts_of_walk (ho : o.functions = true) {i : Instr}
    (h : Walk p table position opened (i :: rest)) :
    ∃ opened', Walk p table (position + 1) opened' rest ∧
      stmts o (.along p position opened) i =
        .ok (ownStmts o p table position i.op, .along p (position + 1) opened') := by
  obtain ⟨depth, op⟩ := i
  cases h with
  | opener hi hop hdepth hrest =>
    refine ⟨position :: opened, hrest, ?_⟩
    obtain rfl : depth = opened.length := hdepth
    have henter := Functions.enter_along hi hop opened
    cases op with
    | loop offset =>
      simp only [stmts, openBlock, ho, if_true, henter]
      rfl
    | once =>
      simp only [stmts, openBlock, ho, if_true, henter]
      rfl
    | _ => contradiction
  | @close _ start outer _ _ hi hop hdepth hjoins hrest =>
    refine ⟨outer, hrest, ?_⟩
    obtain rfl : op = .close := hop
    obtain rfl : depth = outer.length := hdepth
    rw [ownStmts_close hjoins.back, Functions.along_succ hi rfl]
    simp only [stmts, closeBlock, ho, if_true, Functions.leave?_along]
  | plain hi hop hdepth hrest =>
    refine ⟨opened, hrest, ?_⟩
    rw [stmts_plain hop, ownStmts_plain hop,
      Functions.along_succ hi (Op.isOpener_of_isPlain hop)]

theorem emit_of_walk (ho : o.functions = true) (h : Walk p table position opened rest) :
    ∃ next, emit o (.along p position opened) rest =
      .ok (ownGroups o p table position rest, ⟨next, []⟩) := by
  induction rest generalizing position opened with
  | nil =>
    cases h
    exact ⟨p.ordinal position, rfl⟩
  | cons i rest ih =>
    obtain ⟨opened', hrest, hstmts⟩ := stmts_of_walk ho h
    obtain ⟨next, hnext⟩ := ih hrest
    refine ⟨next, ?_⟩
    rw [emit, hstmts, ownGroups_cons]
    dsimp only
    rw [hnext]
    rfl

/-- An open block of the program is two open blocks of code, one in the other. -/
theorem depthAfter?_of_walk (h : Walk p table position opened rest) :
    Stmt.depthAfter? (2 * opened.length) (ownGroups o p table position rest).flatten = some 0 := by
  induction h with
  | done => rfl
  | @opener position opened i rest hi hop hdepth hrest ih =>
    obtain ⟨s, hs, hstmts⟩ := ownStmts_opener o p table position hop
    rw [ownGroups_cons, List.flatten_cons, hstmts, ← ih]
    -- `2 * (n + 1)` is `2 * n + 2`, and both openings count one each.
    rcases of_opening? hs with rfl | ⟨offset, rfl⟩
    · rfl
    · rfl
  | @close position start outer i rest hi hop hdepth hjoins hrest ih =>
    rw [ownGroups_cons, List.flatten_cons, hop, ownStmts_close hjoins.back, ← ih]
    rfl
  | @plain position opened i rest hi hop hdepth hrest ih =>
    rw [ownGroups_cons, List.flatten_cons, ownStmts_plain hop, ← ih]
    exact Stmt.depthAfter?_plain (fun s hs => isBlockPart_of_mem_plainStmts hop hs) _ _

/-- Functions are declared in the order of their numbers. -/
theorem declared_of_walk (h : Walk p table position opened rest) :
    (ownGroups o p table position rest).flatten.filterMap Stmt.declared? =
      List.range' (p.ordinal position) (rest.countP (·.op.isOpener)) := by
  induction h with
  | done => rfl
  | @opener position opened i rest hi hop hdepth hrest ih =>
    obtain ⟨s, hs, hstmts⟩ := ownStmts_opener o p table position hop
    have hopening : [s, .function (p.ordinal position)].filterMap Stmt.declared? =
        [p.ordinal position] := by
      rcases of_opening? hs with rfl | ⟨offset, rfl⟩ <;> rfl
    rw [ownGroups_cons, List.flatten_cons, List.filterMap_append, hstmts, hopening, ih,
      List.countP_cons, if_pos hop, Program.ordinal_succ hi, if_pos hop, List.range'_succ]
    rfl
  | @close position start outer i rest hi hop hdepth hjoins hrest ih =>
    have hopener : i.op.isOpener = false := by rw [hop]; rfl
    rw [ownGroups_cons, List.flatten_cons, List.filterMap_append, hop, ownStmts_close hjoins.back,
      ih, List.countP_cons_of_neg (by simp [hopener]), Program.ordinal_succ hi, hopener]
    rfl
  | @plain position opened i rest hi hop hdepth hrest ih =>
    have hopener := Op.isOpener_of_isPlain hop
    have hnone : (plainStmts o i.op).filterMap Stmt.declared? = [] := by
      refine List.filterMap_eq_nil_iff.mpr fun s hs => ?_
      have hpart := isBlockPart_of_mem_plainStmts hop hs
      cases s with
      | function _ => contradiction
      | _ => rfl
    rw [ownGroups_cons, List.flatten_cons, List.filterMap_append, ownStmts_plain hop, hnone, ih,
      List.countP_cons_of_neg (by simp [hopener]), Program.ordinal_succ hi, hopener]
    rfl

/-- With these lines for its instructions, every block of a program calls the function that it
declares itself. -/
structure CallsOwn (p : Program) (table : Jumps) (texts : List (List String)) : Prop where
  length_eq : texts.length = p.length
  /-- Functions are numbered from 1 on, in the order in which blocks are opened. -/
  declared : texts.flatten.filter isDeclaration =
    (List.range' 1 (p.countP (·.op.isOpener))).map declarationLine
  /-- A block declares the function with its number where it is opened, and calls it between the two
  ends where it ends. -/
  block : ∀ {start : Nat} {i : Instr}, p[start]? = some i → i.op.isOpener = true →
    ∃ (stop : Nat) (opening : String), table.Joins p start stop ∧
      openingLine? i.op = some opening ∧
      texts[start]? = some [opening, declarationLine (p.ordinal start)] ∧
      texts[stop]? = some ["end", callLine (p.ordinal start), "end"]
  /-- No other instruction declares this function or calls it. -/
  only : ∀ {start stop k : Nat} {body : List String}, table.Joins p start stop →
    texts[k]? = some body → (declarationLine (p.ordinal start) ∈ body → k = start) ∧
      (callLine (p.ordinal start) ∈ body → k = stop)
  /-- Every end is the end of such a block. -/
  ends : ∀ {stop : Nat} {i : Instr}, p[stop]? = some i → i.op = .close →
    ∃ start, table.Joins p start stop
  /-- Other instructions have no part in blocks. -/
  plain : ∀ {k : Nat} {i : Instr} {body : List String}, p[k]? = some i → i.op.isPlain = true →
    texts[k]? = some body → ∀ line ∈ body, ¬ IsBlockLine line
  /-- The blocks of the code are nested. -/
  nested : openAfter? 0 texts.flatten = some 0

theorem of_function_mem_ownStmts {op : Op} {number : Nat}
    (h : .function number ∈ ownStmts o p table position op) :
    op.isOpener = true ∧ number = p.ordinal position := by
  rcases op.nesting_cases with rfl | ⟨offset, rfl⟩ | rfl | hplain
  · rw [ownStmts] at h
    split at h
    · contradiction
    · simp at h
  · exact ⟨rfl, by simpa [ownStmts] using h⟩
  · exact ⟨rfl, by simpa [ownStmts] using h⟩
  · rw [ownStmts_plain hplain] at h
    have := isBlockPart_of_mem_plainStmts hplain h
    contradiction

theorem of_call_mem_ownStmts {op : Op} {number : Nat}
    (h : .call number ∈ ownStmts o p table position op) :
    op = .close ∧ ∃ start, table[position]? = some start ∧ number = p.ordinal start := by
  rcases op.nesting_cases with rfl | ⟨offset, rfl⟩ | rfl | hplain
  · rw [ownStmts] at h
    split at h
    · contradiction
    · next start hstart => exact ⟨rfl, start, hstart, by simpa using h⟩
  · simp [ownStmts] at h
  · simp [ownStmts] at h
  · rw [ownStmts_plain hplain] at h
    have := isBlockPart_of_mem_plainStmts hplain h
    contradiction

/-- The lines of the instructions, if a block has a function of its own number. -/
def ownTexts (o : Options) (p : Program) (table : Jumps) : List (List String) :=
  (ownGroups o p table 0 p).map (·.map (·.render))

theorem getElem?_ownTexts (k : Nat) :
    (ownTexts o p table)[k]? =
      p[k]?.map fun i => (ownStmts o p table k i.op).map (·.render) := by
  rw [ownTexts, List.getElem?_map, getElem?_ownGroups, Option.map_map]
  rfl

theorem flatten_ownTexts :
    (ownTexts o p table).flatten = (ownGroups o p table 0 p).flatten.map (·.render) := by
  rw [ownTexts, List.map_flatten]

theorem declarationLine_mem_iff {body : List Stmt} {number : Nat} :
    declarationLine number ∈ body.map (·.render) ↔ .function number ∈ body := by
  simp [List.mem_map, Stmt.render_eq_declarationLine_iff]

theorem callLine_mem_iff {body : List Stmt} {number : Nat} :
    callLine number ∈ body.map (·.render) ↔ .call number ∈ body := by
  simp [List.mem_map, Stmt.render_eq_callLine_iff]

theorem callsOwn_ownTexts (o : Options) (hp : p.Nested 0) (htable : ofProgram p = .ok table) :
    CallsOwn p table (ownTexts o p table) := by
  have hwalk := walk_ofProgram htable hp
  refine ⟨by simp [ownTexts, ownGroups], ?declared, ?block, ?only, ?ends, ?plain, ?nested⟩
  case declared =>
    rw [flatten_ownTexts, Stmt.filter_isDeclaration_render, declared_of_walk hwalk]
    rfl
  case block =>
    intro start i hi hop
    obtain ⟨stop, hjoins⟩ := hwalk.exists_stop (Nat.zero_le start) hi hop
    obtain ⟨opening, hopening, hstmts⟩ := ownStmts_opener o p table start hop
    obtain ⟨last, hlast, hclose⟩ := hjoins.ends
    refine ⟨stop, opening.render, hjoins, ?_, ?_, ?_⟩
    · rw [← map_render_opening?, hopening, Option.map_some]
    · rw [getElem?_ownTexts, hi, Option.map_some, hstmts, List.map_cons, List.map_singleton,
        Stmt.render_function]
    · rw [getElem?_ownTexts, hlast, Option.map_some, hclose, ownStmts_close hjoins.back,
        List.map_cons, List.map_cons, List.map_singleton, Stmt.render_call]
      rfl
  case only =>
    intro start stop k body hjoins hbody
    obtain ⟨i, hi, hop⟩ := hjoins.opens
    rw [getElem?_ownTexts] at hbody
    obtain ⟨j, hj, rfl⟩ := Option.map_eq_some_iff.mp hbody
    constructor
    · intro hmem
      obtain ⟨hop', heq⟩ := of_function_mem_ownStmts (declarationLine_mem_iff.mp hmem)
      exact Program.eq_of_ordinal_eq hj hop' hi hop heq.symm
    · intro hmem
      obtain ⟨hclose, start', hback, heq⟩ := of_call_mem_ownStmts (callLine_mem_iff.mp hmem)
      obtain ⟨start'', hjoins'⟩ := hwalk.exists_start (Nat.zero_le k) hj hclose
      obtain rfl : start' = start'' := Option.some.inj (hback.symm.trans hjoins'.back)
      -- Both blocks have the same number, so they are one, which has one end.
      obtain ⟨i', hi', hop'⟩ := hjoins'.opens
      obtain rfl := Program.eq_of_ordinal_eq hi' hop' hi hop heq.symm
      exact Option.some.inj (hjoins'.forth.symm.trans hjoins.forth)
  case ends =>
    intro stop i hi hop
    exact hwalk.exists_start (Nat.zero_le stop) hi hop
  case plain =>
    intro k i body hi hop hbody line hline
    rw [getElem?_ownTexts, hi, Option.map_some, ownStmts_plain hop] at hbody
    cases hbody
    obtain ⟨s, hs, rfl⟩ := List.mem_map.mp hline
    exact Stmt.not_isBlockLine_render (isBlockPart_of_mem_plainStmts hop hs)
  case nested =>
    rw [flatten_ownTexts, Stmt.openAfter?_render]
    exact depthAfter?_of_walk hwalk

/-- The code of a program whose depths follow its nesting, when bodies are made functions. -/
theorem exists_callsOwn (ho : o.functions = true) (hp : p.Nested 0) :
    ∃ table groups next, ofProgram p = .ok table ∧ emit o .start p = .ok (groups, ⟨next, []⟩) ∧
      o.print p = .ok ((if o.header then header o else "") ++
        laidOut p (groups.map (·.map (·.render)))) ∧
      CallsOwn p table (groups.map (·.map (·.render))) := by
  obtain ⟨table, htable⟩ := exists_ofProgram_iff.mpr (Program.exists_nest_iff.mp ⟨p, hp⟩)
  obtain ⟨next, hemit⟩ := emit_of_walk ho (walk_ofProgram htable hp)
  refine ⟨table, ownGroups o p table 0 p, next, htable, hemit, ?_, callsOwn_ownTexts o hp htable⟩
  have hlines : lines o .start p = .ok (indented p (ownGroups o p table 0 p)) := by
    rw [lines_eq_emit]
    exact congrArg (Except.map fun r => indented p r.1) hemit
  rw [Options.print, code, hlines, ← join_indented]
  rfl

end Lua

namespace Options

variable {o : Options} {text : List Char} {l : Lowered}

theorem result_compile (hl : o.lower text = .ok l) :
    (o.compile text).result =
      match o.optimize l.program with
      | .error e => .error e
      | .ok r => o.print r.program := by
  unfold compile build
  rw [hl]
  dsimp only
  cases o.optimize l.program <;> rfl

/-- Bodies made functions. For a text whose brackets match, the function of a block is found at the
end of the block, whatever the optimiser did to the blocks, and none is left over. Of the lines of
the code, those that declare a function, call it and end its block are given as they are printed. -/
theorem blocks_call_own_functions (o : Options) (ho : o.functions = true) {text : List Char}
    (h : Source.WellNested text) :
    (∀ e, (o.compile text).result ≠ .error (.noFunction e)) ∧
      Function.Injective Lua.callLine ∧
      ∃ l, o.lower text = .ok l ∧ ∀ r, o.optimize l.program = .ok r →
        ∃ table groups next, Jumps.ofProgram r.program = .ok table ∧
          Lua.emit o .start r.program = .ok (groups, ⟨next, []⟩) ∧
          (o.compile text).result = .ok ((if o.header then Lua.header o else "") ++
            Lua.laidOut r.program (groups.map (·.map (·.render)))) ∧
          Lua.CallsOwn r.program table (groups.map (·.map (·.render))) := by
  obtain ⟨l, hl, _⟩ := o.exists_lower h
  have hregular {r : Optimized} (hr : o.optimize l.program = .ok r) : r.program.Regular :=
    (rewritesTo_of_optimize hr).regular (regular_of_lower hl)
  refine ⟨fun e herror => ?_, Lua.callLine_injective, l, hl, fun r hr => ?_⟩
  · rw [result_compile hl] at herror
    cases hr : o.optimize l.program with
    | error e' =>
      obtain ⟨_, limit, rfl⟩ := of_optimize_eq_error hr
      simp [hr] at herror
    | ok r =>
      obtain ⟨_, _, _, _, _, hprint, _⟩ := Lua.exists_callsOwn ho (hregular hr).nested
      simp [hr, hprint] at herror
  · obtain ⟨table, groups, next, htable, hemit, hprint, hcalls⟩ :=
      Lua.exists_callsOwn ho (hregular hr).nested
    refine ⟨table, groups, next, htable, hemit, ?_, hcalls⟩
    rw [result_compile hl, hr]
    exact hprint

/-- One inner loop has become a transfer and the other a block that runs at most once, which has the
second function then. -/
theorem blocks_call_own_functions_nested :
    Source.WellNested ['[', '[', '-', '>', '+', '<', ']', '>', '[', '.', '[', '-', ']', ']', ']'] ∧
      ∃ l r, lower ⟨.full, 256, false, true, false, none⟩
          ['[', '[', '-', '>', '+', '<', ']', '>', '[', '.', '[', '-', ']', ']', ']'] = .ok l ∧
        optimize ⟨.full, 256, false, true, false, none⟩ l.program = .ok r ∧
        r.program.ops = [.loop 0, .addTo 1 1 0, .assign 0 0, .move .right 1, .once, .write 0 0,
          .assign 0 0, .close, .close] ∧
        (compile ⟨.full, 256, false, true, false, none⟩
          ['[', '[', '-', '>', '+', '<', ']', '>', '[', '.', '[', '-', ']', ']', ']']).result = .ok
            ("while data[ptr] ~= 0 do\n" ++ "local function loop1()\n" ++
              "\tdata[ptr + 1] = (data[ptr + 1] + data[ptr]) % max\n" ++
              "\tdata[ptr] = 0\n" ++ "\tptr = ptr + 1\n" ++
              "\tif data[ptr] ~= 0 then\n" ++ "\tlocal function loop2()\n" ++
              "\t\tio.write(string.char(data[ptr]))\n" ++ "\t\tdata[ptr] = 0\n" ++
              "\tend\n" ++ "\tloop2()\n" ++ "\tend\n" ++
              "end\n" ++ "loop1()\n" ++ "end\n") ∧
        ∃ table, Jumps.ofProgram r.program = .ok table ∧
          Lua.CallsOwn r.program table
            [["while data[ptr] ~= 0 do", "local function loop1()"],
              ["data[ptr + 1] = (data[ptr + 1] + data[ptr]) % max"], ["data[ptr] = 0"],
              ["ptr = ptr + 1"], ["if data[ptr] ~= 0 then", "local function loop2()"],
              ["io.write(string.char(data[ptr]))"], ["data[ptr] = 0"],
              ["end", "loop2()", "end"], ["end", "loop1()", "end"]] := by
  have hnested : Source.WellNested
      ['[', '[', '-', '>', '+', '<', ']', '>', '[', '.', '[', '-', ']', ']', ']'] := by decide
  obtain ⟨_, _, l, hl, hcalls⟩ :=
    blocks_call_own_functions ⟨.full, 256, false, true, false, none⟩ rfl hnested
  have hlower : lower ⟨.full, 256, false, true, false, none⟩
      ['[', '[', '-', '>', '+', '<', ']', '>', '[', '.', '[', '-', ']', ']', ']'] =
      .ok ⟨['[', '[', '-', '>', '+', '<', ']', '>', '[', '.', '0', ']', ']'],
        [⟨0, .loop 0⟩, ⟨1, .loop 0⟩, ⟨2, .adjust .minus 1 0⟩, ⟨2, .move .right 1⟩,
          ⟨2, .adjust .plus 1 0⟩, ⟨2, .move .left 1⟩, ⟨1, .close⟩, ⟨1, .move .right 1⟩,
          ⟨1, .loop 0⟩, ⟨2, .write 0 0⟩, ⟨2, .assign 0 0⟩, ⟨1, .close⟩, ⟨0, .close⟩]⟩ := by
    decide +kernel
  have hoptimize : optimize ⟨.full, 256, false, true, false, none⟩ l.program =
      .ok ⟨[⟨0, .loop 0⟩, ⟨1, .addTo 1 1 0⟩, ⟨1, .assign 0 0⟩, ⟨1, .move .right 1⟩, ⟨1, .once⟩,
        ⟨2, .write 0 0⟩, ⟨2, .assign 0 0⟩, ⟨1, .close⟩, ⟨0, .close⟩], some 3⟩ := by
    cases hlower.symm.trans hl
    decide +kernel
  obtain ⟨table, groups, _, htable, hemit, _, hgroups⟩ := hcalls _ hoptimize
  cases hemit
  exact ⟨hnested, l, _, hl, hoptimize, rfl, by decide +kernel, table, htable, hgroups⟩

end Options

end Brainfuck
