import Brainfuck.Proofs.Lua.Parsed
import Brainfuck.Proofs.Lua.Running

/-! The header. It is read as the statements that define the tape, the modulus and the function that
dumps, and this function writes what the machine dumps. -/

namespace Brainfuck.Lua

open Brainfuck.Lua.Parser

/-- The text of the cell at `ptr + i` in the given format, written out. -/
def writeCell (format : String) : Command :=
  .evaluate (.call "io.write" (.call₂ "string.format" (.text format)
    (.index "data" (.binary .add (.var "ptr") (.var "i")))))

def dumpCell : Command :=
  .ifElse (.binary .eq (.var "i") (.number 0)) [writeCell "[%03d] "] [writeCell "%03d "]

/-- The body of the function that dumps the cells around the pointer. -/
def dumpBody : List Command :=
  [.evaluate (.call "io.write" (.binary .concat (.var "ptr") (.text ": "))),
    .forTo "i" (.negate (.number 8)) (.number 8) [dumpCell],
    .evaluate (.call "io.write" (.text "\n"))]

/-- The statements of the header. -/
def prologue (o : Options) : List Command :=
  [.assign "data" (.call₂ "setmetatable" .emptyTable (.fallbackTable 0)),
    .assign "ptr" (.number 1)] ++
  (if o.modulus = 0 then [] else [.assign "max" (.number o.modulus)]) ++
  (if o.debugging then [.function "bf_debug" dumpBody] else [])

namespace Spells

theorem empty : Spells "" [] where
  begins := fun _ h => h
  finish_eq := fun _ _ _ _ => rfl

theorem newline : Spells "\n" [] where
  begins := fun _ h => h
  finish_eq := fun _ _ _ _ => rfl

/-- A statement is complete when the next one begins. -/
theorem single {c : Command} (text : String) (e : Term) (frames : List Frame)
    (hbegins : ∀ rest, Begins (lex (text.toList ++ rest)))
    (hread : ∀ outer done rest, finish (atStart outer done) (lex (text.toList ++ rest)) =
      finish ⟨outer, done, frames, .after e⟩ (lex rest))
    (hcomplete : ∀ p : Parser, p.complete? e frames = some (p.add c)) : Spells text [c] where
  begins := fun rest _ => hbegins rest
  finish_eq := fun _ _ _ hrest => (hread ..).trans (finish_complete hrest (hcomplete _))

/-- A block is read as what it opens, with the statements between its first and its last line. -/
theorem block {body : String} {cs : List Command} (hbody : Spells body cs) (first last : String)
    (opened : Opened) (hbegins : ∀ rest, Begins (lex (first.toList ++ rest)))
    (hfirst : ∀ outer done rest, Begins (lex rest) →
      finish (atStart outer done) (lex (first.toList ++ rest)) =
        finish (atStart ((opened, done) :: outer) []) (lex rest))
    (hlast : ∀ rest, lex (last.toList ++ rest) = .word "end" :: lex rest) :
    Spells (first ++ body ++ last) [opened.command cs] where
  begins := by
    intro rest _
    rw [String.toList_append, String.toList_append, List.append_assoc, List.append_assoc]
    exact hbegins _
  finish_eq := by
    intro outer done rest _
    have hend : Begins (lex (last.toList ++ rest)) := by
      rw [hlast]
      exact ⟨"end", rfl, by decide⟩
    rw [String.toList_append, String.toList_append, List.append_assoc, List.append_assoc,
      hfirst _ _ _ (hbody.begins _ hend), hbody.finish_eq _ _ _ hend, hlast, List.append_nil]
    show finish (atStart outer (opened.command cs.reverse.reverse :: done)) _ = _
    rw [List.reverse_reverse]
    rfl

end Spells

theorem spells_tape :
    Spells ("-- generated by bfl\n" ++
      "data = setmetatable(\x7b\x7d, \x7b__index = function() return 0 end\x7d)\n" ++
      "ptr = 1\n")
      [.assign "data" (.call₂ "setmetatable" .emptyTable (.fallbackTable 0)),
        .assign "ptr" (.number 1)] := by
  have hdata : Spells _ [.assign "data" (.call₂ "setmetatable" .emptyTable (.fallbackTable 0))] :=
    .single ("-- generated by bfl\n" ++
        "data = setmetatable(\x7b\x7d, \x7b__index = function() return 0 end\x7d)\n")
      (.call₂ "setmetatable" .emptyTable (.fallbackTable 0)) [.assign "data"]
      (fun _ => ⟨"data", rfl, by decide⟩) (fun _ _ _ => rfl) fun _ => rfl
  have hptr : Spells _ [.assign "ptr" (.number 1)] :=
    .single "ptr = 1\n" (.number 1) [.assign "ptr"] (fun _ => ⟨"ptr", rfl, by decide⟩)
      (fun _ _ _ => rfl) fun _ => rfl
  exact hdata.append hptr

theorem spells_max (n : Nat) :
    Spells ("max = " ++ Decimal.natural n ++ "\n") [.assign "max" (.number n)] := by
  have hlex (rest : List Char) : lex (("max = " ++ Decimal.natural n ++ "\n").toList ++ rest) =
      .word "max" :: .symbol "=" :: .number n :: lex rest := by
    rw [String.toList_append, String.toList_append, List.append_assoc, List.append_assoc]
    exact congrArg ([Token.word "max", .symbol "="] ++ ·)
      (Lexer.scan_natural n (c := '\n') rfl rest)
  refine .single _ (.number n) [.assign "max"] (fun rest => ?_) (fun outer done rest => ?_)
    fun _ => rfl
  · rw [hlex]
    exact ⟨"max", rfl, by decide⟩
  · rw [hlex]
    rfl

/-- A line that writes a value. -/
theorem spells_write (text : String) (a : Term)
    (hbegins : ∀ rest, Begins (lex (text.toList ++ rest)))
    (hread : ∀ outer done rest, finish (atStart outer done) (lex (text.toList ++ rest)) =
      finish ⟨outer, done, [], .after (.call "io.write" a)⟩ (lex rest)) :
    Spells text [.evaluate (.call "io.write" a)] :=
  .single text (.call "io.write" a) [] hbegins hread fun _ => rfl

theorem spells_dumpCell :
    Spells ("\t\tif i == 0 then\n" ++
      "\t\t\tio.write(string.format(\"[%03d] \", data[ptr + i]))\n" ++
      "\t\telse\n" ++
      "\t\t\tio.write(string.format(\"%03d \", data[ptr + i]))\n" ++
      "\t\tend\n") [dumpCell] := by
  have hyes := spells_write "\t\t\tio.write(string.format(\"[%03d] \", data[ptr + i]))\n"
    (.call₂ "string.format" (.text "[%03d] ")
      (.index "data" (.binary .add (.var "ptr") (.var "i"))))
    (fun _ => ⟨"io", rfl, by decide⟩) fun _ _ _ => rfl
  have hno := spells_write "\t\t\tio.write(string.format(\"%03d \", data[ptr + i]))\n"
    (.call₂ "string.format" (.text "%03d ")
      (.index "data" (.binary .add (.var "ptr") (.var "i"))))
    (fun _ => ⟨"io", rfl, by decide⟩) fun _ _ _ => rfl
  refine hno.block ("\t\tif i == 0 then\n" ++
      "\t\t\tio.write(string.format(\"[%03d] \", data[ptr + i]))\n" ++ "\t\telse\n") "\t\tend\n"
    (.ifElse (.binary .eq (.var "i") (.number 0)) [writeCell "[%03d] "])
    (fun _ => ⟨"if", rfl, by decide⟩) (fun outer done rest hrest => ?_) fun _ => rfl
  have hthen (r : List Char) :
      finish (atStart outer done) (lex ("\t\tif i == 0 then\n".toList ++ r)) =
        finish (atStart ((.ifThen (.binary .eq (.var "i") (.number 0)), done) :: outer) [])
          (lex r) :=
    rfl
  have helse : Begins (lex ("\t\telse\n".toList ++ rest)) := ⟨"else", rfl, by decide⟩
  rw [String.toList_append, String.toList_append, List.append_assoc, List.append_assoc, hthen,
    hyes.finish_eq _ _ _ helse]
  rfl

theorem spells_dump :
    Spells ("function bf_debug()\n" ++
      "\tio.write(ptr .. \": \")\n" ++
      "\tfor i = -8, 8 do\n" ++
      "\t\tif i == 0 then\n" ++
      "\t\t\tio.write(string.format(\"[%03d] \", data[ptr + i]))\n" ++
      "\t\telse\n" ++
      "\t\t\tio.write(string.format(\"%03d \", data[ptr + i]))\n" ++
      "\t\tend\n" ++
      "\tend\n" ++
      "\tio.write(\"\\n\")\n" ++
      "end\n") [.function "bf_debug" dumpBody] := by
  have hptr := spells_write "\tio.write(ptr .. \": \")\n"
    (.binary .concat (.var "ptr") (.text ": ")) (fun _ => ⟨"io", rfl, by decide⟩)
    fun _ _ _ => rfl
  have hcells := spells_dumpCell.block "\tfor i = -8, 8 do\n" "\tend\n"
    (.forTo "i" (.negate (.number 8)) (.number 8)) (fun _ => ⟨"for", rfl, by decide⟩)
    (fun _ _ _ _ => rfl) fun _ => rfl
  have hnewline := spells_write "\tio.write(\"\\n\")\n" (.text "\n")
    (fun _ => ⟨"io", rfl, by decide⟩) fun _ _ _ => rfl
  have hdump : Spells _ [.function "bf_debug" dumpBody] :=
    ((hptr.append hcells).append hnewline).block "function bf_debug()\n" "end\n"
      (.function "bf_debug") (fun _ => ⟨"function", rfl, by decide⟩) (fun _ _ _ _ => rfl)
      fun _ => rfl
  simpa only [String.append_assoc] using hdump

/-- The header is read as its statements. -/
theorem spells_header (o : Options) : Spells (header o) (prologue o) := by
  have hmax : Spells (if o.modulus = 0 then "" else "max = " ++ Decimal.natural o.modulus ++ "\n")
      (if o.modulus = 0 then [] else [.assign "max" (.number o.modulus)]) := by
    split
    · exact .empty
    · exact spells_max o.modulus
  rw [← List.append_nil (prologue o)]
  refine (((spells_tape.append hmax).append ?_).append .newline)
  split
  · exact spells_dump
  · exact .empty

theorem bytesOf_append (s t : String) : bytesOf (s ++ t) = bytesOf s ++ bytesOf t := by
  simp [bytesOf]

theorem bytesOf_join (ss : List String) : bytesOf (String.join ss) = ss.flatMap bytesOf := by
  induction ss with
  | nil => rfl
  | cons s ss ih => rw [String.join_cons, bytesOf_append, ih, List.flatMap_cons]

section Dump

variable {m : Int} {w : World} {t : Tape m}

theorem exec_writeCell (hw : w.HasTape t) {format : String} {i : Int} {s : List UInt8}
    (hformat : format? (t.get (t.ptr + i)) (bytesOf format) = some s) (budget : Nat) :
    exec (budget + 1) [writeCell format] [.value "i" i] w = .finished (w.emit s) := by
  have hposition : eval [.value "i" i] w (.binary .add (.var "ptr") (.var "i")) =
      .ok (.int (t.ptr + i), w) :=
    eval_binary (by decide) (eval_var hw.ptr) (eval_var rfl) rfl
  have htable : w.lookup [.value "i" i] "data" = .table fun i => .int (t.get i) := hw.data
  have hcell := eval_index hposition htable
  have htext : eval [.value "i" i] w (.text format) = .ok (.bytes (bytesOf format), w) := rfl
  have hbytes : library₂ "string.format" (.bytes (bytesOf format)) (.int (t.get (t.ptr + i))) =
      .ok (.bytes s) := by
    simp only [library₂, hformat]
  have hwrite : library w "io.write" (.bytes s) = .ok (.nil, w.emit s) := rfl
  exact (exec_call (eval_call (eval_call₂ htext hcell hbytes) hwrite) budget []).trans
    (exec_nil budget)

theorem exec_dumpCell (hw : w.HasTape t) (i : Int) (budget : Nat) :
    exec (budget + 2) [dumpCell] [.value "i" i] w =
      .finished (w.emit (bytesOf (t.renderCell (t.ptr + i)))) := by
  have hcondition : eval [.value "i" i] w (.binary .eq (.var "i") (.number 0)) =
      .ok (.bool (i = 0), w) :=
    eval_binary (by decide) (eval_var rfl) rfl rfl
  rw [dumpCell, exec]
  simp only [hcondition]
  unfold Tape.renderCell
  by_cases hi : i = 0
  · rw [if_pos (by simp [hi, Value.isTrue]), if_pos (by omega), bytesOf_append, bytesOf_append,
      List.append_assoc, exec_writeCell hw rfl]
    exact exec_nil _
  · rw [if_neg (by simp [hi, Value.isTrue]), if_neg (by omega), bytesOf_append,
      exec_writeCell hw rfl]
    exact exec_nil _

theorem exec_dumpCells (hw : w.HasTape t) (values : List Int) (budget : Nat)
    (rest : List Command) :
    exec (budget + values.length + 3) (.forEach "i" values [dumpCell] :: rest) [] w =
      exec (budget + 2) rest []
        (w.emit (values.flatMap fun i => bytesOf (t.renderCell (t.ptr + i)))) := by
  induction values generalizing w with
  | nil => rfl
  | cons i values ih =>
    rw [List.length_cons, ← Nat.add_assoc, exec, exec_dumpCell hw, Result.andThen,
      Nat.add_right_comm _ 1 2, ih (hw.emit _), World.emit_emit, List.flatMap_cons]

theorem bytesOf_render (t : Tape m) :
    bytesOf (t.render ++ "\n") = bytesOf (Decimal.signed t.ptr) ++ bytesOf ": " ++
      (upTo (-8) 8).flatMap (fun i => bytesOf (t.renderCell (t.ptr + i))) ++ bytesOf "\n" := by
  have hcells : (List.range 17).map (fun (k : Nat) => t.renderCell (t.ptr - 8 + k)) =
      (upTo (-8) 8).map fun i => t.renderCell (t.ptr + i) := by
    rw [upTo, List.map_map]
    refine List.map_congr_left fun k _ => congrArg t.renderCell ?_
    show t.ptr - 8 + (k : Int) = t.ptr + (-8 + (k : Int))
    omega
  rw [Tape.render, bytesOf_append, bytesOf_append, bytesOf_append, bytesOf_join, hcells,
    List.flatMap_map]

/-- The function writes what the machine dumps. -/
theorem exec_dumpBody (hw : w.HasTape t) :
    ∃ budget, exec budget dumpBody [] w = .finished (w.emit (bytesOf (t.render ++ "\n"))) := by
  have hptr : eval [] w (.call "io.write" (.binary .concat (.var "ptr") (.text ": "))) =
      .ok (.nil, w.emit (bytesOf (Decimal.signed t.ptr) ++ bytesOf ": ")) :=
    eval_call (eval_binary (by decide) (eval_var hw.ptr) rfl rfl) rfl
  have hcells := exec_dumpCells (hw.emit (bytesOf (Decimal.signed t.ptr) ++ bytesOf ": "))
    (upTo (-8) 8) 0 [.evaluate (.call "io.write" (.text "\n"))]
  refine ⟨22, (exec_call hptr 21 _).trans (hcells.trans ?_)⟩
  rw [bytesOf_render, World.emit_emit, ← World.emit_emit _ _ (bytesOf "\n")]
  rfl

end Dump

/-- The modulus and the function that dumps are defined. -/
structure World.Ready (o : Options) (w : World) : Prop where
  max : o.modulus ≠ 0 → w.globals "max" = .int o.modulus
  dump : o.debugging = true → w.globals "bf_debug" = .function dumpBody []

/-- What the header defines. -/
def World.prepared (o : Options) (w : World) : World :=
  let tape := (w.set "data" (.table fun _ => .int 0)).set "ptr" (.int 1)
  let limited := if o.modulus = 0 then tape else tape.set "max" (.int o.modulus)
  if o.debugging then limited.set "bf_debug" (.function dumpBody []) else limited

/-- A run that begins with the header goes on from what the header defines. -/
theorem exec_prologue (o : Options) (w : World) (budget : Nat) (rest : List Command) :
    exec (budget + (prologue o).length) (prologue o ++ rest) [] w =
      exec budget rest [] (w.prepared o) := by
  unfold prologue World.prepared
  split
  · split <;> rfl
  · split <;> rfl

theorem ready_prepared (o : Options) (w : World) : (w.prepared o).Ready o where
  max := by
    intro hm
    cases hd : o.debugging <;> simp [World.prepared, hm, hd, World.set]
  dump := by
    intro hd
    simp [World.prepared, hd, World.set]

/-- The header leaves an empty tape. -/
theorem shows_prepared (o : Options) (w : World) :
    (w.prepared o).Shows ⟨Tape.empty o.modulus, w.input, some w.output⟩ := by
  have hdata : (Value.table fun _ => .int 0) =
      .table fun i => .int ((Tape.empty o.modulus).get i) := by
    simp
  unfold World.prepared
  split
  · split <;> exact ⟨⟨hdata, rfl⟩, rfl, rfl⟩
  · split <;> exact ⟨⟨hdata, rfl⟩, rfl, rfl⟩

end Brainfuck.Lua
