import Brainfuck.Proofs.Lua.Printed

/-! Printed code read back. The parentheses that are printed are those that the priorities ask for,
so that every expression is read as the tree it was printed from. -/

namespace Brainfuck.Lua

namespace Parser

/-- The end of reading `ts` from `p`, with the last statement completed. -/
def finish (p : Parser) (ts : List Token) : Option Parser := (p.run? ts).bind settle?

theorem finish_cons (p : Parser) (t : Token) (ts : List Token) :
    p.finish (t :: ts) = (p.step? t).bind (·.finish ts) := by
  cases h : p.step? t <;> simp [finish, run?, h]

/-- How strongly a token takes the operand before it. -/
def priority (t : Token) : Nat := (Binary.ofToken? t).elim 0 Binary.left

/-- An expression that holds together at `level` may end before these tokens. -/
def Follows (level : Nat) : List Token → Prop
  | [] => True
  | t :: _ => t ∉ [.symbol ".", .symbol "[", .symbol "("] ∧ priority t ≤ level

theorem Follows.mono {level level' : Nat} {ts : List Token} (h : Follows level ts)
    (hl : level ≤ level') : Follows level' ts := by
  cases ts with
  | nil => trivial
  | cons t ts => exact ⟨h.1, Nat.le_trans h.2 hl⟩

/-- What follows an operand depends only on what is made of the operand then. -/
theorem resume?_congr {outer : List (Opened × List Command)} {done : List Command}
    {a b : Term} {as bs : List Frame} {p q : Stage} {t : Token}
    (h : reduce (priority t) a as = reduce (priority t) b bs) :
    resume? ⟨outer, done, as, p⟩ a t = resume? ⟨outer, done, bs, q⟩ b t := by
  unfold resume?
  unfold priority at h
  cases hop : Binary.ofToken? t with
  | some op =>
    rw [hop, Option.elim_some] at h
    simp only [h]
  | none =>
    rw [hop, Option.elim_none] at h
    simp only [h, complete?, enter, add]

theorem finish_after_congr {outer : List (Opened × List Command)} {done : List Command}
    {a b : Term} {as bs : List Frame} {level : Nat} {ts : List Token} (hts : Follows level ts)
    (h : ∀ n ≤ level, reduce n a as = reduce n b bs) :
    finish ⟨outer, done, as, .after a⟩ ts = finish ⟨outer, done, bs, .after b⟩ ts := by
  cases ts with
  | nil =>
    simp only [finish, run?, Option.bind_some, settle?, h 0 (Nat.zero_le _)]
    rfl
  | cons t ts =>
    rw [finish_cons, finish_cons]
    exact congrArg (Option.bind · (finish · ts)) (resume?_congr (h _ hts.2))

/-- A name that is not continued is an operand. -/
theorem finish_named {outer : List (Opened × List Command)} {done : List Command} {x : String}
    {frames : List Frame} {level : Nat} {ts : List Token} (hts : Follows level ts) :
    finish ⟨outer, done, frames, .named x⟩ ts =
      finish ⟨outer, done, frames, .after (.var x)⟩ ts := by
  cases ts with
  | nil => rfl
  | cons t ts =>
    obtain ⟨ht, -⟩ := hts
    simp only [List.mem_cons, List.not_mem_nil, or_false, not_or] at ht
    have hstep : step? ⟨outer, done, frames, .named x⟩ t =
        resume? ⟨outer, done, frames, .named x⟩ (.var x) t := by
      unfold step?
      split <;> simp_all
    rw [finish_cons, finish_cons, hstep]
    exact congrArg (Option.bind · (finish · ts)) (resume?_congr rfl)

/-- The frames do not hold an operand that is taken with at least the strength `level`. -/
def Loose (level : Nat) : List Frame → Prop
  | .binary op _ :: _ => op.right < level
  | .negate :: _ => unaryPriority < level
  | _ => True

theorem Loose.mono {level level' : Nat} {frames : List Frame} (h : Loose level frames)
    (hl : level ≤ level') : Loose level' frames := by
  unfold Loose at h ⊢
  split at h
  · exact Nat.lt_of_lt_of_le h hl
  · exact Nat.lt_of_lt_of_le h hl
  · trivial

theorem reduce_of_loose {level : Nat} {frames : List Frame} (h : Loose level frames) (e : Term) :
    reduce level e frames = (e, frames) := by
  unfold reduce
  split
  · exact if_neg (Nat.not_le_of_lt h)
  · exact if_neg (Nat.not_le_of_lt h)
  · rfl

theorem finish_binary {outer : List (Opened × List Command)} {done : List Command}
    {op : Binary} {a b : Term} {frames : List Frame} {ts : List Token} (hts : Follows op.right ts) :
    finish ⟨outer, done, .binary op a :: frames, .after b⟩ ts =
      finish ⟨outer, done, frames, .after (.binary op a b)⟩ ts := by
  refine finish_after_congr hts fun n hn => ?_
  rw [reduce, if_pos hn]

theorem finish_negate {outer : List (Opened × List Command)} {done : List Command}
    {a : Term} {frames : List Frame} {ts : List Token} (hts : Follows unaryPriority ts) :
    finish ⟨outer, done, .negate :: frames, .after a⟩ ts =
      finish ⟨outer, done, frames, .after (.negate a)⟩ ts := by
  refine finish_after_congr hts fun n hn => ?_
  rw [reduce, if_pos hn]

theorem finish_operator {outer : List (Opened × List Command)} {done : List Command}
    {op : Binary} {t : Token} (ht : Binary.ofToken? t = some op) {a : Term} {frames : List Frame}
    (hframes : Loose op.left frames) (ts : List Token) :
    finish ⟨outer, done, frames, .after a⟩ (t :: ts) =
      finish ⟨outer, done, .binary op a :: frames, .operand⟩ ts := by
  rw [finish_cons]
  show Option.bind (resume? _ _ _) _ = _
  unfold resume?
  simp only [ht, reduce_of_loose hframes, Option.bind_some]

/-- The tokens are read as an operand `e`, if neither side takes a part of it. -/
def Reads (level : Nat) (ts : List Token) (e : Term) : Prop :=
  ∀ (outer : List (Opened × List Command)) (done : List Command) (frames : List Frame)
    (rest : List Token), Loose level frames → Follows level rest →
      finish ⟨outer, done, frames, .operand⟩ (ts ++ rest) =
        finish ⟨outer, done, frames, .after e⟩ rest

theorem Reads.binary {op : Binary} {t : Token} (ht : Binary.ofToken? t = some op) {la lb : Nat}
    {as bs : List Token} {a b : Term} (ha : Reads la as a) (hb : Reads lb bs b)
    (hla : op.left ≤ la) (hlb : op.right < lb) (hop : op.left = op.right) :
    Reads op.left (as ++ t :: bs) (.binary op a b) := by
  intro outer done frames rest hframes hrest
  have hfollows : Follows la (t :: (bs ++ rest)) := by
    refine ⟨?_, ?_⟩
    · intro hmem
      simp only [List.mem_cons, List.not_mem_nil, or_false] at hmem
      rcases hmem with rfl | rfl | rfl <;> contradiction
    · rwa [priority, ht, Option.elim_some]
  have hloose : Loose lb (.binary op a :: frames) := hlb
  rw [List.append_assoc, List.cons_append, ha _ _ _ _ (hframes.mono hla) hfollows,
    finish_operator ht hframes, hb _ _ _ _ hloose (hrest.mono (by omega))]
  exact finish_binary (hop ▸ hrest)

end Parser

/-- The literal for an integer. -/
def literal (n : Int) : Term := if n < 0 then .negate (.number n.natAbs) else .number n.natAbs

namespace Expr

/-- The position of the cell `offset` away from the pointer. -/
def position (offset : Int) : Term :=
  if offset > 0 then .binary .add (.var "ptr") (literal offset)
  else if offset < 0 then .binary .sub (.var "ptr") (literal (-offset))
  else .var "ptr"

/-- The tree of an expression. -/
def term : Expr → Term
  | int n => literal n
  | cell offset => .index "data" (position offset)
  | max => .var "max"
  | readByte => .call "string.byte" (.binary .or (.call "io.read" (.number 1)) (.text "\x00"))
  | neg e => .negate e.term
  | add a b => .binary .add a.term b.term
  | sub a b => .binary .sub a.term b.term
  | mul a b => .binary .mul a.term b.term
  | mod a b => .binary .mod a.term b.term
  | paren e => e.term

open Brainfuck.Lua.Parser

theorem le_level_int (n : Int) : unaryPriority ≤ (int n).level := by
  rw [level]
  split <;> omega

theorem reads_signedTokens (n : Int) : Reads (int n).level (signedTokens n) (literal n) := by
  intro outer done frames rest _ hrest
  rw [level] at hrest
  unfold signedTokens literal
  split
  · next hn =>
    rw [if_pos hn] at hrest
    exact finish_negate hrest
  · rfl

/-- A cell is read in one piece whatever comes before and after it. -/
theorem finish_cellTokens (offset : Int) (outer : List (Opened × List Command))
    (done : List Command) (frames : List Frame) (rest : List Token) :
    finish ⟨outer, done, frames, .operand⟩ (cellTokens offset ++ rest) =
      finish ⟨outer, done, frames, .after (cell offset).term⟩ rest := by
  have hposition (op : Binary) (hop : op.right < unaryPriority) (n : Int) :
      finish ⟨outer, done, .binary op (.var "ptr") :: .index "data" :: frames, .operand⟩
          (signedTokens n ++ .symbol "]" :: rest) =
        finish ⟨outer, done, frames, .after (.index "data" (.binary op (.var "ptr") (literal n)))⟩
          rest := by
    have hloose : Loose (int n).level (.binary op (.var "ptr") :: .index "data" :: frames) :=
      Nat.lt_of_lt_of_le hop (le_level_int n)
    have hend : Follows (int n).level (.symbol "]" :: rest) := ⟨by decide, Nat.zero_le _⟩
    exact (reads_signedTokens n _ _ _ _ hloose hend).trans rfl
  unfold cellTokens term position
  simp only [List.append_assoc, List.cons_append, List.nil_append]
  split
  · exact hposition .add (by decide) offset
  · split
    · exact hposition .sub (by decide) (-offset)
    · rfl

/-- An expression is read as its tree wherever its level lets it stand. -/
theorem reads_tokens {e : Expr} (he : e.Fits) : Reads e.level e.tokens e.term := by
  induction e with
  | int n => exact reads_signedTokens n
  | cell offset => exact fun _ _ _ _ _ _ => finish_cellTokens offset _ _ _ _
  | max => exact fun _ _ _ _ _ hrest => finish_named hrest
  | readByte => exact fun _ _ _ _ _ _ => rfl
  | neg e ih =>
    -- Only a cell is printed after a minus sign, and no operator can take a part of it.
    obtain ⟨offset, rfl⟩ := he
    intro outer done frames rest _ hrest
    exact (finish_cellTokens offset _ _ _ _).trans (finish_negate hrest)
  | add a b iha ihb =>
    obtain ⟨ha, hb, hla, hlb⟩ := he
    exact .binary (t := .symbol "+") rfl (iha ha) (ihb hb) hla hlb rfl
  | sub a b iha ihb =>
    obtain ⟨ha, hb, hla, hlb⟩ := he
    exact .binary (t := .symbol "-") rfl (iha ha) (ihb hb) hla hlb rfl
  | mul a b iha ihb =>
    obtain ⟨ha, hb, hla, hlb⟩ := he
    exact .binary (t := .symbol "*") rfl (iha ha) (ihb hb) hla hlb rfl
  | mod a b iha ihb =>
    obtain ⟨ha, hb, hla, hlb⟩ := he
    exact .binary (t := .symbol "%") rfl (iha ha) (ihb hb) hla hlb rfl
  | paren e ih =>
    intro outer done frames rest _ hrest
    have hloose : Loose e.level (.paren :: frames) := trivial
    have hend : Follows e.level (.symbol ")" :: rest) := ⟨by decide, Nat.zero_le _⟩
    rw [tokens, List.append_assoc]
    exact (ih he _ _ _ _ hloose hend).trans rfl

end Expr

namespace Parser

/-- The tokens begin a statement, or end a block or the text. -/
def Begins : List Token → Prop
  | [] => True
  | t :: _ => ∃ x, t = .word x ∧ x ≠ "or"

theorem ofToken?_word {x : String} (hx : x ≠ "or") : Binary.ofToken? (.word x) = none := by
  unfold Binary.ofToken?
  split <;> simp_all

theorem Begins.follows {ts : List Token} (h : Begins ts) (level : Nat) : Follows level ts := by
  cases ts with
  | nil => trivial
  | cons t ts =>
    obtain ⟨x, rfl, hx⟩ := h
    refine ⟨by simp, ?_⟩
    rw [priority, ofToken?_word hx]
    exact Nat.zero_le _

theorem of_complete? {p q : Parser} {e : Term} {frames : List Frame}
    (h : p.complete? e frames = some q) :
    (∃ c, q = p.add c) ∧
      ((∃ x, frames = [.assign x]) ∨ (∃ x k, frames = [.store x k]) ∨ frames = []) := by
  unfold complete? at h
  split at h
  · cases h
    exact ⟨⟨_, rfl⟩, .inl ⟨_, rfl⟩⟩
  · cases h
    exact ⟨⟨_, rfl⟩, .inr (.inl ⟨_, _, rfl⟩)⟩
  · cases e with
    | invoke f | call f a | call₂ f a b =>
      cases h
      exact ⟨⟨_, rfl⟩, .inr (.inr rfl)⟩
    | _ => contradiction
  · contradiction

/-- A statement that is complete is left for the next one. -/
theorem finish_complete {outer : List (Opened × List Command)} {done : List Command} {e : Term}
    {frames : List Frame} {q : Parser} {ts : List Token} (hts : Begins ts)
    (h : complete? ⟨outer, done, frames, .after e⟩ e frames = some q) :
    finish ⟨outer, done, frames, .after e⟩ ts = q.finish ts := by
  obtain ⟨⟨c, rfl⟩, hframes⟩ := of_complete? h
  have hreduce : reduce 0 e frames = (e, frames) := by
    rcases hframes with ⟨x, rfl⟩ | ⟨x, k, rfl⟩ | rfl <;> rfl
  cases ts with
  | nil =>
    simp only [finish, run?, Option.bind_some, settle?, hreduce, h]
    rfl
  | cons t ts =>
    obtain ⟨x, rfl, hx⟩ := hts
    have hresume : resume? ⟨outer, done, frames, .after e⟩ e (.word x) =
        (add ⟨outer, done, frames, .after e⟩ c).begin? (.word x) := by
      unfold resume?
      simp only [ofToken?_word hx, hreduce]
      rcases hframes with ⟨y, rfl⟩ | ⟨y, k, rfl⟩ | rfl
      · simp [h]
      · simp [h]
      · simp [h]
    rw [finish_cons, finish_cons]
    exact congrArg (Option.bind · (finish · ts)) hresume

end Parser

/-- Whether the cell `offset` away from the pointer is not zero. -/
def isNonzero (offset : Int) : Term :=
  .binary .ne (.index "data" (Expr.position offset)) (.number 0)

namespace Stmt

/-- The statement as a tree, if it is one in itself. -/
def command? : Stmt → Option Command
  | setCell offset value => some (.store "data" (Expr.position offset) value.term)
  | movePtr .left amount => some (.assign "ptr" (.binary .sub (.var "ptr") (literal amount)))
  | movePtr .right amount => some (.assign "ptr" (.binary .add (.var "ptr") (literal amount)))
  | writeByte value => some (.evaluate (.call "io.write" (.call "string.char" value.term)))
  | call number => some (.evaluate (.invoke (functionName number)))
  | dump => some (.evaluate (.invoke "bf_debug"))
  | _ => none

open Brainfuck.Lua.Parser

/-- The block that a statement opens. -/
def opened? : Stmt → Option Opened
  | whileCell offset => some (.whileDo (isNonzero offset))
  | ifCell => some (.ifThen (isNonzero 0))
  | function number => some (.localFunction (functionName number))
  | _ => none

theorem functionName_notMem_reserved (number : Nat) : functionName number ∉ reserved := by
  intro h
  have hname : (functionName number).toList.take 4 = "loop".toList := by
    rw [functionName, String.toList_append]
    rfl
  have hreserved : ∀ x ∈ reserved, x.toList.take 4 ≠ "loop".toList := by decide
  exact hreserved _ h hname

theorem begins_tokens (s : Stmt) (ts : List Token) : Begins (s.tokens ++ ts) := by
  have hcall (number : Nat) : functionName number ≠ "or" := by
    intro h
    exact functionName_notMem_reserved number (by rw [h]; decide)
  cases s with
  | setCell offset value => exact ⟨"data", rfl, by decide⟩
  | movePtr way amount => cases way <;> exact ⟨"ptr", rfl, by decide⟩
  | writeByte value => exact ⟨"io", rfl, by decide⟩
  | whileCell offset => exact ⟨"while", rfl, by decide⟩
  | ifCell => exact ⟨"if", rfl, by decide⟩
  | function number => exact ⟨"local", rfl, by decide⟩
  | call number => exact ⟨functionName number, rfl, hcall number⟩
  | close => exact ⟨"end", rfl, by decide⟩
  | dump => exact ⟨"bf_debug", rfl, by decide⟩

theorem begin?_word {p : Parser} {x : String} (hx : x ∉ reserved) :
    p.begin? (.word x) = some { p with frames := [], stage := .named x } := by
  unfold begin?
  split
  case h_8 y h =>
    cases h
    exact if_neg hx
  case h_9 h => exact absurd rfl (h x)
  all_goals
    next h =>
      cases h
      exact absurd (by decide) hx

theorem finish_command {s : Stmt} (hs : s.Fits) {c : Command} (hc : s.command? = some c)
    {outer : List (Opened × List Command)} {done : List Command} {ts : List Token}
    (hts : Begins ts) :
    finish (atStart outer done) (s.tokens ++ ts) = finish (atStart outer (c :: done)) ts := by
  cases s with
  | setCell offset value =>
    cases hc
    have hloose : Loose value.level [.store "data" (Expr.position offset)] := trivial
    have hvalue := Expr.reads_tokens hs outer done _ ts hloose (hts.follows _)
    dsimp only [tokens]
    rw [List.append_assoc]
    refine (Expr.finish_cellTokens offset outer done [] _).trans ?_
    exact hvalue.trans (finish_complete hts rfl)
  | movePtr way amount =>
    have hamount (op : Binary) (hop : op.right < unaryPriority) :
        finish ⟨outer, done, [.binary op (.var "ptr"), .assign "ptr"], .operand⟩
            (signedTokens amount ++ ts) =
          finish (atStart outer (.assign "ptr" (.binary op (.var "ptr") (literal amount)) :: done))
            ts := by
      have hloose : Loose (Expr.int amount).level [.binary op (.var "ptr"), .assign "ptr"] :=
        Nat.lt_of_lt_of_le hop (Expr.le_level_int amount)
      rw [Expr.reads_signedTokens amount _ _ _ _ hloose (hts.follows _),
        finish_binary (hts.follows _)]
      exact finish_complete hts rfl
    cases way with
    | left =>
      cases hc
      exact hamount .sub (by decide)
    | right =>
      cases hc
      exact hamount .add (by decide)
  | writeByte value =>
    cases hc
    have hloose : Loose value.level [.call "string.char", .call "io.write"] := trivial
    have hend : Follows value.level (.symbol ")" :: .symbol ")" :: ts) :=
      ⟨by decide, Nat.zero_le _⟩
    have hvalue := Expr.reads_tokens hs outer done _ _ hloose hend
    dsimp only [tokens]
    rw [List.append_assoc, List.append_assoc]
    exact hvalue.trans (finish_complete hts rfl)
  | call number =>
    cases hc
    have hbegin : step? (atStart outer done) (.word (functionName number)) =
        some ⟨outer, done, [], .named (functionName number)⟩ :=
      begin?_word (functionName_notMem_reserved number)
    show finish _ (.word (functionName number) :: .symbol "(" :: .symbol ")" :: ts) = _
    rw [finish_cons, hbegin, Option.bind_some]
    exact finish_complete (e := .invoke (functionName number)) (q := atStart outer _) hts rfl
  | dump =>
    cases hc
    exact finish_complete (e := .invoke "bf_debug") (q := atStart outer _) hts rfl
  | whileCell _ | ifCell | function _ | close => contradiction

theorem finish_opener {s : Stmt} {opened : Opened} (hs : s.opened? = some opened)
    {outer : List (Opened × List Command)} {done : List Command} {ts : List Token} :
    finish (atStart outer done) (s.tokens ++ ts) =
      finish (atStart ((opened, done) :: outer) []) ts := by
  cases s with
  | whileCell offset =>
    cases hs
    dsimp only [tokens]
    simp only [List.cons_append, List.append_assoc]
    exact Expr.finish_cellTokens offset outer done [.whileDo] _
  | ifCell =>
    cases hs
    rfl
  | function number =>
    cases hs
    rfl
  | _ => contradiction

end Stmt

end Brainfuck.Lua
