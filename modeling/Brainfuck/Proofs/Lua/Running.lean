import Brainfuck.Proofs.Lua.Meaning
import Brainfuck.Proofs.Observation

/-! Runs of statements. How a run ends does not depend on its budget, if that is enough; and a run
that cannot be broken off meets what all its parts meet. A world shows a view of the machine if the
table `data` holds the cells of the tape. -/

namespace Brainfuck.Lua

open Machine

section Eval

variable {scope : Scope} {w w' u : World} {a b : Term} {x y z : Value}

theorem eval_var {name : String} (h : w.lookup scope name = x) :
    eval scope w (.var name) = .ok (x, w) := by
  rw [eval, h]

theorem eval_index {name : String} {i : Int} {entries : Int → Value}
    (ha : eval scope w a = .ok (.int i, w')) (htable : w'.lookup scope name = .table entries) :
    eval scope w (.index name a) = .ok (entries i, w') := by
  simp only [eval, ha, htable]

theorem eval_negate {n : Int} (ha : eval scope w a = .ok (.int n, w')) :
    eval scope w (.negate a) = .ok (.int (-n), w') := by
  simp only [eval, ha]

theorem eval_binary {op : Binary} (hop : op ≠ .or) (ha : eval scope w a = .ok (x, w'))
    (hb : eval scope w' b = .ok (y, u)) (hz : op.apply x y = .ok z) :
    eval scope w (.binary op a b) = .ok (z, u) := by
  simp only [eval, ha, hb, hop, false_and, if_false, hz]
  rfl

theorem eval_call {f : String} (ha : eval scope w a = .ok (x, w'))
    (hy : library w' f x = .ok (y, u)) : eval scope w (.call f a) = .ok (y, u) := by
  simp only [eval, ha, hy]

theorem eval_call₂ {f : String} (ha : eval scope w a = .ok (x, w'))
    (hb : eval scope w' b = .ok (y, u)) (hz : library₂ f x y = .ok z) :
    eval scope w (.call₂ f a b) = .ok (z, u) := by
  simp only [eval, ha, hb, hz]
  rfl

@[simp] theorem exec_nil (budget : Nat) : exec budget [] scope w = .finished w := by
  cases budget <;> rfl

theorem exec_call {f : String} (h : eval scope w (.call f a) = .ok (x, w')) (budget : Nat)
    (rest : List Command) :
    exec (budget + 1) (.evaluate (.call f a) :: rest) scope w = exec budget rest scope w' := by
  simp only [exec, h]

end Eval

theorem Result.andThen_congr {r r' : Result} {next next' : World → Result}
    (hr : r ≠ .unfinished → r' = r) (hnext : ∀ w, next w ≠ .unfinished → next' w = next w)
    (h : r.andThen next ≠ .unfinished) : r'.andThen next' = r.andThen next := by
  cases r with
  | unfinished => contradiction
  | trapped trap => rw [hr (by simp)]; rfl
  | finished w =>
    rw [hr (by simp)]
    exact hnext w h

/-- A larger budget does not change how a run ends. -/
theorem exec_succ {budget : Nat} {cs : List Command} {scope : Scope} {w : World}
    (h : exec budget cs scope w ≠ .unfinished) :
    exec (budget + 1) cs scope w = exec budget cs scope w := by
  induction budget generalizing cs scope w with
  | zero =>
    cases cs with
    | nil => rfl
    | cons c rest => exact absurd rfl h
  | succ budget ih =>
    cases cs with
    | nil => rfl
    | cons c rest =>
      unfold exec at h ⊢
      cases c with
      | assign x e =>
        dsimp only at h ⊢
        cases he : eval scope w e with
        | error trap => rfl
        | ok r =>
          rw [he] at h
          exact ih h
      | store x k e =>
        dsimp only at h ⊢
        cases hk : eval scope w k with
        | error trap => rfl
        | ok r =>
          rw [hk] at h
          dsimp only at h ⊢
          cases he : eval scope r.2 e with
          | error trap => rfl
          | ok v =>
            rw [he] at h
            dsimp only at h ⊢
            split
            · next htable hi =>
              simp only [htable, hi] at h
              exact ih h
            · rfl
      | evaluate e =>
        cases e with
        | invoke f =>
          dsimp only at h ⊢
          cases hf : w.function? scope f with
          | none => rfl
          | some found =>
            rw [hf] at h
            exact Result.andThen_congr ih (fun w => ih) h
        | _ =>
          dsimp only at h ⊢
          split
          · rfl
          · next he =>
            rw [he] at h
            exact ih h
      | whileDo e body =>
        dsimp only at h ⊢
        cases he : eval scope w e with
        | error trap => rfl
        | ok r =>
          rw [he] at h
          dsimp only at h ⊢
          split
          · next hv =>
            rw [if_pos hv] at h
            exact Result.andThen_congr ih (fun w => ih) h
          · next hv =>
            rw [if_neg hv] at h
            exact ih h
      | ifElse e yes no =>
        dsimp only at h ⊢
        cases he : eval scope w e with
        | error trap => rfl
        | ok r =>
          rw [he] at h
          exact Result.andThen_congr ih (fun w => ih) h
      | forTo x a b body =>
        dsimp only at h ⊢
        cases ha : eval scope w a with
        | error trap => rfl
        | ok first =>
          rw [ha] at h
          dsimp only at h ⊢
          cases hb : eval scope first.2 b with
          | error trap => rfl
          | ok last =>
            rw [hb] at h
            dsimp only at h ⊢
            split
            · next hfirst hlast =>
              simp only [hfirst, hlast] at h
              exact ih h
            · rfl
      | forEach x values body =>
        cases values with
        | nil => exact ih h
        | cons n values => exact Result.andThen_congr ih (fun w => ih) h
      | localFunction f body => exact ih h
      | function f body => exact ih h

theorem exec_mono {budget budget' : Nat} (hle : budget ≤ budget') {cs : List Command}
    {scope : Scope} {w : World} (h : exec budget cs scope w ≠ .unfinished) :
    exec budget' cs scope w = exec budget cs scope w := by
  induction hle with
  | refl => rfl
  | step _ ih => rw [exec_succ (by rwa [ih]), ih]

/-- Runs with different budgets do not end differently. -/
theorem exec_unique {budget budget' : Nat} {cs : List Command} {scope : Scope} {w : World}
    (h : exec budget cs scope w ≠ .unfinished) (h' : exec budget' cs scope w ≠ .unfinished) :
    exec budget cs scope w = exec budget' cs scope w := by
  rcases Nat.le_total budget budget' with hle | hle
  · exact (exec_mono hle h).symm
  · exact exec_mono hle h'

/-- The run is not broken off, and if it is finished then in a world that satisfies `P`. -/
def Result.Meets (P : World → Prop) : Result → Prop
  | finished w => P w
  | trapped _ => False
  | unfinished => True

theorem Result.Meets.mono {P Q : World → Prop} {r : Result} (h : r.Meets P)
    (hPQ : ∀ w, P w → Q w) : r.Meets Q := by
  cases r with
  | finished w => exact hPQ w h
  | trapped trap => exact h
  | unfinished => trivial

theorem Result.Meets.andThen {P Q : World → Prop} {r : Result} {next : World → Result}
    (h : r.Meets P) (hnext : ∀ w, P w → (next w).Meets Q) : (r.andThen next).Meets Q := by
  cases r with
  | finished w => exact hnext w h
  | trapped trap => exact h
  | unfinished => trivial

namespace World

/-- The tape is in `data` and `ptr`. -/
structure HasTape {m : Int} (w : World) (t : Tape m) : Prop where
  data : w.globals "data" = .table fun i => .int (t.get i)
  ptr : w.globals "ptr" = .int t.ptr

/-- The world shows the tape, the rest of the input and the output. -/
structure Shows {m : Int} (w : World) (v : View m) : Prop extends HasTape w v.tape where
  input : w.input = v.input
  output : v.output = some w.output

/-- The world with more output. -/
def emit (w : World) (s : List UInt8) : World := { w with output := w.output ++ s }

theorem emit_emit (w : World) (s t : List UInt8) : (w.emit s).emit t = w.emit (s ++ t) :=
  congrArg (World.mk w.globals w.input) (Array.ext' (by simp [emit]))

theorem HasTape.emit {m : Int} {w : World} {t : Tape m} (h : w.HasTape t) (s : List UInt8) :
    (w.emit s).HasTape t := ⟨h.data, h.ptr⟩

theorem Shows.emit {m : Int} {w : World} {v : View m} (h : w.Shows v) (s : List UInt8) :
    (w.emit s).Shows { v with output := v.output.map (· ++ s) } where
  toHasTape := h.toHasTape.emit s
  input := h.input
  output := by
    rw [h.output]
    rfl

end World

end Brainfuck.Lua
