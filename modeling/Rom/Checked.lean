import Mathlib.Data.List.Basic
import Mathlib.Tactic

/-!
Programs that read a buffer and may leave it. A read at an index past the end ends
the program as `outside`, a loop that needs more rounds than it is given as
`unfinished`; `Ends` says that a program comes to a result, whatever the number of
rounds from some number on, and so does neither. A loop over a machine counter
makes as many rounds as it counts, if the counter can hold the count
(`forLoop_eq_rounds`), and one that reads records of one size stays inside when
they all do (`rounds_records`).
-/
namespace Rom.Checked
variable {α β σ : Type}

inductive Outcome (α : Type) where
  | done (a : α)
  | outside
  | unfinished
  deriving DecidableEq, Repr

namespace Outcome

protected def bind : Outcome α → (α → Outcome β) → Outcome β
  | done a, f => f a
  | outside, _ => outside
  | unfinished, _ => unfinished

instance : Monad Outcome where
  pure := done
  bind := Outcome.bind

@[simp] theorem pure_eq (a : α) : (pure a : Outcome α) = done a := rfl
@[simp] theorem done_bind (a : α) (f : α → Outcome β) : (done a >>= f) = f a := rfl
@[simp] theorem outside_bind (f : α → Outcome β) : (outside >>= f) = outside := rfl

end Outcome

/-- The program comes to the result. -/
def Ends (program : ℕ → Outcome α) (a : α) : Prop := ∃ n, ∀ fuel, n ≤ fuel → program fuel = .done a

/-! ### Reads -/

def readAt (buf : List α) (i : ℕ) : Outcome α :=
  match buf[i]? with
  | some a => .done a
  | none => .outside

/-- The `n` elements from an index on. -/
def slice (buf : List α) (i n : ℕ) : Outcome (List α) :=
  if i + n ≤ buf.length then .done ((buf.drop i).take n) else .outside

theorem readAt_inside {buf : List α} {i : ℕ} (inside : i < buf.length) (zero : α) :
    readAt buf i = .done (buf.getD i zero) := by
  rw [readAt,List.getD_eq_getElem?_getD,List.getElem?_eq_getElem inside]
  rfl

theorem slice_inside {buf : List α} {i n : ℕ} (inside : i + n ≤ buf.length) :
    slice buf i n = .done ((buf.drop i).take n) := if_pos inside

theorem readAt_outside {buf : List α} {i : ℕ} (beyond : buf.length ≤ i) : readAt buf i = .outside := by
  rw [readAt,List.getElem?_eq_none beyond]

theorem slice_outside {buf : List α} {i n : ℕ} (beyond : buf.length < i + n) : slice buf i n = .outside :=
  if_neg (Nat.not_le.mpr beyond)

/-! ### Loops -/

/-- What a round of a loop comes to. -/
inductive Round (σ β : Type) where
  | next (s : σ)
  | leave (b : β)

/-- What the loop gives, if it gives `f` of its state when it is not left. -/
def Round.result (f : σ → β) : Round σ β → β
  | next s => f s
  | leave b => b

/-- A number of rounds. -/
def rounds : ℕ → (σ → Outcome (Round σ β)) → σ → Outcome (Round σ β)
  | 0, _, s => .done (.next s)
  | n+1, body, s => do
    match ← body s with
    | .next s => rounds n body s
    | .leave b => .done (.leave b)

/-- `for (; i < count; i++)` with a counter of `w` bits. -/
def forLoop (w : ℕ) : ℕ → ℕ → ℕ → (σ → Outcome (Round σ β)) → σ → Outcome (Round σ β)
  | 0, _, _, _, _ => .unfinished
  | fuel+1, count, i, body, s =>
    if i < count then do
      match ← body s with
      | .next s => forLoop w fuel count ((i + 1) % 2^w) body s
      | .leave b => .done (.leave b)
    else .done (.next s)

/-- A loop that goes on until it is left. -/
def whileLoop : ℕ → (σ → Outcome (Round σ β)) → σ → Outcome β
  | 0, _, _ => .unfinished
  | fuel+1, body, s => do
    match ← body s with
    | .next s => whileLoop fuel body s
    | .leave b => .done b

theorem forLoop_eq_rounds {w count : ℕ} (fits : count < 2^w) (body : σ → Outcome (Round σ β)) (fuel i : ℕ)
    (counting : i ≤ count) (enough : count - i < fuel) (s : σ) :
    forLoop w fuel count i body s = rounds (count - i) body s := by
  induction fuel generalizing i s with
  | zero => omega
  | succ fuel ih =>
    by_cases more : i < count
    · obtain ⟨n,left⟩ : ∃ n, count - i = n + 1 := ⟨count - i - 1,by omega⟩
      have counted : (i + 1) % 2^w = i + 1 := Nat.mod_eq_of_lt (by omega)
      have rest : count - (i + 1) = n := by omega
      rw [forLoop,if_pos more,left,rounds,counted]
      cases body s with
      | outside => rfl
      | unfinished => rfl
      | done r =>
        cases r with
        | leave b => rfl
        | next s' =>
          simp only [Outcome.done_bind]
          rw [ih (i + 1) more (by omega) s',rest]
    · have over' : count - i = 0 := by omega
      rw [forLoop,if_neg more,over',rounds]

/-! ### Records -/

/-- Takes in `n` records that stand one behind the other. -/
def records (size : ℕ) (take : σ → List α → σ) : ℕ → List α → σ → σ
  | 0, _, s => s
  | n+1, p, s => records size take n (p.drop size) (take s p)

/-- Rounds that read a record each, and where the last of them ends. -/
theorem rounds_records {buf : List α} {size : ℕ} {body : ℕ × σ → Outcome (Round (ℕ × σ) β)} {take : σ → List α → σ}
    (reads : ∀ off s, off + size ≤ buf.length → body (off,s) = .done (.next (off + size,take s (buf.drop off)))) (n off : ℕ)
    (s : σ) (inside : off + n * size ≤ buf.length) :
    rounds n body (off,s) = .done (.next (off + n * size,records size take n (buf.drop off) s)) := by
  induction n generalizing off s with
  | zero => simp [rounds,records]
  | succ n ih =>
    have all : off + (n + 1) * size = off + size + n * size := by rw [Nat.succ_mul]; omega
    rw [rounds,reads off s (by rw [all] at inside; omega),Outcome.done_bind]
    dsimp only
    rw [ih (off + size) _ (all ▸ inside),records,List.drop_drop,all]

/-- A decoder that refuses buffers below a size, and reads inside the others. -/
theorem sized_eq {size : ℕ} {buf : List α} {read : Outcome (Option β)} {b : β}
    (reads : size ≤ buf.length → read = .done (some b)) :
    (if buf.length < size then pure none else read) = .done (if buf.length < size then none else some b) := by
  split
  · rfl
  · next long => exact reads (Nat.not_lt.mp long)

end Rom.Checked
