import Rom.Runs
import Mathlib.Order.Nat

/-!
Limits per window of time. A limiter lets through at most `limit` requests from the
beginning of a window on; the first request that comes `length` or more after the
beginning starts the next window. So what passes up to a bound fits into as many
windows as there is time for, and one (`admitted_within`).
-/
namespace Rom.Windows
open Rom.Runs

/-- When the window began, and how many requests it has let through. -/
structure Window where
  start : ℕ
  count : ℕ

/-- The window after a request, and whether the request passes. There is no window
    before the first. -/
def enter (length limit : ℕ) : Option Window → ℕ → Option Window × Bool
  | none, now => (some ⟨now,1⟩,true)
  | some w, now =>
    if length ≤ now - w.start then (some ⟨now,1⟩,true)
    else if w.count < limit then (some ⟨w.start,w.count + 1⟩,true)
    else (some w,false)

def step (length limit : ℕ) (w : Option Window) (now : ℕ) : Option Window := (enter length limit w now).1

def pass (length limit : ℕ) (w : Option Window) (now : ℕ) : List ℕ := if (enter length limit w now).2 then [now] else []

/-- The times of the requests that pass. -/
def admitted (length limit : ℕ) (w : Option Window) (times : List ℕ) : List ℕ :=
  outputs (step length limit) (pass length limit) w times

section
variable {length limit : ℕ}

theorem admitted_sublist (w : Option Window) (times : List ℕ) : (admitted length limit w times).Sublist times := by
  induction times generalizing w with
  | nil => exact .slnil
  | cons now times ih =>
    rw [admitted,outputs,pass]
    split
    · exact (ih _).cons_cons now
    · exact (ih _).cons now

theorem admitted_none (now : ℕ) (times : List ℕ) :
    admitted length limit none (now :: times) = now :: admitted length limit (some ⟨now,1⟩) times := rfl

/-- A request passes in the next window, in this one, or not. -/
theorem admitted_cases (length limit start count now : ℕ) (times : List ℕ) :
    (length ≤ now - start ∧ admitted length limit (some ⟨start,count⟩) (now :: times) =
      now :: admitted length limit (some ⟨now,1⟩) times) ∨
    (count < limit ∧ admitted length limit (some ⟨start,count⟩) (now :: times) =
      now :: admitted length limit (some ⟨start,count + 1⟩) times) ∨
    admitted length limit (some ⟨start,count⟩) (now :: times) = admitted length limit (some ⟨start,count⟩) times := by
  have unfolded : admitted length limit (some ⟨start,count⟩) (now :: times) =
      pass length limit (some ⟨start,count⟩) now ++
        admitted length limit (step length limit (some ⟨start,count⟩) now) times := rfl
  rw [unfolded,pass,step,enter]
  by_cases next : length ≤ now - start
  · exact .inl ⟨next,by simp [next]⟩
  · by_cases room : count < limit
    · exact .inr (.inl ⟨room,by simp [next,room]⟩)
    · exact .inr (.inr (by simp [next,room]))

/-- Nothing passes up to a bound once a request has come after it. -/
theorem admitted_past (w : Option Window) {now bound : ℕ} {times : List ℕ} (ordered : (now :: times).Pairwise (· ≤ ·))
    (past : bound < now) : (admitted length limit w (now :: times)).filter (· ≤ bound) = [] := by
  rw [List.filter_eq_nil_iff]
  intro t member
  have after : now ≤ t := by
    rcases List.mem_cons.mp ((admitted_sublist _ _).subset member) with rfl | listed
    · exact le_rfl
    · exact (List.pairwise_cons.mp ordered).1 t listed
  simp only [decide_eq_true_eq]
  omega

/-- What passes from now on up to a bound fits into the rest of this window and the
    windows there is time for. -/
theorem count_admitted (positive : 0 < length) (open' : 1 ≤ limit) {times : List ℕ} (ordered : times.Pairwise (· ≤ ·))
    {start count bound : ℕ} (begun : start ≤ bound) (within : count ≤ limit) :
    count + ((admitted length limit (some ⟨start,count⟩) times).filter (· ≤ bound)).length ≤
      limit * ((bound - start) / length + 1) := by
  induction times generalizing start count with
  | nil => exact within.trans (Nat.le_mul_of_pos_right _ (Nat.succ_pos _))
  | cons now times ih =>
    have rest := (List.pairwise_cons.mp ordered).2
    by_cases past : bound < now
    · rw [admitted_past _ ordered past]
      exact within.trans (Nat.le_mul_of_pos_right _ (Nat.succ_pos _))
    · have here : ∀ l : List ℕ, ((now :: l).filter (· ≤ bound)).length = (l.filter (· ≤ bound)).length + 1 := by
        intro l
        simp [not_lt.mp past]
      rcases admitted_cases length limit start count now times with ⟨next,passed⟩ | ⟨room,passed⟩ | refused
      · -- the next window has that much less time
        have counted := ih rest (show now ≤ bound by omega) open'
        have shorter : (bound - now) / length + 1 ≤ (bound - start) / length := by
          have less : bound - now + length ≤ bound - start := by omega
          rw [← Nat.add_div_right _ positive]
          exact Nat.div_le_div_right less
        have total := Nat.mul_le_mul_left limit shorter
        rw [passed,here,Nat.mul_add,Nat.mul_one]
        omega
      · have counted := ih rest begun (show count + 1 ≤ limit from room)
        rw [passed,here]
        omega
      · rw [refused]
        exact ih rest begun within

/-- At most `limit` pass for each window that begins in the time after the first. -/
theorem admitted_within (positive : 0 < length) (open' : 1 ≤ limit) {times : List ℕ} (ordered : times.Pairwise (· ≤ ·))
    {first : ℕ} (head : (admitted length limit none times).head? = some first) (time : ℕ) :
    ((admitted length limit none times).filter (· ≤ first + time)).length ≤ limit * (time / length + 1) := by
  cases times with
  | nil => cases head
  | cons now times =>
    rw [admitted_none] at head ⊢
    obtain rfl : now = first := Option.some.inj head
    have counted := count_admitted positive open' (List.pairwise_cons.mp ordered).2 (Nat.le_add_right now time) open'
    rw [Nat.add_sub_cancel_left] at counted
    rw [List.filter_cons_of_pos (by simp),List.length_cons]
    omega

end
end Rom.Windows
