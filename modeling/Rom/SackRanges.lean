import Rom.AckTracker
import Rom.Runs

/-!
What the ranges of an ACK claim. The scan of `build_ack` walks down the window and
records each run of received numbers when it ends; `Scan` says what it has found so
far, position by position. A run that is still open at the end of the window is not
recorded: its end replaces the start of the last range recorded, which then spans the
gap between the two. So the ranges claim only what was received exactly when no such
run is left open (`only_received_iff`).
-/
namespace Rom.SackRanges
open Rom.Runs RecvTracker

/-- The number lies in the range: it is as near to its start, going up, as the end. -/
def Contains (r : SackRange) (n : UInt32) : Prop := (n - r.start).toNat ≤ (r.last - r.start).toNat

instance (r : SackRange) (n : UInt32) : Decidable (Contains r n) := Nat.decLe _ _

/-- Every number in a range of the ACK was received. -/
def OnlyReceived (t : RecvTracker) (ackDelayUs : UInt32) : Prop :=
  ∀ r ∈ (t.buildAck ackDelayUs).sackRanges, ∀ n, Contains r n → t.getBit n = true

/-- The number some positions below the largest was received. -/
def heldAt (t : RecvTracker) (i : ℕ) : Bool := t.getBit (t.largestReceived - UInt32.ofNat i)

/-- How many runs of received numbers end among the first positions below the largest,
    with a number behind them that was not received. -/
def runsWithin (t : RecvTracker) (k : ℕ) : ℕ :=
  ((List.range k).filter (fun i => decide (1 ≤ i) && heldAt t i && !heldAt t (i + 1))).length

/-- A run reaches the end of the window, behind one to three others. -/
def LeftOpen (t : RecvTracker) : Prop := heldAt t 255 = true ∧ 1 ≤ runsWithin t 255 ∧ runsWithin t 255 ≤ 3

theorem runsWithin_succ (t : RecvTracker) (k : ℕ) :
    runsWithin t (k + 1) = runsWithin t k + if 1 ≤ k ∧ heldAt t k = true ∧ heldAt t (k + 1) = false then 1 else 0 := by
  rw [runsWithin,List.range_succ,List.filter_append,List.length_append,runsWithin]
  by_cases ended : 1 ≤ k ∧ heldAt t k = true ∧ heldAt t (k + 1) = false
  · simp [ended]
  · rw [if_neg ended,List.filter_cons_of_neg]
    · rfl
    · simpa [and_assoc] using ended

/-- A range of the window contains the numbers between its ends. -/
theorem contains_iff {largest : UInt32} {i j : ℕ} (ordered : i ≤ j) (inside : j < bitmapSize) (n : UInt32) :
    Contains ⟨largest - UInt32.ofNat j,largest - UInt32.ofNat i⟩ n ↔ ∃ d, i ≤ d ∧ d ≤ j ∧ n = largest - UInt32.ofNat d := by
  have boundL := largest.toNat_lt
  have boundN := n.toNat_lt
  rw [bitmapSize] at inside
  simp only [Contains,UInt32.toNat_sub,UInt32.toNat_ofNat',← UInt32.toNat_inj]
  constructor
  · intro within
    refine ⟨(2^32 - n.toNat + largest.toNat) % 2^32,?_,?_,?_⟩
    · omega
    · omega
    · omega
  · rintro ⟨d,low,high,same⟩
    omega

/-! ### The scan -/

/-- The range is a run of received numbers that ends at a gap. -/
def Run (t : RecvTracker) (k : ℕ) (r : SackRange) : Prop :=
  ∃ i j, 1 ≤ i ∧ i ≤ j ∧ j + 1 ≤ k ∧ r = ⟨t.largestReceived - UInt32.ofNat j,t.largestReceived - UInt32.ofNat i⟩ ∧
    (∀ d, i ≤ d → d ≤ j → heldAt t d = true) ∧ heldAt t (j + 1) = false

/-- What the scan has found once the positions up to `k` are behind it. -/
structure Scan (t : RecvTracker) (k : ℕ) (st : AckScan) : Prop where
  runs : ∀ r ∈ st.sackRanges, Run t k r
  count : st.sackRanges.length = min 4 (runsWithin t k)
  held : st.sackRanges.length < 4 → st.inRange = (decide (1 ≤ k) && heldAt t k)
  opened : st.inRange = true → ∃ i, 1 ≤ i ∧ i ≤ k ∧ st.rangeStart = t.largestReceived - UInt32.ofNat i ∧
    ∀ d, i ≤ d → d ≤ k → heldAt t d = true
  full : st.sackRanges.length = 4 → st.inRange = false

theorem run_later {t : RecvTracker} {k : ℕ} {r : SackRange} (found : Run t k r) : Run t (k + 1) r := by
  obtain ⟨i,j,low,ordered,inside,rest⟩ := found
  exact ⟨i,j,low,ordered,by omega,rest⟩

section
variable {t : RecvTracker} {k : ℕ} {st : AckScan}

theorem Scan.begins (scan : Scan t k st) (room : st.sackRanges.length < 4) (received : heldAt t (k + 1) = true) :
    Scan t (k + 1) { st with rangeStart := t.largestReceived - UInt32.ofNat (k + 1), inRange := true } := by
  have same : runsWithin t (k + 1) = runsWithin t k := by simp [runsWithin_succ,received]
  refine ⟨fun r member => run_later (scan.runs r member),by rw [same,scan.count],fun _ => by simp [received],?_,?_⟩
  · intro _
    refine ⟨k + 1,by omega,le_rfl,rfl,fun d low high => ?_⟩
    rw [Nat.le_antisymm high low,received]
  · intro four
    exact absurd four (Nat.ne_of_lt room)

theorem Scan.ends (scan : Scan t k st) (room : st.sackRanges.length < 4) (missing : heldAt t (k + 1) = false)
    (isOpen : st.inRange = true) :
    Scan t (k + 1) { st with
      sackRanges := st.sackRanges ++ [⟨t.largestReceived - UInt32.ofNat (k + 1) + 1,st.rangeStart⟩]
      inRange := false } := by
  obtain ⟨i,low,high,start,all⟩ := scan.opened isOpen
  have count := scan.count
  have ended : runsWithin t (k + 1) = runsWithin t k + 1 := by
    rw [runsWithin_succ,if_pos ⟨by omega,all k high le_rfl,missing⟩]
  refine ⟨?_,?_,fun _ => by simp [missing],fun open_ => absurd open_ Bool.false_ne_true,fun _ => rfl⟩
  · intro r member
    rcases List.mem_append.mp member with old | new
    · exact run_later (scan.runs r old)
    · rw [List.mem_singleton.mp new,next_start,start]
      exact ⟨i,k,low,high,le_rfl,rfl,all,missing⟩
  · rw [List.length_append,List.length_singleton,ended]
    omega

/-- The scan stands still when there are four ranges, when a run goes on and when
    none does. -/
theorem Scan.stands (scan : Scan t k st) (alike : st.sackRanges.length < 4 → heldAt t (k + 1) = st.inRange) :
    Scan t (k + 1) st := by
  refine ⟨fun r member => run_later (scan.runs r member),?_,?_,?_,scan.full⟩
  · rw [scan.count,runsWithin_succ]
    split
    · next ended =>
      have stopped : ¬ st.sackRanges.length < 4 := by
        intro room
        have state := scan.held room
        rw [← alike room,ended.2.2,ended.2.1] at state
        simp [ended.1] at state
      have count := scan.count
      omega
    · rfl
  · intro room
    rw [← alike room]
    simp
  · intro isOpen
    have room : st.sackRanges.length < 4 := by
      have count := scan.count
      have full := scan.full
      by_contra stopped
      rw [full (by omega)] at isOpen
      cases isOpen
    obtain ⟨i,low,high,start,all⟩ := scan.opened isOpen
    refine ⟨i,low,by omega,start,fun d above below => ?_⟩
    rcases Nat.lt_or_ge d (k + 1) with inside | last
    · exact all d above (by omega)
    · rw [Nat.le_antisymm below last,alike room,isOpen]

theorem scan_step (scan : Scan t k st) : Scan t (k + 1) (t.scanStep st (k + 1)) := by
  rcases scanStep_cases t st (k + 1) with ⟨room,received,_,begins⟩ | ⟨room,missing,isOpen,ends⟩ | ⟨alike,stands⟩
  · rw [begins]
    exact scan.begins room received
  · rw [ends]
    exact scan.ends room missing isOpen
  · rw [stands]
    exact scan.stands alike

end

theorem scan_range (t : RecvTracker) (k : ℕ) : Scan t k ((List.range' 1 k).foldl t.scanStep {}) := by
  induction k with
  | zero =>
    refine ⟨?_,rfl,fun _ => rfl,?_,?_⟩
    · intro r member
      cases member
    · intro open_
      cases open_
    · intro four
      cases four
  | succ k ih =>
    rw [List.range'_1_concat,List.foldl_append]
    simpa [Nat.add_comm] using scan_step ih

/-! ### The ranges -/

section
variable {t : RecvTracker} {st : AckScan}

/-- A run is left open at the end, behind others. -/
theorem open_iff (scan : Scan t 255 st) : (st.inRange && !st.sackRanges.isEmpty) = true ↔ LeftOpen t := by
  have count := scan.count
  rw [Bool.and_eq_true,Bool.not_eq_true',← Bool.not_eq_true,List.isEmpty_iff_length_eq_zero,LeftOpen]
  constructor
  · rintro ⟨open_,some_found⟩
    have room : st.sackRanges.length < 4 := by
      by_contra stopped
      have closed := scan.full (by omega)
      rw [open_] at closed
      cases closed
    have state := scan.held room
    rw [open_] at state
    exact ⟨state.symm,by omega,by omega⟩
  · rintro ⟨last,some_runs,few⟩
    refine ⟨?_,by omega⟩
    rw [scan.held (by omega),last]
    rfl

/-- A run contains received numbers only. -/
theorem received_of_run {r : SackRange} (found : Run t 255 r) {n : UInt32} (inside : Contains r n) : t.getBit n = true := by
  obtain ⟨i,j,low,ordered,high,rfl,all,_⟩ := found
  obtain ⟨d,above,below,rfl⟩ := (contains_iff ordered (by rw [bitmapSize]; omega) n).mp inside
  exact all d above below

/-- The last range, when it is drawn out to the end of the window, contains the gap
    behind its run. -/
theorem missing_of_open (scan : Scan t 255 st) (open_ : (st.inRange && !st.sackRanges.isEmpty) = true) :
    ∃ r ∈ closeRange t.largestReceived st, ∃ n, Contains r n ∧ t.getBit n = false := by
  have some_found : st.sackRanges ≠ [] := by
    intro none_found
    rw [none_found] at open_
    simp at open_
  have inside : st.sackRanges.length - 1 < st.sackRanges.length :=
    Nat.sub_lt (List.length_pos_of_ne_nil some_found) Nat.one_pos
  obtain ⟨i,j,low,ordered,high,last,_,gap⟩ := scan.runs _ (List.getElem_mem inside)
  rw [closeRange,if_pos open_]
  refine ⟨_,List.getElem_mem (n := st.sackRanges.length - 1) (by rw [List.length_modify]; exact inside),
    t.largestReceived - UInt32.ofNat (j + 1),?_,gap⟩
  rw [List.getElem_modify,if_pos rfl,last]
  have reaches : i ≤ bitmapSize - 1 := by
    rw [bitmapSize]
    omega
  exact (contains_iff reaches (by decide) _).mpr ⟨j + 1,by omega,high,rfl⟩

end

/-- The ranges of an ACK claim only what was received, unless a run is left open. -/
theorem only_received_iff (numbers : List UInt32) (ackDelayUs : UInt32) :
    OnlyReceived (run onPacketReceived {} numbers) ackDelayUs ↔ ¬ LeftOpen (run onPacketReceived {} numbers) := by
  generalize run onPacketReceived {} numbers = t
  have scan := scan_range t 255
  cases begun : t.hasReceived with
  | false =>
    have nothing : ∀ n, t.getBit n = false := fun n => by simp [getBit,begun]
    have none_built : (t.buildAck ackDelayUs).sackRanges = [] := by simp [buildAck,begun]
    constructor
    · rintro _ ⟨last,_⟩
      rw [heldAt,nothing] at last
      cases last
    · intro _ r member
      rw [none_built] at member
      cases member
  | true =>
    have built : (t.buildAck ackDelayUs).sackRanges =
        closeRange t.largestReceived ((List.range' 1 255).foldl t.scanStep {}) := by
      simp [buildAck,begun,bitmapSize]
    rw [OnlyReceived,built,← open_iff scan]
    constructor
    · intro only open_
      obtain ⟨r,member,n,inside,missing⟩ := missing_of_open scan open_
      rw [only r member n inside] at missing
      cases missing
    · intro closed r member n inside
      rw [closeRange,if_neg closed] at member
      exact received_of_run (scan.runs r member) inside

/-- Of the numbers up to 255 only 0, 254 and 255 were received, and the ACK has the
    range from 0 to 254. -/
theorem gap_claimed :
    let t := run onPacketReceived {} [0,254,255]
    (t.buildAck 0).sackRanges = [⟨0,254⟩] ∧ t.getBit 100 = false ∧ Contains ⟨0,254⟩ 100 := by
  decide +kernel

end Rom.SackRanges
