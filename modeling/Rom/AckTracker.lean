import Rom.Sequence

/-!
The two sides of acknowledgement (`ack_tracker.h`, `ack_tracker.cpp`). The send
side records what it sent and marks what an ACK covers; the receive side keeps a
bitmap of the last 256 packet numbers and builds ACK frames with SACK ranges.
`SendTracker.onAckReceived_sent` says exactly which packets an ACK marks,
`RecvTracker.buildAck_ranges` where the ranges of an ACK lie.
-/
namespace Rom

/-- A range of acknowledged packet numbers, both ends included. -/
structure SackRange where
  start : UInt32
  last : UInt32
  deriving DecidableEq, Repr

structure AckFrame where
  largestAcked : UInt32
  ackDelayUs : UInt16
  sackRangeCount : UInt8
  deriving DecidableEq, Repr

/-! ### Send side -/

structure SentPacketInfo where
  packetNumber : UInt32
  sentTimestampUs : UInt32
  size : UInt16
  acked : Bool
  retransmitted : Bool
  retransmitCount : UInt8
  deriving DecidableEq, Repr

structure SendTracker where
  sent : List SentPacketInfo := []
  deriving DecidableEq, Repr

namespace SendTracker

def onPacketSent (t : SendTracker) (pktNum timestampUs : UInt32) (size : UInt16) : SendTracker :=
  { sent := t.sent ++ [⟨pktNum,timestampUs,size,false,false,0⟩] }

def find (t : SendTracker) (pktNum : UInt32) : Option SentPacketInfo :=
  t.sent.find? (fun info => info.packetNumber == pktNum)

/-- The first packet with the number, marked as acknowledged. -/
def markFirst (pktNum : UInt32) : List SentPacketInfo → List SentPacketInfo
  | [] => []
  | info :: rest =>
    if info.packetNumber == pktNum then { info with acked := true } :: rest else info :: markFirst pktNum rest

/-- All packets that meet the test, marked as acknowledged. -/
def markWhere (test : UInt32 → Bool) (sent : List SentPacketInfo) : List SentPacketInfo :=
  sent.map (fun info => if test info.packetNumber then { info with acked := true } else info)

def inRange (r : SackRange) (n : UInt32) : Bool := seqGe n r.start && seqLe n r.last

/-- The RTT sample that the packet with the largest acknowledged number gives. -/
def rttSample (ack : AckFrame) (now : UInt32) (info : SentPacketInfo) : UInt32 :=
  let rawRtt := now - info.sentTimestampUs
  if rawRtt > ack.ackDelayUs.toUInt32 then rawRtt - ack.ackDelayUs.toUInt32 else rawRtt

/-- Marks the largest acknowledged packet, everything at or before it, and the
    packets of the ranges, and returns the RTT sample. `ranges` is `none` for a
    null pointer. -/
def onAckReceived (t : SendTracker) (ack : AckFrame) (ranges : Option (List SackRange)) (now : UInt32) :
    SendTracker × UInt32 :=
  let (sent,rtt) :=
    match t.find ack.largestAcked with
    | some info => if info.acked then (t.sent,0) else (markFirst ack.largestAcked t.sent,rttSample ack now info)
    | none => (t.sent,0)
  -- cumulative: everything at or before the largest acknowledged number
  let sent := markWhere (fun n => seqLe n ack.largestAcked) sent
  let sent := ((ranges.getD []).take ack.sackRangeCount.toNat).foldl (fun sent r => markWhere (inRange r) sent) sent
  (⟨sent⟩,rtt)

def getRetransmitCandidates (t : SendTracker) (now rtoUs : UInt32) : List UInt32 :=
  (t.sent.filter (fun info => !info.acked && !info.retransmitted && now - info.sentTimestampUs ≥ rtoUs)).map
    SentPacketInfo.packetNumber

def gc (t : SendTracker) (oldestUnacked : UInt32) : SendTracker :=
  { sent := t.sent.dropWhile (fun info => info.acked && seqLt info.packetNumber oldestUnacked) }

def pendingCount (t : SendTracker) : Nat := (t.sent.filter (fun info => !info.acked)).length

/-- What an ACK covers: the numbers at or before the largest acknowledged one
    and those of its ranges. -/
def covers (ack : AckFrame) (ranges : Option (List SackRange)) (n : UInt32) : Bool :=
  seqLe n ack.largestAcked || ((ranges.getD []).take ack.sackRangeCount.toNat).any (fun r => inRange r n)

theorem markWhere_markFirst (test : UInt32 → Bool) {n : UInt32} (meets : test n = true) (sent : List SentPacketInfo) :
    markWhere test (markFirst n sent) = markWhere test sent := by
  induction sent with
  | nil => rfl
  | cons info rest ih =>
    by_cases same : info.packetNumber = n
    · simp [markFirst,markWhere,same,meets]
    · simp only [markFirst,beq_iff_eq,same,if_false]
      simpa [markWhere] using ih

theorem markWhere_markWhere (f g : UInt32 → Bool) (sent : List SentPacketInfo) :
    markWhere g (markWhere f sent) = markWhere (fun n => f n || g n) sent := by
  simp only [markWhere,List.map_map]
  apply List.map_congr_left
  intro info _
  by_cases first : f info.packetNumber = true
  · simp [first]
  · simp [first]

theorem foldl_markWhere (ranges : List SackRange) (test : UInt32 → Bool) (sent : List SentPacketInfo) :
    ranges.foldl (fun sent r => markWhere (inRange r) sent) (markWhere test sent) =
      markWhere (fun n => test n || ranges.any (fun r => inRange r n)) sent := by
  induction ranges generalizing test with
  | nil => simp
  | cons r rest ih =>
    rw [List.foldl_cons,markWhere_markWhere,ih]
    simp only [List.any_cons,Bool.or_assoc]

theorem seqLe_refl (n : UInt32) : seqLe n n = true := by simp [seqLe]

/-- An ACK marks exactly what it covers: the separate treatment of the largest
    acknowledged packet only yields the RTT sample. -/
theorem onAckReceived_sent (t : SendTracker) (ack : AckFrame) (ranges : Option (List SackRange)) (now : UInt32) :
    (t.onAckReceived ack ranges now).1.sent = markWhere (covers ack ranges) t.sent := by
  have cumulative : ∀ sent, sent = t.sent ∨ sent = markFirst ack.largestAcked t.sent →
      markWhere (fun n => seqLe n ack.largestAcked) sent = markWhere (fun n => seqLe n ack.largestAcked) t.sent := by
    rintro sent (rfl | rfl)
    · rfl
    · exact markWhere_markFirst (fun n => seqLe n ack.largestAcked) (seqLe_refl _) _
  unfold onAckReceived
  cases t.find ack.largestAcked with
  | none => exact foldl_markWhere _ _ _
  | some info =>
    cases acked : info.acked with
    | true => simp only [acked,if_true,foldl_markWhere]; rfl
    | false =>
      simp only [acked,Bool.false_eq_true,if_false]
      rw [cumulative _ (.inr rfl),foldl_markWhere]
      rfl

theorem mem_markWhere {test : UInt32 → Bool} {sent : List SentPacketInfo} {info : SentPacketInfo} :
    info ∈ markWhere test sent ↔
      ∃ old ∈ sent, info = { old with acked := old.acked || test old.packetNumber } := by
  simp only [markWhere,List.mem_map]
  constructor
  · rintro ⟨old,member,rfl⟩
    refine ⟨old,member,?_⟩
    by_cases meets : test old.packetNumber = true
    · simp [meets]
    · simp [meets]
  · rintro ⟨old,member,rfl⟩
    refine ⟨old,member,?_⟩
    by_cases meets : test old.packetNumber = true
    · simp [meets]
    · simp [meets]

end SendTracker

/-! ### Receive side -/

/-- How many packet numbers the receive side looks back. -/
def bitmapSize : Nat := 256

structure RecvTracker where
  largestReceived : UInt32 := 0
  hasReceived : Bool := false
  /-- Bit `i` stands for the packet number `largestReceived - i`. -/
  bitmap : Vector UInt8 32 := Vector.replicate 32 0
  deriving DecidableEq, Repr

structure AckData where
  frame : AckFrame
  sackRanges : List SackRange
  deriving DecidableEq, Repr

namespace RecvTracker

def getBit (t : RecvTracker) (pktNum : UInt32) : Bool :=
  if !t.hasReceived then false
  else if seqGt pktNum t.largestReceived then false
  else
    let offset := (t.largestReceived - pktNum).toNat
    if offset ≥ bitmapSize then false
    else (t.bitmap.getD (offset / 8) 0 &&& (1 <<< UInt8.ofNat (offset % 8))) != 0

def setBit (t : RecvTracker) (pktNum : UInt32) : RecvTracker :=
  if !t.hasReceived then t
  else if seqGt pktNum t.largestReceived then t
  else
    let offset := (t.largestReceived - pktNum).toNat
    if offset ≥ bitmapSize then t
    else
      let byte := t.bitmap.getD (offset / 8) 0 ||| (1 <<< UInt8.ofNat (offset % 8))
      { t with bitmap := t.bitmap.setIfInBounds (offset / 8) byte }

/-- The byte that a shift with carry puts at index `i`. -/
def shiftedByte (byteShift bitShift : Nat) (bitmap : Vector UInt8 32) (i : Nat) : UInt8 :=
  if i < byteShift then 0
  else
    let val := bitmap.getD (i - byteShift) 0 <<< UInt8.ofNat bitShift
    if i - byteShift > 0 then val ||| (bitmap.getD (i - byteShift - 1) 0 >>> UInt8.ofNat (8 - bitShift)) else val

/-- The in-place shift with carry, from the highest of the first `n` bytes down. -/
def shiftBytes (byteShift bitShift : Nat) : Nat → Vector UInt8 32 → Vector UInt8 32
  | 0, bitmap => bitmap
  | n+1, bitmap =>
    shiftBytes byteShift bitShift n (bitmap.setIfInBounds n (shiftedByte byteShift bitShift bitmap n))

def shiftBitmap (bitmap : Vector UInt8 32) (shift : Nat) : Vector UInt8 32 :=
  if shift ≥ bitmapSize then Vector.replicate 32 0
  else if shift % 8 = 0 then
    Vector.ofFn (fun i => if i.val < shift / 8 then 0 else bitmap.getD (i.val - shift / 8) 0)
  else shiftBytes (shift / 8) (shift % 8) 32 bitmap

def onPacketReceived (t : RecvTracker) (pktNum : UInt32) : RecvTracker :=
  if !t.hasReceived then
    setBit { largestReceived := pktNum, hasReceived := true, bitmap := Vector.replicate 32 0 } pktNum
  else if seqGt pktNum t.largestReceived then
    setBit { t with bitmap := shiftBitmap t.bitmap (pktNum - t.largestReceived).toNat, largestReceived := pktNum } pktNum
  else setBit t pktNum

def isDuplicate (t : RecvTracker) (pktNum : UInt32) : Bool :=
  if !t.hasReceived then false else t.getBit pktNum

/-- What the scan for SACK ranges carries from one position to the next. -/
structure AckScan where
  sackRanges : List SackRange := []
  inRange : Bool := false
  rangeStart : UInt32 := 0

/-- One position of the scan; once four ranges are found the scan stands still. -/
def scanStep (t : RecvTracker) (st : AckScan) (i : Nat) : AckScan :=
  if st.sackRanges.length < 4 then
    let pkt := t.largestReceived - UInt32.ofNat i
    let received := t.getBit pkt
    if received && !st.inRange then { st with rangeStart := pkt, inRange := true }
    else if !received && st.inRange then
      { st with sackRanges := st.sackRanges ++ [⟨pkt + 1,st.rangeStart⟩], inRange := false }
    else st
  else st

/-- The range left open at the end of the window. It is not pushed: its end of
    the window replaces the start of the last range found. -/
def closeRange (largestReceived : UInt32) (st : AckScan) : List SackRange :=
  if st.inRange && !st.sackRanges.isEmpty then
    st.sackRanges.modify (st.sackRanges.length - 1)
      (fun r => { r with start := largestReceived - UInt32.ofNat (bitmapSize - 1) })
  else st.sackRanges

def buildAck (t : RecvTracker) (ackDelayUs : UInt32) : AckData :=
  let delay : UInt16 := if ackDelayUs > 0xFFFF then 0xFFFF else ackDelayUs.toUInt16
  if !t.hasReceived then ⟨⟨t.largestReceived,delay,0⟩,[]⟩
  else
    let ranges := closeRange t.largestReceived ((List.range' 1 (bitmapSize - 1)).foldl t.scanStep {})
    ⟨⟨t.largestReceived,delay,UInt8.ofNat ranges.length⟩,ranges⟩

/-- Where a range of an ACK lies: from `j` to `i` packets below the largest
    received number, inside the window. -/
def Placed (largestReceived : UInt32) (r : SackRange) : Prop :=
  ∃ i j, 1 ≤ i ∧ i ≤ j ∧ j < bitmapSize ∧
    r.last = largestReceived - UInt32.ofNat i ∧ r.start = largestReceived - UInt32.ofNat j

/-- What holds of the scan once the positions up to `k` are behind it. -/
structure Scanned (largestReceived : UInt32) (k : Nat) (st : AckScan) : Prop where
  few : st.sackRanges.length ≤ 4
  placed : ∀ r ∈ st.sackRanges, Placed largestReceived r
  opened : st.inRange = true → ∃ i, 1 ≤ i ∧ i ≤ k ∧ st.rangeStart = largestReceived - UInt32.ofNat i

/-- What the scan does at a position: a run begins, a run ends, or nothing happens. -/
theorem scanStep_cases (t : RecvTracker) (st : AckScan) (i : Nat) :
    (st.sackRanges.length < 4 ∧ t.getBit (t.largestReceived - UInt32.ofNat i) = true ∧ st.inRange = false ∧
      t.scanStep st i = { st with rangeStart := t.largestReceived - UInt32.ofNat i, inRange := true }) ∨
    (st.sackRanges.length < 4 ∧ t.getBit (t.largestReceived - UInt32.ofNat i) = false ∧ st.inRange = true ∧
      t.scanStep st i = { st with
        sackRanges := st.sackRanges ++ [⟨t.largestReceived - UInt32.ofNat i + 1,st.rangeStart⟩]
        inRange := false }) ∨
    ((st.sackRanges.length < 4 → t.getBit (t.largestReceived - UInt32.ofNat i) = st.inRange) ∧ t.scanStep st i = st) := by
  unfold scanStep
  by_cases room : st.sackRanges.length < 4
  · rw [if_pos room]
    dsimp only
    cases received : t.getBit (t.largestReceived - UInt32.ofNat i) <;> cases inRange : st.inRange
    · exact .inr (.inr ⟨fun _ => rfl,rfl⟩)
    · exact .inr (.inl ⟨room,rfl,rfl,rfl⟩)
    · exact .inl ⟨room,rfl,rfl,rfl⟩
    · exact .inr (.inr ⟨fun _ => rfl,rfl⟩)
  · rw [if_neg room]
    exact .inr (.inr ⟨fun inside => absurd inside room,rfl⟩)

theorem next_start (largest : UInt32) (k : ℕ) : largest - UInt32.ofNat (k + 1) + 1 = largest - UInt32.ofNat k := by
  have step : UInt32.ofNat (k + 1) = UInt32.ofNat k + 1 := by simp [UInt32.ofNat_add]
  rw [step]
  grind

theorem scanned_step (t : RecvTracker) {k : Nat} {st : AckScan} (inside : k + 1 < bitmapSize)
    (scanned : Scanned t.largestReceived k st) : Scanned t.largestReceived (k + 1) (t.scanStep st (k + 1)) := by
  rcases scanStep_cases t st (k + 1) with ⟨_,_,_,begins⟩ | ⟨room,_,isOpen,ends⟩ | ⟨_,stands⟩
  · rw [begins]
    exact ⟨scanned.few,scanned.placed,fun _ => ⟨k + 1,by omega,le_rfl,rfl⟩⟩
  · obtain ⟨i,low,high,start⟩ := scanned.opened isOpen
    rw [ends]
    refine ⟨by simpa using room,?_,by simp⟩
    intro r member
    rcases List.mem_append.mp member with old | new
    · exact scanned.placed r old
    · rw [List.mem_singleton.mp new]
      exact ⟨i,k,low,high,by omega,start,next_start _ k⟩
  · rw [stands]
    refine ⟨scanned.few,scanned.placed,fun isOpen => ?_⟩
    obtain ⟨i,low,high,start⟩ := scanned.opened isOpen
    exact ⟨i,low,by omega,start⟩

theorem scanned_range (t : RecvTracker) (k : Nat) (inside : k < bitmapSize) :
    Scanned t.largestReceived k ((List.range' 1 k).foldl t.scanStep {}) := by
  induction k with
  | zero => exact ⟨by simp,by simp,by simp⟩
  | succ k ih =>
    rw [List.range'_1_concat,List.foldl_append]
    simpa [Nat.add_comm] using scanned_step t inside (ih (by omega))

theorem closeRange_length (largestReceived : UInt32) (st : AckScan) :
    (closeRange largestReceived st).length = st.sackRanges.length := by
  unfold closeRange
  split <;> simp

theorem closeRange_placed {largestReceived : UInt32} {k : Nat} {st : AckScan}
    (scanned : Scanned largestReceived k st) : ∀ r ∈ closeRange largestReceived st, Placed largestReceived r := by
  unfold closeRange
  split
  · intro r member
    obtain ⟨n,inside,rfl⟩ := List.mem_iff_getElem.mp member
    have inside' : n < st.sackRanges.length := by simpa using inside
    obtain ⟨i,j,low,le,high,last,start⟩ := scanned.placed _ (List.getElem_mem inside')
    rw [List.getElem_modify]
    split
    · exact ⟨i,bitmapSize - 1,low,by omega,by simp [bitmapSize],last,rfl⟩
    · exact ⟨i,j,low,le,high,last,start⟩
  · exact scanned.placed

/-- The ranges of an ACK are counted in its frame and lie in the window. -/
theorem buildAck_ranges (t : RecvTracker) (ackDelayUs : UInt32) :
    (t.buildAck ackDelayUs).sackRanges.length = (t.buildAck ackDelayUs).frame.sackRangeCount.toNat ∧
      ∀ r ∈ (t.buildAck ackDelayUs).sackRanges, Placed (t.buildAck ackDelayUs).frame.largestAcked r := by
  have scanned := scanned_range t (bitmapSize - 1) (by simp [bitmapSize])
  have placed := closeRange_placed scanned
  have few := scanned.few
  rw [← closeRange_length t.largestReceived] at few
  unfold buildAck
  generalize closeRange t.largestReceived ((List.range' 1 (bitmapSize - 1)).foldl t.scanStep {}) = ranges at *
  cases t.hasReceived with
  | false => simp
  | true =>
    refine ⟨?_,placed⟩
    show ranges.length = (UInt8.ofNat ranges.length).toNat
    rw [UInt8.toNat_ofNat']
    omega

/-- A range of an ACK covers nothing after the largest received number, except
    the number `2^31` after a range of a single packet. -/
theorem inRange_placed {largestReceived : UInt32} {r : SackRange} (placed : Placed largestReceived r) (n : UInt32) :
    SendTracker.inRange r n = true → seqLe n largestReceived = true ∨ (r.start = r.last ∧ n = r.start + 0x80000000) := by
  obtain ⟨i,j,low,le,high,last,start⟩ := placed
  have boundN := n.toNat_lt
  have boundL := largestReceived.toNat_lt
  simp only [bitmapSize] at high
  simp only [SendTracker.inRange,Bool.and_eq_true,seqGe_iff,seqLe_iff,last,start]
  rw [← UInt32.toNat_inj,← UInt32.toNat_inj]
  simp only [UInt32.toNat_sub,UInt32.toNat_add,UInt32.toNat_ofNat']
  have power : (0x80000000 : UInt32).toNat = 2^31 := by decide
  rw [power]
  omega

theorem inRange_opposite {r : SackRange} (single : r.start = r.last) :
    SendTracker.inRange r (r.start + 0x80000000) = true := by
  have bound := r.start.toNat_lt
  have power : (0x80000000 : UInt32).toNat = 2^31 := by decide
  simp only [SendTracker.inRange,Bool.and_eq_true,seqGe_iff,seqLe_iff,← single,UInt32.toNat_sub,UInt32.toNat_add,power]
  omega

end RecvTracker
end Rom
