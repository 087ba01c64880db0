import Rom.AckTracker
import Rom.Runs
import Mathlib.Data.List.TakeWhile

/-!
Garbage collection of sent packets. `gc` takes acknowledged packets away from the
front of what was sent. With it and without, a tracker holds the same packets but for
acknowledged ones at the front, as long as no packet number is used twice; such
packets give no RTT sample, are no candidates and are not pending, so no call can
tell the difference (`gc_invisible`).
-/
namespace Rom.Pruning
open Rom.Runs SendTracker

inductive Call where
  | onPacketSent (pktNum timestampUs : UInt32) (size : UInt16)
  | onAckReceived (ack : AckFrame) (ranges : Option (List SackRange)) (now : UInt32)
  | getRetransmitCandidates (now rtoUs : UInt32)
  | pendingCount
  | gc (oldestUnacked : UInt32)
  deriving DecidableEq

/-- What a call returns. -/
inductive Answer where
  | rttSample (us : UInt32)
  | candidates (pktNums : List UInt32)
  | pending (count : Nat)
  deriving DecidableEq

def step (t : SendTracker) : Call → SendTracker
  | .onPacketSent pktNum timestampUs size => t.onPacketSent pktNum timestampUs size
  | .onAckReceived ack ranges now => (t.onAckReceived ack ranges now).1
  | .getRetransmitCandidates _ _ => t
  | .pendingCount => t
  | .gc oldestUnacked => t.gc oldestUnacked

def answer (t : SendTracker) : Call → List Answer
  | .onPacketSent _ _ _ => []
  | .onAckReceived ack ranges now => [.rttSample (t.onAckReceived ack ranges now).2]
  | .getRetransmitCandidates now rtoUs => [.candidates (t.getRetransmitCandidates now rtoUs)]
  | .pendingCount => [.pending t.pendingCount]
  | .gc _ => []

def isGc : Call → Bool
  | .gc _ => true
  | _ => false

/-- The packet number that a call sends. -/
def sends : Call → Option UInt32
  | .onPacketSent pktNum _ _ => some pktNum
  | _ => none

/-- The packet numbers that are sent, in order. -/
def sentNumbers (calls : List Call) : List UInt32 := calls.filterMap sends

/-! ### One tracker -/

theorem onAckReceived_rtt (t : SendTracker) (ack : AckFrame) (ranges : Option (List SackRange)) (now : UInt32) :
    (t.onAckReceived ack ranges now).2 = match t.find ack.largestAcked with
      | some info => if info.acked then 0 else rttSample ack now info
      | none => 0 := by
  unfold onAckReceived
  cases t.find ack.largestAcked with
  | none => rfl
  | some info =>
    cases acked : info.acked with
    | true => simp [acked]
    | false => simp [acked]

theorem numbers_markWhere (test : UInt32 → Bool) (sent : List SentPacketInfo) :
    (markWhere test sent).map SentPacketInfo.packetNumber = sent.map SentPacketInfo.packetNumber := by
  rw [markWhere,List.map_map]
  apply List.map_congr_left
  intro info _
  dsimp only [Function.comp]
  split
  · rfl
  · rfl

theorem acked_markWhere {test : UInt32 → Bool} {sent : List SentPacketInfo} (acked : ∀ info ∈ sent, info.acked = true) :
    ∀ info ∈ markWhere test sent, info.acked = true := by
  intro info member
  obtain ⟨old,listed,rfl⟩ := List.mem_map.mp member
  split
  · rfl
  · exact acked old listed

/-! ### With and without collection -/

/-- The tracker with collection lacks acknowledged packets at the front of the one
    without, and no number is sent twice. -/
structure Pruned (pruned whole : SendTracker) (calls : List Call) : Prop where
  front : ∃ dropped, whole.sent = dropped ++ pruned.sent ∧ ∀ info ∈ dropped, info.acked = true
  distinct : (whole.sent.map SentPacketInfo.packetNumber ++ sentNumbers calls).Nodup

section
variable {pruned whole : SendTracker} {calls : List Call}

theorem rtt_pruned (related : Pruned pruned whole calls) (ack : AckFrame) (ranges : Option (List SackRange))
    (now : UInt32) :
    (pruned.onAckReceived ack ranges now).2 = (whole.onAckReceived ack ranges now).2 := by
  obtain ⟨dropped,split,acked⟩ := related.front
  have unused := (List.nodup_append.mp related.distinct).1
  rw [split,List.map_append,List.nodup_append] at unused
  have found : whole.find ack.largestAcked =
      (dropped.find? (fun info => info.packetNumber == ack.largestAcked)).or (pruned.find ack.largestAcked) := by
    rw [find,find,split,List.find?_append]
  rw [onAckReceived_rtt,onAckReceived_rtt,found]
  cases gone : dropped.find? (fun info => info.packetNumber == ack.largestAcked) with
  | none => rfl
  | some info =>
    -- the number was acknowledged before it was dropped, and it is not there again
    have listed := List.mem_of_find?_eq_some gone
    have number : info.packetNumber = ack.largestAcked := by simpa using List.find?_some gone
    have missing : pruned.find ack.largestAcked = none := by
      rw [find,List.find?_eq_none]
      intro other member same
      rw [beq_iff_eq] at same
      exact unused.2.2 info.packetNumber (List.mem_map_of_mem listed) other.packetNumber (List.mem_map_of_mem member)
        (by rw [number,same])
    rw [missing]
    simp [acked info listed]

theorem candidates_pruned (related : Pruned pruned whole calls) (now rtoUs : UInt32) :
    pruned.getRetransmitCandidates now rtoUs = whole.getRetransmitCandidates now rtoUs := by
  obtain ⟨dropped,split,acked⟩ := related.front
  have none : dropped.filter (fun info => !info.acked && !info.retransmitted && now - info.sentTimestampUs ≥ rtoUs) =
      [] := by
    rw [List.filter_eq_nil_iff]
    intro info member
    simp [acked info member]
  rw [getRetransmitCandidates,getRetransmitCandidates,split,List.filter_append,none,List.nil_append]

theorem pendingCount_pruned (related : Pruned pruned whole calls) : pruned.pendingCount = whole.pendingCount := by
  obtain ⟨dropped,split,acked⟩ := related.front
  have none : dropped.filter (fun info => !info.acked) = [] := by
    rw [List.filter_eq_nil_iff]
    intro info member
    simp [acked info member]
  rw [pendingCount,pendingCount,split,List.filter_append,none,List.nil_append]

theorem pruned_sent {pktNum timestampUs : UInt32} {size : UInt16}
    (related : Pruned pruned whole (.onPacketSent pktNum timestampUs size :: calls)) :
    Pruned (pruned.onPacketSent pktNum timestampUs size) (whole.onPacketSent pktNum timestampUs size) calls := by
  obtain ⟨⟨dropped,split,acked⟩,distinct⟩ := related
  refine ⟨⟨dropped,?_,acked⟩,?_⟩
  · rw [onPacketSent,onPacketSent,split,List.append_assoc]
  · rw [onPacketSent,List.map_append,List.append_assoc]
    exact distinct

theorem pruned_ack {ack : AckFrame} {ranges : Option (List SackRange)} {now : UInt32}
    (related : Pruned pruned whole (.onAckReceived ack ranges now :: calls)) :
    Pruned (pruned.onAckReceived ack ranges now).1 (whole.onAckReceived ack ranges now).1 calls := by
  obtain ⟨⟨dropped,split,acked⟩,distinct⟩ := related
  refine ⟨⟨markWhere (covers ack ranges) dropped,?_,acked_markWhere acked⟩,?_⟩
  · rw [onAckReceived_sent,onAckReceived_sent,split,markWhere,markWhere,markWhere,List.map_append]
  · rw [onAckReceived_sent,numbers_markWhere]
    exact distinct

/-- Collection takes away acknowledged packets at the front. -/
theorem pruned_gc {oldestUnacked : UInt32} (related : Pruned pruned whole (.gc oldestUnacked :: calls)) :
    Pruned (pruned.gc oldestUnacked) whole calls := by
  obtain ⟨⟨dropped,split,acked⟩,distinct⟩ := related
  refine ⟨⟨dropped ++ pruned.sent.takeWhile (fun info => info.acked && seqLt info.packetNumber oldestUnacked),?_,?_⟩,
    distinct⟩
  · rw [gc,List.append_assoc,List.takeWhile_append_dropWhile,split]
  · intro info member
    rcases List.mem_append.mp member with old | taken
    · exact acked info old
    · have passed := List.mem_takeWhile_imp taken
      exact (Bool.and_eq_true_iff.mp passed).1

end

theorem pruned_start {calls : List Call} (distinct : (sentNumbers calls).Nodup) : Pruned {} {} calls :=
  ⟨⟨[],rfl,by simp⟩,distinct⟩

/-- Calls of `gc` anywhere in a run that sends no packet number twice change no RTT
    sample, no list of candidates and no pending count. -/
theorem gc_invisible (calls : List Call) (distinct : (sentNumbers calls).Nodup) :
    outputs step answer {} calls = outputs step answer {} (calls.filter (fun call => !isGc call)) := by
  refine outputs_filter (R := Pruned) ?_ ?_ (pruned_start distinct)
  · intro pruned whole call calls related _
    cases call with
    | onPacketSent pktNum timestampUs size => exact ⟨rfl,pruned_sent related⟩
    | onAckReceived ack ranges now =>
      refine ⟨?_,pruned_ack related⟩
      rw [answer,answer,rtt_pruned related]
    | getRetransmitCandidates now rtoUs =>
      refine ⟨?_,related.front,related.distinct⟩
      rw [answer,answer,candidates_pruned related]
    | pendingCount =>
      refine ⟨?_,related.front,related.distinct⟩
      rw [answer,answer,pendingCount_pruned related]
    | gc oldestUnacked => contradiction
  · intro pruned whole call calls related silent
    cases call with
    | gc oldestUnacked => exact ⟨rfl,pruned_gc related⟩
    | _ => contradiction

/-- Two packets, of which the first is acknowledged, collected and acknowledged once
    more. -/
def collected : List Call :=
  [.onPacketSent 4294967295 10 100,.onPacketSent 0 20 100,.onAckReceived ⟨4294967295,0,0⟩ none 50,.gc 5,
    .onAckReceived ⟨4294967295,0,0⟩ none 90,.gc 0,.getRetransmitCandidates 100 50,.pendingCount]

theorem gc_invisible_collected :
    (sentNumbers collected).Nodup ∧ (run step {} (collected.take 4)).sent.length = 1 ∧
      outputs step answer {} collected = [.rttSample 40,.rttSample 0,.candidates [0],.pending 1] ∧
      outputs step answer {} collected = outputs step answer {} (collected.filter (fun call => !isGc call)) :=
  ⟨by decide,by decide +kernel,by decide +kernel,gc_invisible collected (by decide)⟩

end Rom.Pruning
