import Rom.Parity

/-!
Forward error correction (`fec.h`, `fec.cpp`). The encoder xors the packets of a group
and puts out their parity when the group is full or flushed. The decoder collects the
packets of one group; when it has one data packet less than a whole group has, and the
parity, it takes the xor of all it has for the one that is missing. It counts packets,
not which of them it has.
-/
namespace Rom
open Parity

structure FecHeader where
  groupId : UInt16
  groupSize : UInt8
  index : UInt8
  deriving DecidableEq, Repr

namespace FecHeader

/-- `WIRE_SIZE`. -/
def wireSize : Nat := 4

def encode (h : FecHeader) : Bytes := writeU16 h.groupId ++ [h.groupSize,h.index]

def decode (buf : Bytes) : Option FecHeader :=
  if buf.length < wireSize then none else some ⟨readU16 buf,byteAt buf 2,byteAt buf 3⟩

theorem decode_encode (h : FecHeader) (rest : Bytes) : decode (h.encode ++ rest) = some h := by
  have long : ¬ (h.encode ++ rest).length < wireSize := by
    simp only [encode,wireSize,List.length_append,writeU16_length,List.length_cons,List.length_nil]
    omega
  rw [decode,if_neg long,encode,List.append_assoc,readU16_write]
  rfl

end FecHeader

/-! ### Encoder -/

structure FecEncoder where
  groupSize : UInt8
  groupId : UInt16 := 0
  count : UInt8 := 0
  parity : Bytes := []
  maxPacketLen : Nat := 0
  deriving DecidableEq, Repr

namespace FecEncoder

def new (groupSize : UInt8) : FecEncoder := { groupSize := if groupSize < 2 then 2 else groupSize }

/-- The running parity grows to the longest packet. -/
def xorInto (e : FecEncoder) (data : Bytes) : FecEncoder :=
  { e with
    parity := Parity.xorInto (if data.length > e.parity.length then pad data.length e.parity else e.parity) data
    maxPacketLen := if data.length > e.maxPacketLen then data.length else e.maxPacketLen }

/-- The header of a full group, and the parity behind it. -/
def buildParityPacket (e : FecEncoder) : Bytes :=
  (FecHeader.mk e.groupId e.groupSize e.groupSize).encode ++ e.parity.take e.maxPacketLen

/-- The encoder at the start of the next group. -/
def nextGroup (e : FecEncoder) : FecEncoder :=
  { e with groupId := e.groupId + 1, count := 0, parity := [], maxPacketLen := 0 }

/-- The parity packet when the group is complete, and the encoder after. -/
def addPacket (e : FecEncoder) (data : Bytes) : Option Bytes × FecEncoder :=
  let e := e.xorInto data
  let e := { e with count := e.count + 1 }
  if e.count ≥ e.groupSize then (some e.buildParityPacket,e.nextGroup) else (none,e)

/-- The parity of a group that is not complete, behind a header with its number of
    packets. -/
def flush (e : FecEncoder) : Option Bytes × FecEncoder :=
  if e.count = 0 then (none,e)
  else
    let parity := (FecHeader.mk e.groupId e.count e.count).encode ++ e.buildParityPacket.drop FecHeader.wireSize
    (some parity,e.nextGroup)

def reset (e : FecEncoder) : FecEncoder := { e with groupId := 0, count := 0, parity := [], maxPacketLen := 0 }

end FecEncoder

/-! ### Decoder -/

structure ReceivedPacket where
  index : UInt8
  data : Bytes
  deriving DecidableEq, Repr

structure FecDecoder where
  expectedGroupSize : UInt8
  currentGroupId : UInt16 := 0
  groupStarted : Bool := false
  received : List ReceivedPacket := []
  hasParity : Bool := false
  parityData : Bytes := []
  deriving DecidableEq, Repr

namespace FecDecoder

def new (expectedGroupSize : UInt8) : FecDecoder := { expectedGroupSize := expectedGroupSize }

def reset (d : FecDecoder) : FecDecoder :=
  { d with groupStarted := false, received := [], hasParity := false, parityData := [] }

/-- Which indices of a group have been received. -/
def present (d : FecDecoder) : List Bool :=
  d.received.foldl (fun present rp => if rp.index < d.expectedGroupSize then present.set rp.index.toNat true else present)
    (List.replicate d.expectedGroupSize.toNat false)

/-- The first index that has not been received. -/
def missingIdx (d : FecDecoder) : Option Nat := d.present.findIdx? (fun b => !b)

/-- The parity xored with all data packets, as long as the longest of them. -/
def recovered (d : FecDecoder) : Bytes :=
  let maxLen := d.received.foldl (fun n rp => if rp.data.length > n then rp.data.length else n) d.parityData.length
  d.received.foldl (fun acc rp => Parity.xorInto acc rp.data) (pad maxLen d.parityData)

def tryRecover (d : FecDecoder) : Option Bytes :=
  let dataCount := d.received.length
  let totalNeeded := d.expectedGroupSize.toNat
  if dataCount ≥ totalNeeded then none
  else if dataCount = totalNeeded - 1 ∧ d.hasParity = true then
    match d.missingIdx with
    | none => none
    | some _ => some d.recovered
  else none

/-- The decoder on the group of a packet: a new group puts the one before away. -/
def enterGroup (d : FecDecoder) (groupId : UInt16) : FecDecoder :=
  if !d.groupStarted || groupId != d.currentGroupId then
    { d.reset with currentGroupId := groupId, groupStarted := true }
  else d

/-- A packet is parity when its index is not below the group size of its header. -/
def record (d : FecDecoder) (header : FecHeader) (data : Bytes) : FecDecoder :=
  if header.index ≥ header.groupSize then { d with hasParity := true, parityData := data }
  else { d with received := d.received ++ [⟨header.index,data⟩] }

/-- What is recovered, if something is, and the decoder after. -/
def addPacket (d : FecDecoder) (header : FecHeader) (data : Bytes) : Option Bytes × FecDecoder :=
  let d := (d.enterGroup header.groupId).record header data
  (d.tryRecover,d)

/-! ### Recovery -/

theorem count_set_le (l : List Bool) (i : Nat) : (l.set i true).count true ≤ l.count true + 1 := by
  rcases Nat.lt_or_ge i l.length with inside | past
  · rw [List.count_set inside]
    simp
  · rw [List.set_eq_of_length_le past]
    exact Nat.le_succ _

/-- Each packet marks at most one index. -/
theorem count_present_le (d : FecDecoder) : d.present.count true ≤ d.received.length := by
  have marked : ∀ (received : List ReceivedPacket) (l : List Bool),
      (received.foldl (fun present rp =>
        if rp.index < d.expectedGroupSize then present.set rp.index.toNat true else present) l).count true ≤
          l.count true + received.length := by
    intro received
    induction received with
    | nil => exact fun l => Nat.le_refl _
    | cons rp received ih =>
      intro l
      rw [List.foldl_cons,List.length_cons]
      refine (ih _).trans ?_
      split
      · have once := count_set_le l rp.index.toNat
        omega
      · omega
  simpa [present,List.count_replicate] using marked d.received (List.replicate d.expectedGroupSize.toNat false)

theorem length_present (d : FecDecoder) : d.present.length = d.expectedGroupSize.toNat := by
  have kept : ∀ (received : List ReceivedPacket) (l : List Bool),
      (received.foldl (fun present rp =>
        if rp.index < d.expectedGroupSize then present.set rp.index.toNat true else present) l).length = l.length := by
    intro received
    induction received with
    | nil => exact fun l => rfl
    | cons rp received ih =>
      intro l
      rw [List.foldl_cons,ih]
      split
      · exact List.length_set
      · rfl
  simpa [present] using kept d.received (List.replicate d.expectedGroupSize.toNat false)

/-- With fewer packets than the group has, some index is missing. -/
theorem missingIdx_isSome {d : FecDecoder} (few : d.received.length < d.expectedGroupSize.toNat) :
    ∃ i, d.missingIdx = some i := by
  cases found : d.missingIdx with
  | some i => exact ⟨i,rfl⟩
  | none =>
    rw [missingIdx,List.findIdx?_eq_none_iff] at found
    have all : d.present.count true = d.present.length := by
      rw [List.count_eq_length]
      intro b member
      simpa using (found b member).symm
    have marked := count_present_le d
    rw [all,length_present] at marked
    omega

/-- Something is recovered exactly when one packet less than a group and the parity
    are there. -/
theorem tryRecover_eq {d : FecDecoder} (size : 0 < d.expectedGroupSize.toNat) :
    d.tryRecover =
      if d.received.length = d.expectedGroupSize.toNat - 1 ∧ d.hasParity = true then some d.recovered else none := by
  rw [tryRecover]
  by_cases enough : d.received.length ≥ d.expectedGroupSize.toNat
  · have not_one_less : ¬ (d.received.length = d.expectedGroupSize.toNat - 1 ∧ d.hasParity = true) := by
      rintro ⟨one_less,_⟩
      omega
    simp only [if_pos enough,if_neg not_one_less]
  · obtain ⟨i,missing⟩ := missingIdx_isSome (Nat.not_le.mp enough)
    simp only [if_neg enough,missing]

/-- What is recovered from packets that are no longer than the parity. -/
theorem recovered_eq {d : FecDecoder} (fit : ∀ rp ∈ d.received, rp.data.length ≤ d.parityData.length) :
    d.recovered = (d.received.map ReceivedPacket.data).foldl Parity.xorInto d.parityData := by
  have longest : ∀ received : List ReceivedPacket, (∀ rp ∈ received, rp.data.length ≤ d.parityData.length) →
      received.foldl (fun n rp => if rp.data.length > n then rp.data.length else n) d.parityData.length =
        d.parityData.length := by
    intro received
    induction received with
    | nil => exact fun _ => rfl
    | cons rp received ih =>
      intro all
      obtain ⟨first,rest⟩ := List.forall_mem_cons.mp all
      rw [List.foldl_cons,if_neg (Nat.not_lt.mpr first),ih rest]
  rw [recovered,List.foldl_map]
  simp only [longest d.received fit]
  rw [pad,Nat.sub_self,List.replicate_zero,List.append_nil]

end FecDecoder
end Rom
