import Rom.Fec
import Rom.Runs

/-!
Groups of packets under forward error correction. For a group the encoder puts out the
xor of its packets, padded to the longest (`parity_of_group`). A decoder to which some
of them are delivered, in any order and any number of times, returns the xor of those
that came an even number of times, as soon as it has counted one data packet less than
a full group and has the parity (`returned_ready`). So any single loss of a full group
is made good (`recovers_single_loss`). With duplicates or a group that was flushed
early, what is returned need not be a packet of the group (`never_fabricates_iff`).
-/
namespace Rom.FecRuns
open Rom.Runs Parity

/-! ### Encoding a group -/

/-- A call on the encoder. -/
inductive EncoderCall where
  | addPacket (data : Bytes)
  | flush
  | reset

def step (e : FecEncoder) : EncoderCall → FecEncoder
  | .addPacket data => (e.addPacket data).2
  | .flush => e.flush.2
  | .reset => e.reset

/-- The parity packet that a call puts out, if it does. -/
def out (e : FecEncoder) : EncoderCall → List Bytes
  | .addPacket data => (e.addPacket data).1.toList
  | .flush => e.flush.1.toList
  | .reset => []

/-- An encoder between two groups, after any calls; a flush does nothing when the last
    group was complete. -/
def encoderAt (K : UInt8) (prior : List EncoderCall) : FecEncoder := (run step (.new K) prior).flush.2

/-- The calls that encode a group; one that is not full is flushed. -/
def groupCalls (K : UInt8) (packets : List Bytes) : List EncoderCall :=
  packets.map .addPacket ++ if packets.length < K.toNat then [.flush] else []

/-- What the encoder has collected of a group. -/
structure Collected (e : FecEncoder) (packets : List Bytes) (now : FecEncoder) : Prop where
  groupSize : now.groupSize = e.groupSize
  groupId : now.groupId = e.groupId
  count : now.count = UInt8.ofNat packets.length
  length : now.parity.length = longest packets
  maxPacketLen : now.maxPacketLen = longest packets
  bytes : ∀ i, byteAt now.parity i = xorAll packets (fun l => byteAt l i)

/-- The encoder is between two groups. -/
def Idle (K : UInt8) (e : FecEncoder) : Prop :=
  e.groupSize = K ∧ e.count = 0 ∧ e.parity = [] ∧ e.maxPacketLen = 0

/-- What every run of an encoder keeps: without packets it has no parity either. -/
def Tidy (K : UInt8) (e : FecEncoder) : Prop :=
  e.groupSize = K ∧ e.count < K ∧ (e.count = 0 → e.parity = [] ∧ e.maxPacketLen = 0)

section
variable {K : UInt8} {e now : FecEncoder} {packets : List Bytes}

theorem toNat_le_255 (K : UInt8) : K.toNat ≤ 255 := Nat.le_of_lt_succ K.toNat_lt

theorem positive (size : 2 ≤ K) : 0 < K := UInt8.lt_of_lt_of_le (by decide) size

theorem tidy_nextGroup (size : 2 ≤ K) (same : e.groupSize = K) : Tidy K e.nextGroup := by
  exact ⟨same,positive size,fun _ => ⟨rfl,rfl⟩⟩

theorem tidy_step (size : 2 ≤ K) (tidy : Tidy K e) (call : EncoderCall) : Tidy K (step e call) := by
  obtain ⟨same,below,empty⟩ := tidy
  cases call with
  | addPacket data =>
    show Tidy K (e.addPacket data).2
    rw [FecEncoder.addPacket]
    dsimp only
    split
    · exact tidy_nextGroup size same
    · next room =>
      have room : e.count + 1 < K := by
        rw [← same]
        exact UInt8.not_le.mp room
      refine ⟨same,room,fun wrapped => ?_⟩
      rw [UInt8.lt_iff_toNat_lt] at below
      have bound := toNat_le_255 K
      have next : (e.count + 1).toNat = e.count.toNat + 1 := by
        rw [UInt8.toNat_add]
        exact Nat.mod_eq_of_lt (by show e.count.toNat + 1 < 256; omega)
      rw [show e.count + 1 = 0 from wrapped] at next
      exact absurd next (by rw [UInt8.toNat_zero]; omega)
  | flush =>
    show Tidy K e.flush.2
    rw [FecEncoder.flush]
    split
    · exact ⟨same,below,empty⟩
    · exact tidy_nextGroup size same
  | reset => exact ⟨same,positive size,fun _ => ⟨rfl,rfl⟩⟩

theorem idle_encoderAt (size : 2 ≤ K) (prior : List EncoderCall) : Idle K (encoderAt K prior) := by
  have start : Tidy K (.new K) := ⟨if_neg (UInt8.not_lt.mpr size),positive size,fun _ => ⟨rfl,rfl⟩⟩
  have tidy : Tidy K (run step (.new K) prior) := run_invariant (fun _ call tidy => tidy_step size tidy call) start
  obtain ⟨same,_,empty⟩ := tidy
  rw [encoderAt,FecEncoder.flush]
  split
  · next none_open => exact ⟨same,none_open,empty none_open⟩
  · exact ⟨same,rfl,rfl,rfl⟩

theorem collected_nil (idle : Idle K e) : Collected e [] e := by
  obtain ⟨_,count,parity,maxPacketLen⟩ := idle
  exact ⟨rfl,rfl,count,by rw [parity]; rfl,maxPacketLen,fun i => by rw [parity]; rfl⟩

/-- One more packet. -/
theorem collected_add (collected : Collected e packets now) (data : Bytes) :
    Collected e (packets ++ [data]) { now.xorInto data with count := now.count + 1 } := by
  obtain ⟨groupSize,groupId,count,length,maxPacketLen,bytes⟩ := collected
  have grown : (if data.length > now.parity.length then pad data.length now.parity else now.parity).length =
      max (longest packets) data.length := by
    split
    · next longer =>
      rw [length_pad longer.le,← length]
      omega
    · next not_longer =>
      rw [length] at not_longer ⊢
      omega
  refine ⟨groupSize,groupId,?_,?_,?_,fun i => ?_⟩
  · show now.count + 1 = _
    rw [count,List.length_append,List.length_singleton,UInt8.ofNat_add]
    rfl
  · show (Parity.xorInto _ data).length = _
    rw [length_xorInto,grown,longest_snoc]
  · show (if data.length > now.maxPacketLen then data.length else now.maxPacketLen) = _
    rw [longest_snoc,maxPacketLen]
    split <;> omega
  · show byteAt (Parity.xorInto _ data) i = _
    rw [byteAt_xorInto (by rw [grown]; exact Nat.le_max_right _ _),xorAll_append,← bytes]
    have kept : byteAt (if data.length > now.parity.length then pad data.length now.parity else now.parity) i =
        byteAt now.parity i := by
      split
      · exact byteAt_pad _ _ i
      · rfl
    rw [kept,xorAll_cons,xorAll_nil,UInt8.xor_zero]

theorem count_toNat (collected : Collected e packets now) (few : packets.length < 256) :
    now.count.toNat = packets.length := by
  rw [collected.count,UInt8.toNat_ofNat']
  exact Nat.mod_eq_of_lt few

/-- Packets below the size of a group are collected and nothing is put out. -/
theorem collect (idle : Idle K e) (few : packets.length < K.toNat) :
    outputs step out e (packets.map .addPacket) = [] ∧ Collected e packets (run step e (packets.map .addPacket)) := by
  induction packets using List.reverseRecOn with
  | nil => exact ⟨rfl,collected_nil idle⟩
  | append_singleton packets data ih =>
    rw [List.length_append,List.length_singleton] at few
    obtain ⟨nothing,collected⟩ := ih (by omega)
    have bound := toNat_le_255 K
    have next := collected_add collected data
    have room : ¬ (run step e (packets.map .addPacket)).count + 1 ≥ (run step e (packets.map .addPacket)).groupSize := by
      rw [ge_iff_le,UInt8.not_le,UInt8.lt_iff_toNat_lt,collected.groupSize,idle.1]
      have counted := count_toNat next (by rw [List.length_append,List.length_singleton]; omega)
      rw [List.length_append,List.length_singleton] at counted
      exact counted.trans_lt few
    have added : (run step e (packets.map .addPacket)).addPacket data =
        (none,{ (run step e (packets.map .addPacket)).xorInto data with
          count := (run step e (packets.map .addPacket)).count + 1 }) := if_neg room
    rw [List.map_append,outputs_append,run_append,nothing]
    refine ⟨?_,?_⟩
    · show (FecEncoder.addPacket _ data).1.toList ++ [] = []
      rw [added]
      rfl
    · show Collected e _ (FecEncoder.addPacket _ data).2
      rw [added]
      exact next

/-- What is put out has the whole parity. -/
theorem take_parity (collected : Collected e packets now) : now.parity.take now.maxPacketLen = now.parity := by
  rw [collected.maxPacketLen,← collected.length,List.take_length]

/-- Flushing puts out the parity with the number of packets collected. -/
theorem flush_collected (collected : Collected e packets now) (nonempty : packets ≠ []) (few : packets.length < 256) :
    now.flush.1 = some ((FecHeader.mk e.groupId (UInt8.ofNat packets.length) (UInt8.ofNat packets.length)).encode ++
      now.parity) := by
  have some_counted : ¬ now.count = 0 := by
    intro none_counted
    have counted := count_toNat collected few
    rw [none_counted] at counted
    exact nonempty (List.eq_nil_of_length_eq_zero counted.symm)
  rw [FecEncoder.flush,if_neg some_counted,collected.groupId,collected.count,FecEncoder.buildParityPacket,
    take_parity collected]
  rfl

/-- The last packet of a full group puts out the parity with the size of the group. -/
theorem addPacket_completes (idle : Idle K e) (collected : Collected e packets now) (data : Bytes)
    (full : packets.length + 1 = K.toNat) :
    (now.addPacket data).1 = some ((FecHeader.mk e.groupId K K).encode ++ (now.xorInto data).parity) := by
  have next := collected_add collected data
  have complete : now.count + 1 ≥ now.groupSize := by
    have counted : now.count + 1 = UInt8.ofNat (packets ++ [data]).length := next.count
    rw [counted,List.length_append,List.length_singleton,full,UInt8.ofNat_toNat,collected.groupSize,idle.1]
    exact UInt8.le_refl K
  have built : (now.addPacket data).1 =
      some (FecEncoder.buildParityPacket { now.xorInto data with count := now.count + 1 }) :=
    congrArg Prod.fst (if_pos complete)
  rw [built,FecEncoder.buildParityPacket,take_parity next]
  show some ((FecHeader.mk now.groupId now.groupSize now.groupSize).encode ++ _) = _
  rw [collected.groupId,collected.groupSize,idle.1]

/-- For a group the encoder puts out one packet: the xor of the group behind a header
    that says how many they are. -/
theorem parity_of_group (idle : Idle K e) (nonempty : packets ≠ []) (fits : packets.length ≤ K.toNat) :
    ∃ parity : Bytes, outputs step out e (groupCalls K packets) =
        [(FecHeader.mk e.groupId (UInt8.ofNat packets.length) (UInt8.ofNat packets.length)).encode ++ parity] ∧
      parity.length = longest packets ∧ ∀ i, byteAt parity i = xorAll packets (fun l => byteAt l i) := by
  have bound := toNat_le_255 K
  rw [groupCalls]
  by_cases few : packets.length < K.toNat
  · obtain ⟨nothing,collected⟩ := collect idle few
    rw [if_pos few,outputs_append,nothing]
    refine ⟨_,?_,collected.length,collected.bytes⟩
    show (FecEncoder.flush _).1.toList ++ [] = _
    rw [flush_collected collected nonempty (by omega)]
    rfl
  · obtain ⟨front,last,rfl⟩ := (List.eq_nil_or_concat' packets).resolve_left nonempty
    have full : front.length + 1 = K.toNat := by
      rw [List.length_append,List.length_singleton] at few fits
      omega
    have size : UInt8.ofNat (front ++ [last]).length = K := by
      rw [List.length_append,List.length_singleton,full,UInt8.ofNat_toNat]
    obtain ⟨nothing,collected⟩ := collect idle (show front.length < K.toNat by omega)
    have next := collected_add collected last
    rw [if_neg few,List.append_nil,List.map_append,outputs_append,nothing]
    refine ⟨_,?_,next.length,next.bytes⟩
    show (FecEncoder.addPacket _ last).1.toList ++ [] = _
    rw [addPacket_completes idle collected last full,size]
    rfl

end

/-! ### Delivering a group -/

/-- A packet of a group is delivered. -/
inductive Delivery (n : ℕ) where
  | data (i : Fin n)
  | parity
  deriving DecidableEq

/-- What the encoder puts out for the group. -/
def parityPacket (e : FecEncoder) (packets : List Bytes) : Bytes :=
  (outputs step out e (groupCalls e.groupSize packets)).getLastD []

/-- The header and the data of a packet when it is delivered. -/
def arrival {n : ℕ} (e : FecEncoder) (packets : Fin n → Bytes) : Delivery n → FecHeader × Bytes
  | .data i => (⟨e.groupId,e.groupSize,UInt8.ofNat i⟩,packets i)
  | .parity =>
    ((FecHeader.decode (parityPacket e (List.ofFn packets))).getD ⟨0,0,0⟩,
      (parityPacket e (List.ofFn packets)).drop FecHeader.wireSize)

/-- A decoder, and what its last call returned. -/
structure Receiver where
  decoder : FecDecoder
  returned : Option Bytes := none

def receive (s : Receiver) (a : FecHeader × Bytes) : Receiver :=
  let (returned,decoder) := s.decoder.addPacket a.1 a.2
  ⟨decoder,returned⟩

/-- What a new decoder for the encoder's group size returns on the last of some
    deliveries. -/
def returned {n : ℕ} (e : FecEncoder) (packets : Fin n → Bytes) (seen : List (Delivery n)) : Option Bytes :=
  (run receive ⟨.new e.groupSize,none⟩ (seen.map (arrival e packets))).returned

/-- The data packets that were delivered, in order. -/
def indices {n : ℕ} (seen : List (Delivery n)) : List (Fin n) :=
  seen.filterMap fun
    | .data i => some i
    | .parity => none

/-- The decoder has counted one data packet less than a group, and has the parity. -/
def Ready {n : ℕ} (K : UInt8) (seen : List (Delivery n)) : Prop := (indices seen).length = K.toNat - 1 ∧ .parity ∈ seen

instance {n : ℕ} (K : UInt8) (seen : List (Delivery n)) : Decidable (Ready K seen) :=
  inferInstanceAs (Decidable (_ = _ ∧ _ ∈ seen))

section
variable {n : ℕ} {K : UInt8} {e : FecEncoder} {packets : Fin n → Bytes} {seen : List (Delivery n)}

theorem indices_snoc_data (seen : List (Delivery n)) (i : Fin n) : indices (seen ++ [.data i]) = indices seen ++ [i] := by
  simp [indices]

theorem indices_snoc_parity (seen : List (Delivery n)) : indices (seen ++ [.parity]) = indices seen := by
  simp [indices]

theorem mem_indices (seen : List (Delivery n)) (i : Fin n) : i ∈ indices seen ↔ .data i ∈ seen := by
  rw [indices,List.mem_filterMap]
  constructor
  · rintro ⟨d,member,found⟩
    cases d with
    | data j =>
      cases found
      exact member
    | parity => cases found
  · exact fun member => ⟨.data i,member,rfl⟩

/-- The parity of a group as it is delivered. -/
structure Carries (e : FecEncoder) (packets : Fin n → Bytes) (parity : Bytes) : Prop where
  arrival : arrival e packets .parity = (⟨e.groupId,UInt8.ofNat n,UInt8.ofNat n⟩,parity)
  length : parity.length = longest (List.ofFn packets)
  bytes : ∀ i, byteAt parity i = xorAll (List.finRange n) (fun j => byteAt (packets j) i)

theorem carries_parity (idle : Idle K e) (nonempty : 0 < n) (fits : n ≤ K.toNat) (packets : Fin n → Bytes) :
    ∃ parity, Carries e packets parity := by
  have some_packets : List.ofFn packets ≠ [] := by
    intro empty
    have length := congrArg List.length empty
    rw [List.length_ofFn] at length
    exact absurd length (Nat.ne_of_gt nonempty)
  obtain ⟨parity,put,length,bytes⟩ := parity_of_group idle some_packets (by rw [List.length_ofFn]; exact fits)
  rw [List.length_ofFn] at put
  refine ⟨parity,?_,length,fun i => ?_⟩
  · simp only [arrival,parityPacket,idle.1,put,List.getLastD_cons,List.getLastD_nil,FecHeader.decode_encode,
      Option.getD_some]
    rfl
  · rw [bytes,List.ofFn_eq_map,xorAll_map]

/-- What the decoder holds after some deliveries of the group. -/
structure Holds (e : FecEncoder) (packets : Fin n → Bytes) (parity : Bytes) (seen : List (Delivery n)) (d : FecDecoder) :
    Prop where
  expectedGroupSize : d.expectedGroupSize = e.groupSize
  started : d.groupStarted = true ∧ d.currentGroupId = e.groupId ∨ d.groupStarted = false ∧ seen = []
  received : d.received.map ReceivedPacket.data = (indices seen).map packets
  hasParity : d.hasParity = decide (.parity ∈ seen)
  parityData : .parity ∈ seen → d.parityData = parity

theorem holds_new (e : FecEncoder) (packets : Fin n → Bytes) (parity : Bytes) :
    Holds e packets parity [] (.new e.groupSize) :=
  ⟨rfl,.inr ⟨rfl,rfl⟩,rfl,rfl,fun member => absurd member List.not_mem_nil⟩

theorem holds_enterGroup {parity : Bytes} {d : FecDecoder} (holds : Holds e packets parity seen d) :
    Holds e packets parity seen (d.enterGroup e.groupId) ∧ (d.enterGroup e.groupId).groupStarted = true ∧
      (d.enterGroup e.groupId).currentGroupId = e.groupId := by
  rw [FecDecoder.enterGroup]
  rcases holds.started with ⟨started,same⟩ | ⟨fresh,rfl⟩
  · have stays : (!d.groupStarted || e.groupId != d.currentGroupId) = false := by simp [started,same]
    rw [if_neg (by rw [stays]; exact Bool.false_ne_true)]
    exact ⟨holds,started,same⟩
  · rw [if_pos (by rw [fresh]; rfl)]
    exact ⟨⟨holds.expectedGroupSize,.inl ⟨rfl,rfl⟩,rfl,rfl,fun member => absurd member List.not_mem_nil⟩,rfl,rfl⟩

theorem index_lt (idle : Idle K e) (fits : n ≤ K.toNat) (i : Fin n) : ¬ UInt8.ofNat i ≥ e.groupSize := by
  have bound := toNat_le_255 K
  have inside := i.isLt
  rw [ge_iff_le,UInt8.not_le,UInt8.lt_iff_toNat_lt,idle.1,UInt8.toNat_ofNat',Nat.mod_eq_of_lt (by omega)]
  omega

/-- One more delivery. -/
theorem holds_deliver (idle : Idle K e) (fits : n ≤ K.toNat) {parity : Bytes} (carries : Carries e packets parity)
    {d : FecDecoder} (holds : Holds e packets parity seen d) (delivery : Delivery n) :
    Holds e packets parity (seen ++ [delivery])
      (d.addPacket (arrival e packets delivery).1 (arrival e packets delivery).2).2 := by
  cases delivery with
  | data i =>
    obtain ⟨held,started,same⟩ := holds_enterGroup holds
    show Holds e packets parity _ ((d.enterGroup e.groupId).record ⟨e.groupId,e.groupSize,UInt8.ofNat i⟩ (packets i))
    rw [FecDecoder.record,if_neg (index_lt idle fits i)]
    refine ⟨held.expectedGroupSize,.inl ⟨started,same⟩,?_,?_,fun member => held.parityData ?_⟩
    · rw [List.map_append,held.received,indices_snoc_data,List.map_append]
      rfl
    · rw [held.hasParity]
      simp
    · simpa using member
  | parity =>
    obtain ⟨held,started,same⟩ := holds_enterGroup holds
    rw [carries.arrival]
    show Holds e packets parity _ ((d.enterGroup e.groupId).record ⟨e.groupId,UInt8.ofNat n,UInt8.ofNat n⟩ parity)
    rw [FecDecoder.record,if_pos (UInt8.le_refl _)]
    refine ⟨held.expectedGroupSize,.inl ⟨started,same⟩,?_,?_,fun _ => rfl⟩
    · rw [held.received,indices_snoc_parity]
    · simp

/-- What the last call returned is what the decoder makes of all it holds. -/
theorem holds_run (idle : Idle K e) (fits : n ≤ K.toNat) {parity : Bytes} (carries : Carries e packets parity)
    (seen : List (Delivery n)) :
    ∃ d, Holds e packets parity seen d ∧ (run receive ⟨.new e.groupSize,none⟩ (seen.map (arrival e packets))).decoder = d ∧
      returned e packets seen = if seen = [] then none else d.tryRecover := by
  induction seen using List.reverseRecOn with
  | nil => exact ⟨_,holds_new e packets parity,rfl,rfl⟩
  | append_singleton seen delivery ih =>
    obtain ⟨d,holds,reached,_⟩ := ih
    refine ⟨_,holds_deliver idle fits carries holds delivery,?_,?_⟩
    · rw [List.map_append,run_append]
      generalize run receive ⟨.new e.groupSize,none⟩ (seen.map (arrival e packets)) = s at reached ⊢
      subst reached
      rfl
    · rw [if_neg (by simp),returned,List.map_append,run_append]
      generalize run receive ⟨.new e.groupSize,none⟩ (seen.map (arrival e packets)) = s at reached ⊢
      subst reached
      rfl

theorem sized_of_holds (idle : Idle K e) (size : 2 ≤ K) {parity : Bytes} {d : FecDecoder}
    (holds : Holds e packets parity seen d) : 0 < d.expectedGroupSize.toNat := by
  have sized := UInt8.le_iff_toNat_le.mp size
  rw [holds.expectedGroupSize,idle.1]
  exact Nat.lt_of_lt_of_le Nat.two_pos sized

/-- The decoder tries to recover a packet when it is ready. -/
theorem tries_iff_ready (idle : Idle K e) {parity : Bytes} {d : FecDecoder} (holds : Holds e packets parity seen d) :
    d.received.length = d.expectedGroupSize.toNat - 1 ∧ d.hasParity = true ↔ Ready K seen := by
  have length := congrArg List.length holds.received
  rw [List.length_map,List.length_map] at length
  rw [holds.expectedGroupSize,idle.1,holds.hasParity,decide_eq_true_eq,length,Ready]

/-- Until the decoder is ready it returns nothing. -/
theorem returned_not_ready (packets : Fin n → Bytes) (idle : Idle K e) (size : 2 ≤ K) (nonempty : 0 < n)
    (fits : n ≤ K.toNat)
    (waiting : ¬ Ready K seen) : returned e packets seen = none := by
  obtain ⟨parity,carries⟩ := carries_parity idle nonempty fits packets
  obtain ⟨d,holds,_,result⟩ := holds_run idle fits carries seen
  rw [result]
  split
  · rfl
  · rw [FecDecoder.tryRecover_eq (sized_of_holds idle size holds),if_neg]
    rwa [tries_iff_ready idle holds]

/-- When it is ready it returns the xor of the packets that came an even number of
    times, as long as the longest of the group. -/
theorem returned_ready (packets : Fin n → Bytes) (idle : Idle K e) (size : 2 ≤ K) (nonempty : 0 < n) (fits : n ≤ K.toNat)
    (ready : Ready K seen) :
    ∃ r, returned e packets seen = some r ∧ r.length = longest (List.ofFn packets) ∧
      ∀ p, byteAt r p = xorAll (List.finRange n)
        (fun i => if (indices seen).count i % 2 = 0 then byteAt (packets i) p else 0) := by
  obtain ⟨parity,carries⟩ := carries_parity idle nonempty fits packets
  obtain ⟨d,holds,_,result⟩ := holds_run idle fits carries seen
  have there := ready.2
  have some_seen : seen ≠ [] := List.ne_nil_of_mem there
  have fit : ∀ l ∈ (indices seen).map packets, l.length ≤ parity.length := by
    intro l member
    obtain ⟨i,_,rfl⟩ := List.mem_map.mp member
    rw [carries.length]
    exact le_longest (List.mem_ofFn.mpr ⟨i,rfl⟩)
  have fit' : ∀ rp ∈ d.received, rp.data.length ≤ d.parityData.length := by
    intro rp member
    rw [holds.parityData there]
    exact fit _ (holds.received ▸ List.mem_map_of_mem member)
  refine ⟨d.recovered,?_,?_,fun p => ?_⟩
  · rw [result,if_neg some_seen,FecDecoder.tryRecover_eq (sized_of_holds idle size holds),
      if_pos ((tries_iff_ready idle holds).mpr ready)]
  · rw [FecDecoder.recovered_eq fit',length_foldl_xorInto,holds.parityData there,carries.length]
  · rw [FecDecoder.recovered_eq fit',holds.received,holds.parityData there,byteAt_foldl_xorInto fit,carries.bytes,
      xorAll_map]
    exact xorAll_xor_again (List.nodup_finRange n) (fun i _ => List.mem_finRange i) (fun i => byteAt (packets i) p)

/-- One packet was not delivered, and each other one an odd number of times. -/
def OneMissing (seen : List (Delivery n)) (i : Fin n) : Prop :=
  (indices seen).count i = 0 ∧ ∀ j, j ≠ i → (indices seen).count j % 2 = 1

instance (seen : List (Delivery n)) (i : Fin n) : Decidable (OneMissing seen i) :=
  inferInstanceAs (Decidable (_ = _ ∧ ∀ j, j ≠ i → _))

/-- The missing packet is what is left. -/
theorem returned_missing (packets : Fin n → Bytes) (idle : Idle K e) (size : 2 ≤ K) (nonempty : 0 < n) (fits : n ≤ K.toNat)
    (ready : Ready K seen) {i : Fin n} (missing : OneMissing seen i) :
    returned e packets seen = some (pad (longest (List.ofFn packets)) (packets i)) := by
  obtain ⟨r,result,length,bytes⟩ := returned_ready packets idle size nonempty fits ready
  have inside : (packets i).length ≤ longest (List.ofFn packets) := le_longest (List.mem_ofFn.mpr ⟨i,rfl⟩)
  have left : ∀ p, byteAt r p = byteAt (packets i) p := by
    intro p
    have only : (fun j => if (indices seen).count j % 2 = 0 then byteAt (packets j) p else 0) =
        (fun j => if j = i then byteAt (packets i) p else 0) := by
      funext j
      by_cases here : j = i
      · subst here
        rw [missing.1,if_pos rfl,if_pos rfl]
      · have odd := missing.2 j here
        rw [if_neg (by omega),if_neg here]
    rw [bytes,only,xorAll_single (List.nodup_finRange n) (List.mem_finRange i)]
  rw [result]
  refine congrArg some (eq_of_bytes (length.trans (length_pad inside).symm) (fun p => ?_))
  rw [left,byteAt_pad]

end

/-! ### One loss -/

/-- All packets of a group but one, and the parity. -/
def othersOf {n : ℕ} (m : Fin n) : List (Delivery n) := .parity :: ((List.finRange n).filter (· != m)).map .data

theorem indices_othersOf {n : ℕ} (m : Fin n) : indices (othersOf m) = (List.finRange n).filter (· != m) := by
  rw [othersOf,indices,List.filterMap_cons_none rfl,List.filterMap_map]
  exact List.filterMap_some

theorem length_others {n : ℕ} (m : Fin n) : ((List.finRange n).filter (· != m)).length = n - 1 := by
  rw [← (List.nodup_finRange n).erase_eq_filter m,List.length_erase_of_mem (List.mem_finRange m),List.length_finRange]

theorem length_deliveries {n : ℕ} (seen : List (Delivery n)) :
    seen.length = (indices seen).length + seen.count .parity := by
  induction seen with
  | nil => rfl
  | cons d seen ih =>
    cases d with
    | data i =>
      have front : indices (.data i :: seen) = i :: indices seen := rfl
      rw [List.length_cons,ih,front,List.length_cons,List.count_cons_of_ne (by simp),Nat.add_right_comm]
    | parity =>
      have front : indices (.parity :: seen) = indices seen := rfl
      rw [List.length_cons,ih,front,List.count_cons_self,Nat.add_assoc]

/-- Whichever packet of a full group is lost, and in whatever order the others and the
    parity arrive, the last of them makes the decoder return the lost one, padded to the
    longest, and no earlier one makes it return anything. -/
theorem recovers_single_loss (K : UInt8) (size : 2 ≤ K) (prior : List EncoderCall) {n : ℕ} (full : n = K.toNat)
    (packets : Fin n → Bytes) (m : Fin n) (order : List (Delivery n)) (arrives : order.Perm (othersOf m)) :
    (∀ seen, seen <+: order → seen ≠ order → returned (encoderAt K prior) packets seen = none) ∧
      returned (encoderAt K prior) packets order = some (pad (longest (List.ofFn packets)) (packets m)) := by
  have idle := idle_encoderAt size prior
  have sized := UInt8.le_iff_toNat_le.mp size
  have nonempty : 0 < n := Nat.lt_of_le_of_lt (Nat.zero_le _) m.isLt
  have same : (indices order).Perm ((List.finRange n).filter (· != m)) := by
    rw [← indices_othersOf]
    exact arrives.filterMap _
  constructor
  · intro seen front short
    refine returned_not_ready packets idle size nonempty full.le (fun ready => short ?_)
    have parity : 0 < seen.count .parity := List.count_pos_iff.mpr ready.2
    have length := length_deliveries seen
    rw [ready.1] at length
    refine front.eq_of_length_le ?_
    rw [arrives.length_eq,othersOf,List.length_cons,List.length_map,length_others]
    omega
  · refine returned_missing packets idle size nonempty full.le ⟨?_,?_⟩ ⟨?_,fun j other => ?_⟩
    · rw [same.length_eq,length_others,full]
    · exact arrives.mem_iff.mpr List.mem_cons_self
    · rw [same.count_eq,List.count_eq_zero]
      simp
    · rw [same.count_eq,List.count_eq_one_of_mem ((List.nodup_finRange n).filter _) (by simp [other])]

/-- Three packets of different lengths, of which the second is lost. -/
theorem recovers_single_loss_second :
    returned (encoderAt 3 [.addPacket [9]]) (![[1,1],[2],[4,4,4]] : Fin 3 → Bytes) [.data 2,.parity,.data 0] =
      some [2,0,0] :=
  (recovers_single_loss 3 (by decide) [.addPacket [9]] (show 3 = (3 : UInt8).toNat from rfl) ![[1,1],[2],[4,4,4]] 1
    [.data 2,.parity,.data 0]
    (by decide)).2

/-! ### Any deliveries -/

/-- What the last of some deliveries makes the decoder return is a packet of the group
    that was not delivered, up to padding; it returns nothing when all were. -/
def Genuine {n : ℕ} (e : FecEncoder) (packets : Fin n → Bytes) (seen : List (Delivery n)) : Prop :=
  (∀ r, returned e packets seen = some r → ∃ i, .data i ∉ seen ∧ ∃ z, r = packets i ++ List.replicate z 0) ∧
    ((∀ i, .data i ∈ seen) → returned e packets seen = none)

/-- Packets with a single one among zeros, each in its own place. -/
def units (n : ℕ) (i : Fin n) : Bytes := List.ofFn (fun j : Fin n => if j = i then 1 else 0)

theorem byteAt_units {n : ℕ} (i j : Fin n) : byteAt (units n i) j = if j = i then 1 else 0 := by
  rw [byteAt,units,List.getD_eq_getElem _ _ (by simp),List.getElem_ofFn]

section
variable {n : ℕ} {K : UInt8} {e : FecEncoder} {seen : List (Delivery n)}

/-- What is returned for such packets shows which of them were left. -/
theorem missing_of_genuine (idle : Idle K e) (size : 2 ≤ K) (nonempty : 0 < n) (fits : n ≤ K.toNat) (ready : Ready K seen)
    (genuine : Genuine e (units n) seen) : ∃ i, OneMissing seen i := by
  obtain ⟨r,result,_,bytes⟩ := returned_ready (units n) idle size nonempty fits ready
  obtain ⟨i,undelivered,z,padded⟩ := genuine.1 r result
  have absent : (indices seen).count i = 0 :=
    List.count_eq_zero.mpr (fun member => undelivered ((mem_indices seen i).mp member))
  refine ⟨i,absent,fun j other => ?_⟩
  have zero : byteAt r j = 0 := by
    rw [padded,byteAt_zeros,byteAt_units,if_neg other]
  have shown : byteAt r j = if (indices seen).count j % 2 = 0 then 1 else 0 := by
    have only : (fun i => if (indices seen).count i % 2 = 0 then byteAt (units n i) j else 0) =
        (fun i => if i = j then (if (indices seen).count j % 2 = 0 then 1 else 0) else 0) := by
      funext i
      rw [byteAt_units]
      by_cases here : i = j
      · subst here
        simp
      · simp [here,Ne.symm here]
    rw [bytes,only,xorAll_single (List.nodup_finRange n) (List.mem_finRange j)]
  by_contra even
  rw [shown,if_pos (by omega)] at zero
  exact absurd zero (by decide)

theorem genuine_of_missing (packets : Fin n → Bytes) (idle : Idle K e) (size : 2 ≤ K) (nonempty : 0 < n)
    (fits : n ≤ K.toNat) (missing : Ready K seen → ∃ i, OneMissing seen i) : Genuine e packets seen := by
  by_cases ready : Ready K seen
  · obtain ⟨i,absent,odd⟩ := missing ready
    have undelivered : .data i ∉ seen := by
      rw [← mem_indices]
      exact List.count_eq_zero.mp absent
    have result := returned_missing packets idle size nonempty fits ready ⟨absent,odd⟩
    constructor
    · intro r returns
      rw [result] at returns
      exact ⟨i,undelivered,_,(Option.some.inj returns).symm⟩
    · intro all
      exact absurd (all i) undelivered
  · have result := returned_not_ready packets idle size nonempty fits ready
    constructor
    · intro r returns
      rw [result] at returns
      cases returns
    · exact fun _ => result

end

/-- Whatever the packets of a group are, what is returned along some deliveries is
    genuine, exactly when each time the decoder has counted enough packets and has the
    parity, one packet was not delivered and each other one an odd number of times. -/
theorem never_fabricates_iff (K : UInt8) (size : 2 ≤ K) (prior : List EncoderCall) {n : ℕ} (nonempty : 0 < n)
    (fits : n ≤ K.toNat) (deliveries : List (Delivery n)) :
    (∀ packets : Fin n → Bytes, ∀ seen, seen <+: deliveries → Genuine (encoderAt K prior) packets seen) ↔
      ∀ seen, seen <+: deliveries → Ready K seen → ∃ i, OneMissing seen i := by
  have idle := idle_encoderAt size prior
  constructor
  · intro genuine seen front ready
    exact missing_of_genuine idle size nonempty fits ready (genuine (units n) seen front)
  · intro missing packets seen front
    exact genuine_of_missing packets idle size nonempty fits (missing seen front)

/-- Two of three packets, each once, and the parity. -/
theorem never_fabricates_iff_two :
    Genuine (encoderAt 3 []) (![[1],[2],[4]] : Fin 3 → Bytes) [.data 2,.parity,.data 0] := by
  have once : ∀ seen ∈ ([.data 2,.parity,.data 0] : List (Delivery 3)).inits, Ready 3 seen → ∃ i, OneMissing seen i := by
    decide
  refine (never_fabricates_iff 3 (by decide) [] (by decide) (show 3 ≤ (3 : UInt8).toNat from Nat.le_refl 3) _).mpr ?_ _ _
    (List.prefix_refl _)
  exact fun seen front => once seen ((List.mem_inits _ _).mpr front)

/-- A packet of a full group arrives twice: what is returned is none of the group. The
    only packet of a group that was flushed arrives: zeros are returned though nothing
    is missing. -/
theorem fabricated :
    returned (encoderAt 3 []) (![[1],[2],[4]] : Fin 3 → Bytes) [.data 0,.data 0,.parity] = some [7] ∧
      returned (encoderAt 2 []) (![[5]] : Fin 1 → Bytes) [.data 0,.parity] = some [0] := by
  decide

end Rom.FecRuns
