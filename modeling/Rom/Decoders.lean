import Rom.Checked
import Rom.LwwRegister
import Rom.Counters
import Rom.OrSet
import Rom.Recovery
import Rom.Capability
import Rom.Subscription

/-!
The decoders of bytes from the network, with their reads checked: each reads at
the offsets of the source and ends at the first read outside its buffer. They do
what the decoders over lists do, which read 0 there, and so never read outside
(`lwwMerge_eq` and its like).
-/
namespace Rom.Decoders
open Std Rom.Checked

/-- The number of rounds that suffices for every loop. -/
def enough : ℕ := 2^16

/-! ### Words -/

def u16At (data : Bytes) (i : ℕ) : Outcome UInt16 := do
  let word ← slice data i 2
  pure (readU16 word)

def u32At (data : Bytes) (i : ℕ) : Outcome UInt32 := do
  let word ← slice data i 4
  pure (readU32 word)

theorem byteAt_inside {data : Bytes} {i : ℕ} (inside : i < data.length) : readAt data i = .done (byteAt data i) :=
  readAt_inside inside 0

theorem u16At_inside {data : Bytes} {i : ℕ} (inside : i + 2 ≤ data.length) :
    u16At data i = .done (readU16 (data.drop i)) := by
  rw [u16At,slice_inside inside,Outcome.done_bind,readU16_take _ (Nat.le_refl 2)]
  rfl

theorem u32At_inside {data : Bytes} {i : ℕ} (inside : i + 4 ≤ data.length) :
    u32At data i = .done (readU32 (data.drop i)) := by
  rw [u32At,slice_inside inside,Outcome.done_bind,readU32_take _ (Nat.le_refl 4)]
  rfl

/-- A loop with an 8-bit counter. -/
theorem forLoop8 {σ β : Type} {fuel : ℕ} (fueled : enough ≤ fuel) (count : UInt8) (body : σ → Outcome (Round σ β)) (s : σ) :
    forLoop 8 fuel count.toNat 0 body s = rounds count.toNat body s := by
  have bound := count.toNat_lt
  rw [enough] at fueled
  exact forLoop_eq_rounds bound body fuel 0 (Nat.zero_le _) (by omega) s

/-- A loop with a 16-bit counter. -/
theorem forLoop16 {σ β : Type} {fuel : ℕ} (fueled : enough ≤ fuel) (count : UInt16) (body : σ → Outcome (Round σ β))
    (s : σ) :
    forLoop 16 fuel count.toNat 0 body s = rounds count.toNat body s := by
  have bound := count.toNat_lt
  rw [enough] at fueled
  exact forLoop_eq_rounds bound body fuel 0 (Nat.zero_le _) (by omega) s

/-! ### Registers -/

def lwwMerge (r : LwwRegister) (data : Bytes) : Outcome (LwwRegister × Bool) :=
  if data.length < LwwRegister.headerSize then pure (r,false)
  else do
    let ts ← u32At data 0
    let node ← u16At data 4
    if r.incomingWins ts node then
      let value ← slice data LwwRegister.headerSize (data.length - LwwRegister.headerSize)
      pure ({ r with timestamp := ts, nodeId := node, value := value },true)
    else pure (r,false)

theorem lwwMerge_eq (r : LwwRegister) (data : Bytes) : lwwMerge r data = .done (r.merge data) := by
  rw [lwwMerge,LwwRegister.merge]
  by_cases short : data.length < LwwRegister.headerSize
  · simp [short]
  · have long : 6 ≤ data.length := Nat.not_lt.mp short
    have rest : LwwRegister.headerSize + (data.length - LwwRegister.headerSize) ≤ data.length := by
      rw [LwwRegister.headerSize]
      omega
    have all : (data.drop LwwRegister.headerSize).take (data.length - LwwRegister.headerSize) =
        data.drop LwwRegister.headerSize := List.take_of_length_le (by rw [List.length_drop])
    rw [if_neg short,if_neg short,u32At_inside (by omega),u16At_inside (by omega)]
    simp only [Outcome.done_bind,List.drop_zero,slice_inside rest,all]
    split <;> rfl

/-! ### Counters -/

/-- One entry; the 64-bit count is read as two halves. -/
def counterRound (data : Bytes) (st : ℕ × (GCounter × Bool)) :
    Outcome (Round (ℕ × (GCounter × Bool)) (GCounter × Bool)) := do
  let nid ← u16At data st.1
  let hi ← u32At data (st.1 + 2)
  let lo ← u32At data (st.1 + 6)
  let cnt := UInt64.ofNat (hi.toNat * 2^32 + lo.toNat)
  pure (.next (st.1 + GCounter.entryWireSize,GCounter.mergeEntry st.2 nid cnt))

def gMerge (fuel : ℕ) (c : GCounter) (data : Bytes) : Outcome (GCounter × Bool) :=
  if data.length < 1 then pure (c,false)
  else do
    let count ← readAt data 0
    if data.length < 1 + count.toNat * GCounter.entryWireSize then pure (c,false)
    else
      let r ← forLoop 8 fuel count.toNat 0 (counterRound data) (1,(c,false))
      pure (r.result Prod.snd)

def pnMerge (fuel : ℕ) (c : PnCounter) (data : Bytes) : Outcome (PnCounter × Bool) :=
  if data.length < 2 then pure (c,false)
  else do
    let pCount ← readAt data 0
    let pSize := 1 + pCount.toNat * GCounter.entryWireSize
    if data.length < pSize + 1 then pure (c,false)
    else
      let pData ← slice data 0 pSize
      let (p,changedP) ← gMerge fuel c.p pData
      let nData ← slice data pSize (data.length - pSize)
      let (n,changedN) ← gMerge fuel c.n nData
      pure (⟨p,n⟩,changedP || changedN)

theorem mergeLoop_eq_records (n : ℕ) (p : Bytes) (st : GCounter × Bool) :
    GCounter.mergeLoop n p st = records GCounter.entryWireSize
      (fun st p => GCounter.mergeEntry st (readU16 p) (readU64 (p.drop 2))) n p st := by
  induction n generalizing p st with
  | zero => rfl
  | succ n ih => exact ih _ _

theorem counterRounds_eq (data : Bytes) (n off : ℕ) (st : GCounter × Bool)
    (inside : off + n * GCounter.entryWireSize ≤ data.length) :
    rounds n (counterRound data) (off,st) =
      .done (.next (off + n * GCounter.entryWireSize,GCounter.mergeLoop n (data.drop off) st)) := by
  rw [mergeLoop_eq_records]
  refine rounds_records ?_ n off st inside
  intro off st room
  rw [GCounter.entryWireSize] at room
  rw [counterRound,u16At_inside (by dsimp only; omega),u32At_inside (by dsimp only; omega),
    u32At_inside (by dsimp only; omega)]
  simp [readU64,List.drop_drop]

theorem gMerge_eq {fuel : ℕ} (fueled : enough ≤ fuel) (c : GCounter) (data : Bytes) :
    gMerge fuel c data = .done (c.merge data) := by
  rw [gMerge,GCounter.merge]
  by_cases short : data.length < 1
  · simp [short]
  · rw [if_neg short,if_neg short,byteAt_inside (Nat.not_lt.mp short),Outcome.done_bind]
    dsimp only
    split
    · rfl
    · next room =>
      rw [forLoop8 fueled,counterRounds_eq data _ 1 _ (Nat.not_lt.mp room)]
      rfl

theorem pnMerge_eq {fuel : ℕ} (fueled : enough ≤ fuel) (c : PnCounter) (data : Bytes) :
    pnMerge fuel c data = .done (c.merge data) := by
  rw [pnMerge,PnCounter.merge]
  by_cases short : data.length < 2
  · simp [short]
  · rw [if_neg short,if_neg short,byteAt_inside (by omega),Outcome.done_bind]
    dsimp only
    split
    · rfl
    · next room =>
      have all : (data.drop (1 + (byteAt data 0).toNat * GCounter.entryWireSize)).take
          (data.length - (1 + (byteAt data 0).toNat * GCounter.entryWireSize)) =
            data.drop (1 + (byteAt data 0).toNat * GCounter.entryWireSize) :=
        List.take_of_length_le (by rw [List.length_drop])
      rw [slice_inside (by omega),slice_inside (by omega),all,List.drop_zero]
      simp only [Outcome.done_bind,gMerge_eq fueled]
      rfl

/-! ### Sets -/

/-- One tag. -/
def tagRound (data : Bytes) (st : ℕ × TagSet) : Outcome (Round (ℕ × TagSet) (ℕ × TagSet)) := do
  let nid ← u16At data st.1
  let seq ← u32At data (st.1 + 2)
  pure (.next (st.1 + 6,st.2.insert ⟨nid,seq⟩))

/-- One element with its tags. -/
def elementRound (fuel : ℕ) (data : Bytes) (st : ℕ × EntryMap) : Outcome (Round (ℕ × EntryMap) (Option Decoded)) := do
  let off := st.1
  if off + 2 > data.length then pure (.leave none)
  else
    let elemLen ← u16At data off
    let off := off + 2
    if off + elemLen.toNat > data.length then pure (.leave none)
    else
      let key ← slice data off elemLen.toNat
      let off := off + elemLen.toNat
      if off + 1 > data.length then pure (.leave none)
      else
        let tagCount ← readAt data off
        let off := off + 1
        if off + tagCount.toNat * 6 > data.length then pure (.leave none)
        else
          let r ← forLoop 8 fuel tagCount.toNat 0 (tagRound data) (off,∅)
          let (off,tags) := r.result id
          pure (.next (off,OrSet.insertTags st.2 (key,tags)))

/-- The tombstones, behind the elements. -/
def readTombstones (fuel : ℕ) (data : Bytes) (st : ℕ × EntryMap) : Outcome (Option Decoded) := do
  let off := st.1
  if off + 2 > data.length then pure none
  else
    let tombCount ← u16At data off
    let off := off + 2
    if off + tombCount.toNat * 6 > data.length then pure none
    else
      let r ← forLoop 16 fuel tombCount.toNat 0 (tagRound data) (off,∅)
      pure (some ⟨st.2,(r.result id).2⟩)

def decodeEntries (fuel : ℕ) (data : Bytes) : Outcome (Option Decoded) :=
  if data.length < 2 then pure none
  else do
    let entryCount ← u16At data 0
    match ← forLoop 16 fuel entryCount.toNat 0 (elementRound fuel data) (2,∅) with
    | .leave r => pure r
    | .next st => readTombstones fuel data st

theorem decodeTags_eq_records (n : ℕ) (p : Bytes) (tags : TagSet) :
    OrSet.decodeTags n p tags =
      (records 6 (fun tags p => tags.insert ⟨readU16 p,readU32 (p.drop 2)⟩) n p tags,p.drop (n * 6)) := by
  induction n generalizing p tags with
  | zero => simp [OrSet.decodeTags,records]
  | succ n ih =>
    rw [OrSet.decodeTags,ih,records,List.drop_drop,Nat.succ_mul,Nat.add_comm 6]

theorem tagRounds_eq (data : Bytes) (n off : ℕ) (tags : TagSet) (inside : off + n * 6 ≤ data.length) :
    rounds n (tagRound data) (off,tags) = .done (.next (off + n * 6,(OrSet.decodeTags n (data.drop off) tags).1)) ∧
      (OrSet.decodeTags n (data.drop off) tags).2 = data.drop (off + n * 6) := by
  rw [decodeTags_eq_records,List.drop_drop]
  refine ⟨rounds_records ?_ n off tags inside,rfl⟩
  intro off tags room
  rw [tagRound,u16At_inside (by dsimp only; omega),u32At_inside (by dsimp only; omega)]
  simp [List.drop_drop]

/-- An element is refused, or read up to an offset within the buffer. -/
theorem elementRound_cases {fuel : ℕ} (fueled : enough ≤ fuel) (data : Bytes) (off : ℕ) (inside : off ≤ data.length)
    (m : EntryMap) :
    OrSet.decodeEntry (data.drop off) = none ∧ elementRound fuel data (off,m) = .done (.leave none) ∨
      ∃ e off', off' ≤ data.length ∧ OrSet.decodeEntry (data.drop off) = some (e,data.drop off') ∧
        elementRound fuel data (off,m) = .done (.next (off',OrSet.insertTags m e)) := by
  simp only [elementRound,OrSet.decodeEntry,List.length_drop]
  by_cases head : off + 2 > data.length
  · refine .inl ⟨if_pos (by omega),?_⟩
    rw [if_pos head]
    rfl
  · rw [if_neg head,if_neg (by omega),u16At_inside (by omega)]
    simp only [Outcome.done_bind]
    generalize (readU16 (data.drop off)).toNat = elemLen
    by_cases elem : off + 2 + elemLen > data.length
    · refine .inl ⟨if_pos (by omega),?_⟩
      rw [if_pos elem]
      rfl
    · rw [if_neg elem,if_neg (by omega),slice_inside (by omega)]
      simp only [Outcome.done_bind]
      by_cases count : off + 2 + elemLen + 1 > data.length
      · refine .inl ⟨if_pos (by omega),?_⟩
        rw [if_pos count]
        rfl
      · rw [if_neg count,if_neg (by omega),byteAt_inside (by omega)]
        have here : byteAt (((data.drop off).drop 2).drop elemLen) 0 = byteAt data (off + 2 + elemLen) := by
          simp [byteAt,List.drop_drop]
        simp only [Outcome.done_bind,here]
        generalize byteAt data (off + 2 + elemLen) = tagCount
        by_cases tags : off + 2 + elemLen + 1 + tagCount.toNat * 6 > data.length
        · refine .inl ⟨if_pos (by omega),?_⟩
          rw [if_pos tags]
          rfl
        · rw [if_neg tags,if_neg (by omega),forLoop8 fueled]
          obtain ⟨read,rest⟩ := tagRounds_eq data tagCount.toNat (off + 2 + elemLen + 1) ∅ (by omega)
          simp only [read,Outcome.done_bind,List.drop_drop]
          refine .inr ⟨_,off + 2 + elemLen + 1 + tagCount.toNat * 6,by omega,?_,rfl⟩
          rw [rest]
          rfl

/-- So are the elements. -/
theorem elementRounds_cases {fuel : ℕ} (fueled : enough ≤ fuel) (data : Bytes) (n off : ℕ) (inside : off ≤ data.length)
    (m : EntryMap) :
    OrSet.decodeList n (data.drop off) m = none ∧ rounds n (elementRound fuel data) (off,m) = .done (.leave none) ∨
      ∃ m' off', off' ≤ data.length ∧ OrSet.decodeList n (data.drop off) m = some (m',data.drop off') ∧
        rounds n (elementRound fuel data) (off,m) = .done (.next (off',m')) := by
  induction n generalizing off m with
  | zero => exact .inr ⟨m,off,inside,rfl,rfl⟩
  | succ n ih =>
    rw [rounds,OrSet.decodeList]
    rcases elementRound_cases fueled data off inside m with ⟨refused,left⟩ | ⟨e,off',inside',read,next⟩
    · rw [refused,left]
      exact .inl ⟨rfl,rfl⟩
    · rw [read,next]
      exact ih off' inside' (OrSet.insertTags m e)

theorem readTombstones_eq {fuel : ℕ} (fueled : enough ≤ fuel) (data : Bytes) (off : ℕ) (inside : off ≤ data.length)
    (m : EntryMap) :
    readTombstones fuel data (off,m) = .done (
      if (data.drop off).length < 2 then none
      else
        let tombCount := (readU16 (data.drop off)).toNat
        let p := (data.drop off).drop 2
        if p.length < tombCount * 6 then none else some ⟨m,(OrSet.decodeTags tombCount p ∅).1⟩) := by
  simp only [readTombstones,List.length_drop]
  by_cases head : off + 2 > data.length
  · rw [if_pos head,if_pos (by omega)]
    rfl
  · rw [if_neg head,if_neg (by omega),u16At_inside (by omega)]
    simp only [Outcome.done_bind]
    by_cases tags : off + 2 + (readU16 (data.drop off)).toNat * 6 > data.length
    · rw [if_pos tags,if_pos (by omega)]
      rfl
    · obtain ⟨read,_⟩ := tagRounds_eq data (readU16 (data.drop off)).toNat (off + 2) ∅ (by omega)
      rw [if_neg tags,if_neg (by omega),forLoop16 fueled,read,List.drop_drop]
      rfl

theorem decodeEntries_eq {fuel : ℕ} (fueled : enough ≤ fuel) (data : Bytes) :
    decodeEntries fuel data = .done (OrSet.decodeEntries data) := by
  rw [decodeEntries,OrSet.decodeEntries]
  by_cases short : data.length < 2
  · rw [if_pos short,if_pos short]
    rfl
  · rw [if_neg short,if_neg short,u16At_inside (by omega),List.drop_zero,Outcome.done_bind,forLoop16 fueled]
    rcases elementRounds_cases fueled data (readU16 data).toNat 2 (by omega) ∅ with
      ⟨refused,left⟩ | ⟨m,off,inside,read,next⟩
    · rw [refused,left]
      rfl
    · rw [read,next]
      exact readTombstones_eq fueled data off inside m

/-! ### Version vectors and recovery requests -/

def versionRound (data : Bytes) (st : ℕ × List VersionEntry) :
    Outcome (Round (ℕ × List VersionEntry) (ℕ × List VersionEntry)) := do
  let nodeId ← u16At data st.1
  let seq ← u32At data (st.1 + 2)
  pure (.next (st.1 + 6,st.2 ++ [⟨nodeId,seq⟩]))

def vectorDecode (fuel : ℕ) (buf : Bytes) : Outcome (Option VersionVector) :=
  if buf.length < 1 then pure none
  else do
    let count ← readAt buf 0
    let needed := 1 + count.toNat * 6
    if buf.length < needed then pure none
    else
      let r ← forLoop 8 fuel count.toNat 0 (versionRound buf) (1,[])
      pure (some ⟨(r.result id).2⟩)

/-- One path with its version. -/
def pathRound (fuel : ℕ) (data : Bytes) (st : ℕ × RecoveryRequest) :
    Outcome (Round (ℕ × RecoveryRequest) (RecoveryRequest × Bool)) := do
  let off := st.1
  if off + 4 > data.length then pure (.leave (st.2,false))
  else
    let pathHash ← u32At data off
    let off := off + 4
    if off ≥ data.length then pure (.leave (st.2,false))
    else
      let entryCount ← readAt data off
      let vvSize := 1 + entryCount.toNat * 6
      if off + vvSize > data.length then pure (.leave (st.2,false))
      else
        let view ← slice data off vvSize
        match ← vectorDecode fuel view with
        | none => pure (.leave (st.2,false))
        | some vv => pure (.next (off + vvSize,⟨st.2.knownVersions.insert pathHash vv⟩))

def recoveryDecode (fuel : ℕ) (data : Bytes) (out : RecoveryRequest) : Outcome (RecoveryRequest × Bool) :=
  if data.length < 2 then pure (out,false)
  else do
    let count ← u16At data 0
    let r ← forLoop 16 fuel count.toNat 0 (pathRound fuel data) (2,{})
    pure (r.result (fun st => (st.2,true)))

theorem decodeLoop_eq_records (n : ℕ) (p : Bytes) (entries : List VersionEntry) :
    VersionVector.decodeLoop n p entries =
      records 6 (fun entries p => entries ++ [⟨readU16 p,readU32 (p.drop 2)⟩]) n p entries := by
  induction n generalizing p entries with
  | zero => rfl
  | succ n ih => exact ih _ _

theorem versionRounds_eq (data : Bytes) (n off : ℕ) (entries : List VersionEntry) (inside : off + n * 6 ≤ data.length) :
    rounds n (versionRound data) (off,entries) =
      .done (.next (off + n * 6,VersionVector.decodeLoop n (data.drop off) entries)) := by
  rw [decodeLoop_eq_records]
  refine rounds_records ?_ n off entries inside
  intro off entries room
  rw [versionRound,u16At_inside (by dsimp only; omega),u32At_inside (by dsimp only; omega)]
  simp [List.drop_drop]

theorem vectorDecode_eq {fuel : ℕ} (fueled : enough ≤ fuel) (buf : Bytes) :
    vectorDecode fuel buf = .done (VersionVector.decode buf) := by
  rw [vectorDecode,VersionVector.decode]
  by_cases short : buf.length < 1
  · rw [if_pos short,if_pos short]
    rfl
  · rw [if_neg short,if_neg short,byteAt_inside (by omega),Outcome.done_bind]
    dsimp only
    split
    · rfl
    · next room =>
      rw [forLoop8 fueled,versionRounds_eq buf _ 1 _ (Nat.not_lt.mp room)]
      rfl

/-- A path makes the request refused or is read up to an offset within the buffer. -/
theorem pathRounds_eq {fuel : ℕ} (fueled : enough ≤ fuel) (data : Bytes) (n off : ℕ) (inside : off ≤ data.length)
    (out : RecoveryRequest) :
    ∃ r, rounds n (pathRound fuel data) (off,out) = .done r ∧
      r.result (fun st => (st.2,true)) = RecoveryRequest.decodeLoop n (data.drop off) out := by
  induction n generalizing off out with
  | zero => exact ⟨_,rfl,rfl⟩
  | succ n ih =>
    simp only [rounds,RecoveryRequest.decodeLoop,pathRound,List.length_drop]
    by_cases head : off + 4 > data.length
    · rw [if_pos head,if_pos (by omega)]
      exact ⟨_,rfl,rfl⟩
    · rw [if_neg head,if_neg (by omega),u32At_inside (by omega)]
      simp only [Outcome.done_bind]
      by_cases count : off + 4 ≥ data.length
      · rw [if_pos count,if_pos (by omega)]
        exact ⟨_,rfl,rfl⟩
      · rw [if_neg count,if_neg (by omega),byteAt_inside (by omega)]
        have here : byteAt ((data.drop off).drop 4) 0 = byteAt data (off + 4) := by
          simp [byteAt,List.drop_drop]
        simp only [Outcome.done_bind,here]
        generalize 1 + (byteAt data (off + 4)).toNat * 6 = vvSize
        by_cases room : off + 4 + vvSize > data.length
        · rw [if_pos room,if_pos (by omega)]
          exact ⟨_,rfl,rfl⟩
        · rw [if_neg room,if_neg (by omega),slice_inside (by omega)]
          simp only [Outcome.done_bind,vectorDecode_eq fueled,List.drop_drop]
          cases VersionVector.decode ((data.drop (off + 4)).take vvSize) with
          | none => exact ⟨_,rfl,rfl⟩
          | some vv => exact ih (off + 4 + vvSize) (by omega) _

theorem recoveryDecode_eq {fuel : ℕ} (fueled : enough ≤ fuel) (data : Bytes) (out : RecoveryRequest) :
    recoveryDecode fuel data out = .done (RecoveryRequest.decode data out) := by
  rw [recoveryDecode,RecoveryRequest.decode]
  by_cases short : data.length < 2
  · rw [if_pos short,if_pos short]
    rfl
  · obtain ⟨r,read,result⟩ := pathRounds_eq fueled data (readU16 data).toNat 2 (by omega) {}
    rw [if_neg short,if_neg short,u16At_inside (by omega),List.drop_zero,Outcome.done_bind,forLoop16 fueled,read,
      Outcome.done_bind,result]
    rfl

/-! ### Tokens and subscriptions -/

def tokenDecode (data : Bytes) : Outcome (Option CapabilityToken) :=
  if data.length < 83 then pure none
  else do
    let tokenId ← u32At data 0
    let issuerId ← u32At data 4
    let permissions ← readAt data 8
    let expiryUs ← u32At data 9
    let parentTokenId ← u32At data 13
    let patLen ← u16At data 17
    if CapabilityToken.fixedSize + patLen.toNat + CapabilityToken.signatureSize > data.length then pure none
    else
      let pathPattern ← slice data CapabilityToken.fixedSize patLen.toNat
      let signature ← slice data (CapabilityToken.fixedSize + patLen.toNat) CapabilityToken.signatureSize
      pure (some
        { tokenId := tokenId
          issuerId := issuerId
          permissions := permissions
          expiryUs := expiryUs
          parentTokenId := parentTokenId
          pathPattern := pathPattern
          signature := copyBytes 64 signature })

def subscribeDecode (buf : Bytes) : Outcome (Option SubscribeFramePayload) :=
  if buf.length < SubscribeFramePayload.fixedSize then pure none
  else do
    let subId ← u32At buf 0
    let initialCredits ← u32At buf 4
    let freshnessUs ← u32At buf 8
    let tier ← readAt buf 12
    let patLen ← u16At buf 13
    if buf.length < SubscribeFramePayload.fixedSize + patLen.toNat then pure none
    else
      let pattern ← slice buf SubscribeFramePayload.fixedSize patLen.toNat
      pure (some ⟨subId,initialCredits.toInt32,freshnessUs,.ofByte tier,pattern⟩)

/-- A copy takes its own bytes only. -/
theorem copyBytes_take (n : ℕ) (p : Bytes) : copyBytes n (p.take n) = copyBytes n p := by
  apply Vector.ext
  intro i inside
  simp [copyBytes,byteAt]

theorem tokenDecode_eq (data : Bytes) : tokenDecode data = .done (CapabilityToken.decode data) := by
  rw [tokenDecode,CapabilityToken.decode]
  by_cases short : data.length < 83
  · rw [if_pos short,if_pos short]
    rfl
  · rw [if_neg short,if_neg short,u32At_inside (by omega),u32At_inside (by omega),byteAt_inside (by omega),
      u32At_inside (by omega),u32At_inside (by omega),u16At_inside (by omega)]
    simp only [Outcome.done_bind,List.drop_zero]
    split
    · rfl
    · next room =>
      rw [slice_inside (by rw [CapabilityToken.signatureSize] at room; omega),slice_inside (Nat.not_lt.mp room)]
      simp only [Outcome.done_bind,CapabilityToken.signatureSize,copyBytes_take]
      rfl

theorem subscribeDecode_eq (buf : Bytes) : subscribeDecode buf = .done (SubscribeFramePayload.decode buf) := by
  rw [subscribeDecode,SubscribeFramePayload.decode]
  by_cases short : buf.length < SubscribeFramePayload.fixedSize
  · rw [if_pos short,if_pos short]
    rfl
  · have long : 15 ≤ buf.length := Nat.not_lt.mp short
    rw [if_neg short,if_neg short,u32At_inside (by omega),u32At_inside (by omega),u32At_inside (by omega),
      byteAt_inside (by omega),u16At_inside (by omega)]
    simp only [Outcome.done_bind,List.drop_zero]
    split
    · rfl
    · next room =>
      rw [slice_inside (Nat.not_lt.mp room)]
      rfl

end Rom.Decoders
