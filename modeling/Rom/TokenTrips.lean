import Rom.Capability
import Rom.Subscription
import Rom.Formats

/-!
Round trips of capability tokens and of subscriptions. Both are written as fields of
a fixed size and a pattern behind its length, a token with its signature behind that.
What fits is read back, and what is read, written again, is the front of the bytes
it was read from (`codecs_inverse`). So the fields of a token are those that were
signed: two tokens with the same signed bytes differ in their signature at most.
-/
namespace Rom

/-! ### Tokens -/

namespace CapabilityToken

/-- The bytes of a written token that its signature is taken over. -/
def signedPart (data : Bytes) : Bytes := data.take (fixedSize + patternLength data)

theorem pathPattern_length {data : Bytes} {t : CapabilityToken} (decoded : decode data = some t) :
    t.pathPattern.length = patternLength data := by
  obtain ⟨room,_,signs,_⟩ := decode_eq_some decoded
  have length := congrArg List.length signs
  rw [signableBytes_length,List.length_take,Nat.min_eq_left (by omega)] at length
  omega

/-- A token that is read is written as the bytes it was read from. -/
theorem encode_of_decode {data : Bytes} {t : CapabilityToken} (decoded : decode data = some t) :
    t.encode = data.take (fixedSize + patternLength data + signatureSize) := by
  obtain ⟨room,_,signs,signature⟩ := decode_eq_some decoded
  have behind : 64 ≤ (data.drop (fixedSize + patternLength data)).length := by
    rw [signatureSize] at room
    rw [List.length_drop]
    omega
  rw [encode,signs,signature,toList_copyBytes behind]
  exact List.take_add.symm

/-- The signed bytes determine every field but the signature. -/
theorem eq_of_signableBytes {t t' : CapabilityToken} (fits : t.pathPattern.length < 2^16)
    (fits' : t'.pathPattern.length < 2^16) (same : t.signableBytes = t'.signableBytes) :
    { t with signature := t'.signature } = t' := by
  have written : { t with signature := t'.signature }.encode = t'.encode := congrArg (· ++ t'.signature.toList) same
  have read := decode_encode { t with signature := t'.signature } [] fits
  rw [written,decode_encode t' [] fits'] at read
  exact (Option.some.inj read).symm

theorem eq_of_signedPart {data data' : Bytes} {t t' : CapabilityToken} (decoded : decode data = some t)
    (decoded' : decode data' = some t') (same : signedPart data = signedPart data') :
    { t with signature := t'.signature } = t' := by
  have fits : t.pathPattern.length < 2^16 := by
    rw [pathPattern_length decoded]
    exact (readU16 (data.drop 17)).toNat_lt
  have fits' : t'.pathPattern.length < 2^16 := by
    rw [pathPattern_length decoded']
    exact (readU16 (data'.drop 17)).toNat_lt
  obtain ⟨_,_,signs,_⟩ := decode_eq_some decoded
  obtain ⟨_,_,signs',_⟩ := decode_eq_some decoded'
  exact eq_of_signableBytes fits fits' (by rw [signs,signs']; exact same)

end CapabilityToken

/-! ### Subscriptions -/

namespace SubscribeFramePayload
open Format

/-- The fields in front of the pattern. -/
structure Head where
  subId : UInt32
  initialCredits : Int32
  freshnessUs : UInt32
  tier : ResolutionTier

def encodeHead (h : Head) : Bytes :=
  writeU32 h.subId ++ writeU32 h.initialCredits.toUInt32 ++ writeU32 h.freshnessUs ++ [h.tier.toByte]

def headAt (p : Bytes) : Head := ⟨readU32 p,(readU32 (p.drop 4)).toInt32,readU32 (p.drop 8),.ofByte (byteAt p 12)⟩

theorem headAt_encode (h : Head) (rest : Bytes) : headAt (encodeHead h ++ rest) = h := by
  have shape : encodeHead h ++ rest = writeU32 h.subId ++ (writeU32 h.initialCredits.toUInt32 ++
      (writeU32 h.freshnessUs ++ (h.tier.toByte :: rest))) := by
    simp [encodeHead]
  have credits : readU32 ((encodeHead h ++ rest).drop 4) = h.initialCredits.toUInt32 := by
    rw [shape]
    exact readU32_write _ _
  have freshness : readU32 ((encodeHead h ++ rest).drop 8) = h.freshnessUs := by
    rw [shape]
    exact readU32_write _ _
  have tier : byteAt (encodeHead h ++ rest) 12 = h.tier.toByte := by
    rw [shape]
    rfl
  rw [headAt,credits,freshness,tier,shape,readU32_write,ResolutionTier.ofByte_toByte]
  rfl

theorem encode_headAt (p : Bytes) (long : 13 ≤ p.length) : encodeHead (headAt p) = p.take 13 := by
  have last : [byteAt p 12] = (p.drop 12).take 1 := by
    rw [← singleton_byteAt (p.drop 12) (by rw [List.length_drop]; omega)]
    simp [byteAt]
  have signed : (readU32 (p.drop 4)).toInt32.toUInt32 = readU32 (p.drop 4) := rfl
  simp only [encodeHead,headAt,ResolutionTier.toByte_ofByte,signed]
  rw [last,writeU32_read (by omega)]
  repeat rw [writeU32_read (by rw [List.length_drop]; omega)]
  simp only [← List.take_add]

def headFormat : Format Head := fixed 13 encodeHead headAt (fun _ => rfl) headAt_encode encode_headAt

/-- The fields, then the pattern behind its length. -/
def format : Format SubscribeFramePayload :=
  (pair headFormat (counted number16 byte)).through
    (fun x => ⟨x.1.subId,x.1.initialCredits,x.1.freshnessUs,x.1.tier,x.2⟩)
    (fun f => (⟨f.subId,f.initialCredits,f.freshnessUs,f.tier⟩,f.pattern)) (fun _ => rfl) (fun _ => rfl)

theorem encode_eq (f : SubscribeFramePayload) : f.encode = format.write f := by
  have pattern : f.pattern.flatMap (fun b => [b]) = f.pattern := by simp
  show _ = encodeHead _ ++ (writeU16 _ ++ f.pattern.flatMap (fun b => [b]))
  rw [pattern,← List.append_assoc]
  rfl

theorem fits_format (f : SubscribeFramePayload) : format.Fits f ↔ f.pattern.length < 2^16 := by
  show (True ∧ f.pattern.length < 2^16 ∧ ∀ b ∈ f.pattern, True) ↔ _
  simp

theorem read_head (buf : Bytes) :
    headFormat.read buf = if buf.length < 13 then none else some (headAt buf,buf.drop 13) := rfl

/-- The lengths are looked at in another order than the format has them. -/
theorem decode_read (buf : Bytes) : decode buf = (format.read buf).map Prod.fst := by
  show _ = (((pair headFormat (counted number16 byte)).read buf).map _).map Prod.fst
  rw [read_pair,read_head,decode,fixedSize]
  by_cases head : buf.length < 13
  · rw [if_pos head,if_pos (by omega)]
    rfl
  · rw [if_neg head]
    dsimp only
    rw [read_counted16,readList_byte,List.length_drop,List.length_drop,List.drop_drop]
    by_cases number : buf.length < 15
    · rw [if_pos number,if_pos (by omega)]
      rfl
    · rw [if_neg number,if_neg (show ¬ buf.length - 13 < 2 by omega)]
      by_cases pattern : buf.length < 15 + (readU16 (buf.drop 13)).toNat
      · rw [if_pos pattern,if_pos (by rw [List.length_drop]; omega)]
        rfl
      · rw [if_neg pattern,if_neg (by rw [List.length_drop]; omega)]
        rfl

theorem encode_of_decode {buf : Bytes} {f : SubscribeFramePayload} (decoded : decode buf = some f) :
    f.encode <+: buf := by
  rw [decode_read] at decoded
  obtain ⟨⟨g,rest⟩,read,rfl⟩ := Option.map_eq_some_iff.mp decoded
  obtain ⟨_,split⟩ := format.of_read buf g rest read
  rw [encode_eq]
  exact ⟨rest,split.symm⟩

theorem decode_encode {f : SubscribeFramePayload} (fits : f.pattern.length < 2^16) : decode f.encode = some f := by
  rw [decode_read,encode_eq,(format.read_write_iff f).mpr ((fits_format f).mpr fits)]
  rfl

end SubscribeFramePayload

/-- Tokens and subscriptions with patterns that fit their length field are read back,
    and a token that verified verifies after the trip; what is accepted, written again,
    is the front of its bytes; and tokens that are read from the same signed bytes are
    the same but for their signatures, and so let the same through. -/
theorem codecs_inverse :
    (∀ t : CapabilityToken, t.pathPattern.length ≤ 65535 →
      CapabilityToken.decode t.encode = some t ∧
        ∀ (P : Primitives) (pk : PublicKey) (t' : CapabilityToken), CapabilityToken.decode t.encode = some t' →
          CapabilityStore.verifyToken P t pk = true → CapabilityStore.verifyToken P t' pk = true) ∧
    (∀ f : SubscribeFramePayload, f.pattern.length ≤ 65535 → SubscribeFramePayload.decode f.encode = some f) ∧
    (∀ (data : Bytes) (t : CapabilityToken), CapabilityToken.decode data = some t → t.encode <+: data) ∧
    (∀ (data : Bytes) (f : SubscribeFramePayload), SubscribeFramePayload.decode data = some f → f.encode <+: data) ∧
    ∀ (data data' : Bytes) (t t' : CapabilityToken), CapabilityToken.decode data = some t →
      CapabilityToken.decode data' = some t' → CapabilityToken.signedPart data = CapabilityToken.signedPart data' →
      { t with signature := t'.signature } = t' ∧ t.qualifies = t'.qualifies := by
  refine ⟨?_,?_,?_,?_,?_⟩
  · intro t short
    have read := CapabilityToken.decode_encode t [] (Nat.lt_succ_of_le short)
    rw [List.append_nil] at read
    refine ⟨read,?_⟩
    intro P pk t' arrived valid
    rw [read] at arrived
    rwa [← Option.some.inj arrived]
  · exact fun f short => SubscribeFramePayload.decode_encode (Nat.lt_succ_of_le short)
  · intro data t decoded
    rw [CapabilityToken.encode_of_decode decoded]
    exact List.take_prefix _ _
  · exact fun data f decoded => SubscribeFramePayload.encode_of_decode decoded
  · intro data data' t t' decoded decoded' same
    have fields := CapabilityToken.eq_of_signedPart decoded decoded' same
    refine ⟨fields,?_⟩
    rw [← fields]
    rfl

end Rom
