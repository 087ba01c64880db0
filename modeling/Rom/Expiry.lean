import Rom.PeerFrames

/-!
Expiry over the life of a connection. A delta for a declared region is checked against
the tokens of the store at the time of the connection (`elapsed_us`), which is the time
since its epoch modulo 2^32, and a token is expired when that is above its expiry. So
an expired token is no longer expired when the time wraps around, unless its expiry is
the largest time there is (`stays_expired_iff`).
-/
namespace Rom.Expiry
open Std

/-- What the check of `find_capability` comes to for one token. -/
inductive Verdict where
  | expired
  | notPermitted
  | notCovered
  | granted
  deriving DecidableEq, Repr

/-- The tests of the loop, in order. -/
def verdict (token : CapabilityToken) (path : StatePath) (perm : CapabilityPermission) (nowUs : UInt32) : Verdict :=
  if token.isExpired nowUs then .expired
  else if !token.hasPermission perm then .notPermitted
  else if token.covers path then .granted
  else .notCovered

/-- The verdict on a token when a delta for a path is taken from a connection, some
    microseconds after its epoch. -/
def verdictAt (conn : Connection) (path : StatePath) (token : CapabilityToken) (time : ℕ) : Verdict :=
  verdict token path .write (conn.elapsedUs (conn.epochUs + time))

/-- Up to some time, a token that was refused as expired is refused as expired. -/
def StaysExpired (conn : Connection) (path : StatePath) (token : CapabilityToken) (horizon : ℕ) : Prop :=
  ∀ first second, first < second → second ≤ horizon → verdictAt conn path token first = .expired →
    verdictAt conn path token second = .expired

theorem qualifies_eq (token : CapabilityToken) (path : StatePath) (perm : CapabilityPermission) (nowUs : UInt32) :
    token.qualifies path perm nowUs = decide (verdict token path perm nowUs = .granted) := by
  rw [CapabilityToken.qualifies,verdict]
  cases token.isExpired nowUs with
  | true => rfl
  | false =>
    cases token.hasPermission perm with
    | false => rfl
    | true =>
      cases token.covers path with
      | false => rfl
      | true => rfl

/-- The check finds the first token whose verdict is favourable. -/
theorem findCapability_eq (s : CapabilityStore) (path : StatePath) (perm : CapabilityPermission) (nowUs : UInt32) :
    s.findCapability path perm nowUs =
      (s.tokens.toList.map Prod.snd).find? (fun token => verdict token path perm nowUs = .granted) := by
  rw [CapabilityStore.findCapability]
  simp only [qualifies_eq]

theorem verdict_expired_iff (token : CapabilityToken) (path : StatePath) (perm : CapabilityPermission) (nowUs : UInt32) :
    verdict token path perm nowUs = .expired ↔ token.isExpired nowUs = true := by
  rw [verdict]
  cases token.isExpired nowUs with
  | true => simp
  | false =>
    cases token.hasPermission perm with
    | false => simp
    | true =>
      cases token.covers path with
      | false => simp
      | true => simp

/-- A delta is refused when every token is. -/
theorem refuses_iff (p : Peer) (conn : Connection) (pathHash : UInt32) (time : ℕ) :
    p.refuses pathHash (conn.elapsedUs (conn.epochUs + time)) = true ↔ p.accessControl = true ∧
      ∃ region, p.state.get pathHash = some region ∧
        ∀ (id : UInt32) (token : CapabilityToken), p.capStore.tokens[id]? = some token →
          verdictAt conn region.path token time ≠ .granted := by
  rw [Peer.refuses,Bool.and_eq_true]
  refine and_congr Iff.rfl ?_
  cases p.state.get pathHash with
  | none => simp
  | some region =>
    have found := CapabilityStore.findCapability_isSome_iff p.capStore region.path .write
      (conn.elapsedUs (conn.epochUs + time))
    simp only [qualifies_eq,decide_eq_true_eq] at found
    simp only [Option.some.injEq,exists_eq_left']
    rw [← Option.not_isSome,Bool.not_eq_true',← Bool.not_eq_true,found]
    simp [verdictAt]

theorem elapsedUs_toNat (conn : Connection) (time : ℕ) :
    (conn.elapsedUs (conn.epochUs + time)).toNat = time % 2^32 := by
  rw [Connection.elapsedUs,Nat.add_sub_cancel_left,UInt32.toNat_ofNat']

/-- What the check makes of a token's expiry. -/
theorem verdictAt_expired_iff (conn : Connection) (path : StatePath) (token : CapabilityToken) (time : ℕ) :
    verdictAt conn path token time = .expired ↔ token.expiryUs ≠ 0 ∧ token.expiryUs.toNat < time % 2^32 := by
  rw [verdictAt,verdict_expired_iff,CapabilityToken.isExpired_iff,UInt32.lt_iff_toNat_lt,elapsedUs_toNat]

/-- An expired token stays expired for as long as the time of the connection does not
    wrap around. Behind that only a token stays expired that never was. -/
theorem stays_expired_iff (conn : Connection) (path : StatePath) (token : CapabilityToken) (horizon : ℕ) :
    StaysExpired conn path token horizon ↔
      horizon < 2^32 ∨ token.expiryUs = 0 ∨ token.expiryUs.toNat = 2^32 - 1 := by
  constructor
  · intro stays
    by_contra! ⟨late,expires,below⟩
    have small := token.expiryUs.toNat_lt
    -- The time 2^32 is 0 again.
    have first : verdictAt conn path token (token.expiryUs.toNat + 1) = .expired := by
      rw [verdictAt_expired_iff]
      exact ⟨expires,by omega⟩
    have second := stays _ (2^32) (by omega) late first
    rw [verdictAt_expired_iff] at second
    omega
  · rintro within first second before inside expired
    rw [verdictAt_expired_iff] at expired ⊢
    rcases within with early | never | last
    · exact ⟨expired.1,by omega⟩
    · exact absurd never expired.1
    · omega

/-- A token for `/a` that expires after 100 microseconds. -/
def brief : CapabilityToken :=
  ((CapabilityStore.new (plainKeys 1) 1).issue plain (ofText "/a") CapabilityPermission.write.bits 100).1

/-- A node that takes deltas for `/a` from the holder of the token. -/
def guarded : Peer :=
  let p := (((Peer.new 1 (plainKeys 1)).setAccessControl true).declare plain ⟨ofText "/a"⟩ .lwwRegister .reliable).1
  { p with capStore := p.capStore.store brief }

/-- The token is refused after 101 microseconds, and lets deltas through again after
    2^32 of them. -/
theorem granted_again :
    let conn := plainLink.conn
    verdictAt conn ⟨ofText "/a"⟩ brief 101 = .expired ∧ verdictAt conn ⟨ofText "/a"⟩ brief (2^32) = .granted ∧
      guarded.refuses (plain.xxhash32 (ofText "/a")) (conn.elapsedUs (conn.epochUs + 101)) = true ∧
      guarded.refuses (plain.xxhash32 (ofText "/a")) (conn.elapsedUs (conn.epochUs + 2^32)) = false := by
  decide +kernel

end Rom.Expiry
