import Rom.Resolution
import Rom.StatePath

/-!
Subscriptions of other nodes and the payloads of their frames (`subscription.h`,
`subscription.cpp`). A subscription asks for the changes of the paths that match a
pattern, as long as it has credits; a negative number of credits stands for
unlimited ones. The source keeps subscriptions in a hash table, so nothing depends
on their order.
-/
namespace Rom
open Std

structure Subscription where
  subId : UInt32
  connId : UInt16
  pattern : StatePath
  credits : Int64
  freshnessUs : UInt32
  tier : ResolutionTier := .full
  deriving DecidableEq

namespace Subscription

def hasCredits (s : Subscription) : Bool := s.credits != 0

def consumeCredit (s : Subscription) : Subscription :=
  if s.credits > 0 then { s with credits := s.credits - 1 } else s

end Subscription

/-- A subscription that is to get a change. -/
structure MatchResult where
  subId : UInt32
  connId : UInt16
  deriving DecidableEq, Repr

structure SubscriptionManager where
  nextId : UInt32 := 1
  subs : ExtTreeMap UInt32 Subscription := ∅

namespace SubscriptionManager

/-- The id of the subscription, and the manager with it. Ids start again after the
    last one; an id that is still in use keeps its subscription. -/
def subscribe (m : SubscriptionManager) (connId : UInt16) (pattern : StatePath) (initialCredits : Int64)
    (freshnessUs : UInt32) : UInt32 × SubscriptionManager :=
  let id := m.nextId
  let sub : Subscription :=
    { subId := id, connId := connId, pattern := pattern, credits := initialCredits, freshnessUs := freshnessUs }
  (id,{ nextId := m.nextId + 1, subs := m.subs.insertIfNew id sub })

def unsubscribe (m : SubscriptionManager) (subId : UInt32) : SubscriptionManager × Bool :=
  ({ m with subs := m.subs.erase subId },m.subs.contains subId)

def removeConnection (m : SubscriptionManager) (connId : UInt16) : SubscriptionManager :=
  { m with subs := m.subs.filter (fun _ sub => sub.connId != connId) }

/-- Unlimited credits are left alone. -/
def addCredits (m : SubscriptionManager) (subId : UInt32) (credits : Int64) : SubscriptionManager × Bool :=
  match m.subs[subId]? with
  | none => (m,false)
  | some sub =>
    let sub := if sub.credits ≥ 0 then { sub with credits := sub.credits + credits } else sub
    ({ m with subs := m.subs.insert subId sub },true)

/-- The subscription is to get changes of the path. -/
def due (path : StatePath) (sub : Subscription) : Bool := path.matchesPattern sub.pattern && sub.hasCredits

/-- The subscriptions that are to get a change of the path (`match` in the source). -/
def matching (m : SubscriptionManager) (path : StatePath) : List MatchResult :=
  (m.subs.toList.filter (fun e => due path e.2)).map (fun e => ⟨e.2.subId,e.2.connId⟩)

/-- The same, each for a credit. -/
def matchAndConsume (m : SubscriptionManager) (path : StatePath) : List MatchResult × SubscriptionManager :=
  (m.matching path,{ m with subs := m.subs.map (fun _ sub => if due path sub then sub.consumeCredit else sub) })

end SubscriptionManager

/-! ### Payloads -/

structure SubscribeFramePayload where
  subId : UInt32
  initialCredits : Int32
  freshnessUs : UInt32
  tier : ResolutionTier := .full
  pattern : Bytes
  deriving DecidableEq

namespace SubscribeFramePayload

/-- The size of the fields in front of the pattern. -/
def fixedSize : Nat := 15

def encode (f : SubscribeFramePayload) : Bytes :=
  writeU32 f.subId ++ writeU32 f.initialCredits.toUInt32 ++ writeU32 f.freshnessUs ++ [f.tier.toByte] ++
    writeU16 (UInt16.ofNat f.pattern.length) ++ f.pattern

def decode (buf : Bytes) : Option SubscribeFramePayload :=
  if buf.length < fixedSize then none
  else
    let patLen := (readU16 (buf.drop 13)).toNat
    if buf.length < fixedSize + patLen then none
    else
      some
        { subId := readU32 buf
          initialCredits := (readU32 (buf.drop 4)).toInt32
          freshnessUs := readU32 (buf.drop 8)
          tier := .ofByte (byteAt buf 12)
          pattern := (buf.drop fixedSize).take patLen }

end SubscribeFramePayload

/-- The amount is signed. -/
structure CreditFramePayload where
  subId : UInt32
  credits : Int32
  deriving DecidableEq

namespace CreditFramePayload

def wireSize : Nat := 8

def encode (f : CreditFramePayload) : Bytes := writeU32 f.subId ++ writeU32 f.credits.toUInt32

def decode (buf : Bytes) : Option CreditFramePayload :=
  if buf.length < wireSize then none
  else some { subId := readU32 buf, credits := (readU32 (buf.drop 4)).toInt32 }

end CreditFramePayload
end Rom
