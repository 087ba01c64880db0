import Rom.Subscription
import Rom.Runs
import Mathlib.Algebra.Order.Ring.Int
import Mathlib.Data.List.Nodup

/-!
Credits as a bound on deliveries. Beside the manager an account is kept for each
subscription: the credits it was created with, the positive amounts that were
added, and how often it was returned since. A subscription that began with finite
credits should never be returned more often than it was credited, and never have
unlimited credits. A negative amount may make its credits negative, and with that
unlimited (`overdrawn_unlimited`); `bounded_iff` says that the bound holds exactly
as long as no amount does so.
-/
namespace Rom.Credits
open Std Rom.Runs

/-- What a subscription was credited, and how often it was returned. -/
structure Account where
  initial : ℤ
  added : ℤ := 0
  delivered : ℕ := 0
  deriving DecidableEq

/-- A manager with an account for each id. -/
structure Ledger where
  manager : SubscriptionManager := {}
  account : UInt32 → Account := fun _ => { initial := 0 }

inductive Call where
  | subscribe (connId : UInt16) (pattern : StatePath) (initialCredits : Int64) (freshnessUs : UInt32)
  | unsubscribe (subId : UInt32)
  | removeConnection (connId : UInt16)
  | addCredits (subId : UInt32) (credits : Int64)
  | matchAndConsume (path : StatePath)
  deriving DecidableEq

/-- The call that a credit frame asks for. -/
def ofFrame (f : CreditFramePayload) : Call := .addCredits f.subId f.credits.toInt64

/-- Accounts are opened for the subscriptions that are created; amounts are booked
    where there is a subscription, and deliveries where it is returned. -/
def book (s : Ledger) : Call → UInt32 → Account
  | .subscribe _ _ initialCredits _ =>
    if s.manager.nextId ∈ s.manager.subs then s.account
    else Function.update s.account s.manager.nextId { initial := initialCredits.toInt }
  | .addCredits subId credits =>
    let account := s.account subId
    if (s.manager.addCredits subId credits).2
    then Function.update s.account subId { account with added := account.added + max credits.toInt 0 }
    else s.account
  | .matchAndConsume path => fun id =>
    let returned := (s.manager.matchAndConsume path).1.map MatchResult.subId
    { s.account id with delivered := (s.account id).delivered + returned.count id }
  | .unsubscribe _ | .removeConnection _ => s.account

def apply (m : SubscriptionManager) : Call → SubscriptionManager
  | .subscribe connId pattern initialCredits freshnessUs => (m.subscribe connId pattern initialCredits freshnessUs).2
  | .unsubscribe subId => (m.unsubscribe subId).1
  | .removeConnection connId => m.removeConnection connId
  | .addCredits subId credits => (m.addCredits subId credits).1
  | .matchAndConsume path => (m.matchAndConsume path).2

def step (s : Ledger) (call : Call) : Ledger := { manager := apply s.manager call, account := book s call }

/-- A subscription that began with finite credits was returned at most as often as
    it was credited, and its credits are still finite. -/
def Bounded (s : Ledger) : Prop :=
  ∀ (id : UInt32) (sub : Subscription), s.manager.subs[id]? = some sub → 0 ≤ (s.account id).initial →
    (s.account id).delivered ≤ (s.account id).initial + (s.account id).added ∧ 0 ≤ sub.credits

/-- An amount leaves finite credits finite. -/
def NoOverdraft (s : Ledger) : Call → Prop
  | .addCredits subId credits =>
    ∀ sub, s.manager.subs[subId]? = some sub → 0 ≤ sub.credits →
      0 ≤ sub.credits.toInt + credits.toInt ∧ sub.credits.toInt + credits.toInt < 2 ^ 63
  | _ => True

/-! ### Signed amounts -/

theorem nonneg_iff {credits : Int64} : 0 ≤ credits ↔ 0 ≤ credits.toInt := by
  rw [Int64.le_iff_toInt_le,Int64.toInt_zero]

/-- A sum that wraps around is negative. -/
theorem add_cases {credits : Int64} (amount : Int64) (finite : 0 ≤ credits) :
    (0 ≤ credits + amount ↔ 0 ≤ credits.toInt + amount.toInt ∧ credits.toInt + amount.toInt < 2 ^ 63) ∧
      (0 ≤ credits + amount → (credits + amount).toInt = credits.toInt + amount.toInt) := by
  have := credits.toInt_lt
  have := amount.toInt_lt
  have := amount.le_toInt
  rw [nonneg_iff] at finite
  rw [nonneg_iff,Int64.toInt_add,Int.bmod_def]
  split <;> omega

theorem toInt_pred {credits : Int64} (positive : 0 < credits) : (credits - 1).toInt = credits.toInt - 1 := by
  have := credits.toInt_lt
  rw [Int64.lt_iff_toInt_lt,Int64.toInt_zero] at positive
  rw [Int64.toInt_sub,Int64.toInt_one,Int.bmod_def]
  split <;> omega

/-! ### What a call does to a subscription -/

/-- A subscription and its account: deliveries and the credits that are left do not
    exceed what was credited, and unlimited credits stay so. -/
structure Booked (id : UInt32) (sub : Subscription) (account : Account) : Prop where
  named : sub.subId = id
  unlimited : account.initial < 0 → sub.credits < 0
  spent : 0 ≤ account.initial → 0 ≤ sub.credits →
    account.delivered + sub.credits.toInt ≤ account.initial + account.added

/-- Every subscription is booked. -/
def Inv (s : Ledger) : Prop :=
  ∀ (id : UInt32) (sub : Subscription), s.manager.subs[id]? = some sub → Booked id sub (s.account id)

theorem booked_new (id : UInt32) (connId : UInt16) (pattern : StatePath) (initialCredits : Int64) (freshnessUs : UInt32) :
    Booked id ⟨id,connId,pattern,initialCredits,freshnessUs,.full⟩ { initial := initialCredits.toInt } where
  named := rfl
  unlimited := fun negative => by rwa [Int64.lt_iff_toInt_lt,Int64.toInt_zero]
  spent := fun _ _ => by simp

/-- Credits that an amount leaves finite have grown by no more than it. -/
theorem Booked.add {id : UInt32} {sub : Subscription} {account : Account} (booked : Booked id sub account)
    (amount : Int64) :
    Booked id (if sub.credits ≥ 0 then { sub with credits := sub.credits + amount } else sub)
      { account with added := account.added + max amount.toInt 0 } := by
  obtain ⟨named,unlimited,spent⟩ := booked
  by_cases finite : sub.credits ≥ 0
  · rw [if_pos finite]
    refine ⟨named,fun negative => absurd finite (Int64.not_le.mpr (unlimited negative)),fun began still => ?_⟩
    have sum := (add_cases amount finite).2 still
    have before := spent began finite
    simp only [sum]
    omega
  · rw [if_neg finite]
    refine ⟨named,unlimited,fun began still => absurd still finite⟩

/-- A delivery is paid with a credit, unless credits are unlimited. -/
theorem Booked.consume {id : UInt32} {sub : Subscription} {account : Account} (booked : Booked id sub account)
    (credits : sub.hasCredits) :
    Booked id sub.consumeCredit { account with delivered := account.delivered + 1 } := by
  obtain ⟨named,unlimited,spent⟩ := booked
  have credits : sub.credits ≠ 0 := by simpa [Subscription.hasCredits] using credits
  unfold Subscription.consumeCredit
  by_cases positive : sub.credits > 0
  · rw [if_pos positive]
    refine ⟨named,fun negative => absurd (unlimited negative) (Int64.lt_asymm positive),fun began _ => ?_⟩
    have before := spent began (Int64.le_of_lt positive)
    simp only [toInt_pred positive]
    omega
  · rw [if_neg positive]
    refine ⟨named,unlimited,fun _ still => absurd (Int64.lt_of_le_of_ne still (Ne.symm credits)) positive⟩

/-! ### What a call does to the manager -/

theorem subs_subscribe (m : SubscriptionManager) (connId : UInt16) (pattern : StatePath) (initialCredits : Int64)
    (freshnessUs : UInt32) (id : UInt32) :
    (m.subscribe connId pattern initialCredits freshnessUs).2.subs[id]? =
      if m.nextId = id ∧ m.nextId ∉ m.subs then some ⟨m.nextId,connId,pattern,initialCredits,freshnessUs,.full⟩
      else m.subs[id]? := by
  simp [SubscriptionManager.subscribe,ExtTreeMap.getElem?_insertIfNew]

theorem subs_unsubscribe (m : SubscriptionManager) (subId id : UInt32) :
    (m.unsubscribe subId).1.subs[id]? = if subId = id then none else m.subs[id]? := by
  simp [SubscriptionManager.unsubscribe,ExtTreeMap.getElem?_erase]

theorem subs_removeConnection (m : SubscriptionManager) (connId : UInt16) (id : UInt32) :
    (m.removeConnection connId).subs[id]? = m.subs[id]?.filter (fun sub => sub.connId != connId) := by
  simp [SubscriptionManager.removeConnection,ExtTreeMap.getElem?_filter]

theorem subs_addCredits {m : SubscriptionManager} {subId : UInt32} {sub : Subscription}
    (held : m.subs[subId]? = some sub) (amount : Int64) (id : UInt32) :
    (m.addCredits subId amount).1.subs[id]? =
      if subId = id then some (if sub.credits ≥ 0 then { sub with credits := sub.credits + amount } else sub)
      else m.subs[id]? := by
  simp [SubscriptionManager.addCredits,held,ExtTreeMap.getElem?_insert]

theorem subs_matchAndConsume (m : SubscriptionManager) (path : StatePath) (id : UInt32) :
    (m.matchAndConsume path).2.subs[id]? =
      m.subs[id]?.map (fun sub => if SubscriptionManager.due path sub then sub.consumeCredit else sub) := by
  simp [SubscriptionManager.matchAndConsume,ExtTreeMap.getElem?_map]

/-- A subscription is returned once if it is due, and not at all otherwise. -/
theorem count_matching {m : SubscriptionManager} (named : ∀ (id : UInt32) sub, m.subs[id]? = some sub → sub.subId = id)
    (path : StatePath) {id : UInt32} {sub : Subscription} (held : m.subs[id]? = some sub) :
    ((m.matching path).map MatchResult.subId).count id = if SubscriptionManager.due path sub then 1 else 0 := by
  have keys : (m.matching path).map MatchResult.subId =
      (m.subs.toList.filter (fun e => SubscriptionManager.due path e.2)).map Prod.fst := by
    rw [SubscriptionManager.matching,List.map_map]
    refine List.map_congr_left (fun e member => ?_)
    exact named e.1 e.2 (ExtTreeMap.mem_toList_iff_getElem?_eq_some.mp (List.mem_of_mem_filter member))
  have distinct : ((m.subs.toList.filter (fun e => SubscriptionManager.due path e.2)).map Prod.fst).Nodup := by
    refine List.Nodup.sublist (List.filter_sublist.map Prod.fst) ?_
    rw [ExtTreeMap.map_fst_toList_eq_keys]
    exact ExtTreeMap.nodup_keys
  rw [keys,distinct.count]
  refine if_congr ?_ rfl rfl
  simp [ExtTreeMap.mem_toList_iff_getElem?_eq_some,held]

/-- What a call can have done to a subscription that is there after it. -/
inductive Touched (s : Ledger) (id : UInt32) : Call → Subscription → Account → Prop
  | kept {call : Call} {sub : Subscription} (held : s.manager.subs[id]? = some sub) :
    Touched s id call sub (s.account id)
  | created (connId : UInt16) (pattern : StatePath) (initialCredits : Int64) (freshnessUs : UInt32) :
    Touched s id (.subscribe connId pattern initialCredits freshnessUs)
      ⟨id,connId,pattern,initialCredits,freshnessUs,.full⟩ { initial := initialCredits.toInt }
  | credited {before : Subscription} (amount : Int64) (held : s.manager.subs[id]? = some before) :
    Touched s id (.addCredits id amount)
      (if before.credits ≥ 0 then { before with credits := before.credits + amount } else before)
      { s.account id with added := (s.account id).added + max amount.toInt 0 }
  | returned {before : Subscription} (path : StatePath) (held : s.manager.subs[id]? = some before)
      (credits : before.hasCredits) :
    Touched s id (.matchAndConsume path) before.consumeCredit
      { s.account id with delivered := (s.account id).delivered + 1 }

theorem touched_step {s : Ledger} (inv : Inv s) {call : Call} {id : UInt32} {sub : Subscription}
    (held : (step s call).manager.subs[id]? = some sub) : Touched s id call sub ((step s call).account id) := by
  cases call with
  | subscribe connId pattern initialCredits freshnessUs =>
    simp only [step,apply,book,subs_subscribe] at held ⊢
    by_cases used : s.manager.nextId ∈ s.manager.subs
    · simp only [used,not_true_eq_false,and_false,if_false,if_true] at held ⊢
      exact .kept held
    · by_cases own : s.manager.nextId = id
      · subst own
        simp only [used,not_false_eq_true,and_self,if_true,if_false,Option.some.injEq,Function.update_self] at held ⊢
        subst held
        exact .created connId pattern initialCredits freshnessUs
      · simp only [own,used,false_and,if_false,Function.update_of_ne (Ne.symm own)] at held ⊢
        exact .kept held
  | unsubscribe subId =>
    simp only [step,apply,book,subs_unsubscribe] at held ⊢
    split at held
    · cases held
    · exact .kept held
  | removeConnection connId =>
    simp only [step,apply,book,subs_removeConnection] at held ⊢
    exact .kept (Option.filter_eq_some_iff.mp held).1
  | addCredits subId amount =>
    cases found : s.manager.subs[subId]? with
    | none =>
      simp only [step,apply,book,SubscriptionManager.addCredits,found] at held ⊢
      exact .kept held
    | some before =>
      have credited : (s.manager.addCredits subId amount).2 = true := by simp [SubscriptionManager.addCredits,found]
      simp only [step,apply,book,subs_addCredits found,credited,if_true] at held ⊢
      by_cases own : subId = id
      · subst own
        simp only [if_true,Option.some.injEq,Function.update_self] at held ⊢
        subst held
        exact .credited amount found
      · simp only [own,if_false,Function.update_of_ne (Ne.symm own)] at held ⊢
        exact .kept held
  | matchAndConsume path =>
    simp only [step,apply,book,subs_matchAndConsume] at held ⊢
    obtain ⟨before,found,after⟩ := Option.map_eq_some_iff.mp held
    rw [SubscriptionManager.matchAndConsume,count_matching (fun id sub held => (inv id sub held).named) path found]
    subst after
    by_cases due : SubscriptionManager.due path before
    · rw [if_pos due,if_pos due]
      exact .returned path found (Bool.and_eq_true_iff.mp due).2
    · rw [if_neg due,if_neg due]
      exact .kept found

/-! ### Runs -/

theorem inv_step (s : Ledger) (call : Call) (inv : Inv s) : Inv (step s call) := by
  intro id sub held
  have touched := touched_step inv held
  generalize (step s call).account id = account at touched ⊢
  cases touched with
  | kept found => exact inv id sub found
  | created connId pattern initialCredits freshnessUs => exact booked_new id connId pattern initialCredits freshnessUs
  | credited amount found => exact (inv id _ found).add amount
  | returned path found credits => exact (inv id _ found).consume credits

/-- Credits that began finite still are. -/
def AllFinite (s : Ledger) : Prop :=
  ∀ (id : UInt32) (sub : Subscription), s.manager.subs[id]? = some sub → 0 ≤ (s.account id).initial → 0 ≤ sub.credits

/-- With the books in order, the bound holds while finite credits stay finite. -/
theorem bounded_iff_allFinite {s : Ledger} (inv : Inv s) : Bounded s ↔ AllFinite s := by
  constructor
  · intro bounded id sub held began
    exact (bounded id sub held began).2
  · intro finite id sub held began
    have still := finite id sub held began
    have spent := (inv id sub held).spent began still
    have := nonneg_iff.mp still
    exact ⟨by omega,still⟩

theorem consumeCredit_nonneg {sub : Subscription} (finite : 0 ≤ sub.credits) : 0 ≤ sub.consumeCredit.credits := by
  unfold Subscription.consumeCredit
  split
  · next positive =>
    have above := positive
    rw [gt_iff_lt,Int64.lt_iff_toInt_lt,Int64.toInt_zero] at above
    rw [nonneg_iff]
    simp only [toInt_pred positive]
    omega
  · exact finite

theorem allFinite_step {s : Ledger} {call : Call} (inv : Inv s) (finite : AllFinite s) (fits : NoOverdraft s call) :
    AllFinite (step s call) := by
  intro id sub held began
  have touched := touched_step inv held
  generalize (step s call).account id = account at touched began
  cases touched with
  | kept found => exact finite id sub found began
  | created connId pattern initialCredits freshnessUs => exact nonneg_iff.mpr began
  | credited amount found =>
    have still := finite id _ found began
    rw [if_pos still]
    exact (add_cases amount still).1.mpr (fits _ found still)
  | returned path found credits => exact consumeCredit_nonneg (finite id _ found began)

/-- An amount that overdraws finite credits leaves them unlimited. -/
theorem noOverdraft_of_allFinite {s : Ledger} {call : Call} (inv : Inv s) (after : AllFinite (step s call)) :
    NoOverdraft s call := by
  cases call with
  | addCredits subId amount =>
    intro sub held still
    have began : 0 ≤ (s.account subId).initial := by
      by_contra negative
      exact absurd still (Int64.not_le.mpr ((inv subId sub held).unlimited (by omega)))
    have credited : (s.manager.addCredits subId amount).2 = true := by simp [SubscriptionManager.addCredits,held]
    have stored : (step s (.addCredits subId amount)).manager.subs[subId]? =
        some { sub with credits := sub.credits + amount } := by
      simp only [step,apply,subs_addCredits held,if_true]
      rw [if_pos still]
    have same : ((step s (.addCredits subId amount)).account subId).initial = (s.account subId).initial := by
      simp only [step,book,credited,if_true,Function.update_self]
    have ends := after subId { sub with credits := sub.credits + amount } stored (same ▸ began)
    exact (add_cases amount still).1.mp ends
  | _ => trivial

theorem start_inv : Inv {} := by
  intro id sub held
  simp at held

/-- In every run of calls a subscription that began with finite credits is returned
    at most as often as it was credited, and never has unlimited credits, exactly if
    no amount takes its credits out of the range of finite ones. -/
theorem bounded_iff (calls : List Call) : Everywhere step Bounded {} calls ↔ Along step NoOverdraft {} calls := by
  have finite : Everywhere step Bounded {} calls ↔ Everywhere step AllFinite {} calls :=
    everywhere_congr inv_step (fun s inv => bounded_iff_allFinite inv) start_inv
  refine finite.trans (everywhere_iff_along inv_step ?_ start_inv ?_)
  · intro s call inv finite
    exact ⟨noOverdraft_of_allFinite inv,allFinite_step inv finite⟩
  · intro id sub held
    simp at held

/-- The subscription with id 1 after five credits, what the payload of a credit
    frame adds, and some deliveries: its credits, and how often it was returned. -/
def after (payload : Bytes) (deliveries : ℕ) : Option (Int64 × ℕ) :=
  let calls := [Call.subscribe 1 ⟨[47,97]⟩ 5 0] ++ ((CreditFramePayload.decode payload).map ofFrame).toList ++
    List.replicate deliveries (.matchAndConsume ⟨[47,97]⟩)
  let s := run step {} calls
  s.manager.subs[(1 : UInt32)]?.map (fun sub => (sub.credits,(s.account 1).delivered))

example : after (CreditFramePayload.encode ⟨1,-2⟩) 10 = some (0,3) := by decide +kernel

/-- A frame that takes six credits of five makes them unlimited. -/
theorem overdrawn_unlimited :
    after (CreditFramePayload.encode ⟨1,-6⟩) 10 = some (-1,10) ∧
      ¬Everywhere step Bounded {} [.subscribe 1 ⟨[47,97]⟩ 5 0,ofFrame ⟨1,-6⟩] := by
  refine ⟨by decide +kernel,?_⟩
  rintro ⟨_,_,bounded⟩
  have held : (run step {} [.subscribe 1 ⟨[47,97]⟩ 5 0,ofFrame ⟨1,-6⟩]).manager.subs[(1 : UInt32)]? =
      some ⟨1,1,⟨[47,97]⟩,-1,0,.full⟩ := by decide +kernel
  exact absurd (bounded 1 _ held (by decide +kernel)).2 (by decide)

end Rom.Credits
