import Rom.Capability
import Rom.Runs

/-!
What tokens grant along chains of attenuations, and what stores keep along runs
of issues, attenuations and received grants. An attenuation compares the number
of segments where it should compare the segments, so a child may cover paths its
parent does not (`attenuate_other_path`); `attenuate_narrows_iff` says for which
calls it stays within its parent. A store keeps its tokens by the token id alone,
which each issuer counts for itself, so a grant may push out the token of another
issuer (`grant_displaces_issued`); `grants_intact_iff` says in which runs it does
not.
-/
namespace Rom.CapabilityRuns
open Std Rom.Runs CapabilityToken CapabilityStore

/-! ### Attenuation -/

/-- The child grants nothing its parent does not: no further permission, no later
    time, no other path. -/
def Within (child parent : CapabilityToken) : Prop :=
  child.permissions &&& parent.permissions = child.permissions ∧
    (∀ nowUs, parent.isExpired nowUs = true → child.isExpired nowUs = true) ∧
    ∀ path, child.covers path = true → parent.covers path = true

/-- A call of `attenuate` on a store, but for the parent. -/
structure Attenuation where
  store : CapabilityStore
  narrowerPath : Bytes
  reducedPermissions : UInt8
  expiryUs : UInt32

/-- The child that the call returns. -/
def child (P : Primitives) (parent : CapabilityToken) (a : Attenuation) : CapabilityToken :=
  (a.store.attenuate P parent a.narrowerPath a.reducedPermissions a.expiryUs).1

/-- If the call is not refused, its child is within its parent. -/
def Narrows (P : Primitives) (parent : CapabilityToken) (a : Attenuation) : Prop :=
  (child P parent a).tokenId ≠ 0 → Within (child P parent a) parent

/-- The checks that refuse a call; of the pattern only the number of segments
    counts. -/
def Refused (parent : CapabilityToken) (a : Attenuation) : Prop :=
  a.reducedPermissions &&& ~~~parent.permissions ≠ 0 ∨
    (parent.expiryUs ≠ 0 ∧ (a.expiryUs = 0 ∨ a.expiryUs > parent.expiryUs)) ∨
    (StatePath.mk parent.pathPattern).segments.length ≠ (StatePath.mk a.narrowerPath).segments.length

/-- The call is refused, or the token ids have wrapped to 0, or its pattern
    matches the parent's segment by segment. -/
def PatternNarrower (parent : CapabilityToken) (a : Attenuation) : Prop :=
  Refused parent a ∨ a.store.nextTokenId = 0 ∨ (StatePath.mk a.narrowerPath).matchesPattern ⟨parent.pathPattern⟩ = true

instance (parent : CapabilityToken) (a : Attenuation) : Decidable (Refused parent a) :=
  inferInstanceAs (Decidable (_ ∨ _ ∨ _))

instance (parent : CapabilityToken) (a : Attenuation) : Decidable (PatternNarrower parent a) :=
  inferInstanceAs (Decidable (_ ∨ _ ∨ _))

theorem permissions_within_iff (reduced parent : UInt8) :
    reduced &&& ~~~parent = 0 ↔ reduced &&& parent = reduced := by
  constructor
  · intro none
    apply UInt8.eq_of_toBitVec_eq
    ext i inside
    have bit := congrArg (fun x => x.toBitVec.getLsbD i) none
    simp [inside] at bit ⊢
    exact bit
  · intro all
    apply UInt8.eq_of_toBitVec_eq
    ext i inside
    have bit := congrArg (fun x => x.toBitVec.getLsbD i) all
    simp [inside] at bit ⊢
    exact bit

theorem attenuate_refused {P : Primitives} {parent : CapabilityToken} {a : Attenuation} (refused : Refused parent a) :
    a.store.attenuate P parent a.narrowerPath a.reducedPermissions a.expiryUs = (.invalid,a.store) := by
  rw [attenuate]
  rcases refused with more | late | other
  · rw [if_pos more]
  · split
    · rfl
    · rfl
  · have unmatched : (StatePath.mk a.narrowerPath).matchesPattern ⟨parent.pathPattern⟩ = false := by
      rw [← Bool.not_eq_true]
      exact fun same => other (StatePath.segments_length_of_matches same)
    have apart : a.narrowerPath ≠ parent.pathPattern := fun same => other (by rw [same])
    split
    · rfl
    · split
      · rfl
      · simp [unmatched,apart,other]

theorem attenuate_accepted {P : Primitives} {parent : CapabilityToken} {a : Attenuation} (accepted : ¬ Refused parent a) :
    a.store.attenuate P parent a.narrowerPath a.reducedPermissions a.expiryUs =
      a.store.mint P a.narrowerPath a.reducedPermissions a.expiryUs parent.tokenId := by
  obtain ⟨fewer,rest⟩ := not_or.mp accepted
  obtain ⟨early,same⟩ := not_or.mp rest
  rw [attenuate,if_neg fewer,if_neg early]
  simp [not_not.mp same]

theorem within_trans {child middle parent : CapabilityToken} (inner : Within child middle) (outer : Within middle parent) :
    Within child parent := by
  obtain ⟨permissions,expiry,paths⟩ := inner
  obtain ⟨permissions',expiry',paths'⟩ := outer
  refine ⟨?_,fun nowUs late => expiry nowUs (expiry' nowUs late),fun path covered => paths' path (paths path covered)⟩
  rw [← permissions,UInt8.and_assoc,permissions']

theorem within_refl (t : CapabilityToken) : Within t t :=
  ⟨UInt8.and_self,fun _ late => late,fun _ covered => covered⟩

/-- A call that is not refused gives the fields it was asked for. -/
theorem child_accepted {P : Primitives} {parent : CapabilityToken} {a : Attenuation} (accepted : ¬ Refused parent a) :
    (child P parent a).tokenId = a.store.nextTokenId ∧ (child P parent a).permissions = a.reducedPermissions ∧
      (child P parent a).expiryUs = a.expiryUs ∧ (child P parent a).pathPattern = a.narrowerPath := by
  rw [child,attenuate_accepted accepted]
  exact ⟨rfl,rfl,rfl,rfl⟩

theorem within_of_narrower {P : Primitives} {parent : CapabilityToken} {a : Attenuation} (accepted : ¬ Refused parent a)
    (narrower : (StatePath.mk a.narrowerPath).matchesPattern ⟨parent.pathPattern⟩ = true) :
    Within (child P parent a) parent := by
  obtain ⟨_,permissions,expiry,pattern⟩ := child_accepted (P := P) accepted
  obtain ⟨fewer,rest⟩ := not_or.mp accepted
  obtain ⟨early,_⟩ := not_or.mp rest
  refine ⟨?_,?_,?_⟩
  · rw [permissions]
    exact (permissions_within_iff _ _).mp (not_not.mp fewer)
  · intro nowUs late
    rw [isExpired_iff] at late ⊢
    obtain ⟨nonzero,not_late⟩ := not_or.mp (fun refused => early ⟨late.1,refused⟩)
    rw [expiry]
    exact ⟨nonzero,UInt32.lt_of_le_of_lt (UInt32.not_lt.mp not_late) late.2⟩
  · simp only [covers,pattern]
    exact (StatePath.covered_iff _ _).mpr narrower

/-- For which calls a child stays within its parent; a chain of such calls stays
    within its root. -/
theorem attenuate_narrows_iff (P : Primitives) :
    (∀ parent a, Narrows P parent a ↔ PatternNarrower parent a) ∧
      ∀ root calls,
        Along (child P) (fun parent a => (child P parent a).tokenId ≠ 0 ∧ PatternNarrower parent a) root calls →
          Within (run (child P) root calls) root := by
  have exactly : ∀ parent a, Narrows P parent a ↔ PatternNarrower parent a := by
    intro parent a
    by_cases refused : Refused parent a
    · have empty : (child P parent a).tokenId = 0 := by rw [child,attenuate_refused refused]; rfl
      exact ⟨fun _ => .inl refused,fun _ nonzero => absurd empty nonzero⟩
    · obtain ⟨id,_,_,pattern⟩ := child_accepted (P := P) refused
      constructor
      · intro narrows
        by_cases zero : a.store.nextTokenId = 0
        · exact .inr (.inl zero)
        · have within := narrows (by rw [id]; exact zero)
          have paths := (StatePath.covered_iff ⟨(child P parent a).pathPattern⟩ ⟨parent.pathPattern⟩).mp within.2.2
          rw [pattern] at paths
          exact .inr (.inr paths)
      · rintro (gone | zero | narrower) nonzero
        · exact absurd gone refused
        · exact absurd (id.trans zero) nonzero
        · exact within_of_narrower refused narrower
  refine ⟨exactly,fun root calls chain => ?_⟩
  refine chain.run_invariant (I := fun t => Within t root) ?_ (within_refl root)
  rintro t a held ⟨nonzero,narrower⟩
  exact within_trans ((exactly t a).mpr narrower nonzero) held

/-- A store of node 1 for concrete runs. -/
def nodeOne : CapabilityStore := .new (plainKeys 1) 1

/-- The first token that node 1 issues, for the path `/a`. -/
def tokenA : CapabilityToken := (nodeOne.issue plain (ofText "/a") 3 0).1

/-- A token for all of `/a`, narrowed to `/a/b` and then to reading it. -/
theorem attenuate_twice_within :
    Within (run (child plain) (nodeOne.issue plain (ofText "/a/*") 3 0).1
      [⟨nodeOne,ofText "/a/b",3,9⟩,⟨nodeOne,ofText "/a/b",1,8⟩]) (nodeOne.issue plain (ofText "/a/*") 3 0).1 :=
  (attenuate_narrows_iff plain).2 _ _ (by decide +kernel)

/-- From a token for `/a` the call makes one for `/b`. -/
theorem attenuate_other_path : ¬ Narrows plain tokenA ⟨nodeOne,ofText "/b",3,0⟩ := by
  intro narrows
  have within := narrows (by decide +kernel)
  have covered := within.2.2 ⟨ofText "/b"⟩ (by decide +kernel)
  revert covered
  decide +kernel

/-! ### Stores of several issuers -/

/-- What adds tokens to a store. -/
inductive StoreEvent where
  | issue (pathPattern : Bytes) (permissions : UInt8) (expiryUs : UInt32)
  | attenuate (parent : CapabilityToken) (narrowerPath : Bytes) (reducedPermissions : UInt8) (expiryUs : UInt32)
  | grant (payload : Bytes)
  deriving DecidableEq

def storeStep (P : Primitives) (s : CapabilityStore) : StoreEvent → CapabilityStore
  | .issue pathPattern permissions expiryUs => (s.issue P pathPattern permissions expiryUs).2
  | .attenuate parent narrowerPath reducedPermissions expiryUs =>
    (s.attenuate P parent narrowerPath reducedPermissions expiryUs).2
  | .grant payload =>
    match s.acceptGrant P payload with
    | none => s
    | some token => s.store token

/-- The token that a step stores, if it stores one. -/
def stored (P : Primitives) (s : CapabilityStore) : StoreEvent → Option CapabilityToken
  | .issue pathPattern permissions expiryUs => some (s.issue P pathPattern permissions expiryUs).1
  | .attenuate parent narrowerPath reducedPermissions expiryUs =>
    if Refused parent ⟨s,narrowerPath,reducedPermissions,expiryUs⟩ then none
    else some (s.attenuate P parent narrowerPath reducedPermissions expiryUs).1
  | .grant payload => s.acceptGrant P payload

/-- The step leaves the tokens of other issuers in place, and they still let
    through what they let through. -/
def Intact (P : Primitives) (s : CapabilityStore) (e : StoreEvent) : Prop :=
  ∀ new ∈ stored P s e, ∀ (id : UInt32) (t : CapabilityToken), s.tokens[id]? = some t → t.issuerId ≠ new.issuerId →
    (storeStep P s e).tokens[id]? = some t ∧ ∀ path perm nowUs, t.qualifies path perm nowUs = true →
      ((storeStep P s e).findCapability path perm nowUs).isSome = true

/-- The id of the token stored is not the id of another issuer's token. -/
def FreshId (P : Primitives) (s : CapabilityStore) (e : StoreEvent) : Prop :=
  ∀ new ∈ stored P s e, ∀ old ∈ s.tokens[new.tokenId]?, old.issuerId = new.issuerId

theorem storeStep_tokens (P : Primitives) (s : CapabilityStore) (e : StoreEvent) :
    (storeStep P s e).tokens = match stored P s e with
      | none => s.tokens
      | some new => s.tokens.insert new.tokenId new := by
  cases e with
  | issue pathPattern permissions expiryUs => rfl
  | attenuate parent narrowerPath reducedPermissions expiryUs =>
    by_cases refused : Refused parent ⟨s,narrowerPath,reducedPermissions,expiryUs⟩
    · have same := attenuate_refused (P := P) refused
      simp only [storeStep,stored,if_pos refused,same]
    · have minted := attenuate_accepted (P := P) refused
      simp only [storeStep,stored,if_neg refused,minted]
      rfl
  | grant payload =>
    simp only [storeStep,stored]
    cases s.acceptGrant P payload with
    | none => rfl
    | some token => rfl

/-- In which runs tokens of different issuers leave each other alone. -/
theorem grants_intact_iff (P : Primitives) (s : CapabilityStore) (es : List StoreEvent) :
    Along (storeStep P) (Intact P) s es ↔ Along (storeStep P) (FreshId P) s es := by
  refine along_congr (I := fun _ => True) (fun _ _ _ => trivial) (fun s e _ => ?_) trivial
  have tokens := storeStep_tokens P s e
  constructor
  · intro intact new storing old found
    by_contra other
    have kept := (intact new storing _ old found other).1
    rw [tokens,storing,ExtTreeMap.getElem?_insert_self,Option.some.injEq] at kept
    exact other (by rw [kept])
  · intro fresh new storing id t found other
    have kept : (storeStep P s e).tokens[id]? = some t := by
      have apart : new.tokenId ≠ id := by
        rintro rfl
        exact other (fresh new storing t found)
      rw [tokens,storing]
      simp only [ExtTreeMap.getElem?_insert,LawfulEqCmp.compare_eq_iff_eq,if_neg apart,found]
    exact ⟨kept,fun path perm nowUs ok => (findCapability_isSome_iff _ _ _ _).mpr ⟨id,t,kept,ok⟩⟩

/-- Node 1 knows the key of node 2 and receives the first token that node 2
    issued, after having issued a first token itself. -/
theorem grant_displaces_issued :
    ¬ Along (storeStep plain) (Intact plain) (nodeOne.registerPeerKey 2 (plainKeys 2).publicKey)
      [.issue (ofText "/a") 3 0,
        .grant ((CapabilityStore.new (plainKeys 2) 2).issue plain (ofText "/b") 1 0).1.encode] := by
  rintro ⟨_,second,_⟩
  have storing : stored plain
      (storeStep plain (nodeOne.registerPeerKey 2 (plainKeys 2).publicKey) (.issue (ofText "/a") 3 0))
      (.grant ((CapabilityStore.new (plainKeys 2) 2).issue plain (ofText "/b") 1 0).1.encode) =
        some ((CapabilityStore.new (plainKeys 2) 2).issue plain (ofText "/b") 1 0).1 := by
    decide +kernel
  have found := (second _ storing 1 tokenA (by decide +kernel) (by decide +kernel)).2 ⟨ofText "/a"⟩ .write 0
    (by decide +kernel)
  revert found
  decide +kernel

end Rom.CapabilityRuns
