import Rom.Capability

/-!
What patterns cover. Every list of segments without slashes is that of a path
(`segments_ofSegments`). One pattern, read as a path, matches another exactly if it
covers no path that the other does not cover, whether all paths are looked at or only
those without wildcards (`matches_iff_concrete`); so matching is an order on patterns
along which tokens cover more (`containment`).
-/
namespace Rom.StatePath

/-! ### Segments -/

theorem split_cons {s : Bytes} (free : slash ∉ s) (rest : Bytes) : split (s ++ slash :: rest) = s :: split rest := by
  have none : s.findIdx? (· == slash) = none := by
    rw [List.findIdx?_eq_none_iff]
    intro b member
    exact beq_false_of_ne (fun same => free (same ▸ member))
  have found : (s ++ slash :: rest).findIdx? (· == slash) = some s.length := by
    rw [List.findIdx?_append,none,List.findIdx?_cons]
    simp
  have some : (s ++ slash :: rest).isEmpty = false := by simp
  rw [split_eq,some,found]
  simp only [Bool.false_eq_true,if_false,List.take_left]
  rw [← List.drop_drop,List.drop_left]
  rfl

theorem slash_not_mem_split (sv : Bytes) : ∀ s ∈ split sv, slash ∉ s := by
  -- each round splits what is behind a slash
  induction size : sv.length using Nat.strong_induction_on generalizing sv with
  | h n ih =>
    rw [split_eq]
    cases sv with
    | nil => simp
    | cons b sv =>
      cases found : (b :: sv).findIdx? (· == slash) with
      | none =>
        intro s member inside
        rw [List.findIdx?_eq_none_iff] at found
        obtain rfl : s = b :: sv := by simpa using member
        simpa using found slash inside
      | some pos =>
        obtain ⟨here,_,before⟩ := List.findIdx?_eq_some_iff_getElem.mp found
        intro s member
        rcases List.mem_cons.mp (show s ∈ (b :: sv).take pos :: split ((b :: sv).drop (pos+1)) from member) with rfl | later
        · intro inside
          obtain ⟨i,near,same⟩ := List.mem_take_iff_getElem.mp inside
          have other := before i (by omega)
          simp [same] at other
        · exact ih _ (by rw [← size,List.length_drop]; omega) _ rfl s later

/-- A path with given segments: each ends with a slash, and one is put around them. -/
def ofSegments (segments : List Bytes) : StatePath := ⟨slash :: segments.flatMap (· ++ [slash]) ++ [slash]⟩

theorem segments_ofSegments {segments : List Bytes} (free : ∀ s ∈ segments, slash ∉ s) :
    (ofSegments segments).segments = segments := by
  have trimmed : trim (slash :: segments.flatMap (· ++ [slash]) ++ [slash]) = segments.flatMap (· ++ [slash]) := by
    simp [trim]
  rw [StatePath.segments,parseSegments,ofSegments,trimmed]
  induction segments with
  | nil => rfl
  | cons s segments ih =>
    rw [List.flatMap_cons,List.append_assoc,List.singleton_append,split_cons (free s List.mem_cons_self),
      ih (fun s member => free s (List.mem_cons_of_mem _ member)) (by simp [trim])]

/-! ### Patterns -/

theorem matches_trans {p q r : StatePath} (first : p.matchesPattern q = true) (second : q.matchesPattern r = true) :
    p.matchesPattern r = true := (covered_iff q r).mpr second p first

/-- The path has no wildcards. -/
def Concrete (p : StatePath) : Prop := star ∉ p.segments

/-- A segment that is longer than all of these. -/
def longer (segments : List Bytes) : Bytes := List.replicate (segments.flatten.length + 2) 97

theorem longer_not_mem (segments : List Bytes) : longer segments ∉ segments := by
  intro member
  have short := (List.sublist_flatten_of_mem member).length_le
  rw [longer,List.length_replicate] at short
  omega

theorem longer_ne_star (segments : List Bytes) : longer segments ≠ star := by
  intro same
  have short := congrArg List.length same
  rw [longer,List.length_replicate,star,List.length_singleton] at short
  omega

theorem slash_not_mem_longer (segments : List Bytes) : slash ∉ longer segments := by
  intro member
  exact absurd (List.eq_of_mem_replicate member) (by decide)

/-- A path of a pattern without wildcards, with segments that another pattern does
    not have in their place. -/
def instanceApart (p q : StatePath) : StatePath := ofSegments (Patterns.fill star (longer q.segments) p.segments)

theorem segments_instanceApart (p q : StatePath) :
    (instanceApart p q).segments = Patterns.fill star (longer q.segments) p.segments := by
  refine segments_ofSegments ?_
  intro s member
  obtain ⟨own,listed,rfl⟩ := List.mem_map.mp member
  by_cases wild : own = star
  · rw [if_pos wild]
    exact slash_not_mem_longer _
  · rw [if_neg wild]
    exact slash_not_mem_split _ own listed

/-- Paths without wildcards are enough to compare patterns. -/
theorem matches_iff_concrete (p q : StatePath) :
    p.matchesPattern q = true ↔ ∀ x : StatePath, Concrete x → x.matchesPattern p = true → x.matchesPattern q = true := by
  constructor
  · exact fun narrower x _ within => matches_trans within narrower
  · intro covered
    have segments := segments_instanceApart p q
    have concrete : Concrete (instanceApart p q) := by
      rw [Concrete,segments]
      exact Patterns.not_mem_fill (longer_ne_star _) _
    have within : (instanceApart p q).matchesPattern p = true := by
      rw [matches_iff,segments]
      exact Patterns.matches_fill _ _
    have found := covered _ concrete within
    rw [matches_iff,segments] at found
    rw [matches_iff]
    exact Patterns.matches_of_fill (longer_not_mem _) found

/-- Matching is containment of what patterns cover, of all paths or of those without
    wildcards, so it is reflexive and transitive; a token with a wider pattern covers
    more, and with a path all paths of it. -/
theorem containment :
    (∀ p q : StatePath, p.matchesPattern q = true ↔
      ∀ x : StatePath, x.matchesPattern p = true → x.matchesPattern q = true) ∧
    (∀ p q : StatePath, p.matchesPattern q = true ↔
      ∀ x : StatePath, Concrete x → x.matchesPattern p = true → x.matchesPattern q = true) ∧
    (∀ p : StatePath, p.matchesPattern p = true) ∧
    (∀ p q r : StatePath, p.matchesPattern q = true → q.matchesPattern r = true → p.matchesPattern r = true) ∧
    (∀ (t t' : CapabilityToken) (x : StatePath), StatePath.matchesPattern ⟨t.pathPattern⟩ ⟨t'.pathPattern⟩ = true →
      t.covers x = true → t'.covers x = true) ∧
    ∀ (t : CapabilityToken) (x y : StatePath), x.matchesPattern y = true → t.covers y = true → t.covers x = true := by
  refine ⟨?_,matches_iff_concrete,matches_self,?_,?_,?_⟩
  · exact fun p q => (covered_iff p q).symm
  · exact fun p q r first second => matches_trans first second
  · exact fun t t' x wider within => matches_trans within wider
  · exact fun t x y within covered => matches_trans within covered

end Rom.StatePath
