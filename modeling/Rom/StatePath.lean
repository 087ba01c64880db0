import Rom.Bytes
import Rom.Patterns

/-!
State paths (`state_path.h`, `state_path.cpp`): a path is its text, split at the
slashes into segments. A path matches a pattern segment by segment, where a
pattern's segment `*` stands for any. `covered_iff` says when everything that
matches one pattern matches another.
-/
namespace Rom

structure StatePath where
  path : Bytes
  deriving DecidableEq, Repr

namespace StatePath

def slash : UInt8 := 47
/-- The wildcard segment. -/
def star : Bytes := [42]

/-- The loop over what is left to split; each round takes a byte or more away. -/
def splitLoop : Nat → Bytes → List Bytes
  | 0, _ => []
  | fuel+1, sv =>
    if sv.isEmpty then []
    else
      match sv.findIdx? (· == slash) with
      | none => [sv]
      | some pos => sv.take pos :: splitLoop fuel (sv.drop (pos+1))

/-- One slash is dropped at the front and one at the end before the split. -/
def trim (path : Bytes) : Bytes :=
  let sv := if path.head? = some slash then path.drop 1 else path
  if sv.getLast? = some slash then sv.dropLast else sv

def split (sv : Bytes) : List Bytes := splitLoop sv.length sv

def parseSegments (path : Bytes) : List Bytes := split (trim path)

def segments (p : StatePath) : List Bytes := parseSegments p.path

def matchesPattern (p pattern : StatePath) : Bool :=
  let ps := pattern.segments
  if ps.length ≠ p.segments.length then false
  else (ps.zip p.segments).all (fun s => s.1 == star || s.1 == s.2)

/-- More rounds than bytes change nothing. -/
theorem splitLoop_enough (n m : Nat) (sv : Bytes) (enough : sv.length ≤ n) (enough' : sv.length ≤ m) :
    splitLoop n sv = splitLoop m sv := by
  induction n generalizing m sv with
  | zero =>
    obtain rfl : sv = [] := List.length_eq_zero_iff.mp (by omega)
    cases m <;> simp [splitLoop]
  | succ n ih =>
    cases m with
    | zero =>
      obtain rfl : sv = [] := List.length_eq_zero_iff.mp (by omega)
      simp [splitLoop]
    | succ m =>
      rw [splitLoop,splitLoop]
      cases sv.findIdx? (· == slash) with
      | none => rfl
      | some pos =>
        have rest : splitLoop n (sv.drop (pos+1)) = splitLoop m (sv.drop (pos+1)) :=
          ih m _ (by rw [List.length_drop]; omega) (by rw [List.length_drop]; omega)
        simp only [rest]

/-- The loop as the source has it, without a bound on its rounds. -/
theorem split_eq (sv : Bytes) :
    split sv = if sv.isEmpty then [] else
      match sv.findIdx? (· == slash) with
      | none => [sv]
      | some pos => sv.take pos :: split (sv.drop (pos+1)) := by
  cases sv with
  | nil => rfl
  | cons b sv =>
    rw [split,List.length_cons,splitLoop]
    cases (b :: sv).findIdx? (· == slash) with
    | none => rfl
    | some pos =>
      have rest : splitLoop sv.length ((b :: sv).drop (pos+1)) = split ((b :: sv).drop (pos+1)) :=
        splitLoop_enough _ _ _ (by simp) le_rfl
      simp only [rest]

theorem matches_iff (p pattern : StatePath) :
    p.matchesPattern pattern = true ↔ Patterns.Matches star p.segments pattern.segments := by
  rw [Patterns.matches_iff_zip,StatePath.matchesPattern]
  by_cases same : pattern.segments.length = p.segments.length
  · simp [same]
  · simp [same]

theorem matches_self (p : StatePath) : p.matchesPattern p = true := (matches_iff p p).mpr (Patterns.matches_refl _)

theorem segments_length_of_matches {p pattern : StatePath} (same : p.matchesPattern pattern = true) :
    pattern.segments.length = p.segments.length :=
  ((matches_iff p pattern).mp same).length_eq

/-- Every path of one pattern is one of another exactly when the first pattern,
    read as a path, matches the other. -/
theorem covered_iff (inner outer : StatePath) :
    (∀ p : StatePath, p.matchesPattern inner = true → p.matchesPattern outer = true) ↔
      inner.matchesPattern outer = true := by
  constructor
  · exact fun covered => covered inner (matches_self inner)
  · intro wider p within
    rw [matches_iff] at wider within ⊢
    exact within.trans wider

example : (parseSegments (ofText "/app/users/*/")) = [ofText "app",ofText "users",star] := by decide
example : (parseSegments (ofText "//a//b")) = [[],ofText "a",[],ofText "b"] := by decide

end StatePath
end Rom
