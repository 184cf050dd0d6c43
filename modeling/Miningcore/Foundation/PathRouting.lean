import Miningcore.Foundation.HexDigits
import Miningcore.Foundation.LineSplitting

/-!
# Routing by the segments of a path

A route is a list of patterns for the segments of a path. Literals are compared without regard to
the case of their letters, so a path that matches a route need not begin with the text of the route.
-/

namespace Foundation

/-! ### Segments -/

/-- The texts agree up to the case of their letters. -/
def sameLetters (a b : List Char) : Bool := ignoringCase a == ignoringCase b

theorem sameLetters_iff {a b : List Char} :
    sameLetters a b ↔ ignoringCase a = ignoringCase b := beq_iff_eq

theorem length_eq_of_sameLetters {a b : List Char} (h : sameLetters a b) : a.length = b.length := by
  simpa using congrArg List.length (sameLetters_iff.mp h)

/-- What stands between the separators of a path. One at the end adds no segment. -/
def pathSegments (path : List Char) : List (List Char) :=
  completeLines '/' path.tail ++
    if (lastLine '/' path.tail).isEmpty then [] else [lastLine '/' path.tail]

/-- The path begins with the segments of a prefix. -/
def startsWithSegments (pre path : List Char) : Bool :=
  sameLetters (path.take pre.length) pre && (path.drop pre.length).head?.all (· == '/')

theorem pathSegments_of_notMem {segment : List Char} (h : '/' ∉ segment) :
    pathSegments ('/' :: segment) = if segment.isEmpty then [] else [segment] := by
  rw [pathSegments, List.tail_cons, completeLines_of_notMem h, lastLine_of_notMem h,
    List.nil_append]

theorem pathSegments_append_cons {segment : List Char} (h : '/' ∉ segment) (path : List Char) :
    pathSegments ('/' :: (segment ++ '/' :: path)) = segment :: pathSegments ('/' :: path) := by
  rw [pathSegments, pathSegments, List.tail_cons, List.tail_cons, completeLines_append_cons h,
    lastLine_append_cons h, List.cons_append]

theorem pathSegments_nil : pathSegments [] = [] := rfl

/-- The first segment stands at the beginning of the path, and the others follow. -/
theorem exists_of_pathSegments {path segment : List Char} {more : List (List Char)}
    (h : pathSegments ('/' :: path) = segment :: more) :
    ∃ rest, path = segment ++ rest ∧ '/' ∉ segment ∧ rest.head?.all (· == '/') ∧
      pathSegments rest = more := by
  by_cases hmem : '/' ∈ path
  · obtain ⟨first, later, rfl, hfirst⟩ := List.eq_append_cons_of_mem hmem
    rw [pathSegments_append_cons hfirst] at h
    obtain ⟨rfl, hmore⟩ := List.cons.inj h
    exact ⟨'/' :: later, rfl, hfirst, rfl, hmore⟩
  · rw [pathSegments_of_notMem hmem] at h
    split at h
    · cases h
    · obtain ⟨rfl, rfl⟩ := List.cons.inj h
      exact ⟨[], (List.append_nil path).symm, hmem, rfl, pathSegments_nil⟩

/-- Only the separator is one in lower case. -/
theorem eq_separator_of_toLower {c : Char} (h : c.toLower = '/') : c = '/' := by
  apply @of_toLower (· = '/') c _ h
  intro n hlow hhigh
  interval_cases n <;> decide

theorem sameLetters_cons {c d : Char} {a b : List Char} :
    sameLetters (c :: a) (d :: b) ↔ c.toLower = d.toLower ∧ sameLetters a b := by
  simp [sameLetters_iff, ignoringCase]

theorem sameLetters_of_take {segment s rest : List Char} (hsegment : '/' ∉ segment) (hs : '/' ∉ s)
    (hrest : rest.head?.all (· == '/')) (htake : sameLetters ((segment ++ rest).take s.length) s)
    (hdrop : ((segment ++ rest).drop s.length).head?.all (· == '/')) : sameLetters segment s := by
  induction segment generalizing s with
  | nil =>
      cases s with
      | nil => rfl
      | cons c s =>
          cases rest with
          | nil => exact htake
          | cons d rest =>
              obtain rfl : d = '/' := by simpa using hrest
              have hfirst : '/'.toLower = c.toLower := (sameLetters_cons.mp htake).1
              obtain rfl : c = '/' := eq_separator_of_toLower hfirst.symm
              exact absurd List.mem_cons_self hs
  | cons c segment ih =>
      rw [List.mem_cons, not_or] at hsegment
      cases s with
      | nil =>
          obtain rfl : c = '/' := by simpa using hdrop
          exact absurd rfl hsegment.1
      | cons d s =>
          rw [List.mem_cons, not_or] at hs
          obtain ⟨hfirst, htake⟩ := sameLetters_cons.mp htake
          exact sameLetters_cons.mpr ⟨hfirst, ih hsegment.2 hs.2 htake hdrop⟩

/-- A path that begins with a single segment has it as its first, up to the case of letters. -/
theorem sameLetters_of_startsWithSegments {path segment s : List Char} {more : List (List Char)}
    (h : pathSegments ('/' :: path) = segment :: more) (hs : '/' ∉ s)
    (hstarts : startsWithSegments ('/' :: s) ('/' :: path)) : sameLetters segment s := by
  obtain ⟨rest, rfl, hsegment, hrest, -⟩ := exists_of_pathSegments h
  obtain ⟨htake, hdrop⟩ := Bool.and_eq_true_iff.mp hstarts
  exact sameLetters_of_take hsegment hs hrest (sameLetters_cons.mp htake).2 hdrop

/-- A path begins with the text of two segments when its own first two are spelled like them. -/
theorem isPrefixOf_iff {path first second s t : List Char} {more : List (List Char)}
    (h : pathSegments ('/' :: path) = first :: second :: more) (hfirst : first.length = s.length)
    (hsecond : second.length = t.length) :
    ('/' :: s ++ '/' :: t).isPrefixOf ('/' :: path) ↔ first = s ∧ second = t := by
  obtain ⟨rest, rfl, -, hrest, hmore⟩ := exists_of_pathSegments h
  cases rest with
  | nil => cases hmore
  | cons c rest =>
      obtain rfl : c = '/' := by simpa using hrest
      obtain ⟨later, rfl, -⟩ := exists_of_pathSegments hmore
      rw [List.isPrefixOf_iff_prefix]
      constructor
      · rintro ⟨rest, heq⟩
        rw [List.cons_append, List.cons_append, List.append_assoc] at heq
        obtain ⟨hs, heq⟩ := List.append_inj (List.cons.inj heq).2 hfirst.symm
        rw [List.cons_append] at heq
        obtain ⟨ht, -⟩ := List.append_inj (List.cons.inj heq).2 hsecond.symm
        exact ⟨hs.symm, ht.symm⟩
      · rintro ⟨rfl, rfl⟩
        exact ⟨later, by simp⟩

/-! ### Routes -/

inductive RouteSegment where
  | literal (text : String)
  | parameter
  /-- All that is left of the path. -/
  | catchAll

def routeMatches : List RouteSegment → List (List Char) → Bool
  | .catchAll :: _, _ => true
  | [], segments => segments.isEmpty
  | _ :: _, [] => false
  | .literal text :: pattern, segment :: segments =>
      sameLetters segment text.toList && routeMatches pattern segments
  | .parameter :: pattern, segment :: segments => !segment.isEmpty && routeMatches pattern segments

end Foundation
