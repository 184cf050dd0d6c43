import Mathlib.Data.List.Basic
import Mathlib.Tactic.Common

/-!
# Lines of a stream

A separator ends a line. A stream has the lines that are ended in it and a last
line that is not. Cutting the stream in two loses nothing when the last line of
the first part is put in front of the second.
-/

namespace Foundation

section lines

variable {α : Type*} [DecidableEq α] (separator : α)

/-- The first line and what follows its separator. -/
def takeLine (xs : List α) : Option (List α × List α) :=
  (xs.idxOf? separator).map fun position => (xs.take position, xs.drop (position + 1))

/-- The lines that are ended. -/
def completeLines (xs : List α) : List (List α) :=
  (xs.splitOn separator).dropLast

/-- What follows the last separator. -/
def lastLine (xs : List α) : List α :=
  (xs.splitOn separator).getLast (List.splitOn_ne_nil separator xs)

section first

variable {separator} {line : List α}

@[simp] theorem takeLine_of_notMem (h : separator ∉ line) : takeLine separator line = none := by
  rw [takeLine, List.idxOf?_eq_none_iff.mpr h, Option.map_none]

@[simp] theorem takeLine_append_cons (h : separator ∉ line) (rest : List α) :
    takeLine separator (line ++ separator :: rest) = some (line, rest) := by
  induction line with
  | nil => simp [takeLine, List.idxOf?_cons]
  | cons a line ih =>
      have ha : ¬ a = separator := fun e => h (by simp [e])
      have hline := ih fun hmem => h (List.mem_cons_of_mem a hmem)
      simp only [takeLine, Option.map_eq_some_iff, Prod.mk.injEq] at hline ⊢
      obtain ⟨position, hposition, htake, hdrop⟩ := hline
      refine ⟨position + 1, ?_, by simp [htake], by simpa using hdrop⟩
      simp [List.idxOf?_cons, ha, hposition]

@[simp] theorem completeLines_of_notMem (h : separator ∉ line) :
    completeLines separator line = [] := by
  rw [completeLines, List.splitOn_eq_singleton h, List.dropLast_singleton]

@[simp] theorem lastLine_of_notMem (h : separator ∉ line) : lastLine separator line = line := by
  simp only [lastLine, List.splitOn_eq_singleton h, List.getLast_singleton]

@[simp] theorem completeLines_append_cons (h : separator ∉ line) (rest : List α) :
    completeLines separator (line ++ separator :: rest) =
      line :: completeLines separator rest := by
  rw [completeLines, List.splitOn_append_cons_self_of_not_mem h,
    List.dropLast_cons_of_ne_nil (List.splitOn_ne_nil separator rest), completeLines]

@[simp] theorem lastLine_append_cons (h : separator ∉ line) (rest : List α) :
    lastLine separator (line ++ separator :: rest) = lastLine separator rest := by
  simp only [lastLine, List.splitOn_append_cons_self_of_not_mem h]
  exact List.getLast_cons (List.splitOn_ne_nil separator rest)

end first

/-- Induction along the lines of a stream. -/
@[elab_as_elim]
theorem lines_induction {motive : List α → Prop}
    (last : ∀ line, separator ∉ line → motive line)
    (ended : ∀ line rest, separator ∉ line → motive rest → motive (line ++ separator :: rest))
    (xs : List α) : motive xs := by
  by_cases h : separator ∈ xs
  · obtain ⟨line, rest, hxs, hline⟩ := List.eq_append_cons_of_mem h
    have hshorter : rest.length < xs.length := by
      rw [hxs, List.length_append, List.length_cons]
      omega
    rw [hxs]
    exact ended line rest hline (lines_induction last ended rest)
  · exact last xs h
termination_by xs.length

variable (xs ys : List α)

theorem completeLines_append :
    completeLines separator (xs ++ ys) =
      completeLines separator xs ++ completeLines separator (lastLine separator xs ++ ys) := by
  induction xs using lines_induction separator with
  | last line h => rw [completeLines_of_notMem h, lastLine_of_notMem h, List.nil_append]
  | ended line rest h ih =>
      rw [List.append_assoc, List.cons_append, completeLines_append_cons h,
        completeLines_append_cons h, lastLine_append_cons h, ih, List.cons_append]

theorem lastLine_append :
    lastLine separator (xs ++ ys) = lastLine separator (lastLine separator xs ++ ys) := by
  induction xs using lines_induction separator with
  | last line h => rw [lastLine_of_notMem h]
  | ended line rest h ih =>
      rw [List.append_assoc, List.cons_append, lastLine_append_cons h, lastLine_append_cons h, ih]

theorem notMem_lastLine : separator ∉ lastLine separator xs := by
  induction xs using lines_induction separator with
  | last line h => rwa [lastLine_of_notMem h]
  | ended line rest h ih => rwa [lastLine_append_cons h]

theorem notMem_of_mem_splitOn {line : List α} (h : line ∈ xs.splitOn separator) :
    separator ∉ line := by
  induction xs using lines_induction separator with
  | last other hother =>
      rw [List.splitOn_eq_singleton hother, List.mem_singleton] at h
      exact h ▸ hother
  | ended other rest hother ih =>
      rw [List.splitOn_append_cons_self_of_not_mem hother, List.mem_cons] at h
      obtain rfl | hrest := h
      · exact hother
      · exact ih hrest

/-- A line is shorter than the stream by its separator at least. -/
theorem length_lt_of_mem_completeLines {line : List α}
    (h : line ∈ completeLines separator xs) : line.length < xs.length := by
  induction xs using lines_induction separator with
  | last other hother => simp [completeLines_of_notMem hother] at h
  | ended other rest hother ih =>
      rw [completeLines_append_cons hother, List.mem_cons] at h
      rw [List.length_append, List.length_cons]
      obtain rfl | hrest := h
      · omega
      · have := ih hrest
        omega

theorem length_lastLine_le : (lastLine separator xs).length ≤ xs.length := by
  induction xs using lines_induction separator with
  | last line h => exact Nat.le_of_eq (by rw [lastLine_of_notMem h])
  | ended line rest h ih =>
      rw [lastLine_append_cons h, List.length_append, List.length_cons]
      omega

theorem takeLine_decreasing {line rest : List α} (h : takeLine separator xs = some (line, rest)) :
    rest.length < xs.length := by
  induction xs using lines_induction separator with
  | last other hother => simp [takeLine_of_notMem hother] at h
  | ended other others hother ih =>
      rw [takeLine_append_cons hother, Option.some.injEq, Prod.mk.injEq] at h
      rw [← h.2, List.length_append, List.length_cons]
      omega

end lines

/-!
## Lines of a stream that is read in parts

A reader that keeps nothing from one read to the next splits every part into lines of its
own. It sees the lines of the stream in which no part ends, and the beginning of the others.
-/

section chunks

variable {α : Type*}

/-- A stream in the parts in which a buffer gets it. -/
structure Reads (stream : List α) (bufferSize : ℕ) where
  chunks : List (List α)
  flatten_eq : chunks.flatten = stream
  length_pos : ∀ chunk ∈ chunks, 0 < chunk.length
  length_le : ∀ chunk ∈ chunks, chunk.length ≤ bufferSize

/-- A part ends behind the first of the elements from a position on, and before the last. -/
def IsCut (chunks : List (List α)) (position length : ℕ) : Prop :=
  ∃ count, position < (chunks.take count).flatten.length ∧
    (chunks.take count).flatten.length < position + length

/-- The parts without the first elements of the stream. -/
def dropElements : ℕ → List (List α) → List (List α)
  | _, [] => []
  | count, chunk :: chunks => chunk.drop count :: dropElements (count - chunk.length) chunks

section positions

variable {chunks : List (List α)} {position length count : ℕ}

theorem flatten_take_dropElements (count taken : ℕ) (chunks : List (List α)) :
    ((dropElements count chunks).take taken).flatten =
      (chunks.take taken).flatten.drop count := by
  induction chunks generalizing count taken with
  | nil => simp [dropElements]
  | cons chunk chunks ih =>
      cases taken with
      | zero => simp
      | succ taken =>
          rw [dropElements, List.take_succ_cons, List.flatten_cons, ih, List.take_succ_cons,
            List.flatten_cons, List.drop_append]

theorem flatten_dropElements (count : ℕ) (chunks : List (List α)) :
    (dropElements count chunks).flatten = chunks.flatten.drop count := by
  induction chunks generalizing count with
  | nil => simp [dropElements]
  | cons chunk chunks ih =>
      rw [dropElements, List.flatten_cons, ih, List.flatten_cons, List.drop_append]

theorem dropElements_zero (chunks : List (List α)) : dropElements 0 chunks = chunks := by
  induction chunks with
  | nil => rfl
  | cons chunk chunks ih => rw [dropElements, List.drop_zero, Nat.zero_sub, ih]

theorem isCut_dropElements :
    IsCut (dropElements count chunks) position length ↔ IsCut chunks (count + position) length := by
  refine exists_congr fun taken => ?_
  rw [flatten_take_dropElements, List.length_drop]
  omega

theorem isCut_cons_of_le {chunk : List α} (h : chunk.length ≤ position)
    (hcut : IsCut chunks (position - chunk.length) length) :
    IsCut (chunk :: chunks) position length := by
  obtain ⟨taken, hlow, hhigh⟩ := hcut
  refine ⟨taken + 1, ?_⟩
  rw [List.take_succ_cons, List.flatten_cons, List.length_append]
  omega

/-- The first part ends behind the elements. -/
theorem not_isCut_of_le {chunk : List α} (h : length ≤ chunk.length) :
    ¬ IsCut (chunk :: chunks) 0 length := by
  rintro ⟨taken, hlow, hhigh⟩
  cases taken with
  | zero => simp at hlow
  | succ taken =>
      rw [List.take_succ_cons, List.flatten_cons, List.length_append] at hhigh
      omega

/-- One part ends nowhere inside. -/
theorem not_isCut_singleton {chunk : List α} (h : position + length ≤ chunk.length) :
    ¬ IsCut [chunk] position length := by
  rintro ⟨taken, hlow, hhigh⟩
  cases taken with
  | zero => simp at hlow
  | succ taken =>
      rw [List.take_succ_cons, List.take_nil, List.flatten_cons, List.flatten_nil,
        List.append_nil] at hhigh
      omega

/-- What is longer than the buffer is cut. -/
theorem isCut_of_lt {bufferSize : ℕ} (hchunks : ∀ chunk ∈ chunks, chunk.length ≤ bufferSize)
    (hlong : bufferSize < length) (hin : position + length ≤ chunks.flatten.length) :
    IsCut chunks position length := by
  induction chunks generalizing position with
  | nil =>
      rw [List.flatten_nil, List.length_nil] at hin
      omega
  | cons chunk chunks ih =>
      rw [List.forall_mem_cons] at hchunks
      rw [List.flatten_cons, List.length_append] at hin
      by_cases hle : chunk.length ≤ position
      · exact isCut_cons_of_le hle (ih hchunks.2 (by omega))
      · refine ⟨1, ?_⟩
        rw [List.take_succ_cons, List.take_zero, List.flatten_cons, List.flatten_nil,
          List.append_nil]
        omega

end positions

variable (isBreak : α → Bool)

/-- The lines that are not empty. -/
def linesOf (xs : List α) : List (List α) :=
  (xs.splitOnP isBreak).filter fun line => !line.isEmpty

def chunkLines (chunks : List (List α)) : List (List α) := chunks.flatMap (linesOf isBreak)

section lines

variable {isBreak} {xs : List α} {chunks : List (List α)}

theorem linesOf_nil : linesOf isBreak [] = [] := by simp [linesOf]

theorem linesOf_of_forall_not (h : ∀ x ∈ xs, isBreak x = false) (hne : xs ≠ []) :
    linesOf isBreak xs = [xs] := by
  rw [linesOf, List.splitOnP_eq_singleton h]
  exact List.filter_cons_of_pos (by simpa using hne)

theorem linesOf_append_cons {separator : α} (h : isBreak separator = true) (ys : List α) :
    linesOf isBreak (xs ++ separator :: ys) = linesOf isBreak xs ++ linesOf isBreak ys := by
  rw [linesOf, List.splitOnP_append_cons xs ys h, List.filter_append]
  rfl

theorem linesOf_append_of_forall {separators : List α} (h : ∀ x ∈ separators, isBreak x = true) :
    linesOf isBreak (separators ++ xs) = linesOf isBreak xs := by
  induction separators with
  | nil => rfl
  | cons separator separators ih =>
      rw [List.forall_mem_cons] at h
      rw [List.cons_append, ← List.nil_append (separator :: _), linesOf_append_cons h.1,
        linesOf_nil, List.nil_append, ih h.2]

theorem chunkLines_cons (chunk : List α) (chunks : List (List α)) :
    chunkLines isBreak (chunk :: chunks) =
      linesOf isBreak chunk ++ chunkLines isBreak chunks :=
  List.flatMap_cons

/-- Separators in front change nothing. -/
theorem chunkLines_separators {separators rest : List α}
    (h : ∀ x ∈ separators, isBreak x = true) (hstream : chunks.flatten = separators ++ rest) :
    chunkLines isBreak chunks =
      chunkLines isBreak (dropElements separators.length chunks) := by
  induction chunks generalizing separators with
  | nil => rfl
  | cons chunk chunks ih =>
      rw [List.flatten_cons, List.append_eq_append_iff] at hstream
      rw [dropElements, chunkLines_cons, chunkLines_cons]
      obtain ⟨others, rfl, hothers⟩ | ⟨others, rfl, -⟩ := hstream
      · rw [List.forall_mem_append] at h
        have hnone : linesOf isBreak (chunk ++ []) = linesOf isBreak [] :=
          linesOf_append_of_forall h.1
        rw [List.append_nil, linesOf_nil] at hnone
        rw [hnone, List.drop_of_length_le (by simp), linesOf_nil, List.length_append,
          Nat.add_sub_cancel_left, ih h.2 hothers]
      · rw [List.drop_left, List.length_append, linesOf_append_of_forall h,
          Nat.sub_eq_zero_of_le (Nat.le_add_right _ _), dropElements_zero]

/-- A line at the front is seen whole, or a part ends in it and its beginning is seen. -/
theorem chunkLines_line {line rest : List α} (hline : ∀ x ∈ line, isBreak x = false)
    (hne : line ≠ []) (hrest : ∀ x ∈ rest.head?, isBreak x = true)
    (hstream : chunks.flatten = line ++ rest) :
    (¬ IsCut chunks 0 line.length ∧ chunkLines isBreak chunks =
        line :: chunkLines isBreak (dropElements line.length chunks)) ∨
      (IsCut chunks 0 line.length ∧ ∃ fragment others,
        chunkLines isBreak chunks = fragment :: others ∧ fragment <+: line ∧ fragment ≠ [] ∧
          fragment ≠ line) := by
  induction chunks with
  | nil => exact absurd (List.append_eq_nil_iff.mp hstream.symm).1 hne
  | cons chunk chunks ih =>
      rw [List.flatten_cons, List.append_eq_append_iff] at hstream
      rw [dropElements, chunkLines_cons, chunkLines_cons]
      obtain ⟨others, hsplit, hothers⟩ | ⟨others, rfl, hothers⟩ := hstream
      · by_cases hchunk : chunk = []
        · subst hchunk
          rw [List.nil_append] at hsplit
          subst hsplit
          rw [linesOf_nil, List.nil_append, List.drop_nil, linesOf_nil, List.nil_append,
            List.length_nil, Nat.sub_zero]
          have hcut : IsCut ([] :: chunks) 0 line.length ↔ IsCut chunks 0 line.length := by
            constructor
            · rintro ⟨taken, hlow, hhigh⟩
              cases taken with
              | zero => simp at hlow
              | succ taken => exact ⟨taken, by simpa using hlow, by simpa using hhigh⟩
            · intro hcut
              exact isCut_cons_of_le (Nat.zero_le _) (by simpa using hcut)
          rw [hcut]
          exact ih hothers
        · have hnot : ∀ x ∈ chunk, isBreak x = false := fun x hx =>
            hline x (by rw [hsplit]; exact List.mem_append_left _ hx)
          rw [linesOf_of_forall_not hnot hchunk]
          by_cases hwhole : others = []
          · rw [hwhole, List.append_nil] at hsplit
            subst hsplit
            refine Or.inl ⟨not_isCut_of_le (Nat.le_refl _), ?_⟩
            rw [List.drop_length, linesOf_nil, Nat.sub_self, dropElements_zero]
            rfl
          · have hpos := List.length_pos_of_ne_nil hchunk
            have hlast := List.length_pos_of_ne_nil hwhole
            refine Or.inr ⟨⟨1, ?_⟩, chunk, chunkLines isBreak chunks, rfl,
              ⟨others, hsplit.symm⟩, hchunk, ?_⟩
            · rw [List.take_succ_cons, List.take_zero, List.flatten_cons, List.flatten_nil,
                List.append_nil, hsplit, List.length_append]
              omega
            · intro hsame
              rw [hsame] at hsplit
              exact hwhole (List.self_eq_append_right.mp hsplit)
      · refine Or.inl ⟨not_isCut_of_le (by simp), ?_⟩
        rw [List.drop_left, List.length_append, Nat.sub_eq_zero_of_le (Nat.le_add_right _ _),
          dropElements_zero]
        cases others with
        | nil =>
            rw [List.append_nil, linesOf_of_forall_not hline hne, linesOf_nil]
            rfl
        | cons separator others =>
            rw [hothers] at hrest
            have hseparator := hrest separator (by simp)
            have hnone : linesOf isBreak (separator :: others) = linesOf isBreak others := by
              rw [← List.nil_append (separator :: others), linesOf_append_cons hseparator,
                linesOf_nil, List.nil_append]
            rw [linesOf_append_cons hseparator, linesOf_of_forall_not hline hne, hnone]
            rfl

end lines

end chunks

end Foundation
