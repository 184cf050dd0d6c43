import Mathlib.Algebra.Order.Group.Defs
import Mathlib.Data.List.Basic
import Mathlib.Data.List.NodupEquivFin
import Mathlib.Data.List.TakeWhile
import Mathlib.Tactic.Common

/-!
# Spaced times

Times are listed with the latest first. When all of them but the first few keep a distance from the
time before, no window of that length has more than these few.

Listed with the earliest first, no interval of a length has more than a few times if each is more
than that length after the one so many places before. Among the first few times of windows that
follow each other, only those of successive windows can be too near.
-/

namespace Foundation

section spaced

variable {α : Type*} [AddCommGroup α] [LinearOrder α] [IsOrderedAddMonoid α] {free : ℕ} {gap : α}

/-- Times in order, with a gap before each that comes after the first `free` ones. -/
def Spaced (free : ℕ) (gap : α) : List α → Prop
  | [] => True
  | time :: earlier =>
      (∀ last ∈ earlier.head?, last ≤ time ∧ (free ≤ earlier.length → last + gap ≤ time)) ∧
        Spaced free gap earlier

def inWindow (gap start time : α) : Bool := start ≤ time && time < start + gap

omit [IsOrderedAddMonoid α] in
theorem Spaced.le_head {time : α} {earlier : List α} (h : Spaced free gap (time :: earlier)) :
    ∀ other ∈ earlier, other ≤ time := by
  induction earlier generalizing time with
  | nil => simp
  | cons last earlier ih =>
      obtain ⟨hlast, hearlier⟩ := h
      have hle : last ≤ time := (hlast last rfl).1
      intro other hother
      obtain rfl | hother := List.mem_cons.mp hother
      · exact hle
      · exact (ih hearlier other hother).trans hle

/-- A window has at most as many times as are free of the gap. -/
theorem Spaced.countP_inWindow_le (hfree : 0 < free) {times : List α}
    (h : Spaced free gap times) (start : α) : times.countP (inWindow gap start) ≤ free := by
  induction times with
  | nil => exact Nat.zero_le _
  | cons time earlier ih =>
      by_cases hin : inWindow gap start time
      · rw [List.countP_cons_of_pos hin]
        by_cases hmany : free ≤ earlier.length
        · -- the time before is a gap away, so the window begins after it
          have hnone : earlier.countP (inWindow gap start) = 0 := by
            rw [List.countP_eq_zero]
            intro other hother
            cases earlier with
            | nil => cases hother
            | cons last earlier =>
                have hgap : last + gap ≤ time := (h.1 last rfl).2 hmany
                have hle : other ≤ last := by
                  obtain rfl | hother := List.mem_cons.mp hother
                  · exact le_rfl
                  · exact h.2.le_head other hother
                obtain ⟨-, hend⟩ := Bool.and_eq_true_iff.mp hin
                have hlast : last < start := by
                  have hlt := hgap.trans_lt (of_decide_eq_true hend)
                  exact lt_of_add_lt_add_right hlt
                have hout : ¬start ≤ other := not_le.mpr (hle.trans_lt hlast)
                simp [inWindow, hout]
          rw [hnone]
          exact hfree
        · have hfew := List.countP_le_length (p := inWindow gap start) (l := earlier)
          omega
      · rw [List.countP_cons_of_neg hin]
        exact ih h.2

end spaced

section counting

variable {α : Type*} [AddCommMonoid α] [LinearOrder α] [IsOrderedAddMonoid α] {limit : ℕ}
  {length : α} {times : List α}

/-- No interval of a length has more than so many times. -/
def WithinLimit (limit : ℕ) (length : α) (times : List α) : Prop :=
  ∀ start, times.countP (fun time => start ≤ time ∧ time ≤ start + length) ≤ limit

/-- A time is more than a length after the one that many places before. -/
def Lagging (limit : ℕ) (length : α) (times : List α) : Prop :=
  ∀ i, ∀ earlier ∈ times[i]?, ∀ later ∈ times[i + limit]?, earlier + length < later

omit [AddCommMonoid α] [IsOrderedAddMonoid α] in
theorem getElem_le_getElem (h : times.Pairwise (· ≤ ·)) {i j : ℕ} (hij : i ≤ j)
    (hj : j < times.length) : times[i] ≤ times[j] := by
  obtain rfl | hlt := hij.eq_or_lt
  · exact le_rfl
  · exact List.pairwise_iff_getElem.mp h i j _ hj hlt

/-- As many times as are too many for an interval start and end with two that are too near. -/
theorem withinLimit_iff_lagging (h : times.Pairwise (· ≤ ·)) :
    WithinLimit limit length times ↔ Lagging limit length times := by
  constructor
  · intro hwithin i earlier hearlier later hlater
    by_contra hnear
    obtain ⟨hi, rfl⟩ := List.getElem?_eq_some_iff.mp hearlier
    obtain ⟨hj, rfl⟩ := List.getElem?_eq_some_iff.mp hlater
    have hall : ∀ time ∈ (times.drop i).take (limit + 1),
        decide (times[i] ≤ time ∧ time ≤ times[i] + length) = true := by
      intro time htime
      obtain ⟨k, hk, rfl⟩ := List.mem_iff_getElem.mp htime
      rw [List.length_take] at hk
      rw [List.getElem_take, List.getElem_drop, decide_eq_true_eq]
      exact ⟨getElem_le_getElem h (by omega) _,
        (getElem_le_getElem h (by omega) hj).trans (not_lt.mp hnear)⟩
    have hcount : ((times.drop i).take (limit + 1)).countP
        (fun time => times[i] ≤ time ∧ time ≤ times[i] + length) ≤
          times.countP fun time => times[i] ≤ time ∧ time ≤ times[i] + length :=
      ((List.take_sublist _ _).trans (List.drop_sublist i times)).countP_le
    rw [List.countP_eq_length.mpr hall, List.length_take, List.length_drop] at hcount
    have hle := hcount.trans (hwithin times[i])
    omega
  · intro hlagging start
    rw [List.countP_eq_length_filter]
    by_contra hmany
    obtain ⟨place, hplace⟩ := List.sublist_iff_exists_orderEmbedding_getElem?_eq.mp
      (List.filter_sublist (l := times) (p := fun time => start ≤ time ∧ time ≤ start + length))
    have hmem {k : ℕ} (hk : k ≤ limit) : ∃ hlt : place k < times.length,
        start ≤ times[place k] ∧ times[place k] ≤ start + length := by
      have hget := hplace k
      have hfound := hk.trans_lt (not_le.mp hmany)
      rw [List.getElem?_eq_getElem hfound] at hget
      obtain ⟨hlt, heq⟩ := List.getElem?_eq_some_iff.mp hget.symm
      have hkept := List.of_mem_filter (List.getElem_mem hfound)
      rw [decide_eq_true_eq] at hkept
      exact ⟨hlt, heq ▸ hkept⟩
    have hplaces : place 0 + limit ≤ place limit :=
      (Nat.add_comm _ _).trans_le (place.strictMono.add_le_nat limit 0)
    obtain ⟨hfirst, hstart, -⟩ := hmem (Nat.zero_le limit)
    obtain ⟨hlast, -, hend⟩ := hmem le_rfl
    have hfar := hlagging (place 0) _ (List.getElem?_eq_getElem hfirst) _
      (List.getElem?_eq_getElem (hplaces.trans_lt hlast))
    have hnear := (getElem_le_getElem h hplaces hlast).trans
      (hend.trans (add_le_add_left hstart length))
    exact absurd hfar (not_lt.mpr hnear)

end counting

section windows

variable {α : Type*} [AddCommMonoid α] [LinearOrder α] (opens : α → Bool) (limit : ℕ) (length : α)

/-- Times by windows of a length, each from the first time after the one before at which one can be
opened. -/
def windows : List α → List (List α)
  | [] => []
  | time :: times =>
      if opens time then
        (time :: times.takeWhile (· ≤ time + length)) ::
          windows (times.dropWhile (· ≤ time + length))
      else windows times
termination_by times => times.length
decreasing_by
  · exact Nat.lt_succ_of_le (List.dropWhile_sublist _).length_le
  · exact Nat.lt_succ_self _

/-- Of the first few times of two windows, each of the later one is more than the length after the
one that is as many places before. -/
def Apart (earlier later : List α) : Prop :=
  ∀ i, ∀ first ∈ (earlier.take limit)[i]?,
    ∀ last ∈ (later.take limit)[i + (limit - (earlier.take limit).length)]?, first + length < last

/-- Lists of times, each from its first one on within a length and after the lengths of those
before. -/
def Windowed : List (List α) → Prop
  | [] => True
  | window :: rest =>
      (∃ start, window.head? = some start ∧
        (∀ time ∈ window, start ≤ time ∧ time ≤ start + length) ∧
          ∀ other ∈ rest, ∀ time ∈ other, start + length < time) ∧ Windowed rest

variable {opens limit length}

theorem mem_of_mem_windows {times window : List α} {time : α}
    (hwindow : window ∈ windows opens length times) (htime : time ∈ window) : time ∈ times := by
  induction times using windows.induct opens length with
  | case1 => exact absurd hwindow (by simp [windows])
  | case2 first times hopens ih =>
      rw [windows, if_pos hopens, List.mem_cons] at hwindow
      obtain rfl | hrest := hwindow
      · apply List.mem_cons.mpr ((List.mem_cons.mp htime).imp_right _)
        exact fun h => (List.takeWhile_sublist _).mem h
      · exact List.mem_cons_of_mem _ ((List.dropWhile_sublist _).mem (ih hrest))
  | case3 first times hopens ih =>
      rw [windows, if_neg hopens] at hwindow
      exact List.mem_cons_of_mem _ (ih hwindow)

omit [AddCommMonoid α] in
theorem le_of_mem_takeWhile {times : List α} {bound time : α}
    (htime : time ∈ times.takeWhile (· ≤ bound)) : time ≤ bound := by
  have hwithin := List.mem_takeWhile_imp htime
  rwa [decide_eq_true_eq] at hwithin

omit [AddCommMonoid α] in
theorem lt_of_mem_dropWhile {times : List α} (h : times.Pairwise (· ≤ ·)) {bound time : α}
    (htime : time ∈ times.dropWhile (· ≤ bound)) : bound < time := by
  induction times with
  | nil => exact absurd htime List.not_mem_nil
  | cons first times ih =>
      obtain ⟨hfirst, htimes⟩ := List.pairwise_cons.mp h
      by_cases hle : first ≤ bound
      · rw [List.dropWhile_cons, if_pos (decide_eq_true hle)] at htime
        exact ih htimes htime
      · rw [List.dropWhile_cons, if_neg (by simpa using hle)] at htime
        obtain rfl | hmem := List.mem_cons.mp htime
        · exact not_le.mp hle
        · exact (not_le.mp hle).trans_le (hfirst time hmem)

theorem Windowed.exists_start {groups : List (List α)} (h : Windowed length groups)
    {window : List α} (hwindow : window ∈ groups) :
    ∃ start, ∀ time ∈ window, start ≤ time ∧ time ≤ start + length := by
  induction groups with
  | nil => exact absurd hwindow List.not_mem_nil
  | cons group rest ih =>
      obtain ⟨⟨start, -, hgroup, -⟩, hrest⟩ := h
      obtain rfl | hmem := List.mem_cons.mp hwindow
      · exact ⟨start, hgroup⟩
      · exact ih hrest hmem

variable [IsOrderedAddMonoid α]

theorem windowed_windows (hlength : 0 ≤ length) {times : List α} (h : times.Pairwise (· ≤ ·)) :
    Windowed length (windows opens length times) := by
  induction times using windows.induct opens length with
  | case1 =>
      rw [windows]
      trivial
  | case2 first times hopens ih =>
      obtain ⟨hfirst, htimes⟩ := List.pairwise_cons.mp h
      rw [windows, if_pos hopens]
      refine ⟨⟨first, rfl, ?_, ?_⟩, ih (htimes.sublist (List.dropWhile_sublist _))⟩
      · intro time htime
        obtain rfl | hmem := List.mem_cons.mp htime
        · exact ⟨le_rfl, le_add_of_nonneg_right hlength⟩
        · exact ⟨hfirst time ((List.takeWhile_sublist _).mem hmem), le_of_mem_takeWhile hmem⟩
      · intro other hother time htime
        exact lt_of_mem_dropWhile htimes (mem_of_mem_windows hother htime)
  | case3 first times hopens ih =>
      rw [windows, if_neg hopens]
      exact ih (List.pairwise_cons.mp h).2

omit [IsOrderedAddMonoid α] in
/-- Few times lag together with others if each lags to the one so many places after it. -/
theorem lagging_append_iff {few times : List α} (h : few.length ≤ limit) :
    Lagging limit length (few ++ times) ↔
      (∀ i, ∀ first ∈ few[i]?, ∀ last ∈ times[i + (limit - few.length)]?,
        first + length < last) ∧ Lagging limit length times := by
  constructor
  · intro hlagging
    constructor
    · intro i first hfirst last hlast
      obtain ⟨hi, -⟩ := List.getElem?_eq_some_iff.mp hfirst
      apply hlagging i first _ last
      · rw [Option.mem_def, List.getElem?_append_right (by omega), ← hlast]
        congr 1
        omega
      · rwa [Option.mem_def, List.getElem?_append_left hi]
    · intro i first hfirst last hlast
      apply hlagging (i + few.length) first _ last
      · rw [Option.mem_def, List.getElem?_append_right (by omega), ← hlast]
        congr 1
        omega
      · rw [Option.mem_def, List.getElem?_append_right (by omega), ← hfirst]
        congr 1
        omega
  · rintro ⟨hfew, htimes⟩ i first hfirst last hlast
    rw [Option.mem_def, List.getElem?_append_right (by omega)] at hlast
    by_cases hi : i < few.length
    · rw [Option.mem_def, List.getElem?_append_left hi] at hfirst
      apply hfew i first hfirst last
      rw [Option.mem_def, ← hlast]
      congr 1
      omega
    · rw [Option.mem_def, List.getElem?_append_right (by omega)] at hfirst
      apply htimes (i - few.length) first hfirst last
      rw [Option.mem_def, ← hlast]
      congr 1
      omega

/-- The first times of each window lag if those of successive windows do. -/
theorem lagging_flatMap_iff {groups : List (List α)} (h : Windowed length groups) :
    Lagging limit length (groups.flatMap (List.take limit)) ↔
      groups.IsChain (Apart limit length) := by
  induction groups with
  | nil => simp [Lagging]
  | cons group rest ih =>
      obtain ⟨⟨start, hstart, hgroup, hafter⟩, hrest⟩ := h
      rw [List.flatMap_cons, lagging_append_iff (List.length_take_le _ _), ih hrest]
      cases rest with
      | nil => simp
      | cons next rest =>
          rw [List.isChain_cons_cons]
          apply and_congr_left
          intro _
          obtain ⟨⟨start', hstart', hnext, hafter'⟩, -⟩ := hrest
          constructor
          · intro hlagging i first hfirst last hlast
            apply hlagging i first hfirst last
            obtain ⟨hi, -⟩ := List.getElem?_eq_some_iff.mp hlast
            rwa [List.flatMap_cons, Option.mem_def, List.getElem?_append_left hi]
          · intro hapart i first hfirst last hlast
            rw [List.flatMap_cons, Option.mem_def, List.getElem?_append] at hlast
            split_ifs at hlast with hi
            · exact hapart i first hfirst last hlast
            · -- later windows start after the length of the next one
              obtain ⟨other, hother, hlater⟩ :=
                List.mem_flatMap.mp (List.mem_of_getElem? hlast)
              have hfar := hafter' other hother last (List.mem_of_mem_take hlater)
              have hnear := (hgroup first
                (List.mem_of_mem_take (List.mem_of_getElem? hfirst))).2
              have hbetween := hafter next List.mem_cons_self start'
                (List.mem_of_mem_head? hstart')
              exact (add_le_add_left (hnear.trans hbetween.le) length).trans_lt hfar

end windows

end Foundation
