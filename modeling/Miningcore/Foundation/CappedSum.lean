import Miningcore.Foundation.EarlyExit
import Mathlib.Algebra.Order.BigOperators.Group.List
import Mathlib.Algebra.Order.Group.Defs
import Mathlib.Algebra.BigOperators.Group.List.Lemmas
import Mathlib.Tactic.Abel

/-!
# Accumulation up to a cap

Scores are added up down a list. The element whose score would reach the cap
contributes only what is missing and ends the accumulation.
-/

namespace Foundation

variable {α 𝕜 : Type*} [AddCommGroup 𝕜] [LinearOrder 𝕜] (score : α → 𝕜) (cap : 𝕜)

/-- The scan that stops at the element whose score reaches the cap. -/
def capScan : Scan 𝕜 α :=
  ⟨fun acc a => decide (cap ≤ acc + score a), fun acc a => acc + score a⟩

/-- Every consumed element with its contribution. -/
def cappedParts : 𝕜 → List α → List (α × 𝕜)
  | _, [] => []
  | acc, a :: l =>
      if cap ≤ acc + score a then [(a, cap - acc)]
      else (a, score a) :: cappedParts (acc + score a) l

variable {score cap}

@[simp] theorem capScan_stop (acc : 𝕜) (a : α) :
    (capScan score cap).stop acc a = decide (cap ≤ acc + score a) := rfl

@[simp] theorem capScan_step (acc : 𝕜) (a : α) :
    (capScan score cap).step acc a = acc + score a := rfl

theorem map_fst_cappedParts (acc : 𝕜) (l : List α) :
    (cappedParts score cap acc l).map Prod.fst = (capScan score cap).consume acc l := by
  induction l generalizing acc with
  | nil => rfl
  | cons a l ih =>
      by_cases h : cap ≤ acc + score a
      · simp [cappedParts, Scan.consume_cons, h]
      · simp [cappedParts, Scan.consume_cons, h, ih]

theorem cappedParts_consume (acc : 𝕜) (l : List α) :
    cappedParts score cap acc ((capScan score cap).consume acc l) =
      cappedParts score cap acc l := by
  induction l generalizing acc with
  | nil => rfl
  | cons a l ih =>
      by_cases h : cap ≤ acc + score a
      · simp [cappedParts, Scan.consume_cons, h]
      · simp [cappedParts, Scan.consume_cons, h, ih]

theorem cappedParts_append {acc : 𝕜} {l₁ : List α} (l₂ : List α)
    (h : (capScan score cap).stops acc l₁ = false) :
    cappedParts score cap acc (l₁ ++ l₂) =
      cappedParts score cap acc l₁ ++ cappedParts score cap (acc + (l₁.map score).sum) l₂ := by
  induction l₁ generalizing acc with
  | nil => simp [cappedParts]
  | cons a l ih =>
      simp only [Scan.stops_cons, capScan_stop, capScan_step, Bool.or_eq_false_iff,
        decide_eq_false_iff_not] at h
      simp only [List.cons_append, cappedParts, h.1, if_false, ih h.2, List.map_cons,
        List.sum_cons, add_assoc]

/-- The contributions fill the cap exactly when the accumulation stops. -/
theorem add_sum_cappedParts (acc : 𝕜) (l : List α) :
    acc + ((cappedParts score cap acc l).map Prod.snd).sum =
      if (capScan score cap).stops acc l then cap else acc + (l.map score).sum := by
  induction l generalizing acc with
  | nil => simp [cappedParts]
  | cons a l ih =>
      by_cases h : cap ≤ acc + score a
      · simp [cappedParts, Scan.stops_cons, h]
      · simp only [cappedParts, Scan.stops_cons, capScan_stop, capScan_step, h, if_false,
          decide_false, Bool.false_or, List.map_cons, List.sum_cons, ← add_assoc, ih]

variable [IsOrderedAddMonoid 𝕜]

/-- With nonnegative scores, only the sum of a nonempty list decides whether it reaches the cap. -/
theorem stops_capScan_iff {acc : 𝕜} {l : List α} (h : ∀ a ∈ l, 0 ≤ score a) :
    (capScan score cap).stops acc l = true ↔ l ≠ [] ∧ cap ≤ acc + (l.map score).sum := by
  induction l generalizing acc with
  | nil => simp
  | cons a l ih =>
      have hl : ∀ b ∈ l, 0 ≤ score b := fun b hb => h b (List.mem_cons_of_mem _ hb)
      have hsum : 0 ≤ (l.map score).sum := List.sum_nonneg (by simpa using hl)
      simp only [Scan.stops_cons, capScan_stop, capScan_step, Bool.or_eq_true,
        decide_eq_true_eq, ih hl, ne_eq, List.cons_ne_nil, not_false_eq_true, true_and,
        List.map_cons, List.sum_cons, ← add_assoc]
      constructor
      · rintro (hcap | ⟨_, hcap⟩)
        · exact hcap.trans (le_add_of_nonneg_right hsum)
        · exact hcap
      · intro hcap
        rcases eq_or_ne l [] with rfl | hne
        · exact Or.inl (by simpa using hcap)
        · exact Or.inr ⟨hne, hcap⟩

/-- The accumulated contributions are the total of the scores, cut off at the cap. -/
theorem sum_cappedParts_eq_min {acc : 𝕜} {l : List α} (h : ∀ a ∈ l, 0 ≤ score a)
    (hacc : acc ≤ cap) :
    acc + ((cappedParts score cap acc l).map Prod.snd).sum = min (acc + (l.map score).sum) cap := by
  rw [add_sum_cappedParts]
  cases hs : (capScan score cap).stops acc l with
  | true => exact (min_eq_right ((stops_capScan_iff h).mp hs).2).symm
  | false =>
      rw [if_neg Bool.false_ne_true]
      refine (min_eq_left ?_).symm
      rcases eq_or_ne l [] with rfl | hne
      · simpa using hacc
      · by_contra hcap
        exact Bool.false_ne_true (hs ▸ (stops_capScan_iff h).mpr ⟨hne, (not_le.mp hcap).le⟩)

/-- Below the cap every contribution is nonnegative. -/
theorem cappedParts_nonneg {acc : 𝕜} {l : List α} (h : ∀ a ∈ l, 0 ≤ score a) (hacc : acc ≤ cap) :
    ∀ p ∈ cappedParts score cap acc l, 0 ≤ p.2 := by
  induction l generalizing acc with
  | nil => simp [cappedParts]
  | cons a l ih =>
      intro p hp
      by_cases hc : cap ≤ acc + score a
      · simp only [cappedParts, hc, if_true, List.mem_singleton] at hp
        subst hp
        exact sub_nonneg.mpr hacc
      · simp only [cappedParts, hc, if_false, List.mem_cons] at hp
        rcases hp with rfl | hp
        · exact h a List.mem_cons_self
        · exact ih (fun b hb => h b (List.mem_cons_of_mem _ hb)) (not_le.mp hc).le p hp

/-- Strictly below the cap, something is contributed exactly when some score is positive. -/
theorem exists_cappedParts_pos_iff {acc : 𝕜} {l : List α} (h : ∀ a ∈ l, 0 ≤ score a)
    (hacc : acc < cap) :
    (∃ p ∈ cappedParts score cap acc l, 0 < p.2) ↔ ∃ a ∈ l, 0 < score a := by
  induction l generalizing acc with
  | nil => simp [cappedParts]
  | cons a l ih =>
      by_cases hc : cap ≤ acc + score a
      · simp only [cappedParts, hc, if_true, List.mem_singleton, exists_eq_left, sub_pos, hacc,
          true_iff]
        exact ⟨a, List.mem_cons_self, pos_of_lt_add_right (hacc.trans_le hc)⟩
      · have hl := ih (fun b hb => h b (List.mem_cons_of_mem _ hb)) (not_le.mp hc)
        simp only [cappedParts, hc, if_false, List.mem_cons, exists_eq_or_imp, hl]

end Foundation
