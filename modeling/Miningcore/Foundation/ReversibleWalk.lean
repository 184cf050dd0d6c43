import Mathlib.Data.Finset.Card
import Mathlib.Data.Finset.Union
import Mathlib.Data.Finset.Range
import Mathlib.Algebra.Group.Fin.Basic
import Mathlib.Algebra.Group.Units.Equiv

/-!
# Reversible walks

Every position has an opposite one. A step can be taken back: from the opposite of
where it leads it goes to the opposite of where it came from. A walk that has not
returned to its start then meets no position twice, and no position and its opposite.
-/

namespace Foundation

variable {σ : Type*} {step : σ → σ → Prop} {opposite : σ → σ} {w : ℕ → σ} {n : ℕ}

/-- Steps that can be taken back, and never turn round on the spot. -/
structure Reversible (step : σ → σ → Prop) (opposite : σ → σ) : Prop where
  opposite_opposite : ∀ x, opposite (opposite x) = x
  opposite_ne : ∀ x, opposite x ≠ x
  functional : ∀ {x y z}, step x y → step x z → y = z
  back : ∀ {x y}, step x y → step (opposite y) (opposite x)
  not_turn : ∀ x, ¬ step x (opposite x)

/-- The first `n` steps of `w`. -/
def IsWalk (step : σ → σ → Prop) (w : ℕ → σ) (n : ℕ) : Prop :=
  ∀ t < n, step (w t) (w (t + 1))

theorem IsWalk.mono {m : ℕ} (hwalk : IsWalk step w n) (hle : m ≤ n) : IsWalk step w m :=
  fun t ht => hwalk t (ht.trans_le hle)

/-- A step in front of a walk. -/
theorem IsWalk.cons {x : σ} (hstep : step x (w 0)) (hwalk : IsWalk step w n) :
    IsWalk step (fun t => t.casesOn x w) (n + 1) := by
  intro t ht
  cases t with
  | zero => exact hstep
  | succ t => exact hwalk t (Nat.lt_of_succ_lt_succ ht)

theorem IsWalk.tail (hwalk : IsWalk step w (n + 1)) : IsWalk step (fun t => w (t + 1)) n :=
  fun t ht => hwalk (t + 1) (Nat.succ_lt_succ ht)

namespace Reversible

variable (hreversible : Reversible step opposite)

include hreversible

theorem opposite_inj {x y : σ} (h : opposite x = opposite y) : x = y := by
  have happly := congrArg opposite h
  rwa [hreversible.opposite_opposite, hreversible.opposite_opposite] at happly

theorem eq_of_step {x y z : σ} (hx : step x z) (hy : step y z) : x = y :=
  hreversible.opposite_inj (hreversible.functional (hreversible.back hx) (hreversible.back hy))

/-- Meeting a position again is having met the start again. -/
theorem start_of_eq (hwalk : IsWalk step w n) {s d : ℕ} (hle : s + d ≤ n)
    (heq : w s = w (s + d)) : w 0 = w d := by
  induction s with
  | zero => rwa [Nat.zero_add] at heq
  | succ s ih =>
      apply ih (by omega)
      apply hreversible.eq_of_step (hwalk s (by omega))
      rw [heq, Nat.add_right_comm]
      exact hwalk (s + d) (by omega)

/-- A walk never meets the opposite of one of its positions. -/
theorem ne_opposite (hwalk : IsWalk step w n) {s d : ℕ} (hle : s + d ≤ n) :
    w s ≠ opposite (w (s + d)) := by
  -- The two positions approach each other by one step from either side.
  induction d using Nat.twoStepInduction generalizing s with
  | zero => exact (hreversible.opposite_ne (w s)).symm
  | one =>
      intro heq
      have hturn : w (s + 1) = opposite (w s) := by
        rw [heq, hreversible.opposite_opposite]
      exact hreversible.not_turn (w s) (hturn ▸ hwalk s (by omega))
  | more d ih _ =>
      intro heq
      apply ih (s := s + 1) (by omega)
      apply hreversible.functional (hwalk s (by omega))
      have hlast : s + (d + 2) = s + 1 + d + 1 := by omega
      rw [heq, hlast]
      exact hreversible.back (hwalk (s + 1 + d) (by omega))

theorem ne_opposite_of_le (hwalk : IsWalk step w n) {s t : ℕ} (hs : s ≤ n) (ht : t ≤ n) :
    w s ≠ opposite (w t) := by
  intro heq
  rcases le_total s t with hle | hle
  · obtain ⟨d, rfl⟩ := Nat.exists_eq_add_of_le hle
    exact hreversible.ne_opposite hwalk ht heq
  · obtain ⟨d, rfl⟩ := Nat.exists_eq_add_of_le hle
    apply hreversible.ne_opposite hwalk hs
    rw [heq, hreversible.opposite_opposite]

section First

variable (hwalk : IsWalk step w n) (hfirst : ∀ t, 0 < t → t ≤ n → w t ≠ w 0)

include hwalk hfirst

/-- A walk that has not returned to its start meets no position twice. -/
theorem injOn : Set.InjOn w {t | t ≤ n} := by
  have hlt : ∀ s t, s < t → t ≤ n → w s ≠ w t := by
    intro s t hst ht heq
    obtain ⟨d, rfl⟩ := Nat.exists_eq_add_of_lt hst
    exact hfirst (d + 1) (Nat.succ_pos d) (by omega)
      (hreversible.start_of_eq hwalk (d := d + 1) (by omega) heq).symm
  intro s hs t ht heq
  rcases lt_trichotomy s t with h | h | h
  · exact absurd heq (hlt s t h ht)
  · exact h
  · exact absurd heq.symm (hlt t s h hs)

/-- Its positions and their opposites are different. -/
theorem two_mul_le_card [DecidableEq σ] (positions : Finset σ)
    (hmem : ∀ t ≤ n, w t ∈ positions ∧ opposite (w t) ∈ positions) :
    2 * (n + 1) ≤ positions.card := by
  have hinj := hreversible.injOn hwalk hfirst
  have hcard : ((Finset.range (n + 1)).image w).card = n + 1 := by
    rw [Finset.card_image_of_injOn, Finset.card_range]
    intro s hs t ht heq
    rw [Finset.mem_coe, Finset.mem_range] at hs ht
    exact hinj (Nat.le_of_lt_succ hs) (Nat.le_of_lt_succ ht) heq
  have hcard' : ((Finset.range (n + 1)).image fun t => opposite (w t)).card = n + 1 := by
    rw [Finset.card_image_of_injOn, Finset.card_range]
    intro s hs t ht heq
    rw [Finset.mem_coe, Finset.mem_range] at hs ht
    exact hinj (Nat.le_of_lt_succ hs) (Nat.le_of_lt_succ ht) (hreversible.opposite_inj heq)
  have hdisjoint : Disjoint ((Finset.range (n + 1)).image w)
      ((Finset.range (n + 1)).image fun t => opposite (w t)) := by
    rw [Finset.disjoint_left]
    intro x hx hx'
    obtain ⟨s, hs, rfl⟩ := Finset.mem_image.mp hx
    obtain ⟨t, ht, heq⟩ := Finset.mem_image.mp hx'
    rw [Finset.mem_range] at hs ht
    exact hreversible.ne_opposite_of_le hwalk (Nat.le_of_lt_succ hs) (Nat.le_of_lt_succ ht)
      heq.symm
  have hsubset : (Finset.range (n + 1)).image w ∪
      ((Finset.range (n + 1)).image fun t => opposite (w t)) ⊆ positions := by
    apply Finset.union_subset
    · intro x hx
      obtain ⟨t, ht, rfl⟩ := Finset.mem_image.mp hx
      exact (hmem t (Nat.le_of_lt_succ (Finset.mem_range.mp ht))).1
    · intro x hx
      obtain ⟨t, ht, rfl⟩ := Finset.mem_image.mp hx
      exact (hmem t (Nat.le_of_lt_succ (Finset.mem_range.mp ht))).2
  have hle := Finset.card_le_card hsubset
  rw [Finset.card_union_of_disjoint hdisjoint, hcard, hcard'] at hle
  omega

end First

end Reversible

/-!
### Cycles

Edges have a left and a right node. A cycle passes through each of them once, and
meets no node twice.
-/

variable {ι α β : Type*} {left : ι → α} {right : ι → β} {m : ℕ}

/-- The edges `a t` and `b t` meet on the left, `b t` and the next `a` on the right. -/
structure IsCycle (left : ι → α) (right : ι → β) (a b : Fin (m + 1) → ι) : Prop where
  once : Function.Bijective (Sum.elim a b)
  left_eq : ∀ t, left (a t) = left (b t)
  right_eq : ∀ t, right (b t) = right (a (t + 1))
  left_ne : Function.Injective (left ∘ a)
  right_ne : Function.Injective (right ∘ b)

namespace IsCycle

variable {a b : Fin (m + 1) → ι}

/-- The cycle from another edge on. -/
theorem rotate (hcycle : IsCycle left right a b) (s : Fin (m + 1)) :
    IsCycle left right (fun t => a (t + s)) (fun t => b (t + s)) where
  once := by
    have hequiv : Sum.elim (fun t => a (t + s)) (fun t => b (t + s)) =
        Sum.elim a b ∘ Sum.map (Equiv.addRight s) (Equiv.addRight s) := by
      funext t
      cases t <;> rfl
    rw [hequiv]
    apply hcycle.once.comp
    exact (Equiv.sumCongr (Equiv.addRight s) (Equiv.addRight s)).bijective
  left_eq t := hcycle.left_eq (t + s)
  right_eq t := by rw [add_right_comm t 1 s]; exact hcycle.right_eq (t + s)
  left_ne := hcycle.left_ne.comp (add_left_injective s)
  right_ne := hcycle.right_ne.comp (add_left_injective s)

/-- The cycle in the other direction. -/
theorem reverse (hcycle : IsCycle left right a b) :
    IsCycle left right (fun t => b (-t)) (fun t => a (-t)) where
  once := by
    have hequiv : Sum.elim (fun t => b (-t)) (fun t => a (-t)) =
        Sum.elim a b ∘ Sum.map (Equiv.neg _) (Equiv.neg _) ∘ Sum.swap := by
      funext t
      cases t <;> rfl
    rw [hequiv]
    apply hcycle.once.comp
    exact (Equiv.sumCongr (Equiv.neg _) (Equiv.neg _)).bijective.comp (Equiv.sumComm _ _).bijective
  left_eq t := (hcycle.left_eq (-t)).symm
  right_eq t := by
    have hnext : -(t + 1) + 1 = -t := by rw [neg_add, neg_add_cancel_right]
    have heq := hcycle.right_eq (-(t + 1))
    rw [hnext] at heq
    exact heq.symm
  left_ne := by
    intro s t heq
    apply neg_injective
    apply hcycle.left_ne
    change left (a (-s)) = left (a (-t))
    rw [hcycle.left_eq, hcycle.left_eq]
    exact heq
  right_ne := by
    intro s t heq
    have hprev : ∀ r : Fin (m + 1), right (a (-r)) = right (b (-r - 1)) := by
      intro r
      rw [hcycle.right_eq, sub_add_cancel]
    apply neg_injective
    apply sub_left_injective (b := (1 : Fin (m + 1)))
    apply hcycle.right_ne
    change right (b (-s - 1)) = right (b (-t - 1))
    rw [← hprev, ← hprev]
    exact heq

/-- Any edge may be the first one. -/
theorem exists_first (hcycle : IsCycle left right a b) (e : ι) :
    ∃ a' b' : Fin (m + 1) → ι, IsCycle left right a' b' ∧ a' 0 = e := by
  obtain ⟨t | t, ht⟩ := hcycle.once.surjective e
  · exact ⟨_, _, hcycle.rotate t, by rw [zero_add]; exact ht⟩
  · refine ⟨_, _, hcycle.reverse.rotate (-t), ?_⟩
    rw [zero_add, neg_neg]
    exact ht

/-- An edge on the left node of `a t` is `a t` or `b t`. -/
theorem eq_or_eq_of_left (hcycle : IsCycle left right a b) {e : ι} {t : Fin (m + 1)}
    (heq : left e = left (a t)) : e = a t ∨ e = b t := by
  obtain ⟨s | s, rfl⟩ := hcycle.once.surjective e
  · exact .inl (congrArg a (hcycle.left_ne heq))
  · have hsame : s = t := hcycle.left_ne ((hcycle.left_eq s).trans heq)
    exact .inr (congrArg b hsame)

/-- An edge on the right node of `b t` is `b t` or the next `a`. -/
theorem eq_or_eq_of_right (hcycle : IsCycle left right a b) {e : ι} {t : Fin (m + 1)}
    (heq : right e = right (b t)) : e = b t ∨ e = a (t + 1) := by
  obtain ⟨s | s, rfl⟩ := hcycle.once.surjective e
  · have hsame : s - 1 = t := by
      apply hcycle.right_ne
      change right (b (s - 1)) = right (b t)
      rw [hcycle.right_eq, sub_add_cancel]
      exact heq
    rw [← hsame, sub_add_cancel]
    exact .inr rfl
  · exact .inl (congrArg b (hcycle.right_ne heq))

theorem a_ne_b (hcycle : IsCycle left right a b) (s t : Fin (m + 1)) : a s ≠ b t := by
  intro heq
  have hsame : (.inl s : Fin (m + 1) ⊕ Fin (m + 1)) = .inr t := hcycle.once.injective heq
  cases hsame

theorem a_injective (hcycle : IsCycle left right a b) : Function.Injective a :=
  fun _ _ heq => hcycle.left_ne (congrArg left heq)

end IsCycle

end Foundation
