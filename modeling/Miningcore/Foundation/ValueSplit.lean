import Mathlib.Algebra.Order.BigOperators.Group.List
import Mathlib.Algebra.Order.Group.Defs
import Mathlib.Algebra.BigOperators.Group.List.Lemmas
import Mathlib.Algebra.Order.Field.Basic
import Mathlib.Tactic.Abel
import Mathlib.Tactic.Ring
import Mathlib.Data.List.Nodup
import Mathlib.Data.List.Perm.Subperm

/-!
# Splitting a value

A value is split among payments, some taken from it and some on top of it, and
the rest goes to one last recipient.
-/

namespace Foundation

section payments

structure Payment (V R : Type*) where
  amount : V
  recipient : R
  /-- Whether the amount is taken from the value that is split. -/
  deducted : Bool
deriving DecidableEq

variable {V R : Type*} [AddCommGroup V]

/-- What the payments take from the value. -/
def deductedTotal (payments : List (Payment V R)) : V :=
  ((payments.filter Payment.deducted).map Payment.amount).sum

/-- What is paid on top of the value. -/
def additionalTotal (payments : List (Payment V R)) : V :=
  ((payments.filter fun payment => !payment.deducted).map Payment.amount).sum

/-- Every payment with its recipient, and the rest for `last`. -/
def splitValue (value : V) (payments : List (Payment V R)) (last : R) : List (V × R) :=
  payments.map (fun payment => (payment.amount, payment.recipient)) ++
    [(value - deductedTotal payments, last)]

@[simp] theorem deductedTotal_nil : deductedTotal ([] : List (Payment V R)) = 0 := rfl

@[simp] theorem deductedTotal_cons (payment : Payment V R) (payments : List (Payment V R)) :
    deductedTotal (payment :: payments) =
      (if payment.deducted then payment.amount else 0) + deductedTotal payments := by
  by_cases h : payment.deducted <;> simp [deductedTotal, h]

@[simp] theorem additionalTotal_nil : additionalTotal ([] : List (Payment V R)) = 0 := rfl

@[simp] theorem additionalTotal_cons (payment : Payment V R) (payments : List (Payment V R)) :
    additionalTotal (payment :: payments) =
      (if payment.deducted then 0 else payment.amount) + additionalTotal payments := by
  by_cases h : payment.deducted <;> simp [additionalTotal, h]

/-- Every payment is deducted or on top. -/
theorem sum_amounts (payments : List (Payment V R)) :
    (payments.map Payment.amount).sum = deductedTotal payments + additionalTotal payments := by
  induction payments with
  | nil => simp
  | cons payment payments ih =>
      rw [List.map_cons, List.sum_cons, ih, deductedTotal_cons, additionalTotal_cons]
      split <;> abel

theorem sum_splitValue (value : V) (payments : List (Payment V R)) (last : R) :
    ((splitValue value payments last).map Prod.fst).sum = value + additionalTotal payments := by
  have hpayments : ((payments.map fun payment => (payment.amount, payment.recipient)).map
      Prod.fst) = payments.map Payment.amount := by
    rw [List.map_map]
    rfl
  rw [splitValue, List.map_append, hpayments, List.sum_append, sum_amounts]
  simp only [List.map_cons, List.map_nil, List.sum_cons, List.sum_nil]
  abel

section order

variable [PartialOrder V] [IsOrderedAddMonoid V]

theorem deductedTotal_nonneg {payments : List (Payment V R)}
    (h : ∀ payment ∈ payments, 0 ≤ payment.amount) : 0 ≤ deductedTotal payments := by
  apply List.sum_nonneg
  intro amount hamount
  obtain ⟨payment, hpayment, rfl⟩ := List.mem_map.mp hamount
  exact h payment (List.mem_of_mem_filter hpayment)

/-- Nothing is owed when the deductions are covered. -/
theorem nonneg_of_mem_splitValue {value : V} {payments : List (Payment V R)} {last : R}
    (hcovered : deductedTotal payments ≤ value)
    (h : ∀ payment ∈ payments, 0 ≤ payment.amount) {output : V × R}
    (houtput : output ∈ splitValue value payments last) : 0 ≤ output.1 := by
  rw [splitValue, List.mem_append, List.mem_singleton] at houtput
  obtain hpaid | rfl := houtput
  · obtain ⟨payment, hpayment, rfl⟩ := List.mem_map.mp hpaid
    exact h payment hpayment
  · exact sub_nonneg.mpr hcovered

end order

end payments

/-!
## Credits of distinct items

Every account is credited some items. When no item is credited twice, the
accounts together get at most what all items are worth.
-/

section credits

variable {α ι 𝕜 : Type*} [AddCommMonoid 𝕜] {worth : ι → 𝕜}

theorem sum_credits_eq (accounts : List α) (credits : α → List ι) :
    (accounts.map fun account => ((credits account).map worth).sum).sum =
      ((accounts.flatMap credits).map worth).sum := by
  induction accounts with
  | nil => rfl
  | cons account accounts ih =>
      rw [List.map_cons, List.sum_cons, ih, List.flatMap_cons, List.map_append, List.sum_append]

variable [PartialOrder 𝕜] [IsOrderedAddMonoid 𝕜]

theorem sum_map_le_of_subset {items all : List ι} (hitems : items.Nodup) (hsub : items ⊆ all)
    (hworth : ∀ item, 0 ≤ worth item) : (items.map worth).sum ≤ (all.map worth).sum := by
  obtain ⟨chosen, hperm, hchosen⟩ := hitems.subperm hsub
  calc (items.map worth).sum = (chosen.map worth).sum := ((hperm.map worth).sum_eq).symm
    _ ≤ (all.map worth).sum := by
        apply (hchosen.map worth).sum_le_sum
        intro value hvalue
        obtain ⟨item, _, rfl⟩ := List.mem_map.mp hvalue
        exact hworth item

/-- No item is credited twice. -/
theorem sum_credits_le {accounts : List α} {credits : α → List ι} {all : List ι}
    (hnodup : ∀ account ∈ accounts, (credits account).Nodup)
    (hdisjoint : accounts.Pairwise fun a b => List.Disjoint (credits a) (credits b))
    (hsub : ∀ account ∈ accounts, credits account ⊆ all) (hworth : ∀ item, 0 ≤ worth item) :
    (accounts.map fun account => ((credits account).map worth).sum).sum ≤
      (all.map worth).sum := by
  rw [sum_credits_eq]
  apply sum_map_le_of_subset (List.nodup_flatMap.mpr ⟨hnodup, hdisjoint⟩) _ hworth
  intro item hitem
  obtain ⟨account, haccount, hitem⟩ := List.mem_flatMap.mp hitem
  exact hsub account haccount hitem

end credits

/-!
## Sharing a fee

The amounts of a page bear equal shares of a fee. An amount that is not larger
than its share is left as it is, and its share is not paid.
-/

section fees

variable {𝕜 : Type*} [Field 𝕜] [LinearOrder 𝕜]

/-- The amount less its share of the fee, if it is larger. -/
def deductShare (share amount : 𝕜) : 𝕜 := if share < amount then amount - share else amount

/-- The amounts that are larger than the share pay it. -/
theorem sum_deductShare (share : 𝕜) (amounts : List 𝕜) :
    (amounts.map (deductShare share)).sum + share * amounts.countP (share < ·) = amounts.sum := by
  induction amounts with
  | nil => simp
  | cons amount amounts ih =>
      rw [List.map_cons, List.sum_cons, List.sum_cons, ← ih, List.countP_cons, deductShare]
      by_cases h : share < amount
      · simp only [h, if_true, decide_true]
        push_cast
        ring
      · simp only [h, if_false, decide_false, Bool.false_eq_true, add_zero]
        ring

/-- Where every larger amount is paid, the fee is borne except for the shares of the others. -/
theorem sum_deductShare_add_fee [CharZero 𝕜] (fee : 𝕜) {page : List 𝕜} (hpage : page ≠ [])
    {keep : 𝕜 → Bool} (hkeep : ∀ amount ∈ page, fee / page.length < amount → keep amount = true) :
    ((page.filter keep).map (deductShare (fee / page.length))).sum + fee =
      (page.filter keep).sum + fee / page.length * page.countP (· ≤ fee / page.length) := by
  have hlength : (page.length : 𝕜) ≠ 0 := by
    rw [Nat.cast_ne_zero]
    exact fun h => hpage (List.length_eq_zero_iff.mp h)
  have hfilter : (page.filter keep).countP (fee / page.length < ·) =
      page.countP (fee / page.length < ·) := by
    rw [List.countP_filter]
    apply List.countP_congr
    intro amount hamount
    rw [Bool.and_eq_true, decide_eq_true_eq, and_iff_left_iff_imp]
    exact hkeep amount hamount
  have hcount : page.countP (fee / page.length < ·) + page.countP (· ≤ fee / page.length) =
      page.length := by
    generalize fee / (page.length : 𝕜) = share
    rw [List.length_eq_countP_add_countP (fun amount => decide (share < amount))]
    simp only [decide_eq_true_eq, not_lt]
  calc ((page.filter keep).map (deductShare (fee / page.length))).sum + fee
      = ((page.filter keep).map (deductShare (fee / page.length))).sum +
          fee / page.length * page.length := by rw [div_mul_cancel₀ fee hlength]
    _ = ((page.filter keep).map (deductShare (fee / page.length))).sum +
          fee / page.length * (page.filter keep).countP (fee / page.length < ·) +
          fee / page.length * page.countP (· ≤ fee / page.length) := by
        rw [hfilter, add_assoc, ← mul_add, ← Nat.cast_add, hcount]
    _ = (page.filter keep).sum + fee / page.length * page.countP (· ≤ fee / page.length) := by
        rw [sum_deductShare]

variable [IsStrictOrderedRing 𝕜] {share : 𝕜}

theorem deductShare_le (hshare : 0 ≤ share) (amount : 𝕜) : deductShare share amount ≤ amount := by
  rw [deductShare]
  split
  · exact sub_le_self amount hshare
  · exact le_rfl

theorem deductShare_mul {unit : 𝕜} (hunit : 0 < unit) (share amount : 𝕜) :
    deductShare share amount * unit = deductShare (share * unit) (amount * unit) := by
  simp only [deductShare, mul_lt_mul_iff_left₀ hunit, ite_mul, sub_mul]

end fees

end Foundation
