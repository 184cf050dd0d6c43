import Mathlib.Data.List.Sort
import Mathlib.Order.Basic

/-!
# Stable descending sort

Lists are put in descending key order, equal keys staying in their given order.
Selecting rows commutes with the sort.
-/

namespace Foundation

variable {α κ : Type*} [LinearOrder κ] (key : α → κ)

/-- Rows in descending key order, rows with equal keys in any order. -/
def Descending (rows : List α) : Prop := rows.Pairwise fun a b => key b ≤ key a

/-- The stable sort in descending key order. -/
def sortDescending (rows : List α) : List α := rows.insertionSort fun a b => key b ≤ key a

variable {key}

local instance totalKey : Std.Total fun a b : α => key b ≤ key a :=
  ⟨fun a b => le_total (key b) (key a)⟩

local instance transKey : IsTrans α fun a b : α => key b ≤ key a :=
  ⟨fun _ _ _ hab hbc => hbc.trans hab⟩

theorem descending_sortDescending (rows : List α) : Descending key (sortDescending key rows) :=
  List.pairwise_insertionSort _ rows

theorem perm_sortDescending (rows : List α) : (sortDescending key rows).Perm rows :=
  List.perm_insertionSort _ rows

@[simp] theorem mem_sortDescending {rows : List α} {a : α} :
    a ∈ sortDescending key rows ↔ a ∈ rows := List.mem_insertionSort _

theorem Descending.filter {rows : List α} (h : Descending key rows) (p : α → Bool) :
    Descending key (rows.filter p) := List.Pairwise.filter p h

theorem Descending.drop {rows : List α} (h : Descending key rows) (n : Nat) :
    Descending key (rows.drop n) := List.Pairwise.sublist (List.drop_sublist n rows) h

theorem Descending.append_le {l₁ l₂ : List α} (h : Descending key (l₁ ++ l₂)) {a b : α}
    (ha : a ∈ l₁) (hb : b ∈ l₂) : key b ≤ key a :=
  (List.pairwise_append.mp h).2.2 a ha b hb

theorem orderedInsert_of_forall {r : α → α → Prop} [DecidableRel r] {a : α} {l : List α}
    (h : ∀ b ∈ l, r a b) : l.orderedInsert r a = a :: l := by
  cases l with
  | nil => rfl
  | cons b l => exact List.orderedInsert_cons_of_le r l (h b List.mem_cons_self)

theorem filter_orderedInsert {r : α → α → Prop} [DecidableRel r] [IsTrans α r] (p : α → Bool)
    (a : α) {l : List α} (h : l.Pairwise r) :
    (l.orderedInsert r a).filter p =
      if p a then (l.filter p).orderedInsert r a else l.filter p := by
  induction l with
  | nil => cases hp : p a <;> simp [hp]
  | cons b l ih =>
      obtain ⟨hb, hl⟩ := List.pairwise_cons.mp h
      by_cases hab : r a b
      · have hall : ∀ c ∈ (b :: l).filter p, r a c := by
          intro c hc
          rcases List.mem_cons.mp (List.mem_of_mem_filter hc) with rfl | hc
          · exact hab
          · exact trans_of r hab (hb c hc)
        rw [List.orderedInsert_cons_of_le r l hab, orderedInsert_of_forall hall]
        cases hp : p a <;> simp [List.filter_cons, hp]
      · rw [List.orderedInsert_of_not_le r l hab, List.filter_cons, ih hl]
        cases hp : p a <;> cases hq : p b <;> simp [hq, hab]

/-- Selecting before or after the sort gives the same rows in the same order. -/
theorem sortDescending_filter (p : α → Bool) (rows : List α) :
    sortDescending key (rows.filter p) = (sortDescending key rows).filter p := by
  induction rows with
  | nil => rfl
  | cons a rows ih =>
      have hcons : sortDescending key (a :: rows) =
          (sortDescending key rows).orderedInsert (fun a b => key b ≤ key a) a := rfl
      rw [hcons, filter_orderedInsert p a (descending_sortDescending rows)]
      cases hp : p a with
      | true =>
          have hcons' : sortDescending key (a :: rows.filter p) =
              (sortDescending key (rows.filter p)).orderedInsert (fun a b => key b ≤ key a) a :=
            rfl
          rw [List.filter_cons_of_pos hp, hcons', ih, if_pos rfl]
      | false => rw [List.filter_cons_of_neg (by simp [hp]), ih, if_neg Bool.false_ne_true]

/-- A bound cuts descending rows into the rows from it upwards and the rows below it. -/
theorem Descending.filter_append_filter {rows : List α} (h : Descending key rows) (bound : κ) :
    (rows.filter fun a => bound ≤ key a) ++ (rows.filter fun a => key a < bound) = rows := by
  induction rows with
  | nil => rfl
  | cons a rows ih =>
      obtain ⟨ha, hrows⟩ := List.pairwise_cons.mp h
      rcases le_or_gt bound (key a) with hle | hlt
      · simp only [hle, decide_true, List.filter_cons_of_pos, hle.not_gt, decide_false,
          Bool.false_eq_true, not_false_eq_true, List.filter_cons_of_neg, List.cons_append,
          ih hrows]
      · have hbelow : ∀ b ∈ a :: rows, key b < bound := by
          intro b hb
          rcases List.mem_cons.mp hb with rfl | hb
          · exact hlt
          · exact (ha b hb).trans_lt hlt
        have habove : (a :: rows).filter (fun b => bound ≤ key b) = [] :=
          List.filter_eq_nil_iff.mpr fun b hb => by simpa using hbelow b hb
        have hall : (a :: rows).filter (fun b => key b < bound) = a :: rows :=
          List.filter_eq_self.mpr fun b hb => by simpa using hbelow b hb
        rw [habove, hall, List.nil_append]

/-- Raising the bound moves a stretch of the rows from above the bound to below it. -/
theorem Descending.exists_between {rows : List α} (h : Descending key rows) {bound bound' : κ}
    (hle : bound ≤ bound') :
    ∃ mid, (rows.filter fun a => bound ≤ key a) = (rows.filter fun a => bound' ≤ key a) ++ mid ∧
      (rows.filter fun a => key a < bound') = mid ++ rows.filter fun a => key a < bound := by
  refine ⟨(rows.filter fun a => bound ≤ key a).filter fun a => key a < bound', ?_, ?_⟩
  · have habove : (rows.filter fun a => bound' ≤ key a) =
        (rows.filter fun a => bound ≤ key a).filter fun a => bound' ≤ key a := by
      rw [List.filter_filter]
      apply List.filter_congr
      intro a _
      simpa using hle.trans
    rw [habove, (h.filter _).filter_append_filter bound']
  · have hbelow : (rows.filter fun a => key a < bound) =
        (rows.filter fun a => key a < bound').filter fun a => key a < bound := by
      rw [List.filter_filter]
      apply List.filter_congr
      intro a _
      simpa using fun hlt => hlt.trans_le hle
    rw [hbelow, List.filter_comm, (h.filter _).filter_append_filter bound]

end Foundation
