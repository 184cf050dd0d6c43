import Mathlib.Data.List.Basic
import Mathlib.Data.List.Forall2

/-!
# Scans with an early exit

A scan walks down a list, carries a state, and stops at the first element for
which its test succeeds. The stopping element is still consumed.
-/

namespace Foundation

/-- The stopping test and the state update of a scan. -/
structure Scan (σ α : Type*) where
  stop : σ → α → Bool
  step : σ → α → σ

namespace Scan

variable {σ α : Type*} (m : Scan σ α)

/-- The scan that never stops before the end of the list. -/
def never : Scan Unit α := ⟨fun _ _ => false, fun _ _ => ()⟩

/-- The consumed elements, up to and including the stopping one. -/
def consume : σ → List α → List α
  | _, [] => []
  | s, a :: l => if m.stop s a then [a] else a :: consume (m.step s a) l

/-- Whether the scan stops inside the list. -/
def stops : σ → List α → Bool
  | _, [] => false
  | s, a :: l => m.stop s a || stops (m.step s a) l

/-- The state after a list in which the scan does not stop. -/
def after (s : σ) (l : List α) : σ := l.foldl m.step s

@[simp] theorem consume_nil (s : σ) : m.consume s [] = [] := rfl

@[simp] theorem stops_nil (s : σ) : m.stops s [] = false := rfl

@[simp] theorem after_nil (s : σ) : m.after s [] = s := rfl

theorem consume_cons (s : σ) (a : α) (l : List α) :
    m.consume s (a :: l) = if m.stop s a then [a] else a :: m.consume (m.step s a) l := rfl

theorem stops_cons (s : σ) (a : α) (l : List α) :
    m.stops s (a :: l) = (m.stop s a || m.stops (m.step s a) l) := rfl

theorem after_cons (s : σ) (a : α) (l : List α) :
    m.after s (a :: l) = m.after (m.step s a) l := rfl

theorem stops_append (s : σ) (l₁ l₂ : List α) :
    m.stops s (l₁ ++ l₂) = (m.stops s l₁ || m.stops (m.after s l₁) l₂) := by
  induction l₁ generalizing s with
  | nil => simp
  | cons a l ih => simp [stops, after_cons, ih, Bool.or_assoc]

theorem consume_append (s : σ) (l₁ l₂ : List α) :
    m.consume s (l₁ ++ l₂) =
      if m.stops s l₁ then m.consume s l₁ else l₁ ++ m.consume (m.after s l₁) l₂ := by
  induction l₁ generalizing s with
  | nil => simp
  | cons a l ih =>
      by_cases ha : m.stop s a = true
      · simp [consume, stops, ha]
      · simp only [List.cons_append, consume, ha, stops, after_cons, ih, Bool.false_or,
          Bool.false_eq_true, if_false]
        split <;> rfl

theorem consume_eq_self {s : σ} {l : List α} (h : m.stops s l = false) : m.consume s l = l := by
  have happ := m.consume_append s l []
  simpa [h] using happ

theorem consume_prefix (s : σ) (l : List α) : m.consume s l <+: l := by
  induction l generalizing s with
  | nil => simp
  | cons a l ih =>
      by_cases ha : m.stop s a = true
      · simp [consume, ha]
      · simpa [consume, ha, List.cons_prefix_cons] using ih (m.step s a)

theorem consume_subset {s : σ} {l : List α} {a : α} (h : a ∈ m.consume s l) : a ∈ l :=
  (m.consume_prefix s l).subset h

/-- A nonempty list always has its first element consumed. -/
theorem head?_consume (s : σ) (l : List α) : (m.consume s l).head? = l.head? := by
  cases l with
  | nil => rfl
  | cons a l => by_cases ha : m.stop s a = true <;> simp [consume, ha]

theorem consume_ne_nil_of_stops {s : σ} {l : List α} (h : m.stops s l = true) :
    m.consume s l ≠ [] := by
  intro hnil
  have hhead := m.head?_consume s l
  rw [hnil] at hhead
  cases l with
  | nil => cases h
  | cons a l => cases hhead

/-- A scan that has stopped in a prefix ignores what follows. -/
theorem stops_of_prefix {s : σ} {l₁ l₂ : List α} (hp : l₁ <+: l₂) (h : m.stops s l₁ = true) :
    m.stops s l₂ = true := by
  obtain ⟨t, rfl⟩ := hp
  simp [stops_append, h]

/-- What a scan has consumed decides whether it has stopped. -/
theorem stops_consume (s : σ) (l : List α) : m.stops s (m.consume s l) = m.stops s l := by
  induction l generalizing s with
  | nil => rfl
  | cons a l ih => cases ha : m.stop s a <;> simp [consume_cons, stops_cons, ha, ih]

@[simp] theorem stops_never (l : List α) : (never : Scan Unit α).stops () l = false := by
  induction l with
  | nil => rfl
  | cons a l ih => simpa [stops, never] using ih

@[simp] theorem consume_never (l : List α) : (never : Scan Unit α).consume () l = l :=
  consume_eq_self _ (stops_never l)

end Scan

/-- The first element that a search does not pass over is the head, or the head is passed over and
it is behind. -/
theorem exists_first_cons_iff {α : Type*} {passed found : α → Prop} {a : α} {l : List α} :
    (∃ earlier b later, a :: l = earlier ++ b :: later ∧ (∀ c ∈ earlier, passed c) ∧ found b) ↔
      found a ∨ passed a ∧
        ∃ earlier b later, l = earlier ++ b :: later ∧ (∀ c ∈ earlier, passed c) ∧ found b := by
  constructor
  · rintro ⟨earlier, b, later, heq, hearlier, hfound⟩
    cases earlier with
    | nil =>
        cases heq
        exact .inl hfound
    | cons first earlier =>
        cases heq
        obtain ⟨hfirst, hearlier⟩ := List.forall_mem_cons.mp hearlier
        exact .inr ⟨hfirst, earlier, b, later, rfl, hearlier, hfound⟩
  · rintro (hfound | ⟨hpassed, earlier, b, later, rfl, hearlier, hfound⟩)
    · exact ⟨[], a, l, rfl, List.forall_mem_nil _, hfound⟩
    · exact ⟨a :: earlier, b, later, rfl, List.forall_mem_cons.mpr ⟨hpassed, hearlier⟩, hfound⟩

/-!
## Collected results

A loop that goes through a list and collects what it makes of the elements: it may leave an element
out, and the first exception ends it.
-/

section collecting

variable {α β ε : Type*}

def collect (f : α → Except ε (Option β)) : List α → Except ε (List β)
  | [] => .ok []
  | a :: rest =>
      match f a, collect f rest with
      | .error e, _ => .error e
      | .ok _, .error e => .error e
      | .ok found, .ok others => .ok (found.toList ++ others)

variable {f : α → Except ε (Option β)} {l : List α} {results : List β}

theorem exists_of_collect_cons {a : α} (h : collect f (a :: l) = .ok results) :
    ∃ found others, f a = .ok found ∧ collect f l = .ok others ∧
      found.toList ++ others = results := by
  rw [collect] at h
  split at h
  · cases h
  · cases h
  · rename_i found others hfound hothers
    exact ⟨found, others, hfound, hothers, Except.ok.inj h⟩

/-- A loop that ends has come to an end for every element. -/
theorem exists_of_collect (h : collect f l = .ok results) {a : α} (ha : a ∈ l) :
    ∃ found, f a = .ok found := by
  induction l generalizing results with
  | nil => cases ha
  | cons first l ih =>
      obtain ⟨found, others, hfound, hothers, _⟩ := exists_of_collect_cons h
      rcases List.mem_cons.mp ha with rfl | hmem
      · exact ⟨found, hfound⟩
      · exact ih hothers hmem

/-- The results are those of the elements. -/
theorem mem_collect_iff (h : collect f l = .ok results) {b : β} :
    b ∈ results ↔ ∃ a ∈ l, f a = .ok (some b) := by
  induction l generalizing results with
  | nil =>
      obtain rfl := Except.ok.inj h
      simp
  | cons first l ih =>
      obtain ⟨found, others, hfound, hothers, rfl⟩ := exists_of_collect_cons h
      rw [List.mem_append, ih hothers, List.exists_mem_cons_iff, hfound, Option.mem_toList]
      simp

/-- All results have a property when their elements have another one that comes to the same; an
element that is left out has it anyway. -/
theorem forall_mem_collect_iff (h : collect f l = .ok results) {p : β → Prop} {q : α → Prop}
    (hnone : ∀ a ∈ l, f a = .ok none → q a)
    (hsome : ∀ a ∈ l, ∀ b, f a = .ok (some b) → (p b ↔ q a)) :
    (∀ b ∈ results, p b) ↔ ∀ a ∈ l, q a := by
  constructor
  · intro hall a ha
    obtain ⟨found, hfound⟩ := exists_of_collect h ha
    cases found with
    | none => exact hnone a ha hfound
    | some b => exact (hsome a ha b hfound).mp (hall b ((mem_collect_iff h).mpr ⟨a, ha, hfound⟩))
  · intro hall b hb
    obtain ⟨a, ha, hfound⟩ := (mem_collect_iff h).mp hb
    exact (hsome a ha b hfound).mpr (hall a ha)

/-- The same where every element has one result. -/
theorem forall_mem_iff_of_forall₂ {r : α → β → Prop} (h : List.Forall₂ r l results)
    {p : β → Prop} {q : α → Prop} (hiff : ∀ a ∈ l, ∀ b, r a b → (p b ↔ q a)) :
    (∀ b ∈ results, p b) ↔ ∀ a ∈ l, q a := by
  induction h with
  | nil => simp
  | cons hab _ ih =>
      rw [List.forall_mem_cons, List.forall_mem_cons,
        hiff _ List.mem_cons_self _ hab,
        ih fun a ha => hiff a (List.mem_cons_of_mem _ ha)]

end collecting

end Foundation
