import Miningcore.Foundation.JsonDocument
import Mathlib.Data.List.TakeWhile
import Mathlib.Tactic.Common

/-!
# Compact texts of nested documents

The text of a document is written without blanks, its members and elements in their
order. When names and scalars can be told apart by their texts, documents can.
-/

namespace Foundation

variable {α χ ν σ : Type*}

/-- Which value was written can be read off its text, whatever of a kind follows. -/
def ReadableBefore (Follows : List χ → Prop) (text : α → List χ) : Prop :=
  ∀ ⦃x y s t⦄, Follows s → Follows t → text x ++ s = text y ++ t → x = y ∧ s = t

/-- A run of characters ends where the next character is not one of them. -/
theorem append_inj_of_run {p : χ → Bool} {xs ys s t : List χ} (hxs : ∀ c ∈ xs, p c)
    (hys : ∀ c ∈ ys, p c) (hs : ∀ c ∈ s.head?, ¬p c) (ht : ∀ c ∈ t.head?, ¬p c)
    (h : xs ++ s = ys ++ t) : xs = ys ∧ s = t := by
  have hrun : ∀ {zs r : List χ}, (∀ c ∈ zs, p c) → (∀ c ∈ r.head?, ¬p c) →
      (zs ++ r).takeWhile p = zs := by
    intro zs r hzs hr
    rw [List.takeWhile_append_of_pos hzs]
    cases r with
    | nil => simp
    | cons c r =>
        rw [List.takeWhile_cons_of_neg (hr c rfl), List.append_nil]
  have hsame : xs = ys := by
    rw [← hrun hxs hs, h, hrun hys ht]
  subst hsame
  exact ⟨rfl, List.append_cancel_left h⟩

section quoting

variable (escape : Char → List Char)

def quoted (s : List Char) : List Char := '"' :: s.flatMap escape ++ ['"']

variable {escape}

/-- What is quoted can be read off when no character's code begins another's or a quote. -/
theorem readableBefore_quoted (hcode : ReadableBefore (fun _ => True) escape)
    (hquote : ∀ c s t, escape c ++ s ≠ '"' :: t) :
    ReadableBefore (fun _ => True) (quoted escape) := by
  intro x y s t _ _ h
  have hbody : x.flatMap escape ++ '"' :: s = y.flatMap escape ++ '"' :: t := by
    simpa [quoted] using h
  clear h
  induction x generalizing y with
  | nil =>
      cases y with
      | nil => exact ⟨rfl, (List.cons.inj hbody).2⟩
      | cons d y =>
          rw [List.flatMap_cons, List.append_assoc] at hbody
          exact absurd hbody.symm (hquote d _ _)
  | cons c x ih =>
      cases y with
      | nil =>
          rw [List.flatMap_cons, List.append_assoc] at hbody
          exact absurd hbody (hquote c _ _)
      | cons d y =>
          rw [List.flatMap_cons, List.flatMap_cons, List.append_assoc, List.append_assoc] at hbody
          obtain ⟨rfl, hrest⟩ := hcode trivial trivial hbody
          obtain ⟨rfl, hend⟩ := ih hrest
          exact ⟨rfl, hend⟩

end quoting

namespace JsonDocument

variable (nameText : ν → List Char) (scalarText : σ → List Char)

mutual

def compactText : JsonDocument ν σ → List Char
  | scalar s => scalarText s
  | array [] => ['[', ']']
  | array (element :: elements) => '[' :: element.compactText ++ furtherElements elements
  | object [] => ['{', '}']
  | object ((name, value) :: members) =>
      '{' :: nameText name ++ ':' :: value.compactText ++ furtherMembers members

/-- The elements after the first, and the end of the array. -/
def furtherElements : List (JsonDocument ν σ) → List Char
  | [] => [']']
  | element :: elements => ',' :: element.compactText ++ furtherElements elements

/-- The members after the first, and the end of the object. -/
def furtherMembers : List (ν × JsonDocument ν σ) → List Char
  | [] => ['}']
  | (name, value) :: members =>
      ',' :: nameText name ++ ':' :: value.compactText ++ furtherMembers members

end

/-- What stands after a value in a compact text. -/
def EndsValue : List Char → Prop
  | [] => True
  | c :: _ => c = ',' ∨ c = ']' ∨ c = '}'

/-- The texts of names and scalars can be told apart, and from containers. -/
structure Readable : Prop where
  name : ReadableBefore (fun _ => True) nameText
  scalar : ReadableBefore EndsValue scalarText
  head_scalar : ∀ x s c t, scalarText x ++ s = c :: t → c ∉ ['[', ']', '{', '}']
  head_name : ∀ x s c t, nameText x ++ s = c :: t → c ≠ '}'

variable {nameText scalarText}

theorem endsValue_furtherElements (elements : List (JsonDocument ν σ)) (s : List Char) :
    EndsValue (furtherElements nameText scalarText elements ++ s) := by
  cases elements with
  | nil => exact Or.inr (Or.inl rfl)
  | cons element elements =>
      rw [furtherElements]
      exact Or.inl rfl

theorem endsValue_furtherMembers (members : List (ν × JsonDocument ν σ)) (s : List Char) :
    EndsValue (furtherMembers nameText scalarText members ++ s) := by
  cases members with
  | nil => exact Or.inr (Or.inr rfl)
  | cons member members =>
      obtain ⟨name, value⟩ := member
      rw [furtherMembers]
      exact Or.inl rfl

/-- No value's text begins like the end of an array. -/
theorem compactText_append_ne (hread : Readable nameText scalarText)
    {document : JsonDocument ν σ} {s t : List Char} :
    compactText nameText scalarText document ++ s ≠ ']' :: t := by
  intro h
  cases document with
  | scalar x =>
      rw [compactText] at h
      exact hread.head_scalar x s _ t h (by simp)
  | array elements => cases elements <;> simp [compactText] at h
  | object members => cases members <;> simp [compactText] at h

mutual

/-- The text of a value, with what stands after it, determines the value. -/
theorem compactText_append_inj (hread : Readable nameText scalarText) (a b : JsonDocument ν σ)
    {s t : List Char} (hs : EndsValue s) (ht : EndsValue t)
    (h : compactText nameText scalarText a ++ s = compactText nameText scalarText b ++ t) :
    a = b ∧ s = t := by
  match a, b with
  | scalar x, scalar y =>
      rw [compactText, compactText] at h
      obtain ⟨rfl, hrest⟩ := hread.scalar hs ht h
      exact ⟨rfl, hrest⟩
  | scalar x, array elements =>
      rw [compactText] at h
      cases elements <;>
        simp only [compactText, List.cons_append] at h <;>
        exact absurd (by simp) (hread.head_scalar x s _ _ h)
  | scalar x, object members =>
      rw [compactText] at h
      rcases members with _ | ⟨⟨name, value⟩, members⟩ <;>
        simp only [compactText, List.cons_append] at h <;>
        exact absurd (by simp) (hread.head_scalar x s _ _ h)
  | array elements, scalar y =>
      rw [compactText.eq_1 _ _ y] at h
      cases elements <;>
        simp only [compactText, List.cons_append] at h <;>
        exact absurd (by simp) (hread.head_scalar y t _ _ h.symm)
  | object members, scalar y =>
      rw [compactText.eq_1 _ _ y] at h
      rcases members with _ | ⟨⟨name, value⟩, members⟩ <;>
        simp only [compactText, List.cons_append] at h <;>
        exact absurd (by simp) (hread.head_scalar y t _ _ h.symm)
  | array elements, object members =>
      rcases elements with _ | ⟨element, elements⟩ <;>
        rcases members with _ | ⟨⟨name, value⟩, members⟩ <;>
        simp [compactText] at h
  | object members, array elements =>
      rcases elements with _ | ⟨element, elements⟩ <;>
        rcases members with _ | ⟨⟨name, value⟩, members⟩ <;>
        simp [compactText] at h
  | array [], array [] =>
      simp only [compactText, List.cons_append, List.nil_append, List.cons.injEq, true_and] at h
      exact ⟨rfl, h⟩
  | array [], array (f :: fs) =>
      simp only [compactText, List.cons_append, List.nil_append, List.cons.injEq, true_and,
        List.append_assoc] at h
      exact absurd h.symm (compactText_append_ne hread)
  | array (e :: es), array [] =>
      simp only [compactText, List.cons_append, List.nil_append, List.cons.injEq, true_and,
        List.append_assoc] at h
      exact absurd h (compactText_append_ne hread)
  | array (e :: es), array (f :: fs) =>
      simp only [compactText, List.cons_append, List.cons.injEq, true_and,
        List.append_assoc] at h
      obtain ⟨rfl, hrest⟩ := compactText_append_inj hread e f (endsValue_furtherElements es s)
        (endsValue_furtherElements fs t) h
      obtain ⟨rfl, hend⟩ := furtherElements_append_inj hread es fs hs ht hrest
      exact ⟨rfl, hend⟩
  | object [], object [] =>
      simp only [compactText, List.cons_append, List.nil_append, List.cons.injEq, true_and] at h
      exact ⟨rfl, h⟩
  | object [], object ((m, w) :: ms) =>
      simp only [compactText, List.cons_append, List.nil_append, List.cons.injEq, true_and,
        List.append_assoc] at h
      exact absurd rfl (hread.head_name m _ _ _ h.symm)
  | object ((n, v) :: ns), object [] =>
      simp only [compactText, List.cons_append, List.nil_append, List.cons.injEq, true_and,
        List.append_assoc] at h
      exact absurd rfl (hread.head_name n _ _ _ h)
  | object ((n, v) :: ns), object ((m, w) :: ms) =>
      simp only [compactText, List.cons_append, List.cons.injEq, true_and,
        List.append_assoc] at h
      obtain ⟨rfl, hvalue⟩ := hread.name trivial trivial h
      obtain ⟨rfl, hrest⟩ := compactText_append_inj hread v w (endsValue_furtherMembers ns s)
        (endsValue_furtherMembers ms t) (List.cons.inj hvalue).2
      obtain ⟨rfl, hend⟩ := furtherMembers_append_inj hread ns ms hs ht hrest
      exact ⟨rfl, hend⟩

theorem furtherElements_append_inj (hread : Readable nameText scalarText)
    (es fs : List (JsonDocument ν σ)) {s t : List Char} (hs : EndsValue s) (ht : EndsValue t)
    (h : furtherElements nameText scalarText es ++ s =
      furtherElements nameText scalarText fs ++ t) :
    es = fs ∧ s = t := by
  match es, fs with
  | [], [] => exact ⟨rfl, List.append_cancel_left h⟩
  | [], f :: fs => simp [furtherElements] at h
  | e :: es, [] => simp [furtherElements] at h
  | e :: es, f :: fs =>
      simp only [furtherElements, List.cons_append, List.cons.injEq, true_and,
        List.append_assoc] at h
      obtain ⟨rfl, hrest⟩ := compactText_append_inj hread e f (endsValue_furtherElements es s)
        (endsValue_furtherElements fs t) h
      obtain ⟨rfl, hend⟩ := furtherElements_append_inj hread es fs hs ht hrest
      exact ⟨rfl, hend⟩

theorem furtherMembers_append_inj (hread : Readable nameText scalarText)
    (ns ms : List (ν × JsonDocument ν σ)) {s t : List Char} (hs : EndsValue s) (ht : EndsValue t)
    (h : furtherMembers nameText scalarText ns ++ s =
      furtherMembers nameText scalarText ms ++ t) :
    ns = ms ∧ s = t := by
  match ns, ms with
  | [], [] => exact ⟨rfl, List.append_cancel_left h⟩
  | [], (m, w) :: ms => simp [furtherMembers] at h
  | (n, v) :: ns, [] => simp [furtherMembers] at h
  | (n, v) :: ns, (m, w) :: ms =>
      simp only [furtherMembers, List.cons_append, List.cons.injEq, true_and,
        List.append_assoc] at h
      obtain ⟨rfl, hvalue⟩ := hread.name trivial trivial h
      obtain ⟨rfl, hrest⟩ := compactText_append_inj hread v w (endsValue_furtherMembers ns s)
        (endsValue_furtherMembers ms t) (List.cons.inj hvalue).2
      obtain ⟨rfl, hend⟩ := furtherMembers_append_inj hread ns ms hs ht hrest
      exact ⟨rfl, hend⟩

end

/-- Documents with one text are one document. -/
theorem compactText_injective (hread : Readable nameText scalarText) :
    Function.Injective (compactText nameText scalarText) := by
  intro a b h
  have hsame : compactText nameText scalarText a ++ [] =
      compactText nameText scalarText b ++ [] := by rw [h]
  exact (compactText_append_inj hread a b (s := []) (t := []) trivial trivial hsame).1

end JsonDocument

end Foundation
