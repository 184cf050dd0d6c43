import Mathlib.Data.List.Basic
import Mathlib.Data.List.Induction
import Mathlib.Data.List.Lex
import Mathlib.Order.Basic
import Mathlib.Tactic.Ring

/-!
# Reduction in pairs

A level is joined in pairs, which may fail, until one element is left. For a level
whose length is a power of two this is the tree over its two halves. What holds of
every node of that tree is said of the aligned blocks of the level. A tree whose
nodes are ordered is determined up to the exchange of siblings.
-/

namespace Foundation

variable {α : Type*}

/-- The level above, if all pairs can be joined. A last element has no partner. -/
def pairLevel (join : α → α → Option α) : List α → Option (List α)
  | [] => some []
  | [_] => none
  | a :: b :: rest =>
      match join a b, pairLevel join rest with
      | some c, some level => some (c :: level)
      | _, _ => none

section pairLevel

variable {join : α → α → Option α}

theorem length_of_pairLevel {l level : List α} (h : pairLevel join l = some level) :
    l.length = 2 * level.length := by
  induction l using List.twoStepInduction generalizing level with
  | nil =>
      cases h
      rfl
  | singleton a => cases h
  | cons_cons a b rest ih _ =>
      rw [pairLevel] at h
      split at h
      · rename_i c next _ hnext
        cases h
        rw [List.length_cons, List.length_cons, List.length_cons, ih hnext]
        ring
      · cases h

/-- The pairs of an even number of elements stay apart from what follows. -/
theorem pairLevel_append {l : List α} (heven : l.length % 2 = 0) (l' : List α) :
    pairLevel join (l ++ l') = (pairLevel join l).bind fun level =>
      (pairLevel join l').map (level ++ ·) := by
  induction l using List.twoStepInduction with
  | nil => simp [pairLevel]
  | singleton a => simp at heven
  | cons_cons a b rest ih _ =>
      have hrest : rest.length % 2 = 0 := by
        simp only [List.length_cons] at heven
        omega
      rw [List.cons_append, List.cons_append, pairLevel, pairLevel, ih hrest]
      cases join a b with
      | none => rfl
      | some c =>
          cases pairLevel join rest with
          | none => rfl
          | some level => cases pairLevel join l' <;> rfl

end pairLevel

/-- The levels are joined until one element is left. -/
def reduce (join : ℕ → α → α → Option α) (level : ℕ) (l : List α) : Option α :=
  match l with
  | [] => none
  | [a] => some a
  | a :: b :: rest =>
      match _hnext : pairLevel (join level) (a :: b :: rest) with
      | none => none
      | some next => reduce join (level + 1) next
termination_by l.length
decreasing_by
  have hlength := length_of_pairLevel _hnext
  simp only [List.length_cons] at hlength ⊢
  omega

section reduce

variable {join : ℕ → α → α → Option α} {k level : ℕ} {l l' : List α}

theorem reduce_singleton (a : α) : reduce join level [a] = some a := by
  rw [reduce]

theorem reduce_eq_bind (h : 1 < l.length) :
    reduce join level l = (pairLevel (join level) l).bind (reduce join (level + 1)) := by
  match l, h with
  | a :: b :: rest, _ =>
      rw [reduce]
      split
      · rename_i hnone
        rw [hnone, Option.bind_none]
      · rename_i next hsome
        rw [hsome, Option.bind_some]

/-- The reduction of two halves joins what they reduce to. -/
theorem reduce_append (hl : l.length = 2 ^ k) (hl' : l'.length = 2 ^ k) :
    reduce join level (l ++ l') = (reduce join level l).bind fun a =>
      (reduce join level l').bind fun b => join (level + k) a b := by
  induction k generalizing level l l' with
  | zero =>
      obtain ⟨a, rfl⟩ := List.length_eq_one_iff.mp hl
      obtain ⟨b, rfl⟩ := List.length_eq_one_iff.mp hl'
      rw [reduce_singleton, reduce_singleton, reduce_eq_bind (by simp), Option.bind_some,
        Option.bind_some, List.singleton_append, pairLevel]
      rw [Nat.add_zero]
      cases join level a b with
      | none => rfl
      | some c => simp only [pairLevel, Option.bind_some, reduce_singleton]
  | succ k ih =>
      have hpow := Nat.two_pow_pos k
      rw [Nat.pow_succ] at hl hl'
      rw [reduce_eq_bind (l := l ++ l') (by rw [List.length_append]; omega),
        reduce_eq_bind (l := l) (by omega), reduce_eq_bind (l := l') (by omega),
        pairLevel_append (by omega)]
      cases hnext : pairLevel (join level) l with
      | none => rfl
      | some next =>
          have hlength := length_of_pairLevel hnext
          cases hnext' : pairLevel (join level) l' with
          | none =>
              simp only [Option.bind_some, Option.map_none, Option.bind_none]
              cases reduce join (level + 1) next <;> rfl
          | some next' =>
              have hlength' := length_of_pairLevel hnext'
              simp only [Option.bind_some, Option.map_some]
              rw [ih (by omega) (by omega), Nat.add_right_comm level 1 k]
              rfl

end reduce

/-! ### Aligned blocks -/

/-- The `w`-th of the blocks of `2 ^ r` elements. -/
def block (r w : ℕ) (l : List α) : List α := (l.drop (w * 2 ^ r)).take (2 ^ r)

/-- What holds of the elements below every node of the tree. -/
def AllBlocks (P : List α → Prop) (k : ℕ) (l : List α) : Prop :=
  ∀ r ≤ k, ∀ w < 2 ^ (k - r), P (block r w l)

section blocks

variable {P : List α → Prop} {k r w : ℕ} {l l' : List α}

theorem block_append_left (l' : List α) (hl : l.length = 2 ^ k) (hr : r ≤ k)
    (hw : w < 2 ^ (k - r)) : block r w (l ++ l') = block r w l := by
  have hend : (w + 1) * 2 ^ r ≤ l.length := by
    rw [hl, ← Nat.sub_add_cancel hr, Nat.pow_add]
    exact Nat.mul_le_mul_right _ hw
  rw [Nat.add_one_mul] at hend
  have hle := Nat.le_of_add_right_le hend
  rw [block, block, List.drop_append_of_le_length hle, List.take_append_of_le_length]
  rw [List.length_drop]
  exact Nat.le_sub_of_add_le' hend

theorem block_append_right (l' : List α) (hl : l.length = 2 ^ k) (hr : r ≤ k) (w : ℕ) :
    block r (2 ^ (k - r) + w) (l ++ l') = block r w l' := by
  have hstart : (2 ^ (k - r) + w) * 2 ^ r = l.length + w * 2 ^ r := by
    rw [Nat.add_mul, ← Nat.pow_add, Nat.sub_add_cancel hr, hl]
  rw [block, block, hstart, List.drop_append, List.drop_eq_nil_of_le (Nat.le_add_right _ _),
    List.nil_append, Nat.add_sub_cancel_left]

theorem block_self (hl : l.length = 2 ^ k) : block k 0 l = l := by
  rw [block, Nat.zero_mul, List.drop_zero, ← hl, List.take_length]

theorem AllBlocks.self (h : AllBlocks P k l) (hl : l.length = 2 ^ k) : P l := by
  have hself := h k le_rfl 0 (Nat.two_pow_pos _)
  rwa [block_self hl] at hself

theorem allBlocks_zero (hl : l.length = 2 ^ 0) : AllBlocks P 0 l ↔ P l := by
  constructor
  · exact fun h => h.self hl
  · intro h r hr w hw
    obtain rfl := Nat.le_zero.mp hr
    rw [Nat.sub_self, pow_zero, Nat.lt_one_iff] at hw
    rwa [hw, block_self hl]

/-- The blocks of a level are the level and the blocks of its halves. -/
theorem allBlocks_append (hl : l.length = 2 ^ k) (hl' : l'.length = 2 ^ k) :
    AllBlocks P (k + 1) (l ++ l') ↔ P (l ++ l') ∧ AllBlocks P k l ∧ AllBlocks P k l' := by
  have hboth : (l ++ l').length = 2 ^ (k + 1) := by
    rw [List.length_append, hl, hl', Nat.pow_succ]
    ring
  constructor
  · intro h
    refine ⟨?_, fun r hr w hw => ?_, fun r hr w hw => ?_⟩
    · exact h.self hboth
    · rw [← block_append_left l' hl hr hw]
      apply h r (Nat.le_succ_of_le hr)
      rw [Nat.succ_sub hr, Nat.pow_succ]
      omega
    · rw [← block_append_right l' hl hr w]
      apply h r (Nat.le_succ_of_le hr)
      rw [Nat.succ_sub hr, Nat.pow_succ]
      omega
  · rintro ⟨hself, hleft, hright⟩ r hr w hw
    rcases Nat.le_succ_iff.mp hr with hr' | rfl
    · rw [Nat.succ_sub hr', Nat.pow_succ] at hw
      rcases Nat.lt_or_ge w (2 ^ (k - r)) with hlt | hge
      · rw [block_append_left l' hl hr' hlt]
        exact hleft r hr' w hlt
      · obtain ⟨w, rfl⟩ := Nat.exists_eq_add_of_le hge
        rw [block_append_right l' hl hr' w]
        exact hright r hr' w (by omega)
    · rw [Nat.sub_self, pow_zero, Nat.lt_one_iff] at hw
      rwa [hw, block_self hboth]

theorem exists_halves (hl : l.length = 2 ^ (k + 1)) :
    ∃ first second : List α, l = first ++ second ∧ first.length = 2 ^ k ∧
      second.length = 2 ^ k := by
  refine ⟨l.take (2 ^ k), l.drop (2 ^ k), (List.take_append_drop _ _).symm, ?_, ?_⟩
  · rw [List.length_take, hl, Nat.pow_succ]
    omega
  · rw [List.length_drop, hl, Nat.pow_succ]
    omega

end blocks

/-! ### Ordered trees -/

section ordered

variable [LinearOrder α]

/-- The first half comes before the second. -/
def HalvesOrdered (l : List α) : Prop := l.take (l.length / 2) < l.drop (l.length / 2)

theorem halvesOrdered_append {l l' : List α} (h : l.length = l'.length) :
    HalvesOrdered (l ++ l') ↔ l < l' := by
  have hhalf : (l ++ l').length / 2 = l.length := by
    rw [List.length_append]
    omega
  rw [HalvesOrdered, hhalf, List.take_left' rfl, List.drop_left' rfl]

theorem halvesOrdered_singleton (a : α) : HalvesOrdered [a] := by
  simp [HalvesOrdered]

/-- Lists that differ in their first elements are ordered by them. -/
theorem lt_iff_of_head_ne {a b : α} (h : a ≠ b) (l l' : List α) : a :: l < b :: l' ↔ a < b := by
  rw [List.cons_lt_cons_iff]
  exact ⟨fun hlt => hlt.resolve_right fun heq => h heq.1, .inl⟩

end ordered

/-- The tree over a level after the exchange of some siblings. -/
inductive SiblingSwap : ℕ → List α → List α → Prop
  | leaf (a : α) : SiblingSwap 0 [a] [a]
  | keep {k : ℕ} {l l' swapped swapped' : List α} (hl : SiblingSwap k l swapped)
      (hl' : SiblingSwap k l' swapped') : SiblingSwap (k + 1) (l ++ l') (swapped ++ swapped')
  | exchange {k : ℕ} {l l' swapped swapped' : List α} (hl : SiblingSwap k l swapped)
      (hl' : SiblingSwap k l' swapped') : SiblingSwap (k + 1) (l ++ l') (swapped' ++ swapped)

theorem SiblingSwap.length {k : ℕ} {l l' : List α} (h : SiblingSwap k l l') :
    l.length = 2 ^ k ∧ l'.length = 2 ^ k := by
  induction h with
  | leaf a => exact ⟨rfl, rfl⟩
  | keep _ _ ih ih' =>
      rw [List.length_append, List.length_append, Nat.pow_succ]
      omega
  | exchange _ _ ih ih' =>
      rw [List.length_append, List.length_append, Nat.pow_succ]
      omega

/-- What the siblings at the root were made of. -/
theorem SiblingSwap.split {k : ℕ} {l l' swapped : List α} (hl : l.length = 2 ^ k)
    (h : SiblingSwap (k + 1) (l ++ l') swapped) :
    ∃ first second, SiblingSwap k l first ∧ SiblingSwap k l' second ∧
      (swapped = first ++ second ∨ swapped = second ++ first) := by
  generalize htree : l ++ l' = tree at h
  cases h with
  | keep hfirst hsecond =>
      obtain ⟨rfl, rfl⟩ := List.append_inj htree (hl.trans hfirst.length.1.symm)
      exact ⟨_, _, hfirst, hsecond, .inl rfl⟩
  | exchange hfirst hsecond =>
      obtain ⟨rfl, rfl⟩ := List.append_inj htree (hl.trans hfirst.length.1.symm)
      exact ⟨_, _, hfirst, hsecond, .inr rfl⟩

/-- Among the exchanges of siblings of a tree only one has all its nodes in order. -/
theorem SiblingSwap.eq_of_ordered [LinearOrder α] {k : ℕ} {l first second : List α}
    (hfirst : SiblingSwap k l first) (hsecond : SiblingSwap k l second)
    (hofirst : AllBlocks HalvesOrdered k first) (hosecond : AllBlocks HalvesOrdered k second) :
    first = second := by
  induction k generalizing l first second with
  | zero =>
      cases hfirst
      cases hsecond
      rfl
  | succ k ih =>
      obtain ⟨l, l', rfl, hl, -⟩ := exists_halves hfirst.length.1
      obtain ⟨a, b, ha, hb, hab⟩ := hfirst.split hl
      obtain ⟨c, d, hc, hd, hcd⟩ := hsecond.split hl
      -- A tree whose halves are the exchanged ones is ordered the other way.
      have hordered : ∀ {s t s' t' : List α}, s.length = 2 ^ k → t.length = 2 ^ k →
          s'.length = 2 ^ k → t'.length = 2 ^ k → AllBlocks HalvesOrdered (k + 1) (s ++ t) →
          AllBlocks HalvesOrdered (k + 1) (s' ++ t') → s < t ∧ s' < t' := by
        intro s t s' t' hs ht hs' ht' h h'
        rw [allBlocks_append hs ht, halvesOrdered_append (hs.trans ht.symm)] at h
        rw [allBlocks_append hs' ht', halvesOrdered_append (hs'.trans ht'.symm)] at h'
        exact ⟨h.1, h'.1⟩
      have hparts : ∀ {s t : List α}, s.length = 2 ^ k → t.length = 2 ^ k →
          AllBlocks HalvesOrdered (k + 1) (s ++ t) →
          AllBlocks HalvesOrdered k s ∧ AllBlocks HalvesOrdered k t := by
        intro s t hs ht h
        exact ((allBlocks_append hs ht).mp h).2
      have hla := ha.length.2
      have hlb := hb.length.2
      have hlc := hc.length.2
      have hld := hd.length.2
      rcases hab with rfl | rfl <;> rcases hcd with rfl | rfl
      · rw [ih ha hc (hparts hla hlb hofirst).1 (hparts hlc hld hosecond).1,
          ih hb hd (hparts hla hlb hofirst).2 (hparts hlc hld hosecond).2]
      · obtain rfl := ih ha hc (hparts hla hlb hofirst).1 (hparts hld hlc hosecond).2
        obtain rfl := ih hb hd (hparts hla hlb hofirst).2 (hparts hld hlc hosecond).1
        have h := hordered hla hlb hlb hla hofirst hosecond
        exact absurd h.1 (lt_asymm h.2)
      · obtain rfl := ih ha hc (hparts hlb hla hofirst).2 (hparts hlc hld hosecond).1
        obtain rfl := ih hb hd (hparts hlb hla hofirst).1 (hparts hlc hld hosecond).2
        have h := hordered hlb hla hla hlb hofirst hosecond
        exact absurd h.1 (lt_asymm h.2)
      · rw [ih ha hc (hparts hlb hla hofirst).2 (hparts hld hlc hosecond).2,
          ih hb hd (hparts hlb hla hofirst).1 (hparts hld hlc hosecond).1]

end Foundation
