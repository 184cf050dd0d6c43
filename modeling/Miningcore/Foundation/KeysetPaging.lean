import Miningcore.Foundation.EarlyExit
import Miningcore.Foundation.DescendingSort
import Mathlib.Data.List.Pairwise

/-!
# Keyset paging

A reader takes pages from a list in descending key order. After a full page it
goes on with the rows whose key is strictly below the key of the last row it
has seen, so rows sharing that key on the next page are left out. The results
relate the paged reading to one pass over the whole list.
-/

namespace Foundation

variable {α κ σ : Type*} [LinearOrder κ] (key : α → κ) (size : Nat)

/-- The rows left to be read after a page that ends with `last`. -/
def below (last : α) (rows : List α) : List α := rows.filter fun a => key a < key last

theorem length_below_lt {rows : List α} {last : α} (h : last ∈ rows) :
    (below key last rows).length < rows.length :=
  List.length_filter_lt_length_iff_exists.mpr ⟨last, h, by simp⟩

/-- The pages read from a list; the first page shorter than the page size ends the reading. -/
def keysetPages (rows : List α) : List (List α) :=
  match _h : (rows.take size).getLast? with
  | none => [rows.take size]
  | some last =>
      if (rows.take size).length < size then [rows.take size]
      else rows.take size :: keysetPages (below key last rows)
termination_by rows.length
decreasing_by
  have hmem : last ∈ rows := List.mem_of_mem_take (List.mem_of_getLast? _h)
  exact length_below_lt key hmem

/-- Two neighbouring rows at a cut share their key. -/
def SplitsTie (rows : List α) (cut : Nat) : Prop :=
  ∃ a b, rows[cut - 1]? = some a ∧ rows[cut]? = some b ∧ key a = key b

variable {key size}

theorem keysetPages_of_lt {rows : List α} (h : rows.length < size) :
    keysetPages key size rows = [rows] := by
  have ht : rows.take size = rows := List.take_of_length_le (by omega)
  rw [keysetPages]
  split
  · rw [ht]
  · simp [ht, h]

theorem keysetPages_of_le {rows : List α} {last : α} (h : size ≤ rows.length)
    (hl : (rows.take size).getLast? = some last) :
    keysetPages key size rows =
      rows.take size :: keysetPages key size (below key last rows) := by
  have hlen : (rows.take size).length = size := by simp [h]
  rw [keysetPages]
  split
  · rename_i hn
    rw [hl] at hn
    cases hn
  · rename_i last' hl'
    rw [hl] at hl'
    cases hl'
    simp [hlen]

theorem exists_getLast?_take {rows : List α} (hs : 0 < size) (h : size ≤ rows.length) :
    ∃ last, (rows.take size).getLast? = some last ∧ rows[size - 1]? = some last := by
  have hi : size - 1 < rows.length := by omega
  refine ⟨rows[size - 1], ?_, List.getElem?_eq_getElem hi⟩
  rw [List.getLast?_eq_getElem?, List.length_take, Nat.min_eq_left h,
    List.getElem?_take_of_lt (by omega), List.getElem?_eq_getElem hi]

/-- Induction along the pages: a short list is one page, a full page leaves the rows below it. -/
theorem keyset_induction (key : α → κ) (hs : 0 < size) {P : List α → Prop}
    (short : ∀ rows, rows.length < size → P rows)
    (full : ∀ rows last, size ≤ rows.length → (rows.take size).getLast? = some last →
      rows[size - 1]? = some last → P (below key last rows) → P rows)
    (rows : List α) : P rows := by
  induction hn : rows.length using Nat.strongRecOn generalizing rows with
  | _ n ih =>
    by_cases h : rows.length < size
    · exact short rows h
    · obtain ⟨last, hl, hi⟩ := exists_getLast?_take hs (Nat.le_of_not_lt h)
      have hmem : last ∈ rows := List.mem_of_mem_take (List.mem_of_getLast? hl)
      have hlt : (below key last rows).length < n :=
        hn ▸ length_below_lt key hmem
      exact full rows last (Nat.le_of_not_lt h) hl hi (ih _ hlt _ rfl)

/-- Rows of a full page are not below its last row. -/
theorem Descending.last_le {rows : List α} {last a : α} (h : Descending key rows)
    (hl : (rows.take size).getLast? = some last) (ha : a ∈ rows.take size) :
    key last ≤ key a := by
  obtain ⟨pre, hpre⟩ := List.getLast?_eq_some_iff.mp hl
  rw [hpre, List.mem_append, List.mem_singleton] at ha
  rcases ha with ha | rfl
  · have hd : Descending key (pre ++ [last]) :=
      hpre ▸ List.Pairwise.sublist (List.take_sublist size rows) h
    exact hd.append_le ha List.mem_cons_self
  · exact le_rfl

/-- What a full page leaves to be read lies behind it. -/
theorem Descending.below_eq {rows : List α} {last : α} (h : Descending key rows)
    (hl : (rows.take size).getLast? = some last) :
    below key last rows = below key last (rows.drop size) := by
  conv_lhs => rw [← List.take_append_drop size rows]
  rw [below, List.filter_append, List.filter_eq_nil_iff.mpr, List.nil_append, below]
  intro a ha
  simpa using h.last_le hl ha

theorem Descending.below {rows : List α} (h : Descending key rows) (last : α) :
    Descending key (below key last rows) := h.filter _

/-- The reading ends with its only short page. -/
theorem keysetPages_shape (key : α → κ) (hs : 0 < size) (rows : List α) :
    ∃ full short, keysetPages key size rows = full ++ [short] ∧
      (∀ page ∈ full, page.length = size) ∧ short.length < size := by
  induction rows using keyset_induction key hs with
  | short rows hlt => exact ⟨[], rows, keysetPages_of_lt hlt, by simp, hlt⟩
  | full rows last hle hl _ ih =>
      obtain ⟨full, short, heq, hfull, hshort⟩ := ih
      refine ⟨rows.take size :: full, short, ?_, ?_, hshort⟩
      · rw [keysetPages_of_le hle hl, heq, List.cons_append]
      · intro page hpage
        rcases List.mem_cons.mp hpage with rfl | hpage
        · simp [hle]
        · exact hfull page hpage

/-- Pages hold rows in their order, none of them twice. -/
theorem flatten_keysetPages_sublist (hs : 0 < size) {rows : List α} (h : Descending key rows) :
    (keysetPages key size rows).flatten.Sublist rows := by
  induction rows using keyset_induction key hs with
  | short rows hlt => simp [keysetPages_of_lt hlt]
  | full rows last hle hl _ ih =>
      rw [keysetPages_of_le hle hl, List.flatten_cons]
      have hrest : (keysetPages key size (Foundation.below key last rows)).flatten.Sublist
          (rows.drop size) := by
        refine (ih (h.below last)).trans ?_
        rw [h.below_eq hl]
        exact List.filter_sublist
      have happ := List.Sublist.append_left hrest (rows.take size)
      rwa [List.take_append_drop] at happ

omit [LinearOrder κ] in
/-- A cut behind the first page is a cut of what follows the page. -/
theorem splitsTie_drop {rows : List α} {cut : Nat} (hc : 0 < cut) :
    SplitsTie key (rows.drop size) cut ↔ SplitsTie key rows (size + cut) := by
  have h₁ : size + (cut - 1) = size + cut - 1 := by omega
  simp only [SplitsTie, List.getElem?_drop, h₁]

omit [LinearOrder κ] in
theorem not_splitsTie_of_length_le {rows : List α} {cut : Nat} (h : rows.length ≤ cut) :
    ¬SplitsTie key rows cut := by
  rintro ⟨_, b, _, hb, _⟩
  rw [List.getElem?_eq_none h] at hb
  cases hb

omit [LinearOrder κ] in
/-- Among rows of one key every cut splits a tie. -/
theorem splitsTie_of_forall_eq {rows : List α} {k : κ} (h : ∀ a ∈ rows, key a = k) {cut : Nat}
    (hlt : cut < rows.length) : SplitsTie key rows cut := by
  refine ⟨rows[cut - 1], rows[cut], List.getElem?_eq_getElem (by omega),
    List.getElem?_eq_getElem hlt, ?_⟩
  rw [h _ (List.getElem_mem _), h _ (List.getElem_mem _)]

/-- Without a tie at the end of a full page, everything behind the page is left to be read. -/
theorem Descending.below_eq_drop {rows : List α} {last : α} (h : Descending key rows)
    (hl : (rows.take size).getLast? = some last) (hi : rows[size - 1]? = some last)
    (ht : ¬SplitsTie key rows size) : Foundation.below key last rows = rows.drop size := by
  rw [h.below_eq hl, Foundation.below, List.filter_eq_self]
  cases hd : rows.drop size with
  | nil => simp
  | cons b rest =>
      have hb : rows[size]? = some b := by
        have hz : (rows.drop size)[0]? = rows[size + 0]? := List.getElem?_drop
        simpa [hd] using hz.symm
      have hlast : last ∈ rows.take size := List.mem_of_getLast? hl
      have hbl : key b ≤ key last := by
        have happ : Descending key (rows.take size ++ rows.drop size) := by
          rwa [List.take_append_drop]
        exact happ.append_le hlast (by simp [hd])
      have hne : key last ≠ key b := fun he => ht ⟨last, b, hi, hb, he⟩
      have hlt : key b < key last := lt_of_le_of_ne hbl fun he => hne he.symm
      have hrest : Descending key (b :: rest) := hd ▸ h.drop size
      intro a ha
      rcases List.mem_cons.mp ha with rfl | ha
      · simpa using hlt
      · simpa using ((List.pairwise_cons.mp hrest).1 a ha).trans_lt hlt

/-- With a tie at the end of a full page, the first row behind the page is not read next. -/
theorem head_not_read_of_splitsTie (hs : 0 < size) {rows : List α} {last : α}
    (h : Descending key rows) (hi : rows[size - 1]? = some last) (ht : SplitsTie key rows size)
    (m : Scan σ α) (s : σ) :
    m.consume s (keysetPages key size (Foundation.below key last rows)).flatten ≠
      m.consume s (rows.drop size) := by
  obtain ⟨a, b, ha, hb, hab⟩ := ht
  obtain rfl : a = last := Option.some.inj (ha.symm.trans hi)
  intro he
  have hhead := congrArg List.head? he
  rw [m.head?_consume, m.head?_consume, List.head?_drop, hb] at hhead
  have hmem := (flatten_keysetPages_sublist hs (h.below a)).subset (List.mem_of_head? hhead)
  simp only [Foundation.below, List.mem_filter, decide_eq_true_eq] at hmem
  exact hmem.2.ne hab.symm

/-- The paged scan consumes the rows of the plain scan exactly when no page it goes past ends
inside a group of equal keys. -/
theorem consume_keysetPages_eq_iff (hs : 0 < size) (m : Scan σ α) (s : σ) {rows : List α}
    (h : Descending key rows) :
    m.consume s (keysetPages key size rows).flatten = m.consume s rows ↔
      ∀ k, 1 ≤ k → m.stops s (rows.take (k * size)) = false → ¬SplitsTie key rows (k * size) := by
  induction rows using keyset_induction key hs generalizing s with
  | short rows hlt =>
      simp only [keysetPages_of_lt hlt, List.flatten_cons, List.flatten_nil, List.append_nil,
        true_iff]
      intro k hk _
      exact not_splitsTie_of_length_le
        (Nat.le_trans (Nat.le_of_lt hlt) (Nat.le_mul_of_pos_left size hk))
  | full rows last hle hl hi ih =>
      have hlen : (rows.take size).length = size := by simp [hle]
      have hrows : m.consume s rows = m.consume s (rows.take size ++ rows.drop size) := by
        rw [List.take_append_drop]
      rw [keysetPages_of_le hle hl, List.flatten_cons, hrows, m.consume_append, m.consume_append]
      cases hstop : m.stops s (rows.take size) with
      | true =>
          simp only [if_true, true_iff]
          intro k hk hns
          have hpre : rows.take size <+: rows.take (k * size) :=
            List.take_prefix_take_left (Nat.le_mul_of_pos_left size hk)
          rw [m.stops_of_prefix hpre hstop] at hns
          cases hns
      | false =>
          simp only [Bool.false_eq_true, if_false, List.append_cancel_left_eq]
          by_cases ht : SplitsTie key rows size
          · have hne := head_not_read_of_splitsTie hs h hi ht m (m.after s (rows.take size))
            refine ⟨fun he => absurd he hne, fun hk => absurd ?_ (hk 1 (Nat.le_refl 1) (by simpa))⟩
            simpa using ht
          · have hrest := h.below_eq_drop hl hi ht
            rw [hrest] at ih ⊢
            rw [ih (m.after s (rows.take size)) (h.drop size)]
            have hnext (k : Nat) : m.stops s (rows.take ((k + 1) * size)) =
                m.stops (m.after s (rows.take size)) ((rows.drop size).take (k * size)) := by
              rw [Nat.succ_mul, Nat.add_comm, List.take_add, m.stops_append, hstop,
                Bool.false_or]
            have hcut (k : Nat) (hk : 1 ≤ k) : SplitsTie key rows ((k + 1) * size) ↔
                SplitsTie key (rows.drop size) (k * size) := by
              rw [Nat.succ_mul, Nat.add_comm, splitsTie_drop (Nat.mul_pos hk hs)]
            constructor
            · intro hk j hj hns
              obtain _ | _ | j := j
              · cases hj
              · simpa using ht
              · rw [hnext] at hns
                exact (hcut (j + 1) (by omega)).not.mpr (hk (j + 1) (by omega) hns)
            · intro hk j hj hns
              rw [← hnext] at hns
              exact (hcut j hj).not.mp (hk (j + 1) (by omega) hns)

/-- Dropping all rows below a bound drops exactly these rows from what the pages hold. -/
theorem flatten_keysetPages_filter (hs : 0 < size) (bound : κ) {rows : List α}
    (h : Descending key rows) :
    (keysetPages key size (rows.filter fun a => bound ≤ key a)).flatten =
      (keysetPages key size rows).flatten.filter fun a => bound ≤ key a := by
  induction rows using keyset_induction key hs with
  | short rows hlt =>
      have hlt' : (rows.filter fun a => bound ≤ key a).length < size :=
        Nat.lt_of_le_of_lt (List.length_filter_le _ _) hlt
      simp [keysetPages_of_lt hlt, keysetPages_of_lt hlt']
  | full rows last hle hl _ ih =>
      have hsplit : rows.filter (fun a => bound ≤ key a) =
          (rows.take size).filter (fun a => bound ≤ key a) ++
            (rows.drop size).filter (fun a => bound ≤ key a) := by
        rw [← List.filter_append, List.take_append_drop]
      rw [keysetPages_of_le hle hl, List.flatten_cons, List.filter_append, ← ih (h.below last)]
      by_cases hb : bound ≤ key last
      · -- the whole page stays, so the shortened list is read past the same last row
        have hpage : (rows.take size).filter (fun a => bound ≤ key a) = rows.take size :=
          List.filter_eq_self.mpr fun a ha => by simpa using hb.trans (h.last_le hl ha)
        have htake : (rows.filter fun a => bound ≤ key a).take size = rows.take size := by
          rw [hsplit, hpage, List.take_append_of_le_length (by simp [hle]), List.take_take,
            Nat.min_self]
        have hlen : size ≤ (rows.filter fun a => bound ≤ key a).length := by
          rw [hsplit, hpage, List.length_append, List.length_take, Nat.min_eq_left hle]
          exact Nat.le_add_right _ _
        rw [keysetPages_of_le hlen (by rw [htake, hl]), List.flatten_cons, htake, hpage]
        have hcomm : below key last (rows.filter fun a => bound ≤ key a) =
            (below key last rows).filter fun a => bound ≤ key a := by
          simp only [below, List.filter_filter, Bool.and_comm]
        rw [hcomm]
      · -- the bound lies above the last row: nothing behind the page stays
        have hrest : ∀ l : List α, (∀ a ∈ l, key a ≤ key last) →
            l.filter (fun a => bound ≤ key a) = [] := by
          intro l hle'
          rw [List.filter_eq_nil_iff]
          intro a ha
          simpa using (hle' a ha).trans_lt (not_le.mp hb)
        have hbelow : (below key last rows).filter (fun a => bound ≤ key a) = [] :=
          hrest _ fun a ha => by
            simp only [below, List.mem_filter, decide_eq_true_eq] at ha
            exact le_of_lt ha.2
        have hdrop : (rows.drop size).filter (fun a => bound ≤ key a) = [] :=
          hrest _ fun a ha => by
            have happ : Descending key (rows.take size ++ rows.drop size) := by
              rwa [List.take_append_drop]
            exact happ.append_le (List.mem_of_getLast? hl) ha
        have hshort : ((rows.take size).filter fun a => bound ≤ key a).length < size := by
          have hlt : ((rows.take size).filter fun a => bound ≤ key a).length <
              (rows.take size).length :=
            List.length_filter_lt_length_iff_exists.mpr
              ⟨last, List.mem_of_getLast? hl, by simpa using hb⟩
          rwa [List.length_take, Nat.min_eq_left hle] at hlt
        rw [hsplit, hdrop, List.append_nil, hbelow, keysetPages_of_lt hshort,
          keysetPages_of_lt (by simpa using hs)]
        simp

theorem head?_flatten_keysetPages (key : α → κ) (hs : 0 < size) (rows : List α) :
    (keysetPages key size rows).flatten.head? = rows.head? := by
  induction rows using keyset_induction key hs with
  | short rows hlt => simp [keysetPages_of_lt hlt]
  | full rows last hle hl _ _ =>
      rw [keysetPages_of_le hle hl, List.flatten_cons, List.head?_append, List.head?_take,
        if_neg hs.ne']
      cases rows with
      | nil => simp at hl
      | cons a rows => rfl

/-- Without an early exit, the pages hold all rows exactly when no cut splits a tie. -/
theorem flatten_keysetPages_eq_iff (hs : 0 < size) {rows : List α} (h : Descending key rows) :
    (keysetPages key size rows).flatten = rows ↔
      ∀ k, 1 ≤ k → ¬SplitsTie key rows (k * size) := by
  have hiff := consume_keysetPages_eq_iff hs Scan.never () h
  simpa using hiff

end Foundation
