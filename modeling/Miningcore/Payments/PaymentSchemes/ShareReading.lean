import Miningcore.Payments.Abstractions
import Miningcore.Foundation.KeysetPaging

/-!
# Reading shares in pages

All schemes read the shares of a pool newest first, page after page, and go on
strictly before the creation time of the last share of a full page.
-/

namespace Miningcore

open Foundation ShareRepository

/-- The rows a read may return, newest first. -/
def sharesBefore (shares : List Share) (poolId : String) (before : DateTime) (inclusive : Bool) :
    List Share :=
  sortDescending Share.created (shares.filter (isBefore poolId before inclusive))

theorem readSharesBefore_eq (shares : List Share) (poolId : String) (before : DateTime)
    (inclusive : Bool) (pageSize : Nat) :
    readSharesBefore shares poolId before inclusive pageSize =
      (sharesBefore shares poolId before inclusive).take pageSize := rfl

theorem descending_sharesBefore (shares : List Share) (poolId : String) (before : DateTime)
    (inclusive : Bool) : Descending Share.created (sharesBefore shares poolId before inclusive) :=
  descending_sortDescending _

theorem mem_sharesBefore {shares : List Share} {poolId : String} {before : DateTime}
    {inclusive : Bool} {share : Share} :
    share ∈ sharesBefore shares poolId before inclusive ↔
      share ∈ shares ∧ isBefore poolId before inclusive share = true := by
  simp [sharesBefore]

theorem created_le_of_isBefore {poolId : String} {before : DateTime} {inclusive : Bool}
    {share : Share} (h : isBefore poolId before inclusive share = true) :
    share.created ≤ before := by
  simp only [isBefore, Bool.and_eq_true] at h
  cases inclusive with
  | true => simpa using h.2
  | false => exact le_of_lt (by simpa using h.2)

/-- Going on strictly before the last share of a page reads the rows below it. -/
theorem sharesBefore_last {shares : List Share} {poolId : String} {before : DateTime}
    {inclusive : Bool} {last : Share} (h : last ∈ sharesBefore shares poolId before inclusive) :
    sharesBefore shares poolId last.created false =
      below Share.created last (sharesBefore shares poolId before inclusive) := by
  have hle := created_le_of_isBefore (mem_sharesBefore.mp h).2
  rw [sharesBefore, sharesBefore, below, ← sortDescending_filter, List.filter_filter]
  congr 1
  apply List.filter_congr
  intro share _
  cases inclusive <;> simp [isBefore] <;> grind

theorem length_sharesBefore_last_lt {shares : List Share} {poolId : String} {before : DateTime}
    {inclusive : Bool} {pageSize : Nat} {last : Share}
    (h : (readSharesBefore shares poolId before inclusive pageSize).getLast? = some last) :
    (sharesBefore shares poolId last.created false).length <
      (sharesBefore shares poolId before inclusive).length := by
  have hmem : last ∈ sharesBefore shares poolId before inclusive :=
    List.mem_of_mem_take (List.mem_of_getLast? h)
  rw [sharesBefore_last hmem]
  exact length_below_lt Share.created hmem

/-- The pages a calculation for a point in time reads as long as nothing stops it. -/
def sharePages (shares : List Share) (poolId : String) (before : DateTime) (inclusive : Bool)
    (pageSize : Nat) : List (List Share) :=
  keysetPages Share.created pageSize (sharesBefore shares poolId before inclusive)

theorem sharePages_of_lt {shares : List Share} {poolId : String} {before : DateTime}
    {inclusive : Bool} {pageSize : Nat}
    (h : (readSharesBefore shares poolId before inclusive pageSize).length < pageSize) :
    sharePages shares poolId before inclusive pageSize =
      [readSharesBefore shares poolId before inclusive pageSize] := by
  have hlt : (sharesBefore shares poolId before inclusive).length < pageSize := by
    rw [readSharesBefore_eq, List.length_take] at h
    omega
  rw [sharePages, keysetPages_of_lt hlt, readSharesBefore_eq,
    List.take_of_length_le (Nat.le_of_lt hlt)]

theorem sharePages_of_getLast? {shares : List Share} {poolId : String} {before : DateTime}
    {inclusive : Bool} {pageSize : Nat} {last : Share}
    (h : ¬(readSharesBefore shares poolId before inclusive pageSize).length < pageSize)
    (hl : (readSharesBefore shares poolId before inclusive pageSize).getLast? = some last) :
    sharePages shares poolId before inclusive pageSize =
      readSharesBefore shares poolId before inclusive pageSize ::
        sharePages shares poolId last.created false pageSize := by
  have hle : pageSize ≤ (sharesBefore shares poolId before inclusive).length := by
    rw [readSharesBefore_eq, List.length_take] at h
    omega
  have hmem : last ∈ sharesBefore shares poolId before inclusive :=
    List.mem_of_mem_take (List.mem_of_getLast? hl)
  rw [sharePages, keysetPages_of_le hle hl, sharePages, sharesBefore_last hmem]
  rfl

/-- A page that is not short has a last share. -/
theorem getLast?_of_not_lt {shares : List Share} {poolId : String} {before : DateTime}
    {inclusive : Bool} {pageSize : Nat} (hs : 0 < pageSize)
    (h : ¬(readSharesBefore shares poolId before inclusive pageSize).length < pageSize) :
    ∃ last, (readSharesBefore shares poolId before inclusive pageSize).getLast? = some last := by
  have hne : readSharesBefore shares poolId before inclusive pageSize ≠ [] := by
    intro he
    simp [he] at h
    omega
  exact ⟨_, List.getLast?_eq_some_getLast hne⟩

theorem exists_sharePages_cons (shares : List Share) (poolId : String) (before : DateTime)
    (inclusive : Bool) {pageSize : Nat} (hs : 0 < pageSize) :
    ∃ rest, sharePages shares poolId before inclusive pageSize =
      readSharesBefore shares poolId before inclusive pageSize :: rest := by
  by_cases h : (readSharesBefore shares poolId before inclusive pageSize).length < pageSize
  · exact ⟨[], sharePages_of_lt h⟩
  · obtain ⟨last, hl⟩ := getLast?_of_not_lt hs h
    exact ⟨_, sharePages_of_getLast? h hl⟩

/-- The shares the calculation for a block reads as long as nothing stops it. -/
def blockPages (shares : List Share) (poolId : String) (block : Block) (pageSize : Nat) :
    List (List Share) :=
  sharePages shares poolId block.created true pageSize

theorem flatten_blockPages_sublist (shares : List Share) (poolId : String) (block : Block)
    {pageSize : Nat} (hs : 0 < pageSize) :
    (blockPages shares poolId block pageSize).flatten.Sublist
      (sharesBefore shares poolId block.created true) :=
  flatten_keysetPages_sublist hs (descending_sharesBefore _ _ _ _)

theorem descending_flatten_blockPages (shares : List Share) (poolId : String) (block : Block)
    {pageSize : Nat} (hs : 0 < pageSize) :
    Descending Share.created (blockPages shares poolId block pageSize).flatten :=
  (descending_sharesBefore _ _ _ _).sublist (flatten_blockPages_sublist shares poolId block hs)

/-- The first share of the pages is the newest there is. -/
theorem head?_flatten_sharePages (shares : List Share) (poolId : String) (before : DateTime)
    (inclusive : Bool) {pageSize : Nat} (hs : 0 < pageSize) :
    (sharePages shares poolId before inclusive pageSize).flatten.head? =
      (sharesBefore shares poolId before inclusive).head? := by
  cases hrows : sharesBefore shares poolId before inclusive with
  | nil =>
      have hshort : (readSharesBefore shares poolId before inclusive pageSize).length <
          pageSize := by
        rw [readSharesBefore_eq, hrows, List.take_nil]
        exact hs
      rw [sharePages_of_lt hshort, readSharesBefore_eq, hrows, List.take_nil]
      rfl
  | cons share rows =>
      obtain ⟨rest, hrest⟩ := exists_sharePages_cons shares poolId before inclusive hs
      obtain ⟨n, rfl⟩ := Nat.exists_eq_succ_of_ne_zero hs.ne'
      rw [hrest, readSharesBefore_eq, hrows]
      rfl

theorem mem_of_mem_blockPages {shares : List Share} {poolId : String} {block : Block}
    {pageSize : Nat} (hs : 0 < pageSize) {share : Share}
    (h : share ∈ (blockPages shares poolId block pageSize).flatten) : share ∈ shares :=
  (mem_sharesBefore.mp ((flatten_blockPages_sublist shares poolId block hs).subset h)).1

/-- The rows of the first pages and those of the remaining ones. -/
theorem flatten_take_append_drop {α : Type*} (pages : List (List α)) (k : Nat) :
    (pages.take k).flatten ++ (pages.drop k).flatten = pages.flatten := by
  rw [← List.flatten_append, List.take_append_drop]

theorem flatten_take_sublist {α : Type*} (pages : List (List α)) (k : Nat) :
    (pages.take k).flatten.Sublist pages.flatten :=
  flatten_take_append_drop pages k ▸ List.sublist_append_left _ _

/-- Deleting the shares before a cutoff takes exactly these shares out of the pages. -/
theorem flatten_sharePages_deleteSharesBefore (shares : List Share) (poolId : String)
    (before cutoff : DateTime) (inclusive : Bool) {pageSize : Nat} (hs : 0 < pageSize) :
    (sharePages (deleteSharesBefore shares poolId cutoff) poolId before inclusive
        pageSize).flatten =
      (sharePages shares poolId before inclusive pageSize).flatten.filter fun share =>
        cutoff ≤ share.created := by
  have hrows : sharesBefore (deleteSharesBefore shares poolId cutoff) poolId before inclusive =
      (sharesBefore shares poolId before inclusive).filter fun share => cutoff ≤ share.created := by
    rw [sharesBefore, sharesBefore, ← sortDescending_filter, deleteSharesBefore,
      List.filter_filter, List.filter_filter]
    congr 1
    apply List.filter_congr
    intro share _
    cases inclusive <;> simp [isBefore] <;> grind
  rw [sharePages, hrows, flatten_keysetPages_filter hs cutoff (descending_sharesBefore _ _ _ _)]
  rfl

/-- `LogDiscardedSharesAsync` reads all discarded shares for a log entry. What matters of it is
that its reads take the token. -/
def logDiscardedShares (ct : CancellationToken) (shares : List Share) (poolId : String)
    (pageSize now : Nat) (before : DateTime) : Except Exception Nat :=
  match ct.throwIfCancellationRequested now with
  | .error e => .error e
  | .ok () =>
      let page := readSharesBefore shares poolId before false pageSize
      if page.length < pageSize then .ok (now + 1)
      else match _h : page.getLast? with
        | none => .error .indexOutOfRange
        | some last => logDiscardedShares ct shares poolId pageSize (now + 1) last.created
termination_by (sharesBefore shares poolId before false).length
decreasing_by exact length_sharesBefore_last_lt _h

end Miningcore
