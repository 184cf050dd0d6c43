import Miningcore.Payments.PaymentSchemes.ShareReading

/-!
# The page loop

All reward calculations run the same loop: read a page unless they are done or
the token is cancelled, process it, stop behind a short page. A read throws when
the token is cancelled, the test of the loop does not. A calculation that ends
without an exception has therefore processed all pages, or those before one test.
-/

namespace Miningcore

open Foundation ShareRepository

namespace CancellationToken

/-- A token that is not cancelled yet was not cancelled before. -/
theorem isCancellationRequested_of_le {ct : CancellationToken} {t₁ t₂ : Nat} (h : t₁ ≤ t₂)
    (h₂ : ct.isCancellationRequested t₂ = false) : ct.isCancellationRequested t₁ = false := by
  obtain ⟨_ | tick⟩ := ct
  · rfl
  · simp only [isCancellationRequested, decide_eq_false_iff_not] at h₂ ⊢
    omega

theorem throwIfCancellationRequested_eq_ok {ct : CancellationToken} {now : Nat} :
    ct.throwIfCancellationRequested now = .ok () ↔ ct.isCancellationRequested now = false := by
  cases h : ct.isCancellationRequested now <;> simp [throwIfCancellationRequested, h]

end CancellationToken

namespace PageLoop

section Loop

variable {σ : Type} (step : σ → List Share → Except Exception σ) (isDone : σ → Bool)

/-- The loop, with the body `step`. The token is looked at before a page is read and taken by the
read itself; every share of a page is a tick. -/
def readPages (ct : CancellationToken) (shares : List Share) (poolId : String) (pageSize : Nat)
    (now : Nat) (before : DateTime) (inclusive : Bool) (st : σ) : Except Exception (σ × Nat) :=
  if isDone st || ct.isCancellationRequested now then .ok (st, now)
  else match ct.throwIfCancellationRequested (now + 1) with
    | .error e => .error e
    | .ok () =>
        let page := readSharesBefore shares poolId before inclusive pageSize
        match step st page with
        | .error e => .error e
        | .ok st' =>
            let now' := now + 2 + page.length
            if page.length < pageSize then .ok (st', now')
            else match _h : page.getLast? with
              | none => .error .indexOutOfRange
              | some last => readPages ct shares poolId pageSize now' last.created false st'
termination_by (sharesBefore shares poolId before inclusive).length
decreasing_by exact length_sharesBefore_last_lt _h

/-- The loop over a given list of pages. -/
def scanPages (ct : CancellationToken) (pageSize : Nat) : Nat → σ → List (List Share) →
    Except Exception (σ × Nat)
  | now, st, [] => .ok (st, now)
  | now, st, page :: rest =>
      if isDone st || ct.isCancellationRequested now then .ok (st, now)
      else match ct.throwIfCancellationRequested (now + 1) with
        | .error e => .error e
        | .ok () =>
            match step st page with
            | .error e => .error e
            | .ok st' =>
                if page.length < pageSize then .ok (st', now + 2 + page.length)
                else scanPages ct pageSize (now + 2 + page.length) st' rest

/-- The loop without a token. -/
def foldPages : σ → List (List Share) → Except Exception σ
  | st, [] => .ok st
  | st, page :: rest =>
      if isDone st then .ok st
      else match step st page with
        | .error e => .error e
        | .ok st' => foldPages st' rest

variable {step isDone}

/-- The loop goes through the pages in order. -/
theorem readPages_eq_scanPages (ct : CancellationToken) (shares : List Share) (poolId : String)
    {pageSize : Nat} (hs : 0 < pageSize) (now : Nat) (before : DateTime) (inclusive : Bool)
    (st : σ) :
    readPages step isDone ct shares poolId pageSize now before inclusive st =
      scanPages step isDone ct pageSize now st
        (sharePages shares poolId before inclusive pageSize) := by
  fun_induction readPages step isDone ct shares poolId pageSize now before inclusive st with
  | case1 now before inclusive st hstop =>
      obtain ⟨rest, hrest⟩ := exists_sharePages_cons shares poolId before inclusive hs
      rw [hrest, scanPages, if_pos hstop]
  | case2 now before inclusive st hstop e hcancel =>
      obtain ⟨rest, hrest⟩ := exists_sharePages_cons shares poolId before inclusive hs
      rw [hrest, scanPages, if_neg hstop, hcancel]
  | case3 now before inclusive st hstop hcancel page e hpage =>
      obtain ⟨rest, hrest⟩ := exists_sharePages_cons shares poolId before inclusive hs
      rw [hrest, scanPages, if_neg hstop, hcancel]
      simp only [page] at hpage
      simp only [hpage]
  | case4 now before inclusive st hstop hcancel page st' hpage now' hshort =>
      simp only [page] at hpage hshort
      rw [sharePages_of_lt hshort, scanPages, if_neg hstop, hcancel]
      simp only [hpage, hshort, if_true, now', page]
  | case5 now before inclusive st hstop hcancel page st' hpage hfull hnone =>
      obtain ⟨last, hl⟩ := getLast?_of_not_lt hs hfull
      rw [hl] at hnone
      cases hnone
  | case6 now before inclusive st hstop hcancel page st' hpage now' hfull last hl ih =>
      simp only [page] at hpage hfull hl
      rw [sharePages_of_getLast? hfull hl, scanPages, if_neg hstop, hcancel, ih]
      simp only [hpage, hfull, if_false, now', page]

theorem foldPages_done {st : σ} (h : isDone st = true) (pages : List (List Share)) :
    foldPages step isDone st pages = .ok st := by
  cases pages <;> simp [foldPages, h]

theorem scanPages_none {pageSize : Nat} {full : List (List Share)} {short : List Share}
    (hfull : ∀ page ∈ full, page.length = pageSize) (hshort : short.length < pageSize)
    (now : Nat) (st : σ) :
    (scanPages step isDone .none pageSize now st (full ++ [short])).map Prod.fst =
      foldPages step isDone st (full ++ [short]) := by
  induction full generalizing now st with
  | nil =>
      cases hd : isDone st with
      | true => simp [scanPages, hd, foldPages, Except.map]
      | false =>
          simp only [List.nil_append, scanPages, foldPages, hd, Bool.false_or,
            CancellationToken.isCancellationRequested_none, Bool.false_eq_true, if_false,
            CancellationToken.throwIfCancellationRequested_none, hshort, if_true]
          cases step st short <;> rfl
  | cons page full ih =>
      have hlen : ¬page.length < pageSize := by simp [hfull page List.mem_cons_self]
      cases hd : isDone st with
      | true => simp [scanPages, hd, foldPages, Except.map]
      | false =>
          simp only [List.cons_append, scanPages, foldPages, hd, Bool.false_or,
            CancellationToken.isCancellationRequested_none, Bool.false_eq_true, if_false,
            CancellationToken.throwIfCancellationRequested_none, hlen]
          cases step st page with
          | error e => rfl
          | ok st' => exact ih (fun p hp => hfull p (List.mem_cons_of_mem _ hp)) _ st'

/-- Whatever the token does, an exception of the loop is a cancellation or comes from a page. -/
theorem scanPages_error {pageSize now : Nat} {ct : CancellationToken} {st : σ}
    {pages : List (List Share)} {e : Exception}
    (h : scanPages step isDone ct pageSize now st pages = .error e) :
    e = .operationCanceled ∨ foldPages step isDone st pages = .error e := by
  induction pages generalizing now st with
  | nil => cases h
  | cons page rest ih =>
      rw [scanPages] at h
      split at h
      · cases h
      · rename_i hgo
        have hdone : isDone st = false := by
          rw [← Bool.not_eq_true]
          exact fun hd => hgo (by simp [hd])
        split at h
        · rename_i e' hcancel
          left
          rw [CancellationToken.throwIfCancellationRequested] at hcancel
          split at hcancel
          · cases hcancel
            cases h
            rfl
          · cases hcancel
        · rw [foldPages, if_neg (by simp [hdone])]
          split at h
          · cases h
            exact Or.inr rfl
          · split at h
            · cases h
            · exact ih h

/-- Without a cancellation the loop processes the pages one after the other. -/
theorem readPages_none (step : σ → List Share → Except Exception σ) (isDone : σ → Bool)
    (shares : List Share) (poolId : String) {pageSize : Nat}
    (hs : 0 < pageSize) (now : Nat) (before : DateTime) (inclusive : Bool) (st : σ) :
    (readPages step isDone .none shares poolId pageSize now before inclusive st).map Prod.fst =
      foldPages step isDone st (sharePages shares poolId before inclusive pageSize) := by
  obtain ⟨full, short, hpages, hfull, hshort⟩ :=
    keysetPages_shape Share.created hs (sharesBefore shares poolId before inclusive)
  rw [readPages_eq_scanPages _ _ _ hs, sharePages, hpages, scanPages_none hfull hshort]

theorem exists_readPages_none_iff {shares : List Share} {poolId : String} {pageSize : Nat}
    (now : Nat) (hs : 0 < pageSize) {before : DateTime} {inclusive : Bool} {st st' : σ} :
    (∃ n, readPages step isDone .none shares poolId pageSize now before inclusive st =
        .ok (st', n)) ↔
      foldPages step isDone st (sharePages shares poolId before inclusive pageSize) = .ok st' := by
  rw [← readPages_none step isDone shares poolId hs now before inclusive st]
  cases readPages step isDone .none shares poolId pageSize now before inclusive st with
  | error e => simp [Except.map]
  | ok result => simp [Except.map, Prod.ext_iff]

theorem readPages_none_eq_error_iff {shares : List Share} {poolId : String} {pageSize : Nat}
    (now : Nat) (hs : 0 < pageSize) {before : DateTime} {inclusive : Bool} {st : σ}
    {e : Exception} :
    readPages step isDone .none shares poolId pageSize now before inclusive st = .error e ↔
      foldPages step isDone st (sharePages shares poolId before inclusive pageSize) =
        .error e := by
  rw [← readPages_none step isDone shares poolId hs now before inclusive st]
  cases readPages step isDone .none shares poolId pageSize now before inclusive st with
  | error e => simp [Except.map]
  | ok result => simp [Except.map]

end Loop

/-! ## Interrupted loops -/

/-- The tick of the test before the page with index `k`. -/
def testTick (pageSize start k : Nat) : Nat := start + k * (pageSize + 2)

/-- The test before the page with index `k` is the first to see the token: it is cancelled there,
and the reads of the pages before did not see it. -/
def SeenAtTest (ct : CancellationToken) (pageSize start k : Nat) : Prop :=
  ct.isCancellationRequested (testTick pageSize start k) = true ∧
    ∀ j < k, ct.isCancellationRequested (testTick pageSize start j + 1) = false

@[simp] theorem testTick_zero (pageSize start : Nat) : testTick pageSize start 0 = start := by
  simp [testTick]

theorem testTick_succ (pageSize start k : Nat) :
    testTick pageSize start (k + 1) = testTick pageSize (start + 2 + pageSize) k := by
  simp only [testTick, Nat.add_mul, Nat.one_mul]
  omega

theorem seenAtTest_zero {ct : CancellationToken} {pageSize start : Nat} :
    SeenAtTest ct pageSize start 0 ↔ ct.isCancellationRequested start = true := by
  simp [SeenAtTest]

theorem seenAtTest_succ {ct : CancellationToken} {pageSize start k : Nat} :
    SeenAtTest ct pageSize start (k + 1) ↔
      ct.isCancellationRequested (start + 1) = false ∧
        SeenAtTest ct pageSize (start + 2 + pageSize) k := by
  simp only [SeenAtTest, testTick_succ]
  constructor
  · rintro ⟨hk, hj⟩
    refine ⟨by simpa using hj 0 (Nat.succ_pos k), hk, fun j hlt => ?_⟩
    rw [← testTick_succ]
    exact hj (j + 1) (Nat.succ_lt_succ hlt)
  · rintro ⟨h₀, hk, hj⟩
    refine ⟨hk, fun j hlt => ?_⟩
    cases j with
    | zero => simpa using h₀
    | succ j =>
        rw [testTick_succ]
        exact hj j (Nat.lt_of_succ_lt_succ hlt)

variable {σ : Type} {step : σ → List Share → Except Exception σ} {isDone : σ → Bool}
  {ct : CancellationToken} {pageSize : Nat}

/-- The token is first seen by the test before a page, and the calculation is not done yet. -/
def Interrupted (step : σ → List Share → Except Exception σ) (isDone : σ → Bool)
    (ct : CancellationToken) (pageSize now : Nat) (st : σ) (pages : List (List Share)) (k : Nat)
    (st' : σ) : Prop :=
  k < pages.length ∧ SeenAtTest ct pageSize now k ∧
    foldPages step isDone st (pages.take k) = .ok st' ∧ isDone st' = false

/-- The loop over interrupted pages ends, and nobody learns of it. -/
theorem scanPages_of_interrupted {now : Nat} {st st' : σ} {pages : List (List Share)} {k : Nat}
    (hfull : ∀ page ∈ pages.take k, page.length = pageSize)
    (h : Interrupted step isDone ct pageSize now st pages k st') :
    scanPages step isDone ct pageSize now st pages = .ok (st', testTick pageSize now k) := by
  induction k generalizing now st pages with
  | zero =>
      obtain ⟨hk, hseen, hproc, hdone⟩ := h
      obtain ⟨page, rest, rfl⟩ := List.exists_cons_of_length_pos hk
      rw [seenAtTest_zero] at hseen
      cases hproc
      simp [scanPages, hseen]
  | succ k ih =>
      obtain ⟨hk, hseen, hproc, hdone⟩ := h
      obtain ⟨page, rest, rfl⟩ := List.exists_cons_of_length_pos (Nat.zero_lt_of_lt hk)
      rw [seenAtTest_succ] at hseen
      have hlen : page.length = pageSize := hfull page (by simp)
      have hnow : ct.isCancellationRequested now = false :=
        CancellationToken.isCancellationRequested_of_le (Nat.le_succ now) hseen.1
      have hread := CancellationToken.throwIfCancellationRequested_eq_ok.mpr hseen.1
      have hst : isDone st = false := by
        cases hd : isDone st with
        | false => rfl
        | true =>
            rw [foldPages_done hd] at hproc
            cases hproc
            exact hd.symm.trans hdone
      rw [List.take_succ_cons, foldPages, if_neg (by simp [hst])] at hproc
      cases hpage : step st page with
      | error e => simp [hpage] at hproc
      | ok st₁ =>
          simp only [hpage] at hproc
          have hrest := ih (fun p hp => hfull p (List.mem_cons_of_mem _ hp))
            ⟨Nat.lt_of_succ_lt_succ hk, hseen.2, hproc, hdone⟩
          simp [scanPages, hst, hnow, hread, hpage, hlen, hrest, testTick_succ]

/-- A loop that does not enter its body is finished or interrupted. -/
theorem processed_or_interrupted {now : Nat} {st : σ} {pages : List (List Share)}
    (hstop : (isDone st || ct.isCancellationRequested now) = true) (hne : pages ≠ []) :
    foldPages step isDone st pages = .ok st ∨
      ∃ k, Interrupted step isDone ct pageSize now st pages k st := by
  cases hd : isDone st with
  | true => exact Or.inl (foldPages_done hd pages)
  | false =>
      have hseen : ct.isCancellationRequested now = true := by simpa [hd] using hstop
      exact Or.inr ⟨0, List.length_pos_of_ne_nil hne, seenAtTest_zero.mpr hseen, rfl, hd⟩

/-- A loop that ends has processed all pages, or was interrupted. -/
theorem scanPages_ok {full : List (List Share)} {short : List Share}
    (hfull : ∀ page ∈ full, page.length = pageSize) (hshort : short.length < pageSize)
    {now n : Nat} {st st' : σ}
    (h : scanPages step isDone ct pageSize now st (full ++ [short]) = .ok (st', n)) :
    foldPages step isDone st (full ++ [short]) = .ok st' ∨
      ∃ k, Interrupted step isDone ct pageSize now st (full ++ [short]) k st' := by
  induction full generalizing now st with
  | nil =>
      rw [List.nil_append, scanPages] at h
      split at h
      · rename_i hstop
        cases h
        exact processed_or_interrupted hstop (by simp)
      · rename_i hgo
        split at h
        · cases h
        · split at h
          · cases h
          · rename_i st₁ hpage
            cases h
            have hst : isDone st = false := (Bool.or_eq_false_iff.mp (by simpa using hgo)).1
            exact Or.inl (by simp [foldPages, hst, hpage])
  | cons page full ih =>
      have hlen : page.length = pageSize := hfull page List.mem_cons_self
      rw [List.cons_append, scanPages] at h
      split at h
      · rename_i hstop
        cases h
        exact processed_or_interrupted hstop (by simp)
      · rename_i hgo
        split at h
        · cases h
        · rename_i hread
          split at h
          · cases h
          · rename_i st₁ hpage
            have hst : isDone st = false := (Bool.or_eq_false_iff.mp (by simpa using hgo)).1
            have hstep : ∀ rest, foldPages step isDone st (page :: rest) =
                foldPages step isDone st₁ rest := fun rest => by
              simp [foldPages, hst, hpage]
            rw [if_neg (by simp [hlen])] at h
            rw [List.cons_append, hstep]
            rcases ih (fun p hp => hfull p (List.mem_cons_of_mem _ hp)) h with hall | ⟨k, hk⟩
            · exact Or.inl hall
            · obtain ⟨hlt, hseen, hproc, hdone⟩ := hk
              rw [hlen] at hseen
              refine Or.inr ⟨k + 1, by simpa using hlt, ?_, ?_, hdone⟩
              · exact seenAtTest_succ.mpr
                  ⟨CancellationToken.throwIfCancellationRequested_eq_ok.mp hread, hseen⟩
              · rw [List.take_succ_cons, hstep]
                exact hproc

/-! ## The loop over the pages of a block -/

variable {shares : List Share} {poolId : String} {before : DateTime} {inclusive : Bool} {now : Nat}
  {st st' : σ}

theorem length_page_of_interrupted (hs : 0 < pageSize) {k : Nat}
    (hk : k < (sharePages shares poolId before inclusive pageSize).length) :
    ∀ page ∈ (sharePages shares poolId before inclusive pageSize).take k,
      page.length = pageSize := by
  obtain ⟨full, short, hpages, hfull, _⟩ :=
    keysetPages_shape Share.created hs (sharesBefore shares poolId before inclusive)
  rw [sharePages, hpages] at hk ⊢
  have hle : k ≤ full.length := by
    rw [List.length_append, List.length_singleton] at hk
    omega
  rw [List.take_append_of_le_length hle]
  exact fun page hpage => hfull page (List.mem_of_mem_take hpage)

theorem readPages_of_interrupted (hs : 0 < pageSize) {k : Nat}
    (h : Interrupted step isDone ct pageSize now st
      (sharePages shares poolId before inclusive pageSize) k st') :
    readPages step isDone ct shares poolId pageSize now before inclusive st =
      .ok (st', testTick pageSize now k) := by
  rw [readPages_eq_scanPages _ _ _ hs]
  exact scanPages_of_interrupted (length_page_of_interrupted hs h.1) h

theorem readPages_ok (hs : 0 < pageSize) {n : Nat}
    (h : readPages step isDone ct shares poolId pageSize now before inclusive st = .ok (st', n)) :
    foldPages step isDone st (sharePages shares poolId before inclusive pageSize) = .ok st' ∨
      ∃ k, Interrupted step isDone ct pageSize now st
        (sharePages shares poolId before inclusive pageSize) k st' := by
  obtain ⟨full, short, hpages, hfull, hshort⟩ :=
    keysetPages_shape Share.created hs (sharesBefore shares poolId before inclusive)
  rw [readPages_eq_scanPages _ _ _ hs, sharePages, hpages] at h
  rw [sharePages, hpages]
  exact scanPages_ok hfull hshort h

end PageLoop

end Miningcore
