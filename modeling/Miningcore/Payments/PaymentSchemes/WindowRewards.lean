import Miningcore.Payments.PaymentSchemes.WindowCalculation
import Miningcore.Payments.PaymentSchemes.BalanceUpdate
import Mathlib.Algebra.BigOperators.Ring.List

/-!
# Rewards of a score window

What a walk down a list of shares adds to the rewards: their total, their signs,
their addresses, and when a further stretch of shares adds nothing.
-/

namespace Miningcore

open Foundation

/-- The sum of all credited amounts. -/
def creditTotal (credits : List (String × ℚ)) : ℚ := (credits.map Prod.snd).sum

theorem creditTotal_append (l₁ l₂ : List (String × ℚ)) :
    creditTotal (l₁ ++ l₂) = creditTotal l₁ + creditTotal l₂ := by
  simp [creditTotal]

/-- Leaving out the rewards that are not positive leaves the total of nonnegative rewards. -/
theorem creditTotal_filter {entries : List (String × ℚ)} (h : ∀ e ∈ entries, 0 ≤ e.2) :
    creditTotal (entries.filter fun e => 0 < e.2) = creditTotal entries := by
  induction entries with
  | nil => rfl
  | cons e entries ih =>
      have hrest := ih fun e he => h e (List.mem_cons_of_mem _ he)
      rcases (h e List.mem_cons_self).lt_or_eq with hpos | hzero
      · simp only [creditTotal] at hrest
        simp [creditTotal, hpos, hrest]
      · simp only [creditTotal] at hrest
        simp [creditTotal, ← hzero, hrest]

namespace WindowCalculation

variable {handler : PayoutHandler} {window pot : ℚ}

/-- Some contribution of a stretch of shares is worth a positive reward. -/
def Earns (window pot : ℚ) (parts : List (Share × ℚ)) : Prop :=
  ∃ part ∈ parts, 0 < (reward window pot part).2

theorem accumulateAll_of_not_earns {parts : List (Share × ℚ)} (h : ¬Earns window pot parts)
    (rewards : Dictionary String ℚ) :
    rewards.accumulateAll (parts.map (reward window pot)) = rewards := by
  apply Dictionary.accumulateAll_of_not_pos
  intro e he hpos
  obtain ⟨part, hpart, rfl⟩ := List.mem_map.mp he
  exact h ⟨part, hpart, hpos⟩

/-- A stretch that earns something raises the total. -/
theorem total_lt_of_earns {parts : List (Share × ℚ)} (h : Earns window pot parts)
    (rewards : Dictionary String ℚ) :
    rewards.total < (rewards.accumulateAll (parts.map (reward window pot))).total := by
  obtain ⟨part, hpart, hpos⟩ := h
  exact rewards.total_lt_accumulateAll ⟨_, List.mem_map_of_mem hpart, hpos⟩

/-- The addresses with a recorded difficulty are those of the shares. -/
theorem mem_keys_foldl_addDifficulty {l : List Share} {shares : Dictionary String ℚ}
    {address : String} :
    address ∈ (l.foldl (addDifficulty handler) shares).keys ↔
      address ∈ shares.keys ∨ address ∈ l.map Share.miner := by
  induction l generalizing shares with
  | nil => simp
  | cons share l ih =>
      rw [List.foldl_cons, ih, addDifficulty, Dictionary.mem_keys_accumulate, List.map_cons,
        List.mem_cons]
      tauto

/-- Every rewarded address has a recorded difficulty, if those were given before the walk have. -/
theorem keys_rewards_fill {st : RewardState} (l : List Share)
    (h : ∀ address ∈ st.rewards.keys,
      address ∈ st.shares.keys ∨
        address ∈ ((windowScan handler window).consume st.accumulatedScore l).map Share.miner) :
    ∀ address ∈ (fill handler window pot st l).rewards.keys,
      address ∈ (fill handler window pot st l).shares.keys := by
  intro address hmem
  apply mem_keys_foldl_addDifficulty.mpr
  rcases Dictionary.mem_keys_accumulateAll hmem with hkeys | hparts
  · exact h address hkeys
  · right
    rw [← map_fst_cappedParts, List.map_map]
    rwa [List.map_map] at hparts

/-- With a positive window and nothing negative to distribute, the walk hands out the part of the
pot that its scores fill of the window. -/
theorem total_rewards_fill (handler : PayoutHandler) (hw : 0 < window) (hp : 0 ≤ pot)
    (st : RewardState)
    (hacc : st.accumulatedScore ≤ window) (l : List Share) :
    (fill handler window pot st l).rewards.total = st.rewards.total +
      (min (st.accumulatedScore + (l.map (score handler)).sum) window - st.accumulatedScore) *
        pot / window := by
  have hnonneg := cappedParts_nonneg (l := l) (fun a _ => score_nonneg handler a) hacc
  have hrewards : ∀ e ∈ (cappedParts (score handler) window st.accumulatedScore l).map
      (reward window pot), 0 ≤ e.2 := by
    intro e he
    obtain ⟨part, hpart, rfl⟩ := List.mem_map.mp he
    exact div_nonneg (mul_nonneg (hnonneg part hpart) hp) hw.le
  have hsum := sum_cappedParts_eq_min (l := l) (fun a _ => score_nonneg handler a) hacc
  have hfactor : (((cappedParts (score handler) window st.accumulatedScore l).map
      (reward window pot)).map Prod.snd).sum =
      ((cappedParts (score handler) window st.accumulatedScore l).map Prod.snd).sum *
        pot / window := by
    rw [List.map_map, mul_div_assoc, ← List.sum_map_mul_right]
    simp only [Function.comp_def, reward, mul_div_assoc]
  calc (fill handler window pot st l).rewards.total
      = st.rewards.total + (((cappedParts (score handler) window st.accumulatedScore l).map
          (reward window pot)).map Prod.snd).sum :=
        Dictionary.total_accumulateAll_of_nonneg _ hrewards
    _ = _ := by rw [hfactor, ← hsum, add_sub_cancel_left]

/-- A walk only depends on the rows it consumes. -/
theorem fill_congr {handler : PayoutHandler} {window pot : ℚ} {st : RewardState}
    {l₁ l₂ : List Share}
    (h : (windowScan handler window).consume st.accumulatedScore l₁ =
      (windowScan handler window).consume st.accumulatedScore l₂) :
    fill handler window pot st l₁ = fill handler window pot st l₂ := by
  have hparts : cappedParts (score handler) window st.accumulatedScore l₁ =
      cappedParts (score handler) window st.accumulatedScore l₂ := by
    rw [← cappedParts_consume, h, cappedParts_consume]
  have hstops : (windowScan handler window).stops st.accumulatedScore l₁ =
      (windowScan handler window).stops st.accumulatedScore l₂ := by
    rw [← Scan.stops_consume, h, Scan.stops_consume]
  simp only [fill, hparts, hstops, h]

/-- Whether a walk throws only depends on its first row. -/
theorem thrown_congr {handler : PayoutHandler} {window pot acc : ℚ}
    {l₁ l₂ : List Share} (h : l₁.head? = l₂.head?) :
    thrown handler window pot acc l₁ = thrown handler window pot acc l₂ := by
  cases l₁ <;> cases l₂ <;> simp_all [thrown]

/-! ## Stretches that earn nothing -/

/-- Below a positive window, a stretch earns something exactly when it has a positive score. -/
theorem earns_iff_of_pos (hp : 0 < pot) {acc : ℚ} (hacc : acc < window) (hw : 0 < window)
    (l : List Share) :
    Earns window pot (cappedParts (score handler) window acc l) ↔
      ∃ share ∈ l, 0 < score handler share := by
  rw [← exists_cappedParts_pos_iff (fun a _ => score_nonneg handler a) hacc, Earns]
  refine exists_congr fun part => and_congr_right fun _ => ?_
  rw [reward, mul_div_assoc]
  exact mul_pos_iff_of_pos_right (div_pos hp hw)

/-- With nothing to distribute, no stretch below a positive window earns anything. -/
theorem not_earns_of_nonpos (hp : pot ≤ 0) {acc : ℚ} (hacc : acc ≤ window) (hw : 0 < window)
    (l : List Share) : ¬Earns window pot (cappedParts (score handler) window acc l) := by
  rintro ⟨part, hpart, hpos⟩
  have hnonneg := cappedParts_nonneg (fun a _ => score_nonneg handler a) hacc part hpart
  have hle : part.2 * pot / window ≤ 0 :=
    div_nonpos_of_nonpos_of_nonneg (mul_nonpos_of_nonneg_of_nonpos hnonneg hp) hw.le
  exact hpos.not_ge hle

/-- A window below zero is filled by the first share, which then gets the whole pot. -/
theorem earns_iff_of_neg (hw : window < 0) (l : List Share) :
    Earns window pot (cappedParts (score handler) window 0 l) ↔ l ≠ [] ∧ 0 < pot := by
  cases l with
  | nil => simp [Earns, cappedParts]
  | cons share l =>
      have hc : window ≤ 0 + score handler share :=
        hw.le.trans (add_nonneg le_rfl (score_nonneg handler share))
      have hreward : (window - 0) * pot / window = pot := by
        rw [sub_zero, mul_div_cancel_left₀ _ hw.ne]
      simp only [Earns, cappedParts, if_pos hc, List.mem_singleton, exists_eq_left, reward,
        hreward, ne_eq,
        List.cons_ne_nil, not_false_eq_true, true_and]

/-- The rows behind a position of the walk that the calculation may not leave out. -/
def Owed (handler : PayoutHandler) (window pot : ℚ) (rows : List Share) : Prop :=
  if window ≤ 0 then rows ≠ [] ∧ (window = 0 ∨ 0 < pot)
  else if 0 < pot then ∃ share ∈ rows, 0 < score handler share
  else ∃ share, rows.head? = some share ∧ score handler share < window

/-- At the start of the walk, rows are owed when they earn something or throw. -/
theorem owed_iff (rows : List Share) :
    Owed handler window pot rows ↔
      (thrown handler window pot 0 rows).isSome = true ∨
        Earns window pot (cappedParts (score handler) window 0 rows) := by
  rcases lt_trichotomy window 0 with hw | rfl | hw
  · have hnone : thrown handler window pot 0 rows = none := by
      cases rows with
      | nil => rfl
      | cons share rows =>
          have hle : window ≤ score handler share := hw.le.trans (score_nonneg handler share)
          simp [thrown, hw.ne, hle]
    simp [Owed, hw.le, hw.ne, hnone, earns_iff_of_neg hw]
  · have hzero : ¬Earns 0 pot (cappedParts (score handler) 0 0 rows) := by
      rintro ⟨part, _, hpos⟩
      simp [reward] at hpos
    cases rows <;> simp [Owed, hzero, thrown]
  · by_cases hp : 0 < pot
    · have hnone : thrown handler window pot 0 rows = none := by
        cases rows <;> simp [thrown, hw.ne', hp.not_ge]
      simp [Owed, hw.not_ge, hp, hnone, earns_iff_of_pos hp hw hw]
    · have hle := not_lt.mp hp
      simp only [Owed, hw.not_ge, if_false, hp, not_earns_of_nonpos hle hw.le hw, or_false]
      cases rows with
      | nil => simp [thrown]
      | cons share rows => simp [thrown, hw.ne', hle]

/-- Whether leaving out the second of two stretches changes what a walk down both hands out. -/
def Truncates (handler : PayoutHandler) (window pot : ℚ) (first rest : List Share) : Prop :=
  (first = [] ∨ (0 < pot ∧ (first.map (score handler)).sum < window)) ∧
    Owed handler window pot rest

theorem thrown_append {acc : ℚ} {l₁ : List Share} (h : l₁ ≠ []) (l₂ : List Share) :
    thrown handler window pot acc (l₁ ++ l₂) = thrown handler window pot acc l₁ := by
  cases l₁ with
  | nil => exact absurd rfl h
  | cons share l => rfl

theorem rewards_fill_append {st : RewardState} {l₁ : List Share}
    (h : (windowScan handler window).stops st.accumulatedScore l₁ = false) (l₂ : List Share) :
    (fill handler window pot st (l₁ ++ l₂)).rewards =
      (fill handler window pot st l₁).rewards.accumulateAll
        ((cappedParts (score handler) window (st.accumulatedScore + (l₁.map (score handler)).sum)
          l₂).map (reward window pot)) := by
  simp only [fill, cappedParts_append l₂ h, List.map_append, Dictionary.accumulateAll_append]

theorem stops_windowScan_eq_false {first : List Share} :
    (windowScan handler window).stops 0 first = false ↔
      first = [] ∨ (first.map (score handler)).sum < window := by
  rw [← Bool.not_eq_true, stops_capScan_iff fun a _ => score_nonneg handler a, zero_add]
  by_cases h : first = [] <;> simp [h]

/-- A stretch leaves room in the window and throws nothing, but the calculation may not stop
behind it. -/
theorem truncates_iff (first rest : List Share) :
    Truncates handler window pot first rest ↔
      thrown handler window pot 0 first = none ∧
      (windowScan handler window).stops 0 first = false ∧
      ((thrown handler window pot 0 (first ++ rest)).isSome = true ∨
        Earns window pot
          (cappedParts (score handler) window (0 + (first.map (score handler)).sum) rest)) := by
  rw [stops_windowScan_eq_false]
  rcases first with _ | ⟨share, first⟩
  · simp [Truncates, owed_iff, thrown]
  · rw [thrown_append (List.cons_ne_nil _ _), Truncates, zero_add]
    simp only [reduceCtorEq, false_or]
    have hsum : 0 ≤ (first.map (score handler)).sum :=
      List.sum_nonneg (by simp [score_nonneg])
    have hscore := score_nonneg handler share
    rw [List.map_cons, List.sum_cons]
    constructor
    · rintro ⟨⟨hp, hlt⟩, howed⟩
      have hw : 0 < window := (add_nonneg hscore hsum).trans_lt hlt
      refine ⟨by simp [thrown, hw.ne', hp.not_ge], hlt, Or.inr ?_⟩
      rw [earns_iff_of_pos hp hlt hw]
      simpa [Owed, hw.not_ge, hp] using howed
    · rintro ⟨hnone, hlt, hearns⟩
      have hw : 0 < window := (add_nonneg hscore hsum).trans_lt hlt
      have hhead : score handler share < window := (le_add_of_nonneg_right hsum).trans_lt hlt
      have hp : 0 < pot := by
        by_contra hp
        simp [thrown, hw.ne', not_lt.mp hp, hhead] at hnone
      refine ⟨⟨hp, hlt⟩, ?_⟩
      rw [hnone] at hearns
      simp only [Option.isSome_none, Bool.false_eq_true, false_or] at hearns
      rw [earns_iff_of_pos hp hlt hw] at hearns
      simpa [Owed, hw.not_ge, hp] using hearns

/-- Leaving out more than a stretch that is owed something changes the rewards as well. -/
theorem Truncates.append_left {first mid rest : List Share}
    (h : Truncates handler window pot (first ++ mid) rest) :
    Truncates handler window pot first (mid ++ rest) := by
  obtain ⟨hroom, howed⟩ := h
  have hmid : 0 ≤ (mid.map (score handler)).sum := List.sum_nonneg (by simp [score_nonneg])
  have hfirst : 0 ≤ (first.map (score handler)).sum := List.sum_nonneg (by simp [score_nonneg])
  rw [List.append_eq_nil_iff, List.map_append, List.sum_append] at hroom
  constructor
  · rcases hroom with ⟨hnil, _⟩ | ⟨hp, hlt⟩
    · exact Or.inl hnil
    · exact Or.inr ⟨hp, (le_add_of_nonneg_right hmid).trans_lt hlt⟩
  · rw [Owed] at howed ⊢
    split
    · rename_i hw
      rw [if_pos hw] at howed
      exact ⟨by simp [howed.1], howed.2⟩
    · rename_i hw
      rw [if_neg hw] at howed
      split
      · rename_i hp
        rw [if_pos hp] at howed
        obtain ⟨share, hmem, hpos⟩ := howed
        exact ⟨share, List.mem_append_right mid hmem, hpos⟩
      · rename_i hp
        rw [if_neg hp] at howed
        have hnil : mid = [] := by
          rcases hroom with ⟨_, hnil⟩ | ⟨hpos, _⟩
          · exact hnil
          · exact absurd hpos hp
        rwa [hnil, List.nil_append]

/-- Leaving out a stretch that is not owed anything leaves the rewards as they are. -/
theorem rewards_fill_of_not_truncates (st : RewardState) (hst : st.accumulatedScore = 0)
    {first rest : List Share} (hnone : thrown handler window pot 0 first = none)
    (hstops : (windowScan handler window).stops 0 first = false)
    (h : ¬Truncates handler window pot first rest) :
    thrown handler window pot 0 (first ++ rest) = none ∧
      (fill handler window pot st (first ++ rest)).rewards =
        (fill handler window pot st first).rewards := by
  rw [truncates_iff] at h
  have hrest := fun hr => h ⟨hnone, hstops, hr⟩
  refine ⟨Option.not_isSome_iff_eq_none.mp fun hsome => hrest (Or.inl hsome), ?_⟩
  rw [rewards_fill_append (hst ▸ hstops), hst]
  exact accumulateAll_of_not_earns (fun hearns => hrest (Or.inr hearns)) _

/-- Leaving out a stretch that is owed something loses a part of the rewards. -/
theorem total_lt_of_truncates (st : RewardState) (hst : st.accumulatedScore = 0)
    {first rest : List Share} (h : Truncates handler window pot first rest)
    (hnone : thrown handler window pot 0 (first ++ rest) = none) :
    (fill handler window pot st first).rewards.total <
      (fill handler window pot st (first ++ rest)).rewards.total := by
  obtain ⟨_, hstops, hrest⟩ := (truncates_iff first rest).mp h
  rw [hnone, Option.isSome_none] at hrest
  simp only [Bool.false_eq_true, false_or] at hrest
  rw [rewards_fill_append (hst ▸ hstops), hst]
  exact total_lt_of_earns hrest _

/-- A walk that starts from nonnegative rewards keeps them so. -/
theorem values_fill {st : RewardState} (h : ∀ e ∈ st.rewards.entries, 0 ≤ e.2) (l : List Share) :
    ∀ e ∈ (fill handler window pot st l).rewards.entries, 0 ≤ e.2 :=
  Dictionary.values_accumulateAll _ h

/-- A walk down two stretches credits what a walk down the first credits, exactly when leaving out
the second changes nothing. -/
theorem credits_fill_append_iff {st : RewardState} (hst : st.accumulatedScore = 0)
    (hvalues : ∀ e ∈ st.rewards.entries, 0 ≤ e.2) {first rest : List Share}
    (hnone : thrown handler window pot 0 first = none) :
    (thrown handler window pot 0 (first ++ rest) = none ∧
        ((fill handler window pot st (first ++ rest)).rewards.entries.filter fun e => 0 < e.2) =
          (fill handler window pot st first).rewards.entries.filter fun e => 0 < e.2) ↔
      ¬Truncates handler window pot first rest := by
  constructor
  · rintro ⟨hall, heq⟩ htrunc
    have hlt := total_lt_of_truncates st hst htrunc hall
    have htotal := congrArg creditTotal heq
    rw [creditTotal_filter (values_fill hvalues _), creditTotal_filter (values_fill hvalues _)]
      at htotal
    exact hlt.ne htotal.symm
  · intro hnot
    cases hstops : (windowScan handler window).stops 0 first with
    | false =>
        obtain ⟨hall, hrewards⟩ := rewards_fill_of_not_truncates st hst hnone hstops hnot
        exact ⟨hall, by rw [hrewards]⟩
    | true =>
        have hne : first ≠ [] := fun h => by simp [h] at hstops
        refine ⟨(thrown_append hne rest).trans hnone, ?_⟩
        have hconsume : (windowScan handler window).consume st.accumulatedScore (first ++ rest) =
            (windowScan handler window).consume st.accumulatedScore first := by
          rw [Scan.consume_append, hst, hstops, if_pos rfl]
        rw [fill_congr hconsume]

/-! ## The cutoff -/

/-- The creation time of the share whose score fills the window. -/
def windowCutoff (handler : PayoutHandler) (window : ℚ) : ℚ → List Share → Option DateTime
  | _, [] => none
  | acc, share :: rest =>
      if window ≤ acc + score handler share then some share.created
      else windowCutoff handler window (acc + score handler share) rest

theorem windowCutoff_eq (acc : ℚ) (l : List Share) :
    windowCutoff handler window acc l =
      if (windowScan handler window).stops acc l then
        ((windowScan handler window).consume acc l).getLast?.map Share.created
      else none := by
  induction l generalizing acc with
  | nil => rfl
  | cons share l ih =>
      by_cases hc : window ≤ acc + score handler share
      · simp [windowCutoff, Scan.stops_cons, Scan.consume_cons, hc]
      · rw [windowCutoff, if_neg hc, ih]
        simp only [Scan.stops_cons, Scan.consume_cons, capScan_stop, capScan_step, hc, decide_false,
          Bool.false_or, Bool.false_eq_true, if_false]
        split
        · rename_i hstops
          obtain ⟨a, l', hl'⟩ := List.exists_cons_of_ne_nil
            ((windowScan handler window).consume_ne_nil_of_stops hstops)
          rw [hl', List.getLast?_cons_cons]
        · rfl

theorem exists_of_windowCutoff {acc : ℚ} {l : List Share} {cutoff : DateTime}
    (h : windowCutoff handler window acc l = some cutoff) :
    ∃ share ∈ l, share.created = cutoff := by
  induction l generalizing acc with
  | nil => cases h
  | cons share l ih =>
      rw [windowCutoff] at h
      split at h
      · exact ⟨share, List.mem_cons_self, Option.some.inj h⟩
      · obtain ⟨other, hmem, hcreated⟩ := ih h
        exact ⟨other, List.mem_cons_of_mem _ hmem, hcreated⟩

/-- The shares from a bound upwards have the cutoff of all the shares, if it is not below the
bound. -/
theorem windowCutoff_append {bound : DateTime} {first rest : List Share}
    (hfirst : ∀ share ∈ first, bound ≤ share.created)
    (hrest : ∀ share ∈ rest, share.created < bound) (acc : ℚ) :
    windowCutoff handler window acc first =
      (windowCutoff handler window acc (first ++ rest)).filter fun cutoff => bound ≤ cutoff := by
  induction first generalizing acc with
  | nil =>
      rw [List.nil_append]
      cases h : windowCutoff handler window acc rest with
      | none => rfl
      | some cutoff =>
          obtain ⟨share, hmem, rfl⟩ := exists_of_windowCutoff h
          simp [windowCutoff, Option.filter, hrest share hmem]
  | cons share first ih =>
      rw [List.cons_append, windowCutoff, windowCutoff]
      split
      · simp [Option.filter, hfirst share List.mem_cons_self]
      · exact ih (fun other hother => hfirst other (List.mem_cons_of_mem _ hother)) _

theorem shareCutOffDate_fill (handler : PayoutHandler) (window pot : ℚ) {st : RewardState}
    (h : st.shareCutOffDate = none) (l : List Share) :
    (fill handler window pot st l).shareCutOffDate =
      windowCutoff handler window st.accumulatedScore l := by
  rw [windowCutoff_eq, ← h]
  rfl

end WindowCalculation

end Miningcore
