import Mathlib.Data.List.Chain
import Mathlib.Data.List.MinMax
import Miningcore.Foundation.RecentKeys

/-!
# Light caches of the DAG algorithms

The caches of a few epochs are kept, and the next one is generated ahead. A cache that
is asked for is returned as long as it is kept; the one that was not used for the
longest time makes room for another.

## Implementation notes

The body of the lock is one step, with the time it reads. A cache is named by the number
of those that were made before it. What a cache generates is left out.

## Main results

* `run_caches`
* `run_cache_held`
* `ascending_run`
-/

namespace Miningcore.LightCaches

open Foundation

structure Cache where
  id : ℕ
  epoch : ℕ
  lastUsed : ℕ

structure EthashLight where
  numCaches : ℕ
  caches : List (ℕ × Cache) := []
  future : Option Cache := none
  created : ℕ := 0
  disposed : List ℕ := []

/-! ## Epochs -/

/-- The class of the Ethash variants and those of ProgPow, by the length of an epoch. -/
def epochOf (epochLength block : ℕ) : ℕ := block / epochLength

def EtchashLight.epochOf (hardForkBlock block : ℕ) : ℕ :=
  block / if hardForkBlock ≤ block then 60000 else 30000

/-! ## Looking a cache up -/

/-- The oldest cache and the entries without it. There is none in an empty dictionary. -/
def evictOne (caches : List (ℕ × Cache)) : Option (Cache × List (ℕ × Cache)) :=
  match (caches.map Prod.snd).argmin Cache.lastUsed with
  | none => none
  | some toEvict =>
      match caches.find? fun pair => pair.2.id == toEvict.id with
      | none => none
      | some (key, _) => some (toEvict, caches.filter fun pair => pair.1 != key)

theorem length_of_evictOne {caches rest : List (ℕ × Cache)} {cache : Cache}
    (h : evictOne caches = some (cache, rest)) : rest.length < caches.length := by
  rw [evictOne] at h
  split at h
  · cases h
  · split at h
    · cases h
    · rename_i key _ hfind
      cases h
      apply List.length_filter_lt_length_iff_exists.mpr
      exact ⟨_, List.mem_of_find?_eq_some hfind, by simp⟩

/-- The entries and the caches that are disposed once the limit is not reached. -/
def evictWhile (numCaches : ℕ) (caches : List (ℕ × Cache)) (disposed : List ℕ) :
    List (ℕ × Cache) × List ℕ :=
  if numCaches ≤ caches.length then
    match _h : evictOne caches with
    | none => (caches, disposed)
    | some (cache, rest) => evictWhile numCaches rest (cache.id :: disposed)
  else (caches, disposed)
termination_by caches.length
decreasing_by exact length_of_evictOne _h

namespace EthashLight

def limit (light : EthashLight) : ℕ := if light.numCaches = 0 then 3 else light.numCaches

/-- The state behind the lock and the cache that is returned. -/
def getCache (light : EthashLight) (epoch now : ℕ) : EthashLight × Cache :=
  let numCaches := light.limit
  match light.caches.lookup epoch with
  | none =>
      let (caches, disposed) := evictWhile numCaches light.caches light.disposed
      match light.future with
      | some pregenerated =>
          if pregenerated.epoch = epoch then
            let result := { pregenerated with lastUsed := now }
            ({ light with
                numCaches, caches := caches ++ [(epoch, result)], future := none, disposed },
              result)
          else
            let result := ⟨light.created, epoch, now⟩
            ({ light with
                numCaches, caches := caches ++ [(epoch, result)], created := light.created + 1,
                disposed }, result)
      | none =>
          let result := ⟨light.created, epoch, now⟩
          ({ light with
              numCaches, caches := caches ++ [(epoch, result)], created := light.created + 1,
              disposed }, result)
  | some cache =>
      let result := { cache with lastUsed := now }
      let caches := light.caches.map fun pair => if pair.1 = epoch then (epoch, result) else pair
      if light.future.all (·.epoch ≤ epoch) then
        let future : Cache := ⟨light.created, epoch + 1, now⟩
        ({ light with numCaches, caches, future := some future, created := light.created + 1 },
          result)
      else ({ light with numCaches, caches }, result)

/-- The state after requests, each a block and a time. -/
def run (epochOf : ℕ → ℕ) (light : EthashLight) (requests : List (ℕ × ℕ)) : EthashLight :=
  requests.foldl (fun light request => (light.getCache (epochOf request.1) request.2).1) light

end EthashLight

/-! ## Evictions -/

section Eviction

theorem lookup_eq_some_iff {caches : List (ℕ × Cache)} (hkeys : (caches.map Prod.fst).Nodup)
    {epoch : ℕ} {cache : Cache} :
    caches.lookup epoch = some cache ↔ (epoch, cache) ∈ caches := by
  induction caches with
  | nil => simp
  | cons first caches ih =>
      obtain ⟨key, value⟩ := first
      rw [List.map_cons, List.nodup_cons] at hkeys
      rw [List.lookup_cons, List.mem_cons]
      by_cases hkey : epoch = key
      · have hnotMem : (epoch, cache) ∉ caches := by
          intro hmem
          have hkeyMem : (epoch, cache).1 ∈ caches.map Prod.fst := List.mem_map_of_mem hmem
          exact hkeys.1 (hkey ▸ hkeyMem)
        subst hkey
        rw [beq_self_eq_true, or_iff_left hnotMem]
        simp [eq_comm]
      · rw [beq_false_of_ne hkey, ih hkeys.2]
        simp [hkey]

theorem lookup_eq_none_iff {caches : List (ℕ × Cache)} {epoch : ℕ} :
    caches.lookup epoch = none ↔ epoch ∉ caches.map Prod.fst := by
  rw [List.lookup_eq_none_iff]
  constructor
  · intro h hmem
    obtain ⟨pair, hpair, rfl⟩ := List.mem_map.mp hmem
    simpa using h pair hpair
  · intro h pair hpair
    rw [bne_iff_ne]
    rintro rfl
    exact h (List.mem_map_of_mem hpair)

/-- The entry that was used before all others is evicted. -/
theorem evictOne_eq {caches : List (ℕ × Cache)} {oldest : ℕ × Cache}
    (hids : (caches.map (·.2.id)).Nodup) (hmem : oldest ∈ caches)
    (holdest : ∀ pair ∈ caches, pair ≠ oldest → oldest.2.lastUsed < pair.2.lastUsed) :
    evictOne caches = some (oldest.2, caches.filter fun pair => pair.1 != oldest.1) := by
  have hmin : (caches.map Prod.snd).argmin Cache.lastUsed = some oldest.2 := by
    have hne : caches.map Prod.snd ≠ [] := List.ne_nil_of_mem (List.mem_map_of_mem hmem)
    obtain ⟨cache, hcache⟩ : ∃ cache, (caches.map Prod.snd).argmin Cache.lastUsed = some cache :=
      Option.ne_none_iff_exists'.mp (mt List.argmin_eq_none.mp hne)
    obtain ⟨pair, hpair, rfl⟩ := List.mem_map.mp (List.argmin_mem hcache)
    have hle := List.le_of_mem_argmin (List.mem_map_of_mem hmem) hcache
    by_cases heq : pair = oldest
    · rw [hcache, heq]
    · exact absurd (holdest pair hpair heq) (Nat.not_lt_of_ge hle)
  have hfind : caches.find? (fun pair => pair.2.id == oldest.2.id) = some oldest := by
    have hsome : (caches.find? fun pair => pair.2.id == oldest.2.id).isSome := by
      rw [List.find?_isSome]
      exact ⟨oldest, hmem, beq_self_eq_true oldest.2.id⟩
    obtain ⟨pair, hpair⟩ := Option.isSome_iff_exists.mp hsome
    have hid : pair.2.id = oldest.2.id := by simpa using List.find?_some hpair
    rw [hpair, List.inj_on_of_nodup_map hids (List.mem_of_find?_eq_some hpair) hmem hid]
  rw [evictOne, hmin]
  simp only [hfind]

theorem evictWhile_of_lt {numCaches : ℕ} {caches : List (ℕ × Cache)} (h : caches.length < numCaches)
    (disposed : List ℕ) : evictWhile numCaches caches disposed = (caches, disposed) := by
  rw [evictWhile, if_neg (Nat.not_le_of_gt h)]

theorem evictWhile_of_evictOne {numCaches : ℕ} {caches rest : List (ℕ × Cache)} {cache : Cache}
    (h : numCaches ≤ caches.length) (hevict : evictOne caches = some (cache, rest))
    (hrest : rest.length < numCaches) (disposed : List ℕ) :
    evictWhile numCaches caches disposed = (rest, cache.id :: disposed) := by
  rw [evictWhile, if_pos h]
  split
  · rename_i hnone
    rw [hevict] at hnone
    cases hnone
  · rename_i cache' rest' hsome
    rw [hevict] at hsome
    cases hsome
    exact evictWhile_of_lt hrest _

end Eviction

/-! ## States behind requests -/

namespace EthashLight

def futureIds (light : EthashLight) : List ℕ := light.future.toList.map Cache.id

/-- The caches that are in the dictionary, generated ahead or disposed. -/
def ids (light : EthashLight) : List ℕ :=
  light.caches.map (·.2.id) ++ (light.futureIds ++ light.disposed)

/-- The dictionary holds the caches that were used last, in the order of their uses, and no cache
is in two places. -/
structure Keeps (light : EthashLight) (uses : List ℕ) (now : ℕ) : Prop where
  ordered : ∃ entries : List (ℕ × Cache), entries.Perm light.caches ∧
    entries.map Prod.fst = (recent uses).take light.limit ∧
    entries.Pairwise fun a b => b.2.lastUsed < a.2.lastUsed
  lastUsed_lt : ∀ pair ∈ light.caches, pair.2.lastUsed < now
  epoch_eq : ∀ pair ∈ light.caches, pair.2.epoch = pair.1
  nodup_ids : light.ids.Nodup
  ids_lt : ∀ id ∈ light.ids, id < light.created

theorem limit_pos (light : EthashLight) : 0 < light.limit := by
  rw [limit]
  split <;> omega

variable {light : EthashLight} {uses : List ℕ} {now : ℕ}

theorem Keeps.perm_keys (h : light.Keeps uses now) :
    (light.caches.map Prod.fst).Perm ((recent uses).take light.limit) := by
  obtain ⟨entries, hperm, hkeys, -⟩ := h.ordered
  rw [← hkeys]
  exact (hperm.map Prod.fst).symm

theorem Keeps.nodup_keys (h : light.Keeps uses now) : (light.caches.map Prod.fst).Nodup :=
  h.perm_keys.nodup_iff.mpr ((nodup_recent uses).sublist (List.take_sublist _ _))

theorem Keeps.nodup_cacheIds (h : light.Keeps uses now) : (light.caches.map (·.2.id)).Nodup :=
  (List.nodup_append'.mp h.nodup_ids).1

theorem keeps_init (numCaches now : ℕ) : (EthashLight.mk numCaches [] none 0 []).Keeps [] now where
  ordered := ⟨[], List.Perm.refl _, by rw [recent_nil, List.take_nil, List.map_nil],
    List.Pairwise.nil⟩
  lastUsed_lt _ h := absurd h List.not_mem_nil
  epoch_eq _ h := absurd h List.not_mem_nil
  nodup_ids := List.nodup_nil
  ids_lt _ h := absurd h List.not_mem_nil

/-- What is left when there is room for one more: all but the oldest entry of a full dictionary. -/
theorem Keeps.evictWhile (h : light.Keeps uses now) :
    ∃ kept : List (ℕ × Cache),
      kept.Perm (evictWhile light.limit light.caches light.disposed).1 ∧
      kept.map Prod.fst = ((recent uses).take light.limit).take (light.limit - 1) ∧
      (kept.Pairwise fun a b => b.2.lastUsed < a.2.lastUsed) ∧
      (∀ pair ∈ kept, pair ∈ light.caches) ∧
      ((evictWhile light.limit light.caches light.disposed).1.map (·.2.id) ++
        (evictWhile light.limit light.caches light.disposed).2).Perm
          (light.caches.map (·.2.id) ++ light.disposed) := by
  obtain ⟨entries, hperm, hkeys, hordered⟩ := h.ordered
  have hpos := light.limit_pos
  have hlength : entries.length = light.caches.length := hperm.length_eq
  have hle : entries.length ≤ light.limit := by
    rw [← List.length_map (f := Prod.fst), hkeys]
    exact List.length_take_le _ _
  rcases Nat.lt_or_eq_of_le hle with hroom | hfull
  · rw [evictWhile_of_lt (hlength ▸ hroom)]
    refine ⟨entries, hperm, ?_, hordered, fun pair => hperm.mem_iff.mp, List.Perm.refl _⟩
    rw [← hkeys, List.take_of_length_le]
    rw [List.length_map]
    omega
  · obtain ⟨kept, oldest, rfl⟩ : ∃ kept oldest, entries = kept ++ [oldest] := by
      have hne : entries ≠ [] := by
        rintro rfl
        exact absurd hfull hpos.ne
      exact ⟨entries.dropLast, entries.getLast hne, (List.dropLast_append_getLast hne).symm⟩
    have hmem : oldest ∈ light.caches :=
      hperm.mem_iff.mp (List.mem_append_right _ List.mem_cons_self)
    obtain ⟨hkept, -, hlast⟩ := List.pairwise_append.mp hordered
    have hkeysNodup : ((kept ++ [oldest]).map Prod.fst).Nodup :=
      (hperm.map Prod.fst).nodup_iff.mpr h.nodup_keys
    rw [List.map_append, List.map_singleton] at hkeysNodup
    have hevict := evictOne_eq h.nodup_cacheIds hmem (by
      intro pair hpair hne
      rcases List.mem_append.mp (hperm.mem_iff.mpr hpair) with hpair | hpair
      · exact hlast pair hpair oldest List.mem_cons_self
      · exact absurd (List.mem_singleton.mp hpair) hne)
    have hrest : kept.Perm (light.caches.filter fun pair => pair.1 != oldest.1) := by
      have hfilter := hperm.filter fun pair => pair.1 != oldest.1
      have hself : [oldest].filter (fun pair => pair.1 != oldest.1) = [] := by simp
      have hall : kept.filter (fun pair => pair.1 != oldest.1) = kept := by
        apply List.filter_eq_self.mpr
        intro pair hpair
        rw [bne_iff_ne]
        intro heq
        apply (List.nodup_append'.mp hkeysNodup).2.2 (List.mem_map_of_mem hpair)
        rw [heq]
        exact List.mem_cons_self
      rwa [List.filter_append, hself, List.append_nil, hall] at hfilter
    rw [List.length_append, List.length_singleton] at hfull hlength
    rw [evictWhile_of_evictOne (by omega) hevict (by rw [← hrest.length_eq]; omega)]
    refine ⟨kept, hrest, ?_, hkept, ?_, ?_⟩
    · have hkept : light.limit - 1 = kept.length := by omega
      rw [← hkeys, hkept, List.map_append, List.take_left' (List.length_map _)]
    · intro pair hpair
      exact hperm.mem_iff.mp (List.mem_append_left _ hpair)
    · have hids := (hperm.map (·.2.id)).append_right light.disposed
      refine ((hrest.symm.map (·.2.id)).append_right _).trans ?_
      rw [List.map_append, List.append_assoc, List.map_singleton, List.singleton_append] at hids
      exact hids

/-! ### What a request does -/

@[simp] theorem limit_mk_limit (light : EthashLight) (caches : List (ℕ × Cache))
    (future : Option Cache) (created : ℕ) (disposed : List ℕ) :
    (EthashLight.mk light.limit caches future created disposed).limit = light.limit :=
  if_neg light.limit_pos.ne'

/-- A cache that is kept is returned, and the next one is made when there is none ahead. -/
theorem getCache_hit {epoch : ℕ} {cache : Cache} (h : light.caches.lookup epoch = some cache)
    (t : ℕ) :
    (light.getCache epoch t).2 = { cache with lastUsed := t } ∧
      (light.getCache epoch t).1.limit = light.limit ∧
      (light.getCache epoch t).1.caches = light.caches.map (fun pair =>
        if pair.1 = epoch then (epoch, { cache with lastUsed := t }) else pair) ∧
      (light.getCache epoch t).1.disposed = light.disposed ∧
      (((∃ ahead, light.future = some ahead ∧ epoch < ahead.epoch) ∧
          (light.getCache epoch t).1.future = light.future ∧
          (light.getCache epoch t).1.created = light.created) ∨
        ((∀ ahead, light.future = some ahead → ahead.epoch ≤ epoch) ∧
          (light.getCache epoch t).1.future = some ⟨light.created, epoch + 1, t⟩ ∧
          (light.getCache epoch t).1.created = light.created + 1)) := by
  rw [getCache, h]
  dsimp only
  cases hfuture : light.future with
  | none => simp
  | some ahead =>
      by_cases hahead : ahead.epoch ≤ epoch
      · simp [hahead]
      · simp [hahead, Nat.lt_of_not_le hahead]

/-- Otherwise the one that was made ahead is used, or another is made. -/
theorem getCache_miss {epoch : ℕ} (h : light.caches.lookup epoch = none) (t : ℕ) :
    ∃ id, (light.getCache epoch t).2 = ⟨id, epoch, t⟩ ∧
      (light.getCache epoch t).1.limit = light.limit ∧
      (light.getCache epoch t).1.caches =
        (LightCaches.evictWhile light.limit light.caches light.disposed).1 ++
          [(epoch, ⟨id, epoch, t⟩)] ∧
      (light.getCache epoch t).1.disposed =
        (LightCaches.evictWhile light.limit light.caches light.disposed).2 ∧
      (((∃ ahead, light.future = some ahead ∧ ahead.epoch = epoch ∧ ahead.id = id) ∧
          (light.getCache epoch t).1.future = none ∧
          (light.getCache epoch t).1.created = light.created) ∨
        ((∀ ahead, light.future = some ahead → ahead.epoch ≠ epoch) ∧ id = light.created ∧
          (light.getCache epoch t).1.future = light.future ∧
          (light.getCache epoch t).1.created = light.created + 1)) := by
  rw [getCache, h]
  dsimp only
  cases hfuture : light.future with
  | none => exact ⟨light.created, rfl, by simp, rfl, rfl, .inr (by simp)⟩
  | some ahead =>
      by_cases hahead : ahead.epoch = epoch
      · obtain ⟨id, aheadEpoch, lastUsed⟩ := ahead
        obtain rfl : aheadEpoch = epoch := hahead
        exact ⟨id, by simp, by simp, by simp, by simp, .inl (by simp)⟩
      · exact ⟨light.created, by simp [hahead], by simp [hahead], by simp [hahead],
          by simp [hahead], .inr (by simp [hahead])⟩

/-! ### Requests keep the invariant -/

theorem Keeps.eq_of_mem (h : light.Keeps uses now) {epoch : ℕ} {cache : Cache}
    (hlookup : light.caches.lookup epoch = some cache) {pair : ℕ × Cache}
    (hpair : pair ∈ light.caches) (hkey : pair.1 = epoch) : pair = (epoch, cache) :=
  List.inj_on_of_nodup_map h.nodup_keys hpair ((lookup_eq_some_iff h.nodup_keys).mp hlookup) hkey

theorem Keeps.ids_hit (h : light.Keeps uses now) {epoch : ℕ} {cache : Cache}
    (hlookup : light.caches.lookup epoch = some cache) (t : ℕ) :
    (light.getCache epoch t).1.caches.map (·.2.id) = light.caches.map (·.2.id) := by
  rw [(getCache_hit hlookup t).2.2.1, List.map_map]
  apply List.map_congr_left
  intro pair hpair
  by_cases hkey : pair.1 = epoch
  · rw [h.eq_of_mem hlookup hpair hkey]
    simp
  · simp [hkey]

/-- Every cache that is somewhere stays somewhere, except for one that was made ahead and is behind
the epoch that is asked for. -/
theorem Keeps.perm_ids (h : light.Keeps uses now) (epoch t : ℕ) :
    ((light.getCache epoch t).1.created = light.created ∧
        (light.getCache epoch t).1.ids.Perm light.ids) ∨
      ((light.getCache epoch t).1.created = light.created + 1 ∧
        ∃ left, (light.getCache epoch t).1.ids.Perm (light.created :: left) ∧
          left.Sublist light.ids ∧
          (left = light.ids ∨ ∃ ahead, light.future = some ahead ∧ ahead.epoch ≤ epoch ∧
            (light.caches.lookup epoch).isSome)) := by
  cases hlookup : light.caches.lookup epoch with
  | some cache =>
      obtain ⟨-, -, -, hdisposed, hfuture⟩ := getCache_hit hlookup t
      have hids := h.ids_hit hlookup t
      rcases hfuture with ⟨-, hsame, hcreated⟩ | ⟨hbehind, hnext, hcreated⟩
      · left
        rw [ids, ids, futureIds, futureIds, hids, hsame, hdisposed]
        exact ⟨hcreated, List.Perm.refl _⟩
      · right
        refine ⟨hcreated, light.caches.map (·.2.id) ++ light.disposed, ?_,
          (List.Sublist.refl _).append (List.sublist_append_right _ _), ?_⟩
        · rw [ids, futureIds, hids, hnext, hdisposed]
          exact List.perm_middle
        · cases hahead : light.future with
          | none =>
              left
              rw [ids, futureIds, hahead]
              rfl
          | some ahead => exact .inr ⟨ahead, rfl, hbehind ahead hahead, rfl⟩
  | none =>
      obtain ⟨id, -, -, hcaches, hdisposed, hfuture⟩ := getCache_miss hlookup t
      obtain ⟨-, -, -, -, -, hids⟩ := h.evictWhile
      have hmerged : (light.getCache epoch t).1.ids.Perm
          (id :: ((light.getCache epoch t).1.futureIds ++
            (light.caches.map (·.2.id) ++ light.disposed))) := by
        rw [ids, hcaches, hdisposed, List.map_append, List.map_singleton, List.append_assoc,
          List.singleton_append]
        refine List.perm_middle.trans (List.Perm.cons _ ?_)
        rw [← List.append_assoc]
        refine (List.perm_append_comm.append_right _).trans ?_
        rw [List.append_assoc]
        exact hids.append_left _
      rcases hfuture with ⟨⟨ahead, hahead, -, rfl⟩, hnone, hcreated⟩ | ⟨-, rfl, hsame, hcreated⟩
      · left
        refine ⟨hcreated, hmerged.trans ?_⟩
        rw [ids, futureIds, futureIds, hnone, hahead]
        change (ahead.id :: (light.caches.map (·.2.id) ++ light.disposed)).Perm
          (light.caches.map (·.2.id) ++ ahead.id :: light.disposed)
        exact List.perm_middle.symm
      · right
        refine ⟨hcreated, light.ids, hmerged.trans (List.Perm.cons _ ?_), List.Sublist.refl _,
          .inl rfl⟩
        rw [futureIds, hsame, ids, ← List.append_assoc, ← List.append_assoc, futureIds]
        exact List.perm_append_comm.append_right _

theorem Keeps.ids_getCache (h : light.Keeps uses now) (epoch t : ℕ) :
    (light.getCache epoch t).1.ids.Nodup ∧
      ∀ id ∈ (light.getCache epoch t).1.ids, id < (light.getCache epoch t).1.created := by
  rcases h.perm_ids epoch t with ⟨hcreated, hperm⟩ | ⟨hcreated, left, hperm, hleft, -⟩
  · rw [hperm.nodup_iff, hcreated]
    exact ⟨h.nodup_ids, fun id hid => h.ids_lt id (hperm.mem_iff.mp hid)⟩
  · have hfresh : light.created ∉ left :=
      fun hmem => Nat.lt_irrefl _ (h.ids_lt _ (hleft.subset hmem))
    rw [hperm.nodup_iff, hcreated, List.nodup_cons]
    refine ⟨⟨hfresh, h.nodup_ids.sublist hleft⟩, fun id hid => ?_⟩
    rcases List.mem_cons.mp (hperm.mem_iff.mp hid) with rfl | hid
    · exact Nat.lt_succ_self _
    · exact Nat.lt_succ_of_lt (h.ids_lt id (hleft.subset hid))

theorem Keeps.hit (h : light.Keeps uses now) {epoch t : ℕ} (ht : now ≤ t) {cache : Cache}
    (hlookup : light.caches.lookup epoch = some cache) :
    (light.getCache epoch t).1.Keeps (uses ++ [epoch]) (t + 1) := by
  obtain ⟨-, hlimit, hcaches, -⟩ := getCache_hit hlookup t
  have hmem := (lookup_eq_some_iff h.nodup_keys).mp hlookup
  have hnew : ∀ pair ∈ (light.getCache epoch t).1.caches,
      pair = (epoch, { cache with lastUsed := t }) ∨ pair ∈ light.caches := by
    intro pair hpair
    rw [hcaches] at hpair
    obtain ⟨old, hold, rfl⟩ := List.mem_map.mp hpair
    split
    · exact .inl rfl
    · exact .inr hold
  obtain ⟨hnodup, hlt⟩ := h.ids_getCache epoch t
  refine ⟨?_, ?_, ?_, hnodup, hlt⟩
  · obtain ⟨entries, hperm, hkeys, hordered⟩ := h.ordered
    obtain ⟨front, back, rfl⟩ := List.append_of_mem (hperm.mem_iff.mpr hmem)
    have hother : ∀ pair ∈ front ++ back, pair.1 ≠ epoch := by
      intro pair hpair hkey
      have hkeysNodup := (hperm.map Prod.fst).nodup_iff.mpr h.nodup_keys
      have hmiddle : (front ++ (epoch, cache) :: back).Perm ((epoch, cache) :: (front ++ back)) :=
        List.perm_middle
      rw [(hmiddle.map Prod.fst).nodup_iff, List.map_cons, List.nodup_cons] at hkeysNodup
      have hkeyMem : pair.1 ∈ (front ++ back).map Prod.fst := List.mem_map_of_mem hpair
      rw [hkey] at hkeyMem
      exact hkeysNodup.1 hkeyMem
    have hfix : ∀ l : List (ℕ × Cache), (∀ pair ∈ l, pair.1 ≠ epoch) → l.map (fun pair =>
        if pair.1 = epoch then (epoch, { cache with lastUsed := t }) else pair) = l := by
      intro l hl
      conv_rhs => rw [← List.map_id l]
      exact List.map_congr_left fun pair hpair => if_neg (hl pair hpair)
    rw [List.forall_mem_append] at hother
    refine ⟨(epoch, { cache with lastUsed := t }) :: (front ++ back), ?_, ?_, ?_⟩
    · rw [hcaches]
      refine List.Perm.trans ?_ (hperm.map _)
      rw [List.map_append, List.map_cons, hfix front hother.1, hfix back hother.2, if_pos rfl]
      exact List.perm_middle.symm
    · have hcut := take_recent_append_singleton light.limit_pos uses epoch
      have hlength : (front.map Prod.fst ++ back.map Prod.fst).length ≤ light.limit - 1 := by
        have hle := congrArg List.length hkeys
        rw [List.length_map, List.length_take, List.length_append, List.length_cons] at hle
        rw [List.length_append, List.length_map, List.length_map]
        omega
      have hnotMem : epoch ∉ front.map Prod.fst := by
        intro hmem
        obtain ⟨pair, hpair, hkey⟩ := List.mem_map.mp hmem
        exact hother.1 pair hpair hkey
      rw [hlimit, hcut, ← hkeys, keepRecent]
      simp only [List.map_append, List.map_cons]
      rw [List.erase_append_right _ hnotMem, List.erase_cons_head, List.take_of_length_le hlength]
    · rw [List.pairwise_cons]
      obtain ⟨hfront, hback, hcross⟩ := List.pairwise_append.mp hordered
      refine ⟨?_, List.pairwise_append.mpr ⟨hfront, (List.pairwise_cons.mp hback).2, ?_⟩⟩
      · intro pair hpair
        have hpairMem : pair ∈ light.caches := by
          apply hperm.mem_iff.mp
          rw [List.perm_middle.mem_iff]
          exact List.mem_cons_of_mem _ hpair
        exact (h.lastUsed_lt pair hpairMem).trans_le ht
      · intro pair hpair other hotherMem
        exact hcross pair hpair other (List.mem_cons_of_mem _ hotherMem)
  · intro pair hpair
    rcases hnew pair hpair with rfl | hold
    · exact Nat.lt_succ_self t
    · exact (h.lastUsed_lt pair hold).trans_le (ht.trans (Nat.le_succ t))
  · intro pair hpair
    rcases hnew pair hpair with rfl | hold
    · exact h.epoch_eq (epoch, cache) hmem
    · exact h.epoch_eq pair hold

theorem Keeps.miss (h : light.Keeps uses now) {epoch t : ℕ} (ht : now ≤ t)
    (hlookup : light.caches.lookup epoch = none) :
    (light.getCache epoch t).1.Keeps (uses ++ [epoch]) (t + 1) := by
  obtain ⟨id, -, hlimit, hcaches, -⟩ := getCache_miss hlookup t
  obtain ⟨kept, hperm, hkeys, hordered, hsubset, -⟩ := h.evictWhile
  have hnew : ∀ pair ∈ (light.getCache epoch t).1.caches,
      pair = (epoch, ⟨id, epoch, t⟩) ∨ pair ∈ light.caches := by
    intro pair hpair
    rw [hcaches, List.mem_append, List.mem_singleton] at hpair
    rcases hpair with hpair | hpair
    · exact .inr (hsubset pair (hperm.mem_iff.mpr hpair))
    · exact .inl hpair
  obtain ⟨hnodup, hlt⟩ := h.ids_getCache epoch t
  refine ⟨?_, ?_, ?_, hnodup, hlt⟩
  · refine ⟨(epoch, ⟨id, epoch, t⟩) :: kept, ?_, ?_, ?_⟩
    · rw [hcaches]
      exact (List.perm_append_singleton _ _).symm.trans (hperm.append_right _)
    · have hcut := take_recent_append_singleton light.limit_pos uses epoch
      have hnotMem : epoch ∉ (recent uses).take light.limit :=
        fun hmem => lookup_eq_none_iff.mp hlookup (h.perm_keys.mem_iff.mpr hmem)
      rw [hlimit, hcut, keepRecent, List.erase_of_not_mem hnotMem, List.map_cons, hkeys]
    · rw [List.pairwise_cons]
      exact ⟨fun pair hpair => (h.lastUsed_lt pair (hsubset pair hpair)).trans_le ht, hordered⟩
  · intro pair hpair
    rcases hnew pair hpair with rfl | hold
    · exact Nat.lt_succ_self t
    · exact (h.lastUsed_lt pair hold).trans_le (ht.trans (Nat.le_succ t))
  · intro pair hpair
    rcases hnew pair hpair with rfl | hold
    · rfl
    · exact h.epoch_eq pair hold

theorem Keeps.getCache (h : light.Keeps uses now) (epoch : ℕ) {t : ℕ} (ht : now ≤ t) :
    (light.getCache epoch t).1.Keeps (uses ++ [epoch]) (t + 1) := by
  cases hlookup : light.caches.lookup epoch with
  | none => exact h.miss ht hlookup
  | some cache => exact h.hit ht hlookup

@[simp] theorem limit_getCache (light : EthashLight) (epoch t : ℕ) :
    (light.getCache epoch t).1.limit = light.limit := by
  cases hlookup : light.caches.lookup epoch with
  | none =>
      obtain ⟨id, -, hlimit, -⟩ := getCache_miss hlookup t
      exact hlimit
  | some cache => exact (getCache_hit hlookup t).2.1

/-- What is returned is in the dictionary. -/
theorem Keeps.lookup_getCache (h : light.Keeps uses now) (epoch : ℕ) {t : ℕ} (ht : now ≤ t) :
    (light.getCache epoch t).1.caches.lookup epoch = some (light.getCache epoch t).2 := by
  rw [lookup_eq_some_iff (h.getCache epoch ht).nodup_keys]
  cases hlookup : light.caches.lookup epoch with
  | none =>
      obtain ⟨id, hresult, -, hcaches, -⟩ := getCache_miss hlookup t
      rw [hcaches, hresult]
      exact List.mem_append_right _ List.mem_cons_self
  | some cache =>
      obtain ⟨hresult, -, hcaches, -⟩ := getCache_hit hlookup t
      rw [hcaches, hresult]
      apply List.mem_map.mpr
      exact ⟨_, (lookup_eq_some_iff h.nodup_keys).mp hlookup, if_pos rfl⟩

/-- A cache that stays in the dictionary is not replaced. -/
theorem Keeps.id_of_kept (h : light.Keeps uses now) {epoch t key : ℕ} (ht : now ≤ t) {cache : Cache}
    (hcache : light.caches.lookup key = some cache)
    (hkept : key ∈ (light.getCache epoch t).1.caches.map Prod.fst) :
    ∃ cache', (light.getCache epoch t).1.caches.lookup key = some cache' ∧
      cache'.id = cache.id := by
  obtain ⟨⟨_, cache'⟩, hpair, rfl⟩ := List.mem_map.mp hkept
  refine ⟨cache', (lookup_eq_some_iff (h.getCache epoch ht).nodup_keys).mpr hpair, ?_⟩
  cases hlookup : light.caches.lookup epoch with
  | none =>
      obtain ⟨id, -, -, hcaches, -⟩ := getCache_miss hlookup t
      obtain ⟨kept, hperm, -, -, hsubset, -⟩ := h.evictWhile
      rw [hcaches, List.mem_append, List.mem_singleton] at hpair
      rcases hpair with hpair | hpair
      · exact congrArg (fun pair => pair.2.id)
          (h.eq_of_mem hcache (hsubset _ (hperm.mem_iff.mpr hpair)) rfl)
      · obtain ⟨rfl, -⟩ := Prod.mk.inj hpair
        rw [hlookup] at hcache
        cases hcache
  | some found =>
      rw [(getCache_hit hlookup t).2.2.1] at hpair
      obtain ⟨old, hold, hnew⟩ := List.mem_map.mp hpair
      split at hnew
      · rename_i hkey
        obtain ⟨rfl, rfl⟩ := Prod.mk.inj hnew
        rw [hlookup] at hcache
        cases hcache
        rfl
      · rw [hnew] at hold
        exact congrArg (fun pair => pair.2.id) (h.eq_of_mem hcache hold rfl)

/-! ## Runs -/

section Runs

variable {epochOf : ℕ → ℕ} {numCaches : ℕ}

theorem run_append_singleton (light : EthashLight) (requests : List (ℕ × ℕ)) (block t : ℕ) :
    light.run epochOf (requests ++ [(block, t)]) =
      ((light.run epochOf requests).getCache (epochOf block) t).1 := by
  rw [run, List.foldl_append]
  rfl

variable (epochOf) in
@[simp] theorem limit_run (light : EthashLight) (requests : List (ℕ × ℕ)) :
    (light.run epochOf requests).limit = light.limit := by
  induction requests using List.reverseRecOn with
  | nil => rfl
  | append_singleton requests request ih =>
      obtain ⟨block, t⟩ := request
      rw [run_append_singleton, limit_getCache, ih]

variable (epochOf numCaches) in
/-- Requests at ascending times keep the invariant. -/
theorem keeps_run {requests : List (ℕ × ℕ)} (htimes : (requests.map Prod.snd).Pairwise (· < ·)) :
    ∃ now, ((EthashLight.mk numCaches [] none 0 []).run epochOf requests).Keeps
        (requests.map fun request => epochOf request.1) now ∧
      ∀ t, (∀ request ∈ requests, request.2 < t) → now ≤ t := by
  induction requests using List.reverseRecOn with
  | nil => exact ⟨0, keeps_init numCaches 0, fun t _ => Nat.zero_le t⟩
  | append_singleton requests request ih =>
      obtain ⟨block, t⟩ := request
      rw [List.map_append, List.pairwise_append] at htimes
      obtain ⟨now, hkeeps, hnow⟩ := ih htimes.1
      have hbefore : ∀ request ∈ requests, request.2 < t := by
        intro request hrequest
        exact htimes.2.2 _ (List.mem_map_of_mem hrequest) t List.mem_cons_self
      refine ⟨t + 1, ?_, fun t' ht' => ht' (block, t) (List.mem_append_right _ List.mem_cons_self)⟩
      rw [run_append_singleton, List.map_append]
      exact hkeeps.getCache (epochOf block) (hnow t hbefore)

end Runs

end EthashLight

open EthashLight

variable (epochOf : ℕ → ℕ) (numCaches : ℕ)

/-- The caches that are kept are those of the epochs that were asked for last. None of them is
disposed, and none is disposed twice. -/
theorem run_caches (requests : List (ℕ × ℕ))
    (htimes : (requests.map Prod.snd).Pairwise (· < ·)) :
    let light := (EthashLight.mk numCaches [] none 0 []).run epochOf requests
    (light.caches.map Prod.fst).Perm
        ((recent (requests.map fun request => epochOf request.1)).take
          (EthashLight.mk numCaches [] none 0 []).limit) ∧
      (∀ pair ∈ light.caches, pair.2.epoch = pair.1 ∧ pair.2.id ∉ light.disposed) ∧
      (∀ ahead, light.future = some ahead →
        ahead.id ∉ light.disposed ∧ ∀ pair ∈ light.caches, pair.2.id ≠ ahead.id) ∧
      light.disposed.Nodup := by
  obtain ⟨now, h, -⟩ := keeps_run epochOf numCaches htimes
  dsimp only
  obtain ⟨-, hrest, hcaches⟩ := List.nodup_append'.mp h.nodup_ids
  obtain ⟨-, hdisposed, hfuture⟩ := List.nodup_append'.mp hrest
  have hkeys := h.perm_keys
  rw [limit_run] at hkeys
  refine ⟨hkeys, ?_, ?_, hdisposed⟩
  · intro pair hpair
    refine ⟨h.epoch_eq pair hpair, fun hmem => ?_⟩
    exact hcaches (List.mem_map_of_mem (f := fun pair => pair.2.id) hpair)
      (List.mem_append_right _ hmem)
  · intro ahead hahead
    have hmem : ahead.id ∈ futureIds ((EthashLight.mk numCaches [] none 0 []).run epochOf
        requests) := by
      rw [futureIds, hahead]
      exact List.mem_cons_self
    refine ⟨fun h => hfuture hmem h, fun pair hpair heq => ?_⟩
    exact hcaches (List.mem_map_of_mem (f := fun pair => pair.2.id) hpair)
      (List.mem_append_left _ (heq ▸ hmem))

theorem run_caches_three_epochs :
    ((((EthashLight.mk 2 [] none 0 []).run (LightCaches.epochOf 30000)
        [(5, 1), (30000, 2), (30001, 3), (90000, 4)]).caches.map Prod.fst).Perm
      ((recent [0, 1, 1, 3]).take 2)) :=
  (run_caches (LightCaches.epochOf 30000) 2 [(5, 1), (30000, 2), (30001, 3), (90000, 4)]
    (by decide)).1

section Held

variable {epochOf numCaches}

variable (numCaches) in
/-- A cache stays what it was until as many other epochs have been asked for as are kept. -/
theorem lookup_run {before after : List (ℕ × ℕ)} {block t : ℕ}
    (htimes : ((before ++ (block, t) :: after).map Prod.snd).Pairwise (· < ·))
    (hfew : ((after.map fun request => epochOf request.1).toFinset.erase (epochOf block)).card <
      (EthashLight.mk numCaches [] none 0 []).limit) :
    ∃ cache, ((EthashLight.mk numCaches [] none 0 []).run epochOf
        (before ++ (block, t) :: after)).caches.lookup (epochOf block) = some cache ∧
      cache.id = (((EthashLight.mk numCaches [] none 0 []).run epochOf before).getCache
        (epochOf block) t).2.id := by
  induction after using List.reverseRecOn with
  | nil =>
      rw [List.map_append, List.pairwise_append] at htimes
      obtain ⟨now, hkeeps, hnow⟩ := keeps_run epochOf numCaches htimes.1
      have ht : now ≤ t := hnow t fun request hrequest =>
        htimes.2.2 _ (List.mem_map_of_mem hrequest) t List.mem_cons_self
      rw [run_append_singleton]
      exact ⟨_, hkeeps.lookup_getCache (epochOf block) ht, rfl⟩
  | append_singleton after request ih =>
      obtain ⟨block', t'⟩ := request
      have hsplit : before ++ (block, t) :: (after ++ [(block', t')]) =
          (before ++ (block, t) :: after) ++ [(block', t')] := by
        rw [List.append_assoc, List.cons_append]
      have hepochs : (before ++ (block, t) :: (after ++ [(block', t')])).map
          (fun request => epochOf request.1) =
            before.map (fun request => epochOf request.1) ++
              epochOf block :: (after ++ [(block', t')]).map fun request => epochOf request.1 := by
        rw [List.map_append, List.map_cons]
      have hmem := mem_take_recent (before.map fun request => epochOf request.1) hfew
      have hfewer : ((after.map fun request => epochOf request.1).toFinset.erase
          (epochOf block)).card < (EthashLight.mk numCaches [] none 0 []).limit := by
        refine (Finset.card_le_card (Finset.erase_subset_erase _ ?_)).trans_lt hfew
        rw [List.map_append, List.toFinset_append]
        exact Finset.subset_union_left
      obtain ⟨nowAll, hkeepsAll, -⟩ :=
        keeps_run epochOf numCaches htimes
      rw [← hepochs, ← limit_run epochOf (EthashLight.mk numCaches [] none 0 [])
        (before ++ (block, t) :: (after ++ [(block', t')])),
        ← hkeepsAll.perm_keys.mem_iff] at hmem
      rw [hsplit] at htimes hmem ⊢
      rw [List.map_append, List.pairwise_append] at htimes
      obtain ⟨cache, hcache, hid⟩ := ih htimes.1 hfewer
      obtain ⟨now, hkeeps, hnow⟩ := keeps_run epochOf numCaches htimes.1
      have ht : now ≤ t' := hnow t' fun request hrequest =>
        htimes.2.2 _ (List.mem_map_of_mem hrequest) t' List.mem_cons_self
      rw [run_append_singleton] at hmem ⊢
      obtain ⟨cache', hcache', hid'⟩ := hkeeps.id_of_kept ht hcache hmem
      exact ⟨cache', hcache', hid'.trans hid⟩

end Held

/-- Who was given a cache can use it, and is given it again, until as many other epochs have been
asked for as are kept: it is not disposed before. -/
theorem run_cache_held (before after : List (ℕ × ℕ)) (block t t' : ℕ)
    (htimes : ((before ++ (block, t) :: (after ++ [(block, t')])).map Prod.snd).Pairwise (· < ·))
    (hfew : ((after.map fun request => epochOf request.1).toFinset.erase (epochOf block)).card <
      (EthashLight.mk numCaches [] none 0 []).limit) :
    let given := (((EthashLight.mk numCaches [] none 0 []).run epochOf before).getCache
      (epochOf block) t).2
    let light := (EthashLight.mk numCaches [] none 0 []).run epochOf
      (before ++ (block, t) :: after)
    given.id ∉ light.disposed ∧ (light.getCache (epochOf block) t').2.id = given.id := by
  have hsplit : before ++ (block, t) :: (after ++ [(block, t')]) =
      (before ++ (block, t) :: after) ++ [(block, t')] := by
    rw [List.append_assoc, List.cons_append]
  rw [hsplit, List.map_append, List.pairwise_append] at htimes
  obtain ⟨cache, hcache, hid⟩ := lookup_run numCaches htimes.1 hfew
  obtain ⟨now, hkeeps, hnow⟩ := keeps_run epochOf numCaches htimes.1
  have hmem := (lookup_eq_some_iff hkeeps.nodup_keys).mp hcache
  dsimp only
  rw [← hid, (getCache_hit hcache t').1]
  refine ⟨fun hdisposed => ?_, rfl⟩
  exact (List.nodup_append'.mp hkeeps.nodup_ids).2.2
    (List.mem_map_of_mem (f := fun pair => pair.2.id) hmem) (List.mem_append_right _ hdisposed)

theorem run_cache_held_two_epochs :
    (((EthashLight.mk 2 [] none 0 []).run (LightCaches.epochOf 30000)
        ([(5, 1)] ++ (30000, 2) :: [(30001, 3), (60000, 4)])).getCache 1 5).2.id =
      (((EthashLight.mk 2 [] none 0 []).run (LightCaches.epochOf 30000)
        [(5, 1)]).getCache 1 2).2.id :=
  (run_cache_held (LightCaches.epochOf 30000) 2 [(5, 1)] [(30001, 3), (60000, 4)] 30000 2 5
    (by decide) (by decide)).2

/-! ## Ascending epochs -/

/-- Nothing is lost, and the cache of the next epoch is made once an epoch was asked for twice. -/
structure Ascends (light : EthashLight) (uses : List ℕ) : Prop where
  mem_ids : ∀ id < light.created, id ∈ light.ids
  future_iff : ∀ last ∈ uses.getLast?, (light.future = none ∧ uses.count last = 1) ∨
    ∃ ahead, light.future = some ahead ∧ ahead.epoch = last + 1
  future_nil : uses = [] → light.future = none
  le_last : ∀ last ∈ uses.getLast?, ∀ epoch ∈ uses, epoch ≤ last

section Ascending

variable {light : EthashLight} {uses : List ℕ} {now : ℕ}

theorem Ascends.mem_ids_getCache (ha : Ascends light uses) (h : light.Keeps uses now)
    {epoch t : ℕ} (hahead : ∀ ahead, light.future = some ahead → ahead.epoch ≤ epoch →
      light.caches.lookup epoch = none) :
    ∀ id < (light.getCache epoch t).1.created, id ∈ (light.getCache epoch t).1.ids := by
  intro id hid
  rcases h.perm_ids epoch t with ⟨hcreated, hperm⟩ | ⟨hcreated, left, hperm, -, hleft⟩
  · rw [hperm.mem_iff]
    exact ha.mem_ids id (hcreated ▸ hid)
  · have hall : left = light.ids := by
      rcases hleft with hleft | ⟨ahead, hsome, hle, hlookup⟩
      · exact hleft
      · rw [hahead ahead hsome hle] at hlookup
        cases hlookup
    rw [hperm.mem_iff, hall, List.mem_cons]
    rw [hcreated] at hid
    rcases Nat.lt_succ_iff_lt_or_eq.mp hid with hlt | rfl
    · exact .inr (ha.mem_ids id hlt)
    · exact .inl rfl

theorem lookup_last (h : light.Keeps uses now) {last : ℕ} (hlast : last ∈ uses.getLast?) :
    ∃ cache, light.caches.lookup last = some cache := by
  obtain ⟨before, rfl⟩ : ∃ before, uses = before ++ [last] :=
    ⟨uses.dropLast, (List.dropLast_append_getLast? last hlast).symm⟩
  rw [← Option.ne_none_iff_exists', Ne, lookup_eq_none_iff, not_not, h.perm_keys.mem_iff,
    recent_append_singleton]
  obtain ⟨size, hsize⟩ := Nat.exists_eq_succ_of_ne_zero light.limit_pos.ne'
  rw [hsize, List.take_succ_cons]
  exact List.mem_cons_self

theorem lookup_next (ha : Ascends light uses) (h : light.Keeps uses now) {last : ℕ}
    (hlast : last ∈ uses.getLast?) : light.caches.lookup (last + 1) = none := by
  rw [lookup_eq_none_iff, h.perm_keys.mem_iff]
  intro hmem
  have hle := ha.le_last last hlast _ (mem_recent.mp (List.mem_of_mem_take hmem))
  exact absurd hle (Nat.not_succ_le_self last)

theorem Ascends.first (ha : Ascends light []) (h : light.Keeps [] now) (epoch t : ℕ) :
    Ascends (light.getCache epoch t).1 [epoch] := by
  have hnone := ha.future_nil rfl
  have hlookup : light.caches.lookup epoch = none := by
    rw [lookup_eq_none_iff, h.perm_keys.mem_iff]
    simp
  obtain ⟨id, -, -, -, -, hfuture⟩ := getCache_miss hlookup t
  have hstill : (light.getCache epoch t).1.future = none := by
    rcases hfuture with ⟨-, hfuture, -⟩ | ⟨-, -, hfuture, -⟩
    · exact hfuture
    · rw [hfuture, hnone]
  refine ⟨ha.mem_ids_getCache h fun ahead hsome => ?_, ?_, fun h => absurd h (by simp), ?_⟩
  · rw [hnone] at hsome
    cases hsome
  · rintro last hlast
    obtain rfl : epoch = last := Option.some.inj hlast
    exact .inl ⟨hstill, by simp⟩
  · rintro last hlast other hother
    obtain rfl : epoch = last := Option.some.inj hlast
    exact (List.mem_singleton.mp hother).le

/-- The last epoch is asked for again. -/
theorem Ascends.same (ha : Ascends light uses) (h : light.Keeps uses now) {last : ℕ}
    (hlast : last ∈ uses.getLast?) (t : ℕ) :
    Ascends (light.getCache last t).1 (uses ++ [last]) := by
  obtain ⟨cache, hlookup⟩ := lookup_last h hlast
  obtain ⟨-, -, -, -, hfuture⟩ := getCache_hit hlookup t
  have hahead : ∀ ahead, light.future = some ahead → ahead.epoch = last + 1 := by
    intro ahead hsome
    rcases ha.future_iff last hlast with ⟨hnone, -⟩ | ⟨ahead', hsome', hepoch⟩
    · rw [hnone] at hsome
      cases hsome
    · rw [hsome] at hsome'
      cases hsome'
      exact hepoch
  refine ⟨ha.mem_ids_getCache h fun ahead hsome hle => ?_, ?_, fun h => absurd h (by simp), ?_⟩
  · rw [hahead ahead hsome] at hle
    exact absurd hle (Nat.not_succ_le_self last)
  · intro last' hlast'
    obtain rfl : last = last' := by simpa using hlast'
    right
    rcases hfuture with ⟨⟨ahead, hsome, -⟩, hsame, -⟩ | ⟨-, hnext, -⟩
    · exact ⟨ahead, hsame.trans hsome, hahead ahead hsome⟩
    · exact ⟨_, hnext, rfl⟩
  · intro last' hlast' other hother
    obtain rfl : last = last' := by simpa using hlast'
    rcases List.mem_append.mp hother with hother | hother
    · exact ha.le_last last hlast other hother
    · exact (List.mem_singleton.mp hother).le

/-- The next epoch is asked for. -/
theorem Ascends.next (ha : Ascends light uses) (h : light.Keeps uses now) {last : ℕ}
    (hlast : last ∈ uses.getLast?) (t : ℕ) :
    Ascends (light.getCache (last + 1) t).1 (uses ++ [last + 1]) ∧
      (2 ≤ uses.count last → ∃ ahead, light.future = some ahead ∧
        (light.getCache (last + 1) t).2.id = ahead.id ∧
        (light.getCache (last + 1) t).1.created = light.created) := by
  have hlookup := lookup_next ha h hlast
  obtain ⟨id, hresult, -, -, -, hfuture⟩ := getCache_miss hlookup t
  have hnotMem : last + 1 ∉ uses := by
    intro hmem
    exact absurd (ha.le_last last hlast _ hmem) (Nat.not_succ_le_self last)
  have hstill : (light.getCache (last + 1) t).1.future = none := by
    rcases hfuture with ⟨-, hfuture, -⟩ | ⟨hother, -, hfuture, -⟩
    · exact hfuture
    · rcases ha.future_iff last hlast with ⟨hnone, -⟩ | ⟨ahead, hsome, hepoch⟩
      · rw [hfuture, hnone]
      · exact absurd hepoch (hother ahead hsome)
  refine ⟨⟨ha.mem_ids_getCache h fun _ _ _ => hlookup, ?_, fun h => absurd h (by simp), ?_⟩, ?_⟩
  · intro last' hlast'
    obtain rfl : last + 1 = last' := by simpa using hlast'
    left
    refine ⟨hstill, ?_⟩
    rw [List.count_append, List.count_eq_zero_of_not_mem hnotMem]
    simp
  · intro last' hlast' other hother
    obtain rfl : last + 1 = last' := by simpa using hlast'
    rcases List.mem_append.mp hother with hother | hother
    · exact (ha.le_last last hlast other hother).trans (Nat.le_succ last)
    · exact (List.mem_singleton.mp hother).le
  · intro htwice
    rcases ha.future_iff last hlast with ⟨-, honce⟩ | ⟨ahead, hsome, hepoch⟩
    · omega
    · rcases hfuture with ⟨⟨ahead', hsome', -, rfl⟩, -, hcreated⟩ | ⟨hother, -⟩
      · exact ⟨ahead', hsome', by rw [hresult], hcreated⟩
      · exact absurd hepoch (hother ahead hsome)

variable {epochOf numCaches}

/-- The next epoch is the last one or the one behind it. -/
def IsNext (last epoch : ℕ) : Prop := epoch = last ∨ epoch = last + 1

variable (epochOf numCaches) in
theorem ascends_run {requests : List (ℕ × ℕ)}
    (htimes : (requests.map Prod.snd).Pairwise (· < ·))
    (hepochs : (requests.map fun request => epochOf request.1).IsChain IsNext) :
    Ascends ((EthashLight.mk numCaches [] none 0 []).run epochOf requests)
      (requests.map fun request => epochOf request.1) := by
  induction requests using List.reverseRecOn with
  | nil =>
      exact ⟨fun id hid => absurd hid (Nat.not_lt_zero id), fun _ h => (nomatch h), fun _ => rfl,
        fun _ h => (nomatch h)⟩
  | append_singleton requests request ih =>
      obtain ⟨block, t⟩ := request
      rw [List.map_append, List.pairwise_append] at htimes
      rw [List.map_append, List.isChain_append] at hepochs
      obtain ⟨now, hkeeps, -⟩ := keeps_run epochOf numCaches htimes.1
      have ha := ih htimes.1 hepochs.1
      rw [run_append_singleton, List.map_append, List.map_singleton]
      cases hlast : (requests.map fun request => epochOf request.1).getLast? with
      | none =>
          have hnil := List.getLast?_eq_none_iff.mp hlast
          rw [hnil] at ha hkeeps ⊢
          exact ha.first hkeeps _ _
      | some last =>
          rcases hepochs.2.2 last hlast (epochOf block) rfl with hsame | hnext
          · rw [hsame]
            exact ha.same hkeeps hlast t
          · rw [hnext]
            exact (ha.next hkeeps hlast t).1

end Ascending

/-- While the chain grows, every cache that was made is kept, ahead or disposed. The next epoch's
cache is there before the epoch begins, if the one before was asked for twice. -/
theorem ascending_run (requests : List (ℕ × ℕ))
    (htimes : (requests.map Prod.snd).Pairwise (· < ·))
    (hepochs : (requests.map fun request => epochOf request.1).IsChain IsNext) :
    let light := (EthashLight.mk numCaches [] none 0 []).run epochOf requests
    (∀ id < light.created, id ∈ light.ids) ∧
      ∀ last, (requests.map fun request => epochOf request.1).getLast? = some last →
        2 ≤ (requests.map fun request => epochOf request.1).count last → ∀ t,
        ∃ ahead, light.future = some ahead ∧ (light.getCache (last + 1) t).2.id = ahead.id ∧
          (light.getCache (last + 1) t).1.created = light.created := by
  obtain ⟨now, hkeeps, -⟩ := keeps_run epochOf numCaches htimes
  have ha := ascends_run epochOf numCaches htimes hepochs
  exact ⟨ha.mem_ids, fun last hlast htwice t => (ha.next hkeeps hlast t).2 htwice⟩

theorem ascending_run_two_blocks :
    ∃ ahead, ((EthashLight.mk 0 [] none 0 []).run (LightCaches.epochOf 30000)
      [(29998, 1), (29999, 2)]).future = some ahead ∧
        (((EthashLight.mk 0 [] none 0 []).run (LightCaches.epochOf 30000)
          [(29998, 1), (29999, 2)]).getCache 1 3).2.id = ahead.id ∧
        (((EthashLight.mk 0 [] none 0 []).run (LightCaches.epochOf 30000)
          [(29998, 1), (29999, 2)]).getCache 1 3).1.created =
            ((EthashLight.mk 0 [] none 0 []).run (LightCaches.epochOf 30000)
              [(29998, 1), (29999, 2)]).created :=
  (ascending_run (LightCaches.epochOf 30000) 0 [(29998, 1), (29999, 2)] (by decide)
    (by simp [LightCaches.epochOf, IsNext])).2 0 rfl (by decide) 3

end Miningcore.LightCaches
