import Mathlib.Data.List.Nodup
import Mathlib.Data.Set.Insert
import Mathlib.Tactic.Common
import Miningcore.Foundation.HexDigits

/-!
# Partitions of the shares table

A pool that starts looks for the partition of its shares and creates it when there is none. It
is looked for by the text of its name, while the statement that creates it has that text
without quotes, so that it is folded and cut off.

## Implementation notes

The catalog is that of one schema, and a call is one step of it. The indexes that come with a
partition, a default partition and the connection are left out.
-/

namespace Miningcore.PartitionManager

/-- The letters and digits of any script. -/
structure Letters where
  isLetterOrDigit : Char → Bool
  ascii (c : Char) : c.val < 128 → isLetterOrDigit c = c.isAlphanum

/-- Folding to lower case. -/
structure Folding where
  lower : Char → Char
  ascii (c : Char) : c.val < 128 → lower c = c.toLower

inductive Error
  | argument
  | syntaxError
  | duplicateTable
  | overlap
  deriving DecidableEq, Repr

section Identifiers

variable (folding : Folding)

/-- The longest beginning of a text that has at most so many bytes. -/
def takeBytes : ℕ → List Char → List Char
  | _, [] => []
  | count, c :: rest =>
      if c.utf8Size ≤ count then c :: takeBytes (count - c.utf8Size) rest else []

def utf8Length : List Char → ℕ
  | [] => 0
  | c :: rest => c.utf8Size + utf8Length rest

/-- The name that an identifier without quotes stands for. -/
def identifier (text : List Char) : List Char := takeBytes 63 (text.map folding.lower)

def isIdentifierChar (c : Char) : Bool :=
  c.isAlphanum || c = '_' || c = '$' || decide (128 ≤ c.val)

theorem isPrefix_takeBytes (count : ℕ) (text : List Char) : takeBytes count text <+: text := by
  induction text generalizing count with
  | nil => exact List.prefix_refl []
  | cons c rest ih =>
      rw [takeBytes]
      split
      · exact (List.prefix_cons_inj c).mpr (ih _)
      · exact List.nil_prefix

theorem takeBytes_eq_iff {count : ℕ} {text : List Char} :
    takeBytes count text = text ↔ utf8Length text ≤ count := by
  induction text generalizing count with
  | nil => exact iff_of_true rfl (Nat.zero_le count)
  | cons c rest ih =>
      rw [takeBytes, utf8Length]
      split
      · rename_i hle
        rw [List.cons.injEq, ih]
        constructor
        · rintro ⟨-, hrest⟩
          omega
        · intro hall
          exact ⟨rfl, by omega⟩
      · rename_i hgt
        apply iff_of_false (List.cons_ne_nil c rest).symm
        omega

/-- Only a text that is folded and short is the name it stands for. -/
theorem identifier_eq_iff {text : List Char} :
    identifier folding text = text ↔ text.map folding.lower = text ∧ utf8Length text ≤ 63 := by
  constructor
  · intro heq
    have hlength : (takeBytes 63 (text.map folding.lower)).length =
        (text.map folding.lower).length := by
      rw [List.length_map]
      exact congrArg List.length heq
    have hall := (isPrefix_takeBytes 63 (text.map folding.lower)).eq_of_length hlength
    have hfolded : text.map folding.lower = text := hall.symm.trans heq
    rw [hfolded] at hall
    exact ⟨hfolded, takeBytes_eq_iff.mp hall⟩
  · rintro ⟨hfolded, hshort⟩
    rw [identifier, hfolded]
    exact takeBytes_eq_iff.mpr hshort

end Identifiers

structure Relation where
  relname : List Char
  relkind : Char

/-- A table for the rows with one value of the partition key. -/
structure Partition where
  table : List Char
  value : List Char

structure Catalog where
  relations : List Relation
  partitions : List Partition
  relname_nodup : (relations.map Relation.relname).Nodup
  table_mem (partition : Partition) : partition ∈ partitions →
    partition.table ∈ relations.map Relation.relname
  value_nodup : (partitions.map Partition.value).Nodup

namespace Catalog

variable (catalog : Catalog)

def relnames : List (List Char) := catalog.relations.map Relation.relname

def values : List (List Char) := catalog.partitions.map Partition.value

def relkind (relname : List Char) : Option Char :=
  (catalog.relations.find? fun relation => relation.relname = relname).map Relation.relkind

/-- The table of the rows with a value. -/
def route (value : List Char) : Option (List Char) :=
  (catalog.partitions.find? fun partition => partition.value = value).map Partition.table

def createPartition (table value : List Char) : Except Error Catalog :=
  if htable : table ∈ catalog.relnames then .error .duplicateTable
  else if hvalue : value ∈ catalog.values then .error .overlap
  else .ok {
    relations := catalog.relations ++ [⟨table, 'r'⟩]
    partitions := catalog.partitions ++ [⟨table, value⟩]
    relname_nodup := by
      rw [List.map_append]
      exact catalog.relname_nodup.append (List.nodup_singleton _)
        (List.disjoint_singleton.mpr htable)
    table_mem := by
      intro partition hmem
      rw [List.map_append, List.mem_append]
      obtain hold | hnew := List.mem_append.mp hmem
      · exact Or.inl (catalog.table_mem partition hold)
      · rw [List.mem_singleton] at hnew
        subst hnew
        exact Or.inr (List.mem_singleton_self _)
    value_nodup := by
      rw [List.map_append]
      exact catalog.value_nodup.append (List.nodup_singleton _)
        (List.disjoint_singleton.mpr hvalue) }

end Catalog

variable (letters : Letters) (folding : Folding)

def isSafeIdentifier (name : List Char) : Bool :=
  name.all fun c => letters.isLetterOrDigit c || c = '_' || c = '-'

def shares : List Char := ['s', 'h', 'a', 'r', 'e', 's']

def partitionName (poolId : List Char) : List Char := shares ++ '_' :: poolId

/-- Whether there is a table of exactly this name. -/
def partitionExists (poolId : List Char) (catalog : Catalog) : Bool :=
  catalog.relations.any fun relation =>
    relation.relname = partitionName poolId && relation.relkind = 'r'

/-- The statement is read to its end only if the name has no other characters. -/
def createTable (poolId : List Char) (catalog : Catalog) : Except Error Catalog :=
  if (partitionName poolId).all isIdentifierChar then
    catalog.createPartition (identifier folding (partitionName poolId)) poolId
  else .error .syntaxError

def ensureSharesPartition (poolId : List Char) (catalog : Catalog) : Except Error Catalog :=
  if poolId = [] then .error .argument
  else if ¬ isSafeIdentifier letters poolId then .ok catalog
  else if catalog.relkind shares ≠ some 'p' then .ok catalog
  else if partitionExists poolId catalog then .ok catalog
  else createTable folding poolId catalog

/-- Pools that are started one after the other. -/
def ensureAll : List (List Char) → Catalog → Except Error Catalog
  | [], catalog => .ok catalog
  | poolId :: rest, catalog => do
      let catalog ← ensureSharesPartition letters folding poolId catalog
      ensureAll rest catalog

section Names

variable {letters : Letters} {folding : Folding} {poolId : List Char}

/-- A pool id whose partition has the name that is looked for. -/
structure IsCanonical (folding : Folding) (poolId : List Char) : Prop where
  no_hyphen : '-' ∉ poolId
  folded : poolId.map folding.lower = poolId
  short : utf8Length poolId ≤ 56

theorem utf8Length_append (text text' : List Char) :
    utf8Length (text ++ text') = utf8Length text + utf8Length text' := by
  induction text with
  | nil => exact (Nat.zero_add _).symm
  | cons c rest ih => rw [List.cons_append, utf8Length, ih, utf8Length, Nat.add_assoc]

theorem map_lower_partitionName (folding : Folding) (poolId : List Char) :
    (partitionName poolId).map folding.lower = partitionName (poolId.map folding.lower) := by
  have hplain : (shares.all fun c => decide (c.val < 128) && decide (c.toLower = c)) = true := by
    decide
  have hshares : shares.map folding.lower = shares :=
    calc shares.map folding.lower
        = shares.map id := by
          apply List.map_congr_left
          intro c hmem
          have hc := Bool.and_eq_true_iff.mp (List.all_eq_true.mp hplain c hmem)
          exact (folding.ascii c (of_decide_eq_true hc.1)).trans (of_decide_eq_true hc.2)
      _ = shares := List.map_id shares
  have hline : folding.lower '_' = '_' := folding.ascii '_' (by decide)
  rw [partitionName, List.map_append, List.map_cons, hshares, hline, partitionName]

theorem partitionName_injective : Function.Injective partitionName :=
  fun _ _ heq => List.cons_injective (List.append_cancel_left heq)

/-- Seven bytes of a name are those of the table of all shares. -/
theorem utf8Length_partitionName (poolId : List Char) :
    utf8Length (partitionName poolId) = 7 + utf8Length poolId := by
  have hprefix : utf8Length ['s', 'h', 'a', 'r', 'e', 's', '_'] = 7 := by decide
  calc utf8Length (partitionName poolId)
      = utf8Length (['s', 'h', 'a', 'r', 'e', 's', '_'] ++ poolId) := rfl
    _ = 7 + utf8Length poolId := by rw [utf8Length_append, hprefix]

theorem identifier_partitionName_iff :
    identifier folding (partitionName poolId) = partitionName poolId ↔
      poolId.map folding.lower = poolId ∧ utf8Length poolId ≤ 56 := by
  rw [identifier_eq_iff, map_lower_partitionName, partitionName_injective.eq_iff,
    utf8Length_partitionName]
  constructor
  · rintro ⟨hfolded, hshort⟩
    exact ⟨hfolded, by omega⟩
  · rintro ⟨hfolded, hshort⟩
    exact ⟨hfolded, by omega⟩

/-- Of the characters that are accepted, only the hyphen ends a name. -/
theorem isIdentifierChar_iff {c : Char}
    (hsafe : letters.isLetterOrDigit c || c = '_' || c = '-') :
    isIdentifierChar c ↔ c ≠ '-' := by
  constructor
  · rintro hc rfl
    exact absurd hc (by decide)
  · intro hne
    by_cases hascii : c.val < 128
    · rw [letters.ascii c hascii] at hsafe
      simp only [Bool.or_eq_true, decide_eq_true_eq, hne, or_false] at hsafe
      simp only [isIdentifierChar, Bool.or_eq_true, decide_eq_true_eq]
      exact Or.inl (Or.inl hsafe)
    · simp only [isIdentifierChar, Bool.or_eq_true, decide_eq_true_eq]
      exact Or.inr (UInt32.not_lt.mp hascii)

theorem all_isIdentifierChar_iff (hsafe : isSafeIdentifier letters poolId) :
    (partitionName poolId).all isIdentifierChar ↔ '-' ∉ poolId := by
  have hprefix : shares.all isIdentifierChar = true := by decide
  have hline : isIdentifierChar '_' = true := by decide
  rw [partitionName, List.all_append, List.all_cons, hprefix, hline, Bool.true_and,
    Bool.true_and, List.all_eq_true]
  rw [isSafeIdentifier, List.all_eq_true] at hsafe
  constructor
  · intro hall hmem
    exact (isIdentifierChar_iff (hsafe _ hmem)).mp (hall _ hmem) rfl
  · intro hnot c hmem
    apply (isIdentifierChar_iff (hsafe c hmem)).mpr
    rintro rfl
    exact hnot hmem

theorem partitionName_ne_shares (poolId : List Char) : partitionName poolId ≠ shares := by
  intro heq
  have hlength := congrArg List.length heq
  rw [partitionName, List.length_append, List.length_cons] at hlength
  omega

end Names

namespace Catalog

variable {catalog catalog' : Catalog} {table value relname : List Char}

/-- What a statement that creates a partition leaves. -/
structure IsCreated (catalog : Catalog) (table value : List Char) (catalog' : Catalog) : Prop where
  relations_eq : catalog'.relations = catalog.relations ++ [⟨table, 'r'⟩]
  partitions_eq : catalog'.partitions = catalog.partitions ++ [⟨table, value⟩]

theorem createPartition_eq_ok (htable : table ∉ catalog.relnames)
    (hvalue : value ∉ catalog.values) :
    ∃ catalog', catalog.createPartition table value = .ok catalog' ∧
      catalog.IsCreated table value catalog' := by
  rw [createPartition, dif_neg htable, dif_neg hvalue]
  exact ⟨_, rfl, rfl, rfl⟩

theorem of_createPartition_eq_ok (hok : catalog.createPartition table value = .ok catalog') :
    table ∉ catalog.relnames ∧ value ∉ catalog.values ∧
      catalog.IsCreated table value catalog' := by
  by_cases htable : table ∈ catalog.relnames
  · rw [createPartition, dif_pos htable] at hok
    cases hok
  by_cases hvalue : value ∈ catalog.values
  · rw [createPartition, dif_neg htable, dif_pos hvalue] at hok
    cases hok
  · rw [createPartition, dif_neg htable, dif_neg hvalue] at hok
    cases hok
    exact ⟨htable, hvalue, rfl, rfl⟩

theorem mem_relnames_of_relkind {relkind : Char} (hkind : catalog.relkind relname = some relkind) :
    relname ∈ catalog.relnames := by
  obtain ⟨relation, hfind, -⟩ := Option.map_eq_some_iff.mp hkind
  have hname := List.find?_some hfind
  exact List.mem_map.mpr ⟨relation, List.mem_of_find?_eq_some hfind, of_decide_eq_true hname⟩

theorem mem_relnames_of_route (hroute : catalog.route value = some table) :
    table ∈ catalog.relnames := by
  obtain ⟨partition, hfind, rfl⟩ := Option.map_eq_some_iff.mp hroute
  exact catalog.table_mem partition (List.mem_of_find?_eq_some hfind)

theorem route_eq_none (hvalue : value ∉ catalog.values) : catalog.route value = none := by
  rw [route, Option.map_eq_none_iff, List.find?_eq_none]
  intro partition hmem heq
  exact hvalue (List.mem_map.mpr ⟨partition, hmem, of_decide_eq_true heq⟩)

theorem mem_values_of_route (hroute : catalog.route value = some table) :
    value ∈ catalog.values := by
  by_contra hvalue
  rw [route_eq_none hvalue] at hroute
  cases hroute

namespace IsCreated

variable (h : catalog.IsCreated table value catalog')

include h

theorem relnames_eq : catalog'.relnames = catalog.relnames ++ [table] := by
  rw [relnames, h.relations_eq, List.map_append]
  rfl

theorem values_eq : catalog'.values = catalog.values ++ [value] := by
  rw [values, h.partitions_eq, List.map_append]
  rfl

theorem relkind_eq (hne : table ≠ relname) :
    catalog'.relkind relname = catalog.relkind relname := by
  rw [relkind, h.relations_eq, List.find?_append, relkind]
  simp [hne]

/-- Only the rows with the new value go to the new table. -/
theorem route_eq (hvalue : value ∉ catalog.values) (other : List Char) :
    catalog'.route other = if other = value then some table else catalog.route other := by
  rw [route, h.partitions_eq, List.find?_append, Option.map_or]
  change (catalog.route other).or _ = _
  by_cases heq : other = value
  · rw [heq, route_eq_none hvalue, if_pos rfl]
    simp
  · have hnone : [Partition.mk table value].find? (fun partition => partition.value = other) =
        none := by
      simp [Ne.symm heq]
    rw [hnone, if_neg heq, Option.map_none, Option.or_none]

end IsCreated

end Catalog

section Calls

variable {letters : Letters} {folding : Folding} {catalog catalog' : Catalog}
  {poolId other : List Char}

theorem partitionExists_iff :
    partitionExists poolId catalog ↔ ⟨partitionName poolId, 'r'⟩ ∈ catalog.relations := by
  rw [partitionExists, List.any_eq_true]
  constructor
  · rintro ⟨⟨relname, relkind⟩, hmem, heq⟩
    obtain ⟨hname, hkind⟩ := Bool.and_eq_true_iff.mp heq
    obtain rfl : relname = partitionName poolId := of_decide_eq_true hname
    obtain rfl : relkind = 'r' := of_decide_eq_true hkind
    exact hmem
  · intro hmem
    exact ⟨_, hmem, by simp⟩

theorem ensureSharesPartition_of_exists (hne : poolId ≠ [])
    (hexists : partitionExists poolId catalog) :
    ensureSharesPartition letters folding poolId catalog = .ok catalog := by
  rw [ensureSharesPartition, if_neg hne, if_pos hexists, ite_self, ite_self]

theorem ensureSharesPartition_of_not_exists (hne : poolId ≠ [])
    (hsafe : isSafeIdentifier letters poolId) (hshares : catalog.relkind shares = some 'p')
    (hexists : ¬ partitionExists poolId catalog) :
    ensureSharesPartition letters folding poolId catalog = createTable folding poolId catalog := by
  rw [ensureSharesPartition, if_neg hne, if_neg (not_not_intro hsafe),
    if_neg (not_not_intro hshares), if_neg hexists]

theorem of_createTable_eq_ok (hsafe : isSafeIdentifier letters poolId)
    (hok : createTable folding poolId catalog = .ok catalog') :
    '-' ∉ poolId ∧ identifier folding (partitionName poolId) ∉ catalog.relnames ∧
      poolId ∉ catalog.values ∧
      catalog.IsCreated (identifier folding (partitionName poolId)) poolId catalog' := by
  by_cases hall : (partitionName poolId).all isIdentifierChar
  · rw [createTable, if_pos hall] at hok
    exact ⟨(all_isIdentifierChar_iff hsafe).mp hall, Catalog.of_createPartition_eq_ok hok⟩
  · rw [createTable, if_neg hall] at hok
    cases hok

namespace Catalog

/-- The shares of a pool, and no others, go to one table. -/
structure HasPartition (catalog : Catalog) (poolId : List Char) : Prop where
  exists_table : partitionExists poolId catalog
  routes : ∃ table, ∀ value, catalog.route value = some table ↔ value = poolId

structure Lacks (catalog : Catalog) (poolId : List Char) : Prop where
  not_mem_relnames : partitionName poolId ∉ catalog.relnames
  not_mem_values : poolId ∉ catalog.values

theorem HasPartition.mem_values (h : catalog.HasPartition poolId) : poolId ∈ catalog.values := by
  obtain ⟨table, hroute⟩ := h.routes
  exact mem_values_of_route ((hroute poolId).mpr rfl)

theorem mem_relnames_of_exists (hexists : partitionExists poolId catalog) :
    partitionName poolId ∈ catalog.relnames :=
  List.mem_map.mpr ⟨_, partitionExists_iff.mp hexists, rfl⟩

namespace IsCreated

variable {table : List Char} (h : catalog.IsCreated table poolId catalog')

include h

theorem partitionExists_iff_or :
    partitionExists other catalog' ↔
      partitionExists other catalog ∨ partitionName other = table := by
  rw [partitionExists_iff, h.relations_eq, List.mem_append, List.mem_singleton,
    Relation.mk.injEq, and_iff_left rfl, partitionExists_iff]

/-- Another table leaves a pool its own. -/
theorem hasPartition (htable : table ∉ catalog.relnames) (hvalue : poolId ∉ catalog.values)
    (hother : catalog.HasPartition other) : catalog'.HasPartition other := by
  constructor
  · exact h.partitionExists_iff_or.mpr (Or.inl hother.exists_table)
  · obtain ⟨own, hroute⟩ := hother.routes
    refine ⟨own, fun value => ?_⟩
    rw [h.route_eq hvalue]
    by_cases heq : value = poolId
    · rw [if_pos heq, heq]
      apply iff_of_false
      · intro hsame
        have hmem := mem_relnames_of_route ((hroute other).mpr rfl)
        rw [← Option.some.inj hsame] at hmem
        exact htable hmem
      · rintro rfl
        exact hvalue hother.mem_values
    · rw [if_neg heq]
      exact hroute value

/-- A pool finds a table that has the name it looks for. -/
theorem hasPartition_self (hname : partitionName poolId = table)
    (htable : table ∉ catalog.relnames) (hvalue : poolId ∉ catalog.values) :
    catalog'.HasPartition poolId := by
  constructor
  · exact h.partitionExists_iff_or.mpr (Or.inr hname)
  · refine ⟨table, fun value => ?_⟩
    rw [h.route_eq hvalue]
    by_cases heq : value = poolId
    · rw [if_pos heq]
      exact iff_of_true rfl heq
    · rw [if_neg heq]
      apply iff_of_false _ heq
      intro hroute
      exact htable (mem_relnames_of_route hroute)

/-- A second call that does not fail has found the table. -/
theorem partitionExists_of_unchanged (hne : poolId ≠ [])
    (hsafe : isSafeIdentifier letters poolId) (hshares : catalog.relkind shares = some 'p')
    (htable : table ∉ catalog.relnames)
    (hagain : ensureSharesPartition letters folding poolId catalog' = .ok catalog') :
    partitionExists poolId catalog' := by
  have hkept : catalog'.relkind shares = some 'p' := by
    rw [h.relkind_eq, hshares]
    rintro rfl
    exact htable (mem_relnames_of_relkind hshares)
  by_contra hmissing
  rw [ensureSharesPartition_of_not_exists hne hsafe hkept hmissing] at hagain
  obtain ⟨-, -, hvalue, -⟩ := of_createTable_eq_ok hsafe hagain
  apply hvalue
  rw [h.values_eq]
  exact List.mem_append_right _ (List.mem_singleton_self poolId)

theorem lacks (hne : other ≠ poolId) (hname : partitionName poolId = table)
    (hother : catalog.Lacks other) : catalog'.Lacks other := by
  constructor
  · rw [h.relnames_eq, List.mem_append, List.mem_singleton, ← hname]
    rintro (hold | hnew)
    · exact hother.not_mem_relnames hold
    · exact hne (partitionName_injective hnew)
  · rw [h.values_eq, List.mem_append, List.mem_singleton]
    rintro (hold | hnew)
    · exact hother.not_mem_values hold
    · exact hne hnew

end IsCreated

end Catalog

/-- A pool that has its partition, or can have one of the name it looks for. -/
def IsReady (folding : Folding) (catalog : Catalog) (poolId : List Char) : Prop :=
  poolId ≠ [] ∧
    (catalog.HasPartition poolId ∨ catalog.Lacks poolId ∧ IsCanonical folding poolId)

/-- What no call takes away. -/
structure Extends (folding : Folding) (catalog catalog' : Catalog) : Prop where
  relkind_shares : catalog'.relkind shares = catalog.relkind shares
  hasPartition (poolId : List Char) : catalog.HasPartition poolId → catalog'.HasPartition poolId
  isReady (poolId : List Char) : IsReady folding catalog poolId → IsReady folding catalog' poolId

theorem Extends.refl (folding : Folding) (catalog : Catalog) : Extends folding catalog catalog :=
  ⟨rfl, fun _ => id, fun _ => id⟩

theorem Extends.trans {catalog'' : Catalog} (h : Extends folding catalog catalog')
    (h' : Extends folding catalog' catalog'') : Extends folding catalog catalog'' where
  relkind_shares := h'.relkind_shares.trans h.relkind_shares
  hasPartition poolId hpool := h'.hasPartition poolId (h.hasPartition poolId hpool)
  isReady poolId hpool := h'.isReady poolId (h.isReady poolId hpool)

theorem Catalog.IsCreated.extends (h : catalog.IsCreated (partitionName poolId) poolId catalog')
    (hlacks : catalog.Lacks poolId) : Extends folding catalog catalog' where
  relkind_shares := h.relkind_eq (partitionName_ne_shares poolId)
  hasPartition _ := h.hasPartition hlacks.not_mem_relnames hlacks.not_mem_values
  isReady other hready := by
    refine ⟨hready.1, ?_⟩
    obtain hhas | ⟨hother, hcanonical⟩ := hready.2
    · exact Or.inl (h.hasPartition hlacks.not_mem_relnames hlacks.not_mem_values hhas)
    · by_cases heq : other = poolId
      · rw [heq]
        exact Or.inl (h.hasPartition_self rfl hlacks.not_mem_relnames hlacks.not_mem_values)
      · exact Or.inr ⟨h.lacks heq rfl hother, hcanonical⟩

theorem createTable_of_isCanonical (hsafe : isSafeIdentifier letters poolId)
    (hcanonical : IsCanonical folding poolId) (hlacks : catalog.Lacks poolId) :
    ∃ catalog', createTable folding poolId catalog = .ok catalog' ∧
      catalog.IsCreated (partitionName poolId) poolId catalog' := by
  have hname := identifier_partitionName_iff.mpr ⟨hcanonical.folded, hcanonical.short⟩
  rw [createTable, if_pos ((all_isIdentifierChar_iff hsafe).mpr hcanonical.no_hyphen), hname]
  exact Catalog.createPartition_eq_ok hlacks.not_mem_relnames hlacks.not_mem_values

/-- A call for a pool that is ready leaves it with its partition. -/
theorem IsReady.ensureSharesPartition (hready : IsReady folding catalog poolId)
    (hsafe : isSafeIdentifier letters poolId) (hshares : catalog.relkind shares = some 'p') :
    ∃ catalog', ensureSharesPartition letters folding poolId catalog = .ok catalog' ∧
      catalog'.HasPartition poolId ∧ Extends folding catalog catalog' := by
  obtain ⟨hne, hhas | ⟨hlacks, hcanonical⟩⟩ := hready
  · exact ⟨catalog, ensureSharesPartition_of_exists hne hhas.exists_table, hhas,
      Extends.refl folding catalog⟩
  · have hexists : ¬ partitionExists poolId catalog :=
      fun hexists => hlacks.not_mem_relnames (Catalog.mem_relnames_of_exists hexists)
    obtain ⟨catalog', hok, hcreated⟩ := createTable_of_isCanonical hsafe hcanonical hlacks
    rw [ensureSharesPartition_of_not_exists hne hsafe hshares hexists]
    exact ⟨catalog', hok,
      hcreated.hasPartition_self rfl hlacks.not_mem_relnames hlacks.not_mem_values,
      hcreated.extends hlacks⟩

/-- The calls of a run, each for a pool that is ready, leave all of them their partitions. -/
theorem ensureAll_of_isReady {run : List (List Char)}
    (hready : ∀ poolId ∈ run, isSafeIdentifier letters poolId ∧ IsReady folding catalog poolId)
    (hshares : catalog.relkind shares = some 'p') :
    ∃ catalog', ensureAll letters folding run catalog = .ok catalog' ∧
      (∀ poolId ∈ run, catalog'.HasPartition poolId) ∧ Extends folding catalog catalog' := by
  induction run generalizing catalog with
  | nil => exact ⟨catalog, rfl, by simp, Extends.refl folding catalog⟩
  | cons poolId rest ih =>
      obtain ⟨hsafe, hpool⟩ := hready poolId List.mem_cons_self
      obtain ⟨first, hfirst, hhas, hextends⟩ := hpool.ensureSharesPartition hsafe hshares
      have hrest : ∀ other ∈ rest,
          isSafeIdentifier letters other ∧ IsReady folding first other := by
        intro other hmem
        obtain ⟨hsafe', hother⟩ := hready other (List.mem_cons_of_mem poolId hmem)
        exact ⟨hsafe', hextends.isReady other hother⟩
      obtain ⟨last, hlast, hall, hextends'⟩ := ih hrest (hextends.relkind_shares.trans hshares)
      refine ⟨last, ?_, ?_, hextends.trans hextends'⟩
      · rw [ensureAll, hfirst]
        exact hlast
      · intro other hmem
        obtain rfl | hmem := List.mem_cons.mp hmem
        · exact hextends'.hasPartition other hhas
        · exact hall other hmem

end Calls

section Starts

variable {letters : Letters} {folding : Folding} {start : Catalog} {ids : Set (List Char)}

/-- Pools are started in any order and as often as it happens. -/
structure Partitions (letters : Letters) (folding : Folding) (start : Catalog)
    (ids : Set (List Char)) : Prop where
  succeeds (run : List (List Char)) : (∀ poolId ∈ run, poolId ∈ ids) →
    ∃ catalog, ensureAll letters folding run start = .ok catalog
  routes (run : List (List Char)) (catalog : Catalog) : (∀ poolId ∈ run, poolId ∈ ids) →
    ensureAll letters folding run start = .ok catalog →
      ∀ poolId ∈ run, ∃ table, ∀ value, catalog.route value = some table ↔ value = poolId
  unchanged (run : List (List Char)) (catalog : Catalog) : (∀ poolId ∈ run, poolId ∈ ids) →
    ensureAll letters folding run start = .ok catalog →
      ∀ poolId ∈ run, ensureSharesPartition letters folding poolId catalog = .ok catalog
  injective (run : List (List Char)) (catalog : Catalog) : (∀ poolId ∈ run, poolId ∈ ids) →
    ensureAll letters folding run start = .ok catalog →
      ∀ poolId ∈ run, ∀ other ∈ run, catalog.route poolId = catalog.route other → poolId = other

theorem Partitions.of_isReady (hsafe : ∀ poolId ∈ ids, isSafeIdentifier letters poolId)
    (hshares : start.relkind shares = some 'p')
    (hready : ∀ poolId ∈ ids, IsReady folding start poolId) :
    Partitions letters folding start ids := by
  have hrun : ∀ run : List (List Char), (∀ poolId ∈ run, poolId ∈ ids) →
      ∃ catalog, ensureAll letters folding run start = .ok catalog ∧
        ∀ poolId ∈ run, poolId ≠ [] ∧ catalog.HasPartition poolId := by
    intro run hids
    obtain ⟨catalog, hok, hall, -⟩ := ensureAll_of_isReady
      (fun poolId hmem => ⟨hsafe poolId (hids poolId hmem), hready poolId (hids poolId hmem)⟩)
      hshares
    exact ⟨catalog, hok, fun poolId hmem =>
      ⟨(hready poolId (hids poolId hmem)).1, hall poolId hmem⟩⟩
  have hstate : ∀ run catalog, (∀ poolId ∈ run, poolId ∈ ids) →
      ensureAll letters folding run start = .ok catalog →
        ∀ poolId ∈ run, poolId ≠ [] ∧ catalog.HasPartition poolId := by
    intro run catalog hids hok
    obtain ⟨catalog', hok', hall⟩ := hrun run hids
    obtain rfl := Except.ok.inj (hok'.symm.trans hok)
    exact hall
  constructor
  case succeeds =>
    intro run hids
    obtain ⟨catalog, hok, -⟩ := hrun run hids
    exact ⟨catalog, hok⟩
  case routes =>
    intro run catalog hids hok poolId hmem
    exact (hstate run catalog hids hok poolId hmem).2.routes
  case unchanged =>
    intro run catalog hids hok poolId hmem
    obtain ⟨hne, hhas⟩ := hstate run catalog hids hok poolId hmem
    exact ensureSharesPartition_of_exists hne hhas.exists_table
  case injective =>
    intro run catalog hids hok poolId hmem other hmem' hsame
    obtain ⟨table, hroute⟩ := (hstate run catalog hids hok other hmem').2.routes
    exact (hroute poolId).mp (hsame.trans ((hroute other).mpr rfl))

/-- The first start of a pool, and a second one, already tell whether it is ready. -/
theorem Partitions.isReady (h : Partitions letters folding start ids)
    (hsafe : ∀ poolId ∈ ids, isSafeIdentifier letters poolId)
    (hshares : start.relkind shares = some 'p') {poolId : List Char} (hmem : poolId ∈ ids) :
    IsReady folding start poolId := by
  have hids : ∀ other ∈ [poolId], other ∈ ids := by
    intro other hother
    rw [List.mem_singleton.mp hother]
    exact hmem
  have hself := List.mem_singleton_self poolId
  obtain ⟨catalog, hrun⟩ := h.succeeds [poolId] hids
  have hroutes := h.routes [poolId] catalog hids hrun poolId hself
  have hagain := h.unchanged [poolId] catalog hids hrun poolId hself
  have hok : ensureSharesPartition letters folding poolId start = .ok catalog := by
    cases hfirst : ensureSharesPartition letters folding poolId start with
    | error error =>
        rw [ensureAll, hfirst] at hrun
        cases hrun
    | ok first =>
        rw [ensureAll, hfirst] at hrun
        exact hrun
  have hne : poolId ≠ [] := by
    rintro rfl
    cases hok
  refine ⟨hne, ?_⟩
  by_cases hexists : partitionExists poolId start
  · rw [ensureSharesPartition_of_exists hne hexists] at hok
    cases hok
    exact Or.inl ⟨hexists, hroutes⟩
  · rw [ensureSharesPartition_of_not_exists hne (hsafe poolId hmem) hshares hexists] at hok
    obtain ⟨hhyphen, htable, hvalue, hcreated⟩ := of_createTable_eq_ok (hsafe poolId hmem) hok
    have hfound := hcreated.partitionExists_of_unchanged hne (hsafe poolId hmem) hshares htable
      hagain
    have hname : partitionName poolId = identifier folding (partitionName poolId) :=
      (hcreated.partitionExists_iff_or.mp hfound).resolve_left hexists
    obtain ⟨hfolded, hshort⟩ := identifier_partitionName_iff.mp hname.symm
    rw [← hname] at htable
    exact Or.inr ⟨⟨htable, hvalue⟩, hhyphen, hfolded, hshort⟩

/-- The partitions are right if and only if, for each pool, its table is there with exactly its
shares, or nothing is in the way of a table that has the name looked for. -/
theorem partitions_iff_isReady (hsafe : ∀ poolId ∈ ids, isSafeIdentifier letters poolId)
    (hshares : start.relkind shares = some 'p') :
    Partitions letters folding start ids ↔ ∀ poolId ∈ ids, IsReady folding start poolId := by
  constructor
  · intro h poolId hmem
    exact h.isReady hsafe hshares hmem
  · intro hready
    exact Partitions.of_isReady hsafe hshares hready

/-- On a table without partitions, only the pool ids decide. -/
theorem partitions_iff_of_lacks (hsafe : ∀ poolId ∈ ids, isSafeIdentifier letters poolId)
    (hshares : start.relkind shares = some 'p') (hlacks : ∀ poolId ∈ ids, start.Lacks poolId) :
    Partitions letters folding start ids ↔
      ∀ poolId ∈ ids, poolId ≠ [] ∧ IsCanonical folding poolId := by
  constructor
  · intro h poolId hmem
    obtain ⟨hne, hhas | ⟨-, hcanonical⟩⟩ := h.isReady hsafe hshares hmem
    · exact absurd hhas.mem_values (hlacks poolId hmem).not_mem_values
    · exact ⟨hne, hcanonical⟩
  · intro hall
    apply Partitions.of_isReady hsafe hshares
    intro poolId hmem
    obtain ⟨hne, hcanonical⟩ := hall poolId hmem
    exact ⟨hne, Or.inr ⟨hlacks poolId hmem, hcanonical⟩⟩

end Starts

def asciiLetters : Letters := ⟨Char.isAlphanum, fun _ _ => rfl⟩

def asciiFolding : Folding := ⟨Char.toLower, fun _ _ => rfl⟩

/-- The catalog after the script that creates a partitioned table. -/
def partitionedShares : Catalog where
  relations := [⟨shares, 'p'⟩]
  partitions := []
  relname_nodup := List.nodup_singleton shares
  table_mem _ hmem := absurd hmem List.not_mem_nil
  value_nodup := List.nodup_nil

theorem partitions_btc1 :
    Partitions asciiLetters asciiFolding partitionedShares {['b', 't', 'c', '1']} := by
  apply (partitions_iff_isReady _ rfl).mpr
  · intro poolId hmem
    rw [Set.mem_singleton_iff.mp hmem]
    exact ⟨by decide, Or.inr ⟨⟨by decide, by decide⟩, by decide, by decide, by decide⟩⟩
  · intro poolId hmem
    rw [Set.mem_singleton_iff.mp hmem]
    decide

/-- A pool id with a hyphen is accepted, and the statement is no SQL. One with capitals is
accepted as well, and at the second start its table is looked for under another name. -/
theorem not_partitions_of_hyphen_and_capitals :
    (isSafeIdentifier asciiLetters ['m', 'y', '-', 'p', 'o', 'o', 'l'] ∧
      ¬ Partitions asciiLetters asciiFolding partitionedShares
        {['m', 'y', '-', 'p', 'o', 'o', 'l']}) ∧
    isSafeIdentifier asciiLetters ['B', 'T', 'C', '1'] ∧
      ¬ Partitions asciiLetters asciiFolding partitionedShares {['B', 'T', 'C', '1']} := by
  refine ⟨⟨by decide, fun h => ?_⟩, by decide, fun h => ?_⟩
  · obtain ⟨catalog, hok⟩ := h.succeeds [['m', 'y', '-', 'p', 'o', 'o', 'l']] (by simp)
    have herror : ensureAll asciiLetters asciiFolding [['m', 'y', '-', 'p', 'o', 'o', 'l']]
        partitionedShares = .error .syntaxError := rfl
    rw [herror] at hok
    cases hok
  · obtain ⟨catalog, hok⟩ := h.succeeds [['B', 'T', 'C', '1'], ['B', 'T', 'C', '1']] (by simp)
    have herror : ensureAll asciiLetters asciiFolding [['B', 'T', 'C', '1'], ['B', 'T', 'C', '1']]
        partitionedShares = .error .duplicateTable := rfl
    rw [herror] at hok
    cases hok

end Miningcore.PartitionManager
