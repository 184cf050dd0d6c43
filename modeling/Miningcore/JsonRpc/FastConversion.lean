import Mathlib.Tactic.Common
import Miningcore.JsonRpc.JsonRpcRequest

/-!
# The fast conversion of parameters

The fast conversion adds the strings, numbers and nulls that it meets up to the
first end of an array. The library reads booleans as their words and throws on
nested arrays and objects. So they agree on an array exactly if it has nothing but
strings, numbers and nulls, or if the fast conversion throws.
-/

namespace Miningcore.JsonRpcRequest

open Foundation

variable {δ ο : Type} {newtonsoft : Newtonsoft δ ο}

/-- Words of the library for booleans. -/
def booleanText (value : Bool) : Utf16 := if value then utf16 "true" else utf16 "false"

/-- How the library reads an array for strings: element by element, a boolean as its word, and not
if there is another array or an object in it. -/
structure ReadsStrings (newtonsoft : Newtonsoft δ ο)
    (readAsString : JsonScalar → Option (Option Utf16)) : Prop where
  array (elements : List JsonText) :
    newtonsoft.stringArray (JsonDocument.array elements).tokens =
      elements.mapM fun element =>
        match element with
        | .scalar s => readAsString s
        | _ => none
  string {value : List UInt8} {text : Utf16} (h : Utf8JsonReader.getString value = some text) :
    readAsString (.string value) = some (some text)
  number (value : List UInt8) :
    readAsString (.number value) = some (some (value.map UInt8.toUInt16))
  boolean (value : Bool) : readAsString (.boolean value) = some (some (booleanText value))
  null : readAsString .null = some none

/-- What the fast conversion returns is what the library reads. -/
def FastAgrees (newtonsoft : Newtonsoft δ ο) (elements : List JsonText) : Prop :=
  ∀ texts, fastDeserializeParams (JsonDocument.array elements).tokens = some texts →
    newtonsoft.stringArray (JsonDocument.array elements).tokens = some texts

/-- A string, a number or a null. -/
def IsText : JsonText → Prop
  | .scalar (.boolean _) => False
  | .scalar _ => True
  | _ => False

/-- What the loop goes over. -/
def beforeEnd (tokens : List Utf8JsonToken) : List Utf8JsonToken :=
  tokens.takeWhile (· ≠ JsonToken.endArray)

/-- A string without a text stands before the first end of an array. -/
def Throws (tokens : List Utf8JsonToken) : Prop :=
  ∃ value, JsonToken.scalar (.string value) ∈ beforeEnd tokens ∧
    Utf8JsonReader.getString value = none

section fast

theorem tokens_array (elements : List JsonText) : (JsonDocument.array elements).tokens =
    .startArray :: (JsonDocument.elementTokens elements ++ [.endArray]) :=
  JsonDocument.tokens.eq_2 elements

theorem beforeEnd_cons {token : Utf8JsonToken} (h : token ≠ .endArray)
    (rest : List Utf8JsonToken) : beforeEnd (token :: rest) = token :: beforeEnd rest :=
  List.takeWhile_cons_of_pos (decide_eq_true h)

theorem throws_cons {token : Utf8JsonToken} (h : token ≠ .endArray) {rest : List Utf8JsonToken} :
    Throws (token :: rest) ↔
      (∃ value, token = .scalar (.string value) ∧ Utf8JsonReader.getString value = none) ∨
        Throws rest := by
  rw [Throws, beforeEnd_cons h]
  constructor
  · rintro ⟨value, hmem, hnone⟩
    obtain rfl | hrest := List.mem_cons.mp hmem
    · exact .inl ⟨value, rfl, hnone⟩
    · exact .inr ⟨value, hrest, hnone⟩
  · rintro (⟨value, rfl, hnone⟩ | ⟨value, hrest, hnone⟩)
    · exact ⟨value, List.mem_cons_self, hnone⟩
    · exact ⟨value, List.mem_cons_of_mem _ hrest, hnone⟩

/-- The loop throws at a string without a text only. -/
theorem fastElements_eq_none_iff {tokens : List Utf8JsonToken} :
    fastElements tokens = none ↔ Throws tokens := by
  induction tokens using fastElements.induct with
  | case1 => simp [fastElements, Throws, beforeEnd]
  | case2 rest => simp [fastElements, Throws, beforeEnd]
  | case3 value rest ih =>
      rw [throws_cons (by simp), ← ih, fastElements]
      cases hget : Utf8JsonReader.getString value with
      | none => simp [hget]
      | some text => cases fastElements rest <;> simp [hget]
  | case4 value rest ih =>
      rw [throws_cons (by simp), ← ih, fastElements]
      cases fastElements rest <;> simp
  | case5 rest ih =>
      rw [throws_cons (by simp), ← ih, fastElements]
      cases fastElements rest <;> simp
  | case6 token rest hend hstring hnumber hnull ih =>
      rw [throws_cons hend, ← ih, fastElements]
      · have hother : ¬∃ value, token = .scalar (.string value) ∧
            Utf8JsonReader.getString value = none :=
          fun ⟨value, htoken, _⟩ => hstring value htoken
        rw [or_iff_right hother]
      all_goals assumption

end fast

section texts

variable {readAsString : JsonScalar → Option (Option Utf16)}

theorem elementTokens_scalar (s : JsonScalar) (elements : List JsonText) :
    JsonDocument.elementTokens (.scalar s :: elements) ++ [.endArray] =
      JsonToken.scalar s :: (JsonDocument.elementTokens elements ++ [.endArray]) := by
  rw [JsonDocument.elementTokens, JsonDocument.tokens]
  rfl

/-- A scalar is added as the library reads it, if it is not a boolean. -/
theorem fastElements_scalar (h : ReadsStrings newtonsoft readAsString) {s : JsonScalar}
    {rest : List Utf8JsonToken} {texts : List (Option Utf16)}
    (hfast : fastElements (.scalar s :: rest) = some texts) :
    ∃ texts', fastElements rest = some texts' ∧
      ((∃ value, s = .boolean value) ∧ texts = texts' ∨
        IsText (.scalar s) ∧ ∃ text, readAsString s = some text ∧ texts = text :: texts') := by
  cases s with
  | string value =>
      rw [fastElements] at hfast
      obtain ⟨text, hget, htail⟩ := Option.bind_eq_some_iff.mp hfast
      obtain ⟨texts', hrest, heq⟩ := Option.bind_eq_some_iff.mp htail
      exact ⟨texts', hrest, .inr ⟨trivial, _, h.string hget, (Option.some.inj heq).symm⟩⟩
  | number value =>
      rw [fastElements] at hfast
      obtain ⟨texts', hrest, heq⟩ := Option.bind_eq_some_iff.mp hfast
      exact ⟨texts', hrest, .inr ⟨trivial, _, h.number value, (Option.some.inj heq).symm⟩⟩
  | boolean value => exact ⟨texts, hfast, .inl ⟨⟨value, rfl⟩, rfl⟩⟩
  | null =>
      rw [fastElements] at hfast
      obtain ⟨texts', hrest, heq⟩ := Option.bind_eq_some_iff.mp hfast
      exact ⟨texts', hrest, .inr ⟨trivial, _, h.null, (Option.some.inj heq).symm⟩⟩

/-- From scalars the loop makes what the library makes of them if there is no boolean, and fewer
texts otherwise. -/
theorem fastElements_scalars (h : ReadsStrings newtonsoft readAsString)
    {scalars : List JsonScalar} {texts : List (Option Utf16)}
    (hfast : fastElements (JsonDocument.elementTokens (scalars.map JsonDocument.scalar) ++
      [.endArray]) = some texts) :
    ((∀ s ∈ scalars, IsText (.scalar s)) ∧ scalars.mapM readAsString = some texts ∧
        texts.length = scalars.length) ∨
      (∃ s ∈ scalars, ¬IsText (.scalar s)) ∧ texts.length < scalars.length := by
  induction scalars generalizing texts with
  | nil =>
      obtain rfl : [] = texts := Option.some.inj hfast
      exact .inl ⟨fun _ hs => absurd hs List.not_mem_nil, rfl, rfl⟩
  | cons s scalars ih =>
      rw [List.map_cons, elementTokens_scalar] at hfast
      obtain ⟨texts', hrest, ⟨⟨value, rfl⟩, rfl⟩ | ⟨hs, text, hread, rfl⟩⟩ :=
        fastElements_scalar h hfast
      · refine .inr ⟨⟨_, List.mem_cons_self, not_false⟩, Nat.lt_succ_of_le ?_⟩
        obtain ⟨-, -, hlength⟩ | ⟨-, hfewer⟩ := ih hrest
        · exact hlength.le
        · exact hfewer.le
      · obtain ⟨hscalars, hmap, hlength⟩ | ⟨⟨other, hother, hboolean⟩, hfewer⟩ := ih hrest
        · refine .inl ⟨List.forall_mem_cons.mpr ⟨hs, hscalars⟩, ?_, congrArg Nat.succ hlength⟩
          rw [List.mapM_cons, hread, hmap]
          rfl
        · exact .inr ⟨⟨other, List.mem_cons_of_mem _ hother, hboolean⟩, Nat.succ_lt_succ hfewer⟩

/-- The library reads nothing but scalars, each to a text. -/
theorem exists_scalars_of_stringArray (h : ReadsStrings newtonsoft readAsString)
    {elements : List JsonText} {texts : List (Option Utf16)}
    (hread : newtonsoft.stringArray (JsonDocument.array elements).tokens = some texts) :
    ∃ scalars : List JsonScalar, elements = scalars.map JsonDocument.scalar ∧
      texts.length = scalars.length := by
  rw [h.array] at hread
  induction elements generalizing texts with
  | nil =>
      obtain rfl : [] = texts := Option.some.inj hread
      exact ⟨[], rfl, rfl⟩
  | cons element elements ih =>
      rw [List.mapM_cons] at hread
      obtain ⟨text, helement, htail⟩ := Option.bind_eq_some_iff.mp hread
      obtain ⟨texts', hrest, heq⟩ := Option.bind_eq_some_iff.mp htail
      obtain rfl := Option.some.inj heq
      obtain ⟨scalars, rfl, hlength⟩ := ih hrest
      cases element with
      | scalar s => exact ⟨s :: scalars, rfl, congrArg Nat.succ hlength⟩
      | array elements => contradiction
      | object members => contradiction

theorem stringArray_scalars (h : ReadsStrings newtonsoft readAsString)
    (scalars : List JsonScalar) :
    newtonsoft.stringArray (JsonDocument.array (scalars.map JsonDocument.scalar)).tokens =
      scalars.mapM readAsString := by
  rw [h.array]
  induction scalars with
  | nil => rfl
  | cons s scalars ih => rw [List.map_cons, List.mapM_cons, List.mapM_cons, ih]

theorem exists_scalars_of_isText {elements : List JsonText}
    (h : ∀ element ∈ elements, IsText element) :
    ∃ scalars : List JsonScalar, elements = scalars.map JsonDocument.scalar := by
  induction elements with
  | nil => exact ⟨[], rfl⟩
  | cons element elements ih =>
      obtain ⟨helement, helements⟩ := List.forall_mem_cons.mp h
      obtain ⟨scalars, rfl⟩ := ih helements
      cases element with
      | scalar s => exact ⟨s :: scalars, rfl⟩
      | array elements => exact helement.elim
      | object members => exact helement.elim

end texts

/-- On an array the fast conversion agrees with the library exactly if the array has only strings,
numbers and nulls or the conversion throws. -/
theorem fastAgrees_iff {readAsString : JsonScalar → Option (Option Utf16)}
    (h : ReadsStrings newtonsoft readAsString) (elements : List JsonText) :
    FastAgrees newtonsoft elements ↔ (∀ element ∈ elements, IsText element) ∨
      Throws (JsonDocument.elementTokens elements ++ [.endArray]) := by
  have hfast : fastDeserializeParams (JsonDocument.array elements).tokens =
      fastElements (JsonDocument.elementTokens elements ++ [.endArray]) := by
    rw [tokens_array, fastDeserializeParams]
  rw [FastAgrees, hfast, ← fastElements_eq_none_iff]
  constructor
  · intro hagrees
    rw [or_iff_not_imp_right]
    intro hreturns
    obtain ⟨texts, htexts⟩ := Option.ne_none_iff_exists'.mp hreturns
    obtain ⟨scalars, rfl, hlength⟩ := exists_scalars_of_stringArray h (hagrees texts htexts)
    obtain ⟨hscalars, -⟩ | ⟨-, hfewer⟩ := fastElements_scalars h htexts
    · exact List.forall_mem_map.mpr hscalars
    · exact absurd hlength hfewer.ne
  · rintro (htexts | hthrows) texts hreturned
    · obtain ⟨scalars, rfl⟩ := exists_scalars_of_isText htexts
      obtain ⟨-, hmap, -⟩ | ⟨⟨s, hs, hboolean⟩, -⟩ := fastElements_scalars h hreturned
      · rw [stringArray_scalars h, hmap]
      · exact absurd (htexts _ (List.mem_map_of_mem hs)) hboolean
    · rw [hthrows] at hreturned
      contradiction

section strict

/-- How a library reads a scalar that reads strings as the strict reader does. -/
def strictText : JsonScalar → Option (Option Utf16)
  | .string value => (Utf8JsonReader.getString value).map some
  | .number value => some (some (value.map UInt8.toUInt16))
  | .boolean value => some (some (booleanText value))
  | .null => some none

def strictElements : List Utf8JsonToken → Option (List (Option Utf16))
  | [.endArray] => some []
  | .scalar s :: rest => do
      let text ← strictText s
      let texts ← strictElements rest
      return text :: texts
  | _ => none

/-- A library that reads nothing but arrays for strings. -/
def strictNewtonsoft : Newtonsoft Unit Unit where
  members _ := none
  string _ := none
  object _ := none
  stringArray
    | .startArray :: rest => strictElements rest
    | _ => none
  toStringArray _ := none
  keepsReadOnly := false

theorem readsStrings_strictNewtonsoft : ReadsStrings strictNewtonsoft strictText where
  array elements := by
    rw [tokens_array]
    change strictElements _ = _
    induction elements with
    | nil => rfl
    | cons element elements ih =>
        cases element with
        | scalar s => rw [elementTokens_scalar, strictElements, ih, List.mapM_cons]
        | array inner =>
            rw [JsonDocument.elementTokens, tokens_array, List.mapM_cons]
            rfl
        | object members =>
            rw [JsonDocument.elementTokens, JsonDocument.tokens, List.mapM_cons]
            rfl
  string h := by rw [strictText, h]; rfl
  number _ := rfl
  boolean _ := rfl
  null := rfl

/-- A worker's name and a number of it. -/
theorem fastAgrees_worker : FastAgrees strictNewtonsoft
    [.scalar (.string (ascii "worker")), .scalar (.number (ascii "1")), .scalar .null] := by
  apply (fastAgrees_iff readsStrings_strictNewtonsoft _).mpr
  left
  simp [IsText]

/-- A boolean is skipped, and what follows it takes its place. -/
theorem not_fastAgrees_boolean : ¬FastAgrees strictNewtonsoft
    [.scalar (.boolean true), .scalar (.string (ascii "x"))] := by
  intro h
  exact absurd (h [some (utf16 "x")] (by decide)) (by decide)

end strict

end Miningcore.JsonRpcRequest
