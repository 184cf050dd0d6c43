import Miningcore.JsonRpc.JsonRpcRequest

/-!
# The fast request parser and the members it finds

The parser cuts the first object out of a line and goes once over its tokens. It
takes members by the length and the first byte of their names, at any depth.

## Implementation notes

The line is one segment or several; both loops of the source do the same, so one
stands for them. An exception of the reader is caught, and whoever threw it the
request is left to the library.
-/

namespace Miningcore.StratumConnection

open Foundation

section parser

variable {δ ο : Type} (getDouble : List UInt8 → δ) (newtonsoft : Newtonsoft δ ο)

def openBrace : UInt8 := 123

def closeBrace : UInt8 := 125

def quote : UInt8 := 34

def backslash : UInt8 := 92

/-- The bytes up to the brace that closes the first one. -/
def upToMatching (depth : Nat) (inString escape : Bool) : List UInt8 → Option (List UInt8)
  | [] => none
  | b :: rest =>
      if inString then
        if escape then (upToMatching depth true false rest).map (b :: ·)
        else if b = backslash then (upToMatching depth true true rest).map (b :: ·)
        else if b = quote then (upToMatching depth false false rest).map (b :: ·)
        else (upToMatching depth true false rest).map (b :: ·)
      else if b = quote then (upToMatching depth true false rest).map (b :: ·)
      else if b = openBrace then (upToMatching (depth + 1) false false rest).map (b :: ·)
      else if b = closeBrace then
        if depth - 1 = 0 then some [b]
        else (upToMatching (depth - 1) false false rest).map (b :: ·)
      else (upToMatching depth false false rest).map (b :: ·)

def trimToJsonObject (line : List UInt8) : Option (List UInt8) :=
  upToMatching 0 false false (line.dropWhile (· ≠ openBrace))

/-- What the loop has found so far. -/
structure Found (δ ο : Type) where
  method : Option Utf16 := none
  id : Obj δ ο := .null
  params : List Utf8JsonToken := []

def readJsonRpcId : Utf8JsonToken → Option (Obj δ ο)
  | .scalar (.number value) =>
      match Utf8JsonReader.tryGetInt64 value with
      | some i64 => some (.int64 i64)
      | none => some (.double (getDouble value))
  | .scalar (.string value) => (Utf8JsonReader.getString value).map .string
  | .scalar (.boolean value) => some (.boolean value)
  | _ => some .null

/-- The loop over the tokens; `none` is an exception. -/
def readMembers (found : Found δ ο) : List Utf8JsonToken → Option (Found δ ο)
  | [] => some found
  | .propertyName name :: rest =>
      if name.length = 6 then
        if name.head? = some 109 then
          match rest with
          | .scalar (.string value) :: rest => do
              let method ← Utf8JsonReader.getString value
              readMembers { found with method := some method } rest
          | _ :: rest => readMembers found rest
          | [] => some found
        else if name.head? = some 112 then
          readMembers { found with params := (takeBlock 0 rest).1 } (takeBlock 0 rest).2
        else readMembers found rest
      else if name.length = 2 then
        match rest with
        | token :: rest => do
            let id ← readJsonRpcId getDouble token
            readMembers { found with id } rest
        | [] => some found
      else readMembers found rest
  | _ :: rest => readMembers found rest
termination_by tokens => tokens.length
decreasing_by
  all_goals first
    | exact Nat.lt_succ_of_le (length_takeBlock_le _ _)
    | simp only [List.length_cons]; omega

def fastParseRequest (line : List UInt8) : Option (JsonRpcRequest δ ο) := do
  let jsonSlice ← trimToJsonObject line
  let tokens ← Utf8JsonReader.tokens jsonSlice
  let found ← readMembers getDouble {} tokens
  let method ← found.method
  return {
    method := some method
    id := found.id
    params := if found.params = [] then .null else .sequence found.params }

/-- The fast path: the parameters have to be readable as strings. -/
def fastRequest (line : List UInt8) : Option (JsonRpcRequest δ ο) :=
  (fastParseRequest getDouble line).filter fun request =>
    (request.paramsAsStrings newtonsoft).isSome

def processRequest (line : List UInt8) : Option (JsonRpcRequest δ ο) :=
  match fastRequest getDouble newtonsoft line with
  | some request => some request
  | none => JsonRpcRequest.deserialize newtonsoft line

end parser

/-!
## The members that are found

The token loop is followed over the object it reads. What it finds are members
at any depth: a six byte name with the initial of the method or the parameters,
or any name of two bytes. Only the inside of a value taken for the parameters is
passed over.
-/

section members

variable {δ ο : Type} (getDouble : List UInt8 → δ)

inductive Finding where
  | method (value : List UInt8)
  | params (value : JsonText)
  | id (value : JsonText)

/-- What a member is taken for, before what is found inside its value. -/
def findingAt (name : List UInt8) (value : JsonText) (inside : List Finding) : List Finding :=
  if name.length = 6 then
    if name.head? = some 109 then
      match value with
      | .scalar (.string text) => [.method text]
      | _ => inside
    else if name.head? = some 112 then [.params value]
    else inside
  else if name.length = 2 then .id value :: inside
  else inside

mutual

def findings : JsonText → List Finding
  | .scalar _ => []
  | .array elements => elementFindings elements
  | .object members => memberFindings members

def elementFindings : List JsonText → List Finding
  | [] => []
  | element :: elements => findings element ++ elementFindings elements

def memberFindings : List (List UInt8 × JsonText) → List Finding
  | [] => []
  | (name, value) :: members => findingAt name value (findings value) ++ memberFindings members

end

def scalarId (value : JsonText) : Option (Obj δ ο) :=
  match value with
  | .scalar s => readJsonRpcId getDouble (.scalar s)
  | _ => some .null

def record (found : Found δ ο) : Finding → Option (Found δ ο)
  | .method value =>
      (Utf8JsonReader.getString value).map fun method => { found with method := some method }
  | .params value => some { found with params := value.tokens }
  | .id value => (scalarId getDouble value).map fun id => { found with id }

/-- The loop goes on after a text with what it found in it. -/
def Passes (text : List Utf8JsonToken) (inside : List Finding) : Prop :=
  ∀ (found : Found δ ο) (rest : List Utf8JsonToken),
    readMembers getDouble found (text ++ rest) =
      (inside.foldlM (record getDouble) found).bind fun found => readMembers getDouble found rest

section passing

variable {getDouble}

theorem passes_nil : Passes (ο := ο) getDouble [] [] := fun _ _ => rfl

theorem Passes.append {text text' : List Utf8JsonToken} {inside inside' : List Finding}
    (h : Passes (ο := ο) getDouble text inside) (h' : Passes (ο := ο) getDouble text' inside') :
    Passes (ο := ο) getDouble (text ++ text') (inside ++ inside') := by
  intro found rest
  rw [List.append_assoc, h, List.foldlM_append]
  cases inside.foldlM (record getDouble) found with
  | none => rfl
  | some found => exact h' found rest

/-- A token that begins no member is passed over. -/
theorem readMembers_cons (found : Found δ ο) {token : Utf8JsonToken}
    (h : ∀ name, token ≠ .propertyName name) (rest : List Utf8JsonToken) :
    readMembers getDouble found (token :: rest) = readMembers getDouble found rest := by
  cases token with
  | propertyName name => exact absurd rfl (h name)
  | startObject | endObject | startArray | endArray | scalar => rw [readMembers]; simp

theorem passes_singleton (token : Utf8JsonToken) (h : ∀ name, token ≠ .propertyName name) :
    Passes (ο := ο) getDouble [token] [] :=
  fun found rest => readMembers_cons found h rest

/-- A value begins with a token that is no name. -/
theorem exists_tokens_eq_cons (value : JsonText) :
    ∃ first later, value.tokens = first :: later ∧
      (∀ name, first ≠ .propertyName name) ∧
      scalarId (ο := ο) getDouble value = readJsonRpcId getDouble first ∧
      ∀ text, first = .scalar (.string text) → value = .scalar (.string text) := by
  cases value with
  | scalar s => exact ⟨.scalar s, [], rfl, by simp, rfl, by simp⟩
  | array elements =>
      exact ⟨.startArray, _, by rw [JsonDocument.tokens]; rfl, by simp, rfl, by simp⟩
  | object members =>
      exact ⟨.startObject, _, by rw [JsonDocument.tokens]; rfl, by simp, rfl, by simp⟩

theorem Passes.member {value : JsonText} {inside : List Finding}
    (h : Passes (ο := ο) getDouble value.tokens inside) (name : List UInt8) :
    Passes (ο := ο) getDouble (.propertyName name :: value.tokens)
      (findingAt name value inside) := by
  intro found rest
  obtain ⟨first, later, htokens, hfirst, hid, hstring⟩ :=
    @exists_tokens_eq_cons δ ο getDouble value
  have hlater (found : Found δ ο) : readMembers getDouble found (later ++ rest) =
      (inside.foldlM (record getDouble) found).bind fun found =>
        readMembers getDouble found rest := by
    rw [← h, htokens, List.cons_append, readMembers_cons found hfirst]
  rw [List.cons_append, readMembers.eq_def, findingAt.eq_def]
  simp only []
  split
  · split
    · by_cases hmethod : ∃ text, value = .scalar (.string text)
      · obtain ⟨text, rfl⟩ := hmethod
        simp only [JsonDocument.tokens, List.cons_append, List.nil_append, List.foldlM_cons,
          List.foldlM_nil, record]
        cases Utf8JsonReader.getString text with
        | none => rfl
        | some method => rfl
      · rw [htokens, List.cons_append]
        split
        · rename_i text following heq
          exact absurd ⟨text, hstring text (List.cons.inj heq).1⟩ hmethod
        · rename_i heq
          rw [← (List.cons.inj heq).2, hlater]
          split
          · exact absurd ⟨_, rfl⟩ hmethod
          · rfl
        · rename_i heq
          cases heq
    · split
      · rw [takeBlock_zero_tokens]
        rfl
      · exact h found rest
  · split
    · rw [htokens]
      simp only [List.cons_append, List.foldlM_cons, record, hid]
      cases readJsonRpcId (ο := ο) getDouble first with
      | none => rfl
      | some id => exact hlater _
    · exact h found rest

mutual

theorem passes_tokens (text : JsonText) :
    Passes (ο := ο) getDouble text.tokens (findings text) := by
  cases text with
  | scalar s => exact passes_singleton _ (by simp)
  | array elements =>
      have hinside := passes_elementTokens elements
      have hclosed := hinside.append (passes_singleton .endArray (by simp))
      simpa [JsonDocument.tokens, findings] using
        (passes_singleton .startArray (by simp)).append hclosed
  | object members =>
      have hinside := passes_memberTokens members
      have hclosed := hinside.append (passes_singleton .endObject (by simp))
      simpa [JsonDocument.tokens, findings] using
        (passes_singleton .startObject (by simp)).append hclosed

theorem passes_elementTokens (elements : List JsonText) :
    Passes (ο := ο) getDouble (JsonDocument.elementTokens elements) (elementFindings elements) := by
  cases elements with
  | nil => exact passes_nil
  | cons element elements =>
      exact (passes_tokens element).append (passes_elementTokens elements)

theorem passes_memberTokens (members : List (List UInt8 × JsonText)) :
    Passes (ο := ο) getDouble (JsonDocument.memberTokens members) (memberFindings members) := by
  cases members with
  | nil => exact passes_nil
  | cons member members =>
      obtain ⟨name, value⟩ := member
      have hvalue := passes_tokens value
      exact (hvalue.member name).append (passes_memberTokens members)

end

/-- The loop over a text records what it finds in its order. -/
theorem readMembers_tokens (found : Found δ ο) (text : JsonText) :
    readMembers getDouble found text.tokens =
      (findings text).foldlM (record getDouble) found := by
  have h := @passes_tokens δ ο getDouble text found []
  rw [List.append_nil] at h
  rw [h]
  cases (findings text).foldlM (record getDouble) found with
  | none => rfl
  | some found => exact readMembers.eq_1 ..

end passing

end members

end Miningcore.StratumConnection
