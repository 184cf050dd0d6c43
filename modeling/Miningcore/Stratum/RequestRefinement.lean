import Miningcore.Foundation.OverwritingLoop
import Miningcore.Stratum.FastRequestParser

/-!
# Fast requests against the library's

The fast path should make of a line what the library makes of it, or leave it to
the library. What the one finds at any depth is set against the members that the
other reads.
-/

namespace Miningcore.StratumConnection

open Foundation JsonRpcRequest

variable {δ ο : Type} (getDouble : List UInt8 → δ) (newtonsoft : Newtonsoft δ ο)

/-- Parameters as the library reads them; a slice is read when they are asked for. -/
def readParams : Obj δ ο → Option (Obj δ ο)
  | .sequence json => newtonsoft.object json
  | params => some params

structure SameRequest (fast request : JsonRpcRequest δ ο) : Prop where
  method : fast.method = request.method
  id : fast.id = request.id
  params : readParams newtonsoft fast.params = some request.params
  extra : fast.extra = request.extra

/-- The fast path does with a line what the library does with it, or declines. -/
def Refines (line : List UInt8) : Prop :=
  ∀ request, deserialize newtonsoft line = some request →
    ∀ fast, fastRequest getDouble newtonsoft line = some fast → SameRequest newtonsoft fast request

section condition

namespace Finding

def method? : Finding → Option (List UInt8)
  | method value => some value
  | _ => none

def params? : Finding → Option JsonText
  | params value => some value
  | _ => none

def id? : Finding → Option JsonText
  | id value => some value
  | _ => none

/-- A string that is a method or an id can be decoded. -/
def Readable : Finding → Prop
  | method text | id (.scalar (.string text)) => (Utf8JsonReader.getString text).isSome
  | _ => True

end Finding

/-- The value of a member that is named as a property. -/
def valueOf? (property : JsonRpcProperty) (member : Utf16 × JsonText) : Option JsonText :=
  if closestMatch member.1 = some property then some member.2 else none

/-- The text of a method that is not null. -/
def methodText? (member : Utf16 × JsonText) : Option Utf16 :=
  (valueOf? .method member).bind fun value => (newtonsoft.string value.tokens).join

def IsExtra (name : Utf16) : Prop :=
  match closestMatch name with
  | none => True
  | some .jsonRpc => newtonsoft.keepsReadOnly = true
  | some _ => False

/-- The library can read a member for the property it is named as. -/
def Reads (member : Utf16 × JsonText) : Prop :=
  match closestMatch member.1 with
  | some .method | some .jsonRpc => (newtonsoft.string member.2.tokens).isSome
  | _ => (newtonsoft.object member.2.tokens).isSome

/-- The object cut out of a line. -/
def CutOut (line : List UInt8) (text : JsonText) : Prop :=
  ∃ slice, trimToJsonObject line = some slice ∧ Utf8JsonReader.tokens slice = some text.tokens

theorem CutOut.tokens_eq {line : List UInt8} {text text' : JsonText} (h : CutOut line text)
    (h' : CutOut line text') : text.tokens = text'.tokens := by
  obtain ⟨slice, hslice, htokens⟩ := h
  obtain ⟨slice', hslice', htokens'⟩ := h'
  obtain rfl : slice = slice' := Option.some_inj.mp (hslice.symm.trans hslice')
  exact Option.some_inj.mp (htokens.symm.trans htokens')

/-- The fast path does not decline an object. -/
structure Taken (text : JsonText) : Prop where
  readable : ∀ finding ∈ findings text, finding.Readable
  method : ∃ value, .method value ∈ findings text
  strings : ∀ value ∈ ((findings text).filterMap Finding.params?).getLast?,
    (fastDeserializeParams value.tokens).isSome ∨ (newtonsoft.stringArray value.tokens).isSome

/-- The object taken and the members read come to one request: nothing is left for the extension
data, and what was last found for a property has the value of the last member named as it. -/
structure Alike (text : JsonText) (members : List (Utf16 × JsonText)) : Prop where
  method : ((findings text).filterMap Finding.method?).getLast?.bind Utf8JsonReader.getString =
    (members.filterMap (methodText? newtonsoft)).getLast?
  id : ((findings text).filterMap Finding.id?).getLast?.elim (some .null) (scalarId getDouble) =
    (members.filterMap (valueOf? .id)).getLast?.elim (some .null) (newtonsoft.object ·.tokens)
  params : ((findings text).filterMap Finding.params?).getLast?.elim (some .null)
      (newtonsoft.object ·.tokens) =
    (members.filterMap (valueOf? .params)).getLast?.elim (some .null) (newtonsoft.object ·.tokens)
  extra : ∀ member ∈ members, ¬IsExtra newtonsoft member.1

/-- An object the fast path takes is alike to one the library reads off the line. -/
def TakesAlike (line : List UInt8) : Prop :=
  ∀ text, CutOut line text → Taken newtonsoft text →
    ∀ members, newtonsoft.members line = some members →
      (∀ member ∈ members, Reads newtonsoft member) → Alike getDouble newtonsoft text members

end condition

section fast

variable {getDouble}

theorem isSome_record_iff (found : Found δ ο) (finding : Finding) :
    (record getDouble found finding).isSome ↔ finding.Readable := by
  cases finding with
  | method value => simp [record, Finding.Readable]
  | params value => simp [record, Finding.Readable]
  | id value =>
      rw [record, Option.isSome_map]
      cases value with
      | scalar s =>
          cases s with
          | string text => simp [scalarId, readJsonRpcId, Finding.Readable]
          | number value =>
              cases h : Utf8JsonReader.tryGetInt64 value <;>
                simp [scalarId, readJsonRpcId, Finding.Readable, h]
          | boolean value => simp [scalarId, readJsonRpcId, Finding.Readable]
          | null => simp [scalarId, readJsonRpcId, Finding.Readable]
      | array elements => simp [scalarId, Finding.Readable]
      | object members => simp [scalarId, Finding.Readable]

theorem record_method : Overwrites (record (ο := ο) getDouble) Found.method Finding.method?
    (fun value => (Utf8JsonReader.getString value).map some) := by
  intro found finding next h
  cases finding with
  | method value =>
      obtain ⟨method, hmethod, rfl⟩ := Option.map_eq_some_iff.mp h
      exact congrArg (Option.map some) hmethod
  | params value =>
      cases h
      rfl
  | id value =>
      obtain ⟨id, -, rfl⟩ := Option.map_eq_some_iff.mp h
      rfl

theorem record_id : Overwrites (record (ο := ο) getDouble) Found.id Finding.id?
    (scalarId getDouble) := by
  intro found finding next h
  cases finding with
  | method value =>
      obtain ⟨method, -, rfl⟩ := Option.map_eq_some_iff.mp h
      rfl
  | params value =>
      cases h
      rfl
  | id value =>
      obtain ⟨id, hid, rfl⟩ := Option.map_eq_some_iff.mp h
      exact hid

theorem record_params : Overwrites (record (ο := ο) getDouble) Found.params Finding.params?
    (fun value => some value.tokens) := by
  intro found finding next h
  cases finding with
  | method value =>
      obtain ⟨method, -, rfl⟩ := Option.map_eq_some_iff.mp h
      rfl
  | params value =>
      cases h
      rfl
  | id value =>
      obtain ⟨id, -, rfl⟩ := Option.map_eq_some_iff.mp h
      rfl

end fast

section library

variable {newtonsoft}

theorem isSome_setProperty_iff (request : JsonRpcRequest δ ο) (member : Utf16 × JsonText) :
    (setProperty newtonsoft request member).isSome ↔ Reads newtonsoft member := by
  rw [setProperty, Reads]
  rcases closestMatch member.1 with _ | _ | _ | _ | _
  · cases newtonsoft.object member.2.tokens <;> simp
  · cases newtonsoft.string member.2.tokens <;> simp
  · cases newtonsoft.string member.2.tokens with
    | none => simp
    | some text => cases text <;> simp
  · cases newtonsoft.object member.2.tokens <;> simp
  · cases newtonsoft.object member.2.tokens <;> simp

/-- What a member does to a request that it is read into. -/
theorem setProperty_eq_some {request next : JsonRpcRequest δ ο} {member : Utf16 × JsonText}
    (h : setProperty newtonsoft request member = some next) :
    (closestMatch member.1 = some .method ∧ ∃ text,
        newtonsoft.string member.2.tokens = some text ∧
        next = { request with method := text.or request.method }) ∨
      (closestMatch member.1 = some .params ∧ ∃ params,
        newtonsoft.object member.2.tokens = some params ∧ next = { request with params }) ∨
      (closestMatch member.1 = some .id ∧ ∃ id,
        newtonsoft.object member.2.tokens = some id ∧ next = { request with id }) ∨
      ((closestMatch member.1 = some .jsonRpc ∨ closestMatch member.1 = none) ∧
        ((¬IsExtra newtonsoft member.1 ∧ next = request) ∨
          IsExtra newtonsoft member.1 ∧ ∃ value, next = request.setExtra member.1 value)) := by
  rw [setProperty] at h
  rw [IsExtra]
  cases hmatch : closestMatch member.1 with
  | none =>
      rw [hmatch] at h
      obtain ⟨value, -, h⟩ := Option.bind_eq_some_iff.mp h
      cases h
      simp
  | some property =>
      rw [hmatch] at h
      cases property with
      | method =>
          obtain ⟨text, htext, h⟩ := Option.bind_eq_some_iff.mp h
          cases text <;> cases h <;> simp [htext]
      | params =>
          obtain ⟨params, hparams, h⟩ := Option.bind_eq_some_iff.mp h
          cases h
          simp [hparams]
      | id =>
          obtain ⟨id, hid, h⟩ := Option.bind_eq_some_iff.mp h
          cases h
          simp [hid]
      | jsonRpc =>
          obtain ⟨text, -, h⟩ := Option.bind_eq_some_iff.mp h
          cases h
          cases newtonsoft.keepsReadOnly <;> simp

theorem setProperty_method : Overwrites (setProperty newtonsoft) JsonRpcRequest.method
    (methodText? newtonsoft) (fun text => some (some text)) := by
  intro request member next h
  obtain ⟨hname, text, htext, rfl⟩ | ⟨hname, _, -, rfl⟩ | ⟨hname, _, -, rfl⟩ |
      ⟨hname | hname, ⟨-, rfl⟩ | ⟨-, _, rfl⟩⟩ := setProperty_eq_some h
  · cases text <;> simp [methodText?, valueOf?, hname, htext]
  all_goals simp [methodText?, valueOf?, hname, setExtra]

theorem setProperty_id : Overwrites (setProperty newtonsoft) JsonRpcRequest.id (valueOf? .id)
    (newtonsoft.object ·.tokens) := by
  intro request member next h
  obtain ⟨hname, _, -, rfl⟩ | ⟨hname, _, -, rfl⟩ | ⟨hname, id, hid, rfl⟩ |
      ⟨hname | hname, ⟨-, rfl⟩ | ⟨-, _, rfl⟩⟩ := setProperty_eq_some h
  · simp [valueOf?, hname]
  · simp [valueOf?, hname]
  · simp [valueOf?, hname, hid]
  all_goals simp [valueOf?, hname, setExtra]

theorem setProperty_params : Overwrites (setProperty newtonsoft) JsonRpcRequest.params
    (valueOf? .params) (newtonsoft.object ·.tokens) := by
  intro request member next h
  obtain ⟨hname, _, -, rfl⟩ | ⟨hname, params, hparams, rfl⟩ | ⟨hname, _, -, rfl⟩ |
      ⟨hname | hname, ⟨-, rfl⟩ | ⟨-, _, rfl⟩⟩ := setProperty_eq_some h
  · simp [valueOf?, hname]
  · simp [valueOf?, hname, hparams]
  · simp [valueOf?, hname]
  all_goals simp [valueOf?, hname, setExtra]

theorem extra_setProperty {request next : JsonRpcRequest δ ο} {member : Utf16 × JsonText}
    (h : setProperty newtonsoft request member = some next) :
    next.extra = none ↔ request.extra = none ∧ ¬IsExtra newtonsoft member.1 := by
  obtain ⟨hname, _, -, rfl⟩ | ⟨hname, _, -, rfl⟩ | ⟨hname, _, -, rfl⟩ |
      ⟨-, ⟨hextra, rfl⟩ | ⟨hextra, _, rfl⟩⟩ := setProperty_eq_some h
  · simp [IsExtra, hname]
  · simp [IsExtra, hname]
  · simp [IsExtra, hname]
  · simp [hextra]
  · simp [hextra, setExtra]

theorem extra_foldlM {members : List (Utf16 × JsonText)} {request final : JsonRpcRequest δ ο}
    (h : members.foldlM (setProperty newtonsoft) request = some final) :
    final.extra = none ↔
      request.extra = none ∧ ∀ member ∈ members, ¬IsExtra newtonsoft member.1 := by
  induction members generalizing request with
  | nil =>
      obtain rfl : request = final := Option.some_inj.mp h
      simp
  | cons member members ih =>
      rw [List.foldlM_cons] at h
      obtain ⟨next, hnext, hrest⟩ := Option.bind_eq_some_iff.mp h
      rw [ih hrest, extra_setProperty hnext, List.forall_mem_cons, and_assoc]

end library

section refinement

variable {getDouble newtonsoft}

/-- What the fast parser makes of what it found. -/
def requestOf (found : Found δ ο) : JsonRpcRequest δ ο :=
  { method := found.method
    id := found.id
    params := if found.params = [] then .null else .sequence found.params }

theorem fastParseRequest_eq_some_iff {line : List UInt8} {fast : JsonRpcRequest δ ο} :
    fastParseRequest getDouble line = some fast ↔
      ∃ text found, CutOut line text ∧
        (findings text).foldlM (record getDouble) {} = some found ∧
        found.method.isSome ∧ requestOf found = fast := by
  constructor
  · intro h
    obtain ⟨slice, hslice, h⟩ := Option.bind_eq_some_iff.mp h
    obtain ⟨tokens, htokens, h⟩ := Option.bind_eq_some_iff.mp h
    obtain ⟨found, hfound, h⟩ := Option.bind_eq_some_iff.mp h
    obtain ⟨method, hmethod, hfast⟩ := Option.bind_eq_some_iff.mp h
    obtain ⟨text, rfl⟩ := Utf8JsonReader.exists_text_of_tokens htokens
    rw [readMembers_tokens] at hfound
    refine ⟨text, found, ⟨slice, hslice, htokens⟩, hfound, by simp [hmethod], ?_⟩
    rw [requestOf, hmethod]
    exact Option.some_inj.mp hfast
  · rintro ⟨text, found, ⟨slice, hslice, htokens⟩, hfound, hmethod, rfl⟩
    obtain ⟨method, hmethod⟩ := Option.isSome_iff_exists.mp hmethod
    rw [← readMembers_tokens] at hfound
    simp [fastParseRequest, hslice, htokens, hfound, hmethod, requestOf]

section found

variable {text : JsonText} {found : Found δ ο}
  (hfound : (findings text).foldlM (record getDouble) {} = some found)

include hfound

theorem method_of_found :
    ((findings text).filterMap Finding.method?).getLast?.bind Utf8JsonReader.getString =
      found.method := by
  have h := record_method.foldlM hfound
  cases hlast : ((findings text).filterMap Finding.method?).getLast? with
  | none =>
      rw [hlast] at h
      exact Option.some_inj.mp h
  | some value =>
      rw [hlast] at h
      obtain ⟨method, hmethod, h⟩ := Option.map_eq_some_iff.mp h
      rw [Option.bind_some, hmethod, h]

theorem readable_of_found : ∀ finding ∈ findings text, finding.Readable :=
  (isSome_foldlM_iff isSome_record_iff _ _).mp (by rw [hfound]; rfl)

theorem isSome_method_iff :
    found.method.isSome ↔ ∃ value, .method value ∈ findings text := by
  rw [← method_of_found hfound]
  cases hlast : ((findings text).filterMap Finding.method?).getLast? with
  | none =>
      rw [List.getLast?_eq_none_iff, List.filterMap_eq_nil_iff] at hlast
      simp only [Option.bind_none, Option.isSome_none, Bool.false_eq_true, false_iff]
      rintro ⟨value, hvalue⟩
      cases hlast _ hvalue
  | some value =>
      obtain ⟨finding, hmem, hfinding⟩ := List.mem_filterMap.mp (List.mem_of_getLast? hlast)
      cases finding with
      | method value' =>
          cases hfinding
          have hread := readable_of_found hfound _ hmem
          rw [Option.bind_some]
          exact iff_of_true hread ⟨value, hmem⟩
      | params _ | id _ => cases hfinding

theorem params_of_found :
    (requestOf found).params =
      ((findings text).filterMap Finding.params?).getLast?.elim .null (.sequence ·.tokens) := by
  have h := record_params.foldlM hfound
  cases hlast : ((findings text).filterMap Finding.params?).getLast? with
  | none =>
      rw [hlast] at h
      rw [requestOf, if_pos (Option.some_inj.mp h).symm]
      rfl
  | some value =>
      rw [hlast] at h
      rw [requestOf, ← show value.tokens = found.params from Option.some_inj.mp h,
        if_neg value.tokens_ne_nil]
      rfl

theorem taken_iff : Taken newtonsoft text ↔
    found.method.isSome ∧ ((requestOf found).paramsAsStrings newtonsoft).isSome := by
  have hstrings : ((requestOf found).paramsAsStrings newtonsoft).isSome ↔
      ∀ value ∈ ((findings text).filterMap Finding.params?).getLast?,
        (fastDeserializeParams value.tokens).isSome ∨
          (newtonsoft.stringArray value.tokens).isSome := by
    rw [paramsAsStrings, params_of_found hfound]
    cases ((findings text).filterMap Finding.params?).getLast? with
    | none => simp
    | some value => cases h : fastDeserializeParams value.tokens <;> simp [h]
  rw [isSome_method_iff hfound, hstrings]
  exact ⟨fun h => ⟨h.method, h.strings⟩, fun h => ⟨readable_of_found hfound, h.1, h.2⟩⟩

end found

theorem sameRequest_iff {text : JsonText} {found : Found δ ο}
    {members : List (Utf16 × JsonText)} {request : JsonRpcRequest δ ο}
    (hfound : (findings text).foldlM (record getDouble) {} = some found)
    (hrequest : members.foldlM (setProperty newtonsoft) {} = some request) :
    SameRequest newtonsoft (requestOf found) request ↔
      Alike getDouble newtonsoft text members := by
  have hmethod := setProperty_method.foldlM hrequest
  have hid := record_id.foldlM hfound
  have hid' := setProperty_id.foldlM hrequest
  have hparams := setProperty_params.foldlM hrequest
  have hextra := extra_foldlM hrequest
  have hlast : (members.filterMap (methodText? newtonsoft)).getLast? = request.method := by
    rw [← Option.some_inj, ← hmethod]
    cases (members.filterMap (methodText? newtonsoft)).getLast? <;> rfl
  have hread : readParams newtonsoft (requestOf found).params =
      ((findings text).filterMap Finding.params?).getLast?.elim (some .null)
        (newtonsoft.object ·.tokens) := by
    rw [params_of_found hfound]
    cases ((findings text).filterMap Finding.params?).getLast? <;> rfl
  constructor
  · intro h
    refine ⟨?_, ?_, ?_, ?_⟩
    · rw [method_of_found hfound, hlast]
      exact h.method
    · rw [hid, hid']
      exact congrArg some h.id
    · rw [← hread, hparams]
      exact h.params
    · exact (hextra.mp h.extra.symm).2
  · intro h
    refine ⟨?_, ?_, ?_, ?_⟩
    · rw [← hlast, ← h.method, method_of_found hfound]
      rfl
    · have heq := hid.symm.trans (h.id.trans hid')
      exact Option.some_inj.mp heq
    · rw [hread, h.params]
      exact hparams
    · exact (hextra.mpr ⟨rfl, h.extra⟩).symm

theorem deserialize_eq_some_iff {line : List UInt8} {request : JsonRpcRequest δ ο} :
    deserialize newtonsoft line = some request ↔
      ∃ members, newtonsoft.members line = some members ∧
        members.foldlM (setProperty newtonsoft) {} = some request :=
  Option.bind_eq_some_iff

end refinement

/-- Exactly the lines with objects that are taken alike are read as the library reads them. -/
theorem refines_iff (line : List UInt8) :
    Refines getDouble newtonsoft line ↔ TakesAlike getDouble newtonsoft line := by
  constructor
  · intro h text hcut htaken members hmembers hreads
    obtain ⟨found, hfound⟩ := Option.isSome_iff_exists.mp
      ((isSome_foldlM_iff (@isSome_record_iff δ ο getDouble) _ {}).mpr
        htaken.readable)
    obtain ⟨request, hrequest⟩ := Option.isSome_iff_exists.mp
      ((isSome_foldlM_iff (@isSome_setProperty_iff δ ο newtonsoft) _ {}).mpr hreads)
    obtain ⟨hmethod, hstrings⟩ := (taken_iff hfound).mp htaken
    have hfast : fastRequest getDouble newtonsoft line = some (requestOf found) := by
      rw [fastRequest, fastParseRequest_eq_some_iff.mpr ⟨text, found, hcut, hfound, hmethod, rfl⟩,
        Option.filter_some, if_pos hstrings]
    have hslow := deserialize_eq_some_iff.mpr ⟨members, hmembers, hrequest⟩
    exact (sameRequest_iff hfound hrequest).mp (h request hslow _ hfast)
  · intro h request hslow fast hfast
    obtain ⟨members, hmembers, hrequest⟩ := deserialize_eq_some_iff.mp hslow
    obtain ⟨hparse, hstrings⟩ := Option.filter_eq_some_iff.mp hfast
    obtain ⟨text, found, hcut, hfound, hmethod, rfl⟩ := fastParseRequest_eq_some_iff.mp hparse
    have hreads := (isSome_foldlM_iff (@isSome_setProperty_iff δ ο newtonsoft) _ {}).mp
      (by rw [hrequest]; rfl)
    have htaken : Taken newtonsoft text := (taken_iff hfound).mpr ⟨hmethod, hstrings⟩
    exact (sameRequest_iff hfound hrequest).mpr (h text hcut htaken members hmembers hreads)

section worker

/-- A request for work to be submitted, with the worker's name as a further member. -/
def workerLine : List UInt8 :=
  ascii "\x7b\"id\":1,\"method\":\"eth_submitWork\",\"params\":[\"0x1\"],\"worker\":\"rig1\"\x7d"

def workerMembers : List (Utf16 × JsonText) :=
  [(utf16 "id", .scalar (.number (ascii "1"))),
    (utf16 "method", .scalar (.string (ascii "eth_submitWork"))),
    (utf16 "params", .array [.scalar (.string (ascii "0x1"))]),
    (utf16 "worker", .scalar (.string (ascii "rig1")))]

/-- What the library does on the line; a double is its own text. -/
def workerNewtonsoft : Newtonsoft (List UInt8) (List Utf8JsonToken) where
  members line := if line = workerLine then some workerMembers else none
  string
    | [.scalar (.string value)] => (Utf8JsonReader.getString value).map some
    | _ => none
  object
    | [.scalar s] => readJsonRpcId (fun text => text) (.scalar s)
    | json => some (.other json)
  stringArray := fastDeserializeParams
  toStringArray _ := none
  keepsReadOnly := true

/-- The library keeps the worker's name, the fast path loses it. -/
theorem not_refines_worker : ¬Refines (fun text => text) workerNewtonsoft workerLine := by
  intro h
  -- the text of the line is rewritten to its characters, which are cheaper to evaluate
  have hslow : (deserialize workerNewtonsoft workerLine).map (·.extra.isSome) = some true := by
    rw [workerNewtonsoft, workerLine, ascii, String.toList_ofList]
    decide +kernel
  have hfast : (fastRequest (fun text => text) workerNewtonsoft workerLine).map
      (·.extra.isSome) = some false := by
    rw [workerNewtonsoft, workerLine, ascii, String.toList_ofList]
    decide +kernel
  obtain ⟨request, hrequest, hkept⟩ := Option.map_eq_some_iff.mp hslow
  obtain ⟨fast, hparsed, hlost⟩ := Option.map_eq_some_iff.mp hfast
  rw [← (h request hrequest fast hparsed).extra, hlost] at hkept
  cases hkept

end worker

section plain

/-- A member with one of the three names, whose value both parsers read alike. -/
def Plain (member : List UInt8 × JsonText) : Prop :=
  (member.1 = ascii "method" ∧ ∃ text, member.2 = .scalar (.string text) ∧
      newtonsoft.string member.2.tokens = (Utf8JsonReader.getString text).map some) ∨
    member.1 = ascii "params" ∨
    member.1 = ascii "id" ∧ ∃ s, member.2 = .scalar s ∧
      newtonsoft.object member.2.tokens = readJsonRpcId getDouble (.scalar s)

/-- A member under the text of its name, which is spelled in ASCII. -/
def asciiNamed (member : List UInt8 × JsonText) : Utf16 × JsonText :=
  (member.1.map UInt8.toUInt16, member.2)

theorem findingAt_method (text : List UInt8) (inside : List Finding) :
    findingAt (ascii "method") (.scalar (.string text)) inside = [.method text] := by
  rw [findingAt.eq_def, if_pos (by decide), if_pos (by decide)]

theorem findingAt_params (value : JsonText) (inside : List Finding) :
    findingAt (ascii "params") value inside = [.params value] := by
  rw [findingAt.eq_def, if_pos (by decide), if_neg (by decide),
    if_pos (by decide)]

theorem findingAt_id (value : JsonText) (inside : List Finding) :
    findingAt (ascii "id") value inside = .id value :: inside := by
  rw [findingAt.eq_def, if_neg (by decide), if_pos (by decide)]

@[simp] theorem closestMatch_method :
    closestMatch ((ascii "method").map UInt8.toUInt16) = some .method := by
  decide

@[simp] theorem closestMatch_params :
    closestMatch ((ascii "params").map UInt8.toUInt16) = some .params := by
  decide

@[simp] theorem closestMatch_id :
    closestMatch ((ascii "id").map UInt8.toUInt16) = some .id := by
  decide

variable {getDouble newtonsoft} {members : List (List UInt8 × JsonText)}

theorem memberFindings_plain
    (h : ∀ member ∈ members, Plain getDouble newtonsoft member) :
    (memberFindings members).filterMap Finding.params? =
        (members.map asciiNamed).filterMap (valueOf? .params) ∧
      (memberFindings members).filterMap Finding.id? =
        (members.map asciiNamed).filterMap (valueOf? .id) ∧
      ((memberFindings members).filterMap Finding.method?).filterMap Utf8JsonReader.getString =
        (members.map asciiNamed).filterMap (methodText? newtonsoft) := by
  induction members with
  | nil => exact ⟨rfl, rfl, rfl⟩
  | cons member members ih =>
      obtain ⟨hmember, hmembers⟩ := List.forall_mem_cons.mp h
      obtain ⟨hparams, hid, hmethod⟩ := ih hmembers
      obtain ⟨name, value⟩ := member
      obtain ⟨rfl, text, rfl, hstring⟩ | rfl | ⟨rfl, s, rfl, -⟩ := hmember
      · rw [memberFindings, findingAt_method]
        cases htext : Utf8JsonReader.getString text <;>
          simp [-List.filterMap_map, List.filterMap_cons, Finding.params?, Finding.id?,
            Finding.method?, asciiNamed, valueOf?, methodText?, hparams, hid, hmethod, hstring,
            htext]
      · rw [memberFindings, findingAt_params]
        simp [-List.filterMap_map, List.filterMap_cons, Finding.params?, Finding.id?,
          Finding.method?, asciiNamed, valueOf?, methodText?, hparams, hid, hmethod]
      · rw [memberFindings, findingAt_id, findings]
        simp [-List.filterMap_map, List.filterMap_cons, Finding.params?, Finding.id?,
          Finding.method?, asciiNamed, valueOf?, methodText?, hparams, hid, hmethod]

/-- The last of some values, all of which can be read. -/
theorem getLast?_bind {α β : Type*} {read : α → Option β} {values : List α}
    (h : ∀ value ∈ values, (read value).isSome) :
    values.getLast?.bind read = (values.filterMap read).getLast? := by
  induction values using List.reverseRecOn with
  | nil => rfl
  | append_singleton values value _ =>
      obtain ⟨text, htext⟩ := Option.isSome_iff_exists.mp (h value (by simp))
      simp [htext]

theorem scalarId_plain {value : JsonText}
    (hplain : ∀ member ∈ members, Plain getDouble newtonsoft member)
    (h : value ∈ (members.map asciiNamed).filterMap (valueOf? .id)) :
    scalarId getDouble value = newtonsoft.object value.tokens := by
  obtain ⟨named, hnamed, hvalue⟩ := List.mem_filterMap.mp h
  obtain ⟨⟨name, value'⟩, hmem, rfl⟩ := List.mem_map.mp hnamed
  obtain ⟨rfl, -⟩ | rfl | ⟨rfl, s, rfl, hobject⟩ := hplain _ hmem
  · simp [valueOf?, asciiNamed] at hvalue
  · simp [valueOf?, asciiNamed] at hvalue
  · obtain rfl : .scalar s = value := by simpa [valueOf?, asciiNamed] using hvalue
    exact hobject.symm

/-- A line of plain members is read as the library reads it. -/
theorem refines_of_plain {line : List UInt8} (hcut : CutOut line (.object members))
    (hline : newtonsoft.members line = some (members.map asciiNamed))
    (hplain : ∀ member ∈ members, Plain getDouble newtonsoft member) :
    Refines getDouble newtonsoft line := by
  intro request hslow fast hfast
  obtain ⟨read, hread, hrequest⟩ := deserialize_eq_some_iff.mp hslow
  obtain rfl : members.map asciiNamed = read := Option.some_inj.mp (hline.symm.trans hread)
  obtain ⟨hparse, -⟩ := Option.filter_eq_some_iff.mp hfast
  obtain ⟨text, found, htext, hfound, -, rfl⟩ := fastParseRequest_eq_some_iff.mp hparse
  have hobject : (findings (.object members)).foldlM (record getDouble) {} = some found := by
    rw [← readMembers_tokens, hcut.tokens_eq htext, readMembers_tokens, hfound]
  obtain ⟨hparams, hid, hmethod⟩ := memberFindings_plain hplain
  have hreadable := readable_of_found hobject
  rw [sameRequest_iff hobject hrequest]
  rw [findings] at hreadable
  refine ⟨?_, ?_, ?_, ?_⟩
  · rw [findings, ← hmethod]
    apply getLast?_bind
    intro value hvalue
    obtain ⟨finding, hmem, hfinding⟩ := List.mem_filterMap.mp hvalue
    cases finding with
    | method value' =>
        cases hfinding
        exact hreadable _ hmem
    | params _ | id _ => cases hfinding
  · rw [findings, hid]
    cases hlast : ((members.map asciiNamed).filterMap (valueOf? .id)).getLast? with
    | none => rfl
    | some value => exact scalarId_plain hplain (List.mem_of_getLast? hlast)
  · rw [findings, hparams]
  · intro named hnamed
    obtain ⟨⟨name, value⟩, hmem, rfl⟩ := List.mem_map.mp hnamed
    obtain ⟨rfl, -⟩ | rfl | ⟨rfl, -⟩ := hplain _ hmem
    all_goals simp [IsExtra, asciiNamed]

/-- A line that is refined is handled as the library reads it. -/
theorem exists_processRequest {line : List UInt8} (h : Refines getDouble newtonsoft line)
    {request : JsonRpcRequest δ ο} (hslow : deserialize newtonsoft line = some request) :
    ∃ handled, processRequest getDouble newtonsoft line = some handled ∧
      (handled = request ∨ SameRequest newtonsoft handled request) := by
  rw [processRequest]
  cases hfast : fastRequest getDouble newtonsoft line with
  | none => exact ⟨request, hslow, Or.inl rfl⟩
  | some fast => exact ⟨fast, rfl, Or.inr (h request hslow fast hfast)⟩

/-- A line of plain members is handled as the library reads it. -/
theorem exists_processRequest_of_plain {line : List UInt8} (hcut : CutOut line (.object members))
    (hline : newtonsoft.members line = some (members.map asciiNamed))
    (hplain : ∀ member ∈ members, Plain getDouble newtonsoft member) {request : JsonRpcRequest δ ο}
    (hslow : deserialize newtonsoft line = some request) :
    ∃ handled, processRequest getDouble newtonsoft line = some handled ∧
      (handled = request ∨ SameRequest newtonsoft handled request) :=
  exists_processRequest (refines_of_plain hcut hline hplain) hslow

/-- The members of the request without the worker's name. -/
def submitMembers : List (List UInt8 × JsonText) :=
  [(ascii "id", .scalar (.number (ascii "1"))),
    (ascii "method", .scalar (.string (ascii "eth_submitWork"))),
    (ascii "params", .array [.scalar (.string (ascii "0x1"))])]

def submitLine : List UInt8 :=
  ascii "\x7b\"id\":1,\"method\":\"eth_submitWork\",\"params\":[\"0x1\"]\x7d"

def submitNewtonsoft : Newtonsoft (List UInt8) (List Utf8JsonToken) :=
  { workerNewtonsoft with
    members := fun line =>
      if line = submitLine then some (submitMembers.map asciiNamed) else none }

theorem exists_processRequest_submit : ∃ request handled,
    deserialize submitNewtonsoft submitLine = some request ∧
      processRequest (fun text => text) submitNewtonsoft submitLine = some handled ∧
      (handled = request ∨ SameRequest submitNewtonsoft handled request) := by
  have hcut : CutOut submitLine (.object submitMembers) := by
    refine ⟨submitLine, ?_, ?_⟩
    · rw [submitLine, ascii, String.toList_ofList]
      decide +kernel
    · rw [submitLine, ascii, String.toList_ofList]
      decide +kernel
  have hplain : ∀ member ∈ submitMembers,
      Plain (fun text => text) submitNewtonsoft member := by
    intro member hmember
    simp only [submitMembers, List.mem_cons, List.not_mem_nil, or_false] at hmember
    obtain rfl | rfl | rfl := hmember
    · exact Or.inr (Or.inr ⟨rfl, .number (ascii "1"), rfl, rfl⟩)
    · exact Or.inl ⟨rfl, ascii "eth_submitWork", rfl, rfl⟩
    · exact Or.inr (Or.inl rfl)
  have hsome : (deserialize submitNewtonsoft submitLine).isSome = true := by
    rw [submitNewtonsoft, submitLine, ascii, String.toList_ofList]
    decide +kernel
  obtain ⟨request, hrequest⟩ := Option.isSome_iff_exists.mp hsome
  have hline : submitNewtonsoft.members submitLine = some (submitMembers.map asciiNamed) := by
    simp only [submitNewtonsoft, if_true]
  obtain ⟨handled, hhandled, hsame⟩ :=
    exists_processRequest_of_plain hcut hline hplain hrequest
  exact ⟨request, handled, hrequest, hhandled, hsame⟩

end plain

end Miningcore.StratumConnection
