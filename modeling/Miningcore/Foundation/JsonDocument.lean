import Miningcore.Foundation.HexDigits
import Mathlib.Data.List.Basic

/-!
# Token sequences of nested documents, and their texts

A document is a scalar, an array of documents or an object with named members. A
reader goes over the lexemes of its text once, with the containers it is inside
of on a stack, and reports tokens. What it reports for an accepted text are the
tokens of a document, and the tokens of one value can be skipped as a block.

## Implementation notes

The names of members are those scalars that `asName` accepts. The proofs about a
document's tokens go over the document, its lists of elements and its lists of
members at once.
-/

namespace Foundation

variable {ν σ : Type*}

inductive JsonDocument (ν σ : Type*) where
  | scalar (s : σ)
  | array (elements : List (JsonDocument ν σ))
  | object (members : List (ν × JsonDocument ν σ))

inductive JsonToken (ν σ : Type*) where
  | startObject
  | endObject
  | startArray
  | endArray
  | propertyName (name : ν)
  | scalar (s : σ)
deriving DecidableEq

namespace JsonDocument

mutual

def tokens : JsonDocument ν σ → List (JsonToken ν σ)
  | scalar s => [.scalar s]
  | array elements => .startArray :: elementTokens elements ++ [.endArray]
  | object members => .startObject :: memberTokens members ++ [.endObject]

def elementTokens : List (JsonDocument ν σ) → List (JsonToken ν σ)
  | [] => []
  | element :: elements => element.tokens ++ elementTokens elements

def memberTokens : List (ν × JsonDocument ν σ) → List (JsonToken ν σ)
  | [] => []
  | (name, value) :: members => .propertyName name :: value.tokens ++ memberTokens members

end

theorem tokens_ne_nil (document : JsonDocument ν σ) : document.tokens ≠ [] := by
  cases document <;> simp [tokens]

end JsonDocument

/-- A lexeme of the text of a document. -/
inductive JsonLexeme (σ : Type*) where
  | openBrace
  | closeBrace
  | openBracket
  | closeBracket
  | colon
  | comma
  | scalar (s : σ)
deriving DecidableEq

inductive JsonContainer where
  | object
  | array
deriving DecidableEq

/-- What the reader expects of the next lexeme. -/
inductive JsonExpectation where
  | value
  | firstElement
  | firstName
  | name
  | colon
  | next
deriving DecidableEq

namespace JsonReader

variable (asName : σ → Option ν) (maxDepth : Nat)

/-- The tokens a lexeme is reported as, what follows it and the containers around that. -/
abbrev Step (ν σ : Type*) :=
  List (JsonToken ν σ) × JsonExpectation × List JsonContainer

def startValue (stack : List JsonContainer) : JsonLexeme σ → Option (Step ν σ)
  | .scalar s => some ([.scalar s], .next, stack)
  | .openBrace =>
      if stack.length < maxDepth then some ([.startObject], .firstName, .object :: stack) else none
  | .openBracket =>
      if stack.length < maxDepth then some ([.startArray], .firstElement, .array :: stack) else none
  | _ => none

def afterValue : List JsonContainer → JsonLexeme σ → Option (Step ν σ)
  | .object :: stack, .comma => some ([], .name, .object :: stack)
  | .array :: stack, .comma => some ([], .value, .array :: stack)
  | .object :: stack, .closeBrace => some ([.endObject], .next, stack)
  | .array :: stack, .closeBracket => some ([.endArray], .next, stack)
  | _, _ => none

def readName (stack : List JsonContainer) : JsonLexeme σ → Option (Step ν σ)
  | .scalar s => (asName s).map fun name => ([.propertyName name], .colon, stack)
  | _ => none

def step (stack : List JsonContainer) :
    JsonExpectation → JsonLexeme σ → Option (Step ν σ)
  | .value, lexeme => startValue maxDepth stack lexeme
  | .firstElement, .closeBracket => afterValue stack .closeBracket
  | .firstElement, lexeme => startValue maxDepth stack lexeme
  | .firstName, .closeBrace => afterValue stack .closeBrace
  | .firstName, lexeme => readName asName stack lexeme
  | .name, lexeme => readName asName stack lexeme
  | .colon, .colon => some ([], .value, stack)
  | .colon, _ => none
  | .next, lexeme => afterValue stack lexeme

/-- All tokens up to the end of the text, or none when it is not a document. -/
def read (expectation : JsonExpectation) (stack : List JsonContainer) :
    List (JsonLexeme σ) → Option (List (JsonToken ν σ))
  | [] => if expectation = .next ∧ stack = [] then some [] else none
  | lexeme :: lexemes => do
      let (reported, expectation, stack) ← step asName maxDepth stack expectation lexeme
      let tokens ← read expectation stack lexemes
      return reported ++ tokens

end JsonReader

section accepted

open JsonDocument JsonReader

variable {asName : σ → Option ν} {maxDepth : Nat}

/-- The tokens close the containers of the stack after elements and members. -/
def Closes : List JsonContainer → List (JsonToken ν σ) → Prop
  | [], tokens => tokens = []
  | .array :: stack, tokens =>
      ∃ elements rest, tokens = elementTokens elements ++ .endArray :: rest ∧ Closes stack rest
  | .object :: stack, tokens =>
      ∃ members rest, tokens = memberTokens members ++ .endObject :: rest ∧ Closes stack rest

/-- The tokens go on as the reader expects. -/
def Continues (stack : List JsonContainer) : JsonExpectation → List (JsonToken ν σ) → Prop
  | .value, tokens | .colon, tokens =>
      ∃ (value : JsonDocument ν σ) (rest : _), tokens = value.tokens ++ rest ∧ Closes stack rest
  | .name, tokens =>
      ∃ (name : ν) (value : JsonDocument ν σ) (rest : _),
        tokens = .propertyName name :: value.tokens ++ rest ∧ Closes stack rest
  | .firstElement, tokens => stack.head? = some .array → Closes stack tokens
  | .firstName, tokens => stack.head? = some .object → Closes stack tokens
  | .next, tokens => Closes stack tokens

theorem continues_startValue {stack : List JsonContainer} {lexeme : JsonLexeme σ}
    {reported tokens : List (JsonToken ν σ)} {expectation : JsonExpectation}
    {inner : List JsonContainer}
    (hstep : startValue maxDepth stack lexeme = some (reported, expectation, inner))
    (htokens : Continues inner expectation tokens) :
    ∃ (value : JsonDocument ν σ) (rest : _), reported ++ tokens = value.tokens ++ rest ∧
      Closes stack rest := by
  cases lexeme with
  | scalar s =>
      obtain ⟨rfl, rfl, rfl⟩ : [.scalar s] = reported ∧ .next = expectation ∧ stack = inner := by
        simpa [startValue] using hstep
      exact ⟨scalar s, tokens, by simp [JsonDocument.tokens], htokens⟩
  | openBrace =>
      obtain ⟨-, rfl, rfl, rfl⟩ : stack.length < maxDepth ∧ [.startObject] = reported ∧
          .firstName = expectation ∧ .object :: stack = inner := by
        simpa [startValue] using hstep
      obtain ⟨members, rest, rfl, hrest⟩ := htokens rfl
      exact ⟨object members, rest, by simp [JsonDocument.tokens], hrest⟩
  | openBracket =>
      obtain ⟨-, rfl, rfl, rfl⟩ : stack.length < maxDepth ∧ [.startArray] = reported ∧
          .firstElement = expectation ∧ .array :: stack = inner := by
        simpa [startValue] using hstep
      obtain ⟨elements, rest, rfl, hrest⟩ := htokens rfl
      exact ⟨array elements, rest, by simp [JsonDocument.tokens], hrest⟩
  | closeBrace | closeBracket | colon | comma => cases hstep

theorem continues_afterValue {stack : List JsonContainer} {lexeme : JsonLexeme σ}
    {reported tokens : List (JsonToken ν σ)} {expectation : JsonExpectation}
    {inner : List JsonContainer}
    (hstep : afterValue stack lexeme = some (reported, expectation, inner))
    (htokens : Continues inner expectation tokens) : Closes stack (reported ++ tokens) := by
  unfold afterValue at hstep
  split at hstep
  · cases hstep
    obtain ⟨name, value, rest, rfl, members, rest, rfl, hrest⟩ := htokens
    exact ⟨(name, value) :: members, rest, by simp [memberTokens], hrest⟩
  · cases hstep
    obtain ⟨value, rest, rfl, elements, rest, rfl, hrest⟩ := htokens
    exact ⟨value :: elements, rest, by simp [elementTokens], hrest⟩
  · cases hstep
    exact ⟨[], tokens, by simp [memberTokens], htokens⟩
  · cases hstep
    exact ⟨[], tokens, by simp [elementTokens], htokens⟩
  · cases hstep

theorem continues_readName {stack : List JsonContainer} {lexeme : JsonLexeme σ}
    {reported tokens : List (JsonToken ν σ)} {expectation : JsonExpectation}
    {inner : List JsonContainer}
    (hstep : readName asName stack lexeme = some (reported, expectation, inner))
    (htokens : Continues inner expectation tokens) :
    ∃ (name : ν) (value : JsonDocument ν σ) (rest : _),
      reported ++ tokens = .propertyName name :: value.tokens ++ rest ∧ Closes stack rest := by
  cases lexeme with
  | scalar s =>
      obtain ⟨name, -, rfl, rfl, rfl⟩ : ∃ name, asName s = some name ∧
          [.propertyName name] = reported ∧ .colon = expectation ∧ stack = inner := by
        simpa [readName] using hstep
      obtain ⟨value, rest, rfl, hrest⟩ := htokens
      exact ⟨name, value, rest, by simp, hrest⟩
  | openBrace | closeBrace | openBracket | closeBracket | colon | comma => cases hstep

theorem continues_step {stack : List JsonContainer} {before : JsonExpectation}
    {lexeme : JsonLexeme σ} {reported tokens : List (JsonToken ν σ)}
    {expectation : JsonExpectation} {inner : List JsonContainer}
    (hstep : step asName maxDepth stack before lexeme = some (reported, expectation, inner))
    (htokens : Continues inner expectation tokens) :
    Continues stack before (reported ++ tokens) := by
  unfold step at hstep
  split at hstep
  · exact continues_startValue hstep htokens
  · exact fun _ => continues_afterValue hstep htokens
  · intro htop
    obtain ⟨stack, rfl⟩ : ∃ outer, stack = .array :: outer := List.head?_eq_some_iff.mp htop
    obtain ⟨value, rest, htokens, elements, rest, rfl, hrest⟩ :=
      continues_startValue hstep htokens
    exact ⟨value :: elements, rest, by simp [htokens, elementTokens], hrest⟩
  · exact fun _ => continues_afterValue hstep htokens
  · intro htop
    obtain ⟨stack, rfl⟩ : ∃ outer, stack = .object :: outer := List.head?_eq_some_iff.mp htop
    obtain ⟨name, value, rest, htokens, members, rest, rfl, hrest⟩ :=
      continues_readName hstep htokens
    exact ⟨(name, value) :: members, rest, by simp [htokens, memberTokens], hrest⟩
  · exact continues_readName hstep htokens
  · cases hstep
    exact htokens
  · cases hstep
  · exact continues_afterValue hstep htokens

theorem continues_of_read {stack : List JsonContainer} {expectation : JsonExpectation}
    {lexemes : List (JsonLexeme σ)} {tokens : List (JsonToken ν σ)}
    (h : read asName maxDepth expectation stack lexemes = some tokens) :
    Continues stack expectation tokens := by
  induction lexemes generalizing stack expectation tokens with
  | nil =>
      obtain ⟨⟨rfl, rfl⟩, rfl⟩ : (expectation = .next ∧ stack = []) ∧ [] = tokens := by
        simpa [JsonReader.read] using h
      rfl
  | cons lexeme lexemes ih =>
      obtain ⟨⟨reported, after, inner⟩, hstep, h⟩ := Option.bind_eq_some_iff.mp h
      obtain ⟨rest, hread, h⟩ := Option.bind_eq_some_iff.mp h
      obtain rfl : reported ++ rest = tokens := Option.some_inj.mp h
      exact continues_step hstep (ih hread)

/-- What is read off a text are the tokens of a document. -/
theorem exists_document_of_read {lexemes : List (JsonLexeme σ)} {tokens : List (JsonToken ν σ)}
    (h : read asName maxDepth .value [] lexemes = some tokens) :
    ∃ document : JsonDocument ν σ, document.tokens = tokens := by
  obtain ⟨document, rest, rfl, hrest⟩ := continues_of_read h
  obtain rfl : rest = [] := hrest
  exact ⟨document, by simp⟩

end accepted

section skipping

open JsonDocument

/-- How many containers are open after a token. -/
def JsonToken.depthAfter (depth : Nat) : JsonToken ν σ → Nat
  | startObject | startArray => depth + 1
  | endObject | endArray => depth - 1
  | propertyName _ | scalar _ => depth

/-- The tokens up to the one that leaves all open containers, and those after it. -/
def takeBlock (depth : Nat) :
    List (JsonToken ν σ) → List (JsonToken ν σ) × List (JsonToken ν σ)
  | [] => ([], [])
  | token :: tokens =>
      if token.depthAfter depth = 0 then ([token], tokens)
      else
        let (block, rest) := takeBlock (token.depthAfter depth) tokens
        (token :: block, rest)

theorem length_takeBlock_le (depth : Nat) (tokens : List (JsonToken ν σ)) :
    (takeBlock depth tokens).2.length ≤ tokens.length := by
  induction tokens generalizing depth with
  | nil => exact Nat.le_refl _
  | cons token tokens ih =>
      rw [takeBlock]
      split
      · exact Nat.le_succ _
      · exact Nat.le_trans (ih _) (Nat.le_succ _)

mutual

theorem takeBlock_tokens (depth : Nat) (value : JsonDocument ν σ)
    (rest : List (JsonToken ν σ)) :
    takeBlock (depth + 1) (value.tokens ++ rest) =
      (value.tokens ++ (takeBlock (depth + 1) rest).1, (takeBlock (depth + 1) rest).2) := by
  cases value with
  | scalar s => simp [tokens, takeBlock, JsonToken.depthAfter]
  | array elements =>
      simp [tokens, takeBlock, JsonToken.depthAfter, takeBlock_elementTokens (depth + 1) elements]
  | object members =>
      simp [tokens, takeBlock, JsonToken.depthAfter, takeBlock_memberTokens (depth + 1) members]

theorem takeBlock_elementTokens (depth : Nat) (elements : List (JsonDocument ν σ))
    (rest : List (JsonToken ν σ)) :
    takeBlock (depth + 1) (elementTokens elements ++ rest) =
      (elementTokens elements ++ (takeBlock (depth + 1) rest).1,
        (takeBlock (depth + 1) rest).2) := by
  cases elements with
  | nil => rfl
  | cons element elements =>
      rw [elementTokens, List.append_assoc, takeBlock_tokens depth element,
        takeBlock_elementTokens depth elements, List.append_assoc]

theorem takeBlock_memberTokens (depth : Nat) (members : List (ν × JsonDocument ν σ))
    (rest : List (JsonToken ν σ)) :
    takeBlock (depth + 1) (memberTokens members ++ rest) =
      (memberTokens members ++ (takeBlock (depth + 1) rest).1,
        (takeBlock (depth + 1) rest).2) := by
  cases members with
  | nil => rfl
  | cons member members =>
      obtain ⟨name, value⟩ := member
      simp [memberTokens, takeBlock, JsonToken.depthAfter, takeBlock_tokens depth value,
        takeBlock_memberTokens depth members]

end

/-- A value is skipped as the block of its tokens. -/
theorem takeBlock_zero_tokens (value : JsonDocument ν σ) (rest : List (JsonToken ν σ)) :
    takeBlock 0 (value.tokens ++ rest) = (value.tokens, rest) := by
  cases value with
  | scalar s => simp [tokens, takeBlock, JsonToken.depthAfter]
  | array elements =>
      simp [tokens, takeBlock, JsonToken.depthAfter, takeBlock_elementTokens 0 elements]
  | object members =>
      simp [tokens, takeBlock, JsonToken.depthAfter, takeBlock_memberTokens 0 members]

end skipping

end Foundation

/-!
## The grammar of texts

The grammar of JSON over characters: words, numbers, strings with their escapes,
and arrays and objects of values with blanks around what stands in them.
-/

namespace Foundation.JsonGrammar

def IsBlank (text : List Char) : Prop := ∀ c ∈ text, c ∈ [' ', '\t', '\n', '\r']

def IsDigits (text : List Char) : Prop := text ≠ [] ∧ ∀ c ∈ text, c.isDigit = true

/-- Digits without a leading zero. -/
def IsInteger (text : List Char) : Prop := IsDigits text ∧ (text.head? = some '0' → text = ['0'])

/-- A sign, an integer, a fraction and an exponent, of which only the integer has to be there. -/
inductive IsNumber : List Char → Prop
  | mk {sign integer fraction exponent : List Char} (hsign : sign ∈ [[], ['-']])
      (hinteger : IsInteger integer)
      (hfraction : fraction = [] ∨ ∃ digits, IsDigits digits ∧ fraction = '.' :: digits)
      (hexponent : exponent = [] ∨ ∃ mark ∈ ['e', 'E'], ∃ sign ∈ [[], ['-'], ['+']],
        ∃ digits, IsDigits digits ∧ exponent = mark :: sign ++ digits) :
      IsNumber (sign ++ integer ++ fraction ++ exponent)

inductive IsEscape : List Char → Prop
  | short {c : Char} (h : c ∈ ['"', '\\', '/', 'b', 'f', 'n', 'r', 't']) : IsEscape ['\\', c]
  | unicode {digits : List Char} (hlength : digits.length = 4)
      (h : ∀ c ∈ digits, isHexDigit c = true) : IsEscape ('\\' :: 'u' :: digits)

/-- What stands between the quotes of a string. -/
inductive IsContent : List Char → Prop
  | nil : IsContent []
  | unescaped {c : Char} {text : List Char} (hcontrol : 0x20 ≤ c.toNat) (hquote : c ≠ '"')
      (hbackslash : c ≠ '\\') (h : IsContent text) : IsContent (c :: text)
  | escaped {escape text : List Char} (hescape : IsEscape escape) (h : IsContent text) :
      IsContent (escape ++ text)

inductive IsString : List Char → Prop
  | mk {content : List Char} (h : IsContent content) : IsString ('"' :: content ++ ['"'])

mutual

inductive IsValue : List Char → Prop
  | word {text : List Char} (h : text ∈ ["true".toList, "false".toList, "null".toList]) :
      IsValue text
  | number {text : List Char} (h : IsNumber text) : IsValue text
  | string {text : List Char} (h : IsString text) : IsValue text
  | array {text : List Char} (h : IsArray text) : IsValue text
  | object {text : List Char} (h : IsObject text) : IsValue text

inductive IsArray : List Char → Prop
  | empty {blank : List Char} (h : IsBlank blank) : IsArray ('[' :: blank ++ [']'])
  | elements {text : List Char} (h : IsElements text) : IsArray ('[' :: text ++ [']'])

inductive IsElements : List Char → Prop
  | last {before value after : List Char} (hbefore : IsBlank before) (h : IsValue value)
      (hafter : IsBlank after) : IsElements (before ++ value ++ after)
  | cons {before value after text : List Char} (hbefore : IsBlank before) (h : IsValue value)
      (hafter : IsBlank after) (htext : IsElements text) :
      IsElements (before ++ value ++ after ++ ',' :: text)

inductive IsObject : List Char → Prop
  | empty {blank : List Char} (h : IsBlank blank) : IsObject ('{' :: blank ++ ['}'])
  | members {text : List Char} (h : IsMembers text) : IsObject ('{' :: text ++ ['}'])

inductive IsMembers : List Char → Prop
  | last {before name between blank value after : List Char} (hbefore : IsBlank before)
      (hname : IsString name) (hbetween : IsBlank between) (hblank : IsBlank blank)
      (h : IsValue value) (hafter : IsBlank after) :
      IsMembers (before ++ name ++ between ++ ':' :: blank ++ value ++ after)
  | cons {before name between blank value after text : List Char} (hbefore : IsBlank before)
      (hname : IsString name) (hbetween : IsBlank between) (hblank : IsBlank blank)
      (h : IsValue value) (hafter : IsBlank after) (htext : IsMembers text) :
      IsMembers (before ++ name ++ between ++ ':' :: blank ++ value ++ after ++ ',' :: text)

end

end Foundation.JsonGrammar
