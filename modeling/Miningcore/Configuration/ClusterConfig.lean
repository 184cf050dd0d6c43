import Miningcore.Foundation.CompactJson
import Miningcore.Foundation.HexDigits
import Miningcore.Foundation.DecimalText
import Miningcore.Foundation.Dictionary
import Miningcore.VarDiff.VarDiffManager
import Mathlib.Data.Option.Basic

/-!
# Texts of serialized values

`JsonConvert.SerializeObject` writes an object without blanks, with its members in the
order in which they are declared and those of extension data after them.

## Implementation notes

A number is given by the literal that is written for it, and a date by its text. What the
library writes as a bare word or a string although it is a number (the infinite ones) is
left out.
-/

namespace Miningcore.Configuration

open Foundation

def isNumberChar (c : Char) : Bool := c.isDigit || ['+', '-', '.', 'e', 'E'].contains c

/-- What is written for a number. -/
structure NumberLiteral where
  text : List Char
  ne_nil : text ≠ []
  isNumberChar : ∀ c ∈ text, isNumberChar c
deriving DecidableEq

inductive JsonScalar where
  | null
  | boolean (value : Bool)
  | number (literal : NumberLiteral)
  | string (value : String)
deriving DecidableEq

/-- A value of a configuration file whose type is not fixed. -/
abbrev JToken := JsonDocument String JsonScalar

namespace JToken

def null : JToken := .scalar .null

end JToken

/-! ### Strings -/

/-- The letter that stands for a character behind a backslash. -/
def escapeLetter (c : Char) : Option Char :=
  match c with
  | '\t' => some 't'
  | '\n' => some 'n'
  | '\r' => some 'r'
  | '\x0c' => some 'f'
  | '\x08' => some 'b'
  | '\\' => some '\\'
  | '"' => some '"'
  | _ => none

/-- Control characters and line separators are written by their codes. -/
def isWrittenByCode (c : Char) : Bool :=
  c.toNat < 0x20 || c.toNat = 0x85 || c.toNat = 0x2028 || c.toNat = 0x2029

def escape (c : Char) : List Char :=
  match escapeLetter c with
  | some letter => ['\\', letter]
  | none =>
      if isWrittenByCode c then '\\' :: 'u' :: hexText 4 c.toNat
      else [c]

theorem escapeLetter_inj {c d letter : Char} (hc : escapeLetter c = some letter)
    (hd : escapeLetter d = some letter) : c = d := by
  unfold escapeLetter at hc hd
  split at hc <;> cases hc <;> split at hd <;> first | rfl | cases hd

theorem escapeLetter_ne_u {c letter : Char} (hc : escapeLetter c = some letter) :
    letter ≠ 'u' := by
  unfold escapeLetter at hc
  split at hc <;> cases hc <;> decide

theorem lt_of_isWrittenByCode {c : Char} (hc : isWrittenByCode c) : c.toNat < 16 ^ 4 := by
  simp only [isWrittenByCode, Bool.or_eq_true, decide_eq_true_eq] at hc
  omega

/-- A character is written by a letter, by its code or as it is. -/
theorem escape_cases (c : Char) :
    (∃ letter, escapeLetter c = some letter ∧ escape c = ['\\', letter]) ∨
      (isWrittenByCode c ∧ escape c = '\\' :: 'u' :: hexText 4 c.toNat) ∨
      (c ≠ '\\' ∧ c ≠ '"' ∧ escape c = [c]) := by
  unfold escape
  split
  · rename_i letter hletter
    exact Or.inl ⟨letter, hletter, rfl⟩
  · rename_i hnone
    split
    · rename_i hcode
      exact Or.inr (Or.inl ⟨hcode, rfl⟩)
    · refine Or.inr (Or.inr ⟨?_, ?_, rfl⟩) <;> rintro rfl <;> cases hnone

/-- The code of no character begins another's. -/
theorem readableBefore_escape : ReadableBefore (fun _ => True) escape := by
  intro c d s t _ _ h
  obtain ⟨k, hk, hc⟩ | ⟨hcode, hc⟩ | ⟨hslash, -, hc⟩ := escape_cases c <;>
    obtain ⟨l, hl, hd⟩ | ⟨hcode', hd⟩ | ⟨hslash', -, hd⟩ := escape_cases d <;>
    rw [hc, hd] at h <;>
    simp only [List.cons_append, List.nil_append, List.cons.injEq, true_and] at h
  · obtain ⟨rfl, hrest⟩ := h
    exact ⟨escapeLetter_inj hk hl, hrest⟩
  · exact absurd h.1 (escapeLetter_ne_u hk)
  · exact absurd h.1.symm hslash'
  · exact absurd h.1.symm (escapeLetter_ne_u hl)
  · obtain ⟨hdigits, hrest⟩ := List.append_inj h
      ((length_hexText 4 _).trans (length_hexText 4 _).symm)
    have hvalue : c.toNat = d.toNat := by
      rw [← hexValue_hexText 4 _ (lt_of_isWrittenByCode hcode), hdigits,
        hexValue_hexText 4 _ (lt_of_isWrittenByCode hcode')]
    exact ⟨Char.toNat_inj.mp hvalue, hrest⟩
  · exact absurd h.1.symm hslash'
  · exact absurd h.1 hslash
  · exact absurd h.1 hslash
  · exact h

theorem escape_append_ne (c : Char) (s t : List Char) : escape c ++ s ≠ '"' :: t := by
  intro h
  obtain ⟨letter, -, hc⟩ | ⟨-, hc⟩ | ⟨-, hquote, hc⟩ := escape_cases c <;>
    rw [hc] at h <;>
    simp only [List.cons_append, List.nil_append, List.cons.injEq] at h
  · exact absurd h.1 (by decide)
  · exact absurd h.1 (by decide)
  · exact hquote h.1

def stringText (s : String) : List Char := quoted escape s.toList

theorem readableBefore_stringText : ReadableBefore (fun _ => True) stringText := by
  intro x y s t hs ht h
  obtain ⟨hsame, hrest⟩ := readableBefore_quoted readableBefore_escape escape_append_ne hs ht h
  exact ⟨String.toList_inj.mp hsame, hrest⟩

/-! ### Scalars and documents -/

def JsonScalar.text : JsonScalar → List Char
  | .null => ['n', 'u', 'l', 'l']
  | .boolean true => ['t', 'r', 'u', 'e']
  | .boolean false => ['f', 'a', 'l', 's', 'e']
  | .number literal => literal.text
  | .string value => stringText value

/-- What a number begins with. -/
theorem NumberLiteral.head {literal : NumberLiteral} {s t : List Char} {c : Char}
    (h : literal.text ++ s = c :: t) : Configuration.isNumberChar c := by
  obtain ⟨d, text, htext⟩ := List.exists_cons_of_ne_nil literal.ne_nil
  rw [htext, List.cons_append] at h
  obtain ⟨rfl, -⟩ := List.cons.inj h
  exact literal.isNumberChar d (by simp [htext])

theorem head_not_isNumberChar {s : List Char} (h : JsonDocument.EndsValue s) :
    ∀ c ∈ s.head?, ¬isNumberChar c := by
  cases s with
  | nil => simp
  | cons c s =>
      obtain rfl | rfl | rfl := h <;> simp [isNumberChar]

/-- A scalar that is not a number begins as no number does. -/
theorem number_append_ne (literal : NumberLiteral) {scalar : JsonScalar} {s t : List Char}
    (hscalar : ∀ other, scalar ≠ .number other) : literal.text ++ s ≠ scalar.text ++ t := by
  intro h
  match scalar with
  | .number other => exact hscalar other rfl
  | .null | .boolean true | .boolean false | .string value =>
      simp only [JsonScalar.text, stringText, quoted, List.cons_append] at h
      exact absurd (NumberLiteral.head h) (by decide)

theorem readableBefore_scalar : ReadableBefore JsonDocument.EndsValue JsonScalar.text := by
  intro x y s t hs ht h
  match x, y with
  | .number l, .number m =>
      obtain ⟨hsame, hrest⟩ := append_inj_of_run l.isNumberChar m.isNumberChar
        (head_not_isNumberChar hs) (head_not_isNumberChar ht) h
      refine ⟨?_, hrest⟩
      cases l
      cases m
      cases hsame
      rfl
  | .string v, .string w =>
      obtain ⟨rfl, hrest⟩ := readableBefore_stringText trivial trivial h
      exact ⟨rfl, hrest⟩
  | .number l, .null | .number l, .boolean true | .number l, .boolean false
  | .number l, .string v =>
      exact absurd h (number_append_ne l (by simp))
  | .null, .number l | .boolean true, .number l | .boolean false, .number l
  | .string v, .number l =>
      exact absurd h.symm (number_append_ne l (by simp))
  | .null, .null | .boolean true, .boolean true | .boolean false, .boolean false =>
      exact ⟨rfl, List.append_cancel_left h⟩
  | .null, .boolean true | .null, .boolean false | .null, .string v
  | .boolean true, .null | .boolean true, .boolean false | .boolean true, .string v
  | .boolean false, .null | .boolean false, .boolean true | .boolean false, .string v
  | .string v, .null | .string v, .boolean true | .string v, .boolean false =>
      simp [JsonScalar.text, stringText, quoted] at h

def JToken.text (token : JToken) : List Char :=
  token.compactText stringText JsonScalar.text

/-- `JsonConvert.SerializeObject` -/
def serializeObject (token : JToken) : String := String.ofList token.text

theorem readable_text : JsonDocument.Readable stringText JsonScalar.text where
  name := readableBefore_stringText
  scalar := readableBefore_scalar
  head_scalar := by
    intro x s c t h hmem
    match x with
    | .number literal =>
        have hhead : isNumberChar c := NumberLiteral.head h
        simp only [List.mem_cons, List.not_mem_nil, or_false] at hmem
        obtain rfl | rfl | rfl | rfl := hmem <;> exact absurd hhead (by decide)
    | .null | .boolean true | .boolean false | .string value =>
        simp only [JsonScalar.text, stringText, quoted, List.cons_append, List.cons.injEq] at h
        obtain ⟨rfl, -⟩ := h
        exact absurd hmem (by decide)
  head_name := by
    rintro x s c t h rfl
    simp [stringText, quoted] at h

/-- What is serialized to one text is one value. -/
theorem serializeObject_injective : Function.Injective serializeObject := by
  intro a b h
  exact JsonDocument.compactText_injective readable_text (String.ofList_injective h)

end Miningcore.Configuration

/-!
## The configuration file

The sections of pools as they are read from the configuration file, and the defaults that are set
in them at startup.

## Implementation notes

A section without an id cannot be started and is left out, and so are the settings of a pool that
neither the reload nor its documentation looks at (its bans, its reward recipients, its public key,
the interval of its sweeps and its error fields).
-/

namespace Miningcore.Configuration

open Foundation

/-! ### Numbers -/

theorem isNumberChar_of_isDigit {c : Char} (h : c.isDigit) : isNumberChar c := by
  rw [isNumberChar, h, Bool.true_or]

theorem isNumberChar_integerText (i : ℤ) : ∀ c ∈ integerText i, isNumberChar c := by
  intro c hc
  obtain hdigit | rfl := mem_integerText hc
  · exact isNumberChar_of_isDigit hdigit
  · rfl

theorem isNumberChar_decimalText (d : Decimal) : ∀ c ∈ d.text, isNumberChar c := by
  intro c hc
  obtain hdigit | rfl | rfl := Decimal.mem_text hc
  · exact isNumberChar_of_isDigit hdigit
  · rfl
  · rfl

namespace NumberLiteral

def ofInt (i : ℤ) : NumberLiteral :=
  ⟨integerText i, integerText_ne_nil i, isNumberChar_integerText i⟩

def ofDecimal (d : Decimal) : NumberLiteral := ⟨d.text, d.text_ne_nil, isNumberChar_decimalText d⟩

theorem ofInt_injective : Function.Injective ofInt := by
  intro i j h
  exact integerText_injective (congrArg text h)

end NumberLiteral

/-! ### Sections -/

structure DaemonEndpointConfig where
  host : Option String
  port : ℤ
  user : Option String
  password : Option String
  ssl : Bool
  http2 : Bool
  category : Option String
  httpPath : Option String
  extra : Option (Dictionary String JToken)

structure TcpProxyProtocolConfig where
  enable : Bool
  mandatory : Bool
  proxyAddresses : Option (List (Option String))
deriving DecidableEq

structure PoolEndpoint where
  listenAddress : Option String
  name : Option String
  difficulty : FloatingPoint
  tcpProxyProtocol : Option TcpProxyProtocolConfig
  varDiff : Option VarDiff.VarDiffConfig
  tls : Bool
  tlsAuto : Bool
  tlsPfxFile : Option String
  tlsPfxPassword : Option String
  tcpBacklog : Option ℤ
deriving DecidableEq

inductive PayoutScheme where
  | PPLNS
  | PROP
  | SOLO
  | PPS
  | PPBS
  | PPLNSBF
deriving DecidableEq

/-- The number an enumeration is serialized as. -/
def PayoutScheme.number : PayoutScheme → ℤ
  | PPLNS => 1
  | PROP => 2
  | SOLO => 3
  | PPS => 4
  | PPBS => 5
  | PPLNSBF => 6

structure PoolPaymentProcessingConfig where
  enabled : Bool
  minimumPayment : Decimal
  payoutScheme : PayoutScheme
  payoutSchemeConfig : JToken := .null
  extra : Option (Dictionary String JToken) := none

structure PoolConfig where
  id : String
  coin : Option String
  enabled : Bool
  ports : Option (Dictionary ℤ PoolEndpoint) := none
  daemons : Option (List DaemonEndpointConfig) := none
  paymentProcessing : Option PoolPaymentProcessingConfig := none
  address : Option String := none
  clientConnectionTimeout : ℤ := 0
  jobRebroadcastTimeout : ℤ := 0
  blockRefreshInterval : ℤ := 0
  enableInternalStratum : Option Bool := none
  extra : Option (Dictionary String JToken) := none

structure ClusterConfig where
  pools : Option (List PoolConfig)
  shareRelays : Option (List String) := none

namespace ClusterConfig

/-- Whether the internal stratum of a pool is enabled that does not say so. -/
def defaultInternalStratum (clusterConfig : ClusterConfig) : Bool :=
  clusterConfig.shareRelays.all List.isEmpty

end ClusterConfig

namespace PoolConfig

def setDefaults (clusterConfig : ClusterConfig) (config : PoolConfig) : PoolConfig :=
  { config with
    enableInternalStratum :=
      config.enableInternalStratum.or (some clusterConfig.defaultInternalStratum) }

@[simp] theorem id_setDefaults (clusterConfig : ClusterConfig) (config : PoolConfig) :
    (config.setDefaults clusterConfig).id = config.id := rfl

@[simp] theorem enabled_setDefaults (clusterConfig : ClusterConfig) (config : PoolConfig) :
    (config.setDefaults clusterConfig).enabled = config.enabled := rfl

end PoolConfig

/-- The pools of a valid configuration, with the defaults set. -/
def validateConfig (clusterConfig : ClusterConfig) : Option (List PoolConfig) := do
  let pools ← clusterConfig.pools
  guard (pools.any PoolConfig.enabled)
  guard (pools.map PoolConfig.id).Nodup
  return pools.map (PoolConfig.setDefaults clusterConfig)

theorem validateConfig_eq_some {clusterConfig : ClusterConfig} {pools : List PoolConfig}
    (h : validateConfig clusterConfig = some pools) :
    (∃ config ∈ pools, config.enabled) ∧ (pools.map PoolConfig.id).Nodup := by
  obtain ⟨sections, -, h⟩ := Option.bind_eq_some_iff.mp h
  obtain ⟨_, hany, h⟩ := Option.bind_eq_some_iff.mp h
  obtain ⟨_, hnodup, h⟩ := Option.bind_eq_some_iff.mp h
  obtain rfl : sections.map (PoolConfig.setDefaults clusterConfig) = pools := Option.some_inj.mp h
  obtain ⟨config, hmem, henabled⟩ := List.any_eq_true.mp ((Option.guard_eq_some' _).mp hany)
  refine ⟨⟨config.setDefaults clusterConfig, List.mem_map_of_mem hmem, henabled⟩, ?_⟩
  rw [List.map_map]
  exact (Option.guard_eq_some' _).mp hnodup

end Miningcore.Configuration
