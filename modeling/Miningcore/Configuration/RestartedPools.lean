import Miningcore.Configuration.ConfigHotReloadService
import Mathlib.Data.List.Sort

/-!
# The pools that a reload restarts

A reload compares the section of a pool with the one that was applied last. The comparison reads
some of the settings, of a section in which defaults and an administrator's switch may have been
set meanwhile.

## Implementation notes

The settings of a pool are those of its section in the file. Comments, the order of keys and the
decimals of an amount are no settings.
-/

namespace Miningcore.Configuration

open Foundation

/-! ### Settings -/

mutual

/-- A value with the members of its objects in the order of their names. -/
def JToken.canonical : JToken → JToken
  | .scalar s => .scalar s
  | .array elements => .array (canonicalElements elements)
  | .object members => .object ((canonicalMembers members).mergeSort fun m n => m.1 ≤ n.1)

def canonicalElements : List JToken → List JToken
  | [] => []
  | element :: elements => JToken.canonical element :: canonicalElements elements

def canonicalMembers : List (String × JToken) → List (String × JToken)
  | [] => []
  | (name, value) :: members => (name, JToken.canonical value) :: canonicalMembers members

end

def SameToken (a b : JToken) : Prop := JToken.canonical a = JToken.canonical b

/-- The value of a key that is no comment. -/
def SameExtra (a b : Option (Dictionary String JToken)) : Prop :=
  ∀ key, isCommentKey key = false →
    Option.Rel SameToken (a.bind fun entries => entries.find? key)
      (b.bind fun entries => entries.find? key)

structure SamePayments (a b : PoolPaymentProcessingConfig) : Prop where
  enabled : a.enabled = b.enabled
  minimumPayment : a.minimumPayment.value = b.minimumPayment.value
  payoutScheme : a.payoutScheme = b.payoutScheme
  payoutSchemeConfig : SameToken a.payoutSchemeConfig b.payoutSchemeConfig
  extra : SameExtra a.extra b.extra

structure SameDaemon (a b : DaemonEndpointConfig) : Prop where
  host : a.host = b.host
  port : a.port = b.port
  user : a.user = b.user
  password : a.password = b.password
  ssl : a.ssl = b.ssl
  http2 : a.http2 = b.http2
  category : a.category = b.category
  httpPath : a.httpPath = b.httpPath
  extra : SameExtra a.extra b.extra

def SamePorts (a b : Dictionary ℤ PoolEndpoint) : Prop := a.entries.Perm b.entries

/-- Two sections agree in every setting that is documented to be reloaded. -/
structure SameSettings (a b : PoolConfig) : Prop where
  coin : a.coin = b.coin
  address : a.address = b.address
  ports : Option.Rel SamePorts a.ports b.ports
  daemons : Option.Rel (List.Forall₂ SameDaemon) a.daemons b.daemons
  paymentProcessing : Option.Rel SamePayments a.paymentProcessing b.paymentProcessing
  clientConnectionTimeout : a.clientConnectionTimeout = b.clientConnectionTimeout
  jobRebroadcastTimeout : a.jobRebroadcastTimeout = b.jobRebroadcastTimeout
  blockRefreshInterval : a.blockRefreshInterval = b.blockRefreshInterval
  enableInternalStratum : a.enableInternalStratum = b.enableInternalStratum
  extra : SameExtra a.extra b.extra

/-! ### Applied sections -/

/-- An administrator's request. -/
def PoolConfig.setProcessing (enabled : Bool) (config : PoolConfig) : PoolConfig :=
  { config with
    paymentProcessing := config.paymentProcessing.map fun payments =>
      { payments with enabled := enabled } }

/-- What becomes of a section of a file when it is applied. -/
inductive Applied (section_ : PoolConfig) : PoolConfig → Prop
  | reload : Applied section_ section_
  | startup (clusterConfig : ClusterConfig) :
      Applied section_ (section_.setDefaults clusterConfig)
  | processing {config : PoolConfig} (enabled : Bool) (h : Applied section_ config) :
      Applied section_ (config.setProcessing enabled)

/-! ### The comparison -/

/-- Two sections of payments are serialized to the same text. -/
structure PaymentsWrittenAlike (a b : PoolPaymentProcessingConfig) : Prop where
  enabled : a.enabled = b.enabled
  minimumPayment : a.minimumPayment.text = b.minimumPayment.text
  payoutScheme : a.payoutScheme = b.payoutScheme
  payoutSchemeConfig : a.payoutSchemeConfig = b.payoutSchemeConfig
  extra : extraMembers a.extra = extraMembers b.extra

/-- Two sections are spelled alike where the comparison depends on the spelling. -/
structure WrittenAlike (a b : PoolConfig) : Prop where
  enableInternalStratum : a.enableInternalStratum = b.enableInternalStratum
  paymentProcessing : Option.Rel PaymentsWrittenAlike a.paymentProcessing b.paymentProcessing
  extra : stripCommentKeys a.extra = stripCommentKeys b.extra

/-- Two sections agree in what the comparison reads. -/
structure ComparedAlike (a b : PoolConfig) : Prop extends WrittenAlike a b where
  coin : a.coin = b.coin
  address : a.address = b.address
  blockRefreshInterval : a.blockRefreshInterval = b.blockRefreshInterval
  jobRebroadcastTimeout : a.jobRebroadcastTimeout = b.jobRebroadcastTimeout
  clientConnectionTimeout : a.clientConnectionTimeout = b.clientConnectionTimeout
  daemonPorts : daemonPorts a = daemonPorts b
  stratumPorts : stratumPorts a = stratumPorts b

theorem nullable_inj {α : Type} {token : α → JToken} (hnull : ∀ a, token a ≠ JToken.null)
    {x y : Option α} : nullable token x = nullable token y ↔
      Option.Rel (fun a b => token a = token b) x y := by
  constructor
  · intro h
    cases x with
    | none =>
        cases y with
        | none => exact Option.Rel.none
        | some b => exact absurd h.symm (hnull b)
    | some a =>
        cases y with
        | none => exact absurd h (hnull a)
        | some b => exact Option.Rel.some h
  · rintro (h | -)
    · exact h
    · rfl

theorem nullable_injective {α : Type} {token : α → JToken} (hnull : ∀ a, token a ≠ JToken.null)
    (htoken : Function.Injective token) : Function.Injective (nullable token) := by
  intro x y h
  obtain hsome | - := (nullable_inj hnull).mp h
  · exact congrArg some (htoken hsome)
  · rfl

theorem integerToken_injective : Function.Injective integerToken := by
  intro i j h
  simp only [integerToken, JsonDocument.scalar.injEq, JsonScalar.number.injEq] at h
  exact NumberLiteral.ofInt_injective h

theorem number_injective : Function.Injective PayoutScheme.number := by
  intro a b h
  cases a <;> cases b <;> first | rfl | cases h

theorem decimalToken_inj {d e : Decimal} : decimalToken d = decimalToken e ↔ d.text = e.text := by
  simp [decimalToken, NumberLiteral.ofDecimal]

theorem paymentsToken_inj {a b : PoolPaymentProcessingConfig} :
    a.token = b.token ↔ PaymentsWrittenAlike a b := by
  rw [PoolPaymentProcessingConfig.token, PoolPaymentProcessingConfig.token]
  simp only [JsonDocument.object.injEq, List.cons_append, List.nil_append, List.cons.injEq,
    Prod.mk.injEq, true_and, decimalToken_inj, integerToken_injective.eq_iff,
    number_injective.eq_iff, booleanToken, JsonDocument.scalar.injEq, JsonScalar.boolean.injEq]
  constructor
  · rintro ⟨henabled, hminimum, hscheme, hconfig, hextra⟩
    exact ⟨henabled, hminimum, hscheme, hconfig, hextra⟩
  · rintro ⟨henabled, hminimum, hscheme, hconfig, hextra⟩
    exact ⟨henabled, hminimum, hscheme, hconfig, hextra⟩

theorem nullableString_injective : Function.Injective (nullable stringToken) := by
  apply nullable_injective
  · intro s h
    cases h
  · intro s t h
    cases h
    rfl

theorem nullableBoolean_injective : Function.Injective (nullable booleanToken) := by
  apply nullable_injective
  · intro b h
    cases h
  · intro b c h
    cases h
    rfl

theorem nullableObject_injective :
    Function.Injective (nullable (JsonDocument.object : _ → JToken)) := by
  apply nullable_injective
  · intro members h
    cases h
  · intro members others h
    cases h
    rfl

theorem nullablePorts_injective :
    Function.Injective (nullable fun ports : List ℤ => .array (ports.map integerToken)) := by
  apply nullable_injective
  · intro ports h
    cases h
  · intro ports others h
    exact integerToken_injective.list_map (JsonDocument.array.inj h)

theorem nullablePayments_inj {x y : Option PoolPaymentProcessingConfig} :
    nullable PoolPaymentProcessingConfig.token x = nullable PoolPaymentProcessingConfig.token y ↔
      Option.Rel PaymentsWrittenAlike x y := by
  rw [nullable_inj]
  · constructor <;> rintro (h | -)
    · exact Option.Rel.some (paymentsToken_inj.mp h)
    · exact Option.Rel.none
    · exact Option.Rel.some (paymentsToken_inj.mpr h)
    · exact Option.Rel.none
  · intro payments h
    cases h

/-- The comparison sees a change when something it reads has changed. -/
theorem poolConfigChanged_eq_false_iff {a b : PoolConfig} :
    poolConfigChanged a b = false ↔ ComparedAlike a b := by
  rw [poolConfigChanged, bne_eq_false_iff_eq, serializeObject_injective.eq_iff]
  simp only [normalize, JsonDocument.object.injEq, List.cons.injEq, Prod.mk.injEq, true_and,
    and_true, nullableString_injective.eq_iff, nullableBoolean_injective.eq_iff,
    nullableObject_injective.eq_iff, nullablePorts_injective.eq_iff, nullablePayments_inj,
    integerToken_injective.eq_iff]
  constructor
  · rintro ⟨hcoin, haddress, hrefresh, hrebroadcast, htimeout, hstratum, hpayments, hextra,
      hdaemons, hports⟩
    exact ⟨⟨hstratum, hpayments, hextra⟩, hcoin, haddress, hrefresh, hrebroadcast, htimeout,
      hdaemons, hports⟩
  · rintro ⟨⟨hstratum, hpayments, hextra⟩, hcoin, haddress, hrefresh, hrebroadcast, htimeout,
      hdaemons, hports⟩
    exact ⟨hcoin, haddress, hrefresh, hrebroadcast, htimeout, hstratum, hpayments, hextra,
      hdaemons, hports⟩

/-! ### What is missed and what is mistaken for a change -/

/-- Two files agree in what the comparison of the applied section does not show. -/
structure UncomparedAlike (a b : PoolConfig) : Prop where
  enableInternalStratum : a.enableInternalStratum = b.enableInternalStratum
  processing : a.paymentProcessing.map PoolPaymentProcessingConfig.enabled =
    b.paymentProcessing.map PoolPaymentProcessingConfig.enabled
  daemons : Option.Rel (List.Forall₂ SameDaemon) a.daemons b.daemons
  ports : Option.Rel SamePorts a.ports b.ports

/-- No difference of the files is hidden, and none is made up. -/
def Telling (file applied newFile : PoolConfig) : Prop :=
  (ComparedAlike applied newFile → UncomparedAlike file newFile) ∧
    (SameSettings file newFile → WrittenAlike applied newFile)

/-- Only the switch of the payments differs. -/
def SwitchedOnly (a b : PoolPaymentProcessingConfig) : Prop := b = { a with enabled := b.enabled }

/-- What is applied of a section beside its payments and its internal stratum. -/
structure Keeps (file applied : PoolConfig) : Prop where
  coin : file.coin = applied.coin
  address : file.address = applied.address
  blockRefreshInterval : file.blockRefreshInterval = applied.blockRefreshInterval
  jobRebroadcastTimeout : file.jobRebroadcastTimeout = applied.jobRebroadcastTimeout
  clientConnectionTimeout : file.clientConnectionTimeout = applied.clientConnectionTimeout
  daemons : file.daemons = applied.daemons
  ports : file.ports = applied.ports
  extra : file.extra = applied.extra
  paymentProcessing : Option.Rel SwitchedOnly file.paymentProcessing applied.paymentProcessing

theorem rel_self {α : Type} {r : α → α → Prop} (h : ∀ a, r a a) (x : Option α) :
    Option.Rel r x x := by
  cases x with
  | none => exact Option.Rel.none
  | some a => exact Option.Rel.some (h a)

theorem rel_map {α : Type} {r : α → α → Prop} {f : α → α} (h : ∀ a b, r a b → r a (f b))
    {x y : Option α} (hxy : Option.Rel r x y) : Option.Rel r x (y.map f) := by
  cases hxy with
  | none => exact Option.Rel.none
  | some hab => exact Option.Rel.some (h _ _ hab)

theorem switchedOnly_self (a : PoolPaymentProcessingConfig) : SwitchedOnly a a := rfl

theorem Applied.keeps {file applied : PoolConfig} (h : Applied file applied) :
    Keeps file applied := by
  induction h with
  | reload => exact ⟨rfl, rfl, rfl, rfl, rfl, rfl, rfl, rfl, rel_self switchedOnly_self _⟩
  | startup clusterConfig =>
      exact ⟨rfl, rfl, rfl, rfl, rfl, rfl, rfl, rfl, rel_self switchedOnly_self _⟩
  | processing enabled h ih =>
      refine ⟨ih.coin, ih.address, ih.blockRefreshInterval, ih.jobRebroadcastTimeout,
        ih.clientConnectionTimeout, ih.daemons, ih.ports, ih.extra, rel_map ?_ ih.paymentProcessing⟩
      intro a b hab
      rw [SwitchedOnly] at hab ⊢
      rw [hab]

theorem sameToken_self (a : JToken) : SameToken a a := rfl

/-- Comments are not looked up. -/
theorem find?_filter_not_comment (members : List (String × JToken)) {key : String}
    (hkey : isCommentKey key = false) :
    (members.filter fun member => !isCommentKey member.1).find? (fun e => decide (e.1 = key)) =
      members.find? fun e => decide (e.1 = key) := by
  induction members with
  | nil => rfl
  | cons member members ih =>
      by_cases hcomment : isCommentKey member.1
      · have hne : member.1 ≠ key := by
          rintro rfl
          exact absurd hcomment (by simp [hkey])
        rw [List.filter_cons_of_neg (by simp [hcomment]),
          List.find?_cons_of_neg (by simp [hne]), ih]
      · rw [List.filter_cons_of_pos (by simp [hcomment]), List.find?_cons, List.find?_cons, ih]

theorem bind_find? (extra : Option (Dictionary String JToken)) (key : String) :
    (extra.bind fun entries => entries.find? key) =
      ((extraMembers extra).find? fun e => decide (e.1 = key)).map Prod.snd := by
  cases extra <;> rfl

theorem filter_extraMembers (extra : Option (Dictionary String JToken)) :
    (extraMembers extra).filter (fun member => !isCommentKey member.1) =
      (stripCommentKeys extra).getD [] := by
  cases extra <;> rfl

/-- The same keys without their comments say the same. -/
theorem sameExtra_of_strip {a b : Option (Dictionary String JToken)}
    (h : stripCommentKeys a = stripCommentKeys b) : SameExtra a b := by
  intro key hkey
  have hfind : (extraMembers a).find? (fun e => decide (e.1 = key)) =
      (extraMembers b).find? fun e => decide (e.1 = key) := by
    rw [← find?_filter_not_comment _ hkey, filter_extraMembers, h, ← filter_extraMembers,
      find?_filter_not_comment _ hkey]
  rw [bind_find?, bind_find?, hfind]
  exact rel_self sameToken_self _

theorem sameExtra_of_members {a b : Option (Dictionary String JToken)}
    (h : extraMembers a = extraMembers b) : SameExtra a b := by
  intro key _
  rw [bind_find?, bind_find?, h]
  exact rel_self sameToken_self _

theorem samePayments_of_written {a b c : PoolPaymentProcessingConfig} (hab : SwitchedOnly a b)
    (hbc : PaymentsWrittenAlike b c) (henabled : a.enabled = c.enabled) : SamePayments a c := by
  rw [SwitchedOnly] at hab
  rw [hab] at hbc
  exact {
    enabled := henabled
    minimumPayment := Decimal.value_eq_of_text_eq hbc.minimumPayment
    payoutScheme := hbc.payoutScheme
    payoutSchemeConfig := congrArg JToken.canonical hbc.payoutSchemeConfig
    extra := sameExtra_of_members hbc.extra }

/-- What the comparison shows and what it does not show make up the settings. -/
theorem sameSettings_of_compared {file applied newFile : PoolConfig} (hkeeps : Keeps file applied)
    (hcompared : ComparedAlike applied newFile) (huncompared : UncomparedAlike file newFile) :
    SameSettings file newFile where
  coin := hkeeps.coin.trans hcompared.coin
  address := hkeeps.address.trans hcompared.address
  ports := huncompared.ports
  daemons := huncompared.daemons
  paymentProcessing := by
    have hprocessing := huncompared.processing
    have hpayments := hkeeps.paymentProcessing
    have hwritten := hcompared.paymentProcessing
    generalize file.paymentProcessing = x at *
    generalize applied.paymentProcessing = y at *
    generalize newFile.paymentProcessing = z at *
    cases hwritten with
    | none =>
        cases hpayments
        exact Option.Rel.none
    | some hbc =>
        cases hpayments with
        | some hab =>
            exact Option.Rel.some (samePayments_of_written hab hbc (Option.some_inj.mp hprocessing))
  clientConnectionTimeout :=
    hkeeps.clientConnectionTimeout.trans hcompared.clientConnectionTimeout
  jobRebroadcastTimeout := hkeeps.jobRebroadcastTimeout.trans hcompared.jobRebroadcastTimeout
  blockRefreshInterval := hkeeps.blockRefreshInterval.trans hcompared.blockRefreshInterval
  enableInternalStratum := huncompared.enableInternalStratum
  extra := by
    rw [hkeeps.extra]
    exact sameExtra_of_strip hcompared.extra

theorem map_port_eq {xs ys : List DaemonEndpointConfig} (h : List.Forall₂ SameDaemon xs ys) :
    xs.map DaemonEndpointConfig.port = ys.map DaemonEndpointConfig.port := by
  induction h with
  | nil => rfl
  | cons hdaemon _ ih => rw [List.map_cons, List.map_cons, hdaemon.port, ih]

theorem map_eq_of_rel {α β : Type} {r : α → α → Prop} {f : α → β} (h : ∀ a b, r a b → f a = f b)
    {x y : Option α} (hxy : Option.Rel r x y) : x.map f = y.map f := by
  cases hxy with
  | none => rfl
  | some hab => exact congrArg some (h _ _ hab)

/-- The sorted keys do not depend on the order of the entries. -/
theorem mergeSort_keys_eq {a b : Dictionary ℤ PoolEndpoint} (h : SamePorts a b) :
    a.keys.mergeSort = b.keys.mergeSort := by
  have hperm : (a.keys.mergeSort).Perm b.keys.mergeSort :=
    (List.mergeSort_perm _ _).trans ((h.map Prod.fst).trans (List.mergeSort_perm _ _).symm)
  apply List.Perm.eq_of_sortedLE _ _ hperm <;> exact List.sortedLE_mergeSort

/-- Equal settings that are written alike compare alike. -/
theorem compared_of_sameSettings {file applied newFile : PoolConfig} (hkeeps : Keeps file applied)
    (hsame : SameSettings file newFile) (hwritten : WrittenAlike applied newFile) :
    ComparedAlike applied newFile where
  toWrittenAlike := hwritten
  coin := hkeeps.coin.symm.trans hsame.coin
  address := hkeeps.address.symm.trans hsame.address
  blockRefreshInterval := hkeeps.blockRefreshInterval.symm.trans hsame.blockRefreshInterval
  jobRebroadcastTimeout := hkeeps.jobRebroadcastTimeout.symm.trans hsame.jobRebroadcastTimeout
  clientConnectionTimeout :=
    hkeeps.clientConnectionTimeout.symm.trans hsame.clientConnectionTimeout
  daemonPorts := by
    rw [daemonPorts, daemonPorts, ← hkeeps.daemons]
    exact map_eq_of_rel (fun _ _ h => map_port_eq h) hsame.daemons
  stratumPorts := by
    rw [stratumPorts, stratumPorts, ← hkeeps.ports]
    exact map_eq_of_rel (fun _ _ h => mergeSort_keys_eq h) hsame.ports

theorem uncompared_of_sameSettings {a b : PoolConfig} (h : SameSettings a b) :
    UncomparedAlike a b where
  enableInternalStratum := h.enableInternalStratum
  processing := map_eq_of_rel (fun _ _ hab => hab.enabled) h.paymentProcessing
  daemons := h.daemons
  ports := h.ports

/-- The comparison of an applied section with that of a file finds just the changes of the file
when it is told of them all. -/
theorem changed_iff {file applied newFile : PoolConfig} (happlied : Applied file applied) :
    (poolConfigChanged applied newFile = true ↔ ¬SameSettings file newFile) ↔
      Telling file applied newFile := by
  have hkeeps := happlied.keeps
  rw [← Bool.not_eq_false, not_iff_not, poolConfigChanged_eq_false_iff]
  constructor
  · intro h
    constructor
    · exact fun hcompared => uncompared_of_sameSettings (h.mp hcompared)
    · exact fun hsame => (h.mpr hsame).toWrittenAlike
  · rintro ⟨hhidden, hmade⟩
    constructor
    · exact fun hcompared => sameSettings_of_compared hkeeps hcompared (hhidden hcompared)
    · exact fun hsame => compared_of_sameSettings hkeeps hsame (hmade hsame)

/-- A pool that runs and is enabled is restarted just when its settings are changed, if and only if
the comparison is told of all changes, and of no others. -/
theorem restarted_iff {service : ConfigHotReloadService} {newPools : List PoolConfig} {id : String}
    {file applied newFile : PoolConfig} (hrunning : id ∈ service.pools)
    (hold : ConfigHotReloadService.sectionOf service.clusterPools id = some applied)
    (happlied : Applied file applied)
    (hnew : ConfigHotReloadService.sectionOf newPools id = some newFile)
    (henabled : newFile.enabled) :
    (id ∈ service.restarted newPools ↔ ¬SameSettings file newFile) ↔
      Telling file applied newFile := by
  have hrestarted : id ∈ service.restarted newPools ↔ poolConfigChanged applied newFile = true := by
    rw [ConfigHotReloadService.mem_restarted, ConfigHotReloadService.restarts, hold, hnew]
    have hin := ConfigHotReloadService.mem_enabledIds_of_sectionOf hnew henabled
    simp [hrunning, hin, henabled]
  rw [hrestarted]
  exact changed_iff happlied

theorem written_of_switched {a b : PoolPaymentProcessingConfig} (h : SwitchedOnly a b)
    (henabled : b.enabled = a.enabled) : PaymentsWrittenAlike b a := by
  rw [SwitchedOnly, henabled] at h
  rw [h]
  exact ⟨rfl, rfl, rfl, rfl, rfl⟩

/-- A file that is not modified is taken for a change when a default was set in the section or its
payments were switched. -/
theorem changed_unmodified_iff {file applied : PoolConfig} (happlied : Applied file applied) :
    poolConfigChanged applied file = false ↔
      applied.enableInternalStratum = file.enableInternalStratum ∧
        applied.paymentProcessing.map PoolPaymentProcessingConfig.enabled =
          file.paymentProcessing.map PoolPaymentProcessingConfig.enabled := by
  have hkeeps := happlied.keeps
  rw [poolConfigChanged_eq_false_iff]
  constructor
  · intro h
    exact ⟨h.enableInternalStratum, map_eq_of_rel (fun _ _ hab => hab.enabled) h.paymentProcessing⟩
  · rintro ⟨hstratum, hprocessing⟩
    have hpayments : Option.Rel PaymentsWrittenAlike applied.paymentProcessing
        file.paymentProcessing := by
      have hswitched := hkeeps.paymentProcessing
      generalize file.paymentProcessing = x at *
      generalize applied.paymentProcessing = y at *
      cases hswitched with
      | none => exact Option.Rel.none
      | some hab => exact Option.Rel.some (written_of_switched hab (Option.some_inj.mp hprocessing))
    refine ⟨⟨hstratum, hpayments, ?_⟩, hkeeps.coin.symm, hkeeps.address.symm,
      hkeeps.blockRefreshInterval.symm, hkeeps.jobRebroadcastTimeout.symm,
      hkeeps.clientConnectionTimeout.symm, ?_, ?_⟩
    · rw [hkeeps.extra]
    · rw [daemonPorts, daemonPorts, hkeeps.daemons]
    · rw [stratumPorts, stratumPorts, hkeeps.ports]

/-! ### One pool -/

def daemonAt (host : String) : DaemonEndpointConfig where
  host := some host
  port := 8332
  user := none
  password := none
  ssl := false
  http2 := false
  category := none
  httpPath := none
  extra := none

/-- The section of a pool with one daemon. -/
def poolAt (coin host : String) : PoolConfig where
  id := "btc"
  coin := some coin
  enabled := true
  daemons := some [daemonAt host]
  enableInternalStratum := some true

def runsPoolAt (host : String) : ConfigHotReloadService where
  live := [⟨"btc", .application⟩]
  pools := ["btc"]
  poolTasks := []
  sources := 0
  clusterPools := [poolAt "bitcoin" host]

/-- The coin of a pool is changed. -/
theorem restarted_iff_coin :
    ("btc" ∈ (runsPoolAt "10.0.0.1").restarted [poolAt "litecoin" "10.0.0.1"] ↔
        ¬SameSettings (poolAt "bitcoin" "10.0.0.1") (poolAt "litecoin" "10.0.0.1")) ↔
      Telling (poolAt "bitcoin" "10.0.0.1") (poolAt "bitcoin" "10.0.0.1")
        (poolAt "litecoin" "10.0.0.1") :=
  restarted_iff List.mem_cons_self rfl .reload rfl rfl

theorem not_sameSettings_host :
    ¬SameSettings (poolAt "bitcoin" "10.0.0.1") (poolAt "bitcoin" "10.0.0.2") := by
  intro h
  obtain hdaemons := h.daemons
  cases hdaemons with
  | some hlist =>
      obtain ⟨hdaemon, -⟩ := List.forall₂_cons.mp hlist
      exact absurd hdaemon.host (by decide)

/-- The host of a daemon is changed and its pool is not restarted. -/
theorem not_restarted_host :
    ¬∀ (service : ConfigHotReloadService) (newPools : List PoolConfig) (id : String)
      (file applied newFile : PoolConfig), id ∈ service.pools →
      ConfigHotReloadService.sectionOf service.clusterPools id = some applied →
      Applied file applied →
      ConfigHotReloadService.sectionOf newPools id = some newFile →
      newFile.enabled = true →
      (id ∈ service.restarted newPools ↔ ¬SameSettings file newFile) := by
  intro h
  have hiff := h (runsPoolAt "10.0.0.1") [poolAt "bitcoin" "10.0.0.2"] "btc" _ _ _
    List.mem_cons_self rfl .reload rfl rfl
  have hchanged : poolConfigChanged (poolAt "bitcoin" "10.0.0.1") (poolAt "bitcoin" "10.0.0.2") =
      false := bne_eq_false_iff_eq.mpr rfl
  have hold : ConfigHotReloadService.sectionOf (runsPoolAt "10.0.0.1").clusterPools "btc" =
      some (poolAt "bitcoin" "10.0.0.1") := rfl
  have hnew : ConfigHotReloadService.sectionOf [poolAt "bitcoin" "10.0.0.2"] "btc" =
      some (poolAt "bitcoin" "10.0.0.2") := rfl
  have hrestarted := (ConfigHotReloadService.mem_restarted.mp
    (hiff.mpr not_sameSettings_host)).2
  rw [ConfigHotReloadService.restarts, hold, hnew] at hrestarted
  simp [hchanged] at hrestarted

end Miningcore.Configuration
