import Mathlib.Algebra.Ring.Int.Defs
import Mathlib.Data.List.Basic
import Miningcore.Foundation.PathRouting

/-!
# Sessions of the admin panel

A login leaves a cookie with the address of the client, the time and their signature. The cookie
is asked for by the pages of the panel.

## Implementation notes

Times are in ticks of a hundred nanoseconds since the Unix epoch. The signature is a parameter, and
addresses are given by their text.
-/

namespace Miningcore.Api

structure AdminPanelConfig where
  enabled : Bool
  password : Option String := none
  /-- In seconds. -/
  sessionTimeout : Int := 3600
  maxLoginAttempts : Int := 5
  /-- In seconds. -/
  loginBanDuration : Int := 300

def ticksPerSecond : Int := 10000000

/-- The password, unless it is empty. -/
def AdminPanelConfig.secret (cfg : AdminPanelConfig) : Option String :=
  cfg.password.filter (· ≠ "")

def isWhite (c : Char) : Bool := c = ' ' || (9 ≤ c.toNat && c.toNat ≤ 13)

/-- `long.TryParse`: blanks, a sign, digits, blanks and null characters. -/
def tryParseLong (text : List Char) : Option Int := do
  let text := text.dropWhile isWhite
  let negative := text.head? = some '-'
  let text := if negative || text.head? = some '+' then text.tail else text
  let digits := text.takeWhile Char.isDigit
  let rest := (text.dropWhile Char.isDigit).dropWhile isWhite
  guard (!digits.isEmpty && rest.all fun c => c.toNat = 0)
  let size : Int := digits.foldl (fun n c => 10 * n + (c.toNat - '0'.toNat)) (0 : Nat)
  let value := if negative then -size else size
  guard (-2 ^ 63 ≤ value ∧ value < 2 ^ 63)
  return value

section sessions

variable (sign : String → String → String) (cfg : AdminPanelConfig) (now : Int) (address : String)

/-- The time of a session that `DateTimeOffset.FromUnixTimeSeconds` accepts. -/
def sessionTime (seconds : Int) : Option Int :=
  if -62135596800 ≤ seconds ∧ seconds ≤ 253402300799 then some (seconds * ticksPerSecond) else none

/-- Nothing is returned when the time of the cookie is no date. -/
def isAuthenticated (cookie : Option String) : Option Bool :=
  match cfg.secret with
  | none => some true
  | some password =>
      match cookie.map fun cookie => cookie.toList.splitOn '|' with
      | some [ip, seconds, signature] =>
          if String.ofList ip ≠ address then some false
          else
            match tryParseLong seconds with
            | none => some false
            | some ts =>
                (sessionTime ts).map fun time =>
                  if now - time > cfg.sessionTimeout * ticksPerSecond then false
                  else
                    String.ofList signature ==
                      sign (String.ofList (ip ++ '|' :: seconds)) password
      | _ => some false

/-- The client has proved that it knows the password. -/
def HasSession (cookie : Option String) : Prop :=
  cfg.secret.isSome ∧ isAuthenticated sign cfg now address cookie = some true

theorem not_hasSession_of_none : ¬HasSession sign cfg now address none := by
  rintro ⟨hsecret, hauthenticated⟩
  obtain ⟨password, hpassword⟩ := Option.isSome_iff_exists.mp hsecret
  rw [isAuthenticated, hpassword] at hauthenticated
  cases hauthenticated

end sessions

end Miningcore.Api

/-!
# The gate of the admin API

The API host lets whitelisted addresses at paths that begin with `/api/admin`. The panel host
forwards requests for such paths, and the API host sees them come from the machine itself.

## Implementation notes

A handler is taken to run when its endpoint is selected. The rate limit, which only refuses
requests, is left out, and so is what a handler answers. A request that is forwarded keeps its
method and its path.
-/

namespace Miningcore.Api

open Foundation

inductive HttpMethod where
  | get
  | post
  | other (name : String)
deriving DecidableEq

inductive IPAddress where
  | v4 (address : BitVec 32)
  | v6 (address : BitVec 128) (scopeId : BitVec 32)
deriving DecidableEq

namespace IPAddress

/-- 127.0.0.1 -/
def loopback : IPAddress := .v4 0x7f000001

/-- ::1 -/
def ipv6Loopback : IPAddress := .v6 1 0

/-- ::ffff:127.0.0.1 -/
def ipv4LoopBackOnIPv6 : IPAddress := .v6 0xffff7f000001 0

def loopbacks : List IPAddress := [loopback, ipv6Loopback, ipv4LoopBackOnIPv6]

end IPAddress

/-- The path of a request, decoded. -/
structure PathString where
  value : List Char
  rooted : value.head?.all (· == '/')

structure Request where
  method : HttpMethod
  path : PathString
  remoteIpAddress : IPAddress
  cookie : Option String
  contentType : Option String

/-! ### The whitelist -/

/-- The addresses that are let through, or none when there is no whitelist. -/
def useIpWhiteList (defaultToLoopback : Bool) (whitelist : Option (List IPAddress)) :
    Option (List IPAddress) :=
  let ipList := whitelist.getD []
  let ipList := if defaultToLoopback && ipList.isEmpty then IPAddress.loopbacks else ipList
  if ipList.isEmpty then none
  else some (IPAddress.loopbacks.foldl (fun ips ip => if ip ∈ ips then ips else ips ++ [ip]) ipList)

/-- The request goes on to what follows. -/
def ipAccessWhitelistMiddleware (locations : List String) (whitelist : Option (List IPAddress))
    (request : Request) : Bool :=
  match whitelist with
  | none => true
  | some ips =>
      !(locations.any fun x => x.toList.isPrefixOf request.path.value) ||
        ips.contains request.remoteIpAddress

/-! ### The API host -/

inductive AdminEndpoint where
  | loggingLevel
  | enableProcessing
  | disableProcessing
  | enablePoolProcessing
  | disablePoolProcessing
  | gcStats
  | forceGc
  | balance
  | settings
  | updateSettings
deriving DecidableEq

/-- The routes of the admin group, without the prefix of the group. -/
def mapAdminApi : List (HttpMethod × List RouteSegment × AdminEndpoint) :=
  [(.get, [.literal "logging", .literal "level", .parameter], .loggingLevel),
    (.get, [.literal "payment", .literal "processing", .literal "enable"], .enableProcessing),
    (.get, [.literal "payment", .literal "processing", .literal "disable"], .disableProcessing),
    (.get, [.literal "payment", .literal "processing", .parameter, .literal "enable"],
      .enablePoolProcessing),
    (.get, [.literal "payment", .literal "processing", .parameter, .literal "disable"],
      .disablePoolProcessing),
    (.get, [.literal "stats", .literal "gc"], .gcStats),
    (.post, [.literal "forcegc"], .forceGc),
    (.get, [.literal "pools", .parameter, .literal "miners", .parameter, .literal "getbalance"],
      .balance),
    (.get, [.literal "pools", .parameter, .literal "miners", .parameter, .literal "settings"],
      .settings),
    (.post, [.literal "pools", .parameter, .literal "miners", .parameter, .literal "settings"],
      .updateSettings)]

/-- The admin endpoint of a request. -/
def adminEndpoint (method : HttpMethod) (path : PathString) : Option AdminEndpoint :=
  (mapAdminApi.find? fun route => route.1 = method &&
    routeMatches (.literal "api" :: .literal "admin" :: route.2.1) (pathSegments path.value)).map
      fun route => route.2.2

structure ApiConfig where
  enabled : Bool := true
  tls : Bool := false
  adminIpWhitelist : Option (List IPAddress) := none
  metricsIpWhitelist : Option (List IPAddress) := none

def ApiConfig.adminWhitelist (api : ApiConfig) : Option (List IPAddress) :=
  useIpWhiteList true api.adminIpWhitelist

def ApiConfig.metricsWhitelist (api : ApiConfig) : Option (List IPAddress) :=
  useIpWhiteList true api.metricsIpWhitelist

/-- The paths that are answered before routing, by the notifications and the metrics. -/
def branches : List String := ["/notifications", "/metrics"]

/-- The admin handler that the API host runs for a request. -/
def ApiConfig.handler (api : ApiConfig) (request : Request) : Option AdminEndpoint :=
  if api.enabled &&
      ipAccessWhitelistMiddleware ["/api/admin"] api.adminWhitelist request &&
      ipAccessWhitelistMiddleware ["/metrics"] api.metricsWhitelist request &&
      !(branches.any fun pre => startsWithSegments pre.toList request.path.value) then
    adminEndpoint request.method request.path
  else none

/-! ### The panel host -/

/-- A token of a header: no separators, no blanks and no control characters. -/
def isToken (text : List Char) : Bool :=
  !text.isEmpty && text.all fun c =>
    33 ≤ c.toNat && c.toNat ≤ 126 && !("()<>@,;:\\\"/[]?=\x7b\x7d".toList.contains c)

/-- What `new MediaTypeHeaderValue` accepts: a type without parameters. -/
def isMediaType (text : String) : Bool :=
  match text.toList.splitOn '/' with
  | [type, subtype] => isToken type && isToken subtype
  | _ => false

/-- The routes of the panel that are answered by the API host. -/
def proxied : List (HttpMethod × List RouteSegment) :=
  [(.get, [.literal "api", .literal "pools"]),
    (.get, [.literal "api", .literal "pools", .catchAll]),
    (.get, [.literal "api", .literal "blocks"]),
    (.get, [.literal "api", .literal "admin", .catchAll]),
    (.post, [.literal "api", .literal "admin", .catchAll])]

structure Hosts where
  api : ApiConfig
  panel : AdminPanelConfig
  /-- The address that a request to `localhost` comes from at the API host, if it gets there. -/
  localAddress : Option IPAddress
  isLoopback : ∀ ip ∈ localAddress, ip ∈ IPAddress.loopbacks

/-- The body of the request can be forwarded. -/
def canForward (request : Request) : Bool :=
  request.method = .get || request.contentType.all isMediaType

/-- The admin handler that the API host runs for a forwarded request. -/
def Hosts.proxyToApi (hosts : Hosts) (request : Request) : Option AdminEndpoint :=
  if canForward request && !hosts.api.tls then
    hosts.localAddress.bind fun ip =>
      hosts.api.handler { request with
        remoteIpAddress := ip
        cookie := none
        contentType := some (request.contentType.getD "application/json") }
  else none

section panel

variable (sign : String → String → String) (addressText : IPAddress → String) (hosts : Hosts)
  (now : Int) (request : Request)

/-- The request is sent to the login page. -/
def redirected : Bool :=
  startsWithSegments "/admin".toList request.path.value &&
    !startsWithSegments "/admin/login".toList request.path.value &&
    isAuthenticated sign hosts.panel now (addressText request.remoteIpAddress) request.cookie !=
      some true

/-- The admin handler that is run for a request to the panel. -/
def Hosts.panelHandler : Option AdminEndpoint :=
  if hosts.panel.enabled && !redirected sign addressText hosts now request &&
      proxied.any fun route => route.1 = request.method &&
        routeMatches route.2 (pathSegments request.path.value) then
    hosts.proxyToApi request
  else none

/-- No admin handler runs, neither on the API host nor through the panel. -/
def Gated : Prop :=
  hosts.api.handler request = none ∧ hosts.panelHandler sign addressText now request = none

end panel

/-- The address is in the whitelist of the admin API. -/
def ApiConfig.Whitelisted (api : ApiConfig) (ip : IPAddress) : Prop :=
  ∃ ips, api.adminWhitelist = some ips ∧ ip ∈ ips

/-- Requests that the panel forwards arrive. -/
def Hosts.reaches (hosts : Hosts) (request : Request) : Bool :=
  canForward request && !hosts.api.tls && hosts.localAddress.isSome

/-! ### The whitelist lets the machine itself through -/

theorem mem_foldl_add (ips added : List IPAddress) (ip : IPAddress) :
    ip ∈ added.foldl (fun ips ip => if ip ∈ ips then ips else ips ++ [ip]) ips ↔
      ip ∈ ips ∨ ip ∈ added := by
  induction added generalizing ips with
  | nil => simp
  | cons other added ih =>
      rw [List.foldl_cons, ih, List.mem_cons]
      split
      · rename_i hmem
        constructor
        · rintro (h | h)
          · exact Or.inl h
          · exact Or.inr (Or.inr h)
        · rintro (h | rfl | h)
          · exact Or.inl h
          · exact Or.inl hmem
          · exact Or.inr h
      · rw [List.mem_append, List.mem_singleton, or_assoc]

/-- The whitelist of the admin API is never empty, and the machine itself is in it. -/
theorem exists_useIpWhiteList (whitelist : Option (List IPAddress)) :
    ∃ ips, useIpWhiteList true whitelist = some ips ∧ ∀ ip ∈ IPAddress.loopbacks, ip ∈ ips := by
  rw [useIpWhiteList, if_neg]
  · refine ⟨_, rfl, ?_⟩
    intro ip hip
    exact (mem_foldl_add _ _ _).mpr (Or.inr hip)
  · cases hempty : (whitelist.getD []).isEmpty with
    | true => exact Bool.false_ne_true
    | false => simp [hempty]

theorem passes_of_mem {locations : List String} {ips : List IPAddress} {request : Request}
    (h : request.remoteIpAddress ∈ ips) :
    ipAccessWhitelistMiddleware locations (some ips) request :=
  Bool.or_eq_true_iff.mpr (Or.inr (List.contains_iff_mem.mpr h))

theorem passes_of_notMem {location : String} {ips : List IPAddress} {request : Request}
    (h : request.remoteIpAddress ∉ ips) :
    ipAccessWhitelistMiddleware [location] (some ips) request =
      !location.toList.isPrefixOf request.path.value := by
  have hout : ips.contains request.remoteIpAddress = false := by
    rw [Bool.eq_false_iff]
    exact fun hmem => h (List.contains_iff_mem.mp hmem)
  rw [ipAccessWhitelistMiddleware.eq_def]
  simp only [hout, List.any_cons, List.any_nil, Bool.or_false]

theorem passes_of_not_isPrefixOf {location : String} {request : Request}
    (h : location.toList.isPrefixOf request.path.value = false)
    (whitelist : Option (List IPAddress)) :
    ipAccessWhitelistMiddleware [location] whitelist request := by
  cases whitelist with
  | none => rfl
  | some ips =>
      rw [ipAccessWhitelistMiddleware.eq_def]
      simp only [h, List.any_cons, List.any_nil, Bool.or_false, Bool.not_false, Bool.true_or]

/-! ### Paths of the admin API -/

theorem method_of_mem_mapAdminApi :
    ∀ route ∈ mapAdminApi, route.1 = .get ∨ route.1 = .post := by
  simp [mapAdminApi]

/-- A path that two literals and more match has two segments that are spelled like them. -/
theorem exists_of_routeMatches {first second : String} {pattern : List RouteSegment}
    {segments : List (List Char)}
    (h : routeMatches (.literal first :: .literal second :: pattern) segments) :
    ∃ a b more, segments = a :: b :: more ∧ sameLetters a first.toList ∧
      sameLetters b second.toList := by
  cases segments with
  | nil => cases h
  | cons a segments =>
      obtain ⟨ha, h⟩ := Bool.and_eq_true_iff.mp h
      cases segments with
      | nil => cases h
      | cons b more =>
          obtain ⟨hb, -⟩ := Bool.and_eq_true_iff.mp h
          exact ⟨a, b, more, rfl, ha, hb⟩

theorem exists_value_eq {path : PathString} {segment : List Char} {more : List (List Char)}
    (h : pathSegments path.value = segment :: more) : ∃ tail, path.value = '/' :: tail := by
  obtain ⟨value, rooted⟩ := path
  cases value with
  | nil => cases h
  | cons c tail =>
      obtain rfl : c = '/' := by simpa using rooted
      exact ⟨tail, rfl⟩

/-- A path of an admin endpoint begins with the segments of its group. -/
theorem exists_of_adminEndpoint {method : HttpMethod} {path : PathString}
    (h : (adminEndpoint method path).isSome) :
    (method = .get ∨ method = .post) ∧ ∃ tail api admin more, path.value = '/' :: tail ∧
      pathSegments ('/' :: tail) = api :: admin :: more ∧
      sameLetters api "api".toList ∧ sameLetters admin "admin".toList := by
  rw [adminEndpoint, Option.isSome_map, List.find?_isSome] at h
  obtain ⟨route, hmem, hroute⟩ := h
  obtain ⟨hmethod, hmatches⟩ := Bool.and_eq_true_iff.mp hroute
  obtain ⟨api, admin, more, hsegments, hapi, hadmin⟩ := exists_of_routeMatches hmatches
  obtain ⟨tail, htail⟩ := exists_value_eq hsegments
  rw [htail] at hsegments
  refine ⟨?_, tail, api, admin, more, htail, hsegments, hapi, hadmin⟩
  rw [← of_decide_eq_true hmethod]
  exact method_of_mem_mapAdminApi route hmem

section admin

variable {sign : String → String → String} {addressText : IPAddress → String} {hosts : Hosts}
  {now : Int} {request : Request} (hadmin : (adminEndpoint request.method request.path).isSome)

include hadmin

/-- No other prefix of one segment takes the request away. -/
theorem not_startsWithSegments {s : List Char} (hs : '/' ∉ s) (hapi : ¬sameLetters "api".toList s) :
    startsWithSegments ('/' :: s) request.path.value = false := by
  obtain ⟨-, tail, api, admin, more, htail, hsegments, hletters, -⟩ :=
    exists_of_adminEndpoint hadmin
  rw [htail, Bool.eq_false_iff]
  intro hstarts
  have hsame := sameLetters_of_startsWithSegments hsegments hs hstarts
  apply hapi
  rw [sameLetters_iff] at hletters hsame ⊢
  rw [← hletters, hsame]

theorem not_redirected : redirected sign addressText hosts now request = false := by
  have hpages : startsWithSegments "/admin".toList request.path.value = false :=
    not_startsWithSegments hadmin (s := "admin".toList) (by decide) (by decide)
  rw [redirected, hpages]
  rfl

theorem proxied_admin : proxied.any fun route => route.1 = request.method &&
    routeMatches route.2 (pathSegments request.path.value) := by
  obtain ⟨hmethod, tail, api, admin, more, htail, hsegments, hapi, hadmin⟩ :=
    exists_of_adminEndpoint hadmin
  rw [htail, hsegments]
  have hmatches : routeMatches [.literal "api", .literal "admin", .catchAll]
      (api :: admin :: more) := by
    rw [routeMatches, routeMatches, hapi, hadmin]
    rfl
  have hmem : (request.method, [.literal "api", .literal "admin", .catchAll]) ∈ proxied := by
    obtain hget | hpost := hmethod
    · simp [proxied, hget]
    · simp [proxied, hpost]
  rw [List.any_eq_true]
  refine ⟨_, hmem, ?_⟩
  rw [hmatches, decide_eq_true rfl]
  rfl

theorem not_isPrefixOf_metrics : "/metrics".toList.isPrefixOf request.path.value = false := by
  obtain ⟨-, tail, api, admin, more, htail, hsegments, hapi, -⟩ := exists_of_adminEndpoint hadmin
  rw [htail, Bool.eq_false_iff]
  intro hprefix
  obtain ⟨rest, hrest⟩ := List.isPrefixOf_iff_prefix.mp hprefix
  obtain ⟨later, htail', -⟩ := exists_of_pathSegments hsegments
  have heq : "metrics".toList ++ rest = api ++ later := (List.cons.inj hrest).2.trans htail'
  cases api with
  | nil => cases hapi
  | cons c api =>
      obtain rfl : 'm' = c := (List.cons.inj heq).1
      have hletter := (sameLetters_cons.mp hapi).1
      revert hletter
      decide

/-- The API host runs the handler when the whitelist lets the request through. -/
theorem handler_eq (henabled : hosts.api.enabled) :
    hosts.api.handler request =
      if ipAccessWhitelistMiddleware ["/api/admin"] hosts.api.adminWhitelist request then
        adminEndpoint request.method request.path
      else none := by
  have hbranches : (branches.any fun pre => startsWithSegments pre.toList request.path.value) =
      false := by
    rw [List.any_eq_false]
    intro pre hpre
    simp only [branches, List.mem_cons, List.not_mem_nil, or_false] at hpre
    rw [Bool.not_eq_true]
    obtain rfl | rfl := hpre
    · exact not_startsWithSegments hadmin (s := "notifications".toList) (by decide) (by decide)
    · exact not_startsWithSegments hadmin (s := "metrics".toList) (by decide) (by decide)
  have hmetrics := passes_of_not_isPrefixOf (not_isPrefixOf_metrics hadmin)
    hosts.api.metricsWhitelist
  rw [ApiConfig.handler, henabled, hmetrics, hbranches, Bool.true_and, Bool.and_true,
    Bool.not_false, Bool.and_true]

/-- The location is a prefix of the path when the segments of the group are spelled like it. -/
theorem isPrefixOf_location_iff :
    "/api/admin".toList.isPrefixOf request.path.value ↔
      (pathSegments request.path.value).take 2 = ["api".toList, "admin".toList] := by
  obtain ⟨-, tail, api, admin, more, htail, hsegments, hapi, hgroup⟩ :=
    exists_of_adminEndpoint hadmin
  have hprefix := isPrefixOf_iff hsegments (length_eq_of_sameLetters hapi)
    (length_eq_of_sameLetters hgroup)
  rw [htail, hsegments]
  refine Iff.trans hprefix ?_
  simp

/-- A request from an address that is not in the whitelist runs the handler when the group is
spelled otherwise. -/
theorem handler_eq_none_iff (henabled : hosts.api.enabled)
    (hlist : ¬hosts.api.Whitelisted request.remoteIpAddress) :
    hosts.api.handler request = none ↔
      (pathSegments request.path.value).take 2 = ["api".toList, "admin".toList] := by
  obtain ⟨ips, hips, -⟩ := exists_useIpWhiteList hosts.api.adminIpWhitelist
  have hout : request.remoteIpAddress ∉ ips := fun hmem => hlist ⟨ips, hips, hmem⟩
  obtain ⟨endpoint, hendpoint⟩ := Option.isSome_iff_exists.mp hadmin
  rw [handler_eq hadmin henabled, ApiConfig.adminWhitelist, hips, passes_of_notMem hout,
    ← isPrefixOf_location_iff hadmin, hendpoint]
  cases hprefix : "/api/admin".toList.isPrefixOf request.path.value <;> simp

/-- A request that the panel forwards is one from the machine itself. -/
theorem proxyToApi_eq (henabled : hosts.api.enabled) :
    hosts.proxyToApi request =
      if hosts.reaches request then adminEndpoint request.method request.path else none := by
  rw [Hosts.proxyToApi, Hosts.reaches]
  cases hlocal : hosts.localAddress with
  | none => simp
  | some ip =>
      obtain ⟨ips, hips, hloopbacks⟩ := exists_useIpWhiteList hosts.api.adminIpWhitelist
      have hmem : ip ∈ ips := hloopbacks ip (hosts.isLoopback ip hlocal)
      rw [Option.bind_some, handler_eq (by exact hadmin) henabled, ApiConfig.adminWhitelist, hips,
        if_pos (passes_of_mem hmem), Option.isSome_some, Bool.and_true]

theorem panelHandler_eq_none_iff (henabled : hosts.api.enabled) :
    hosts.panelHandler sign addressText now request = none ↔
      ¬(hosts.panel.enabled ∧ hosts.reaches request) := by
  obtain ⟨endpoint, hendpoint⟩ := Option.isSome_iff_exists.mp hadmin
  rw [Hosts.panelHandler, not_redirected hadmin, proxied_admin hadmin,
    proxyToApi_eq hadmin henabled, hendpoint]
  cases hosts.panel.enabled <;> cases hosts.reaches request <;> simp

end admin

theorem handler_of_disabled {api : ApiConfig} (h : api.enabled = false) (request : Request) :
    api.handler request = none := by
  rw [ApiConfig.handler, h]
  rfl

theorem panelHandler_of_disabled {hosts : Hosts} (h : hosts.api.enabled = false)
    (sign : String → String → String) (addressText : IPAddress → String) (now : Int)
    (request : Request) : hosts.panelHandler sign addressText now request = none := by
  have hproxy : hosts.proxyToApi request = none := by
    rw [Hosts.proxyToApi]
    cases hosts.localAddress <;> simp [handler_of_disabled h]
  rw [Hosts.panelHandler, hproxy, ite_self]

/-- A client that is neither in the whitelist nor logged in runs no admin handler exactly when the
API host is off, or the group is spelled in lower case and the panel does not forward. -/
theorem gated_iff (sign : String → String → String) (addressText : IPAddress → String)
    (hosts : Hosts) (now : Int) (request : Request)
    (hadmin : (adminEndpoint request.method request.path).isSome)
    (hlist : ¬hosts.api.Whitelisted request.remoteIpAddress)
    (_hsession : ¬HasSession sign hosts.panel now (addressText request.remoteIpAddress)
      request.cookie) :
    Gated sign addressText hosts now request ↔
      hosts.api.enabled = false ∨
        ((pathSegments request.path.value).take 2 = ["api".toList, "admin".toList] ∧
          ¬(hosts.panel.enabled ∧ hosts.reaches request)) := by
  cases henabled : hosts.api.enabled with
  | false =>
      exact iff_of_true ⟨handler_of_disabled henabled request,
        panelHandler_of_disabled henabled sign addressText now request⟩ (Or.inl rfl)
  | true =>
      rw [Gated, handler_eq_none_iff hadmin henabled hlist,
        panelHandler_eq_none_iff hadmin henabled]
      simp

/-- The hosts with their defaults and a password for the panel. -/
def passwordHosts : Hosts where
  api := {}
  panel := { enabled := true, password := some "secret" }
  localAddress := some .loopback
  isLoopback := by
    intro ip hip
    obtain rfl := Option.mem_some_iff.mp hip
    exact List.mem_cons_self

/-- 203.0.113.5 -/
def foreignAddress : IPAddress := .v4 0xcb007105

/-- A request without a cookie. -/
def foreignRequest (method : HttpMethod) (path : PathString) : Request where
  method := method
  path := path
  remoteIpAddress := foreignAddress
  cookie := none
  contentType := none

theorem not_whitelisted_foreign : ¬passwordHosts.api.Whitelisted foreignAddress := by
  rintro ⟨ips, hips, hmem⟩
  obtain rfl : IPAddress.loopbacks = ips := Option.some_inj.mp hips
  revert hmem
  decide

def gcPath : PathString := ⟨"/api/admin/stats/gc".toList, rfl⟩

/-- Without the panel the request is refused. -/
theorem gated_gc :
    Gated (fun _ _ => "") (fun _ => "") { passwordHosts with panel := { enabled := false } } 0
      (foreignRequest .get gcPath) := by
  refine (gated_iff _ _ { passwordHosts with panel := { enabled := false } } 0
    (foreignRequest .get gcPath) (by decide) not_whitelisted_foreign
    (not_hasSession_of_none _ _ _ _)).mpr (Or.inr ⟨by decide, ?_⟩)
  rintro ⟨henabled, -⟩
  cases henabled

/-- The same path in another spelling. -/
def capitalPath : PathString := ⟨"/API/admin/stats/gc".toList, rfl⟩

theorem not_gated_capital :
    ¬∀ (sign : String → String → String) (addressText : IPAddress → String) (hosts : Hosts)
      (now : Int) (request : Request), (adminEndpoint request.method request.path).isSome →
        ¬hosts.api.Whitelisted request.remoteIpAddress →
        ¬HasSession sign hosts.panel now (addressText request.remoteIpAddress) request.cookie →
        Gated sign addressText hosts now request := by
  intro h
  have hgated := h (fun _ _ => "") (fun _ => "") passwordHosts 0 (foreignRequest .get capitalPath)
    (by decide) not_whitelisted_foreign (not_hasSession_of_none _ _ _ _)
  have hhandler : passwordHosts.api.handler (foreignRequest .get capitalPath) = some .gcStats := by
    decide
  rw [hgated.1] at hhandler
  cases hhandler

/-- The panel forwards the request of a client that has not logged in. -/
example : passwordHosts.panelHandler (fun _ _ => "") (fun _ => "") 0 (foreignRequest .get gcPath) =
    some .gcStats := by decide

end Miningcore.Api
