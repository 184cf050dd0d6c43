import Miningcore.Blockchain.Equihash.OperationTracking

/-!
# Transfers in flight

Runs of payouts by the handlers that send first and record later. No transfer of
a run is forgotten exactly when the replies, the token and the database let each
of its calls remember what the daemon has accepted.
-/

namespace Miningcore

open Foundation PayoutHandlerBase

/-- A payout call, with everything its course depends on. -/
inductive InFlightCall
  | equihash (config : EquihashPayoutConfig) (shielding : Option Exception)
      (replies : Nat → PageReplies)
  | warthog (config : WarthogPayoutConfig) (send : String × ℚ → WarthogSend)
      (validation : Option Exception) (walletBalance : Except Exception ℚ)
      (cancelledAfter : Option Nat) (failure : Failures)
  | kaspa (walletPassword : Option String) (send : String × ℚ → KaspaSend)
      (available : Option (Fin (2 ^ 64))) (failure : Failures)
  | pearl (walletPassphrase : Option String) (send : Balance → PearlSend)
      (cancelledAfter : Option Nat) (failure : Failures)

namespace InFlightCall

/-- `PayoutAsync` of the handler. -/
def payout (pool : PoolConfig) : InFlightCall → List Balance → Database → Option PayoutOutcome
  | equihash config shielding replies => EquihashPayoutHandler.payout config pool shielding replies
  | warthog config send validation walletBalance cancelledAfter failure => fun balances db =>
      some (WarthogPayoutHandler.payout config send pool validation walletBalance cancelledAfter
        failure balances db)
  | kaspa walletPassword send available failure => fun balances db =>
      some (KaspaPayoutHandler.payout walletPassword send pool available failure balances db)
  | pearl walletPassphrase send cancelledAfter failure => fun balances db =>
      some (PearlPayoutHandler.payout send walletPassphrase pool cancelledAfter failure balances db)

/-- Whatever the daemon accepts, the handler learns its transaction id, is not interrupted before
it persists, and the database does not fail. -/
def Remembers : InFlightCall → List Balance → Prop
  | equihash config shielding replies => EquihashPayoutHandler.Remembers config shielding replies
  | warthog _ send validation walletBalance cancelledAfter failure =>
      WarthogPayoutHandler.Remembers send validation walletBalance cancelledAfter failure
  | kaspa walletPassword send available failure =>
      KaspaPayoutHandler.Remembers walletPassword send available failure
  | pearl walletPassphrase send cancelledAfter failure =>
      PearlPayoutHandler.Remembers send walletPassphrase cancelledAfter failure

variable {pool : PoolConfig} {call : InFlightCall} {balances : List Balance} {db : Database}
  {outcome : PayoutOutcome}

theorem noneForgotten_payout_iff (haddresses : (balances.map Balance.address).Nodup)
    (h : call.payout pool balances db = some outcome) :
    NoneForgotten outcome ↔ call.Remembers balances := by
  cases call with
  | equihash config shielding replies =>
      exact EquihashPayoutHandler.noneForgotten_payout_iff haddresses h
  | warthog config send validation walletBalance cancelledAfter failure =>
      cases h
      exact WarthogPayoutHandler.noneForgotten_payout_iff haddresses
  | kaspa walletPassword send available failure =>
      cases h
      exact KaspaPayoutHandler.noneForgotten_payout_iff haddresses
  | pearl walletPassphrase send cancelledAfter failure =>
      cases h
      exact PearlPayoutHandler.noneForgotten_payout_iff haddresses

theorem writesPersisted_payout (h : call.payout pool balances db = some outcome) :
    WritesPersisted pool db outcome := by
  cases call with
  | equihash config shielding replies => exact EquihashPayoutHandler.writesPersisted_payout h
  | warthog config send validation walletBalance cancelledAfter failure =>
      cases h
      exact WarthogPayoutHandler.writesPersisted_payout
  | kaspa walletPassword send available failure =>
      cases h
      exact KaspaPayoutHandler.writesPersisted_payout
  | pearl walletPassphrase send cancelledAfter failure =>
      cases h
      exact PearlPayoutHandler.writesPersisted_payout

end InFlightCall

/-- No accepted transfer of a run is forgotten if and only if each call of the run remembers what
the daemon accepts. The key of the balances table makes them unique. -/
theorem noneForgotten_iff_remembers (pool : PoolConfig) (cycles : List (PayoutCycle InFlightCall))
    (db : Database) (hunique : UniqueBalances db) :
    (∀ record ∈ payoutRun (InFlightCall.payout pool) pool cycles db,
        NoneForgotten record.outcome) ↔
      ∀ record ∈ payoutRun (InFlightCall.payout pool) pool cycles db,
        record.call.Remembers record.balances := by
  apply forall₂_congr
  intro record hmem
  obtain ⟨haddresses, hpayout⟩ := of_mem_payoutRun
    (fun _ _ _ _ h => InFlightCall.writesPersisted_payout h) hunique hmem
  exact InFlightCall.noneForgotten_payout_iff haddresses hpayout

/-! ## An operation with an unknown status -/

namespace UnknownStatus

def pool : PoolConfig := { id := "pool", address := "wallet" }

/-- An operation the daemon carries out, whose status is reported like this. -/
def replies (status : String) (h : ZOperationStatus.tryParse (some status) ≠ some .cancelled)
    (h' : ZOperationStatus.tryParse (some status) ≠ some .failed) : PageReplies where
  shieldedBalance := ⟨none, none⟩
  send _ := ⟨some "opid-1", none⟩
  walletPassphrase := ⟨none, none⟩
  polls := [{ reply := ⟨some [⟨some "opid-1", some status, some "tx", none⟩], none⟩ }]
  executed := true
  failure _ := none
  not_executed := by
    intro poll hpoll operation hoperation hstatus
    rw [List.mem_singleton] at hpoll
    subst hpoll
    have heq := List.mem_singleton.mp hoperation
    subst heq
    exact absurd hstatus (not_or.mpr ⟨h, h'⟩)

/-- The calls of all cycles get the same replies. -/
def cycle (status : String) (h : ZOperationStatus.tryParse (some status) ≠ some .cancelled)
    (h' : ZOperationStatus.tryParse (some status) ≠ some .failed) : PayoutCycle InFlightCall where
  credits := []
  call := .equihash ⟨true, none⟩ none fun _ => replies status h h'

def db : Database where
  balances := [⟨"pool", "a", 1⟩]

/-- A status the enumeration does not know. -/
def unknown : PayoutCycle InFlightCall := cycle "expired" (by decide) (by decide)

/-- The transfer of the first cycle is forgotten, and the same balance is sent again. -/
theorem sent_twice :
    UniqueBalances db ∧
    (payoutRun (InFlightCall.payout pool) pool [unknown, unknown] db).map
      (fun record => record.outcome.transfers) = [[⟨"a", 1⟩], [⟨"a", 1⟩]] ∧
    ¬∀ record ∈ payoutRun (InFlightCall.payout pool) pool [unknown, unknown] db,
      NoneForgotten record.outcome := by
  decide +kernel

def success : PayoutCycle InFlightCall := cycle "success" (by decide) (by decide)

/-- A reported success is remembered. -/
theorem remembers_success :
    UniqueBalances db ∧
    ∀ record ∈ payoutRun (InFlightCall.payout pool) pool [success] db,
      record.call.Remembers record.balances :=
  ⟨by decide, (noneForgotten_iff_remembers pool [success] db (by decide)).mp (by decide +kernel)⟩

end UnknownStatus

end Miningcore
