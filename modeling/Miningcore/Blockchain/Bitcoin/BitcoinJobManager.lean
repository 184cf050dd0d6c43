import Miningcore.Blockchain.Bitcoin.CoinbaseOutputs
import Miningcore.Stratum.Submission

/-!
# The job manager of a Bitcoin pool

The manager makes jobs of block templates and sends the blocks of its miners to
the daemon. A table fetched from elsewhere may hold an address for the coin.
Then the blocks alternate: one pays that address and one pays the pool.

## Implementation notes

An update of the job waits for the daemon, and so does a block, so both are in
flight between two events and other events may come in between. What a file or
a request does is part of the event. The times count ticks.
-/

namespace Miningcore.Bitcoin

open Foundation

structure RpcError where
  code : Int
  message : Option String := none
deriving DecidableEq

structure RpcReply (α : Type) where
  error : Option RpcError := none
  response : Option α := none
deriving DecidableEq

namespace DaemonResponses

structure Block where
  hash : Option String
  transactions : Option (List String)
deriving DecidableEq

end DaemonResponses

structure SubmitResult where
  accepted : Bool
  coinbaseTx : Option String := none
deriving DecidableEq

/-- What `SubmitBlockAsync` makes of the replies to the submission and to the question for the
block; `none` is an exception. -/
def submitBlock (share : MinedShare) (submitReply : RpcReply String)
    (acceptReply : RpcReply DaemonResponses.Block) : Option SubmitResult :=
  let submitError :=
    match submitReply.error with
    | some error => some (error.message.getD (toString error.code))
    | none => submitReply.response
  if submitError.getD "" ≠ "" then some { accepted := false }
  else
    let accepted := acceptReply.error.isNone &&
      (acceptReply.response.bind DaemonResponses.Block.hash == share.blockHash)
    match acceptReply.response with
    | none => some { accepted }
    | some block =>
        block.transactions.map fun transactions => { accepted, coinbaseTx := transactions.head? }

/-- A dictionary whose keys are compared without their case; a later entry replaces an earlier. -/
abbrev RemoteAddresses := List (String × String)

def RemoteAddresses.tryGetValue (addresses : RemoteAddresses) (symbol : String) : Option String :=
  (addresses.reverse.find? fun entry =>
    ignoringCase entry.1.toList == ignoringCase symbol.toList).map Prod.snd

/-- What the request for the table gives: an exception, or a table unless the answer is empty. -/
inductive Fetch where
  | failed
  | answered (addresses : Option RemoteAddresses)
deriving DecidableEq

/-- The file with the state of the pool. -/
inductive StateFile where
  | absent
  | unreadable
  | holds (nextBlockIsExternal : Bool)
deriving DecidableEq

structure JobManagerConfig (Money : Type) where
  money : MoneyLibrary Money
  coin : BitcoinTemplate
  symbol : String
  poolAddressDestination : Script
  addressToDestination : String → Option Script
  /-- `AddressToDestination` and `BCashAddressToDestination` on the main network. -/
  mainAddressToDestination : String → Option Script
  bcashAddressToDestination : String → Option Script
  /-- Whether the rest of `Init` can read the template. -/
  canInit : BlockTemplate → Bool

structure Job (Money : Type) where
  blockTemplate : BlockTemplate
  isStealth : Bool := false
  outputs : List (TxOut Money)
deriving DecidableEq

/-- The share `SubmitShareAsync` returns, its job and whether the daemon took its block. -/
structure ReturnedShare (Money : Type) where
  job : Job Money
  accepted : Bool
  share : MinedShare
deriving DecidableEq

structure JobManager (Money : Type) where
  remoteAddresses : RemoteAddresses := []
  lastAddressFetch : Nat := 0
  externalAddressDestination : Option Script := none
  nextBlockIsExternal : Bool := false
  isZigZaggable : Bool := false
  stateFile : StateFile := .absent
  currentJob : Option (Job Money) := none
  /-- All jobs that ever were the current one. -/
  jobs : List (Job Money) := []
  /-- The updates that wait for a block template, with their force. -/
  updates : List Bool := []
  /-- The block candidates that wait for the daemon. -/
  candidates : List (Job Money × MinedShare) := []
  returned : List (ReturnedShare Money) := []
deriving DecidableEq

inductive Event where
  /-- Another pool of the process loads the table, which they share. -/
  | loadElsewhere (now : Nat) (fetch : Fetch)
  | configure (now : Nat) (fetch : Fetch) (saves : Bool)
  | beginUpdate (forceUpdate : Bool) (now : Nat) (fetch : Fetch) (saves : Bool)
  /-- The daemon answers an update; `none` is an exception. -/
  | finishUpdate (update : Nat) (reply : Option (RpcReply BlockTemplate))
  /-- A share of a job, as `ProcessShare` returns it. -/
  | submitShare (job : Nat) (share : MinedShare)
  /-- The daemon answers a block; `none` is an exception. -/
  | finishSubmit (candidate : Nat)
      (replies : Option (RpcReply String × RpcReply DaemonResponses.Block)) (saves : Bool)

def oneHour : Nat := 36000000000

variable {Money : Type}

namespace JobManager

/-- Writes the state into its file, unless the file cannot be written. -/
def saveZigZagState (saves : Bool) (manager : JobManager Money) : JobManager Money :=
  if saves then { manager with stateFile := .holds manager.nextBlockIsExternal } else manager

/-- `nextBlockIsExternal` set and saved. -/
def setExternal (isExternal saves : Bool) (manager : JobManager Money) : JobManager Money :=
  { manager with nextBlockIsExternal := isExternal }.saveZigZagState saves

def loadZigZagState (saves : Bool) (manager : JobManager Money) : JobManager Money :=
  match manager.stateFile with
  | .holds isExternal => { manager with nextBlockIsExternal := isExternal }
  | .unreadable => manager
  | .absent => manager.setExternal true saves

def loadRemoteAddresses (now : Nat) (fetch : Fetch) (manager : JobManager Money) :
    JobManager Money :=
  if now < manager.lastAddressFetch + oneHour then manager
  else
    match fetch with
    | .failed => manager
    | .answered none => { manager with lastAddressFetch := now }
    | .answered (some addresses) =>
        { manager with remoteAddresses := addresses, lastAddressFetch := now }

end JobManager

namespace JobManagerConfig

variable (config : JobManagerConfig Money)

/-- The destination a table has for the coin. -/
def remoteDestination (addresses : RemoteAddresses) : Option Script :=
  let symbol := config.symbol.toUpper
  (addresses.tryGetValue symbol).bind fun address =>
    if symbol = "BCH" then config.bcashAddressToDestination address
    else config.mainAddressToDestination address

def checkZipZagStatus (saves : Bool) (manager : JobManager Money) : JobManager Money :=
  match config.remoteDestination manager.remoteAddresses with
  | none => manager
  | some destination =>
      let manager := { manager with externalAddressDestination := some destination }
      if manager.isZigZaggable then manager
      else { manager.loadZigZagState saves with isZigZaggable := true }

/-- The address a new job pays: the pool's, unless the mode is the external one. -/
def selectedAddress (manager : JobManager Money) : Option Script :=
  if manager.isZigZaggable && manager.nextBlockIsExternal then manager.externalAddressDestination
  else some config.poolAddressDestination

/-- The job of a template; `none` is an exception of `Init`. -/
def createJob (manager : JobManager Money) (blockTemplate : BlockTemplate) :
    Option (Job Money) :=
  if config.canInit blockTemplate then
    (config.selectedAddress manager).bind fun destination =>
      (CoinbaseJob.init config.coin config.addressToDestination blockTemplate destination).bind
        fun job => (job.createOutputTransaction config.money).map fun outputs =>
          { blockTemplate
            isStealth := manager.isZigZaggable && manager.nextBlockIsExternal
            outputs }
  else none

/-- Whether a template is for another block than the current job is. -/
def isNew (currentJob : Option (Job Money)) (blockTemplate : Option BlockTemplate) : Bool :=
  match currentJob, blockTemplate with
  | none, _ => true
  | some _, none => false
  | some job, some blockTemplate =>
      job.blockTemplate.previousBlockhash ≠ blockTemplate.previousBlockhash ||
        job.blockTemplate.height < blockTemplate.height

/-- What an update does with the answer of the daemon. -/
def updateJob (forceUpdate : Bool) (reply : RpcReply BlockTemplate) (manager : JobManager Money) :
    JobManager Money :=
  if reply.error.isSome then manager
  else if isNew manager.currentJob reply.response || forceUpdate then
    match reply.response.bind (config.createJob manager) with
    | none => manager
    | some job => { manager with currentJob := some job, jobs := manager.jobs ++ [job] }
  else manager

/-- What is done with the answer to a block, and the share that is returned. -/
def acceptShare (job : Job Money) (share : MinedShare) (response : SubmitResult) (saves : Bool)
    (manager : JobManager Money) : JobManager Money × MinedShare :=
  if response.accepted then
    if job.isStealth then
      (manager.setExternal false saves, { share with isBlockCandidate := false })
    else
      let share : MinedShare :=
        { share with
          isBlockCandidate := true
          transactionConfirmationData := response.coinbaseTx }
      (if manager.isZigZaggable then manager.setExternal true saves else manager, share)
  else
    (manager, { share with isBlockCandidate := false, transactionConfirmationData := none })

/-- The answer to a candidate that waits. -/
def finishSubmit (job : Job Money) (share : MinedShare)
    (replies : RpcReply String × RpcReply DaemonResponses.Block) (saves : Bool)
    (manager : JobManager Money) : JobManager Money :=
  match submitBlock share replies.1 replies.2 with
  | none => manager
  | some response =>
      let (manager, share) := acceptShare job share response saves manager
      { manager with returned := manager.returned ++ [⟨job, response.accepted, share⟩] }

def step (manager : JobManager Money) : Event → JobManager Money
  | .loadElsewhere now fetch => manager.loadRemoteAddresses now fetch
  | .configure now fetch saves =>
      config.checkZipZagStatus saves (manager.loadRemoteAddresses now fetch)
  | .beginUpdate forceUpdate now fetch saves =>
      let manager := config.checkZipZagStatus saves (manager.loadRemoteAddresses now fetch)
      { manager with updates := manager.updates ++ [forceUpdate] }
  | .finishUpdate update reply =>
      match manager.updates[update]? with
      | none => manager
      | some forceUpdate =>
          let manager := { manager with updates := manager.updates.eraseIdx update }
          match reply with
          | none => manager
          | some reply => config.updateJob forceUpdate reply manager
  | .submitShare job share =>
      match manager.jobs[job]? with
      | none => manager
      | some job =>
          if share.isBlockCandidate then
            { manager with candidates := manager.candidates ++ [(job, share)] }
          else { manager with returned := manager.returned ++ [⟨job, false, share⟩] }
  | .finishSubmit candidate replies saves =>
      match manager.candidates[candidate]? with
      | none => manager
      | some (job, share) =>
          let manager := { manager with candidates := manager.candidates.eraseIdx candidate }
          match replies with
          | none => manager
          | some replies => finishSubmit job share replies saves manager

def run (manager : JobManager Money) (events : List Event) : JobManager Money :=
  events.foldl config.step manager

end JobManagerConfig

end Miningcore.Bitcoin
