import Miningcore.Blockchain.ExtraNonceProviderBase

/-!
# Subscriptions to a Bitcoin pool

A connection that subscribes gets the next extranonce of the provider. A client
that presents the identifier of an earlier subscription gets the extranonce of
that one instead. The pool remembers both under the identifier in the answer.

## Implementation notes

The connections are those the server has registered. A new job reads them and
changes none. An answer that cannot be queued leaves the connection as it was
subscribed before, with the new extranonce.
-/

namespace Miningcore.Bitcoin

open Blockchain

/-- The worker context of a connection, as far as subscriptions go. -/
structure Subscriber where
  extraNonce1 : Option (List Char)
  isSubscribed : Bool
deriving DecidableEq

structure SubscribeRequest where
  /-- The request has an id, and its parameters are texts if it has any. -/
  isValid : Bool
  params : Option (List (Option String))
  /-- The answer is queued. -/
  responds : Bool
deriving DecidableEq

def extranonceBytes : ℕ := 4

structure BitcoinPool where
  provider : ExtraNonceProvider extranonceBytes
  sessionCache : String → Option (List Char)
  connections : String → Option Subscriber

inductive PoolEvent where
  | connect (connectionId : String)
  | subscribe (connectionId : String) (request : SubscribeRequest)
  | disconnect (connectionId : String)
  | newJob
deriving DecidableEq

/-- The session a client resumes, its second parameter unless that is empty. -/
def SubscribeRequest.sessionId (request : SubscribeRequest) : Option String :=
  match request.params with
  | some (_ :: some sessionId :: _) => if sessionId = "" then none else some sessionId
  | _ => none

namespace BitcoinPool

def initial (instanceId : ℕ) : BitcoinPool where
  provider := .initial extranonceBytes instanceId
  sessionCache _ := none
  connections _ := none

variable (pool : BitcoinPool)

/-- The extranonce of the session a request resumes. -/
def cachedExtraNonce1 (request : SubscribeRequest) : Option (List Char) :=
  request.sessionId.bind pool.sessionCache

def setConnection (connectionId : String) (subscriber : Option Subscriber) : BitcoinPool :=
  { pool with
    connections := fun other =>
      if other = connectionId then subscriber else pool.connections other }

/-- The request of a connection that the server has registered. -/
def onSubscribe (connectionId : String) (subscriber : Subscriber) (request : SubscribeRequest) :
    BitcoinPool :=
  if request.isValid then
    let subscriptionId := request.sessionId.getD connectionId
    let (subscriberData, provider) := pool.provider.next
    let extraNonce1 := (pool.cachedExtraNonce1 request).getD subscriberData
    { provider := provider
      sessionCache := fun other =>
        if other = subscriptionId then some extraNonce1 else pool.sessionCache other
      connections := fun other =>
        if other = connectionId then
          some ⟨some extraNonce1, subscriber.isSubscribed || request.responds⟩
        else pool.connections other }
  else pool

def step : PoolEvent → BitcoinPool
  | .connect connectionId =>
      match pool.connections connectionId with
      | some _ => pool
      | none => pool.setConnection connectionId (some ⟨none, false⟩)
  | .subscribe connectionId request =>
      match pool.connections connectionId with
      | some subscriber => pool.onSubscribe connectionId subscriber request
      | none => pool
  | .disconnect connectionId => pool.setConnection connectionId none
  | .newJob => pool

def run (events : List PoolEvent) : BitcoinPool :=
  events.foldl step pool

end BitcoinPool

end Miningcore.Bitcoin
