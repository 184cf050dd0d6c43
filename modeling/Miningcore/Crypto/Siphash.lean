/-!
# Siphash

The state and the rounds that the generators of Cuckaroo edges and of BeamHash share.
-/

namespace Miningcore.Siphash

structure SiphashState where
  v0 : UInt64
  v1 : UInt64
  v2 : UInt64
  v3 : UInt64

def rotl (x b : UInt64) : UInt64 := x <<< b ||| x >>> (64 - b)

namespace SiphashState

def xorLanes (state : SiphashState) : UInt64 :=
  (state.v0 ^^^ state.v1) ^^^ (state.v2 ^^^ state.v3)

def sipRound (state : SiphashState) : SiphashState :=
  let v0 := state.v0 + state.v1
  let v2 := state.v2 + state.v3
  let v1 := rotl state.v1 13
  let v3 := rotl state.v3 16
  let v1 := v1 ^^^ v0
  let v3 := v3 ^^^ v2
  let v0 := rotl v0 32
  let v2 := v2 + v1
  let v0 := v0 + v3
  let v1 := rotl v1 17
  let v3 := rotl v3 21
  let v1 := v1 ^^^ v2
  let v3 := v3 ^^^ v0
  let v2 := rotl v2 32
  ⟨v0, v1, v2, v3⟩

def hash24 (state : SiphashState) (nonce : UInt64) : SiphashState :=
  let state := { state with v3 := state.v3 ^^^ nonce }
  let state := sipRound (sipRound state)
  let state := { state with v0 := state.v0 ^^^ nonce, v2 := state.v2 ^^^ 0xff }
  sipRound (sipRound (sipRound (sipRound state)))

end SiphashState

end Miningcore.Siphash
