import Txtodo.Std.OrdMap
import Mathlib.Algebra.Group.Nat.Defs
import Mathlib.Order.Fin.Basic

/-!
# Pairing nonces

`nonce_registry.rs`: a nonce is issued once and good for one attempt, whether it succeeds or fails. Times are
milliseconds, never read from a clock here.
-/

namespace Txtodo

/-- How long an offer's nonce stays valid. -/
def PAIRING_WINDOW_MS : Nat := 120000

/-- Pairings that may be open at once. -/
def MAX_CONCURRENT_PAIRINGS : Nat := 1

/-- How long a consumed nonce is remembered. -/
def CONSUMED_RETENTION_MS : Nat := PAIRING_WINDOW_MS * 8

/-- The sixteen bytes of a nonce, read as one number highest byte first. -/
abbrev Nonce := Fin (256 ^ 16)

/-- Why a nonce was refused. -/
inductive NonceError where
  | tooManyOpen
  | unknown
  | expired
  | alreadyConsumed
  deriving DecidableEq

/-- The nonces a device issued, with the time, and those used up, with the time. -/
structure NonceRegistry where
  «open» : OrdMap Nonce Nat
  consumed : OrdMap Nonce Nat

namespace NonceRegistry

def new : NonceRegistry := ⟨.empty, .empty⟩

/-- Drops open nonces whose window elapsed and consumed ones past their retention. -/
def prune (r : NonceRegistry) (nowMs : Nat) : NonceRegistry where
  «open» := r.open.filter fun _ issuedAt => nowMs - issuedAt ≤ PAIRING_WINDOW_MS
  consumed := r.consumed.filter fun _ consumedAt => nowMs - consumedAt ≤ CONSUMED_RETENTION_MS

/-- Registers a fresh nonce as open. -/
def issue (r : NonceRegistry) (nonce : Nonce) (nowMs : Nat) : Except NonceError Unit × NonceRegistry :=
  let r := r.prune nowMs
  let live := (r.open.values.filter fun issuedAt => nowMs - issuedAt ≤ PAIRING_WINDOW_MS).length
  if MAX_CONCURRENT_PAIRINGS ≤ live then (.error .tooManyOpen, r)
  else (.ok (), { r with «open» := r.open.insert nonce nowMs })

/-- Uses a nonce issued here up for one attempt. -/
def consume (r : NonceRegistry) (nonce : Nonce) (nowMs : Nat) : Except NonceError Unit × NonceRegistry :=
  if (r.consumed.find? nonce).isSome then (.error .alreadyConsumed, r)
  else
    match r.open.find? nonce with
    | none => (.error .unknown, r)
    | some issuedAt =>
      let r := { r with «open» := r.open.erase nonce, consumed := r.consumed.insert nonce nowMs }
      if PAIRING_WINDOW_MS < nowMs - issuedAt then (.error .expired, r) else (.ok (), r)

/-- The joiner's side: a nonce of a received offer is used up, the issue time as the offer has it. -/
def witness (r : NonceRegistry) (nonce : Nonce) (issuedAtMs nowMs : Nat) :
    Except NonceError Unit × NonceRegistry :=
  let r := r.prune nowMs
  if (r.consumed.find? nonce).isSome then (.error .alreadyConsumed, r)
  else
    let r := { r with consumed := r.consumed.insert nonce nowMs }
    if PAIRING_WINDOW_MS < nowMs - issuedAtMs then (.error .expired, r) else (.ok (), r)

end NonceRegistry

/-- One call to a registry. -/
inductive NonceCall where
  | issue (nonce : Nonce)
  | consume (nonce : Nonce)
  | witness (nonce : Nonce) (issuedAtMs : Nat)
  deriving DecidableEq

/-- A call, its time and whether it went well. -/
structure NonceEvent where
  call : NonceCall
  nowMs : Nat
  result : Except NonceError Unit
  deriving DecidableEq

namespace NonceRegistry

def call (r : NonceRegistry) (nowMs : Nat) : NonceCall → Except NonceError Unit × NonceRegistry
  | .issue nonce => r.issue nonce nowMs
  | .consume nonce => r.consume nonce nowMs
  | .witness nonce issuedAtMs => r.witness nonce issuedAtMs nowMs

/-- The registry after some calls, each with its time. -/
def after (r : NonceRegistry) (calls : List (NonceCall × Nat)) : NonceRegistry :=
  calls.foldl (fun r c => (r.call c.2 c.1).2) r

/-- What the calls return, one after the other. -/
def events (r : NonceRegistry) : List (NonceCall × Nat) → List NonceEvent
  | [] => []
  | c :: calls => ⟨c.1, c.2, (r.call c.2 c.1).1⟩ :: events (r.call c.2 c.1).2 calls

end NonceRegistry

end Txtodo
