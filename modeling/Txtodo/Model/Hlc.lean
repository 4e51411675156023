import Txtodo.Core.Ulid
import Mathlib.Data.Prod.Lex
import Mathlib.Order.BoundedOrder.Basic

/-!
# Identifiers and hybrid logical clock stamps

`ids.rs` and `hlc.rs`: an op is stamped with the wall clock, a counter and the device, compared in
that order.
-/

namespace Txtodo

/-- The device that produced an op. -/
structure DeviceId where
  ulid : Nat
  deriving DecidableEq

/-- A task's identity: the ULID in its `id:` tag. -/
structure TaskId where
  ulid : Ulid
  deriving DecidableEq

/-- One op's identity. -/
structure OpId where
  ulid : Nat
  deriving DecidableEq

/-- A synced document's path relative to the workspace root. -/
structure FilePath where
  asStr : Text
  deriving DecidableEq

/-- One stamp; the order is the order of the fields. -/
structure Hlc where
  wallMs : Nat
  counter : Nat
  device : DeviceId
  deriving DecidableEq

namespace Hlc

def key (h : Hlc) : ℕ ×ₗ ℕ ×ₗ ℕ := toLex (h.wallMs, toLex (h.counter, h.device.ulid))

theorem key_injective : Function.Injective key := by
  rintro ⟨w, c, ⟨d⟩⟩ ⟨w', c', ⟨d'⟩⟩ h
  simp only [key, EmbeddingLike.apply_eq_iff_eq, Prod.mk.injEq] at h
  obtain ⟨rfl, rfl, rfl⟩ := h
  rfl

instance : LinearOrder Hlc := LinearOrder.lift' key key_injective

/-- The zero stamp for a device. -/
def zero (device : DeviceId) : Hlc := ⟨0, 0, device⟩

instance : OrderBot Hlc where
  bot := zero ⟨0⟩
  bot_le h := by
    show toLex (0, toLex (0, 0)) ≤ key h
    rcases h with ⟨w, c, ⟨d⟩⟩
    simp only [key, Prod.Lex.le_iff, ofLex_toLex]
    omega

/-- The parts fit the machine integers the code keeps them in. -/
structure Fits (h : Hlc) : Prop where
  wallMs : h.wallMs < 2 ^ 64
  counter : h.counter < 2 ^ 16
  device : h.device.ulid < 2 ^ 128

end Hlc

end Txtodo

/-!
## The clock

The rules of `hlc.rs`: `tick` stamps a local change past the clock, `merge` folds a peer's stamp in
unless the peer's wall clock leads by more than the bound.
-/

namespace Txtodo

/-- Largest peer clock lead that is merged. -/
def MAX_PEER_SKEW_AHEAD_MS : Nat := 5 * 60 * 1000

/-- Lag past which the caller should warn. -/
def MAX_PEER_SKEW_BEHIND_MS : Nat := 5 * 60 * 1000

/-- Why a stamp could not be produced. -/
inductive HlcError where
  | overflow (wallMs : Nat)
  | peerAhead (peerMs localMs boundMs : Nat)
  deriving DecidableEq

/-- How a peer's wall clock compares to ours. -/
inductive Skew where
  | ok
  | behind (lagMs : Nat)
  | ahead (leadMs : Nat)
  deriving DecidableEq

def Skew.check (peerMs localMs : Nat) : Skew :=
  let lead := peerMs - localMs
  let lag := localMs - peerMs
  if MAX_PEER_SKEW_AHEAD_MS < lead then .ahead lead
  else if MAX_PEER_SKEW_BEHIND_MS < lag then .behind lag
  else .ok

/-- `u16::checked_add(1)`. -/
def nextCounter (counter : Nat) : Option Nat := if counter + 1 < 2 ^ 16 then some (counter + 1) else none

namespace Hlc

/-- The send rule: the clock after the call and the stamp, which is the clock when it does not fail. -/
def tick (clock : Hlc) (nowMs : Nat) : Hlc × Except HlcError Hlc :=
  if clock.wallMs < nowMs then
    let clock := { clock with wallMs := nowMs, counter := 0 }
    (clock, .ok clock)
  else match nextCounter clock.counter with
    | some counter =>
      let clock := { clock with counter := counter }
      (clock, .ok clock)
    | none => (clock, .error (.overflow clock.wallMs))

/-- The receive rule: folds `remote` in. -/
def merge (clock remote : Hlc) (nowMs : Nat) : Hlc × Except HlcError Hlc :=
  match Skew.check remote.wallMs nowMs with
  | .ahead _ => (clock, .error (.peerAhead remote.wallMs nowMs MAX_PEER_SKEW_AHEAD_MS))
  | _ =>
    let wallMs := max (max clock.wallMs remote.wallMs) nowMs
    let counter :=
      if wallMs = clock.wallMs then
        if wallMs = remote.wallMs then nextCounter (max clock.counter remote.counter)
        else nextCounter clock.counter
      else if wallMs = remote.wallMs then nextCounter remote.counter
      else some 0
    match counter with
    | some counter =>
      let next := ⟨wallMs, counter, clock.device⟩
      (next, .ok next)
    | none => (clock, .error (.overflow wallMs))

end Hlc

end Txtodo
