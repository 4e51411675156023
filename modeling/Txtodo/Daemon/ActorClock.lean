import Txtodo.Model.Hlc

/-!
# The clock of a document actor

What a document actor does to its clock (`actor.rs`, `sync_ops.rs`, `stamp_floor.rs`): it stamps a local batch
past its floor, merges the newest stamp of a peer's batch and holds one the clock refused; and what a run of these
has issued, merged and held.
-/

namespace Txtodo

/-- How far ahead of the wall clock a held peer stamp may pull a local stamp. -/
def FLOOR_LIMIT_MS : Nat := 24 * 60 * 60 * 1000

/-- `hold`: remembers `stamp` as the floor when it is the newest. -/
def hold (floor : Option Hlc) (stamp : Hlc) : Option Hlc := some (floor.elim stamp fun f => max f stamp)

/-- `a` sorts after `b` by wall and counter alone. -/
def isPast (a b : Hlc) : Bool :=
  decide (b.wallMs < a.wallMs) || (decide (b.wallMs = a.wallMs) && decide (b.counter < a.counter))

/-- Whether `floor` is near enough to follow: no more than the limit past `nowMs`, a `saturating_add`. -/
def withinLimit (floor : Hlc) (nowMs : Nat) : Bool :=
  floor.wallMs ≤ min (nowMs + FLOOR_LIMIT_MS) (2 ^ 64 - 1)

/-- The stamp right after `floor`, as `ticked`'s device; the wall component wraps. -/
def justPast (floor ticked : Hlc) : Hlc :=
  match nextCounter floor.counter with
  | some counter => ⟨floor.wallMs, counter, ticked.device⟩
  | none => ⟨(floor.wallMs + 1) % 2 ^ 64, 0, ticked.device⟩

/-- `ticked`, moved just past `floor` when it is not past it and the floor is near enough. -/
def pastFloor (ticked : Hlc) (floor : Option Hlc) (nowMs : Nat) : Hlc :=
  match floor with
  | some f => if !isPast ticked f && withinLimit f nowMs then justPast f ticked else ticked
  | none => ticked

/-- An actor's clock and floor. -/
structure ActorClock where
  hlc : Hlc
  aheadFloor : Option Hlc
  deriving DecidableEq

namespace ActorClock

/-- `FileActor::tick`: the stamp of a local batch, kept as the clock. -/
def tick (c : ActorClock) (nowMs : Nat) : ActorClock × Except HlcError Hlc :=
  match c.hlc.tick nowMs with
  | (hlc, .error e) => ({ c with hlc := hlc }, .error e)
  | (_, .ok ticked) =>
    let hlc := pastFloor ticked c.aheadFloor nowMs
    ({ c with hlc := hlc }, .ok hlc)

/-- `Clock::merge` of a peer's stamp. -/
def merge (c : ActorClock) (remote : Hlc) (nowMs : Nat) : ActorClock × Except HlcError Hlc :=
  let (hlc, r) := c.hlc.merge remote nowMs
  ({ c with hlc := hlc }, r)

/-- `hold` of a peer's stamp as the floor. -/
def hold (c : ActorClock) (stamp : Hlc) : ActorClock :=
  { c with aheadFloor := Txtodo.hold c.aheadFloor stamp }

/-- `observe_peer_stamps` for a batch whose newest stamp is `newest`: merged, held when refused. -/
def observe (c : ActorClock) (newest : Hlc) (nowMs : Nat) : ActorClock :=
  match c.merge newest nowMs with
  | (c, .ok _) => c
  | (c, .error _) => c.hold newest

end ActorClock

/-- One call on an actor's clock, with the wall clock's reading where it has one. -/
inductive ClockCall where
  | tick (nowMs : Nat)
  | merge (remote : Hlc) (nowMs : Nat)
  | hold (stamp : Hlc)
  deriving DecidableEq

/-- A clock with the local stamps it issued, the peer stamps it merged and those it held. -/
structure ClockRun where
  clock : ActorClock
  issued : List Hlc
  merged : List Hlc
  held : List Hlc
  deriving DecidableEq

namespace ClockRun

/-- A clock that has seen nothing. -/
def start (hlc : Hlc) : ClockRun := ⟨⟨hlc, none⟩, [], [], []⟩

def step (r : ClockRun) : ClockCall → ClockRun
  | .tick nowMs =>
    match r.clock.tick nowMs with
    | (clock, .ok hlc) => { r with clock := clock, issued := hlc :: r.issued }
    | (clock, .error _) => { r with clock := clock }
  | .merge remote nowMs =>
    match r.clock.merge remote nowMs with
    | (clock, .ok _) => { r with clock := clock, merged := remote :: r.merged }
    | (clock, .error _) => { r with clock := clock }
  | .hold stamp => { r with clock := r.clock.hold stamp, held := stamp :: r.held }

/-- The calls in order. -/
def run (r : ClockRun) (calls : List ClockCall) : ClockRun := calls.foldl step r

/-- Whether `hlc`, issued when the wall clock read `nowMs`, wins over all the run has seen: every local
stamp, every merged one and every held one no more than the limit ahead. -/
def Wins (r : ClockRun) (nowMs : Nat) (hlc : Hlc) : Prop :=
  (∀ x ∈ r.issued, x < hlc) ∧ (∀ p ∈ r.merged, p < hlc) ∧
    ∀ p ∈ r.held, withinLimit p nowMs = true → p < hlc

/-- Whether one call keeps its word: a stamp it issues wins, and an error leaves the clock as it was. -/
def Sound (r : ClockRun) : ClockCall → Prop
  | .tick nowMs =>
    (∀ hlc, (r.clock.tick nowMs).2 = .ok hlc → r.Wins nowMs hlc) ∧
      ∀ e, (r.clock.tick nowMs).2 = .error e → (r.clock.tick nowMs).1 = r.clock
  | .merge remote nowMs =>
    ∀ e, (r.clock.merge remote nowMs).2 = .error e → (r.clock.merge remote nowMs).1 = r.clock
  | .hold _ => True

/-- Whether the floor serves a stamp issued when the wall clock reads `nowMs`: when a held stamp near
enough to follow is not below the clock's own next one, the newest held one is near enough too; and the
floor the stamp is moved past is not the last stamp there is. -/
def FloorServes (r : ClockRun) (nowMs : Nat) : Prop :=
  ∀ ticked, (r.clock.hlc.tick nowMs).2 = .ok ticked →
    ((∃ p ∈ r.held, withinLimit p nowMs = true ∧ ¬p < ticked) →
      ∃ f ∈ r.clock.aheadFloor, withinLimit f nowMs = true) ∧
    ∀ f ∈ r.clock.aheadFloor, withinLimit f nowMs = true → isPast ticked f = false →
      f.wallMs + 1 < 2 ^ 64 ∨ f.counter + 1 < 2 ^ 16

end ClockRun

end Txtodo
