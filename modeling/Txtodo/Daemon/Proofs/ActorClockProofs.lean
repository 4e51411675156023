import Txtodo.Daemon.ActorClock
import Mathlib.Tactic.Common

/-!
# Proofs: local stamps win

A local stamp is past the clock, which every stamp issued or merged is not past, and past the floor, which
is the newest stamp held; so it wins unless the floor does not serve.
-/

namespace Txtodo

namespace Hlc

variable {a b c : Hlc}

theorem lt_iff : a < b ↔ a.wallMs < b.wallMs ∨
    a.wallMs = b.wallMs ∧ (a.counter < b.counter ∨
      a.counter = b.counter ∧ a.device.ulid < b.device.ulid) := by
  show key a < key b ↔ _
  simp only [key, Prod.Lex.lt_iff, ofLex_toLex]

theorem lt_of_isPast (h : isPast a b = true) : b < a := by
  rw [lt_iff]
  simp only [isPast, Bool.or_eq_true, Bool.and_eq_true, decide_eq_true_eq] at h
  omega

theorem nextCounter_eq_some {counter next : Nat} (h : nextCounter counter = some next) :
    next = counter + 1 := by
  rw [nextCounter] at h
  split_ifs at h
  exact (Option.some.inj h).symm

/-- A tick fails and leaves the clock, or stamps past it. -/
theorem tick_cases (a : Hlc) (nowMs : Nat) :
    (∃ e, a.tick nowMs = (a, .error e)) ∨ ∃ next, a.tick nowMs = (next, .ok next) ∧ a < next := by
  rw [tick]
  split_ifs with hwall
  · exact .inr ⟨_, rfl, lt_iff.2 (.inl hwall)⟩
  · cases hnext : nextCounter a.counter with
    | none => exact .inl ⟨_, rfl⟩
    | some counter =>
      have := nextCounter_eq_some hnext
      refine .inr ⟨_, rfl, lt_iff.2 (.inr ⟨rfl, .inl ?_⟩)⟩
      dsimp only
      omega

/-- A merge fails and leaves the clock, or moves it past itself and the stamp. -/
theorem merge_cases (a remote : Hlc) (nowMs : Nat) :
    (∃ e, a.merge remote nowMs = (a, .error e)) ∨
      ∃ next, a.merge remote nowMs = (next, .ok next) ∧ a < next ∧ remote < next := by
  rw [merge]
  split
  · exact .inl ⟨_, rfl⟩
  · dsimp only
    set wallMs := max (max a.wallMs remote.wallMs) nowMs with hmax
    split
    · next counter hcounter =>
      refine .inr ⟨_, rfl, ?_⟩
      simp only [lt_iff]
      split_ifs at hcounter with ha hr hr
      · have := nextCounter_eq_some hcounter
        omega
      · have := nextCounter_eq_some hcounter
        omega
      · have := nextCounter_eq_some hcounter
        omega
      · omega
    · exact .inl ⟨_, rfl⟩

end Hlc

/-! ## The floor -/

section Floor

variable {f ticked : Hlc} {floor : Option Hlc} {nowMs : Nat}

/-- A stamp just past the floor is past it, unless the floor is the last stamp there is. -/
theorem isPast_justPast (ticked : Hlc) (h : f.wallMs + 1 < 2 ^ 64 ∨ f.counter + 1 < 2 ^ 16) :
    isPast (justPast f ticked) f = true := by
  rw [justPast, nextCounter, isPast]
  split_ifs with hcounter
  · simp
  · have hwall : (f.wallMs + 1) % 2 ^ 64 = f.wallMs + 1 := Nat.mod_eq_of_lt (h.resolve_right hcounter)
    dsimp only
    rw [hwall]
    simp

/-- Just past the last stamp there is the first one: the wall component wraps. -/
theorem justPast_last (hwall : f.wallMs + 1 = 2 ^ 64) (hcounter : ¬f.counter + 1 < 2 ^ 16) :
    (justPast f ticked).wallMs = 0 := by
  rw [justPast, nextCounter, if_neg hcounter]
  simp [hwall]

theorem pastFloor_of_isPast (h : isPast ticked f = true) : pastFloor ticked (some f) nowMs = ticked := by
  simp [pastFloor, h]

theorem pastFloor_of_far (h : withinLimit f nowMs = false) : pastFloor ticked (some f) nowMs = ticked := by
  simp [pastFloor, h]

theorem pastFloor_moved (hpast : isPast ticked f = false) (hnear : withinLimit f nowMs = true) :
    pastFloor ticked (some f) nowMs = justPast f ticked := by
  simp [pastFloor, hpast, hnear]

theorem wallMs_lt_of_near (h : withinLimit f nowMs = true) : f.wallMs + 1 ≤ 2 ^ 64 := by
  simp only [withinLimit, decide_eq_true_eq] at h
  omega

/-- A stamp moved past the floor is past what it was: the floor was not before it. -/
theorem lt_of_moved {a b : Hlc} (hb : isPast a b = false) {c : Hlc} (hc : isPast c b = true) : a < c := by
  rw [Hlc.lt_iff]
  simp only [isPast, Bool.or_eq_true, Bool.and_eq_true, decide_eq_true_eq, ← Bool.not_eq_true,
    not_or, not_and] at hb hc
  omega

end Floor

/-! ## A run -/

namespace ClockRun

variable {r : ClockRun} {nowMs : Nat}

/-- What holds between the calls: no stamp issued or merged is past the clock, and the floor is the
newest stamp held. -/
structure Inv (r : ClockRun) : Prop where
  issued : ∀ x ∈ r.issued, x ≤ r.clock.hlc
  merged : ∀ p ∈ r.merged, p ≤ r.clock.hlc
  held : ∀ p ∈ r.held, ∃ f ∈ r.clock.aheadFloor, p ≤ f
  floor : ∀ f ∈ r.clock.aheadFloor, f ∈ r.held

theorem inv_start (hlc : Hlc) : (start hlc).Inv :=
  ⟨by simp [start], by simp [start], by simp [start], by simp [start]⟩

/-- What a tick does: it fails and leaves the clock, or issues a stamp past the clock's own next one. -/
theorem tick_cases (r : ClockRun) (nowMs : Nat) :
    (∃ e, (r.clock.hlc.tick nowMs).2 = .error e ∧ r.clock.tick nowMs = (r.clock, .error e)) ∨
      ∃ ticked, (r.clock.hlc.tick nowMs).2 = .ok ticked ∧ r.clock.hlc < ticked ∧
        r.clock.tick nowMs = ({ r.clock with hlc := pastFloor ticked r.clock.aheadFloor nowMs },
          .ok (pastFloor ticked r.clock.aheadFloor nowMs)) := by
  rcases Hlc.tick_cases r.clock.hlc nowMs with ⟨e, he⟩ | ⟨next, hnext, hlt⟩
  · refine .inl ⟨e, by rw [he], ?_⟩
    rw [ActorClock.tick, he]
  · refine .inr ⟨next, by rw [hnext], hlt, ?_⟩
    rw [ActorClock.tick, hnext]

/-- A floor that serves gives a stamp not before the clock's own next one and past what is held. -/
theorem FloorServes.past (h : r.Inv) (hserves : r.FloorServes nowMs) {ticked : Hlc}
    (hticked : (r.clock.hlc.tick nowMs).2 = .ok ticked) :
    ticked ≤ pastFloor ticked r.clock.aheadFloor nowMs ∧
      ∀ p ∈ r.held, withinLimit p nowMs = true → p < pastFloor ticked r.clock.aheadFloor nowMs := by
  obtain ⟨hnear, hlast⟩ := hserves ticked hticked
  cases hfloor : r.clock.aheadFloor with
  | none =>
    refine ⟨le_rfl, fun p hp _ => ?_⟩
    obtain ⟨f, hf, -⟩ := h.held p hp
    rw [hfloor] at hf
    cases hf
  | some f =>
    rw [hfloor] at hnear hlast
    have hheld : ∀ p ∈ r.held, p ≤ f := by
      intro p hp
      obtain ⟨f', hf', hle⟩ := h.held p hp
      rw [hfloor] at hf'
      exact Option.some.inj hf' ▸ hle
    by_cases hpast : isPast ticked f = true
    · rw [pastFloor_of_isPast hpast]
      exact ⟨le_rfl, fun p hp _ => (hheld p hp).trans_lt (Hlc.lt_of_isPast hpast)⟩
    rw [Bool.not_eq_true] at hpast
    by_cases hclose : withinLimit f nowMs = true
    · rw [pastFloor_moved hpast hclose]
      have hjust := isPast_justPast ticked (hlast f rfl hclose hpast)
      exact ⟨(lt_of_moved hpast hjust).le, fun p hp _ => (hheld p hp).trans_lt (Hlc.lt_of_isPast hjust)⟩
    · have hfar : withinLimit f nowMs = false := by simpa using hclose
      rw [pastFloor_of_far hfar]
      refine ⟨le_rfl, fun p hp hpnear => ?_⟩
      by_contra hlt
      obtain ⟨f', hf', hclose'⟩ := hnear ⟨p, hp, hpnear, hlt⟩
      obtain rfl := Option.some.inj hf'
      exact hclose hclose'

/-- One tick whose floor serves keeps its word. -/
theorem sound_tick (h : r.Inv) (hserves : r.FloorServes nowMs) : r.Sound (.tick nowMs) := by
  rcases tick_cases r nowMs with ⟨e, -, he⟩ | ⟨ticked, hticked, hlt, htick⟩
  · rw [Sound, he]
    exact ⟨fun hlc hok => (by cases hok), fun _ _ => rfl⟩
  · obtain ⟨hle, hheld⟩ := hserves.past h hticked
    rw [Sound, htick]
    refine ⟨fun hlc hok => ?_, fun e he => by cases he⟩
    obtain rfl := Except.ok.inj hok
    exact ⟨fun x hx => (h.issued x hx).trans_lt (hlt.trans_le hle),
      fun p hp => (h.merged p hp).trans_lt (hlt.trans_le hle), hheld⟩

/-- A tick that keeps its word had a floor that serves. -/
theorem floorServes_of_sound (h : r.Inv) (hsound : r.Sound (.tick nowMs)) : r.FloorServes nowMs := by
  intro ticked hticked
  rcases tick_cases r nowMs with ⟨e, he, -⟩ | ⟨ticked', hticked', -, htick⟩
  · rw [hticked] at he
    cases he
  obtain rfl : ticked' = ticked := Except.ok.inj (hticked'.symm.trans hticked)
  obtain ⟨-, -, hheld⟩ := hsound.1 _ (by rw [htick])
  constructor
  · rintro ⟨p, hp, hpnear, hnot⟩
    obtain ⟨f, hf, -⟩ := h.held p hp
    refine ⟨f, hf, ?_⟩
    by_contra hclose
    have hfar : withinLimit f nowMs = false := by simpa using hclose
    have hlt := hheld p hp hpnear
    rw [show r.clock.aheadFloor = some f from hf, pastFloor_of_far hfar] at hlt
    exact hnot hlt
  · intro f hf hclose hpast
    by_contra hlast
    obtain ⟨hwall, hcounter⟩ := not_or.1 hlast
    have hlt := hheld f (h.floor f hf) hclose
    rw [show r.clock.aheadFloor = some f from hf, pastFloor_moved hpast hclose, Hlc.lt_iff] at hlt
    have hlimit := wallMs_lt_of_near hclose
    have hzero : (justPast f ticked').wallMs = 0 := justPast_last (by omega) hcounter
    omega

theorem sound_merge (r : ClockRun) (remote : Hlc) (nowMs : Nat) : r.Sound (.merge remote nowMs) := by
  intro e he
  rcases Hlc.merge_cases r.clock.hlc remote nowMs with ⟨e', he'⟩ | ⟨next, hnext, -⟩
  · rw [ActorClock.merge, he']
  · rw [ActorClock.merge, hnext] at he
    cases he

/-- A call that keeps its word leaves what holds between the calls. -/
theorem Inv.step (h : r.Inv) (call : ClockCall) (hserves : ∀ nowMs, call = .tick nowMs → r.FloorServes nowMs) :
    (r.step call).Inv := by
  cases call with
  | tick nowMs =>
    rw [ClockRun.step]
    rcases tick_cases r nowMs with ⟨e, -, he⟩ | ⟨ticked, hticked, hlt, htick⟩
    · rw [he]
      exact h
    · obtain ⟨hle, -⟩ := (hserves nowMs rfl).past h hticked
      have hpast := hlt.trans_le hle
      rw [htick]
      refine ⟨fun x hx => ?_, fun p hp => (h.merged p hp).trans hpast.le, h.held, h.floor⟩
      rcases List.mem_cons.1 hx with rfl | hx
      · exact le_rfl
      · exact (h.issued x hx).trans hpast.le
  | merge remote nowMs =>
    rw [ClockRun.step, ActorClock.merge]
    rcases Hlc.merge_cases r.clock.hlc remote nowMs with ⟨e, he⟩ | ⟨next, hnext, hlt, hremote⟩
    · rw [he]
      exact h
    · rw [hnext]
      refine ⟨fun x hx => (h.issued x hx).trans hlt.le, fun p hp => ?_, h.held, h.floor⟩
      rcases List.mem_cons.1 hp with rfl | hp
      · exact hremote.le
      · exact (h.merged p hp).trans hlt.le
  | hold stamp =>
    refine ⟨h.issued, h.merged, fun p hp => ?_, fun f hf => ?_⟩
    · refine ⟨_, rfl, ?_⟩
      rcases List.mem_cons.1 hp with rfl | hp
      · cases r.clock.aheadFloor with
        | none => exact le_rfl
        | some f => exact le_max_right f p
      · obtain ⟨f, hf, hle⟩ := h.held p hp
        rw [show r.clock.aheadFloor = some f from hf]
        exact hle.trans (le_max_left f stamp)
    · obtain rfl := Option.some.inj hf
      cases hfloor : r.clock.aheadFloor with
      | none => exact List.mem_cons_self
      | some f =>
        rcases le_total f stamp with hle | hle
        · rw [Option.elim_some, max_eq_right hle]
          exact List.mem_cons_self
        · rw [Option.elim_some, max_eq_left hle]
          exact List.mem_cons_of_mem _ (h.floor f hfloor)

/-- What holds between the calls holds in every run whose ticks had a floor that served. -/
theorem Inv.run (h : r.Inv) {calls : List ClockCall}
    (hserves : ∀ as nowMs bs, calls = as ++ .tick nowMs :: bs → (r.run as).FloorServes nowMs) :
    (r.run calls).Inv := by
  induction calls generalizing r with
  | nil => exact h
  | cons call calls ih =>
    refine ih (h.step call fun nowMs hcall => ?_) fun as nowMs bs hcalls => ?_
    · exact hserves [] nowMs calls (by rw [hcall]; rfl)
    · exact hserves (call :: as) nowMs bs (by rw [hcalls]; rfl)

/-- In a run whose calls keep their word the floor serves at every tick. -/
theorem floorServes_of_run (h : r.Inv) {calls : List ClockCall}
    (hsound : ∀ as call bs, calls = as ++ call :: bs → (r.run as).Sound call) :
    ∀ as nowMs bs, calls = as ++ .tick nowMs :: bs → (r.run as).FloorServes nowMs := by
  induction calls generalizing r with
  | nil => exact fun as nowMs bs hcalls => by simp at hcalls
  | cons call calls ih =>
    have hfirst : ∀ nowMs, call = .tick nowMs → r.FloorServes nowMs := by
      rintro nowMs rfl
      exact floorServes_of_sound h (hsound [] _ calls rfl)
    have hrest := ih (h.step call hfirst) fun as call' bs hcalls =>
      hsound (call :: as) call' bs (by rw [hcalls]; rfl)
    intro as nowMs bs hcalls
    cases as with
    | nil => exact hfirst nowMs (List.cons.inj hcalls).1
    | cons a as =>
      obtain ⟨rfl, htail⟩ := List.cons.inj hcalls
      exact hrest as nowMs bs htail

/-- In a run, every stamp issued wins and every error leaves the clock, exactly when the floor serves at
every tick. -/
theorem local_stamps_win (hlc : Hlc) (calls : List ClockCall) :
    (∀ as call bs, calls = as ++ call :: bs → ((start hlc).run as).Sound call) ↔
      ∀ as nowMs bs, calls = as ++ .tick nowMs :: bs → ((start hlc).run as).FloorServes nowMs := by
  refine ⟨floorServes_of_run (inv_start hlc), fun hserves as call bs hcalls => ?_⟩
  have hinv : ((start hlc).run as).Inv := (inv_start hlc).run fun as' nowMs bs' has =>
    hserves as' nowMs (bs' ++ call :: bs) (by rw [hcalls, has]; simp)
  cases call with
  | tick nowMs => exact sound_tick hinv (hserves as nowMs bs hcalls)
  | merge remote nowMs => exact sound_merge _ remote nowMs
  | hold stamp => trivial

/-- At minute 3 the clock refuses and holds a peer's stamp of minute 10, then one two days ahead; the next
local stamp is older than the first. -/
theorem far_stamp_hides_near_floor :
    let own : Hlc := ⟨0, 0, ⟨1⟩⟩
    let near : Hlc := ⟨600000, 3, ⟨2⟩⟩
    let far : Hlc := ⟨172800000, 0, ⟨3⟩⟩
    let calls : List ClockCall := [.merge near 180000, .hold near, .merge far 180000, .hold far]
    ((start own).run calls).merged = [] ∧ withinLimit near 180000 = true ∧
      ¬((start own).run calls).Sound (.tick 180000) := by
  intro own near far calls
  refine ⟨by decide, by decide, fun hsound => ?_⟩
  obtain ⟨-, -, hheld⟩ := hsound.1 ⟨180000, 0, ⟨1⟩⟩ (by decide)
  exact absurd (hheld near (by decide) (by decide)) (by decide)

end ClockRun

end Txtodo
