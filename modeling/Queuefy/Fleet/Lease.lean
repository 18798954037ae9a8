import Queuefy.Fleet.Late

/-! # Leases and beats against one clock

The fleet again, with the clock every party reads and, for every claim, where its beat stands. A
claim is heard some time after it was made; from then on its beat rests for a third of the
lease, goes out, and rests again from where it was answered. The clock is exact and every call
reads it off in whole microseconds. Nothing but `Timely` bounds how long any of it takes.
-/

namespace Queuefy

variable {V : Type}

/-- Where the beat of a claim stands, under the instants of the clock that matter to it. -/
inductive Timer
  | unheard (made : ℚ)
  | resting (since : ℚ)
  | pushing (since sent : ℚ) (landed : Bool)

namespace Timer

/-- The last instant what a beat is waiting for may come at, when the claim call answers within
a third of the lease and a beat is answered within a third of it from the end of its rest. -/
def deadline (lease : Int) : Timer → ℚ
  | .unheard made => made + lease / 3
  | .resting since => since + lease / 3 + lease / 3
  | .pushing since _ _ => since + lease / 3 + lease / 3

def landing : Timer → Timer
  | .pushing since sent _ => .pushing since sent true
  | timer => timer

/-- What a beat on its way asks for: the instant it was sent, in whole microseconds. -/
def inFlight : Timer → List Int
  | .pushing _ sent false => [⌊sent⌋]
  | _ => []

/-- The lease counted from `heard` covers everything the beat may still be waiting for. -/
def Covered (lease : Int) (heard : ℚ) : Timer → Prop
  | .unheard made => made ≤ heard
  | .resting since => since ≤ heard + lease / 3
  | .pushing since sent false => since ≤ heard + lease / 3 ∧ since + lease / 3 ≤ sent
  | .pushing since _ true => since + lease / 3 ≤ heard

theorem Covered.deadline_le {lease : Int} {heard : ℚ} {timer : Timer} (hlease : 0 < lease)
    (h : timer.Covered lease heard) : timer.deadline lease ≤ heard + lease := by
  have hpos : (0 : ℚ) < lease := by exact_mod_cast hlease
  cases timer with
  | unheard made =>
      simp only [Covered, deadline] at h ⊢
      linarith
  | resting since =>
      simp only [Covered, deadline] at h ⊢
      linarith
  | pushing since sent landed =>
      cases landed <;> simp only [Covered, deadline] at h ⊢ <;> linarith

end Timer

/-- The attempt of a claim is still going, its ending included. -/
def Claim.live (c : Claim V) : Bool :=
  match c.phase with
  | .starting | .awaiting | .asked _ => true
  | .answered .. | .gone => false

structure Clocked (V : Type) where
  fleet : Fleet V
  clock : ℚ
  timers : Nat → Timer

/-- `act` is any step of the fleet but a beat going out, with the instant a call of a pass was
made at; the others are the clock and the beats. -/
inductive Tick (V : Type)
  | pass (span : ℚ)
  | hear (claim : Nat)
  | send (claim : Nat) (moment : Instant)
  | answer (claim : Nat)
  | act (made : ℚ) (event : Event V)

namespace Clocked

variable (team : Nat → Worker)

def start (clock : ℚ) : Clocked V := ⟨.start, clock, fun _ => .unheard clock⟩

/-- A call carries the instant it was made at, which is not ahead of the clock. -/
def made (clock at_ : ℚ) : Event V → Bool
  | .push .. => false
  | .claim _ _ moment _ => at_ ≤ clock ∧ moment.micro = ⌊at_⌋
  | .reclaim moment => at_ ≤ clock ∧ moment.micro = ⌊at_⌋
  | _ => true

def setTimer (s : Clocked V) (i : Nat) (timer : Timer) : Clocked V :=
  { s with timers := Function.update s.timers i timer }

def timersAfter (s : Clocked V) (at_ : ℚ) : Event V → Nat → Timer
  | .claim .. => fun i => if s.fleet.claims.length ≤ i then .unheard at_ else s.timers i
  | .beatLands i _ => Function.update s.timers i (s.timers i).landing
  | _ => s.timers

def step (s : Clocked V) : Tick V → Option (Clocked V)
  | .pass span => if 0 ≤ span then some { s with clock := s.clock + span } else none
  | .hear i =>
      match s.timers i with
      | .unheard _ => some (s.setTimer i (.resting s.clock))
      | _ => none
  | .send i moment =>
      match s.fleet.claims[i]?, s.timers i with
      | some c, .resting since =>
          if since + (team c.worker).lease / 3 ≤ s.clock ∧ moment.micro = ⌊s.clock⌋ then
            (s.fleet.step team (.push i moment)).map fun fleet =>
              { s.setTimer i (.pushing since s.clock false) with fleet := fleet }
          else none
      | _, _ => none
  | .answer i =>
      match s.timers i with
      | .pushing _ _ true => some (s.setTimer i (.resting s.clock))
      | _ => none
  | .act at_ e =>
      if made s.clock at_ e then
        (s.fleet.step team e).map fun fleet =>
          { s with fleet := fleet, timers := s.timersAfter at_ e }
      else none

/-- Every claim that is heard is answered within a third of its lease, and every beat of a claim
still going takes effect and is answered within a third of it from the end of its rest. -/
def Timely (s : Clocked V) : Tick V → Prop
  | .pass span => ∀ p ∈ s.fleet.claims.zipIdx, p.1.live →
      s.clock + span ≤ (s.timers p.2).deadline (team p.1.worker).lease
  | .act at_ (.claim worker _ _ true) => s.clock ≤ at_ + (team worker).lease / 3
  | .act _ (.beatLands i k) => ∀ c ∈ s.fleet.claims[i]?, ∀ moment ∈ c.beats[k]?, c.live →
      (moment.plus (team c.worker).lease).isSome
  | _ => True

instance (s : Clocked V) (tick : Tick V) : Decidable (Timely team s tick) := by
  unfold Timely
  split <;> infer_instance

/-- No beat of a claim that was handed back lands while a worker of the same name holds the run
again under the same number. -/
def Untrailed (s : Clocked V) (tick : Tick V) : Prop :=
  ∀ at_ e c, tick = .act at_ e → ¬ Fleet.Trailing team s.fleet e c

/-! ## What a live claim keeps -/

/-- A claim still going holds its run, on a lease that covers what its beat waits for. -/
structure Alive (s : Clocked V) (i : Nat) (c : Claim V) : Prop where
  holds : c.holds = true
  inTime : s.clock ≤ (s.timers i).deadline (team c.worker).lease
  beats : c.beats.map (·.micro) = (s.timers i).inFlight
  leased : ∃ row lease heard, s.fleet.store.get c.row.id = some row ∧
    row.leaseUntil = some lease ∧ lease.micro = ⌊heard⌋ + (team c.worker).lease ∧
    (s.timers i).Covered (team c.worker).lease heard

variable {team}

theorem Alive.not_expired {s : Clocked V} {i : Nat} {c : Claim V} (h : Alive team s i c)
    {row : Row Nat V} {lease moment : Instant} (hrow : s.fleet.store.get c.row.id = some row)
    (hlease : row.leaseUntil = some lease) (hmoment : moment.micro ≤ ⌊s.clock⌋) :
    ¬ lease < moment := by
  obtain ⟨row', lease', heard, hrow', hlease', hmicro, hcovered⟩ := h.leased
  obtain rfl := Option.some.inj (hrow.symm.trans hrow')
  obtain rfl := Option.some.inj (hlease.symm.trans hlease')
  have hclock := h.inTime.trans (hcovered.deadline_le (team c.worker).leased)
  have hfloor : ⌊s.clock⌋ ≤ ⌊heard⌋ + (team c.worker).lease := by
    rw [← Int.floor_add_intCast]
    exact Int.floor_le_floor hclock
  rw [Instant.lt_def, hmicro]
  omega

end Clocked

theorem Fleet.Advance.live {team : Nat → Worker} {s : Fleet V} {e : Event V} {i : Nat}
    {c c₁ : Claim V} (h : Fleet.Advance team s e i c c₁) (hlive : c₁.live) : c.live := by
  cases h with
  | kept => exact hlive
  | pushed => exact hlive
  | beat => exact hlive
  | moved m a he hm =>
      cases hphase : c.phase with
      | gone =>
          have := Attempt.move_gone hm hphase
          simp [Claim.live, this] at hlive
      | answered ending taken =>
          have := ((Attempt.move_spec hm).2 ending taken).2 hphase
          simp [Claim.live, this] at hlive
      | _ => simp [Claim.live, hphase]
  | landed ending he hasked => simp [Claim.live] at hlive

theorem Fleet.Advance.beats {team : Nat → Worker} {s : Fleet V} {e : Event V} {i : Nat}
    {c c₁ : Claim V} (h : Fleet.Advance team s e i c c₁) (hbeat : ∀ k, e ≠ .beatLands i k)
    (hpush : ∀ moment, e ≠ .push i moment) : c₁.beats = c.beats := by
  cases h with
  | pushed moment he => exact absurd he (hpush moment)
  | beat k he => exact absurd he (hbeat k)
  | _ => rfl

/-- While the attempt of a claim is still going, nothing but a beat of its own changes the run it
holds: no reclaim finds the lease run out, and no other call of an attempt is taken. -/
theorem Fleet.Fenced.live_kept {team : Nat → Worker} {s u : Fleet V} {e : Event V}
    {fresh : List (Claim V)} (hF : Fleet.Fenced team s)
    (h : s.act team e = some (u, fresh)) {i : Nat} {c c₁ : Claim V} {row : Row Nat V}
    (hc : s.claims[i]? = some c) (hadv : Fleet.Advance team s e i c c₁) (hlive : c₁.live)
    (hholds : c.holds = true) (hrow : s.store.get c.row.id = some row)
    (htrail : ∀ d, ¬ Fleet.Trailing team s e d)
    (hreclaim : ∀ moment lease, e = .reclaim moment → row.leaseUntil = some lease →
      ¬ lease < moment) (hown : ∀ k, e ≠ .beatLands i k) :
    u.store.get c.row.id = some row ∧ ∀ d ∈ fresh, d.row.id ≠ c.row.id := by
  obtain ⟨row', hrow', hrunning, -, -⟩ := hF.running_of_holds (List.mem_of_getElem? hc) hholds
  obtain rfl := Option.some.inj (hrow.symm.trans hrow')
  have hturn := Fleet.act_turn team h c.row.id
  rw [hrow] at hturn
  generalize hafter : u.store.get c.row.id = after at hturn
  cases hturn with
  | kept _ hfresh => exact ⟨rfl, hfresh⟩
  | granted _ _ worker limit moment heard he hget hchosen =>
      have := (MemoryStore.mem_chosen hchosen).2.1
      simp [hrunning] at this
  | beaten _ j k d moment leaseEnd he hd hbeat hid hheld hlease hfresh =>
      have hdmem := List.mem_of_getElem? hd
      by_cases hreleased : d.released = true
      · refine absurd ?_ (htrail d)
        exact ⟨j, k, moment, he, hd, hbeat, by simp [hlease], hreleased,
          hF.held_by (hid ▸ hheld)⟩
      · have hdholds := hF.holds_of_held hdmem (by simpa using hreleased) (hid ▸ hheld)
        have hij := hF.eq_of_holds hc hd hholds hdholds hid.symm
        exact absurd (hij ▸ he) (hown k)
  | ended _ j d ending he hd hasked hid hheld hfresh =>
      have hdholds := hF.holds_of_held (List.mem_of_getElem? hd)
        (Claim.not_released_of_asked hasked) (hid ▸ hheld)
      obtain rfl := hF.eq_of_holds hc hd hholds hdholds hid.symm
      obtain rfl := Option.some.inj (hc.symm.trans hd)
      cases hadv with
      | kept hk => simp [he, Event.subject] at hk
      | pushed m hk => simp [he] at hk
      | beat k hk => simp [he] at hk
      | moved m a hk => simp [he] at hk
      | landed ending' hk => simp [Claim.live] at hlive
  | takenBack _ moment lease he hrun hlease hexpired hfresh =>
      exact absurd hexpired (hreclaim moment lease he hlease)
  | calledOff _ moment he hpending hfresh => simp [hrunning] at hpending
  | purged _ before limit he hover hfresh => simp [hrunning, RunStatus.settled] at hover

namespace Clocked

variable {team : Nat → Worker}

theorem step_fleet {s t : Clocked V} {tick : Tick V} (h : s.step team tick = some t) :
    t.fleet = s.fleet ∨ ∃ e, s.fleet.step team e = some t.fleet := by
  cases tick with
  | pass span =>
      simp only [step] at h
      split at h <;> cases h
      exact Or.inl rfl
  | hear i =>
      simp only [step] at h
      split at h <;> cases h
      exact Or.inl rfl
  | send i moment =>
      simp only [step] at h
      split at h
      · split at h
        · obtain ⟨fleet, hfleet, rfl⟩ := Option.map_eq_some_iff.mp h
          exact Or.inr ⟨_, hfleet⟩
        · cases h
      · cases h
  | answer i =>
      simp only [step] at h
      split at h <;> cases h
      exact Or.inl rfl
  | act at_ e =>
      simp only [step] at h
      split at h
      · obtain ⟨fleet, hfleet, rfl⟩ := Option.map_eq_some_iff.mp h
        exact Or.inr ⟨_, hfleet⟩
      · cases h

theorem reach_fleet {ok : Clocked V → Tick V → Prop} {clock : ℚ} {s : Clocked V}
    (h : Reach (step team) ok (start clock) s) :
    Reach (Fleet.step team) Unconditional Fleet.start s.fleet :=
  h.project (·.fleet) step_fleet

/-- Moving the timer of one claim keeps the others alive, and its own claim where the new timer
is in time, has the same in flight and covers the same lease. -/
theorem Alive.setTimer {s : Clocked V} {i j : Nat} {c : Claim V} {timer : Timer}
    (h : Alive team s j c)
    (htimer : i = j → s.clock ≤ timer.deadline (team c.worker).lease ∧
      timer.inFlight = (s.timers j).inFlight ∧
      ∀ heard, (s.timers j).Covered (team c.worker).lease heard →
        timer.Covered (team c.worker).lease heard) :
    Alive team (s.setTimer i timer) j c := by
  obtain ⟨hholds, hin, hbeats, row, lease, heard, hrow, hlease, hmicro, hcovered⟩ := h
  by_cases hij : i = j
  · obtain ⟨hdeadline, hflight, hcover⟩ := htimer hij
    subst hij
    exact ⟨hholds, by simpa [Clocked.setTimer] using hdeadline,
      by simpa [Clocked.setTimer, hflight] using hbeats, row, lease, heard, hrow, hlease, hmicro,
      by simpa [Clocked.setTimer] using hcover heard hcovered⟩
  · have hsame : (s.setTimer i timer).timers j = s.timers j := by
      simp [Clocked.setTimer, Function.update_of_ne (Ne.symm hij)]
    exact ⟨hholds, hsame ▸ hin, hsame ▸ hbeats, row, lease, heard, hrow, hlease, hmicro,
      hsame ▸ hcovered⟩

theorem Alive.in_flight {s : Clocked V} {i k : Nat} {c : Claim V} {moment : Instant}
    (h : Alive team s i c) (hbeat : c.beats[k]? = some moment) :
    ∃ since sent, s.timers i = .pushing since sent false ∧ c.beats.eraseIdx k = [] ∧
      moment.micro = ⌊sent⌋ ∧ since + (team c.worker).lease / 3 ≤ sent := by
  obtain ⟨-, -, hflight, row, lease, heard, -, -, -, hcovered⟩ := h
  match htimer : s.timers i with
  | .pushing since sent false =>
      rw [htimer] at hflight hcovered
      obtain ⟨m, hm, hmicro⟩ := List.map_eq_singleton_iff.mp hflight
      rw [hm] at hbeat ⊢
      cases k with
      | zero =>
          cases hbeat
          exact ⟨since, sent, rfl, rfl, hmicro, hcovered.2⟩
      | succ k => simp at hbeat
  | .pushing since sent true | .unheard made | .resting since =>
      rw [htimer] at hflight
      rw [List.map_eq_nil_iff.mp hflight] at hbeat
      simp at hbeat

/-- The beat of a live claim lands: it is taken, and the lease counts from where it was sent. -/
theorem alive_beat {s : Clocked V} {i k : Nat} {c : Claim V} {u : Fleet V}
    {fresh : List (Claim V)} (hF : Fleet.Fenced team s.fleet)
    (hact : s.fleet.act team (.beatLands i k) = some (u, fresh))
    (hc : s.fleet.claims[i]? = some c) (h : Alive team s i c)
    (hnamed : ∀ moment, c.beats[k]? = some moment →
      (moment.plus (team c.worker).lease).isSome) :
    fresh = [] ∧ ∃ since sent, s.timers i = .pushing since sent false ∧
      c.beats.eraseIdx k = [] ∧ since + (team c.worker).lease / 3 ≤ sent ∧
      ∃ row lease, u.store.get c.row.id = some row ∧ row.status = .running ∧
        row.leaseUntil = some lease ∧ lease.micro = ⌊sent⌋ + (team c.worker).lease := by
  obtain ⟨row, hheld⟩ := hF.holder c (List.mem_of_getElem? hc) h.holds
  obtain ⟨hrow, -, hrunning, -⟩ := MemoryStore.held_eq_some.1 hheld
  simp only [Fleet.act, hc] at hact
  split at hact
  · cases hact
  · rename_i moment hbeat
    obtain ⟨leaseEnd, hlease⟩ := Option.isSome_iff_exists.mp (hnamed moment hbeat)
    obtain ⟨since, sent, htimer, herase, hmicro, hsent⟩ := h.in_flight hbeat
    simp only [Fleet.beat, MemoryStore.heartbeat, hheld, hlease, Option.some.injEq,
      Prod.mk.injEq] at hact
    obtain ⟨rfl, rfl⟩ := hact
    refine ⟨rfl, since, sent, htimer, herase, hsent, _, leaseEnd,
      MemoryStore.get_amend_mem hrow (List.mem_singleton_self _), hrunning, rfl, ?_⟩
    rw [Instant.plus_eq_some.1 hlease, hmicro]

theorem alive_fresh {s : Clocked V} {at_ : ℚ} {e : Event V} {u : Fleet V}
    {fresh : List (Claim V)} (hact : s.fleet.act team e = some (u, fresh))
    (hmade : made s.clock at_ e = true) (hok : Timely team s (.act at_ e)) {j : Nat}
    {c : Claim V} (hj : s.fleet.claims.length ≤ j) (hc : c ∈ fresh) (hlive : c.live) :
    Alive team ⟨u.observe fresh, s.clock, s.timersAfter at_ e⟩ j c := by
  obtain ⟨row, limit, moment, heard, rfl, hget, hpending, hgranted, hafter, heard', hspawn,
    hnamed⟩ := Fleet.Fenced.fresh_spec hact hc
  have hheard : heard' = true := by
    rw [hspawn] at hlive
    cases heard' with
    | true => rfl
    | false => simp [Claim.live, spawn] at hlive
  obtain ⟨rfl, hsome⟩ := hnamed hheard
  simp only [made, Bool.decide_and, Bool.and_eq_true, decide_eq_true_eq] at hmade
  have htimer : s.timersAfter at_ (.claim c.worker limit moment true : Event V) j =
      .unheard at_ := by
    simp [timersAfter, hj]
  refine ⟨by rw [hspawn]; rfl, ?_, ?_, ?_⟩
  · simpa [htimer, Timer.deadline, Timely] using hok
  · dsimp only
    rw [htimer, hspawn]
    rfl
  · rcases hgranted with ⟨leaseEnd, hlease, hrun⟩ | ⟨hnone, -⟩
    · refine ⟨c.row, leaseEnd, at_, hafter, by rw [hrun]; rfl, ?_, ?_⟩
      · rw [Instant.plus_eq_some.1 hlease, hmade.2]
      · dsimp only
        rw [htimer]
        exact le_refl at_
    · simp [hnone] at hsome

theorem timersAfter_of_ne {s : Clocked V} (at_ : ℚ) {e : Event V} {i : Nat}
    (hi : i < s.fleet.claims.length) (hown : ∀ k, e ≠ .beatLands i k) :
    s.timersAfter at_ e i = s.timers i := by
  cases e with
  | claim => simp [timersAfter, Nat.not_le.mpr hi]
  | beatLands j k =>
      have hij : i ≠ j := fun heq => hown k (heq ▸ rfl)
      simp [timersAfter, Function.update_of_ne hij]
  | _ => rfl

theorem alive_landed {s : Clocked V} {at_ : ℚ} {u : Fleet V} {fresh : List (Claim V)}
    (hF : Fleet.Fenced team s.fleet) {i k : Nat}
    (hact : s.fleet.act team (.beatLands i k) = some (u, fresh))
    (hok : Timely team s (.act at_ (.beatLands i k))) {c c₁ : Claim V}
    (hc : s.fleet.claims[i]? = some c)
    (hadv : Fleet.Advance team s.fleet (.beatLands i k) i c c₁) (hlive : c₁.live)
    (h : Alive team s i c) :
    Alive team ⟨u.observe fresh, s.clock, s.timersAfter at_ (.beatLands i k : Event V)⟩ i
      (watch u.store (fresh.map (·.row.id)) c₁) := by
  have hsame := hadv.same
  obtain ⟨rfl, since, sent, htimer, herase, hsent, row', lease', hrow', hrunning', hlease',
    hmicro'⟩ := alive_beat hF hact hc h fun moment hbeat => hok c hc moment hbeat (hadv.live hlive)
  have hafter : s.timersAfter at_ (.beatLands i k : Event V) i = .pushing since sent true := by
    simp [timersAfter, htimer, Timer.landing]
  have hbeats : c₁.beats = [] := by
    cases hadv with
    | beat k' hk =>
        cases hk
        exact herase
    | kept hk => simp [Event.subject] at hk
    | pushed _ hk => cases hk
    | moved _ _ hk => cases hk
    | landed _ hk => cases hk
  refine ⟨watch_holds.2 ⟨hsame.holds.trans h.holds, ?_, by simp⟩, ?_, ?_, ?_⟩
  · rw [hsame.row]
    exact ⟨row', hrow', hrunning'⟩
  · dsimp only
    rw [hafter]
    simpa [htimer, hsame.worker, Timer.deadline] using h.inTime
  · dsimp only
    rw [hafter]
    simp [watch, hbeats, Timer.inFlight]
  · dsimp only
    rw [hafter, watch_row, watch_worker, hsame.row, hsame.worker]
    exact ⟨row', lease', sent, hrow', hlease', hmicro', hsent⟩

theorem alive_unbeaten {s : Clocked V} {at_ : ℚ} {e : Event V} {u : Fleet V}
    {fresh : List (Claim V)} (hF : Fleet.Fenced team s.fleet)
    (hact : s.fleet.act team e = some (u, fresh)) (hmade : made s.clock at_ e = true)
    (htrail : Untrailed team s (.act at_ e)) {i : Nat} (hown : ∀ k, e ≠ .beatLands i k)
    {c c₁ : Claim V} (hc : s.fleet.claims[i]? = some c)
    (hadv : Fleet.Advance team s.fleet e i c c₁) (hlive : c₁.live) (h : Alive team s i c) :
    Alive team ⟨u.observe fresh, s.clock, s.timersAfter at_ e⟩ i
      (watch u.store (fresh.map (·.row.id)) c₁) := by
  have hi := (List.getElem?_eq_some_iff.mp hc).1
  have hsame := hadv.same
  obtain ⟨row, lease, heard, hrow, hlease, hmicro, hcovered⟩ := h.leased
  have hpush : ∀ moment, e ≠ .push i moment := by
    rintro moment rfl
    simp [made] at hmade
  obtain ⟨hkept, hfresh⟩ := hF.live_kept hact hc hadv hlive h.holds hrow
    (fun d => htrail at_ e d rfl) (by
      rintro moment lease' rfl hlease'
      simp only [made, Bool.decide_and, Bool.and_eq_true, decide_eq_true_eq] at hmade
      refine h.not_expired hrow hlease' ?_
      rw [hmade.2]
      exact Int.floor_le_floor hmade.1) hown
  obtain ⟨row', hrow', hrunning, -⟩ := hF.running_of_holds (List.mem_of_getElem? hc) h.holds
  obtain rfl := Option.some.inj (hrow.symm.trans hrow')
  have htimer := timersAfter_of_ne at_ hi hown
  refine ⟨watch_holds.2 ⟨hsame.holds.trans h.holds, ?_, ?_⟩, ?_, ?_, ?_⟩
  · rw [hsame.row]
    exact ⟨row, hkept, hrunning⟩
  · rw [hsame.row]
    simpa using hfresh
  · dsimp only
    rw [htimer, watch_worker, hsame.worker]
    exact h.inTime
  · dsimp only
    rw [htimer]
    simpa [watch, hadv.beats hown hpush] using h.beats
  · dsimp only
    rw [htimer, watch_row, watch_worker, hsame.row, hsame.worker]
    exact ⟨row, lease, heard, hkept, hlease, hmicro, hcovered⟩

theorem alive_act {s : Clocked V} {at_ : ℚ} {e : Event V} {u : Fleet V}
    {fresh : List (Claim V)} (hF : Fleet.Fenced team s.fleet)
    (hact : s.fleet.act team e = some (u, fresh)) (hmade : made s.clock at_ e = true)
    (hok : Timely team s (.act at_ e)) (htrail : Untrailed team s (.act at_ e)) {i : Nat}
    {c c₁ : Claim V} (hc : s.fleet.claims[i]? = some c)
    (hadv : Fleet.Advance team s.fleet e i c c₁) (hlive : c₁.live) (h : Alive team s i c) :
    Alive team ⟨u.observe fresh, s.clock, s.timersAfter at_ e⟩ i
      (watch u.store (fresh.map (·.row.id)) c₁) := by
  by_cases hown : ∃ k, e = .beatLands i k
  · rcases hown with ⟨k, rfl⟩
    exact alive_landed hF hact hok hc hadv hlive h
  · exact alive_unbeaten hF hact hmade htrail (fun k he => hown ⟨k, he⟩) hc hadv hlive h

theorem alive_send {s : Clocked V} {j : Nat} {moment : Instant} {since : ℚ} {u : Fleet V}
    {fresh : List (Claim V)} (hF : Fleet.Fenced team s.fleet)
    (hact : s.fleet.act team (.push j moment) = some (u, fresh)) (hmicro : moment.micro = ⌊s.clock⌋)
    {d : Claim V} (hd : s.fleet.claims[j]? = some d) (htimer : s.timers j = .resting since)
    (hrested : since + (team d.worker).lease / 3 ≤ s.clock) {i : Nat} {c c₁ : Claim V}
    (hc : s.fleet.claims[i]? = some c) (hadv : Fleet.Advance team s.fleet (.push j moment) i c c₁)
    (hlive : c₁.live) (h : Alive team s i c) :
    Alive team { s.setTimer j (.pushing since s.clock false) with fleet := u.observe fresh } i
      (watch u.store (fresh.map (·.row.id)) c₁) := by
  have hsame := hadv.same
  obtain ⟨row, lease, heard, hrow, hlease, hlmicro, hcovered⟩ := h.leased
  obtain ⟨hkept, hfresh⟩ := hF.live_kept hact hc hadv hlive h.holds hrow
    (fun d => by rintro ⟨_, _, _, he, -⟩; cases he) (fun _ _ he => by cases he)
    (fun k he => by cases he)
  obtain ⟨row', hrow', hrunning, -⟩ := hF.running_of_holds (List.mem_of_getElem? hc) h.holds
  obtain rfl := Option.some.inj (hrow.symm.trans hrow')
  have hholds : (watch u.store (fresh.map (·.row.id)) c₁).holds = true := by
    refine watch_holds.2 ⟨hsame.holds.trans h.holds, ?_, ?_⟩
    · rw [hsame.row]
      exact ⟨row, hkept, hrunning⟩
    · rw [hsame.row]
      simpa using hfresh
  by_cases hij : i = j
  · subst hij
    obtain rfl := Option.some.inj (hc.symm.trans hd)
    have hpushed : c₁.beats = c.beats ++ [moment] := by
      cases hadv with
      | pushed m hk =>
          cases hk
          rfl
      | kept hk => simp [Event.subject] at hk
      | beat _ hk => cases hk
      | moved _ _ hk => cases hk
      | landed _ hk => cases hk
    have hafter : Function.update s.timers i (.pushing since s.clock false) i =
        .pushing since s.clock false := Function.update_self ..
    refine ⟨hholds, ?_, ?_, ?_⟩
    · dsimp only [setTimer]
      rw [hafter]
      simpa [htimer, hsame.worker, Timer.deadline] using h.inTime
    · have hflight : c.beats = [] := by simpa [htimer, Timer.inFlight] using h.beats
      dsimp only [setTimer]
      rw [hafter]
      simp [watch, hpushed, hflight, hmicro, Timer.inFlight]
    · dsimp only [setTimer]
      rw [hafter, watch_row, watch_worker, hsame.row, hsame.worker]
      rw [htimer] at hcovered
      exact ⟨row, lease, heard, hkept, hlease, hlmicro, hcovered, hrested⟩
  · have hother : Function.update s.timers j (.pushing since s.clock false) i = s.timers i :=
      Function.update_of_ne hij ..
    have hbeats : c₁.beats = c.beats := hadv.beats (fun k he => by cases he)
      (fun m he => by cases he; exact hij rfl)
    refine ⟨hholds, ?_, ?_, ?_⟩
    · dsimp only [setTimer]
      rw [hother, watch_worker, hsame.worker]
      exact h.inTime
    · dsimp only [setTimer]
      rw [hother]
      simpa [watch, hbeats] using h.beats
    · dsimp only [setTimer]
      rw [hother, watch_row, watch_worker, hsame.row, hsame.worker]
      exact ⟨row, lease, heard, hkept, hlease, hlmicro, hcovered⟩

theorem alive_step {s t : Clocked V} {tick : Tick V} (hF : Fleet.Fenced team s.fleet)
    (hA : ∀ i c, s.fleet.claims[i]? = some c → c.live → Alive team s i c)
    (hok : Timely team s tick) (htrail : Untrailed team s tick)
    (h : s.step team tick = some t) {i : Nat} {c : Claim V}
    (hc : t.fleet.claims[i]? = some c) (hlive : c.live) : Alive team t i c := by
  cases tick with
  | pass span =>
      simp only [step] at h
      split at h <;> cases h
      obtain ⟨hholds, -, hbeats, hleased⟩ := hA i c hc hlive
      exact ⟨hholds, hok (c, i) (List.mem_zipIdx_iff_getElem?.mpr hc) hlive, hbeats, hleased⟩
  | hear j =>
      simp only [step] at h
      split at h <;> cases h
      rename_i made hunheard
      have halive := hA i c hc hlive
      have hpos : (0 : ℚ) < (team c.worker).lease := by exact_mod_cast (team c.worker).leased
      refine halive.setTimer fun hij => ?_
      subst hij
      have hin := halive.inTime
      rw [hunheard] at hin ⊢
      simp only [Timer.deadline] at hin ⊢
      refine ⟨by linarith, rfl, fun heard hcovered => ?_⟩
      simp only [Timer.Covered] at hcovered ⊢
      linarith
  | send j moment =>
      simp only [step] at h
      split at h
      · rename_i d since hd htimer
        split at h
        · rename_i hready
          obtain ⟨fleet, hfleet, rfl⟩ := Option.map_eq_some_iff.mp h
          obtain ⟨u, fresh, hact, rfl⟩ := (Fleet.step_eq_some team).1 hfleet
          rcases Fleet.step_claim team hact hc with ⟨c₀, c₁, hc₀, hadv, rfl⟩ | ⟨-, hf⟩
          · exact alive_send hF hact hready.2 hd htimer hready.1 hc₀ hadv hlive
              (hA i c₀ hc₀ (hadv.live hlive))
          · obtain ⟨_, _, _, _, he, -⟩ := Fleet.Fenced.fresh_spec hact (List.mem_of_getElem? hf)
            cases he
        · cases h
      · cases h
  | answer j =>
      simp only [step] at h
      split at h <;> cases h
      rename_i since sent hlanded
      have halive := hA i c hc hlive
      have hpos : (0 : ℚ) < (team c.worker).lease := by exact_mod_cast (team c.worker).leased
      refine halive.setTimer fun hij => ?_
      subst hij
      have hin := halive.inTime
      rw [hlanded] at hin ⊢
      simp only [Timer.deadline] at hin ⊢
      refine ⟨by linarith, rfl, fun heard hcovered => ?_⟩
      simp only [Timer.Covered] at hcovered ⊢
      linarith
  | act at_ e =>
      simp only [step] at h
      split at h
      · rename_i hmade
        obtain ⟨fleet, hfleet, rfl⟩ := Option.map_eq_some_iff.mp h
        obtain ⟨u, fresh, hact, rfl⟩ := (Fleet.step_eq_some team).1 hfleet
        rcases Fleet.step_claim team hact hc with ⟨c₀, c₁, hc₀, hadv, rfl⟩ | ⟨hj, hf⟩
        · exact alive_act hF hact hmade hok htrail hc₀ hadv hlive (hA i c₀ hc₀ (hadv.live hlive))
        · exact alive_fresh hact hmade hok hj (List.mem_of_getElem? hf) hlive
      · cases h

variable (team)

/-- In every run that is timely and in which no beat trails a release, a claim whose attempt is
still going holds its run: no pass of any worker finds its lease run out, and the ending it asks
is taken, whenever it gets to the store. -/
theorem live_claim_keeps_run {clock : ℚ} {s : Clocked V}
    (h : Reach (step team) (fun s tick => Timely team s tick ∧ Untrailed team s tick)
      (start clock) s)
    {i : Nat} {c : Claim V} (hc : s.fleet.claims[i]? = some c) (hlive : c.live) :
    c.holds = true ∧
    (∀ moment : Instant, moment.micro ≤ ⌊s.clock⌋ →
      c.row.id ∉ (s.fleet.store.abandoned moment).map (·.id)) ∧
    (∀ ending, c.phase = .asked ending → s.fleet.landing team (.lands i) = some (c, true)) := by
  have hF := Fleet.reach_fenced team (reach_fleet h)
  have hA : ∀ i c, s.fleet.claims[i]? = some c → c.live → Alive team s i c := by
    refine h.invariant (I := fun s => ∀ i c, s.fleet.claims[i]? = some c → c.live →
      Alive team s i c) (by simp [start, Fleet.start]) ?_
    intro s t tick hs hA hok hstep i c hc hlive
    exact alive_step (Fleet.reach_fenced team (reach_fleet hs)) hA hok.1 hok.2 hstep hc hlive
  have halive := hA i c hc hlive
  refine ⟨halive.holds, fun moment hmoment hmem => ?_, fun ending hasked => ?_⟩
  · obtain ⟨row, lease, _, hrow, hlease, -⟩ := halive.leased
    obtain ⟨-, lease', hlease', hexpired⟩ := MemoryStore.abandoned_of_id hrow hmem
    exact halive.not_expired hrow hlease' hmoment hexpired
  · have htaken : (Fleet.end_ team s.fleet.store c ending).1 = true :=
      Fleet.ending_taken.2 (hF.holder c (List.mem_of_getElem? hc) halive.holds)
    simp only [Fleet.landing, hc, hasked]
    rw [htaken]

/-! ## A beat trailing a release, on the clock -/

/-- A task whose timeout is fifteen microseconds. -/
def hurried : Task := { Fleet.remote with timeout := some (15 / 1000000) }

def hurrying : Worker :=
  { Fleet.undeclared with
    lease := 24
    tasks := [hurried]
    leased := by decide
    leaseWaited := by decide }

/-- On a lease of twenty-four: a beat sent at the eighth instant is on its way as its attempt is
handed back at the fifteenth, for a thread that never came free. The same worker claims the run
again there and then, and the beat lands at the sixteenth, in time. The second claim is answered
within its third, enters its handler, and has its first beat on its way when a pass asks. -/
def overtaken : List (Tick Unit) :=
  [.act 0 (.add hurried .epoch .epoch () none none), .act 0 (.claim 0 1 .epoch true), .hear 0,
   .act 0 (.move 0 (.call ⟨.epoch, .epoch, "", ""⟩)),
   .pass 8, .send 0 ⟨8, by decide, by decide⟩,
   .pass 7, .act 15 (.move 0 (.timeout ⟨⟨15, by decide, by decide⟩, ⟨15, by decide, by decide⟩,
     "", "WorkNeverStarted"⟩)), .act 15 (.lands 0),
   .act 15 (.claim 0 1 ⟨15, by decide, by decide⟩ true),
   .pass 1, .act 16 (.beatLands 0 0),
   .pass 7, .hear 1, .act 23 (.move 1 (.call ⟨⟨23, by decide, by decide⟩,
     ⟨23, by decide, by decide⟩, "", ""⟩)), .act 23 (.move 1 .pick),
   .pass 8, .send 1 ⟨31, by decide, by decide⟩,
   .pass 2, .act 33 (.reclaim ⟨33, by decide, by decide⟩)]

/-- Everything was timely, the second claim is inside its handler, and a pass took its run back:
with no attempt left, it failed. -/
theorem live_claim_lost :
    ∃ (s : Clocked Unit) (c : Claim Unit),
      Reach (step fun _ => hurrying) (Timely fun _ => hurrying) (start 0) s ∧
      s.fleet.claims[1]? = some c ∧ c.live ∧ c.work = .entered ∧ c.holds = false ∧
      (s.fleet.store.get 1).map (·.status) = some .failed := by
  have hmeets : Meets (step fun _ => hurrying) (Timely fun _ => hurrying) (start 0) overtaken := by
    decide +kernel
  have hlost : (runAll (step fun _ => hurrying) (start 0) overtaken).any (fun s =>
      s.fleet.claims[1]?.any (fun c => c.live && c.work = .entered && !c.holds) &&
        (s.fleet.store.get 1).map (·.status) = some .failed) = true := by decide +kernel
  obtain ⟨s, hs, hlost⟩ := (Option.any_eq_true _ _).mp hlost
  simp only [Bool.and_eq_true, decide_eq_true_eq] at hlost
  obtain ⟨c, hc, hheld⟩ := (Option.any_eq_true _ _).mp hlost.1
  simp only [Bool.and_eq_true, decide_eq_true_eq, Bool.not_eq_true'] at hheld
  exact ⟨s, c, .of_meets .start hmeets hs, hc, hheld.1.1, hheld.1.2, hheld.2, hlost.2⟩

/-- The same worker with its first beat on its way, a third of the lease into its handler. -/
def underway : List (Tick Unit) :=
  [.act 0 (.add hurried .epoch .epoch () none none), .act 0 (.claim 0 1 .epoch true), .hear 0,
   .act 0 (.move 0 (.call ⟨.epoch, .epoch, "", ""⟩)), .act 0 (.move 0 .pick),
   .pass 8, .send 0 ⟨8, by decide, by decide⟩]

theorem live_claim_keeps_run_underway :
    ∃ (s : Clocked Unit) (c : Claim Unit),
      Reach (step fun _ => hurrying)
        (fun s tick => Timely (fun _ => hurrying) s tick ∧ Untrailed (fun _ => hurrying) s tick)
        (start 0) s ∧
      s.fleet.claims[0]? = some c ∧ c.live ∧ c.work = .entered ∧ c.holds = true := by
  have hmeets : Meets (step fun _ => hurrying) (Timely fun _ => hurrying) (start 0) underway := by
    decide +kernel
  have hgoing : (runAll (step fun _ => hurrying) (start 0) underway).any (fun s =>
      s.fleet.claims[0]?.any (fun c => c.live && c.work = .entered)) = true := by decide +kernel
  obtain ⟨s, hs, hgoing⟩ := (Option.any_eq_true _ _).mp hgoing
  obtain ⟨c, hc, hgoing⟩ := (Option.any_eq_true _ _).mp hgoing
  simp only [Bool.and_eq_true, decide_eq_true_eq] at hgoing
  have hreach : Reach (step fun _ => hurrying)
      (fun s tick => Timely (fun _ => hurrying) s tick ∧ Untrailed (fun _ => hurrying) s tick)
      (start 0) s := by
    refine .of_meets .start (hmeets.and ?_) hs
    rintro tick htick t at_ e c rfl ⟨i, k, moment, rfl, -⟩
    simp [underway] at htick
  exact ⟨s, c, hreach, hc, hgoing.1, hgoing.2, (live_claim_keeps_run _ hreach hc hgoing.1).1⟩

end Clocked

end Queuefy
