import Queuefy.Fleet.Turn

/-! # Who holds a run

A claim mints a number by adding one to what the run has spent, and a release takes one off
again, so a number alone does not name a claim. What does is the floor of a claim: the lowest
number the run can still come back to without it. A run never falls under the floor of a claim
that lost it, and never runs at one, which is what refuses every late call but the beat of a
claim that was handed back.
-/

namespace Queuefy

variable {V : Type}

namespace Claim

/-- The number a claim leaves behind: its own, or the one before for a claim handed back. -/
def floor (c : Claim V) : Int := c.row.attempts - if c.released then 1 else 0

theorem floor_le (c : Claim V) : c.floor ≤ c.row.attempts := by
  unfold floor
  split <;> omega

theorem floor_of_not_released {c : Claim V} (h : c.released = false) :
    c.floor = c.row.attempts := by
  simp [floor, h]

theorem floor_of_released {c : Claim V} (h : c.released = true) :
    c.floor = c.row.attempts - 1 := by
  simp [floor, h]

theorem not_released_of_asked {c : Claim V} {e : Ending V} (h : c.phase = .asked e) :
    c.released = false := by
  simp [released, h]

theorem released_iff {c : Claim V} :
    c.released = true ↔
      ∃ dueAt error errorType, c.phase = .answered (.release dueAt error errorType) true := by
  unfold released
  split
  · rename_i dueAt error errorType hphase
    simp [hphase]
  · rename_i hphase
    simp only [reduceCtorEq, false_iff, not_exists]
    exact fun dueAt error errorType heq => hphase dueAt error errorType heq

end Claim

/-- The run has moved on from a claim: it is not under the claim's floor, and not running at it. -/
def MovedOn (c : Claim V) (run : Run V) : Prop :=
  c.floor ≤ run.attempts ∧ (run.status = .running → c.floor < run.attempts)

theorem applied_status (e : Ending V) (run : Run V) : (e.applied run).status ≠ .running := by
  cases e <;> simp [Ending.applied, MemoryStore.completed, MemoryStore.failed,
    MemoryStore.requeued]

theorem applied_attempts (e : Ending V) (run : Run V) :
    (e.applied run).attempts = run.attempts - if e.spends then 0 else 1 := by
  cases e <;> simp [Ending.applied, MemoryStore.completed, MemoryStore.failed,
    MemoryStore.requeued, Ending.spends, sub_eq_add_neg]

theorem takenBack_status (moment : Instant) (run : Run V) :
    (MemoryStore.takenBack moment run).status ≠ .running := by
  unfold MemoryStore.takenBack
  dsimp only
  split <;> simp

theorem takenBack_attempts (moment : Instant) (run : Run V) :
    (MemoryStore.takenBack moment run).attempts = run.attempts := by
  unfold MemoryStore.takenBack
  dsimp only
  split <;> rfl

@[simp] theorem watch_row (store : MemoryStore V) (granted : List Nat) (c : Claim V) :
    (watch store granted c).row = c.row := rfl

@[simp] theorem watch_worker (store : MemoryStore V) (granted : List Nat) (c : Claim V) :
    (watch store granted c).worker = c.worker := rfl

@[simp] theorem watch_floor (store : MemoryStore V) (granted : List Nat) (c : Claim V) :
    (watch store granted c).floor = c.floor := rfl

theorem watch_holds {store : MemoryStore V} {granted : List Nat} {c : Claim V} :
    (watch store granted c).holds = true ↔
      c.holds = true ∧ (∃ row, store.get c.row.id = some row ∧ row.status = .running) ∧
        c.row.id ∉ granted := by
  simp [watch, Option.any_eq_true, and_assoc]

namespace Fleet

variable (team : Nat → Worker)

/-- A claim advanced is the same claim of the same run. Only a release the store took lowers
what it leaves behind. -/
structure SameClaim (c c₁ : Claim V) : Prop where
  row : c₁.row = c.row
  worker : c₁.worker = c.worker
  holds : c₁.holds = c.holds
  floor : c₁.floor ≤ c.floor
  sound : c.toAttempt.Sound → c₁.toAttempt.Sound

theorem sound_of_answered {c : Claim V} {ending : Ending V} (taken : Bool)
    (hasked : c.phase = .asked ending) (h : c.toAttempt.Sound) :
    ({ c with phase := .answered ending taken } : Claim V).toAttempt.Sound := by
  refine ⟨by simp, by simp, fun e he => ?_, fun e he => ?_, fun dueAt error errorType he => ?_⟩
  · exact h.spent e (by simpa [hasked, Phase.ending] using he)
  · exact h.handedBack e (by simpa [hasked, Phase.ending] using he)
  · exact h.retried dueAt error errorType (by simpa [hasked, Phase.ending] using he)

theorem released_of_move {handler : Option Handler} {pool : Bool} {c : Claim V} {a : Attempt V}
    {m : Move V} (hm : c.toAttempt.move handler pool m = some a) :
    ({ c with toAttempt := a } : Claim V).released = c.released := by
  obtain ⟨-, hphase⟩ := Attempt.move_spec hm
  rw [Bool.eq_iff_iff, Claim.released_iff, Claim.released_iff]
  exact exists_congr fun _ => exists_congr fun _ => exists_congr fun _ => hphase _ _

theorem Advance.same {s : Fleet V} {e : Event V} {i : Nat} {c c₁ : Claim V}
    (h : Advance team s e i c c₁) : SameClaim c c₁ := by
  cases h with
  | kept => exact ⟨rfl, rfl, rfl, le_rfl, id⟩
  | pushed => exact ⟨rfl, rfl, rfl, le_rfl, id⟩
  | beat => exact ⟨rfl, rfl, rfl, le_rfl, id⟩
  | moved m a he hm =>
      obtain ⟨hrow, -⟩ := Attempt.move_spec hm
      refine ⟨hrow, rfl, rfl, le_of_eq ?_, fun hs => hs.move hm⟩
      simp [Claim.floor, released_of_move hm, hrow]
  | landed ending he hasked =>
      refine ⟨rfl, rfl, rfl, ?_, sound_of_answered _ hasked⟩
      rw [Claim.floor_of_not_released (Claim.not_released_of_asked hasked)]
      exact Claim.floor_le _

/-- What holds of the claims of every reachable fleet. -/
structure Fenced (s : Fleet V) : Prop where
  known : ∀ c ∈ s.claims, c.row.id ≤ s.store.sequence
  sound : ∀ c ∈ s.claims, c.toAttempt.Sound
  /-- A claim that holds is the one the store answers to. -/
  holder : ∀ c ∈ s.claims, c.holds = true →
    ∃ row, s.store.held c.row.id (team c.worker).name c.row.attempts = some row
  /-- A claim handed back does not hold. -/
  handedBack : ∀ c ∈ s.claims, c.released = true → c.holds = false
  /-- Every running run has a claim that holds it. -/
  owned : ∀ id row, s.store.get id = some row → row.status = .running →
    ∃ c ∈ s.claims, c.holds = true ∧ c.row.id = id
  /-- A run has moved on from every claim that does not hold it. -/
  movedOn : ∀ c ∈ s.claims, c.holds = false →
    ∀ row, s.store.get c.row.id = some row → MovedOn c row.toRun
  /-- Only the last claim of a run may hold it, and it runs above what the others left. -/
  latest : ∀ (i j : Nat) (c d : Claim V), i < j → s.claims[i]? = some c → s.claims[j]? = some d →
    c.row.id = d.row.id → c.holds = false ∧ c.floor < d.row.attempts

theorem fenced_start : Fenced team (start : Fleet V) := by
  constructor <;> simp [start]

namespace Fenced

variable {team} {s u : Fleet V} {e : Event V} {fresh : List (Claim V)}

theorem eq_of_holds (hF : Fenced team s) {i j : Nat} {c d : Claim V}
    (hc : s.claims[i]? = some c) (hd : s.claims[j]? = some d) (hch : c.holds = true)
    (hdh : d.holds = true) (hid : c.row.id = d.row.id) : i = j := by
  rcases Nat.lt_trichotomy i j with hlt | heq | hgt
  · simp [(hF.latest i j c d hlt hc hd hid).1] at hch
  · exact heq
  · simp [(hF.latest j i d c hgt hd hc hid.symm).1] at hdh

/-- The store answers a claim that was not handed back only while that claim holds. -/
theorem holds_of_held (hF : Fenced team s) {c : Claim V} (hc : c ∈ s.claims)
    (hreleased : c.released = false) {row : Row Nat V}
    (hheld : s.store.held c.row.id (team c.worker).name c.row.attempts = some row) :
    c.holds = true := by
  by_contra hlost
  obtain ⟨hget, -, hrunning, hattempts⟩ := MemoryStore.held_eq_some.1 hheld
  have habove := (hF.movedOn c hc (by simpa using hlost) row hget).2 hrunning
  rw [Claim.floor_of_not_released hreleased] at habove
  omega

theorem running_of_holds (hF : Fenced team s) {c : Claim V} (hc : c ∈ s.claims)
    (hholds : c.holds = true) :
    ∃ row, s.store.get c.row.id = some row ∧ row.status = .running ∧
      row.worker = some (team c.worker).name ∧ row.attempts = c.row.attempts := by
  obtain ⟨row, hheld⟩ := hF.holder c hc hholds
  obtain ⟨hget, hworker, hrunning, hattempts⟩ := MemoryStore.held_eq_some.1 hheld
  exact ⟨row, hget, hrunning, hworker, hattempts⟩

/-- A run that was not running had moved on from every claim. -/
theorem movedOn_of_not_running (hF : Fenced team s) {c : Claim V} (hc : c ∈ s.claims)
    {row : Row Nat V} (hrow : s.store.get c.row.id = some row) (hstatus : row.status ≠ .running) :
    c.holds = false ∧ MovedOn c row.toRun := by
  have hlost : c.holds = false := by
    by_contra hholds
    obtain ⟨row', hget, hrunning, -⟩ := hF.running_of_holds hc (by simpa using hholds)
    rw [hrow, Option.some.injEq] at hget
    exact hstatus (hget ▸ hrunning)
  exact ⟨hlost, hF.movedOn c hc hlost row hrow⟩

/-- A run that left `running` without losing its number has moved on from every claim. -/
theorem movedOn_of_left (hF : Fenced team s) {c : Claim V} (hc : c ∈ s.claims)
    {row : Row Nat V} (hrow : s.store.get c.row.id = some row) {run' : Run V}
    (hstatus : run'.status ≠ .running) (hattempts : run'.attempts = row.attempts) :
    MovedOn c run' := by
  refine ⟨?_, fun hrun => absurd hrun hstatus⟩
  rw [hattempts]
  by_cases hholds : c.holds = true
  · obtain ⟨row', hget, -, -, hnumber⟩ := hF.running_of_holds hc hholds
    rw [hrow, Option.some.injEq] at hget
    rw [hget, hnumber]
    exact c.floor_le
  · exact (hF.movedOn c hc (by simpa using hholds) row hrow).1

/-- An ending moves the run on from every claim: the one it was asked under gives its own number
back when it takes one off the run, and no other claim was at that number. -/
theorem movedOn_of_ended (hF : Fenced team s) {i j : Nat} {c c₁ d : Claim V} {ending : Ending V}
    {row : Row Nat V} (hc : s.claims[i]? = some c) (hd : s.claims[j]? = some d)
    (hadv : Advance team s (.lands j) i c c₁) (hasked : d.phase = .asked ending)
    (hid : d.row.id = c.row.id)
    (hheld : s.store.held c.row.id (team d.worker).name d.row.attempts = some row) :
    MovedOn c₁ (ending.applied row.toRun) := by
  have hcmem := List.mem_of_getElem? hc
  obtain ⟨hrow, -, hrunning, hnumber⟩ := MemoryStore.held_eq_some.1 hheld
  have hdheld := hF.holds_of_held (List.mem_of_getElem? hd) (Claim.not_released_of_asked hasked)
    (hid.symm ▸ hheld)
  have hfloor := hadv.same.floor
  refine ⟨?_, fun hrun => absurd hrun (applied_status _ _)⟩
  rw [applied_attempts]
  by_cases hij : i = j
  · subst hij
    obtain rfl := Option.some.inj (hc.symm.trans hd)
    have hlanded : c₁ = { c with phase := .answered ending (end_ team s.store c ending).1 } := by
      cases hadv with
      | kept he => simp [Event.subject] at he
      | landed ending' he hasked' =>
          rw [hasked, Phase.asked.injEq] at hasked'
          rw [hasked']
      | _ => contradiction
    have htaken : (end_ team s.store c ending).1 = true := by
      rcases end_cases team s.store c ending with ⟨hnone, -⟩ | ⟨-, -, heq⟩
      · rw [hnone] at hheld
        cases hheld
      · rw [heq]
    cases ending with
    | release dueAt error errorType =>
        have hreleased : c₁.released = true := by
          rw [Claim.released_iff, hlanded, htaken]
          exact ⟨dueAt, error, errorType, rfl⟩
        rw [Claim.floor_of_released hreleased, hlanded, ← hnumber]
        simp [Ending.spends]
    | _ =>
        have := c.floor_le
        simp only [Ending.spends, if_true]
        omega
  · have hlost : c.holds = false := by
      by_contra hholds
      exact hij (hF.eq_of_holds hc hd (by simpa using hholds) hdheld hid.symm)
    have habove := (hF.movedOn c hcmem hlost row hrow).2 hrunning
    split <;> omega

theorem movedOn_step (hF : Fenced team s) (h : s.act team e = some (u, fresh)) {i : Nat}
    {c c₁ : Claim V} (hc : s.claims[i]? = some c) (hadv : Advance team s e i c c₁)
    (hlost : (watch u.store (fresh.map (·.row.id)) c₁).holds = false) {row' : Row Nat V}
    (hrow' : u.store.get c.row.id = some row') : MovedOn c₁ row'.toRun := by
  have hcmem := List.mem_of_getElem? hc
  have hsame := hadv.same
  have hlower : ∀ run : Run V, MovedOn c run → MovedOn c₁ run := fun run hm =>
    ⟨hsame.floor.trans hm.1, fun hrun => lt_of_le_of_lt hsame.floor (hm.2 hrun)⟩
  have hturn := act_turn team h c.row.id
  rw [hrow'] at hturn
  have hwas : ∀ row : Row Nat V, row.status = .running → u.store.get c.row.id = some row →
      (∀ d ∈ fresh, d.row.id ≠ c.row.id) → c.holds = false := by
    intro row hrunning hget hfresh
    by_contra hholds
    refine absurd (watch_holds.2 ⟨?_, ?_, ?_⟩) (by rw [hlost]; decide)
    · rw [hsame.holds]
      simpa using hholds
    · rw [hsame.row]
      exact ⟨row, hget, hrunning⟩
    · rw [hsame.row]
      simpa using hfresh
  generalize hbefore : s.store.get c.row.id = before at hturn
  cases hturn with
  | kept row hfresh =>
      by_cases hrunning : row'.status = .running
      · exact hlower _ (hF.movedOn c hcmem (hwas row' hrunning hrow' hfresh) row' hbefore)
      · exact hlower _ (hF.movedOn_of_not_running hcmem hbefore hrunning).2
  | born task dueAt createdAt payload key priority he hid =>
      have := hF.known c hcmem
      omega
  | granted row _ worker limit moment heard he hget hchosen hid hrun =>
      have hpending := (MemoryStore.mem_chosen hchosen).2.1
      obtain ⟨-, hm⟩ := hF.movedOn_of_not_running hcmem hget (by rw [hpending]; decide)
      have hattempts := hrun.running.2.2.1
      have := hlower _ hm
      exact ⟨by have := this.1; omega, fun _ => by have := this.1; omega⟩
  | beaten row j k d moment leaseEnd he hd hbeat hid hheld hlease hfresh =>
      obtain ⟨hget, -, hrunning, -⟩ := MemoryStore.held_eq_some.1 hheld
      exact hlower row.toRun (hF.movedOn c hcmem
        (hwas { row with toRun := MemoryStore.beaten leaseEnd row.toRun } hrunning hrow'
          (by simp [hfresh])) row hget)
  | ended row j d ending he hd hasked hid hheld hfresh =>
      subst he
      exact hF.movedOn_of_ended hc hd hadv hasked hid hheld
  | takenBack row moment lease he hrunning hlease hexpired hfresh =>
      exact hlower _ (hF.movedOn_of_left hcmem hbefore (takenBack_status moment row.toRun)
        (takenBack_attempts moment row.toRun))
  | calledOff row moment he hpending hfresh =>
      obtain ⟨-, hm⟩ := hF.movedOn_of_not_running hcmem hbefore (by rw [hpending]; decide)
      exact hlower _ ⟨hm.1, fun hrun => by cases hrun⟩

/-! ## Every step keeps the claims fenced -/

/-- A claim that still holds after a step held before it, and nothing but a beat of its own turned
its run in between. -/
theorem holder_step (hF : Fenced team s) (h : s.act team e = some (u, fresh)) {i : Nat}
    {c c₁ : Claim V} (hc : s.claims[i]? = some c) (hadv : Advance team s e i c c₁)
    (hholds : (watch u.store (fresh.map (·.row.id)) c₁).holds = true) :
    ∃ row, u.store.held c₁.row.id (team c₁.worker).name c₁.row.attempts = some row := by
  obtain ⟨hheld₁, ⟨row', hrow', hrunning'⟩, hfresh'⟩ := watch_holds.1 hholds
  have hsame := hadv.same
  rw [hsame.holds] at hheld₁
  rw [hsame.row] at hrow' hfresh' ⊢
  rw [hsame.worker]
  obtain ⟨row, hrow, hrunning, hworker, hattempts⟩ :=
    hF.running_of_holds (List.mem_of_getElem? hc) hheld₁
  refine ⟨row', MemoryStore.held_eq_some.2 ⟨hrow', ?_⟩⟩
  have hturn := act_turn team h c.row.id
  rw [hrow, hrow'] at hturn
  cases hturn with
  | kept => exact ⟨hworker, hrunning, hattempts⟩
  | granted _ _ worker limit moment heard he hget hchosen hid hrun =>
      have := (MemoryStore.mem_chosen hchosen).2.1
      simp [hrunning] at this
  | beaten => exact ⟨hworker, hrunning, hattempts⟩
  | ended _ j d ending => exact absurd hrunning' (applied_status _ _)
  | takenBack => exact absurd hrunning' (takenBack_status _ _)
  | calledOff => cases hrunning'

/-- A fresh claim is a run that was pending, as the claim wrote it. -/
theorem fresh_spec (h : s.act team e = some (u, fresh)) {c : Claim V} (hc : c ∈ fresh) :
    ∃ (row : Row Nat V) (limit : Nat) (moment : Instant) (heard : Bool),
      e = .claim c.worker limit moment heard ∧
      s.store.get c.row.id = some row ∧ row.status = .pending ∧
      Granted (team c.worker) moment row.toRun c.row.toRun ∧
      u.store.get c.row.id = some c.row ∧
      ∃ heard', c = spawn c.worker heard' c.row ∧
        (heard' = true → heard = true ∧ (moment.plus (team c.worker).lease).isSome) := by
  rcases act_fresh team h with rfl | ⟨worker, limit, moment, heard, ids, f, rfl, rfl, hg⟩
  · simp at hc
  · obtain ⟨heard', hspawn, hnamed⟩ := hg.spawned c hc
    obtain ⟨row, hrow, hid⟩ := hg.chosen _ (hg.fresh_id c hc)
    obtain ⟨hget, hpending, -⟩ := MemoryStore.mem_chosen hrow
    rw [hid] at hget
    have hworker : c.worker = worker := by rw [hspawn]; rfl
    have hafter := hg.fresh_row c hc
    rw [MemoryStore.get_amend_mem hget (hg.fresh_id c hc), Option.some.injEq] at hafter
    have hrun : f row.toRun = c.row.toRun := congrArg Row.toRun hafter
    rw [hworker]
    refine ⟨row, limit, moment, heard, rfl, hget, hpending, ?_, hg.fresh_row c hc, heard',
      hspawn, hnamed⟩
    rw [← hrun]
    exact hg.granted row.toRun

theorem fresh_running (h : s.act team e = some (u, fresh)) {c : Claim V} (hc : c ∈ fresh) :
    c.released = false ∧ c.holds = true ∧ c.work = .idle ∧ c.toAttempt.Sound ∧
      u.store.held c.row.id (team c.worker).name c.row.attempts = some c.row := by
  obtain ⟨_, _, _, _, -, -, -, hgranted, hget, heard', hspawn, -⟩ := fresh_spec h hc
  obtain ⟨hrunning, hworker, -, -⟩ := hgranted.running
  refine ⟨?_, by rw [hspawn]; rfl, by rw [hspawn]; rfl, ?_,
    MemoryStore.held_eq_some.2 ⟨hget, hworker, hrunning, rfl⟩⟩
  · rw [hspawn]
    cases heard' <;> rfl
  · rw [hspawn]
    cases heard' <;> constructor <;> simp [spawn, Phase.ending]

/-- A run a claim granted was pending, one attempt below what it was granted at. -/
theorem fresh_pending (h : s.act team e = some (u, fresh)) {c : Claim V} (hc : c ∈ fresh) :
    ∃ row, s.store.get c.row.id = some row ∧ row.status = .pending ∧
      c.row.attempts = row.attempts + 1 ∧ c.row.maxAttempts = row.maxAttempts := by
  obtain ⟨row, _, _, _, -, hget, hpending, hgranted, -⟩ := fresh_spec h hc
  obtain ⟨-, -, hattempts, hmax⟩ := hgranted.running
  exact ⟨row, hget, hpending, hattempts, hmax⟩

theorem handedBack_step (hF : Fenced team s) (h : s.act team e = some (u, fresh)) {i : Nat}
    {c c₁ : Claim V} (hc : s.claims[i]? = some c) (hadv : Advance team s e i c c₁)
    (hreleased : c₁.released = true) :
    (watch u.store (fresh.map (·.row.id)) c₁).holds = false := by
  have hcmem := List.mem_of_getElem? hc
  by_contra hholds
  obtain ⟨hheld₁, ⟨row', hrow', hrunning'⟩, -⟩ := watch_holds.1 (by simpa using hholds)
  have hcholds : c.holds = true := hadv.same.holds ▸ hheld₁
  have hwas : c.released = false := by
    by_contra hback
    simp [hF.handedBack c hcmem (by simpa using hback)] at hcholds
  cases hadv with
  | kept => cases hwas.symm.trans hreleased
  | pushed => cases hwas.symm.trans hreleased
  | beat => cases hwas.symm.trans hreleased
  | moved m a he hm => simp [released_of_move hm, hwas] at hreleased
  | landed ending he hasked =>
      subst he
      simp only [act, hc, hasked, Option.some.injEq, Prod.mk.injEq] at h
      obtain ⟨rfl, -⟩ := h
      obtain ⟨dueAt, error, errorType, hphase⟩ := Claim.released_iff.1 hreleased
      rcases end_cases team s.store c ending with ⟨-, heq⟩ | ⟨row, hheld, heq⟩
      · simp [heq] at hphase
      · simp only [heq] at hrow'
        rw [MemoryStore.get_amend_mem (MemoryStore.held_eq_some.1 hheld).1
          (List.mem_singleton_self _), Option.some.injEq] at hrow'
        exact applied_status ending row.toRun (by rw [← hrow'] at hrunning'; exact hrunning')

theorem owned_step (hF : Fenced team s) (h : s.act team e = some (u, fresh)) {id : Nat}
    {row' : Row Nat V} (hrow' : u.store.get id = some row') (hrunning' : row'.status = .running) :
    ∃ c ∈ (u.observe fresh).claims, c.holds = true ∧ c.row.id = id := by
  have hstill : ∀ row, s.store.get id = some row → row.status = .running →
      (∀ d ∈ fresh, d.row.id ≠ id) →
        ∃ c ∈ (u.observe fresh).claims, c.holds = true ∧ c.row.id = id := by
    intro row hrow hrunning hfresh
    obtain ⟨c, hcmem, hholds, rfl⟩ := hF.owned id row hrow hrunning
    obtain ⟨i, hc⟩ := List.getElem?_of_mem hcmem
    obtain ⟨c₁, hadv, hc₁⟩ := claim_step team h hc
    refine ⟨_, List.mem_of_getElem? hc₁, watch_holds.2 ⟨?_, ?_, ?_⟩, hadv.same.row ▸ rfl⟩
    · exact hadv.same.holds ▸ hholds
    · rw [hadv.same.row]
      exact ⟨row', hrow', hrunning'⟩
    · rw [hadv.same.row]
      simpa using hfresh
  have hturn := act_turn team h id
  rw [hrow'] at hturn
  generalize hbefore : s.store.get id = before at hturn
  cases hturn with
  | kept row hfresh => exact hstill row' hbefore hrunning' hfresh
  | born => cases hrunning'
  | granted row _ worker limit moment heard he hget hchosen hid hrun =>
      rcases act_fresh team h with rfl | ⟨worker', limit', moment', heard', ids, f, -, rfl, hg⟩
      · subst he
        obtain ⟨ids, f, rfl, hg⟩ := claim_spec team h
        by_cases hin : id ∈ ids
        · obtain ⟨c, hc, -⟩ := hg.covered id hin
          cases hc
        · rw [MemoryStore.get_amend_not_mem hin, hget, Option.some.injEq] at hrow'
          have := (MemoryStore.mem_chosen hchosen).2.1
          simp [hrow', hrunning'] at this
      · by_cases hin : id ∈ ids
        · obtain ⟨c, hc, hcid⟩ := hg.covered id hin
          exact ⟨c, List.mem_append_right _ hc, (fresh_running h hc).2.1, hcid⟩
        · rw [MemoryStore.get_amend_not_mem hin, hget, Option.some.injEq] at hrow'
          have := (MemoryStore.mem_chosen hchosen).2.1
          simp [hrow', hrunning'] at this
  | beaten row j k d moment leaseEnd he hd hbeat hid hheld hlease hfresh =>
      obtain ⟨hget, -, hrunning, -⟩ := MemoryStore.held_eq_some.1 hheld
      exact hstill row hget hrunning (by simp [hfresh])
  | ended row j d ending => exact absurd hrunning' (applied_status _ _)
  | takenBack => exact absurd hrunning' (takenBack_status _ _)
  | calledOff => cases hrunning'

theorem latest_step (hF : Fenced team s) (h : s.act team e = some (u, fresh)) {i j : Nat}
    {c d : Claim V} (hij : i < j) (hc : (u.observe fresh).claims[i]? = some c)
    (hd : (u.observe fresh).claims[j]? = some d) (hid : c.row.id = d.row.id) :
    c.holds = false ∧ c.floor < d.row.attempts := by
  rcases step_claim team h hc with ⟨c₀, c₁, hc₀, hcadv, rfl⟩ | ⟨hci, hcf⟩
  · have hcrow : c₁.row = c₀.row := hcadv.same.row
    simp only [watch_row, hcrow] at hid
    rw [watch_floor]
    have hfloor := hcadv.same.floor
    rcases step_claim team h hd with ⟨d₀, d₁, hd₀, hdadv, rfl⟩ | ⟨-, hdf⟩
    · simp only [watch_row, hdadv.same.row] at hid ⊢
      obtain ⟨hlost, habove⟩ := hF.latest i j c₀ d₀ hij hc₀ hd₀ hid
      refine ⟨?_, by omega⟩
      by_contra hholds
      have := (watch_holds.1 (by simpa using hholds)).1
      rw [hcadv.same.holds, hlost] at this
      cases this
    · have hdmem := List.mem_of_getElem? hdf
      obtain ⟨row, hrow, hpending, hattempts, -⟩ := fresh_pending h hdmem
      obtain ⟨hlost, hm⟩ := hF.movedOn_of_not_running (List.mem_of_getElem? hc₀) (hid ▸ hrow)
        (by rw [hpending]; decide)
      refine ⟨?_, by have := hm.1; omega⟩
      by_contra hholds
      have := (watch_holds.1 (by simpa using hholds)).1
      rw [hcadv.same.holds, hlost] at this
      cases this
  · -- two fresh claims are of different runs
    rcases step_claim team h hd with ⟨d₀, d₁, hd₀, -, -⟩ | ⟨hdj, hdf⟩
    · have := (List.getElem?_eq_some_iff.mp hd₀).1
      omega
    · rcases act_fresh team h with rfl | ⟨_, _, _, _, _, _, -, -, hg⟩
      · simp at hcf
      · have hlt : i - s.claims.length < (fresh.map (·.row.id)).length := by
          rw [List.length_map]
          exact (List.getElem?_eq_some_iff.mp hcf).1
        have heq : (fresh.map (·.row.id))[i - s.claims.length]? =
            (fresh.map (·.row.id))[j - s.claims.length]? := by
          rw [List.getElem?_map, List.getElem?_map, hcf, hdf, Option.map_some, Option.map_some, hid]
        have := (List.getElem?_inj hlt hg.nodup).1 heq
        omega

theorem step_fenced (hF : Fenced team s) {t : Fleet V} (h : s.step team e = some t) :
    Fenced team t := by
  obtain ⟨u, fresh, hact, rfl⟩ := (step_eq_some team).1 h
  have hclaims : ∀ c ∈ (u.observe fresh).claims,
      (∃ (i : Nat) (c₀ c₁ : Claim V), s.claims[i]? = some c₀ ∧ Advance team s e i c₀ c₁ ∧
        c = watch u.store (fresh.map (·.row.id)) c₁) ∨ c ∈ fresh := by
    intro c hcmem
    obtain ⟨i, hc⟩ := List.getElem?_of_mem hcmem
    rcases step_claim team hact hc with ⟨c₀, c₁, hc₀, hadv, heq⟩ | ⟨-, hf⟩
    · exact Or.inl ⟨i, c₀, c₁, hc₀, hadv, heq⟩
    · exact Or.inr (List.mem_of_getElem? hf)
  refine ⟨?_, ?_, ?_, ?_, ?_, ?_, ?_⟩
  · intro c hcmem
    rcases hclaims c hcmem with ⟨i, c₀, c₁, hc₀, hadv, rfl⟩ | hf
    · rw [watch_row, hadv.same.row]
      have hsequence := act_sequence team hact
      exact (hF.known c₀ (List.mem_of_getElem? hc₀)).trans hsequence
    · exact MemoryStore.get_le_sequence
        (MemoryStore.held_eq_some.1 (fresh_running hact hf).2.2.2.2).1
  · intro c hcmem
    rcases hclaims c hcmem with ⟨i, c₀, c₁, hc₀, hadv, rfl⟩ | hf
    · exact hadv.same.sound (hF.sound c₀ (List.mem_of_getElem? hc₀))
    · exact (fresh_running hact hf).2.2.2.1
  · intro c hcmem hholds
    rcases hclaims c hcmem with ⟨i, c₀, c₁, hc₀, hadv, rfl⟩ | hf
    · have hheld := hF.holder_step hact hc₀ hadv hholds
      exact hheld
    · exact ⟨c.row, (fresh_running hact hf).2.2.2.2⟩
  · intro c hcmem hreleased
    rcases hclaims c hcmem with ⟨i, c₀, c₁, hc₀, hadv, rfl⟩ | hf
    · exact hF.handedBack_step hact hc₀ hadv hreleased
    · simp [(fresh_running hact hf).1] at hreleased
  · intro id row hrow hrunning
    exact hF.owned_step hact hrow hrunning
  · intro c hcmem hlost row hrow
    rcases hclaims c hcmem with ⟨i, c₀, c₁, hc₀, hadv, rfl⟩ | hf
    · rw [watch_row, hadv.same.row] at hrow
      exact hF.movedOn_step hact hc₀ hadv hlost hrow
    · simp [(fresh_running hact hf).2.1] at hlost
  · intro i j c d hij hc hd hid
    exact hF.latest_step hact hij hc hd hid

end Fenced

/-- Every fleet reached is fenced, whatever its workers did. -/
theorem reach_fenced {ok : Fleet V → Event V → Prop} {s : Fleet V}
    (h : Reach (step team) ok start s) : Fenced team s :=
  h.invariant (fenced_start team) fun _ hF _ hstep => hF.step_fenced hstep

end Fleet

end Queuefy
