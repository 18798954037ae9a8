import Queuefy.Fleet.Late
import Queuefy.Store.ClaimOrder

/-! # How long a run waits

A claim takes what is due by priority, then by when it came due, then by its id. So what a claim
takes while it leaves a run it could have taken stands in front of that run, and a run that waits
is reached: by the time the claims that could have taken it had room for everything that was in
front of it and came in front of it since, it is taken.
-/

namespace Queuefy

variable {V : Type}

namespace Fleet

/-- This run waits, and a claim that could take both would take it before the other. -/
def InFront (row other : Row Nat V) : Prop :=
  other.status = .pending ∧ MemoryStore.claimKey other < MemoryStore.claimKey row

instance (row other : Row Nat V) : Decidable (InFront row other) :=
  inferInstanceAs (Decidable (_ ∧ _))

/-- The runs in front of a run. -/
def front (store : MemoryStore V) (row : Row Nat V) : List (Row Nat V) :=
  store.runs.filter fun other => InFront row other

/-- The runs in front of a run after a step that were waiting before it. -/
def stayers (before after : MemoryStore V) (row : Row Nat V) : List (Row Nat V) :=
  (front after row).filter fun other => (before.get other.id).any (·.status = .pending)

/-- The runs a step puts in front of a run: written, put back or taken back just now. -/
def comers (before after : MemoryStore V) (row : Row Nat V) : List (Row Nat V) :=
  (front after row).filter fun other => ¬ (before.get other.id).any (·.status = .pending)

variable (team : Nat → Worker)

/-- How many runs a step could have taken where it could have taken this one. A claim whose lease
names no instant takes one. -/
def offer (row : Row Nat V) : Event V → Nat
  | .claim worker limit moment _ =>
      if row.queue ∈ (team worker).queues ∧ row.dueAt ≤ moment then
        if (moment.plus (team worker).lease).isSome then limit else min limit 1
      else 0
  | _ => 0

end Fleet

/-- A fleet, how many runs its claims have offered to take where a certain run was one to take, and
how many came in front of that one. -/
structure Wait (V : Type) where
  fleet : Fleet V
  offered : Nat
  came : Nat

namespace Wait

open Fleet

variable (team : Nat → Worker) (row : Row Nat V)

def start (s : Fleet V) : Wait V := ⟨s, 0, 0⟩

def step (w : Wait V) (e : Event V) : Option (Wait V) :=
  (w.fleet.step team e).map fun s =>
    ⟨s, w.offered + offer team row e, w.came + (comers w.fleet.store s.store row).length⟩

/-- The run is still there as it began to wait. -/
def Waits (w : Wait V) (_ : Event V) : Prop := w.fleet.store.get row.id = some row

end Wait

namespace Fleet

variable {team : Nat → Worker} {s u : Fleet V} {e : Event V} {fresh : List (Claim V)}
  {row : Row Nat V}

theorem mem_front {store : MemoryStore V} {other : Row Nat V} :
    other ∈ front store row ↔ store.get other.id = some other ∧ InFront row other := by
  rw [front, List.mem_filter, MemoryStore.get_eq_some]
  simp

theorem mem_comers {before after : MemoryStore V} {other : Row Nat V} :
    other ∈ comers before after row ↔
      other ∈ front after row ∧ ¬ (before.get other.id).any (·.status = .pending) := by
  simp [comers]

theorem front_length (before after : MemoryStore V) (row : Row Nat V) :
    (front after row).length =
      (stayers before after row).length + (comers before after row).length := by
  have hsplit := List.length_eq_length_filter_add (l := front after row)
    fun other => (before.get other.id).any (·.status = .pending)
  simpa [stayers, comers] using hsplit

theorem front_ids_nodup (store : MemoryStore V) (row : Row Nat V) :
    ((front store row).map (·.id)).Nodup :=
  store.ids_nodup.sublist (List.filter_sublist.map _)

theorem waiting_same (h : s.act team e = some (u, fresh)) {id : Nat} {old new : Row Nat V}
    (hold : s.store.get id = some old) (hwaited : old.status = .pending)
    (hnew : u.store.get id = some new) (hwaits : new.status = .pending) : new = old := by
  have hturn := act_turn team h id
  rw [hold, hnew] at hturn
  cases hturn with
  | kept => rfl
  | granted _ _ worker limit moment heard he hget hchosen hid hrun =>
      rw [hrun.running.1] at hwaits
      cases hwaits
  | beaten _ i k c moment leaseEnd he hc hbeat hid hheld =>
      rw [(MemoryStore.held_eq_some.1 hheld).2.2.1] at hwaited
      cases hwaited
  | ended _ i c ending he hc hasked hid hheld =>
      rw [(MemoryStore.held_eq_some.1 hheld).2.2.1] at hwaited
      cases hwaited
  | takenBack _ moment lease he hrunning =>
      rw [hrunning] at hwaited
      cases hwaited
  | calledOff => cases hwaits

theorem stayed (h : s.act team e = some (u, fresh)) {other : Row Nat V}
    (hother : other ∈ stayers s.store u.store row) : other ∈ front s.store row := by
  rcases List.mem_filter.1 hother with ⟨hmem, hwaited⟩
  rcases mem_front.1 hmem with ⟨hnew, hinfront⟩
  rcases (Option.any_eq_true _ _).1 hwaited with ⟨old, hold, hpending⟩
  have hsame := waiting_same h hold (of_decide_eq_true hpending) hnew hinfront.1
  exact mem_front.2 ⟨hsame ▸ hold, hinfront⟩

/-- So many of the runs in front of a run do not wait any more. -/
def Cleared (before after : MemoryStore V) (row : Row Nat V) (n : Nat) : Prop :=
  ∃ ids : List Nat, ids.Nodup ∧ ids.length = n ∧
    (∀ id ∈ ids, ∃ other ∈ front before row, other.id = id) ∧
      ∀ id ∈ ids, ∀ other, after.get id = some other → other.status ≠ .pending

theorem front_step (h : s.act team e = some (u, fresh)) {n : Nat}
    (hcleared : Cleared s.store u.store row n) :
    (front u.store row).length + n ≤
      (front s.store row).length + (comers s.store u.store row).length := by
  rcases hcleared with ⟨ids, hids, rfl, hfront, hgone⟩
  have hsplit := front_length s.store u.store row
  have hnodup : ((stayers s.store u.store row).map (·.id) ++ ids).Nodup := by
    rw [List.nodup_append]
    refine ⟨(front_ids_nodup u.store row).sublist (List.filter_sublist.map _), hids, ?_⟩
    intro a ha b hb hab
    rcases List.mem_map.1 ha with ⟨other, hother, rfl⟩
    rcases mem_front.1 (List.mem_filter.1 hother).1 with ⟨hnew, hinfront⟩
    exact hgone b hb other (hab ▸ hnew) hinfront.1
  have hsubset : (stayers s.store u.store row).map (·.id) ++ ids ⊆
      (front s.store row).map (·.id) := by
    intro id hid
    rcases List.mem_append.1 hid with hid | hid
    · rcases List.mem_map.1 hid with ⟨other, hother, rfl⟩
      exact List.mem_map_of_mem (stayed h hother)
    · rcases hfront id hid with ⟨other, hother, rfl⟩
      exact List.mem_map_of_mem hother
  have hle := (hnodup.subperm hsubset).length_le
  simp only [List.length_append, List.length_map] at hle
  omega

/-! ## A claim -/

theorem act_claim {worker limit : Nat} {moment : Instant} {heard : Bool}
    (h : s.act team (.claim worker limit moment heard) = some (u, fresh)) :
    u.store = (s.store.claim (team worker).name (team worker).queues limit (team worker).lease
      moment).2 := by
  simp only [act, claim] at h
  split at h
  · cases h
  · split at h <;> cases h
    · rename_i heq
      rw [heq]
    · rename_i heq
      rw [heq]

theorem claim_takes {worker limit : Nat} {moment : Instant} {heard : Bool}
    (h : s.act team (.claim worker limit moment heard) = some (u, fresh)) {n : Nat}
    (hn : n = if (moment.plus (team worker).lease).isSome then limit else min limit 1) :
    ∀ other ∈ s.store.chosen (team worker).queues n moment, ∀ after,
      u.store.get other.id = some after → after.status = .running := by
  intro other hother after hafter
  rw [act_claim h] at hafter
  have hget := (MemoryStore.mem_chosen hother).1
  cases hlease : moment.plus (team worker).lease with
  | some leaseEnd =>
      rw [hlease, Option.isSome_some, if_pos rfl] at hn
      subst hn
      rw [MemoryStore.claim_of_plus _ _ _ _ hlease,
        MemoryStore.get_amend_mem hget (List.mem_map_of_mem hother), Option.some.injEq] at hafter
      rw [← hafter]
      rfl
  | none =>
      rw [hlease, Option.isSome_none, if_neg Bool.false_ne_true] at hn
      have htaken : s.store.chosen (team worker).queues n moment =
          (s.store.chosen (team worker).queues limit moment).take 1 := by
        rw [MemoryStore.chosen, MemoryStore.chosen, List.take_take, hn, Nat.min_comm]
      rw [htaken] at hother
      rw [MemoryStore.claim_of_overflow _ _ _ _ hlease] at hafter
      cases hchosen : s.store.chosen (team worker).queues limit moment with
      | nil =>
          rw [hchosen] at hother
          cases hother
      | cons first rest =>
          rw [hchosen, List.take_succ_cons, List.take_zero, List.mem_singleton] at hother
          subst hother
          simp only [hchosen] at hafter
          rw [MemoryStore.get_amend_mem hget (List.mem_singleton_self _),
            Option.some.injEq] at hafter
          rw [← hafter]
          rfl

/-- A run that waits on after a step had as many runs taken from in front of it as the step could
have taken where it could have taken the run. -/
theorem offer_taken (h : s.act team e = some (u, fresh)) (hrow : s.store.get row.id = some row)
    (hpending : row.status = .pending) (hstill : u.store.get row.id = some row) :
    Cleared s.store u.store row (offer team row e) := by
  have hnone : offer team row e = 0 → Cleared s.store u.store row (offer team row e) := by
    intro hzero
    rw [hzero]
    exact ⟨[], by simp⟩
  cases e with
  | claim worker limit moment heard =>
      by_cases hserved : row.queue ∈ (team worker).queues ∧ row.dueAt ≤ moment
      · have hoffer : offer team row (.claim worker limit moment heard) =
            if (moment.plus (team worker).lease).isSome then limit else min limit 1 := by
          simp [offer, hserved]
        have htakes := claim_takes h hoffer
        generalize offer team row (.claim worker limit moment heard) = n at *
        have hready : row ∈ s.store.ready (team worker).queues moment :=
          MemoryStore.mem_ready.2 ⟨(MemoryStore.get_eq_some.1 hrow).1,
            MemoryStore.claimable_iff.2 ⟨hpending, hserved⟩⟩
        have hout : row ∉ s.store.chosen (team worker).queues n moment := by
          intro hchosen
          have hrunning := htakes row hchosen row hstill
          rw [hpending] at hrunning
          cases hrunning
        rcases (memory_ready_rising s.store (team worker).queues moment).behind_take hready hout
          with ⟨hlength, hbehind⟩
        refine ⟨(s.store.chosen (team worker).queues n moment).map (·.id),
          s.store.chosen_ids_nodup _ _ _, by rw [List.length_map]; exact hlength, ?_, ?_⟩
        · intro id hid
          rcases List.mem_map.1 hid with ⟨other, hother, rfl⟩
          rcases MemoryStore.mem_chosen hother with ⟨hget, hwaits, -⟩
          exact ⟨other, mem_front.2 ⟨hget, hwaits, hbehind other hother⟩, rfl⟩
        · intro id hid other hget hwaits
          rcases List.mem_map.1 hid with ⟨before, hbefore, rfl⟩
          have hrunning := htakes before hbefore other hget
          rw [hwaits] at hrunning
          cases hrunning
      · exact hnone (by simp [offer, hserved])
  | _ => exact hnone rfl

theorem comers_claim {worker limit : Nat} {moment : Instant} {heard : Bool}
    (h : s.act team (.claim worker limit moment heard) = some (u, fresh)) :
    comers s.store u.store row = [] := by
  rw [List.eq_nil_iff_forall_not_mem]
  intro other hother
  rcases mem_comers.1 hother with ⟨hfront, hnew⟩
  rcases mem_front.1 hfront with ⟨hget, hwaits, -⟩
  have hturn := act_turn team h other.id
  rw [hget] at hturn
  generalize other.id = id at hturn hnew
  generalize hbefore : s.store.get id = before at hturn hnew
  cases hturn with
  | kept => exact hnew (by simp [hwaits])
  | born task dueAt createdAt payload key priority he => cases he
  | granted row _ _ _ _ _ he hstored hchosen =>
      have hpending := (MemoryStore.mem_chosen hchosen).2.1
      exact hnew (by simp [hpending])
  | beaten _ _ _ _ _ _ he => cases he
  | ended _ _ _ _ he => cases he
  | takenBack _ _ _ he => cases he
  | calledOff _ _ he => cases he

end Fleet

/-! ## A run that waits is reached -/

namespace Wait

open Fleet

variable {team : Nat → Worker} {s : Fleet V} {row : Row Nat V} {w : Wait V}

theorem reach_offered (hpending : row.status = .pending)
    (h : Reach (step team row) (Waits row) (start s) w)
    (hrow : w.fleet.store.get row.id = some row) :
    w.offered + (front w.fleet.store row).length ≤ (front s.store row).length + w.came := by
  induction h with
  | start => simp [start]
  | @next w t e hw hwaits ht ih =>
      rcases Option.map_eq_some_iff.1 ht with ⟨_, hs, rfl⟩
      rcases (step_eq_some team).1 hs with ⟨u, fresh, hact, rfl⟩
      have hbefore := ih hwaits
      have hstep := front_step hact (offer_taken hact hwaits hpending hrow)
      change w.offered + offer team row e + (front u.store row).length ≤
        (front s.store row).length + (w.came + (comers w.fleet.store u.store row).length)
      omega

/-- Whatever the workers do, a run that waits is not overtaken: the claims that could have taken it
took only what was in front of it when it began to wait or came there since, and the claim by which
they had room for more than that takes it. -/
theorem waits_its_turn (hpending : row.status = .pending)
    (h : Reach (step team row) (Waits row) (start s) w)
    (hrow : w.fleet.store.get row.id = some row) :
    w.offered + (front w.fleet.store row).length ≤ (front s.store row).length + w.came ∧
      ∀ e t, w.fleet.step team e = some t →
        (front s.store row).length + w.came < w.offered + offer team row e →
          ∃ c ∈ t.claims, c.row.id = row.id ∧ c.holds = true ∧
            t.store.get row.id = some c.row := by
  have hoffered := reach_offered hpending h hrow
  refine ⟨hoffered, fun e t ht hroom => ?_⟩
  rcases (step_eq_some team).1 ht with ⟨u, fresh, hact, rfl⟩
  cases e with
  | claim worker limit moment heard =>
      have hmoved : u.store.get row.id ≠ some row := by
        intro hstill
        have hstep := front_step hact (offer_taken hact hrow hpending hstill)
        rw [comers_claim hact, List.length_nil] at hstep
        omega
      have hturn := act_turn team hact row.id
      rw [hrow] at hturn
      generalize hafter : u.store.get row.id = after at hturn hmoved
      cases hturn with
      | kept => exact absurd rfl hmoved
      | granted _ row' _ _ _ _ he hget hchosen hid hrun =>
          rcases granted_fresh team hact hrow hpending hafter hrun.running.1 with ⟨c, hc, hcid⟩
          have hheld := (Fenced.fresh_running hact hc).2
          refine ⟨c, List.mem_append_right _ hc, hcid, hheld.1, ?_⟩
          rw [← hcid]
          exact (MemoryStore.held_eq_some.1 hheld.2.2.2).1
      | beaten _ _ _ _ _ _ he => cases he
      | ended _ _ _ _ he => cases he
      | takenBack _ _ _ he => cases he
      | calledOff _ _ he => cases he
      | purged _ _ _ he => cases he
  | _ =>
      rw [show offer team row _ = 0 from rfl] at hroom
      omega

/-- Two runs of one lane, one right after the other. -/
def oneAhead : List (Event Unit) :=
  [.add remote .epoch .epoch () none none, .add remote .epoch .epoch () none none]

/-- The first claim takes the one in front, and the next one takes the other. -/
theorem waits_its_turn_oneAhead : ∃ (s : Fleet Unit) (row : Row Nat Unit) (w : Wait Unit)
    (t : Fleet Unit), runAll (Fleet.step fun _ => undeclared) Fleet.start oneAhead = some s ∧
      s.store.get 2 = some row ∧ (front s.store row).length = 1 ∧
      runAll (step (fun _ => undeclared) row) (start s) [.claim 0 1 .epoch true] = some w ∧
      w.fleet.step (fun _ => undeclared) (.claim 0 1 .epoch true) = some t ∧
      ∃ c ∈ t.claims, c.row.id = 2 ∧ c.holds = true ∧ t.store.get 2 = some c.row := by
  have hturn : ∀ (s t : Fleet Unit) (row : Row Nat Unit) (w : Wait Unit),
      runAll (Fleet.step fun _ => undeclared) Fleet.start oneAhead = some s →
      s.store.get 2 = some row → row.id = 2 → row.status = .pending →
      runAll (step (fun _ => undeclared) row) (start s) [.claim 0 1 .epoch true] = some w →
      w.fleet.store.get row.id = some row →
      w.fleet.step (fun _ => undeclared) (.claim 0 1 .epoch true) = some t →
      (front s.store row).length + w.came <
        w.offered + offer (fun _ => undeclared) row (.claim 0 1 .epoch true) →
      ∃ c ∈ t.claims, c.row.id = 2 ∧ c.holds = true ∧ t.store.get 2 = some c.row := by
    intro s t row w hs hrow hid hpending hw hstill ht hroom
    rw [← hid] at hrow ⊢
    have hmeets : Meets (step (fun _ => undeclared) row) (Waits row) (start s)
        [.claim 0 1 .epoch true] := ⟨hrow, fun _ _ => trivial⟩
    exact (waits_its_turn hpending (.of_meets .start hmeets hw) hstill).2 _ t ht hroom
  exact ⟨_, _, _, _, rfl, rfl, by decide +kernel, rfl, rfl,
    hturn _ _ _ _ rfl rfl rfl rfl rfl rfl rfl (by decide +kernel)⟩

end Wait

end Queuefy
