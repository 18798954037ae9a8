import Queuefy.Fleet

/-! # What one step of the fleet can do

Everything proved about whole runs goes through three inversions. `acts` says what a step comes to,
event by event; `act_turn` what it makes of one run of the store; and `act_claims` what it makes of
the claims there were, which advance one by one.
-/

namespace Queuefy

variable {V : Type}

/-- What an ending makes of the run it closes or puts back. -/
def Ending.applied : Ending V → Run V → Run V
  | .complete moment result => MemoryStore.completed moment result
  | .fail moment error errorType => MemoryStore.failed moment error errorType
  | .retryLater dueAt error errorType => MemoryStore.requeued dueAt error errorType 0
  | .release dueAt error errorType => MemoryStore.requeued dueAt error errorType (-1)

namespace Fleet

variable (team : Nat → Worker)

theorem end_cases (store : MemoryStore V) (c : Claim V) (e : Ending V) :
    (store.held c.row.id (team c.worker).name c.row.attempts = none ∧
      end_ team store c e = (false, store)) ∨
    (∃ row, store.held c.row.id (team c.worker).name c.row.attempts = some row ∧
      end_ team store c e = (true, store.amend [c.row.id] e.applied)) := by
  cases e with
  | complete moment result => exact MemoryStore.settle_cases ..
  | fail moment error errorType => exact MemoryStore.settle_cases ..
  | retryLater dueAt error errorType => exact MemoryStore.settle_cases ..
  | release dueAt error errorType => exact MemoryStore.settle_cases ..

/-- What a claim has written into a run it turned over: everything, or all but the lease when
the lease names no instant. -/
def Granted (w : Worker) (moment : Instant) (run run' : Run V) : Prop :=
  (∃ leaseEnd, moment.plus w.lease = some leaseEnd ∧
    run' = MemoryStore.claimed w.name moment leaseEnd run) ∨
  (moment.plus w.lease = none ∧ run' = MemoryStore.started w.name moment run)

/-- What the step `e` of the fleet `s`, which grants `fresh`, can make of the run `id`. -/
inductive Turn (s : Fleet V) (e : Event V) (fresh : List (Claim V)) (id : Nat) :
    Option (Row Nat V) → Option (Row Nat V) → Prop
  | kept (row : Option (Row Nat V)) (hfresh : ∀ c ∈ fresh, c.row.id ≠ id) :
      Turn s e fresh id row row
  | born (task : Task) (dueAt createdAt : Instant) (payload : V) (key : Option String)
      (priority : Option Int) (he : e = .add task dueAt createdAt payload key priority)
      (hid : id = s.store.sequence + 1) :
      Turn s e fresh id none (some ⟨build task dueAt createdAt payload key priority, id⟩)
  | granted (row row' : Row Nat V) (worker limit : Nat) (moment : Instant) (heard : Bool)
      (he : e = .claim worker limit moment heard) (hget : s.store.get id = some row)
      (hchosen : row ∈ s.store.chosen (team worker).queues limit moment)
      (hid : row'.id = id)
      (hrun : Granted (team worker) moment row.toRun row'.toRun) :
      Turn s e fresh id (some row) (some row')
  | beaten (row : Row Nat V) (i k : Nat) (c : Claim V) (moment leaseEnd : Instant)
      (he : e = .beatLands i k) (hc : s.claims[i]? = some c) (hbeat : c.beats[k]? = some moment)
      (hid : c.row.id = id)
      (hheld : s.store.held id (team c.worker).name c.row.attempts = some row)
      (hlease : moment.plus (team c.worker).lease = some leaseEnd)
      (hfresh : fresh = []) :
      Turn s e fresh id (some row)
        (some { row with toRun := MemoryStore.beaten leaseEnd row.toRun })
  | ended (row : Row Nat V) (i : Nat) (c : Claim V) (ending : Ending V)
      (he : e = .lands i) (hc : s.claims[i]? = some c) (hasked : c.phase = .asked ending)
      (hid : c.row.id = id)
      (hheld : s.store.held id (team c.worker).name c.row.attempts = some row)
      (hfresh : fresh = []) :
      Turn s e fresh id (some row) (some { row with toRun := ending.applied row.toRun })
  | takenBack (row : Row Nat V) (moment lease : Instant) (he : e = .reclaim moment)
      (hrunning : row.status = .running) (hlease : row.leaseUntil = some lease)
      (hexpired : lease < moment) (hfresh : fresh = []) :
      Turn s e fresh id (some row)
        (some { row with toRun := MemoryStore.takenBack moment row.toRun })
  | calledOff (row : Row Nat V) (moment : Instant) (he : e = .cancel id moment)
      (hpending : row.status = .pending) (hfresh : fresh = []) :
      Turn s e fresh id (some row)
        (some { row with toRun := MemoryStore.calledOff moment row.toRun })
  | purged (row : Row Nat V) (before : Instant) (limit : Nat) (he : e = .purge before limit)
      (hover : row.status.settled = true) (hfresh : fresh = []) :
      Turn s e fresh id (some row) none

/-- What a step makes of a claim there was, before its history is written. -/
inductive Advance (s : Fleet V) (e : Event V) (i : Nat) (c : Claim V) : Claim V → Prop
  | kept (he : e.subject ≠ some i) : Advance s e i c c
  | pushed (moment : Instant) (he : e = .push i moment) :
      Advance s e i c { c with beats := c.beats ++ [moment] }
  | beat (k : Nat) (he : e = .beatLands i k) :
      Advance s e i c { c with beats := c.beats.eraseIdx k }
  | moved (m : Move V) (a : Attempt V) (he : e = .move i m)
      (hm : c.toAttempt.move ((team c.worker).handler c.row.name)
        (decide ((s.shifts c.worker).loop ≠ .ended)) m = some a) :
      Advance s e i c { c with toAttempt := a }
  | landed (ending : Ending V) (he : e = .lands i) (hasked : c.phase = .asked ending) :
      Advance s e i c
        { c with phase := .answered ending (end_ team s.store c ending).1 }

/-! ## Claiming -/

theorem granted_claimed {w : Worker} {moment leaseEnd : Instant}
    (h : moment.plus w.lease = some leaseEnd) (run : Run V) :
    Granted w moment run (MemoryStore.claimed w.name moment leaseEnd run) :=
  Or.inl ⟨leaseEnd, h, rfl⟩

theorem Granted.running {w : Worker} {moment : Instant} {run run' : Run V}
    (h : Granted w moment run run') :
    run'.status = .running ∧ run'.worker = some w.name ∧ run'.attempts = run.attempts + 1 ∧
      run'.maxAttempts = run.maxAttempts := by
  rcases h with ⟨leaseEnd, -, rfl⟩ | ⟨-, rfl⟩
  · exact ⟨rfl, rfl, rfl, rfl⟩
  · exact ⟨rfl, rfl, rfl, rfl⟩

theorem mem_turned {before after : MemoryStore V} {row : Row Nat V} :
    row ∈ turned before after ↔
      after.get row.id = some row ∧ row.status = .running ∧
        ¬ (before.get row.id).any (·.status = .running) := by
  unfold turned
  rw [List.mem_filter, MemoryStore.get_eq_some]
  simp

/-- A claim changes the runs `ids` by `f`: ones it chose, each as a grant changes a run. Every
claim of `fresh` is one of them, as the store holds it from then on. -/
structure Grants (s : Fleet V) (worker limit : Nat) (moment : Instant) (heard : Bool)
    (fresh : List (Claim V)) (ids : List Nat) (f : Run V → Run V) : Prop where
  chosen : ∀ id ∈ ids, ∃ row ∈ s.store.chosen (team worker).queues limit moment, row.id = id
  granted : ∀ run, Granted (team worker) moment run (f run)
  fresh_id : ∀ c ∈ fresh, c.row.id ∈ ids
  covered : ∀ id ∈ ids, ∃ c ∈ fresh, c.row.id = id
  fresh_row : ∀ c ∈ fresh, (s.store.amend ids f).get c.row.id = some c.row
  /-- An attempt is only made of a claim that was heard, and one that raised never is. -/
  spawned : ∀ c ∈ fresh, ∃ heard', c = spawn worker heard' c.row ∧
    (heard' = true → heard = true ∧ (moment.plus (team worker).lease).isSome)
  nodup : (fresh.map (·.row.id)).Nodup

theorem grants_of_plus (s : Fleet V) (worker limit : Nat) {moment leaseEnd : Instant}
    (heard : Bool) (hlease : moment.plus (team worker).lease = some leaseEnd) :
    Grants team s worker limit moment heard
      (((s.store.chosen (team worker).queues limit moment).map
        (MemoryStore.handedOut (team worker).name moment leaseEnd)).map (spawn worker heard))
      ((s.store.chosen (team worker).queues limit moment).map (·.id))
      (MemoryStore.claimed (team worker).name moment leaseEnd) where
  chosen := by
    intro id hid
    obtain ⟨row, hrow, rfl⟩ := List.mem_map.mp hid
    exact ⟨row, hrow, rfl⟩
  granted := granted_claimed hlease
  fresh_id := by
    intro c hc
    rw [List.map_map] at hc
    obtain ⟨row, hrow, rfl⟩ := List.mem_map.mp hc
    change row.id ∈ _
    exact List.mem_map_of_mem hrow
  covered := by
    intro id hid
    obtain ⟨row, hrow, rfl⟩ := List.mem_map.mp hid
    exact ⟨_, List.mem_map_of_mem (List.mem_map_of_mem hrow), rfl⟩
  fresh_row := by
    intro c hc
    rw [List.map_map] at hc
    obtain ⟨row, hrow, rfl⟩ := List.mem_map.mp hc
    change MemoryStore.get _ row.id = _
    rw [MemoryStore.get_amend, (MemoryStore.mem_chosen hrow).1, Option.map_some,
      MemoryStore.amended_of_mem (List.mem_map_of_mem hrow)]
    rfl
  spawned := by
    intro c hc
    obtain ⟨row, -, rfl⟩ := List.mem_map.mp hc
    exact ⟨heard, rfl, fun hheard => ⟨hheard, by simp [hlease]⟩⟩
  nodup := by
    simpa [List.map_map, Function.comp_def, spawn, MemoryStore.handedOut] using
      s.store.chosen_ids_nodup (team worker).queues limit moment

theorem grants_of_overflow (s : Fleet V) (worker limit : Nat) {moment : Instant}
    (heard : Bool) {row : Row Nat V} (hlease : moment.plus (team worker).lease = none)
    (hrow : row ∈ s.store.chosen (team worker).queues limit moment) :
    Grants team s worker limit moment heard
      ((turned s.store (s.store.amend [row.id]
        (MemoryStore.started (team worker).name moment))).map (spawn worker false))
      [row.id] (MemoryStore.started (team worker).name moment) where
  chosen := by
    intro id hid
    exact ⟨row, hrow, (List.mem_singleton.mp hid).symm⟩
  granted := fun run => Or.inr ⟨hlease, rfl⟩
  fresh_id := by
    intro c hc
    obtain ⟨row', hrow', rfl⟩ := List.mem_map.mp hc
    obtain ⟨hget, hrunning, hbefore⟩ := mem_turned.1 hrow'
    by_contra hid
    rw [MemoryStore.get_amend] at hget
    obtain ⟨old, hold, heq⟩ := Option.map_eq_some_iff.mp hget
    rw [MemoryStore.amended_of_not_mem (by rwa [MemoryStore.get_id hold])] at heq
    subst heq
    exact hbefore (by simp [hold, hrunning])
  covered := by
    intro id hid
    obtain rfl := List.mem_singleton.mp hid
    obtain ⟨hget, hpending, -⟩ := MemoryStore.mem_chosen hrow
    refine ⟨_, List.mem_map_of_mem (mem_turned.2 ⟨MemoryStore.get_amend_mem hget hid, ?_⟩), rfl⟩
    exact ⟨rfl, by simp [hget, hpending]⟩
  fresh_row := by
    intro c hc
    obtain ⟨row', hrow', rfl⟩ := List.mem_map.mp hc
    exact (mem_turned.1 hrow').1
  spawned := by
    intro c hc
    obtain ⟨row', -, rfl⟩ := List.mem_map.mp hc
    exact ⟨false, rfl, by simp⟩
  nodup := by
    simp only [List.map_map, Function.comp_def, spawn]
    exact (MemoryStore.ids_nodup _).sublist (List.filter_sublist.map _)

theorem claim_spec {s u : Fleet V} {worker limit : Nat} {moment : Instant} {heard : Bool}
    {fresh : List (Claim V)} (h : s.claim team worker limit moment heard = some (u, fresh)) :
    ∃ ids f, u = { s with store := s.store.amend ids f } ∧
      Grants team s worker limit moment heard fresh ids f := by
  unfold claim at h
  split at h
  · cases h
  · cases hlease : moment.plus (team worker).lease with
    | some leaseEnd =>
        simp only [MemoryStore.claim_of_plus _ _ _ _ hlease, Option.some.injEq,
          Prod.mk.injEq] at h
        obtain ⟨rfl, rfl⟩ := h
        exact ⟨_, _, rfl, grants_of_plus team s worker limit heard hlease⟩
    | none =>
        simp only [MemoryStore.claim_of_overflow _ _ _ _ hlease] at h
        cases hchosen : s.store.chosen (team worker).queues limit moment with
        | nil =>
            simp only [hchosen, Option.some.injEq, Prod.mk.injEq] at h
            obtain ⟨rfl, rfl⟩ := h
            refine ⟨[], MemoryStore.started (team worker).name moment, by simp, ?_⟩
            constructor <;> simp [Granted, hlease]
        | cons row rest =>
            simp only [hchosen, Option.some.injEq, Prod.mk.injEq] at h
            obtain ⟨rfl, rfl⟩ := h
            exact ⟨_, _, rfl, grants_of_overflow team s worker limit heard hlease
              (hchosen ▸ List.mem_cons_self)⟩

/-! ## What a step comes to -/

/-- The fleet the step `e` of `s` leaves, and the claims it grants. -/
inductive Acts (s : Fleet V) : Event V → Fleet V → List (Claim V) → Prop
  | add (task : Task) (dueAt createdAt : Instant) (payload : V) (key : Option String)
      (priority : Option Int) {row : Option (Row Nat V)} {store : MemoryStore V}
      (hadd : s.store.add (build task dueAt createdAt payload key priority) = (row, store)) :
      Acts s (.add task dueAt createdAt payload key priority)
        { s with store := store, written := s.written ++ row.toList } []
  | claim {worker limit : Nat} {moment : Instant} {heard : Bool} {fresh : List (Claim V)}
      {ids : List Nat} {f : Run V → Run V}
      (hgrants : Grants team s worker limit moment heard fresh ids f) :
      Acts s (.claim worker limit moment heard) { s with store := s.store.amend ids f } fresh
  | reclaim (moment : Instant) :
      Acts s (.reclaim moment) { s with store := (s.store.reclaim moment).2 } []
  | cancel (id : Nat) (moment : Instant) :
      Acts s (.cancel id moment) { s with store := (s.store.cancel id moment).2 } []
  | purge (before : Instant) (limit : Nat) :
      Acts s (.purge before limit) { s with store := (s.store.purge before limit).2 } []
  | push {i : Nat} {c : Claim V} (moment : Instant) (hc : s.claims[i]? = some c)
      (hphase : c.phase ≠ .gone) :
      Acts s (.push i moment) (s.replace i { c with beats := c.beats ++ [moment] }) []
  | beatLands {i k : Nat} {c : Claim V} {moment : Instant} (hc : s.claims[i]? = some c)
      (hbeat : c.beats[k]? = some moment) :
      Acts s (.beatLands i k)
        { s.replace i { c with beats := c.beats.eraseIdx k } with
          store := (beat team s.store c moment).2 } []
  | move {i : Nat} {c : Claim V} {m : Move V} {a : Attempt V} (hc : s.claims[i]? = some c)
      (hm : c.toAttempt.move ((team c.worker).handler c.row.name)
        (decide ((s.shifts c.worker).loop ≠ .ended)) m = some a) :
      Acts s (.move i m)
        { s.replace i { c with toAttempt := a } with
          entries := s.entries ++ if c.enters a then [c.row.id] else [] } []
  | lands {i : Nat} {c : Claim V} {ending : Ending V} (hc : s.claims[i]? = some c)
      (hasked : c.phase = .asked ending) :
      Acts s (.lands i)
        { s.replace i { c with phase := .answered ending (end_ team s.store c ending).1 } with
          store := (end_ team s.store c ending).2 } []
  | stop (worker : Nat) :
      Acts s (.stop worker)
        { s with
          shifts := Function.update s.shifts worker { s.shifts worker with stopping := true } } []
  | drain {worker : Nat} (hpolling : s.shifts worker = ⟨.polling, true⟩) :
      Acts s (.drain worker) (s.setLoop worker .draining) []
  | shut (worker : Nat) : Acts s (.shut worker) (s.setLoop worker .ended) []

/-- A step about a claim is about one there is. -/
theorem claim_of_act {s u : Fleet V} {e : Event V} {fresh : List (Claim V)} {i : Nat}
    (h : s.act team e = some (u, fresh)) (he : e.subject = some i) :
    ∃ c, s.claims[i]? = some c := by
  cases hc : s.claims[i]? with
  | some c => exact ⟨c, rfl⟩
  | none => cases e <;> cases he <;> simp [act, hc] at h

theorem acts {s u : Fleet V} {e : Event V} {fresh : List (Claim V)}
    (h : s.act team e = some (u, fresh)) : Acts team s e u fresh := by
  cases e with
  | add task dueAt createdAt payload key priority =>
      cases h
      exact .add task dueAt createdAt payload key priority rfl
  | claim worker limit moment heard =>
      obtain ⟨ids, f, rfl, hgrants⟩ := claim_spec team h
      exact .claim hgrants
  | reclaim moment => cases h; exact .reclaim moment
  | cancel id moment => cases h; exact .cancel id moment
  | purge before limit => cases h; exact .purge before limit
  | push i moment =>
      rcases claim_of_act team h rfl with ⟨c, hc⟩
      simp only [act, hc] at h
      split at h <;> cases h
      rename_i hphase
      exact .push moment hc hphase
  | beatLands i k =>
      rcases claim_of_act team h rfl with ⟨c, hc⟩
      simp only [act, hc] at h
      split at h <;> cases h
      rename_i moment hbeat
      exact .beatLands hc hbeat
  | move i m =>
      rcases claim_of_act team h rfl with ⟨c, hc⟩
      simp only [act, hc] at h
      split at h <;> cases h
      rename_i a hm
      exact .move hc hm
  | lands i =>
      rcases claim_of_act team h rfl with ⟨c, hc⟩
      simp only [act, hc] at h
      split at h <;> cases h
      rename_i ending hasked
      exact .lands hc hasked
  | stop worker => cases h; exact .stop worker
  | drain worker =>
      simp only [act] at h
      split at h <;> cases h
      rename_i hpolling
      exact .drain hpolling
  | shut worker => cases h; exact .shut worker

/-! ## One run -/

/-- An operation that changes the runs `ids` leaves every other run as it is. -/
theorem turn_of_amend {s : Fleet V} {e : Event V} {fresh : List (Claim V)} {ids : List Nat}
    {f : Run V → Run V} {id : Nat} (hfresh : ∀ c ∈ fresh, c.row.id ∈ ids)
    (hin : id ∈ ids → Turn team s e fresh id (s.store.get id) ((s.store.amend ids f).get id)) :
    Turn team s e fresh id (s.store.get id) ((s.store.amend ids f).get id) := by
  by_cases hid : id ∈ ids
  · exact hin hid
  · rw [MemoryStore.get_amend_not_mem hid]
    exact .kept _ fun c hc heq => hid (heq ▸ hfresh c hc)

section

variable {team} {s : Fleet V} (id : Nat)

theorem turn_add (task : Task) (dueAt createdAt : Instant) (payload : V) (key : Option String)
    (priority : Option Int) :
    Turn team s (.add task dueAt createdAt payload key priority) [] id (s.store.get id)
      ((s.store.add (build task dueAt createdAt payload key priority)).2.get id) := by
  unfold MemoryStore.add
  split
  · exact .kept _ (by simp)
  · by_cases hid : id = s.store.sequence + 1
    · subst hid
      simp only [MemoryStore.get_write, if_pos]
      rw [MemoryStore.get_past_sequence (Nat.lt_succ_self _)]
      exact .born task dueAt createdAt payload key priority rfl rfl
    · simp only [MemoryStore.get_write, if_neg hid]
      exact .kept _ (by simp)

theorem turn_claim {worker limit : Nat} {moment : Instant} {heard : Bool}
    {fresh : List (Claim V)} {ids : List Nat} {f : Run V → Run V}
    (hgrants : Grants team s worker limit moment heard fresh ids f) :
    Turn team s (.claim worker limit moment heard) fresh id (s.store.get id)
      ((s.store.amend ids f).get id) := by
  refine turn_of_amend team hgrants.fresh_id fun hid => ?_
  obtain ⟨row, hrow, rfl⟩ := hgrants.chosen id hid
  have hget := (MemoryStore.mem_chosen hrow).1
  rw [MemoryStore.get_amend_mem hget hid, hget]
  exact .granted row _ worker limit moment heard rfl hget hrow rfl (hgrants.granted row.toRun)

theorem turn_reclaim (moment : Instant) :
    Turn team s (.reclaim moment) [] id (s.store.get id)
      ((s.store.reclaim moment).2.get id) := by
  refine turn_of_amend team (by simp) fun hid => ?_
  obtain ⟨row, hrow, rfl⟩ := List.mem_map.mp hid
  obtain ⟨hget, hexpired⟩ := MemoryStore.mem_abandoned hrow
  obtain ⟨hrunning, lease, hlease, hlt⟩ := MemoryStore.expired_iff.1 hexpired
  rw [MemoryStore.get_amend_mem hget hid, hget]
  exact .takenBack row moment lease rfl hrunning hlease hlt rfl

theorem turn_cancel (off : Nat) (moment : Instant) :
    Turn team s (.cancel off moment) [] id (s.store.get id)
      ((s.store.cancel off moment).2.get id) := by
  rcases MemoryStore.cancel_cases s.store off moment with ⟨-, hc⟩ | ⟨row, hget, hpending, hc⟩
  · rw [hc]
    exact .kept _ (by simp)
  · rw [hc]
    refine turn_of_amend team (by simp) fun hid => ?_
    obtain rfl := List.mem_singleton.mp hid
    rw [MemoryStore.get_amend_mem hget hid, hget]
    exact .calledOff row moment rfl hpending rfl

theorem turn_purge (before : Instant) (limit : Nat) :
    Turn team s (.purge before limit) [] id (s.store.get id)
      ((s.store.purge before limit).2.get id) := by
  rw [MemoryStore.purge, MemoryStore.get_drop]
  split
  · rename_i hid
    obtain ⟨row, hrow, rfl⟩ := List.mem_map.mp hid
    obtain ⟨hget, hover⟩ := MemoryStore.mem_gone hrow
    rw [hget]
    exact .purged row before limit rfl (MemoryStore.isOver_iff.1 hover).1 rfl
  · exact .kept _ (by simp)

theorem turn_beat {i k : Nat} {c : Claim V} {moment : Instant} (hc : s.claims[i]? = some c)
    (hbeat : c.beats[k]? = some moment) :
    Turn team s (.beatLands i k) [] id (s.store.get id)
      ((beat team s.store c moment).2.get id) := by
  rcases MemoryStore.heartbeat_cases s.store c.row.id (team c.worker).name c.row.attempts
      (team c.worker).lease moment with
    ⟨-, hb⟩ | ⟨-, hb⟩ | ⟨row, leaseEnd, hheld, hlease, hb⟩
  · simp only [beat, hb]
    exact .kept _ (by simp)
  · simp only [beat, hb]
    exact .kept _ (by simp)
  · simp only [beat, hb]
    refine turn_of_amend team (by simp) fun hid => ?_
    obtain rfl := List.mem_singleton.mp hid
    have hget := (MemoryStore.held_eq_some.1 hheld).1
    rw [MemoryStore.get_amend_mem hget hid, hget]
    exact .beaten row i k c moment leaseEnd rfl hc hbeat rfl hheld hlease rfl

theorem turn_end {i : Nat} {c : Claim V} {ending : Ending V} (hc : s.claims[i]? = some c)
    (hasked : c.phase = .asked ending) :
    Turn team s (.lands i) [] id (s.store.get id)
      ((end_ team s.store c ending).2.get id) := by
  rcases end_cases team s.store c ending with ⟨-, he⟩ | ⟨row, hheld, he⟩
  · simp only [he]
    exact .kept _ (by simp)
  · simp only [he]
    refine turn_of_amend team (by simp) fun hid => ?_
    obtain rfl := List.mem_singleton.mp hid
    have hget := (MemoryStore.held_eq_some.1 hheld).1
    rw [MemoryStore.get_amend_mem hget hid, hget]
    exact .ended row i c ending rfl hc hasked rfl hheld rfl

end

theorem act_turn {s u : Fleet V} {e : Event V} {fresh : List (Claim V)}
    (h : s.act team e = some (u, fresh)) (id : Nat) :
    Turn team s e fresh id (s.store.get id) (u.store.get id) := by
  cases acts team h with
  | add task dueAt createdAt payload key priority hadd =>
      have hturn : Turn team s _ [] id (s.store.get id) _ :=
        turn_add id task dueAt createdAt payload key priority
      rwa [hadd] at hturn
  | claim hgrants => exact turn_claim id hgrants
  | reclaim moment => exact turn_reclaim id moment
  | cancel off moment => exact turn_cancel id off moment
  | purge before limit => exact turn_purge id before limit
  | beatLands hc hbeat => exact turn_beat id hc hbeat
  | lands hc hasked => exact turn_end id hc hasked
  | push | move | stop | drain | shut => exact .kept _ (by simp)

theorem act_sequence {s u : Fleet V} {e : Event V} {fresh : List (Claim V)}
    (h : s.act team e = some (u, fresh)) : s.store.sequence ≤ u.store.sequence := by
  cases acts team h with
  | add task dueAt createdAt payload key priority hadd =>
      unfold MemoryStore.add at hadd
      split at hadd <;> cases hadd
      · exact le_rfl
      · exact Nat.le_succ _
  | cancel id moment =>
      rcases MemoryStore.cancel_cases s.store id moment with ⟨-, hc⟩ | ⟨row, -, -, hc⟩
      · simp [hc]
      · simp [hc, MemoryStore.amend]
  | @beatLands i k c moment hc hbeat =>
      rcases MemoryStore.heartbeat_cases s.store c.row.id (team c.worker).name c.row.attempts
          (team c.worker).lease moment with ⟨-, hb⟩ | ⟨-, hb⟩ | ⟨row, leaseEnd, -, -, hb⟩
      all_goals simp [beat, hb, MemoryStore.amend]
  | @lands i c ending hc hasked =>
      rcases end_cases team s.store c ending with ⟨-, he⟩ | ⟨row, -, he⟩
      all_goals simp [he, MemoryStore.amend]
  | claim | reclaim | purge | push | move | stop | drain | shut => exact le_rfl

/-- A run the store did not hold before a step is one the step wrote, as it wrote it. -/
theorem act_written {s u : Fleet V} {e : Event V} {fresh : List (Claim V)}
    (h : s.act team e = some (u, fresh)) :
    (u.written = s.written ∧ ∀ id row, s.store.get id = none → u.store.get id ≠ some row) ∨
    (∃ task dueAt createdAt payload key priority,
      e = .add task dueAt createdAt payload key priority ∧
      u.written = s.written ++
        [⟨build task dueAt createdAt payload key priority, s.store.sequence + 1⟩] ∧
      u.store = s.store.write (build task dueAt createdAt payload key priority)) := by
  have hnew : (∀ task dueAt createdAt payload key priority,
      e ≠ .add task dueAt createdAt payload key priority) →
      ∀ id row, s.store.get id = none → u.store.get id ≠ some row := by
    intro hother id row hnone hrow
    have hturn := act_turn team h id
    rw [hnone, hrow] at hturn
    cases hturn with
    | born task dueAt createdAt payload key priority he =>
        exact hother task dueAt createdAt payload key priority he
  cases acts team h with
  | add task dueAt createdAt payload key priority hadd =>
      unfold MemoryStore.add at hadd
      split at hadd <;> cases hadd
      · exact Or.inl ⟨by simp, fun id row hnone hrow => by simp [hnone] at hrow⟩
      · exact Or.inr ⟨task, dueAt, createdAt, payload, key, priority, rfl, rfl, rfl⟩
  | claim | reclaim | cancel | purge | push | beatLands | move | lands | stop | drain | shut =>
      exact Or.inl ⟨rfl, hnew (by simp)⟩

section

variable {team} {s u : Fleet V} {e : Event V} {fresh : List (Claim V)}

theorem act_keeps_written (h : s.act team e = some (u, fresh)) {w : Row Nat V}
    (hw : w ∈ s.written) : w ∈ u.written := by
  rcases act_written team h with ⟨heq, -⟩ | ⟨_, _, _, _, _, _, -, heq, -⟩
  · exact heq ▸ hw
  · rw [heq]
    exact List.mem_append_left _ hw

theorem mem_written (h : s.act team e = some (u, fresh)) {w : Row Nat V} (hw : w ∈ u.written) :
    w ∈ s.written ∨ ∃ task dueAt createdAt payload key priority,
      w = ⟨build task dueAt createdAt payload key priority, s.store.sequence + 1⟩ ∧
      u.store = s.store.write (build task dueAt createdAt payload key priority) := by
  rcases act_written team h with ⟨heq, -⟩ | ⟨_, _, _, _, _, _, -, heq, hstore⟩
  · exact Or.inl (heq ▸ hw)
  · rw [heq, List.mem_append, List.mem_singleton] at hw
    exact hw.imp_right fun h => ⟨_, _, _, _, _, _, h, hstore⟩

/-- A run that is stored after a step and was not before is the one it wrote. -/
theorem act_born (h : s.act team e = some (u, fresh)) {id : Nat} {row : Row Nat V}
    (hbefore : s.store.get id = none) (hrow : u.store.get id = some row) :
    row ∈ u.written ∧ id = s.store.sequence + 1 := by
  rcases act_written team h with ⟨-, hnone⟩ | ⟨_, _, _, _, _, _, -, heq, hstore⟩
  · exact absurd hrow (hnone id row hbefore)
  · rw [hstore, MemoryStore.get_write] at hrow
    split at hrow
    · rename_i hid
      subst hid
      cases hrow
      rw [heq]
      exact ⟨List.mem_append_right _ (List.mem_singleton_self _), rfl⟩
    · rw [hbefore] at hrow
      cases hrow

end

/-! ## The claims -/

theorem replace_claims {s : Fleet V} {e : Event V} {i : Nat} {c c' : Claim V}
    (hc : s.claims[i]? = some c) (he : e.subject = some i) (hadv : Advance team s e i c c') :
    (s.replace i c').claims.length = s.claims.length ∧
      ∀ (j : Nat) (d : Claim V), (s.replace i c').claims[j]? = some d →
        ∃ d₀, s.claims[j]? = some d₀ ∧ Advance team s e j d₀ d := by
  refine ⟨by simp [replace], fun j d hd => ?_⟩
  simp only [replace, List.getElem?_set] at hd
  by_cases hij : i = j
  · subst hij
    have hlt := (List.getElem?_eq_some_iff.mp hc).1
    rw [if_pos rfl, if_pos hlt, Option.some.injEq] at hd
    subst hd
    exact ⟨c, hc, hadv⟩
  · rw [if_neg hij] at hd
    exact ⟨d, hd, .kept (by simpa [he] using hij)⟩

/-- The claims there were stay where they stand, and each advances on its own. -/
theorem act_claims {s u : Fleet V} {e : Event V} {fresh : List (Claim V)}
    (h : s.act team e = some (u, fresh)) :
    u.claims.length = s.claims.length ∧
      ∀ (i : Nat) (c' : Claim V), u.claims[i]? = some c' →
        ∃ c, s.claims[i]? = some c ∧ Advance team s e i c c' := by
  have hsame : e.subject = none → s.claims.length = s.claims.length ∧
      ∀ (i : Nat) (c' : Claim V), s.claims[i]? = some c' →
        ∃ c, s.claims[i]? = some c ∧ Advance team s e i c c' :=
    fun he => ⟨rfl, fun i c' hc' => ⟨c', hc', .kept (by simp [he])⟩⟩
  cases acts team h with
  | push moment hc hphase => exact replace_claims team hc rfl (.pushed moment rfl)
  | @beatLands i k c moment hc hbeat => exact replace_claims team hc rfl (.beat k rfl)
  | move hc hm => exact replace_claims team hc rfl (.moved _ _ rfl hm)
  | lands hc hasked => exact replace_claims team hc rfl (.landed _ rfl hasked)
  | add | claim | reclaim | cancel | purge | stop | drain | shut => exact hsame rfl

theorem act_fresh {s u : Fleet V} {e : Event V} {fresh : List (Claim V)}
    (h : s.act team e = some (u, fresh)) :
    fresh = [] ∨ ∃ worker limit moment heard ids f, e = .claim worker limit moment heard ∧
      u = { s with store := s.store.amend ids f } ∧
      Grants team s worker limit moment heard fresh ids f := by
  cases acts team h with
  | claim hgrants => exact Or.inr ⟨_, _, _, _, _, _, rfl, rfl, hgrants⟩
  | add | reclaim | cancel | purge | push | beatLands | move | lands | stop | drain | shut =>
      exact Or.inl rfl

/-- A run a claim turns from waiting to running is one it granted. -/
theorem granted_fresh {s u : Fleet V} {fresh : List (Claim V)} {worker limit : Nat}
    {moment : Instant} {heard : Bool}
    (h : s.act team (.claim worker limit moment heard) = some (u, fresh)) {id : Nat}
    {row row' : Row Nat V} (hget : s.store.get id = some row) (hpending : row.status = .pending)
    (hafter : u.store.get id = some row') (hrunning : row'.status = .running) :
    ∃ c ∈ fresh, c.row.id = id := by
  rcases claim_spec team h with ⟨ids, f, rfl, hgrants⟩
  by_cases hid : id ∈ ids
  · exact hgrants.covered id hid
  · rw [MemoryStore.get_amend_not_mem hid, hget, Option.some.injEq] at hafter
    rw [← hafter, hpending] at hrunning
    cases hrunning

theorem step_eq_some {s t : Fleet V} {e : Event V} :
    s.step team e = some t ↔
      ∃ u fresh, s.act team e = some (u, fresh) ∧ u.observe fresh = t := by
  unfold step
  rw [Option.map_eq_some_iff]
  exact ⟨fun ⟨⟨u, fresh⟩, h, ht⟩ => ⟨u, fresh, h, ht⟩, fun ⟨u, fresh, h, ht⟩ => ⟨(u, fresh), h, ht⟩⟩

/-- A claim after a step is one there was, advanced and watched, or a fresh one. -/
theorem step_claim {s u : Fleet V} {e : Event V} {fresh : List (Claim V)}
    (h : s.act team e = some (u, fresh)) {i : Nat} {c' : Claim V}
    (hc' : (u.observe fresh).claims[i]? = some c') :
    (∃ c c₁, s.claims[i]? = some c ∧ Advance team s e i c c₁ ∧
      c' = watch u.store (fresh.map (·.row.id)) c₁) ∨
    (s.claims.length ≤ i ∧ fresh[i - s.claims.length]? = some c') := by
  obtain ⟨hlen, hadv⟩ := act_claims team h
  simp only [observe, List.getElem?_append, List.length_map, List.getElem?_map] at hc'
  split at hc'
  · obtain ⟨c₁, hc₁, rfl⟩ := Option.map_eq_some_iff.mp hc'
    obtain ⟨c, hc, hcc₁⟩ := hadv i c₁ hc₁
    exact Or.inl ⟨c, c₁, hc, hcc₁, rfl⟩
  · rename_i hlt
    exact Or.inr ⟨by omega, hlen ▸ hc'⟩

/-- And every claim there was is still there, advanced and watched. -/
theorem claim_step {s u : Fleet V} {e : Event V} {fresh : List (Claim V)}
    (h : s.act team e = some (u, fresh)) {i : Nat} {c : Claim V} (hc : s.claims[i]? = some c) :
    ∃ c₁, Advance team s e i c c₁ ∧
      (u.observe fresh).claims[i]? = some (watch u.store (fresh.map (·.row.id)) c₁) := by
  obtain ⟨hlen, hadv⟩ := act_claims team h
  have hlt := hlen ▸ (List.getElem?_eq_some_iff.mp hc).1
  obtain ⟨c₁, hc₁⟩ : ∃ c₁, u.claims[i]? = some c₁ := ⟨_, List.getElem?_eq_getElem hlt⟩
  obtain ⟨c₀, hc₀, hcc₁⟩ := hadv i c₁ hc₁
  rw [hc, Option.some.injEq] at hc₀
  subst hc₀
  refine ⟨c₁, hcc₁, ?_⟩
  simp only [observe, List.getElem?_append, List.length_map, hlt, if_true, List.getElem?_map,
    hc₁, Option.map_some]

end Fleet

end Queuefy
