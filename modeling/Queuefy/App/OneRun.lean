import Queuefy.App.Materialize

/-! # One occurrence, one run

The key of a slot keeps a second run of it out for as long as the first is stored, and no pass
writes a slot that has come; so a slot is written once, as long as its first run is stored until
the slot has come. A run is over before its slot only when it was called off, and then a pruning
may drop it while its slot is still ahead.
-/

namespace Queuefy

variable {V : Type}

/-! ## What a call makes of one run -/

namespace MemoryStore

/-- A run a call found and the run it left: the same, one an attempt was holding, one that was due
and is claimed, or one that was waiting and is called off. -/
def Leaves (q : Request Nat V) (old new : Run V) : Prop :=
  new = old ∨ old.status = .running ∨
    (old.status = .pending ∧ ∃ worker queues limit lease moment,
      q = .claim worker queues limit lease moment ∧ old.dueAt ≤ moment) ∨
    old.status = .pending ∧ new.status = .canceled

/-- Where a call changes the runs under some ids, and says what it found of each. -/
theorem leaves_amend {m : MemoryStore V} {q : Request Nat V} {ids : List Nat} {f : Run V → Run V}
    (hids : ∀ id ∈ ids, ∀ row, m.get id = some row → Leaves q row.toRun (f row.toRun)) {id : Nat}
    {row : Row Nat V} (h : (m.amend ids f).get id = some row) :
    ∃ old, m.get id = some old ∧ Leaves q old.toRun row.toRun := by
  rw [get_amend] at h
  obtain ⟨old, hold, rfl⟩ := Option.map_eq_some_iff.1 h
  refine ⟨old, hold, ?_⟩
  by_cases hmem : old.id ∈ ids
  · rw [amended_of_mem hmem]
    rw [get_id hold] at hmem
    exact hids id hmem old hold
  · rw [amended_of_not_mem hmem]
    exact Or.inl rfl

theorem leaves_settle {m : MemoryStore V} {q : Request Nat V} {id : Nat} {worker : String}
    {attempt : Int} {f : Run V → Run V} {i : Nat} {row : Row Nat V}
    (h : (m.settle id worker attempt f).2.get i = some row) :
    ∃ old, m.get i = some old ∧ Leaves q old.toRun row.toRun := by
  rcases m.settle_cases id worker attempt f with ⟨-, heq⟩ | ⟨held, hheld, heq⟩
  · rw [heq] at h
    exact ⟨row, h, Or.inl rfl⟩
  · rw [heq] at h
    refine leaves_amend (fun id' hid' old hold => ?_) h
    obtain ⟨hget, -, hrunning, -⟩ := held_eq_some.1 hheld
    rw [List.mem_singleton.1 hid', hget, Option.some.injEq] at hold
    exact Or.inr (Or.inl (hold ▸ hrunning))

theorem leaves_claim {m : MemoryStore V} {worker : String} {queues : List String} {limit : Nat}
    {lease : Int} {moment : Instant} {i : Nat} {row : Row Nat V}
    (h : (m.claim worker queues limit lease moment).2.get i = some row) :
    ∃ old, m.get i = some old ∧
      Leaves (.claim worker queues limit lease moment) old.toRun row.toRun := by
  have hchosen : ∀ id ∈ (m.chosen queues limit moment).map (·.id), ∀ old, m.get id = some old →
      ∀ new, Leaves (.claim worker queues limit lease moment) old.toRun new := by
    intro id hid old hold new
    obtain ⟨other, hother, rfl⟩ := List.mem_map.1 hid
    obtain ⟨hget, hpending, -, hdue⟩ := mem_chosen hother
    rw [hget, Option.some.injEq] at hold
    subst hold
    exact Or.inr (Or.inr (Or.inl ⟨hpending, _, _, _, _, _, rfl, hdue⟩))
  cases hlease : moment.plus lease with
  | none =>
      rw [m.claim_of_overflow worker queues limit hlease] at h
      split at h
      · exact ⟨row, h, Or.inl rfl⟩
      · rename_i first rest hfirst
        refine leaves_amend (fun id hid old hold => hchosen id ?_ old hold _) h
        rw [List.mem_singleton.1 hid, hfirst]
        exact List.mem_cons_self
  | some leaseEnd =>
      rw [m.claim_of_plus worker queues limit hlease] at h
      exact leaves_amend (fun id hid old hold => hchosen id hid old hold _) h

/-- What a call that writes no run leaves under an id it found there. -/
theorem leaves_perform {m : MemoryStore V} {q : Request Nat V} (hq : ∀ run, q ≠ .add run) {id : Nat}
    {row : Row Nat V} (h : (m.perform q).2.get id = some row) :
    ∃ old, m.get id = some old ∧ Leaves q old.toRun row.toRun := by
  cases q with
  | add run => exact absurd rfl (hq run)
  | claim worker queues limit lease moment => exact leaves_claim h
  | heartbeat id' worker attempt lease moment =>
      have h : (m.heartbeat id' worker attempt lease moment).2.get id = some row := h
      rcases m.heartbeat_cases id' worker attempt lease moment with
        ⟨-, heq⟩ | ⟨-, heq⟩ | ⟨held, leaseEnd, hheld, -, heq⟩
      · rw [heq] at h
        exact ⟨row, h, Or.inl rfl⟩
      · rw [heq] at h
        exact ⟨row, h, Or.inl rfl⟩
      · rw [heq] at h
        refine leaves_amend (fun i hi old hold => ?_) h
        obtain ⟨hget, -, hrunning, -⟩ := held_eq_some.1 hheld
        rw [List.mem_singleton.1 hi, hget, Option.some.injEq] at hold
        exact Or.inr (Or.inl (hold ▸ hrunning))
  | complete | fail | retryLater | release => exact leaves_settle h
  | reclaim moment =>
      refine leaves_amend (fun i hi old hold => ?_) h
      exact Or.inr (Or.inl (abandoned_of_id hold hi).1)
  | cancel id' moment =>
      have h : (m.cancel id' moment).2.get id = some row := h
      rcases m.cancel_cases id' moment with ⟨-, heq⟩ | ⟨found, hget, hpending, heq⟩
      · rw [heq] at h
        exact ⟨row, h, Or.inl rfl⟩
      · rw [heq] at h
        refine leaves_amend (fun i hi old hold => ?_) h
        rw [List.mem_singleton.1 hi, hget, Option.some.injEq] at hold
        subst hold
        exact Or.inr (Or.inr (Or.inr ⟨hpending, rfl⟩))
  | purge before limit =>
      have h : (m.drop ((m.gone before limit).map (·.id))).get id = some row := h
      rw [get_drop] at h
      split at h
      · cases h
      · exact ⟨row, h, Or.inl rfl⟩
  | find | get => exact ⟨row, h, Or.inl rfl⟩

theorem pruned_settled {m : MemoryStore V} {q : Request Nat V} {id : Nat} (h : id ∈ m.pruned q)
    {row : Row Nat V} (hrow : m.get id = some row) : row.status.settled = true := by
  cases q with
  | purge before limit =>
      obtain ⟨other, hother, rfl⟩ := List.mem_map.1 h
      obtain ⟨hget, hover⟩ := mem_gone hother
      rw [hget, Option.some.injEq] at hrow
      subst hrow
      exact (isOver_iff.1 hover).1
  | _ => cases h

end MemoryStore

/-! ## The runs of a slot -/

def Request.adds : Request Nat V → Bool
  | .add _ => true
  | _ => false

theorem Request.Foreign.of_not_add {q : Request Nat V} (h : q.adds = false) : q.Foreign := by
  rintro run rfl
  cases h

/-- A call is made at an instant that has come; a pruning drops what was over before one. -/
def Request.Timed (clock : Instant) : Request Nat V → Prop
  | .claim _ _ _ _ moment | .heartbeat _ _ _ _ moment | .complete _ _ _ moment _
  | .fail _ _ _ moment _ _ | .reclaim moment | .cancel _ moment => moment ≤ clock
  | .purge before _ => before ≤ clock
  | .add _ | .retryLater .. | .release .. | .find _ | .get _ => True

instance (clock : Instant) (q : Request Nat V) : Decidable (q.Timed clock) :=
  match q with
  | .claim _ _ _ _ _ | .heartbeat _ _ _ _ _ | .complete _ _ _ _ _ | .fail _ _ _ _ _ _
  | .reclaim _ | .cancel _ _ | .purge _ _ => inferInstanceAs (Decidable (_ ≤ clock))
  | .add _ | .retryLater .. | .release .. | .find _ | .get _ => isTrue trivial

namespace Rota

/-- Every call but the writes of slots is asked on the shared clock. -/
def Timed (s : Rota V) : Beat V → Prop
  | .other q _ => q.Timed s.clock
  | _ => True

instance (s : Rota V) (e : Beat V) : Decidable (Timed s e) :=
  match e with
  | .other q _ => inferInstanceAs (Decidable (q.Timed s.clock))
  | .tick _ | .arrive _ | .restart .. | .start _ | .advance .. => isTrue trivial

/-- Whether a pass that goes on with a task writes its slot ahead of it. -/
def Ahead (s : Rota V) (p : Poller) : Prop :=
  ∀ moment task rest due, p.pass = .passing moment (task :: rest) →
    p.work task moment = .write due → s.clock < due

/-- No pruning drops a called off run of a slot that is still ahead, and no write of a slot lands
once the slot has come. -/
def Spared (s : Rota V) : Beat V → Prop
  | .other q _ => ∀ id ∈ s.store.pruned q, ∀ row, s.store.get id = some row →
      row.status = .canceled → ∀ name slot, row.key = some (occurrenceKey name slot) →
        slot ≤ s.clock
  | .advance i told => told.lands = true → ∀ p, s.pollers[i]? = some p → s.Ahead p
  | _ => True

/-- The task and the slot of every run a pass wrote. -/
def occurrences (s : Rota V) : List (String × Instant) :=
  s.entries.map fun entry => (entry.row.name, entry.row.dueAt)

/-- Until its slot has come, the run written for it is stored, and waits or was called off. -/
structure Single (s : Rota V) : Prop where
  keyed : ∀ entry ∈ s.entries,
    entry.row.key = some (occurrenceKey entry.row.name entry.row.dueAt)
  stored : ∀ entry ∈ s.entries, s.clock < entry.row.dueAt →
    s.store.keyOf entry.row.id = some entry.row.key
  waiting : ∀ id row name slot, s.store.get id = some row →
    row.key = some (occurrenceKey name slot) → s.clock < slot →
      row.status = .pending ∧ row.dueAt = slot ∨ row.status = .canceled
  once : s.occurrences.Nodup

theorem single_opened (clock : Instant) : (opened clock : Rota V).Single where
  keyed := fun _ h => by cases h
  stored := fun _ h => by cases h
  waiting := fun _ _ _ _ h => by cases h
  once := List.nodup_nil

theorem Single.tick {s : Rota V} (h : s.Single) {later : Instant} (hlater : s.clock ≤ later) :
    Single { s with clock := later } where
  keyed := h.keyed
  stored := fun entry hentry hlt => h.stored entry hentry (hlater.trans_lt hlt)
  waiting := fun id row name slot hrow hkey hlt =>
    h.waiting id row name slot hrow hkey (hlater.trans_lt hlt)
  once := h.once

/-- A run that is stored under its key stays so when another is written. -/
theorem stored_add {s : Rota V} (run : Run V) {id : Nat} {key : Option String}
    (h : s.store.keyOf id = some key) : (s.store.add run).2.keyOf id = some key := by
  rw [s.store.keyOf_add]
  split
  · exact h
  · rw [Function.update_of_ne, h]
    rintro rfl
    rw [MemoryStore.keyOf_past_sequence (Nat.lt_succ_self _)] at h
    cases h

/-- What is under an id after a run was written: what was there, or the run. -/
theorem get_add {s : Rota V} {run : Run V} {id : Nat} {row : Row Nat V}
    (h : (s.store.add run).2.get id = some row) :
    s.store.get id = some row ∨ row.toRun = run := by
  unfold MemoryStore.add at h
  split at h
  · exact Or.inl h
  · have h : (s.store.write run).get id = some row := h
    rw [MemoryStore.get_write] at h
    split at h
    · rw [Option.some.injEq] at h
      exact Or.inr (h ▸ rfl)
    · exact Or.inl h

theorem Single.other {s : Rota V} (h : s.Single) {q : Request Nat V} (hq : q.Foreign)
    (htimed : q.Timed s.clock)
    (hspared : ∀ id ∈ s.store.pruned q, ∀ row, s.store.get id = some row →
      row.status = .canceled → ∀ name slot, row.key = some (occurrenceKey name slot) →
        slot ≤ s.clock) :
    Single { s with store := (s.store.perform q).2 } where
  keyed := h.keyed
  stored := by
    intro entry hentry hlt
    have hkeyOf := h.stored entry hentry hlt
    by_cases hadd : ∃ run, q = .add run
    · obtain ⟨run, rfl⟩ := hadd
      exact stored_add run hkeyOf
    · show (s.store.perform q).2.keyOf _ = _
      rw [s.store.keyOf_perform fun run hrun => hadd ⟨run, hrun⟩, if_neg, hkeyOf]
      intro hid
      obtain ⟨row, hrow, hkey⟩ := Option.map_eq_some_iff.1 hkeyOf
      rw [h.keyed entry hentry] at hkey
      rcases h.waiting _ row _ _ hrow hkey hlt with ⟨hpending, -⟩ | hcanceled
      · have hsettled := MemoryStore.pruned_settled hid hrow
        rw [hpending] at hsettled
        cases hsettled
      · exact absurd (hspared _ hid row hrow hcanceled _ _ hkey) (not_le.2 hlt)
  waiting := by
    intro id row name slot hrow hkey hlt
    by_cases hadd : ∃ run, q = .add run
    · obtain ⟨run, rfl⟩ := hadd
      rcases get_add hrow with hold | hnew
      · exact h.waiting id row name slot hold hkey hlt
      · rw [hnew] at hkey
        exact absurd hkey (hq run rfl name slot)
    · have hforeign : ∀ run, q ≠ .add run := fun run hrun => hadd ⟨run, hrun⟩
      obtain ⟨old, hold, hleaves⟩ := MemoryStore.leaves_perform hforeign hrow
      have hkept : old.key = row.key := by
        have hkeyOf := s.store.keyOf_perform hforeign id
        have hnew : (s.store.perform q).2.keyOf id = some row.key :=
          Option.map_eq_some_iff.2 ⟨row, hrow, rfl⟩
        have hwas : s.store.keyOf id = some old.key := Option.map_eq_some_iff.2 ⟨old, hold, rfl⟩
        rw [hnew, hwas] at hkeyOf
        split at hkeyOf
        · cases hkeyOf
        · exact (Option.some.inj hkeyOf).symm
      rw [← hkept] at hkey
      rcases h.waiting id old name slot hold hkey hlt with ⟨hpending, hdue⟩ | hcanceled
      · rcases hleaves with hsame | hrunning | ⟨-, worker, queues, limit, lease, moment, rfl, hle⟩ |
          ⟨-, hcanceled⟩
        · rw [hsame]
          exact Or.inl ⟨hpending, hdue⟩
        · rw [hpending] at hrunning
          cases hrunning
        · rw [hdue] at hle
          exact absurd (hle.trans htimed) (not_le.2 hlt)
        · exact Or.inr hcanceled
      · rcases hleaves with hsame | hrunning | ⟨hpending, -⟩ | ⟨hpending, -⟩
        · rw [hsame]
          exact Or.inr hcanceled
        · rw [hcanceled] at hrunning
          cases hrunning
        · rw [hcanceled] at hpending
          cases hpending
        · rw [hcanceled] at hpending
          cases hpending
  once := h.once

theorem Single.write {blank : V} {s : Rota V} (h : s.Single) {task : Task} {due moment : Instant}
    (hahead : s.clock < due) : (s.write blank task due moment).Single where
  keyed := by
    intro entry hentry
    rcases mem_write.1 hentry with hold | ⟨-, rfl⟩
    · exact h.keyed entry hold
    · rfl
  stored := by
    intro entry hentry hlt
    rcases mem_write.1 hentry with hold | ⟨hfree, rfl⟩
    · exact stored_add _ (h.stored entry hold hlt)
    · show (s.store.add _).2.keyOf _ = _
      rw [s.store.keyOf_add, if_neg, Function.update_self]
      rw [Bool.not_eq_true]
      exact hfree
  waiting := by
    intro id row name slot hrow hkey hlt
    rcases get_add hrow with hold | hnew
    · exact h.waiting id row name slot hold hkey hlt
    · rw [hnew] at hkey ⊢
      obtain ⟨-, rfl⟩ := occurrenceKey_injective (Option.some.inj hkey)
      exact Or.inl ⟨rfl, rfl⟩
  once := by
    cases htaken : s.store.taken (some (occurrenceKey task.name due)) with
    | true =>
        have hsame : (s.write blank task due moment).entries = s.entries := by
          simp [Rota.write, MemoryStore.add, slotRun, build, htaken]
        unfold occurrences
        rw [hsame]
        exact h.once
    | false =>
        have hmore : (s.write blank task due moment).entries = s.entries ++
            [⟨⟨s.slotRun blank task due, s.store.sequence + 1⟩, moment, s.clock⟩] := by
          simp [Rota.write, MemoryStore.add, slotRun, build, htaken]
        unfold occurrences
        rw [hmore, List.map_append]
        refine h.once.append (List.nodup_singleton _) ?_
        intro occurrence hold hnew
        obtain ⟨entry, hentry, rfl⟩ := List.mem_map.1 hold
        have hpair := List.mem_singleton.1 hnew
        have hname : entry.row.name = task.name := congrArg Prod.fst hpair
        have hdue : entry.row.dueAt = due := congrArg Prod.snd hpair
        have hkeyOf := h.stored entry hentry (hdue ▸ hahead)
        rw [h.keyed entry hentry, hname, hdue] at hkeyOf
        have hheld := MemoryStore.taken_iff.2 ⟨_, hkeyOf⟩
        rw [htaken] at hheld
        cases hheld

theorem Single.congr {s t : Rota V} (h : s.Single) (hclock : t.clock = s.clock)
    (hstore : t.store = s.store) (hentries : t.entries = s.entries) : t.Single where
  keyed := by
    rw [hentries]
    exact h.keyed
  stored := by
    rw [hentries, hclock, hstore]
    exact h.stored
  waiting := by
    rw [hclock, hstore]
    exact h.waiting
  once := by
    unfold occurrences
    rw [hentries]
    exact h.once

theorem single_step {blank : V} {s t : Rota V} {e : Beat V} (h : s.Single) (htimed : Timed s e)
    (hspared : Spared s e) (ht : s.step blank e = some t) : t.Single := by
  rcases step_cases ht with ⟨later, hlater, rfl⟩ | ⟨app, -, hclock, hstore, hentries⟩ |
    ⟨p, -, after, -, hmoves⟩ | ⟨p, -, after, task, due, moment, rest, -, hwrites⟩ |
    ⟨q, foreign, rfl, rfl⟩
  · exact h.tick hlater
  · exact h.congr hclock hstore hentries
  · exact h.congr hmoves.clock hmoves.store hmoves.entries
  · obtain ⟨i, told, rfl, hp, hlands⟩ := hwrites.label
    have hahead : s.clock < due := hspared hlands p hp _ _ _ _ hwrites.passing hwrites.work
    exact (h.write hahead).congr hwrites.clock hwrites.store hwrites.entries
  · exact h.other foreign htimed hspared

/-- In every run in which no pruning drops a called off run of a slot that is still ahead, and no
write of a slot lands once the slot has come, at most one run is written for one slot of a task. -/
theorem one_occurrence_one_run {blank : V} {clock : Instant} {s : Rota V}
    (h : Reach (step blank) (fun s e => Timed s e ∧ Spared s e) (opened clock) s) :
    s.occurrences.Nodup := by
  have hsingle : s.Single := h.invariant (single_opened clock) fun _ hs hok ht =>
    single_step hs hok.1 hok.2 ht
  exact hsingle.once

/-- The first slot of a task due every minute, and the second. -/
def firstSlot : Instant := (Instant.epoch.plus 60000000).get rfl

def secondSlot : Instant := (Instant.epoch.plus 120000000).get rfl

/-- The slot is written, claimed once it has come and done, and pruned before the pass after. -/
def writtenOnce : List (Beat Unit) :=
  [.arrive minutelyApp, .start 0, .advance 0 .answered, .advance 0 .answered, .tick secondSlot,
   .other (.claim "w" ["default"] 1 1 firstSlot) (.of_not_add rfl),
   .other (.complete 1 "w" 1 firstSlot none) (.of_not_add rfl),
   .other (.purge secondSlot 10) (.of_not_add rfl)]

theorem one_occurrence_one_run_pruned : ∃ t,
    Reach (step ()) (fun s e => Timed s e ∧ Spared s e) (opened Instant.epoch) t ∧
      runAll (step ()) (opened Instant.epoch) writtenOnce = some t ∧ t.store.runs = [] ∧
        t.occurrences.Nodup := by
  have hahead : ∀ {s : Rota Unit} {i told}, (∀ p, s.pollers[i]? = some p → s.Ahead p) →
      Timed s (.advance i told) ∧ Spared s (.advance i told) :=
    fun h => ⟨trivial, fun _ => h⟩
  have hmeets : Meets (step ()) (fun s e => Timed s e ∧ Spared s e) (opened Instant.epoch)
      writtenOnce := by
    refine ⟨⟨trivial, trivial⟩, fun _ h => ?_⟩
    cases h
    refine ⟨⟨trivial, trivial⟩, fun _ h => ?_⟩
    cases h
    refine ⟨hahead fun p hp moment task rest due hpass hwork => ?_, fun _ h => ?_⟩
    · cases hp
      cases hpass
      cases hwork
      decide
    cases h
    refine ⟨hahead fun p hp moment task rest due hpass hwork => ?_, fun _ h => ?_⟩
    · cases hp
      cases hpass
    cases h
    refine ⟨⟨trivial, trivial⟩, fun _ h => ?_⟩
    cases h
    refine ⟨⟨by decide, fun id hid => by cases hid⟩, fun _ h => ?_⟩
    cases h
    refine ⟨⟨by decide, fun id hid => by cases hid⟩, fun _ h => ?_⟩
    cases h
    refine ⟨⟨by decide, fun id hid row hrow hstatus => ?_⟩, fun _ _ => trivial⟩
    cases hid with
    | head =>
        cases hrow
        cases hstatus
    | tail _ hrest => cases hrest
  have hreach := fun t (h : runAll (step ()) (opened Instant.epoch) writtenOnce = some t) =>
    Reach.of_meets .start hmeets h
  exact ⟨_, hreach _ rfl, rfl, rfl, one_occurrence_one_run (hreach _ rfl)⟩

/-- The slot is written and called off, the run is pruned while the slot is still ahead, and a
process that comes up again writes the slot once more. -/
def calledOffThenPruned : List (Beat Unit) :=
  [.arrive minutelyApp, .start 0, .advance 0 .answered, .advance 0 .answered,
   .other (.cancel 1 Instant.epoch) (.of_not_add rfl), .tick halfMinute,
   .other (.purge halfMinute 10) (.of_not_add rfl), .restart 0 minutelyApp, .start 0,
   .advance 0 .answered]

theorem called_off_runs_again : ∃ t, Reach (step ()) Timed (opened Instant.epoch) t ∧
    t.occurrences = [("pulse", firstSlot), ("pulse", firstSlot)] ∧ ¬ t.occurrences.Nodup := by
  have hmeets : Meets (step ()) Timed (opened Instant.epoch) calledOffThenPruned := by
    decide +kernel
  have htwice : (runAll (step ()) (opened Instant.epoch) calledOffThenPruned).map occurrences =
      some [("pulse", firstSlot), ("pulse", firstSlot)] := by
    decide +kernel
  obtain ⟨t, ht, hoccurrences⟩ := Option.map_eq_some_iff.1 htwice
  exact ⟨t, .of_meets .start hmeets ht, hoccurrences, by rw [hoccurrences]; decide⟩

/-- Two processes begin a pass at once; the slot one of them writes comes, is done and is pruned
before the write of the other lands. -/
def landedLate : List (Beat Unit) :=
  [.arrive minutelyApp, .arrive minutelyApp, .start 0, .start 1, .advance 0 .answered,
   .tick secondSlot, .other (.claim "w" ["default"] 1 1 firstSlot) (.of_not_add rfl),
   .other (.complete 1 "w" 1 firstSlot none) (.of_not_add rfl),
   .other (.purge secondSlot 10) (.of_not_add rfl), .advance 1 .answered]

theorem late_write_runs_again : ∃ t, Reach (step ()) Timed (opened Instant.epoch) t ∧
    t.occurrences = [("pulse", firstSlot), ("pulse", firstSlot)] := by
  have hmeets : Meets (step ()) Timed (opened Instant.epoch) landedLate := by
    decide +kernel
  have htwice : (runAll (step ()) (opened Instant.epoch) landedLate).map occurrences =
      some [("pulse", firstSlot), ("pulse", firstSlot)] := by
    decide +kernel
  obtain ⟨t, ht, hoccurrences⟩ := Option.map_eq_some_iff.1 htwice
  exact ⟨t, .of_meets .start hmeets ht, hoccurrences⟩

end Rota

end Queuefy
