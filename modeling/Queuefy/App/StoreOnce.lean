import Queuefy.Lib.Reach
import Queuefy.Store.Keys
import Queuefy.Store.Plain

/-! # Writing a run once

`Queuefy.store_once` writes a run, and where its key is taken looks for the run that took it. The
two are calls of their own with the world between them, so a pruning can free the key in between,
and then it asks again. Any number of calls under one key run beside each other and beside
everything else a store is asked.
-/

namespace Queuefy

variable {V : Type}

/-- How many times a write is asked again. -/
def rewrites : Nat := 3

/-- Where a call stands: about to write or to look for the holder, with so many rounds to follow
this one, or over. -/
inductive Asking (V : Type)
  | writing (rounds : Nat)
  | finding (rounds : Nat)
  | answered (found : Option (Row Nat V))
  | raised

/-- The head of the loop; past the last round it is the `QueueError`. -/
def Asking.round : Nat → Asking V
  | 0 => .raised
  | n + 1 => .writing n

/-- What a call makes of the answer to what it asked. -/
def Asking.heard : Asking V → Answer Nat V → Asking V
  | .writing n, .row written => if written.isSome then .answered written else .finding n
  | .finding n, .row held => if held.isSome then .answered held else .round n
  | asking, _ => asking

/-- One call of `store_once`. `during` is history: the store as the call began, and as every step
left it until the call was over. -/
structure Once (V : Type) (key : String) where
  run : Run V
  keyed : run.key = some key
  asking : Asking V
  during : List (MemoryStore V)

namespace Once

variable {key : String}

def closed (c : Once V key) : Bool :=
  match c.asking with
  | .writing _ | .finding _ => false
  | .answered _ | .raised => true

/-- What the call asks of the store next. -/
def request (c : Once V key) : Option (Request Nat V) :=
  match c.asking with
  | .writing _ => some (.add c.run)
  | .finding _ => some (.find key)
  | .answered _ | .raised => none

def watch (m : MemoryStore V) (c : Once V key) : Once V key :=
  if c.closed then c else { c with during := c.during ++ [m] }

end Once

/-- The calls under one key and the store they share. `written` is history: every run the store
ever took under the key. -/
structure Desk (V : Type) (key : String) where
  store : MemoryStore V
  calls : List (Once V key)
  written : List (Row Nat V)

/-- A call begins, one takes its next step, or the store is asked something else. -/
inductive Errand (V : Type) (key : String)
  | begin (run : Run V) (keyed : run.key = some key)
  | advance (call : Nat)
  | other (request : Request Nat V)

namespace Desk

variable {key : String}

def opened (store : MemoryStore V) : Desk V key := ⟨store, [], []⟩

/-- The run a request writes under the key, where it writes one. -/
def entered (key : String) (m : MemoryStore V) : Request Nat V → List (Row Nat V)
  | .add run => if run.key = some key then (m.add run).1.toList else []
  | _ => []

def serve (s : Desk V key) (q : Request Nat V) : Desk V key where
  store := (s.store.perform q).2
  calls := s.calls.map (Once.watch (s.store.perform q).2)
  written := s.written ++ entered key s.store q

def step (s : Desk V key) : Errand V key → Option (Desk V key)
  | .begin run keyed =>
      some { s with calls := s.calls ++ [⟨run, keyed, .round rewrites, [s.store]⟩] }
  | .other q => some (s.serve q)
  | .advance i =>
      match s.calls[i]? with
      | none => none
      | some c =>
          match c.request with
          | none => none
          | some q =>
              let heard := c.asking.heard (s.store.perform q).1
              let c := c.watch (s.store.perform q).2
              some { s.serve q with calls := (s.serve q).calls.set i { c with asking := heard } }

/-- No pruning drops a run that carries the key. -/
def Spared (s : Desk V key) : Errand V key → Prop
  | .other q => ∀ id ∈ s.store.pruned q, s.store.keyOf id ≠ some (some key)
  | _ => True

/-! ## One holder at most -/

/-- At most one stored run carries the key. -/
def Single (key : String) (m : MemoryStore V) : Prop :=
  ∀ i j, m.keyOf i = some (some key) → m.keyOf j = some (some key) → i = j

theorem single_perform {m : MemoryStore V} (h : Single key m) (q : Request Nat V) :
    Single key (m.perform q).2 := by
  by_cases hq : ∀ run, q ≠ .add run
  · intro i j hi hj
    rw [m.keyOf_perform hq] at hi hj
    split at hi
    · cases hi
    · split at hj
      · cases hj
      · exact h i j hi hj
  · push Not at hq
    obtain ⟨run, rfl⟩ := hq
    show Single key (m.add run).2
    intro i j hi hj
    rw [m.keyOf_add] at hi hj
    split at hi
    · rename_i htaken
      rw [if_pos htaken] at hj
      exact h i j hi hj
    · rename_i hfree
      rw [if_neg hfree] at hj
      have hnone : run.key = some key → ∀ id, m.keyOf id ≠ some (some key) := by
        intro hkey id hid
        rw [hkey] at hfree
        exact hfree (MemoryStore.taken_iff.2 ⟨id, hid⟩)
      by_cases hi' : i = m.sequence + 1
      · by_cases hj' : j = m.sequence + 1
        · rw [hi', hj']
        · subst hi'
          rw [Function.update_self, Option.some.injEq] at hi
          rw [Function.update_of_ne hj'] at hj
          exact absurd hj (hnone hi j)
      · rw [Function.update_of_ne hi'] at hi
        by_cases hj' : j = m.sequence + 1
        · subst hj'
          rw [Function.update_self, Option.some.injEq] at hj
          exact absurd hi (hnone hj i)
        · rw [Function.update_of_ne hj'] at hj
          exact h i j hi hj

/-! ## What a step does -/

/-- A step the store is asked `q` in. The calls go on as they are, but for the one that asked. -/
structure Serves (s : Desk V key) (q : Request Nat V) (t : Desk V key) : Prop where
  store : t.store = (s.store.perform q).2
  written : t.written = s.written ++ entered key s.store q
  calls : ∀ c ∈ t.calls, ∃ old ∈ s.calls, c = old.watch t.store ∨
    old.request = some q ∧
      c = { old.watch t.store with asking := old.asking.heard (s.store.perform q).1 }

theorem serve_serves (s : Desk V key) (q : Request Nat V) : Serves s q (s.serve q) := by
  refine ⟨rfl, rfl, fun c hc => ?_⟩
  obtain ⟨old, hold, rfl⟩ := List.mem_map.mp hc
  exact ⟨old, hold, Or.inl rfl⟩

theorem step_cases {s t : Desk V key} {e : Errand V key} (h : s.step e = some t) :
    (∃ run keyed, t = { s with calls := s.calls ++ [⟨run, keyed, .round rewrites, [s.store]⟩] }) ∨
      ∃ q, Serves s q t ∧ (Spared s e → ∀ id ∈ s.store.pruned q,
        s.store.keyOf id ≠ some (some key)) := by
  cases e with
  | begin run keyed =>
      cases h
      exact Or.inl ⟨run, keyed, rfl⟩
  | other q =>
      cases h
      exact Or.inr ⟨q, serve_serves s q, fun hspared => hspared⟩
  | advance i =>
      right
      simp only [step] at h
      split at h
      · cases h
      · rename_i c hc
        split at h
        · cases h
        · rename_i q hq
          cases h
          refine ⟨q, ⟨rfl, rfl, fun c' hc' => ?_⟩, fun _ id hid => ?_⟩
          · rcases List.mem_or_eq_of_mem_set hc' with hmem | rfl
            · obtain ⟨old, hold, rfl⟩ := List.mem_map.mp hmem
              exact ⟨old, hold, Or.inl rfl⟩
            · exact ⟨c, List.mem_of_getElem? hc, Or.inr ⟨hq, rfl⟩⟩
          · -- a call writes or looks, and neither drops a run
            unfold Once.request at hq
            split at hq <;> cases hq <;> cases hid

theorem mem_watch {m m' : MemoryStore V} {c : Once V key} (h : m' ∈ c.during) :
    m' ∈ (c.watch m).during := by
  unfold Once.watch
  split
  · exact h
  · exact List.mem_append_left _ h

theorem watch_asking (m : MemoryStore V) (c : Once V key) : (c.watch m).asking = c.asking := by
  unfold Once.watch
  split <;> rfl

/-- What a call is told in the step that ends it was in the store that step left, and that store is
the last one of the call. -/
theorem heard_answered {s : MemoryStore V} {c : Once V key} {q : Request Nat V}
    (hq : c.request = some q) {found : Option (Row Nat V)}
    (h : c.asking.heard (s.perform q).1 = .answered found) :
    ∃ row, found = some row ∧ row ∈ (s.perform q).2.runs ∧ row.key = some key ∧
      (s.perform q).2 ∈ (c.watch (s.perform q).2).during := by
  have hlast : c.closed = false → (s.perform q).2 ∈ (c.watch (s.perform q).2).during := by
    intro hopen
    simp [Once.watch, hopen]
  cases hasking : c.asking with
  | writing n =>
      simp only [Once.request, hasking, Option.some.injEq] at hq
      subst hq
      have hopen : c.closed = false := by simp [Once.closed, hasking]
      have hafter := hlast hopen
      simp only [hasking, MemoryStore.perform, MemoryStore.add] at h hafter ⊢
      split at h
      · cases h
      · rename_i hfree
        rw [if_neg hfree] at hafter ⊢
        cases h
        exact ⟨_, rfl, by simp [MemoryStore.write], c.keyed, hafter⟩
  | finding n =>
      simp only [Once.request, hasking, Option.some.injEq] at hq
      subst hq
      have hopen : c.closed = false := by simp [Once.closed, hasking]
      have hafter := hlast hopen
      simp only [hasking, MemoryStore.perform, Asking.heard] at h hafter ⊢
      cases hfind : s.find key with
      | none =>
          rw [hfind] at h
          cases n <;> cases h
      | some row =>
          rw [hfind] at h
          cases h
          obtain ⟨hmem, hkey⟩ := MemoryStore.find_spec hfind
          exact ⟨row, rfl, hmem, hkey, hafter⟩
  | answered found => simp [Once.request, hasking] at hq
  | raised => simp [Once.request, hasking] at hq

/-! ## What every call comes back with -/

/-- Every call that is over came back with a run that carried the key in one of its stores. -/
def Answered (s : Desk V key) : Prop :=
  ∀ c ∈ s.calls, ∀ found, c.asking = .answered found →
    ∃ row, found = some row ∧ ∃ m ∈ c.during, row ∈ m.runs ∧ row.key = some key

theorem answered_step {s t : Desk V key} {e : Errand V key} (hs : Answered s)
    (h : s.step e = some t) : Answered t := by
  intro c hc found hfound
  rcases step_cases h with ⟨run, keyed, rfl⟩ | ⟨q, hserves, -⟩
  · rcases List.mem_append.mp hc with hold | hnew
    · exact hs c hold found hfound
    · rw [List.mem_singleton.mp hnew] at hfound
      cases hfound
  · obtain ⟨old, hold, rfl | ⟨hq, rfl⟩⟩ := hserves.calls c hc
    · rw [watch_asking] at hfound
      obtain ⟨row, hrow, m, hm, hkey⟩ := hs old hold found hfound
      exact ⟨row, hrow, m, mem_watch hm, hkey⟩
    · obtain ⟨row, hrow, hmem, hkey, hlast⟩ := heard_answered hq hfound
      rw [hserves.store]
      exact ⟨row, hrow, _, hlast, hmem, hkey⟩

theorem single_step {s t : Desk V key} {e : Errand V key} (hs : Single key s.store)
    (h : s.step e = some t) : Single key t.store := by
  rcases step_cases h with ⟨run, keyed, rfl⟩ | ⟨q, hserves, -⟩
  · exact hs
  · rw [hserves.store]
    exact single_perform hs q

/-! ## While no holder is dropped -/

theorem holder_stays {m : MemoryStore V} {q : Request Nat V} {id : Nat}
    (hspared : ∀ id ∈ m.pruned q, m.keyOf id ≠ some (some key))
    (h : m.keyOf id = some (some key)) : (m.perform q).2.keyOf id = some (some key) := by
  by_cases hq : ∀ run, q ≠ .add run
  · rw [m.keyOf_perform hq, if_neg fun hid => hspared id hid h, h]
  · push Not at hq
    obtain ⟨run, rfl⟩ := hq
    show (m.add run).2.keyOf id = _
    rw [m.keyOf_add]
    split
    · exact h
    · have hne : id ≠ m.sequence + 1 := by
        rintro rfl
        rw [MemoryStore.keyOf_past_sequence (Nat.lt_succ_self _)] at h
        cases h
      rwa [Function.update_of_ne hne]

/-- Where a call can stand as long as no holder is dropped: one that was refused finds the holder,
and one that is over came back with it. -/
def Stands (key : String) (m : MemoryStore V) : Asking V → Prop
  | .writing _ => True
  | .finding _ => ∃ id, m.keyOf id = some (some key)
  | .answered found => ∃ row, found = some row ∧ m.keyOf row.id = some (some key)
  | .raised => False

/-- At most one run was written, and from then on the key has been held. -/
structure Steady (s : Desk V key) : Prop where
  single : Single key s.store
  written : s.written.length ≤ 1
  holder : s.written ≠ [] → ∃ id, s.store.keyOf id = some (some key)
  stands : ∀ c ∈ s.calls, Stands key s.store c.asking

theorem Stands.stays {m : MemoryStore V} {q : Request Nat V}
    (hspared : ∀ id ∈ m.pruned q, m.keyOf id ≠ some (some key)) {asking : Asking V}
    (h : Stands key m asking) : Stands key (m.perform q).2 asking := by
  cases asking with
  | writing n => trivial
  | finding n =>
      obtain ⟨id, hid⟩ := h
      exact ⟨id, holder_stays hspared hid⟩
  | answered found =>
      obtain ⟨row, hrow, hid⟩ := h
      exact ⟨row, hrow, holder_stays hspared hid⟩
  | raised => exact h

/-- The call that asked is refused because the key is held, or comes back with the holder. -/
theorem Stands.heard {m : MemoryStore V} {c : Once V key} {q : Request Nat V}
    (hq : c.request = some q) (h : Stands key m c.asking) :
    Stands key (m.perform q).2 (c.asking.heard (m.perform q).1) := by
  cases hasking : c.asking with
  | writing n =>
      simp only [Once.request, hasking, Option.some.injEq] at hq
      subst hq
      simp only [MemoryStore.perform, MemoryStore.add]
      split
      · rename_i htaken
        rw [c.keyed] at htaken
        exact MemoryStore.taken_iff.1 htaken
      · refine ⟨_, rfl, ?_⟩
        rw [MemoryStore.keyOf_write, Function.update_self, c.keyed]
  | finding n =>
      simp only [Once.request, hasking, Option.some.injEq] at hq
      subst hq
      rw [hasking] at h
      obtain ⟨id, hid⟩ := h
      simp only [MemoryStore.perform, Asking.heard]
      cases hfind : m.find key with
      | none => exact absurd hid (MemoryStore.find_eq_none.1 hfind id)
      | some row =>
          obtain ⟨hmem, hkey⟩ := MemoryStore.find_spec hfind
          exact ⟨row, rfl, hkey ▸ MemoryStore.keyOf_of_mem hmem⟩
  | answered found => simp [Once.request, hasking] at hq
  | raised => simp [Once.request, hasking] at hq

theorem steady_opened {m : MemoryStore V} (h : Single key m) : Steady (opened m : Desk V key) :=
  ⟨h, Nat.zero_le 1, fun hne => absurd rfl hne, fun c hc => by cases hc⟩

theorem steady_step {s t : Desk V key} {e : Errand V key} (hs : Steady s) (hspared : Spared s e)
    (h : s.step e = some t) : Steady t := by
  have hsingle := single_step hs.single h
  rcases step_cases h with ⟨run, keyed, rfl⟩ | ⟨q, hserves, hkeep⟩
  · refine ⟨hsingle, hs.written, hs.holder, fun c hc => ?_⟩
    rcases List.mem_append.mp hc with hold | hnew
    · exact hs.stands c hold
    · rw [List.mem_singleton.mp hnew]
      trivial
  · have hspared := hkeep hspared
    have hentered : entered key s.store q ≠ [] →
        (∀ id, s.store.keyOf id ≠ some (some key)) ∧ (entered key s.store q).length = 1 ∧
          ∃ id, t.store.keyOf id = some (some key) := by
      intro hne
      cases q with
      | add run =>
          simp only [entered] at hne ⊢
          split at hne
          · rename_i hkey
            rw [if_pos hkey]
            simp only [MemoryStore.add] at hne ⊢
            split at hne
            · exact absurd rfl hne
            · rename_i hfree
              rw [if_neg hfree]
              rw [hkey] at hfree
              refine ⟨fun id hid => hfree (MemoryStore.taken_iff.2 ⟨id, hid⟩), rfl, ?_⟩
              refine ⟨s.store.sequence + 1, ?_⟩
              rw [hserves.store]
              show (s.store.add run).2.keyOf _ = _
              rw [s.store.keyOf_add, hkey, if_neg hfree, Function.update_self]
          · exact absurd rfl hne
      | _ => exact absurd rfl hne
    refine ⟨hsingle, ?_, fun hne => ?_, fun c hc => ?_⟩
    · rw [hserves.written, List.length_append]
      by_cases hnew : entered key s.store q = []
      · rw [hnew, List.length_nil, Nat.add_zero]
        exact hs.written
      · obtain ⟨hfree, hone, -⟩ := hentered hnew
        have hnone : s.written = [] := by
          by_contra hne
          obtain ⟨id, hid⟩ := hs.holder hne
          exact hfree id hid
        rw [hnone, hone, List.length_nil]
    · by_cases hnew : entered key s.store q = []
      · rw [hserves.written, hnew, List.append_nil] at hne
        obtain ⟨id, hid⟩ := hs.holder hne
        rw [hserves.store]
        exact ⟨id, holder_stays hspared hid⟩
      · exact (hentered hnew).2.2
    · rw [hserves.store]
      obtain ⟨old, hold, rfl | ⟨hq, rfl⟩⟩ := hserves.calls c hc
      · rw [watch_asking]
        exact (hs.stands old hold).stays hspared
      · exact (hs.stands old hold).heard hq

theorem reach_steady {m : MemoryStore V} (hm : Single key m) {s : Desk V key}
    (h : Reach step Spared (opened m) s) : Steady s :=
  h.invariant (steady_opened hm) fun _ hs hspared ht => steady_step hs hspared ht

theorem reach_single {s : Desk V key} (h : Reach step Unconditional (opened .empty) s) :
    Single key s.store := by
  refine h.invariant (fun i j hi _ => ?_) fun _ hs _ ht => single_step hs ht
  cases hi

/-- Every call of `store_once` that comes back comes back with a run that carried its key while it
was asking, and at most one stored run ever carries the key; and as long as no pruning drops a
holder no call fails, all come back with one run, and no other is written. -/
theorem store_once_idempotent {s : Desk V key}
    (h : Reach step Unconditional (opened .empty) s) :
    Single key s.store ∧
    (∀ c ∈ s.calls, ∀ found, c.asking = .answered found →
      ∃ row, found = some row ∧ ∃ m ∈ c.during, row ∈ m.runs ∧ row.key = some key) ∧
    ∀ t : Desk V key, Reach step Spared (opened s.store) t →
      t.written.length ≤ 1 ∧ (∀ c ∈ t.calls, c.asking ≠ .raised) ∧
      ∀ c ∈ t.calls, ∀ c' ∈ t.calls, ∀ row row', c.asking = .answered (some row) →
        c'.asking = .answered (some row') → row.id = row'.id := by
  have hsingle := reach_single h
  refine ⟨hsingle, ?_, fun t ht => ?_⟩
  · refine h.invariant (fun c hc => ?_) fun _ hs _ ht => answered_step hs ht
    cases hc
  · have hsteady := reach_steady hsingle ht
    refine ⟨hsteady.written, fun c hc hraised => ?_, fun c hc c' hc' row row' hrow hrow' => ?_⟩
    · have hstands := hsteady.stands c hc
      rwa [hraised] at hstands
    · have hone := hsteady.stands c hc
      have htwo := hsteady.stands c' hc'
      rw [hrow] at hone
      rw [hrow'] at htwo
      obtain ⟨_, heq, hid⟩ := hone
      obtain ⟨_, heq', hid'⟩ := htwo
      cases heq
      cases heq'
      exact hsteady.single _ _ hid hid'

instance (s : Desk V key) (e : Errand V key) : Decidable (Spared s e) :=
  match e with
  | .other q => inferInstanceAs (Decidable (∀ id ∈ s.store.pruned q, _))
  | .begin .. | .advance _ => isTrue trivial

/-- Two calls under one key, the second refused and then told of the first. -/
def twoCalls : List (Errand Unit "daily") :=
  [.begin { Plain.run "mail" 0 Instant.epoch with key := some "daily" } rfl,
   .begin { Plain.run "news" 0 Instant.epoch with key := some "daily" } rfl,
   .advance 0, .other (.purge Instant.epoch 10), .advance 1, .advance 1]

theorem store_once_idempotent_two : ∃ t, runAll step (opened .empty) twoCalls = some t ∧
    (∃ row, ∀ c ∈ t.calls, c.asking = .answered (some row)) ∧ t.written.length ≤ 1 ∧
      ∀ c ∈ t.calls, c.asking ≠ .raised := by
  have hmeets : Meets step Spared (opened .empty) twoCalls := by decide +kernel
  have hwhole := (store_once_idempotent (s := (opened .empty : Desk Unit "daily")) .start).2.2 _
    (.of_meets .start hmeets rfl)
  exact ⟨_, rfl, ⟨_, by rintro c (_ | ⟨_, _ | ⟨_, _ | _⟩⟩) <;> rfl⟩, hwhole.1, hwhole.2.1⟩

end Desk

end Queuefy
