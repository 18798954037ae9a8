import Queuefy.Store.Backlog
import Queuefy.Store.Legible
import Queuefy.Store.Refines
import Queuefy.Store.Tenants

/-! # Counting the depth

The memory store and the table count the runs they hold. The Redis store has nothing to count by, so
it goes through the keys its server names for a pattern and looks at what is under each. The server
names every key the pattern meets at least once and may name it again, and the pattern is the first
word of the store with whatever that word means to a glob.
-/

namespace Queuefy

open Names

variable {V : Type}

/-! ## The three counts -/

/-- Whether a run is of the status and in the queue that are asked for. -/
def Run.passes (status : Option RunStatus) (queue : Option String) (run : Run V) : Bool :=
  status.all (fun status => run.status = status) && queue.all (fun queue => run.queue = queue)

def MemoryStore.count (m : MemoryStore V) (status : Option RunStatus) (queue : Option String) :
    Nat :=
  (m.runs.filter fun row => row.passes status queue).length

/-- What a count asks of a row. -/
def SqlStore.wanted (status : Option RunStatus) (queue : Option String) : List (Condition V) :=
  (status.map fun status => fun row : Row Nat V => decide (row.status = status)).toList ++
    (queue.map fun queue => fun row : Row Nat V => decide (row.queue = queue)).toList

def SqlStore.count (t : Table V) (status : Option RunStatus) (queue : Option String) : Nat :=
  (t.rows.filter fun row => (wanted status queue).all fun condition => condition row).length

/-- What reading a key as the hash of a run raises. -/
inductive CountError
  | wrongType
  | attributeError
deriving DecidableEq

namespace RedisStore

/-- Whether what is under a key the scan names counts. -/
def counts (status : Option RunStatus) (queue : Option String) :
    Option Value → Except CountError Bool
  | none => .ok false
  | some (.hash fields) =>
      match fields .status with
      | none => .ok false
      | some held =>
          if status.all (fun status => held = status.value) then
            match queue, fields .queue with
            | none, _ => .ok true
            | some queue, some queued => .ok (queued = queue)
            | some _, none => .error .attributeError
          else .ok false
  | some (.sorted _) | some (.text _) | some (.counter _) => .error .wrongType

/-- The loop of a count, over the keys the scan names. -/
def count (server : Keyspace) (status : Option RunStatus) (queue : Option String) :
    List String → Nat → Except CountError Nat
  | [], found => .ok found
  | name :: rest, found => do
      let counted ← counts status queue (server name)
      count server status queue rest (if counted then found + 1 else found)

end RedisStore

/-! ## What the server holds and what it names -/

/-- The server holds the runs of a store under their keys, and no other hash that its pattern
meets. -/
structure Holds (signed : Bool) (root : String) (s : Redis) (server : Keyspace) : Prop where
  runs : ∀ id, server (keyOf root (.run id)) = (s.runs id).map .hash
  hashes : ∀ name fields, meets signed root name = true → server name = some (.hash fields) →
    ∃ id, keyOf root (.run id) = name

/-- What `SCAN` documents of the keys it names for the pattern of a count, with nothing written
beside it: they are keys there are, the pattern meets each, and none it meets is left out. -/
structure Scanned (signed : Bool) (root : String) (server : Keyspace) (names : List String) :
    Prop where
  sound : ∀ name ∈ names, server name ≠ none ∧ meets signed root name = true
  complete : ∀ name, server name ≠ none → meets signed root name = true → name ∈ names

theorem holds_write (signed : Bool) (root : String) (s : Redis) :
    Holds signed root s (write root (ownedOf s) fun _ => none) := by
  constructor
  · exact fun id => write_keyOf _ _ (.run id)
  · intro name fields _ hname
    by_cases howned : ∃ k, keyOf root k = name
    · obtain ⟨k, rfl⟩ := howned
      have hsorted : ∀ entries, sorted entries ≠ some (.hash fields) := by
        intro entries
        unfold sorted
        split <;> simp
      rw [write_keyOf] at hname
      cases k with
      | run id => exact ⟨id, rfl⟩
      | lane | priorities | leased | settled => exact absurd hname (hsorted _)
      | reservation key => simp [ownedOf] at hname
      | sequence =>
          simp only [ownedOf] at hname
          split at hname <;> cases hname
    · push Not at howned
      rw [write_of_ne _ _ howned] at hname
      cases hname

/-! ## Keys named again -/

/-- How many of the places in a list hold a name that is one of the keys and stands further on in
the list as well. -/
noncomputable def again (keys : Set String) : List String → Nat
  | [] => 0
  | name :: rest =>
      open Classical in if name ∈ keys ∧ name ∈ rest then again keys rest + 1 else again keys rest

open Classical in
/-- Each key that is named counts once, and once more for every place that names it again. -/
theorem countP_eq_again (keys : Set String) (names : List String) :
    names.countP (fun name => decide (name ∈ keys)) =
      again keys names + (keys ∩ {name | name ∈ names}).ncard := by
  induction names with
  | nil => simp [again]
  | cons name rest ih =>
      have hfinite : (keys ∩ {other | other ∈ rest}).Finite :=
        (List.finite_toSet rest).subset Set.inter_subset_right
      rw [List.countP_cons, ih, again]
      by_cases hkey : name ∈ keys
      · by_cases hrest : name ∈ rest
        · have hsame : {other | other ∈ name :: rest} = {other | other ∈ rest} := by
            ext other
            simp only [Set.mem_ofPred_eq, List.mem_cons, or_iff_right_iff_imp]
            rintro rfl
            exact hrest
          simp only [hkey, hrest, hsame, decide_true, and_self, if_true]
          omega
        · have hmore : keys ∩ {other | other ∈ name :: rest} =
              insert name (keys ∩ {other | other ∈ rest}) := by
            ext other
            simp only [Set.mem_inter_iff, Set.mem_ofPred_eq, List.mem_cons, Set.mem_insert_iff]
            constructor
            · rintro ⟨hother, rfl | hmem⟩
              · exact .inl rfl
              · exact .inr ⟨hother, hmem⟩
            · rintro (rfl | ⟨hother, hmem⟩)
              · exact ⟨hkey, .inl rfl⟩
              · exact ⟨hother, .inr hmem⟩
          rw [hmore, Set.ncard_insert_of_notMem (fun hmem => hrest hmem.2) hfinite]
          simp [hkey, hrest]
          omega
      · have hsame : keys ∩ {other | other ∈ name :: rest} = keys ∩ {other | other ∈ rest} := by
          ext other
          simp only [Set.mem_inter_iff, Set.mem_ofPred_eq, List.mem_cons, and_congr_right_iff,
            or_iff_right_iff_imp]
          rintro hother rfl
          exact absurd hother hkey
        rw [hsame]
        simp [hkey]

theorem again_eq_zero_iff {keys : Set String} {names : List String} :
    again keys names = 0 ↔ ∀ name ∈ keys, names.count name ≤ 1 := by
  induction names with
  | nil => simp [again]
  | cons name rest ih =>
      rw [again]
      split
      · rename_i hagain
        constructor
        · intro h
          cases h
        · intro h
          have hcount := h name hagain.1
          have hrest := List.one_le_count_iff.2 hagain.2
          rw [List.count_cons_self] at hcount
          omega
      · rename_i honce
        rw [ih]
        refine forall₂_congr fun key hkey => ?_
        by_cases hsame : name = key
        · subst hsame
          have hnone : rest.count name = 0 :=
            List.count_eq_zero.2 fun hmem => honce ⟨hkey, hmem⟩
          simp [hnone]
        · rw [List.count_cons_of_ne hsame]

/-! ## What a count comes to -/

theorem count_of_ok {server : Keyspace} {status : Option RunStatus} {queue : Option String}
    {names : List String} {p : String → Bool}
    (h : ∀ name ∈ names, RedisStore.counts status queue (server name) = .ok (p name))
    (found : Nat) :
    RedisStore.count server status queue names found = .ok (found + names.countP p) := by
  induction names generalizing found with
  | nil => rfl
  | cons name rest ih =>
      have hrest := fun other hother => h other (List.mem_cons_of_mem name hother)
      rw [RedisStore.count, h name List.mem_cons_self]
      simp only [bind, Except.bind]
      rw [ih hrest, List.countP_cons]
      cases p name with
      | true => simp only [if_true]; rw [Nat.add_right_comm, Nat.add_assoc]
      | false => simp

theorem count_ok {server : Keyspace} {status : Option RunStatus} {queue : Option String}
    {names : List String} {found n : Nat}
    (h : RedisStore.count server status queue names found = .ok n) :
    ∀ name ∈ names, ∃ b, RedisStore.counts status queue (server name) = .ok b := by
  induction names generalizing found with
  | nil => simp
  | cons name rest ih =>
      rw [RedisStore.count] at h
      cases hcounts : RedisStore.counts status queue (server name) with
      | error e =>
          rw [hcounts] at h
          cases h
      | ok b =>
          rw [hcounts] at h
          exact List.forall_mem_cons.2 ⟨⟨b, hcounts⟩, ih h⟩

/-- Whether the hash of a run is of the status and in the queue that are asked for. -/
def Hash.Passes (status : Option RunStatus) (queue : Option String) (h : Hash) : Prop :=
  (∀ wanted ∈ status, h .status = some wanted.value) ∧ ∀ wanted ∈ queue, h .queue = some wanted

open Classical in
theorem counts_hash {h : Hash} (hh : h.Legible) (status : Option RunStatus)
    (queue : Option String) :
    RedisStore.counts status queue (some (.hash h)) = .ok (decide (h.Passes status queue)) := by
  obtain ⟨held, hheld⟩ := Option.isSome_iff_exists.mp hh.1
  obtain ⟨queued, hqueued⟩ := Option.isSome_iff_exists.mp hh.2
  simp only [RedisStore.counts, Hash.Passes, hheld, hqueued]
  cases status with
  | none => cases queue <;> simp
  | some status =>
      by_cases hstatus : held = status.value
      · cases queue <;> simp [hstatus]
      · simp [hstatus]

theorem passes_toHash (codec : Codec V) (status : Option RunStatus) (queue : Option String)
    (id : String) (run : Run V) :
    (RedisStore.toHash codec id run).Passes status queue ↔ run.passes status queue = true := by
  have hvalue : ∀ a b : RunStatus, a.value = b.value ↔ a = b := by
    intro a b
    cases a <;> cases b <;> decide
  cases status <;> cases queue <;>
    simp [Hash.Passes, Run.passes, RedisStore.toHash, hvalue]

/-! ## The runs that are asked for -/

/-- The stored runs of the status and in the queue that are asked for. -/
def Redis.matching (s : Redis) (status : Option RunStatus) (queue : Option String) : Set String :=
  {id | ∃ h, s.runs id = some h ∧ h.Passes status queue}

noncomputable def Redis.depth (s : Redis) (status : Option RunStatus) (queue : Option String) :
    Nat :=
  (s.matching status queue).ncard

/-- Their keys. -/
def passing (root : String) (s : Redis) (status : Option RunStatus) (queue : Option String) :
    Set String :=
  (fun id => keyOf root (.run id)) '' s.matching status queue

/-- How many of the keys the pattern does not meet. -/
noncomputable def missed (signed : Bool) (root : String) (keys : Set String) : Nat :=
  (keys \ {name | meets signed root name = true}).ncard

section

variable {signed : Bool} {s : Redis} {root : String} {server : Keyspace} {names : List String}
  {status : Option RunStatus} {queue : Option String}

theorem keyOf_run_injective (root : String) :
    Function.Injective fun id => keyOf root (.run id) := by
  intro id id' h
  injection keyOf_injective root h

theorem mem_passing {id : String} :
    keyOf root (.run id) ∈ passing root s status queue ↔ id ∈ s.matching status queue :=
  (keyOf_run_injective root).mem_set_image

theorem Redis.Legible.finite_matching (h : s.Legible) : (s.matching status queue).Finite := by
  apply h.finite.subset
  rintro id ⟨found, hid, -⟩
  simp [hid]

theorem Holds.stored_of_passing (h : Holds signed root s server) {name : String}
    (hname : name ∈ passing root s status queue) : server name ≠ none := by
  obtain ⟨id, ⟨found, hid, -⟩, rfl⟩ := hname
  rw [h.runs, hid]
  simp

open Classical in
theorem Holds.counts_eq (h : Holds signed root s server) (hs : s.Legible) {id : String}
    (hstored : server (keyOf root (.run id)) ≠ none) :
    RedisStore.counts status queue (server (keyOf root (.run id))) =
      .ok (decide (keyOf root (.run id) ∈ passing root s status queue)) := by
  rw [h.runs] at hstored
  cases hid : s.runs id with
  | none => simp [hid] at hstored
  | some found =>
      have hpasses : keyOf root (.run id) ∈ passing root s status queue ↔
          found.Passes status queue := by
        rw [mem_passing]
        simp [Redis.matching, hid]
      rw [h.runs, hid, Option.map_some, counts_hash (hs.fields id found hid)]
      simp only [hpasses]

/-- A count comes to a number only where each key the scan names is that of a run. -/
theorem Holds.runs_of_count (h : Holds signed root s server)
    (hnames : Scanned signed root server names) {n : Nat}
    (hcount : RedisStore.count server status queue names 0 = .ok n) :
    ∀ name ∈ names, ∃ id, keyOf root (.run id) = name := by
  intro name hname
  obtain ⟨hstored, hmeets⟩ := hnames.sound name hname
  obtain ⟨b, hb⟩ := count_ok hcount name hname
  cases hvalue : server name with
  | none => exact absurd hvalue hstored
  | some value =>
      cases value with
      | hash fields => exact h.hashes name fields hmeets hvalue
      | sorted | text | counter =>
          rw [hvalue] at hb
          cases hb

/-- A count of keys of runs comes to the runs that pass, and over them by those named again and
under them by those the pattern does not meet. -/
theorem Holds.count_eq (h : Holds signed root s server) (hs : s.Legible)
    (hnames : Scanned signed root server names)
    (hruns : ∀ name ∈ names, ∃ id, keyOf root (.run id) = name) (status : Option RunStatus)
    (queue : Option String) :
    ∃ n, RedisStore.count server status queue names 0 = .ok n ∧
      n + missed signed root (passing root s status queue) =
        s.depth status queue + again (passing root s status queue) names := by
  classical
  have hcounts : ∀ name ∈ names, RedisStore.counts status queue (server name) =
      .ok (decide (name ∈ passing root s status queue)) := by
    intro name hname
    obtain ⟨id, rfl⟩ := hruns name hname
    exact h.counts_eq hs (hnames.sound _ hname).1
  have hnamed : passing root s status queue ∩ {name | name ∈ names} =
      passing root s status queue ∩ {name | meets signed root name = true} := by
    ext name
    simp only [Set.mem_inter_iff, Set.mem_ofPred_eq, and_congr_right_iff]
    intro hpassing
    constructor
    · exact fun hname => (hnames.sound name hname).2
    · exact hnames.complete name (h.stored_of_passing hpassing)
  have hdepth : (passing root s status queue).ncard = s.depth status queue :=
    Set.ncard_image_of_injective _ (keyOf_run_injective root)
  have hsplit := Set.ncard_inter_add_ncard_sdiff_eq_ncard (passing root s status queue)
    {name | meets signed root name = true} (hs.finite_matching.image _)
  refine ⟨_, count_of_ok hcounts 0, ?_⟩
  rw [countP_eq_again, hnamed, ← hdepth, ← hsplit, missed]
  omega

theorem Holds.count_iff (h : Holds signed root s server) (hs : s.Legible)
    (hnames : Scanned signed root server names) (status : Option RunStatus)
    (queue : Option String) :
    RedisStore.count server status queue names 0 = .ok (s.depth status queue) ↔
      (∀ name ∈ names, ∃ id, keyOf root (.run id) = name) ∧
        again (passing root s status queue) names =
          missed signed root (passing root s status queue) := by
  constructor
  · intro hcount
    have hruns := h.runs_of_count hnames hcount
    obtain ⟨n, hn, hsum⟩ := h.count_eq hs hnames hruns status queue
    rw [hcount, Except.ok.injEq] at hn
    exact ⟨hruns, by omega⟩
  · rintro ⟨hruns, hsame⟩
    obtain ⟨n, hn, hsum⟩ := h.count_eq hs hnames hruns status queue
    rw [hn, Except.ok.injEq]
    omega

/-- A first word that means nothing to a glob has its runs met, and nothing else. -/
theorem run_of_meets (hplain : Plain root) {name : String} (h : meets signed root name = true) :
    ∃ id, keyOf root (.run id) = name := by
  obtain ⟨rest, hrest⟩ := (meets_plain hplain).1 h
  refine ⟨String.ofList rest, String.toList_injective ?_⟩
  rw [hrest]
  simp [keyOf, Key.body]

theorem meets_run (hplain : Plain root) (id : String) :
    meets signed root (keyOf root (.run id)) = true :=
  (meets_plain hplain).2 ⟨id.toList, by simp [keyOf, Key.body]⟩

theorem missed_of_plain (hplain : Plain root) :
    missed signed root (passing root s status queue) = 0 := by
  have hempty : passing root s status queue \ {name | meets signed root name = true} = ∅ := by
    ext name
    simp only [Set.mem_sdiff, Set.mem_ofPred_eq, Set.mem_empty_iff_false, iff_false, not_and,
      not_not]
    rintro ⟨id, -, rfl⟩
    exact meets_run hplain id
  rw [missed, hempty, Set.ncard_empty]

end

/-! ## The other two -/

theorem MemoryStore.count_eq (m : MemoryStore V) (status : Option RunStatus)
    (queue : Option String) : m.count status queue = m.rows.backlog (·.passes status queue) := by
  rw [(m.lists_filter _).backlog_eq, List.length_map, MemoryStore.count]

theorem SqlStore.count_eq (t : Table V) (status : Option RunStatus) (queue : Option String) :
    SqlStore.count t status queue = t.runs.backlog (·.passes status queue) := by
  have hwanted : ∀ row : Row Nat V,
      ((wanted status queue).all fun condition => condition row) = true ↔
        row.passes status queue = true := by
    intro row
    cases status <;> cases queue <;> simp [wanted, Run.passes]
  rw [(t.lists_filter _ (fun run => run.passes status queue = true) hwanted).backlog_eq,
    List.length_map, SqlStore.count]

theorem Redis.depth_eq {codec : Codec V} {s : Redis} {rows : Rows String V}
    (h : ∀ id, s.runs id = (rows id).map (RedisStore.toHash codec id))
    (status : Option RunStatus) (queue : Option String) :
    s.depth status queue = rows.backlog (·.passes status queue) := by
  have hsame : s.matching status queue = rows.due (·.passes status queue) := by
    ext id
    simp only [Redis.matching, Rows.due, Set.mem_ofPred_eq, h]
    cases rows id <;> simp [passes_toHash]
  rw [Redis.depth, hsame, Rows.backlog]

/-! ## When the depth is counted right -/

/-- A count comes to the stored runs that pass exactly when the scan names keys of runs alone, and
those of runs that pass as often again as there are some the pattern does not meet. A first word
that means nothing to a glob leaves one way to fail: a run that passes is named twice. The other two
stores count the same runs right. -/
theorem depth_counted_iff {codec : Codec V} {s : Redis}
    (hs : Reach (RedisStore.step codec) Unconditional .empty s) {signed : Bool} {root : String}
    {server : Keyspace} {names : List String} (hserver : Holds signed root s server)
    (hnames : Scanned signed root server names) (status : Option RunStatus)
    (queue : Option String) :
    (RedisStore.count server status queue names 0 = .ok (s.depth status queue) ↔
      (∀ name ∈ names, ∃ id, keyOf root (.run id) = name) ∧
        again (passing root s status queue) names =
          missed signed root (passing root s status queue)) ∧
    (Plain root →
      (RedisStore.count server status queue names 0 = .ok (s.depth status queue) ↔
        ∀ id ∈ s.matching status queue, names.count (keyOf root (.run id)) ≤ 1)) ∧
    ∀ (m : MemoryStore V) (t : Table V) (rows : Rows String V) (ρ : Nat → String) (σ : Nat → Nat),
      (∀ id, s.runs id = (rows id).map (RedisStore.toHash codec id)) → Renames ρ m.rows rows →
      Renames σ m.rows t.runs →
        m.count status queue = s.depth status queue ∧
          SqlStore.count t status queue = s.depth status queue := by
  have hiff := hserver.count_iff (Redis.legible_of_reach hs) hnames status queue
  refine ⟨hiff, fun hplain => ?_, fun m t rows ρ σ hrows hρ hσ => ?_⟩
  · have hruns : ∀ name ∈ names, ∃ id, keyOf root (.run id) = name :=
      fun name hname => run_of_meets hplain (hnames.sound name hname).2
    rw [hiff, missed_of_plain hplain, and_iff_right hruns, again_eq_zero_iff]
    simp [passing]
  · have hmemory : m.count status queue = s.depth status queue := by
      rw [m.count_eq, Redis.depth_eq hrows, hρ.backlog_eq]
    refine ⟨hmemory, ?_⟩
    rw [SqlStore.count_eq, ← hσ.backlog_eq, ← m.count_eq, hmemory]

/-! ## One run -/

namespace Plain

/-- The store after one write. -/
def written : Redis := (RedisStore.perform codec .empty (.add (run "mail" 0 Instant.epoch))).2

theorem written_reach : Reach (RedisStore.step codec) Unconditional .empty written :=
  .next .start trivial rfl

theorem written_runs : written.runs =
    Function.update (fun _ => none) "1"
      (some (RedisStore.toHash codec "1" (run "mail" 0 Instant.epoch))) := by
  have hid : tostring (Redis.empty.sequence + 1) = "1" := by decide +kernel
  have hfree : (run "mail" 0 Instant.epoch).key.getD "" ≠ "" →
      Redis.empty.keys ((run "mail" 0 Instant.epoch).key.getD "") = none := fun _ => rfl
  have hruns : (RedisStore.add codec .empty (run "mail" 0 Instant.epoch)).2.runs = _ :=
    Redis.runs_add hfree (by decide)
  rw [hid] at hruns
  exact hruns

theorem written_depth : written.depth none none = 1 := by
  have hone : written.matching none none = {"1"} := by
    ext id
    simp only [Redis.matching, written_runs, Set.mem_ofPred_eq, Set.mem_singleton_iff]
    by_cases hid : id = "1"
    · simp [hid, Hash.Passes]
    · simp [hid]
  rw [Redis.depth, hone, Set.ncard_singleton]

/-- On a server of its own. -/
noncomputable def server (root : String) : Keyspace :=
  write root (ownedOf written) fun _ => none

/-- The scan may name the one key there is any number of times. -/
theorem scanned_copies (signed : Bool) (n : Nat) :
    Scanned signed "queuefy" (server "queuefy") (List.replicate (n + 1) "queuefy:run:1") := by
  have hkey : keyOf "queuefy" (.run "1") = "queuefy:run:1" := by decide +kernel
  have hserver := holds_write signed "queuefy" written
  have hplain : Plain "queuefy" := by simp [Names.Plain]
  constructor
  · intro name hname
    rw [List.eq_of_mem_replicate hname, ← hkey]
    refine ⟨?_, meets_run hplain "1"⟩
    rw [server, hserver.runs, written_runs]
    simp
  · intro name hstored hmeets
    obtain ⟨id, rfl⟩ := run_of_meets hplain hmeets
    rw [server, hserver.runs, written_runs] at hstored
    by_cases hid : id = "1"
    · rw [hid, hkey]
      simp
    · simp [hid] at hstored

/-- A bracket in the first word is read as a class, and the pattern meets no key of the store. -/
theorem meets_class (signed : Bool) (key : Key) :
    meets signed "jobs[1]" (keyOf "jobs[1]" key) = false := by
  have hword : bytes "jobs[1]:" = [106, 111, 98, 115, opening, 49, closing, 58] := by
    decide +kernel
  have hkey : bytes (keyOf "jobs[1]" key) = bytes "jobs[1]:" ++ bytes key.body := by
    simp [bytes, keyOf]
  have hscanned : bytes (scanned "jobs[1]") = bytes "jobs[1]:" ++ bytes "run:*" := by
    simp [bytes, scanned]
  rw [meets, hkey, hscanned, hword]
  rfl

theorem scanned_none (signed : Bool) : Scanned signed "jobs[1]" (server "jobs[1]") [] := by
  constructor
  · simp
  · intro name hstored hmeets
    by_cases howned : ∃ key, keyOf "jobs[1]" key = name
    · obtain ⟨key, rfl⟩ := howned
      rw [meets_class] at hmeets
      cases hmeets
    · push Not at howned
      exact absurd (write_of_ne _ _ howned) hstored

end Plain

theorem depth_counted_iff_once :
    (RedisStore.count (Plain.server "queuefy") none none ["queuefy:run:1"] 0 =
        .ok (Plain.written.depth none none) ↔
      ∀ id ∈ Plain.written.matching none none,
        ["queuefy:run:1"].count (keyOf "queuefy" (.run id)) ≤ 1) := by
  have hplain : Names.Plain "queuefy" := by simp [Names.Plain]
  exact (depth_counted_iff Plain.written_reach (holds_write true "queuefy" Plain.written)
    (Plain.scanned_copies true 0) none none).2.1 hplain

/-- The server names the one run there is twice, and it counts as two; a store called `jobs[1]`
counts none, though no key is named again. -/
theorem depth_of_every_scan_fails :
    (¬ ∀ signed s server names, Reach (RedisStore.step Plain.codec) Unconditional .empty s →
      Holds signed "queuefy" s server → Scanned signed "queuefy" server names → ∀ status queue,
        RedisStore.count server status queue names 0 = .ok (s.depth status queue)) ∧
    ¬ ∀ signed s server names, Reach (RedisStore.step Plain.codec) Unconditional .empty s →
      Holds signed "jobs[1]" s server → Scanned signed "jobs[1]" server names → names.Nodup →
        ∀ status queue,
        RedisStore.count server status queue names 0 = .ok (s.depth status queue) := by
  constructor
  · intro h
    have hkey : keyOf "queuefy" (.run "1") = "queuefy:run:1" := by decide +kernel
    have hserver := holds_write true "queuefy" Plain.written
    have hvalue : Plain.server "queuefy" "queuefy:run:1" = some (.hash
        (RedisStore.toHash Plain.codec "1" (Plain.run "mail" 0 Instant.epoch))) := by
      rw [Plain.server, ← hkey, hserver.runs, Plain.written_runs]
      simp
    have htwo := h true _ _ _ Plain.written_reach hserver (Plain.scanned_copies true 1) none none
    rw [Plain.written_depth] at htwo
    have hcount : RedisStore.count (Plain.server "queuefy") none none
        (List.replicate 2 "queuefy:run:1") 0 = .ok 2 := by
      simp only [List.replicate, RedisStore.count, hvalue]
      rfl
    rw [Plain.server] at hcount
    rw [hcount] at htwo
    cases htwo
  · intro h
    have hnone := h true _ _ _ Plain.written_reach (holds_write true "jobs[1]" Plain.written)
      (Plain.scanned_none true) List.nodup_nil none none
    rw [Plain.written_depth] at hnone
    cases hnone

end Queuefy
