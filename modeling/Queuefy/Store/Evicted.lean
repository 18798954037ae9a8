import Queuefy.Store.Life
import Queuefy.Store.RedisSpec

/-! # When the server loses the hash of a run

A server out of memory evicts what it likes, and whoever has a client deletes what they like. Where
that is the hash of a run, its id stays behind in the set it waited in and its reservation stays
taken, and every script that meets the id steps past it. A state that lost some hashes is a whole
state less those hashes.
-/

namespace Queuefy

variable {V : Type} {codec : Codec V} {rows : Rows String V} {gone : Set String} {s g : Redis}

open RedisStore (toHash toRun)
open MemoryStore (claimed beaten completed failed requeued calledOff)

namespace Redis

/-- The state `s` is `g` less the hashes of the runs that are gone. -/
structure Lacks (gone : Set String) (g s : Redis) : Prop where
  lost : ∀ id ∈ gone, s.runs id = none
  runs : ∀ id ∉ gone, s.runs id = g.runs id
  sets : s.sets = g.sets
  priorities : s.priorities = g.priorities
  keys : s.keys = g.keys
  sequence : s.sequence = g.sequence

namespace Lacks

/-! ## Commands -/

theorem hget (h : Lacks gone g s) {id : String} (hid : id ∉ gone) (field : Field) :
    s.hget id field = g.hget id field := by
  rw [Redis.hget, Redis.hget, h.runs id hid]

theorem hget_lost (h : Lacks gone g s) {id : String} (hid : id ∈ gone) (field : Field) :
    s.hget id field = none := by
  rw [Redis.hget, h.lost id hid]
  rfl

theorem laneOf (h : Lacks gone g s) {id : String} (hid : id ∉ gone) :
    s.laneOf id = g.laneOf id := by
  rw [Redis.laneOf, Redis.laneOf, h.hget hid, h.hget hid]

theorem hset (h : Lacks gone g s) {id : String} (hid : id ∉ gone)
    (pairs : List (Field × String)) : Lacks gone (g.hset id pairs) (s.hset id pairs) where
  lost i hi := by
    have hne : i ≠ id := fun heq => hid (heq ▸ hi)
    simp [Redis.hset, hne, h.lost i hi]
  runs i hi := by
    by_cases heq : i = id
    · subst heq
      simp [Redis.hset, h.runs i hi]
    · simp [Redis.hset, heq, h.runs i hi]
  sets := h.sets
  priorities := h.priorities
  keys := h.keys
  sequence := h.sequence

theorem summed (h : Lacks gone g s) {id : String} (hid : id ∉ gone) (field : Field) (n : Int) :
    s.summed id field n = g.summed id field n := by
  rw [Redis.summed, Redis.summed, h.hget hid]

theorem hincrby (h : Lacks gone g s) {id : String} (hid : id ∉ gone) (field : Field) (n : Int) :
    (g.hincrby id field n = none ∧ s.hincrby id field n = none) ∨
      ∃ g' s', g.hincrby id field n = some g' ∧ s.hincrby id field n = some s' ∧
        Lacks gone g' s' := by
  rw [Redis.hincrby, Redis.hincrby, h.summed hid]
  cases g.summed id field n with
  | none => exact Or.inl ⟨rfl, rfl⟩
  | some total => exact Or.inr ⟨_, _, rfl, rfl, h.hset hid _⟩

theorem zadd (h : Lacks gone g s) (set : SetName) (score : Int) (id : String) :
    Lacks gone (g.zadd set score id) (s.zadd set score id) where
  lost := h.lost
  runs := h.runs
  sets := by rw [Redis.zadd, Redis.zadd, h.sets]
  priorities := h.priorities
  keys := h.keys
  sequence := h.sequence

theorem zrem (h : Lacks gone g s) (set : SetName) (id : String) :
    Lacks gone (g.zrem set id) (s.zrem set id) where
  lost := h.lost
  runs := h.runs
  sets := by rw [Redis.zrem, Redis.zrem, h.sets]
  priorities := h.priorities
  keys := h.keys
  sequence := h.sequence

theorem unreserve (h : Lacks gone g s) (key : String) :
    Lacks gone { g with keys := Function.update g.keys key none }
      { s with keys := Function.update s.keys key none } where
  lost := h.lost
  runs := h.runs
  sets := h.sets
  priorities := h.priorities
  keys := congrArg (Function.update · key none) h.keys
  sequence := h.sequence

theorem del (h : Lacks gone g s) {id : String} (hid : id ∉ gone) :
    Lacks gone (g.del id) (s.del id) where
  lost i hi := by
    have hne : i ≠ id := fun heq => hid (heq ▸ hi)
    simp [Redis.del, hne, h.lost i hi]
  runs i hi := by
    by_cases heq : i = id
    · simp [Redis.del, heq]
    · simp [Redis.del, heq, h.runs i hi]
  sets := h.sets
  priorities := h.priorities
  keys := h.keys
  sequence := h.sequence

/-! ## Scripts about one run -/

theorem holds_iff (h : Lacks gone g s) {id : String} (hid : id ∉ gone) (worker : String)
    (attempt : Int) : s.holds id worker attempt ↔ g.holds id worker attempt := by
  rw [holds, holds, h.hget hid, h.hget hid, h.hget hid]

theorem not_holds (h : Lacks gone g s) {id : String} (hid : id ∈ gone) (worker : String)
    (attempt : Int) : ¬ s.holds id worker attempt := by
  rintro ⟨hworker, -⟩
  rw [h.hget_lost hid] at hworker
  cases hworker

theorem settle (h : Lacks gone g s) {id : String} (hid : id ∉ gone) {worker : String}
    {attempt : Int} (hholds : g.holds id worker attempt) (values : List (Field × String))
    (dueAt : String) (counted : Int) :
    (s.SETTLE id worker values dueAt counted attempt).1 =
        (g.SETTLE id worker values dueAt counted attempt).1 ∧
      Lacks gone (g.SETTLE id worker values dueAt counted attempt).2
        (s.SETTLE id worker values dueAt counted attempt).2 := by
  have hset := (h.zrem .leased id).hset hid values
  simp only [SETTLE, if_pos hholds, if_pos ((h.holds_iff hid worker attempt).2 hholds)]
  rcases hset.hincrby hid .attempts counted with ⟨hg, hs⟩ | ⟨g', s', hg, hs, hwritten⟩
  · rw [hg, hs]
    exact ⟨rfl, hset⟩
  · simp only [hg, hs, hwritten.laneOf hid, hwritten.hget hid]
    split
    · exact ⟨rfl, hwritten.zadd _ _ _⟩
    · exact ⟨rfl, hwritten.zadd _ _ _⟩

theorem heartbeat (h : Lacks gone g s) {id : String} (hid : id ∉ gone) {worker : String}
    {attempt : Int} (hholds : g.holds id worker attempt) (lease : String) :
    Lacks gone (g.HEARTBEAT id worker lease attempt).2 (s.HEARTBEAT id worker lease attempt).2 := by
  simp only [HEARTBEAT, if_pos hholds, if_pos ((h.holds_iff hid worker attempt).2 hholds)]
  exact (h.hset hid _).zadd _ _ _

theorem cancel (h : Lacks gone g s) {id : String} (hid : id ∉ gone) (moment : String) :
    Lacks gone (g.CANCEL id moment).2 (s.CANCEL id moment).2 := by
  simp only [CANCEL, h.hget hid, h.laneOf hid]
  split
  · exact ((h.zrem _ id).hset hid _).zadd _ _ _
  · exact h

theorem add (h : Lacks gone g s) (hid : tostring (g.sequence + 1) ∉ gone) (key : String)
    (hnext : g.sequence + 1 < 2 ^ 63) (fields : List (Field × String)) (queue priority : String)
    (set : SetName) (score : String) :
    (s.ADD key fields queue priority set score).1 =
        (g.ADD key fields queue priority set score).1 ∧
      Lacks gone (g.ADD key fields queue priority set score).2
        (s.ADD key fields queue priority set score).2 := by
  by_cases htaken : key ≠ "" ∧ (g.keys key).isSome
  · have htaken' : key ≠ "" ∧ (s.keys key).isSome := h.keys ▸ htaken
    simp only [ADD, if_pos htaken, if_pos htaken', true_and]
    exact h
  · have hfree : key ≠ "" → g.keys key = none := by
      intro hkey
      cases hnone : g.keys key with
      | none => rfl
      | some other => exact absurd ⟨hkey, by rw [hnone]; rfl⟩ htaken
    have hfree' : key ≠ "" → s.keys key = none := h.keys ▸ hfree
    have hnext' : s.sequence + 1 < 2 ^ 63 := h.sequence ▸ hnext
    obtain ⟨u, hu, hg⟩ := ADD_of_free hfree hnext fields queue priority set score
    obtain ⟨t, ht, hs⟩ := ADD_of_free hfree' hnext' fields queue priority set score
    rw [hu, ht]
    rw [h.sequence] at hs ⊢
    generalize tostring (g.sequence + 1) = id at hid hg hs ⊢
    have hwritten := h.hset hid (fields ++ [(.id, id)])
    constructor
    · rfl
    · constructor
      · rw [hs.runs]
        exact hwritten.lost
      · rw [hs.runs, hg.runs]
        exact hwritten.runs
      · rw [hs.sets, hg.sets, (h.zadd set (number score) id).sets, h.sets]
      · rw [hs.priorities, hg.priorities, h.priorities]
      · rw [hs.keys, hg.keys, h.keys]
      · rw [hs.sequence, hg.sequence, h.sequence]

theorem takeOne (h : Lacks gone g s) {entry : Ready} (hid : entry.id ∉ gone)
    (worker moment lease : String) :
    (takeOne worker moment lease s entry).1 = (takeOne worker moment lease g entry).1 ∧
      Lacks gone (takeOne worker moment lease g entry).2
        (takeOne worker moment lease s entry).2 := by
  have hbegun := h.zrem entry.lane entry.id
  have hset := hbegun.hset hid
    [(.status, "running"), (.worker, worker), (.startedAt, moment), (.leaseUntil, lease)]
  simp only [Redis.takeOne, h.sets, hbegun.runs _ hid]
  split
  · split
    · rcases hset.hincrby hid .attempts 1 with ⟨hg, hs⟩ | ⟨g', s', hg, hs, hcounted⟩
      · rw [hg, hs]
        exact ⟨rfl, hset⟩
      · have hafter := hcounted.zadd .leased (number lease) entry.id
        simp only [hg, hs]
        exact ⟨congrArg some (hafter.runs _ hid), hafter⟩
    · exact ⟨rfl, hbegun⟩
  · exact ⟨rfl, h⟩

end Lacks

end Redis

/-! ## Texts that read back -/

theorem spelled_claimed {run : Run V} (h : Spelled run) {worker : String} (hworker : worker ≠ "")
    (moment lease : Instant) : Spelled (claimed worker moment lease run) :=
  { h with worker := fun heq => hworker (Option.some.inj heq) }

theorem spelled_beaten {run : Run V} (h : Spelled run) (lease : Instant) :
    Spelled (beaten lease run) :=
  { h with }

theorem blank_of_none : (none : Option String) ≠ some "" := (Option.some_ne_none "").symm

theorem spelled_completed {run : Run V} (h : Spelled run) (moment : Instant) (result : Option V) :
    Spelled (completed moment result run) :=
  { h with worker := blank_of_none, error := blank_of_none, errorType := blank_of_none }

theorem spelled_failed {run : Run V} (h : Spelled run) (moment : Instant)
    {error errorType : String} (herror : error ≠ "") (htype : errorType ≠ "") :
    Spelled (failed moment error errorType run) :=
  { h with
    worker := blank_of_none
    error := fun heq => herror (Option.some.inj heq)
    errorType := fun heq => htype (Option.some.inj heq) }

theorem spelled_requeued {run : Run V} (h : Spelled run) (dueAt : Instant)
    {error errorType : String} (counted : Int) (herror : error ≠ "") (htype : errorType ≠ "") :
    Spelled (requeued dueAt error errorType counted run) :=
  { h with
    worker := blank_of_none
    error := fun heq => herror (Option.some.inj heq)
    errorType := fun heq => htype (Option.some.inj heq) }

theorem spelled_calledOff {run : Run V} (h : Spelled run) (moment : Instant) :
    Spelled (calledOff moment run) :=
  { h with }

theorem spelled_reclaimed {run : Run V} (h : Spelled run) (moment : Instant) :
    Spelled (run.reclaimed moment) := by
  unfold Run.reclaimed
  dsimp only
  split
  · exact { h with worker := blank_of_none, error := by simp, errorType := by simp }
  · exact { h with worker := blank_of_none }

/-! ## What a state stands for -/

/-- A run that waits nowhere. -/
def Run.hidden (run : Run V) : Run V := { run with status := .running, leaseUntil := none }

theorem place_hidden (run : Run V) : place run.hidden = none := rfl

/-- A state stands for the rows of a whole one, of which those that are gone cannot be read. -/
structure Stands (codec : Codec V) (rows : Rows String V) (gone : Set String) (s : Redis) :
    Prop where
  whole : ∃ g, Represents codec rows g ∧ g.Lacks gone s
  known : ∀ id ∈ gone, (rows id).isSome
  numbered : Numbered rows s.sequence
  spelled : ∀ id run, rows id = some run → Spelled run

namespace Stands

theorem empty (codec : Codec V) : Stands codec (fun _ => none) ∅ Redis.empty where
  whole := ⟨Redis.empty, .empty codec, by constructor <;> simp⟩
  known id hid := hid.elim
  numbered id h := by cases h
  spelled id run h := by cases h

theorem lost (h : Stands codec rows gone s) {id : String} (hid : id ∈ gone) : s.runs id = none := by
  obtain ⟨g, -, hlacks⟩ := h.whole
  exact hlacks.lost id hid

theorem hashed (h : Stands codec rows gone s) {id : String} (hid : id ∉ gone) :
    s.runs id = (rows id).map (toHash codec id) := by
  obtain ⟨g, hR, hlacks⟩ := h.whole
  rw [hlacks.runs id hid, hR.hashed]

theorem left (h : Stands codec rows gone s) {id : String} {hash : Hash}
    (hid : s.runs id = some hash) :
    id ∉ gone ∧ ∃ run, rows id = some run ∧ hash = toHash codec id run := by
  have hin : id ∉ gone := by
    intro hin
    rw [h.lost hin] at hid
    cases hid
  rw [h.hashed hin, Option.map_eq_some_iff] at hid
  obtain ⟨run, hrow, heq⟩ := hid
  exact ⟨hin, run, hrow, heq.symm⟩

theorem placed (h : Stands codec rows gone s) (id : String) (set : SetName) (score : Int) :
    (id, score) ∈ s.sets set ↔ ∃ run, rows id = some run ∧ place run = some (set, score) := by
  obtain ⟨g, hR, hlacks⟩ := h.whole
  rw [hlacks.sets, hR.placed]

/-- No run has the next number for its id, not even one that is gone. -/
theorem unused (h : Stands codec rows gone s) (hlt : s.sequence + 1 < 10 ^ 14) :
    rows (tostring (s.sequence + 1)) = none := by
  by_contra hsome
  obtain ⟨m, hm, htext⟩ := h.numbered _ (Option.isSome_iff_ne_none.mpr hsome)
  have hsame := tostring_inj (by omega) hlt htext.symm
  omega

/-- One row changes, and the whole state with it. -/
theorem update (h : Stands codec rows gone s) {id : String} {run next : Run V} {t : Redis}
    (hrow : rows id = some run) (hnext : Spelled next) (hsequence : t.sequence = s.sequence)
    (hwhole : ∃ g, Represents codec (Function.update rows id (some next)) g ∧ g.Lacks gone t) :
    Stands codec (Function.update rows id (some next)) gone t where
  whole := hwhole
  known i hi := by
    by_cases heq : i = id
    · simp [heq]
    · simpa [heq] using h.known i hi
  numbered i hi := by
    rw [hsequence]
    by_cases heq : i = id
    · exact h.numbered i (by rw [heq, hrow]; rfl)
    · exact h.numbered i (by simpa [heq] using hi)
  spelled i other hother := by
    by_cases heq : i = id
    · subst heq
      rw [Function.update_self, Option.some.injEq] at hother
      exact hother ▸ hnext
    · exact h.spelled i other (by simpa [heq] using hother)

/-- The id of a run that is gone leaves the set it stayed behind in. -/
theorem forget (h : Stands codec rows gone s) {id : String} (hid : id ∈ gone) {run : Run V}
    (hrow : rows id = some run) {old : SetName}
    (hplace : ∀ set score, place run = some (set, score) → set = old) :
    Stands codec (Function.update rows id (some run.hidden)) gone (s.zrem old id) := by
  obtain ⟨g, hR, hlacks⟩ := h.whole
  refine h.update hrow { h.spelled id run hrow with } rfl
    ⟨{ g.zrem old id with runs := Function.update g.runs id (some (toHash codec id run.hidden)) },
      hR.move hrow rfl rfl rfl rfl (fun i set score => ?_) rfl rfl, ?_⟩
  · have hrem : (i, score) ∈ (g.zrem old id).sets set ↔
        (i, score) ∈ g.sets set ∧ (set = old → i ≠ id) := Redis.mem_zrem
    have hsets : ({ g.zrem old id with
        runs := Function.update g.runs id (some (toHash codec id run.hidden)) } : Redis).sets =
          (g.zrem old id).sets := rfl
    rw [place_hidden, hsets, hrem]
    by_cases heq : i = id
    · subst heq
      simp only [ne_eq, not_true_eq_false, imp_false, false_and, reduceCtorEq, and_false, or_false,
        iff_false, not_and, not_not]
      intro hmem
      obtain ⟨other, hother, hset⟩ := hR.row_of_mem hmem
      obtain rfl := Option.some.inj (hrow.symm.trans hother)
      exact hplace _ _ hset
    · simp [heq]
  · have hgone := hlacks.zrem old id
    refine ⟨hgone.lost, fun i hi => ?_, hgone.sets, hgone.priorities, hgone.keys, hgone.sequence⟩
    have hne : i ≠ id := fun heq => hi (heq ▸ hid)
    simp only [Function.update_of_ne hne]
    exact hgone.runs i hi

/-! ## Calls about one run -/

/-- What is made of the runs that are left. -/
def Onward (codec : Codec V) (added dropped : Run V → Prop) (rows : Rows String V)
    (gone : Set String) (t : Redis) : Prop :=
  ∃ rows', Stands codec rows' gone t ∧ ∀ id ∉ gone, Passes added dropped (rows id) (rows' id)

theorem stays (h : Stands codec rows gone s) (added dropped : Run V → Prop) :
    Onward codec added dropped rows gone s :=
  ⟨rows, h, fun _ _ => .kept _⟩

theorem settle (h : Stands codec rows gone s) (added dropped : Run V → Prop) {id worker : String}
    {attempt counted : Int} {values : List (Field × String)} {dueAt : Option Instant}
    {f : Run V → Run V} (hf : ∀ run : Run V, run.status = .running → run.Becomes (f run))
    (hspelled : ∀ run : Run V, Spelled run → Spelled (f run))
    (hvalues : ∀ run, Represents.Settles codec id run (f run) values (stamp dueAt) counted)
    (hroomy : s.holds id worker attempt → (s.summed id .attempts counted).isSome) :
    (∃ told, (RedisStore.settle s id worker attempt values dueAt counted).1 = some told) ∧
      Onward codec added dropped rows gone
        (RedisStore.settle s id worker attempt values dueAt counted).2 := by
  obtain ⟨g, hR, hlacks⟩ := h.whole
  by_cases hholds : s.holds id worker attempt
  · have hid : id ∉ gone := fun hin => hlacks.not_holds hin worker attempt hholds
    have hholds' := (hlacks.holds_iff hid worker attempt).1 hholds
    obtain ⟨run, hrow, -, hrunning, -⟩ := hR.holds_iff.1 hholds'
    have hroom := (hR.room_iff hrow counted).1 (hlacks.summed hid _ _ ▸ hroomy hholds)
    rcases hR.settle_spec hrow hholds' hroom (hvalues run) with ⟨hone, hafter⟩
    rcases hlacks.settle hid hholds' values (stamp dueAt) counted with ⟨hsame, hlacks'⟩
    have htold : (RedisStore.settle s id worker attempt values dueAt counted).1 = some true := by
      simp only [RedisStore.settle, hsame, hone, Option.map_some, decide_true]
    have hstands := h.update hrow (hspelled run (h.spelled id run hrow))
      (Redis.sequence_SETTLE s id worker values (stamp dueAt) counted attempt)
      ⟨_, hafter, hlacks'⟩
    exact ⟨⟨true, htold⟩, _, hstands, fun i _ => Passes.update hrow (hf run hrunning) i⟩
  · simp only [RedisStore.settle, Redis.SETTLE, if_neg hholds]
    exact ⟨⟨_, rfl⟩, h.stays added dropped⟩

theorem heartbeat (h : Stands codec rows gone s) (added dropped : Run V → Prop)
    (id worker : String) (attempt lease : Int) (moment : Instant) :
    Onward codec added dropped rows gone
      (RedisStore.heartbeat s id worker attempt lease moment).2 := by
  obtain ⟨g, hR, hlacks⟩ := h.whole
  cases hlease : moment.plus lease with
  | none =>
      simp only [RedisStore.heartbeat, hlease]
      exact h.stays added dropped
  | some leaseEnd =>
      simp only [RedisStore.heartbeat, hlease]
      by_cases hholds : s.holds id worker attempt
      · have hid : id ∉ gone := fun hin => hlacks.not_holds hin worker attempt hholds
        have hholds' := (hlacks.holds_iff hid worker attempt).1 hholds
        obtain ⟨run, hrow, -, hrunning, -⟩ := hR.holds_iff.1 hholds'
        have hafter := (hR.heartbeat_spec leaseEnd hrow hholds').2
        have hstands := h.update hrow (spelled_beaten (h.spelled id run hrow) leaseEnd)
          (Redis.sequence_HEARTBEAT s id worker (stamp (some leaseEnd)) attempt)
          ⟨_, hafter, hlacks.heartbeat hid hholds' (stamp (some leaseEnd))⟩
        exact ⟨_, hstands, fun i _ => Passes.update hrow (.beaten leaseEnd hrunning) i⟩
      · rw [Redis.HEARTBEAT, if_neg hholds]
        exact h.stays added dropped

theorem cancel (h : Stands codec rows gone s) (added dropped : Run V → Prop) (id : String)
    (moment : Instant) :
    Onward codec added dropped rows gone (RedisStore.cancel s id moment).2 := by
  obtain ⟨g, hR, hlacks⟩ := h.whole
  by_cases hstatus : s.hget id .status = some "pending"
  · have hid : id ∉ gone := by
      intro hin
      rw [hlacks.hget_lost hin] at hstatus
      cases hstatus
    by_cases hpending : ∃ run, rows id = some run ∧ run.status = .pending
    · obtain ⟨run, hrow, hwaiting⟩ := hpending
      have hafter := (hR.cancel_spec moment hrow hwaiting).2
      have hstands := h.update hrow (spelled_calledOff (h.spelled id run hrow) moment)
        (Redis.sequence_CANCEL s id (stamp (some moment)))
        ⟨_, hafter, hlacks.cancel hid (stamp (some moment))⟩
      exact ⟨_, hstands, fun i _ => Passes.update hrow (.calledOff moment hwaiting) i⟩
    · push Not at hpending
      have hrefused := hR.cancel_refused (stamp (some moment)) hpending
      have hafter := hlacks.cancel hid (stamp (some moment))
      rw [hrefused] at hafter
      have hsequence := Redis.sequence_CANCEL s id (stamp (some moment))
      refine ⟨rows, ⟨⟨g, hR, hafter⟩, h.known, ?_, h.spelled⟩, fun _ _ => .kept _⟩
      simp only [RedisStore.cancel]
      rw [hsequence]
      exact h.numbered
  · simp only [RedisStore.cancel, Redis.CANCEL, if_neg hstatus]
    exact h.stays added dropped

theorem add (h : Stands codec rows gone s) (hlt : s.sequence + 1 < 10 ^ 14) {run : Run V}
    (hrun : Spelled run) (dropped : Run V → Prop) :
    (∃ found, (RedisStore.add codec s run).1 = some found) ∧
      Onward codec (fun other => run = other) dropped rows gone
        (RedisStore.add codec s run).2 := by
  obtain ⟨g, hR, hlacks⟩ := h.whole
  have hnone := h.unused hlt
  rw [hlacks.sequence] at hnone
  have hid : tostring (g.sequence + 1) ∉ gone := by
    intro hin
    have hknown := h.known _ hin
    rw [hnone] at hknown
    cases hknown
  have hnext : g.sequence + 1 < 2 ^ 63 := by
    rw [hlacks.sequence] at hlt
    omega
  have hnamed : Named g (.add run : Request String V) := by
    intro _
    rw [hR.hashed, hnone, Option.map_none]
    exact ⟨hnext, rfl⟩
  rcases hlacks.add hid (run.key.getD "") hnext (RedisStore.fieldsOf codec run) run.queue
    run.priority.repr (RedisStore.waitingIn run).1 (RedisStore.waitingIn run).2 with
    ⟨hone, hlacks'⟩
  have hsame : (RedisStore.add codec s run).1 = (RedisStore.add codec g run).1 := by
    simp only [RedisStore.add, hone]
  have hafter : Redis.Lacks gone (RedisStore.add codec g run).2 (RedisStore.add codec s run).2 :=
    hlacks'
  rw [hsame]
  rcases hR.add_cases hnamed with ⟨-, -, hrefused⟩ | ⟨-, -, hwritten, hsequence, hR'⟩
  · rw [hrefused] at hafter
    refine ⟨⟨none, by rw [hrefused]⟩, rows, ⟨⟨g, hR, hafter⟩, h.known, ?_, h.spelled⟩,
      fun _ _ => .kept _⟩
    rw [hafter.sequence, ← hlacks.sequence]
    exact h.numbered
  · refine ⟨⟨_, hwritten⟩, _, ⟨⟨_, hR', hafter⟩, fun i hi => ?_, fun i hi => ?_,
      fun i other hother => ?_⟩, fun i _ => Passes.write hnone rfl i⟩
    · have hne : i ≠ tostring (g.sequence + 1) := fun heq => hid (heq ▸ hi)
      simpa [hne] using h.known i hi
    · rw [hafter.sequence, hsequence]
      by_cases heq : i = tostring (g.sequence + 1)
      · exact ⟨g.sequence + 1, le_rfl, heq⟩
      · obtain ⟨m, hm, htext⟩ := h.numbered i (by simpa [heq] using hi)
        rw [hlacks.sequence] at hm
        exact ⟨m, by omega, htext⟩
    · by_cases heq : i = tostring (g.sequence + 1)
      · subst heq
        rw [Function.update_self, Option.some.injEq] at hother
        exact hother ▸ hrun
      · exact h.spelled i other (by simpa [heq] using hother)

/-! ## Batches -/

/-- The induction every batch rests on. -/
theorem foldl (h : Stands codec rows gone s) {f : Redis → String → Redis} {P : Run V → Prop}
    {b : Run V → Option (Run V)}
    (hf : ∀ {rows : Rows String V} {s : Redis} {id : String} {run : Run V},
      Stands codec rows gone s → rows id = some run → P run →
        ∃ next, Stands codec (Function.update rows id next) gone (f s id) ∧
          (id ∉ gone → next = b run))
    {ids : List String} (hids : ids.Nodup) (hrows : ∀ id ∈ ids, ∃ run, rows id = some run ∧ P run) :
    ∃ rows', Stands codec rows' gone (ids.foldl f s) ∧
      ∀ id ∉ gone, rows' id = rows.revise ids b id := by
  induction ids generalizing rows s with
  | nil => exact ⟨rows, h, fun id _ => by rw [Rows.revise_nil]⟩
  | cons id ids ih =>
      obtain ⟨hid, hids⟩ := List.nodup_cons.mp hids
      obtain ⟨run, hrow, hP⟩ := hrows id List.mem_cons_self
      obtain ⟨next, hstep, hnext⟩ := hf h hrow hP
      have hrest : ∀ i ∈ ids, ∃ r, Function.update rows id next i = some r ∧ P r := by
        intro i hi
        have hne : i ≠ id := fun heq => hid (heq ▸ hi)
        rw [Function.update_of_ne hne]
        exact hrows i (List.mem_cons_of_mem _ hi)
      obtain ⟨rows', hall, hrevised⟩ := ih hstep hids hrest
      refine ⟨rows', hall, fun i hi => ?_⟩
      rw [hrevised i hi]
      by_cases heq : i = id
      · subst heq
        rw [Rows.revise_of_not_mem hid, Function.update_self, hnext hi,
          Rows.revise_of_mem hrow List.mem_cons_self]
      · simp [Rows.revise, heq]

theorem reclaimOne (moment : Instant) (h : Stands codec rows gone s) {id : String} {run : Run V}
    (hrow : rows id = some run) (hplaced : ∃ score, place run = some (.leased, score)) :
    ∃ next, Stands codec (Function.update rows id next) gone
        (Redis.reclaimOne (stamp (some moment)) s id) ∧
      (id ∉ gone → next = some (run.reclaimed moment)) := by
  obtain ⟨score, hplace⟩ := hplaced
  by_cases hid : id ∈ gone
  · have hnone : (s.zrem .leased id).hget id .attempts = none := by
      obtain ⟨g, -, hlacks⟩ := h.whole
      exact (hlacks.zrem .leased id).hget_lost hid _
    simp only [Redis.reclaimOne, hnone]
    refine ⟨_, h.forget hid hrow fun set score' hset => ?_, fun hin => absurd hid hin⟩
    rw [hplace] at hset
    cases hset
    rfl
  · obtain ⟨g, hR, hlacks⟩ := h.whole
    have hrunning : run.status = .running := by
      obtain ⟨other, lease, hother, hrunning, -⟩ := hR.mem_leased.1
        ((hR.placed id .leased score).2 ⟨run, hrow, hplace⟩)
      obtain rfl := Option.some.inj (hrow.symm.trans hother)
      exact hrunning
    have hbegun := hlacks.zrem .leased id
    have hafter : Redis.Lacks gone (Redis.reclaimOne (stamp (some moment)) g id)
        (Redis.reclaimOne (stamp (some moment)) s id) := by
      simp only [Redis.reclaimOne, hbegun.hget hid]
      split
      · exact hbegun
      · split
        · exact (hbegun.hset hid _).zadd _ _ _
        · rw [(hbegun.hset hid _).laneOf hid]
          exact (hbegun.hset hid _).zadd _ _ _
    exact ⟨_, h.update hrow (spelled_reclaimed (h.spelled id run hrow) moment)
      (Redis.sequence_reclaimOne _ s id) ⟨_, hR.reclaimOne_spec moment hrow hrunning, hafter⟩,
      fun _ => rfl⟩

theorem reclaim (h : Stands codec rows gone s) (added dropped : Run V → Prop) (moment : Instant) :
    Onward codec added dropped rows gone (RedisStore.reclaim s moment).2 := by
  have hplaced : ∀ id ∈ Represents.leases s moment reclaimBatch,
      ∃ run, rows id = some run ∧ ∃ score, place run = some (.leased, score) := by
    intro id hid
    obtain ⟨⟨i, score⟩, hmem, rfl⟩ := List.mem_map.mp hid
    obtain ⟨run, hrow, hplace⟩ := (h.placed i .leased score).1 (SortedSet.mem_of_range hmem).1
    exact ⟨run, hrow, score, hplace⟩
  obtain ⟨rows', hafter, hrevised⟩ := h.foldl
    (fun hS hrow hP => reclaimOne moment hS hrow hP)
    ((s.sets .leased).range_members_nodup _ _) hplaced
  refine ⟨rows', hafter, fun id hid => ?_⟩
  rw [hrevised id hid]
  refine Passes.revise (fun i hi run hrow => ?_) id
  obtain ⟨other, hother, score, hplace⟩ := hplaced i hi
  obtain rfl := Option.some.inj (hrow.symm.trans hother)
  obtain ⟨g, hR, -⟩ := h.whole
  obtain ⟨again, lease, hagain, hrunning, hlease, -⟩ := hR.mem_leased.1
    ((hR.placed i .leased score).2 ⟨run, hrow, hplace⟩)
  obtain rfl := Option.some.inj (hrow.symm.trans hagain)
  exact .became (Run.reclaimed_becomes moment hrunning (by simp [hlease]))

theorem purgeOne (h : Stands codec rows gone s) {id : String} {run : Run V}
    (hrow : rows id = some run) (hplaced : ∃ score, place run = some (.settled, score)) :
    ∃ next, Stands codec (Function.update rows id next) gone (Redis.purgeOne s id) ∧
      (id ∉ gone → next = none) := by
  by_cases hid : id ∈ gone
  · obtain ⟨score, hplace⟩ := hplaced
    have hnone : s.hget id .key = none := by
      obtain ⟨g, -, hlacks⟩ := h.whole
      exact hlacks.hget_lost hid _
    have hdel : s.del id = s := by
      have hsame : Function.update s.runs id none = s.runs := by
        rw [← h.lost hid, Function.update_eq_self]
      rw [Redis.del, hsame]
    simp only [Redis.purgeOne, hnone, hdel]
    refine ⟨_, h.forget hid hrow fun set score' hset => ?_, fun hin => absurd hid hin⟩
    rw [hplace] at hset
    cases hset
    rfl
  · obtain ⟨g, hR, hlacks⟩ := h.whole
    have hafter : Redis.Lacks gone (Redis.purgeOne g id) (Redis.purgeOne s id) := by
      simp only [Redis.purgeOne, hlacks.hget hid]
      split
      · exact (hlacks.del hid).zrem _ _
      · split
        · exact ((hlacks.unreserve _).del hid).zrem _ _
        · exact (hlacks.del hid).zrem _ _
    refine ⟨none, ⟨⟨_, hR.purgeOne_spec hrow hplaced, hafter⟩, fun i hi => ?_, fun i hi => ?_,
      fun i other hother => ?_⟩, fun _ => rfl⟩
    · have hne : i ≠ id := fun heq => hid (heq ▸ hi)
      simpa [hne] using h.known i hi
    · rw [Redis.sequence_purgeOne]
      by_cases heq : i = id
      · simp [heq] at hi
      · exact h.numbered i (by simpa [heq] using hi)
    · by_cases heq : i = id
      · simp [heq] at hother
      · exact h.spelled i other (by simpa [heq] using hother)

theorem purge (h : Stands codec rows gone s) (added : Run V → Prop) (before : Instant)
    (limit : Nat) :
    Onward codec added (RedisStore.Prunes (.purge before limit)) rows gone
      (RedisStore.purge s before limit).2 := by
  have hplaced : ∀ id ∈ Represents.finishes s before limit,
      ∃ run, rows id = some run ∧ ∃ score, place run = some (.settled, score) := by
    intro id hid
    obtain ⟨⟨i, score⟩, hmem, rfl⟩ := List.mem_map.mp hid
    obtain ⟨run, hrow, hplace⟩ := (h.placed i .settled score).1 (SortedSet.mem_of_range hmem).1
    exact ⟨run, hrow, score, hplace⟩
  obtain ⟨rows', hafter, hrevised⟩ := h.foldl (fun hS hrow hP => purgeOne hS hrow hP)
    ((s.sets .settled).range_members_nodup _ _) hplaced
  refine ⟨rows', hafter, fun id hid => ?_⟩
  rw [hrevised id hid]
  refine Passes.revise (fun i hi run hrow => ?_) id
  rcases List.mem_map.mp hi with ⟨⟨i, score⟩, hmem, rfl⟩
  rcases h.whole with ⟨g, hR, hlacks⟩
  rw [hlacks.sets] at hmem
  rcases hR.mem_settled.1 (SortedSet.mem_of_range hmem).1 with
    ⟨again, finish, hagain, hsettled, hfinish, hscore⟩
  cases hrow.symm.trans hagain
  exact .dropped (RedisStore.prunes_of_range hsettled hfinish hscore hmem)

/-! ## Claims -/

/-- What a claim has come to: of the runs that are left it took some that were pending, and what it
answers with so far is stored as it was answered. -/
def Claims (codec : Codec V) (rows : Rows String V) (gone : Set String) (worker : String)
    (moment lease : Instant) (taken : List Hash) (t : Redis) : Prop :=
  ∃ rows', Stands codec rows' gone t ∧
    (∀ id ∉ gone, rows' id = rows id ∨ ∃ run, rows id = some run ∧ run.status = .pending ∧
      rows' id = some (claimed worker moment lease run)) ∧
    ∀ hash ∈ taken, ∃ id ∉ gone, ∃ run, rows' id = some run ∧ run.status = .running ∧
      hash = toHash codec id run

theorem place_lane {run : Run V} {queue level : String} {score : Int}
    (h : place run = some (.queue queue level, score)) :
    run.status = .pending ∧ SetName.queue queue level = .queue run.queue run.priority.repr := by
  cases hstatus : run.status with
  | pending =>
      simp only [place, hstatus, Option.some.injEq, Prod.mk.injEq] at h
      exact ⟨rfl, h.1.symm⟩
  | running | done | failed | canceled => simp [place, hstatus] at h

/-- The server has room for one attempt more of every run that waits in a lane a claim reads. -/
def Roomy (rows : Rows String V) (gone : Set String) (queues levels : List String) : Prop :=
  ∀ id ∉ gone, ∀ run, rows id = some run → run.status = .pending → run.queue ∈ queues →
    run.priority.repr ∈ levels → Redis.Room run.attempts 1

variable {worker : String} {moment lease : Instant} {taken : List Hash}
  {queues levels : List String}

theorem takeOne_lost (h : Claims codec rows gone worker moment lease taken s)
    {entry : Redis.Ready} (hhas : (s.sets entry.lane).has entry.id = true)
    (hid : entry.id ∈ gone) :
    ∃ t, Redis.takeOne worker (stamp (some moment)) (stamp (some lease)) s entry =
        (some none, t) ∧ Claims codec rows gone worker moment lease taken t := by
  rcases h with ⟨rows', hS, hpicked, hhanded⟩
  rcases SortedSet.has_iff.1 hhas with ⟨score, hmem⟩
  rcases (hS.placed entry.id entry.lane score).1 hmem with ⟨run, hrow, hplace⟩
  have hnone : ((s.zrem entry.lane entry.id).runs entry.id).isSome = false := by
    rw [Redis.runs_zrem, hS.lost hid]
    rfl
  simp only [Redis.takeOne, if_pos hhas, hnone, Bool.false_eq_true, if_false]
  have hleft : ∀ i ∉ gone, Function.update rows' entry.id (some run.hidden) i = rows' i := by
    intro i hi
    have hne : i ≠ entry.id := fun heq => hi (heq.symm ▸ hid)
    rw [Function.update_of_ne hne]
  refine ⟨_, rfl, _, hS.forget hid hrow fun set score' hset => ?_, fun i hi => ?_,
    fun hash hhash => ?_⟩
  · rw [hplace] at hset
    cases hset
    rfl
  · rw [hleft i hi]
    exact hpicked i hi
  · rcases hhanded hash hhash with ⟨i, hi, hrest⟩
    exact ⟨i, hi, by rwa [hleft i hi]⟩

theorem takeOne_standing (h : Claims codec rows gone worker moment lease taken s)
    (hworker : worker ≠ "") (hroomy : Roomy rows gone queues levels) {entry : Redis.Ready}
    {queue level : String} (hlane : entry.lane = .queue queue level) (hserved : queue ∈ queues)
    (hread : level ∈ levels) (hhas : (s.sets entry.lane).has entry.id = true)
    (hid : entry.id ∉ gone) :
    ∃ found t, Redis.takeOne worker (stamp (some moment)) (stamp (some lease)) s entry =
        (some found, t) ∧
      Claims codec rows gone worker moment lease (taken ++ found.toList) t := by
  rcases h with ⟨rows', hS, hpicked, hhanded⟩
  obtain ⟨score, hmem⟩ := SortedSet.has_iff.1 hhas
  obtain ⟨run, hrow, hplace⟩ := (hS.placed entry.id entry.lane score).1 hmem
  rw [hlane] at hplace
  obtain ⟨hpending, hqueue⟩ := place_lane hplace
  have hbefore : rows entry.id = some run := by
    rcases hpicked _ hid with hsame | ⟨other, -, -, hother⟩
    · rw [← hsame, hrow]
    · rw [hrow, Option.some.injEq] at hother
      rw [hother] at hpending
      cases hpending
  have hroom : Redis.Room run.attempts 1 := by
    rw [SetName.queue.injEq] at hqueue
    exact hroomy _ hid run hbefore hpending (hqueue.1 ▸ hserved) (hqueue.2 ▸ hread)
  obtain ⟨g, hR, hlacks⟩ := hS.whole
  obtain ⟨t, ht, hRt⟩ := hR.takeOne_spec worker moment lease hrow hpending (hlane.trans hqueue)
    hroom
  obtain ⟨hanswer, hafter⟩ := hlacks.takeOne hid worker (stamp (some moment)) (stamp (some lease))
  rw [ht] at hanswer hafter
  have hsequence := Redis.sequence_takeOne worker (stamp (some moment)) (stamp (some lease)) s
    entry
  generalize hone : Redis.takeOne worker (stamp (some moment)) (stamp (some lease)) s entry =
    out at hanswer hafter hsequence
  have hstands := hS.update hrow
    (spelled_claimed (hS.spelled _ run hrow) hworker moment lease) hsequence ⟨t, hRt, hafter⟩
  refine ⟨_, out.2, Prod.ext hanswer rfl, _, hstands, fun i hi => ?_, fun hash hhash => ?_⟩
  · by_cases heq : i = entry.id
    · subst heq
      rw [Function.update_self]
      exact Or.inr ⟨run, hbefore, hpending, rfl⟩
    · rw [Function.update_of_ne heq]
      exact hpicked i hi
  · rcases List.mem_append.1 hhash with hold | hnew
    · obtain ⟨i, hi, other, hother, hrunning, hhash⟩ := hhanded hash hold
      have hne : i ≠ entry.id := by
        rintro rfl
        rw [hrow, Option.some.injEq] at hother
        rw [← hother, hpending] at hrunning
        cases hrunning
      exact ⟨i, hi, other, by rw [Function.update_of_ne hne, hother], hrunning, hhash⟩
    · exact ⟨entry.id, hid, _, Function.update_self .., rfl, List.mem_singleton.1 hnew⟩

/-- An entry is taken, or its hash is gone and it is stepped past, or it is no longer there. -/
theorem takeOne (h : Claims codec rows gone worker moment lease taken s) (hworker : worker ≠ "")
    (hroomy : Roomy rows gone queues levels) {entry : Redis.Ready} {queue level : String}
    (hlane : entry.lane = .queue queue level) (hserved : queue ∈ queues) (hread : level ∈ levels) :
    ∃ found t, Redis.takeOne worker (stamp (some moment)) (stamp (some lease)) s entry =
        (some found, t) ∧
      Claims codec rows gone worker moment lease (taken ++ found.toList) t := by
  by_cases hhas : (s.sets entry.lane).has entry.id = true
  · by_cases hid : entry.id ∈ gone
    · rcases takeOne_lost h hhas hid with ⟨t, ht, hafter⟩
      exact ⟨none, t, ht, by simpa using hafter⟩
    · exact takeOne_standing h hworker hroomy hlane hserved hread hhas hid
  · exact ⟨none, s, by simp only [Redis.takeOne, if_neg hhas], by simpa using h⟩

theorem takeReady (h : Claims codec rows gone worker moment lease taken s) (hworker : worker ≠ "")
    (hroomy : Roomy rows gone queues levels) (wanted : Nat) {entries : List Redis.Ready}
    (hentries : ∀ entry ∈ entries, ∃ queue ∈ queues, ∃ level ∈ levels,
      entry.lane = .queue queue level) :
    ∃ taken' t, Redis.takeReady worker (stamp (some moment)) (stamp (some lease)) wanted entries
        taken s = (some taken', t) ∧
      Claims codec rows gone worker moment lease taken' t := by
  induction entries generalizing taken s with
  | nil => exact ⟨taken, s, rfl, h⟩
  | cons entry rest ih =>
      unfold Redis.takeReady
      split
      · exact ⟨taken, s, rfl, h⟩
      · rcases hentries entry List.mem_cons_self with ⟨queue, hserved, level, hread, hlane⟩
        rcases takeOne h hworker hroomy hlane hserved hread with ⟨found, t, ht, hafter⟩
        simp only [ht]
        exact ih hafter fun e he => hentries e (List.mem_cons_of_mem entry he)

theorem ready_lane {moment level : String} {window : Nat} {entry : Redis.Ready}
    (h : entry ∈ s.ready queues moment window level) :
    ∃ queue ∈ queues, entry.lane = .queue queue level := by
  rw [Redis.ready, (List.perm_insertionSort _ _).mem_iff] at h
  obtain ⟨queue, hserved, hentry⟩ := List.mem_flatMap.mp h
  obtain ⟨e, -, rfl⟩ := List.mem_map.mp hentry
  exact ⟨queue, hserved, rfl⟩

theorem takeLevels (h : Claims codec rows gone worker moment lease taken s) (hworker : worker ≠ "")
    (hroomy : Roomy rows gone queues levels) (wanted window : Nat) {rest : List String}
    (hrest : ∀ level ∈ rest, level ∈ levels) :
    ∃ taken' t, Redis.takeLevels queues worker (stamp (some moment)) (stamp (some lease)) wanted
        window rest taken s = (some taken', t) ∧
      Claims codec rows gone worker moment lease taken' t := by
  induction rest generalizing taken s with
  | nil => exact ⟨taken, s, rfl, h⟩
  | cons level rest ih =>
      unfold Redis.takeLevels
      split
      · exact ⟨taken, s, rfl, h⟩
      · have hentries : ∀ entry ∈ s.ready queues (stamp (some moment)) window level,
            ∃ queue ∈ queues, ∃ level ∈ levels, entry.lane = .queue queue level := by
          intro entry hentry
          rcases ready_lane hentry with ⟨queue, hserved, hlane⟩
          exact ⟨queue, hserved, level, hrest level List.mem_cons_self, hlane⟩
        rcases takeReady h hworker hroomy wanted hentries with ⟨taken', t, ht, hafter⟩
        simp only [ht]
        exact ih hafter fun other hother => hrest other (List.mem_cons_of_mem level hother)

theorem claim (h : Stands codec rows gone s) (hworker : worker ≠ "")
    (hroomy : Roomy rows gone queues (s.levels queues)) (wanted window : Nat)
    (moment lease : Instant) :
    ∃ taken t, s.CLAIM queues (stamp (some moment)) worker (stamp (some lease)) wanted window =
        (some taken, t) ∧
      Claims codec rows gone worker moment lease taken t :=
  takeLevels ⟨rows, h, fun _ _ => Or.inl rfl, fun _ hhash => absurd hhash List.not_mem_nil⟩ hworker
    hroomy wanted window fun _ hlevel => hlevel

theorem Claims.onward (h : Claims codec rows gone worker moment lease taken s)
    (added dropped : Run V → Prop) : Onward codec added dropped rows gone s := by
  obtain ⟨rows', hS, hpicked, -⟩ := h
  refine ⟨rows', hS, fun id hid => ?_⟩
  rcases hpicked id hid with hsame | ⟨run, hrow, hpending, hafter⟩
  · rw [hsame]
    exact .kept _
  · rw [hrow, hafter]
    exact .became (.claimed worker moment lease hpending)

end Stands

/-! ## Calls and evictions -/

/-- Every text a call hands to the store says something. -/
def Request.Worded : Request String V → Prop
  | .add run => Spelled run
  | .claim worker .. => worker ≠ ""
  | .fail _ _ _ _ error errorType | .retryLater _ _ _ _ error errorType
  | .release _ _ _ _ error errorType => error ≠ "" ∧ errorType ≠ ""
  | _ => True

/-- A call of the store, or the loss of one hash. -/
inductive Incident (V : Type)
  | call (q : Request String V)
  | evict (id : String)

namespace RedisStore

def happens (codec : Codec V) (s : Redis) : Incident V → Option Redis
  | .call q => step codec s q
  | .evict id => some (s.del id)

/-- The server has room for one attempt more of whatever waits in the lanes a claim reads, and for
what any other call counts. -/
def Spare (s : Redis) (q : Request String V) : Prop :=
  match q with
  | .claim _ queues _ _ _ => ∀ queue ∈ queues, ∀ level ∈ s.levels queues,
      ∀ entry ∈ (s.sets (.queue queue level)).entries, (s.summed entry.1 .attempts 1).isSome
  | q => Roomy s q

/-- A call short of the last number of fourteen digits, and an eviction at any time. -/
def Expected (s : Redis) : Incident V → Prop
  | .call q => s.sequence + 1 < 10 ^ 14 ∧ q.Worded ∧ Spare s q
  | .evict _ => True

instance (timeout : Option ℚ) (retryDelay maxRetryDelay : ℚ) :
    Decidable (HeldSpans timeout retryDelay maxRetryDelay) :=
  decidable_of_iff ((∀ q ∈ timeout, IsDouble q) ∧ IsDouble retryDelay ∧ IsDouble maxRetryDelay)
    ⟨fun h => ⟨h.1, h.2.1, h.2.2⟩, fun h => ⟨h.timeout, h.retryDelay, h.maxRetryDelay⟩⟩

instance (run : Run V) : Decidable (Spelled run) :=
  decidable_of_iff (run.key ≠ some "" ∧ run.worker ≠ some "" ∧ run.error ≠ some "" ∧
    run.errorType ≠ some "" ∧ HeldSpans run.timeout run.retryDelay run.maxRetryDelay)
    ⟨fun h => ⟨h.1, h.2.1, h.2.2.1, h.2.2.2.1, h.2.2.2.2⟩,
      fun h => ⟨h.key, h.worker, h.error, h.errorType, h.spans⟩⟩

instance : ∀ q : Request String V, Decidable q.Worded
  | .add run => inferInstanceAs (Decidable (Spelled run))
  | .claim worker .. => inferInstanceAs (Decidable (worker ≠ ""))
  | .fail _ _ _ _ error errorType | .retryLater _ _ _ _ error errorType
  | .release _ _ _ _ error errorType =>
      inferInstanceAs (Decidable (error ≠ "" ∧ errorType ≠ ""))
  | .heartbeat .. | .complete .. | .reclaim .. | .cancel .. | .purge .. | .find _ | .get _ =>
      isTrue trivial

instance (s : Redis) (q : Request String V) : Decidable (Spare s q) :=
  match q with
  | .claim _ queues _ _ _ =>
      inferInstanceAs (Decidable (∀ queue ∈ queues, ∀ level ∈ s.levels queues,
        ∀ entry ∈ (s.sets (.queue queue level)).entries, (s.summed entry.1 .attempts 1).isSome))
  | .complete .. | .fail .. | .retryLater .. | .release .. => inferInstanceAs (Decidable (_ → _))
  | .add _ | .heartbeat .. | .reclaim .. | .cancel .. | .purge .. | .find _ | .get _ =>
      isTrue trivial

instance (s : Redis) : ∀ e : Incident V, Decidable (Expected s e)
  | .call q => inferInstanceAs (Decidable (_ ∧ q.Worded ∧ Spare s q))
  | .evict _ => isTrue trivial

/-- The run a state holds under an id, as the store reads it back. -/
def stored (codec : Codec V) (s : Redis) : Rows String V := fun id =>
  (get codec s id).join.map (·.toRun)

end RedisStore

namespace Stands

open RedisStore (stored)

theorem get_of_row (h : Stands codec rows gone s) {id : String} (hid : id ∉ gone) {run : Run V}
    (hrow : rows id = some run) : RedisStore.get codec s id = some (some ⟨run, id⟩) := by
  have hread := RedisStore.toRun_toHash codec id (h.spelled id run hrow)
  simp only [RedisStore.get, h.hashed hid, hrow, Option.map_some, hread]

theorem get_of_none {id : String} (hid : s.runs id = none) :
    RedisStore.get codec s id = some none := by
  simp only [RedisStore.get, hid]

theorem stored_eq (h : Stands codec rows gone s) {id : String} (hid : id ∉ gone) :
    stored codec s id = rows id := by
  cases hrow : rows id with
  | none =>
      have hnone : s.runs id = none := by rw [h.hashed hid, hrow, Option.map_none]
      simp [stored, get_of_none hnone]
  | some run => simp [stored, h.get_of_row hid hrow]

theorem stored_lost (h : Stands codec rows gone s) {id : String} (hid : id ∈ gone) :
    stored codec s id = none := by
  simp [stored, get_of_none (h.lost hid)]

/-- A read finds no run, or one it can read. -/
theorem get_readable (h : Stands codec rows gone s) (id : String) :
    ∃ found, RedisStore.get codec s id = some found := by
  cases hid : s.runs id with
  | none => exact ⟨none, get_of_none hid⟩
  | some hash =>
      obtain ⟨hin, run, hrow, -⟩ := h.left hid
      exact ⟨_, h.get_of_row hin hrow⟩

/-- What a claim answers with reads back, and as it is stored. -/
theorem claimed_readable (h : Stands codec rows gone s) {taken : List Hash}
    (htaken : ∀ hash ∈ taken, ∃ id ∉ gone, ∃ run, rows id = some run ∧ run.status = .running ∧
      hash = toHash codec id run) :
    ∃ found, taken.mapM (toRun codec) = some found ∧
      ∀ row ∈ found, RedisStore.get codec s row.id = some (some row) := by
  induction taken with
  | nil => exact ⟨[], rfl, fun _ hrow => absurd hrow List.not_mem_nil⟩
  | cons hash rest ih =>
      obtain ⟨found, hfound, hread⟩ := ih fun other hother =>
        htaken other (List.mem_cons_of_mem hash hother)
      obtain ⟨id, hid, run, hrow, -, rfl⟩ := htaken hash List.mem_cons_self
      refine ⟨⟨run, id⟩ :: found, ?_, fun row hmem => ?_⟩
      · simp [List.mapM_cons, RedisStore.toRun_toHash codec id (h.spelled id run hrow), hfound]
      · rcases List.mem_cons.1 hmem with rfl | hmem
        · exact h.get_of_row hid hrow
        · exact hread row hmem

/-- The room a claim is given is room for the attempts of what waits in its lanes. -/
theorem roomy (h : Stands codec rows gone s) {queues : List String}
    (hspare : ∀ queue ∈ queues, ∀ level ∈ s.levels queues,
      ∀ entry ∈ (s.sets (.queue queue level)).entries, (s.summed entry.1 .attempts 1).isSome) :
    Roomy rows gone queues (s.levels queues) := by
  intro id hid run hrow hpending hserved hread
  rcases h.whole with ⟨g, hR, hlacks⟩
  have hplace : place run = some (.queue run.queue run.priority.repr, double run.dueAt.micro) := by
    simp [place, hpending]
  have hentry := (h.placed id _ _).2 ⟨run, hrow, hplace⟩
  have hroom := hspare _ hserved _ hread _ hentry
  rw [hlacks.summed hid] at hroom
  exact (hR.room_iff hrow 1).1 hroom

theorem answerTold_ne {answer : Option Bool} (h : ∃ told, answer = some told) :
    (RedisStore.answerTold answer : Answer String V) ≠ .raised := by
  rcases h with ⟨told, rfl⟩
  simp [RedisStore.answerTold]

/-- A call is answered, and of the runs that are left it makes what it makes of any. -/
theorem perform (h : Stands codec rows gone s) {q : Request String V}
    (hlt : s.sequence + 1 < 10 ^ 14) (hq : q.Worded) (hspare : RedisStore.Spare s q) :
    (RedisStore.perform codec s q).1 ≠ .raised ∧
      Onward codec (fun run => q = .add run) (RedisStore.Prunes q) rows gone
        (RedisStore.perform codec s q).2 := by
  cases q with
  | find key =>
      constructor
      · simp only [RedisStore.perform, RedisStore.find]
        cases s.keys key with
        | none => simp [RedisStore.answerRow]
        | some id =>
            rcases h.get_readable id with ⟨found, hfound⟩
            simp only [hfound]
            split <;> simp [RedisStore.answerRow]
      · exact h.stays _ _
  | get id =>
      rcases h.get_readable id with ⟨found, hfound⟩
      exact ⟨by simp [RedisStore.perform, hfound, RedisStore.answerRow], h.stays _ _⟩
  | add run =>
      rcases h.add hlt hq (RedisStore.Prunes (.add run)) with
        ⟨⟨found, hfound⟩, rows', hafter, hpasses⟩
      constructor
      · simp [RedisStore.perform, hfound, RedisStore.answerRow]
      · exact ⟨rows', hafter, fun id hid => (hpasses id hid).weaken
          (fun other heq => congrArg Request.add heq) fun _ _ _ hrun => hrun⟩
  | claim worker queues limit lease moment =>
      cases hlease : moment.plus lease with
      | none =>
          simp only [RedisStore.perform, RedisStore.claim, hlease, RedisStore.answerRows]
          exact ⟨by simp, h.stays _ _⟩
      | some leaseEnd =>
          rcases h.claim hq (h.roomy hspare) limit (limit * claimSpread) moment leaseEnd with
            ⟨taken, t, ht, hclaims⟩
          rcases id hclaims with ⟨rows', hafter, -, hhanded⟩
          rcases hafter.claimed_readable hhanded with ⟨found, hfound, -⟩
          simp only [RedisStore.perform, RedisStore.claim, hlease, ht, Option.bind_some, hfound,
            RedisStore.answerRows]
          exact ⟨by simp, hclaims.onward _ _⟩
  | heartbeat id worker attempt lease moment =>
      exact ⟨by simp [RedisStore.perform], h.heartbeat _ _ id worker attempt lease moment⟩
  | complete id worker attempt moment result =>
      refine And.imp_left answerTold_ne ?_
      exact h.settle _ _ (fun _ hs => .completed moment result hs)
        (fun _ hs => spelled_completed hs moment result)
        (fun run => Represents.settles_completed codec id run moment result) hspare
  | fail id worker attempt moment error errorType =>
      refine And.imp_left answerTold_ne ?_
      exact h.settle _ _ (fun _ hs => .failed moment error errorType hs)
        (fun _ hs => spelled_failed hs moment hq.1 hq.2)
        (fun run => Represents.settles_failed codec id run moment error errorType) hspare
  | retryLater id worker attempt dueAt error errorType =>
      refine And.imp_left answerTold_ne ?_
      exact h.settle _ _ (fun _ hs => .requeued dueAt error errorType 0 hs (Or.inl rfl))
        (fun _ hs => spelled_requeued hs dueAt 0 hq.1 hq.2)
        (fun run => Represents.settles_requeued codec id run dueAt error errorType 0) hspare
  | release id worker attempt dueAt error errorType =>
      refine And.imp_left answerTold_ne ?_
      exact h.settle _ _ (fun _ hs => .requeued dueAt error errorType (-1) hs (Or.inr rfl))
        (fun _ hs => spelled_requeued hs dueAt (-1) hq.1 hq.2)
        (fun run => Represents.settles_requeued codec id run dueAt error errorType (-1)) hspare
  | reclaim moment => exact ⟨by simp [RedisStore.perform], h.reclaim _ _ moment⟩
  | cancel id moment => exact ⟨by simp [RedisStore.perform], h.cancel _ _ id moment⟩
  | purge before limit => exact ⟨by simp [RedisStore.perform], h.purge _ before limit⟩

theorem evict (h : Stands codec rows gone s) {id : String} (hid : (s.runs id).isSome) :
    Stands codec rows (insert id gone) (s.del id) := by
  obtain ⟨g, hR, hlacks⟩ := h.whole
  obtain ⟨hash, hhash⟩ := Option.isSome_iff_exists.mp hid
  obtain ⟨-, run, hrow, -⟩ := h.left hhash
  refine ⟨⟨g, hR, ?_, ?_, hlacks.sets, hlacks.priorities, hlacks.keys, hlacks.sequence⟩, ?_,
    h.numbered, h.spelled⟩
  · intro i hi
    rcases hi with rfl | hi
    · simp [Redis.del]
    · by_cases heq : i = id
      · simp [Redis.del, heq]
      · simpa [Redis.del, heq] using hlacks.lost i hi
  · intro i hi
    have hne : i ≠ id := fun heq => hi (Or.inl heq)
    simpa [Redis.del, hne] using hlacks.runs i fun hin => hi (Or.inr hin)
  · intro i hi
    rcases hi with rfl | hi
    · rw [hrow]
      rfl
    · exact h.known i hi

/-- What one incident may drop: what a pruning found over. -/
def Drops (e : Incident V) (last : Run V) : Prop := ∃ q, e = .call q ∧ RedisStore.Prunes q last

/-- One step of the store or against it. Nothing that is gone comes back, and every other run lives
on by a step of its own. -/
theorem happens (h : Stands codec rows gone s) {e : Incident V} {t : Redis}
    (hok : RedisStore.Expected s e) (ht : RedisStore.happens codec s e = some t) :
    ∃ rows' gone', Stands codec rows' gone' t ∧ gone ⊆ gone' ∧
      ∀ id, e ≠ .evict id →
        Passes (fun run => e = .call (.add run)) (Drops e) (stored codec s id)
          (stored codec t id) := by
  cases e with
  | call q =>
      cases ht
      rcases h.perform hok.1 hok.2.1 hok.2.2 with ⟨-, rows', hafter, hpasses⟩
      refine ⟨rows', gone, hafter, subset_rfl, fun id _ => ?_⟩
      by_cases hid : id ∈ gone
      · rw [h.stored_lost hid, hafter.stored_lost hid]
        exact .kept none
      · rw [h.stored_eq hid, hafter.stored_eq hid]
        exact (hpasses id hid).weaken (fun run hq => congrArg Incident.call hq)
          fun last _ _ hlast => ⟨q, rfl, hlast⟩
  | evict id =>
      cases ht
      have hother : ∀ i, (.evict id : Incident V) ≠ .evict i →
          stored codec (s.del id) i = stored codec s i := by
        intro i hi
        have hne : i ≠ id := fun heq => hi (heq ▸ rfl)
        simp [stored, RedisStore.get, Redis.del, hne]
      cases hid : s.runs id with
      | none =>
          have hsame : s.del id = s := by
            rw [Redis.del, ← hid, Function.update_eq_self]
          rw [hsame]
          exact ⟨rows, gone, h, subset_rfl, fun i _ => .kept _⟩
      | some hash =>
          refine ⟨rows, insert id gone, h.evict (by rw [hid]; rfl), Set.subset_insert id gone, ?_⟩
          intro i hi
          rw [hother i hi]
          exact .kept _

end Stands

namespace RedisStore

theorem stands_of_reach (h : Reach (happens codec) Expected Redis.empty s) :
    ∃ rows gone, Stands codec rows gone s := by
  refine h.invariant (I := fun s => ∃ rows gone, Stands codec rows gone s)
    ⟨_, _, .empty codec⟩ ?_
  rintro s t e - ⟨rows, gone, hS⟩ hok ht
  obtain ⟨rows', gone', hS', -⟩ := hS.happens hok ht
  exact ⟨rows', gone', hS'⟩

theorem claim_of_rows {q : Request String V} {taken : List (Row String V)}
    (h : (perform codec s q).1 = .rows (.ok taken)) :
    ∃ worker queues limit lease moment, q = .claim worker queues limit lease moment := by
  cases q with
  | claim worker queues limit lease moment => exact ⟨worker, queues, limit, lease, moment, rfl⟩
  | find | get | add =>
      simp only [perform, answerRow] at h
      split at h <;> cases h
  | complete | fail | retryLater | release =>
      simp only [perform, answerTold] at h
      split at h <;> cases h
  | heartbeat | reclaim | cancel | purge => cases h

/-- Whatever was evicted between any two calls: every hash there is reads back whole, its run is in
the set its state waits in and in no other, no call comes upon a run it cannot read, and what a
claim answers with is stored as it answered it. -/
theorem evictions_are_survived (h : Reach (happens codec) Expected Redis.empty s) :
    (∀ id hash, s.runs id = some hash → ∃ run, hash = toHash codec id run ∧
      get codec s id = some (some ⟨run, id⟩) ∧
      ∀ set score, (id, score) ∈ s.sets set ↔ place run = some (set, score)) ∧
    ∀ q : Request String V, Expected s (.call q) → (perform codec s q).1 ≠ .raised ∧
      ∀ taken, (perform codec s q).1 = .rows (.ok taken) →
        ∀ row ∈ taken, get codec (perform codec s q).2 row.id = some (some row) := by
  obtain ⟨rows, gone, hS⟩ := stands_of_reach h
  constructor
  · intro id hash hid
    obtain ⟨hin, run, hrow, heq⟩ := hS.left hid
    refine ⟨run, heq, hS.get_of_row hin hrow, fun set score => ?_⟩
    rw [hS.placed, hrow]
    simp
  · rintro q ⟨hlt, hq, hspare⟩
    refine ⟨(hS.perform hlt hq hspare).1, fun taken htaken => ?_⟩
    rcases claim_of_rows htaken with ⟨worker, queues, limit, lease, moment, rfl⟩
    simp only [perform, claim] at htaken ⊢
    cases hlease : moment.plus lease with
    | none =>
        rw [hlease] at htaken
        cases htaken
    | some leaseEnd =>
        rcases hS.claim hq (hS.roomy hspare) limit (limit * claimSpread) moment leaseEnd with
          ⟨hashes, t, ht, rows', hafter, -, hhanded⟩
        rcases hafter.claimed_readable hhanded with ⟨found, hfound, hread⟩
        simp only [hlease, ht, Option.bind_some, hfound, answerRows] at htaken ⊢
        cases htaken
        exact hread

/-- A pruning came by this run, found it over and left nothing under its id. -/
def Lost (codec : Codec V) (id : String) (last : Run V) (u : Redis) (e : Incident V) : Prop :=
  ∃ q, e = .call q ∧ stored codec u id = some last ∧ Prunes q last ∧
    stored codec (perform codec u q).2 id = none

/-- What is gone stays gone. -/
theorem gone_stays {incidents : List (Incident V)} {t : Redis} (hS : Stands codec rows gone s)
    (hok : Meets (happens codec) Expected s incidents)
    (h : runAll (happens codec) s incidents = some t) :
    ∃ rows' gone', Stands codec rows' gone' t ∧ gone ⊆ gone' := by
  induction incidents generalizing rows gone s with
  | nil =>
      cases h
      exact ⟨rows, gone, hS, subset_rfl⟩
  | cons e rest ih =>
      rcases Option.bind_eq_some_iff.mp h with ⟨u, hu, ht⟩
      rcases hS.happens hok.1 hu with ⟨rows', gone', hS', hmore, -⟩
      rcases ih hS' (hok.2 u hu) ht with ⟨rows'', gone'', hS'', hrest⟩
      exact ⟨rows'', gone'', hS'', hmore.trans hrest⟩

/-- What becomes of a run that no incident evicts. -/
theorem fate_of_incidents {incidents : List (Incident V)} {t : Redis} {id : String}
    (hS : Stands codec rows gone s) (hok : Meets (happens codec) Expected s incidents)
    (h : runAll (happens codec) s incidents = some t) (hid : .evict id ∉ incidents) :
    Fate (fun run => .call (.add run) ∈ incidents)
      (fun last => Sometime (happens codec) (Lost codec id last) s incidents)
      (stored codec s id) (stored codec t id) := by
  have hstep : ∀ {s t : Redis} {e : Incident V} {a : Rows Unit V},
      (∃ rows gone, Stands codec rows gone s) ∧ a () = stored codec s id →
      Expected s e ∧ e ≠ .evict id → happens codec s e = some t →
      ∃ b : Rows Unit V, ((∃ rows gone, Stands codec rows gone t) ∧ b () = stored codec t id) ∧
        ∀ i, Passes (fun run => e = .call (.add run)) (fun last => ∃ q, e = .call q ∧
          Prunes q last ∧ stored codec (perform codec s q).2 id = none) (a i) (b i) := by
    rintro s t e a ⟨⟨rows, gone, hS⟩, ha⟩ ⟨hok, he⟩ ht
    rcases hS.happens hok ht with ⟨rows', gone', hS', -, hpasses⟩
    refine ⟨fun _ => stored codec t id, ⟨⟨rows', gone', hS'⟩, rfl⟩, fun i => ?_⟩
    rw [ha]
    refine (hpasses id he).weaken (fun _ hrun => hrun) ?_
    rintro last - hgone ⟨q, rfl, hpruned⟩
    cases ht
    exact ⟨q, rfl, hpruned, hgone⟩
  have hmeets : Meets (happens codec) (fun s e => Expected s e ∧ e ≠ .evict id) s incidents :=
    hok.and fun e he _ heq => hid (heq ▸ he)
  rcases fates_of_run _ (fun e _ run => e = .call (.add run)) _ hstep
    (a := fun _ => stored codec s id) ⟨⟨rows, gone, hS⟩, rfl⟩ hmeets h with
    ⟨b, ⟨-, hb⟩, hfates⟩
  have hfate := hfates ()
  rw [hb] at hfate
  refine hfate.weaken (fun run => ?_) fun last => Sometime.weaken ?_
  · rintro ⟨e, he, rfl⟩
    exact he
  · rintro u e ⟨⟨c, ⟨-, hc⟩, hrow⟩, q, rfl, hpruned, hgone⟩
    exact ⟨q, rfl, hc ▸ hrow, hpruned, hgone⟩

/-- An eviction costs the run that was evicted and no other: that one never comes back, and every
run that was not evicted lives on by what calls make of it until a pruning finds it over and drops
it. -/
theorem evictions_cost_one_run {incidents : List (Incident V)} {t : Redis}
    (hs : Reach (happens codec) Expected Redis.empty s)
    (hok : Meets (happens codec) Expected s incidents)
    (h : runAll (happens codec) s incidents = some t) :
    (∀ id rest, incidents = .evict id :: rest → (s.runs id).isSome → t.runs id = none) ∧
      ∀ id, .evict id ∉ incidents →
        Fate (fun run => .call (.add run) ∈ incidents)
          (fun last => Sometime (happens codec) (Lost codec id last) s incidents)
          (stored codec s id) (stored codec t id) := by
  obtain ⟨rows, gone, hS⟩ := stands_of_reach hs
  constructor
  · rintro id rest rfl hid
    rcases Option.bind_eq_some_iff.mp h with ⟨u, hu, ht⟩
    cases hu
    rcases gone_stays (hS.evict hid) (hok.2 _ rfl) ht with ⟨rows', gone', hS', hsub⟩
    exact hS'.lost (hsub (Set.mem_insert id gone))
  · exact fun id hid => fate_of_incidents hS hok h hid

/-- Two runs are written and claimed. -/
def bothHeld : List (Incident Unit) :=
  [.call (.add (Plain.run "mail" 0 Instant.epoch)), .call (.add (Plain.run "mail" 0 Instant.epoch)),
   .call (.claim "worker" ["mail"] 2 30000000 Instant.epoch)]

/-- The hash of the first is lost, and the leases of both run out. -/
def oneLost : List (Incident Unit) :=
  [.evict "1", .call (.reclaim ((Instant.epoch.plus 75000000).get rfl))]

theorem evictions_are_survived_oneLost : ∃ s,
    runAll (happens Plain.codec) Redis.empty (bothHeld ++ oneLost) = some s ∧
      s.runs "1" = none ∧ s.hget "2" .status = some "pending" ∧
      ∀ q : Request String Unit, Expected s (.call q) →
        (perform Plain.codec s q).1 ≠ .raised := by
  have hmeets : Meets (happens Plain.codec) Expected Redis.empty (bothHeld ++ oneLost) := by
    decide +kernel
  have hsurvived := evictions_are_survived (.of_meets .start hmeets rfl)
  exact ⟨_, rfl, by decide +kernel, by decide +kernel, fun q hq => (hsurvived.2 q hq).1⟩

theorem evictions_cost_one_run_oneLost : ∃ s t,
    runAll (happens Plain.codec) Redis.empty bothHeld = some s ∧
      runAll (happens Plain.codec) s oneLost = some t ∧ t.runs "1" = none ∧
      Fate (fun run => .call (.add run) ∈ oneLost)
        (fun last => Sometime (happens Plain.codec) (Lost Plain.codec "2" last) s oneLost)
        (stored Plain.codec s "2") (stored Plain.codec t "2") := by
  have hheld : Meets (happens Plain.codec) Expected Redis.empty bothHeld := by decide +kernel
  obtain ⟨s, hs⟩ := Option.isSome_iff_exists.mp
    (show (runAll (happens Plain.codec) Redis.empty bothHeld).isSome from rfl)
  have hlost : Meets (happens Plain.codec) Expected s oneLost := by
    cases hs
    decide +kernel
  obtain ⟨t, ht⟩ := Option.isSome_iff_exists.mp
    (show (runAll (happens Plain.codec) s oneLost).isSome from rfl)
  have hcost := evictions_cost_one_run (.of_meets .start hheld hs) hlost ht
  refine ⟨s, t, hs, ht, hcost.1 "1" _ rfl ?_, hcost.2 "2" (by simp [oneLost])⟩
  cases hs
  decide +kernel

end RedisStore

end Queuefy
