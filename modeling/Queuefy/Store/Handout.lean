import Queuefy.Store.Batches

/-! # What a claim takes

The script walks its levels from the highest down and picks, out of what each offers, the runs it
has not picked yet, until it has as many as it was asked for. What a level offers is read when the
walk gets there, and nothing picked by then came from that level.
-/

namespace Queuefy

variable {V : Type} {codec : Codec V} {rows : Rows String V} {s : Redis}

open RedisStore (toHash)
open MemoryStore (claimed)

namespace Represents

theorem mem_lane (hR : Represents codec rows s) {id queue level : String} {score : Int} :
    (id, score) ∈ s.sets (.queue queue level) ↔ ∃ run, rows id = some run ∧
      run.status = .pending ∧ run.queue = queue ∧ run.priority.repr = level ∧
        double run.dueAt.micro = score := by
  rw [hR.placed]
  constructor
  · rintro ⟨run, hrow, hplace⟩
    cases hstatus : run.status with
    | pending =>
        simp only [place, hstatus, Option.some.injEq, Prod.mk.injEq, SetName.queue.injEq] at hplace
        exact ⟨run, hrow, hstatus, hplace.1.1, hplace.1.2, hplace.2⟩
    | running => simp [place, hstatus] at hplace
    | done => simp [place, hstatus] at hplace
    | failed => simp [place, hstatus] at hplace
    | canceled => simp [place, hstatus] at hplace
  · rintro ⟨run, hrow, hstatus, rfl, rfl, rfl⟩
    exact ⟨run, hrow, by simp [place, hstatus]⟩

/-! ## One run -/

theorem takeOne_spec (hR : Represents codec rows s) (worker : String) (moment lease : Instant)
    {entry : Redis.Ready} {run : Run V} (hrow : rows entry.id = some run)
    (hpending : run.status = .pending)
    (hlane : entry.lane = .queue run.queue run.priority.repr) (hroom : Redis.Room run.attempts 1) :
    ∃ t, Redis.takeOne worker (stamp (some moment)) (stamp (some lease)) s entry =
        (some (some (toHash codec entry.id (claimed worker moment lease run))), t) ∧
      Represents codec
        (Function.update rows entry.id (some (claimed worker moment lease run))) t := by
  have hhas : (s.sets entry.lane).has entry.id = true := by
    rw [SortedSet.has_iff, hlane]
    exact ⟨_, hR.mem_lane.2 ⟨run, hrow, hpending, rfl, rfl, rfl⟩⟩
  have hid : (s.zrem entry.lane entry.id).runs entry.id = some (toHash codec entry.id run) :=
    hR.runs_eq hrow
  have hsome : ((s.zrem entry.lane entry.id).runs entry.id).isSome := by simp [hid]
  have hhash : ((toHash codec entry.id run).set
      [(.status, "running"), (.worker, worker), (.startedAt, stamp (some moment)),
       (.leaseUntil, stamp (some lease))]).set [(.attempts, (run.attempts + 1).repr)] =
        toHash codec entry.id (claimed worker moment lease run) := by
    funext field
    cases field <;>
      simp [Hash.set, toHash, claimed, MemoryStore.started, RunStatus.value]
  have hattempts : ((toHash codec entry.id run).set
      [(.status, "running"), (.worker, worker), (.startedAt, stamp (some moment)),
       (.leaseUntil, stamp (some lease))]) .attempts = some run.attempts.repr := by
    simp [Hash.set, toHash]
  have hmarked := Redis.runs_hset_self hid [(.status, "running"), (.worker, worker),
    (.startedAt, stamp (some moment)), (.leaseUntil, stamp (some lease))]
  have hcounted := Redis.hincrby_eq hmarked hattempts hroom
  have hruns : (((s.zrem entry.lane entry.id).hset entry.id
      [(.status, "running"), (.worker, worker), (.startedAt, stamp (some moment)),
       (.leaseUntil, stamp (some lease))]).hset entry.id
        [(.attempts, (run.attempts + 1).repr)]).runs =
          Function.update s.runs entry.id
            (some (toHash codec entry.id (claimed worker moment lease run))) := by
    rw [Redis.runs_hset hmarked, hhash, Redis.runs_hset hid, Function.update_idem, Redis.runs_zrem]
  have hold : ∀ set score, place run = some (set, score) → set = entry.lane := by
    intro set score hplace
    simp only [place, hpending, Option.some.injEq, Prod.mk.injEq] at hplace
    rw [hlane, hplace.1]
  simp only [Redis.takeOne, if_pos hhas, if_pos hsome, hcounted]
  refine ⟨_, Prod.ext ?_ rfl, hR.move hrow rfl rfl rfl ?_ (fun i set score => ?_) rfl rfl⟩
  · dsimp only
    rw [Redis.runs_zadd, hruns, Function.update_self]
  · rw [Redis.runs_zadd, hruns]
  · refine (hR.moved_sets hrow hold rfl i set score).trans ?_
    simp [place, claimed, MemoryStore.started, stamp, eq_comm]

theorem takeOne_refused (hR : Represents codec rows s) (worker moment lease : String)
    {entry : Redis.Ready} {run : Run V} (hrow : rows entry.id = some run)
    (hpending : run.status ≠ .pending) {queue level : String}
    (hlane : entry.lane = .queue queue level) :
    Redis.takeOne worker moment lease s entry = (some none, s) := by
  rw [Redis.takeOne, if_neg]
  rw [SortedSet.has_iff, hlane]
  rintro ⟨score, hmem⟩
  obtain ⟨other, hother, hwaiting, -⟩ := hR.mem_lane.1 hmem
  obtain rfl := Option.some.inj (hrow.symm.trans hother)
  exact hpending hwaiting

/-! ## One level -/

theorem ready_spec (hR : Represents codec rows s) {queues : List String} {moment level : String}
    {window : Nat} {entry : Redis.Ready} (h : entry ∈ s.ready queues moment window level) :
    ∃ run, rows entry.id = some run ∧ run.status = .pending ∧ run.queue ∈ queues ∧
      run.priority.repr = level ∧ double run.dueAt.micro = entry.dueAt ∧
        entry.dueAt ≤ number moment ∧ entry.lane = .queue run.queue level := by
  rw [Redis.ready, (List.perm_insertionSort _ _).mem_iff] at h
  obtain ⟨queue, hqueue, hentry⟩ := List.mem_flatMap.mp h
  obtain ⟨e, he, rfl⟩ := List.mem_map.mp hentry
  obtain ⟨hmem, hdue⟩ := SortedSet.mem_of_range he
  obtain ⟨run, hrow, hpending, rfl, hlevel, hscore⟩ := hR.mem_lane.1 hmem
  exact ⟨run, hrow, hpending, hqueue, hlevel, hscore, by simpa using hdue, rfl⟩

end Represents

/-! ## The walk -/

section Walk

variable (codec) (rows) (worker : String) (moment lease : Instant)

/-- The rows once the runs of some ids were taken. -/
def Rows.taken (ids : List String) : Rows String V :=
  rows.revise ids fun run => some (claimed worker moment lease run)

/-- What a claim answers for an id it took. -/
def taking (id : String) : Hash :=
  ((rows id).map fun run => toHash codec id (claimed worker moment lease run)).getD fun _ => none

variable {codec rows worker moment lease}

theorem taken_snoc {ids : List String} {id : String} {run : Run V} (hrow : rows id = some run)
    (hid : id ∉ ids) :
    Function.update (rows.taken worker moment lease ids) id
        (some (claimed worker moment lease run)) =
      rows.taken worker moment lease (ids ++ [id]) := by
  funext i
  by_cases hi : i = id
  · subst hi
    simp [Rows.taken, Rows.revise, hrow]
  · simp [Rows.taken, Rows.revise, hi]

theorem pending_of_taken {ids : List String} {id : String} {run : Run V}
    (h : rows.taken worker moment lease ids id = some run) (hpending : run.status = .pending) :
    id ∉ ids ∧ rows id = some run := by
  by_cases hid : id ∈ ids
  · exfalso
    simp only [Rows.taken, Rows.revise, if_pos hid] at h
    obtain ⟨old, -, heq⟩ := Option.bind_eq_some_iff.mp h
    cases heq
    cases hpending
  · exact ⟨hid, by simpa [Rows.taken, Rows.revise, hid] using h⟩

/-- Going through what a level offers takes what is not taken yet, up to the number wanted. -/
theorem takeReady_spec (wanted : Nat) {entries : List Redis.Ready} {ids : List String}
    (hR : Represents codec (rows.taken worker moment lease ids) s)
    (hentries : ∀ entry ∈ entries, ∃ run, rows entry.id = some run ∧ run.status = .pending ∧
      entry.lane = .queue run.queue run.priority.repr)
    (hroom : ∀ id ∈ gather wanted ids (entries.map (·.id)), ∀ run, rows id = some run →
      Redis.Room run.attempts 1) :
    ∃ t, Redis.takeReady worker (stamp (some moment)) (stamp (some lease)) wanted entries
        (ids.map (taking codec rows worker moment lease)) s =
          (some ((gather wanted ids (entries.map (·.id))).map
            (taking codec rows worker moment lease)), t) ∧
      Represents codec (rows.taken worker moment lease
        (gather wanted ids (entries.map (·.id)))) t := by
  induction entries generalizing ids s with
  | nil => exact ⟨s, rfl, hR⟩
  | cons entry rest ih =>
      obtain ⟨run, hrow, hpending, hlane⟩ := hentries entry List.mem_cons_self
      have hrest := fun e he => hentries e (List.mem_cons_of_mem entry he)
      simp only [Redis.takeReady, List.map_cons, gather, List.length_map] at hroom ⊢
      by_cases hfull : wanted ≤ ids.length
      · rw [if_pos hfull, if_pos hfull]
        exact ⟨s, rfl, hR⟩
      · rw [if_neg hfull] at hroom
        rw [if_neg hfull, if_neg hfull]
        by_cases hin : entry.id ∈ ids
        · have htaken : rows.taken worker moment lease ids entry.id =
              some (claimed worker moment lease run) := Rows.revise_of_mem hrow hin
          have hgone : (claimed worker moment lease run).status ≠ .pending := by
            intro h
            cases h
          rw [if_pos hin] at hroom
          rw [hR.takeOne_refused worker _ _ htaken hgone hlane, if_pos hin]
          simpa using ih hR hrest hroom
        · have hleft : rows.taken worker moment lease ids entry.id = some run := by
            rw [Rows.taken, Rows.revise_of_not_mem hin, hrow]
          rw [if_neg hin] at hroom
          have hfirst : entry.id ∈ gather wanted (ids ++ [entry.id]) (rest.map (·.id)) :=
            (prefix_gather _ _ _).subset (List.mem_append_right ids List.mem_cons_self)
          obtain ⟨t, ht, hRt⟩ := hR.takeOne_spec worker moment lease hleft hpending hlane
            (hroom entry.id hfirst run hrow)
          rw [taken_snoc hrow hin] at hRt
          have hhash : taking codec rows worker moment lease entry.id =
              toHash codec entry.id (claimed worker moment lease run) := by
            simp [taking, hrow]
          rw [ht, if_neg hin]
          have hstep := ih hRt hrest hroom
          rwa [List.map_append, List.map_singleton, hhash] at hstep

theorem takeLevels_spec {queues : List String} (wanted window : Nat) {levels : List String}
    {s₀ : Redis} (hR₀ : Represents codec rows s₀) (hlevels : levels.Nodup) {ids : List String}
    (hR : Represents codec (rows.taken worker moment lease ids) s)
    (hids : ∀ id ∈ ids, ∀ run, rows id = some run → run.priority.repr ∉ levels)
    (hroom : ∀ id ∈ gather wanted ids (levels.flatMap fun level =>
        (s₀.ready queues (stamp (some moment)) window level).map (·.id)),
      ∀ run, rows id = some run → Redis.Room run.attempts 1) :
    ∃ t, Redis.takeLevels queues worker (stamp (some moment)) (stamp (some lease)) wanted window
        levels (ids.map (taking codec rows worker moment lease)) s =
          (some ((gather wanted ids (levels.flatMap fun level =>
            (s₀.ready queues (stamp (some moment)) window level).map (·.id))).map
              (taking codec rows worker moment lease)), t) ∧
      Represents codec (rows.taken worker moment lease
        (gather wanted ids (levels.flatMap fun level =>
          (s₀.ready queues (stamp (some moment)) window level).map (·.id)))) t := by
  induction levels generalizing ids s with
  | nil => exact ⟨s, rfl, hR⟩
  | cons level rest ih =>
      obtain ⟨hlevel, hrest⟩ := List.nodup_cons.mp hlevels
      simp only [Redis.takeLevels, List.length_map, List.flatMap_cons]
      by_cases hfull : wanted ≤ ids.length
      · rw [if_pos hfull, gather_of_full hfull]
        exact ⟨s, rfl, hR⟩
      · rw [if_neg hfull]
        have hsame : s.ready queues (stamp (some moment)) window level =
            s₀.ready queues (stamp (some moment)) window level := by
          have hlane : ∀ queue e, e ∈ s.sets (.queue queue level) ↔
              e ∈ s₀.sets (.queue queue level) := by
            rintro queue ⟨id, score⟩
            rw [hR.mem_lane, hR₀.mem_lane]
            constructor
            · rintro ⟨run, hrow, hpending, hrun⟩
              exact ⟨run, (pending_of_taken hrow hpending).2, hpending, hrun⟩
            · rintro ⟨run, hrow, hpending, hqueue, hpriority, hscore⟩
              have hid : id ∉ ids := fun hid =>
                hids id hid run hrow (hpriority ▸ List.mem_cons_self)
              exact ⟨run, by rw [Rows.taken, Rows.revise_of_not_mem hid, hrow], hpending, hqueue,
                hpriority, hscore⟩
          unfold Redis.ready
          congr 1
          apply List.flatMap_congr
          intro queue _
          rw [SortedSet.range_congr (hlane queue)]
        have hentries : ∀ entry ∈ s₀.ready queues (stamp (some moment)) window level,
            ∃ run, rows entry.id = some run ∧ run.status = .pending ∧
              entry.lane = .queue run.queue run.priority.repr := by
          intro entry hentry
          obtain ⟨run, hrow, hpending, -, hpriority, -, -, hlane⟩ := hR₀.ready_spec hentry
          exact ⟨run, hrow, hpending, hpriority ▸ hlane⟩
        rw [List.flatMap_cons, gather_append] at hroom
        obtain ⟨t, ht, hRt⟩ := takeReady_spec wanted hR hentries fun id hid =>
          hroom id ((prefix_gather _ _ _).subset hid)
        rw [hsame, ht, gather_append]
        refine ih hrest hRt (fun id hid run hrow => ?_) hroom
        rcases mem_of_gather hid with hold | hnew
        · exact fun hmem => hids id hold run hrow (List.mem_cons_of_mem level hmem)
        · obtain ⟨entry, hentry, rfl⟩ := List.mem_map.mp hnew
          obtain ⟨other, hother, -, -, hpriority, -⟩ := hR₀.ready_spec hentry
          obtain rfl := Option.some.inj (hrow.symm.trans hother)
          rw [hpriority]
          exact hlevel

end Walk

/-- The ids a claim goes through, in its order. -/
def Redis.offered (s : Redis) (queues : List String) (moment : Instant) (window : Nat) :
    List String :=
  (s.levels queues).flatMap fun level =>
    (s.ready queues (stamp (some moment)) window level).map (·.id)

theorem Redis.levels_nodup (s : Redis) (queues : List String) : (s.levels queues).Nodup :=
  (List.perm_insertionSort _ _).nodup_iff.2 (List.nodup_dedup _)

/-- A claim takes the first `wanted` of the ids it goes through, each once, where the server has
room for one attempt more of each. -/
theorem Represents.claim_spec (hR : Represents codec rows s) (queues : List String)
    (worker : String) (moment lease : Instant) (wanted window : Nat)
    (hroom : ∀ id ∈ gather wanted [] (s.offered queues moment window), ∀ run, rows id = some run →
      Redis.Room run.attempts 1) :
    ∃ t, s.CLAIM queues (stamp (some moment)) worker (stamp (some lease)) wanted window =
        (some ((gather wanted [] (s.offered queues moment window)).map
          (taking codec rows worker moment lease)), t) ∧
      Represents codec (rows.taken worker moment lease
        (gather wanted [] (s.offered queues moment window))) t := by
  have hstart : Represents codec (rows.taken worker moment lease []) s := by
    rwa [Rows.taken, Rows.revise_nil]
  exact takeLevels_spec wanted window hR (s.levels_nodup queues) hstart
    (fun id hid => absurd hid List.not_mem_nil) hroom

end Queuefy
