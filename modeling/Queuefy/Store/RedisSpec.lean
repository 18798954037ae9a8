import Queuefy.Store.Kept

/-! # The Redis store does what a store is for

On runs every store keeps the scripts take the steps a store is for, on the rows the hashes and
the sets stand for, as long as no run is written over another.
-/

namespace Queuefy

variable {V : Type} {codec : Codec V} {rows : Rows String V} {s : Redis}

open MemoryStore (beaten calledOff takenBack expired isOver)
open RedisStore (toHash toRun)

namespace RedisStore

theorem orNone_getD {text : Option String} (h : text ≠ some "") : orNone (text.getD "") = text := by
  cases text with
  | none => rfl
  | some text =>
      have hne : text ≠ "" := fun heq => h (heq ▸ rfl)
      simp [orNone, hne]

theorem toRun_toHash (codec : Codec V) (id : String) {run : Run V} (h : Spelled run) :
    toRun codec (toHash codec id run) = some ⟨run, id⟩ := by
  have htimeout : (if (run.timeout.map codec.str).getD "" = "" then some none
      else (codec.float ((run.timeout.map codec.str).getD "")).map some) = some run.timeout := by
    cases htimeout : run.timeout with
    | none => rfl
    | some q =>
        have hdouble := h.spans.timeout q
        simp [codec.str_ne_empty, codec.float_str q (hdouble (by rw [htimeout]; rfl))]
  have hresult : (if (run.result.map codec.dumps).getD "" = "" then some none
      else (codec.loads ((run.result.map codec.dumps).getD "")).map some) = some run.result := by
    cases run.result with
    | none => rfl
    | some v => simp [codec.dumps_ne_empty, codec.loads_dumps]
  simp only [toRun, toHash, Option.bind_eq_bind, Option.bind_some, codec.loads_dumps,
    RunStatus.ofValue_value, intOf_repr, momentOf_stamp, Option.join_some, htimeout,
    RetryPolicy.ofValue_value, codec.float_str _ h.spans.retryDelay,
    codec.float_str _ h.spans.maxRetryDelay, hresult, orNone_getD h.key, orNone_getD h.worker,
    orNone_getD h.error, orNone_getD h.errorType]

end RedisStore

namespace Represents

/-! ## What a script reads -/

/-- The script that asks whether an attempt holds a run asks what a store is to ask. -/
theorem holds_iff_held (hR : Represents codec rows s)
    (hkept : ∀ i run, rows i = some run → Kept run) (id : String) {worker : String}
    {attempt : Int} (hworker : worker ≠ "") (hattempt : attempt.natAbs ≤ 2 ^ 53) :
    s.holds id worker attempt ↔ ∃ run, rows id = some run ∧ Held worker attempt run := by
  rw [hR.holds_iff]
  refine exists_congr fun run => and_congr_right fun hrow => ?_
  have hrun := hkept id run hrow
  have hlow := hrun.low
  have hhigh := hrun.high
  have hname : run.worker.getD "" = worker ↔ run.worker = some worker := by
    cases run.worker with
    | none => simp [Ne.symm hworker]
    | some name => simp
  rw [hname, double_of_natAbs_le (by omega), double_of_natAbs_le hattempt]
  rfl

theorem reserved_iff (hR : Represents codec rows s) {key id : String} (hkey : key ≠ "") :
    s.keys key = some id ↔ ∃ run, rows id = some run ∧ run.key = some key := by
  rw [hR.reserved]
  constructor
  · rintro ⟨-, run, hrow, hsame⟩
    refine ⟨run, hrow, ?_⟩
    cases hrun : run.key with
    | none =>
        rw [hrun] at hsame
        exact absurd hsame.symm hkey
    | some other =>
        rw [hrun] at hsame
        exact congrArg some hsame
  · rintro ⟨run, hrow, hsame⟩
    exact ⟨hkey, run, hrow, by rw [hsame]; rfl⟩

theorem keys_eq_none (hR : Represents codec rows s) {key : String} (hkey : key ≠ "") :
    s.keys key = none ↔ ∀ id run, rows id = some run → run.key ≠ some key := by
  constructor
  · intro hnone id run hrow hsame
    have htaken := (hR.reserved_iff hkey).2 ⟨run, hrow, hsame⟩
    rw [hnone] at htaken
    cases htaken
  · intro hfree
    cases hkeys : s.keys key with
    | none => rfl
    | some id =>
        obtain ⟨run, hrow, hsame⟩ := (hR.reserved_iff hkey).1 hkeys
        exact absurd hsame (hfree id run hrow)

theorem unique (hR : Represents codec rows s) (hkept : ∀ i run, rows i = some run → Kept run) :
    Unique rows := by
  intro i j r r' hi hj hkey hsame
  obtain ⟨key, hr⟩ := Option.isSome_iff_exists.mp hkey
  have hne : key ≠ "" := fun heq => (hkept i r hi).key (heq ▸ hr)
  have hfirst := (hR.reserved_iff hne).2 ⟨r, hi, hr⟩
  have hsecond := (hR.reserved_iff hne).2 ⟨r', hj, hsame ▸ hr⟩
  exact Option.some.inj (hfirst.symm.trans hsecond)

/-- The members of a set with a score before an instant are the runs whose own instant is, where
the set holds runs by that instant. -/
theorem lists_ranked {set : SetName} {A : Run V → Prop} {instant : Run V → Option Instant}
    (hmem : ∀ {id : String} {score : Int}, (id, score) ∈ s.sets set ↔ ∃ run t, rows id = some run ∧
      A run ∧ instant run = some t ∧ double t.micro = score)
    (hlate : ∀ id run t, rows id = some run → instant run = some t → -2 ^ 53 ≤ t.micro)
    {moment : Instant} (hmoment : moment.Exact) :
    Lists rows (fun run => A run ∧ ∃ t, instant run = some t ∧ t < moment)
      (((s.sets set).ranked fun score => score < number (stamp (some moment))).map Prod.fst) := by
  have hscore : ∀ {t : Instant}, -2 ^ 53 ≤ t.micro →
      (double t.micro < number (stamp (some moment)) ↔ t < moment) := by
    intro t ht
    rw [stamp, number_repr, double_of_natAbs_le hmoment, Instant.lt_def, ← not_le, ← not_le,
      le_double_iff hmoment ht]
  refine ⟨SortedSet.ranked_members_nodup _ _, fun id => ?_⟩
  rw [List.mem_map]
  constructor
  · rintro ⟨⟨i, score⟩, hranked, rfl⟩
    obtain ⟨hset, hpast⟩ := SortedSet.mem_ranked.1 hranked
    obtain ⟨run, t, hrow, hA, ht, rfl⟩ := hmem.1 hset
    exact ⟨run, hrow, hA, t, ht, (hscore (hlate _ run t hrow ht)).1 (of_decide_eq_true hpast)⟩
  · rintro ⟨run, hrow, hA, t, ht, hlt⟩
    have hpast := (hscore (hlate id run t hrow ht)).2 hlt
    exact ⟨(id, double t.micro), SortedSet.mem_ranked.2
      ⟨hmem.2 ⟨run, t, hrow, hA, ht, rfl⟩, decide_eq_true hpast⟩, rfl⟩

theorem leases_batch (hR : Represents codec rows s)
    (hscored : ∀ i run, rows i = some run → Scored run) {moment : Instant}
    (hmoment : moment.Exact) (batch : Nat) :
    IsBatch rows (expired moment) batch (leases s moment batch) := by
  have hlists := lists_ranked hR.mem_leased (fun i run t hrow => (hscored i run hrow).lease t)
    hmoment
  have hsame : (fun run : Run V => run.status = .running ∧
      ∃ t, run.leaseUntil = some t ∧ t < moment) = fun run => expired moment run = true := by
    funext run
    simp [expired, Option.any_eq_true]
  rw [hsame] at hlists
  rw [leases, SortedSet.range, List.map_take]
  exact hlists.take batch

theorem finishes_batch (hR : Represents codec rows s)
    (hscored : ∀ i run, rows i = some run → Scored run) {before : Instant}
    (hbefore : before.Exact) (limit : Nat) :
    IsBatch rows (isOver before) limit (finishes s before limit) := by
  have hlists := lists_ranked hR.mem_settled (fun i run t hrow => (hscored i run hrow).finish t)
    hbefore
  have hsame : (fun run : Run V => run.status.settled = true ∧
      ∃ t, run.finishedAt = some t ∧ t < before) = fun run => isOver before run = true := by
    funext run
    simp [isOver, Option.any_eq_true]
  rw [hsame] at hlists
  rw [finishes, SortedSet.range, List.map_take]
  exact hlists.take limit

end Represents

namespace RedisStore

/-! ## What a call does -/

theorem reclaim_batch (hR : Represents codec rows s)
    (hscored : ∀ i run, rows i = some run → Scored run) {moment : Instant}
    (hmoment : moment.Exact) :
    ∃ ids, IsBatch rows (expired moment) reclaimBatch ids ∧
      (reclaim s moment).1 = ids.length ∧
      Represents codec (rows.revise ids fun run => some (takenBack moment run))
        (reclaim s moment).2 := by
  obtain ⟨hcount, hafter⟩ := hR.reclaim_spec moment reclaimBatch
  have hsame : (rows.revise (Represents.leases s moment reclaimBatch) fun run =>
      some (run.reclaimed moment)) =
        rows.revise (Represents.leases s moment reclaimBatch) fun run =>
          some (takenBack moment run) := by
    funext id
    cases hrow : rows id with
    | none => simp [Rows.revise, hrow]
    | some run =>
        have hrun := hscored id run hrow
        simp [Rows.revise, hrow, Run.reclaimed_eq hrun.attempts hrun.bound]
  exact ⟨_, hR.leases_batch hscored hmoment reclaimBatch, hcount, hsame ▸ hafter⟩

theorem purge_batch (hR : Represents codec rows s)
    (hscored : ∀ i run, rows i = some run → Scored run) {before : Instant}
    (hbefore : before.Exact) (limit : Nat) :
    ∃ ids, IsBatch rows (isOver before) limit ids ∧
      (purge s before limit).1 = ids.length ∧
      Represents codec (rows.revise ids fun _ => none) (purge s before limit).2 := by
  obtain ⟨hcount, hafter⟩ := hR.purge_spec before limit
  exact ⟨_, hR.finishes_batch hscored hbefore limit, hcount, hafter⟩

theorem settle_performs (hR : Represents codec rows s)
    (hkept : ∀ i run, rows i = some run → Kept run) {fresh : String} {q : Request String V}
    {id worker : String} {attempt counted : Int} {values : List (Field × String)}
    {dueAt : Option Instant} {f : Run V → Run V} (hask : q.ask = some ⟨id, Held worker attempt, f⟩)
    (hworker : worker ≠ "") (hattempt : attempt.natAbs ≤ 2 ^ 53)
    (hcounted : -1 ≤ counted ∧ counted ≤ 1)
    (h : ∀ run, Represents.Settles codec id run (f run) values (stamp dueAt) counted) :
    ∃ rows', Performs fresh rows q (answerTold (settle s id worker attempt values dueAt counted).1)
      rows' ∧ Represents codec rows' (settle s id worker attempt values dueAt counted).2 := by
  have hiff := hR.holds_iff_held hkept id hworker hattempt
  by_cases hholds : s.holds id worker attempt
  · obtain ⟨run, hrow, hheld⟩ := hiff.1 hholds
    have hroom := (hkept id run hrow).room hcounted.1 hcounted.2
    obtain ⟨hone, hafter⟩ := hR.settle_spec hrow hholds hroom (h run)
    refine ⟨_, ?_, hafter⟩
    simp only [settle, hone, Option.map_some, answerTold, decide_true]
    exact .held hask hrow hheld
  · refine ⟨rows, ?_, ?_⟩
    · simp only [settle, Redis.SETTLE, if_neg hholds, Option.map_some, answerTold]
      exact .unheld hask fun run hrow hheld => hholds (hiff.2 ⟨run, hrow, hheld⟩)
    · simpa only [settle, Redis.SETTLE, if_neg hholds] using hR

theorem get_of_row (hR : Represents codec rows s)
    (hkept : ∀ i run, rows i = some run → Kept run) {id : String} {run : Run V}
    (hrow : rows id = some run) : get codec s id = some (some ⟨run, id⟩) := by
  have hread := toRun_toHash codec id (hkept id run hrow).spelled
  simp only [get, hR.runs_eq hrow, hread, Option.map_some]

theorem add_performs (hR : Represents codec rows s) {run : Run V} (hrun : Kept run)
    (hnamed : Named s (.add run)) :
    ∃ rows', Performs (tostring (s.sequence + 1)) rows (.add run) (answerRow (add codec s run).1)
        rows' ∧ Represents codec rows' (add codec s run).2 := by
  have hkeyed : ∀ {key : String}, run.key = some key → key ≠ "" := fun hkey heq =>
    hrun.key (heq ▸ hkey)
  rcases hR.add_cases hnamed with ⟨hne, htaken, hrefused⟩ | ⟨hfree, -, hone, -, hafter⟩
  · obtain ⟨i, hi⟩ := Option.ne_none_iff_exists'.mp htaken
    obtain ⟨r, hrow, hsame⟩ := (hR.reserved_iff hne).1 hi
    rw [hrefused]
    refine ⟨rows, ?_, hR⟩
    cases hkey : run.key with
    | none =>
        rw [hkey] at hne
        exact absurd rfl hne
    | some key =>
        rw [hkey] at hsame
        exact .refused (by rw [hkey]; rfl) hrow (hsame.trans hkey.symm)
  · refine ⟨_, ?_, hafter⟩
    rw [hone]
    refine .written fun i r hrow hkey hsame => ?_
    obtain ⟨key, hr⟩ := Option.isSome_iff_exists.mp hkey
    rw [hr, Option.getD_some] at hfree
    exact (hR.keys_eq_none (hkeyed hr)).1 (hfree (hkeyed hr)) i r hrow (hsame.trans hr)

theorem heartbeat_performs (hR : Represents codec rows s)
    (hkept : ∀ i run, rows i = some run → Kept run) {fresh : String} (id : String)
    {worker : String} {attempt lease : Int} {moment leaseEnd : Instant}
    (hlease : moment.plus lease = some leaseEnd) (hworker : worker ≠ "")
    (hattempt : attempt.natAbs ≤ 2 ^ 53) :
    ∃ rows', Performs fresh rows (.heartbeat id worker attempt lease moment)
        (.told (heartbeat s id worker attempt lease moment).1) rows' ∧
      Represents codec rows' (heartbeat s id worker attempt lease moment).2 := by
  have hiff := hR.holds_iff_held hkept id hworker hattempt
  by_cases hholds : s.holds id worker attempt
  · obtain ⟨run, hrow, hheld⟩ := hiff.1 hholds
    obtain ⟨hone, hafter⟩ := hR.heartbeat_spec leaseEnd hrow hholds
    refine ⟨_, ?_, by simpa only [heartbeat, hlease] using hafter⟩
    simp only [heartbeat, hlease, hone, decide_true]
    exact .held (ask_heartbeat hlease) hrow hheld
  · refine ⟨rows, ?_, ?_⟩
    · simp only [heartbeat, hlease, Redis.HEARTBEAT, if_neg hholds]
      exact .unheld (ask_heartbeat hlease) fun run hrow hheld => hholds (hiff.2 ⟨run, hrow, hheld⟩)
    · simpa only [heartbeat, hlease, Redis.HEARTBEAT, if_neg hholds] using hR

theorem cancel_performs (hR : Represents codec rows s) {fresh : String} (id : String)
    (moment : Instant) :
    ∃ rows', Performs fresh rows (.cancel id moment) (.told (.ok (cancel s id moment).1)) rows' ∧
      Represents codec rows' (cancel s id moment).2 := by
  have hask : (Request.cancel id moment : Request String V).ask =
      some ⟨id, fun run => run.status = .pending, calledOff moment⟩ := rfl
  rcases hR.cancel_cases id moment with ⟨hpending, hrefused⟩ | ⟨run, hrow, hstatus, hone, hafter⟩
  · rw [hrefused]
    exact ⟨rows, .unheld hask hpending, hR⟩
  · rw [hone]
    exact ⟨_, .held hask hrow hstatus, hafter⟩

theorem find_performs (hR : Represents codec rows s)
    (hkept : ∀ i run, rows i = some run → Kept run) (hempty : rows "" = none) {fresh key : String}
    (hkey : key ≠ "") : Performs fresh rows (.find key) (answerRow (find codec s key)) rows := by
  cases hkeys : s.keys key with
  | none =>
      simp only [find, hkeys, answerRow]
      exact .unfound ((hR.keys_eq_none hkey).1 hkeys)
  | some id =>
      obtain ⟨run, hrow, hsame⟩ := (hR.reserved_iff hkey).1 hkeys
      have hid : id ≠ "" := by
        rintro rfl
        rw [hempty] at hrow
        cases hrow
      simp only [find, hkeys, if_neg hid, get_of_row hR hkept hrow, answerRow]
      exact .found hrow hsame

theorem get_performs (hR : Represents codec rows s)
    (hkept : ∀ i run, rows i = some run → Kept run) {fresh : String} (id : String) :
    Performs fresh rows (.get id) (answerRow (get codec s id)) rows := by
  cases hrow : rows id with
  | none =>
      have hnone : s.runs id = none := by rw [hR.hashed, hrow, Option.map_none]
      simp only [get, hnone, answerRow]
      exact .missing hrow
  | some run =>
      simp only [get_of_row hR hkept hrow, answerRow]
      exact .got hrow

/-- One call on runs every store keeps, that picks among no runs and writes none over another. -/
theorem performs (hR : Represents codec rows s) (hkept : ∀ i run, rows i = some run → Kept run)
    (hempty : rows "" = none) {q : Request String V} (hq : q.Passed) (hfits : q.Fits rows)
    (hdated : q.Dated) (hnamed : Named s q) :
    ∃ rows', Performs (tostring (s.sequence + 1)) rows q (perform codec s q).1 rows' ∧
      Represents codec rows' (perform codec s q).2 := by
  cases q with
  | claim => exact hfits.elim
  | add run => exact add_performs hR hq hnamed
  | heartbeat id worker attempt lease moment =>
      obtain ⟨leaseEnd, hlease⟩ := Option.isSome_iff_exists.mp hdated
      exact heartbeat_performs hR hkept id hlease hq.1 hq.2.1
  | complete id worker attempt moment result =>
      exact settle_performs hR hkept rfl hq.1 hq.2.1 (by decide) fun run =>
        Represents.settles_completed codec id run moment result
  | fail id worker attempt moment error errorType =>
      exact settle_performs hR hkept rfl hq.1 hq.2.1 (by decide) fun run =>
        Represents.settles_failed codec id run moment error errorType
  | retryLater id worker attempt dueAt error errorType =>
      exact settle_performs hR hkept rfl hq.1 hq.2.1 (by decide) fun run =>
        Represents.settles_requeued codec id run dueAt error errorType 0
  | release id worker attempt dueAt error errorType =>
      exact settle_performs hR hkept rfl hq.1 hq.2.1 (by decide) fun run =>
        Represents.settles_requeued codec id run dueAt error errorType (-1)
  | reclaim moment =>
      obtain ⟨ids, hbatch, hcount, hafter⟩ := reclaim_batch hR
        (fun i run hrow => (hkept i run hrow).scored) hq
      refine ⟨_, ?_, hafter⟩
      simp only [perform, hcount]
      exact .reclaimed (hbatch.lists hfits)
  | cancel id moment => exact cancel_performs hR id moment
  | purge before limit =>
      obtain ⟨ids, hbatch, hcount, hafter⟩ := purge_batch hR
        (fun i run hrow => (hkept i run hrow).scored) hq limit
      refine ⟨_, ?_, hafter⟩
      simp only [perform, hcount]
      exact .purged (hbatch.lists hfits)
  | find key => exact ⟨rows, find_performs hR hkept hempty hq, hR⟩
  | get id => exact ⟨rows, get_performs hR hkept id, hR⟩

/-- An answer that says nothing was done or found comes with the state as it was. -/
theorem perform_negative {q : Request String V} (h : (perform codec s q).1.negative = true) :
    (perform codec s q).2 = s := by
  have hsettle : ∀ {id worker : String} {attempt counted : Int} {values : List (Field × String)}
      {dueAt : Option Instant}, (settle s id worker attempt values dueAt counted).1 = some false →
        (settle s id worker attempt values dueAt counted).2 = s := by
    intro id worker attempt counted values dueAt hfalse
    simp only [settle, Redis.SETTLE] at hfalse ⊢
    split at hfalse
    · split at hfalse
      · cases hfalse
      · split at hfalse <;> cases hfalse
    · rename_i hnot
      rw [if_neg hnot]
  cases q with
  | claim worker queues limit lease moment =>
      simp only [perform] at h
      generalize (claim codec s worker queues limit lease moment).1 = taken at h
      cases taken with
      | error e => cases h
      | ok taken => cases taken <;> cases h
  | find | get => rfl
  | add run =>
      simp only [perform, negative_answerRow, add] at h ⊢
      simp only [Redis.ADD] at h ⊢
      split at h
      · rename_i htaken
        rw [if_pos htaken]
      · split at h <;> cases h
  | heartbeat id worker attempt lease moment =>
      cases hlease : moment.plus lease with
      | none => simp only [perform, heartbeat, hlease]
      | some leaseEnd =>
          simp only [perform, heartbeat, hlease, negative_told, Redis.HEARTBEAT] at h ⊢
          split at h
          · cases h
          · rename_i hnot
            rw [if_neg hnot]
  | complete | fail | retryLater | release => exact hsettle (negative_answerTold.1 h)
  | reclaim moment =>
      have hnil := List.eq_nil_of_length_eq_zero ((negative_counted _).1 h)
      simp only [perform, reclaim, Redis.RECLAIM, hnil, List.foldl_nil]
  | cancel id moment =>
      simp only [perform, cancel, negative_told, Redis.CANCEL] at h ⊢
      split at h
      · cases h
      · rename_i hnot
        rw [if_neg hnot]
  | purge before limit =>
      have hnil := List.eq_nil_of_length_eq_zero ((negative_counted _).1 h)
      simp only [perform, purge, Redis.PURGE, hnil, List.foldl_nil]

end RedisStore

end Queuefy
