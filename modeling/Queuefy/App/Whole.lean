import Queuefy.App.Gates
import Queuefy.Store.Whole

/-! # A run kept whole

A run is twenty-two texts in Redis, written by one encoder and by six scripts and read back by one
decoder. Written to both stores and carried through the same calls, it is in both the same run.
-/

namespace Queuefy

variable {ι V : Type} {codec : Codec V} {rows : Rows String V} {s : Redis} {i : String}
  {run : Run V} {allowed : Int}

open MemoryStore (expired)

/-! ## One run in both -/

theorem Request.after_rename {κ : Type} {f : ι → κ} {n : ι} {i : κ} (hf : ∀ k, f k = i ↔ k = n)
    (q : Request ι V) (picked : Prop) (run : Run V) :
    (q.rename f).after i picked run = q.after n picked run := by
  classical
  cases hask : q.ask with
  | some ask =>
      have hrenamed : (q.rename f).ask = some (ask.rename f) := by
        rw [ask_rename, hask, Option.map_some]
      rw [after_of_ask hask, after_of_ask hrenamed]
      exact if_congr (and_congr_left' (hf ask.id)) rfl rfl
  | none =>
      cases q with
      | add | claim | reclaim | purge | find | get => rfl
      | heartbeat id worker attempt lease moment =>
          have hrenamed := ask_rename f (.heartbeat id worker attempt lease moment : Request ι V)
          rw [hask, Option.map_none] at hrenamed
          simp only [Request.rename] at hrenamed
          simp only [Request.rename, Request.after, hask, hrenamed]
      | complete | fail | retryLater | release | cancel => cases hask

theorem Request.Issued.rename {κ : Type} {f : ι → κ} {n : ι} {i : κ} (hf : ∀ k, f k = i ↔ k = n)
    {q : Request ι V} (h : q.Issued n allowed) : (q.rename f).Issued i allowed := by
  cases q with
  | retryLater id worker attempt dueAt error errorType =>
      exact ⟨h.1, h.2.1, fun hid => h.2.2 ((hf id).1 hid)⟩
  | _ => exact h

/-- A run written to both stores, whatever else each holds, and then carried through the calls
made on both, in each of them under its own id. Which runs a claim or a reclaim picks is not the
run's own doing, so such a call is the same one where it picks the run in both or in neither. -/
inductive Carried (codec : Codec V) (run : Run V) (n : Nat) (i : String) :
    MemoryStore V → Redis → Prop
  | added {m : MemoryStore V} {s : Redis} {rows : Rows String V} :
      Represents codec rows s → Unbroken s (.add run : Request String V) →
      (m.add run).1 = some ⟨run, n⟩ → (RedisStore.add codec s run).1 = some (some ⟨run, i⟩) →
      Carried codec run n i (m.add run).2 (RedisStore.add codec s run).2
  | called {m : MemoryStore V} {s : Redis} {q : Request Nat V} {f : Nat → String} :
      Carried codec run n i m s → q.Issued n run.maxAttempts → (∀ k, f k = i ↔ k = n) →
      Unbroken s (q.rename f) → (n ∈ m.picks q ↔ i ∈ RedisStore.picks s (q.rename f)) →
      Carried codec run n i (m.perform q).2 (RedisStore.perform codec s (q.rename f)).2

theorem MemoryStore.rows_add {m : MemoryStore V} {n : Nat} (h : (m.add run).1 = some ⟨run, n⟩) :
    (m.add run).2.rows n = some run := by
  unfold MemoryStore.add at h ⊢
  split at h
  · cases h
  · rename_i hfree
    obtain rfl : m.sequence + 1 = n := by simpa using h
    rw [if_neg hfree, MemoryStore.rows_write, Function.update_self]

theorem RedisStore.rows_add (hR : Represents codec rows s)
    (hunbroken : Unbroken s (.add run : Request String V))
    (h : (RedisStore.add codec s run).1 = some (some ⟨run, i⟩)) :
    ∃ rows', Represents codec rows' (RedisStore.add codec s run).2 ∧ rows' i = some run := by
  rcases hR.add_cases hunbroken.1 with ⟨-, -, hrefused⟩ | ⟨-, -, hone, -, hafter⟩
  · rw [hrefused] at h
    cases h
  · rw [hone] at h
    obtain rfl : tostring (s.sequence + 1) = i := by simpa using h
    exact ⟨_, hafter, Function.update_self ..⟩

/-- The same run in both, by its id in each. -/
structure Same (codec : Codec V) (allowed : Int) (n : Nat) (i : String) (m : MemoryStore V)
    (s : Redis) (rows : Rows String V) (now : Run V) : Prop where
  represents : Represents codec rows s
  redis : rows i = some now
  memory : m.rows n = some now
  whole : Whole allowed now

/-- One call, and it is the same run again. -/
theorem Same.called {n : Nat} {m : MemoryStore V} {now : Run V} {q : Request Nat V}
    {f : Nat → String} (h : Same codec allowed n i m s rows now) (hq : q.Issued n allowed)
    (hf : ∀ k, f k = i ↔ k = n) (hunbroken : Unbroken s (q.rename f))
    (hpicked : n ∈ m.picks q ↔ i ∈ RedisStore.picks s (q.rename f)) :
    ∃ rows', Same codec allowed n i (m.perform q).2
      (RedisStore.perform codec s (q.rename f)).2 rows' (q.after n (n ∈ m.picks q) now) := by
  obtain ⟨rows', hR, hrow⟩ := RedisStore.rows_after h.represents h.redis h.whole (hq.rename hf)
    hunbroken
  rw [Request.after_rename hf, ← hpicked] at hrow
  refine ⟨rows', hR, hrow, MemoryStore.rows_after h.memory hq, h.whole.after hq ?_⟩
  rintro worker queues limit lease moment rfl htaken
  exact MemoryStore.pending_of_picks h.memory hq htaken

theorem Carried.same {n : Nat} {m : MemoryStore V} (h : Carried codec run n i m s)
    (hrun : Whole run.maxAttempts run) :
    ∃ rows now, Same codec run.maxAttempts n i m s rows now := by
  induction h with
  | added hR hunbroken hm hs =>
      obtain ⟨rows, hafter, hrow⟩ := RedisStore.rows_add hR hunbroken hs
      exact ⟨rows, run, hafter, hrow, MemoryStore.rows_add hm, hrun⟩
  | called _ hq hf hunbroken hpicked ih =>
      obtain ⟨rows, now, hsame⟩ := ih
      obtain ⟨rows', hsame'⟩ := hsame.called hq hf hunbroken hpicked
      exact ⟨rows', _, hsame'⟩

theorem Same.readsBack {n : Nat} {m : MemoryStore V} {now : Run V}
    (h : Same codec allowed n i m s rows now) :
    m.get n = some ⟨now, n⟩ ∧ ReadsBack codec s i now :=
  ⟨MemoryStore.rows_eq_some.1 h.memory, h.represents.readsBack h.redis h.whole.toSpelled⟩

/-- A run as it is built. -/
theorem whole_build (task : Task) (dueAt createdAt : Instant) (payload : V) {key : Option String}
    (hkey : key ≠ some "")
    (hspans : HeldSpans task.timeout task.retryDelay task.maxRetryDelay) (priority : Option Int) :
    Whole task.maxAttempts (build task dueAt createdAt payload key priority) where
  key := hkey
  worker := fun h => by cases h
  error := fun h => by cases h
  errorType := fun h => by cases h
  spans := hspans
  allows := rfl
  bounded := task.counted
  low := le_rfl
  high := by
    have htried := task.tried
    show 0 ≤ task.maxAttempts
    omega
  waiting := fun _ => by
    have htried := task.tried
    show 0 < task.maxAttempts
    omega
  counting := fun h => by cases h
  held := fun h => by cases h

/-! ## A run that stands alone -/

/-- A call that writes no run, at an instant no double comes near by mistake. -/
def Request.Timely : Request ι V → Prop
  | .claim _ _ _ _ moment | .reclaim moment => moment.micro.natAbs < 2 ^ 53
  | .add _ => False
  | _ => True

/-- An id is the only one that holds a run. -/
def Rows.Only (rows : Rows ι V) (id : ι) : Prop := ∀ other run, rows other = some run → other = id

namespace MemoryStore

variable {m : MemoryStore V} {n : Nat}

theorem picks_claim_only (honly : m.rows.Only n) (hrow : m.rows n = some run) {worker : String}
    {queues : List String} {limit : Nat} {lease : Int} {moment leaseEnd : Instant}
    (hlease : moment.plus lease = some leaseEnd) :
    n ∈ m.picks (.claim worker queues limit lease moment) ↔
      0 < limit ∧ run.status = .pending ∧ run.queue ∈ queues ∧ run.dueAt ≤ moment := by
  have hall : ∀ id ∈ (m.ready queues moment).map (·.id), id = n := by
    intro id hid
    obtain ⟨row, hready, rfl⟩ := List.mem_map.1 hid
    exact honly _ _ (rows_eq_some.2 (get_of_mem (mem_ready.1 hready).1))
  rw [picks_claim hlease, chosen, List.map_take, mem_take_of_all hall, ← claimable_iff]
  refine and_congr_right fun _ => ?_
  constructor
  · intro hid
    obtain ⟨row, hready, hsame⟩ := List.mem_map.1 hid
    obtain ⟨hmem, hclaimable⟩ := mem_ready.1 hready
    have hstored := rows_eq_some.2 (get_of_mem hmem)
    rw [hsame, hrow] at hstored
    rwa [Option.some.inj hstored]
  · intro hclaimable
    have hmem := (get_eq_some.1 (rows_eq_some.1 hrow)).1
    exact List.mem_map.2 ⟨⟨run, n⟩, mem_ready.2 ⟨hmem, hclaimable⟩, rfl⟩

theorem picks_reclaim_only (honly : m.rows.Only n) (hrow : m.rows n = some run)
    {moment : Instant} :
    n ∈ m.picks (.reclaim moment) ↔ run.status = .running ∧
      ∃ lease, run.leaseUntil = some lease ∧ lease < moment := by
  have hlists := m.lists_filter (expired moment)
  have hall : ∀ id ∈ (m.runs.filter fun row => expired moment row.toRun).map (·.id), id = n := by
    intro id hid
    obtain ⟨other, hother, -⟩ := (hlists.mem id).1 hid
    exact honly _ _ hother
  rw [picks, abandoned, List.map_take, mem_take_of_all hall, hlists.mem n, ← expired_iff]
  constructor
  · rintro ⟨-, other, hother, hexpired⟩
    rwa [Option.some.inj (hrow.symm.trans hother)]
  · intro hexpired
    exact ⟨by decide, run, hrow, hexpired⟩

/-- No call but an add writes a run under an id that held none. -/
theorem rows_absent {k : Nat} (hk : m.rows k = none) {q : Request Nat V} (hq : q.Timely) :
    (m.perform q).2.rows k = none := by
  have hamend : ∀ (ids : List Nat) (f : Run V → Run V), (m.amend ids f).rows k = none := by
    intro ids f
    rw [rows_amend, Rows.revise]
    simp [hk]
  have hsettle : ∀ (id : Nat) (worker : String) (attempt : Int) (f : Run V → Run V),
      (m.settle id worker attempt f).2.rows k = none := by
    intro id worker attempt f
    rcases m.settle_cases id worker attempt f with ⟨-, heq⟩ | ⟨row, -, heq⟩
    · rw [heq, hk]
    · rw [heq]
      exact hamend _ _
  cases q with
  | add => exact hq.elim
  | find | get => exact hk
  | complete | fail | retryLater | release => exact hsettle _ _ _ _
  | reclaim moment => exact hamend _ _
  | claim worker queues limit lease moment =>
      simp only [perform]
      cases hlease : moment.plus lease with
      | some leaseEnd =>
          rw [m.claim_of_plus worker queues limit hlease]
          exact hamend _ _
      | none =>
          rw [m.claim_of_overflow worker queues limit hlease]
          cases m.chosen queues limit moment with
          | nil => exact hk
          | cons row rest => exact hamend _ _
  | heartbeat id worker attempt lease moment =>
      simp only [perform]
      rcases m.heartbeat_cases id worker attempt lease moment with
        ⟨-, heq⟩ | ⟨-, heq⟩ | ⟨row, leaseEnd, -, -, heq⟩
      · rw [heq, hk]
      · rw [heq, hk]
      · rw [heq]
        exact hamend _ _
  | cancel id moment =>
      simp only [perform]
      rcases m.cancel_cases id moment with ⟨-, heq⟩ | ⟨row, -, -, heq⟩
      · rw [heq, hk]
      · rw [heq]
        exact hamend _ _
  | purge before limit =>
      simp only [perform, purge]
      rw [rows_drop, Rows.revise]
      simp [hk]

theorem only_perform (honly : m.rows.Only n) {q : Request Nat V} (hq : q.Timely) :
    (m.perform q).2.rows.Only n := by
  intro k run hrun
  cases hk : m.rows k with
  | none =>
      rw [rows_absent hk hq] at hrun
      cases hrun
  | some old => exact honly k old hk

end MemoryStore

namespace RedisStore

theorem picks_claim_only (hR : Represents codec rows s) (honly : rows.Only i)
    (hrow : rows i = some run) {worker : String} {queues : List String} {limit : Nat}
    {lease : Int} {moment leaseEnd : Instant} (hlease : moment.plus lease = some leaseEnd)
    (hroomy : Roomy s (.claim worker queues limit lease moment : Request String V)) :
    i ∈ picks s (.claim worker queues limit lease moment : Request String V) ↔
      0 < limit ∧ run.status = .pending ∧ run.queue ∈ queues ∧
        double run.dueAt.micro ≤ double moment.micro := by
  have hall : ∀ id ∈ collect [] (s.offered queues moment (limit * claimSpread)), id = i := by
    intro id hid
    have hoffered := (mem_collect.1 hid).resolve_left List.not_mem_nil
    obtain ⟨other, hother, -⟩ := hR.mem_offered.1 hoffered
    exact honly id other hother
  rw [picks_claim hR hlease hroomy, gather_eq_take (Nat.zero_le limit), mem_take_of_all hall]
  refine and_congr_right fun hlimit => ?_
  simp only [mem_collect, List.not_mem_nil, false_or]
  constructor
  · intro hid
    obtain ⟨other, hother, hpending, hqueue, hdue, -⟩ := hR.mem_offered.1 hid
    obtain rfl := Option.some.inj (hrow.symm.trans hother)
    exact ⟨hpending, hqueue, hdue⟩
  · rintro ⟨hpending, hqueue, hdue⟩
    have hwindow : 0 < limit * claimSpread := Nat.mul_pos hlimit (by decide)
    obtain ⟨first, hfirst⟩ := hR.offered_of_due hwindow hrow hpending hqueue hdue
    obtain ⟨other, hother, -⟩ := hR.mem_offered.1 hfirst
    rwa [honly first other hother] at hfirst

theorem picks_reclaim_only (hR : Represents codec rows s) (honly : rows.Only i)
    (hrow : rows i = some run) {moment : Instant} :
    i ∈ picks s (.reclaim moment : Request String V) ↔ run.status = .running ∧
      ∃ lease, run.leaseUntil = some lease ∧ double lease.micro < double moment.micro := by
  have hall : ∀ id ∈ (((s.sets .leased).ranked
      fun lease => lease < number (stamp (some moment))).map Prod.fst), id = i := by
    intro id hid
    obtain ⟨⟨id, score⟩, hranked, rfl⟩ := List.mem_map.1 hid
    obtain ⟨other, -, hother, -⟩ := hR.mem_leased.1 (SortedSet.mem_ranked.1 hranked).1
    exact honly id other hother
  rw [picks, Represents.leases, SortedSet.range, List.map_take, mem_take_of_all hall,
    List.mem_map]
  constructor
  · rintro ⟨-, ⟨id, score⟩, hranked, rfl⟩
    obtain ⟨hmem, hpast⟩ := SortedSet.mem_ranked.1 hranked
    obtain ⟨other, lease, hother, hrunning, hlease, rfl⟩ := hR.mem_leased.1 hmem
    obtain rfl := Option.some.inj (hrow.symm.trans hother)
    exact ⟨hrunning, lease, hlease, by simpa [stamp] using hpast⟩
  · rintro ⟨hrunning, lease, hlease, hpast⟩
    refine ⟨by decide, (i, double lease.micro), SortedSet.mem_ranked.2 ⟨?_, ?_⟩, rfl⟩
    · exact hR.mem_leased.2 ⟨run, lease, hrow, hrunning, hlease, rfl⟩
    · simpa [stamp] using hpast

theorem sequence_perform {q : Request String V} (hq : q.Timely) :
    (perform codec s q).2.sequence = s.sequence := by
  refine sequence_of_not_add fun run hrun => ?_
  subst hrun
  exact hq

/-- A run that stands alone is the only one a call can count, and it never comes near a number the
server has no room for. -/
theorem unbroken_of_timely (hR : Represents codec rows s) (honly : rows.Only i)
    (hrow : rows i = some run) (hrun : Whole allowed run) {q : Request String V} (hq : q.Timely) :
    Unbroken s q := by
  have hone : ∀ {id : String} {other : Run V} {n : Int}, rows id = some other → -1 ≤ n → n ≤ 1 →
      (s.summed id .attempts n).isSome := by
    intro id other n hother hlow hhigh
    have hid := honly id other hother
    subst hid
    exact (hR.room_iff hrow n).2 (hrun.room hlow hhigh)
  have hheld : ∀ {id worker : String} {attempt n : Int}, -1 ≤ n → n ≤ 1 →
      s.holds id worker attempt → (s.summed id .attempts n).isSome := by
    intro id worker attempt n hlow hhigh hholds
    rcases hR.holds_iff.1 hholds with ⟨other, hother, -⟩
    exact hone hother hlow hhigh
  cases q with
  | add => exact hq.elim
  | claim worker queues limit lease moment =>
      refine ⟨trivial, fun id hid => ?_⟩
      have hoffered := (mem_of_gather hid).resolve_left List.not_mem_nil
      rcases hR.mem_offered.1 hoffered with ⟨other, hother, -⟩
      exact hone hother (by omega) le_rfl
  | complete | fail | retryLater => exact ⟨trivial, hheld (by omega) (by omega)⟩
  | release => exact ⟨trivial, hheld le_rfl (by omega)⟩
  | heartbeat | reclaim | cancel | purge | find | get => exact ⟨trivial, trivial⟩

end RedisStore

theorem Request.Timely.rename {κ : Type} {q : Request ι V} (h : q.Timely) (f : ι → κ) :
    (q.rename f).Timely := by
  cases q <;> exact h

/-- A run alone in both stores is picked in both or in neither. -/
theorem picks_alike {n : Nat} {m : MemoryStore V} {now : Run V} {q : Request Nat V}
    {f : Nat → String} (h : Same codec allowed n i m s rows now) (hm : m.rows.Only n)
    (hs : rows.Only i) (hq : q.Issued n allowed) (htimely : q.Timely)
    (hroomy : Roomy s (q.rename f)) :
    n ∈ m.picks q ↔ i ∈ RedisStore.picks s (q.rename f) := by
  cases q with
  | claim worker queues limit lease moment =>
      obtain ⟨leaseEnd, hlease⟩ := Option.isSome_iff_exists.1 hq.2
      have hmoment : moment.micro.natAbs < 2 ^ 53 := htimely
      rw [MemoryStore.picks_claim_only hm h.memory hlease, Request.rename,
        RedisStore.picks_claim_only h.represents hs h.redis hlease hroomy,
        double_of_natAbs_le hmoment.le, double_le_iff hmoment, Instant.le_def]
  | reclaim moment =>
      have hmoment : moment.micro.natAbs < 2 ^ 53 := htimely
      rw [MemoryStore.picks_reclaim_only hm h.memory, Request.rename,
        RedisStore.picks_reclaim_only h.represents hs h.redis]
      simp only [double_of_natAbs_le hmoment.le, double_lt_iff hmoment, Instant.lt_def]
  | _ => exact iff_of_false List.not_mem_nil List.not_mem_nil

/-- The same calls made on both stores, one after another. -/
def sideBySide (codec : Codec V) (f : Nat → String) (calls : List (Request Nat V))
    (m : MemoryStore V) (s : Redis) : MemoryStore V × Redis :=
  calls.foldl (fun stores q =>
    ((stores.1.perform q).2, (RedisStore.perform codec stores.2 (q.rename f)).2)) (m, s)

theorem Same.alone {n : Nat} {m : MemoryStore V} {now : Run V} {f : Nat → String}
    (hf : ∀ k, f k = i ↔ k = n) {calls : List (Request Nat V)}
    (hcalls : ∀ q ∈ calls, q.Issued n allowed ∧ q.Timely)
    (h : Same codec allowed n i m s rows now) (hm : m.rows.Only n) (hs : rows.Only i) :
    ∃ rows' now', Same codec allowed n i (sideBySide codec f calls m s).1
      (sideBySide codec f calls m s).2 rows' now' := by
  induction calls generalizing m s rows now with
  | nil => exact ⟨rows, now, h⟩
  | cons q rest ih =>
      obtain ⟨hq, htimely⟩ := hcalls q List.mem_cons_self
      have hunbroken : Unbroken s (q.rename f) :=
        RedisStore.unbroken_of_timely h.represents hs h.redis h.whole (htimely.rename f)
      obtain ⟨rows', hnext⟩ :=
        h.called hq hf hunbroken (picks_alike h hm hs hq htimely hunbroken.2)
      have hstep : RedisStore.step codec s (q.rename f) =
          some (RedisStore.perform codec s (q.rename f)).2 := rfl
      obtain ⟨rows'', hmoves⟩ := h.represents.step hunbroken hstep
      have honly : rows'.Only i := by
        intro k run hrun
        have hsome : (rows'' k).isSome := by
          have hhash := hnext.represents.hashed k
          rw [hmoves.represents.hashed k, hrun] at hhash
          cases hrow : rows'' k with
          | none => simp [hrow] at hhash
          | some other => rfl
        rcases hmoves.ids k hsome with hold | ⟨hsequence, -⟩
        · obtain ⟨old, hold⟩ := Option.isSome_iff_exists.1 hold
          exact hs k old hold
        · have hsame : (RedisStore.perform codec s (q.rename f)).2.sequence = s.sequence :=
            RedisStore.sequence_perform (htimely.rename f)
          omega
      exact ih (fun q hq => hcalls q (List.mem_cons_of_mem _ hq)) hnext
        (MemoryStore.only_perform hm htimely) honly

/-- The first run two empty stores are handed. -/
theorem Same.start (codec : Codec V) (hrun : Whole allowed run) :
    ∃ rows, Same codec allowed 1 "1" (MemoryStore.empty.perform (.add run)).2
        (RedisStore.perform codec .empty (.add run)).2 rows run ∧ rows.Only "1" ∧
      (MemoryStore.empty.perform (.add run)).2.rows.Only 1 := by
  have hfree : run.key.getD "" ≠ "" → Redis.empty.keys (run.key.getD "") = none := fun _ => rfl
  have hone : tostring (Redis.empty.sequence + 1) = "1" := by decide
  obtain ⟨-, hafter⟩ := (Represents.empty codec).add_spec hfree (by decide) rfl
  have hmemory : (MemoryStore.empty.perform (.add run)).2 = MemoryStore.empty.write run := by
    simp [MemoryStore.perform, MemoryStore.add, MemoryStore.taken, MemoryStore.empty]
  have hrows : (MemoryStore.empty.perform (.add run)).2.rows =
      Function.update (fun _ => none) 1 (some run) := by
    rw [hmemory, MemoryStore.rows_write]
    rfl
  rw [hone] at hafter
  refine ⟨_, ⟨hafter, Function.update_self .., ?_, hrun⟩, ?_, ?_⟩
  · rw [hrows, Function.update_self]
  · intro k other hother
    by_contra hne
    rw [Function.update_of_ne hne] at hother
    cases hother
  · intro k other hother
    by_contra hne
    rw [hrows, Function.update_of_ne hne] at hother
    cases hother

/-! ## Instants of any zone -/

/-- `stamp`, of an instant as python holds it. -/
def Gate.stamp (wall : Instant) (offset : Option Gate.Offset) : Except Gate.Raised String := do
  let moment ← Gate.asUtc wall offset
  return Queuefy.stamp (some moment)

/-- What a clock at an offset is away from UTC; one without a zone is UTC. -/
def Gate.offsetOf : Option Gate.Offset → Int
  | none => 0
  | some offset => offset.micro

theorem momentOf_stamped {wall : Instant} {offset : Option Gate.Offset}
    (hreaches : Gate.reachesUtc wall offset = true) :
    ∃ text moment, Gate.stamp wall offset = .ok text ∧ momentOf text = some (some moment) ∧
      moment.micro = wall.micro - Gate.offsetOf offset := by
  cases offset with
  | none => exact ⟨_, wall, rfl, momentOf_stamp (some wall), by simp [Gate.offsetOf]⟩
  | some offset =>
      simp only [Gate.reachesUtc, Bool.and_eq_true, decide_eq_true_eq] at hreaches
      cases hplus : wall.plus (-offset.micro) with
      | none =>
          rw [Instant.plus_eq_none] at hplus
          omega
      | some moment =>
          have hmicro := Instant.plus_eq_some.1 hplus
          refine ⟨Queuefy.stamp (some moment), moment, ?_, momentOf_stamp (some moment), ?_⟩
          · simp only [Gate.stamp, Gate.asUtc, hplus]
            rfl
          · simp only [Gate.offsetOf]
            omega

/-! ## Redis keeps a run whole -/

/-- A run that is built with spans a double holds reads back from Redis as the run the same calls
leave in memory: in any two stores, as long as a claim and a reclaim pick it in both or in neither,
and alone in both at every instant a double tells from the next, where they always do. And every
instant there is, whatever zone it is given in, is read back as itself in UTC. -/
theorem redis_keeps_whole (codec : Codec V) (task : Task) (dueAt createdAt : Instant) (payload : V)
    {key : Option String} (hkey : key ≠ some "")
    (hspans : HeldSpans task.timeout task.retryDelay task.maxRetryDelay) (priority : Option Int) :
    (∀ (n : Nat) (i : String) (m : MemoryStore V) (s : Redis),
      Carried codec (build task dueAt createdAt payload key priority) n i m s →
        ∃ now, m.get n = some ⟨now, n⟩ ∧ ReadsBack codec s i now) ∧
    (∀ (f : Nat → String) (calls : List (Request Nat V)), (∀ k, f k = "1" ↔ k = 1) →
      (∀ q ∈ calls, q.Issued 1 task.maxAttempts ∧ q.Timely) →
        ∃ m s now, sideBySide codec f
            (.add (build task dueAt createdAt payload key priority) :: calls) .empty .empty =
              (m, s) ∧ m.get 1 = some ⟨now, 1⟩ ∧ ReadsBack codec s "1" now) ∧
    ∀ (wall : Instant) (offset : Option Gate.Offset), Gate.reachesUtc wall offset = true →
      ∃ text moment, Gate.stamp wall offset = .ok text ∧ momentOf text = some (some moment) ∧
        moment.micro = wall.micro - Gate.offsetOf offset := by
  have hwhole := whole_build task dueAt createdAt payload hkey hspans priority
  generalize build task dueAt createdAt payload key priority = run at hwhole ⊢
  refine ⟨fun n i m s h => ?_, fun f calls hf hcalls => ?_, fun wall offset => momentOf_stamped⟩
  · have hallowed := hwhole.allows
    obtain ⟨rows, now, hsame⟩ := h.same (hallowed.symm ▸ hwhole)
    exact ⟨now, hsame.readsBack⟩
  · obtain ⟨rows, hstart, hredis, hmemory⟩ := Same.start codec hwhole
    obtain ⟨rows', now, hsame⟩ := hstart.alone hf hcalls hmemory hredis
    exact ⟨_, _, now, rfl, hsame.readsBack⟩

namespace Plain

/-- A task that takes nothing and is tried three times. -/
def task : Task where
  name := "task"
  handler := .coroutine
  queue := "mail"
  trigger := none
  maxAttempts := 3
  timeout := none
  retryPolicy := .exponential
  retryDelay := 5
  maxRetryDelay := 3600
  priority := 0
  tried := by decide
  counted := by decide

/-- Its run claimed, beaten for and closed with an empty answer. -/
def closing : List (Request Nat Unit) :=
  [.claim "worker" ["mail"] 1 30000000 Instant.epoch,
   .heartbeat 1 "worker" 1 30000000 Instant.epoch, .complete 1 "worker" 1 Instant.epoch (some ())]

end Plain

theorem redis_keeps_closed : ∃ m s now,
    sideBySide Plain.codec (fun k => if k = 1 then "1" else "")
        (.add (build Plain.task Instant.epoch Instant.epoch () none none) :: Plain.closing) .empty
        .empty = (m, s) ∧ m.get 1 = some ⟨now, 1⟩ ∧ ReadsBack Plain.codec s "1" now := by
  have hdated : (Instant.epoch.plus 30000000).isSome := by decide
  have hearly : Instant.epoch.micro.natAbs < 2 ^ 53 := by decide
  have hclosing : ∀ q ∈ Plain.closing, q.Issued 1 Plain.task.maxAttempts ∧ q.Timely := by
    simpa [Plain.closing, Request.Issued, Request.Timely, hdated] using hearly
  refine (redis_keeps_whole Plain.codec Plain.task Instant.epoch Instant.epoch () (by simp)
    Plain.heldSpans none).2.1 _ _ (fun k => ?_) hclosing
  by_cases hk : k = 1 <;> simp [hk]

end Queuefy
