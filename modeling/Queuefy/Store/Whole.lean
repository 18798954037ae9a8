import Queuefy.Store.ClaimOrder
import Queuefy.Store.Hashes

/-! # What the calls make of one run

What a call makes of one run is said once, on the run alone. The memory store does it to its row
and the scripts do it to the hash, whatever else each of them holds.
-/

namespace Queuefy

variable {ι V : Type}

open MemoryStore (claimed beaten completed failed requeued calledOff takenBack expired)
open RedisStore (toHash)

/-! ## What a call makes of one run -/

/-- The run of an id after a call, with whether a claim or a reclaim picked it. -/
noncomputable def Request.after (q : Request ι V) (id : ι) (picked : Prop) (run : Run V) : Run V :=
  open Classical in
  match q with
  | .claim worker _ _ lease moment =>
      if picked then
        ((moment.plus lease).map fun leaseEnd => claimed worker moment leaseEnd run).getD run
      else run
  | .reclaim moment => if picked then takenBack moment run else run
  | q =>
      match q.ask with
      | some ask => if ask.id = id ∧ ask.condition run then ask.becomes run else run
      | none => run

/-- What an application and its workers call, beside a run of an id that allows so many attempts:
an instant past the range raises before a script is reached, a worker and a failure are never
without a text, and an attempt is only asked for again while one is left. -/
def Request.Issued (id : ι) (allowed : Int) : Request ι V → Prop
  | .claim worker _ _ lease moment => worker ≠ "" ∧ (moment.plus lease).isSome
  | .heartbeat _ _ _ lease moment => (moment.plus lease).isSome
  | .fail _ _ _ _ error errorType | .release _ _ _ _ error errorType =>
      error ≠ "" ∧ errorType ≠ ""
  | .retryLater other _ attempt _ error errorType =>
      error ≠ "" ∧ errorType ≠ "" ∧ (other = id → attempt < allowed)
  | .purge .. => False
  | .add _ | .complete .. | .reclaim _ | .cancel .. | .find _ | .get _ => True

/-- A run as the calls leave it. -/
structure Whole (allowed : Int) (run : Run V) : Prop extends Spelled run where
  allows : run.maxAttempts = allowed
  bounded : allowed ≤ attemptLimit
  low : 0 ≤ run.attempts
  high : run.attempts ≤ allowed
  waiting : run.status = .pending → run.attempts < allowed
  counting : run.status = .running → 1 ≤ run.attempts
  held : run.status = .running → run.worker ≠ none

namespace Whole

variable {allowed : Int} {run : Run V}

theorem small (h : Whole allowed run) : run.attempts.natAbs < 2 ^ 53 := by
  have hlow := h.low
  have hhigh := h.high
  have hbounded := h.bounded
  unfold attemptLimit at hbounded
  omega

/-- A server counts the attempts of such a run one on or one off. -/
theorem room (h : Whole allowed run) {n : Int} (hlow : -1 ≤ n) (hhigh : n ≤ 1) :
    Redis.Room run.attempts n := by
  have hsmall := h.small
  constructor <;> omega

theorem reclaimed_eq (h : Whole allowed run) (moment : Instant) :
    run.reclaimed moment = takenBack moment run := by
  have hsmall := h.small
  have hallows := h.allows
  have hlow := h.low
  have hhigh := h.high
  have hbounded := h.bounded
  unfold attemptLimit at hbounded
  exact Run.reclaimed_eq (by omega) (by omega) moment

theorem claimed (h : Whole allowed run) (hpending : run.status = .pending) {worker : String}
    (hworker : worker ≠ "") (moment lease : Instant) :
    Whole allowed (MemoryStore.claimed worker moment lease run) := by
  have hlow := h.low
  have hopen := h.waiting hpending
  exact {
    key := h.key
    worker := fun hw => hworker (Option.some.inj hw)
    error := h.error
    errorType := h.errorType
    spans := h.spans
    allows := h.allows
    bounded := h.bounded
    low := by
      show 0 ≤ run.attempts + 1
      omega
    high := by
      show run.attempts + 1 ≤ allowed
      omega
    waiting := fun hs => by cases hs
    counting := fun _ => by
      show 1 ≤ run.attempts + 1
      omega
    held := fun _ hw => by cases hw }

theorem takenBack (h : Whole allowed run) (moment : Instant) :
    Whole allowed (MemoryStore.takenBack moment run) := by
  have hallows := h.allows
  unfold MemoryStore.takenBack
  split
  · exact {
      key := h.key
      worker := fun hw => by cases hw
      error := fun he => absurd (Option.some.inj he) (by decide)
      errorType := fun he => absurd (Option.some.inj he) (by decide)
      spans := h.spans
      allows := h.allows
      bounded := h.bounded
      low := h.low
      high := h.high
      waiting := fun hs => by cases hs
      counting := fun hs => by cases hs
      held := fun hs => by cases hs }
  · rename_i hleft
    rw [Run.exhausted, decide_eq_true_eq, not_le] at hleft
    exact {
      key := h.key
      worker := fun hw => by cases hw
      error := h.error
      errorType := h.errorType
      spans := h.spans
      allows := h.allows
      bounded := h.bounded
      low := h.low
      high := h.high
      waiting := fun _ => by
        show run.attempts < allowed
        omega
      counting := fun hs => by cases hs
      held := fun hs => by cases hs }

/-- What ends an attempt or calls a run off leaves nobody holding it and no attempt more. -/
theorem closed (h : Whole allowed run) {next : Run V} (hkey : next.key = run.key)
    (hallows : next.maxAttempts = run.maxAttempts) (hstatus : next.status ≠ .running)
    (hlow : 0 ≤ next.attempts) (hhigh : next.attempts ≤ run.attempts)
    (hwaiting : next.status = .pending → next.attempts < allowed)
    (hworker : next.worker = none ∨ next.worker = run.worker)
    (herror : next.error ≠ some "") (herrorType : next.errorType ≠ some "")
    (hspans : HeldSpans next.timeout next.retryDelay next.maxRetryDelay) :
    Whole allowed next where
  key := hkey ▸ h.key
  worker := by
    rcases hworker with hnone | hsame
    · simp [hnone]
    · exact hsame ▸ h.worker
  error := herror
  errorType := herrorType
  spans := hspans
  allows := hallows.trans h.allows
  bounded := h.bounded
  low := hlow
  high := hhigh.trans h.high
  waiting := hwaiting
  counting := fun hs => absurd hs hstatus
  held := fun hs => absurd hs hstatus

end Whole

theorem after_of_ask {q : Request ι V} {ask : Ask ι V} (h : q.ask = some ask) (id : ι)
    (picked : Prop) (run : Run V) [Decidable (ask.id = id ∧ ask.condition run)] :
    q.after id picked run =
      if ask.id = id ∧ ask.condition run then ask.becomes run else run := by
  cases q with
  | add | claim | reclaim | purge | find | get => cases h
  | heartbeat | complete | fail | retryLater | release | cancel =>
      simp only [Request.after, h]
      congr

theorem Whole.after {allowed : Int} {run : Run V} (h : Whole allowed run) {q : Request ι V}
    {id : ι} {picked : Prop} (hq : q.Issued id allowed)
    (hpicked : ∀ {worker queues limit lease moment},
      q = .claim worker queues limit lease moment → picked → run.status = .pending) :
    Whole allowed (q.after id picked run) := by
  classical
  have hask : ∀ ask : Ask ι V, q.ask = some ask →
      (ask.id = id → ask.condition run → Whole allowed (ask.becomes run)) →
        Whole allowed (q.after id picked run) := by
    intro ask hsome hbecomes
    rw [after_of_ask hsome]
    split
    · rename_i hcond
      exact hbecomes hcond.1 hcond.2
    · exact h
  have hlow := h.low
  have hhigh := h.high
  cases q with
  | purge => exact hq.elim
  | add | find | get => exact h
  | claim worker queues limit lease moment =>
      obtain ⟨hworker, hlease⟩ := hq
      obtain ⟨leaseEnd, hleaseEnd⟩ := Option.isSome_iff_exists.1 hlease
      simp only [Request.after, hleaseEnd, Option.map_some, Option.getD_some]
      split
      · rename_i htaken
        exact h.claimed (hpicked rfl htaken) hworker moment leaseEnd
      · exact h
  | reclaim moment =>
      simp only [Request.after]
      split
      · exact h.takenBack moment
      · exact h
  | heartbeat other worker attempt lease moment =>
      obtain ⟨leaseEnd, hleaseEnd⟩ := Option.isSome_iff_exists.1 hq
      refine hask ⟨other, Held worker attempt, beaten leaseEnd⟩ ?_ fun _ _ => ?_
      · exact ask_heartbeat hleaseEnd
      · exact { h with }
  | complete other worker attempt moment result =>
      refine hask _ rfl fun _ _ => ?_
      exact h.closed rfl rfl (by simp [completed]) hlow le_rfl (by simp [completed]) (Or.inl rfl)
        (by simp [completed]) (by simp [completed]) h.spans
  | fail other worker attempt moment error errorType =>
      refine hask _ rfl fun _ _ => ?_
      exact h.closed rfl rfl (by simp [failed]) hlow le_rfl (by simp [failed]) (Or.inl rfl)
        (some_ne_empty hq.1) (some_ne_empty hq.2) h.spans
  | retryLater other worker attempt dueAt error errorType =>
      refine hask _ rfl fun hid hheld => ?_
      have hattempt : run.attempts = attempt := hheld.2.2
      have hleft := hq.2.2 hid
      refine h.closed rfl rfl (by simp [requeued]) ?_ ?_ ?_ (Or.inl rfl) (some_ne_empty hq.1)
        (some_ne_empty hq.2.1) h.spans
      · show 0 ≤ run.attempts + 0
        omega
      · show run.attempts + 0 ≤ run.attempts
        omega
      · intro _
        show run.attempts + 0 < allowed
        omega
  | release other worker attempt dueAt error errorType =>
      refine hask _ rfl fun _ hheld => ?_
      have hcount := h.counting hheld.2.1
      refine h.closed rfl rfl (by simp [requeued]) ?_ ?_ ?_ (Or.inl rfl) (some_ne_empty hq.1)
        (some_ne_empty hq.2) h.spans
      · show 0 ≤ run.attempts + -1
        omega
      · show run.attempts + -1 ≤ run.attempts
        omega
      · intro _
        show run.attempts + -1 < allowed
        omega
  | cancel other moment =>
      refine hask _ rfl fun _ hpending => ?_
      exact h.closed rfl rfl (by simp [calledOff]) hlow le_rfl (by simp [calledOff]) (Or.inr rfl)
        h.error h.errorType h.spans

/-! ## In memory -/

namespace MemoryStore

/-- The runs a claim or a reclaim picks. -/
def picks (m : MemoryStore V) : Request Nat V → List Nat
  | .claim worker queues limit lease moment =>
      match (m.claim worker queues limit lease moment).1 with
      | .ok taken => taken.map (·.id)
      | .error _ => []
  | .reclaim moment => (m.abandoned moment).map (·.id)
  | _ => []

variable {m : MemoryStore V} {n : Nat} {run : Run V}

theorem picks_claim {worker : String} {queues : List String} {limit : Nat} {lease : Int}
    {moment leaseEnd : Instant} (hlease : moment.plus lease = some leaseEnd) :
    m.picks (.claim worker queues limit lease moment) =
      (m.chosen queues limit moment).map (·.id) := by
  simp only [picks, m.claim_of_plus worker queues limit hlease, List.map_map]
  rfl

theorem pending_of_picks (hrow : m.rows n = some run) {allowed : Int} {worker : String}
    {queues : List String} {limit : Nat} {lease : Int} {moment : Instant}
    (hissued : (Request.claim worker queues limit lease moment : Request Nat V).Issued n allowed)
    (hpicked : n ∈ m.picks (.claim worker queues limit lease moment)) : run.status = .pending := by
  obtain ⟨leaseEnd, hlease⟩ := Option.isSome_iff_exists.1 hissued.2
  rw [picks_claim hlease] at hpicked
  obtain ⟨row, hchosen, rfl⟩ := List.mem_map.1 hpicked
  obtain ⟨hget, hpending, -⟩ := mem_chosen hchosen
  have hsame : row = ⟨run, row.id⟩ := Option.some.inj (hget.symm.trans (rows_eq_some.1 hrow))
  rw [hsame] at hpending
  exact hpending

open Classical in
theorem rows_settle (hrow : m.rows n = some run) (id : Nat) (worker : String) (attempt : Int)
    (f : Run V → Run V) :
    (m.settle id worker attempt f).2.rows n =
      some (if id = n ∧ Held worker attempt run then f run else run) := by
  by_cases hid : id = n
  · subst hid
    rcases m.settle_cases id worker attempt f with ⟨hnone, heq⟩ | ⟨row, hheld, heq⟩
    · have hfree : ¬ Held worker attempt run := by
        intro hcond
        have hheld := held_eq_some.2 ⟨rows_eq_some.1 hrow, hcond⟩
        rw [hnone] at hheld
        cases hheld
      rw [heq, if_neg fun h => hfree h.2, hrow]
    · obtain ⟨hget, hcond⟩ := held_eq_some.1 hheld
      rw [rows_eq_some, hget] at hrow
      cases hrow
      rw [heq, if_pos ⟨rfl, hcond⟩, rows_amend, Rows.revise_of_mem (rows_eq_some.2 hget)]
      simp
  · rw [if_neg fun h => hid h.1]
    rcases m.settle_cases id worker attempt f with ⟨-, heq⟩ | ⟨row, -, heq⟩
    · rw [heq, hrow]
    · rw [heq, rows_amend, Rows.revise_of_not_mem (by simpa using Ne.symm hid), hrow]

theorem rows_after (hrow : m.rows n = some run) {allowed : Int} {q : Request Nat V}
    (hq : q.Issued n allowed) :
    (m.perform q).2.rows n = some (q.after n (n ∈ m.picks q) run) := by
  classical
  cases q with
  | purge => exact hq.elim
  | find | get => exact hrow
  | add other =>
      simp only [perform, add]
      split
      · exact hrow
      · have hold : n ≠ m.sequence + 1 := by
          have hle := get_le_sequence (rows_eq_some.1 hrow)
          omega
        rw [rows_write, Function.update_of_ne hold]
        exact hrow
  | claim worker queues limit lease moment =>
      obtain ⟨leaseEnd, hlease⟩ := Option.isSome_iff_exists.1 hq.2
      simp only [perform, m.claim_of_plus worker queues limit hlease, Request.after, hlease,
        picks_claim hlease, rows_amend, Option.map_some, Option.getD_some]
      split
      · rename_i hpicked
        exact Rows.revise_of_mem hrow hpicked
      · rename_i hleft
        rw [Rows.revise_of_not_mem hleft, hrow]
  | reclaim moment =>
      simp only [perform, reclaim, Request.after, rows_amend]
      by_cases hpicked : n ∈ m.picks (.reclaim moment)
      · rw [if_pos hpicked]
        exact Rows.revise_of_mem hrow hpicked
      · rw [if_neg hpicked]
        exact (Rows.revise_of_not_mem hpicked).trans hrow
  | heartbeat id worker attempt lease moment =>
      obtain ⟨leaseEnd, hlease⟩ := Option.isSome_iff_exists.1 hq
      rw [after_of_ask (ask_heartbeat hlease)]
      simp only [perform, m.heartbeat_of_plus id worker attempt hlease]
      exact rows_settle hrow id worker attempt (beaten leaseEnd)
  | complete id worker attempt moment result =>
      rw [after_of_ask rfl]
      exact rows_settle hrow id worker attempt _
  | fail id worker attempt moment error errorType =>
      rw [after_of_ask rfl]
      exact rows_settle hrow id worker attempt _
  | retryLater id worker attempt dueAt error errorType =>
      rw [after_of_ask rfl]
      exact rows_settle hrow id worker attempt _
  | release id worker attempt dueAt error errorType =>
      rw [after_of_ask rfl]
      exact rows_settle hrow id worker attempt _
  | cancel id moment =>
      rw [after_of_ask rfl]
      simp only [perform]
      by_cases hid : id = n
      · subst hid
        rcases m.cancel_cases id moment with ⟨hnot, heq⟩ | ⟨row, hget, hpending, heq⟩
        · have hgoing : run.status ≠ .pending := hnot _ (rows_eq_some.1 hrow)
          rw [heq, if_neg fun h => hgoing h.2, hrow]
        · have hrow' := hrow
          rw [rows_eq_some, hget] at hrow'
          cases hrow'
          rw [heq, if_pos ⟨rfl, hpending⟩, rows_amend, Rows.revise_of_mem hrow (by simp)]
      · rw [if_neg fun h => hid h.1]
        rcases m.cancel_cases id moment with ⟨-, heq⟩ | ⟨row, -, -, heq⟩
        · rw [heq, hrow]
        · rw [heq, rows_amend, Rows.revise_of_not_mem (by simpa using Ne.symm hid), hrow]

end MemoryStore

/-! ## In Redis -/

variable {codec : Codec V} {rows : Rows String V} {s : Redis} {i : String} {run : Run V}
  {allowed : Int}

/-- The script asks whether an attempt holds a run as memory does. -/
theorem Represents.holds_iff_of_whole (hR : Represents codec rows s) (hrow : rows i = some run)
    (hrun : Whole allowed run) (worker : String) (attempt : Int) :
    s.holds i worker attempt ↔ Held worker attempt run := by
  have hname : run.status = .running →
      (run.worker.getD "" = worker ↔ run.worker = some worker) := by
    intro hrunning
    cases hworker : run.worker with
    | none => exact absurd hworker (hrun.held hrunning)
    | some name => simp
  have hcount : double run.attempts = double attempt ↔ run.attempts = attempt := by
    have hsmall := hrun.small
    rw [double_of_natAbs_le hsmall.le, eq_double_iff hsmall]
  rw [hR.holds_iff]
  constructor
  · rintro ⟨other, hother, hworker, hrunning, hattempt⟩
    obtain rfl := Option.some.inj (hrow.symm.trans hother)
    exact ⟨(hname hrunning).1 hworker, hrunning, hcount.1 hattempt⟩
  · rintro ⟨hworker, hrunning, hattempt⟩
    exact ⟨run, hrow, (hname hrunning).2 hworker, hrunning, hcount.2 hattempt⟩

namespace RedisStore

/-- The runs a claim or a reclaim picks. -/
def picks (s : Redis) : Request String V → List String
  | .claim worker queues limit lease moment =>
      match moment.plus lease with
      | none => []
      | some leaseEnd =>
          ((s.CLAIM queues (stamp (some moment)) worker (stamp (some leaseEnd)) limit
            (limit * claimSpread)).1.getD []).filterMap fun hash => hash .id
  | .reclaim moment => Represents.leases s moment reclaimBatch
  | _ => []

theorem picks_claim (hR : Represents codec rows s) {worker : String} {queues : List String}
    {limit : Nat} {lease : Int} {moment leaseEnd : Instant}
    (hlease : moment.plus lease = some leaseEnd)
    (hroomy : Roomy s (.claim worker queues limit lease moment : Request String V)) :
    picks s (.claim worker queues limit lease moment : Request String V) =
      gather limit [] (s.offered queues moment (limit * claimSpread)) := by
  rcases hR.claim_spec queues worker moment leaseEnd limit (limit * claimSpread)
    fun id hid run hrow => (hR.room_iff hrow 1).1 (hroomy id hid) with ⟨t, ht, -⟩
  have hid : ∀ id ∈ gather limit [] (s.offered queues moment (limit * claimSpread)),
      taking codec rows worker moment leaseEnd id .id = some id := by
    intro id hid
    have hoffered := (mem_of_gather hid).resolve_left List.not_mem_nil
    obtain ⟨run, hrow, -⟩ := hR.mem_offered.1 hoffered
    simp [taking, hrow, toHash]
  simp only [picks, hlease, ht, Option.getD_some, List.filterMap_map]
  refine (List.filterMap_congr hid).trans ?_
  exact List.filterMap_some

/-- A script that is asked for one run writes that run or leaves the rows, and it is the run of the
id the script is asked for that it writes. -/
theorem asked_after {t : Redis} {id : String} {f : Run V → Run V} {meets : Run V → Prop}
    [Decidable (id = i ∧ meets run)] (hrow : rows i = some run)
    (h : (∃ other, rows id = some other ∧ (id = i → meets run) ∧
        Represents codec (Function.update rows id (some (f other))) t) ∨
      ((id = i → ¬ meets run) ∧ Represents codec rows t)) :
    ∃ rows', Represents codec rows' t ∧
      rows' i = some (if id = i ∧ meets run then f run else run) := by
  rcases h with ⟨other, hother, hmeets, hR⟩ | ⟨hnot, hR⟩
  · refine ⟨_, hR, ?_⟩
    by_cases hid : id = i
    · subst hid
      obtain rfl := Option.some.inj (hrow.symm.trans hother)
      rw [Function.update_self, if_pos ⟨rfl, hmeets rfl⟩]
    · rw [Function.update_of_ne (Ne.symm hid), if_neg fun h => hid h.1, hrow]
  · refine ⟨rows, hR, ?_⟩
    rw [if_neg fun h => hnot h.1 h.2, hrow]

/-- Whether the script that holds a run to an attempt finds it held. -/
theorem holds_cases (hR : Represents codec rows s) (hrow : rows i = some run)
    (hrun : Whole allowed run) (id worker : String) (attempt : Int) :
    (s.holds id worker attempt ∧ (id = i → Held worker attempt run) ∧
      ∃ other, rows id = some other) ∨
    (¬ s.holds id worker attempt ∧ (id = i → ¬ Held worker attempt run)) := by
  have hiff := hR.holds_iff_of_whole hrow hrun worker attempt
  by_cases hholds : s.holds id worker attempt
  · obtain ⟨other, hother, -⟩ := hR.holds_iff.1 hholds
    left
    refine ⟨hholds, ?_, other, hother⟩
    rintro rfl
    exact hiff.1 hholds
  · right
    refine ⟨hholds, ?_⟩
    rintro rfl
    exact fun hheld => hholds (hiff.2 hheld)

theorem settle_after (hR : Represents codec rows s) (hrow : rows i = some run)
    (hrun : Whole allowed run) {id worker : String} {attempt counted : Int}
    {values : List (Field × String)} {dueAt : Option Instant} {f : Run V → Run V}
    [Decidable (id = i ∧ Held worker attempt run)]
    (h : ∀ run, Represents.Settles codec id run (f run) values (stamp dueAt) counted)
    (hroomy : s.holds id worker attempt → (s.summed id .attempts counted).isSome) :
    ∃ rows', Represents codec rows' (settle s id worker attempt values dueAt counted).2 ∧
      rows' i = some (if id = i ∧ Held worker attempt run then f run else run) := by
  apply asked_after hrow
  rcases holds_cases hR hrow hrun id worker attempt with
    ⟨hholds, hheld, other, hother⟩ | ⟨hnot, hfree⟩
  · have hroom := (hR.room_iff hother counted).1 (hroomy hholds)
    exact Or.inl ⟨other, hother, hheld, (hR.settle_spec hother hholds hroom (h other)).2⟩
  · exact Or.inr ⟨hfree, by simpa only [settle, Redis.SETTLE, if_neg hnot] using hR⟩

theorem rows_after (hR : Represents codec rows s) (hrow : rows i = some run)
    (hrun : Whole allowed run) {q : Request String V} (hq : q.Issued i allowed)
    (hunbroken : Unbroken s q) :
    ∃ rows', Represents codec rows' (perform codec s q).2 ∧
      rows' i = some (q.after i (i ∈ picks s q) run) := by
  classical
  rcases hunbroken with ⟨hnamed, hroomy⟩
  cases q with
  | purge => exact hq.elim
  | find | get => exact ⟨rows, hR, hrow⟩
  | add other =>
      rcases hR.add_cases hnamed with ⟨-, -, hsame⟩ | ⟨-, hnone, -, -, hafter⟩
      · simp only [perform, hsame]
        exact ⟨rows, hR, hrow⟩
      · have hne : i ≠ tostring (s.sequence + 1) := by
          intro hi
          rw [← hi, hrow] at hnone
          cases hnone
        refine ⟨_, hafter, ?_⟩
        rw [Function.update_of_ne hne]
        exact hrow
  | claim worker queues limit lease moment =>
      obtain ⟨leaseEnd, hlease⟩ := Option.isSome_iff_exists.1 hq.2
      obtain ⟨t, ht, hRt⟩ := hR.claim_spec queues worker moment leaseEnd limit
        (limit * claimSpread) fun id hid run hrow => (hR.room_iff hrow 1).1 (hroomy id hid)
      refine ⟨_, by simpa only [perform, claim, hlease, ht] using hRt, ?_⟩
      simp only [Request.after, hlease, picks_claim hR hlease hroomy, Rows.taken, Option.map_some,
        Option.getD_some]
      split
      · rename_i hpicked
        exact Rows.revise_of_mem hrow hpicked
      · rename_i hleft
        rw [Rows.revise_of_not_mem hleft, hrow]
  | reclaim moment =>
      refine ⟨_, (hR.reclaim_spec moment reclaimBatch).2, ?_⟩
      simp only [Request.after]
      by_cases hpicked : i ∈ picks s (.reclaim moment : Request String V)
      · rw [if_pos hpicked, ← hrun.reclaimed_eq]
        exact Rows.revise_of_mem hrow hpicked
      · rw [if_neg hpicked]
        exact (Rows.revise_of_not_mem hpicked).trans hrow
  | heartbeat id worker attempt lease moment =>
      obtain ⟨leaseEnd, hlease⟩ := Option.isSome_iff_exists.1 hq
      rw [after_of_ask (ask_heartbeat hlease)]
      simp only [perform, heartbeat, hlease]
      apply asked_after hrow
      rcases holds_cases hR hrow hrun id worker attempt with
        ⟨hholds, hheld, other, hother⟩ | ⟨hnot, hfree⟩
      · exact Or.inl ⟨other, hother, hheld, (hR.heartbeat_spec leaseEnd hother hholds).2⟩
      · exact Or.inr ⟨hfree, by simpa only [Redis.HEARTBEAT, if_neg hnot] using hR⟩
  | complete id worker attempt moment result =>
      rw [after_of_ask rfl]
      exact settle_after hR hrow hrun
        (fun run => Represents.settles_completed codec id run moment result) hroomy
  | fail id worker attempt moment error errorType =>
      rw [after_of_ask rfl]
      exact settle_after hR hrow hrun
        (fun run => Represents.settles_failed codec id run moment error errorType) hroomy
  | retryLater id worker attempt dueAt error errorType =>
      rw [after_of_ask rfl]
      exact settle_after hR hrow hrun
        (fun run => Represents.settles_requeued codec id run dueAt error errorType 0) hroomy
  | release id worker attempt dueAt error errorType =>
      rw [after_of_ask rfl]
      exact settle_after hR hrow hrun
        (fun run => Represents.settles_requeued codec id run dueAt error errorType (-1)) hroomy
  | cancel id moment =>
      rw [after_of_ask rfl]
      simp only [perform]
      apply asked_after hrow
      by_cases hpending : ∃ other, rows id = some other ∧ other.status = .pending
      · obtain ⟨other, hother, hstatus⟩ := hpending
        left
        refine ⟨other, hother, ?_, (hR.cancel_spec moment hother hstatus).2⟩
        rintro rfl
        obtain rfl := Option.some.inj (hrow.symm.trans hother)
        exact hstatus
      · push Not at hpending
        right
        refine ⟨?_, by simpa only [cancel, hR.cancel_refused _ hpending] using hR⟩
        rintro rfl
        exact hpending run hrow

end RedisStore

end Queuefy
