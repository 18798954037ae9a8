import Queuefy.Store.RedisSpec

/-! # Three stores that hold the same

From states that hold the same runs the three stores answer one call alike and go on holding the
same, unless Redis writes a run over another, or a beat for a run its attempt does not hold names a
lease past the last instant, which only the memory store never gets to add up.
-/

namespace Queuefy

variable {V : Type}

open MemoryStore (expired isOver)

/-- The same runs in all three stores, each of them under an id of its own. -/
structure Alike (codec : Codec V) (ρ : Nat → String) (σ : Nat → Nat) (m : MemoryStore V) (s : Redis)
    (t : Table V) : Prop where
  redis : ∃ rows, Represents codec rows s ∧ rows "" = none ∧ Renames ρ m.rows rows
  sql : Renames σ m.rows t.runs
  kept : ∀ i run, m.rows i = some run → Kept run

/-- The three stores answer a call alike and hold the same runs after it, and an answer that says
nothing was done comes with each of them as it was. `f` and `g` are what Redis and the database
call the runs the call names, and `fresh` the id the database would hand out. -/
def Agree (codec : Codec V) (m : MemoryStore V) (s : Redis) (t : Table V) (q : Request Nat V)
    (f : Nat → String) (g : Nat → Nat) (fresh : Nat) : Prop :=
  ∃ ρ σ,
    (RedisStore.perform codec s (q.rename f)).1 = (m.perform q).1.rename ρ ∧
    (SqlStore.perform t fresh (q.rename g)).1 = (m.perform q).1.rename σ ∧
    Alike codec ρ σ (m.perform q).2 (RedisStore.perform codec s (q.rename f)).2
      (SqlStore.perform t fresh (q.rename g)).2 ∧
    ((m.perform q).1.negative = true → (m.perform q).2 = m ∧
      (RedisStore.perform codec s (q.rename f)).2 = s ∧
      (SqlStore.perform t fresh (q.rename g)).2 = t)

/-- A beat whose lease would end past the last instant is one of an attempt that holds its run. -/
def Ranged (m : MemoryStore V) : Request Nat V → Prop
  | .heartbeat id worker attempt lease moment =>
      moment.plus lease = none → (m.held id worker attempt).isSome
  | _ => True

/-! ## What the three have in common -/

theorem alike_empty (codec : Codec V) (ρ : Nat → String) (σ : Nat → Nat) :
    Alike codec ρ σ .empty .empty .empty := by
  have hnone : ∀ {κ : Type} (τ : Nat → κ), Renames τ (fun _ => none : Rows Nat V)
      (fun _ => none : Rows κ V) := by
    intro κ τ
    constructor <;> simp
  exact ⟨⟨_, Represents.empty codec, rfl, hnone ρ⟩, hnone σ, fun i run h => by cases h⟩

namespace Renames

variable {κ : Type} {m : MemoryStore V} {ρ : Nat → κ} {rows : Rows κ V}

theorem atMost (h : Renames ρ m.rows rows) {P : Run V → Bool} {n : Nat}
    (hall : AtMost m.rows (fun run => P run = true) n) :
    AtMost rows (fun run => P run = true) n := by
  intro ids hids
  have hlists := m.lists_filter P
  have hperm := h.lists_perm hlists hids
  rw [← hperm.length_eq, List.length_map]
  exact hall _ hlists

theorem fits (h : Renames ρ m.rows rows) {q : Request Nat V} (hq : q.Fits m.rows) (f : Nat → κ) :
    (q.rename f).Fits rows := by
  cases q with
  | claim => exact hq.elim
  | reclaim | purge => exact h.atMost hq
  | _ => trivial

theorem kept_rows (h : Renames ρ m.rows rows) (hkept : ∀ i run, m.rows i = some run → Kept run) :
    ∀ k run, rows k = some run → Kept run := by
  intro k run hrow
  obtain ⟨i, -, hi⟩ := h.onto k run hrow
  exact hkept i run hi

theorem unique (h : Renames ρ m.rows rows) (hunique : Unique rows) : Unique m.rows := by
  intro i j r r' hi hj hkey hsame
  apply h.distinct i j (by rw [hi]; rfl) (by rw [hj]; rfl)
  exact hunique _ _ r r' (h.kept i r hi) (h.kept j r' hj) hkey hsame

theorem ncard (h : Renames ρ m.rows rows) :
    {i | (m.rows i).isSome}.ncard = {k | (rows k).isSome}.ncard := by
  have hdue : ∀ {ι : Type} (rows : Rows ι V),
      {i | (rows i).isSome} = rows.due fun _ => true := by
    intro ι rows
    ext i
    simp [Rows.due, Option.isSome_iff_exists]
  rw [hdue, hdue]
  exact h.backlog_eq fun _ => true

end Renames

theorem MemoryStore.ncard_write (m : MemoryStore V) (run : Run V) :
    {i | ((m.write run).rows i).isSome}.ncard = {i | (m.rows i).isSome}.ncard + 1 := by
  have hgrown : {i | ((m.write run).rows i).isSome} =
      insert (m.sequence + 1) {i | (m.rows i).isSome} := by
    ext i
    rw [MemoryStore.rows_write]
    by_cases hi : i = m.sequence + 1 <;> simp [hi]
  have hnew : m.sequence + 1 ∉ {i | (m.rows i).isSome} := by
    have hnone := rows_eq_none.2 (get_past_sequence (s := m) (Nat.lt_succ_self _))
    simp [hnone]
  have hfinite : {i | (m.rows i).isSome}.Finite := by
    apply (Set.finite_Iic m.sequence).subset
    intro i hi
    rcases Option.isSome_iff_exists.mp hi with ⟨r, hr⟩
    exact get_le_sequence (rows_eq_some.1 hr)
  rw [hgrown, Set.ncard_insert_of_notMem hnew hfinite]

section

variable {codec : Codec V} {ρ : Nat → String} {σ : Nat → Nat} {m : MemoryStore V} {s : Redis}
  {t : Table V} {q : Request Nat V} {f : Nat → String} {g : Nat → Nat} {fresh : Nat}

/-! ## They agree -/

/-- A beat that names no instant raises in all three where its attempt holds the run, and leaves
each of them as it was. -/
theorem agree_of_undated (h : Alike codec ρ σ m s t) (hdated : ¬ q.Dated) (hranged : Ranged m q) :
    Agree codec m s t q f g fresh := by
  cases q with
  | heartbeat id worker attempt lease moment =>
      have hlease : moment.plus lease = none := Option.not_isSome_iff_eq_none.mp hdated
      obtain ⟨row, hheld⟩ := Option.isSome_iff_exists.mp (hranged hlease)
      have hm : m.perform (.heartbeat id worker attempt lease moment) =
          (.told (.error .dateValueOutOfRange), m) := by
        simp only [MemoryStore.perform, MemoryStore.heartbeat, hheld, hlease]
      have hs : RedisStore.perform codec s
          ((Request.heartbeat id worker attempt lease moment).rename f) =
            (.told (.error .dateValueOutOfRange), s) := by
        simp only [Request.rename, RedisStore.perform, RedisStore.heartbeat, hlease]
      have ht : SqlStore.perform t fresh
          ((Request.heartbeat id worker attempt lease moment).rename g) =
            (.told (.error .dateValueOutOfRange), t) := by
        simp only [Request.rename, SqlStore.perform, SqlStore.session, SqlStore.heartbeat, hlease,
          Prog.map, Prog.run]
      refine ⟨ρ, σ, ?_⟩
      rw [hm, hs, ht]
      exact ⟨rfl, rfl, h, fun _ => ⟨rfl, rfl, rfl⟩⟩
  | _ => exact absurd trivial hdated

/-- A call that writes no run of Redis over another is the step of one store in all three. -/
theorem agree_of_dated (h : Alike codec ρ σ m s t) (hq : q.Passed) (hfits : q.Fits m.rows)
    (hf : Follows ρ m.rows (fun id => s.runs id = none) f q)
    (hg : Follows σ m.rows (fun id => t.runs id = none) g q) (hfresh : t.runs fresh = none)
    (hdated : q.Dated) (hnamed : Named s (q.rename f)) : Agree codec m s t q f g fresh := by
  obtain ⟨rows, hR, hempty, hρ⟩ := h.redis
  have hunique := hρ.unique (hR.unique (hρ.kept_rows h.kept))
  have hnew : m.rows (m.sequence + 1) = none :=
    MemoryStore.rows_eq_none.2 (MemoryStore.get_past_sequence (Nat.lt_succ_self _))
  have hm := MemoryStore.performs hfits hdated
  have hfollows : Follows ρ m.rows (fun k => rows k = none) f q := by
    intro i hi
    refine ⟨(hf i hi).1, fun hnone => ?_⟩
    have hfree : s.runs (f i) = none := (hf i hi).2 hnone
    rwa [hR.hashed, Option.map_eq_none_iff] at hfree
  obtain ⟨rows', hredis, hR'⟩ := RedisStore.performs hR (hρ.kept_rows h.kept) hempty (hq.rename f)
    (hρ.fits hfits f) (hdated.rename f) hnamed
  have hunused : ∀ run, q = .add run →
      (∀ k r, rows k = some r → run.key.isSome → r.key ≠ run.key) →
        rows (tostring (s.sequence + 1)) = none := by
    rintro run rfl hfree
    have hthis := hnamed fun hkey => by
      cases hrun : run.key with
      | none => exact absurd (by rw [hrun]; rfl) hkey
      | some key =>
          rw [hrun] at hkey hfree
          exact (hR.keys_eq_none hkey).2 fun k r hr => hfree k r hr rfl
    have hnone := hthis.2
    rwa [hR.hashed, Option.map_eq_none_iff] at hnone
  obtain ⟨ρ', hanswer, hρ'⟩ := hm.rename hρ hunique hfollows hnew hunused hredis
  have hsql := SqlStore.performs hfresh (h.sql.fits hfits g) (hdated.rename g)
  obtain ⟨σ', htable, hσ'⟩ := hm.rename h.sql hunique hg hnew (fun _ _ _ => hfresh) hsql
  refine ⟨ρ', σ', hanswer, htable, ⟨⟨rows', hR', ?_, hρ'⟩, hσ', hm.kept hq h.kept⟩, fun hneg => ?_⟩
  · exact hredis.absent hempty (Ne.symm (tostring_ne_empty _))
  · refine ⟨MemoryStore.perform_negative hneg, RedisStore.perform_negative ?_,
      SqlStore.perform_negative ?_⟩
    · rwa [hanswer, negative_rename]
    · rwa [htable, negative_rename]

/-! ## And where they do not -/

theorem untaken_of_free (h : Alike codec ρ σ m s t) {run : Run V} (hrun : Kept run)
    (hfree : run.key.getD "" ≠ "" → s.keys (run.key.getD "") = none) :
    m.taken run.key = false := by
  by_contra htaken
  simp only [MemoryStore.taken, Bool.not_eq_false, Bool.and_eq_true, List.any_eq_true,
    decide_eq_true_eq] at htaken
  rcases htaken with ⟨hsome, row, hrow, hsame⟩
  rcases h.redis with ⟨rows, hR, -, hρ⟩
  rcases Option.isSome_iff_exists.mp hsome with ⟨key, hkey⟩
  have hne : key ≠ "" := fun heq => hrun.key (heq ▸ hkey)
  rw [hkey, Option.getD_some] at hfree
  have hstored := hρ.kept _ _ (MemoryStore.rows_eq_some.2 (MemoryStore.get_of_mem hrow))
  exact (hR.keys_eq_none hne).1 (hfree hne) _ _ hstored (hsame.trans hkey)

/-- A run written over another leaves as many hashes as there were. -/
theorem stored_over {rows rows' : Rows String V} {u : Redis} {run : Run V} {id : String}
    (hR : Represents codec rows s) (hR' : Represents codec rows' u)
    (hruns : u.runs = (s.hset id (RedisStore.fieldsOf codec run ++ [(.id, id)])).runs)
    (htaken : s.runs id ≠ none) : {k | (rows' k).isSome} = {k | (rows k).isSome} := by
  ext k
  have hafter := hR'.hashed k
  simp only [hruns, Redis.hset] at hafter
  by_cases hk : k = id
  · subst hk
    rw [Function.update_self] at hafter
    have hnow : (rows' k).isSome := by
      cases hrow : rows' k with
      | none => rw [hrow] at hafter; cases hafter
      | some r => rfl
    have hbefore : (rows k).isSome := by
      rw [hR.hashed, ne_eq, Option.map_eq_none_iff] at htaken
      exact Option.isSome_iff_ne_none.mpr htaken
    exact iff_of_true hnow hbefore
  · rw [Function.update_of_ne hk, hR.hashed] at hafter
    have hsome := congrArg Option.isSome hafter
    simp only [Option.isSome_map] at hsome
    simp [hsome]

/-- A run written over another leaves Redis a run short of the memory store, and a counter that
counts no further raises. -/
theorem named_of_agree (h : Alike codec ρ σ m s t) (hq : q.Passed)
    (hagree : Agree codec m s t q f g fresh) : Named s (q.rename f) := by
  cases q with
  | add run =>
      intro hfree
      obtain ⟨ρ', σ', hanswer, -, halike, -⟩ := hagree
      have hnext : s.sequence + 1 < 2 ^ 63 := by
        by_contra hfull
        simp only [Request.rename, RedisStore.perform, RedisStore.add,
          Redis.ADD_of_full hfree hfull, MemoryStore.perform] at hanswer
        cases hanswer
      refine ⟨hnext, ?_⟩
      by_contra htaken
      obtain ⟨rows, hR, -, hρ⟩ := h.redis
      obtain ⟨rows', hR', -, hρ'⟩ := halike.redis
      obtain ⟨u, hu, hadded⟩ := Redis.ADD_of_free hfree hnext (RedisStore.fieldsOf codec run)
        run.queue run.priority.repr (RedisStore.waitingIn run).1 (RedisStore.waitingIn run).2
      simp only [Request.rename, RedisStore.perform, RedisStore.add, hu] at hR'
      have hids := stored_over hR hR' hadded.runs htaken
      have hwritten : (m.perform (.add run)).2 = m.write run := by
        have huntaken := untaken_of_free h hq hfree
        simp only [MemoryStore.perform, MemoryStore.add, huntaken, Bool.false_eq_true, if_false]
      have hmore := hρ'.ncard
      rw [hids, ← hρ.ncard, hwritten, MemoryStore.ncard_write] at hmore
      omega
  | _ => trivial

theorem ranged_of_agree (hagree : Agree codec m s t q f g fresh) : Ranged m q := by
  cases q with
  | heartbeat id worker attempt lease moment =>
      intro hlease
      obtain ⟨ρ', σ', hanswer, -⟩ := hagree
      by_contra hnone
      rw [Option.not_isSome_iff_eq_none] at hnone
      simp only [Request.rename, RedisStore.perform, RedisStore.heartbeat, hlease,
        MemoryStore.perform, MemoryStore.heartbeat, hnone] at hanswer
      cases hanswer
  | _ => trivial

end

namespace Plain

/-- A run its first attempt holds. -/
def held : Run Unit :=
  { run "mail" 0 Instant.epoch with
    status := .running
    worker := some "worker"
    attempts := 1
    leaseUntil := Instant.epoch.plus 30000000 }

theorem kept_run : Kept (run "mail" 0 Instant.epoch) := by
  constructor <;> simp [run, heldSpans]

theorem kept_held : Kept held := by
  have hlease : Instant.epoch.plus 30000000 = some ⟨30000000, by decide, by decide⟩ := by decide
  constructor <;> simp [held, run, hlease, heldSpans]

end Plain

theorem agree_held : Agree Plain.codec .empty .empty .empty (.add Plain.held) (fun _ => "")
    (fun _ => 0) 1 :=
  agree_of_dated (alike_empty Plain.codec (fun _ => "") fun _ => 0) Plain.kept_held trivial
    (fun _ hi => hi.elim) (fun _ hi => hi.elim) rfl trivial fun _ => ⟨by decide, rfl⟩

namespace Plain

/-- The three stores after one run is written so many times over. -/
def writes : Nat → MemoryStore Unit × Redis × Table Unit
  | 0 => (.empty, .empty, .empty)
  | n + 1 =>
      (((writes n).1.perform (.add (run "mail" 0 Instant.epoch))).2,
        (RedisStore.perform codec (writes n).2.1 (.add (run "mail" 0 Instant.epoch))).2,
        (SqlStore.perform (writes n).2.2 (n + 1) (.add (run "mail" 0 Instant.epoch))).2)

end Plain

/-- Three stores that hold the same after `n` writes of runs without keys. -/
structure Written (codec : Codec V) (n : Nat) (m : MemoryStore V) (s : Redis) (t : Table V) :
    Prop where
  alike : ∃ ρ σ, Alike codec ρ σ m s t
  sequence : s.sequence = n
  texts : ∀ id, (s.runs id).isSome → ∃ k ≤ n, id = tostring k
  newest : 0 < n → s.runs (tostring n) ≠ none
  ids : ∀ id, (t.runs id).isSome → id ≤ n

theorem Written.next {codec : Codec V} {n : Nat} {m : MemoryStore V} {s : Redis} {t : Table V}
    (h : Written codec n m s t) (hn : n < 10 ^ 14) {run : Run V} (hrun : Kept run)
    (hkey : run.key = none) :
    Written codec (n + 1) (m.perform (.add run)).2 (RedisStore.perform codec s (.add run)).2
      (SqlStore.perform t (n + 1) (.add run)).2 := by
  obtain ⟨ρ, σ, halike⟩ := h.alike
  obtain ⟨rows, hR, hempty, hρ⟩ := halike.redis
  have hunused : s.runs (tostring (s.sequence + 1)) = none := by
    by_contra hsome
    obtain ⟨k, hk, htext⟩ := h.texts _ (Option.isSome_iff_ne_none.mpr hsome)
    rw [h.sequence] at htext
    exact tostring_succ_ne hk hn htext
  have hfresh : t.runs (n + 1) = none := by
    by_contra hsome
    have := h.ids _ (Option.isSome_iff_ne_none.mpr hsome)
    omega
  have hnext : s.sequence + 1 < 2 ^ 63 := by
    rw [h.sequence]
    omega
  have hnamed : Named s (.add run) := fun _ => ⟨hnext, hunused⟩
  have hagree : Agree codec m s t (.add run) (fun _ => "") (fun _ => 0) (n + 1) :=
    agree_of_dated halike hrun trivial (fun i hi => hi.elim) (fun i hi => hi.elim) hfresh trivial
      hnamed
  obtain ⟨ρ', σ', -, -, hafter, -⟩ := hagree
  have hfree : run.key.getD "" ≠ "" → s.keys (run.key.getD "") = none := by simp [hkey]
  have hnone : rows (tostring (s.sequence + 1)) = none := by
    rwa [hR.hashed, Option.map_eq_none_iff] at hunused
  obtain ⟨-, hR'⟩ := hR.add_spec hfree hnext hnone
  have hsql := SqlStore.performs hfresh (q := .add run) trivial trivial
  refine ⟨⟨ρ', σ', hafter⟩, ?_, fun id hid => ?_, fun _ => ?_, fun id hid => ?_⟩
  · obtain ⟨u, hu, hadded⟩ := Redis.ADD_of_free hfree hnext (RedisStore.fieldsOf codec run)
      run.queue run.priority.repr (RedisStore.waitingIn run).1 (RedisStore.waitingIn run).2
    simp only [RedisStore.perform, RedisStore.add, hu, hadded.sequence, h.sequence]
  · simp only [RedisStore.perform, hR'.hashed, Option.isSome_map] at hid
    by_cases hnew : id = tostring (s.sequence + 1)
    · exact ⟨n + 1, le_rfl, h.sequence ▸ hnew⟩
    · rw [Function.update_of_ne hnew] at hid
      obtain ⟨k, hk, htext⟩ := h.texts id (by rwa [hR.hashed, Option.isSome_map])
      exact ⟨k, by omega, htext⟩
  · simp only [RedisStore.perform, hR'.hashed, ← h.sequence, Function.update_self]
    simp
  · by_cases hnew : id = n + 1
    · omega
    · have hold : (t.runs id).isSome := by
        by_contra hnone
        rw [Option.not_isSome_iff_eq_none] at hnone
        rw [hsql.absent hnone hnew] at hid
        cases hid
      have := h.ids id hold
      omega

theorem written_writes (n : Nat) (hn : n ≤ 10 ^ 14) :
    Written Plain.codec n (Plain.writes n).1 (Plain.writes n).2.1 (Plain.writes n).2.2 := by
  induction n with
  | zero =>
      refine ⟨⟨fun _ => "", fun _ => 0, alike_empty _ _ _⟩, rfl, fun id hid => ?_, fun hpos => ?_,
        fun id hid => ?_⟩
      · cases hid
      · cases hpos
      · cases hid
  | succ n ih => exact (ih (by omega)).next (by omega) Plain.kept_run rfl

end Queuefy
