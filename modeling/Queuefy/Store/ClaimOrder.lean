import Queuefy.Store.Renaming
import Queuefy.Store.Scripts

/-! # The order of a claim

The memory store sorts everything that is due. The script reads, out of each lane, the first few
by when they came due and then by the bytes of their id, and merges those. The two take the same
runs in the same order exactly when no run that is among the first of all stands behind the window
of its own lane.
-/

namespace Queuefy

variable {V : Type} {codec : Codec V} {rows : Rows String V} {s : Redis}

open RedisStore (toHash)

/-- The same runs in memory and in Redis, under ids that stand in the same order, with instants
and priorities a double keeps as they are, and with attempts the server counts one more of. -/
structure Twins (codec : Codec V) (ρ : Nat → String) (m : MemoryStore V) (rows : Rows String V)
    (s : Redis) : Prop where
  represents : Represents codec rows s
  renames : Renames ρ m.rows rows
  rising : ∀ i j, (m.rows i).isSome → (m.rows j).isSome → i < j → number (ρ i) < number (ρ j)
  due : ∀ i run, m.rows i = some run → run.dueAt.micro.natAbs ≤ 2 ^ 53
  priority : ∀ i run, m.rows i = some run → run.priority.natAbs ≤ 2 ^ 53
  room : ∀ i run, m.rows i = some run → Redis.Room run.attempts 1

theorem memory_ready_rising (m : MemoryStore V) (queues : List String) (moment : Instant) :
    Rising MemoryStore.claimKey (m.ready queues moment) := by
  apply rising_insertionSort
  have hids := m.ids_nodup.sublist
    ((List.filter_sublist (p := (MemoryStore.claimable queues moment ·.toRun)) (l := m.runs)).map
      (·.id))
  refine List.Nodup.of_map (fun key => (ofLex (ofLex key).2).2) ?_
  rw [List.map_map]
  exact hids

/-! ## What the script goes through -/

/-- The order of a claim, read off the rows of the Redis store. -/
def Rows.claimKey (rows : Rows String V) (id : String) : ℤ ×ₗ ℤ ×ₗ ℤ :=
  match rows id with
  | none => toLex (0, toLex (0, 0))
  | some run => toLex (-run.priority, toLex (run.dueAt.micro, number id))

theorem mem_levels {queues : List String} {level : String} :
    level ∈ s.levels queues ↔ ∃ queue ∈ queues, ∃ score, (level, score) ∈ s.priorities queue := by
  rw [Redis.levels, (List.perm_insertionSort _ _).mem_iff, List.mem_dedup, List.mem_flatMap]
  constructor
  · rintro ⟨queue, hqueue, hlevel⟩
    obtain ⟨e, he, rfl⟩ := List.mem_map.mp hlevel
    exact ⟨queue, hqueue, e.2, he⟩
  · rintro ⟨queue, hqueue, score, hmem⟩
    exact ⟨queue, hqueue, List.mem_map.mpr ⟨(level, score), hmem, rfl⟩⟩

theorem levels_sorted (s : Redis) (queues : List String) :
    (s.levels queues).Pairwise fun left right => number right < number left ∨
      number right = number left ∧ left ≠ right := by
  have htotal : Std.Total fun left right : String => number right ≤ number left :=
    ⟨fun a b => le_total _ _⟩
  have htrans : IsTrans String fun left right => number right ≤ number left :=
    ⟨fun _ _ _ hab hbc => le_trans hbc hab⟩
  have hsorted := List.pairwise_insertionSort (fun left right => number right ≤ number left)
    ((queues.flatMap fun queue => (s.priorities queue).entries.map Prod.fst).dedup)
  refine hsorted.imp₂ (fun _ _ hle hne => ?_) (s.levels_nodup queues)
  rcases lt_or_eq_of_le hle with hlt | heq
  · exact Or.inl hlt
  · exact Or.inr ⟨heq, hne⟩

theorem mem_ready_iff {queues : List String} {moment level : String} {window : Nat}
    {entry : Redis.Ready} :
    entry ∈ s.ready queues moment window level ↔ ∃ queue ∈ queues, ∃ id score,
      (id, score) ∈ (s.sets (.queue queue level)).range (fun due => due ≤ number moment) window ∧
        entry = ⟨id, score, .queue queue level⟩ := by
  rw [Redis.ready, (List.perm_insertionSort _ _).mem_iff, List.mem_flatMap]
  constructor
  · rintro ⟨queue, hqueue, hentry⟩
    obtain ⟨e, he, rfl⟩ := List.mem_map.mp hentry
    exact ⟨queue, hqueue, e.1, e.2, he, rfl⟩
  · rintro ⟨queue, hqueue, id, score, he, rfl⟩
    exact ⟨queue, hqueue, List.mem_map.mpr ⟨(id, score), he, rfl⟩⟩

/-- How many runs of a lane stand before one of them, by when they came due and then by the bytes
of the id. -/
def Redis.ahead (s : Redis) (moment : Instant) (run : Run V) (id : String) : Nat :=
  ((s.sets (.queue run.queue run.priority.repr)).ranked
    fun due => due ≤ number (stamp (some moment))).countP
      fun e => SortedSet.rank e < SortedSet.rank (id, double run.dueAt.micro)

namespace Represents

/-- A claim goes through the runs that wait in the queues it serves, are due to the double of the
moment, and stand within the window of their lane. -/
theorem mem_offered (hR : Represents codec rows s) {queues : List String} {moment : Instant}
    {window : Nat} {id : String} :
    id ∈ s.offered queues moment window ↔ ∃ run, rows id = some run ∧ run.status = .pending ∧
      run.queue ∈ queues ∧ double run.dueAt.micro ≤ double moment.micro ∧
        s.ahead moment run id < window := by
  rw [Redis.offered, List.mem_flatMap]
  constructor
  · rintro ⟨level, -, hid⟩
    obtain ⟨entry, hentry, rfl⟩ := List.mem_map.mp hid
    obtain ⟨queue, hqueue, id, score, hrange, rfl⟩ := mem_ready_iff.1 hentry
    obtain ⟨hranked, hcount⟩ := (SortedSet.rising_ranked _ _).mem_take window _ |>.1 hrange
    obtain ⟨hmem, hdue⟩ := SortedSet.mem_ranked.1 hranked
    obtain ⟨run, hrow, hpending, rfl, rfl, rfl⟩ := hR.mem_lane.1 hmem
    refine ⟨run, hrow, hpending, hqueue, ?_, hcount⟩
    simpa [stamp] using hdue
  · rintro ⟨run, hrow, hpending, hqueue, hdue, hcount⟩
    refine ⟨run.priority.repr, mem_levels.2 ⟨run.queue, hqueue, _, hR.listed id run hrow⟩, ?_⟩
    refine List.mem_map.mpr ⟨⟨id, double run.dueAt.micro, .queue run.queue run.priority.repr⟩,
      mem_ready_iff.2 ⟨run.queue, hqueue, id, _, ?_, rfl⟩, rfl⟩
    refine ((SortedSet.rising_ranked _ _).mem_take window _).2 ⟨SortedSet.mem_ranked.2 ⟨?_, ?_⟩,
      hcount⟩
    · exact hR.mem_lane.2 ⟨run, hrow, hpending, rfl, rfl, rfl⟩
    · simpa [stamp] using hdue

theorem offered_of_due (hR : Represents codec rows s) {queues : List String} {moment : Instant}
    {window : Nat} (hwindow : 0 < window) {id : String} {run : Run V} (hrow : rows id = some run)
    (hpending : run.status = .pending) (hqueue : run.queue ∈ queues)
    (hdue : double run.dueAt.micro ≤ double moment.micro) :
    ∃ first, first ∈ s.offered queues moment window := by
  have hmem : (id, double run.dueAt.micro) ∈ (s.sets (.queue run.queue run.priority.repr)).ranked
      fun due => due ≤ number (stamp (some moment)) :=
    SortedSet.mem_ranked.2 ⟨hR.mem_lane.2 ⟨run, hrow, hpending, rfl, rfl, rfl⟩,
      by simpa [stamp] using hdue⟩
  have hne : (s.sets (.queue run.queue run.priority.repr)).range
      (fun due => due ≤ number (stamp (some moment))) window ≠ [] := by
    intro hnil
    rcases List.take_eq_nil_iff.mp hnil with hzero | hempty
    · omega
    · rw [hempty] at hmem
      cases hmem
  obtain ⟨e, he⟩ := List.exists_mem_of_ne_nil _ hne
  refine ⟨e.1, List.mem_flatMap.mpr ⟨run.priority.repr, ?_, ?_⟩⟩
  · exact mem_levels.2 ⟨run.queue, hqueue, _, hR.listed id run hrow⟩
  · exact List.mem_map.mpr ⟨_, mem_ready_iff.2 ⟨run.queue, hqueue, e.1, e.2, he, rfl⟩, rfl⟩

end Represents

namespace Twins

variable {ρ : Nat → String} {m : MemoryStore V}

theorem row (h : Twins codec ρ m rows s) {row : Row Nat V} (hrow : row ∈ m.runs) :
    rows (ρ row.id) = some row.toRun := by
  apply h.renames.kept
  rw [MemoryStore.rows_eq_some]
  exact MemoryStore.get_of_mem hrow

theorem stored {row : Row Nat V} (hrow : row ∈ m.runs) : m.rows row.id = some row.toRun :=
  MemoryStore.rows_eq_some.2 (MemoryStore.get_of_mem hrow)

theorem exists_row (h : Twins codec ρ m rows s) {id : String} {run : Run V}
    (hrow : rows id = some run) : ∃ row ∈ m.runs, ρ row.id = id ∧ row.toRun = run := by
  obtain ⟨i, rfl, hi⟩ := h.renames.onto id run hrow
  rw [MemoryStore.rows_eq_some] at hi
  exact ⟨_, (MemoryStore.get_eq_some.1 hi).1, rfl, rfl⟩

theorem number_lt_iff (h : Twins codec ρ m rows s) {a b : Row Nat V} (ha : a ∈ m.runs)
    (hb : b ∈ m.runs) : number (ρ a.id) < number (ρ b.id) ↔ a.id < b.id := by
  have hsa : (m.rows a.id).isSome := by rw [stored ha]; rfl
  have hsb : (m.rows b.id).isSome := by rw [stored hb]; rfl
  constructor
  · intro hlt
    rcases Nat.lt_trichotomy a.id b.id with hab | hab | hab
    · exact hab
    · rw [hab] at hlt
      exact absurd hlt (lt_irrefl _)
    · exact absurd (h.rising _ _ hsb hsa hab) (lt_asymm hlt)
  · exact h.rising _ _ hsa hsb

theorem claimKey_lt_iff (h : Twins codec ρ m rows s) {a b : Row Nat V} (ha : a ∈ m.runs)
    (hb : b ∈ m.runs) :
    rows.claimKey (ρ a.id) < rows.claimKey (ρ b.id) ↔
      MemoryStore.claimKey a < MemoryStore.claimKey b := by
  have hid := h.number_lt_iff ha hb
  simp only [Rows.claimKey, h.row ha, h.row hb, MemoryStore.claimKey, Prod.Lex.toLex_lt_toLex, hid,
    Instant.lt_def, Instant.ext_iff]

theorem claimKey_injective (h : Twins codec ρ m rows s) {a b : Row Nat V} (ha : a ∈ m.runs)
    (hb : b ∈ m.runs) (heq : rows.claimKey (ρ a.id) = rows.claimKey (ρ b.id)) : a = b := by
  have hab := (h.claimKey_lt_iff ha hb).not.1 (by rw [heq]; exact lt_irrefl _)
  have hba := (h.claimKey_lt_iff hb ha).not.1 (by rw [heq]; exact lt_irrefl _)
  have hkey := le_antisymm (not_lt.1 hba) (not_lt.1 hab)
  apply m.row_eq_of_id ha hb
  simp only [MemoryStore.claimKey, EmbeddingLike.apply_eq_iff_eq, Prod.mk.injEq] at hkey
  exact hkey.2.2

/-! ## The two orders are one -/

theorem ready_sorted (h : Twins codec ρ m rows s) (queues : List String) (moment : Instant)
    (window : Nat) (level : String) :
    ((s.ready queues (stamp (some moment)) window level).map (·.id)).Pairwise fun a b =>
      rows.claimKey a ≤ rows.claimKey b := by
  have htotal : Std.Total fun left right : Redis.Ready =>
      toLex (left.dueAt, number left.id) ≤ toLex (right.dueAt, number right.id) :=
    ⟨fun a b => le_total _ _⟩
  have htrans : IsTrans Redis.Ready fun left right =>
      toLex (left.dueAt, number left.id) ≤ toLex (right.dueAt, number right.id) :=
    ⟨fun _ _ _ => le_trans⟩
  rw [List.pairwise_map]
  have hsorted : (s.ready queues (stamp (some moment)) window level).Pairwise fun left right =>
      toLex (left.dueAt, number left.id) ≤ toLex (right.dueAt, number right.id) :=
    List.pairwise_insertionSort _ _
  refine hsorted.imp_of_mem fun {left right} hleft hright hle => ?_
  obtain ⟨a, ha, -, -, hlevel, hdue, -⟩ := h.represents.ready_spec hleft
  obtain ⟨b, hb, -, -, hlevel', hdue', -⟩ := h.represents.ready_spec hright
  have hsame : a.priority = b.priority := by
    have := congrArg intOf (hlevel.trans hlevel'.symm)
    simpa using this
  obtain ⟨rowa, hrowa, -, rfl⟩ := h.exists_row ha
  obtain ⟨rowb, hrowb, -, rfl⟩ := h.exists_row hb
  rw [double_of_natAbs_le (h.due _ _ (stored hrowa))] at hdue
  rw [double_of_natAbs_le (h.due _ _ (stored hrowb))] at hdue'
  simpa [Rows.claimKey, ha, hb, hsame, Prod.Lex.toLex_le_toLex, hdue, hdue'] using hle

theorem offered_sorted (h : Twins codec ρ m rows s) (queues : List String) (moment : Instant)
    (window : Nat) : (s.offered queues moment window).Pairwise fun a b =>
      rows.claimKey a ≤ rows.claimKey b := by
  rw [Redis.offered, List.pairwise_flatMap]
  refine ⟨fun level _ => h.ready_sorted queues moment window level, ?_⟩
  refine (levels_sorted s queues).imp fun {level level'} hlevels a ha b hb => ?_
  obtain ⟨entry, hentry, rfl⟩ := List.mem_map.mp ha
  obtain ⟨entry', hentry', rfl⟩ := List.mem_map.mp hb
  obtain ⟨run, hrow, -, -, rfl, -⟩ := h.represents.ready_spec hentry
  obtain ⟨run', hrow', -, -, rfl, -⟩ := h.represents.ready_spec hentry'
  obtain ⟨row, hmem, -, rfl⟩ := h.exists_row hrow
  obtain ⟨row', hmem', -, rfl⟩ := h.exists_row hrow'
  rw [number_repr, number_repr, double_of_natAbs_le (h.priority _ _ (stored hmem)),
    double_of_natAbs_le (h.priority _ _ (stored hmem'))] at hlevels
  have hlt : row'.priority < row.priority := by
    rcases hlevels with hlt | ⟨heq, hne⟩
    · exact hlt
    · rw [heq] at hne
      exact absurd rfl hne
  apply le_of_lt
  simp only [Rows.claimKey, hrow, hrow', Prod.Lex.toLex_lt_toLex]
  exact Or.inl (by omega)

theorem rising_offered (h : Twins codec ρ m rows s) (queues : List String) (moment : Instant)
    (window : Nat) : Rising rows.claimKey (collect [] (s.offered queues moment window)) := by
  apply rising_collect List.Pairwise.nil (h.offered_sorted queues moment window)
  intro a ha b hb heq
  obtain ⟨run, hrow, -⟩ := h.represents.mem_offered.1 ha
  obtain ⟨run', hrow', -⟩ := h.represents.mem_offered.1 hb
  obtain ⟨row, hmem, rfl, -⟩ := h.exists_row hrow
  obtain ⟨row', hmem', rfl, -⟩ := h.exists_row hrow'
  rw [h.claimKey_injective hmem hmem' heq]

theorem rising_ready (h : Twins codec ρ m rows s) (queues : List String) (moment : Instant) :
    Rising rows.claimKey ((m.ready queues moment).map (ρ ·.id)) := by
  refine List.pairwise_map.mpr
    ((memory_ready_rising m queues moment).imp_of_mem fun {a b} ha hb hlt => ?_)
  have hruns : ∀ {row}, row ∈ m.ready queues moment → row ∈ m.runs := fun hrow =>
    (MemoryStore.mem_ready.1 hrow).1
  exact (h.claimKey_lt_iff (hruns ha) (hruns hb)).2 hlt

end Twins

/-! ## Windows -/

/-- The order a lane is read in: by when a run came due, and then by the bytes of its id. -/
def laneKey (ρ : Nat → String) (row : Row Nat V) : Instant ×ₗ String :=
  toLex (row.dueAt, ρ row.id)

/-- How many waiting runs of the lane of a run its lane holds before it. -/
def crowd (ρ : Nat → String) (m : MemoryStore V) (row : Row Nat V) : Nat :=
  m.runs.countP fun r => r.status = .pending ∧ r.queue = row.queue ∧ r.priority = row.priority ∧
    laneKey ρ r < laneKey ρ row

/-- How many runs a claim puts before a run. -/
def before (m : MemoryStore V) (queues : List String) (moment : Instant) (row : Row Nat V) : Nat :=
  m.runs.countP fun r => MemoryStore.claimable queues moment r.toRun ∧
    MemoryStore.claimKey r < MemoryStore.claimKey row

/-- No run waiting in a served queue is due by the double of the moment and not by the moment. -/
def DueAlike (m : MemoryStore V) (queues : List String) (moment : Instant) : Prop :=
  ∀ row ∈ m.runs, row.status = .pending → row.queue ∈ queues →
    row.dueAt.micro ≤ double moment.micro → row.dueAt ≤ moment

/-- A run with fewer than `limit` before it stands within the window of its lane. -/
def Windowed (ρ : Nat → String) (m : MemoryStore V) (queues : List String) (limit : Nat)
    (moment : Instant) : Prop :=
  ∀ row ∈ m.runs, MemoryStore.claimable queues moment row.toRun = true →
    before m queues moment row < limit → crowd ρ m row < limit * claimSpread

instance (m : MemoryStore V) (queues : List String) (moment : Instant) :
    Decidable (DueAlike m queues moment) :=
  inferInstanceAs (Decidable (∀ row ∈ m.runs, _ → _ → _ → _))

instance (ρ : Nat → String) (m : MemoryStore V) (queues : List String) (limit : Nat)
    (moment : Instant) : Decidable (Windowed ρ m queues limit moment) :=
  inferInstanceAs (Decidable (∀ row ∈ m.runs, _ → _ → _))

theorem mem_chosen_iff {m : MemoryStore V} {queues : List String} {limit : Nat} {moment : Instant}
    {row : Row Nat V} : row ∈ m.chosen queues limit moment ↔ row ∈ m.runs ∧
      MemoryStore.claimable queues moment row.toRun = true ∧
        before m queues moment row < limit := by
  have hcount : (m.ready queues moment).countP
      (fun r => MemoryStore.claimKey r < MemoryStore.claimKey row) =
        before m queues moment row := by
    rw [MemoryStore.ready, (List.perm_insertionSort _ _).countP_eq, List.countP_filter, before]
    congr 1
    funext r
    simp [and_comm]
  rw [MemoryStore.chosen, (memory_ready_rising m queues moment).mem_take, hcount,
    MemoryStore.mem_ready, and_assoc]

namespace Twins

variable {ρ : Nat → String} {m : MemoryStore V}

theorem lane_lt_iff {a b : Row Nat V} :
    SortedSet.rank (ρ a.id, a.dueAt.micro) < SortedSet.rank (ρ b.id, b.dueAt.micro) ↔
      laneKey ρ a < laneKey ρ b := by
  simp only [SortedSet.rank, laneKey, Prod.Lex.toLex_lt_toLex, Instant.lt_def, Instant.ext_iff]

/-- What stands before a run in its lane, counted in Redis and in memory. -/
theorem ahead_eq (h : Twins codec ρ m rows s) {moment : Instant} {row : Row Nat V}
    (hrow : row ∈ m.runs) (hdue : row.dueAt.micro ≤ double moment.micro) :
    s.ahead moment row.toRun (ρ row.id) = crowd ρ m row := by
  have hkept : ∀ r ∈ m.runs, double r.dueAt.micro = r.dueAt.micro := fun r hr =>
    double_of_natAbs_le (h.due _ _ (stored hr))
  rw [Redis.ahead, crowd, List.countP_eq_length_filter, List.countP_eq_length_filter,
    ← List.length_map (fun r : Row Nat V => (ρ r.id, r.dueAt.micro))]
  refine List.Perm.length_eq ((List.perm_ext_iff_of_nodup ?_ ?_).2 fun e => ?_)
  · exact (SortedSet.rising_ranked _ _).nodup.filter _
  · refine List.Nodup.map_on (fun a ha b hb heq => ?_) ((m.ids_nodup.of_map _).filter _)
    have hra := (List.mem_filter.mp ha).1
    have hrb := (List.mem_filter.mp hb).1
    apply m.row_eq_of_id hra hrb
    apply h.renames.distinct _ _ (by rw [stored hra]; rfl) (by rw [stored hrb]; rfl)
    exact congrArg Prod.fst heq
  · obtain ⟨id, score⟩ := e
    rw [List.mem_filter, SortedSet.mem_ranked, h.represents.mem_lane, List.mem_map]
    constructor
    · rintro ⟨⟨⟨run, hrun, hpending, hqueue, hpriority, rfl⟩, -⟩, hlt⟩
      obtain ⟨r, hr, rfl, rfl⟩ := h.exists_row hrun
      have hsame : r.priority = row.priority := by
        have := congrArg intOf hpriority
        simpa using this
      rw [hkept r hr] at hlt ⊢
      rw [hkept row hrow] at hlt
      refine ⟨r, List.mem_filter.mpr ⟨hr, ?_⟩, rfl⟩
      simpa [hpending, hqueue, hsame] using lane_lt_iff.1 (of_decide_eq_true hlt)
    · rintro ⟨r, hmem, heq⟩
      obtain ⟨hr, hlane⟩ := List.mem_filter.mp hmem
      obtain ⟨hpending, hqueue, hpriority, hlt⟩ := of_decide_eq_true hlane
      cases heq
      refine ⟨⟨⟨r.toRun, h.row hr, hpending, hqueue, by rw [hpriority], hkept r hr⟩, ?_⟩, ?_⟩
      · -- a run before one that is due came due with it or earlier
        have hle : r.dueAt.micro ≤ row.dueAt.micro := by
          rcases Prod.Lex.toLex_lt_toLex.mp hlt with hlt | ⟨heq, -⟩
          · exact le_of_lt hlt
          · exact le_of_eq (congrArg Instant.micro heq)
        simpa [stamp] using hle.trans hdue
      · rw [hkept row hrow]
        exact decide_eq_true (lane_lt_iff.2 hlt)

/-! ## The answer -/

/-- What the script picks from is what is due in the served queues and within a window. -/
theorem mem_offered_iff (h : Twins codec ρ m rows s) {queues : List String} {moment : Instant}
    {window : Nat} {id : String} :
    id ∈ s.offered queues moment window ↔ ∃ row ∈ m.runs, ρ row.id = id ∧
      row.status = .pending ∧ row.queue ∈ queues ∧ row.dueAt.micro ≤ double moment.micro ∧
        crowd ρ m row < window := by
  rw [h.represents.mem_offered]
  constructor
  · rintro ⟨run, hrun, hpending, hqueue, hdue, hahead⟩
    obtain ⟨row, hrow, rfl, rfl⟩ := h.exists_row hrun
    rw [double_of_natAbs_le (h.due _ _ (stored hrow))] at hdue
    rw [h.ahead_eq hrow hdue] at hahead
    exact ⟨row, hrow, rfl, hpending, hqueue, hdue, hahead⟩
  · rintro ⟨row, hrow, rfl, hpending, hqueue, hdue, hcrowd⟩
    refine ⟨row.toRun, h.row hrow, hpending, hqueue, ?_, ?_⟩
    · rwa [double_of_natAbs_le (h.due _ _ (stored hrow))]
    · rwa [h.ahead_eq hrow hdue]

theorem due_double (h : Twins codec ρ m rows s) {row : Row Nat V} (hrow : row ∈ m.runs)
    {moment : Instant} (hdue : row.dueAt ≤ moment) : row.dueAt.micro ≤ double moment.micro := by
  have hbound := h.due _ _ (stored hrow)
  have hle : row.dueAt.micro ≤ moment.micro := hdue
  exact (le_double_iff hbound (by omega)).2 hle

/-- Where a run is due by the double of the moment alone, the moment is past what a double keeps
and nothing is due by it. -/
theorem none_due (h : Twins codec ρ m rows s) {row : Row Nat V} (hrow : row ∈ m.runs)
    {moment : Instant} (hdouble : row.dueAt.micro ≤ double moment.micro)
    (hlate : ¬ row.dueAt ≤ moment) (queues : List String) (limit : Nat) :
    m.chosen queues limit moment = [] := by
  have hbound := h.due _ _ (stored hrow)
  have hpast : moment.micro < -2 ^ 53 := by
    by_contra hmoment
    exact hlate ((le_double_iff hbound (by omega)).1 hdouble)
  have hnone : ∀ r, r ∉ m.chosen queues limit moment := by
    intro r hr
    obtain ⟨hmem, hclaimable, -⟩ := mem_chosen_iff.1 hr
    have hle : r.dueAt.micro ≤ moment.micro := (MemoryStore.claimable_iff.1 hclaimable).2.2
    have := h.due _ _ (stored hmem)
    omega
  exact List.eq_nil_iff_forall_not_mem.mpr hnone

/-- The ids the script takes are those of the memory store, in its order, exactly where the two
conditions hold. -/
theorem gather_eq_iff (h : Twins codec ρ m rows s) (queues : List String) {limit : Nat}
    (hlimit : 0 < limit) (moment : Instant) :
    gather limit [] (s.offered queues moment (limit * claimSpread)) =
        (m.chosen queues limit moment).map (ρ ·.id) ↔
      DueAlike m queues moment ∧ Windowed ρ m queues limit moment := by
  have hpositive : 0 < limit * claimSpread := by
    unfold claimSpread
    omega
  rw [gather_eq_take (Nat.zero_le _), MemoryStore.chosen, List.map_take]
  by_cases hdue : DueAlike m queues moment
  · have hsub : collect [] (s.offered queues moment (limit * claimSpread)) ⊆
        (m.ready queues moment).map (ρ ·.id) := by
      intro id hid
      rw [mem_collect] at hid
      obtain ⟨row, hrow, rfl, hpending, hqueue, hdouble, -⟩ :=
        h.mem_offered_iff.1 (hid.resolve_left List.not_mem_nil)
      refine List.mem_map.mpr ⟨row, MemoryStore.mem_ready.2 ⟨hrow, ?_⟩, rfl⟩
      exact MemoryStore.claimable_iff.2 ⟨hpending, hqueue, hdue row hrow hpending hqueue hdouble⟩
    have hready := h.rising_ready queues moment
    rw [take_eq_take_iff hready.nodup ((h.rising_offered _ _ _).sublist hready hsub),
      and_iff_right hdue, ← List.map_take, ← MemoryStore.chosen]
    constructor
    · intro hall row hrow hclaimable hbefore
      have hmem :=
        hall _ (List.mem_map.mpr ⟨row, mem_chosen_iff.2 ⟨hrow, hclaimable, hbefore⟩, rfl⟩)
      rw [mem_collect] at hmem
      obtain ⟨other, hother, hid, -, -, -, hcrowd⟩ :=
        h.mem_offered_iff.1 (hmem.resolve_left List.not_mem_nil)
      have hsame := m.row_eq_of_id hother hrow (h.renames.distinct _ _
        (by rw [stored hother]; rfl) (by rw [stored hrow]; rfl) hid)
      rwa [hsame] at hcrowd
    · intro hwindow id hid
      obtain ⟨row, hchosen, rfl⟩ := List.mem_map.mp hid
      obtain ⟨hrow, hclaimable, hbefore⟩ := mem_chosen_iff.1 hchosen
      obtain ⟨hpending, hqueue, hmoment⟩ := MemoryStore.claimable_iff.1 hclaimable
      rw [mem_collect]
      exact Or.inr (h.mem_offered_iff.2 ⟨row, hrow, rfl, hpending, hqueue,
        h.due_double hrow hmoment, hwindow row hrow hclaimable hbefore⟩)
  · refine iff_of_false (fun heq => hdue ?_) fun hboth => hdue hboth.1
    intro row hrow hpending hqueue hdouble
    by_contra hlate
    rw [← List.map_take, ← MemoryStore.chosen, h.none_due hrow hdouble hlate queues limit,
      List.map_nil, List.take_eq_nil_iff] at heq
    rcases heq with hzero | hempty
    · omega
    · have hkept := double_of_natAbs_le (h.due _ _ (stored hrow))
      obtain ⟨first, hfirst⟩ := h.represents.offered_of_due hpositive (h.row hrow) hpending hqueue
        (hkept.symm ▸ hdouble)
      have hmem : first ∈ collect [] (s.offered queues moment (limit * claimSpread)) :=
        mem_collect.2 (Or.inr hfirst)
      rw [hempty] at hmem
      cases hmem

/-! ## The claim -/

theorem room_of_row (h : Twins codec ρ m rows s) {id : String} {run : Run V}
    (hrow : rows id = some run) : Redis.Room run.attempts 1 := by
  obtain ⟨i, -, hstored⟩ := h.renames.onto _ _ hrow
  exact h.room i run hstored

/-- What the script answers for a row it took is the hash of the row as the memory store hands it
out. -/
theorem taking_eq (h : Twins codec ρ m rows s) (worker : String) (moment lease : Instant)
    {row : Row Nat V} (hrow : row ∈ m.runs) :
    taking codec rows worker moment lease (ρ row.id) =
      toHash codec (ρ row.id) (MemoryStore.handedOut worker moment lease row).toRun := by
  simp [taking, h.row hrow, MemoryStore.handedOut]

theorem taking_injective (worker : String) (moment lease : Instant)
    {ids ids' : List String} (hids : ∀ id ∈ ids, (rows id).isSome)
    (hids' : ∀ id ∈ ids', (rows id).isSome)
    (heq : ids.map (taking codec rows worker moment lease) =
      ids'.map (taking codec rows worker moment lease)) : ids = ids' := by
  have hid : ∀ id, (rows id).isSome → taking codec rows worker moment lease id .id = some id := by
    intro id hid
    obtain ⟨run, hrun⟩ := Option.isSome_iff_exists.mp hid
    simp [taking, hrun, toHash]
  have hread : ∀ ids : List String, (∀ id ∈ ids, (rows id).isSome) →
      (ids.map (taking codec rows worker moment lease)).map (· .id) = ids.map some := by
    intro ids hids
    rw [List.map_map]
    exact List.map_congr_left fun id hmem => hid id (hids id hmem)
  have := congrArg (List.map (· .id)) heq
  rw [hread ids hids, hread ids' hids'] at this
  exact List.map_injective_iff.mpr (Option.some_injective _) this

end Twins

/-- The script takes the runs the memory store takes, in its order, and leaves them as it does. -/
def ClaimsAlike (codec : Codec V) (ρ : Nat → String) (m : MemoryStore V) (s : Redis)
    (worker : String) (queues : List String) (limit : Nat) (lease : Int)
    (moment leaseEnd : Instant) : Prop :=
  ∃ taken left t rows', m.claim worker queues limit lease moment = (.ok taken, left) ∧
    s.CLAIM queues (stamp (some moment)) worker (stamp (some leaseEnd)) limit
        (limit * claimSpread) =
      (some (taken.map fun row => toHash codec (ρ row.id) row.toRun), t) ∧
    Represents codec rows' t ∧ Renames ρ left.rows rows'

/-- From states that hold the same runs the two claims are alike exactly where no waiting run is
due by the double of the moment alone and every run that belongs among the first `limit` stands
within the window of its lane. -/
theorem claimsAlike_iff {ρ : Nat → String} {m : MemoryStore V} (h : Twins codec ρ m rows s)
    (worker : String) (queues : List String) {limit : Nat} (hlimit : 0 < limit) {lease : Int}
    {moment leaseEnd : Instant} (hlease : moment.plus lease = some leaseEnd) :
    ClaimsAlike codec ρ m s worker queues limit lease moment leaseEnd ↔
      DueAlike m queues moment ∧ Windowed ρ m queues limit moment := by
  rw [← h.gather_eq_iff queues hlimit moment]
  obtain ⟨t, ht, hRt⟩ := h.represents.claim_spec queues worker moment leaseEnd limit
    (limit * claimSpread) fun id _ run hrow => h.room_of_row hrow
  have hstored : ∀ row ∈ m.chosen queues limit moment, row ∈ m.runs := fun row hrow =>
    (mem_chosen_iff.1 hrow).1
  have hanswer : ((m.chosen queues limit moment).map (ρ ·.id)).map
      (taking codec rows worker moment leaseEnd) =
        ((m.chosen queues limit moment).map (MemoryStore.handedOut worker moment leaseEnd)).map
          fun row => toHash codec (ρ row.id) row.toRun := by
    rw [List.map_map, List.map_map]
    exact List.map_congr_left fun row hrow => h.taking_eq worker moment leaseEnd (hstored row hrow)
  unfold ClaimsAlike
  rw [m.claim_of_plus worker queues limit hlease, ht]
  constructor
  · rintro ⟨taken, left, t', rows', hmemory, hredis, -, -⟩
    cases hmemory
    rw [Prod.mk.injEq, Option.some.injEq, ← hanswer] at hredis
    refine
      Twins.taking_injective worker moment leaseEnd (fun id hid => ?_) (fun id hid => ?_) hredis.1
    · obtain ⟨run, hrun, -⟩ := h.represents.mem_offered.1
        ((mem_of_gather hid).resolve_left List.not_mem_nil)
      rw [hrun]
      rfl
    · obtain ⟨row, hrow, rfl⟩ := List.mem_map.mp hid
      rw [h.row (hstored row hrow)]
      rfl
  · intro heq
    refine ⟨_, _, t, _, rfl, ?_, hRt, ?_⟩
    · rw [heq, hanswer]
    · rw [heq, MemoryStore.rows_amend]
      have hids : ∀ i ∈ (m.chosen queues limit moment).map (·.id), (m.rows i).isSome := by
        intro i hi
        obtain ⟨row, hrow, rfl⟩ := List.mem_map.mp hi
        rw [Twins.stored (hstored row hrow)]
        rfl
      have hrevised := h.renames.revise hids
        (fun run => some (MemoryStore.claimed worker moment leaseEnd run))
      rwa [List.map_map] at hrevised

/-! ## Stores that took the same writes -/

theorem number_tostring {n : Nat} (h : n < 10 ^ 14) : number (tostring n) = n := by
  have hrepr : n.repr = (n : Int).repr := rfl
  rw [tostring_of_lt h, hrepr, number_repr, double_of_natAbs_le (by omega)]

/-- The memory store that holds what the Redis store does, each run under the number its id was
written down from. -/
def memoryOf (rows : Rows String V) (sequence : Nat) : MemoryStore V where
  runs := (List.range (sequence + 1)).filterMap fun n =>
    (rows (tostring n)).map fun run => ⟨run, n⟩
  sequence := sequence
  ordered := by
    refine List.Pairwise.filterMap _ (fun a b hab row hrow row' hrow' => ?_)
      (List.pairwise_lt_range)
    obtain ⟨run, -, rfl⟩ := Option.map_eq_some_iff.mp hrow
    obtain ⟨run', -, rfl⟩ := Option.map_eq_some_iff.mp hrow'
    exact hab
  bounded := by
    intro row hrow
    obtain ⟨n, hn, hmap⟩ := List.mem_filterMap.mp hrow
    obtain ⟨run, -, rfl⟩ := Option.map_eq_some_iff.mp hmap
    exact Nat.lt_succ_iff.mp (List.mem_range.mp hn)

theorem rows_memoryOf {sequence i : Nat} {run : Run V} :
    (memoryOf rows sequence).rows i = some run ↔ i ≤ sequence ∧ rows (tostring i) = some run := by
  rw [MemoryStore.rows_eq_some, MemoryStore.get_eq_some]
  simp only [memoryOf, List.mem_filterMap, List.mem_range, Option.map_eq_some_iff, and_true]
  constructor
  · rintro ⟨n, hn, r, hr, heq⟩
    cases heq
    exact ⟨Nat.lt_succ_iff.mp hn, hr⟩
  · rintro ⟨hi, hrow⟩
    exact ⟨i, Nat.lt_succ_of_le hi, run, hrow, rfl⟩

/-- Every state whose ids are the texts of the numbers the counter came past, short of fifteen
digits, has a memory store that holds the same. -/
theorem twins_memoryOf (hR : Represents codec rows s) (hrows : Numbered rows s.sequence)
    (hlt : s.sequence < 10 ^ 14)
    (hdue : ∀ id run, rows id = some run → run.dueAt.micro.natAbs ≤ 2 ^ 53)
    (hpriority : ∀ id run, rows id = some run → run.priority.natAbs ≤ 2 ^ 53)
    (hroom : ∀ id run, rows id = some run → Redis.Room run.attempts 1) :
    Twins codec tostring (memoryOf rows s.sequence) rows s := by
  have hstored : ∀ i, ((memoryOf rows s.sequence).rows i).isSome → i ≤ s.sequence := by
    intro i hi
    obtain ⟨run, hrun⟩ := Option.isSome_iff_exists.mp hi
    exact (rows_memoryOf.1 hrun).1
  refine ⟨hR, ⟨fun i run hrun => (rows_memoryOf.1 hrun).2, fun id run hrow => ?_,
    fun i j hi hj heq => ?_⟩, fun i j hi hj hij => ?_, fun i run hrun => ?_, fun i run hrun => ?_,
    fun i run hrun => ?_⟩
  · obtain ⟨n, hn, rfl⟩ := hrows id (by rw [hrow]; rfl)
    exact ⟨n, rfl, rows_memoryOf.2 ⟨hn, hrow⟩⟩
  · have := hstored i hi
    have := hstored j hj
    exact tostring_inj (by omega) (by omega) heq
  · have := hstored i hi
    have := hstored j hj
    rw [number_tostring (by omega), number_tostring (by omega)]
    omega
  · exact hdue _ run (rows_memoryOf.1 hrun).2
  · exact hpriority _ run (rows_memoryOf.1 hrun).2
  · exact hroom _ run (rows_memoryOf.1 hrun).2

namespace Twins

variable {m : MemoryStore V}

theorem empty (codec : Codec V) :
    Twins codec tostring MemoryStore.empty (fun _ => none) Redis.empty := by
  have hnone : ∀ i, (MemoryStore.empty : MemoryStore V).rows i = none := fun _ => rfl
  refine ⟨.empty codec, ⟨?_, ?_, ?_⟩, ?_, ?_, ?_, ?_⟩ <;> simp [hnone]

theorem write (h : Twins codec tostring m rows s) (hsequence : m.sequence = s.sequence)
    (hlt : m.sequence + 1 < 10 ^ 14) {run : Run V} (hkey : run.key = none)
    (hdue : run.dueAt.micro.natAbs ≤ 2 ^ 53) (hpriority : run.priority.natAbs ≤ 2 ^ 53)
    (hroom : Redis.Room run.attempts 1) :
    ∃ rows', Twins codec tostring (m.write run) rows' (RedisStore.add codec s run).2 := by
  have hfree : run.key.getD "" ≠ "" → s.keys (run.key.getD "") = none := by simp [hkey]
  have hpast : ∀ i, (m.rows i).isSome → i ≤ m.sequence := by
    intro i hi
    obtain ⟨r, hr⟩ := Option.isSome_iff_exists.mp hi
    exact MemoryStore.get_le_sequence (MemoryStore.rows_eq_some.1 hr)
  have hnew : m.rows (m.sequence + 1) = none := by
    by_contra hne
    have := hpast _ (Option.isSome_iff_ne_none.mpr hne)
    omega
  have hunused : rows (tostring (s.sequence + 1)) = none := by
    by_contra hne
    obtain ⟨r, hr⟩ := Option.ne_none_iff_exists'.mp hne
    obtain ⟨i, hi, hrow⟩ := h.renames.onto _ _ hr
    have hle := hpast i (by rw [hrow]; rfl)
    have := tostring_inj (by omega) (by omega) hi
    omega
  have hrenames := h.renames.write hnew hunused run
  rw [← hsequence, Function.update_eq_self, ← MemoryStore.rows_write] at hrenames
  have hspec := (h.represents.add_spec hfree (by omega) hunused).2
  rw [← hsequence] at hspec
  have hbounds : ∀ i r, (m.write run).rows i = some r → m.rows i = some r ∨ r = run := by
    intro i r hr
    rw [MemoryStore.rows_write] at hr
    by_cases hi : i = m.sequence + 1
    · subst hi
      exact Or.inr (by simpa using hr.symm)
    · exact Or.inl (by simpa [hi] using hr)
  have hids : ∀ i, ((m.write run).rows i).isSome → i ≤ m.sequence + 1 := by
    intro i hi
    obtain ⟨r, hr⟩ := Option.isSome_iff_exists.mp hi
    exact MemoryStore.get_le_sequence (MemoryStore.rows_eq_some.1 hr)
  refine ⟨_, hspec, hrenames, fun i j hi hj hij => ?_, fun i r hr => ?_, fun i r hr => ?_,
    fun i r hr => ?_⟩
  · have hi' := hids i hi
    have hj' := hids j hj
    rw [number_tostring (by omega), number_tostring (by omega)]
    omega
  · rcases hbounds i r hr with hold | rfl
    · exact h.due i r hold
    · exact hdue
  · rcases hbounds i r hr with hold | rfl
    · exact h.priority i r hold
    · exact hpriority
  · rcases hbounds i r hr with hold | rfl
    · exact h.room i r hold
    · exact hroom

theorem writes (h : Twins codec tostring m rows s) (hsequence : m.sequence = s.sequence)
    {runs : List (Run V)} (hlt : m.sequence + runs.length < 10 ^ 14)
    (hkey : ∀ run ∈ runs, run.key = none) (hdue : ∀ run ∈ runs, run.dueAt.micro.natAbs ≤ 2 ^ 53)
    (hpriority : ∀ run ∈ runs, run.priority.natAbs ≤ 2 ^ 53)
    (hroom : ∀ run ∈ runs, Redis.Room run.attempts 1) :
    ∃ rows' t, runAll (RedisStore.step codec) s (runs.map .add) = some t ∧
      Twins codec tostring (runs.foldl MemoryStore.write m) rows' t := by
  induction runs generalizing m rows s with
  | nil => exact ⟨rows, s, rfl, h⟩
  | cons run rest ih =>
      simp only [List.length_cons] at hlt
      have hkey' := hkey run List.mem_cons_self
      obtain ⟨rows', hrun⟩ := h.write hsequence (by omega) hkey' (hdue run List.mem_cons_self)
        (hpriority run List.mem_cons_self) (hroom run List.mem_cons_self)
      have hfree : run.key.getD "" ≠ "" → s.keys (run.key.getD "") = none := by simp [hkey']
      have hnext : (m.write run).sequence = (RedisStore.add codec s run).2.sequence := by
        obtain ⟨t, ht, hadded⟩ := Redis.ADD_of_free hfree (by omega)
          (RedisStore.fieldsOf codec run) run.queue run.priority.repr
          (RedisStore.waitingIn run).1 (RedisStore.waitingIn run).2
        have hwritten : (RedisStore.add codec s run).2 = t := by simp only [RedisStore.add, ht]
        rw [hwritten, hadded.sequence, ← hsequence]
        rfl
      have hrest : (m.write run).sequence + rest.length < 10 ^ 14 := by
        have : (m.write run).sequence = m.sequence + 1 := rfl
        omega
      exact ih hrun hnext hrest (fun r hr => hkey r (List.mem_cons_of_mem run hr))
        (fun r hr => hdue r (List.mem_cons_of_mem run hr))
        (fun r hr => hpriority r (List.mem_cons_of_mem run hr))
        (fun r hr => hroom r (List.mem_cons_of_mem run hr))

end Twins

namespace Plain

/-- Eight runs for later and then a number of runs for now. -/
def tied (n : Nat) : List (Run Unit) :=
  List.replicate 8 (run "mail" 0 ⟨60000000, by decide, by decide⟩) ++
    List.replicate n (run "mail" 0 Instant.epoch)

theorem tied_twins {n : Nat} (hn : n ≤ 100) :
    ∃ rows s, runAll (RedisStore.step Plain.codec) Redis.empty ((tied n).map .add) = some s ∧
      Twins Plain.codec tostring ((tied n).foldl MemoryStore.write MemoryStore.empty) rows s := by
  have hrun : ∀ r ∈ tied n, r.key = none ∧ r.dueAt.micro.natAbs ≤ 2 ^ 53 ∧
      r.priority.natAbs ≤ 2 ^ 53 ∧ r.attempts = 0 := by
    intro r hr
    rcases List.mem_append.mp hr with h | h <;> rw [List.eq_of_mem_replicate h] <;> decide
  have hroom : ∀ r ∈ tied n, Redis.Room r.attempts 1 := by
    intro r hr
    rw [(hrun r hr).2.2.2]
    constructor <;> decide
  refine (Twins.empty Plain.codec).writes rfl ?_ (fun r hr => (hrun r hr).1)
    (fun r hr => (hrun r hr).2.1) (fun r hr => (hrun r hr).2.2.1) hroom
  simp only [MemoryStore.empty, tied, List.length_append, List.length_replicate]
  omega

end Plain

/-- Four runs of one instant stand within a window of five, whatever the order of their ids. -/
theorem claimsAlike_tied : ∃ rows s,
    runAll (RedisStore.step Plain.codec) Redis.empty ((Plain.tied 4).map .add) = some s ∧
      Twins Plain.codec tostring ((Plain.tied 4).foldl MemoryStore.write MemoryStore.empty) rows s ∧
      ClaimsAlike Plain.codec tostring
        ((Plain.tied 4).foldl MemoryStore.write MemoryStore.empty) s "worker" ["mail"] 1 30000000
        Instant.epoch ⟨30000000, by decide, by decide⟩ := by
  obtain ⟨rows, s, hs, h⟩ := Plain.tied_twins (n := 4) (by decide)
  refine ⟨rows, s, hs, h, ?_⟩
  exact (claimsAlike_iff h "worker" ["mail"] (by decide) (by decide)).2
    ⟨by decide +kernel, by decide +kernel⟩

/-- Six runs of one instant do not: the ids from ten to fourteen come before nine by their bytes
and fill the window of a claim of one run, which takes the tenth. -/
theorem claims_of_six_differ : ∃ rows s,
    Reach (RedisStore.step Plain.codec) Unconditional Redis.empty s ∧
    Twins Plain.codec tostring ((Plain.tied 6).foldl MemoryStore.write MemoryStore.empty) rows s ∧
      ¬ ClaimsAlike Plain.codec tostring
        ((Plain.tied 6).foldl MemoryStore.write MemoryStore.empty) s "worker" ["mail"] 1 30000000
        Instant.epoch ⟨30000000, by decide, by decide⟩ := by
  obtain ⟨rows, s, hs, h⟩ := Plain.tied_twins (n := 6) (by decide)
  refine ⟨rows, s, .of_runAll .start hs, h, ?_⟩
  rintro ⟨taken, left, t, rows', hmemory, hredis, -, -⟩
  have hninth : (((Plain.tied 6).foldl MemoryStore.write MemoryStore.empty).claim "worker" ["mail"]
      1 30000000 Instant.epoch).1.map (List.map (·.id)) = .ok [9] := by
    decide +kernel
  have htenth : (runAll (RedisStore.step Plain.codec) Redis.empty ((Plain.tied 6).map .add)).map
      (fun s => (s.CLAIM ["mail"] (stamp (some Instant.epoch)) "worker" "30000000" 1
        (1 * claimSpread)).1.map (List.map (· .id))) = some (some [some "10"]) := by
    decide +kernel
  rw [hmemory] at hninth
  have hids : taken.map (·.id) = [9] := by simpa [Except.map] using hninth
  have hlease : stamp (some ⟨30000000, by decide, by decide⟩) = "30000000" := by decide
  rw [hs, Option.map_some, ← hlease, hredis] at htenth
  have hnames : taken.map (fun row => some (tostring row.id)) = [some "10"] := by
    simpa [toHash, Function.comp_def] using htenth
  have hsame := congrArg (List.map fun id => some (tostring id)) hids
  rw [List.map_map] at hsame
  exact absurd (hsame.symm.trans hnames) (by decide +kernel)

end Queuefy
