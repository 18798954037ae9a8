import Queuefy.Store.Base
import Queuefy.Store.Renaming

/-! # What a store is for

A store is a map from ids to runs, and every call is one step of it: a run is written under a new
id, one run that is in the state the call asks for becomes another, or a batch of runs changes or
goes. Nothing of it depends on how a store names its runs, so two stores that do this answer alike
for ever once they hold the same.
-/

namespace Queuefy

variable {ι κ V : Type}

open MemoryStore (beaten completed failed requeued calledOff takenBack expired isOver)

/-- The attempt that holds a run. -/
def Held (worker : String) (attempt : Int) (run : Run V) : Prop :=
  run.worker = some worker ∧ run.status = .running ∧ run.attempts = attempt

/-- What a call about one run asks of it and makes of it. -/
structure Ask (ι V : Type) where
  id : ι
  condition : Run V → Prop
  becomes : Run V → Run V

def Request.ask : Request ι V → Option (Ask ι V)
  | .heartbeat id worker attempt lease moment =>
      (moment.plus lease).map fun leaseEnd => ⟨id, Held worker attempt, beaten leaseEnd⟩
  | .complete id worker attempt moment result =>
      some ⟨id, Held worker attempt, completed moment result⟩
  | .fail id worker attempt moment error errorType =>
      some ⟨id, Held worker attempt, failed moment error errorType⟩
  | .retryLater id worker attempt dueAt error errorType =>
      some ⟨id, Held worker attempt, requeued dueAt error errorType 0⟩
  | .release id worker attempt dueAt error errorType =>
      some ⟨id, Held worker attempt, requeued dueAt error errorType (-1)⟩
  | .cancel id moment => some ⟨id, fun run => run.status = .pending, calledOff moment⟩
  | .add _ | .claim .. | .reclaim _ | .purge .. | .find _ | .get _ => none

/-- The ids of the runs that meet a condition, each once. -/
structure Lists (rows : Rows ι V) (P : Run V → Prop) (ids : List ι) : Prop where
  nodup : ids.Nodup
  mem : ∀ id, id ∈ ids ↔ ∃ run, rows id = some run ∧ P run

theorem Lists.stored {rows : Rows ι V} {P : Run V → Prop} {ids : List ι} (h : Lists rows P ids) :
    ∀ i ∈ ids, (rows i).isSome := by
  intro i hi
  obtain ⟨run, hrun, -⟩ := (h.mem i).1 hi
  rw [hrun]
  rfl

/-- No more runs meet a condition than a number. -/
def AtMost (rows : Rows ι V) (P : Run V → Prop) (n : Nat) : Prop :=
  ∀ ids, Lists rows P ids → ids.length ≤ n

/-- One call on a store that holds `rows`; `fresh` is the id a run would be written under. -/
inductive Performs [DecidableEq ι] (fresh : ι) (rows : Rows ι V) :
    Request ι V → Answer ι V → Rows ι V → Prop
  | written {run : Run V} :
      (∀ i r, rows i = some r → run.key.isSome → r.key ≠ run.key) →
      Performs fresh rows (.add run) (.row (some ⟨run, fresh⟩))
        (Function.update rows fresh (some run))
  | refused {run r : Run V} {i : ι} : run.key.isSome → rows i = some r → r.key = run.key →
      Performs fresh rows (.add run) (.row none) rows
  | held {q : Request ι V} {ask : Ask ι V} {run : Run V} : q.ask = some ask →
      rows ask.id = some run → ask.condition run →
      Performs fresh rows q (.told (.ok true))
        (Function.update rows ask.id (some (ask.becomes run)))
  | unheld {q : Request ι V} {ask : Ask ι V} : q.ask = some ask →
      (∀ run, rows ask.id = some run → ¬ ask.condition run) →
      Performs fresh rows q (.told (.ok false)) rows
  | reclaimed {moment : Instant} {ids : List ι} :
      Lists rows (fun run => expired moment run = true) ids →
      Performs fresh rows (.reclaim moment) (.counted ids.length)
        (rows.revise ids fun run => some (takenBack moment run))
  | purged {before : Instant} {limit : Nat} {ids : List ι} :
      Lists rows (fun run => isOver before run = true) ids →
      Performs fresh rows (.purge before limit) (.counted ids.length)
        (rows.revise ids fun _ => none)
  | found {key : String} {id : ι} {run : Run V} : rows id = some run → run.key = some key →
      Performs fresh rows (.find key) (.row (some ⟨run, id⟩)) rows
  | unfound {key : String} : (∀ id run, rows id = some run → run.key ≠ some key) →
      Performs fresh rows (.find key) (.row none) rows
  | got {id : ι} {run : Run V} : rows id = some run →
      Performs fresh rows (.get id) (.row (some ⟨run, id⟩)) rows
  | missing {id : ι} : rows id = none → Performs fresh rows (.get id) (.row none) rows

/-! ## Under other names -/

/-- The same call about the run of another id. -/
def Request.rename (f : ι → κ) : Request ι V → Request κ V
  | .add run => .add run
  | .claim worker queues limit lease moment => .claim worker queues limit lease moment
  | .heartbeat id worker attempt lease moment => .heartbeat (f id) worker attempt lease moment
  | .complete id worker attempt moment result => .complete (f id) worker attempt moment result
  | .fail id worker attempt moment error errorType =>
      .fail (f id) worker attempt moment error errorType
  | .retryLater id worker attempt dueAt error errorType =>
      .retryLater (f id) worker attempt dueAt error errorType
  | .release id worker attempt dueAt error errorType =>
      .release (f id) worker attempt dueAt error errorType
  | .reclaim moment => .reclaim moment
  | .cancel id moment => .cancel (f id) moment
  | .purge before limit => .purge before limit
  | .find key => .find key
  | .get id => .get (f id)

def Ask.rename (f : ι → κ) (ask : Ask ι V) : Ask κ V := ⟨f ask.id, ask.condition, ask.becomes⟩

theorem ask_rename (f : ι → κ) (q : Request ι V) :
    (q.rename f).ask = q.ask.map (Ask.rename f) := by
  cases q with
  | heartbeat id worker attempt lease moment =>
      simp only [Request.rename, Request.ask]
      cases moment.plus lease <;> rfl
  | _ => rfl

theorem ask_heartbeat {id : ι} {worker : String} {attempt lease : Int} {moment leaseEnd : Instant}
    (hlease : moment.plus lease = some leaseEnd) :
    (Request.heartbeat id worker attempt lease moment : Request ι V).ask =
      some ⟨id, Held worker attempt, beaten leaseEnd⟩ := by
  simp only [Request.ask, hlease, Option.map_some]

/-- The ids a call names, where it names any. -/
def Request.names : Request ι V → ι → Prop
  | .heartbeat id .., i | .complete id .., i | .fail id .., i | .retryLater id .., i
  | .release id .., i | .cancel id _, i | .get id, i => i = id
  | .add _, _ | .claim .., _ | .reclaim _, _ | .purge .., _ | .find _, _ => False

theorem names_ask {q : Request ι V} {ask : Ask ι V} (h : q.ask = some ask) : q.names ask.id := by
  cases q with
  | heartbeat id worker attempt lease moment =>
      obtain ⟨leaseEnd, -, rfl⟩ := Option.map_eq_some_iff.mp h
      rfl
  | add | claim | reclaim | purge | find | get => cases h
  | _ =>
      cases h
      rfl

/-- `f` takes the ids a call names to the ids of the same runs, and one without a run to one that
is free. -/
def Follows (ρ : ι → κ) (rows : Rows ι V) (free : κ → Prop) (f : ι → κ) (q : Request ι V) : Prop :=
  ∀ i, q.names i → ((rows i).isSome → f i = ρ i) ∧ (rows i = none → free (f i))

variable {ρ : ι → κ} {rows : Rows ι V} {rows' : Rows κ V}

namespace Renames

theorem stored_iff (h : Renames ρ rows rows') {i : ι} (hi : (rows i).isSome) (run : Run V) :
    rows' (ρ i) = some run ↔ rows i = some run := by
  obtain ⟨old, hold⟩ := Option.isSome_iff_exists.mp hi
  rw [h.kept i old hold, hold]

/-- The run of an id a call names is the run of the name it goes by there. -/
theorem follows_iff (h : Renames ρ rows rows') {f : ι → κ} {q : Request ι V}
    (hf : Follows ρ rows (fun k => rows' k = none) f q) {i : ι} (hi : q.names i) (run : Run V) :
    rows' (f i) = some run ↔ rows i = some run := by
  obtain ⟨hsome, hnone⟩ := hf i hi
  cases hrow : rows i with
  | none => rw [hnone hrow]
  | some old =>
      have hstored : (rows i).isSome := by rw [hrow]; rfl
      rw [hsome hstored, h.stored_iff hstored, hrow]

theorem lists_perm (h : Renames ρ rows rows') {P : Run V → Prop} {ids : List ι} {ids' : List κ}
    (hl : Lists rows P ids) (hl' : Lists rows' P ids') : (ids.map ρ).Perm ids' := by
  refine (List.perm_ext_iff_of_nodup ?_ hl'.nodup).2 fun k => ?_
  · exact hl.nodup.map_on fun i hi j hj heq =>
      h.distinct i j (hl.stored i hi) (hl.stored j hj) heq
  · rw [List.mem_map, hl'.mem]
    constructor
    · rintro ⟨i, hi, rfl⟩
      obtain ⟨run, hrun, hP⟩ := (hl.mem i).1 hi
      exact ⟨run, h.kept i run hrun, hP⟩
    · rintro ⟨run, hrun, hP⟩
      obtain ⟨i, rfl, hi⟩ := h.onto k run hrun
      exact ⟨i, (hl.mem i).2 ⟨run, hi, hP⟩, rfl⟩

end Renames

section

variable [DecidableEq κ]

theorem revise_perm {ids ids' : List κ} (h : ids.Perm ids') (g : Run V → Option (Run V)) :
    rows'.revise ids g = rows'.revise ids' g := by
  funext k
  simp only [Rows.revise, h.mem_iff]

theorem Performs.of_ask {fresh : κ} {q : Request κ V} {a : Answer κ V} {t : Rows κ V}
    {ask : Ask κ V} (h : Performs fresh rows' q a t) (hask : q.ask = some ask) :
    (∃ run, rows' ask.id = some run ∧ ask.condition run ∧ a = .told (.ok true) ∧
      t = Function.update rows' ask.id (some (ask.becomes run))) ∨
    ((∀ run, rows' ask.id = some run → ¬ ask.condition run) ∧ a = .told (.ok false) ∧
      t = rows') := by
  cases h with
  | held hask' hrow hcond =>
      obtain rfl := Option.some.inj (hask.symm.trans hask')
      exact Or.inl ⟨_, hrow, hcond, rfl, rfl⟩
  | unheld hask' hnot =>
      obtain rfl := Option.some.inj (hask.symm.trans hask')
      exact Or.inr ⟨hnot, rfl, rfl⟩
  | written | refused | reclaimed | purged | found | unfound | got | missing => cases hask

end

/-- No two runs carry one key. -/
def Unique (rows : Rows ι V) : Prop :=
  ∀ i j r r', rows i = some r → rows j = some r' → r.key.isSome → r.key = r'.key → i = j

theorem Renames.update [DecidableEq ι] [DecidableEq κ] (h : Renames ρ rows rows') {i : ι}
    (hi : (rows i).isSome) (new : Run V) :
    Renames ρ (Function.update rows i (some new)) (Function.update rows' (ρ i) (some new)) := by
  obtain ⟨old, hold⟩ := Option.isSome_iff_exists.mp hi
  have hids : ∀ j ∈ [i], (rows j).isSome := fun j hj => by rwa [List.mem_singleton.mp hj]
  have hone := h.revise hids fun _ => some new
  rwa [List.map_singleton, Rows.revise_singleton, Rows.revise_singleton, hold, h.kept i old hold,
    Option.bind_some] at hone

section

variable [DecidableEq ι] [DecidableEq κ] {q : Request ι V} {f : ι → κ} {fresh : ι} {fresh' : κ}
  {a : Answer ι V} {a' : Answer κ V} {t : Rows ι V} {t' : Rows κ V}

theorem Performs.renamed_ask (h : Renames ρ rows rows')
    (hf : Follows ρ rows (fun k => rows' k = none) f q) {ask : Ask ι V} (hask : q.ask = some ask)
    (hp : Performs fresh rows q a t) (hp' : Performs fresh' rows' (q.rename f) a' t') :
    a' = a.rename ρ ∧ Renames ρ t t' := by
  have hask' : (q.rename f).ask = some (ask.rename f) := by
    rw [ask_rename, hask, Option.map_some]
  have hsame := h.follows_iff hf (names_ask hask)
  rcases hp.of_ask hask with ⟨run, hrow, hcond, rfl, rfl⟩ | ⟨hnot, rfl, rfl⟩
  · rcases hp'.of_ask hask' with ⟨run', hrow', hcond', rfl, rfl⟩ | ⟨hnot', -, -⟩
    · have hstored : (rows ask.id).isSome := by rw [hrow]; rfl
      have hid : (ask.rename f).id = ρ ask.id := (hf ask.id (names_ask hask)).1 hstored
      obtain rfl := Option.some.inj (hrow.symm.trans ((hsame run').1 hrow'))
      exact ⟨rfl, hid ▸ h.update hstored _⟩
    · exact absurd hcond (hnot' run ((hsame run).2 hrow))
  · rcases hp'.of_ask hask' with ⟨run', hrow', hcond', -, -⟩ | ⟨-, rfl, rfl⟩
    · exact absurd hcond' (hnot run' ((hsame run').1 hrow'))
    · exact ⟨rfl, h⟩

theorem Performs.renamed_add (h : Renames ρ rows rows') {run : Run V} (hfresh : rows fresh = none)
    (hfresh' : (∀ k r, rows' k = some r → run.key.isSome → r.key ≠ run.key) →
      rows' (ρ fresh) = none)
    (hp : Performs fresh rows (.add run) a t) (hp' : Performs (ρ fresh) rows' (.add run) a' t') :
    a' = a.rename ρ ∧ Renames ρ t t' := by
  cases hp with
  | held hask | unheld hask => cases hask
  | written hfree =>
      cases hp' with
      | held hask | unheld hask => cases hask
      | written hfree' =>
          have hwrite := h.write hfresh (hfresh' hfree') run
          rw [Function.update_eq_self] at hwrite
          exact ⟨rfl, hwrite⟩
      | refused hkey hrow hsame =>
          obtain ⟨i, -, hi⟩ := h.onto _ _ hrow
          exact absurd hsame (hfree i _ hi hkey)
  | refused hkey hrow hsame =>
      cases hp' with
      | held hask | unheld hask => cases hask
      | written hfree' => exact absurd hsame (hfree' _ _ (h.kept _ _ hrow) hkey)
      | refused => exact ⟨rfl, h⟩

theorem Renames.batch (h : Renames ρ rows rows') {P : Run V → Prop} {ids : List ι}
    {ids' : List κ} (hids : Lists rows P ids) (hids' : Lists rows' P ids')
    (g : Run V → Option (Run V)) :
    (.counted ids'.length : Answer κ V) = (Answer.counted ids.length : Answer ι V).rename ρ ∧
      Renames ρ (rows.revise ids g) (rows'.revise ids' g) := by
  have hperm := h.lists_perm hids hids'
  refine ⟨?_, revise_perm hperm g ▸ h.revise hids.stored g⟩
  rw [← hperm.length_eq, List.length_map]
  rfl

theorem Performs.renamed_find (h : Renames ρ rows rows') (hunique : Unique rows) {key : String}
    (hp : Performs fresh rows (.find key) a t) (hp' : Performs fresh' rows' (.find key) a' t') :
    a' = a.rename ρ ∧ Renames ρ t t' := by
  cases hp with
  | held hask | unheld hask => cases hask
  | found hrow hkey =>
      cases hp' with
      | held hask | unheld hask => cases hask
      | found hrow' hkey' =>
          obtain ⟨i, rfl, hi⟩ := h.onto _ _ hrow'
          obtain rfl := hunique _ _ _ _ hrow hi (by rw [hkey]; rfl) (hkey.trans hkey'.symm)
          obtain rfl := Option.some.inj (hrow.symm.trans hi)
          exact ⟨rfl, h⟩
      | unfound hnone => exact absurd hkey (hnone _ _ (h.kept _ _ hrow))
  | unfound hnone =>
      cases hp' with
      | held hask | unheld hask => cases hask
      | found hrow' hkey' =>
          obtain ⟨i, -, hi⟩ := h.onto _ _ hrow'
          exact absurd hkey' (hnone _ _ hi)
      | unfound => exact ⟨rfl, h⟩

theorem Performs.renamed_get (h : Renames ρ rows rows') {id : ι}
    (hf : Follows ρ rows (fun k => rows' k = none) f (.get id : Request ι V))
    (hp : Performs fresh rows (.get id) a t) (hp' : Performs fresh' rows' (.get (f id)) a' t') :
    a' = a.rename ρ ∧ Renames ρ t t' := by
  have hsame := h.follows_iff hf (i := id) rfl
  cases hp with
  | held hask | unheld hask => cases hask
  | @got _ run hrow =>
      have hid := (hf id rfl).1 (by rw [hrow]; rfl)
      cases hp' with
      | held hask | unheld hask => cases hask
      | got hrow' =>
          obtain rfl := Option.some.inj (hrow.symm.trans ((hsame _).1 hrow'))
          exact ⟨by simp [Answer.rename, Row.rename, hid], h⟩
      | missing hnone => rw [(hsame run).2 hrow] at hnone; cases hnone
  | missing hnone =>
      cases hp' with
      | held hask | unheld hask => cases hask
      | got hrow' => rw [(hf id rfl).2 hnone] at hrow'; cases hrow'
      | missing => exact ⟨rfl, h⟩

/-- Two stores that hold the same runs under names that are settled beforehand, and do what a store
is for, answer one call alike and hold the same runs after it, under the same names. -/
theorem Performs.renamed (h : Renames ρ rows rows') (hunique : Unique rows)
    (hf : Follows ρ rows (fun k => rows' k = none) f q) (hfresh : rows fresh = none)
    (hfresh' : ∀ run, q = .add run →
      (∀ k r, rows' k = some r → run.key.isSome → r.key ≠ run.key) → rows' (ρ fresh) = none)
    (hp : Performs fresh rows q a t) (hp' : Performs (ρ fresh) rows' (q.rename f) a' t') :
    a' = a.rename ρ ∧ Renames ρ t t' := by
  cases hask : q.ask with
  | some ask => exact hp.renamed_ask h hf hask hp'
  | none =>
      cases q with
      | add run => exact hp.renamed_add h hfresh (hfresh' run rfl) hp'
      | find key => exact hp.renamed_find h hunique hp'
      | get id => exact hp.renamed_get h hf hp'
      | reclaim moment =>
          cases hp with
          | held hask' | unheld hask' => cases hask'
          | reclaimed hids =>
              cases hp' with
              | held hask' | unheld hask' => cases hask'
              | reclaimed hids' => exact h.batch hids hids' _
      | purge before limit =>
          cases hp with
          | held hask' | unheld hask' => cases hask'
          | purged hids =>
              cases hp' with
              | held hask' | unheld hask' => cases hask'
              | purged hids' => exact h.batch hids hids' _
      | claim | heartbeat =>
          cases hp with
          | held hask' | unheld hask' => exact absurd (hask'.symm.trans hask) (by simp)
      | complete | fail | retryLater | release | cancel => cases hask

end

/-- Two stores that hold the same runs and do what a store is for answer one call alike and hold
the same runs after it. -/
theorem Performs.rename [DecidableEq ι] [DecidableEq κ] (h : Renames ρ rows rows')
    (hunique : Unique rows) {q : Request ι V} {f : ι → κ}
    (hf : Follows ρ rows (fun k => rows' k = none) f q)
    {fresh : ι} {fresh' : κ} (hfresh : rows fresh = none)
    (hfresh' : ∀ run, q = .add run →
      (∀ k r, rows' k = some r → run.key.isSome → r.key ≠ run.key) → rows' fresh' = none)
    {a : Answer ι V} {a' : Answer κ V} {t : Rows ι V} {t' : Rows κ V}
    (hp : Performs fresh rows q a t) (hp' : Performs fresh' rows' (q.rename f) a' t') :
    ∃ ρ', a' = a.rename ρ' ∧ Renames ρ' t t' := by
  have hother : ∀ {i}, (rows i).isSome → Function.update ρ fresh fresh' i = ρ i := by
    intro i hi
    refine Function.update_of_ne ?_ _ _
    rintro rfl
    rw [hfresh] at hi
    cases hi
  have hnamed := h.congr fun i hi => (hother hi).symm
  have hfollows : Follows (Function.update ρ fresh fresh') rows (fun k => rows' k = none) f q :=
    fun i hi => ⟨fun hsome => ((hf i hi).1 hsome).trans (hother hsome).symm, (hf i hi).2⟩
  have hself : Function.update ρ fresh fresh' fresh = fresh' := Function.update_self _ _ _
  rw [← hself] at hfresh' hp'
  exact ⟨_, hp.renamed hnamed hunique hfollows hfresh hfresh' hp'⟩

end Queuefy
