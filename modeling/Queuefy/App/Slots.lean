import Queuefy.App.Refused

/-! # The slots of a recurring task

What `register` lets through, `materialize` can write. The guards are measured once, against the
widest span and the last instant there is, and what is written is every slot a task will ever have.
-/

namespace Queuefy.Gate

open Json

/-! ## The next slot of an interval -/

/-- A number of microseconds as a `timedelta`. -/
def spanOf (micro : Int) : Except Raised Timedelta :=
  if h : -86399999913600000000 ≤ micro ∧ micro ≤ 86399999999999999999 then .ok ⟨micro, h.1, h.2⟩
  else .error .overflowError

/-- `moment + span`. -/
def shifted (moment : Instant) (span : Timedelta) : Except Raised Instant :=
  match moment.plus span.micro with
  | some moment => .ok moment
  | none => .error .overflowError

/-- `Interval.span`. -/
def Every.span (every : Every) : Except Raised Timedelta := spanOf (microseconds every.seconds)

/-- `Interval.next_after`, every step of it held to the range of what it makes. -/
def Every.nextAfter (every : Every) (moment : Instant) : Except Raised Instant := do
  let span ← every.span
  let elapsed ← spanOf (moment.micro - Instant.epoch.micro)
  let gone ← spanOf (span.micro * (elapsed.micro / span.micro + 1))
  shifted Instant.epoch gone

theorem spanOf_ok {micro : Int} (hlow : -86399999913600000000 ≤ micro)
    (hhigh : micro ≤ 86399999999999999999) : spanOf micro = .ok ⟨micro, hlow, hhigh⟩ :=
  dif_pos ⟨hlow, hhigh⟩

theorem Every.span_ok (every : Every) : ∃ span, every.span = .ok span ∧ 1 ≤ span.micro ∧
    span.micro ≤ widestSeconds * 1000000 := by
  have hwide : microseconds every.seconds ≤ widestSeconds * 1000000 := by
    rw [← microseconds_intCast]
    exact microseconds_mono every.within
  have hrange : widestSeconds * 1000000 ≤ 86399999999999999999 := by decide
  have hfine := every.fine
  exact ⟨_, spanOf_ok (by omega) (hwide.trans hrange), hfine, hwide⟩

theorem isLeast_multiple {span : Int} (hspan : 0 < span) (m : Int) :
    IsLeast {t | m < t ∧ ∃ k, t = span * k} (span * (m / span + 1)) := by
  constructor
  · refine ⟨?_, _, rfl⟩
    rw [Int.mul_comm]
    exact Int.lt_ediv_add_one_mul_self m hspan
  · rintro t ⟨hlt, k, rfl⟩
    have hk : m / span < k := by
      rw [Int.ediv_lt_iff_lt_mul hspan, Int.mul_comm]
      exact hlt
    exact Int.mul_le_mul_of_nonneg_left hk hspan.le

/-- From the epoch to half of the range past it, the next slot of an interval is the least whole
multiple of its span past the moment, and nothing of working it out leaves the range. -/
theorem Every.nextAfter_isLeast (every : Every) {moment : Instant} (hepoch : 0 ≤ moment.micro)
    (hhalf : 2 * moment.micro ≤ widestSeconds * 1000000) :
    ∃ span due, every.span = .ok span ∧ every.nextAfter moment = .ok due ∧
      IsLeast {t | moment.micro < t ∧ ∃ k, t = span.micro * k} due.micro := by
  rcases every.span_ok with ⟨span, hspan, hfine, hwide⟩
  have hrange : widestSeconds * 1000000 ≤ widestSlot := by decide
  have hslot : widestSlot ≤ 86399999999999999999 := by decide
  have hleast := isLeast_multiple (by omega : 0 < span.micro) moment.micro
  have hafter : moment.micro < span.micro * (moment.micro / span.micro + 1) := hleast.1.1
  have hheld : span.micro * (moment.micro / span.micro + 1) ≤ widestSeconds * 1000000 := by
    rcases lt_or_ge moment.micro span.micro with hlong | hshort
    · have hzero : moment.micro / span.micro = 0 := Int.ediv_eq_zero_of_lt hepoch hlong
      rw [hzero]
      omega
    · have hfloor := Int.mul_ediv_self_le (x := moment.micro) (k := span.micro) (by omega)
      rw [Int.mul_add, Int.mul_one]
      omega
  have helapsed : spanOf (moment.micro - Instant.epoch.micro) =
      .ok ⟨moment.micro, by omega, by omega⟩ := by
    have hepoch' : moment.micro - Instant.epoch.micro = moment.micro := Int.sub_zero _
    rw [hepoch']
    exact spanOf_ok _ _
  have hgone : spanOf (span.micro * (moment.micro / span.micro + 1)) =
      .ok ⟨span.micro * (moment.micro / span.micro + 1), by omega, by omega⟩ := spanOf_ok _ _
  have hlow : earliestSlot ≤ 0 := by decide
  refine ⟨span, ⟨span.micro * (moment.micro / span.micro + 1), by omega, by omega⟩, hspan, ?_,
    hleast⟩
  have hplus : Instant.epoch.plus (span.micro * (moment.micro / span.micro + 1)) =
      some ⟨span.micro * (moment.micro / span.micro + 1), by omega, by omega⟩ :=
    Instant.plus_eq_some.2 (Int.zero_add _).symm
  simp only [nextAfter, hspan, helapsed, hgone, shifted, hplus, bind, Except.bind]

/-- The trigger of an interval, its span counted in microseconds. -/
def Every.toInterval (every : Every) : Interval where
  span := microseconds every.seconds
  positive := Int.lt_of_lt_of_le Int.zero_lt_one every.fine

theorem Every.nextAfter_toOption (every : Every) (moment : Instant) :
    (every.nextAfter moment).toOption = every.toInterval.nextAfter moment := by
  have hfine := every.fine
  have hwide : microseconds every.seconds ≤ widestSeconds * 1000000 := by
    rw [← microseconds_intCast]
    exact microseconds_mono every.within
  have hrange : widestSeconds * 1000000 ≤ widestSlot := by decide
  have hslot : widestSlot ≤ 86399999999999999999 := by decide
  have hearliest : -86399999913600000000 ≤ earliestSlot := by decide
  have hlow := moment.earliest
  have hhigh := moment.widest
  have hspan : every.span = .ok ⟨microseconds every.seconds, by omega, by omega⟩ := spanOf_ok _ _
  have helapsed : spanOf (moment.micro - Instant.epoch.micro) =
      .ok ⟨moment.micro, by omega, by omega⟩ := by
    have hepoch : moment.micro - Instant.epoch.micro = moment.micro := Int.sub_zero _
    rw [hepoch]
    exact spanOf_ok _ _
  simp only [nextAfter, hspan, helapsed, Interval.nextAfter, toInterval, bind, Except.bind]
  generalize microseconds every.seconds * (moment.micro / microseconds every.seconds + 1) = gone
  by_cases hheld : -86399999913600000000 ≤ gone ∧ gone ≤ 86399999999999999999
  · rw [spanOf_ok hheld.1 hheld.2]
    simp only [shifted]
    cases Instant.epoch.plus gone <;> rfl
  · have hnone : Instant.epoch.plus gone = none := by
      have hzero : Instant.epoch.micro = 0 := rfl
      rw [Instant.plus_eq_none]
      omega
    rw [hnone, spanOf, dif_neg hheld]
    rfl

/-! ## The key of a slot -/

theorem holdable_isoformat (slot : Instant) :
    ((slot.isoformat 'T').map Char.toNat).all Json.holdable = true := by
  have hdigit : ∀ c : Char, c.isDigit = true → Json.holdable c.toNat = true := by
    intro c hc
    have hbounds : 48 ≤ c.toNat ∧ c.toNat ≤ 57 := by
      simpa [Char.isDigit, Char.le_def, UInt32.le_iff_toNat_le] using hc
    have hdigits : ∀ n < 58, 48 ≤ n → Json.holdable n = true := by decide
    exact hdigits _ (by omega) hbounds.1
  have hpad : ∀ width n, ((Padded.pad width n).map Char.toNat).all Json.holdable = true := by
    intro width n
    rw [List.all_map, List.all_eq_true]
    exact fun c hc => hdigit c (Padded.isDigit_of_mem_pad hc)
  have hfraction : (slot.fraction.map Char.toNat).all Json.holdable = true := by
    have hoffset : ("+00:00".toList.map Char.toNat).all Json.holdable = true := by decide
    have hpoint : Json.holdable '.'.toNat = true := by decide
    unfold Instant.fraction
    rw [List.map_append, List.all_append, hoffset]
    split
    · rfl
    · rw [List.map_cons, List.all_cons, hpoint, hpad]
      rfl
  have hdash : Json.holdable '-'.toNat = true := by decide
  have hcolon : Json.holdable ':'.toNat = true := by decide
  have hseparator : Json.holdable 'T'.toNat = true := by decide
  simp only [Instant.isoformat, List.map_append, List.map_cons, List.all_append, List.all_cons,
    hpad, hfraction, hdash, hcolon, hseparator, Bool.and_self]

theorem fitting_occurrenceKey {name : Text}
    (h : fitting keyLimit (occurrenceKey name latest) = true) (slot : Instant) :
    fitting keyLimit (occurrenceKey name slot) = true := by
  have hlatest : (latest.isoformat 'T').length = 32 := by decide +kernel
  have hslot := slot.length_isoformat 'T'
  simp only [fitting, occurrenceKey, Bool.and_eq_true, List.all_append, List.all_cons,
    holdable_isoformat, List.length_append, List.length_cons, List.length_map,
    decide_eq_true_eq] at h ⊢
  exact ⟨h.1, by omega⟩

theorem occurrenceKey_inj {name name' : Text} {slot slot' : Instant}
    (h : occurrenceKey name slot = occurrenceKey name' slot') : name = name' ∧ slot = slot' := by
  have hat : ∀ slot : Instant, 64 ∉ (slot.isoformat 'T').map Char.toNat := by
    intro slot hmem
    rcases List.mem_map.1 hmem with ⟨c, hc, hcode⟩
    have hsame : c = '@' := Char.toNat_inj.1 hcode
    exact slot.at_not_mem_isoformat (hsame ▸ hc)
  rcases Padded.split_at_last (hat slot) (hat slot') h with ⟨hname, hformat⟩
  have hinjective : Function.Injective Char.toNat := fun _ _ heq => Char.toNat_inj.1 heq
  exact ⟨hname, Instant.isoformat_injective (List.map_injective_iff.2 hinjective hformat)⟩

/-! ## Writing a slot -/

variable {F : Type} [Floats F] {py : Interpreter}

/-- An aware instant of UTC. -/
def utcOffset : Offset := ⟨0, by decide, by decide⟩

/-- What `materialize` builds for a slot. -/
def slotOf (py : Interpreter) (task : Registered) (slot : Instant) : Except Raised (Built F) :=
  build py task (.moment slot (some utcOffset)) (.dict false [])
    (.text (occurrenceKey task.name slot)) .none

theorem argumentsOf_empty (hwalk : 0 < py.walk) (hwrite : 0 < py.write) :
    argumentsOf py (.dict false [] : Value F) = .ok (.dict false []) := by
  obtain ⟨calls, hcalls⟩ := Nat.exists_eq_succ_of_ne_zero hwalk.ne'
  obtain ⟨levels, hlevels⟩ := Nat.exists_eq_succ_of_ne_zero hwrite.ne'
  have htaken : PayloadTaken py.toLimits (.dict false [] : Value F) := by
    refine ⟨⟨false, [], rfl⟩, ?_, ?_, rfl⟩
    · rw [hcalls]
      rfl
    · rw [hlevels]
      rfl
  rw [argumentsOf, asWritten_of_taken py.toLimits htaken]
  rfl

/-- What is written for a slot of a task that was let through is a run of it under the slot's
key. -/
theorem slotOf_ok {now : Instant} {tasks : List Registered} {draft : Draft} {task : Registered}
    (h : checked py now tasks draft = .ok task) (htrigger : task.trigger ≠ none)
    (hwalk : 0 < py.walk) (hwrite : 0 < py.write) (slot : Instant) :
    fitting keyLimit (occurrenceKey task.name slot) = true ∧
      slotOf py task slot = .ok (⟨task, .dict false [], some (occurrenceKey task.name slot), slot,
        task.priority⟩ : Built F) := by
  have hof := checked_of h
  have hlatest : fitting keyLimit (occurrenceKey task.name latest) = true := by
    have hslots := hof.slots
    rw [← hof.trigger, ← hof.name] at hslots
    cases hclock : task.trigger with
    | none => exact absurd hclock htrigger
    | some clock =>
        rw [hclock] at hslots
        cases clock with
        | stranger => cases hslots
        | interval | cron | custom =>
            cases hfit : fitting keyLimit (occurrenceKey task.name latest) with
            | true => rfl
            | false => simp [onClock, hfit, Verdict.on] at hslots
  have hfits := fitting_occurrenceKey hlatest slot
  have hkey : keyOf py (.text (occurrenceKey task.name slot)) =
      .ok (some (occurrenceKey task.name slot)) := by
    have hkeyed : keyed py (.text (occurrenceKey task.name slot)) =
        .ok (occurrenceKey task.name slot) := keyed_text (by simp [occurrenceKey]) hfits
    simp only [keyOf, hkeyed, bind, Except.bind, pure, Except.pure]
  have hdue : scheduled py (.moment slot (some utcOffset)) = .ok slot := by
    have hplus : slot.plus (-utcOffset.micro) = some slot :=
      Instant.plus_eq_some.2 (Int.add_zero _).symm
    simp only [scheduled, asUtc, hplus]
  refine ⟨hfits, ?_⟩
  simp only [slotOf, build, hkey, priorityOf, hdue, argumentsOf_empty hwalk hwrite, bind,
    Except.bind, pure, Except.pure]

/-- What is registered can be written: from the epoch to half of the range past it the next slot of
an interval is the least whole multiple of its span, worked out without leaving the range; and every
slot of a recurring task has a key a store keeps, that no other slot of any task has, and that a run
of the task is built under. -/
theorem slots_writable (py : Interpreter) (hwalk : 0 < py.walk) (hwrite : 0 < py.write) :
    (∀ (every : Every) (moment : Instant), 0 ≤ moment.micro →
      2 * moment.micro ≤ widestSeconds * 1000000 →
        ∃ span due, every.span = .ok span ∧ every.nextAfter moment = .ok due ∧
          IsLeast {t | moment.micro < t ∧ ∃ k, t = span.micro * k} due.micro) ∧
    ∀ (now : Instant) (tasks : List Registered) (draft : Draft) (task : Registered),
      checked py now tasks draft = .ok task → task.trigger ≠ none → ∀ slot : Instant,
        (occurrenceKey task.name slot).length ≤ keyLimit ∧
          (∀ name' slot', occurrenceKey task.name slot = occurrenceKey name' slot' →
            task.name = name' ∧ slot = slot') ∧
          ∃ built : Built F, slotOf py task slot = .ok built ∧
            built.key = some (occurrenceKey task.name slot) ∧ built.dueAt = slot := by
  constructor
  · exact fun every moment hepoch hhalf => every.nextAfter_isLeast hepoch hhalf
  · intro now tasks draft task hchecked htrigger slot
    rcases slotOf_ok (F := F) hchecked htrigger hwalk hwrite slot with ⟨hfits, hbuilt⟩
    have hlength : (occurrenceKey task.name slot).length ≤ keyLimit := by
      simp only [fitting, Bool.and_eq_true, decide_eq_true_eq] at hfits
      exact hfits.2
    exact ⟨hlength, fun _ _ h => occurrenceKey_inj h, _, hbuilt, rfl, rfl⟩

/-- A minute, as an interval. -/
def minutely : Every where
  seconds := 60
  within := by decide +kernel
  fine := by decide +kernel

def minutelyTask : Draft := { plainTask with trigger := some (.interval minutely) }

theorem minutelyTask_checked :
    ∃ task, checked startingInterpreter Instant.epoch [] minutelyTask = .ok task := by
  have hverdict : (checked startingInterpreter Instant.epoch [] minutelyTask).verdict Raised.ours =
    _ := verdict_checked _ _ _
  exact Except.verdict_eq_passes.1 (hverdict.trans (by decide +kernel))

theorem slots_writable_minutely :
    (∃ span due, minutely.span = .ok span ∧ minutely.nextAfter Instant.epoch = .ok due ∧
      IsLeast {t | Instant.epoch.micro < t ∧ ∃ k, t = span.micro * k} due.micro) ∧
    ∃ task, checked startingInterpreter Instant.epoch [] minutelyTask = .ok task ∧
      ∃ built : Built WholeFloat, slotOf startingInterpreter task latest = .ok built ∧
        built.key = some (occurrenceKey task.name latest) ∧ built.dueAt = latest := by
  rcases minutelyTask_checked with ⟨task, htask⟩
  have htrigger : task.trigger ≠ none := by
    rw [(checked_of htask).trigger]
    exact Option.some_ne_none _
  have h := slots_writable (F := WholeFloat) startingInterpreter (by decide) (by decide)
  refine ⟨h.1 minutely Instant.epoch (by decide) (by decide), task, htask, ?_⟩
  exact (h.2 _ _ _ task htask htrigger latest).2.2

end Queuefy.Gate
