import Mathlib
import Queuefy.Lib.Reach

/-! # A beat and its attempt

`Worker.execute` works a run and has a second task beat for it meanwhile. The two share an event,
`resting`, which the first sets once its attempt is over and the second reads between two pushes.
Each moves from one suspension to the next, and a cancellation or the shutting of the loop may come
at any of them.
-/

namespace Queuefy.Beating

/-- Where `execute` is: in its attempt, in the gathering of its beat, or nowhere any more. -/
inductive Task where
  | attempting
  | gathering
  | done
  deriving DecidableEq

/-- Where the beat is: not yet at its first step, at rest, at the end of a rest that ran out, in a
call of the store, or nowhere any more. -/
inductive Beat where
  | created
  | resting
  | lapsed
  | pushing
  | done
  deriving DecidableEq

/-- What happens on the way: the end of the attempt, the pushes begun, and how each was over. -/
inductive Event where
  | ended
  | push
  | pushed
  | broke
  | cancelled
  | shut
  | cut
  deriving DecidableEq

/-- An execution. `events` is history, in order. -/
structure Execution where
  task : Task
  beat : Beat
  resting : Bool
  events : List Event

/-- `ends` is the attempt returning or raising, however it does; `lapse` and `wake` are the two
ways out of `wait_for`; a push is answered or raises an `Exception`, or what it raises is none. -/
inductive Turn where
  | ends
  | begins
  | lapse
  | wake
  | send
  | answer
  | breaks
  | cancel
  | shut
  | leave
  deriving DecidableEq

namespace Execution

def note (x : Execution) (event : Event) : Execution := { x with events := x.events ++ [event] }

/-- The head of the loop of `beat`: the event is read before the rest begins. -/
def head (x : Execution) : Execution :=
  { x with beat := if x.resting then .done else .resting }

/-- The attempt is over, and the beat is asked to rest. -/
def rest (x : Execution) : Execution :=
  { x with task := .gathering, resting := true }.note .ended

/-- The task of the beat is cancelled, which cuts the push it is in. -/
def cut (x : Execution) : Execution :=
  match x.beat with
  | .pushing => { x with beat := .done }.note .cut
  | _ => { x with beat := .done }

end Execution

def step (x : Execution) : Turn → Option Execution
  | .ends =>
      match x.task with
      | .attempting => some x.rest
      | _ => none
  | .begins =>
      match x.beat with
      | .created => some x.head
      | _ => none
  -- a timer that ran out is what the rest ends in, even where the event was set just before
  | .lapse =>
      match x.beat with
      | .resting => some { x with beat := .lapsed }
      | _ => none
  | .wake =>
      match x.beat, x.resting with
      | .resting, true => some { x with beat := .done }
      | _, _ => none
  | .send =>
      match x.beat with
      | .lapsed => some ({ x with beat := .pushing }.note .push)
      | _ => none
  | .answer =>
      match x.beat with
      | .pushing => some (x.note .pushed).head
      | _ => none
  | .breaks =>
      match x.beat with
      | .pushing => some ({ x with beat := .done }.note .broke)
      | _ => none
  -- a cancellation is the attempt's to end in, and the gathering hands one on to the beat
  | .cancel =>
      match x.task with
      | .attempting => some x
      | .gathering => some (x.note .cancelled).cut
      | .done => none
  | .shut =>
      match x.task with
      | .done => none
      | _ => some (x.note .shut).cut
  | .leave =>
      match x.task, x.beat with
      | .gathering, .done => some { x with task := .done }
      | _, _ => none

def start : Execution := ⟨.attempting, .created, false, []⟩

/-- What happened from the end of the attempt on. -/
def sinceEnd (events : List Event) : List Event := events.dropWhile (· ≠ .ended)

/-- How many suspensions a beat that was asked to rest has left. -/
def Beat.left : Beat → Nat
  | .resting => 3
  | .lapsed => 2
  | .created | .pushing => 1
  | .done => 0

/-- The time it has left, when a call of the store lasts `δ` at most. -/
def Beat.budget (δ : ℚ) : Beat → ℚ
  | .resting | .lapsed | .pushing => δ
  | .created | .done => 0

/-- How many suspensions an execution has left once its attempt is over. -/
def Execution.left (x : Execution) : Nat :=
  match x.task with
  | .done => 0
  | .attempting | .gathering => x.beat.left + 1

/-- A turn that takes one of the two tasks on from where it is suspended. -/
def Turn.resumes : Turn → Bool
  | .cancel | .shut => false
  | _ => true

/-- How long what a turn ends has lasted at most, once the attempt is over. -/
def Turn.longest (δ : ℚ) : Turn → ℚ
  | .answer | .breaks => δ
  | _ => 0

/-! ## What happened since the end -/

theorem sinceEnd_append {events : List Event} (h : .ended ∈ events) (more : List Event) :
    sinceEnd (events ++ more) = sinceEnd events ++ more := by
  have hfound : ¬ (events.dropWhile (· ≠ .ended)).isEmpty := by
    rw [List.isEmpty_iff, List.dropWhile_eq_nil_iff]
    intro hall
    simpa using hall _ h
  rw [sinceEnd, List.dropWhile_append, if_neg hfound]
  rfl

theorem sinceEnd_ended {events : List Event} (h : .ended ∉ events) :
    sinceEnd (events ++ [.ended]) = [.ended] := by
  have hnone : (events.dropWhile (· ≠ .ended)).isEmpty := by
    rw [List.isEmpty_iff, List.dropWhile_eq_nil_iff]
    intro event hevent
    simp only [ne_eq, decide_eq_true_eq]
    rintro rfl
    exact h hevent
  rw [sinceEnd, List.dropWhile_append, if_pos hnone]
  rfl

/-! ## What holds at every suspension -/

/-- How many pushes a beat may have begun since it was asked to rest. -/
def Beat.late : Beat → Nat
  | .pushing | .done => 1
  | .created | .resting | .lapsed => 0

structure Follows (x : Execution) : Prop where
  attempting : x.task = .attempting ↔ x.resting = false
  ended : .ended ∈ x.events ↔ x.resting = true
  alive : x.beat = .done → .ended ∈ x.events ∨ .broke ∈ x.events ∨ .shut ∈ x.events
  late : x.resting = true → (sinceEnd x.events).count .push ≤ x.beat.late
  whole : .cut ∈ x.events → .cancelled ∈ x.events ∨ .shut ∈ x.events
  paired : x.events.count .push = x.events.count .pushed + x.events.count .broke +
    x.events.count .cut + if x.beat = .pushing then 1 else 0
  gone : x.task = .done → x.beat = .done

theorem follows_start : Follows start := by
  constructor <;> simp [start]

/-- A way a turn takes the beat of an execution, with what happens on it. -/
inductive Goes (x : Execution) : Turn → Beat → List Event → Prop
  | begins (h : x.beat = .created) : Goes x .begins x.head.beat []
  | lapse (h : x.beat = .resting) : Goes x .lapse .lapsed []
  | wake (h : x.beat = .resting) (hrest : x.resting = true) : Goes x .wake .done []
  | send (h : x.beat = .lapsed) : Goes x .send .pushing [.push]
  | answer (h : x.beat = .pushing) : Goes x .answer x.head.beat [.pushed]
  | breaks (h : x.beat = .pushing) : Goes x .breaks .done [.broke]
  | still (h : x.task = .attempting) : Goes x .cancel x.beat []
  | cancelled (h : x.task = .gathering) :
      Goes x .cancel .done (.cancelled :: if x.beat = .pushing then [.cut] else [])
  | shut (h : x.task ≠ .done) :
      Goes x .shut .done (.shut :: if x.beat = .pushing then [.cut] else [])

theorem cut_note (x : Execution) (event : Event) : (x.note event).cut =
    { x with
      beat := .done
      events := x.events ++ event :: if x.beat = .pushing then [.cut] else [] } := by
  cases hbeat : x.beat <;> simp [Execution.cut, Execution.note, hbeat]

/-- A step ends the attempt, leaves an execution whose beat is over, or takes the beat on. -/
theorem step_cases {x y : Execution} {turn : Turn} (h : step x turn = some y) :
    (x.task = .attempting ∧ y = x.rest) ∨
      (turn = .leave ∧ x.task = .gathering ∧ x.beat = .done ∧ y = { x with task := .done }) ∨
      ∃ beat more, Goes x turn beat more ∧
        y = { x with beat := beat, events := x.events ++ more } := by
  have hgoes : ∀ {beat : Beat}, Goes x turn beat [] → y = { x with beat := beat } →
      ∃ beat more, Goes x turn beat more ∧
        y = { x with beat := beat, events := x.events ++ more } :=
    fun {beat} hway hy => ⟨beat, [], hway, by rw [hy, List.append_nil]⟩
  cases turn with
  | ends =>
      simp only [step] at h
      split at h <;> cases h
      rename_i htask
      exact Or.inl ⟨htask, rfl⟩
  | begins =>
      simp only [step] at h
      split at h <;> cases h
      rename_i hbeat
      exact Or.inr (Or.inr (hgoes (.begins hbeat) rfl))
  | lapse =>
      simp only [step] at h
      split at h <;> cases h
      rename_i hbeat
      exact Or.inr (Or.inr (hgoes (.lapse hbeat) rfl))
  | wake =>
      simp only [step] at h
      split at h <;> cases h
      rename_i hbeat hrest
      exact Or.inr (Or.inr (hgoes (.wake hbeat hrest) rfl))
  | send =>
      simp only [step] at h
      split at h <;> cases h
      rename_i hbeat
      exact Or.inr (Or.inr ⟨_, _, .send hbeat, rfl⟩)
  | answer =>
      simp only [step] at h
      split at h <;> cases h
      rename_i hbeat
      exact Or.inr (Or.inr ⟨_, _, .answer hbeat, rfl⟩)
  | breaks =>
      simp only [step] at h
      split at h <;> cases h
      rename_i hbeat
      exact Or.inr (Or.inr ⟨_, _, .breaks hbeat, rfl⟩)
  | cancel =>
      simp only [step] at h
      split at h <;> cases h
      · rename_i htask
        exact Or.inr (Or.inr (hgoes (.still htask) rfl))
      · rename_i htask
        exact Or.inr (Or.inr ⟨_, _, .cancelled htask, cut_note x .cancelled⟩)
  | shut =>
      simp only [step] at h
      split at h <;> cases h
      rename_i htask
      exact Or.inr (Or.inr ⟨_, _, .shut htask, cut_note x .shut⟩)
  | leave =>
      simp only [step] at h
      split at h <;> cases h
      rename_i htask hbeat
      exact Or.inr (Or.inl ⟨rfl, htask, hbeat, rfl⟩)

theorem Follows.resting_of_gathering {x : Execution} (h : Follows x) (htask : x.task = .gathering) :
    x.resting = true := by
  by_contra hunset
  have hattempting := h.attempting.2 (by simpa using hunset)
  rw [htask] at hattempting
  cases hattempting

theorem Follows.rest {x : Execution} (h : Follows x) (htask : x.task = .attempting) :
    Follows x.rest := by
  have hunset := h.attempting.1 htask
  have hnever : .ended ∉ x.events := by
    rw [h.ended, hunset]
    exact Bool.false_ne_true
  have hevents : x.rest.events = x.events ++ [.ended] := rfl
  have hcounts : ∀ event, event ≠ .ended → x.rest.events.count event = x.events.count event := by
    intro event hevent
    rw [hevents, List.count_append, List.count_singleton, beq_false_of_ne hevent.symm]
    rfl
  have hmem : ∀ event ∈ x.events, event ∈ x.rest.events := fun event hevent =>
    List.mem_append_left _ hevent
  constructor
  · simp [Execution.rest, Execution.note]
  · exact ⟨fun _ => rfl, fun _ => List.mem_append_right _ (List.mem_singleton_self _)⟩
  · exact fun _ => Or.inl (List.mem_append_right _ (List.mem_singleton_self _))
  · intro _
    rw [hevents, sinceEnd_ended hnever]
    exact Nat.zero_le _
  · intro hcut
    rw [hevents, List.mem_append] at hcut
    rcases h.whole (hcut.resolve_right (by simp)) with hcancelled | hshut
    · exact Or.inl (hmem _ hcancelled)
    · exact Or.inr (hmem _ hshut)
  · rw [hcounts _ (by simp), hcounts _ (by simp), hcounts _ (by simp), hcounts _ (by simp)]
    exact h.paired
  · intro hover
    cases hover

theorem Goes.spec {x : Execution} {turn : Turn} {beat : Beat} {more : List Event}
    (h : Goes x turn beat more) :
    .ended ∉ more ∧ (.cut ∈ more → .cancelled ∈ more ∨ .shut ∈ more) ∧
      more.count .push + (if x.beat = .pushing then 1 else 0) =
        more.count .pushed + more.count .broke + more.count .cut +
          if beat = .pushing then 1 else 0 := by
  cases h with
  | still => simp
  | begins hbeat => simp [hbeat, Execution.head, ite_eq_iff]
  | lapse hbeat => simp [hbeat]
  | wake hbeat => simp [hbeat]
  | send hbeat => simp [hbeat]
  | answer hbeat => simp [hbeat, Execution.head, ite_eq_iff]
  | breaks hbeat => simp [hbeat]
  | cancelled =>
      by_cases hbeat : x.beat = .pushing <;> simp [hbeat]
  | shut =>
      by_cases hbeat : x.beat = .pushing <;> simp [hbeat]

/-- A beat is over only where it was asked to rest, or a push of it broke, or the loop was shut. -/
theorem Goes.rested {x : Execution} {turn : Turn} {beat : Beat} {more : List Event}
    (h : Goes x turn beat more) (hover : beat = .done) :
    x.beat = .done ∨ x.resting = true ∨ x.task = .gathering ∨ .broke ∈ more ∨ .shut ∈ more := by
  cases h with
  | still => exact Or.inl hover
  | begins hbeat =>
      simp only [Execution.head] at hover
      split at hover
      · rename_i hrest
        exact Or.inr (Or.inl hrest)
      · cases hover
  | lapse => cases hover
  | wake hbeat hrest => exact Or.inr (Or.inl hrest)
  | send => cases hover
  | answer hbeat =>
      simp only [Execution.head] at hover
      split at hover
      · rename_i hrest
        exact Or.inr (Or.inl hrest)
      · cases hover
  | breaks => simp
  | cancelled htask => exact Or.inr (Or.inr (Or.inl htask))
  | shut => simp

/-- Once it was asked to rest, a beat goes on to one push at most. -/
theorem Goes.late {x : Execution} {turn : Turn} {beat : Beat} {more : List Event}
    (h : Goes x turn beat more) (hrest : x.resting = true) :
    more.count .push + x.beat.late ≤ beat.late := by
  cases h with
  | still => simp
  | begins hbeat => simp [hbeat, Execution.head, hrest, Beat.late]
  | lapse hbeat => simp [hbeat, Beat.late]
  | wake hbeat => simp [hbeat, Beat.late]
  | send hbeat => simp [hbeat, Beat.late]
  | answer hbeat => simp [hbeat, Execution.head, hrest, Beat.late]
  | breaks hbeat => simp [hbeat, Beat.late]
  | cancelled =>
      cases hbeat : x.beat <;> simp [Beat.late]
  | shut =>
      cases hbeat : x.beat <;> simp [Beat.late]

theorem Goes.stays {x : Execution} {turn : Turn} {beat : Beat} {more : List Event}
    (h : Goes x turn beat more) (hover : x.beat = .done) : beat = .done := by
  cases h with
  | still => exact hover
  | cancelled => rfl
  | shut => rfl
  | wake => rfl
  | breaks => rfl
  | begins hbeat | lapse hbeat | send hbeat | answer hbeat =>
      rw [hover] at hbeat
      cases hbeat

theorem follows_step {x y : Execution} {turn : Turn} (hx : Follows x)
    (h : step x turn = some y) : Follows y := by
  rcases step_cases h with ⟨htask, rfl⟩ | ⟨-, htask, hbeat, rfl⟩ | ⟨beat, more, hgoes, rfl⟩
  · exact hx.rest htask
  · have hrest := hx.resting_of_gathering htask
    exact ⟨by simp [hrest], hx.ended, hx.alive, hx.late, hx.whole, hx.paired, fun _ => hbeat⟩
  · rcases hgoes.spec with ⟨hended, hcut, hpaired⟩
    constructor
    · exact hx.attempting
    · simp [hended, hx.ended]
    · intro hover
      rcases hgoes.rested hover with hwas | hrest | htask | hbroke | hshut
      · rcases hx.alive hwas with hended | hbroke | hshut
        · exact Or.inl (List.mem_append_left _ hended)
        · exact Or.inr (Or.inl (List.mem_append_left _ hbroke))
        · exact Or.inr (Or.inr (List.mem_append_left _ hshut))
      · exact Or.inl (List.mem_append_left _ (hx.ended.2 hrest))
      · exact Or.inl (List.mem_append_left _ (hx.ended.2 (hx.resting_of_gathering htask)))
      · exact Or.inr (Or.inl (List.mem_append_right _ hbroke))
      · exact Or.inr (Or.inr (List.mem_append_right _ hshut))
    · intro hrest
      have hlate := hgoes.late hrest
      have hbefore := hx.late hrest
      rw [sinceEnd_append (hx.ended.2 hrest), List.count_append]
      change _ ≤ beat.late
      omega
    · intro hmem
      simp only [List.mem_append] at hmem ⊢
      rcases hmem with hold | hnew
      · have := hx.whole hold
        tauto
      · have := hcut hnew
        tauto
    · have hbefore := hx.paired
      simp only [List.count_append]
      omega
    · intro htask
      exact hgoes.stays (hx.gone htask)

/-! ## After the attempt -/

/-- A turn, with how long what it ends has lasted. -/
def timed (x : Execution) (turn : Turn × ℚ) : Option Execution := step x turn.1

theorem budget_nonneg {δ : ℚ} (hδ : 0 ≤ δ) (beat : Beat) : 0 ≤ beat.budget δ := by
  cases beat <;> first | exact hδ | exact le_rfl

/-- A beat that was asked to rest comes nearer to its end, and takes what it has left of time. -/
theorem Goes.nears {x : Execution} {turn : Turn} {beat : Beat} {more : List Event}
    (h : Goes x turn beat more) (hrest : x.resting = true) {δ d : ℚ} (hδ : 0 ≤ δ)
    (hd : d ≤ turn.longest δ) :
    beat.left + (if turn.resumes then 1 else 0) ≤ x.beat.left ∧
      beat.budget δ + d ≤ x.beat.budget δ := by
  cases h with
  | begins hbeat =>
      simp only [Turn.longest] at hd
      simp [hbeat, Execution.head, hrest, Beat.left, Beat.budget, Turn.resumes, hd]
  | lapse hbeat =>
      simp only [Turn.longest] at hd
      simp [hbeat, Beat.left, Beat.budget, Turn.resumes, hd]
  | wake hbeat =>
      simp only [Turn.longest] at hd
      simp [hbeat, Beat.left, Beat.budget, Turn.resumes, hd.trans hδ]
  | send hbeat =>
      simp only [Turn.longest] at hd
      simp [hbeat, Beat.left, Beat.budget, Turn.resumes, hd]
  | answer hbeat =>
      simp only [Turn.longest] at hd
      simp [hbeat, Execution.head, hrest, Beat.left, Beat.budget, Turn.resumes, hd]
  | breaks hbeat =>
      simp only [Turn.longest] at hd
      simp [hbeat, Beat.left, Beat.budget, Turn.resumes, hd]
  | still =>
      simp only [Turn.longest] at hd
      simp [Turn.resumes, hd]
  | cancelled | shut =>
      simp only [Turn.longest] at hd
      have hspare := budget_nonneg hδ x.beat
      refine ⟨Nat.zero_le _, ?_⟩
      change 0 + d ≤ _
      linarith

theorem left_step {x y : Execution} {turn : Turn} (hx : Follows x) (hrest : x.resting = true)
    (h : step x turn = some y) {δ d : ℚ} (hδ : 0 ≤ δ) (hd : d ≤ turn.longest δ) :
    y.resting = true ∧ y.left + (if turn.resumes then 1 else 0) ≤ x.left ∧
      y.beat.budget δ + d ≤ x.beat.budget δ := by
  rcases step_cases h with ⟨htask, -⟩ | ⟨rfl, htask, hbeat, rfl⟩ | ⟨beat, more, hgoes, rfl⟩
  · rw [hx.attempting.1 htask] at hrest
    cases hrest
  · simp only [Turn.longest] at hd
    simp [Execution.left, htask, hbeat, hrest, Turn.resumes, Beat.budget, hd, Beat.left]
  · rcases hgoes.nears hrest hδ hd with ⟨hleft, hbudget⟩
    refine ⟨hrest, ?_, hbudget⟩
    simp only [Execution.left]
    cases htask : x.task with
    | done =>
        have hover := hx.gone htask
        cases hgoes with
        | still hattempting =>
            rw [htask] at hattempting
            cases hattempting
        | cancelled hgathering =>
            rw [htask] at hgathering
            cases hgathering
        | shut hgoing => exact absurd htask hgoing
        | begins hbeat | lapse hbeat | wake hbeat | send hbeat | answer hbeat | breaks hbeat =>
            rw [hover] at hbeat
            cases hbeat
    | attempting | gathering =>
        simp only
        omega

theorem rests_soon {x y : Execution} (hx : Follows x) (hrest : x.resting = true)
    {turns : List (Turn × ℚ)} {δ : ℚ} (hδ : 0 ≤ δ) (hd : ∀ t ∈ turns, t.2 ≤ t.1.longest δ)
    (h : runAll timed x turns = some y) :
    Follows y ∧ y.resting = true ∧ y.left + turns.countP (·.1.resumes) ≤ x.left ∧
      y.beat.budget δ + (turns.map (·.2)).sum ≤ x.beat.budget δ := by
  induction turns generalizing x with
  | nil =>
      cases h
      exact ⟨hx, hrest, by simp, by simp⟩
  | cons turn turns ih =>
      rcases Option.bind_eq_some_iff.1 h with ⟨z, hz, hy⟩
      rcases left_step hx hrest hz hδ (hd turn List.mem_cons_self) with ⟨hrested, hleft, hbudget⟩
      rcases ih (follows_step hx hz) hrested (fun t ht => hd t (List.mem_cons_of_mem _ ht)) hy with
        ⟨hy, hresty, hturns, hsum⟩
      refine ⟨hy, hresty, ?_, ?_⟩
      · rw [List.countP_cons]
        omega
      · rw [List.map_cons, List.sum_cons]
        linarith

/-- An execution that is not over has a turn to go on with. -/
theorem goes_on {x : Execution} (hx : Follows x) (hrest : x.resting = true)
    (hgoing : x.task ≠ .done) : ∃ turn, turn.resumes = true ∧ (step x turn).isSome := by
  have htask : x.task = .gathering := by
    cases htask : x.task with
    | attempting =>
        rw [hx.attempting.1 htask] at hrest
        cases hrest
    | gathering => rfl
    | done => exact absurd htask hgoing
  cases hbeat : x.beat with
  | created => exact ⟨.begins, rfl, by simp [step, hbeat]⟩
  | resting => exact ⟨.wake, rfl, by simp [step, hbeat, hrest]⟩
  | lapsed => exact ⟨.send, rfl, by simp [step, hbeat]⟩
  | pushing => exact ⟨.answer, rfl, by simp [step, hbeat]⟩
  | done => exact ⟨.leave, rfl, by simp [step, hbeat, htask]⟩

theorem reach_follows {x : Execution} (h : Reach step Unconditional start x) : Follows x :=
  h.invariant follows_start fun _ hx _ hstep => follows_step hx hstep

theorem left_le (x : Execution) : x.left ≤ 4 := by
  unfold Execution.left
  cases x.task <;> cases x.beat <;> decide

theorem budget_le {δ : ℚ} (hδ : 0 ≤ δ) (beat : Beat) : beat.budget δ ≤ δ := by
  cases beat <;> first | exact hδ | exact le_rfl

theorem done_stuck {x : Execution} (hx : Follows x) (hdone : x.task = .done) (turn : Turn) :
    step x turn = none := by
  have hbeat := hx.gone hdone
  cases turn <;> simp [step, hdone, hbeat]

theorem late_le {x : Execution} (hx : Follows x) : (sinceEnd x.events).count .push ≤ 1 := by
  by_cases hended : .ended ∈ x.events
  · have hlate := hx.late (hx.ended.1 hended)
    have hmost : x.beat.late ≤ 1 := by cases x.beat <;> decide
    omega
  · have hnone : sinceEnd x.events = [] := by
      rw [sinceEnd, List.dropWhile_eq_nil_iff]
      intro event hevent
      rw [decide_eq_true_eq]
      rintro rfl
      exact hended hevent
    rw [hnone]
    exact Nat.zero_le _

/-- A run is beaten for as long as its attempt goes on, unless what a push raised is no `Exception`
or the loop is shut. Once the attempt is over one push more is begun at most, none is cut but by a
second cancellation or the shutting of the loop, and the execution is over by its fourth suspension
and within one call of the store, with every push it began over before it. -/
theorem beat_follows_attempt {x : Execution} (h : Reach step Unconditional start x) :
    (x.beat = .done → .ended ∈ x.events ∨ .broke ∈ x.events ∨ .shut ∈ x.events) ∧
    (sinceEnd x.events).count .push ≤ 1 ∧
    (.cut ∈ x.events → .cancelled ∈ x.events ∨ .shut ∈ x.events) ∧
    (x.task = .done → (∀ turn, step x turn = none) ∧ x.events.count .push =
      x.events.count .pushed + x.events.count .broke + x.events.count .cut) ∧
    (.ended ∈ x.events → ∀ (δ : ℚ) (turns : List (Turn × ℚ)) (y : Execution), 0 ≤ δ →
      (∀ t ∈ turns, t.2 ≤ t.1.longest δ) → runAll timed x turns = some y →
        turns.countP (·.1.resumes) ≤ 4 ∧ (turns.map (·.2)).sum ≤ δ ∧
          (y.task ≠ .done → ∃ turn, turn.resumes = true ∧ (step y turn).isSome)) := by
  have hx := reach_follows h
  refine ⟨hx.alive, late_le hx, hx.whole, fun hdone => ⟨done_stuck hx hdone, ?_⟩, ?_⟩
  · have hpaired := hx.paired
    rw [hx.gone hdone, if_neg (by decide)] at hpaired
    exact hpaired
  · intro hended δ turns y hδ hd hy
    have hrest := hx.ended.1 hended
    rcases rests_soon hx hrest hδ hd hy with ⟨hfollows, hresty, hleft, hbudget⟩
    have hmost := left_le x
    have hspare := budget_nonneg hδ y.beat
    have hall := budget_le hδ x.beat
    exact ⟨by omega, by linarith, goes_on hfollows hresty⟩

/-- The rest of the beat runs out right before the attempt is over, so that one more push goes out
and is answered after it. -/
def lastBeat : List Turn := [.begins, .lapse, .ends, .send, .answer, .leave]

theorem beat_follows_attempt_lastBeat : ∃ x, runAll step start lastBeat = some x ∧
    x.task = .done ∧ sinceEnd x.events = [.ended, .push, .pushed] ∧
      (sinceEnd x.events).count .push ≤ 1 ∧ ∀ turn, step x turn = none := by
  have hreach : Reach step Unconditional start ((runAll step start lastBeat).get (by rfl)) :=
    .of_runAll .start (Option.some_get _).symm
  have hfollows := beat_follows_attempt hreach
  exact ⟨_, (Option.some_get _).symm, rfl, rfl, hfollows.2.1, (hfollows.2.2.2.1 rfl).1⟩

end Queuefy.Beating
