import Mathlib
import Queuefy.Worker.Stopping

/-! # What a pass comes to

A pass takes back what expired, prunes, writes the slots that came due and claims. Whatever its
housekeeping comes to, the pass goes on to its claim; and once the worker was stopped the pass it
is in is the last one, so that the loop is over within the calls that pass has left and the grace.
-/

namespace Queuefy.Polling

/-- How many suspensions of its housekeeping a pass has left, with `n` tasks at most. -/
def Place.left (n : Nat) : Place → Nat
  | .reclaiming => n + 2
  | .pruning => n + 1
  | .writing rest => rest.length + 1
  | .called | .claiming | .waiting | .draining | .ended => 0

/-- How many suspensions a loop that was stopped has left. -/
def Place.rank (n : Nat) (place : Place) : Nat :=
  match place with
  | .claiming => 3
  | .called | .waiting => 2
  | .draining => 1
  | .ended => 0
  | .reclaiming | .pruning | .writing _ => place.left n + 3

/-- A turn that cancels nothing, in an application of at most `n` tasks. -/
def Turn.Going (n : Nat) : Turn → Prop
  | .stop => True
  | .resume outcome w => outcome ≠ .cancelled ∧ w.tasks.length ≤ n

/-- A turn in an application of at most `n` tasks. -/
def Turn.Within (n : Nat) : Turn → Prop
  | .stop => True
  | .resume _ w => w.tasks.length ≤ n

instance (n : Nat) : ∀ turn : Turn, Decidable (turn.Within n)
  | .stop => isTrue trivial
  | .resume _ w => inferInstanceAs (Decidable (w.tasks.length ≤ n))

/-- How long a suspension lasts at most: a call of the store `δ`, the wait of a loop that was
stopped no time at all, and the wait for what is in flight the grace. -/
def Place.longest (δ grace : ℚ) : Place → ℚ
  | .called | .waiting | .ended => 0
  | .draining => grace
  | .reclaiming | .pruning | .writing _ | .claiming => δ

/-- What a turn of a loop that was stopped takes. -/
def Takes (n : Nat) (δ grace : ℚ) (l : Loop) : Turn × ℚ → Prop
  | (.stop, d) => d ≤ 0
  | (.resume _ w, d) => w.tasks.length ≤ n ∧ d ≤ l.place.longest δ grace

instance (n : Nat) (δ grace : ℚ) (l : Loop) :
    ∀ turn : Turn × ℚ, Decidable (Takes n δ grace l turn)
  | (.stop, d) => inferInstanceAs (Decidable (d ≤ 0))
  | (.resume _ w, d) =>
      inferInstanceAs (Decidable (w.tasks.length ≤ n ∧ d ≤ l.place.longest δ grace))

/-- A step, with how long the suspension it ends has lasted. -/
def timed (l : Loop) (turn : Turn × ℚ) : Option Loop := step l turn.1

/-- The time a loop that was stopped has left. -/
def Place.budget (n : Nat) (δ grace : ℚ) (place : Place) : ℚ :=
  match place with
  | .claiming => δ + grace
  | .called | .waiting | .draining => grace
  | .ended => 0
  | .reclaiming | .pruning | .writing _ => (place.left n + 1) * δ + grace

def Turn.resumes : Turn → Bool
  | .stop => false
  | .resume .. => true

/-! ## The end of a pass -/

/-- The pass got to its claim, which it makes where it finds something free. -/
inductive Concludes (l : Loop) (w : Reading) : Loop → Prop
  | claims : 0 < w.free → Concludes l w (l.begin .claim .claiming)
  | full : w.free ≤ 0 → Concludes l w l.wait

theorem concludes_claim (l : Loop) (w : Reading) : Concludes l w (l.claim w) := by
  unfold Loop.claim
  split
  · rename_i hfull
    exact .full hfull
  · rename_i hfree
    exact .claims (by omega)

/-- Materializing gets to the claim, or to the write of a slot with fewer tasks to go. -/
theorem materialize_cases (l : Loop) (w : Reading) (tasks : List String) :
    Concludes l w (l.materialize w tasks) ∨
      ∃ name rest, rest.length < tasks.length ∧
        l.materialize w tasks = l.begin (.add name) (.writing rest) := by
  induction tasks with
  | nil => exact Or.inl (concludes_claim l w)
  | cons name rest ih =>
      rw [Loop.materialize]
      cases w.chore name with
      | skip =>
          rcases ih with hclaim | ⟨other, left, hlength, heq⟩
          · exact Or.inl hclaim
          · have hmore : left.length < (name :: rest).length := by
              rw [List.length_cons]
              omega
            exact Or.inr ⟨other, left, hmore, heq⟩
      | raise => exact Or.inl (concludes_claim l w)
      | write => exact Or.inr ⟨name, rest, by simp, rfl⟩

theorem left_pos {place : Place} (h : place.housekeeping = true) (n : Nat) : 0 < place.left n := by
  cases place with
  | reclaiming | pruning | writing rest => exact Nat.succ_pos _
  | called | claiming | waiting | draining | ended => cases h

/-- In its housekeeping a pass gets to its claim, or one suspension further, whether the call it was
suspended in answered or raised. -/
theorem resume_housekeeping {l : Loop} (h : l.place.housekeeping = true) {outcome : Outcome}
    (hgoes : outcome ≠ .cancelled) {w : Reading} {n : Nat} (hn : w.tasks.length ≤ n) :
    Concludes l w (l.resume outcome w) ∨
      ∃ event place, l.resume outcome w = l.begin event place ∧ event ≠ .reclaim ∧
        place.housekeeping = true ∧ place.left n < l.place.left n := by
  generalize hleft : l.place.left n = left
  have hmaterialize : ∀ tasks : List String, tasks.length < left →
      Concludes l w (l.materialize w tasks) ∨
        ∃ event place, l.materialize w tasks = l.begin event place ∧ event ≠ .reclaim ∧
          place.housekeeping = true ∧ place.left n < left := by
    intro tasks htasks
    rcases materialize_cases l w tasks with hclaim | ⟨name, rest, hlength, heq⟩
    · exact Or.inl hclaim
    · have hwriting : (Place.writing rest).left n = rest.length + 1 := rfl
      have hless : (Place.writing rest).left n < left := by omega
      exact Or.inr ⟨_, _, heq, by simp, rfl, hless⟩
  simp only [Loop.resume, if_neg hgoes]
  cases hplace : l.place with
  | reclaiming =>
      rw [hplace, Place.left] at hleft
      simp only [Loop.tidy]
      split
      · have hless : Place.pruning.left n < left := by
          rw [Place.left]
          omega
        exact Or.inr ⟨.purge, _, rfl, by simp, rfl, hless⟩
      · exact hmaterialize w.tasks (by omega)
  | pruning =>
      rw [hplace, Place.left] at hleft
      exact hmaterialize w.tasks (by omega)
  | writing rest =>
      rw [hplace, Place.left] at hleft
      simp only
      split
      · exact Or.inl (concludes_claim l w)
      · exact hmaterialize rest (by omega)
  | called | claiming | waiting | draining | ended =>
      rw [hplace] at h
      cases h

/-! ## Every pass gets to its claim -/

/-- However the calls of its housekeeping end, answered or raised, a pass of an application with `n`
tasks gets to its claim before it was suspended `n + 2` times: at the reading its housekeeping
concludes with it claims, unless nothing is free in that reading. -/
theorem pass_gets_to_its_claim {l t : Loop} {n : Nat} {turns : List Turn}
    (hpass : l.place.housekeeping = true) (hgoing : ∀ turn ∈ turns, turn.Going n)
    (h : runAll step l turns = some t) (hlong : l.place.left n ≤ turns.countP Turn.resumes) :
    ∃ before outcome w after u, turns = before ++ .resume outcome w :: after ∧
      before.countP Turn.resumes < l.place.left n ∧ runAll step l before = some u ∧
      u.place.housekeeping = true ∧ (∃ more, u.events = l.events ++ more ∧ .reclaim ∉ more) ∧
      Concludes u w (u.resume outcome w) := by
  induction turns generalizing l with
  | nil =>
      have hpos := left_pos hpass n
      have hnone : l.place.left n ≤ 0 := hlong
      omega
  | cons turn rest ih =>
      rcases Option.bind_eq_some_iff.mp h with ⟨v, hv, ht⟩
      have hrest : ∀ turn ∈ rest, turn.Going n := fun other hother =>
        hgoing other (List.mem_cons_of_mem turn hother)
      cases turn with
      | stop =>
          have hcount : l.place.left n ≤ rest.countP Turn.resumes := by
            simpa [Turn.resumes] using hlong
          cases hv
          rcases ih (l := l.stop) hpass hrest ht hcount with
            ⟨before, outcome, w, after, u, rfl, hfew, hu, hin, ⟨more, hmore, hnone⟩, hend⟩
          refine ⟨.stop :: before, outcome, w, after, u, rfl, ?_, hu, hin, ⟨.stop :: more, ?_, ?_⟩,
            hend⟩
          · rw [List.countP_cons_of_neg (by simp [Turn.resumes])]
            exact hfew
          · simp [hmore, Loop.stop]
          · simpa using hnone
      | resume outcome w =>
          have hgoes := hgoing _ List.mem_cons_self
          have hcount : l.place.left n ≤ rest.countP Turn.resumes + 1 := by
            rwa [List.countP_cons_of_pos rfl] at hlong
          rcases resume_housekeeping hpass hgoes.1 hgoes.2 with
            hend | ⟨event, place, heq, hevent, hin, hless⟩
          · have hnone : l.events = l.events ++ [] := (List.append_nil _).symm
            exact ⟨[], outcome, w, rest, l, rfl, left_pos hpass n, rfl, hpass,
              ⟨[], hnone, List.not_mem_nil⟩, hend⟩
          · have hopen : l.place ≠ .ended := by
              intro hended
              rw [hended] at hpass
              cases hpass
            have hstep : step l (.resume outcome w) = some (l.begin event place) := by
              rw [step, if_neg hopen, heq]
            cases hstep.symm.trans hv
            have hless' : (l.begin event place).place.left n < l.place.left n := hless
            rcases ih (l := l.begin event place) hin hrest ht (by omega) with
              ⟨before, other, w', after, u, rfl, hfew, hu, hin', ⟨more, hmore, hnone⟩, hend⟩
            refine ⟨.resume outcome w :: before, other, w', after, u, rfl, ?_, ?_, hin',
              ⟨event :: more, ?_, ?_⟩, hend⟩
            · rw [List.countP_cons_of_pos rfl]
              omega
            · rw [runAll, hstep]
              exact hu
            · simp [hmore, Loop.begin]
            · simpa [hevent.symm] using hnone

/-! ## A worker that was stopped -/

/-- What a step does to a loop that was stopped: it takes of the time and of the suspensions left,
and no pass is begun. -/
structure Winds (n : Nat) (δ grace : ℚ) (l t : Loop) (turn : Turn × ℚ) : Prop where
  stopping : t.stopping = true
  events : ∃ more, t.events = l.events ++ more ∧ .reclaim ∉ more
  rank : (if turn.1.resumes then 1 else 0) + t.place.rank n ≤ l.place.rank n
  budget : turn.2 + t.place.budget n δ grace ≤ l.place.budget n δ grace

@[simp] theorem rank_claiming (n : Nat) : Place.claiming.rank n = 3 := rfl
@[simp] theorem rank_waiting (n : Nat) : Place.waiting.rank n = 2 := rfl
@[simp] theorem rank_draining (n : Nat) : Place.draining.rank n = 1 := rfl
@[simp] theorem rank_ended (n : Nat) : Place.ended.rank n = 0 := rfl

theorem rank_of_housekeeping {place : Place} (h : place.housekeeping = true) (n : Nat) :
    place.rank n = place.left n + 3 := by
  cases place with
  | reclaiming | pruning | writing rest => rfl
  | called | claiming | waiting | draining | ended => cases h

theorem rank_pos {place : Place} (h : place ≠ .ended) (n : Nat) : 0 < place.rank n := by
  cases place with
  | reclaiming | pruning | writing rest | called | claiming | waiting | draining =>
      exact Nat.succ_pos _
  | ended => exact absurd rfl h

section

variable (n : Nat) (δ grace : ℚ)

@[simp] theorem budget_claiming : Place.claiming.budget n δ grace = δ + grace := rfl
@[simp] theorem budget_waiting : Place.waiting.budget n δ grace = grace := rfl
@[simp] theorem budget_draining : Place.draining.budget n δ grace = grace := rfl
@[simp] theorem budget_ended : Place.ended.budget n δ grace = 0 := rfl

theorem budget_of_housekeeping {place : Place} (h : place.housekeeping = true) :
    place.budget n δ grace = (place.left n + 1) * δ + grace := by
  cases place with
  | reclaiming | pruning | writing rest => rfl
  | called | claiming | waiting | draining | ended => cases h

theorem longest_of_housekeeping {place : Place} (h : place.housekeeping = true) :
    place.longest δ grace = δ := by
  cases place with
  | reclaiming | pruning | writing rest => rfl
  | called | claiming | waiting | draining | ended => cases h

end

variable {n : Nat} {δ grace : ℚ}

/-- The most there is left, to a loop whose pass has as much left as a whole pass. -/
theorem rank_le {place : Place} (h : place.left n ≤ n + 2) : place.rank n ≤ n + 5 := by
  by_cases hin : place.housekeeping = true
  · rw [rank_of_housekeeping hin]
    omega
  · cases place with
    | called | claiming | waiting | draining | ended =>
        simp only [Place.rank]
        omega
    | reclaiming | pruning | writing rest => exact absurd rfl hin

theorem budget_le (hδ : 0 ≤ δ) (hgrace : 0 ≤ grace) {place : Place} (h : place.left n ≤ n + 2) :
    place.budget n δ grace ≤ (n + 3) * δ + grace := by
  have hsome : 0 ≤ (n + 2 : ℚ) * δ := mul_nonneg (by positivity) hδ
  by_cases hin : place.housekeeping = true
  · have hleft : (place.left n + 1 : ℚ) ≤ n + 3 := by exact_mod_cast Nat.succ_le_succ h
    have hmore := mul_le_mul_of_nonneg_right hleft hδ
    rw [budget_of_housekeeping n δ grace hin]
    linarith
  · cases place with
    | called | claiming | waiting | draining | ended =>
        simp only [Place.budget]
        linarith
    | reclaiming | pruning | writing rest => exact absurd rfl hin

theorem longest_le_budget (hδ : 0 ≤ δ) (hgrace : 0 ≤ grace) (place : Place) :
    place.longest δ grace ≤ place.budget n δ grace := by
  by_cases h : place.housekeeping = true
  · have hmore : 0 ≤ (place.left n : ℚ) * δ := mul_nonneg (Nat.cast_nonneg _) hδ
    rw [longest_of_housekeeping δ grace h, budget_of_housekeeping n δ grace h]
    linarith
  · cases place with
    | claiming => simpa [Place.longest] using hgrace
    | called | waiting | draining | ended => simp [Place.longest, Place.budget, hgrace]
    | reclaiming | pruning | writing rest => exact absurd rfl h

/-- Within a pass. -/
theorem winds_housekeeping (hδ : 0 ≤ δ) {l : Loop} (hstopping : l.stopping = true)
    (h : l.place.housekeeping = true) {outcome : Outcome} (hgoes : outcome ≠ .cancelled)
    {w : Reading} (hn : w.tasks.length ≤ n) {d : ℚ} (hd : d ≤ δ) :
    Winds n δ grace l (l.resume outcome w) (.resume outcome w, d) := by
  have hrank := rank_of_housekeeping h n
  have hbudget := budget_of_housekeeping n δ grace h
  have hpos := left_pos h n
  have hleft : (1 : ℚ) ≤ l.place.left n := by exact_mod_cast hpos
  have hspare : δ ≤ l.place.left n * δ := le_mul_of_one_le_left hδ hleft
  rcases resume_housekeeping h hgoes hn with hclaim | ⟨event, place, heq, hevent, hin, hless⟩
  · generalize l.resume outcome w = u at hclaim
    cases hclaim with
    | claims hfree =>
        refine ⟨hstopping, ⟨[.claim], rfl, by simp⟩, ?_, ?_⟩
        · simp only [Turn.resumes, Loop.begin, rank_claiming, if_true, hrank]
          omega
        · simp only [Loop.begin, budget_claiming, hbudget]
          linarith
    | full hfull =>
        refine ⟨hstopping, ⟨[], (List.append_nil _).symm, by simp⟩, ?_, ?_⟩
        · simp only [Turn.resumes, Loop.wait, rank_waiting, if_true, hrank]
          omega
        · simp only [Loop.wait, budget_waiting, hbudget]
          linarith
  · rw [heq]
    have hnext : (place.left n + 1 : ℚ) ≤ l.place.left n := by exact_mod_cast hless
    have hshare : (place.left n + 1) * δ ≤ l.place.left n * δ :=
      mul_le_mul_of_nonneg_right hnext hδ
    refine ⟨hstopping, ⟨[event], rfl, by simpa using hevent.symm⟩, ?_, ?_⟩
    · simp only [Turn.resumes, Loop.begin, if_true, hrank, rank_of_housekeeping hin n]
      omega
    · simp only [Loop.begin, hbudget, budget_of_housekeeping n δ grace hin]
      linarith

/-- A way on which nothing is called. -/
theorem winds_quietly {l : Loop} (hstopping : l.stopping = true) {turn : Turn × ℚ} {place : Place}
    (hrank : 1 + place.rank n ≤ l.place.rank n)
    (hbudget : turn.2 + place.budget n δ grace ≤ l.place.budget n δ grace) :
    Winds n δ grace l { l with place := place } turn where
  stopping := hstopping
  events := ⟨[], (List.append_nil _).symm, by simp⟩
  rank := by
    show _ + place.rank n ≤ _
    split <;> omega
  budget := hbudget

/-- Out of the wait, or into the first pass there was to be: the loop of a worker that was stopped
goes on to drain. -/
theorem winds_head (hgrace : 0 ≤ grace) {l : Loop} (hstopping : l.stopping = true)
    (hrank : l.place.rank n = 2) (hbudget : l.place.budget n δ grace = grace) (w : Reading)
    {turn : Turn × ℚ} (hd : turn.2 ≤ 0) : Winds n δ grace l (l.head w) turn := by
  rw [Loop.head, if_pos hstopping, Loop.drain]
  cases w.running with
  | true =>
      apply winds_quietly hstopping
      · simp [hrank]
      · simp only [if_true, budget_draining, hbudget]
        linarith
  | false =>
      apply winds_quietly hstopping
      · simp [hrank]
      · simp only [Bool.false_eq_true, if_false, budget_ended, hbudget]
        linarith

theorem winds_step (hδ : 0 ≤ δ) (hgrace : 0 ≤ grace) {l t : Loop} {turn : Turn × ℚ}
    (hstopping : l.stopping = true) (htakes : Takes n δ grace l turn)
    (h : timed l turn = some t) : Winds n δ grace l t turn := by
  rcases turn with ⟨turn, d⟩
  cases turn with
  | stop =>
      cases h
      have hd : d ≤ 0 := htakes
      refine ⟨rfl, ⟨[.stop], rfl, by simp⟩, ?_, ?_⟩
      · simp [Turn.resumes, Loop.stop]
      · simp only [Loop.stop]
        linarith
  | resume outcome w =>
      rcases htakes with ⟨hn, hd⟩
      rw [timed, step] at h
      split at h
      · cases h
      · rename_i hended
        cases h
        have hpos := rank_pos hended n
        have hmost := longest_le_budget (n := n) hδ hgrace l.place
        by_cases hcancelled : outcome = .cancelled
        · -- whatever the loop was suspended in, nothing is left of it
          rw [Loop.resume, if_pos hcancelled]
          apply winds_quietly hstopping
          · rw [rank_ended]
            omega
          · rw [budget_ended]
            linarith
        · by_cases hin : l.place.housekeeping = true
          · rw [longest_of_housekeeping δ grace hin] at hd
            exact winds_housekeeping hδ hstopping hin hcancelled hn hd
          · simp only [Loop.resume, if_neg hcancelled]
            cases hplace : l.place with
            | reclaiming | pruning | writing rest =>
                rw [hplace] at hin
                exact absurd rfl hin
            | called | waiting =>
                rw [hplace] at hd
                exact winds_head hgrace hstopping (by rw [hplace]; rfl) (by rw [hplace]; rfl) w hd
            | claiming =>
                rw [hplace, Place.longest] at hd
                apply winds_quietly hstopping
                · rw [hplace, rank_waiting, rank_claiming]
                · rw [hplace, budget_waiting, budget_claiming]
                  linarith
            | draining =>
                rw [hplace, Place.longest] at hd
                apply winds_quietly hstopping
                · rw [hplace, rank_ended, rank_draining]
                · rw [hplace, budget_ended, budget_draining]
                  linarith
            | ended => exact absurd hplace hended

theorem winds_runAll (hδ : 0 ≤ δ) (hgrace : 0 ≤ grace) {l t : Loop} {turns : List (Turn × ℚ)}
    (hstopping : l.stopping = true) (htakes : Meets timed (Takes n δ grace) l turns)
    (h : runAll timed l turns = some t) :
    (∃ more, t.events = l.events ++ more ∧ .reclaim ∉ more) ∧
      turns.countP (·.1.resumes) + t.place.rank n ≤ l.place.rank n ∧
      (turns.map Prod.snd).sum + t.place.budget n δ grace ≤ l.place.budget n δ grace := by
  induction turns generalizing l with
  | nil =>
      cases h
      exact ⟨⟨[], (List.append_nil _).symm, by simp⟩, by simp, by simp⟩
  | cons turn rest ih =>
      rcases Option.bind_eq_some_iff.mp h with ⟨u, hu, ht⟩
      have hwinds := winds_step hδ hgrace hstopping htakes.1 hu
      rcases ih hwinds.stopping (htakes.2 u hu) ht with ⟨⟨more, hmore, hnone⟩, hrank, hbudget⟩
      rcases hwinds.events with ⟨first, hfirst, hnot⟩
      have hstep := hwinds.rank
      have hspent := hwinds.budget
      refine ⟨⟨first ++ more, ?_, ?_⟩, ?_, ?_⟩
      · rw [hmore, hfirst, List.append_assoc]
      · simp [hnot, hnone]
      · rw [List.countP_cons]
        omega
      · rw [List.map_cons, List.sum_cons]
        linarith

theorem left_step {l t : Loop} {turn : Turn} (h : l.place.left n ≤ n + 2) (hturn : turn.Within n)
    (ht : step l turn = some t) : t.place.left n ≤ n + 2 := by
  cases turn with
  | stop =>
      cases ht
      exact h
  | resume outcome w =>
      rw [step] at ht
      split at ht
      · cases ht
      · cases ht
        by_cases hcancelled : outcome = .cancelled
        · rw [Loop.resume, if_pos hcancelled]
          exact Nat.zero_le _
        · by_cases hin : l.place.housekeeping = true
          · rcases resume_housekeeping hin hcancelled hturn with
              hclaim | ⟨event, place, heq, -, -, hless⟩
            · generalize l.resume outcome w = u at hclaim
              cases hclaim <;> exact Nat.zero_le _
            · rw [heq]
              simp only [Loop.begin]
              omega
          · have hhead : (l.head w).place.left n ≤ n + 2 := by
              rw [Loop.head, Loop.drain]
              split
              · simp only
                split <;> exact Nat.zero_le _
              · exact le_rfl
            simp only [Loop.resume, if_neg hcancelled]
            cases hplace : l.place with
            | reclaiming | pruning | writing rest =>
                rw [hplace] at hin
                exact absurd rfl hin
            | called | waiting => exact hhead
            | claiming | draining | ended => exact Nat.zero_le _

/-- A worker that was stopped is on its way out. In an application of `n` tasks, with every call of
the store over within `δ`, it begins no pass, and the loop is over before it was suspended `n + 6`
times and within the calls of one pass and the grace, wherever in a pass the stop found it and
however those calls end. -/
theorem stopped_worker_goes {l t : Loop} {turns : List (Turn × ℚ)} (hδ : 0 ≤ δ)
    (hgrace : 0 ≤ grace) (hreach : Reach step (fun _ turn => turn.Within n) started l)
    (hstopping : l.stopping = true) (htakes : Meets timed (Takes n δ grace) l turns)
    (h : runAll timed l turns = some t) :
    (∃ more, t.events = l.events ++ more ∧ .reclaim ∉ more) ∧
      (turns.map Prod.snd).sum ≤ (n + 3) * δ + grace ∧
      turns.countP (·.1.resumes) ≤ n + 5 ∧
      (turns.countP (·.1.resumes) = n + 5 → t.place = .ended) := by
  have hleft : l.place.left n ≤ n + 2 :=
    hreach.invariant (I := fun l : Loop => l.place.left n ≤ n + 2) (Nat.zero_le _)
      fun _ hs hok ht => left_step hs hok ht
  rcases winds_runAll hδ hgrace hstopping htakes h with ⟨hevents, hrank, hbudget⟩
  have hmost := rank_le hleft
  have hlongest := budget_le hδ hgrace hleft
  have hspare : 0 ≤ t.place.budget n δ grace := by
    have hnone : 0 ≤ t.place.longest δ grace := by
      cases t.place <;> simp [Place.longest, hδ, hgrace]
    exact hnone.trans (longest_le_budget hδ hgrace t.place)
  refine ⟨hevents, by linarith, by omega, fun hlast => ?_⟩
  by_contra hopen
  have hpos := rank_pos hopen n
  omega

/-- A pass with a pruning to make and one slot to write, and a run in flight. -/
def atSlot : Reading := ⟨["task"], true, fun _ => .write, 1, true⟩

/-- From the reclaim on, the calls of that pass raise and answer in turn. -/
def wayOut : List (Turn × ℚ) :=
  [(.resume .raised atSlot, 2), (.resume .answered atSlot, 1), (.resume .raised atSlot, 2),
   (.resume .answered atSlot, 1), (.resume .answered atSlot, 0), (.resume .answered atSlot, 30)]

theorem pass_gets_to_its_claim_atSlot : ∃ l t,
    runAll step started [.resume .answered atSlot] = some l ∧
      runAll step l [.resume .raised atSlot, .stop, .resume .raised atSlot,
        .resume .raised atSlot] = some t ∧
      ∃ before outcome w after u, [Turn.resume .raised atSlot, .stop, .resume .raised atSlot,
          .resume .raised atSlot] = before ++ .resume outcome w :: after ∧
        before.countP Turn.resumes < l.place.left 1 ∧ runAll step l before = some u ∧
        u.place.housekeeping = true ∧ (∃ more, u.events = l.events ++ more ∧ .reclaim ∉ more) ∧
        Concludes u w (u.resume outcome w) := by
  refine ⟨_, _, rfl, rfl, pass_gets_to_its_claim rfl (fun turn hturn => ?_) rfl ?_⟩
  · simp only [List.mem_cons, List.not_mem_nil, or_false] at hturn
    rcases hturn with rfl | rfl | rfl | rfl
    · exact ⟨by decide, le_rfl⟩
    · trivial
    · exact ⟨by decide, le_rfl⟩
    · exact ⟨by decide, le_rfl⟩
  · decide

theorem stopped_worker_goes_wayOut : ∃ l t,
    runAll step started [.resume .answered atSlot, .stop] = some l ∧
      runAll timed l wayOut = some t ∧ t.place = .ended ∧
      (∃ more, t.events = l.events ++ more ∧ .reclaim ∉ more) ∧
      (wayOut.map Prod.snd).sum ≤ (1 + 3) * 2 + 30 := by
  have hbegun : Meets step (fun _ turn => turn.Within 1) started
      [.resume .answered atSlot, .stop] := by decide
  rcases Option.isSome_iff_exists.mp
    (show (runAll step started [.resume .answered atSlot, .stop]).isSome from rfl) with ⟨l, hl⟩
  have htakes : Meets timed (Takes 1 2 30) l wayOut := by
    cases hl
    decide +kernel
  rcases Option.isSome_iff_exists.mp (show (runAll timed l wayOut).isSome by cases hl; rfl) with
    ⟨t, ht⟩
  have hstopping : l.stopping = true := by
    cases hl
    rfl
  have hgoes := stopped_worker_goes (n := 1) (by norm_num) (by norm_num)
    (.of_meets .start hbegun hl) hstopping htakes ht
  refine ⟨l, t, hl, ht, ?_, hgoes.1, by exact_mod_cast hgoes.2.1⟩
  cases hl
  cases ht
  rfl

end Queuefy.Polling
