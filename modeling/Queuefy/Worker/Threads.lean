import Queuefy.Fleet.Budget
import Queuefy.Lib.Lists
import Queuefy.Store.Redis
import Queuefy.Store.Sql

/-! # The threads a worker claims against

One worker and its pool. The loop runs the tasks of the claimed runs, one step at a time, and the
threads run the work handed to them; a step of a thread falls between any two steps of the loop.
`Worker.running` holds a task from the moment it is made until a callback the loop runs some time
after it is over, and `Worker.stranded` the work a task left on its thread, from there until a
callback the work itself runs. Neither of them counts the work there is; what a worker claims
against is their sum.
-/

namespace Queuefy.Threads

open Tally

/-- A piece of work in the pool: waiting for a thread, on one, finished, or taken back before a
thread had it. -/
inductive Work
  | queued | onThread | finished | canceled
deriving DecidableEq

def Work.done : Work → Bool
  | .queued | .onThread => false
  | .finished | .canceled => true

/-- Where the task of a claimed run is. The last lines of `Worker.call` are a stage each, because
the thread may finish between them. -/
inductive Stage
  | starting
  /-- Inside the `try` of `call`, its work handed over. -/
  | waiting
  /-- The work was seen not to be done. -/
  | leaving
  /-- The work was added to the stranded, with no callback on it yet. -/
  | stranding
  /-- Past the call, or with none to make. -/
  | closing
  | over
deriving DecidableEq

/-- A claimed run as its worker accounts for it: its task, its work, whether it is in `running` and
whether its work is in `stranded`, and the callback that takes it out of there. -/
structure Holding (ι V : Type) where
  row : Row ι V
  stage : Stage
  work : Option Work
  running : Bool
  stranded : Bool
  watched : Bool

/-- What a task, its work or a callback of either does next. -/
inductive Act
  | submit | skip | cancel | leave | strand | watch | conclude | forget | finish | discard
deriving DecidableEq

variable {ι V : Type}

namespace Holding

/-- `Worker.spawn`. -/
def spawn (row : Row ι V) : Holding ι V := ⟨row, .starting, none, true, false, false⟩

/-- The work was handed over and is not done. -/
def unfinished (h : Holding ι V) : Bool := h.work.any fun work => !work.done

/-- The task may hand its work over yet. -/
def unsubmitted (h : Holding ι V) : Bool := h.work.isNone && h.stage ≠ .over

def queued (h : Holding ι V) : Bool := h.work = some .queued

def onThread (h : Holding ι V) : Bool := h.work = some .onThread

/-- One step, given whether the handler is a plain function. A run whose handler is not is one
whose task never hands anything over, and so is one cancelled before it is called. -/
def act (plain : Bool) (h : Holding ι V) : Act → Option (Holding ι V)
  | .submit =>
      if h.stage = .starting ∧ plain then
        some { h with stage := .waiting, work := some .queued }
      else none
  | .skip => if h.stage = .starting then some { h with stage := .closing } else none
  | .cancel =>
      if h.stage = .waiting ∧ h.work = some .queued then some { h with work := some .canceled }
      else none
  | .leave =>
      if h.stage = .waiting then
        some { h with stage := if h.unfinished then .leaving else .closing }
      else none
  | .strand =>
      if h.stage = .leaving then some { h with stage := .stranding, stranded := true } else none
  | .watch =>
      -- a callback added to work that is done is called there and then
      if h.stage = .stranding then
        if h.unfinished then some { h with stage := .closing, watched := true }
        else some { h with stage := .closing, stranded := false }
      else none
  | .conclude => if h.stage = .closing then some { h with stage := .over } else none
  | .forget => if h.stage = .over ∧ h.running then some { h with running := false } else none
  | .finish => if h.work = some .onThread then some { h with work := some .finished } else none
  | .discard =>
      if h.work = some .finished ∧ h.watched then
        some { h with stranded := false, watched := false }
      else none

end Holding

/-- The claimed runs, in the order they came, and the limit of the claim a pass waits for. -/
structure Roster (ι V : Type) where
  held : List (Holding ι V)
  pass : Option Nat

inductive Event (ι V : Type)
  | ask
  | answered (rows : List (Row ι V))
  | refused
  | pick (i : Nat)
  | act (i : Nat) (act : Act)

namespace Roster

def start : Roster ι V := ⟨[], none⟩

/-- `Worker.holding`. -/
def holding (s : Roster ι V) : Nat := s.held.countP (·.stranded)

/-- `Worker.free`. -/
def free (concurrency : Nat) (s : Roster ι V) : Int :=
  concurrency - s.held.countP (·.running) - s.holding

/-- The threads inside a handler. -/
def busy (s : Roster ι V) : Nat := s.held.countP (·.onThread)

def replace (s : Roster ι V) (i : Nat) (h : Holding ι V) : Roster ι V :=
  { s with held := s.held.set i h }

/-- One step. A pass that finds nothing free is over there, and no pass begins while another waits
for its claim. The pool has as many threads as the worker holds runs. -/
def step (w : Worker) (concurrency : Nat) (s : Roster ι V) : Event ι V → Option (Roster ι V)
  | .ask =>
      match s.pass with
      | some _ => none
      | none =>
          if s.free concurrency ≤ 0 then some s
          else some { s with pass := some (s.free concurrency).toNat }
  | .answered rows =>
      match s.pass with
      | some limit =>
          if rows.length ≤ limit then some ⟨s.held ++ rows.map .spawn, none⟩ else none
      | none => none
  | .refused => if s.pass.isSome then some { s with pass := none } else none
  | .pick i =>
      match s.held[i]? with
      | some h =>
          if h.queued ∧ s.busy < concurrency then
            some (s.replace i { h with work := some .onThread })
          else none
      | none => none
  | .act i act =>
      match s.held[i]? with
      | some h => (h.act (w.handler h.row.name = some .plain) act).map (s.replace i)
      | none => none

end Roster

/-! ## What one run holds -/

namespace Holding

/-- The run may be on a thread, or may come to be on one. -/
def live (h : Holding ι V) : Bool := h.unfinished || h.unsubmitted

/-- A task that is not over is in `running`, and work left behind is in `stranded`. -/
structure Sound (h : Holding ι V) : Prop where
  fresh : h.stage = .starting → h.work = none
  listed : h.stage ≠ .over → h.running = true
  kept : h.unfinished = true → h.stage = .waiting ∨ h.stage = .leaving ∨ h.stranded = true

theorem spawn_sound (row : Row ι V) : (spawn row).Sound :=
  ⟨fun _ => rfl, fun _ => rfl, nofun⟩

/-- What is live is counted in one of the two sets, and sometimes in both. -/
theorem Sound.counted {h : Holding ι V} (hs : h.Sound) (hlive : h.live = true) :
    h.running = true ∨ h.stranded = true := by
  rcases Bool.or_eq_true_iff.mp hlive with hwork | htask
  · rcases hs.kept hwork with hstage | hstage | hstranded
    · exact Or.inl (hs.listed (by simp [hstage]))
    · exact Or.inl (hs.listed (by simp [hstage]))
    · exact Or.inr hstranded
  · exact Or.inl (hs.listed (by simpa [unsubmitted] using (Bool.and_eq_true_iff.mp htask).2))

/-- A step that keeps a run so accounted for, and makes none live that was not. -/
def Onward (h t : Holding ι V) : Prop := t.Sound ∧ (t.live = true → h.live = true)

theorem Sound.submit {h : Holding ι V} (hs : h.Sound) (hstage : h.stage = .starting) :
    h.Onward { h with stage := .waiting, work := some .queued } := by
  have hrunning := hs.listed (by simp [hstage])
  refine ⟨⟨nofun, fun _ => hrunning, fun _ => Or.inl rfl⟩, fun _ => ?_⟩
  simp [live, unsubmitted, hs.fresh hstage, hstage]

theorem Sound.skip {h : Holding ι V} (hs : h.Sound) (hstage : h.stage = .starting) :
    h.Onward { h with stage := .closing } := by
  have hrunning := hs.listed (by simp [hstage])
  refine ⟨⟨nofun, fun _ => hrunning, ?_⟩, fun _ => ?_⟩
  · simp [unfinished, hs.fresh hstage]
  · simp [live, unsubmitted, hs.fresh hstage, hstage]

theorem Sound.cancel {h : Holding ι V} (hs : h.Sound) (hstage : h.stage = .waiting) :
    h.Onward { h with work := some .canceled } := by
  refine ⟨⟨?_, hs.listed, nofun⟩, nofun⟩
  simp [hstage]

theorem Sound.leave {h : Holding ι V} (hs : h.Sound) (hstage : h.stage = .waiting) :
    h.Onward { h with stage := if h.unfinished then .leaving else .closing } := by
  have hrunning := hs.listed (by simp [hstage])
  refine ⟨⟨?_, fun _ => hrunning, fun hwork => ?_⟩, fun hlive => ?_⟩
  · split <;> exact nofun
  · exact Or.inr (Or.inl (if_pos hwork))
  · rcases Bool.or_eq_true_iff.mp hlive with hwork | htask
    · exact Bool.or_eq_true_iff.mpr (Or.inl hwork)
    · apply Bool.or_eq_true_iff.mpr
      apply Or.inr
      exact Bool.and_eq_true_iff.mpr ⟨(Bool.and_eq_true_iff.mp htask).1, by simp [hstage]⟩

theorem Sound.strand {h : Holding ι V} (hs : h.Sound) (hstage : h.stage = .leaving) :
    h.Onward { h with stage := .stranding, stranded := true } := by
  have hrunning := hs.listed (by simp [hstage])
  refine ⟨⟨nofun, fun _ => hrunning, fun _ => Or.inr (Or.inr rfl)⟩, fun hlive => ?_⟩
  simpa [live, unfinished, unsubmitted, hstage] using hlive

theorem Sound.watch {h : Holding ι V} (hs : h.Sound) (hstage : h.stage = .stranding)
    (hwork : h.unfinished = true) : h.Onward { h with stage := .closing, watched := true } := by
  have hrunning := hs.listed (by simp [hstage])
  have hkept := hs.kept hwork
  refine ⟨⟨nofun, fun _ => hrunning, fun _ => ?_⟩, fun hlive => ?_⟩
  · simpa [hstage] using hkept
  · simpa [live, unfinished, unsubmitted, hstage] using hlive

/-- The callback is called there and then. -/
theorem Sound.watch_done {h : Holding ι V} (hs : h.Sound) (hstage : h.stage = .stranding)
    (hwork : h.unfinished ≠ true) : h.Onward { h with stage := .closing, stranded := false } := by
  have hrunning := hs.listed (by simp [hstage])
  refine ⟨⟨nofun, fun _ => hrunning, fun h => absurd h hwork⟩, fun hlive => ?_⟩
  simpa [live, unfinished, unsubmitted, hstage] using hlive

theorem Sound.conclude {h : Holding ι V} (hs : h.Sound) (hstage : h.stage = .closing) :
    h.Onward { h with stage := .over } := by
  refine ⟨⟨nofun, fun h => absurd rfl h, fun hwork => ?_⟩, fun hlive => ?_⟩
  · have hkept := hs.kept hwork
    simpa [hstage] using hkept
  · have hwork : h.unfinished = true := by
      simpa [live, unfinished, unsubmitted] using hlive
    exact Bool.or_eq_true_iff.mpr (Or.inl hwork)

theorem Sound.forget {h : Holding ι V} (hs : h.Sound) (hstage : h.stage = .over) :
    h.Onward { h with running := false } :=
  ⟨⟨hs.fresh, fun h => absurd hstage h, hs.kept⟩, fun hlive => hlive⟩

theorem Sound.finish {h : Holding ι V} (hs : h.Sound) (hwork : h.work = some .onThread) :
    h.Onward { h with work := some .finished } := by
  refine ⟨⟨fun hstage => ?_, hs.listed, nofun⟩, nofun⟩
  simp [hs.fresh hstage] at hwork

theorem Sound.discard {h : Holding ι V} (hs : h.Sound) (hdone : h.work = some .finished) :
    h.Onward { h with stranded := false, watched := false } := by
  refine ⟨⟨hs.fresh, hs.listed, fun hwork => ?_⟩, fun hlive => hlive⟩
  simp [unfinished, hdone, Work.done] at hwork

theorem Sound.act {plain : Bool} {h t : Holding ι V} {a : Act} (hs : h.Sound)
    (ht : h.act plain a = some t) : h.Onward t := by
  have hguard : ∀ {p : Prop} [Decidable p] {u : Holding ι V},
      (if p then some u else none) = some t → p ∧ u = t := fun h => by simpa using h
  cases a with
  | submit =>
      rcases hguard ht with ⟨hcond, rfl⟩
      exact hs.submit hcond.1
  | skip =>
      rcases hguard ht with ⟨hcond, rfl⟩
      exact hs.skip hcond
  | cancel =>
      rcases hguard ht with ⟨hcond, rfl⟩
      exact hs.cancel hcond.1
  | leave =>
      rcases hguard ht with ⟨hcond, rfl⟩
      exact hs.leave hcond
  | strand =>
      rcases hguard ht with ⟨hcond, rfl⟩
      exact hs.strand hcond
  | watch =>
      simp only [Holding.act] at ht
      split at ht
      · rename_i hstage
        split at ht <;> cases ht
        · rename_i hwork
          exact hs.watch hstage hwork
        · rename_i hwork
          exact hs.watch_done hstage hwork
      · cases ht
  | conclude =>
      rcases hguard ht with ⟨hcond, rfl⟩
      exact hs.conclude hcond
  | forget =>
      rcases hguard ht with ⟨hcond, rfl⟩
      exact hs.forget hcond.1
  | finish =>
      rcases hguard ht with ⟨hcond, rfl⟩
      exact hs.finish hcond
  | discard =>
      rcases hguard ht with ⟨hcond, rfl⟩
      exact hs.discard hcond.1

end Holding

namespace Roster

/-- What a worker claims against covers what is live, with the limit of a claim it waits for. -/
structure Within (concurrency : Nat) (s : Roster ι V) : Prop where
  sound : ∀ h ∈ s.held, h.Sound
  room : s.held.countP (·.live) + s.pass.getD 0 ≤ concurrency

theorem start_within (concurrency : Nat) : Within concurrency (start : Roster ι V) :=
  ⟨fun _ hh => absurd hh List.not_mem_nil, by simp [start]⟩

theorem live_le_counted {s : Roster ι V} (hsound : ∀ h ∈ s.held, h.Sound) :
    s.held.countP (·.live) ≤ s.held.countP (·.running) + s.holding :=
  countP_le_add fun h hh => (hsound h hh).counted

/-- A change of one run that leaves it sound and no more live leaves the worker within bounds. -/
theorem Within.replace {concurrency : Nat} {s : Roster ι V} (hs : s.Within concurrency) {i : Nat}
    {h t : Holding ι V} (hget : s.held[i]? = some h) (ht : t.Sound)
    (hlive : t.live = true → h.live = true) : (s.replace i t).Within concurrency where
  sound := by
    intro u hu
    rcases List.mem_or_eq_of_mem_set hu with hmem | rfl
    · exact hs.sound u hmem
    · exact ht
  room := by
    have hcount : (s.held.set i t).countP (·.live) ≤ s.held.countP (·.live) :=
      countP_set_le hget hlive
    have hroom := hs.room
    show (s.held.set i t).countP (·.live) + s.pass.getD 0 ≤ concurrency
    omega

/-- What a claim answers with is within what was free when it was asked. -/
theorem Within.spawn {concurrency : Nat} {s : Roster ι V} (hs : s.Within concurrency)
    {rows : List (Row ι V)} {limit : Nat} (hpass : s.pass = some limit)
    (hlimit : rows.length ≤ limit) :
    Within concurrency { s with held := s.held ++ rows.map Holding.spawn, pass := none } := by
  have hroom := hs.room
  refine ⟨fun h hh => ?_, ?_⟩
  · rcases List.mem_append.mp hh with hold | hnew
    · exact hs.sound h hold
    · rcases List.mem_map.mp hnew with ⟨row, -, rfl⟩
      exact Holding.spawn_sound row
  · have hnew := List.countP_le_length (l := rows.map Holding.spawn) (p := fun h => h.live)
    rw [List.length_map] at hnew
    rw [hpass, Option.getD_some] at hroom
    rw [List.countP_append, Option.getD_none]
    omega

theorem Within.step {w : Worker} {concurrency : Nat} {s t : Roster ι V} {e : Event ι V}
    (hs : s.Within concurrency) (ht : s.step w concurrency e = some t) :
    t.Within concurrency := by
  have hroom := hs.room
  cases e with
  | ask =>
      simp only [Roster.step] at ht
      split at ht
      · cases ht
      · split at ht
        · cases ht
          exact hs
        · cases ht
          refine ⟨hs.sound, ?_⟩
          have hcounted := live_le_counted hs.sound
          simp only [free, Option.getD_some]
          omega
  | answered rows =>
      simp only [Roster.step] at ht
      split at ht
      · rename_i limit hpass
        split at ht
        · rename_i hlimit
          cases ht
          exact hs.spawn hpass hlimit
        · cases ht
      · cases ht
  | refused =>
      simp only [Roster.step] at ht
      split at ht
      · cases ht
        refine ⟨hs.sound, ?_⟩
        show s.held.countP (·.live) + 0 ≤ concurrency
        omega
      · cases ht
  | pick i =>
      simp only [Roster.step] at ht
      split at ht
      · rename_i h hget
        split at ht
        · rename_i hcond
          cases ht
          have hsound := hs.sound h (List.mem_of_getElem? hget)
          have hwork : h.work = some .queued := by simpa [Holding.queued] using hcond.1
          have hunfinished : h.unfinished = true := by simp [Holding.unfinished, hwork, Work.done]
          refine hs.replace hget
            ⟨fun hstage => ?_, hsound.listed, fun _ => hsound.kept hunfinished⟩ fun _ => ?_
          · simp [hsound.fresh hstage] at hwork
          · exact Bool.or_eq_true_iff.mpr (Or.inl hunfinished)
        · cases ht
      · cases ht
  | act i act =>
      simp only [Roster.step] at ht
      split at ht
      · rename_i h hget
        obtain ⟨u, hu, rfl⟩ := Option.map_eq_some_iff.mp ht
        obtain ⟨hsound, hlive⟩ := (hs.sound h (List.mem_of_getElem? hget)).act hu
        exact hs.replace hget hsound hlive
      · cases ht

theorem Within.reach {w : Worker} {concurrency : Nat} {s : Roster ι V}
    (h : Reach (Roster.step w concurrency) Unconditional start s) : s.Within concurrency :=
  h.invariant (start_within concurrency) fun _ hs _ ht => hs.step ht

/-- What is on a thread or waits for one, and what may come to, fits the threads there are. -/
theorem Within.unfinished_le {concurrency : Nat} {s : Roster ι V} (hs : s.Within concurrency) :
    s.held.countP (·.unfinished) + s.held.countP (·.unsubmitted) ≤ concurrency := by
  have hcount : s.held.countP (·.unfinished) + s.held.countP (·.unsubmitted) ≤
      s.held.countP (·.live) := by
    apply add_le_countP
    · exact fun h _ hwork => Bool.or_eq_true_iff.mpr (Or.inl hwork)
    · exact fun h _ htask => Bool.or_eq_true_iff.mpr (Or.inr htask)
    · intro h _ hwork
      cases hw : h.work with
      | none => simp [Holding.unfinished, hw] at hwork
      | some work => simp [Holding.unsubmitted, hw]
  have hroom := hs.room
  omega

theorem queued_add_busy_le (s : Roster ι V) :
    s.held.countP (·.queued) + s.busy ≤ s.held.countP (·.unfinished) := by
  apply add_le_countP
  · intro h _ hwork
    have hwork : h.work = some .queued := by simpa [Holding.queued] using hwork
    simp [Holding.unfinished, hwork, Work.done]
  · intro h _ hwork
    have hwork : h.work = some .onThread := by simpa [Holding.onThread] using hwork
    simp [Holding.unfinished, hwork, Work.done]
  · intro h _ hwork
    have hwork : h.work = some .queued := by simpa [Holding.queued] using hwork
    simp [Holding.onThread, hwork]

/-- Work that waits for a thread finds one free. -/
theorem Within.picks {w : Worker} {concurrency : Nat} {s : Roster ι V} (hs : s.Within concurrency)
    {i : Nat} {h : Holding ι V} (hget : s.held[i]? = some h) (hqueued : h.queued = true) :
    (s.step w concurrency (.pick i)).isSome = true := by
  have hone : 0 < s.held.countP (·.queued) :=
    List.countP_pos_iff.mpr ⟨h, List.mem_of_getElem? hget, hqueued⟩
  have hbusy := s.queued_add_busy_le
  have hfits := hs.unfinished_le
  have hfree : s.busy < concurrency := by omega
  simp only [Roster.step, hget]
  rw [if_pos ⟨hqueued, hfree⟩]
  rfl

/-- Over every run of one worker whose passes never overlap, the work it handed over and that is not
done, with the claimed runs that may still hand theirs over, is never more than it may hold. So what
a run hands over finds a thread free for it. -/
theorem threads_suffice {w : Worker} {concurrency : Nat} {s : Roster ι V}
    (h : Reach (Roster.step w concurrency) Unconditional start s) :
    s.held.countP (·.unfinished) + s.held.countP (·.unsubmitted) ≤ concurrency ∧
    s.held.countP (·.queued) + s.busy ≤ concurrency ∧
    ∀ i t, s.step w concurrency (.act i .submit) = some t →
      (t.step w concurrency (.pick i)).isSome = true := by
  have hs := Within.reach h
  have hfits := hs.unfinished_le
  have hbusy := s.queued_add_busy_le
  refine ⟨hfits, by omega, fun i t ht => ?_⟩
  have hafter := hs.step ht
  simp only [Roster.step] at ht
  split at ht
  · rename_i hold hget
    obtain ⟨u, hu, rfl⟩ := Option.map_eq_some_iff.mp ht
    obtain ⟨hlt, -⟩ := List.getElem?_eq_some_iff.mp hget
    apply hafter.picks (h := u)
    · show (s.held.set i u)[i]? = some u
      rw [List.getElem?_set_self hlt]
    · simp only [Holding.act] at hu
      split at hu
      · cases hu
        rfl
      · cases hu
  · cases ht

/-- A handler outlives the wait for it and keeps its thread; its run is gone by the next pass. -/
def stalled : List (Event Nat Unit) :=
  [.ask, .answered [⟨build Fleet.remote .epoch .epoch () none none, 1⟩], .act 0 .submit, .pick 0,
   .act 0 .leave, .act 0 .strand, .act 0 .watch, .act 0 .conclude, .act 0 .forget, .ask,
   .answered [⟨build Fleet.remote .epoch .epoch () none none, 2⟩]]

theorem threads_suffice_stalled : ∃ s : Roster Nat Unit,
    Reach (Roster.step Fleet.declaring 2) Unconditional start s ∧ s.busy = 1 ∧
      s.held.countP (·.unfinished) + s.held.countP (·.unsubmitted) = 2 ∧
      (∀ t, s.step Fleet.declaring 2 (.act 1 .submit) = some t →
        (t.step Fleet.declaring 2 (.pick 1)).isSome = true) := by
  obtain ⟨s, hs, hbusy, hcount⟩ : ∃ s : Roster Nat Unit,
      Reach (Roster.step Fleet.declaring 2) Unconditional start s ∧ s.busy = 1 ∧
      s.held.countP (·.unfinished) + s.held.countP (·.unsubmitted) = 2 :=
    ⟨(runAll (Roster.step Fleet.declaring 2) start stalled).get (by rfl),
      .of_runAll .start (Option.some_get _).symm, by rfl, by rfl⟩
  exact ⟨s, hs, hbusy, hcount, (threads_suffice hs).2.2 1⟩

end Roster

/-! ## What a pass is answered

A store answers a claim with no more runs than it was asked for, which is what a pass relies on.
-/

theorem claimEach_length_le {worker : String} {limit : Nat} {lease : Int} {moment : Instant}
    {rows taken answer : List (Row Nat V)} {m : MemoryStore V} (hle : taken.length ≤ limit)
    (h : (MemoryStore.claimEach worker limit lease moment rows m taken).1 = .ok answer) :
    answer.length ≤ limit := by
  induction rows generalizing m taken with
  | nil =>
      cases h
      exact hle
  | cons row rest ih =>
      rw [MemoryStore.claimEach] at h
      split at h
      · cases h
        exact hle
      · rename_i hne
        split at h
        · cases h
        · apply ih _ h
          rw [List.length_append, List.length_singleton]
          omega

theorem claim_length_le {m : MemoryStore V} {worker : String} {queues : List String} {limit : Nat}
    {lease : Int} {moment : Instant} {answer : List (Row Nat V)}
    (h : (m.claim worker queues limit lease moment).1 = .ok answer) : answer.length ≤ limit :=
  have hnone : ([] : List (Row Nat V)).length ≤ limit := Nat.zero_le limit
  claimEach_length_le hnone h

theorem takeEach_length_le {worker : String} {limit : Nat} {moment lease : Instant}
    {ids : List Nat} {taken answer : List (Row Nat V)} {ws : List (Statement V × Table V)}
    (hle : taken.length ≤ limit)
    (h : Prog.Comes Table.exec (SqlStore.takeEach worker limit moment lease ids taken) ws
      (.done answer)) : answer.length ≤ limit := by
  induction ids generalizing taken ws with
  | nil =>
      obtain ⟨-, heq⟩ := h.of_done
      cases heq
      exact hle
  | cons id rest ih =>
      rw [SqlStore.takeEach] at h
      split at h
      · obtain ⟨-, heq⟩ := h.of_done
        cases heq
        exact hle
      · rename_i hne
        rcases h.of_write with ⟨-, heq⟩ | ⟨t, later, -, hlater⟩
        · cases heq
        · apply ih _ hlater
          split
          · rename_i hone
            rw [List.length_append, hone]
            omega
          · exact hle

theorem sql_claim_length_le {worker : String} {queues : List String} {limit : Nat} {lease : Int}
    {moment : Instant} {answer : List (Row Nat V)} {ws : List (Statement V × Table V)}
    (h : Prog.Comes Table.exec (SqlStore.claim worker queues limit lease moment) ws
      (.done (.ok answer))) : answer.length ≤ limit := by
  rcases h.of_read with ⟨-, heq⟩ | ⟨t, ht⟩
  · cases heq
  · split at ht
    · split at ht
      · obtain ⟨-, heq⟩ := ht.of_done
        cases heq
        exact Nat.zero_le limit
      · obtain ⟨-, heq⟩ := ht.of_done
        cases heq
    · obtain ⟨r, hr, hcomes⟩ := ht.of_map
      obtain ⟨taken, rfl, heq⟩ := Prog.map_eq_done hr.symm
      cases heq
      have hnone : ([] : List (Row Nat V)).length ≤ limit := Nat.zero_le limit
      exact takeEach_length_le hnone hcomes

theorem takeReady_length_le {worker moment lease : String} {wanted : Nat}
    {entries : List Redis.Ready} {taken out : List Hash} {s : Redis} (hle : taken.length ≤ wanted)
    (h : (Redis.takeReady worker moment lease wanted entries taken s).1 = some out) :
    out.length ≤ wanted := by
  induction entries generalizing taken s with
  | nil =>
      cases h
      exact hle
  | cons entry rest ih =>
      unfold Redis.takeReady at h
      split at h
      · cases h
        exact hle
      · rename_i hlt
        split at h
        · cases h
        · rename_i hash t _
          have hone : (taken ++ hash.toList).length ≤ wanted := by
            rw [List.length_append, Option.length_toList]
            split <;> omega
          exact ih hone h

theorem takeLevels_length_le {queues : List String} {worker moment lease : String}
    {wanted window : Nat} {levels : List String} {taken out : List Hash} {s : Redis}
    (hle : taken.length ≤ wanted)
    (h : (Redis.takeLevels queues worker moment lease wanted window levels taken s).1 =
      some out) : out.length ≤ wanted := by
  induction levels generalizing taken s with
  | nil =>
      cases h
      exact hle
  | cons level rest ih =>
      unfold Redis.takeLevels at h
      split at h
      · cases h
        exact hle
      · split at h
        · cases h
        · rename_i taken' t hready
          have hsome : (Redis.takeReady worker moment lease wanted
              (s.ready queues moment window level) taken s).1 = some taken' := by rw [hready]
          exact ih (takeReady_length_le hle hsome) h

theorem length_of_mapM {α β : Type} {f : α → Option β} {l : List α} {m : List β}
    (h : l.mapM f = some m) : m.length = l.length := by
  induction l generalizing m with
  | nil => simp_all
  | cons a l ih =>
      rw [List.mapM_cons] at h
      obtain ⟨b, hb, h⟩ := Option.bind_eq_some_iff.mp h
      obtain ⟨rest, hrest, h⟩ := Option.bind_eq_some_iff.mp h
      cases h
      rw [List.length_cons, List.length_cons, ih hrest]

theorem redis_claim_length_le {codec : Codec V} {s : Redis} {worker : String}
    {queues : List String} {limit : Nat} {lease : Int} {moment : Instant}
    {answer : List (Row String V)}
    (h : (RedisStore.claim codec s worker queues limit lease moment).1 = .ok (some answer)) :
    answer.length ≤ limit := by
  unfold RedisStore.claim at h
  split at h
  · cases h
  · rcases Option.bind_eq_some_iff.1 (Except.ok.inj h) with ⟨taken, htaken, hread⟩
    have hnone : ([] : List Hash).length ≤ limit := Nat.zero_le limit
    rw [length_of_mapM hread]
    exact takeLevels_length_le hnone htaken

end Queuefy.Threads
