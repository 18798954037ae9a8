import Queuefy.Fleet.Budget

/-! # Attempts that stand as spent

Whether an attempt is spent is decided where its ending is asked, far from where its handler is
called. An ending that spends one follows a handler that was called, or a pool that turned the
handler away because its worker had already shut it down: handing work over then raises where a
failure of the handler would, and is taken for one.
-/

namespace Queuefy.Fleet

variable {V : Type} (team : Nat → Worker)

/-- No attempt hands a plain handler to a pool its worker has shut down. -/
def HandedInTime (s : Fleet V) (e : Event V) : Prop :=
  ∀ i account c, e = .move i (.call account) → s.claims[i]? = some c →
    (s.shifts c.worker).loop = .ended → (team c.worker).handler c.row.name ≠ some .plain

instance (s : Fleet V) (e : Event V) : Decidable (HandedInTime team s e) :=
  match e with
  | .move i (.call account) =>
      decidable_of_iff (∀ c ∈ s.claims[i]?, (s.shifts c.worker).loop = .ended →
        (team c.worker).handler c.row.name ≠ some .plain)
        ⟨fun h j account c he hc => by cases he; exact h c hc, fun h c hc => h i account c rfl hc⟩
  | .move _ .pick | .move _ .unqueue | .move _ (.timeout _) | .move _ (.finish ..)
  | .move _ .cancel | .add .. | .claim .. | .reclaim _ | .cancel .. | .purge .. | .push ..
  | .beatLands .. | .lands _ | .stop _ | .drain _ | .shut _ => isTrue (by intro _ _ _ he; cases he)

variable {team}

theorem Advance.not_refused {s : Fleet V} {e : Event V} {i : Nat} {c c₁ : Claim V}
    (h : Advance team s e i c c₁) (hc : s.claims[i]? = some c) (hok : HandedInTime team s e)
    (hwas : c.work ≠ .refused) : c₁.work ≠ .refused := by
  cases h with
  | moved m a he hm =>
      intro hwork
      rcases Attempt.move_refused hm hwork with hbefore | ⟨⟨account, rfl⟩, hplain, hclosed⟩
      · exact hwas hbefore
      · exact hok i account c he hc (by simpa using hclosed) hplain
  | _ => exact hwas

theorem reach_not_refused {s : Fleet V}
    (h : Reach (Fleet.step team) (HandedInTime team) start s) :
    ∀ c ∈ s.claims, c.work ≠ .refused := by
  refine h.invariant (I := fun s => ∀ c ∈ s.claims, c.work ≠ .refused) (by simp [start]) ?_
  intro s t e _ hN hok hstep c hc
  obtain ⟨u, fresh, hact, rfl⟩ := (step_eq_some team).1 hstep
  obtain ⟨i, hci⟩ := List.getElem?_of_mem hc
  rcases step_claim team hact hci with ⟨c₀, c₁, hc₀, hadv, rfl⟩ | ⟨-, hf⟩
  · exact hadv.not_refused hc₀ hok (hN c₀ (List.mem_of_getElem? hc₀))
  · simp [(Fenced.fresh_running hact (List.mem_of_getElem? hf)).2.2.1]

variable (team)

/-- In every run that hands its plain handlers over in time, an ending that spends an attempt is
only asked once the handler was entered; a run whose handler was not is released or left. -/
theorem spent_was_entered {s : Fleet V}
    (h : Reach (Fleet.step team) (HandedInTime team) start s) {c : Claim V} (hc : c ∈ s.claims)
    {e : Ending V} (hasked : c.phase.ending = some e) :
    (e.spends = true → c.work = .entered) ∧
      (c.work ≠ .entered → ∃ dueAt error errorType, e = .release dueAt error errorType) := by
  have hspent : e.spends = true → c.work = .entered := fun hs =>
    ((reach_fenced team h).sound c hc).spent e hasked hs |>.resolve_right
      (reach_not_refused h c hc)
  refine ⟨hspent, fun hnot => ?_⟩
  cases e with
  | release dueAt error errorType => exact ⟨dueAt, error, errorType, rfl⟩
  | _ => exact absurd (hspent rfl) hnot

/-- The one attempt of a run is handed to the pool while its worker runs, picked there and
answered. -/
def answered : List (Event Unit) :=
  attempted ++ [.move 0 (.finish (.returned none) ⟨.epoch, .epoch, "", ""⟩)]

theorem spent_was_entered_answered :
    ∃ (s : Fleet Unit) (c : Claim Unit),
      Reach (Fleet.step fun _ => declaring) (HandedInTime fun _ => declaring) start s ∧
      c ∈ s.claims ∧ c.phase.ending = some (.complete .epoch none) ∧ c.work = .entered := by
  have hmeets : Meets (Fleet.step fun _ => declaring) (HandedInTime fun _ => declaring) start
      answered := by decide
  have hreach := Reach.of_meets .start hmeets (Option.some_get (by rfl)).symm
  obtain ⟨s, c, hs, hc, hasked⟩ : ∃ (s : Fleet Unit) (c : Claim Unit),
      Reach (Fleet.step fun _ => declaring) (HandedInTime fun _ => declaring) start s ∧
      c ∈ s.claims ∧ c.phase.ending = some (.complete .epoch none) :=
    ⟨_, _, hreach, List.mem_singleton_self _, rfl⟩
  exact ⟨s, c, hs, hc, hasked, (spent_was_entered _ hs hc hasked).1 rfl⟩

/-- The worker is gone before its attempt gets to the pool: the attempt fails the run, and its
handler was never called. -/
theorem failed_without_entering :
    ∃ (s : Fleet Unit) (c : Claim Unit) (e : Ending Unit),
      Reach (Fleet.step fun _ => declaring) Unconditional start s ∧ c ∈ s.claims ∧
      c.phase = .answered e true ∧ e.spends = true ∧ c.work ≠ .entered ∧ s.entries = [] ∧
      (s.store.get 1).map (·.status) = some .failed :=
  ⟨(runAll (Fleet.step fun _ => declaring) start
      [.add remote .epoch .epoch () none none, .claim 0 1 .epoch true, .shut 0,
       .move 0 (.call ⟨.epoch, .epoch, "cannot schedule new futures after shutdown",
         "RuntimeError"⟩), .lands 0]).get (by rfl), _, _,
    .of_runAll .start (Option.some_get _).symm, List.mem_singleton_self _, rfl, rfl, by decide, rfl,
    rfl⟩

end Queuefy.Fleet
