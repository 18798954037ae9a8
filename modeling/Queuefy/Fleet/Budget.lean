import Queuefy.Fleet.Bounds

/-! # The attempt budget

The counter of a run goes down as well as up, so entries are not counted by it. They are counted
by the claims they were made under: a claim whose handler was entered is never handed back, so
the floor it leaves is its own number, and every later claim of the run is above it. The numbers
of the claims that entered are therefore distinct, and all of them lie within the bound the run
was written with.
-/

namespace Queuefy

variable {V : Type}

/-- The handler of the run `id` was entered under this claim. -/
def Claim.enteredFor (id : Nat) (c : Claim V) : Bool := c.row.id = id ∧ c.work = .entered

theorem length_le_of_rising {l : List Int} {n : Int} (hrising : l.Pairwise (· < ·))
    (hbound : ∀ x ∈ l, 1 ≤ x ∧ x ≤ n) (hn : 0 ≤ n) : (l.length : Int) ≤ n := by
  have hnodup : l.Nodup := hrising.imp fun h => ne_of_lt h
  have hsub : l.toFinset ⊆ Finset.Icc 1 n := by
    intro x hx
    exact Finset.mem_Icc.2 (hbound x (List.mem_toFinset.mp hx))
  have hcard := Finset.card_le_card hsub
  rw [List.toFinset_card_of_nodup hnodup, Int.card_Icc] at hcard
  omega

namespace Fleet

variable {team : Nat → Worker}

/-! ## Entries and the claims they were made under -/

theorem countP_replace {s : Fleet V} {i : Nat} {c : Claim V} (hc : s.claims[i]? = some c)
    (c' : Claim V) (p : Claim V → Bool) :
    (s.replace i c').claims.countP p + (if p c then 1 else 0) =
      s.claims.countP p + (if p c' then 1 else 0) := by
  obtain ⟨hlt, heq⟩ := List.getElem?_eq_some_iff.mp hc
  have hle : (if p c then 1 else 0) ≤ s.claims.countP p := by
    split
    · rename_i hp
      exact List.countP_pos_iff.mpr ⟨c, List.mem_of_getElem? hc, hp⟩
    · exact Nat.zero_le _
  rw [replace, List.countP_set hlt, heq]
  omega

theorem act_entries {s u : Fleet V} {e : Event V} {fresh : List (Claim V)}
    (hF : Fenced team s) (h : s.act team e = some (u, fresh)) (id : Nat) :
    u.claims.countP (Claim.enteredFor id) + s.entries.count id =
      s.claims.countP (Claim.enteredFor id) + u.entries.count id := by
  have hsame : ∀ {i : Nat} {c c' : Claim V}, s.claims[i]? = some c → c'.row = c.row →
      c'.work = c.work → (s.replace i c').claims.countP (Claim.enteredFor id) =
        s.claims.countP (Claim.enteredFor id) := by
    intro i c c' hc hrow hwork
    have hcount := countP_replace hc c' (Claim.enteredFor id)
    simpa [Claim.enteredFor, hrow, hwork] using hcount
  cases acts team h with
  | @move i c m a hc hm =>
      have hcount := countP_replace hc { c with toAttempt := a } (Claim.enteredFor id)
      have hrow := (Attempt.move_spec hm).1
      have hstays := (hF.sound c (List.mem_of_getElem? hc)).move_entered hm
      simp only [List.count_append, Claim.enteredFor, hrow, Attempt.enters] at hcount ⊢
      by_cases hid : c.row.id = id <;> by_cases hwas : c.work = .entered <;>
        by_cases hnow : a.work = .entered <;> simp [hid, hwas, hnow] at hcount hstays ⊢ <;>
        omega
  | push _ hc | beatLands hc | lands hc => exact congrArg (· + _) (hsame hc rfl rfl)
  | add | claim | reclaim | cancel | purge | stop | drain | shut => rfl

theorem step_entries {s t : Fleet V} {e : Event V} (hF : Fenced team s)
    (hE : ∀ id, s.entries.count id = s.claims.countP (Claim.enteredFor id))
    (h : s.step team e = some t) (id : Nat) :
    t.entries.count id = t.claims.countP (Claim.enteredFor id) := by
  obtain ⟨u, fresh, hact, rfl⟩ := (step_eq_some team).1 h
  have hcount := act_entries hF hact id
  have hfresh : fresh.countP (Claim.enteredFor id) = 0 := by
    rw [List.countP_eq_zero]
    intro c hc
    simp [Claim.enteredFor, (Fenced.fresh_running hact hc).2.2.1]
  have hwatch : (u.claims.map (watch u.store (fresh.map (·.row.id)))).countP
      (Claim.enteredFor id) = u.claims.countP (Claim.enteredFor id) := by
    rw [List.countP_map]
    rfl
  rw [observe, List.countP_append, hwatch, hfresh, Nat.add_zero]
  have := hE id
  change u.entries.count id = _
  omega

theorem reach_entries {ok : Fleet V → Event V → Prop} {s : Fleet V}
    (h : Reach (Fleet.step team) ok start s) :
    ∀ id, s.entries.count id = s.claims.countP (Claim.enteredFor id) :=
  h.invariant (fun _ => rfl) fun hs hE _ hstep id => step_entries (reach_fenced team hs) hE hstep id

/-! ## The numbers of the claims -/

theorem reach_claims_counted {ok : Fleet V → Event V → Prop} {s : Fleet V}
    (h : Reach (Fleet.step team) ok start s) :
    ∀ c ∈ s.claims, 1 ≤ c.row.attempts ∧ c.row.attempts ≤ c.row.maxAttempts := by
  refine h.invariant (I := fun s => ∀ c ∈ s.claims,
    1 ≤ c.row.attempts ∧ c.row.attempts ≤ c.row.maxAttempts) (by simp [start]) ?_
  intro s t e hs hC _ hstep c hc
  obtain ⟨u, fresh, hact, rfl⟩ := (step_eq_some team).1 hstep
  obtain ⟨i, hci⟩ := List.getElem?_of_mem hc
  rcases step_claim team hact hci with ⟨c₀, c₁, hc₀, hadv, rfl⟩ | ⟨-, hf⟩
  · rw [watch_row, hadv.same.row]
    exact hC c₀ (List.mem_of_getElem? hc₀)
  · obtain ⟨row, hrow, hpending, hattempts, hmax⟩ :=
      Fenced.fresh_pending hact (List.mem_of_getElem? hf)
    have hcounted := reach_counted hs _ row hrow
    have hlow := hcounted.low
    have hroom := hcounted.waiting hpending
    omega

theorem Fenced.floor_of_entered {s : Fleet V} (hF : Fenced team s) {c : Claim V}
    (hc : c ∈ s.claims) (hwork : c.work = .entered) : c.floor = c.row.attempts := by
  apply Claim.floor_of_not_released
  by_contra hreleased
  obtain ⟨dueAt, error, errorType, hphase⟩ := Claim.released_iff.1 (by simpa using hreleased)
  have hback := (hF.sound c hc).handedBack _ (by rw [hphase]; rfl) rfl
  simp [hwork] at hback

/-- Among the claims of one run that entered, each is numbered above the ones before it. -/
theorem Fenced.entered_rising {s : Fleet V} (hF : Fenced team s) (id : Nat) :
    ((s.claims.filter (Claim.enteredFor id)).map (·.row.attempts)).Pairwise (· < ·) := by
  have hlatest : s.claims.Pairwise fun c d => c.row.id = d.row.id → c.floor < d.row.attempts := by
    rw [List.pairwise_iff_getElem]
    intro i j hi hj hij hid
    exact (hF.latest i j _ _ hij (List.getElem?_eq_getElem hi) (List.getElem?_eq_getElem hj)
      hid).2
  rw [List.pairwise_map]
  refine (hlatest.sublist List.filter_sublist).imp_of_mem fun {c d} hc hd habove => ?_
  obtain ⟨hcmem, hc⟩ := List.mem_filter.mp hc
  obtain ⟨-, hd⟩ := List.mem_filter.mp hd
  simp only [Claim.enteredFor, Bool.decide_and, Bool.and_eq_true, decide_eq_true_eq] at hc hd
  rw [← hF.floor_of_entered hcmem hc.2]
  exact habove (hc.1.trans hd.1.symm)

variable (team)

/-- The handler of a run is entered at most as often as the run was written to be tried. -/
theorem entries_within_budget {s : Fleet V} (h : Reach (Fleet.step team) Unconditional start s)
    {w : Row Nat V} (hw : w ∈ s.written) : (s.entries.count w.id : Int) ≤ w.maxAttempts := by
  have hF := reach_fenced team h
  have hR := reach_recorded h
  rw [reach_entries h, List.countP_eq_length_filter, ← List.length_map (·.row.attempts)]
  have hbound : ∀ x ∈ (s.claims.filter (Claim.enteredFor w.id)).map (·.row.attempts),
      1 ≤ x ∧ x ≤ w.maxAttempts := by
    intro x hx
    obtain ⟨c, hc, rfl⟩ := List.mem_map.mp hx
    obtain ⟨hcmem, hc⟩ := List.mem_filter.mp hc
    simp only [Claim.enteredFor, Bool.decide_and, Bool.and_eq_true, decide_eq_true_eq] at hc
    obtain ⟨w', hw', hid, hmax⟩ := hR.claimed c hcmem
    have heq := hR.distinct w' hw' w hw (hid.trans hc.1)
    rw [← heq, hmax]
    exact reach_claims_counted h c hcmem
  exact length_le_of_rising (hF.entered_rising w.id) hbound (by have := hR.tried w hw; omega)

/-- A worker that declares the task. -/
def declaring : Worker := { undeclared with tasks := [remote] }

/-- The one attempt of a run is claimed, handed to a thread and entered. -/
def attempted : List (Event Unit) :=
  [.add remote .epoch .epoch () none none, .claim 0 1 .epoch true,
   .move 0 (.call ⟨.epoch, .epoch, "", ""⟩), .move 0 .pick]

theorem entries_within_budget_attempted :
    ∃ (s : Fleet Unit) (w : Row Nat Unit),
      Reach (Fleet.step fun _ => declaring) Unconditional start s ∧ w ∈ s.written ∧
      s.entries = [w.id] ∧ (s.entries.count w.id : Int) ≤ w.maxAttempts := by
  obtain ⟨s, w, hs, hw, hentries⟩ : ∃ (s : Fleet Unit) (w : Row Nat Unit),
      Reach (Fleet.step fun _ => declaring) Unconditional start s ∧ w ∈ s.written ∧
      s.entries = [w.id] :=
    ⟨(runAll (Fleet.step fun _ => declaring) start attempted).get (by rfl), _,
      .of_runAll .start (Option.some_get _).symm, List.mem_singleton_self _, rfl⟩
  exact ⟨s, w, hs, hw, hentries, entries_within_budget _ hs hw⟩

end Fleet

end Queuefy
