import Queuefy.Fleet.Ledger
import Queuefy.Store.Life

/-! # A run is closed once and never lost

What the store answers to an ending is what its worker announces, so an ending that was taken has
to stand: no second attempt may close the run, none may be granted after it, and the run has to say
what was announced for as long as it is stored. And a run that was written is stored until a
pruning drops it when it is over, with everything it was written with; until then no other is
written under its key.
-/

namespace Queuefy

variable {V : Type}

namespace Fleet

variable {team : Nat → Worker} {s u : Fleet V} {e : Event V} {fresh : List (Claim V)}

/-! ## A run is closed once -/

theorem closed_iff {c : Claim V} :
    c.closed = true ↔ ∃ e : Ending V, c.phase = .answered e true ∧ e.closes = true := by
  unfold Claim.closed
  split
  · rename_i ending hphase
    simp [hphase]
  · rename_i hphase
    simp only [Bool.false_eq_true, false_iff, not_exists, not_and]
    exact fun e he => absurd he (hphase e)

theorem applied_settled (e : Ending V) (run : Run V) :
    (e.applied run).status.settled = e.closes := by
  cases e <;> rfl

/-- A claim that closed its run is the last one of it, and the run stays as the ending left it for
as long as it is stored. -/
structure Closing (s : Fleet V) : Prop where
  last : ∀ (i j : Nat) (c d : Claim V), s.claims[i]? = some c → s.claims[j]? = some d →
    c.closed = true → d.row.id = c.row.id → j ≤ i
  stands : ∀ c ∈ s.claims, ∀ e : Ending V, c.phase = .answered e true → e.closes = true →
    ∀ row, s.store.get c.row.id = some row → ∃ run, row.toRun = e.applied run

theorem Closing.settled (hC : Closing s) {c : Claim V} (hc : c ∈ s.claims)
    (hclosed : c.closed = true) {row : Row Nat V} (hrow : s.store.get c.row.id = some row) :
    row.status.settled = true := by
  obtain ⟨e, hphase, hcloses⟩ := closed_iff.1 hclosed
  obtain ⟨run, hrun⟩ := hC.stands c hc e hphase hcloses row hrow
  rw [hrun, applied_settled, hcloses]

/-- A claim advanced is closed if it was, or if the store took an ending of it just now. -/
theorem closed_of_advance {i : Nat} {c c₁ : Claim V} (hadv : Advance team s e i c c₁)
    {ending : Ending V} (hphase : c₁.phase = .answered ending true) :
    c.phase = .answered ending true ∨ (e = .lands i ∧ c.phase = .asked ending ∧
      ∃ row, s.store.held c.row.id (team c.worker).name c.row.attempts = some row) := by
  cases hadv with
  | kept => exact Or.inl hphase
  | pushed => exact Or.inl hphase
  | beat => exact Or.inl hphase
  | moved m a he hm => exact Or.inl (((Attempt.move_spec hm).2 ending true).1 hphase)
  | landed asked he hasked =>
      rw [Phase.answered.injEq] at hphase
      obtain ⟨rfl, htaken⟩ := hphase
      rcases end_cases team s.store c asked with ⟨-, hno⟩ | ⟨row, hheld, -⟩
      · rw [hno] at htaken
        cases htaken
      · exact Or.inr ⟨he, hasked, row, hheld⟩

theorem absent_stays (hF : Fenced team s) (h : s.act team e = some (u, fresh)) {c : Claim V}
    (hc : c ∈ s.claims) (hgone : s.store.get c.row.id = none) {row : Row Nat V}
    (hrow : u.store.get c.row.id = some row) : False := by
  have hknown := hF.known c hc
  have hnext := (act_born h hgone hrow).2
  omega

theorem closing_step (hF : Fenced team s) (hC : Closing s) (h : s.act team e = some (u, fresh)) :
    Closing (u.observe fresh) := by
  constructor
  · intro i j c d hc hd hclosed hid
    obtain ⟨ending, hphase, hcloses⟩ := closed_iff.1 hclosed
    rcases step_claim team h hc with ⟨c₀, c₁, hc₀, hadv, rfl⟩ | ⟨-, hf⟩
    · have hrow : c₁.row = c₀.row := hadv.same.row
      rw [watch_row, hrow] at hid
      have hcmem := List.mem_of_getElem? hc₀
      rcases closed_of_advance hadv hphase with hwas | ⟨he, hasked, row, hheld⟩
      · have hclosed₀ : c₀.closed = true := closed_iff.2 ⟨ending, hwas, hcloses⟩
        rcases step_claim team h hd with ⟨d₀, d₁, hd₀, hdadv, rfl⟩ | ⟨-, hdf⟩
        · rw [watch_row, hdadv.same.row] at hid
          exact hC.last i j c₀ d₀ hc₀ hd₀ hclosed₀ hid
        · obtain ⟨row, hget, hpending, -⟩ := Fenced.fresh_pending h (List.mem_of_getElem? hdf)
          have hsettled := hC.settled hcmem hclosed₀ (hid ▸ hget)
          rw [hpending] at hsettled
          cases hsettled
      · have hholds := hF.holds_of_held hcmem (Claim.not_released_of_asked hasked) hheld
        rcases step_claim team h hd with ⟨d₀, d₁, hd₀, hdadv, rfl⟩ | ⟨-, hdf⟩
        · rw [watch_row, hdadv.same.row] at hid
          by_contra hlt
          have hlost := (hF.latest i j c₀ d₀ (by omega) hc₀ hd₀ hid.symm).1
          rw [hholds] at hlost
          cases hlost
        · obtain ⟨_, _, _, _, hclaim, -⟩ := Fenced.fresh_spec h (List.mem_of_getElem? hdf)
          rw [he] at hclaim
          cases hclaim
    · obtain ⟨_, _, _, _, -, -, -, -, -, heard, hspawn, -⟩ :=
        Fenced.fresh_spec h (List.mem_of_getElem? hf)
      rw [hspawn] at hclosed
      cases heard <;> cases hclosed
  · intro c hcmem ending hphase hcloses row hrow
    obtain ⟨i, hc⟩ := List.getElem?_of_mem hcmem
    rcases step_claim team h hc with ⟨c₀, c₁, hc₀, hadv, rfl⟩ | ⟨-, hf⟩
    · have hcmem₀ := List.mem_of_getElem? hc₀
      change u.store.get c₁.row.id = some row at hrow
      rw [hadv.same.row] at hrow
      rcases closed_of_advance hadv hphase with hwas | ⟨rfl, hasked, found, hheld⟩
      · cases hbefore : s.store.get c₀.row.id with
        | none => exact (absent_stays hF h hcmem₀ hbefore hrow).elim
        | some old =>
            have hsettled := hC.settled hcmem₀ (closed_iff.2 ⟨ending, hwas, hcloses⟩) hbefore
            have hstep : s.step team e = some (u.observe fresh) :=
              (step_eq_some team).2 ⟨u, fresh, h, rfl⟩
            rcases settled_step hstep hbefore hsettled with hsame | ⟨hgone, -⟩
            · rw [show u.store.get c₀.row.id = some old from hsame, Option.some.injEq] at hrow
              subst hrow
              exact hC.stands c₀ hcmem₀ ending hwas hcloses old hbefore
            · rw [show u.store.get c₀.row.id = none from hgone] at hrow
              cases hrow
      · exact ⟨_, applied_of_lands h hc₀ hasked hheld hrow⟩
    · obtain ⟨_, _, _, _, -, -, -, -, -, heard, hspawn, -⟩ :=
        Fenced.fresh_spec h (List.mem_of_getElem? hf)
      rw [hspawn] at hphase
      cases heard <;> cases hphase

theorem reach_closing (h : Reach (step team) Unconditional start s) : Closing s := by
  have hstart : Closing (start : Fleet V) := by
    constructor
    · intro i j c d hc
      simp [start] at hc
    · intro c hc
      cases hc
  refine h.invariant hstart fun hs hC _ hstep => ?_
  obtain ⟨u, fresh, hact, rfl⟩ := (step_eq_some team).1 hstep
  exact closing_step (reach_fenced team hs) hC hact

/-- Whatever the workers do, a run is closed by one attempt at most, no claim of it is granted
after that one, and as long as it is stored it says what that attempt was told it would. -/
theorem closed_for_good (h : Reach (step team) Unconditional start s) (id : Nat) :
    s.tally id Claim.closed ≤ 1 ∧
    (∀ (i j : Nat) (c d : Claim V), s.claims[i]? = some c → s.claims[j]? = some d →
      c.closed = true → d.row.id = c.row.id → j ≤ i) ∧
    ∀ c ∈ s.claims, ∀ e : Ending V, c.phase = .answered e true → e.closes = true →
      ∀ row, s.store.get c.row.id = some row → ∃ run, row.toRun = e.applied run := by
  have hC := reach_closing h
  refine ⟨countP_le_one ?_, hC.last, hC.stands⟩
  rw [List.pairwise_iff_getElem]
  intro i j hi hj hij hci hcj
  simp only [Claim.of, Bool.decide_and, Bool.and_eq_true, decide_eq_true_eq] at hci hcj
  have hle := hC.last i j _ _ (List.getElem?_eq_getElem hi) (List.getElem?_eq_getElem hj) hci.2
    (hcj.1.trans hci.1.symm)
  omega

/-- The one attempt of a run is entered, and its worker told that it is done. -/
def finished : List (Event Unit) :=
  attempted ++ [.move 0 (.finish (.returned none) ⟨.epoch, .epoch, "", ""⟩), .lands 0]

theorem closed_for_good_finished : ∃ s : Fleet Unit,
    runAll (step fun _ => declaring) start finished = some s ∧ s.tally 1 Claim.closed = 1 ∧
      ∀ c ∈ s.claims, ∀ e : Ending Unit, c.phase = .answered e true → e.closes = true →
        ∀ row, s.store.get c.row.id = some row → ∃ run, row.toRun = e.applied run := by
  have hreach : Reach (step fun _ => declaring) Unconditional start
      ((runAll (step fun _ => declaring) start finished).get (by rfl)) :=
    .of_runAll .start (Option.some_get _).symm
  exact ⟨_, (Option.some_get _).symm, rfl, (closed_for_good hreach 1).2.2⟩

/-! ## A run is never lost -/

/-- What a step makes of a run that stays is one step of its life at most. -/
theorem Turn.lives {id : Nat} {row row' : Row Nat V}
    (h : Turn team s e fresh id (some row) (some row')) : Run.Lives row.toRun row'.toRun := by
  cases h with
  | kept => exact .refl
  | granted _ _ worker limit moment heard he hget hchosen hid hrun =>
      have hpending := (MemoryStore.mem_chosen hchosen).2.1
      rcases hrun with ⟨leaseEnd, -, heq⟩ | ⟨-, heq⟩
      · rw [heq]
        exact .single (.claimed _ moment leaseEnd hpending)
      · rw [heq]
        exact .single (.started _ moment hpending)
  | beaten _ i k c moment leaseEnd he hc hbeat hid hheld =>
      have hrunning := (MemoryStore.held_eq_some.1 hheld).2.2.1
      exact .single (.beaten leaseEnd hrunning)
  | ended _ i c ending he hc hasked hid hheld =>
      have hrunning := (MemoryStore.held_eq_some.1 hheld).2.2.1
      cases ending with
      | complete moment result => exact .single (.completed moment result hrunning)
      | fail moment error errorType => exact .single (.failed moment error errorType hrunning)
      | retryLater dueAt error errorType =>
          exact .single (.requeued dueAt error errorType 0 hrunning (Or.inl rfl))
      | release dueAt error errorType =>
          exact .single (.requeued dueAt error errorType (-1) hrunning (Or.inr rfl))
  | takenBack _ moment lease he hrunning hlease =>
      exact .single (Run.takenBack_becomes moment hrunning (by simp [hlease]))
  | calledOff _ moment he hpending => exact .single (.calledOff moment hpending)

theorem gone_iff (h : s.act team e = some (u, fresh)) {row : Row Nat V}
    (hrow : s.store.get row.id = some row) :
    u.store.get row.id = none ↔ row ∈ drops s.store e := by
  have hturn := act_turn team h row.id
  rw [hrow] at hturn
  cases e with
  | purge before limit =>
      cases h
      simp only [drops, MemoryStore.purge, MemoryStore.get_drop, hrow]
      simp only [ite_eq_left_iff, reduceCtorEq, imp_false, not_not, List.mem_map]
      constructor
      · rintro ⟨other, hother, hid⟩
        obtain ⟨hget, -⟩ := MemoryStore.mem_gone hother
        rw [hid, hrow] at hget
        exact Option.some.inj hget ▸ hother
      · exact fun hmem => ⟨row, hmem, rfl⟩
  | _ =>
      constructor
      · intro hnone
        rw [hnone] at hturn
        cases hturn with
        | purged _ before limit he => cases he
      · intro hmem
        cases hmem

theorem drops_settled {store : MemoryStore V} {e : Event V} {row : Row Nat V}
    (h : row ∈ drops store e) :
    store.get row.id = some row ∧ row.status.settled = true := by
  cases e with
  | purge before limit =>
      obtain ⟨hget, hover⟩ := MemoryStore.mem_gone h
      exact ⟨hget, (MemoryStore.isOver_iff.1 hover).1⟩
  | _ => cases h

theorem drops_nodup (store : MemoryStore V) (e : Event V) :
    ((drops store e).map (·.id)).Nodup := by
  cases e with
  | purge before limit =>
      exact store.ids_nodup.sublist (((List.take_sublist _ _).trans List.filter_sublist).map _)
  | _ => exact List.nodup_nil

/-- This is a run that was written, some steps of its life on. -/
def Version (s : Fleet V) (row : Row Nat V) : Prop :=
  ∃ w ∈ s.written, w.id = row.id ∧ Run.Lives w.toRun row.toRun

theorem Version.act (h : s.act team e = some (u, fresh)) {row row' : Row Nat V}
    (hv : s.Version row) (hid : row'.id = row.id) (hlives : Run.Lives row.toRun row'.toRun) :
    u.Version row' := by
  obtain ⟨w, hw, hwid, hwlives⟩ := hv
  exact ⟨w, act_keeps_written h hw, hwid.trans hid.symm, hwlives.trans hlives⟩

end Fleet

/-- Every run that was written is stored or was dropped once it was over, never both, and what is
stored, was dropped or is worked on is what was written, some steps on. -/
structure Ledger.Conserved (l : Ledger V) : Prop where
  written : (l.fleet.written.map (·.id)).Nodup
  kept : ∀ w ∈ l.fleet.written,
    (∃ row, l.fleet.store.get w.id = some row) ∨ ∃ row ∈ l.dropped, row.id = w.id
  gone : ∀ row ∈ l.dropped, l.fleet.store.get row.id = none ∧ row.status.settled = true
  once : (l.dropped.map (·.id)).Nodup
  stored : ∀ id row, l.fleet.store.get id = some row → l.fleet.Version row
  dropped : ∀ row ∈ l.dropped, l.fleet.Version row
  claimed : ∀ c ∈ l.fleet.claims, l.fleet.Version c.row

namespace Ledger

open Fleet

variable {team : Nat → Worker}

theorem conserved_start : (start : Ledger V).Conserved := by
  constructor <;> simp [start, Fleet.start]

/-- A run that was stored still is, or this step dropped it. -/
theorem kept_step {l : Ledger V} {e : Event V} {u : Fleet V} {fresh : List (Claim V)}
    (hL : l.Conserved) (h : l.fleet.act team e = some (u, fresh)) {w : Row Nat V}
    (hw : w ∈ l.fleet.written) :
    (∃ row, u.store.get w.id = some row) ∨
      ∃ row ∈ l.dropped ++ drops l.fleet.store e, row.id = w.id := by
  rcases hL.kept w hw with ⟨row, hget⟩ | ⟨row, hrow, hid⟩
  · have hid := MemoryStore.get_id hget
    cases hafter : u.store.get w.id with
    | some row' => exact Or.inl ⟨row', rfl⟩
    | none =>
        rw [← hid] at hget hafter
        exact Or.inr ⟨row, List.mem_append_right _ ((gone_iff h hget).1 hafter), hid⟩
  · exact Or.inr ⟨row, List.mem_append_left _ hrow, hid⟩

theorem step_conserved {l m : Ledger V} {e : Event V} (hR : Recorded l.fleet) (hL : l.Conserved)
    (h : l.step team e = some m) : m.Conserved := by
  obtain ⟨_, hs, rfl⟩ := (step_eq_some team).1 h
  obtain ⟨u, fresh, hact, rfl⟩ := (Fleet.step_eq_some team).1 hs
  have hnone : ∀ row ∈ l.dropped, u.store.get row.id = none := by
    intro row hrow
    have hgone := (hL.gone row hrow).1
    obtain ⟨w, hw, hid, -⟩ := hL.dropped row hrow
    have hknown := hR.known w hw
    refine Option.eq_none_iff_forall_ne_some.2 fun other hother => ?_
    have hnext := (act_born hact hgone hother).2
    omega
  have hstored : ∀ id row', u.store.get id = some row' → u.Version row' := by
    intro id row' hrow'
    cases hbefore : l.fleet.store.get id with
    | none => exact ⟨row', (act_born hact hbefore hrow').1, rfl, .refl⟩
    | some row =>
        have hturn := act_turn team hact id
        rw [hbefore, hrow'] at hturn
        have hid := (MemoryStore.get_id hrow').trans (MemoryStore.get_id hbefore).symm
        exact (hL.stored id row hbefore).act hact hid hturn.lives
  refine ⟨?_, ?_, ?_, ?_, hstored, ?_, ?_⟩
  · change (u.written.map (·.id)).Nodup
    rcases act_written team hact with ⟨heq, -⟩ | ⟨_, _, _, _, _, _, -, heq, -⟩
    · rw [heq]
      exact hL.written
    · rw [heq, List.map_append, List.nodup_append]
      refine ⟨hL.written, by simp, fun a ha b hb => ?_⟩
      obtain ⟨w, hw, rfl⟩ := List.mem_map.1 ha
      have hknown := hR.known w hw
      simp only [List.map_cons, List.map_nil, List.mem_singleton] at hb
      omega
  · intro w hw
    change w ∈ u.written at hw
    rcases mem_written hact hw with hold | ⟨_, _, _, _, _, _, rfl, hstore⟩
    · exact kept_step hL hact hold
    · left
      change ∃ row, u.store.get _ = some row
      rw [hstore, MemoryStore.get_write, if_pos rfl]
      exact ⟨_, rfl⟩
  · intro row hrow
    rcases List.mem_append.1 hrow with hold | hnew
    · exact ⟨hnone row hold, (hL.gone row hold).2⟩
    · obtain ⟨hget, hsettled⟩ := drops_settled hnew
      exact ⟨(gone_iff hact hget).2 hnew, hsettled⟩
  · rw [List.map_append, List.nodup_append]
    refine ⟨hL.once, drops_nodup _ _, fun a ha b hb hab => ?_⟩
    obtain ⟨row, hrow, rfl⟩ := List.mem_map.1 ha
    obtain ⟨other, hother, rfl⟩ := List.mem_map.1 hb
    have hgone := (hL.gone row hrow).1
    rw [hab, (drops_settled hother).1] at hgone
    cases hgone
  · intro row hrow
    rcases List.mem_append.1 hrow with hold | hnew
    · exact (hL.dropped row hold).act hact rfl .refl
    · exact (hL.stored _ _ (drops_settled hnew).1).act hact rfl .refl
  · intro c hc
    obtain ⟨i, hci⟩ := List.getElem?_of_mem hc
    rcases step_claim team hact hci with ⟨c₀, c₁, hc₀, hadv, rfl⟩ | ⟨-, hf⟩
    · rw [watch_row, hadv.same.row]
      exact (hL.claimed c₀ (List.mem_of_getElem? hc₀)).act hact rfl .refl
    · obtain ⟨_, _, _, _, -, -, -, -, hget, -⟩ := Fenced.fresh_spec hact (List.mem_of_getElem? hf)
      exact hstored _ _ hget

theorem reach_conserved {l : Ledger V} (h : Reach (step team) Unconditional start l) :
    l.Conserved :=
  h.invariant conserved_start fun hl hL _ hstep =>
    step_conserved (reach_recorded (reach_fleet team hl)) hL hstep

/-- Whatever the workers do and wherever they die, the runs that were written are those that are
stored and those a pruning dropped, each once; what was dropped was over; and what is stored, what
was dropped and what each attempt works on is the run as it was written, some steps on, with
everything it was written with. -/
theorem no_run_is_lost {l : Ledger V} (h : Reach (step team) Unconditional start l) :
    (l.fleet.written.map (·.id)).Perm
        (l.fleet.store.runs.map (·.id) ++ l.dropped.map (·.id)) ∧
      (l.fleet.written.map (·.id)).Nodup ∧
      (∀ row ∈ l.dropped, row.status.settled = true) ∧
      ∀ row, row ∈ l.fleet.store.runs ∨ row ∈ l.dropped ∨ row ∈ l.fleet.claims.map (·.row) →
        ∃ w ∈ l.fleet.written, w.id = row.id ∧ Run.Lives w.toRun row.toRun ∧
          row.terms = w.terms := by
  have hL := reach_conserved h
  have hversion : ∀ row, l.fleet.Version row → ∃ w ∈ l.fleet.written, w.id = row.id ∧
      Run.Lives w.toRun row.toRun ∧ row.terms = w.terms := by
    rintro row ⟨w, hw, hid, hlives⟩
    exact ⟨w, hw, hid, hlives, hlives.terms⟩
  have hnodup : (l.fleet.store.runs.map (·.id) ++ l.dropped.map (·.id)).Nodup := by
    rw [List.nodup_append]
    refine ⟨l.fleet.store.ids_nodup, hL.once, fun a ha b hb hab => ?_⟩
    obtain ⟨row, hrow, rfl⟩ := List.mem_map.1 ha
    obtain ⟨other, hother, rfl⟩ := List.mem_map.1 hb
    have hgone := (hL.gone other hother).1
    rw [← hab, MemoryStore.get_of_mem hrow] at hgone
    cases hgone
  refine ⟨(List.perm_ext_iff_of_nodup hL.written hnodup).2 fun id => ?_, hL.written,
    fun row hrow => (hL.gone row hrow).2, ?_⟩
  · rw [List.mem_append]
    constructor
    · intro hid
      obtain ⟨w, hw, rfl⟩ := List.mem_map.1 hid
      rcases hL.kept w hw with ⟨row, hget⟩ | ⟨row, hrow, hsame⟩
      · refine Or.inl (List.mem_map.2 ⟨row, ?_, MemoryStore.get_id hget⟩)
        exact (MemoryStore.get_eq_some.1 hget).1
      · exact Or.inr (List.mem_map.2 ⟨row, hrow, hsame⟩)
    · rintro (hid | hid)
      · obtain ⟨row, hrow, rfl⟩ := List.mem_map.1 hid
        obtain ⟨w, hw, hsame, -⟩ := hL.stored _ _ (MemoryStore.get_of_mem hrow)
        exact List.mem_map.2 ⟨w, hw, hsame⟩
      · obtain ⟨row, hrow, rfl⟩ := List.mem_map.1 hid
        obtain ⟨w, hw, hsame, -⟩ := hL.dropped row hrow
        exact List.mem_map.2 ⟨w, hw, hsame⟩
  · rintro row (hrow | hrow | hrow)
    · exact hversion row (hL.stored _ _ (MemoryStore.get_of_mem hrow))
    · exact hversion row (hL.dropped row hrow)
    · obtain ⟨c, hc, rfl⟩ := List.mem_map.1 hrow
      exact hversion _ (hL.claimed c hc)

/-- The run is entered, closed, and dropped by a pruning after it. -/
def forgotten : List (Event Unit) :=
  Fleet.finished ++ [.purge ((Instant.epoch.plus 7).get rfl) 10]

theorem no_run_is_lost_forgotten : ∃ l : Ledger Unit,
    runAll (step fun _ => Fleet.declaring) start forgotten = some l ∧
      l.fleet.store.runs.map (·.id) = [] ∧ l.dropped.map (·.id) = [1] ∧
      (l.fleet.written.map (·.id)).Perm
        (l.fleet.store.runs.map (·.id) ++ l.dropped.map (·.id)) := by
  have hreach : Reach (step fun _ => Fleet.declaring) Unconditional start
      ((runAll (step fun _ => Fleet.declaring) start forgotten).get (by rfl)) :=
    .of_runAll .start (Option.some_get _).symm
  exact ⟨_, (Option.some_get _).symm, rfl, rfl, (no_run_is_lost hreach).1⟩

/-! ## A key is given out again -/

/-- A run is only written under a key no stored run carries. -/
theorem unheld_of_written {s u : Fleet V} {fresh : List (Claim V)} {task : Task}
    {dueAt createdAt : Instant} {payload : V} {key : Option String} {priority : Option Int}
    (h : s.act team (.add task dueAt createdAt payload key priority) = some (u, fresh))
    (hwritten : u.written ≠ s.written) {row : Row Nat V} (hrow : row ∈ s.store.runs)
    (hkey : row.key = key) : key = none := by
  by_contra hsome
  have htaken : s.store.taken (build task dueAt createdAt payload key priority).key = true := by
    change s.store.taken key = true
    rw [MemoryStore.taken, Bool.and_eq_true, List.any_eq_true]
    exact ⟨Option.isSome_iff_ne_none.2 hsome, row, hrow, decide_eq_true hkey⟩
  simp only [act, MemoryStore.add, Option.some.injEq, Prod.mk.injEq] at h
  rw [if_pos htaken] at h
  apply hwritten
  rw [← h.1]
  simp

/-- Of two runs written under one key, the first was dropped. -/
def Succeeded (l : Ledger V) : Prop :=
  ∀ (i j : Nat) (w w' : Row Nat V), i < j → l.fleet.written[i]? = some w →
    l.fleet.written[j]? = some w' → w.key = w'.key → w.key ≠ none →
      ∃ row ∈ l.dropped, row.id = w.id

theorem step_succeeded {l m : Ledger V} {e : Event V} (hL : l.Conserved) (hS : l.Succeeded)
    (h : l.step team e = some m) : m.Succeeded := by
  rcases (step_eq_some team).1 h with ⟨_, hs, rfl⟩
  rcases (Fleet.step_eq_some team).1 hs with ⟨u, fresh, hact, rfl⟩
  intro i j w w' hij hw hw' hkey hsome
  have hold : ∀ row ∈ l.dropped, row.id = w.id →
      ∃ row ∈ l.dropped ++ drops l.fleet.store e, row.id = w.id :=
    fun row hrow hid => ⟨row, List.mem_append_left _ hrow, hid⟩
  change u.written[i]? = some w at hw
  change u.written[j]? = some w' at hw'
  rcases act_written team hact with ⟨heq, -⟩ | ⟨_, _, _, _, _, _, rfl, heq, -⟩
  · rw [heq] at hw hw'
    rcases hS i j w w' hij hw hw' hkey hsome with ⟨row, hrow, hid⟩
    exact hold row hrow hid
  · have hgrown : u.written ≠ l.fleet.written := by
      rw [heq]
      simp
    have hi : i < l.fleet.written.length := by
      have hj := (List.getElem?_eq_some_iff.1 hw').1
      rw [heq, List.length_append, List.length_singleton] at hj
      omega
    rw [heq, List.getElem?_append_left hi] at hw
    rw [heq] at hw'
    rcases Nat.lt_or_ge j l.fleet.written.length with hj | hj
    · rw [List.getElem?_append_left hj] at hw'
      rcases hS i j w w' hij hw hw' hkey hsome with ⟨row, hrow, hid⟩
      exact hold row hrow hid
    · -- the run just written has the key of one that is stored or was dropped
      rw [List.getElem?_append_right hj] at hw'
      have hnew := List.mem_singleton.1 (List.mem_of_getElem? hw')
      have hwmem := List.mem_of_getElem? hw
      rcases hL.kept w hwmem with ⟨row, hget⟩ | ⟨row, hrow, hid⟩
      · rcases hL.stored _ row hget with ⟨w₀, hw₀, hid₀, hlives⟩
        have hsame := (List.inj_on_of_nodup_map hL.written) hw₀ hwmem
          (hid₀.trans (MemoryStore.get_id hget))
        have hterms := congrArg Terms.key hlives.terms
        rw [hsame] at hterms
        have hnone := unheld_of_written hact hgrown (MemoryStore.get_eq_some.1 hget).1
          (hterms.trans (hkey.trans (congrArg (fun r : Row Nat V => r.key) hnew)))
        rw [hkey, hnew] at hsome
        exact absurd hnone hsome
      · exact hold row hrow hid

theorem reach_succeeded {l : Ledger V} (h : Reach (step team) Unconditional start l) :
    l.Succeeded := by
  refine h.invariant (fun i j w w' _ hw => ?_) fun hl hS _ hstep =>
    step_succeeded (reach_conserved hl) hS hstep
  simp [start, Fleet.start] at hw

/-- Whatever the workers do, a second run is written under a key only once the first one was over
and was dropped by a pruning, so that at no moment two runs of one key are stored. -/
theorem key_given_again {l : Ledger V} (h : Reach (step team) Unconditional start l) {i j : Nat}
    {w w' : Row Nat V} (hij : i < j) (hw : l.fleet.written[i]? = some w)
    (hw' : l.fleet.written[j]? = some w') (hkey : w.key = w'.key) (hsome : w.key ≠ none) :
    l.fleet.store.get w.id = none ∧
      ∃ row ∈ l.dropped, row.id = w.id ∧ row.status.settled = true ∧ row.terms = w.terms := by
  have hL := reach_conserved h
  rcases reach_succeeded h i j w w' hij hw hw' hkey hsome with ⟨row, hrow, hid⟩
  rcases hL.gone row hrow with ⟨hgone, hsettled⟩
  rcases hL.dropped row hrow with ⟨w₀, hw₀, hid₀, hlives⟩
  have hsame := (List.inj_on_of_nodup_map hL.written) hw₀ (List.mem_of_getElem? hw)
    (hid₀.trans hid)
  refine ⟨hid ▸ hgone, row, hrow, hid, hsettled, ?_⟩
  rw [hlives.terms, hsame]

/-- A run is called off and dropped, and its key is given to another. -/
def keyAgain : List (Event Unit) :=
  [.add Fleet.remote .epoch .epoch () (some "daily") none, .cancel 1 .epoch,
   .purge ((Instant.epoch.plus 7).get rfl) 10,
   .add Fleet.remote .epoch .epoch () (some "daily") none]

theorem key_given_again_keyAgain : ∃ (l : Ledger Unit) (w w' : Row Nat Unit),
    runAll (step fun _ => Fleet.declaring) start keyAgain = some l ∧
      l.fleet.written = [w, w'] ∧ w.key = some "daily" ∧ w'.key = some "daily" ∧
      l.fleet.store.get w.id = none := by
  have hruns : (runAll (step fun _ => Fleet.declaring) start keyAgain).isSome := by rfl
  have hreach := Reach.of_runAll .start (Option.some_get hruns).symm
  refine ⟨_, _, _, (Option.some_get hruns).symm, rfl, rfl, rfl, ?_⟩
  exact (key_given_again hreach Nat.zero_lt_one rfl rfl rfl (by simp [build])).1

end Ledger

end Queuefy
