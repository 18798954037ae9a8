import Queuefy.Fleet.Budget

/-! # Every claim is accounted for

A claim is granted once and given up once: the store takes the ending asked under it, or a reclaim
takes the run back from it, or it still holds the run. The ledger keeps what the fleet forgets,
which is the runs every reclaim took back and the ones every pruning dropped, and its accounts are
conservation laws over whole runs: of the claims of a run, of the attempts it has spent, and of the
runs themselves.
-/

namespace Queuefy

variable {V : Type}

/-- The store took the ending asked under this claim. -/
def Claim.ended (c : Claim V) : Bool :=
  match c.phase with
  | .answered _ true => true
  | _ => false

/-- An ending that is the end of the run. -/
def Ending.closes : Ending V → Bool
  | .complete .. | .fail .. => true
  | .retryLater .. | .release .. => false

/-- The ending the store took closed the run for good. -/
def Claim.closed (c : Claim V) : Bool :=
  match c.phase with
  | .answered ending true => ending.closes
  | _ => false

/-- The claims of one run that meet a condition. -/
def Claim.of (id : Nat) (p : Claim V → Bool) (c : Claim V) : Bool := c.row.id = id ∧ p c

namespace Fleet

/-- How many claims of a run meet a condition. -/
def tally (s : Fleet V) (id : Nat) (p : Claim V → Bool) : Nat := s.claims.countP (Claim.of id p)

/-- A run that is running counts for the one claim that holds it. -/
def running (store : MemoryStore V) (id : Nat) : Nat :=
  if (store.get id).any (·.status = .running) then 1 else 0

/-- The runs a step takes back. -/
def returns (store : MemoryStore V) : Event V → List Nat
  | .reclaim moment => (store.abandoned moment).map (·.id)
  | _ => []

/-- The runs a step drops. -/
def drops (store : MemoryStore V) : Event V → List (Row Nat V)
  | .purge before limit => store.gone before limit
  | _ => []

end Fleet

/-- A fleet, and the history of what was taken back and what was dropped, each in the order it
happened. -/
structure Ledger (V : Type) where
  fleet : Fleet V
  returned : List Nat
  dropped : List (Row Nat V)

namespace Ledger

open Fleet

variable (team : Nat → Worker)

def start : Ledger V := ⟨.start, [], []⟩

def step (l : Ledger V) (e : Event V) : Option (Ledger V) :=
  (l.fleet.step team e).map fun s =>
    ⟨s, l.returned ++ returns l.fleet.store e, l.dropped ++ drops l.fleet.store e⟩

theorem step_eq_some {l m : Ledger V} {e : Event V} :
    l.step team e = some m ↔ ∃ s, l.fleet.step team e = some s ∧
      m = ⟨s, l.returned ++ returns l.fleet.store e, l.dropped ++ drops l.fleet.store e⟩ := by
  unfold step
  rw [Option.map_eq_some_iff]
  exact exists_congr fun s => and_congr_right fun _ => eq_comm

theorem reach_fleet {l : Ledger V} (h : Reach (step team) Unconditional start l) :
    Reach (Fleet.step team) Unconditional Fleet.start l.fleet := by
  refine h.project Ledger.fleet fun {l m e} hstep => ?_
  obtain ⟨s, hs, rfl⟩ := (step_eq_some team).1 hstep
  exact Or.inr ⟨e, hs⟩

end Ledger

/-! ## The claims of a run -/

namespace Fleet

variable {team : Nat → Worker} {s u : Fleet V} {e : Event V} {fresh : List (Claim V)} {id : Nat}

/-- A condition that does not look at whether a claim holds. -/
def Steady (p : Claim V → Bool) : Prop := ∀ store granted c, p (watch store granted c) = p c

theorem tally_observe {p : Claim V → Bool} (hp : Steady p) (u : Fleet V) (fresh : List (Claim V))
    (id : Nat) :
    (u.observe fresh).tally id p = u.tally id p + fresh.countP (Claim.of id p) := by
  have hsame : Claim.of id p ∘ watch u.store (fresh.map (·.row.id)) = Claim.of id p := by
    funext c
    simp [Claim.of, hp u.store]
  rw [tally, observe, List.countP_append, List.countP_map, hsame]
  rfl

theorem tally_replace {i : Nat} {c : Claim V} (hc : s.claims[i]? = some c) (c' : Claim V)
    (id : Nat) (p : Claim V → Bool) :
    (s.replace i c').tally id p + (if Claim.of id p c then 1 else 0) =
      s.tally id p + (if Claim.of id p c' then 1 else 0) :=
  countP_replace hc c' _

/-- A claim replaced by one that meets the condition no more and no less. -/
theorem tally_replace_same {i : Nat} {c d : Claim V} (hc : s.claims[i]? = some c)
    {p : Claim V → Bool} (hrow : d.row = c.row) (hsame : p d = p c) (id : Nat) :
    (s.replace i d).tally id p = s.tally id p := by
  have hcount := tally_replace hc d id p
  simpa [Claim.of, hrow, hsame] using hcount

theorem running_of_get {store store' : MemoryStore V} (h : store'.get id = store.get id) :
    running store' id = running store id := by
  rw [running, h]
  rfl

theorem running_of_some {store : MemoryStore V} {row : Row Nat V} (h : store.get id = some row) :
    running store id = if row.status = .running then 1 else 0 := by
  simp [running, h]

theorem running_of_none {store : MemoryStore V} (h : store.get id = none) :
    running store id = 0 := by
  simp [running, h]

theorem running_amend_same {store : MemoryStore V} {row : Row Nat V} {f : Run V → Run V}
    (hget : store.get row.id = some row)
    (hsame : (f row.toRun).status = .running ↔ row.status = .running) (id : Nat) :
    running (store.amend [row.id] f) id = running store id := by
  by_cases hid : id = row.id
  · subst hid
    rw [running_of_some hget, running_of_some (MemoryStore.get_amend_mem hget
      (List.mem_singleton_self _))]
    simp [hsame]
  · exact running_of_get (MemoryStore.get_amend_not_mem (by simpa using hid))

theorem running_amend_stopped {store : MemoryStore V} {row : Row Nat V} {f : Run V → Run V}
    (hget : store.get row.id = some row) (hrunning : row.status = .running)
    (hstops : (f row.toRun).status ≠ .running) (id : Nat) :
    running (store.amend [row.id] f) id + (if row.id = id then 1 else 0) = running store id := by
  by_cases hid : row.id = id
  · subst hid
    rw [running_of_some hget, running_of_some (MemoryStore.get_amend_mem hget
      (List.mem_singleton_self _))]
    simp [hrunning, hstops]
  · rw [running_of_get (MemoryStore.get_amend_not_mem (by simpa using fun h => hid h.symm)),
      if_neg hid, Nat.add_zero]

theorem countP_fresh (hnodup : (fresh.map (·.row.id)).Nodup) (id : Nat) :
    fresh.countP (Claim.of id fun _ => true) =
      if id ∈ fresh.map (·.row.id) then 1 else 0 := by
  have hcount : fresh.countP (Claim.of id fun _ => true) = (fresh.map (·.row.id)).count id := by
    rw [List.count, List.countP_map]
    congr 1
    funext c
    by_cases hid : c.row.id = id <;> simp [Claim.of, hid]
  rw [hcount]
  split
  · rename_i hmem
    exact List.count_eq_one_of_mem hnodup hmem
  · rename_i hmem
    exact List.count_eq_zero_of_not_mem hmem

theorem running_add (store : MemoryStore V) (run : Run V) (hrun : run.status ≠ .running)
    (id : Nat) : running (store.add run).2 id = running store id := by
  unfold MemoryStore.add
  split
  · rfl
  · by_cases hid : id = store.sequence + 1
    · rw [running_of_some (by rw [MemoryStore.get_write, if_pos hid]), running_of_none
        (MemoryStore.get_past_sequence (by omega)), if_neg hrun]
    · exact running_of_get (by rw [MemoryStore.get_write, if_neg hid])

theorem running_claim {worker limit : Nat} {moment : Instant} {heard : Bool} {ids : List Nat}
    {f : Run V → Run V} (hg : Grants team s worker limit moment heard fresh ids f) (id : Nat) :
    running (s.store.amend ids f) id =
      running s.store id + fresh.countP (Claim.of id fun _ => true) := by
  rw [countP_fresh hg.nodup]
  by_cases hid : id ∈ ids
  · obtain ⟨c, hc, hcid⟩ := hg.covered id hid
    obtain ⟨row, hrow, rfl⟩ := hg.chosen id hid
    obtain ⟨hget, hpending, -⟩ := MemoryStore.mem_chosen hrow
    have hrunning := (hg.granted row.toRun).running.1
    rw [running_of_some hget, running_of_some (MemoryStore.get_amend_mem hget hid), if_pos hrunning,
      if_neg (by rw [hpending]; decide), if_pos (List.mem_map.2 ⟨c, hc, hcid⟩)]
  · have hnone : id ∉ fresh.map (·.row.id) := by
      intro hmem
      obtain ⟨c, hc, rfl⟩ := List.mem_map.1 hmem
      exact hid (hg.fresh_id c hc)
    rw [running_of_get (MemoryStore.get_amend_not_mem hid), if_neg hnone, Nat.add_zero]

theorem running_reclaim (store : MemoryStore V) (moment : Instant) (id : Nat) :
    running (store.reclaim moment).2 id + ((store.abandoned moment).map (·.id)).count id =
      running store id := by
  have hnodup : ((store.abandoned moment).map (·.id)).Nodup :=
    store.ids_nodup.sublist (((List.take_sublist _ _).trans List.filter_sublist).map _)
  show running (store.amend _ _) id + _ = _
  by_cases hid : id ∈ (store.abandoned moment).map (·.id)
  · obtain ⟨row, hrow, rfl⟩ := List.mem_map.1 hid
    obtain ⟨hget, hexpired⟩ := MemoryStore.mem_abandoned hrow
    have hrunning := (MemoryStore.expired_iff.1 hexpired).1
    rw [running_of_some hget, running_of_some (MemoryStore.get_amend_mem hget hid),
      List.count_eq_one_of_mem hnodup hid, if_pos hrunning,
      if_neg (takenBack_status moment row.toRun)]
  · rw [running_of_get (MemoryStore.get_amend_not_mem hid), List.count_eq_zero_of_not_mem hid,
      Nat.add_zero]

theorem running_purge (store : MemoryStore V) (before : Instant) (limit id : Nat) :
    running (store.purge before limit).2 id = running store id := by
  show running (store.drop _) id = _
  by_cases hid : id ∈ (store.gone before limit).map (·.id)
  · obtain ⟨row, hrow, rfl⟩ := List.mem_map.1 hid
    obtain ⟨hget, hover⟩ := MemoryStore.mem_gone hrow
    have hsettled := (MemoryStore.isOver_iff.1 hover).1
    have hnot : row.status ≠ .running := by
      intro hrunning
      rw [hrunning] at hsettled
      cases hsettled
    rw [running_of_some hget, running_of_none (by rw [MemoryStore.get_drop, if_pos hid]),
      if_neg hnot]
  · exact running_of_get (by rw [MemoryStore.get_drop, if_neg hid])

theorem running_cancel (store : MemoryStore V) (id' : Nat) (moment : Instant) (id : Nat) :
    running (store.cancel id' moment).2 id = running store id := by
  rcases MemoryStore.cancel_cases store id' moment with ⟨-, hc⟩ | ⟨row, hget, hpending, hc⟩
  · rw [hc]
  · rw [hc]
    obtain rfl : row.id = id' := MemoryStore.get_id hget
    refine running_amend_same hget ?_ id
    rw [hpending]
    simp [MemoryStore.calledOff]

variable (team) in
theorem running_beat (store : MemoryStore V) (c : Claim V) (moment : Instant) (id : Nat) :
    running (beat team store c moment).2 id = running store id := by
  rcases MemoryStore.heartbeat_cases store c.row.id (team c.worker).name c.row.attempts
    (team c.worker).lease moment with ⟨-, hb⟩ | ⟨-, hb⟩ | ⟨row, leaseEnd, hheld, -, hb⟩
  · simp only [beat, hb]
  · simp only [beat, hb]
  · simp only [beat, hb]
    have hget := (MemoryStore.held_eq_some.1 hheld).1
    have hid : row.id = c.row.id := MemoryStore.get_id hget
    rw [← hid]
    exact running_amend_same (hid ▸ hget) Iff.rfl id

theorem ended_of_move {handler : Option Handler} {pool : Bool} {c : Claim V} {a : Attempt V}
    {m : Move V} (hm : c.toAttempt.move handler pool m = some a) :
    ({ c with toAttempt := a } : Claim V).ended = c.ended := by
  have hphase := (Attempt.move_spec hm).2
  have hiff : ∀ d : Claim V, d.ended = true ↔ ∃ e, d.phase = .answered e true := by
    intro d
    unfold Claim.ended
    split <;> simp_all
  rw [Bool.eq_iff_iff, hiff, hiff]
  exact exists_congr fun e => hphase e true

/-- The ending of a claim the store takes stops the run, and the claim is one that is ended. -/
theorem landed_accounts {i : Nat} {c : Claim V} {ending : Ending V} (hc : s.claims[i]? = some c)
    (hasked : c.phase = .asked ending) (id : Nat) :
    running (end_ team s.store c ending).2 id +
        (s.replace i { c with phase := .answered ending (end_ team s.store c ending).1 }).tally id
          Claim.ended =
      running s.store id + s.tally id Claim.ended := by
  have hwas : c.ended = false := by simp [Claim.ended, hasked]
  rcases end_cases team s.store c ending with ⟨-, he⟩ | ⟨row, hheld, he⟩
  · have hsame := tally_replace_same hc (d := { c with phase := .answered ending false })
      (p := Claim.ended) rfl (by simp [Claim.ended, hasked]) id
    simp only [he, hsame]
  · rcases MemoryStore.held_eq_some.1 hheld with ⟨hget, -, hrunning, -⟩
    have hid := MemoryStore.get_id hget
    have hstops := running_amend_stopped (hid ▸ hget) hrunning (applied_status ending row.toRun) id
    have hmore := tally_replace hc { c with phase := .answered ending true } id Claim.ended
    have hnow : (if Claim.of id Claim.ended { c with phase := .answered ending true }
        then 1 else 0) = if row.id = id then 1 else 0 := by
      simp [Claim.of, Claim.ended, hid]
    have hbefore : (if Claim.of id Claim.ended c then 1 else 0) = 0 := by
      simp [Claim.of, hwas]
    rw [hnow, hbefore] at hmore
    simp only [he]
    rw [hid] at hstops hmore
    omega

/-- One step: what it grants is what it starts, and what it stops is ended or taken back. -/
theorem act_accounts (h : s.act team e = some (u, fresh)) (id : Nat) :
    running u.store id + u.tally id Claim.ended + (returns s.store e).count id =
      running s.store id + s.tally id Claim.ended + fresh.countP (Claim.of id fun _ => true) := by
  cases acts team h with
  | add task dueAt createdAt payload key priority hadd =>
      have hrunning := running_add s.store (build task dueAt createdAt payload key priority)
        (by simp [build]) id
      rw [hadd] at hrunning
      simp only [returns, List.count_nil, List.countP_nil, Nat.add_zero, hrunning]
      rfl
  | claim hgrants =>
      have hclaim := running_claim hgrants id
      simp only [returns, List.count_nil, tally] at *
      omega
  | reclaim moment =>
      have hreclaim := running_reclaim s.store moment id
      simp only [returns, List.countP_nil, tally] at *
      omega
  | cancel off moment => simpa [returns, tally] using running_cancel s.store off moment id
  | purge before limit => simpa [returns, tally] using running_purge s.store before limit id
  | @push i c moment hc =>
      have hsame := tally_replace_same hc (d := { c with beats := c.beats ++ [moment] })
        (p := Claim.ended) rfl rfl id
      simpa [returns, replace] using hsame
  | @beatLands i k c moment hc =>
      have hsame := tally_replace_same hc (d := { c with beats := c.beats.eraseIdx k })
        (p := Claim.ended) rfl rfl id
      simp only [returns, List.count_nil, List.countP_nil, Nat.add_zero,
        running_beat team s.store c moment id]
      exact congrArg _ hsame
  | @move i c m a hc hm =>
      have hsame := tally_replace_same hc (d := { c with toAttempt := a }) (p := Claim.ended)
        (Attempt.move_spec hm).1 (ended_of_move hm) id
      exact congrArg (running s.store id + ·) hsame
  | lands hc hasked =>
      simp only [returns, List.count_nil, List.countP_nil, Nat.add_zero]
      exact landed_accounts hc hasked id
  | stop | drain | shut => rfl

/-- A step leaves every claim there was a claim of the same run. -/
theorem act_claim_ids (h : s.act team e = some (u, fresh)) :
    u.claims.map (·.row.id) = s.claims.map (·.row.id) := by
  obtain ⟨hlen, hadv⟩ := act_claims team h
  refine List.ext_getElem (by simp [hlen]) fun i hi hi' => ?_
  simp only [List.length_map] at hi hi'
  obtain ⟨c, hc, hcadv⟩ := hadv i _ (List.getElem?_eq_getElem hi)
  rw [List.getElem?_eq_getElem hi', Option.some.injEq] at hc
  simp only [List.getElem_map, hc, hcadv.same.row]

theorem tally_all (h : s.act team e = some (u, fresh)) (id : Nat) :
    u.tally id (fun _ => true) = s.tally id fun _ => true := by
  have hcount : ∀ v : Fleet V, v.tally id (fun _ => true) =
      (v.claims.map (·.row.id)).countP (· = id) := by
    intro v
    rw [tally, List.countP_map]
    congr 1
    funext c
    simp [Claim.of]
  rw [hcount, hcount, act_claim_ids h]

/-! ## The attempts of a run -/

variable (team) in
/-- How many attempts of a run a step gives back. -/
def handsBack (s : Fleet V) (e : Event V) (id : Nat) : Nat :=
  match e with
  | .lands i =>
      match s.claims[i]? with
      | none => 0
      | some c =>
          match c.phase with
          | .asked ending =>
              if c.row.id = id ∧ ending.spends = false ∧ (end_ team s.store c ending).1 then 1
              else 0
          | _ => 0
  | _ => 0

theorem tally_released (h : s.act team e = some (u, fresh)) (id : Nat) :
    u.tally id Claim.released = s.tally id Claim.released + handsBack team s e id := by
  cases acts team h with
  | @push i c moment hc =>
      exact tally_replace_same hc (d := { c with beats := c.beats ++ [moment] })
        (p := Claim.released) rfl rfl id
  | @beatLands i k c moment hc =>
      exact tally_replace_same hc (d := { c with beats := c.beats.eraseIdx k })
        (p := Claim.released) rfl rfl id
  | @move i c m a hc hm =>
      exact tally_replace_same hc (d := { c with toAttempt := a }) (p := Claim.released)
        (Attempt.move_spec hm).1 (released_of_move hm) id
  | @lands i c ending hc hasked =>
      have hmore := tally_replace hc
        { c with phase := .answered ending (end_ team s.store c ending).1 } id Claim.released
      have hbefore : (if Claim.of id Claim.released c then 1 else 0) = 0 := by
        simp [Claim.of, Claim.not_released_of_asked hasked]
      have hnow : (if Claim.of id Claim.released
          { c with phase := .answered ending (end_ team s.store c ending).1 } then 1 else 0) =
          handsBack team s (.lands i) id := by
        simp only [handsBack, hc, hasked]
        cases ending <;> cases (end_ team s.store c _).1 <;>
          simp [Claim.of, Claim.released, Ending.spends]
      rw [hbefore, hnow] at hmore
      exact hmore
  | add | claim | reclaim | cancel | purge | stop | drain | shut => rfl

variable (team) in
theorem handsBack_cases (s : Fleet V) (e : Event V) (id : Nat) :
    handsBack team s e id = 0 ∨ ∃ i c ending row, e = .lands i ∧ s.claims[i]? = some c ∧
      c.phase = .asked ending ∧ c.row.id = id ∧
      s.store.held id (team c.worker).name c.row.attempts = some row := by
  unfold handsBack
  split
  · rename_i i
    split
    · exact Or.inl rfl
    · rename_i c hc
      split
      · rename_i ending hasked
        rcases end_cases team s.store c ending with ⟨-, he⟩ | ⟨row, hheld, -⟩
        · exact Or.inl (by simp [he])
        · by_cases hid : c.row.id = id
          · exact Or.inr ⟨i, c, ending, row, rfl, hc, hasked, hid, hid ▸ hheld⟩
          · exact Or.inl (by simp [hid])
      · exact Or.inl rfl
  · exact Or.inl rfl

/-- A run the store took an ending of is what the ending makes of it. -/
theorem applied_of_lands {i : Nat} {c : Claim V} {ending : Ending V} {row row' : Row Nat V}
    (h : s.act team (.lands i) = some (u, fresh)) (hc : s.claims[i]? = some c)
    (hasked : c.phase = .asked ending)
    (hheld : s.store.held c.row.id (team c.worker).name c.row.attempts = some row)
    (hrow' : u.store.get c.row.id = some row') : row'.toRun = ending.applied row.toRun := by
  simp only [act, hc, hasked, Option.some.injEq, Prod.mk.injEq] at h
  obtain ⟨rfl, -⟩ := h
  rcases end_cases team s.store c ending with ⟨hnone, -⟩ | ⟨found, hfound, he⟩
  · rw [hnone] at hheld
    cases hheld
  · rw [hfound, Option.some.injEq] at hheld
    subst hheld
    simp only [he] at hrow'
    rw [MemoryStore.get_amend_mem (MemoryStore.held_eq_some.1 hfound).1
      (List.mem_singleton_self _), Option.some.injEq] at hrow'
    rw [← hrow']

theorem stopped_of_lands {i : Nat} {c : Claim V} {ending : Ending V} {row row' : Row Nat V}
    (h : s.act team (.lands i) = some (u, fresh)) (hc : s.claims[i]? = some c)
    (hasked : c.phase = .asked ending)
    (hheld : s.store.held c.row.id (team c.worker).name c.row.attempts = some row)
    (hrow' : u.store.get c.row.id = some row') : row'.status ≠ .running := by
  rw [applied_of_lands h hc hasked hheld hrow']
  exact applied_status ending row.toRun

theorem countP_fresh_zero (hfresh : ∀ c ∈ fresh, c.row.id ≠ id) :
    fresh.countP (Claim.of id fun _ => true) = 0 := by
  rw [List.countP_eq_zero]
  intro c hc
  simp [Claim.of, hfresh c hc]

/-- A claim adds one to what a run has spent, a release takes one off, and nothing else counts. -/
theorem act_spends (h : s.act team e = some (u, fresh)) {row' : Row Nat V}
    (hrow' : u.store.get id = some row') :
    row'.attempts + handsBack team s e id =
      ((s.store.get id).map (·.attempts)).getD 0 + fresh.countP (Claim.of id fun _ => true) := by
  have hturn := act_turn team h id
  rw [hrow'] at hturn
  generalize hbefore : s.store.get id = before at hturn
  cases hturn with
  | kept _ hfresh =>
      have hnone : handsBack team s e id = 0 := by
        rcases handsBack_cases team s e id with hzero |
          ⟨i, c, ending, row, rfl, hc, hasked, rfl, hheld⟩
        · exact hzero
        · obtain ⟨hget, -, hrunning, -⟩ := MemoryStore.held_eq_some.1 hheld
          rw [hbefore, Option.some.injEq] at hget
          subst hget
          exact absurd hrunning (stopped_of_lands h hc hasked hheld hrow')
      simp [hnone, countP_fresh_zero hfresh]
  | born task dueAt createdAt payload key priority he hid =>
      subst he
      cases h
      simp [handsBack, build]
  | granted row _ worker limit moment heard he hget hchosen hid hrun =>
      subst he
      obtain ⟨ids, f, rfl, hg⟩ := claim_spec team h
      have hpending := (MemoryStore.mem_chosen hchosen).2.1
      have hin : id ∈ ids := by
        by_contra hout
        rw [MemoryStore.get_amend_not_mem hout, hget, Option.some.injEq] at hrow'
        have hrunning := hrun.running.1
        rw [← hrow', hpending] at hrunning
        cases hrunning
      obtain ⟨c, hc, hcid⟩ := hg.covered id hin
      have hattempts := hrun.running.2.2.1
      simp [handsBack, countP_fresh hg.nodup, hattempts, ← hcid, List.mem_map_of_mem hc]
  | beaten row i k c moment leaseEnd he hc hbeat hid hheld hlease hfresh =>
      subst he
      simp [handsBack, hfresh, MemoryStore.beaten]
  | ended row i c ending he hc hasked hid hheld hfresh =>
      subst he
      have htaken : (end_ team s.store c ending).1 = true := by
        rcases end_cases team s.store c ending with ⟨hnone, -⟩ | ⟨-, -, he⟩
        · rw [hid, hheld] at hnone
          cases hnone
        · rw [he]
      simp only [handsBack, hc, hasked, hid, htaken, hfresh, applied_attempts]
      cases ending <;> simp [Ending.spends]
  | takenBack row moment lease he hrunning hlease hexpired hfresh =>
      subst he
      simp [handsBack, hfresh, takenBack_attempts]
  | calledOff row moment he hpending hfresh =>
      subst he
      simp [handsBack, hfresh, MemoryStore.calledOff]

/-! ## Every claim is accounted for -/

theorem countP_le_one {α : Type} {p : α → Bool} {l : List α}
    (h : l.Pairwise fun a b => p a = true → p b = true → False) : l.countP p ≤ 1 := by
  rw [List.countP_eq_length_filter]
  have hpair := h.sublist (List.filter_sublist (p := p))
  have hall : ∀ a ∈ l.filter p, p a = true := fun a ha => (List.mem_filter.1 ha).2
  generalize l.filter p = found at hpair hall
  cases found with
  | nil => exact Nat.zero_le 1
  | cons a rest =>
      cases rest with
      | nil => exact le_rfl
      | cons b rest =>
          exact ((List.pairwise_cons.1 hpair).1 b List.mem_cons_self (hall a List.mem_cons_self)
            (hall b (List.mem_cons_of_mem a List.mem_cons_self))).elim

/-- A run has one claim that holds it while it is running, and none otherwise. -/
theorem Fenced.holding (hF : Fenced team s) (id : Nat) :
    s.tally id Claim.holds = running s.store id := by
  have hiff : ∀ c : Claim V, Claim.of id Claim.holds c = true ↔ c.row.id = id ∧ c.holds = true := by
    intro c
    simp [Claim.of]
  by_cases hrunning : ∃ row, s.store.get id = some row ∧ row.status = .running
  · obtain ⟨row, hget, hstatus⟩ := hrunning
    obtain ⟨c, hc, hholds, hid⟩ := hF.owned id row hget hstatus
    have hpos : 0 < s.tally id Claim.holds :=
      List.countP_pos_iff.2 ⟨c, hc, (hiff c).2 ⟨hid, hholds⟩⟩
    have hone : s.tally id Claim.holds ≤ 1 := by
      apply countP_le_one
      rw [List.pairwise_iff_getElem]
      intro i j hi hj hij hci hcj
      rw [hiff] at hci hcj
      have hlost := (hF.latest i j _ _ hij (List.getElem?_eq_getElem hi)
        (List.getElem?_eq_getElem hj) (hci.1.trans hcj.1.symm)).1
      rw [hci.2] at hlost
      cases hlost
    rw [running_of_some hget, if_pos hstatus]
    omega
  · have hzero : running s.store id = 0 := by
      rw [running, if_neg]
      intro hany
      obtain ⟨row, hget, hstatus⟩ := (Option.any_eq_true _ _).1 hany
      exact hrunning ⟨row, hget, of_decide_eq_true hstatus⟩
    rw [hzero, tally, List.countP_eq_zero]
    intro c hc hcount
    obtain ⟨rfl, hholds⟩ := (hiff c).1 hcount
    obtain ⟨row, hget, hstatus, -⟩ := hF.running_of_holds hc hholds
    exact hrunning ⟨row, hget, hstatus⟩

/-- A claim whose ending was taken does not hold its run any more. -/
theorem ended_step (hE : ∀ c ∈ s.claims, c.ended = true → c.holds = false)
    (h : s.act team e = some (u, fresh)) :
    ∀ c ∈ (u.observe fresh).claims, c.ended = true → c.holds = false := by
  intro c hc hended
  obtain ⟨i, hci⟩ := List.getElem?_of_mem hc
  rcases step_claim team h hci with ⟨c₀, c₁, hc₀, hadv, rfl⟩ | ⟨-, hf⟩
  · by_contra hholds
    obtain ⟨hheld, ⟨row, hrow, hrunning⟩, -⟩ := watch_holds.1 (by simpa using hholds)
    have hlost : c₀.ended = true → False := fun hwas => by
      rw [hadv.same.holds, hE c₀ (List.mem_of_getElem? hc₀) hwas] at hheld
      cases hheld
    cases hadv with
    | kept => exact hlost hended
    | pushed => exact hlost hended
    | beat => exact hlost hended
    | moved m a he hm => exact hlost ((ended_of_move hm).symm.trans hended)
    | landed ending he hasked =>
        subst he
        rcases end_cases team s.store c₀ ending with ⟨-, hno⟩ | ⟨found, hfound, -⟩
        · simp [watch, Claim.ended, hno] at hended
        · exact stopped_of_lands h hc₀ hasked hfound hrow hrunning
  · obtain ⟨_, _, _, _, -, -, -, -, -, heard, hspawn, -⟩ :=
      Fenced.fresh_spec h (List.mem_of_getElem? hf)
    rw [hspawn] at hended
    cases heard <;> cases hended

end Fleet

namespace Ledger

open Fleet

variable {team : Nat → Worker}

/-- The accounts of a ledger: what became of the claims of each run, and what they cost it. -/
structure Accounted (l : Ledger V) : Prop where
  claims : ∀ id, l.fleet.tally id (fun _ => true) =
    l.fleet.tally id Claim.holds + l.fleet.tally id Claim.ended + l.returned.count id
  holding : ∀ id, l.fleet.tally id Claim.holds = running l.fleet.store id
  apart : ∀ c ∈ l.fleet.claims, c.ended = true → c.holds = false
  attempts : ∀ id row, l.fleet.store.get id = some row →
    row.attempts + l.fleet.tally id Claim.released = l.fleet.tally id fun _ => true

theorem tally_of_unknown {s : Fleet V} (hF : Fenced team s) {id : Nat}
    (hid : s.store.sequence < id) (p : Claim V → Bool) : s.tally id p = 0 := by
  rw [tally, List.countP_eq_zero]
  intro c hc
  have := hF.known c hc
  simp only [Claim.of, Bool.decide_and, Bool.and_eq_true, decide_eq_true_eq, not_and]
  omega

/-- A run there was not is one just written, of which nothing was claimed. -/
theorem spent_before {s u : Fleet V} {e : Event V} {fresh : List (Claim V)} (hF : Fenced team s)
    (hA : ∀ id row, s.store.get id = some row →
      row.attempts + s.tally id Claim.released = s.tally id fun _ => true)
    (h : s.act team e = some (u, fresh)) {id : Nat} {row' : Row Nat V}
    (hrow' : u.store.get id = some row') :
    ((s.store.get id).map (·.attempts)).getD 0 + s.tally id Claim.released =
      s.tally id fun _ => true := by
  cases hrow : s.store.get id with
  | some row => exact hA id row hrow
  | none =>
      have hunknown : s.store.sequence < id := by
        have hnext := (act_born h hrow hrow').2
        omega
      simp [tally_of_unknown hF hunknown]

theorem step_accounted {l m : Ledger V} {e : Event V} (hF : Fenced team l.fleet)
    (hA : l.Accounted) (h : l.step team e = some m) : m.Accounted := by
  obtain ⟨s, hstep, rfl⟩ := (step_eq_some team).1 h
  have hFs : Fenced team s := hF.step_fenced hstep
  obtain ⟨u, fresh, hact, rfl⟩ := (Fleet.step_eq_some team).1 hstep
  have hnone : ∀ (id : Nat) (p : Claim V → Bool),
      (∀ c ∈ fresh, p c = false) → fresh.countP (Claim.of id p) = 0 := by
    intro id p hp
    rw [List.countP_eq_zero]
    intro c hc
    simp [Claim.of, hp c hc]
  have hended : ∀ c ∈ fresh, c.ended = false := by
    intro c hc
    obtain ⟨_, _, _, _, -, -, -, -, -, heard, hspawn, -⟩ := Fenced.fresh_spec hact hc
    rw [hspawn]
    cases heard <;> rfl
  have hreleased : ∀ c ∈ fresh, c.released = false := fun c hc =>
    (Fenced.fresh_running hact hc).1
  have hall := tally_all hact
  constructor
  · intro id
    have haccounts := act_accounts hact id
    have hclaims := hA.claims id
    have hheld := hA.holding id
    have hholds : (u.observe fresh).tally id Claim.holds = running u.store id := hFs.holding id
    simp only [hholds, tally_observe (p := fun _ => true) (fun _ _ _ => rfl),
      tally_observe (p := Claim.ended) (fun _ _ _ => rfl), hnone id _ hended, hall,
      List.count_append]
    omega
  · exact fun id => hFs.holding id
  · exact ended_step hA.apart hact
  · intro id row' hrow'
    have hspends := act_spends hact hrow'
    have hbefore := spent_before hF hA.attempts hact hrow'
    have hback := tally_released hact id
    simp only [tally_observe (p := fun _ => true) (fun _ _ _ => rfl),
      tally_observe (p := Claim.released) (fun _ _ _ => rfl), hnone id _ hreleased, hall, hback]
    push_cast
    omega

/-- Every claim ever granted holds its run, was ended under it or was taken back, each exactly
once; a run has one claim that holds it while it is running and none otherwise; and what a run has
spent is the claims of it that were not handed back. -/
theorem every_claim_is_accounted {l : Ledger V}
    (h : Reach (step team) Unconditional start l) : l.Accounted := by
  have hstart : (start : Ledger V).Accounted := by
    constructor
    · intro id
      rfl
    · intro id
      rfl
    · intro c hc
      cases hc
    · intro id row hrow
      cases hrow
  exact h.invariant hstart fun hl hA _ hstep =>
    step_accounted (reach_fenced team (reach_fleet team hl)) hA hstep

/-- A run claimed, taken back from a worker that stopped answering, and dropped an instant later. -/
def abandoned : List (Event Unit) :=
  [.add Fleet.remote .epoch .epoch () none none, .claim 0 1 .epoch true,
   .reclaim ((Instant.epoch.plus 15).get rfl), .purge ((Instant.epoch.plus 33).get rfl) 10]

theorem every_claim_is_accounted_abandoned : ∃ l : Ledger Unit,
    runAll (step fun _ => Fleet.undeclared) start abandoned = some l ∧ l.returned = [1] ∧
      l.dropped.map (·.id) = [1] ∧ l.Accounted := by
  have hreach : Reach (step fun _ => Fleet.undeclared) Unconditional start
      ((runAll (step fun _ => Fleet.undeclared) start abandoned).get (by rfl)) :=
    .of_runAll .start (Option.some_get _).symm
  exact ⟨_, (Option.some_get _).symm, rfl, rfl, every_claim_is_accounted hreach⟩

end Ledger

end Queuefy
