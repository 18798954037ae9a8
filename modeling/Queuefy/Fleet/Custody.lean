import Queuefy.Fleet.Closing

/-! # From one attempt to the next

An attempt works on a run as the store handed it out. What it was handed is never a surprise: the
first attempt of a run begins with the run as it was written, and every later one with the run as
the attempt right before it left it, by the ending the store took of that one or by the reclaim that
took the run from it. And no attempt begins before the run it was handed was due.
-/

namespace Queuefy

variable {V : Type}

/-- What an attempt leaves of its run to the next: the run as its ending made it, or as a reclaim
took it back. -/
def Claim.Hands (c : Claim V) (run : Run V) : Prop :=
  (∃ e : Ending V, c.phase = .answered e true ∧ run = e.applied c.row.toRun) ∨
    ∃ moment, run = MemoryStore.takenBack moment c.row.toRun

namespace Fleet

variable {team : Nat → Worker} {s u : Fleet V} {e : Event V} {fresh : List (Claim V)}

/-- The last claim of its run. -/
def Last (s : Fleet V) (i : Nat) (c : Claim V) : Prop :=
  s.claims[i]? = some c ∧ ∀ j d, i < j → s.claims[j]? = some d → d.row.id ≠ c.row.id

/-- What the attempt of a claim begins with: a run that was due and served, as it was written where
no claim of it came before, and else as the claim of it right before this one left it. -/
def Begins (team : Nat → Worker) (s : Fleet V) (j : Nat) (d : Claim V) : Prop :=
  ∃ moment run, run.dueAt ≤ moment ∧ run.queue ∈ (team d.worker).queues ∧
    Granted (team d.worker) moment run d.row.toRun ∧
    ((∃ w ∈ s.written, w.id = d.row.id ∧ run = w.toRun) ∧
        (∀ i c, i < j → s.claims[i]? = some c → c.row.id ≠ d.row.id) ∨
      ∃ i c, i < j ∧ s.claims[i]? = some c ∧ c.row.id = d.row.id ∧
        (∀ k b, i < k → k < j → s.claims[k]? = some b → b.row.id ≠ d.row.id) ∧ c.Hands run)

/-- The store keeps every run as its last claim was handed it or left it. -/
structure Custody (team : Nat → Worker) (s : Fleet V) : Prop where
  held : ∀ i c, s.Last i c → ∀ row, s.store.get c.row.id = some row → row.status = .running →
    ∃ lease, row.toRun = { c.row.toRun with leaseUntil := lease }
  handed : ∀ i c, s.Last i c → ∀ row, s.store.get c.row.id = some row → row.status = .pending →
    c.Hands row.toRun
  waiting : ∀ id row, s.store.get id = some row → (∀ c ∈ s.claims, c.row.id ≠ id) →
    row ∈ s.written ∧ row.status = .pending ∨ row.status = .canceled
  begins : ∀ j d, s.claims[j]? = some d → Begins team s j d

theorem custody_start : Custody team (start : Fleet V) := by
  constructor <;> simp [start, Last]

/-! ## What a step leaves of it -/

theorem applied_lease (e : Ending V) (run : Run V) (lease : Option Instant) :
    e.applied { run with leaseUntil := lease } = e.applied run := by
  cases e <;> rfl

theorem takenBack_lease (moment : Instant) (run : Run V) (lease : Option Instant) :
    MemoryStore.takenBack moment { run with leaseUntil := lease } =
      MemoryStore.takenBack moment run := rfl

theorem answered_stays {i : Nat} {c c₁ : Claim V} (hadv : Advance team s e i c c₁)
    {ending : Ending V} (h : c.phase = .answered ending true) :
    c₁.phase = .answered ending true := by
  cases hadv with
  | kept => exact h
  | pushed => exact h
  | beat => exact h
  | moved m a he hm => exact ((Attempt.move_spec hm).2 ending true).2 h
  | landed asked he hasked =>
      rw [hasked] at h
      cases h

theorem hands_stays {i : Nat} {c c₁ : Claim V} (hadv : Advance team s e i c c₁) {run : Run V}
    (h : c.Hands run) {store : MemoryStore V} {granted : List Nat} :
    (watch store granted c₁).Hands run := by
  have hrow : (watch store granted c₁).row = c.row := (watch_row _ _ _).trans hadv.same.row
  rcases h with ⟨ending, hphase, hrun⟩ | ⟨moment, hrun⟩
  · exact Or.inl ⟨ending, answered_stays hadv hphase, by rw [hrow, hrun]⟩
  · exact Or.inr ⟨moment, by rw [hrow, hrun]⟩

theorem landed_taken {i : Nat} {c c₁ : Claim V} {ending : Ending V} {row : Row Nat V}
    (hadv : Advance team s (.lands i) i c c₁) (hasked : c.phase = .asked ending)
    (hheld : s.store.held c.row.id (team c.worker).name c.row.attempts = some row) :
    c₁.phase = .answered ending true := by
  cases hadv with
  | kept he => simp [Event.subject] at he
  | pushed moment he => cases he
  | beat k he => cases he
  | moved m a he => cases he
  | landed asked he hasked' =>
      rw [hasked, Phase.asked.injEq] at hasked'
      subst hasked'
      rcases end_cases team s.store c ending with ⟨hnone, -⟩ | ⟨-, -, htaken⟩
      · rw [hnone] at hheld
        cases hheld
      · simp [htaken]

theorem fresh_due (h : s.act team e = some (u, fresh)) {c : Claim V} (hc : c ∈ fresh) :
    ∃ row moment, s.store.get c.row.id = some row ∧ row.status = .pending ∧ row.dueAt ≤ moment ∧
      row.queue ∈ (team c.worker).queues ∧
        Granted (team c.worker) moment row.toRun c.row.toRun := by
  rcases act_fresh team h with rfl | ⟨worker, limit, moment, heard, ids, f, rfl, rfl, hg⟩
  · cases hc
  · rcases hg.spawned c hc with ⟨heard', hspawn, -⟩
    rcases hg.chosen _ (hg.fresh_id c hc) with ⟨row, hrow, hid⟩
    rcases MemoryStore.mem_chosen hrow with ⟨hget, hpending, hqueue, hdue⟩
    rw [hid] at hget
    have hworker : c.worker = worker := by
      rw [hspawn]
      rfl
    have hafter := hg.fresh_row c hc
    rw [MemoryStore.get_amend_mem hget (hg.fresh_id c hc), Option.some.injEq] at hafter
    have hrun : f row.toRun = c.row.toRun := congrArg Row.toRun hafter
    refine ⟨row, moment, hget, hpending, hdue, hworker ▸ hqueue, ?_⟩
    rw [hworker, ← hrun]
    exact hg.granted row.toRun

/-! ## Where the last claim of a run was before a step -/

theorem fresh_at {k : Nat} {c : Claim V} (h : s.act team e = some (u, fresh))
    (hc : fresh[k]? = some c) : (u.observe fresh).claims[s.claims.length + k]? = some c := by
  have hlen := (act_claims team h).1
  simp only [observe]
  rw [List.getElem?_append_right (by simp [hlen])]
  simpa [hlen] using hc

/-- A claim that is the last of its run was so before the step, which granted no other, or is fresh
from it. -/
theorem last_step (h : s.act team e = some (u, fresh)) {i : Nat} {c : Claim V}
    (hlast : (u.observe fresh).Last i c) :
    (∃ c₀ c₁, s.Last i c₀ ∧ Advance team s e i c₀ c₁ ∧ c₁.row = c₀.row ∧
        c = watch u.store (fresh.map (·.row.id)) c₁ ∧ ∀ d ∈ fresh, d.row.id ≠ c₀.row.id) ∨
      c ∈ fresh := by
  rcases hlast with ⟨hc, hrest⟩
  rcases step_claim team h hc with ⟨c₀, c₁, hc₀, hadv, rfl⟩ | ⟨-, hf⟩
  · have hrow := hadv.same.row
    rw [watch_row, hrow] at hrest
    refine Or.inl ⟨c₀, c₁, ⟨hc₀, ?_⟩, hadv, hrow, rfl, ?_⟩
    · intro j d hij hd
      rcases claim_step team h hd with ⟨d₁, hdadv, hd₁⟩
      have hne := hrest j _ hij hd₁
      rwa [watch_row, hdadv.same.row] at hne
    · intro d hd
      rcases List.getElem?_of_mem hd with ⟨k, hk⟩
      have hlt := (List.getElem?_eq_some_iff.mp hc₀).1
      exact hrest _ d (by omega) (fresh_at h hk)
  · exact Or.inr (List.mem_of_getElem? hf)

theorem fresh_stored (h : s.act team e = some (u, fresh)) {c : Claim V} (hc : c ∈ fresh)
    {row : Row Nat V} (hrow : u.store.get c.row.id = some row) :
    row = c.row ∧ row.status = .running := by
  have hheld := (Fenced.fresh_running h hc).2.2.2.2
  rcases MemoryStore.held_eq_some.1 hheld with ⟨hget, -, hrunning, -⟩
  rw [hrow, Option.some.injEq] at hget
  exact ⟨hget, hget ▸ hrunning⟩

/-! ## A step keeps the runs in custody -/

theorem held_step (hF : Fenced team s) (hC : Custody team s) (h : s.act team e = some (u, fresh))
    {i : Nat} {c : Claim V} (hlast : (u.observe fresh).Last i c) {row' : Row Nat V}
    (hrow' : u.store.get c.row.id = some row') (hrunning' : row'.status = .running) :
    ∃ lease, row'.toRun = { c.row.toRun with leaseUntil := lease } := by
  rcases last_step h hlast with ⟨c₀, c₁, hlast₀, hadv, hrow, rfl, hfresh⟩ | hf
  · rw [watch_row, hrow] at hrow' ⊢
    have hturn := act_turn team h c₀.row.id
    rw [hrow'] at hturn
    generalize hbefore : s.store.get c₀.row.id = before at hturn
    cases hturn with
    | kept => exact hC.held i c₀ hlast₀ row' hbefore hrunning'
    | born task dueAt createdAt payload key priority he hid =>
        have := hF.known c₀ (List.mem_of_getElem? hlast₀.1)
        omega
    | granted row _ worker limit moment heard he hget hchosen hid hrun =>
        have hpending := (MemoryStore.mem_chosen hchosen).2.1
        rcases granted_fresh team (he ▸ h) hbefore hpending hrow' hrunning' with ⟨d, hd, hdid⟩
        exact absurd hdid (hfresh d hd)
    | beaten row _ _ d moment leaseEnd he hd hbeat hid hheld =>
        have hrunning := (MemoryStore.held_eq_some.1 hheld).2.2.1
        rcases hC.held i c₀ hlast₀ row hbefore hrunning with ⟨lease, hlease⟩
        exact ⟨some leaseEnd, by simp [MemoryStore.beaten, hlease]⟩
    | ended row j d ending => exact absurd hrunning' (applied_status _ _)
    | takenBack => exact absurd hrunning' (takenBack_status _ _)
    | calledOff => cases hrunning'
  · rcases fresh_stored h hf hrow' with ⟨rfl, -⟩
    exact ⟨_, rfl⟩

/-- The ending of a run is that of its last claim, as no other holds the run. -/
theorem last_of_ended (hF : Fenced team s) {i j : Nat} {c d : Claim V} {ending : Ending V}
    {row : Row Nat V} (hlast : s.Last i c) (hd : s.claims[j]? = some d)
    (hasked : d.phase = .asked ending) (hid : d.row.id = c.row.id)
    (hheld : s.store.held d.row.id (team d.worker).name d.row.attempts = some row) : j = i := by
  have hholds := hF.holds_of_held (List.mem_of_getElem? hd) (Claim.not_released_of_asked hasked)
    hheld
  rcases Nat.lt_trichotomy j i with hlt | heq | hgt
  · have hlost := (hF.latest j i d c hlt hd hlast.1 hid).1
    rw [hholds] at hlost
    cases hlost
  · exact heq
  · exact absurd hid (hlast.2 j d hgt hd)

theorem handed_step (hF : Fenced team s) (hC : Custody team s)
    (h : s.act team e = some (u, fresh)) {i : Nat} {c : Claim V}
    (hlast : (u.observe fresh).Last i c) {row' : Row Nat V}
    (hrow' : u.store.get c.row.id = some row') (hpending' : row'.status = .pending) :
    c.Hands row'.toRun := by
  rcases last_step h hlast with ⟨c₀, c₁, hlast₀, hadv, hrow, rfl, hfresh⟩ | hf
  · rw [watch_row, hrow] at hrow'
    have hturn := act_turn team h c₀.row.id
    rw [hrow'] at hturn
    generalize hbefore : s.store.get c₀.row.id = before at hturn
    cases hturn with
    | kept => exact hands_stays hadv (hC.handed i c₀ hlast₀ row' hbefore hpending')
    | born task dueAt createdAt payload key priority he hid =>
        have := hF.known c₀ (List.mem_of_getElem? hlast₀.1)
        omega
    | granted row _ worker limit moment heard he hget hchosen hid hrun =>
        rw [hrun.running.1] at hpending'
        cases hpending'
    | beaten row _ _ d moment leaseEnd he hd hbeat hid hheld =>
        have hrunning := (MemoryStore.held_eq_some.1 hheld).2.2.1
        rw [show row.status = .pending from hpending'] at hrunning
        cases hrunning
    | ended row j d ending he hd hasked hid hheld =>
        rw [← hid] at hheld
        have hji := last_of_ended hF hlast₀ hd hasked hid hheld
        subst he hji
        have hcd := Option.some.inj (hlast₀.1.symm.trans hd)
        subst hcd
        have hrunning := (MemoryStore.held_eq_some.1 hheld).2.2.1
        rcases hC.held j c₀ hlast₀ row hbefore hrunning with ⟨lease, hlease⟩
        have htaken := landed_taken hadv hasked hheld
        refine Or.inl ⟨ending, htaken, ?_⟩
        rw [watch_row, hrow, hlease, applied_lease]
    | takenBack row moment lease he hrunning hexpires =>
        rcases hC.held i c₀ hlast₀ row hbefore hrunning with ⟨lease', hlease⟩
        refine Or.inr ⟨moment, ?_⟩
        rw [watch_row, hrow, hlease, takenBack_lease]
    | calledOff => cases hpending'
  · have hrunning := (fresh_stored h hf hrow').2
    rw [hpending'] at hrunning
    cases hrunning

/-- A run no claim was granted of is as it was written, or was called off. -/
theorem waiting_step (hF : Fenced team s) (hC : Custody team s)
    (h : s.act team e = some (u, fresh)) {id : Nat} {row' : Row Nat V}
    (hrow' : u.store.get id = some row')
    (hnone : ∀ c ∈ (u.observe fresh).claims, c.row.id ≠ id) :
    row' ∈ (u.observe fresh).written ∧ row'.status = .pending ∨ row'.status = .canceled := by
  have hold : ∀ c ∈ s.claims, c.row.id ≠ id := by
    intro c hc
    rcases List.getElem?_of_mem hc with ⟨i, hi⟩
    rcases claim_step team h hi with ⟨c₁, hadv, hc₁⟩
    have hne := hnone _ (List.mem_of_getElem? hc₁)
    rwa [watch_row, hadv.same.row] at hne
  have hfresh : ∀ c ∈ fresh, c.row.id ≠ id := fun c hc =>
    hnone c (List.mem_append_right _ hc)
  have hidle : ∀ row, s.store.get id = some row → row.status ≠ .running := by
    intro row hget hrunning
    rcases hF.owned id row hget hrunning with ⟨c, hc, -, hid⟩
    exact hold c hc hid
  change row' ∈ u.written ∧ _ ∨ _
  have hturn := act_turn team h id
  rw [hrow'] at hturn
  generalize hbefore : s.store.get id = before at hturn
  cases hturn with
  | kept =>
      rcases hC.waiting id row' hbefore hold with ⟨hw, hpending⟩ | hcanceled
      · exact Or.inl ⟨act_keeps_written h hw, hpending⟩
      · exact Or.inr hcanceled
  | born task dueAt createdAt payload key priority he hid =>
      exact Or.inl ⟨(act_born h hbefore hrow').1, rfl⟩
  | granted row _ worker limit moment heard he hget hchosen hid hrun =>
      have hpending := (MemoryStore.mem_chosen hchosen).2.1
      rcases granted_fresh team (he ▸ h) hbefore hpending hrow' hrun.running.1 with ⟨d, hd, hdid⟩
      exact absurd hdid (hfresh d hd)
  | beaten row _ _ d moment leaseEnd he hd hbeat hid =>
      exact absurd hid (hold d (List.mem_of_getElem? hd))
  | ended row j d ending he hd hasked hid =>
      exact absurd hid (hold d (List.mem_of_getElem? hd))
  | takenBack row moment lease he hrunning => exact absurd hrunning (hidle row hbefore)
  | calledOff => exact Or.inr rfl

/-! ## Every attempt goes on from the one before it -/

theorem begins_stays (h : s.act team e = some (u, fresh)) {j : Nat} {d d₁ : Claim V}
    (hd : s.claims[j]? = some d) (hadv : Advance team s e j d d₁)
    (hbegins : Begins team s j d) :
    Begins team (u.observe fresh) j (watch u.store (fresh.map (·.row.id)) d₁) := by
  have hrow := hadv.same.row
  have hlt := (List.getElem?_eq_some_iff.mp hd).1
  have hbefore : ∀ i c, i < j → (u.observe fresh).claims[i]? = some c →
      ∃ c₀, s.claims[i]? = some c₀ ∧ c₀.row.id = c.row.id := by
    intro i c hij hc
    rcases step_claim team h hc with ⟨c₀, c₁, hc₀, hcadv, rfl⟩ | ⟨hle, -⟩
    · exact ⟨c₀, hc₀, by rw [watch_row, hcadv.same.row]⟩
    · omega
  rcases hbegins with ⟨moment, run, hdue, hserved, hgranted, hfrom⟩
  refine ⟨moment, run, hdue, ?_, ?_, ?_⟩
  · rwa [watch_worker, hadv.same.worker]
  · rwa [watch_worker, hadv.same.worker, watch_row, hrow]
  rw [watch_row, hrow]
  rcases hfrom with ⟨⟨w, hw, hid, hrun⟩, hfirst⟩ | ⟨i, c, hij, hc, hid, hbetween, hhands⟩
  · refine Or.inl ⟨⟨w, act_keeps_written h hw, hid, hrun⟩, fun i c hij hc => ?_⟩
    rcases hbefore i c hij hc with ⟨c₀, hc₀, hid₀⟩
    rw [← hid₀]
    exact hfirst i c₀ hij hc₀
  · rcases claim_step team h hc with ⟨c₁, hcadv, hc₁⟩
    refine Or.inr ⟨i, _, hij, hc₁, ?_, fun k b hik hkj hb => ?_, hands_stays hcadv hhands⟩
    · rw [watch_row, hcadv.same.row, hid]
    · rcases hbefore k b hkj hb with ⟨b₀, hb₀, hid₀⟩
      rw [← hid₀]
      exact hbetween k b₀ hik hkj hb₀

theorem exists_last {c : Claim V} (hc : c ∈ s.claims) :
    ∃ i d, s.Last i d ∧ d.row.id = c.row.id := by
  rcases List.getElem?_of_mem hc with ⟨i, hi⟩
  let P : Nat → Prop := fun k => ∃ d, s.claims[k]? = some d ∧ d.row.id = c.row.id
  have : DecidablePred P := Classical.decPred P
  have hlt := (List.getElem?_eq_some_iff.mp hi).1
  rcases Nat.findGreatest_spec (P := P) hlt.le ⟨c, hi, rfl⟩ with ⟨d, hd, hid⟩
  refine ⟨_, d, ⟨hd, fun j b hj hb hsame => ?_⟩, hid⟩
  have hjlt := (List.getElem?_eq_some_iff.mp hb).1
  exact Nat.findGreatest_is_greatest hj hjlt.le ⟨b, hb, hsame.trans hid⟩

theorem begins_step (hF : Fenced team s) (hC : Custody team s)
    (h : s.act team e = some (u, fresh)) {j : Nat} {d : Claim V}
    (hd : (u.observe fresh).claims[j]? = some d) : Begins team (u.observe fresh) j d := by
  have hF' : Fenced team (u.observe fresh) :=
    hF.step_fenced ((step_eq_some team).2 ⟨u, fresh, h, rfl⟩)
  rcases step_claim team h hd with ⟨d₀, d₁, hd₀, hadv, rfl⟩ | ⟨hle, hf⟩
  · exact begins_stays h hd₀ hadv (hC.begins j d₀ hd₀)
  have hfmem := List.mem_of_getElem? hf
  have hapart : ∀ k b, s.claims.length ≤ k → k < j → (u.observe fresh).claims[k]? = some b →
      b.row.id ≠ d.row.id := by
    intro k b hk hkj hb hid
    rcases step_claim team h hb with ⟨b₀, b₁, hb₀, -, -⟩ | ⟨-, hbf⟩
    · have := (List.getElem?_eq_some_iff.mp hb₀).1
      omega
    · have hlost := (hF'.latest k j b d hkj hb hd hid).1
      rw [(Fenced.fresh_running h (List.mem_of_getElem? hbf)).2.1] at hlost
      cases hlost
  rcases fresh_due h hfmem with ⟨row, moment, hget, hpending, hdue, hserved, hgranted⟩
  refine ⟨moment, row.toRun, hdue, hserved, hgranted, ?_⟩
  by_cases hclaimed : ∃ c ∈ s.claims, c.row.id = d.row.id
  · rcases hclaimed with ⟨c, hc, hid⟩
    rcases exists_last hc with ⟨i, b, hlast, hbid⟩
    have hilt := (List.getElem?_eq_some_iff.mp hlast.1).1
    have hsame := hbid.trans hid
    rcases claim_step team h hlast.1 with ⟨b₁, hadv, hb₁⟩
    have hhands := hC.handed i b hlast row (hsame ▸ hget) hpending
    refine Or.inr ⟨i, _, by omega, hb₁, ?_, fun k a hik hkj ha => ?_, hands_stays hadv hhands⟩
    · rw [watch_row, hadv.same.row, hsame]
    · rcases step_claim team h ha with ⟨a₀, a₁, ha₀, haadv, rfl⟩ | ⟨hk, -⟩
      · rw [watch_row, haadv.same.row, ← hsame]
        exact hlast.2 k a₀ hik ha₀
      · exact hapart k a hk hkj ha
  · have hnone : ∀ c ∈ s.claims, c.row.id ≠ d.row.id := fun c hc hid => hclaimed ⟨c, hc, hid⟩
    rcases hC.waiting _ row hget hnone with ⟨hw, -⟩ | hcanceled
    · refine Or.inl ⟨⟨row, act_keeps_written h hw, MemoryStore.get_id hget, rfl⟩,
        fun i c hij hc => ?_⟩
      rcases step_claim team h hc with ⟨c₀, c₁, hc₀, hadv, rfl⟩ | ⟨hi, -⟩
      · rw [watch_row, hadv.same.row]
        exact hnone c₀ (List.mem_of_getElem? hc₀)
      · exact hapart i c hi hij hc
    · rw [hpending] at hcanceled
      cases hcanceled

theorem custody_step (hF : Fenced team s) (hC : Custody team s)
    (h : s.act team e = some (u, fresh)) : Custody team (u.observe fresh) where
  held _ _ hlast _ hrow hrunning := held_step hF hC h hlast hrow hrunning
  handed _ _ hlast _ hrow hpending := handed_step hF hC h hlast hrow hpending
  waiting _ _ hrow hnone := waiting_step hF hC h hrow hnone
  begins _ _ hd := begins_step hF hC h hd

theorem reach_custody (h : Reach (step team) Unconditional start s) : Custody team s := by
  refine h.invariant custody_start fun hs hC _ hstep => ?_
  rcases (step_eq_some team).1 hstep with ⟨u, fresh, hact, rfl⟩
  exact custody_step (reach_fenced team hs) hC hact

/-- Whatever the workers do and wherever they die, the first attempt of a run begins with the run
as it was written, each later one with the run as the attempt right before it left it, and none
before the run it begins with was due. -/
theorem attempts_follow_on (h : Reach (step team) Unconditional start s) {j : Nat} {d : Claim V}
    (hd : s.claims[j]? = some d) : Begins team s j d :=
  (reach_custody h).begins j d hd

/-- The second attempt of a run begins with what the first one handed back. -/
theorem attempts_follow_on_trailing : ∃ (s : Fleet Unit) (d : Claim Unit),
    runAll (step fun _ => undeclared) start trailing = some s ∧ s.claims.length = 2 ∧
      s.claims[1]? = some d ∧ Begins (fun _ => undeclared) s 1 d := by
  have hreach : Reach (step fun _ => undeclared) Unconditional start
      ((runAll (step fun _ => undeclared) start trailing).get (by rfl)) :=
    .of_runAll .start (Option.some_get _).symm
  exact ⟨_, _, (Option.some_get _).symm, rfl, rfl, attempts_follow_on hreach rfl⟩

end Fleet

end Queuefy
