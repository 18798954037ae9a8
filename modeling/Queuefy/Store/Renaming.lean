import Queuefy.Store.Rows

/-! # The same runs under other ids

Every store names its runs for itself, so two of them hold the same when a map between their ids
carries the rows of the one to the rows of the other. Only ids that hold a run matter to it.
-/

namespace Queuefy

variable {ι κ V : Type}

structure Renames (ρ : ι → κ) (rows : Rows ι V) (rows' : Rows κ V) : Prop where
  kept : ∀ i run, rows i = some run → rows' (ρ i) = some run
  onto : ∀ k run, rows' k = some run → ∃ i, ρ i = k ∧ rows i = some run
  distinct : ∀ i j, (rows i).isSome → (rows j).isSome → ρ i = ρ j → i = j

namespace Renames

variable {ρ : ι → κ} {rows : Rows ι V} {rows' : Rows κ V}

/-- A batch of stored ids stands for the batch of their new names. -/
theorem mem_map_iff (h : Renames ρ rows rows') {ids : List ι}
    (hids : ∀ i ∈ ids, (rows i).isSome) {i : ι} (hi : (rows i).isSome) :
    ρ i ∈ ids.map ρ ↔ i ∈ ids := by
  rw [List.mem_map]
  constructor
  · rintro ⟨j, hj, heq⟩
    rwa [← h.distinct j i (hids j hj) hi heq]
  · intro hmem
    exact ⟨i, hmem, rfl⟩

theorem congr (h : Renames ρ rows rows') {ρ' : ι → κ} (heq : ∀ i, (rows i).isSome → ρ i = ρ' i) :
    Renames ρ' rows rows' := by
  refine ⟨fun i run hrun => ?_, fun k run hrun => ?_, fun i j hi hj hij => ?_⟩
  · rw [← heq i (by rw [hrun]; rfl)]
    exact h.kept i run hrun
  · rcases h.onto k run hrun with ⟨i, rfl, hi⟩
    exact ⟨i, (heq i (by rw [hi]; rfl)).symm, hi⟩
  · rw [← heq i hi, ← heq j hj] at hij
    exact h.distinct i j hi hj hij

variable [DecidableEq ι] [DecidableEq κ]

theorem revise (h : Renames ρ rows rows') {ids : List ι} (hids : ∀ i ∈ ids, (rows i).isSome)
    (g : Run V → Option (Run V)) :
    Renames ρ (rows.revise ids g) (rows'.revise (ids.map ρ) g) := by
  have hsome : ∀ i, (rows.revise ids g i).isSome → (rows i).isSome := by
    intro i hi
    unfold Rows.revise at hi
    cases hrow : rows i with
    | none => simp [hrow] at hi
    | some run => rfl
  refine ⟨fun i run hrun => ?_, fun k run hrun => ?_, fun i j hi hj => ?_⟩
  · have hi := hsome i (by rw [hrun]; rfl)
    obtain ⟨old, hold⟩ := Option.isSome_iff_exists.mp hi
    have hmem := h.mem_map_iff hids hi
    simp only [Rows.revise, hold] at hrun
    simp only [Rows.revise, h.kept i old hold, hmem]
    exact hrun
  · have hk : ∃ old, rows' k = some old := by
      unfold Rows.revise at hrun
      cases hrow : rows' k with
      | none => simp [hrow] at hrun
      | some old => exact ⟨old, rfl⟩
    obtain ⟨old, hold⟩ := hk
    obtain ⟨i, rfl, hrow⟩ := h.onto k old hold
    have hmem := h.mem_map_iff hids (i := i) (by rw [hrow]; rfl)
    refine ⟨i, rfl, ?_⟩
    simp only [Rows.revise, hold, hmem] at hrun
    simp only [Rows.revise, hrow]
    exact hrun
  · exact h.distinct i j (hsome i hi) (hsome j hj)

theorem write (h : Renames ρ rows rows') {i : ι} {k : κ} (hi : rows i = none)
    (hk : rows' k = none) (run : Run V) :
    Renames (Function.update ρ i k) (Function.update rows i (some run))
      (Function.update rows' k (some run)) := by
  have hother : ∀ j, (rows j).isSome → ρ j ≠ k := by
    intro j hj heq
    obtain ⟨old, hold⟩ := Option.isSome_iff_exists.mp hj
    have := h.kept j old hold
    rw [heq, hk] at this
    cases this
  have hstored : ∀ j, j ≠ i → (Function.update rows i (some run) j).isSome → (rows j).isSome :=
    fun j hne hj => by simpa [hne] using hj
  refine ⟨fun j r hr => ?_, fun l r hr => ?_, fun a b ha hb hab => ?_⟩
  · by_cases hji : j = i
    · subst hji
      simpa using hr
    · have hrow : rows j = some r := by simpa [hji] using hr
      have hne := hother j (by rw [hrow]; rfl)
      simp [hji, hne, h.kept j r hrow]
  · by_cases hlk : l = k
    · subst hlk
      exact ⟨i, by simp, by simpa using hr⟩
    · obtain ⟨j, rfl, hrow⟩ := h.onto l r (by simpa [hlk] using hr)
      have hji : j ≠ i := by
        rintro rfl
        rw [hi] at hrow
        cases hrow
      exact ⟨j, by simp [hji], by simp [hji, hrow]⟩
  · by_cases hai : a = i
    · by_cases hbi : b = i
      · rw [hai, hbi]
      · subst hai
        have := hother b (hstored b hbi hb)
        simp only [Function.update_self, Function.update_of_ne hbi] at hab
        exact absurd hab.symm this
    · by_cases hbi : b = i
      · subst hbi
        have := hother a (hstored a hai ha)
        simp only [Function.update_self, Function.update_of_ne hai] at hab
        exact absurd hab this
      · simp only [Function.update_of_ne hai, Function.update_of_ne hbi] at hab
        exact h.distinct a b (hstored a hai ha) (hstored b hbi hb) hab

end Renames

end Queuefy
