import Mathlib

/-! # The first few by a key

Elements told apart by a key of a linear order. The first `k` of a collection are the ones with
fewer than `k` others before them, and selecting from part of the collection gives the same
answer exactly when the part holds every one of them.
-/

namespace Queuefy

variable {α κ : Type*} [LinearOrder κ] (key : α → κ)

/-- In strictly ascending order of the key. -/
def Rising (l : List α) : Prop := l.Pairwise fun a b => key a < key b

variable {key}

theorem Rising.nodup {l : List α} (h : Rising key l) : l.Nodup := by
  show l.Pairwise fun a b => a ≠ b
  refine h.imp fun hlt heq => ?_
  rw [heq] at hlt
  exact lt_irrefl _ hlt

/-- Sorting a collection whose keys differ puts it in strictly ascending order. -/
theorem rising_insertionSort {l : List α} (h : (l.map key).Nodup) :
    Rising key (l.insertionSort fun a b => key a ≤ key b) := by
  have htotal : Std.Total fun a b : α => key a ≤ key b := ⟨fun a b => le_total _ _⟩
  have htrans : IsTrans α fun a b => key a ≤ key b := ⟨fun _ _ _ => le_trans⟩
  have hsorted := List.pairwise_insertionSort (fun a b : α => key a ≤ key b) l
  have hperm := (List.perm_insertionSort (fun a b : α => key a ≤ key b) l).map key
  have hne : (l.insertionSort fun a b => key a ≤ key b).Pairwise fun a b => key a ≠ key b := by
    rw [← List.pairwise_map]
    exact hperm.nodup_iff.2 h
  exact hsorted.imp₂ (fun _ _ => lt_of_le_of_ne) hne

/-- One collection has one strictly ascending order, and a part of it is a part in that order. -/
theorem Rising.sublist {l m : List α} (hl : Rising key l) (hm : Rising key m) (h : l ⊆ m) :
    l.Sublist m := by
  induction m generalizing l with
  | nil => rw [List.subset_nil.mp h]
  | cons b m ih =>
      obtain ⟨hbm, hm'⟩ := List.pairwise_cons.mp hm
      cases l with
      | nil => exact List.nil_sublist _
      | cons a l =>
          obtain ⟨hal, hl'⟩ := List.pairwise_cons.mp hl
          by_cases hab : a = b
          · subst hab
            refine (ih hl' hm' fun x hx => ?_).cons_cons a
            rcases List.mem_cons.mp (h (List.mem_cons_of_mem a hx)) with rfl | hxm
            · exact absurd (hal x hx) (lt_irrefl _)
            · exact hxm
          · have ham : a ∈ m := (List.mem_cons.mp (h List.mem_cons_self)).resolve_left hab
            refine (ih hl hm' fun x hx => ?_).cons b
            rcases List.mem_cons.mp (h hx) with rfl | hxm
            · rcases List.mem_cons.mp hx with rfl | hxl
              · exact absurd rfl hab
              · exact absurd (hal x hxl) (lt_asymm (hbm a ham))
            · exact hxm

theorem Rising.eq_of_mem {l m : List α} (hl : Rising key l) (hm : Rising key m)
    (h : ∀ x, x ∈ l ↔ x ∈ m) : l = m :=
  (hl.sublist hm fun x hx => (h x).1 hx).antisymm (hm.sublist hl fun x hx => (h x).2 hx)

theorem Rising.mem_take {l : List α} (h : Rising key l) (k : Nat) (x : α) :
    x ∈ l.take k ↔ x ∈ l ∧ l.countP (fun y => key y < key x) < k := by
  induction l generalizing k with
  | nil => simp
  | cons a l ih =>
      obtain ⟨hal, hl⟩ := List.pairwise_cons.mp h
      cases k with
      | zero => simp
      | succ k =>
          rw [List.take_succ_cons, List.mem_cons, List.mem_cons, ih hl]
          by_cases hxa : x = a
          · subst hxa
            have hnone : l.countP (fun y => key y < key x) = 0 := by
              rw [List.countP_eq_zero]
              intro y hy
              simpa using le_of_lt (hal y hy)
            simp [hnone]
          · by_cases hxl : x ∈ l
            · simp [hxa, hxl, hal x hxl]
            · simp [hxa, hxl]

theorem Rising.behind_take {l : List α} (h : Rising key l) {k : Nat} {x : α} (hx : x ∈ l)
    (hout : x ∉ l.take k) : (l.take k).length = k ∧ ∀ y ∈ l.take k, key y < key x := by
  have hrest : x ∈ l.drop k := by
    rw [← List.take_append_drop k l, List.mem_append] at hx
    exact hx.resolve_left hout
  have hapart : Rising key (l.take k ++ l.drop k) := by rwa [List.take_append_drop]
  have hlong : 0 < (l.drop k).length := List.length_pos_of_mem hrest
  rw [List.length_drop] at hlong
  refine ⟨by rw [List.length_take]; omega, fun y hy => ?_⟩
  exact (List.pairwise_append.1 hapart).2.2 y hy x hrest

/-- Taking from part of a list without repeats, kept in its order, is taking from the list
exactly when the part holds everything taken. -/
theorem take_eq_take_iff {l m : List α} (hm : m.Nodup) (h : l.Sublist m) (k : Nat) :
    l.take k = m.take k ↔ ∀ x ∈ m.take k, x ∈ l := by
  constructor
  · intro heq x hx
    exact List.mem_of_mem_take (heq ▸ hx)
  · intro hall
    induction h generalizing k with
    | slnil => rfl
    | @cons l m a h ih =>
        obtain ⟨ham, hm'⟩ := List.nodup_cons.mp hm
        cases k with
        | zero => rfl
        | succ k => exact absurd (h.subset (hall a (by simp))) ham
    | @cons_cons l m a h ih =>
        obtain ⟨ham, hm'⟩ := List.nodup_cons.mp hm
        cases k with
        | zero => rfl
        | succ k =>
            rw [List.take_succ_cons, List.take_succ_cons, ih hm' k]
            intro x hx
            rcases List.mem_cons.mp (hall x (by simp [hx])) with rfl | hxl
            · exact absurd (List.mem_of_mem_take hx) ham
            · exact hxl

theorem mem_take_of_all {l : List α} {x : α} (h : ∀ y ∈ l, y = x) {k : Nat} :
    x ∈ l.take k ↔ 0 < k ∧ x ∈ l := by
  cases l with
  | nil => simp
  | cons a rest =>
      have ha : a = x := h a List.mem_cons_self
      cases k with
      | zero => simp
      | succ k => simp [ha]

/-! ## Picking one by one -/

section Gather

variable [DecidableEq α]

/-- Goes through a list and keeps what it has not kept yet. -/
def collect : List α → List α → List α
  | done, [] => done
  | done, a :: rest => if a ∈ done then collect done rest else collect (done ++ [a]) rest

/-- The same, stopping at the first look that finds `k` kept. -/
def gather (k : Nat) : List α → List α → List α
  | done, [] => done
  | done, a :: rest =>
      if k ≤ done.length then done
      else if a ∈ done then gather k done rest
      else gather k (done ++ [a]) rest

theorem mem_collect {done l : List α} {x : α} : x ∈ collect done l ↔ x ∈ done ∨ x ∈ l := by
  induction l generalizing done with
  | nil => simp [collect]
  | cons a rest ih =>
      unfold collect
      split
      · rename_i ha
        rw [ih, List.mem_cons]
        constructor
        · rintro (h | h)
          · exact Or.inl h
          · exact Or.inr (Or.inr h)
        · rintro (h | rfl | h)
          · exact Or.inl h
          · exact Or.inl ha
          · exact Or.inr h
      · rw [ih, List.mem_append, List.mem_singleton, List.mem_cons, or_assoc]

theorem prefix_collect (done l : List α) : done <+: collect done l := by
  induction l generalizing done with
  | nil => exact List.prefix_refl _
  | cons a rest ih =>
      unfold collect
      split
      · exact ih done
      · exact (List.prefix_append done [a]).trans (ih _)

theorem gather_of_full {k : Nat} {done : List α} (h : k ≤ done.length) (l : List α) :
    gather k done l = done := by
  cases l with
  | nil => rfl
  | cons a rest => rw [gather, if_pos h]

theorem gather_append (k : Nat) (done l m : List α) :
    gather k done (l ++ m) = gather k (gather k done l) m := by
  induction l generalizing done with
  | nil => rfl
  | cons a rest ih =>
      by_cases hfull : k ≤ done.length
      · rw [gather_of_full hfull, gather_of_full hfull, gather_of_full hfull]
      · rw [List.cons_append, gather, gather, if_neg hfull, if_neg hfull]
        split
        · exact ih done
        · exact ih _

theorem gather_eq_take {k : Nat} {done : List α} (h : done.length ≤ k) (l : List α) :
    gather k done l = (collect done l).take k := by
  induction l generalizing done with
  | nil => rw [gather, collect, List.take_of_length_le h]
  | cons a rest ih =>
      by_cases hfull : k ≤ done.length
      · obtain ⟨tail, htail⟩ := prefix_collect done (a :: rest)
        have hlen : k = done.length := by omega
        rw [gather_of_full hfull, ← htail, hlen, List.take_left]
      · rw [gather, collect, if_neg hfull]
        split
        · exact ih h
        · apply ih
          rw [List.length_append, List.length_singleton]
          omega

theorem prefix_gather (k : Nat) (done l : List α) : done <+: gather k done l := by
  induction l generalizing done with
  | nil => exact List.prefix_refl _
  | cons a rest ih =>
      unfold gather
      split
      · exact List.prefix_refl _
      · split
        · exact ih done
        · exact (List.prefix_append done [a]).trans (ih _)

theorem mem_of_gather {k : Nat} {done l : List α} {x : α} (h : x ∈ gather k done l) :
    x ∈ done ∨ x ∈ l := by
  induction l generalizing done with
  | nil => exact Or.inl h
  | cons a rest ih =>
      unfold gather at h
      split at h
      · exact Or.inl h
      · split at h
        · exact (ih h).imp_right (List.mem_cons_of_mem a)
        · rcases ih h with hdone | hrest
          · rcases List.mem_append.mp hdone with hd | ha
            · exact Or.inl hd
            · exact Or.inr (List.mem_cons.mpr (Or.inl (List.mem_singleton.mp ha)))
          · exact Or.inr (List.mem_cons_of_mem a hrest)

/-- What is kept out of a list in ascending order, repeats and all, is in strictly ascending
order where no two elements share a key. -/
theorem rising_collect {done l : List α} (hdone : Rising key done)
    (hsorted : (done ++ l).Pairwise fun a b => key a ≤ key b)
    (hinj : ∀ a ∈ done ++ l, ∀ b ∈ done ++ l, key a = key b → a = b) :
    Rising key (collect done l) := by
  induction l generalizing done with
  | nil => exact hdone
  | cons a rest ih =>
      unfold collect
      split
      · have hsub : (done ++ rest).Sublist (done ++ a :: rest) :=
          (List.sublist_cons_self a rest).append_left done
        exact ih hdone (hsorted.sublist hsub) fun x hx y hy =>
          hinj x (hsub.subset hx) y (hsub.subset hy)
      · rename_i ha
        have heq : done ++ a :: rest = done ++ [a] ++ rest := by simp
        refine ih ?_ (heq ▸ hsorted) (heq ▸ hinj)
        refine List.pairwise_append.mpr ⟨hdone, List.pairwise_singleton _ _, fun x hx y hy => ?_⟩
        obtain rfl := List.mem_singleton.mp hy
        have hle := (List.pairwise_append.mp hsorted).2.2 x hx y List.mem_cons_self
        refine lt_of_le_of_ne hle fun hkey => ha ?_
        rwa [← hinj x (by simp [hx]) y (by simp) hkey]

end Gather

end Queuefy
