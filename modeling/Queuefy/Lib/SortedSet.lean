import Queuefy.Lib.Select

/-! # Sorted sets

A set of members, each with one score, that answers with the members whose score is in a range
by ascending score, and members of one score by their own order. The members are kept as they
came; the order is worked out where a range is asked for.
-/

namespace Queuefy

structure SortedSet (ι κ : Type*) where
  entries : List (ι × κ)
  nodup : (entries.map Prod.fst).Nodup

namespace SortedSet

variable {ι κ : Type*}

def empty : SortedSet ι κ := ⟨[], List.nodup_nil⟩

instance : Membership (ι × κ) (SortedSet ι κ) := ⟨fun s e => e ∈ s.entries⟩

theorem mem_def {s : SortedSet ι κ} {e : ι × κ} : e ∈ s ↔ e ∈ s.entries := Iff.rfl

@[simp] theorem not_mem_empty (e : ι × κ) : ¬ e ∈ (empty : SortedSet ι κ) := by
  simp [mem_def, empty]

/-! ## Writing -/

section Writing

variable [DecidableEq ι]

def remove (s : SortedSet ι κ) (i : ι) : SortedSet ι κ where
  entries := s.entries.filter fun e => e.1 ≠ i
  nodup := s.nodup.sublist (List.filter_sublist.map _)

/-- Adds a member, or moves the one there is to its new score. -/
def add (s : SortedSet ι κ) (i : ι) (k : κ) : SortedSet ι κ where
  entries := (s.remove i).entries ++ [(i, k)]
  nodup := by
    rw [List.map_append, List.nodup_append]
    refine ⟨(s.remove i).nodup, by simp, ?_⟩
    intro a ha b hb
    obtain ⟨e, he, rfl⟩ := List.mem_map.mp ha
    have hne : e.1 ≠ i := by simpa using (List.mem_filter.mp he).2
    simpa [List.mem_singleton.mp hb] using hne

@[simp] theorem mem_remove {s : SortedSet ι κ} {i j : ι} {k : κ} :
    (j, k) ∈ s.remove i ↔ j ≠ i ∧ (j, k) ∈ s := by
  simp [mem_def, remove, and_comm]

@[simp] theorem mem_add {s : SortedSet ι κ} {i j : ι} {k l : κ} :
    (j, l) ∈ s.add i k ↔ (j = i ∧ l = k) ∨ (j ≠ i ∧ (j, l) ∈ s) := by
  show (j, l) ∈ (s.remove i).entries ++ [(i, k)] ↔ _
  rw [List.mem_append, List.mem_singleton, Prod.mk.injEq, ← mem_def, mem_remove]
  exact Or.comm

/-- Whether `i` is a member, under whatever score. -/
def has (s : SortedSet ι κ) (i : ι) : Bool := s.entries.any fun e => e.1 = i

theorem has_iff {s : SortedSet ι κ} {i : ι} : s.has i = true ↔ ∃ k, (i, k) ∈ s := by
  simp [has, mem_def]

end Writing

/-! ## Reading a range -/

/-- What a range is ordered by: the score, and then the member. -/
def rank (e : ι × κ) : κ ×ₗ ι := toLex (e.2, e.1)

theorem rank_injective : Function.Injective (rank : ι × κ → κ ×ₗ ι) := by
  intro a b h
  simp only [rank, EmbeddingLike.apply_eq_iff_eq, Prod.mk.injEq] at h
  exact Prod.ext h.2 h.1

section Range

variable [LinearOrder ι] [LinearOrder κ]

/-- Every member whose score passes, in order. -/
def ranked (s : SortedSet ι κ) (p : κ → Bool) : List (ι × κ) :=
  (s.entries.filter fun e => p e.2).insertionSort fun a b => rank a ≤ rank b

/-- The first `limit` members whose score passes. -/
def range (s : SortedSet ι κ) (p : κ → Bool) (limit : Nat) : List (ι × κ) :=
  (s.ranked p).take limit

theorem mem_ranked {s : SortedSet ι κ} {p : κ → Bool} {e : ι × κ} :
    e ∈ s.ranked p ↔ e ∈ s ∧ p e.2 = true := by
  rw [ranked, (List.perm_insertionSort _ _).mem_iff, List.mem_filter, mem_def]

theorem ranked_members_nodup (s : SortedSet ι κ) (p : κ → Bool) :
    ((s.ranked p).map Prod.fst).Nodup := by
  have hperm := (List.perm_insertionSort (fun a b : ι × κ => rank a ≤ rank b)
    (s.entries.filter fun e => p e.2)).map Prod.fst
  rw [ranked, hperm.nodup_iff]
  exact s.nodup.sublist (List.filter_sublist.map _)

theorem rising_ranked (s : SortedSet ι κ) (p : κ → Bool) : Rising rank (s.ranked p) := by
  apply rising_insertionSort
  refine List.Nodup.map rank_injective ?_
  exact (List.Nodup.of_map _ s.nodup).filter _

/-- A range depends on what the set holds and on nothing else of it. -/
theorem range_congr {s t : SortedSet ι κ} (h : ∀ e, e ∈ s ↔ e ∈ t) (p : κ → Bool) (limit : Nat) :
    s.range p limit = t.range p limit := by
  have heq : s.ranked p = t.ranked p := by
    apply (s.rising_ranked p).eq_of_mem (t.rising_ranked p)
    intro e
    rw [mem_ranked, mem_ranked, h]
  rw [range, range, heq]

theorem mem_of_range {s : SortedSet ι κ} {p : κ → Bool} {limit : Nat} {e : ι × κ}
    (h : e ∈ s.range p limit) : e ∈ s ∧ p e.2 = true :=
  mem_ranked.1 (List.mem_of_mem_take h)

theorem range_members_nodup (s : SortedSet ι κ) (p : κ → Bool) (limit : Nat) :
    ((s.range p limit).map Prod.fst).Nodup :=
  (s.ranked_members_nodup p).sublist ((List.take_sublist _ _).map _)

end Range

end SortedSet

end Queuefy
