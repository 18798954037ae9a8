import Mathlib

/-! # Lists searched, counted and written

What is found first in a list in increasing order is the least of what could be found. What is
counted under one condition is compared with the counts under others, and with the count after one
entry has changed. A number written in so many digits, and a text with a separator, read back apart.
-/

/-! ## Searching in order -/

namespace List

variable {α β : Type*} [LinearOrder α] {l : List α}

theorem find?_eq_some_isLeast (hl : l.SortedLT) {p : α → Bool} {a : α} :
    l.find? p = some a ↔ IsLeast {x | x ∈ l ∧ p x = true} a := by
  constructor
  · intro h
    obtain ⟨hp, before, after, rfl, hbefore⟩ := find?_eq_some_iff_append.1 h
    refine ⟨⟨by simp, hp⟩, ?_⟩
    rintro x ⟨hx, hpx⟩
    have hafter := (pairwise_cons.1 (pairwise_append.1 hl.pairwise).2.1).1
    rcases mem_append.1 hx with hx | hx
    · have hno := hbefore x hx
      rw [hpx] at hno
      cases hno
    · rcases mem_cons.1 hx with rfl | hx
      · exact le_rfl
      · exact (hafter x hx).le
  · rintro ⟨⟨ha, hp⟩, hleast⟩
    cases hfind : l.find? p with
    | none =>
        rw [find?_eq_none] at hfind
        exact absurd hp (hfind a ha)
    | some b =>
        obtain ⟨hb, before, after, rfl, hbefore⟩ := find?_eq_some_iff_append.1 hfind
        have hle : a ≤ b := hleast ⟨by simp, hb⟩
        have hafter := (pairwise_cons.1 (pairwise_append.1 hl.pairwise).2.1).1
        rcases mem_append.1 ha with ha | ha
        · have hno := hbefore a ha
          rw [hp] at hno
          cases hno
        · rcases mem_cons.1 ha with rfl | ha
          · rfl
          · exact absurd (hafter a ha) (not_lt.2 hle)

theorem findSome?_isLeast (hl : l.SortedLT) {f : α → Option β} {b : β}
    (h : l.findSome? f = some b) :
    ∃ a, f a = some b ∧ IsLeast {x | x ∈ l ∧ (f x).isSome = true} a := by
  obtain ⟨before, a, after, rfl, ha, hbefore⟩ := findSome?_eq_some_iff.1 h
  refine ⟨a, ha, ⟨by simp, by simp [ha]⟩, ?_⟩
  rintro x ⟨hx, hfx⟩
  have hafter := (pairwise_cons.1 (pairwise_append.1 hl.pairwise).2.1).1
  rcases mem_append.1 hx with hx | hx
  · rw [hbefore x hx] at hfx
    cases hfx
  · rcases mem_cons.1 hx with rfl | hx
    · exact le_rfl
    · exact (hafter x hx).le

end List

/-! ## Counting under several conditions -/

namespace Tally

variable {α : Type} {p q r : α → Bool}

theorem countP_le_add {l : List α} (h : ∀ a ∈ l, p a → q a ∨ r a) :
    l.countP p ≤ l.countP q + l.countP r := by
  induction l with
  | nil => simp
  | cons a l ih =>
      have hrest := ih fun b hb => h b (List.mem_cons_of_mem a hb)
      have hfirst := h a List.mem_cons_self
      simp only [List.countP_cons]
      split <;> split <;> split <;> simp_all <;> omega

theorem add_le_countP {l : List α} (hq : ∀ a ∈ l, q a → p a) (hr : ∀ a ∈ l, r a → p a)
    (hdisjoint : ∀ a ∈ l, q a → r a = false) : l.countP q + l.countP r ≤ l.countP p := by
  induction l with
  | nil => simp
  | cons a l ih =>
      have hrest := ih (fun b hb => hq b (List.mem_cons_of_mem a hb))
        (fun b hb => hr b (List.mem_cons_of_mem a hb))
        fun b hb => hdisjoint b (List.mem_cons_of_mem a hb)
      have h1 := hq a List.mem_cons_self
      have h2 := hr a List.mem_cons_self
      have h3 := hdisjoint a List.mem_cons_self
      simp only [List.countP_cons]
      split <;> split <;> split <;> simp_all <;> omega

theorem countP_set_le {l : List α} {i : Nat} {a b : α} (hget : l[i]? = some a)
    (h : p b → p a) : (l.set i b).countP p ≤ l.countP p := by
  induction l generalizing i with
  | nil => simp at hget
  | cons c l ih =>
      cases i with
      | zero =>
          obtain rfl : c = a := by simpa using hget
          simp only [List.set_cons_zero, List.countP_cons]
          split <;> split <;> simp_all
      | succ i =>
          simp only [List.set_cons_succ, List.countP_cons]
          have := ih (by simpa using hget)
          omega

end Tally

/-! ## Numbers of a fixed width -/

namespace Padded

/-- A number in so many digits, led by zeros. -/
def pad : ℕ → ℕ → List Char
  | 0, _ => []
  | width + 1, n => pad width (n / 10) ++ [Nat.digitChar (n % 10)]

@[simp] theorem length_pad (width n : ℕ) : (pad width n).length = width := by
  induction width generalizing n with
  | zero => rfl
  | succ width ih => simp [pad, ih]

theorem pad_injective {width m n : ℕ} (hm : m < 10 ^ width) (hn : n < 10 ^ width)
    (h : pad width m = pad width n) : m = n := by
  induction width generalizing m n with
  | zero => omega
  | succ width ih =>
      obtain ⟨hfirst, hlast⟩ := List.append_inj h (by simp)
      have hquotient : m / 10 = n / 10 := ih (by omega) (by omega) hfirst
      have hdigits : ∀ a < 10, ∀ b < 10, Nat.digitChar a = Nat.digitChar b → a = b := by decide
      have hremainder := hdigits _ (Nat.mod_lt m (by decide)) _ (Nat.mod_lt n (by decide))
        (List.cons.inj hlast).1
      omega

theorem isDigit_of_mem_pad {width n : ℕ} {c : Char} (h : c ∈ pad width n) : c.isDigit = true := by
  induction width generalizing n with
  | zero => cases h
  | succ width ih =>
      rcases List.mem_append.1 h with h | h
      · exact ih h
      · have hdigits : ∀ a < 10, (Nat.digitChar a).isDigit = true := by decide
        rw [List.mem_singleton.1 h]
        exact hdigits _ (Nat.mod_lt n (by decide))

/-- Two texts with a separator that nothing after it holds come apart there. -/
theorem split_at_last {α : Type*} {c : α} {a a' b b' : List α} (hb : c ∉ b) (hb' : c ∉ b')
    (h : a ++ c :: b = a' ++ c :: b') : a = a' ∧ b = b' := by
  rcases List.append_eq_append_iff.1 h with ⟨more, rfl, heq⟩ | ⟨more, rfl, heq⟩
  · cases more with
    | nil => exact ⟨by simp, (List.cons.inj heq).2⟩
    | cons x more =>
        rw [List.cons_append, List.cons.injEq] at heq
        exact absurd (heq.2 ▸ by simp) hb
  · cases more with
    | nil => exact ⟨by simp, (List.cons.inj heq).2.symm⟩
    | cons x more =>
        rw [List.cons_append, List.cons.injEq] at heq
        exact absurd (heq.2 ▸ by simp) hb'

end Padded
