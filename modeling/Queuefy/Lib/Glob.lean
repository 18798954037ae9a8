import Mathlib

/-! # Patterns of tokens

A pattern is a list of tokens, each of them one character of a class or any number of them. Where
characters are spelled with letters of another alphabet, whether some text matches the one pattern
as it is and the other as it is spelled is a question about the patterns alone: can they be read
side by side to their ends.
-/

namespace Glob

inductive Token (α : Type)
  | one (admits : α → Bool)
  | many (admits : α → Bool)

variable {α : Type}

/-- Any number of characters of a class, and then what is left of the pattern. -/
def loop (admits : α → Bool) (next : List α → Bool) : List α → Bool
  | [] => next []
  | c :: text => next (c :: text) || (admits c && loop admits next text)

/-- Whether a text matches the whole of a pattern. -/
def accepts : List (Token α) → List α → Bool
  | [], text => text.isEmpty
  | .one _ :: _, [] => false
  | .one admits :: p, c :: text => admits c && accepts p text
  | .many admits :: p, text => loop admits (accepts p) text

/-- A text that matches, token by token. -/
inductive Matches : List (Token α) → List α → Prop
  | nil : Matches [] []
  | one {admits : α → Bool} {p : List (Token α)} {c : α} {text : List α} :
      admits c = true → Matches p text → Matches (.one admits :: p) (c :: text)
  | skip {admits : α → Bool} {p : List (Token α)} {text : List α} :
      Matches p text → Matches (.many admits :: p) text
  | more {admits : α → Bool} {p : List (Token α)} {c : α} {text : List α} :
      admits c = true → Matches (.many admits :: p) text → Matches (.many admits :: p) (c :: text)

theorem matches_many {admits : α → Bool} {p : List (Token α)} {text : List α} :
    Matches (.many admits :: p) text ↔
      ∃ u v, text = u ++ v ∧ (∀ c ∈ u, admits c = true) ∧ Matches p v := by
  constructor
  · intro h
    generalize hpattern : Token.many admits :: p = pattern at h
    induction h with
    | nil => cases hpattern
    | one => cases hpattern
    | @skip _ _ text hnext =>
        cases hpattern
        exact ⟨[], text, rfl, by simp, hnext⟩
    | more hc _ ih =>
        cases hpattern
        obtain ⟨u, v, rfl, hu, hv⟩ := ih rfl
        exact ⟨_ :: u, v, rfl, List.forall_mem_cons.mpr ⟨hc, hu⟩, hv⟩
  · rintro ⟨u, v, rfl, hu, hv⟩
    induction u with
    | nil => exact .skip hv
    | cons c u ih =>
        obtain ⟨hc, hu⟩ := List.forall_mem_cons.mp hu
        exact .more hc (ih hu)

theorem loop_iff {admits : α → Bool} {next : List α → Bool} {text : List α} :
    loop admits next text = true ↔
      ∃ u v, text = u ++ v ∧ (∀ c ∈ u, admits c = true) ∧ next v = true := by
  induction text with
  | nil =>
      constructor
      · exact fun h => ⟨[], [], rfl, by simp, h⟩
      · rintro ⟨u, v, huv, -, hv⟩
        obtain ⟨-, rfl⟩ := List.append_eq_nil_iff.mp huv.symm
        exact hv
  | cons c text ih =>
      rw [loop, Bool.or_eq_true_iff, Bool.and_eq_true_iff, ih]
      constructor
      · rintro (h | ⟨hc, u, v, rfl, hu, hv⟩)
        · exact ⟨[], c :: text, rfl, by simp, h⟩
        · exact ⟨c :: u, v, rfl, List.forall_mem_cons.mpr ⟨hc, hu⟩, hv⟩
      · rintro ⟨u, v, huv, hu, hv⟩
        cases u with
        | nil =>
            rw [List.nil_append] at huv
            rw [huv]
            exact Or.inl hv
        | cons d u =>
            obtain ⟨rfl, rfl⟩ := List.cons.inj huv
            obtain ⟨hc, hu⟩ := List.forall_mem_cons.mp hu
            exact Or.inr ⟨hc, u, v, rfl, hu, hv⟩

theorem accepts_iff {p : List (Token α)} {text : List α} :
    accepts p text = true ↔ Matches p text := by
  induction p generalizing text with
  | nil =>
      constructor
      · intro h
        rw [accepts, List.isEmpty_iff] at h
        rw [h]
        exact .nil
      · intro h
        cases h
        rfl
  | cons t p ih =>
      cases t with
      | one admits =>
          cases text with
          | nil => exact ⟨nofun, nofun⟩
          | cons c text =>
              rw [accepts, Bool.and_eq_true_iff, ih]
              constructor
              · exact fun h => .one h.1 h.2
              · intro h
                cases h with
                | one hc hnext => exact ⟨hc, hnext⟩
      | many admits => simp only [accepts, loop_iff, matches_many, ih]

/-- A pattern matches in parts what its parts match. -/
theorem matches_append {p q : List (Token α)} {text : List α} :
    Matches (p ++ q) text ↔ ∃ u v, text = u ++ v ∧ Matches p u ∧ Matches q v := by
  induction p generalizing text with
  | nil =>
      constructor
      · exact fun h => ⟨[], text, rfl, .nil, h⟩
      · rintro ⟨u, v, rfl, hu, hv⟩
        cases hu
        exact hv
  | cons t p ih =>
      cases t with
      | one admits =>
          constructor
          · intro h
            cases h with
            | one hc hnext =>
                obtain ⟨u, v, rfl, hu, hv⟩ := ih.1 hnext
                exact ⟨_ :: u, v, rfl, .one hc hu, hv⟩
          · rintro ⟨u, v, rfl, hu, hv⟩
            cases hu with
            | one hc hnext => exact .one hc (ih.2 ⟨_, v, rfl, hnext, hv⟩)
      | many admits =>
          rw [List.cons_append, matches_many]
          constructor
          · rintro ⟨a, b, rfl, ha, hb⟩
            obtain ⟨u, v, rfl, hu, hv⟩ := ih.1 hb
            exact ⟨a ++ u, v, (List.append_assoc a u v).symm,
              matches_many.2 ⟨a, u, rfl, ha, hu⟩, hv⟩
          · rintro ⟨u, v, rfl, hu, hv⟩
            obtain ⟨a, b, rfl, ha, hb⟩ := matches_many.1 hu
            exact ⟨a, b ++ v, List.append_assoc a b v, ha, ih.2 ⟨b, v, rfl, hb, hv⟩⟩

/-- The characters of a text, each on its own. -/
def literal [DecidableEq α] (text : List α) : List (Token α) := text.map fun c => .one (· = c)

theorem matches_literal [DecidableEq α] {w text : List α} :
    Matches (literal w) text ↔ text = w := by
  induction w generalizing text with
  | nil =>
      constructor
      · intro h
        cases h
        rfl
      · rintro rfl
        exact .nil
  | cons c w ih =>
      constructor
      · intro h
        cases h with
        | one hc hnext => rw [of_decide_eq_true hc, ih.1 hnext]
      · rintro rfl
        exact .one (decide_eq_true rfl) (ih.2 rfl)

theorem matches_all {admits : α → Bool} {text : List α} :
    Matches [.many admits] text ↔ ∀ c ∈ text, admits c = true := by
  rw [matches_many]
  constructor
  · rintro ⟨u, v, rfl, hu, hv⟩
    cases hv
    rwa [List.append_nil]
  · exact fun h => ⟨text, [], (List.append_nil text).symm, h, .nil⟩

/-! ## What a pattern leaves -/

/-- What may be left of a pattern once it has met one character. -/
def after : List (Token α) → α → List (List (Token α))
  | [], _ => []
  | .one admits :: p, c => if admits c then [p] else []
  | .many admits :: p, c => after p c ++ if admits c then [.many admits :: p] else []

/-- And once it has met a text. -/
def afterAll : List (Token α) → List α → List (List (Token α))
  | p, [] => [p]
  | p, c :: text => (after p c).flatMap fun rest => afterAll rest text

theorem matches_cons {p : List (Token α)} {c : α} {text : List α} :
    Matches p (c :: text) ↔ ∃ rest ∈ after p c, Matches rest text := by
  induction p with
  | nil =>
      constructor
      · intro h
        cases h
      · rintro ⟨rest, hrest, -⟩
        cases hrest
  | cons t p ih =>
      cases t with
      | one admits =>
          constructor
          · intro h
            cases h with
            | one hc hnext => exact ⟨p, by simp [after, hc], hnext⟩
          · rintro ⟨rest, hrest, h⟩
            rw [after, List.mem_ite_nil_right, List.mem_singleton] at hrest
            rcases hrest with ⟨hc, rfl⟩
            exact .one hc h
      | many admits =>
          simp only [after, List.mem_append, List.mem_ite_nil_right, List.mem_singleton]
          constructor
          · intro h
            cases h with
            | skip hnext =>
                rcases ih.1 hnext with ⟨rest, hrest, h⟩
                exact ⟨rest, Or.inl hrest, h⟩
            | more hc hnext => exact ⟨_, Or.inr ⟨hc, rfl⟩, hnext⟩
          · rintro ⟨rest, hrest | ⟨hc, rfl⟩, h⟩
            · exact .skip (ih.2 ⟨rest, hrest, h⟩)
            · exact .more hc h

theorem matches_afterAll {p : List (Token α)} {u v : List α} :
    Matches p (u ++ v) ↔ ∃ rest ∈ afterAll p u, Matches rest v := by
  induction u generalizing p with
  | nil => simp [afterAll]
  | cons c u ih =>
      simp only [List.cons_append, matches_cons, ih, afterAll, List.mem_flatMap]
      constructor
      · rintro ⟨rest, hrest, last, hlast, h⟩
        exact ⟨last, ⟨rest, hrest, hlast⟩, h⟩
      · rintro ⟨last, ⟨rest, hrest, hlast⟩, h⟩
        exact ⟨rest, hrest, last, hlast, h⟩

theorem suffix_of_after {p rest : List (Token α)} {c : α} (h : rest ∈ after p c) : rest <:+ p := by
  induction p with
  | nil => cases h
  | cons t p ih =>
      cases t with
      | one admits =>
          rw [after, List.mem_ite_nil_right, List.mem_singleton] at h
          rw [h.2]
          exact List.suffix_cons _ p
      | many admits =>
          rw [after, List.mem_append, List.mem_ite_nil_right, List.mem_singleton] at h
          rcases h with h | ⟨-, rfl⟩
          · exact (ih h).trans (List.suffix_cons _ p)
          · exact List.suffix_rfl

theorem suffix_of_afterAll {p rest : List (Token α)} {text : List α}
    (h : rest ∈ afterAll p text) : rest <:+ p := by
  induction text generalizing p with
  | nil =>
      rw [afterAll, List.mem_singleton] at h
      rw [h]
  | cons c text ih =>
      rw [afterAll, List.mem_flatMap] at h
      rcases h with ⟨next, hnext, hrest⟩
      exact (ih hrest).trans (suffix_of_after hnext)

/-! ## Reading two patterns side by side -/

variable {β : Type} (spell : β → List α)

/-- A pattern of the letters that characters are spelled with, read beside a pattern of the
characters. Reading any number of characters goes on only while it leaves less of the first. -/
def Overlap : List (Token α) → List (Token β) → Prop
  | p, [] => accepts p [] = true
  | p, .one admits :: q =>
      ∃ c, admits c = true ∧ ∃ rest ∈ afterAll p (spell c), Overlap rest q
  | p, .many admits :: q =>
      Overlap p q ∨ ∃ c, admits c = true ∧ ∃ rest, ∃ _ : rest.length < p.length,
        rest ∈ afterAll p (spell c) ∧ Overlap rest (.many admits :: q)
termination_by p q => (q.length, p.length)

variable {spell}

theorem Overlap.matches {p : List (Token α)} {q : List (Token β)} (h : Overlap spell p q) :
    ∃ text, Matches q text ∧ Matches p (text.flatMap spell) := by
  fun_induction Overlap spell p q with
  | case1 p => exact ⟨[], .nil, accepts_iff.1 h⟩
  | case2 p admits q ih =>
      rcases h with ⟨c, hc, rest, hrest, h⟩
      rcases ih rest h with ⟨text, hq, hp⟩
      exact ⟨c :: text, .one hc hq, matches_afterAll.2 ⟨rest, hrest, hp⟩⟩
  | case3 p admits q ih ih' =>
      rcases h with h | ⟨c, hc, rest, hless, hrest, h⟩
      · rcases ih h with ⟨text, hq, hp⟩
        exact ⟨text, .skip hq, hp⟩
      · rcases ih' rest hless h with ⟨text, hq, hp⟩
        exact ⟨c :: text, .more hc hq, matches_afterAll.2 ⟨rest, hrest, hp⟩⟩

/-- Two patterns that match one text, spelled and not, are read side by side along it. -/
theorem Overlap.of_matches {p : List (Token α)} {q : List (Token β)} {text : List β}
    (hq : Matches q text) (hp : Matches p (text.flatMap spell)) : Overlap spell p q := by
  induction hq generalizing p with
  | nil =>
      rw [Overlap]
      exact accepts_iff.2 hp
  | one hc _ ih =>
      rw [List.flatMap_cons, matches_afterAll] at hp
      rcases hp with ⟨rest, hrest, hp⟩
      rw [Overlap]
      exact ⟨_, hc, rest, hrest, ih hp⟩
  | skip _ ih =>
      rw [Overlap]
      exact Or.inl (ih hp)
  | more hc _ ih =>
      rw [List.flatMap_cons, matches_afterAll] at hp
      rcases hp with ⟨rest, hrest, hp⟩
      have hsuffix := suffix_of_afterAll hrest
      by_cases hless : rest.length < p.length
      · rw [Overlap]
        exact Or.inr ⟨_, hc, rest, hless, hrest, ih hp⟩
      · rw [← hsuffix.eq_of_length_le (by omega)]
        exact ih hp

theorem overlap_iff {p : List (Token α)} {q : List (Token β)} :
    Overlap spell p q ↔ ∃ text, Matches q text ∧ Matches p (text.flatMap spell) :=
  ⟨Overlap.matches, fun ⟨_, hq, hp⟩ => .of_matches hq hp⟩

end Glob
