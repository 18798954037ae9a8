import Queuefy.App.Settled
import Queuefy.Worker.Outcome

/-! # What a failure is written down as

The message of an exception is whatever text the code being run put in it, and asking for it runs
code of its own. What a store is handed is made storable first and cut after, so it is text every
store holds, and no longer than the column.
-/

namespace Queuefy.Spoken

open Json
open Report (Kind errorLimit errorTypeLimit)

/-! ## Describing a failure -/

/-- An exception: what asking it for its message does, and the name of its class. -/
structure Exception where
  message : Except Kind Text
  name : Text

/-- `"..."`, where the rest was. -/
def dots : Text := [46, 46, 46]

/-- `cut`. -/
def cut (value : Text) (limit : Nat) : Text :=
  if value.length ≤ limit then value else value.take (limit - 3) ++ dots

/-- `spoken`. What is not an `Exception` passes the guard. -/
def spoken (error : Exception) : Except Kind Text :=
  match error.message with
  | .ok said => .ok (if said = [] then error.name else said)
  | .error kind => if kind.isException then .ok error.name else .error kind

/-- `described`. -/
def described (error : Exception) : Except Kind (Text × Text) := do
  let said ← spoken error
  return (cut (storable said) errorLimit, cut error.name errorTypeLimit)

/-! ## Escaping -/

theorem backslashed_ne_nil (c : Nat) : backslashed c ≠ [] := by
  unfold backslashed
  split <;> simp

theorem storable_ne_nil {t : Text} (h : t ≠ []) : storable t ≠ [] := by
  cases t with
  | nil => exact absurd rfl h
  | cons c rest =>
      rw [storable, List.flatMap_cons]
      cases hc : backslashed c with
      | nil => exact absurd hc (backslashed_ne_nil c)
      | cons d more =>
          rw [List.cons_append, List.flatMap_cons]
          split <;> simp

/-- Escaping what was escaped changes nothing. -/
theorem storable_storable (t : Text) : storable (storable t) = storable t :=
  storable_of_holdable (storable_holdable t)

/-! ## Cutting -/

/-- A text stands in a column for the whole of another: it is that text where that fits, and else
as much of it as leaves room for the dots. -/
structure Stands (limit : Nat) (whole t : Text) : Prop where
  given : t ≠ []
  holdable : t.all holdable = true
  fits : t.length ≤ limit
  uncut : whole.length ≤ limit → t = whole
  short : limit < whole.length →
    ∃ kept, kept <+: whole ∧ kept.length + dots.length = limit ∧ t = kept ++ dots

theorem dots_holdable : dots.all holdable = true := by decide

theorem length_cut_le {limit : Nat} (hlimit : 3 ≤ limit) (value : Text) :
    (cut value limit).length ≤ limit := by
  unfold cut
  split
  · rename_i hfits
    exact hfits
  · have hdots : dots.length = 3 := rfl
    rw [List.length_append, List.length_take, hdots]
    omega

theorem cut_holdable {value : Text} (h : value.all holdable = true) (limit : Nat) :
    (cut value limit).all holdable = true := by
  unfold cut
  split
  · exact h
  · have hkept : (value.take (limit - 3)).all holdable = true := by
      rw [List.all_eq_true] at h ⊢
      exact fun c hc => h c (List.mem_of_mem_take hc)
    rw [List.all_append, hkept, dots_holdable, Bool.and_self]

theorem cut_ne_nil {value : Text} (h : value ≠ []) (limit : Nat) : cut value limit ≠ [] := by
  unfold cut
  split
  · exact h
  · simp [dots]

theorem stands_cut {limit : Nat} (hlimit : 3 ≤ limit) {value : Text} (hgiven : value ≠ [])
    (hholdable : value.all holdable = true) : Stands limit value (cut value limit) where
  given := cut_ne_nil hgiven limit
  holdable := cut_holdable hholdable limit
  fits := length_cut_le hlimit value
  uncut := fun hfits => if_pos hfits
  short := by
    intro hlong
    refine ⟨value.take (limit - 3), List.take_prefix _ _, ?_, if_neg (Nat.not_le.2 hlong)⟩
    have hdots : dots.length = 3 := rfl
    rw [List.length_take, hdots]
    omega

/-! ## Every failure -/

/-- What an exception says: its message, or the name of its class where there is no message or
asking for it fails. -/
def Exception.answer (error : Exception) : Text :=
  match error.message with
  | .ok said => if said = [] then error.name else said
  | .error _ => error.name

theorem spoken_eq {error : Exception}
    (h : ∀ kind, error.message = .error kind → kind.isException = true) :
    spoken error = .ok error.answer := by
  rw [spoken, Exception.answer]
  cases hmessage : error.message with
  | ok said => rfl
  | error kind => simp [h kind hmessage]

theorem answer_ne_nil {error : Exception} (h : error.name ≠ []) : error.answer ≠ [] := by
  rw [Exception.answer]
  split
  · split
    · exact h
    · assumption
  · exact h

/-- What stands in the two columns of a failed run is text every store holds, of the whole message
and of the whole name of the class as far as they fit, and what is escaped stays as it is. -/
theorem described_stands (error : Exception) (hname : error.name ≠ [])
    (hholdable : error.name.all holdable = true)
    (hmessage : ∀ kind, error.message = .error kind → kind.isException = true) :
    (∃ message name, described error = .ok (message, name) ∧
      Stands errorLimit (storable error.answer) message ∧
      Stands errorTypeLimit (storable error.name) name) ∧
    ∀ t, storable (storable t) = storable t := by
  have hescaped : storable error.name = error.name := storable_of_holdable hholdable
  refine ⟨⟨cut (storable error.answer) errorLimit, cut error.name errorTypeLimit, ?_, ?_, ?_⟩,
    storable_storable⟩
  · rw [described, spoken_eq hmessage]
    rfl
  · exact stands_cut (by decide) (storable_ne_nil (answer_ne_nil hname)) (storable_holdable _)
  · rw [hescaped]
    exact stands_cut (by decide) hname hholdable

/-- A failure whose message is one lone surrogate. -/
theorem described_stands_surrogate :
    (∃ message name, described ⟨.ok [56320], [69]⟩ = .ok (message, name) ∧
      Stands errorLimit (storable [56320]) message ∧
      Stands errorTypeLimit (storable [69]) name) ∧
    ∀ t, storable (storable t) = storable t := by
  have hmessage : ∀ kind, (Except.ok [56320] : Except Kind Text) = .error kind →
      kind.isException = true := by
    intro kind h
    cases h
  exact described_stands ⟨.ok [56320], [69]⟩ (by decide) (by decide) hmessage

/-! ## The failures of an attempt -/

/-- A text without surrogates, character by character. -/
def codes (text : String) : Text := text.toList.map Char.toNat

theorem length_codes (text : String) : (codes text).length = text.length := by
  rw [codes, List.length_map, String.length_toList]

theorem codes_append (left right : String) : codes (left ++ right) = codes left ++ codes right := by
  simp [codes]

theorem backslashed_char (c : Char) : backslashed c.toNat = [c.toNat] := by
  have hvalid : c.toNat < 55296 ∨ 57343 < c.toNat := by
    rcases c.valid with hlow | ⟨hhigh, -⟩
    · exact .inl hlow
    · exact .inr hhigh
  have hnot : surrogate c.toNat = false := by
    simp only [surrogate, Bool.and_eq_false_iff, decide_eq_false_iff_not]
    omega
  simp [backslashed, hnot]

theorem codes_storable (text : String) : codes (Report.storable text) = storable (codes text) := by
  have hback : (codes text).flatMap backslashed = codes text := by
    have hchar : ∀ c ∈ codes text, backslashed c = [c] := by
      intro c hc
      rcases List.mem_map.1 hc with ⟨char, -, rfl⟩
      exact backslashed_char char
    calc (codes text).flatMap backslashed = (codes text).flatMap fun c => [c] :=
          List.flatMap_congr hchar
      _ = codes text := List.flatMap_singleton' _
  rw [storable, hback, Report.storable, codes, String.toList_ofList, codes, List.map_flatMap,
    List.flatMap_map]
  apply List.flatMap_congr
  intro c _
  split <;> rfl

theorem codes_cut (text : String) (limit : Nat) :
    codes (Report.cut text limit) = cut (codes text) limit := by
  rw [Report.cut, cut, length_codes]
  split
  · rfl
  · have hkept : codes (String.ofList (text.toList.take (limit - 3))) =
        (codes text).take (limit - 3) := by
      rw [codes, String.toList_ofList, codes, List.map_take]
    rw [codes_append, hkept]
    rfl

/-- A failure as an attempt tells it is described as the exception it was. -/
theorem described_failure {error : Exception} {failure : Report.Failure}
    (hspoken : spoken error = .ok (codes failure.spoken))
    (hname : error.name = codes failure.name) :
    described error =
      .ok (codes (Report.described failure).1, codes (Report.described failure).2) := by
  unfold Report.described
  rw [described, hspoken, hname, codes_cut, codes_cut, codes_storable]
  rfl

end Queuefy.Spoken
