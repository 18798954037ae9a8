import Queuefy.Cron.Parse

/-! # The grammar of a cron expression

What the five fields of an expression may be written as, said without the parser, and that the
parser accepts exactly that. A number is what `int` documents: digits of any script with single
underscores between them, no more of them than the interpreter reads, after a sign or none.
-/

namespace Queuefy.Cron

variable (numerals : Numerals)

/-! ## Numbers -/

/-- Digits, and the text they are written as. -/
inductive Digits : List Char → List (Fin 10) → Prop
  | one {c : Char} {d : Fin 10} : numerals.decimal c = some d → Digits [c] [d]
  | more {c : Char} {d : Fin 10} {text : List Char} {ds : List (Fin 10)} :
      numerals.decimal c = some d → Digits text ds → Digits (c :: text) (d :: ds)
  | spaced {c : Char} {d : Fin 10} {text : List Char} {ds : List (Fin 10)} :
      numerals.decimal c = some d → Digits text ds → Digits (c :: '_' :: text) (d :: ds)

/-- What digits are worth. -/
def worth (ds : List (Fin 10)) : ℕ := ds.foldl (fun n digit => 10 * n + digit) 0

/-- No more digits than the interpreter reads. -/
def Fits (ds : List (Fin 10)) : Prop := numerals.longest = 0 ∨ ds.length ≤ numerals.longest

inductive Number : List Char → ℤ → Prop
  | plain {text : List Char} {ds : List (Fin 10)} :
      Digits numerals text ds → Fits numerals ds → Number text (worth ds)
  | plus {text : List Char} {ds : List (Fin 10)} :
      Digits numerals text ds → Fits numerals ds → Number ('+' :: text) (worth ds)
  | minus {text : List Char} {ds : List (Fin 10)} :
      Digits numerals text ds → Fits numerals ds → Number ('-' :: text) (-(worth ds : ℤ))

/-! ## Tokens, fields and expressions -/

/--
A token, and the range it names: the first value, the last one, and the step between them. Only
the end of a range may hold a dash, which leaves it the one sign a zero may carry.
-/
inductive Token (low high : ℕ) : List Char → ℤ → ℤ → ℤ → Prop
  | star : Token low high ['*'] low high 1
  | value {text : List Char} {n : ℤ} : Number numerals text n → '-' ∉ text → low ≤ n → n ≤ high →
      Token low high text n n 1
  | range {a b : List Char} {start stop : ℤ} : Number numerals a start → Number numerals b stop →
      '-' ∉ a → low ≤ start → start ≤ stop → stop ≤ high →
      Token low high (a ++ '-' :: b) start stop 1
  | starStep {s : List Char} {step : ℤ} : Number numerals s step → 1 ≤ step →
      Token low high ('*' :: '/' :: s) low high step
  | rangeStep {a b s : List Char} {start stop step : ℤ} : Number numerals a start →
      Number numerals b stop → Number numerals s step → '-' ∉ a → low ≤ start → start ≤ stop →
      stop ≤ high → 1 ≤ step → Token low high (a ++ '-' :: (b ++ '/' :: s)) start stop step

/-- A field is a comma list of tokens, and holds what they name. -/
structure Field (low high : ℕ) (spec : List Char) (values : Finset (Fin (high + 1))) : Prop where
  tokens : ∀ token ∈ spec.splitOn ',', ∃ start stop step,
    Token numerals low high token start stop step
  mem : ∀ v, v ∈ values ↔ ∃ token ∈ spec.splitOn ',', ∃ start stop step,
    Token numerals low high token start stop step ∧ start ≤ v.val ∧ (v.val : ℤ) ≤ stop ∧
      step ∣ v.val - start

/-- Five fields, and the schedule they say. A weekday written 7 is 0. -/
structure Expression (text : List Char) (c : Schedule) : Prop where
  fields : ∃ minute hour day month weekday weekdays,
    split text = [minute, hour, day, month, weekday] ∧
    Field numerals 0 59 minute c.minutes ∧ Field numerals 0 23 hour c.hours ∧
    Field numerals 1 31 day c.days ∧ Field numerals 1 12 month c.months ∧
    Field numerals 0 7 weekday weekdays ∧
    (∀ v, v ∈ c.weekdays ↔ ∃ u ∈ weekdays, v = if u = 7 then 0 else u) ∧
    c.dayStarred = starred day ∧ c.weekdayStarred = starred weekday
  named : c.weekdayStarred = true →
    ∃ month ∈ c.months, ∃ day ∈ c.days, day.val ≤ monthLengths.getD (month.val - 1) 0

variable {numerals}

/-! ## Reading a number -/

theorem decimal_ascii {c : Char} (hascii : c.toNat < 128) (h : ¬ (48 ≤ c.toNat ∧ c.toNat < 58)) :
    numerals.decimal c = none := by
  rw [numerals.ascii c hascii, dif_neg h]

/-- No text of digits holds a character of ASCII that is neither a digit nor an underscore. -/
theorem Digits.not_mem {text : List Char} {ds : List (Fin 10)} (h : Digits numerals text ds)
    {c : Char} (hc : numerals.decimal c = none) (hspace : c ≠ '_') : c ∉ text := by
  induction h with
  | one hd =>
      rintro hmem
      rw [List.mem_singleton.1 hmem, hd] at hc
      cases hc
  | more hd _ ih =>
      intro hmem
      rcases List.mem_cons.1 hmem with rfl | hmem
      · rw [hd] at hc
        cases hc
      · exact ih hmem
  | spaced hd _ ih =>
      intro hmem
      rcases List.mem_cons.1 hmem with rfl | hmem
      · rw [hd] at hc
        cases hc
      · rcases List.mem_cons.1 hmem with rfl | hmem
        · exact hspace rfl
        · exact ih hmem

theorem digits_of_digits {text : List Char} {ds : List (Fin 10)} (h : Digits numerals text ds) :
    digits numerals text = some ds := by
  have hunder : numerals.decimal '_' = none := decimal_ascii (by decide) (by decide)
  induction h with
  | one hd => simp [digits, hd]
  | @more c d text ds hd htext ih =>
      unfold digits
      split
      · rename_i heq
        cases heq
      · rename_i heq
        rw [(List.cons.inj heq).2] at htext
        cases htext
      · rename_i heq
        rw [(List.cons.inj heq).2] at htext
        cases htext with
        | one hd' => rw [hunder] at hd'; cases hd'
        | more hd' _ => rw [hunder] at hd'; cases hd'
        | spaced hd' _ => rw [hunder] at hd'; cases hd'
      · rename_i heq
        rw [← (List.cons.inj heq).1, ← (List.cons.inj heq).2, hd, ih]
        rfl
  | spaced hd htext ih => simp [digits, hd, ih]

theorem digits_of_eq_some {text : List Char} {ds : List (Fin 10)}
    (h : digits numerals text = some ds) : Digits numerals text ds := by
  fun_induction digits numerals text generalizing ds with
  | case1 => cases h
  | case2 c =>
      rcases Option.map_eq_some_iff.1 h with ⟨d, hd, rfl⟩
      exact .one hd
  | case3 c rest ih =>
      rcases Option.bind_eq_some_iff.1 h with ⟨d, hd, h⟩
      rcases Option.bind_eq_some_iff.1 h with ⟨more, hmore, h⟩
      rw [← Option.some.inj h]
      exact .spaced hd (ih hmore)
  | case4 c rest _ _ ih =>
      rcases Option.bind_eq_some_iff.1 h with ⟨d, hd, h⟩
      rcases Option.bind_eq_some_iff.1 h with ⟨more, hmore, h⟩
      rw [← Option.some.inj h]
      exact .more hd (ih hmore)

theorem unsigned_eq_some {text : List Char} {n : ℕ} : unsigned numerals text = some n ↔
    ∃ ds, Digits numerals text ds ∧ Fits numerals ds ∧ n = worth ds := by
  unfold unsigned
  cases hdigits : digits numerals text with
  | none =>
      simp only [reduceCtorEq, false_iff, not_exists]
      rintro ds ⟨hds, -, -⟩
      rw [digits_of_digits hds] at hdigits
      cases hdigits
  | some found =>
      have hfound : ∀ ds, Digits numerals text ds ↔ ds = found := by
        intro ds
        constructor
        · intro hds
          have heq := digits_of_digits hds
          rw [hdigits] at heq
          exact (Option.some.inj heq).symm
        · rintro rfl
          exact digits_of_eq_some hdigits
      have hfits : Fits numerals found ↔
          ¬ (numerals.longest ≠ 0 ∧ numerals.longest < found.length) := by
        unfold Fits
        omega
      simp only [hfound, exists_eq_left, hfits]
      split
      · rename_i hlong
        simp [hlong]
      · rename_i hshort
        simp only [hshort, not_false_eq_true, true_and, Option.some.injEq]
        exact eq_comm

/-- Texts of tokens hold no spaces. -/
def Tight (text : List Char) : Prop := ∀ c ∈ text, isSpace c = false

theorem Tight.strip {text : List Char} (h : Tight text) : strip text = text := by
  have hdrop : ∀ t : List Char, Tight t → t.dropWhile isBlank = t := by
    intro t ht
    cases t with
    | nil => rfl
    | cons c rest =>
        have hblank := isBlank_of_not_isSpace (ht c List.mem_cons_self)
        rw [List.dropWhile_cons_of_neg (by simp [hblank])]
  have hback : Tight text.reverse := fun c hc => h c (List.mem_reverse.1 hc)
  rw [Cron.strip, hdrop text h, hdrop _ hback, List.reverse_reverse]

/-- A text of digits is worth one number, or none where it is not one. -/
theorem map_unsigned_eq_some {text : List Char} {f : ℕ → ℤ} {n : ℤ} :
    (unsigned numerals text).map f = some n ↔
      ∃ ds, Digits numerals text ds ∧ Fits numerals ds ∧ n = f (worth ds) := by
  rw [Option.map_eq_some_iff]
  constructor
  · rintro ⟨m, hm, rfl⟩
    rcases unsigned_eq_some.1 hm with ⟨ds, hds, hfits, rfl⟩
    exact ⟨ds, hds, hfits, rfl⟩
  · rintro ⟨ds, hds, hfits, rfl⟩
    exact ⟨_, unsigned_eq_some.2 ⟨ds, hds, hfits, rfl⟩, rfl⟩

theorem numberOf_eq_ok {text : List Char} {n : ℤ} :
    numberOf numerals text = .ok n ↔ int numerals text = some n := by
  unfold numberOf
  cases int numerals text with
  | none => simp
  | some m => simp

/-- What `int` takes of a text with no spaces is a number of the grammar. -/
theorem numberOf_ok {text : List Char} (h : Tight text) {n : ℤ} :
    numberOf numerals text = .ok n ↔ Number numerals text n := by
  have hminus : numerals.decimal '-' = none := decimal_ascii (by decide) (by decide)
  have hplus : numerals.decimal '+' = none := decimal_ascii (by decide) (by decide)
  have hcast : ∀ x : Option ℕ, (do let m ← x; pure (m : ℤ)) = x.map Nat.cast := by
    intro x
    cases x <;> rfl
  rw [numberOf_eq_ok, int, h.strip]
  split
  · rename_i rest
    rw [hcast, Option.map_map, map_unsigned_eq_some]
    constructor
    · rintro ⟨ds, hds, hfits, rfl⟩
      exact .minus hds hfits
    · intro hnumber
      cases hnumber with
      | plain hds _ => exact absurd List.mem_cons_self (hds.not_mem hminus (by decide))
      | minus hds hfits => exact ⟨_, hds, hfits, rfl⟩
  · rename_i rest
    rw [hcast, Option.map_map, map_unsigned_eq_some]
    constructor
    · rintro ⟨ds, hds, hfits, rfl⟩
      exact .plus hds hfits
    · intro hnumber
      cases hnumber with
      | plain hds _ => exact absurd List.mem_cons_self (hds.not_mem hplus (by decide))
      | plus hds hfits => exact ⟨_, hds, hfits, rfl⟩
  · rename_i hnotminus hnotplus
    rw [hcast, Option.map_map, map_unsigned_eq_some]
    constructor
    · rintro ⟨ds, hds, hfits, rfl⟩
      exact .plain hds hfits
    · intro hnumber
      cases hnumber with
      | plain hds hfits => exact ⟨_, hds, hfits, rfl⟩
      | plus _ _ => exact absurd rfl (hnotplus _)
      | minus _ _ => exact absurd rfl (hnotminus _)

/-- No number holds a character of ASCII that is none of a digit's, an underscore and a sign. -/
theorem Number.not_mem {text : List Char} {n : ℤ} (h : Number numerals text n) {c : Char}
    (hc : numerals.decimal c = none) (hspace : c ≠ '_') (hplus : c ≠ '+') (hminus : c ≠ '-') :
    c ∉ text := by
  cases h with
  | plain hds _ => exact hds.not_mem hc hspace
  | plus hds _ =>
      rw [List.mem_cons, not_or]
      exact ⟨hplus, hds.not_mem hc hspace⟩
  | minus hds _ =>
      rw [List.mem_cons, not_or]
      exact ⟨hminus, hds.not_mem hc hspace⟩

/-! ## Reading a token -/

theorem partition_of_mem {c : Char} {a : List Char} (b : List Char) (h : c ∉ a) :
    partition c (a ++ c :: b) = ⟨a, true, b⟩ := by
  have hne : ∀ x ∈ a, x ≠ c := by
    rintro x hx rfl
    exact h hx
  have htake : (a ++ c :: b).takeWhile (· ≠ c) = a := by
    rw [List.takeWhile_append_of_pos (by simpa using hne)]
    simp
  have hdrop : (a ++ c :: b).dropWhile (· ≠ c) = c :: b := by
    rw [List.dropWhile_append_of_pos (by simpa using hne)]
    simp
  rw [partition, htake, hdrop]
  simp

theorem partition_of_not_mem {c : Char} {text : List Char} (h : c ∉ text) :
    partition c text = ⟨text, false, []⟩ := by
  have hne : ∀ x ∈ text, x ≠ c := by
    rintro x hx rfl
    exact h hx
  have htake : text.takeWhile (· ≠ c) = text := List.takeWhile_eq_self_iff.2 (by simpa using hne)
  have hdrop : text.dropWhile (· ≠ c) = [] := List.dropWhile_eq_nil_iff.2 (by simpa using hne)
  rw [partition, htake, hdrop]
  simp [h]

theorem boundsOf_ok {token : List Char} {parts : Parts} {step start stop : ℤ} {low high : ℕ} :
    boundsOf numerals token parts step low high = .ok (start, stop) ↔
      (parts.before = ['*'] ∧ start = low ∧ stop = high) ∨
      (∃ a b, parts.before = a ++ '-' :: b ∧ '-' ∉ a ∧ numberOf numerals a = .ok start ∧
        numberOf numerals b = .ok stop) ∨
      (parts.before ≠ ['*'] ∧ '-' ∉ parts.before ∧ parts.found = false ∧
        numberOf numerals parts.before = .ok start ∧ stop = start) := by
  unfold boundsOf
  by_cases hstar : parts.before = ['*']
  · rw [if_pos hstar, Except.ok.injEq, Prod.mk.injEq]
    constructor
    · rintro ⟨rfl, rfl⟩
      exact Or.inl ⟨hstar, rfl, rfl⟩
    · rintro (⟨-, rfl, rfl⟩ | ⟨a, b, hparts, -⟩ | ⟨hne, -⟩)
      · exact ⟨rfl, rfl⟩
      · have hdash : '-' ∈ parts.before := hparts ▸ List.mem_append_right a List.mem_cons_self
        rw [hstar] at hdash
        exact absurd hdash (by decide)
      · exact absurd hstar hne
  · rw [if_neg hstar]
    by_cases hdash : '-' ∈ parts.before
    · rw [if_pos hdash]
      rcases List.eq_append_cons_of_mem hdash with ⟨a, b, hparts, ha⟩
      rw [hparts, partition_of_mem b ha]
      constructor
      · intro h
        rcases Except.bind_ok_iff.1 h with ⟨first, hfirst, h⟩
        rcases Except.bind_ok_iff.1 h with ⟨last, hlast, h⟩
        cases Except.pure_ok_iff.1 h
        exact Or.inr (Or.inl ⟨a, b, rfl, ha, hfirst, hlast⟩)
      · rintro (⟨h, -⟩ | ⟨a', b', hsame, ha', hfirst, hlast⟩ | ⟨-, h, -⟩)
        · rw [hparts] at hstar
          exact absurd h hstar
        · have hboth := partition_of_mem b' ha'
          rw [← hsame, partition_of_mem b ha] at hboth
          cases hboth
          rw [hfirst, hlast]
          rfl
        · exact absurd (List.mem_append_right a List.mem_cons_self) h
    · rw [if_neg hdash]
      constructor
      · intro h
        rcases Except.bind_ok_iff.1 h with ⟨first, hfirst, h⟩
        rw [Except.check_ok_iff] at h
        cases Except.ok.inj h.2
        exact Or.inr (Or.inr ⟨hstar, hdash, by simpa using h.1, hfirst, rfl⟩)
      · rintro (⟨h, -⟩ | ⟨a, b, hparts, -⟩ | ⟨-, -, hfound, hfirst, rfl⟩)
        · exact absurd h hstar
        · rw [hparts] at hdash
          exact absurd (List.mem_append_right a List.mem_cons_self) hdash
        · rw [hfirst, hfound]
          rfl

theorem Tight.append {a b : List Char} (h : Tight (a ++ b)) : Tight a ∧ Tight b :=
  ⟨fun c hc => h c (List.mem_append_left b hc), fun c hc => h c (List.mem_append_right a hc)⟩

theorem Tight.cons {c : Char} {text : List Char} (h : Tight (c :: text)) : Tight text :=
  fun d hd => h d (List.mem_cons_of_mem c hd)

theorem Number.slash_not_mem {text : List Char} {n : ℤ} (h : Number numerals text n) :
    '/' ∉ text :=
  h.not_mem (decimal_ascii (by decide) (by decide)) (by decide) (by decide) (by decide)

theorem Number.ne_star {text : List Char} {n : ℤ} (h : Number numerals text n) :
    text ≠ ['*'] := by
  rintro rfl
  have hstar : '*' ∉ ['*'] :=
    h.not_mem (decimal_ascii (by decide) (by decide)) (by decide) (by decide) (by decide)
  exact hstar List.mem_cons_self

theorem slash_not_mem_range {a b : List Char} {start stop : ℤ} (ha : Number numerals a start)
    (hb : Number numerals b stop) : '/' ∉ a ++ '-' :: b := by
  rw [List.mem_append, List.mem_cons, not_or, not_or]
  exact ⟨ha.slash_not_mem, by decide, hb.slash_not_mem⟩

theorem Taken.token {token : List Char} {low high : ℕ} {start stop step : ℤ}
    (h : Taken numerals low high token start stop step) (htight : Tight token) :
    Token numerals low high token start stop step := by
  have hstep := h.stepped
  have hbounds := boundsOf_ok.1 h.bounded
  by_cases hslash : '/' ∈ token
  · rcases List.eq_append_cons_of_mem hslash with ⟨base, s, rfl, hbase⟩
    have hs : Tight s := htight.append.2.cons
    rw [partition_of_mem s hbase] at hstep hbounds
    have hnumber : Number numerals s step := (numberOf_ok hs).1 hstep
    rcases hbounds with ⟨hstar, rfl, rfl⟩ | ⟨a, b, rfl, ha, hfirst, hstop⟩ | ⟨-, -, hfound, -⟩
    · have hstar' : base = ['*'] := hstar
      rw [hstar']
      exact .starStep hnumber h.advances
    · have hab : Tight (a ++ '-' :: b) := htight.append.1
      rw [List.append_assoc, List.cons_append]
      exact .rangeStep ((numberOf_ok hab.append.1).1 hfirst)
        ((numberOf_ok hab.append.2.cons).1 hstop) hnumber ha h.lowest h.ordered h.highest h.advances
    · cases hfound
  · rw [partition_of_not_mem hslash] at hstep hbounds
    cases Except.ok.inj hstep
    rcases hbounds with ⟨hstar, rfl, rfl⟩ | ⟨a, b, rfl, ha, hfirst, hstop⟩ |
      ⟨-, hdash, -, hfirst, rfl⟩
    · have hstar' : token = ['*'] := hstar
      rw [hstar']
      exact .star
    · exact .range ((numberOf_ok htight.append.1).1 hfirst)
        ((numberOf_ok htight.append.2.cons).1 hstop) ha h.lowest h.ordered h.highest
    · exact .value ((numberOf_ok htight).1 hfirst) hdash h.lowest h.highest

theorem Token.taken {token : List Char} {low high : ℕ} {start stop step : ℤ}
    (h : Token numerals low high token start stop step) (htight : Tight token)
    (hle : low ≤ high) : Taken numerals low high token start stop step := by
  have hcast : (low : ℤ) ≤ high := by exact_mod_cast hle
  cases h with
  | star =>
      have hpartition : partition '/' ['*'] = ⟨['*'], false, []⟩ := partition_of_not_mem (by decide)
      refine ⟨by rw [hpartition]; rfl, le_rfl, ?_, le_rfl, hcast, le_rfl⟩
      rw [hpartition, boundsOf_ok]
      exact Or.inl ⟨rfl, rfl, rfl⟩
  | value hn hdash hlow hhigh =>
      have hpartition := partition_of_not_mem hn.slash_not_mem
      refine ⟨by rw [hpartition]; rfl, le_rfl, ?_, hlow, le_rfl, hhigh⟩
      rw [hpartition, boundsOf_ok]
      exact Or.inr (Or.inr ⟨hn.ne_star, hdash, rfl, (numberOf_ok htight).2 hn, rfl⟩)
  | @range a b _ _ ha hb hdash hlow hlast hhigh =>
      have hpartition := partition_of_not_mem (slash_not_mem_range ha hb)
      refine ⟨by rw [hpartition]; rfl, le_rfl, ?_, hlow, hlast, hhigh⟩
      rw [hpartition, boundsOf_ok]
      exact Or.inr (Or.inl ⟨a, b, rfl, hdash, (numberOf_ok htight.append.1).2 ha,
        (numberOf_ok htight.append.2.cons).2 hb⟩)
  | @starStep s _ hs hpos =>
      have hpartition : partition '/' ('*' :: '/' :: s) = ⟨['*'], true, s⟩ :=
        partition_of_mem (a := ['*']) s (by decide)
      have hread : numberOf numerals s = .ok step := (numberOf_ok htight.cons.cons).2 hs
      refine ⟨by rw [hpartition]; exact hread, hpos, ?_, le_rfl, hcast, le_rfl⟩
      rw [hpartition, boundsOf_ok]
      exact Or.inl ⟨rfl, rfl, rfl⟩
  | @rangeStep a b s _ _ _ ha hb hs hdash hlow hlast hhigh hpos =>
      have hshape : a ++ '-' :: (b ++ '/' :: s) = (a ++ '-' :: b) ++ '/' :: s := by simp
      rw [hshape] at htight ⊢
      have hpartition := partition_of_mem s (slash_not_mem_range ha hb)
      have hread : numberOf numerals s = .ok step := (numberOf_ok htight.append.2.cons).2 hs
      refine ⟨by rw [hpartition]; exact hread, hpos, ?_, hlow, hlast, hhigh⟩
      rw [hpartition, boundsOf_ok]
      exact Or.inr (Or.inl ⟨a, b, rfl, hdash, (numberOf_ok htight.append.1.append.1).2 ha,
        (numberOf_ok htight.append.1.append.2.cons).2 hb⟩)

theorem valuesOf_token {token : List Char} {low high : ℕ} (htight : Tight token)
    (hle : low ≤ high) {values : Finset (Fin (high + 1))} :
    valuesOf numerals token low high = .ok values ↔ ∃ start stop step,
      Token numerals low high token start stop step ∧ values = range high start stop step := by
  rw [valuesOf_ok_iff]
  constructor
  · rintro ⟨start, stop, step, htaken, hvalues⟩
    exact ⟨start, stop, step, htaken.token htight, hvalues⟩
  · rintro ⟨start, stop, step, htoken, hvalues⟩
    exact ⟨start, stop, step, htoken.taken htight hle, hvalues⟩

/-! ## Reading a field -/

/-- What a text is split into holds what the text does, less what it was split on. -/
theorem mem_of_mem_splitOnP {p : Char → Bool} {text part : List Char}
    (h : part ∈ text.splitOnP p) : ∀ c ∈ part, c ∈ text ∧ p c = false := by
  induction text generalizing part with
  | nil =>
      rw [List.splitOnP_nil, List.mem_singleton] at h
      simp [h]
  | cons x rest ih =>
      have hrest : ∀ {part}, part ∈ rest.splitOnP p → ∀ c ∈ part, c ∈ x :: rest ∧ p c = false :=
        fun hpart c hc => ⟨List.mem_cons_of_mem x (ih hpart c hc).1, (ih hpart c hc).2⟩
      rw [List.splitOnP_cons_eq_if_modifyHead] at h
      cases hx : p x with
      | true =>
          rw [hx, if_pos rfl] at h
          rcases List.mem_cons.1 h with rfl | h
          · simp
          · exact hrest h
      | false =>
          rw [hx, if_neg (by simp)] at h
          rcases List.exists_cons_of_ne_nil (List.splitOnP_ne_nil p rest) with ⟨first, more, hsplit⟩
          rw [hsplit] at h hrest
          rw [List.modifyHead_cons] at h
          rcases List.mem_cons.1 h with rfl | h
          · intro c hc
            rcases List.mem_cons.1 hc with rfl | hc
            · exact ⟨List.mem_cons_self, hx⟩
            · exact hrest List.mem_cons_self c hc
          · exact hrest (List.mem_cons_of_mem first h)

theorem tight_of_mem_split {text field : List Char} (h : field ∈ split text) : Tight field :=
  fun c hc => (mem_of_mem_splitOnP (List.mem_filter.1 h).1 c hc).2

theorem Tight.token {spec token : List Char} (h : Tight spec) (htoken : token ∈ spec.splitOn ',') :
    Tight token := by
  rw [List.splitOn_eq_splitOnP] at htoken
  exact fun c hc => h c (mem_of_mem_splitOnP htoken c hc).1

theorem foldlM_update_of_taken {tokens : List (List Char)} {low high : ℕ}
    (values : Finset (Fin (high + 1)))
    (h : ∀ token ∈ tokens, ∃ part, valuesOf numerals token low high = .ok part) :
    ∃ found, tokens.foldlM (update numerals low high) values = .ok found := by
  induction tokens generalizing values with
  | nil => exact ⟨values, rfl⟩
  | cons token rest ih =>
      rcases h token List.mem_cons_self with ⟨part, hpart⟩
      rcases ih (values ∪ part) (fun t ht => h t (List.mem_cons_of_mem token ht)) with
        ⟨found, hfound⟩
      refine ⟨found, ?_⟩
      rw [List.foldlM_cons, update, hpart]
      exact hfound

theorem fieldOf_ok_iff {spec : List Char} {low high : ℕ} (htight : Tight spec) (hle : low ≤ high)
    {values : Finset (Fin (high + 1))} :
    fieldOf numerals spec low high = .ok values ↔ Field numerals low high spec values := by
  have htoken : ∀ token ∈ spec.splitOn ',', ∀ part,
      valuesOf numerals token low high = .ok part ↔ ∃ start stop step,
        Token numerals low high token start stop step ∧ part = range high start stop step :=
    fun token hmem part => valuesOf_token (htight.token hmem) hle
  have hread : ∀ {found}, fieldOf numerals spec low high = .ok found →
      Field numerals low high spec found := by
    intro found h
    rcases foldlM_update h with ⟨htaken, hmem⟩
    constructor
    · intro token ht
      rcases htaken token ht with ⟨part, hpart⟩
      rcases (htoken token ht part).1 hpart with ⟨start, stop, step, hgrammar, -⟩
      exact ⟨start, stop, step, hgrammar⟩
    · intro v
      rw [hmem]
      constructor
      · rintro (hnone | ⟨token, ht, part, hpart, hv⟩)
        · simp at hnone
        · rcases (htoken token ht part).1 hpart with ⟨start, stop, step, hgrammar, rfl⟩
          exact ⟨token, ht, start, stop, step, hgrammar, mem_range.1 hv⟩
      · rintro ⟨token, ht, start, stop, step, hgrammar, hv⟩
        exact Or.inr ⟨token, ht, _, (htoken token ht _).2 ⟨start, stop, step, hgrammar, rfl⟩,
          mem_range.2 hv⟩
  constructor
  · exact hread
  · intro hfield
    have htaken : ∀ token ∈ spec.splitOn ',', ∃ part,
        valuesOf numerals token low high = .ok part := by
      intro token ht
      rcases hfield.tokens token ht with ⟨start, stop, step, hgrammar⟩
      exact ⟨_, (htoken token ht _).2 ⟨start, stop, step, hgrammar, rfl⟩⟩
    rcases foldlM_update_of_taken ∅ htaken with ⟨found, hfound⟩
    have hsame : found = values := by
      ext v
      rw [(hread hfound).mem, hfield.mem]
    rw [← hsame]
    exact hfound

/-! ## Reading an expression -/

theorem sunday_mem {weekdays : Finset (Fin 8)} (v : Fin 8) :
    v ∈ sunday weekdays ↔ ∃ u ∈ weekdays, v = if u = 7 then 0 else u := by
  revert weekdays v
  decide +kernel

theorem reachable_iff {days : Finset (Fin 32)} {months : Finset (Fin 13)} {star : Bool} :
    reachable days months star = true ↔ (star = true →
      ∃ month ∈ months, ∃ day ∈ days, day.val ≤ monthLengths.getD (month.val - 1) 0) := by
  cases star <;> simp [reachable]

/-- An expression is parsed into a schedule exactly where the grammar says it is that schedule. -/
theorem parse_ok {expression : String} {c : Schedule} :
    parse numerals expression = .ok c ↔ Expression numerals expression.toList c := by
  have htight : ∀ field ∈ split expression.toList, Tight field :=
    fun field hfield => tight_of_mem_split hfield
  constructor
  · intro h
    unfold parse at h
    split at h
    · rename_i minute hour day month weekday hsplit
      simp only [hsplit, List.forall_mem_cons] at htight
      rcases htight with ⟨hminute, hhour, hday, hmonth, hweekday, -⟩
      rcases Except.bind_ok_iff.1 h with ⟨minutes, hminutes, h⟩
      rcases Except.bind_ok_iff.1 h with ⟨hours, hhours, h⟩
      rcases Except.bind_ok_iff.1 h with ⟨days, hdays, h⟩
      rcases Except.bind_ok_iff.1 h with ⟨months, hmonths, h⟩
      rcases Except.bind_ok_iff.1 h with ⟨weekdays, hweekdays, h⟩
      rcases Except.check_ok_iff.1 h with ⟨hreachable, h⟩
      rw [← Except.ok.inj h]
      refine ⟨⟨minute, hour, day, month, weekday, weekdays, hsplit, ?_⟩, ?_⟩
      · exact ⟨(fieldOf_ok_iff hminute (by decide)).1 hminutes,
          (fieldOf_ok_iff hhour (by decide)).1 hhours, (fieldOf_ok_iff hday (by decide)).1 hdays,
          (fieldOf_ok_iff hmonth (by decide)).1 hmonths,
          (fieldOf_ok_iff hweekday (by decide)).1 hweekdays, sunday_mem, rfl, rfl⟩
      · rw [Bool.not_eq_true', Bool.not_eq_false] at hreachable
        exact reachable_iff.1 hreachable
    · cases h
  · rintro ⟨⟨minute, hour, day, month, weekday, weekdays, hsplit, hminutes, hhours, hdays, hmonths,
      hweekdays, hsunday, hdaystar, hweekdaystar⟩, hnamed⟩
    simp only [hsplit, List.forall_mem_cons] at htight
    rcases htight with ⟨hminute, hhour, hday, hmonth, hweekday, -⟩
    have hread : c.weekdays = sunday weekdays := by
      ext v
      rw [hsunday, sunday_mem]
    have hreachable : reachable c.days c.months c.weekdayStarred = true :=
      reachable_iff.2 hnamed
    unfold parse
    rw [hsplit]
    refine Except.bind_ok_iff.2 ⟨_, (fieldOf_ok_iff hminute (by decide)).2 hminutes, ?_⟩
    refine Except.bind_ok_iff.2 ⟨_, (fieldOf_ok_iff hhour (by decide)).2 hhours, ?_⟩
    refine Except.bind_ok_iff.2 ⟨_, (fieldOf_ok_iff hday (by decide)).2 hdays, ?_⟩
    refine Except.bind_ok_iff.2 ⟨_, (fieldOf_ok_iff hmonth (by decide)).2 hmonths, ?_⟩
    refine Except.bind_ok_iff.2 ⟨_, (fieldOf_ok_iff hweekday (by decide)).2 hweekdays, ?_⟩
    rw [← hread, ← hdaystar, ← hweekdaystar, hreachable]
    rfl

/-- The parser takes exactly the expressions of the grammar, each for the schedule it says, and
raises a `CronError` over every other text. -/
theorem parse_accepts_grammar (numerals : Numerals) (expression : String) :
    (∀ c, parse numerals expression = .ok c ↔ Expression numerals expression.toList c) ∧
    ((¬ ∃ c, Expression numerals expression.toList c) →
      ∃ e : CronError, parse numerals expression = .error e) := by
  refine ⟨fun c => parse_ok, fun hnone => ?_⟩
  cases h : parse numerals expression with
  | ok c => exact absurd ⟨c, parse_ok.1 h⟩ hnone
  | error e => exact ⟨e, rfl⟩

/-- An interpreter that reads no more digits of a number than it has to. -/
def fewestDigits : Numerals := { Numerals.plain with longest := 640 }

/-- A minute of one zero more. -/
def longMinute : String := String.ofList (List.replicate 641 '0' ++ " * * * *".toList)

/-- A minute that is not read is enough for an expression not to be. -/
theorem parse_refuses_minute {expression : String} {minute hour day month weekday : List Char}
    (hsplit : split expression.toList = [minute, hour, day, month, weekday])
    (hminute : (fieldOf numerals minute 0 59).isOk = false) :
    (parse numerals expression).isOk = false := by
  unfold parse
  rw [hsplit]
  cases h : fieldOf numerals minute 0 59 with
  | ok minutes =>
      rw [h] at hminute
      cases hminute
  | error e =>
      simp only [h]
      rfl

theorem split_longMinute : split longMinute.toList =
    [List.replicate 641 '0', ['*'], ['*'], ['*'], ['*']] :=
  (congrArg split String.toList_ofList).trans (by decide +kernel)

/-- A sign is taken that is no plain digit, and plain digits past the limit of an interpreter are
not. -/
theorem grammar_of_plain_digits :
    ((parse .plain "+5 * * * *").isOk = true ∧ ∃ c ∈ "+5 * * * *".toList,
      ¬ (c.isDigit = true ∨ isSpace c = true ∨ c ∈ ['*', '-', '/', ','])) ∧
    (parse fewestDigits longMinute).isOk = false :=
  ⟨⟨by decide +kernel, '+', by decide, by decide⟩,
    parse_refuses_minute split_longMinute (by decide +kernel)⟩

end Queuefy.Cron
