import Mathlib

/-! # How a computation that may refuse ends

A computation that may refuse or raise is read off by its parts: when it answers and with what,
and of checks made one after another which one decides. A check lets a value through, refuses it
under a name of its own, or breaks: raises something the caller was never told of.
-/

/-! ## What comes back -/

namespace Except

variable {ε α β : Type}

theorem bind_ok_iff {x : Except ε α} {f : α → Except ε β} {b : β} :
    (x >>= f) = .ok b ↔ ∃ a, x = .ok a ∧ f a = .ok b := by
  cases x with
  | error e => simp [bind, Except.bind]
  | ok a => simp [bind, Except.bind]

theorem pure_ok_iff {a b : α} : (pure a : Except ε α) = .ok b ↔ a = b := by
  simp [pure, Except.pure]

/-- A check comes back where it does not raise. -/
theorem check_ok_iff {p : Prop} [Decidable p] {e : ε} {x : Except ε β} {b : β} :
    (if p then .error e else x) = .ok b ↔ ¬ p ∧ x = .ok b := by
  by_cases h : p
  · simp [h]
  · simp [h]

end Except

/-! ## When it answers

A computation that answers or refuses is known by when it answers, and with what. One after another
answers when each does, a walk along a list when every step does.
-/

section

variable {ε α β : Type}

/-- The computation answers `a` where `p` holds, and refuses elsewhere. -/
def Gives (x : Except ε α) (p : Bool) (a : α) : Prop :=
  (p = true → x = .ok a) ∧ (p = false → ∃ refusal, x = .error refusal)

namespace Gives

theorem ok (a : α) : Gives (.ok a : Except ε α) true a :=
  ⟨fun _ => rfl, fun h => absurd h (by simp)⟩

theorem error (refusal : ε) (a : α) : Gives (.error refusal) false a :=
  ⟨fun h => absurd h (by simp), fun _ => ⟨refusal, rfl⟩⟩

theorem guard (p : Bool) (refusal : ε) (a : α) :
    Gives (if p then .ok a else .error refusal) p a := by
  cases p
  · exact error refusal a
  · exact ok a

theorem bind {x : Except ε α} {f : α → Except ε β} {p q : Bool} {a : α} {b : β}
    (hx : Gives x p a) (hf : p = true → Gives (f a) q b) : Gives (x >>= f) (p && q) b := by
  cases p with
  | true =>
      rw [hx.1 rfl, Bool.true_and]
      exact hf rfl
  | false =>
      refine ⟨fun h => absurd h (by simp), fun _ => ?_⟩
      have herror : ∃ refusal, x = .error refusal := hx.2 rfl
      rcases herror with ⟨refusal, hrefusal⟩
      exact ⟨refusal, by rw [hrefusal]; rfl⟩

/-- The last step of a computation, which refuses nothing. -/
theorem map {x : Except ε α} {p : Bool} {a : α} (hx : Gives x p a) (f : α → β) :
    Gives (x >>= fun a => pure (f a)) p (f a) := by
  have hbind : Gives (x >>= fun a => pure (f a)) (p && true) (f a) := hx.bind fun _ => ok (f a)
  rwa [Bool.and_true] at hbind

/-- A list walked in order answers when every one of its items does. -/
theorem mapM {f : α → Except ε β} {p : α → Bool} {g : α → β} {items : List α}
    (h : ∀ item ∈ items, Gives (f item) (p item) (g item)) :
    Gives (items.mapM f) (items.all p) (items.map g) := by
  induction items with
  | nil => exact ok []
  | cons item rest ih =>
      have hfirst : Gives (f item) (p item) (g item) := h item List.mem_cons_self
      have hrest : Gives (rest.mapM f) (rest.all p) (rest.map g) :=
        ih fun other hother => h other (List.mem_cons_of_mem item hother)
      rw [List.mapM_cons]
      exact hfirst.bind fun _ => hrest.map fun rest => g item :: rest

theorem eq_ok {x : Except ε α} {p : Bool} {a : α} (h : Gives x p a) (hp : p = true) :
    x = .ok a :=
  h.1 hp

theorem eq_error {x : Except ε α} {p : Bool} {a : α} (h : Gives x p a) (hp : p = false) :
    ∃ refusal, x = .error refusal :=
  h.2 hp

end Gives

end

/-! ## Which check decides -/

inductive Verdict where
  | passes
  | refuses
  | breaks
  deriving DecidableEq

namespace Verdict

/-- One check after another. -/
def next : Verdict → Verdict → Verdict
  | .passes, later => later
  | first, _ => first

/-- Checks made in order. -/
def first : List Verdict → Verdict
  | [] => .passes
  | verdict :: rest => verdict.next (first rest)

/-- The verdict on a value, by what the check lets through and what it breaks on. -/
def on (lets breaks : Bool) : Verdict :=
  if lets then .passes else if breaks then .breaks else .refuses

@[simp] theorem passes_next (later : Verdict) : passes.next later = later := rfl

@[simp] theorem next_passes (v : Verdict) : v.next .passes = v := by
  cases v <;> rfl

theorem next_assoc (u v w : Verdict) : (u.next v).next w = u.next (v.next w) := by
  cases u <;> rfl

@[simp] theorem first_nil : first [] = .passes := rfl

@[simp] theorem first_cons (v : Verdict) (rest : List Verdict) :
    first (v :: rest) = v.next (first rest) := rfl

theorem first_append (xs ys : List Verdict) : first (xs ++ ys) = (first xs).next (first ys) := by
  induction xs with
  | nil => rfl
  | cons x xs ih => rw [List.cons_append, first_cons, first_cons, ih, next_assoc]

/-- Checks break unless every check that breaks comes after one that refuses. -/
theorem first_ne_breaks {verdicts : List Verdict} : first verdicts ≠ .breaks ↔
    ∀ before after, verdicts = before ++ .breaks :: after → .refuses ∈ before := by
  induction verdicts with
  | nil => simp
  | cons v rest ih =>
      rw [first_cons]
      cases v with
      | refuses =>
          refine ⟨fun _ before after heq => ?_, fun _ => by simp [next]⟩
          cases before with
          | nil => cases heq
          | cons v others => simp [← (List.cons.inj heq).1]
      | breaks =>
          refine ⟨fun h => absurd rfl h, fun h => absurd (h [] rest rfl) List.not_mem_nil⟩
      | passes =>
          rw [passes_next, ih]
          constructor
          · intro h before after heq
            cases before with
            | nil => cases heq
            | cons v others =>
                exact List.mem_cons_of_mem v (h others after (List.cons.inj heq).2)
          · intro h before after heq
            have hmem := h (.passes :: before) after (by rw [heq, List.cons_append])
            simpa using hmem

end Verdict

namespace Except

variable {ε α β : Type} (named : ε → Bool)

/-- The verdict of a check, by what it raised. -/
def verdict : Except ε α → Verdict
  | .ok _ => .passes
  | .error e => if named e then .refuses else .breaks

variable {named}

@[simp] theorem verdict_ok (a : α) : (Except.ok a : Except ε α).verdict named = .passes := by
  rw [verdict]

theorem verdict_eq_passes {x : Except ε α} : x.verdict named = .passes ↔ ∃ a, x = .ok a := by
  cases x with
  | ok a => simp
  | error e => simp only [verdict]; split <;> simp

/-- A computation that comes back or raises under a name of its own is one that does not break. -/
theorem verdict_ne_breaks {x : Except ε α} :
    x.verdict named ≠ .breaks ↔ ∀ e, x = .error e → named e = true := by
  cases x with
  | ok a => simp
  | error e => by_cases h : named e = true <;> simp [verdict, h]

/-- What follows a check is asked only where the check passes. -/
theorem verdict_bind {x : Except ε α} {f : α → Except ε β} {v : Verdict}
    (h : ∀ a, x = .ok a → (f a).verdict named = v) :
    (x >>= f).verdict named = (x.verdict named).next v := by
  cases x with
  | ok a => exact h a rfl
  | error e =>
      simp only [bind, Except.bind, verdict]
      split <;> rfl

theorem verdict_map {x : Except ε α} {f : α → β} :
    (x >>= fun a => pure (f a)).verdict named = x.verdict named := by
  rw [verdict_bind (v := .passes) fun _ _ => rfl, Verdict.next_passes]

end Except
