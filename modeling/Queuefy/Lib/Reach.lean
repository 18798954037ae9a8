import Mathlib

/-! # Runs of a labelled transition system

A system is a partial step function. `Reach step ok init` holds of the states a run from
`init` reaches when every step of it meets the condition `ok`, which is asked of the state the
step starts from and of its label. With no condition this is plain reachability.
-/

namespace Queuefy

section

variable {σ ε : Type*}

inductive Reach (step : σ → ε → Option σ) (ok : σ → ε → Prop) (init : σ) : σ → Prop
  | start : Reach step ok init init
  | next {s t : σ} {e : ε} :
      Reach step ok init s → ok s e → step s e = some t → Reach step ok init t

/-- The condition every step meets. -/
def Unconditional : σ → ε → Prop := fun _ _ => True

namespace Reach

variable {step : σ → ε → Option σ} {ok : σ → ε → Prop} {init s : σ}

/-- What holds at the start and is kept by every step of a run holds of every state reached.
The step may use that its own start was reached. -/
theorem invariant {I : σ → Prop} (h : Reach step ok init s) (hinit : I init)
    (hstep : ∀ {s t e}, Reach step ok init s → I s → ok s e → step s e = some t → I t) : I s := by
  induction h with
  | start => exact hinit
  | next hs hok ht ih => exact hstep hs ih hok ht

/-- Runs project along a map under which every step is a step of the other system or none. -/
theorem project {τ δ : Type*} {step' : τ → δ → Option τ} (f : σ → τ) (h : Reach step ok init s)
    (hstep : ∀ {s t e}, step s e = some t → f t = f s ∨ ∃ d, step' (f s) d = some (f t)) :
    Reach step' Unconditional (f init) (f s) := by
  induction h with
  | start => exact .start
  | next _ _ ht ih =>
      rcases hstep ht with heq | ⟨d, hd⟩
      · rwa [heq]
      · exact .next ih trivial hd

end Reach

/-- Takes a list of labels one after another; nothing as soon as one is not enabled. -/
def runAll (step : σ → ε → Option σ) : σ → List ε → Option σ
  | s, [] => some s
  | s, e :: es => (step s e).bind fun t => runAll step t es

/-- Every step of a run through a list of labels meets the condition. -/
def Meets (step : σ → ε → Option σ) (ok : σ → ε → Prop) : σ → List ε → Prop
  | _, [] => True
  | s, e :: es => ok s e ∧ ∀ t ∈ step s e, Meets step ok t es

theorem Reach.of_meets {step : σ → ε → Option σ} {ok : σ → ε → Prop} {init : σ} {es : List ε}
    {s t : σ} (hs : Reach step ok init s) (hok : Meets step ok s es)
    (h : runAll step s es = some t) : Reach step ok init t := by
  induction es generalizing s with
  | nil => cases h; exact hs
  | cons e es ih =>
      obtain ⟨u, hu, ht⟩ := Option.bind_eq_some_iff.mp h
      exact ih (.next hs hok.1 hu) (hok.2 u hu) ht

instance decidableMeets (step : σ → ε → Option σ) (ok : σ → ε → Prop)
    [∀ s e, Decidable (ok s e)] : ∀ s es, Decidable (Meets step ok s es)
  | _, [] => inferInstanceAs (Decidable True)
  | s, e :: es =>
      have : DecidablePred fun t => Meets step ok t es := fun t => decidableMeets step ok t es
      inferInstanceAs (Decidable (ok s e ∧ ∀ t ∈ step s e, Meets step ok t es))

/-- The run through a list of labels comes by a state and a label of it with this property. -/
def Sometime (step : σ → ε → Option σ) (P : σ → ε → Prop) : σ → List ε → Prop
  | _, [] => False
  | s, e :: es => P s e ∨ ∃ t, step s e = some t ∧ Sometime step P t es

theorem Sometime.weaken {step : σ → ε → Option σ} {P Q : σ → ε → Prop}
    (himp : ∀ s e, P s e → Q s e) {s : σ} {es : List ε} (h : Sometime step P s es) :
    Sometime step Q s es := by
  induction es generalizing s with
  | nil => exact h
  | cons e es ih =>
      rcases h with h | ⟨t, ht, h⟩
      · exact Or.inl (himp s e h)
      · exact Or.inr ⟨t, ht, ih h⟩

theorem Meets.and {step : σ → ε → Option σ} {ok ok' : σ → ε → Prop} {s : σ} {es : List ε}
    (h : Meets step ok s es) (h' : ∀ e ∈ es, ∀ t, ok' t e) :
    Meets step (fun t e => ok t e ∧ ok' t e) s es := by
  induction es generalizing s with
  | nil => trivial
  | cons e es ih =>
      exact ⟨⟨h.1, h' e List.mem_cons_self s⟩, fun t ht =>
        ih (h.2 t ht) fun d hd => h' d (List.mem_cons_of_mem _ hd)⟩

theorem meets_unconditional {step : σ → ε → Option σ} (s : σ) (es : List ε) :
    Meets step Unconditional s es := by
  induction es generalizing s with
  | nil => trivial
  | cons e es ih => exact ⟨trivial, fun t _ => ih t⟩

theorem Reach.of_runAll {step : σ → ε → Option σ} {init : σ} {es : List ε} {s t : σ}
    (hs : Reach step Unconditional init s) (h : runAll step s es = some t) :
    Reach step Unconditional init t :=
  hs.of_meets (meets_unconditional s es) h

end

end Queuefy
