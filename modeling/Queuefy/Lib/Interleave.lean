import Queuefy.Lib.Reach

/-! # Programs over one shared state

A program reads the state, writes to it by statements, and answers. Alone it runs from one state to
the next. Among others it is only its steps: a write finds the state as it is by then, and a read
may be of any state there has been. `Comes` is all that is left of a program then, and what holds
along it holds of every session of every interleaving.
-/

namespace Queuefy

inductive Prog (σ δ β α : Type)
  | done (a : α)
  | read (next : σ → Prog σ δ β α)
  | write (d : δ) (next : β → Prog σ δ β α)

variable {σ δ β α γ : Type}

namespace Prog

variable (exec : δ → σ → β × σ)

/-- The program alone. -/
def run : Prog σ δ β α → σ → α × σ
  | done a, s => (a, s)
  | read next, s => run (next s) s
  | write d next, s => run (next (exec d s).1) (exec d s).2

/-- The same program with its answer turned into another. -/
def map {α' : Type} (f : α → α') : Prog σ δ β α → Prog σ δ β α'
  | done a => done (f a)
  | read next => read fun s => map f (next s)
  | write d next => write d fun b => map f (next b)

theorem run_map {α' : Type} (f : α → α') (p : Prog σ δ β α) (s : σ) :
    (p.map f).run exec s = (f (p.run exec s).1, (p.run exec s).2) := by
  induction p generalizing s with
  | done a => rfl
  | read next ih => exact ih s s
  | write d next ih => exact ih _ _

/-- From `p` on to `q` through these writes, each with the state it found. What was read on the
way may have been anything. -/
inductive Comes (p : Prog σ δ β α) : List (δ × σ) → Prog σ δ β α → Prop
  | start : Comes p [] p
  | read {ws : List (δ × σ)} {next : σ → Prog σ δ β α} (s : σ) :
      Comes p ws (.read next) → Comes p ws (next s)
  | write {ws : List (δ × σ)} {d : δ} {next : β → Prog σ δ β α} (s : σ) :
      Comes p ws (.write d next) → Comes p (ws ++ [(d, s)]) (next (exec d s).1)

variable {exec}

/-! ## What a program can have done, told from its first step -/

namespace Comes

theorem after_read {next : σ → Prog σ δ β α} {q : Prog σ δ β α} {ws : List (δ × σ)} (s : σ)
    (h : Comes exec (next s) ws q) : Comes exec (.read next) ws q := by
  induction h with
  | start => exact .read s .start
  | read u _ ih => exact .read u ih
  | write u _ ih => exact .write u ih

theorem after_write {d : δ} {next : β → Prog σ δ β α} {q : Prog σ δ β α} {ws : List (δ × σ)}
    (s : σ) (h : Comes exec (next (exec d s).1) ws q) :
    Comes exec (.write d next) ((d, s) :: ws) q := by
  induction h with
  | start => exact .write s .start
  | read u _ ih => exact .read u ih
  | write u _ ih => exact .write u ih

theorem of_done {a : α} {q : Prog σ δ β α} {ws : List (δ × σ)}
    (h : Comes exec (.done a) ws q) : ws = [] ∧ q = .done a := by
  induction h with
  | start => exact ⟨rfl, rfl⟩
  | read s _ ih => cases ih.2
  | write s _ ih => cases ih.2

/-- A program that reads first has not read yet, or went on from what it read. -/
theorem of_read {next : σ → Prog σ δ β α} {q : Prog σ δ β α} {ws : List (δ × σ)}
    (h : Comes exec (.read next) ws q) :
    (ws = [] ∧ q = .read next) ∨ ∃ s, Comes exec (next s) ws q := by
  induction h with
  | start => exact Or.inl ⟨rfl, rfl⟩
  | read s _ ih =>
      rcases ih with ⟨rfl, heq⟩ | ⟨u, hu⟩
      · cases heq
        exact Or.inr ⟨s, .start⟩
      · exact Or.inr ⟨u, .read s hu⟩
  | write s _ ih =>
      rcases ih with ⟨rfl, heq⟩ | ⟨u, hu⟩
      · cases heq
      · exact Or.inr ⟨u, .write s hu⟩

/-- A program that writes first has not written yet, or wrote and went on from what it was told. -/
theorem of_write {d : δ} {next : β → Prog σ δ β α} {q : Prog σ δ β α} {ws : List (δ × σ)}
    (h : Comes exec (.write d next) ws q) :
    (ws = [] ∧ q = .write d next) ∨
      ∃ s rest, ws = (d, s) :: rest ∧ Comes exec (next (exec d s).1) rest q := by
  induction h with
  | start => exact Or.inl ⟨rfl, rfl⟩
  | read s _ ih =>
      rcases ih with ⟨rfl, heq⟩ | ⟨u, rest, rfl, hu⟩
      · cases heq
      · exact Or.inr ⟨u, rest, rfl, .read s hu⟩
  | @write ws d' next' s _ ih =>
      rcases ih with ⟨rfl, heq⟩ | ⟨u, rest, rfl, hu⟩
      · cases heq
        exact Or.inr ⟨s, [], rfl, .start⟩
      · exact Or.inr ⟨u, rest ++ [(d', s)], rfl, .write s hu⟩

theorem of_map {α' : Type} {f : α → α'} {p : Prog σ δ β α} {q : Prog σ δ β α'}
    {ws : List (δ × σ)} (h : Comes exec (p.map f) ws q) :
    ∃ r, q = r.map f ∧ Comes exec p ws r := by
  induction p generalizing ws q with
  | done a =>
      obtain ⟨rfl, rfl⟩ := of_done h
      exact ⟨.done a, rfl, .start⟩
  | read next ih =>
      rcases of_read h with ⟨rfl, rfl⟩ | ⟨s, hs⟩
      · exact ⟨.read next, rfl, .start⟩
      · obtain ⟨r, rfl, hr⟩ := ih s hs
        exact ⟨r, rfl, hr.after_read s⟩
  | write d next ih =>
      rcases of_write h with ⟨rfl, rfl⟩ | ⟨s, rest, rfl, hs⟩
      · exact ⟨.write d next, rfl, .start⟩
      · obtain ⟨r, rfl, hr⟩ := ih _ hs
        exact ⟨r, rfl, hr.after_write s⟩

end Comes

/-- Only a program that is done answers, and mapping its answer is the answer mapped. -/
theorem map_eq_done {α' : Type} {f : α → α'} {p : Prog σ δ β α} {b : α'}
    (h : p.map f = .done b) : ∃ a, p = .done a ∧ f a = b := by
  cases p with
  | done a => exact ⟨a, rfl, by cases h; rfl⟩
  | read next => cases h
  | write d next => cases h

end Prog

/-! ## Many of them at once -/

/-- The state, every state before it, the sessions with what each was started as, and every write
with the session it was of and the state it found. -/
structure Shared (σ δ β α γ : Type) where
  current : σ
  past : List σ
  sessions : List (γ × Prog σ δ β α)
  log : List (Nat × δ × σ)

/-- A call starts, a session reads the state some number of states back, or a session writes. -/
inductive Shared.Move (γ : Type)
  | start (call : γ)
  | read (session back : Nat)
  | write (session : Nat)

namespace Shared

def init (s : σ) : Shared σ δ β α γ := ⟨s, [], [], []⟩

variable (exec : δ → σ → β × σ) (prog : γ → Prog σ δ β α)

def step (S : Shared σ δ β α γ) : Move γ → Option (Shared σ δ β α γ)
  | .start call => some { S with sessions := S.sessions ++ [(call, prog call)] }
  | .read i back =>
      match S.sessions[i]?, (S.current :: S.past)[back]? with
      | some (call, .read next), some s =>
          some { S with sessions := S.sessions.set i (call, next s) }
      | _, _ => none
  | .write i =>
      match S.sessions[i]? with
      | some (call, .write d next) =>
          some {
            current := (exec d S.current).2
            past := S.current :: S.past
            sessions := S.sessions.set i (call, next (exec d S.current).1)
            log := S.log ++ [(i, d, S.current)] }
      | _ => none

/-- What one session wrote. -/
def writesOf (S : Shared σ δ β α γ) (i : Nat) : List (δ × σ) :=
  (S.log.filter (·.1 = i)).map (·.2)

/-- The log leads from one state to the other, write after write. -/
def Replays (exec : δ → σ → β × σ) : σ → List (Nat × δ × σ) → σ → Prop
  | s, [], t => s = t
  | s, (_, d, u) :: rest, t => u = s ∧ Replays exec (exec d s).2 rest t

theorem Replays.snoc {exec : δ → σ → β × σ} {s t : σ} {log : List (Nat × δ × σ)}
    (h : Replays exec s log t) (i : Nat) (d : δ) :
    Replays exec s (log ++ [(i, d, t)]) (exec d t).2 := by
  induction log generalizing s with
  | nil =>
      cases h
      exact ⟨rfl, rfl⟩
  | cons entry rest ih => exact ⟨h.1, ih h.2⟩

variable {exec prog} {s₀ : σ} {S T : Shared σ δ β α γ}

theorem step_cases {move : Move γ} (h : S.step exec prog move = some T) :
    (∃ call, move = .start call ∧
      T = { S with sessions := S.sessions ++ [(call, prog call)] }) ∨
    (∃ i back call next s, move = .read i back ∧ S.sessions[i]? = some (call, .read next) ∧
      T = { S with sessions := S.sessions.set i (call, next s) }) ∨
    (∃ i call d next, move = .write i ∧ S.sessions[i]? = some (call, .write d next) ∧
      T = {
        current := (exec d S.current).2
        past := S.current :: S.past
        sessions := S.sessions.set i (call, next (exec d S.current).1)
        log := S.log ++ [(i, d, S.current)] }) := by
  cases move with
  | start call => exact Or.inl ⟨call, rfl, (Option.some.inj h).symm⟩
  | read i back =>
      simp only [step] at h
      split at h
      · rename_i call next s hsession _
        exact Or.inr (Or.inl ⟨i, back, call, next, s, rfl, hsession, (Option.some.inj h).symm⟩)
      · cases h
  | write i =>
      simp only [step] at h
      split at h
      · rename_i call d next hsession
        exact Or.inr (Or.inr ⟨i, call, d, next, rfl, hsession, (Option.some.inj h).symm⟩)
      · cases h

theorem writesOf_snoc (log : List (Nat × δ × σ)) (i j : Nat) (d : δ) (s : σ) :
    ((log ++ [(i, d, s)]).filter (·.1 = j)).map (·.2) =
      (log.filter (·.1 = j)).map (·.2) ++ if i = j then [(d, s)] else [] := by
  by_cases hij : i = j <;> simp [List.filter_append, hij]

/-- Every session of an interleaving came to where it stands through its own writes, whatever it
read, and the log is the whole history of the state. -/
structure Followed (exec : δ → σ → β × σ) (prog : γ → Prog σ δ β α) (s₀ : σ)
    (S : Shared σ δ β α γ) : Prop where
  replays : Replays exec s₀ S.log S.current
  sessions : ∀ i call q, S.sessions[i]? = some (call, q) →
    Prog.Comes exec (prog call) (S.writesOf i) q
  owned : ∀ i d s, (i, d, s) ∈ S.log → i < S.sessions.length

theorem reach_followed (h : Reach (step exec prog) Unconditional (init s₀) S) :
    Followed exec prog s₀ S := by
  have hinit : Followed exec prog s₀ (init s₀) := by
    refine ⟨rfl, fun i call q hi => ?_, fun i d s hmem => ?_⟩
    · simp [init] at hi
    · simp [init] at hmem
  refine h.invariant hinit fun {S T move} _ hI _ ht => ?_
  rcases step_cases ht with ⟨call, -, rfl⟩ | ⟨i, back, call, next, s, -, hsession, rfl⟩ |
    ⟨i, call, d, next, -, hsession, rfl⟩
  · refine ⟨hI.replays, fun j c q hj => ?_, fun j d s hmem => ?_⟩
    · rcases Nat.lt_or_ge j S.sessions.length with hlt | hge
      · rw [List.getElem?_append_left hlt] at hj
        exact hI.sessions j c q hj
      · -- the new session wrote nothing yet
        rw [List.getElem?_append_right hge] at hj
        obtain ⟨hzero, hcq⟩ := List.getElem?_eq_some_iff.mp hj
        have hj0 : j - S.sessions.length = 0 := by simpa using hzero
        simp only [hj0, List.getElem_cons_zero, Prod.mk.injEq] at hcq
        obtain ⟨rfl, rfl⟩ := hcq
        have hnone : S.log.filter (·.1 = j) = [] := by
          rw [List.filter_eq_nil_iff]
          rintro ⟨k, d, s⟩ hmem
          have := hI.owned k d s hmem
          simp only [decide_eq_true_eq]
          omega
        simp only [writesOf, hnone, List.map_nil]
        exact .start
    · rw [List.length_append]
      have := hI.owned j d s hmem
      omega
  · refine ⟨hI.replays, fun j c q hj => ?_, fun j d s hmem => ?_⟩
    · by_cases hij : i = j
      · subst hij
        have hlt : i < S.sessions.length := (List.getElem?_eq_some_iff.mp hsession).1
        rw [List.getElem?_set_self hlt] at hj
        cases hj
        exact .read s (hI.sessions i call _ hsession)
      · rw [List.getElem?_set_ne hij] at hj
        exact hI.sessions j c q hj
    · rw [List.length_set]
      exact hI.owned j d s hmem
  · have hlt : i < S.sessions.length := (List.getElem?_eq_some_iff.mp hsession).1
    refine ⟨hI.replays.snoc i d, fun j c q hj => ?_, fun j d' s hmem => ?_⟩
    · simp only [writesOf, writesOf_snoc]
      by_cases hij : i = j
      · subst hij
        rw [List.getElem?_set_self hlt] at hj
        cases hj
        rw [if_pos rfl]
        exact .write S.current (hI.sessions i call _ hsession)
      · rw [List.getElem?_set_ne hij] at hj
        rw [if_neg hij, List.append_nil]
        exact hI.sessions j c q hj
    · rw [List.length_set]
      rcases List.mem_append.mp hmem with hold | hnew
      · exact hI.owned j d' s hold
      · cases List.mem_singleton.mp hnew
        exact hlt

end Shared

end Queuefy
