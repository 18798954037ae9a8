import Mathlib

/-! # Work taken off in batches

A call that takes a batch off a backlog and answers how many it took is made again and again until
there is nothing left to take. Which part of the backlog a batch is may be different from call to
call and from one system to another; what is left in the end is not, as long as taking any batch
off leads to the same end.
-/

namespace Queuefy

variable {σ τ : Type*}

/-- The state after so many calls. -/
def after (call : σ → Nat × σ) (n : Nat) (s : σ) : σ := (fun s => (call s).2)^[n] s

theorem after_succ (call : σ → Nat × σ) (n : Nat) (s : σ) :
    after call (n + 1) s = (call (after call n s)).2 :=
  Function.iterate_succ_apply' _ n s

/-- A batch is as large as it may be, and takes nothing away from the end it leads to. `holds` says
what a state stands for, and `ok` what such a thing is to be like for a batch to be right. -/
structure Batched (call : σ → Nat × σ) (holds : σ → τ → Prop) (ok : τ → Prop) (backlog : τ → Nat)
    (size : Nat) (ended : τ → τ) : Prop where
  batch : ∀ {s r}, holds s r → ok r → (call s).1 = min size (backlog r) ∧
    ∃ r', holds (call s).2 r' ∧ ok r' ∧ backlog r' = backlog r - (call s).1 ∧ ended r' = ended r
  done : ∀ {r}, ok r → backlog r = 0 → ended r = r

/-- Each call takes what it may of what is left, and sooner or later there is nothing left and the
end is reached. -/
structure Drains (call : σ → Nat × σ) (holds : σ → τ → Prop) (backlog : τ → Nat) (size : Nat)
    (s : σ) (final : τ) : Prop where
  each : ∀ n, ∃ r, holds (after call n s) r ∧ (call (after call n s)).1 = min size (backlog r)
  ends : ∃ n, ∀ k ≥ n, (call (after call k s)).1 = 0 ∧ holds (after call k s) final

namespace Batched

variable {call : σ → Nat × σ} {holds : σ → τ → Prop} {ok : τ → Prop} {backlog : τ → Nat}
  {size : Nat} {ended : τ → τ}

/-- The induction over the calls: what is left is what there was less the batches so far. -/
theorem after_spec (h : Batched call holds ok backlog size ended) {s : σ} {r : τ} (hs : holds s r)
    (hr : ok r) (n : Nat) :
    ∃ r', holds (after call n s) r' ∧ ok r' ∧ backlog r' = backlog r - n * size ∧
      ended r' = ended r := by
  induction n with
  | zero => exact ⟨r, hs, hr, by simp, rfl⟩
  | succ n ih =>
      obtain ⟨r', hs', hr', hleft, hend⟩ := ih
      obtain ⟨hcount, r'', hs'', hr'', hleft', hend'⟩ := h.batch hs' hr'
      refine ⟨r'', ?_, hr'', ?_, hend'.trans hend⟩
      · rwa [after_succ]
      · rw [hleft', hcount, hleft, Nat.add_mul, one_mul]
        omega

theorem drains (h : Batched call holds ok backlog size ended) (hsize : 1 ≤ size) {s : σ} {r : τ}
    (hs : holds s r) (hr : ok r) : Drains call holds backlog size s (ended r) := by
  constructor
  · intro n
    obtain ⟨r', hs', hr', -, -⟩ := h.after_spec hs hr n
    exact ⟨r', hs', (h.batch hs' hr').1⟩
  · refine ⟨backlog r, fun k hk => ?_⟩
    obtain ⟨r', hs', hr', hleft, hend⟩ := h.after_spec hs hr k
    have hnone : backlog r' = 0 := by
      have : k ≤ k * size := Nat.le_mul_of_pos_right k hsize
      omega
    refine ⟨?_, ?_⟩
    · rw [(h.batch hs' hr').1, hnone, Nat.min_zero]
    · rwa [← hend, h.done hr' hnone]

end Batched

end Queuefy
