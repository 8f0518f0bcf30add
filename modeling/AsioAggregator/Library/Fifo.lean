import AsioAggregator.Library.Runs

/-!
# Machines with a queue

Every event of the machine puts tasks at the end of a queue, and some events take the oldest task
out first. Along a run the queue is what was there and has been put in, less one task for each event
that takes one. So a task is served after just those that stood before it, whatever is put in later.
-/

namespace Runs

variable {σ ε τ : Type*} {step : σ → ε → Option σ} {s s' : σ} {events : List ε}

/-- The first element with which a count exceeds `k`. -/
theorem exists_split_of_lt_countP {p : ε → Bool} {k : ℕ} {l : List ε} (h : k < l.countP p) :
    ∃ pre e post, l = pre ++ e :: post ∧ p e = true ∧ pre.countP p = k := by
  induction l generalizing k with
  | nil => simp at h
  | cons x l ih =>
    by_cases hx : p x = true
    · rw [List.countP_cons_of_pos hx] at h
      cases k with
      | zero => exact ⟨[], x, l, rfl, hx, rfl⟩
      | succ k =>
        obtain ⟨pre, e, post, rfl, he, hpre⟩ := ih (Nat.lt_of_succ_lt_succ h)
        exact ⟨x :: pre, e, post, rfl, he, by rw [List.countP_cons_of_pos hx, hpre]⟩
    · rw [List.countP_cons_of_neg hx] at h
      obtain ⟨pre, e, post, rfl, he, hpre⟩ := ih h
      exact ⟨x :: pre, e, post, rfl, he, by rw [List.countP_cons_of_neg hx, hpre]⟩

/-- The tasks in `queue`, which the events `posts` and the events that satisfy `takes` serve. -/
structure Fifo (step : σ → ε → Option σ) (queue : σ → List τ) (posts : ε → List τ)
    (takes : ε → Bool) : Prop where
  keep : ∀ {s e s'}, step s e = some s' → takes e = false → queue s' = queue s ++ posts e
  serve : ∀ {s e s'}, step s e = some s' → takes e = true →
    ∃ task rest, queue s = task :: rest ∧ queue s' = rest ++ posts e

namespace Fifo
variable {queue : σ → List τ} {posts : ε → List τ} {takes : ε → Bool} {k : ℕ} {task : τ}

theorem queue_run (h : Fifo step queue posts takes) (hrun : run step s events = some s') :
    events.countP takes ≤ (queue s ++ events.flatMap posts).length ∧
      queue s' = (queue s ++ events.flatMap posts).drop (events.countP takes) := by
  refine history_invariant (I := fun events t =>
    events.countP takes ≤ (queue s ++ events.flatMap posts).length ∧
      queue t = (queue s ++ events.flatMap posts).drop (events.countP takes)) (by simp) ?_ hrun
  rintro es t e t' - ⟨hle, hqueue⟩ hs
  have hposts : queue s ++ (es ++ [e]).flatMap posts =
      (queue s ++ es.flatMap posts) ++ posts e := by simp
  rw [hposts, List.countP_append, List.countP_singleton, List.length_append]
  cases htakes : takes e with
  | false =>
    have hsame : es.countP takes + (if false = true then 1 else 0) = es.countP takes := rfl
    rw [h.keep hs htakes, hqueue, hsame, ← List.drop_append_of_le_length hle]
    exact ⟨Nat.le_add_right_of_le hle, rfl⟩
  | true =>
    obtain ⟨task, rest, hfirst, hrest⟩ := h.serve hs htakes
    rw [hfirst] at hqueue
    have hlt : es.countP takes < (queue s ++ es.flatMap posts).length := by
      by_contra hge
      rw [List.drop_of_length_le (Nat.le_of_not_lt hge)] at hqueue
      cases hqueue
    have htail : rest = (queue s ++ es.flatMap posts).drop (es.countP takes + 1) := by
      rw [← List.tail_drop, ← hqueue, List.tail_cons]
    rw [if_pos rfl, hrest, htail, List.drop_append_of_le_length hlt]
    exact ⟨by omega, rfl⟩

theorem getElem?_run (h : Fifo step queue posts takes) (hk : (queue s)[k]? = some task)
    (hrun : run step s events = some s') (hle : events.countP takes ≤ k) :
    (queue s')[k - events.countP takes]? = some task := by
  have hlt : k < (queue s).length := (List.getElem?_eq_some_iff.mp hk).1
  rw [(h.queue_run hrun).2, List.getElem?_drop, Nat.add_sub_cancel' hle,
    List.getElem?_append_left hlt, hk]

/-- A task is served when all that stood before it have been. -/
theorem served (h : Fifo step queue posts takes) (hk : (queue s)[k]? = some task)
    (hrun : run step s events = some s') (hlt : k < events.countP takes) :
    ∃ pre e post t t', events = pre ++ e :: post ∧ takes e = true ∧ pre.countP takes = k ∧
      run step s pre = some t ∧ (queue t).head? = some task ∧ step t e = some t' ∧
        run step t' post = some s' := by
  obtain ⟨pre, e, post, rfl, he, hpre⟩ := exists_split_of_lt_countP hlt
  obtain ⟨t, ht, hrest⟩ := run_append_eq_some.mp hrun
  obtain ⟨t', hs, hpost⟩ := run_cons_eq_some.mp hrest
  refine ⟨pre, e, post, t, t', rfl, he, hpre, ht, ?_, hs, hpost⟩
  have hhead := h.getElem?_run hk ht (Nat.le_of_eq hpre)
  rwa [hpre, Nat.sub_self, ← List.head?_eq_getElem?] at hhead

end Fifo
end Runs
