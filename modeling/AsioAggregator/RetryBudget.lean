import AsioAggregator.Lifecycle

/-!
# The budget of retries

`retryCount` counts all failures that are to be retried, over the whole life of the connector: the
line of `start()` that would reset it is commented out. It counts consecutive failures only as long
as no WebSocket handshake has succeeded after a failure.
-/

namespace AsioAggregator

open Runs

/-- What the budget depends on: a retryable error of a connector that is not stopped, and a
WebSocket handshake that succeeds. -/
inductive Mark where
  | failure
  | success
deriving DecidableEq

def consecutive (marks : List Mark) : ℕ := (marks.reverse.takeWhile (· = .failure)).length

theorem consecutive_failure (marks : List Mark) :
    consecutive (marks ++ [.failure]) = consecutive marks + 1 := by
  simp [consecutive]

theorem consecutive_success (marks : List Mark) : consecutive (marks ++ [.success]) = 0 := by
  simp [consecutive]

def Recovered (marks : List Mark) : Prop := List.Sublist [.failure, .success] marks

theorem recovered_concat_iff (marks : List Mark) (m : Mark) :
    Recovered (marks ++ [m]) ↔ Recovered marks ∨ m = .success ∧ .failure ∈ marks := by
  unfold Recovered
  rw [← List.reverse_sublist, List.reverse_append, List.reverse_singleton, List.singleton_append,
    List.sublist_cons_iff]
  refine or_congr List.reverse_sublist ⟨?_, ?_⟩
  · rintro ⟨r, hr, hsub⟩
    obtain ⟨rfl, rfl⟩ := List.cons.inj hr
    exact ⟨rfl, by simpa using hsub⟩
  · rintro ⟨rfl, hmem⟩
    exact ⟨[.failure], rfl, by simpa using hmem⟩

theorem consecutive_eq_count_iff (marks : List Mark) :
    consecutive marks = marks.count .failure ↔ ¬ Recovered marks := by
  induction marks using List.reverseRecOn with
  | nil => simp [consecutive, Recovered]
  | append_singleton ms m ih =>
    cases m with
    | failure =>
      rw [consecutive_failure, List.count_append, recovered_concat_iff, not_or, ← ih]
      simp
    | success =>
      rw [consecutive_success, List.count_append, recovered_concat_iff, not_or]
      have hsub : .failure ∉ ms → ¬ Recovered ms :=
        fun hnot hs => hnot (hs.subset List.mem_cons_self)
      simpa [eq_comm, List.count_eq_zero] using hsub

def mark (stopped : Bool) (o : Outcome) (op : Operation) : Option Mark :=
  match failure o op with
  | some ec => if !stopped && shouldReconnect ec then some .failure else none
  | none => if op = .wsHandshake then some .success else none

variable {D : Type} [LinearOrder D]

def markOf (c : Connector D) : ConnectorEvent → Option Mark
  | .expire _ => none
  | .complete k o => c.pending[k]?.bind fun p => mark c.stopped o p.operation

def observeMarks (marks : List Mark) (c : Connector D) (e : ConnectorEvent) (_ : Connector D) :
    List Mark :=
  marks ++ (markOf c e).toList

variable [Zero D] [OfNumeral D]

abbrev markedStep (jsonParse : String → Except StdException Json) :
    Connector D × List Mark → ConnectorEvent → Option (Connector D × List Mark) :=
  withHistory (Connector.step jsonParse) observeMarks

variable {jsonParse : String → Except StdException Json} {c c' : Connector D}
variable {e : ConnectorEvent} {exchange : Exchange} {events : List ConnectorEvent}
variable {marks : List Mark}

theorem retryCount_handle {v v' : View D} {a : ℕ} {o : Outcome} {op : Operation}
    (h : v.handle jsonParse a o op = some v') :
    v'.retryCount = v.retryCount + (if mark v.stopped o op = some .failure then 1 else 0) := by
  unfold mark
  obtain ⟨ec, hf, hfail⟩ | ⟨hf, -, rfl⟩ | ⟨hf, -, b, -, rfl⟩ := View.handle_cases h
  · rw [hf]
    cases hstopped : v.stopped with
    | true =>
      rw [View.fail_of_stopped hstopped, Option.some.injEq] at hfail
      simp [hfail]
    | false =>
      obtain ⟨hec, rfl⟩ | ⟨hec, ⟨-, rfl⟩ | ⟨-, d, -, rfl⟩⟩ := View.fail_of_running hstopped hfail
      all_goals simp [hec]
  · rw [hf]
    by_cases hop : op = .wsHandshake <;> simp [hop, View.start]
  · rw [hf]
    by_cases hop : op = .wsHandshake <;> simp [hop, View.proceed]

theorem retryCount_step (hs : c.step jsonParse e = some c') :
    c'.retryCount = c.retryCount + (if markOf c e = some .failure then 1 else 0) := by
  cases e with
  | expire k => exact congrArg View.retryCount (Connector.step_expire hs)
  | complete k o =>
    obtain ⟨p, hp, -, hv⟩ := Connector.step_complete hs
    simp only [markOf, hp, Option.bind_some]
    exact retryCount_handle hv

/-- The counter holds the number of all failures so far. -/
theorem retryCount_run
    (hrun : run (markedStep jsonParse) (Connector.initial exchange, []) events = some (c, marks)) :
    c.retryCount = marks.count .failure := by
  refine invariant (I := fun p : Connector D × List Mark => p.1.retryCount = p.2.count .failure)
    ?_ ?_ hrun
  · exact congrArg View.retryCount (Connector.view_initial exchange)
  rintro ⟨t, ms⟩ e ⟨t', ms'⟩ ih hstep
  obtain ⟨hs, rfl⟩ := withHistory_eq_some.mp hstep
  have hretry := retryCount_step hs
  simp only at ih
  rw [hretry, ih, observeMarks, List.count_append]
  cases markOf t e with
  | none => simp
  | some m => cases m <;> simp

/-- A retryable failure uses the number of consecutive failures, itself included, at every moment
of the run, exactly when no handshake has ever succeeded between two failures. -/
theorem attempt_numbers_consecutive_iff (exchange : Exchange) (events : List ConnectorEvent) :
    EveryStep (markedStep jsonParse) ((Connector.initial exchange : Connector D), []) events
        (fun p e p' => markOf p.1 e = some .failure → p'.1.retryCount = 1 + consecutive p.2) ↔
      EveryStep (markedStep jsonParse) ((Connector.initial exchange : Connector D), []) events
        (fun p e _ => markOf p.1 e = some .failure → ¬ Recovered p.2) := by
  have hiff : ∀ pre t e t',
      run (markedStep jsonParse) ((Connector.initial exchange : Connector D), []) pre = some t →
      markedStep jsonParse t e = some t' → markOf t.1 e = some .failure →
      (t'.1.retryCount = 1 + consecutive t.2 ↔ ¬ Recovered t.2) := by
    rintro pre ⟨t, ms⟩ e ⟨t', ms'⟩ hpre hstep hmark
    obtain ⟨hs, -⟩ := withHistory_eq_some.mp hstep
    have hretry := retryCount_step hs
    rw [if_pos hmark, retryCount_run hpre] at hretry
    rw [← consecutive_eq_count_iff]
    simp only [hretry]
    omega
  constructor
  · intro h
    exact h.mono fun pre t e t' hpre hs hP hmark => (hiff pre t e t' hpre hs hmark).mp (hP hmark)
  · intro h
    exact h.mono fun pre t e t' hpre hs hP hmark => (hiff pre t e t' hpre hs hmark).mpr (hP hmark)

/-- A healthy session between two failures: the second failure counts as the second attempt. -/
theorem healthy_session_not_counted :
    ¬ EveryStep (markedStep (decodeTable [])) ((Connector.initial .binance : Connector ℚ), [])
      ([.complete 0 (.error .timedOut), .complete 0 (.success ""), .complete 0 (.success ""),
        .complete 0 (.success ""), .complete 0 (.success ""), .complete 1 (.success "")] ++
        .complete 1 (.error .eof) :: [])
      (fun p e p' => markOf p.1 e = some .failure → p'.1.retryCount = 1 + consecutive p.2) :=
  not_everyStep
    (B := fun p p' => markOf p.1 (.complete 1 (.error .eof)) = some .failure ∧
      p'.1.retryCount ≠ 1 + consecutive p.2)
    (fun p p' h => by simpa using h) (by decide +kernel)

end AsioAggregator
