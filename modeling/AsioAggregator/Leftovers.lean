import AsioAggregator.Lifecycle

/-!
# Completions that a failed attempt left behind

`fail` does not tell the operations of its attempt apart from those of the next one. A leftover
completion is inert where its handler finds the connector stopped and looks at this, in `fail`, in
`do_ping` or in the handler of the ping timer. The handlers from `on_resolve` to `on_read` look at
it only after an error, so that a late success goes on as if nothing had failed.
-/

namespace AsioAggregator

open Runs

variable {D : Type} [LinearOrder D]

def Operation.ofAttempt : Operation → Bool
  | .close | .wait .reconnect _ => false
  | _ => true

/-- The operation belongs to an attempt that `fail` has retired. -/
def Leftover (c : Connector D) (p : Pending) : Prop :=
  p.operation.ofAttempt = true ∧
    (p.attempt < c.attempt ∨ p.attempt = c.attempt ∧ c.stopped = true)

/-- The completion changes nothing and starts nothing but the closing by the ping timer. -/
structure Inert (k : ℕ) (p : Pending) (c c' : Connector D) : Prop where
  localBooks : c'.localBooks = c.localBooks
  stopped : c'.stopped = c.stopped
  retryCount : c'.retryCount = c.retryCount
  attempt : c'.attempt = c.attempt
  operations : c'.view.operations = c.view.operations.eraseIdx k ∨
    (∃ d, p.operation = .wait .ping d) ∧
      c'.view.operations = c.view.operations.eraseIdx k ++ [(.close, p.attempt)]

/-- The handshake timer was cancelled, the ping timer was cancelled or the connector is stopped, or
an operation fails while the connector is stopped; after a ping it need not even fail. -/
def EndsQuietly (stopped : Bool) (o : Outcome) : Operation → Prop
  | .wait .handshake _ => o.ec = some .operationAborted ∨ stopped = true
  | .wait .ping _ => o.ec ≠ none ∨ stopped = true
  | .ping | .jsonPing => stopped = true
  | op => failure o op ≠ none ∧ stopped = true

theorem endsQuietly_iff_of_failure {stopped : Bool} {o : Outcome} {op : Operation} {ec : ErrorCode}
    (hop : op.ofAttempt = true) (hf : failure o op = some ec) :
    EndsQuietly stopped o op ↔ stopped = true := by
  have hne : failure o op ≠ none := by simp [hf]
  cases op with
  | wait timer d =>
    cases timer with
    | handshake =>
      have hec : o.ec ≠ some .operationAborted := by
        intro hec
        simp [failure, hec] at hf
      simp [EndsQuietly, hec]
    | ping => simp [failure] at hf
    | reconnect => simp [Operation.ofAttempt] at hop
  | close => simp [Operation.ofAttempt] at hop
  | ping => rfl
  | jsonPing => rfl
  | _ => exact and_iff_right hne

/-- Without a failure the end is quiet when nothing follows it, or only the closing. -/
theorem endsQuietly_iff_of_success (exchange : Exchange) {stopped : Bool} {o : Outcome}
    {op : Operation} (hop : op.ofAttempt = true) (hf : failure o op = none) :
    EndsQuietly stopped o op ↔ successors exchange stopped o op = [] ∨
      (∃ d, op = .wait .ping d) ∧ successors exchange stopped o op = [.close] := by
  cases op with
  | wait timer d =>
    cases timer with
    | handshake =>
      have hec : o.ec = some .operationAborted := by
        by_contra hec
        simp [failure, hec] at hf
      simp [EndsQuietly, successors, hec]
    | ping =>
      have hclose : pingOperation exchange ≠ .close := by cases exchange <;> decide
      simp only [EndsQuietly, successors]
      cases stopped <;> cases hec : o.ec <;> simp [hclose]
    | reconnect => simp [Operation.ofAttempt] at hop
  | close => simp [Operation.ofAttempt] at hop
  | ping => cases stopped <;> simp [EndsQuietly, successors, nextPing]
  | jsonPing => cases stopped <;> simp [EndsQuietly, successors, nextPing]
  | _ => simp [EndsQuietly, successors, hf]

variable [Zero D] [OfNumeral D] {jsonParse : String → Except StdException Json}
variable {c c' : Connector D} {k : ℕ} {o : Outcome} {p : Pending}

theorem received_of_quiet {v : View D} {op : Operation} {b : Books D}
    (h : v.received jsonParse o op = some b)
    (hquiet : successors v.exchange v.stopped o op = [] ∨
      (∃ d, op = .wait .ping d) ∧ successors v.exchange v.stopped o op = [.close]) :
    b = v.localBooks := by
  cases hh : handsOver o op with
  | false =>
    rw [View.received_of_idle op hh] at h
    exact (Option.some.inj h).symm
  | true =>
    cases op with
    | read => simp [successors] at hquiet
    | _ => simp [handsOver] at hh

omit [Zero D] [OfNumeral D] in
theorem inert_iff_of_fail {ec : ErrorCode} {jitter : Jitter}
    (hfail : (c.view.remove k).fail p.attempt ec jitter = some c'.view) :
    Inert k p c c' ↔ c.stopped = true := by
  constructor
  · intro hinert
    rw [← hinert.stopped]
    exact (View.fail_frame hfail).2.2.2
  · intro hstopped
    have hsame := (View.fail_of_stopped (v := c.view.remove k) hstopped).symm.trans hfail
    have hview : c'.view = c.view.remove k := (Option.some.inj hsame).symm
    exact {
      localBooks := congrArg View.localBooks hview
      stopped := congrArg View.stopped hview
      retryCount := congrArg View.retryCount hview
      attempt := congrArg View.attempt hview
      operations := Or.inl (congrArg View.operations hview) }

theorem inert_iff_of_proceed {b : Books D}
    (hb : (c.view.remove k).received jsonParse o p.operation = some b)
    (hnext : c'.view = (c.view.remove k).proceed p.attempt o p.operation b) :
    Inert k p c c' ↔ successors c.exchange c.stopped o p.operation = [] ∨
      (∃ d, p.operation = .wait .ping d) ∧
        successors c.exchange c.stopped o p.operation = [.close] := by
  have hops : c'.view.operations = c.view.operations.eraseIdx k ++
      (successors c.exchange c.stopped o p.operation).map fun op => (op, p.attempt) :=
    congrArg View.operations hnext
  constructor
  · intro hinert
    have hinj : Function.Injective fun op : Operation => (op, p.attempt) :=
      fun _ _ h => congrArg Prod.fst h
    rcases hinert.operations with hnone | ⟨hping, hclose⟩
    · rw [hnone, List.self_eq_append_right, List.map_eq_nil_iff] at hops
      exact Or.inl hops
    · rw [hclose] at hops
      exact Or.inr ⟨hping, hinj.list_map (List.append_cancel_left hops).symm⟩
  · intro hquiet
    have hbooks := received_of_quiet hb hquiet
    refine ⟨(congrArg View.localBooks hnext).trans hbooks, congrArg View.stopped hnext,
      congrArg View.retryCount hnext, congrArg View.attempt hnext, ?_⟩
    rcases hquiet with hnone | ⟨hping, hclose⟩
    · rw [hnone] at hops
      exact Or.inl (hops.trans (List.append_nil _))
    · rw [hclose] at hops
      exact Or.inr ⟨hping, hops⟩

theorem inert_iff (hop : p.operation.ofAttempt = true) (hp : c.pending[k]? = some p)
    (hs : c.step jsonParse (.complete k o) = some c') :
    Inert k p c c' ↔ EndsQuietly c.stopped o p.operation := by
  obtain ⟨p', hp', -, hv⟩ := Connector.step_complete hs
  obtain rfl : p' = p := Option.some.inj (hp'.symm.trans hp)
  obtain ⟨ec, hf, hfail⟩ | ⟨-, hr, -⟩ | ⟨hf, -, b, hb, hnext⟩ := View.handle_cases hv
  · rw [inert_iff_of_fail hfail, endsQuietly_iff_of_failure hop hf]
  · obtain ⟨⟨d, hd⟩, -⟩ := restarts_eq_true_iff.mp hr
    simp [hd, Operation.ofAttempt] at hop
  · rw [inert_iff_of_proceed hb hnext, endsQuietly_iff_of_success c.exchange hop hf]

/-- The leftovers of a run are inert exactly when all of them end quietly. -/
theorem leftovers_inert_iff (exchange : Exchange) (events : List ConnectorEvent) :
    EveryStep (Connector.step jsonParse) (Connector.initial exchange : Connector D) events
        (fun c e c' => OnCompletion c e fun k _ p => Leftover c p → Inert k p c c') ↔
      EveryStep (Connector.step jsonParse) (Connector.initial exchange : Connector D) events
        (fun c e _ => OnCompletion c e fun _ o p =>
          Leftover c p → EndsQuietly c.stopped o p.operation) := by
  constructor
  · intro h
    refine h.mono fun pre c e c' _ hs hinert k o p he hp hleft => ?_
    subst he
    exact (inert_iff hleft.1 hp hs).mp (hinert k o p rfl hp hleft)
  · intro h
    refine h.mono fun pre c e c' _ hs hquiet k o p he hp hleft => ?_
    subst he
    exact (inert_iff hleft.1 hp hs).mpr (hquiet k o p rfl hp hleft)

/-- The handshake times out and succeeds afterwards, which starts to read while the connector is
stopped. -/
theorem late_handshake_reads :
    ¬ EveryStep (Connector.step (decodeTable [])) (Connector.initial .binance : Connector ℚ)
      ([.complete 0 (.success ""), .complete 0 (.success ""), .complete 0 (.success ""), .expire 0,
        .complete 0 (.success "")] ++ .complete 0 (.success "") :: [])
      (fun c e c' => OnCompletion c e fun k _ p => Leftover c p → Inert k p c c') :=
  not_everyStep
    (B := fun c c' => c.pending[0]? = some ⟨.wsHandshake, 1, .outstanding⟩ ∧ c.attempt = 1 ∧
      c.stopped = true ∧ c'.pending.length = c.pending.length)
    (fun c c' h => by
      rw [decide_eq_false_iff_not]
      rintro ⟨hp, hattempt, hstopped, hlength⟩
      have hinert := h 0 _ _ rfl hp ⟨rfl, Or.inr ⟨hattempt.symm, hstopped⟩⟩
      obtain hnone | ⟨⟨d, hd⟩, -⟩ := hinert.operations
      · have hone := congrArg List.length hnone
        have hpos : 0 < c.pending.length := (List.getElem?_eq_some_iff.mp hp).1
        simp only [Connector.view, List.length_map, List.length_eraseIdx, hlength, hpos,
          if_true] at hone
        omega
      · cases hd)
    (by decide +kernel)

end AsioAggregator
