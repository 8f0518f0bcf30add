import AsioAggregator.Deadline
import AsioAggregator.Stranded

/-!
# The life of a connector as a whole

The counter of retries is never reset, so its budget is one for the whole life of the connector:
ten reconnects at most, each of which waits for the next of the capped delays, and so eleven
sessions. The life ends in one of three ways.
-/

namespace AsioAggregator

open Runs Tagged

def Operation.reconnectDelay? : Operation → Option ℤ
  | .wait .reconnect d => some d
  | _ => none

/-- The delays of the reconnects scheduled so far, and the attempts whose handshake succeeded. -/
structure Life where
  delays : List ℤ
  sessions : List ℕ

def Life.start : Life := ⟨[], []⟩

variable {D : Type} [LinearOrder D]

namespace View
variable {v v' : View D}

def delays (v : View D) : List ℤ := v.operations.filterMap fun x => x.1.reconnectDelay?

def connecting (v : View D) : ℕ := v.operations.countP fun x => x.1.beforeSession

theorem reconnectDelay?_eq_none {op : Operation} (h : op.isReconnectWait = false) :
    op.reconnectDelay? = none := by
  cases op with
  | wait timer d =>
    cases timer with
    | reconnect => cases h
    | handshake | ping => rfl
  | _ => rfl

theorem delays_eq_nil (h : v.operations.countP (fun x => x.1.isReconnectWait) = 0) :
    v.delays = [] := by
  refine List.filterMap_eq_nil_iff.mpr fun x hx => reconnectDelay?_eq_none ?_
  simpa using List.countP_eq_zero.mp h x hx

theorem countP_connecting_successors (exchange : Exchange) (stopped : Bool) (o : Outcome)
    (op : Operation) :
    (successors exchange stopped o op).countP Operation.beforeSession +
        (if op = .wsHandshake then 1 else 0) = if op.beforeSession then 1 else 0 := by
  have hnone : op.beforeSession = false ∨ op = .wsHandshake →
      (successors exchange stopped o op).countP Operation.beforeSession = 0 := by
    intro h
    refine List.countP_eq_zero.mpr fun op' hop' => ?_
    rw [beforeSession_of_mem_successors h hop']
    exact Bool.false_ne_true
  cases hbefore : op.beforeSession with
  | false =>
    have hne : op ≠ .wsHandshake := by
      rintro rfl
      cases hbefore
    rw [hnone (Or.inl hbefore), if_neg hne]
    rfl
  | true =>
    by_cases hop : op = .wsHandshake
    · rw [hnone (Or.inr hop), if_pos hop]
      rfl
    · cases op with
      | resolve | connect | sslHandshake => rfl
      | wsHandshake => exact absurd rfl hop
      | _ => cases hbefore

end View

/-- While the connector runs no reconnect is pending, so that any of them is new. -/
def observeLife (life : Life) (c : Connector D) (e : ConnectorEvent) (c' : Connector D) : Life where
  delays := life.delays ++ if c.stopped then [] else c'.view.delays
  sessions := life.sessions ++ (c.establishes e).toList

/-- What the counter allows. -/
structure Budgeted (c : Connector D) (life : Life) : Prop where
  scheduled : c.view.Scheduled
  count : life.delays.length = min c.retryCount maxRetry
  delay : ∀ k d, life.delays[k]? = some d → ∃ jitter, reconnectDelay (k + 1) jitter = some d
  attempts : c.attempt + c.view.operations.countP (fun x => x.1.isReconnectWait) ≤
    1 + life.delays.length
  sessions : life.sessions.length + c.view.connecting ≤ c.attempt

section Steps
variable {c c' : Connector D} {e : ConnectorEvent} {exchange : Exchange} {life life' : Life}
variable {events : List ConnectorEvent} {k a : ℕ} {o : Outcome} {p : Pending}

theorem establishes_of_failure {ec : ErrorCode} (hp : c.pending[k]? = some p)
    (hf : failure o p.operation = some ec) : c.establishes (.complete k o) = none := by
  refine Option.eq_none_iff_forall_ne_some.mpr fun a ha => ?_
  obtain ⟨hop, hec, -⟩ := (establishes_complete hp).mp ha
  rw [hop] at hf
  exact Option.some_ne_none _ (hf.symm.trans hec)

theorem length_establishes (hp : c.pending[k]? = some p) (hf : failure o p.operation = none) :
    (c.establishes (.complete k o)).toList.length =
      if p.operation = .wsHandshake then 1 else 0 := by
  by_cases hop : p.operation = .wsHandshake
  · have hec : o.ec = none := by rwa [hop] at hf
    rw [(establishes_complete hp).mpr ⟨hop, hec, rfl⟩, if_pos hop]
    rfl
  · have hnone : c.establishes (.complete k o) = none :=
      Option.eq_none_iff_forall_ne_some.mpr fun a ha => hop ((establishes_complete hp).mp ha).1
    rw [hnone, if_neg hop]
    rfl

theorem Budgeted.of_quiet (h : Budgeted c life) (hscheduled : c'.view.Scheduled)
    (hcount : min c'.retryCount maxRetry = min c.retryCount maxRetry)
    (hnew : c.stopped = false → c'.view.delays = [])
    (hattempts : c'.attempt + c'.view.operations.countP (fun x => x.1.isReconnectWait) ≤
      c.attempt + c.view.operations.countP fun x => x.1.isReconnectWait)
    (hsessions : c'.view.connecting + c.attempt + (c.establishes e).toList.length ≤
      c.view.connecting + c'.attempt) :
    Budgeted c' (observeLife life c e c') := by
  have hdelays : (observeLife life c e c').delays = life.delays := by
    cases hstopped : c.stopped with
    | true => simp [observeLife, hstopped]
    | false => simp [observeLife, hstopped, hnew hstopped]
  refine ⟨hscheduled, ?_, ?_, ?_, ?_⟩
  · rw [hdelays, h.count, hcount]
  · rw [hdelays]
    exact h.delay
  · rw [hdelays]
    exact hattempts.trans h.attempts
  · have hsessions' := h.sessions
    simp only [observeLife, List.length_append]
    omega

/-- A call of `fail` schedules the next of the delays, if it schedules any. -/
theorem Budgeted.fail {ec : ErrorCode} {jitter : Jitter} (h : Budgeted c life)
    (hscheduled : c'.view.Scheduled) (hnone : c.establishes e = none)
    (hfail : (c.view.remove k).fail a ec jitter = some c'.view) :
    Budgeted c' (observeLife life c e c') := by
  have hwaits := (List.eraseIdx_sublist c.view.operations k).countP_le
    (p := fun x => x.1.isReconnectWait)
  have hstages : (c.view.operations.eraseIdx k).countP (fun x => x.1.beforeSession) ≤
      c.view.connecting := (List.eraseIdx_sublist c.view.operations k).countP_le
  have hattempt : c'.attempt = c.attempt := (View.fail_frame hfail).2.2.1
  by_cases hstopped : c.stopped = true
  · have hsame : c.view.remove k = c'.view :=
      Option.some.inj ((View.fail_of_stopped hstopped).symm.trans hfail)
    have hretry : c'.retryCount = c.retryCount := (congrArg View.retryCount hsame).symm
    refine h.of_quiet hscheduled (by rw [hretry]) (fun hrunning => ?_) ?_ ?_
    · exact absurd (hrunning.symm.trans hstopped) Bool.false_ne_true
    · rw [hattempt, ← hsame]
      exact Nat.add_le_add_left hwaits _
    · rw [hattempt, ← hsame, hnone]
      exact Nat.add_le_add_right hstages _
  have hrunning : c.stopped = false := by simpa using hstopped
  have hzero := h.scheduled.countP_of_running hrunning
  have hretry : c.retryCount ≤ 10 := h.scheduled.running hrunning
  have hzero' := Nat.le_zero.mp (hwaits.trans hzero.le)
  obtain ⟨-, hv⟩ | ⟨-, ⟨hmax, hv⟩ | ⟨hmax, d, hd, hv⟩⟩ := View.fail_of_running hrunning hfail
  · have hretry' : c'.retryCount = c.retryCount := congrArg View.retryCount hv
    refine h.of_quiet hscheduled (by rw [hretry']) (fun _ => ?_) ?_ ?_
    · rw [hv]
      exact View.delays_eq_nil hzero'
    · rw [hattempt, hv]
      exact Nat.add_le_add_left hwaits _
    · rw [hattempt, hv, hnone]
      exact Nat.add_le_add_right hstages _
  · have hretry' : c'.retryCount = c.retryCount + 1 := congrArg View.retryCount hv
    have hfull : 10 < c.retryCount + 1 := hmax
    refine h.of_quiet hscheduled ?_ (fun _ => ?_) ?_ ?_
    · rw [hretry', maxRetry]
      omega
    · rw [hv]
      exact View.delays_eq_nil hzero'
    · rw [hattempt, hv]
      exact Nat.add_le_add_left hwaits _
    · rw [hattempt, hv, hnone]
      exact Nat.add_le_add_right hstages _
  · have hretry' : c'.retryCount = c.retryCount + 1 := congrArg View.retryCount hv
    have hroom : c.retryCount + 1 ≤ 10 := hmax
    have hnew : c'.view.delays = [d] := by
      have hold := View.delays_eq_nil (v := c.view.remove k) hzero'
      rw [View.delays] at hold
      rw [hv, View.delays, List.filterMap_append, hold]
      rfl
    have hdelays : (observeLife life c e c').delays = life.delays ++ [d] := by
      simp [observeLife, hrunning, hnew]
    have hlength : life.delays.length = c.retryCount := by
      rw [h.count, maxRetry]
      omega
    refine ⟨hscheduled, ?_, fun i d' hd' => ?_, ?_, ?_⟩
    · rw [hdelays, List.length_append, hlength, hretry', maxRetry]
      exact (Nat.min_eq_left hroom).symm
    · rw [hdelays] at hd'
      rcases Nat.lt_or_ge i life.delays.length with hlt | hge
      · rw [List.getElem?_append_left hlt] at hd'
        exact h.delay i d' hd'
      · rw [List.getElem?_append_right hge] at hd'
        obtain ⟨hi, rfl⟩ : i = life.delays.length ∧ d = d' := by
          have hlt := (List.getElem?_eq_some_iff.mp hd').1
          obtain rfl : i = life.delays.length := by
            simp at hlt
            omega
          exact ⟨rfl, by simpa using hd'⟩
        rw [hi, hlength]
        exact ⟨jitter, hd⟩
    · have hattempts := h.attempts
      have hone : c'.view.operations.countP (fun x => x.1.isReconnectWait) = 1 := by
        rw [hv, List.countP_append]
        exact congrArg (· + 1) hzero'
      rw [hdelays, hattempt, hone, List.length_append, List.length_singleton]
      omega
    · have hsessions := h.sessions
      have hsame : c'.view.connecting =
          (c.view.operations.eraseIdx k).countP fun x => x.1.beforeSession := by
        rw [hv, View.connecting, List.countP_append]
        rfl
      rw [hattempt, hsame]
      simp only [observeLife, hnone, Option.toList_none, List.append_nil]
      omega

variable [Zero D] [OfNumeral D] {jsonParse : String → Except StdException Json}

theorem budgeted_step (h : Budgeted c life) (hs : c.step jsonParse e = some c') :
    Budgeted c' (observeLife life c e c') := by
  have hscheduled := scheduled_step h.scheduled hs
  cases e with
  | expire k =>
    have hv := Connector.step_expire hs
    have hattempt : c'.attempt = c.attempt := congrArg View.attempt hv
    have hretry : c'.retryCount = c.retryCount := congrArg View.retryCount hv
    refine h.of_quiet hscheduled (by rw [hretry]) (fun hrunning => ?_) ?_ ?_
    · rw [hv]
      exact View.delays_eq_nil (h.scheduled.countP_of_running hrunning)
    · rw [hv, hattempt]
    · rw [hv, hattempt]
      exact Nat.le_refl _
  | complete k o =>
    obtain ⟨p, hp, -, hv⟩ := Connector.step_complete hs
    have hk := Connector.view_getElem? hp
    have hwaits := (List.eraseIdx_sublist c.view.operations k).countP_le
      (p := fun x => x.1.isReconnectWait)
    obtain ⟨ec, hf, hfail⟩ | ⟨hf, hr, hstart⟩ | ⟨hf, -, b, -, hb⟩ := View.handle_cases hv
    · exact h.fail hscheduled (establishes_of_failure hp hf) hfail
    · obtain ⟨⟨d, hd⟩, -⟩ := restarts_eq_true_iff.mp hr
      have hstopped : c.stopped = true := (h.scheduled.start (hd ▸ hk)).2
      have hattempt : c'.attempt = c.attempt + 1 := congrArg View.attempt hstart
      have hretry : c'.retryCount = c.retryCount := congrArg View.retryCount hstart
      have hbefore := countP_eraseIdx hk fun x => x.1.isReconnectWait
      have hstages := countP_eraseIdx hk fun x => x.1.beforeSession
      have hlength := length_establishes hp hf
      refine h.of_quiet hscheduled (by rw [hretry]) (fun hrunning => ?_) ?_ ?_
      · exact absurd (hrunning.symm.trans hstopped) Bool.false_ne_true
      · rw [hstart, hattempt, hbefore, hd]
        simp [View.start, View.remove, Operation.isReconnectWait]
        omega
      · rw [hlength, hstart, hattempt, View.connecting, View.connecting, hstages, hd]
        simp [View.start, View.remove, Operation.beforeSession]
        omega
    · have hattempt : c'.attempt = c.attempt := congrArg View.attempt hb
      have hretry : c'.retryCount = c.retryCount := congrArg View.retryCount hb
      have hnone := View.countP_successors c.exchange c.stopped o p.operation
      have hstage := View.countP_connecting_successors c.exchange c.stopped o p.operation
      have hstages := countP_eraseIdx hk fun x => x.1.beforeSession
      have hcount : c'.view.operations.countP (fun x => x.1.isReconnectWait) ≤
          c.view.operations.countP fun x => x.1.isReconnectWait := by
        rw [hb]
        simp only [View.proceed, View.remove, List.countP_append, countP_map_tag]
        exact (Nat.add_le_add hwaits hnone.le)
      refine h.of_quiet hscheduled (by rw [hretry]) (fun hrunning => ?_) ?_ ?_
      · refine View.delays_eq_nil (Nat.le_zero.mp (hcount.trans ?_))
        exact (h.scheduled.countP_of_running hrunning).le
      · rw [hattempt]
        exact Nat.add_le_add_left hcount _
      · rw [length_establishes hp hf, hattempt, hb]
        simp only [View.connecting, View.proceed, View.remove, List.countP_append, countP_map_tag]
        rw [hstages]
        dsimp only
        have hexchange : c.view.exchange = c.exchange := rfl
        have hstopped : c.view.stopped = c.stopped := rfl
        rw [hexchange, hstopped]
        omega

omit [Zero D] [OfNumeral D] in
theorem budgeted_initial : Budgeted (Connector.initial exchange : Connector D) .start where
  scheduled := scheduled_initial
  count := rfl
  delay k d hd := by cases hd
  attempts := Nat.le_refl _
  sessions := Nat.le_refl _

theorem budgeted_run
    (hrun : run (withHistory (Connector.step jsonParse) observeLife)
      ((Connector.initial exchange : Connector D), .start) events = some (c, life)) :
    Budgeted c life := by
  refine invariant (I := fun x : Connector D × Life => Budgeted x.1 x.2) budgeted_initial ?_ hrun
  rintro ⟨t, l⟩ e ⟨t', l'⟩ h hstep
  obtain ⟨hs, rfl⟩ := withHistory_eq_some.mp hstep
  exact budgeted_step h hs

theorem reconnectDelay_within {k : ℕ} {jitter : Jitter} {d : ℤ} (hk : k + 1 ≤ 22)
    (h : reconnectDelay (k + 1) jitter = some d) :
    d = ⌊(cappedBackoffMs (k + 1) : ℚ) * jitter.value⌋ ∧ 4 * cappedBackoffMs (k + 1) ≤ 5 * d ∧
      5 * d ≤ 6 * cappedBackoffMs (k + 1) := by
  obtain ⟨d', hd', -, -, hformula⟩ := reconnectDelay_eq hk jitter
  obtain rfl : d' = d := Option.some.inj (hd'.symm.trans h)
  have hd : d' = ⌊(cappedBackoffMs (k + 1) : ℚ) * jitter.value⌋ := hformula
  obtain ⟨q, hq⟩ : ∃ q, cappedBackoffMs (k + 1) = 5 * q := by
    refine ⟨min (200 * 2 ^ k) 6000, ?_⟩
    rw [cappedBackoffMs, Nat.add_sub_cancel]
    omega
  have hpos : 0 ≤ cappedBackoffMs (k + 1) := by
    have hlow := (cappedBackoffMs_bounds (k + 1)).1
    omega
  have hpos' : (0 : ℚ) ≤ cappedBackoffMs (k + 1) := by exact_mod_cast hpos
  refine ⟨hd, ?_, ?_⟩
  · have hlow : 4 * q ≤ d' := by
      rw [hd, Int.le_floor, hq]
      push_cast
      have hq' : (0 : ℚ) ≤ q := by
        rw [hq] at hpos'
        push_cast at hpos'
        linarith
      nlinarith [jitter.lower]
    omega
  · have hhigh : (d' : ℚ) ≤ cappedBackoffMs (k + 1) * jitter.value := by
      rw [hd]
      exact Int.floor_le _
    have hscaled : (5 * d' : ℚ) ≤ 6 * cappedBackoffMs (k + 1) := by
      nlinarith [jitter.upper]
    exact_mod_cast hscaled

theorem sum_within {f : ℕ → ℤ} {delays : List ℤ}
    (h : ∀ k d, delays[k]? = some d → 4 * f k ≤ 5 * d ∧ 5 * d ≤ 6 * f k) :
    4 * ((List.range delays.length).map f).sum ≤ 5 * delays.sum ∧
      5 * delays.sum ≤ 6 * ((List.range delays.length).map f).sum := by
  induction delays using List.reverseRecOn with
  | nil => simp
  | append_singleton ds d ih =>
    have hlast := h ds.length d (by simp)
    have hbefore := ih fun k d' hd' => by
      refine h k d' ?_
      rw [List.getElem?_append_left (List.getElem?_eq_some_iff.mp hd').1]
      exact hd'
    simp only [List.length_append, List.length_singleton, List.range_succ, List.map_append,
      List.map_singleton, List.sum_append, List.sum_singleton]
    omega

/-- However long the connector lives and however many of its sessions were healthy, it makes ten
reconnects and eleven sessions at most, and the k-th reconnect waits for the k-th delay. -/
theorem life_is_bounded
    (hrun : run (withHistory (Connector.step jsonParse) observeLife)
      ((Connector.initial exchange : Connector D), .start) events = some (c, life)) :
    life.sessions.length ≤ c.attempt ∧ c.attempt ≤ 1 + life.delays.length ∧
      life.delays.length = min c.retryCount 10 ∧
      (∀ k d, life.delays[k]? = some d → ∃ jitter : Jitter,
        d = ⌊((min (1000 * 2 ^ k) 30000 : ℤ) : ℚ) * jitter.value⌋) ∧
      life.delays.sum ≤ 217200 ∧ (10 ≤ c.retryCount → 144800 ≤ life.delays.sum) := by
  have h := budgeted_run hrun
  have hlength : life.delays.length = min c.retryCount 10 := h.count
  have hten : life.delays.length ≤ 10 := hlength.trans_le (Nat.min_le_right _ _)
  have hdelay : ∀ k d, life.delays[k]? = some d → ∃ jitter : Jitter,
      d = ⌊(cappedBackoffMs (k + 1) : ℚ) * jitter.value⌋ ∧ 4 * cappedBackoffMs (k + 1) ≤ 5 * d ∧
        5 * d ≤ 6 * cappedBackoffMs (k + 1) := by
    intro k d hd
    obtain ⟨jitter, hjitter⟩ := h.delay k d hd
    have hlt := (List.getElem?_eq_some_iff.mp hd).1
    exact ⟨jitter, reconnectDelay_within (by omega) hjitter⟩
  obtain ⟨hlow, hhigh⟩ := sum_within fun k d hd => by
    obtain ⟨-, -, hbounds⟩ := hdelay k d hd
    exact hbounds
  have hmost : ∀ n ≤ 10, ((List.range n).map fun k => cappedBackoffMs (k + 1)).sum ≤ 181000 := by
    decide
  have hall : ((List.range 10).map fun k => cappedBackoffMs (k + 1)).sum = 181000 := by decide
  refine ⟨?_, ?_, hlength, fun k d hd => ?_, ?_, fun hfull => ?_⟩
  · exact (Nat.le_add_right _ _).trans h.sessions
  · exact (Nat.le_add_right _ _).trans h.attempts
  · obtain ⟨jitter, hd', -⟩ := hdelay k d hd
    exact ⟨jitter, hd'⟩
  · have hsum := hmost _ hten
    omega
  · have hfull' : life.delays.length = 10 := hlength.trans (Nat.min_eq_right hfull)
    rw [hfull', hall] at hlow
    omega

end Steps

theorem life_is_bounded_example :
    ∃ (c : Connector ℚ) (life : Life),
      run (withHistory (Connector.step (decodeTable [])) observeLife)
        (Connector.initial .binance, .start)
        [.complete 0 (.success ""), .complete 0 (.success ""), .complete 0 (.success ""),
          .complete 1 (.success ""), .complete 1 (.error .eof)] = some (c, life) ∧
      life = ⟨[1000], [1]⟩ ∧ life.delays.sum ≤ 217200 := by
  obtain ⟨⟨c, life⟩, hrun, hlife⟩ := exists_of_run_any
    (P := fun x : Connector ℚ × Life => x.2.delays = [1000] ∧ x.2.sessions = [1])
    (show (run (withHistory (Connector.step (decodeTable [])) observeLife)
      ((Connector.initial .binance : Connector ℚ), .start)
      [.complete 0 (.success ""), .complete 0 (.success ""), .complete 0 (.success ""),
        .complete 1 (.success ""), .complete 1 (.error .eof)]).any _ = true by decide +kernel)
  obtain ⟨-, -, -, -, hsum, -⟩ := life_is_bounded hrun
  obtain ⟨delays, sessions⟩ := life
  obtain ⟨rfl, rfl⟩ := hlife
  exact ⟨c, _, hrun, rfl, hsum⟩

/-- A fatal error, a failure beyond the budget, or a reconnect whose wait ended with an error. -/
inductive Ending where
  | fatal (ec : ErrorCode)
  | exhausted
  | abandoned
deriving DecidableEq

def Connector.ends (c : Connector D) : ConnectorEvent → Option Ending
  | .expire _ => none
  | .complete k o => c.pending[k]?.bind fun p =>
    match failure o p.operation with
    | some ec =>
      if c.stopped then none
      else if !shouldReconnect ec then some (.fatal ec)
      else if c.retryCount + 1 > maxRetry then some .exhausted
      else none
    | none => if p.operation.isReconnectWait && o.ec.isSome then some .abandoned else none

def observeEnds (endings : List Ending) (c : Connector D) (e : ConnectorEvent)
    (_ : Connector D) : List Ending :=
  endings ++ (c.ends e).toList

/-- What the end of an operation means for the life of the connector. -/
structure EndsLife (c c' : Connector D) (ending : Option Ending) : Prop where
  last : c.view.GivenUp → ending = none
  givenUp : c'.view.GivenUp ↔ c.view.GivenUp ∨ ending ≠ none
  budget : c'.retryCount = maxRetry + 1 ↔ c.retryCount = maxRetry + 1 ∨ ending = some .exhausted

section Ends
variable {c c' : Connector D} {e : ConnectorEvent} {exchange : Exchange} {endings : List Ending}
variable {events : List ConnectorEvent} {k a : ℕ} {o : Outcome} {p : Pending}

theorem EndsLife.of_same (hretry : c'.retryCount = c.retryCount)
    (hgiven : c'.view.GivenUp ↔ c.view.GivenUp) : EndsLife c c' none where
  last _ := rfl
  givenUp := by simp [hgiven]
  budget := by simp [hretry]

theorem View.givenUp_congr {v v' : View D} (hstopped : v'.stopped = v.stopped)
    (hcount : v'.operations.countP (fun x => x.1.isReconnectWait) =
      v.operations.countP fun x => x.1.isReconnectWait) : v'.GivenUp ↔ v.GivenUp := by
  constructor
  · exact fun h => ⟨hstopped.symm.trans h.stopped, hcount.symm.trans h.noReconnect⟩
  · exact fun h => ⟨hstopped.trans h.stopped, hcount.trans h.noReconnect⟩

theorem ends_fail {ec : ErrorCode} (h : c.view.Scheduled) (hp : c.pending[k]? = some p)
    (hf : failure o p.operation = some ec)
    (hfail : (c.view.remove k).fail a ec o.jitter = some c'.view) :
    EndsLife c c' (c.ends (.complete k o)) := by
  have hwait : p.operation.isReconnectWait = false := by
    by_contra hwait
    obtain ⟨d, hd⟩ := View.isReconnectWait_iff.mp (by simpa using hwait)
    rw [hd] at hf
    cases hf
  have hcount : (c.view.remove k).operations.countP (fun x => x.1.isReconnectWait) =
      c.view.operations.countP fun x => x.1.isReconnectWait := by
    rw [countP_eraseIdx (Connector.view_getElem? hp), if_neg (by simp [hwait])]
    rfl
  cases hstopped : c.stopped with
  | true =>
    have hsame : c.view.remove k = c'.view :=
      Option.some.inj ((View.fail_of_stopped hstopped).symm.trans hfail)
    have hnone : c.ends (.complete k o) = none := by simp [Connector.ends, hp, hf, hstopped]
    rw [hnone]
    refine EndsLife.of_same (congrArg View.retryCount hsame).symm ?_
    rw [← hsame]
    exact View.givenUp_congr rfl hcount
  | false =>
    have hrunning : ¬ c.view.GivenUp := fun hgiven =>
      Bool.false_ne_true (hstopped.symm.trans hgiven.stopped)
    have hzero := hcount.trans (h.countP_of_running hstopped)
    have hretry : c.retryCount ≤ maxRetry := h.running hstopped
    obtain ⟨hec, hv⟩ | ⟨hec, ⟨hmax, hv⟩ | ⟨hmax, d, -, hv⟩⟩ :=
      View.fail_of_running hstopped hfail
    · have hending : c.ends (.complete k o) = some (.fatal ec) := by
        simp [Connector.ends, hp, hf, hstopped, hec]
      have hretry' : c'.retryCount = c.retryCount := congrArg View.retryCount hv
      rw [hending]
      refine ⟨fun hgiven => absurd hgiven hrunning, ?_, by simp [hretry']⟩
      exact iff_of_true (hv ▸ ⟨rfl, hzero⟩) (Or.inr (Option.some_ne_none _))
    · have hmax' : c.retryCount + 1 > maxRetry := hmax
      have hending : c.ends (.complete k o) = some .exhausted := by
        simp [Connector.ends, hp, hf, hstopped, hec, hmax']
      have hretry' : c'.retryCount = c.retryCount + 1 := congrArg View.retryCount hv
      rw [hending]
      refine ⟨fun hgiven => absurd hgiven hrunning, ?_, ?_⟩
      · exact iff_of_true (hv ▸ ⟨rfl, hzero⟩) (Or.inr (Option.some_ne_none _))
      · exact iff_of_true (by omega) (Or.inr rfl)
    · have hroom : ¬ c.retryCount + 1 > maxRetry := not_lt.mpr hmax
      have hending : c.ends (.complete k o) = none := by
        simp [Connector.ends, hp, hf, hstopped, hec, hroom]
      have hretry' : c'.retryCount = c.retryCount + 1 := congrArg View.retryCount hv
      rw [hending]
      refine ⟨fun _ => rfl, ?_, ?_⟩
      · refine iff_of_false (fun hgiven => ?_) (by simp [hrunning])
        have hnone := hgiven.noReconnect
        rw [hv, List.countP_append] at hnone
        simp [Operation.isReconnectWait] at hnone
      · have hne : ¬ c.retryCount = maxRetry + 1 := by omega
        have hne' : ¬ c'.retryCount = maxRetry + 1 := by omega
        simp [hne, hne']

variable [Zero D] [OfNumeral D] {jsonParse : String → Except StdException Json}

theorem ends_step (h : c.view.Scheduled) (hs : c.step jsonParse e = some c') :
    EndsLife c c' (c.ends e) := by
  cases e with
  | expire k =>
    have hv := Connector.step_expire hs
    exact EndsLife.of_same (congrArg View.retryCount hv) (by rw [hv])
  | complete k o =>
    obtain ⟨p, hp, -, hv⟩ := Connector.step_complete hs
    have hk := Connector.view_getElem? hp
    have hcount := countP_eraseIdx hk fun x => x.1.isReconnectWait
    obtain ⟨ec, hf, hfail⟩ | ⟨hf, hr, hstart⟩ | ⟨hf, hr, b, -, hb⟩ := View.handle_cases hv
    · exact ends_fail h hp hf hfail
    · obtain ⟨⟨d, hd⟩, hec⟩ := restarts_eq_true_iff.mp hr
      have hnone : c.ends (.complete k o) = none := by simp [Connector.ends, hp, hf, hec]
      rw [hnone]
      refine EndsLife.of_same (congrArg View.retryCount hstart) (iff_of_false ?_ ?_)
      · intro hgiven
        have hrunning : c'.view.stopped = false := congrArg View.stopped hstart
        exact Bool.false_ne_true (hrunning.symm.trans hgiven.stopped)
      · intro hgiven
        have hnone' := hgiven.noReconnect
        rw [hcount, hd] at hnone'
        simp [Operation.isReconnectWait] at hnone'
    · have hretry : c'.retryCount = c.retryCount := congrArg View.retryCount hb
      have hsame : c'.view.stopped = c.view.stopped := by
        rw [hb]
        rfl
      have hcount' : c'.view.operations.countP (fun x => x.1.isReconnectWait) =
          (c.view.operations.eraseIdx k).countP fun x => x.1.isReconnectWait := by
        rw [hb]
        simp only [View.proceed, View.remove, List.countP_append, countP_map_tag]
        rw [View.countP_successors, Nat.add_zero]
      cases hwait : p.operation.isReconnectWait with
      | false =>
        have hnone : c.ends (.complete k o) = none := by simp [Connector.ends, hp, hf, hwait]
        rw [hnone]
        refine EndsLife.of_same hretry (View.givenUp_congr hsame ?_)
        rw [hcount', hcount, if_neg (by simp [hwait])]
        rfl
      | true =>
        obtain ⟨d, hd⟩ := View.isReconnectWait_iff.mp hwait
        have hec : o.ec.isSome = true := by
          cases hec : o.ec with
          | some ec => rfl
          | none => simp [restarts, hd, hec] at hr
        have hending : c.ends (.complete k o) = some .abandoned := by
          simp [Connector.ends, hp, hf, hwait, hec]
        have hone := h.one
        rw [hcount, if_pos hwait] at hone
        rw [hending]
        refine ⟨fun hgiven => ?_, ?_, by simp [hretry]⟩
        · have hnone := hgiven.noReconnect
          rw [hcount, if_pos hwait] at hnone
          omega
        · refine iff_of_true ⟨?_, ?_⟩ (Or.inr (Option.some_ne_none _))
          · rw [hsame]
            exact (h.armed d p.attempt (hd ▸ List.mem_of_getElem? hk)).1
          · rw [hcount']
            omega

/-- A connector that runs has an operation of its current attempt on the way to the next message. -/
def View.Attentive (v : View D) : Prop :=
  v.stopped = false → ∃ op, (op, v.attempt) ∈ v.operations ∧ op.inReadChain = true

theorem attentive_step (h : c.view.Attentive) (hs : c.step jsonParse e = some c') :
    c'.view.Attentive := by
  cases e with
  | expire k => exact Connector.step_expire hs ▸ h
  | complete k o =>
    obtain ⟨p, hp, -, hv⟩ := Connector.step_complete hs
    have hk := Connector.view_getElem? hp
    intro hrunning
    obtain ⟨ec, -, hfail⟩ | ⟨-, -, hstart⟩ | ⟨-, -, b, -, hb⟩ := View.handle_cases hv
    · have hstopped := (View.fail_frame hfail).2.2.2
      exact absurd (hrunning.symm.trans hstopped) Bool.false_ne_true
    · rw [hstart]
      exact ⟨.resolve, List.mem_append_right _ (List.mem_singleton_self _), rfl⟩
    · rw [hb] at hrunning ⊢
      obtain ⟨op, hop, hchain⟩ := h hrunning
      obtain ⟨i, hi⟩ := List.mem_iff_getElem?.mp hop
      by_cases hik : i = k
      · -- the operation itself has ended, and the next one is on behalf of the same attempt
        rw [hik, hk, Option.some.injEq, Prod.mk.injEq] at hi
        obtain ⟨hsame, hattempt⟩ := hi
        obtain ⟨op', hop', hchain'⟩ :=
          exists_successor_inReadChain c.exchange c.stopped o (hsame ▸ hchain)
        refine ⟨op', List.mem_append_right _ ?_, hchain'⟩
        exact List.mem_map.mpr ⟨op', hop', Prod.ext rfl hattempt⟩
      · have hmem : (op, c.view.attempt) ∈ c.view.operations.eraseIdx k :=
          List.mem_eraseIdx_iff_getElem?.mpr ⟨i, hik, hi⟩
        exact ⟨op, List.mem_append_left _ hmem, hchain⟩

theorem attentive_run
    (hrun : run (Connector.step jsonParse) (Connector.initial exchange) events = some c) :
    c.view.Attentive := by
  refine invariant (I := fun c : Connector D => c.view.Attentive) (fun _ => ?_)
    (fun _ _ _ h hs => attentive_step h hs) hrun
  rw [Connector.view_initial]
  exact ⟨.resolve, List.mem_singleton_self _, rfl⟩

def Connector.readChain (c : Connector D) : List Pending :=
  c.pending.filter fun p => p.operation.inReadChain && p.attempt = c.attempt

/-- A connector runs, with one operation of its attempt on the way to the next message, or waits for
its only reconnect, or has been given up; the last once and for all, for one of three reasons. -/
theorem life_ends_once
    (hrun : run (withHistory (Connector.step jsonParse) observeEnds)
      ((Connector.initial exchange : Connector D), []) events = some (c, endings)) :
    endings.length ≤ 1 ∧
      (endings ≠ [] ↔ c.stopped = true ∧ c.reconnectWaits = []) ∧
      (endings = [] → c.stopped = false ∧ c.readChain.length = 1 ∨
        c.stopped = true ∧ c.reconnectWaits.length = 1) ∧
      (.exhausted ∈ endings ↔ c.retryCount = 11) := by
  have hI : endings.length ≤ 1 ∧ (c.view.GivenUp ↔ endings ≠ []) ∧
      (c.retryCount = 11 ↔ .exhausted ∈ endings) := by
    refine history_invariant (I := fun es (x : Connector D × List Ending) => x.2.length ≤ 1 ∧
      (x.1.view.GivenUp ↔ x.2 ≠ []) ∧ (x.1.retryCount = 11 ↔ .exhausted ∈ x.2)) ?_ ?_ hrun
    · refine ⟨Nat.zero_le _, iff_of_false (fun hgiven => ?_) (by simp), by simp [Connector.initial,
        Connector.start, Connector.cancel, Connector.initiate]⟩
      exact Bool.false_ne_true hgiven.stopped
    rintro es ⟨t, ends⟩ e ⟨t', ends'⟩ hes ⟨hlength, hgiven, hretry⟩ hstep
    obtain ⟨hs, rfl⟩ := withHistory_eq_some.mp hstep
    have hends := ends_step (scheduled_run (run_of_withHistory hes)) hs
    have hbudget : t'.retryCount = 11 ↔ t.retryCount = 11 ∨ t.ends e = some .exhausted :=
      hends.budget
    simp only [observeEnds] at hgiven hlength hretry ⊢
    refine ⟨?_, ?_, ?_⟩
    · cases hending : t.ends e with
      | none => simpa using hlength
      | some ending =>
        have hempty : ends = [] := by
          by_contra hne
          have hnone := hends.last (hgiven.mpr hne)
          exact Option.some_ne_none _ (hending.symm.trans hnone)
        simp [hempty]
    · rw [hends.givenUp, hgiven]
      cases t.ends e <;> simp
    · rw [hbudget, hretry, List.mem_append, Option.mem_toList]
  obtain ⟨hlength, hgiven, hretry⟩ := hI
  have hwaits : c.view.operations.countP (fun x => x.1.isReconnectWait) = 0 ↔
      c.reconnectWaits = [] := by
    rw [← List.length_eq_zero_iff, Connector.length_reconnectWaits]
  have hiff : c.view.GivenUp ↔ c.stopped = true ∧ c.reconnectWaits = [] :=
    ⟨fun h => ⟨h.stopped, hwaits.mp h.noReconnect⟩, fun h => ⟨h.1, hwaits.mpr h.2⟩⟩
  refine ⟨hlength, hgiven.symm.trans hiff, fun hnil => ?_, hretry.symm⟩
  have hreach := run_of_withHistory hrun
  cases hstopped : c.stopped with
  | false =>
    refine Or.inl ⟨rfl, Nat.le_antisymm ?_ ?_⟩
    · have honce := (single_run readChain_neverMultiplies hreach).once c.attempt
      rwa [count, Connector.view, List.countP_map, List.countP_eq_length_filter] at honce
    · obtain ⟨op, hop, hchain⟩ := attentive_run hreach hstopped
      obtain ⟨p, hp, heq⟩ := List.mem_map.mp hop
      obtain ⟨rfl, htag⟩ := Prod.mk.inj heq
      have hattempt : p.attempt = c.attempt := htag
      refine List.length_pos_iff.mpr (List.ne_nil_of_mem (List.mem_filter.mpr ⟨hp, ?_⟩))
      simp [hchain, hattempt]
  | true =>
    refine Or.inr ⟨rfl, ?_⟩
    have hone := (scheduled_run hreach).one
    rw [← Connector.length_reconnectWaits] at hone
    have hsome : c.reconnectWaits ≠ [] := fun hnone =>
      absurd hnil (hgiven.mp (hiff.mpr ⟨hstopped, hnone⟩))
    have hpos := List.length_pos_iff.mpr hsome
    omega

end Ends

theorem life_ends_once_example :
    ∃ (c : Connector ℚ) (endings : List Ending),
      run (withHistory (Connector.step (decodeTable [])) observeEnds)
        (Connector.initial .bybit, [])
        [.complete 0 (.success ""), .complete 0 (.success ""), .complete 0 (.error (.ssl 1))] =
          some (c, endings) ∧
      endings = [.fatal (.ssl 1)] ∧ c.stopped = true ∧ c.reconnectWaits = [] := by
  obtain ⟨⟨c, endings⟩, hrun, hends⟩ := exists_of_run_any
    (P := fun x : Connector ℚ × List Ending => x.2 = [.fatal (.ssl 1)])
    (show (run (withHistory (Connector.step (decodeTable [])) observeEnds)
      ((Connector.initial .bybit : Connector ℚ), [])
      [.complete 0 (.success ""), .complete 0 (.success ""),
        .complete 0 (.error (.ssl 1))]).any _ = true by decide +kernel)
  obtain rfl : endings = [.fatal (.ssl 1)] := hends
  obtain ⟨-, hgiven, -⟩ := life_ends_once hrun
  obtain ⟨hstopped, hnone⟩ := hgiven.mp (List.cons_ne_nil _ _)
  exact ⟨c, _, hrun, rfl, hstopped, hnone⟩

end AsioAggregator
