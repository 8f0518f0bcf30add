import AsioAggregator.Connector

/-!
# What the handlers of a connector do

Cancelling a timer only shows in the statuses of the pending waits. The view of a connector leaves
the statuses out, and on it every handler either calls `fail`, or starts the next attempt, or starts
the operations that follow the one that ended. `view_handle` shows that the handlers do just that.
-/

namespace AsioAggregator

open Runs

variable {D : Type} [LinearOrder D]

/-- A connector without the statuses of its waits. -/
structure View (D : Type) [LinearOrder D] where
  exchange : Exchange
  stopped : Bool
  retryCount : ℕ
  localBooks : Books D
  attempt : ℕ
  operations : List (Operation × ℕ)

def Connector.view (c : Connector D) : View D where
  exchange := c.exchange
  stopped := c.stopped
  retryCount := c.retryCount
  localBooks := c.localBooks
  attempt := c.attempt
  operations := c.pending.map fun p => (p.operation, p.attempt)

/-- The error that the handler passes to `fail`, if it calls it. -/
def failure (o : Outcome) : Operation → Option ErrorCode
  | .connect => o.ec.or (o.hostNameError.map .ssl)
  | .wait .handshake _ => if o.ec = some .operationAborted then none else some .timedOut
  | .wait .ping _ | .wait .reconnect _ | .close => none
  | _ => o.ec

def nextPing (stopped : Bool) : List Operation := if stopped then [] else [.wait .ping 17000]

/-- The operations that follow one that ended without a call of `fail`. -/
def successors (exchange : Exchange) (stopped : Bool) (o : Outcome) : Operation → List Operation
  | .resolve => [.connect]
  | .connect => [.sslHandshake]
  | .sslHandshake => [.wait .handshake 10000, .wsHandshake]
  | .wsHandshake =>
    (if subscriptionMessage exchange ≠ "" then .write else .read) :: nextPing stopped
  | .write | .read => [.read]
  | .ping | .jsonPing => nextPing stopped
  | .wait .ping _ => if stopped || o.ec.isSome then [.close] else [pingOperation exchange]
  | .close | .wait .handshake _ | .wait .reconnect _ => []

theorem successors_pingTimer (exchange : Exchange) (stopped : Bool) (o : Outcome) (d : ℤ) :
    successors exchange stopped o (.wait .ping d) = [.close] ∨
      successors exchange stopped o (.wait .ping d) = [.ping] ∨
        successors exchange stopped o (.wait .ping d) = [.jsonPing] := by
  simp only [successors]
  split_ifs
  · exact Or.inl rfl
  · cases exchange with
    | binance => exact Or.inr (Or.inl rfl)
    | _ => exact Or.inr (Or.inr rfl)

def sessionOperations : List Operation :=
  [.write, .read, .wait .ping 17000, .ping, .jsonPing, .close]

theorem mem_successors {exchange : Exchange} {stopped : Bool} {o : Outcome} {op op' : Operation}
    (h : op' ∈ successors exchange stopped o op) :
    op = .resolve ∧ op' = .connect ∨ op = .connect ∧ op' = .sslHandshake ∨
      op = .sslHandshake ∧ (op' = .wait .handshake 10000 ∨ op' = .wsHandshake) ∨
        op' ∈ sessionOperations := by
  have hnext : ∀ op' ∈ nextPing stopped, op' ∈ sessionOperations := by
    cases stopped <;> decide
  cases op with
  | resolve => exact Or.inl ⟨rfl, List.mem_singleton.mp h⟩
  | connect => exact Or.inr (Or.inl ⟨rfl, List.mem_singleton.mp h⟩)
  | sslHandshake => exact Or.inr (Or.inr (Or.inl ⟨rfl, by simpa [successors] using h⟩))
  | wsHandshake =>
    refine Or.inr (Or.inr (Or.inr ?_))
    rcases List.mem_cons.mp h with rfl | h
    · split_ifs <;> decide
    · exact hnext op' h
  | write | read =>
    obtain rfl := List.mem_singleton.mp h
    exact Or.inr (Or.inr (Or.inr (by decide)))
  | ping | jsonPing => exact Or.inr (Or.inr (Or.inr (hnext op' h)))
  | close => cases h
  | wait timer d =>
    cases timer with
    | ping =>
      refine Or.inr (Or.inr (Or.inr ?_))
      obtain heq | heq | heq := successors_pingTimer exchange stopped o d
      all_goals
        rw [heq, List.mem_singleton] at h
        rw [h]
        decide
    | handshake | reconnect => cases h

def restarts (o : Outcome) : Operation → Bool
  | .wait .reconnect _ => o.ec.isNone
  | _ => false

theorem restarts_eq_true_iff {o : Outcome} {op : Operation} :
    restarts o op = true ↔ (∃ d, op = .wait .reconnect d) ∧ o.ec = none := by
  cases op with
  | wait timer d => cases timer <;> simp [restarts]
  | _ => simp [restarts]

/-- Whether the operation hands over a message that is parsed. -/
def handsOver (o : Outcome) : Operation → Bool
  | .read => !isPong o.msg
  | _ => false

namespace View

def fail (v : View D) (a : ℕ) (ec : ErrorCode) (jitter : Jitter) : Option (View D) :=
  if v.stopped then some v
  else if !shouldReconnect ec then some { v with stopped := true }
  else if v.retryCount + 1 > maxRetry then
    some { v with stopped := true, retryCount := v.retryCount + 1 }
  else (reconnectDelay (v.retryCount + 1) jitter).map fun d => { v with
    stopped := true
    retryCount := v.retryCount + 1
    operations := v.operations ++ [(.wait .reconnect d, a)] }

def start (v : View D) : View D := { v with
  stopped := false
  attempt := v.attempt + 1
  operations := v.operations ++ [(.resolve, v.attempt + 1)] }

def proceed (v : View D) (a : ℕ) (o : Outcome) (op : Operation) (b : Books D) : View D := { v with
  localBooks := b
  operations := v.operations ++ (successors v.exchange v.stopped o op).map fun op => (op, a) }

def received [Zero D] [OfNumeral D] (jsonParse : String → Except StdException Json) (v : View D)
    (o : Outcome) (op : Operation) : Option (Books D) :=
  if handsOver o op then parseMessage jsonParse v.exchange o.msg v.localBooks
  else some v.localBooks

def handle [Zero D] [OfNumeral D] (jsonParse : String → Except StdException Json) (v : View D)
    (a : ℕ) (o : Outcome) (op : Operation) : Option (View D) :=
  match failure o op with
  | some ec => v.fail a ec o.jitter
  | none =>
    if restarts o op then some v.start
    else (v.received jsonParse o op).map (v.proceed a o op)

def remove (v : View D) (k : ℕ) : View D := { v with operations := v.operations.eraseIdx k }

theorem fail_of_running {v v' : View D} {a : ℕ} {ec : ErrorCode} {jitter : Jitter}
    (hrunning : v.stopped = false) (h : v.fail a ec jitter = some v') :
    (shouldReconnect ec = false ∧ v' = { v with stopped := true }) ∨
      shouldReconnect ec = true ∧
        ((maxRetry < v.retryCount + 1 ∧
          v' = { v with stopped := true, retryCount := v.retryCount + 1 }) ∨
        v.retryCount + 1 ≤ maxRetry ∧ ∃ d, reconnectDelay (v.retryCount + 1) jitter = some d ∧
          v' = { v with
            stopped := true
            retryCount := v.retryCount + 1
            operations := v.operations ++ [(.wait .reconnect d, a)] }) := by
  unfold fail at h
  rw [hrunning, if_neg Bool.false_ne_true] at h
  cases hec : shouldReconnect ec with
  | false =>
    rw [hec] at h
    exact Or.inl ⟨rfl, (Option.some.inj h).symm⟩
  | true =>
    rw [hec] at h
    refine Or.inr ⟨rfl, ?_⟩
    by_cases hmax : v.retryCount + 1 > maxRetry
    · simp only [Bool.not_true, Bool.false_eq_true, if_false, if_pos hmax, Option.some.injEq] at h
      exact Or.inl ⟨hmax, h.symm⟩
    · simp only [Bool.not_true, Bool.false_eq_true, if_false, if_neg hmax,
        Option.map_eq_some_iff] at h
      obtain ⟨d, hd, rfl⟩ := h
      exact Or.inr ⟨not_lt.mp hmax, d, hd, rfl⟩

theorem fail_of_stopped {v : View D} {a : ℕ} {ec : ErrorCode} {jitter : Jitter}
    (hstopped : v.stopped = true) : v.fail a ec jitter = some v := by
  rw [fail, if_pos hstopped]

theorem fail_frame {v v' : View D} {a : ℕ} {ec : ErrorCode} {jitter : Jitter}
    (h : v.fail a ec jitter = some v') :
    v'.exchange = v.exchange ∧ v'.localBooks = v.localBooks ∧ v'.attempt = v.attempt ∧
      v'.stopped = true := by
  by_cases hstopped : v.stopped = true
  · rw [fail_of_stopped hstopped, Option.some.injEq] at h
    exact h ▸ ⟨rfl, rfl, rfl, hstopped⟩
  · have hrunning : v.stopped = false := by simpa using hstopped
    obtain ⟨-, rfl⟩ | ⟨-, ⟨-, rfl⟩ | ⟨-, d, -, rfl⟩⟩ := fail_of_running hrunning h
    all_goals exact ⟨rfl, rfl, rfl, rfl⟩

section Handle
variable [Zero D] [OfNumeral D] {jsonParse : String → Except StdException Json} {v : View D}
variable {a : ℕ} {o : Outcome} (op : Operation)

theorem received_of_idle (hh : handsOver o op = false) :
    v.received jsonParse o op = some v.localBooks := by
  rw [received, hh, if_neg Bool.false_ne_true]

theorem received_of_message (hh : handsOver o op = true) :
    v.received jsonParse o op = parseMessage jsonParse v.exchange o.msg v.localBooks := by
  rw [received, hh, if_pos rfl]

theorem handle_of_failure {ec : ErrorCode} (h : failure o op = some ec) :
    v.handle jsonParse a o op = v.fail a ec o.jitter := by
  simp only [handle, h]

theorem handle_of_restarts (hf : failure o op = none) (hr : restarts o op = true) :
    v.handle jsonParse a o op = some v.start := by
  simp only [handle, hf, hr, if_true]

theorem handle_of_proceeds (hf : failure o op = none) (hr : restarts o op = false) :
    v.handle jsonParse a o op = (v.received jsonParse o op).map (v.proceed a o op) := by
  simp only [handle, hf, hr, Bool.false_eq_true, if_false]

theorem handle_of_idle (hf : failure o op = none) (hr : restarts o op = false)
    (hh : handsOver o op = false) :
    v.handle jsonParse a o op = some (v.proceed a o op v.localBooks) := by
  rw [handle_of_proceeds op hf hr, received_of_idle op hh, Option.map_some]

/-- The three ways in which a handler ends. -/
theorem handle_cases {v' : View D} {op : Operation}
    (h : v.handle jsonParse a o op = some v') :
    (∃ ec, failure o op = some ec ∧ v.fail a ec o.jitter = some v') ∨
      (failure o op = none ∧ restarts o op = true ∧ v' = v.start) ∨
      (failure o op = none ∧ restarts o op = false ∧
        ∃ b, v.received jsonParse o op = some b ∧ v' = v.proceed a o op b) := by
  cases hf : failure o op with
  | some ec =>
    rw [handle_of_failure op hf] at h
    exact Or.inl ⟨ec, rfl, h⟩
  | none =>
    cases hr : restarts o op with
    | true =>
      rw [handle_of_restarts op hf hr] at h
      exact Or.inr (Or.inl ⟨rfl, rfl, (Option.some.inj h).symm⟩)
    | false =>
      rw [handle_of_proceeds op hf hr, Option.map_eq_some_iff] at h
      obtain ⟨b, hb, rfl⟩ := h
      exact Or.inr (Or.inr ⟨rfl, rfl, b, hb, rfl⟩)

end Handle
end View

namespace Connector

/-- The attempt and the text of the message that the event hands over to the parser. -/
def delivers (c : Connector D) : ConnectorEvent → Option (ℕ × String)
  | .expire _ => none
  | .complete k o => c.pending[k]?.bind fun p =>
    if failure o p.operation = none ∧ handsOver o p.operation then some (p.attempt, o.msg) else none

variable (c : Connector D) (a : ℕ)

@[simp] theorem view_initiate (op : Operation) :
    (c.initiate a op).view = { c.view with operations := c.view.operations ++ [(op, a)] } := by
  simp [view, initiate]

@[simp] theorem view_cancel (timer : Timer) : (c.cancel timer).view = c.view := by
  have hcancel : ∀ p : Pending,
      ((p.cancel timer).operation, (p.cancel timer).attempt) = (p.operation, p.attempt) := by
    intro p
    unfold Pending.cancel
    split
    · split <;> rfl
    · rfl
  simp only [view, cancel, List.map_map]
  congr 1
  exact List.map_congr_left fun p _ => hcancel p

@[simp] theorem view_arm (timer : Timer) (d : ℤ) :
    (c.arm a timer d).view =
      { c.view with operations := c.view.operations ++ [(.wait timer d, a)] } := by
  simp [arm]

@[simp] theorem view_remove (k : ℕ) : (c.remove k).view = c.view.remove k := by
  simp [view, remove, View.remove, List.eraseIdx_map]

@[simp] theorem stopped_cancel (timer : Timer) : (c.cancel timer).stopped = c.stopped := rfl

@[simp] theorem stopped_initiate (op : Operation) : (c.initiate a op).stopped = c.stopped := rfl

theorem view_start : c.start.view = c.view.start := by
  simp only [start, view_initiate, view_cancel]
  rfl

theorem view_initial (exchange : Exchange) :
    (initial exchange : Connector D).view =
      ⟨exchange, false, 0, Books.empty, 1, [(.resolve, 1)]⟩ := by
  rw [initial, view_start]
  rfl

theorem view_getElem? {c : Connector D} {k : ℕ} {p : Pending} (hp : c.pending[k]? = some p) :
    c.view.operations[k]? = some (p.operation, p.attempt) := by
  simp only [view, List.getElem?_map, hp, Option.map_some]

theorem countP_view (P : Operation → Bool) :
    c.view.operations.countP (fun x => P x.1) = c.pending.countP fun p => P p.operation := by
  rw [view, List.countP_map]
  rfl

theorem view_fail (ec : ErrorCode) (jitter : Jitter) :
    (c.fail a ec jitter).map view = c.view.fail a ec jitter := by
  have hstopped : c.view.stopped = c.stopped := rfl
  have hretry : c.view.retryCount = c.retryCount := rfl
  simp only [fail, View.fail, hstopped, hretry]
  by_cases hs : c.stopped
  · rw [if_pos hs, if_pos hs]
    rfl
  rw [if_neg hs, if_neg hs]
  obtain ⟨c₁, hc₁⟩ : ∃ c₁, c₁ = ({ c with stopped := true }.cancel .handshake).cancel .ping :=
    ⟨_, rfl⟩
  have hview : c₁.view = { c.view with stopped := true } := by
    rw [hc₁, view_cancel, view_cancel]
    rfl
  have hcount : c₁.retryCount = c.retryCount := by
    rw [hc₁]
    rfl
  rw [← hc₁, hcount]
  by_cases hec : (!shouldReconnect ec)
  · rw [if_pos hec, if_pos hec, Option.map_some, hview]
    rfl
  rw [if_neg hec, if_neg hec]
  have hcounted : view { c₁ with retryCount := c.retryCount + 1 } =
      { c.view with stopped := true, retryCount := c.retryCount + 1 } := by
    change ({ c₁.view with retryCount := c.retryCount + 1 } : View D) = _
    rw [hview]
  by_cases hmax : c.retryCount + 1 > maxRetry
  · rw [if_pos hmax, if_pos hmax, Option.map_some, hcounted]
  rw [if_neg hmax, if_neg hmax, Option.map_map]
  refine congrArg (fun f => Option.map f _) (funext fun d => ?_)
  rw [Function.comp_apply, view_arm, hcounted]

theorem view_doPing :
    (c.doPing a).view = { c.view with
      operations := c.view.operations ++ (nextPing c.stopped).map fun op => (op, a) } := by
  unfold doPing nextPing
  cases c.stopped <;> simp

section Handlers
variable [Zero D] [OfNumeral D] (jsonParse : String → Except StdException Json) (o : Outcome)

theorem view_onResolve : (c.onResolve a o).map view = c.view.handle jsonParse a o .resolve := by
  cases hec : o.ec with
  | some ec =>
    rw [View.handle_of_failure .resolve hec]
    simp only [onResolve, hec, view_fail]
  | none =>
    rw [View.handle_of_idle .resolve hec rfl rfl]
    simp only [onResolve, hec, Option.map_some, view_initiate]
    rfl

theorem view_onConnect : (c.onConnect a o).map view = c.view.handle jsonParse a o .connect := by
  cases hec : o.ec with
  | some ec =>
    have hf : failure o .connect = some ec := by simp [failure, hec]
    rw [View.handle_of_failure .connect hf]
    simp only [onConnect, hec, view_fail]
  | none =>
    cases hname : o.hostNameError with
    | some value =>
      have hf : failure o .connect = some (.ssl value) := by simp [failure, hec, hname]
      rw [View.handle_of_failure .connect hf]
      simp only [onConnect, hec, hname, view_fail]
    | none =>
      have hf : failure o .connect = none := by simp [failure, hec, hname]
      rw [View.handle_of_idle .connect hf rfl rfl]
      simp only [onConnect, hec, hname, Option.map_some, view_initiate]
      rfl

theorem view_onSslHandshake :
    (c.onSslHandshake a o).map view = c.view.handle jsonParse a o .sslHandshake := by
  cases hec : o.ec with
  | some ec =>
    rw [View.handle_of_failure .sslHandshake hec]
    simp only [onSslHandshake, hec, view_fail]
  | none =>
    rw [View.handle_of_idle .sslHandshake hec rfl rfl]
    simp only [onSslHandshake, hec, Option.map_some, view_initiate, view_arm, List.append_assoc]
    rfl

theorem view_onHandshakeTimer (d : ℤ) :
    (c.onHandshakeTimer a o).map view = c.view.handle jsonParse a o (.wait .handshake d) := by
  by_cases hec : o.ec = some .operationAborted
  · have hf : failure o (.wait .handshake d) = none := by simp [failure, hec]
    rw [View.handle_of_idle (.wait .handshake d) hf rfl rfl]
    simp [onHandshakeTimer, hec, View.proceed, successors]
  · have hf : failure o (.wait .handshake d) = some .timedOut := by simp [failure, hec]
    rw [View.handle_of_failure (.wait .handshake d) hf]
    simp only [onHandshakeTimer, if_pos hec, view_fail]

theorem view_onWsHandshake :
    (c.onWsHandshake a o).map view = c.view.handle jsonParse a o .wsHandshake := by
  cases hec : o.ec with
  | some ec =>
    rw [View.handle_of_failure .wsHandshake hec]
    simp only [onWsHandshake, hec, view_fail, view_cancel]
  | none =>
    rw [View.handle_of_idle .wsHandshake hec rfl rfl]
    have hstopped : c.view.stopped = c.stopped := rfl
    simp only [onWsHandshake, hec, doRead, Option.map_some, view_doPing, View.proceed, successors,
      hstopped]
    by_cases hsub : subscriptionMessage (c.cancel .handshake).exchange ≠ ""
    · have hsub' : subscriptionMessage c.view.exchange ≠ "" := hsub
      rw [if_pos hsub, if_pos hsub']
      simp [hstopped]
    · have hsub' : ¬ subscriptionMessage c.view.exchange ≠ "" := hsub
      rw [if_neg hsub, if_neg hsub']
      simp [hstopped]

theorem view_onWrite : (c.onWrite a o).map view = c.view.handle jsonParse a o .write := by
  cases hec : o.ec with
  | some ec =>
    rw [View.handle_of_failure .write hec]
    simp only [onWrite, hec, view_fail]
  | none =>
    rw [View.handle_of_idle .write hec rfl rfl]
    simp only [onWrite, doRead, hec, Option.map_some, view_initiate]
    rfl

theorem view_onRead :
    (c.onRead jsonParse a o).map view = c.view.handle jsonParse a o .read := by
  cases hec : o.ec with
  | some ec =>
    rw [View.handle_of_failure .read hec]
    simp only [onRead, hec, view_fail]
  | none =>
    rw [View.handle_of_proceeds .read hec rfl]
    simp only [onRead, hec, doRead, View.received, handsOver, handleMessage]
    by_cases hpong : isPong o.msg
    · simp only [hpong, if_true, Bool.not_true, Bool.false_eq_true, if_false, Option.map_some,
        view_initiate]
      rfl
    · simp only [hpong, Bool.not_false, Bool.false_eq_true, if_true, if_false, Option.map_map]
      refine congrArg (fun f => Option.map f _) (funext fun b => ?_)
      simp only [Function.comp_apply, view_initiate]
      rfl

theorem view_onPing {op : Operation} (hf : failure o op = o.ec) (hr : restarts o op = false)
    (hh : handsOver o op = false)
    (hs : successors c.exchange c.stopped o op = nextPing c.stopped) :
    (c.onPing a o).map view = c.view.handle jsonParse a o op := by
  cases hec : o.ec with
  | some ec =>
    rw [View.handle_of_failure op (hf.trans hec)]
    simp only [onPing, hec, view_fail]
  | none =>
    rw [View.handle_of_idle op (hf.trans hec) hr hh]
    simp only [onPing, hec, Option.map_some, view_doPing, View.proceed]
    rw [← hs]
    rfl

theorem view_onPingTimer (d : ℤ) :
    some (c.onPingTimer a o).view = c.view.handle jsonParse a o (.wait .ping d) := by
  rw [View.handle_of_idle (.wait .ping d) rfl rfl rfl]
  have hstopped : c.view.stopped = c.stopped := rfl
  simp only [onPingTimer, View.proceed, successors, hstopped]
  split_ifs
  · rw [view_initiate]
    rfl
  · rw [view_initiate]
    rfl

theorem view_onReconnectTimer (d : ℤ) :
    some (c.onReconnectTimer o).view = c.view.handle jsonParse a o (.wait .reconnect d) := by
  cases hec : o.ec with
  | some ec =>
    have hr : restarts o (.wait .reconnect d) = false := by simp [restarts, hec]
    rw [View.handle_of_idle (.wait .reconnect d) rfl hr rfl]
    simp [onReconnectTimer, hec, View.proceed, successors]
  | none =>
    have hr : restarts o (.wait .reconnect d) = true := by simp [restarts, hec]
    rw [View.handle_of_restarts (.wait .reconnect d) rfl hr, ← view_start]
    simp [onReconnectTimer, hec]

/-- Every handler does to the view what `View.handle` says. -/
theorem view_handle (op : Operation) :
    (c.handle jsonParse a o op).map view = c.view.handle jsonParse a o op := by
  cases op with
  | resolve => exact view_onResolve c a jsonParse o
  | connect => exact view_onConnect c a jsonParse o
  | sslHandshake => exact view_onSslHandshake c a jsonParse o
  | wsHandshake => exact view_onWsHandshake c a jsonParse o
  | write => exact view_onWrite c a jsonParse o
  | read => exact view_onRead c a jsonParse o
  | ping => exact view_onPing c a jsonParse o rfl rfl rfl rfl
  | jsonPing => exact view_onPing c a jsonParse o rfl rfl rfl rfl
  | close =>
    rw [View.handle_of_idle .close rfl rfl rfl]
    simp [handle, View.proceed, successors]
  | wait timer d =>
    cases timer with
    | handshake => exact view_onHandshakeTimer c a jsonParse o d
    | ping => exact view_onPingTimer c a jsonParse o d
    | reconnect => exact view_onReconnectTimer c a jsonParse o d

end Handlers

section Steps
variable [Zero D] [OfNumeral D] {jsonParse : String → Except StdException Json}
variable {c c' : Connector D}

theorem expire_of_step {k : ℕ} (h : c.step jsonParse (.expire k) = some c') :
    ∃ p, c.pending[k]? = some p ∧ p.status = .outstanding ∧
      c' = { c with pending := c.pending.set k { p with status := .expired } } := by
  simp only [step, Option.bind_eq_bind, Option.bind_eq_some_iff] at h
  obtain ⟨p, hp, p', hp', h⟩ := h
  cases h
  unfold Pending.expire at hp'
  split at hp'
  · next hstatus =>
    cases hp'
    exact ⟨p, hp, hstatus, rfl⟩
  · cases hp'

theorem step_expire {k : ℕ} (h : c.step jsonParse (.expire k) = some c') : c'.view = c.view := by
  obtain ⟨p, hp, -, rfl⟩ := expire_of_step h
  obtain ⟨hk, rfl⟩ := List.getElem?_eq_some_iff.mp hp
  have hset : (c.pending.set k { c.pending[k] with status := .expired }).map
      (fun p => (p.operation, p.attempt)) = c.pending.map fun p => (p.operation, p.attempt) := by
    calc (c.pending.set k { c.pending[k] with status := .expired }).map
          (fun p => (p.operation, p.attempt))
        = (c.pending.set k c.pending[k]).map fun p => (p.operation, p.attempt) := by
          rw [List.map_set, List.map_set]
      _ = c.pending.map fun p => (p.operation, p.attempt) := by rw [List.set_getElem_self]
  simp only [view, hset]

theorem view_of_handle {a : ℕ} {o : Outcome} {op : Operation}
    (h : c.handle jsonParse a o op = some c') :
    c.view.handle jsonParse a o op = some c'.view := by
  rw [← view_handle, h]
  rfl

theorem handle_of_step {k : ℕ} {o : Outcome} (h : c.step jsonParse (.complete k o) = some c') :
    ∃ p, c.pending[k]? = some p ∧ p.mayEndWith o.ec ∧
      (c.remove k).handle jsonParse p.attempt o p.operation = some c' := by
  simp only [step, Option.bind_eq_bind, Option.bind_eq_some_iff] at h
  obtain ⟨p, hp, h⟩ := h
  split_ifs at h with hend
  exact ⟨p, hp, hend, h⟩

theorem step_complete {k : ℕ} {o : Outcome} (h : c.step jsonParse (.complete k o) = some c') :
    ∃ p, c.pending[k]? = some p ∧ p.mayEndWith o.ec ∧
      (c.view.remove k).handle jsonParse p.attempt o p.operation = some c'.view := by
  obtain ⟨p, hp, hend, hhandle⟩ := handle_of_step h
  refine ⟨p, hp, hend, ?_⟩
  rw [← view_remove]
  exact view_of_handle hhandle

end Steps
end Connector

/-- `Q` holds of the operation that the event ends, if it ends one. -/
def OnCompletion (c : Connector D) (e : ConnectorEvent) (Q : ℕ → Outcome → Pending → Prop) : Prop :=
  ∀ k o p, e = .complete k o → c.pending[k]? = some p → Q k o p

theorem onCompletion_expire {c : Connector D} {k : ℕ} {Q : ℕ → Outcome → Pending → Prop} :
    OnCompletion c (.expire k) Q := by
  intro k' o p heq
  cases heq

theorem onCompletion_complete {c : Connector D} {k : ℕ} {o : Outcome} {p : Pending}
    {Q : ℕ → Outcome → Pending → Prop} (hp : c.pending[k]? = some p) :
    OnCompletion c (.complete k o) Q ↔ Q k o p := by
  constructor
  · exact fun h => h k o p rfl hp
  · rintro h k' o' p' heq hp'
    obtain ⟨rfl, rfl⟩ := ConnectorEvent.complete.inj heq
    obtain rfl : p = p' := Option.some.inj (hp.symm.trans hp')
    exact h

end AsioAggregator
