import AsioAggregator.Outstanding
import AsioAggregator.Reconnect

/-!
# The deadline of the handshake

`on_ssl_handshake` starts a wait of ten seconds along with the WebSocket handshake, and
`on_ws_handshake` cancels it. A wait that has expired by then can no longer be cancelled: its
handler is queued, and retires the session as timed out although its handshake has succeeded.
-/

namespace AsioAggregator

open Runs Tagged

/-- The same operation later, of which a wait may have expired or been cancelled meanwhile. -/
structure Pending.Ages (p p' : Pending) : Prop where
  operation : p'.operation = p.operation
  attempt : p'.attempt = p.attempt
  settled : p.status ≠ .outstanding → p'.status = p.status

namespace Pending
variable {p p' p'' : Pending}

theorem Ages.refl (p : Pending) : p.Ages p := ⟨rfl, rfl, fun _ => rfl⟩

theorem Ages.trans (h : p.Ages p') (h' : p'.Ages p'') : p.Ages p'' where
  operation := h'.operation.trans h.operation
  attempt := h'.attempt.trans h.attempt
  settled hstatus := by
    have hfirst := h.settled hstatus
    exact (h'.settled (hfirst ▸ hstatus)).trans hfirst

theorem Ages.status_eq (h : p.Ages p') {status : Status} (hp : p.status = status)
    (hsettled : status ≠ .outstanding) : p'.status = status :=
  (h.settled (hp ▸ hsettled)).trans hp

theorem ages_cancel (timer : Timer) (p : Pending) : p.Ages (p.cancel timer) := by
  unfold cancel
  split
  · next hop hstatus =>
    split_ifs
    · exact ⟨rfl, rfl, fun hne => absurd hstatus hne⟩
    · exact .refl p
  · exact .refl p

end Pending

namespace Connector
variable {D : Type} [LinearOrder D] {c c' c'' : Connector D}

def Keeps (c c' : Connector D) : Prop :=
  ∀ (i : ℕ) (p : Pending), c.pending[i]? = some p → ∃ p', c'.pending[i]? = some p' ∧ p.Ages p'

theorem Keeps.of_pending_eq (h : c'.pending = c.pending) : c.Keeps c' :=
  fun _ p hp => ⟨p, h ▸ hp, .refl p⟩

theorem Keeps.trans (h : c.Keeps c') (h' : c'.Keeps c'') : c.Keeps c'' := by
  intro i p hp
  obtain ⟨p', hp', hages⟩ := h i p hp
  obtain ⟨p'', hp'', hages'⟩ := h' i p' hp'
  exact ⟨p'', hp'', hages.trans hages'⟩

theorem keeps_initiate (c : Connector D) (a : ℕ) (op : Operation) : c.Keeps (c.initiate a op) := by
  intro i p hp
  have hlt : i < c.pending.length := (List.getElem?_eq_some_iff.mp hp).1
  exact ⟨p, (List.getElem?_append_left hlt).trans hp, .refl p⟩

theorem getElem?_cancel {i : ℕ} {p : Pending} (hp : c.pending[i]? = some p) (timer : Timer) :
    (c.cancel timer).pending[i]? = some (p.cancel timer) := by
  simp only [cancel, List.getElem?_map, hp, Option.map_some]

theorem keeps_cancel (c : Connector D) (timer : Timer) : c.Keeps (c.cancel timer) :=
  fun _ p hp => ⟨_, getElem?_cancel hp timer, Pending.ages_cancel timer p⟩

theorem keeps_arm (c : Connector D) (a : ℕ) (timer : Timer) (d : ℤ) :
    c.Keeps (c.arm a timer d) :=
  (keeps_cancel c timer).trans (keeps_initiate _ a _)

theorem keeps_start (c : Connector D) : c.Keeps c.start := by
  let opened : Connector D := { c with stopped := false, attempt := c.attempt + 1 }
  have hopened : c.Keeps opened := .of_pending_eq rfl
  have hcancelled : opened.Keeps (((opened.cancel .handshake).cancel .reconnect).cancel .ping) :=
    ((keeps_cancel _ _).trans (keeps_cancel _ _)).trans (keeps_cancel _ _)
  exact (hopened.trans hcancelled).trans (keeps_initiate _ _ _)

theorem keeps_doPing (c : Connector D) (a : ℕ) : c.Keeps (c.doPing a) := by
  unfold doPing
  split_ifs
  · exact .of_pending_eq rfl
  · exact keeps_arm c a _ _

theorem keeps_fail {a : ℕ} {ec : ErrorCode} {jitter : Jitter}
    (h : c.fail a ec jitter = some c') : c.Keeps c' := by
  let stopping : Connector D := { c with stopped := true }
  let counted : Connector D :=
    { (stopping.cancel .handshake).cancel .ping with retryCount := c.retryCount + 1 }
  have hmarked : c.Keeps stopping := .of_pending_eq rfl
  have hstopping : c.Keeps ((stopping.cancel .handshake).cancel .ping) :=
    hmarked.trans ((keeps_cancel _ _).trans (keeps_cancel _ _))
  have hcounted : c.Keeps counted := hstopping.trans (.of_pending_eq rfl)
  simp only [fail] at h
  split_ifs at h
  · exact Option.some.inj h ▸ .of_pending_eq rfl
  · exact Option.some.inj h ▸ hstopping
  · exact Option.some.inj h ▸ hcounted
  · obtain ⟨d, -, rfl⟩ := Option.map_eq_some_iff.mp h
    exact hcounted.trans (keeps_arm _ a _ d)

section Handlers
variable [Zero D] [OfNumeral D] {jsonParse : String → Except StdException Json} {a : ℕ}
variable {o : Outcome}

omit [Zero D] [OfNumeral D] in
theorem keeps_onWsHandshake (h : c.onWsHandshake a o = some c') :
    (c.cancel .handshake).Keeps c' := by
  unfold onWsHandshake at h
  cases hec : o.ec with
  | some ec =>
    rw [hec] at h
    exact keeps_fail h
  | none =>
    rw [hec] at h
    obtain rfl := Option.some.inj h
    refine Keeps.trans ?_ (keeps_doPing _ a)
    split_ifs
    · exact keeps_initiate _ a _
    · exact keeps_initiate _ a _

/-- No handler takes an operation out. -/
theorem keeps_handle {op : Operation} (h : c.handle jsonParse a o op = some c') : c.Keeps c' := by
  cases op with
  | resolve =>
    simp only [handle, onResolve] at h
    split at h
    · exact keeps_fail h
    · exact Option.some.inj h ▸ keeps_initiate c a _
  | connect =>
    simp only [handle, onConnect] at h
    split at h
    · exact keeps_fail h
    · split at h
      · exact keeps_fail h
      · exact Option.some.inj h ▸ keeps_initiate c a _
  | sslHandshake =>
    simp only [handle, onSslHandshake] at h
    split at h
    · exact keeps_fail h
    · exact Option.some.inj h ▸ (keeps_arm c a _ _).trans (keeps_initiate _ a _)
  | wsHandshake => exact (keeps_cancel c _).trans (keeps_onWsHandshake h)
  | write =>
    simp only [handle, onWrite] at h
    split at h
    · exact keeps_fail h
    · exact Option.some.inj h ▸ keeps_initiate c a _
  | read =>
    simp only [handle, onRead] at h
    split at h
    · exact keeps_fail h
    · split_ifs at h
      · exact Option.some.inj h ▸ keeps_initiate c a _
      · simp only [handleMessage, Option.map_map, Option.map_eq_some_iff] at h
        obtain ⟨b, -, rfl⟩ := h
        have hbooks : c.Keeps { c with localBooks := b } := .of_pending_eq rfl
        exact hbooks.trans (keeps_initiate _ a _)
  | ping | jsonPing =>
    simp only [handle, onPing] at h
    split at h
    · exact keeps_fail h
    · exact Option.some.inj h ▸ keeps_doPing c a
  | close => exact Option.some.inj h ▸ .of_pending_eq rfl
  | wait timer d =>
    cases timer with
    | handshake =>
      simp only [handle, onHandshakeTimer] at h
      split_ifs at h
      · exact keeps_fail h
      · exact Option.some.inj h ▸ .of_pending_eq rfl
    | ping =>
      obtain rfl := Option.some.inj h
      unfold onPingTimer
      split_ifs
      · exact keeps_initiate c a _
      · exact keeps_initiate c a _
    | reconnect =>
      obtain rfl := Option.some.inj h
      unfold onReconnectTimer
      split_ifs
      · exact .of_pending_eq rfl
      · exact keeps_start c

end Handlers
end Connector

namespace Operation

def isDeadline : Operation → Bool
  | .wait .handshake _ => true
  | _ => false

def beforeSession : Operation → Bool
  | .resolve | .connect | .sslHandshake | .wsHandshake => true
  | _ => false

theorem isDeadline_iff {op : Operation} : op.isDeadline = true ↔ ∃ d, op = .wait .handshake d := by
  cases op with
  | wait timer d => cases timer <;> simp [isDeadline]
  | _ => simp [isDeadline]

theorem beforeSession_inReadChain {op : Operation} (h : op.beforeSession = true) :
    op.inReadChain = true := by
  cases op with
  | resolve | connect | sslHandshake | wsHandshake => rfl
  | _ => simp [beforeSession] at h

end Operation

section Successors
variable {exchange : Exchange} {stopped : Bool} {o : Outcome} {op op' : Operation}

theorem beforeSession_of_mem_successors (h : op.beforeSession = false ∨ op = .wsHandshake)
    (hop' : op' ∈ successors exchange stopped o op) : op'.beforeSession = false := by
  obtain ⟨rfl, -⟩ | ⟨rfl, -⟩ | ⟨rfl, -⟩ | hsession := mem_successors hop'
  · simp [Operation.beforeSession] at h
  · simp [Operation.beforeSession] at h
  · simp [Operation.beforeSession] at h
  · have hnone : ∀ op ∈ sessionOperations, op.beforeSession = false := by decide
    exact hnone op' hsession

theorem eq_sslHandshake_of_mem_successors (hd : op'.isDeadline = true)
    (hop' : op' ∈ successors exchange stopped o op) : op = .sslHandshake := by
  obtain ⟨-, rfl⟩ | ⟨-, rfl⟩ | ⟨rfl, -⟩ | hsession := mem_successors hop'
  · cases hd
  · cases hd
  · rfl
  · have hnone : ∀ op ∈ sessionOperations, op.isDeadline = false := by decide
    exact absurd hd (by simp [hnone op' hsession])

end Successors

variable {D : Type} [LinearOrder D]

/-- The attempt for which the event runs `on_ws_handshake` without error. -/
def Connector.establishes (c : Connector D) : ConnectorEvent → Option ℕ
  | .expire _ => none
  | .complete k o => c.pending[k]?.bind fun p =>
    if p.operation = .wsHandshake ∧ o.ec = none then some p.attempt else none

def observeEstablished (established : List ℕ) (c : Connector D) (e : ConnectorEvent)
    (_ : Connector D) : List ℕ :=
  established ++ (c.establishes e).toList

structure View.Settled (v : View D) (established : List ℕ) : Prop where
  begun : ∀ a ∈ established, a ≤ v.attempt
  past : ∀ x ∈ v.operations, x.2 ∈ established → x.1.beforeSession = false

variable [Zero D] [OfNumeral D] {jsonParse : String → Except StdException Json}
variable {c c' : Connector D} {e : ConnectorEvent} {established : List ℕ} {k a : ℕ} {o : Outcome}
variable {p : Pending}

theorem View.handle_operations {v v' : View D} {op : Operation}
    (h : v.handle jsonParse a o op = some v') :
    v.attempt ≤ v'.attempt ∧ ∃ added, v'.operations = v.operations ++ added ∧
      ∀ x ∈ added, (∃ d, x = (.wait .reconnect d, a)) ∨ x = (.resolve, v.attempt + 1) ∨
        x.2 = a ∧ x.1 ∈ successors v.exchange v.stopped o op := by
  obtain ⟨ec, -, hfail⟩ | ⟨-, -, rfl⟩ | ⟨-, -, b, -, rfl⟩ := View.handle_cases h
  · refine ⟨(View.fail_frame hfail).2.2.1.ge, ?_⟩
    rcases View.fail_operations hfail with hops | ⟨d, hops⟩
    · exact ⟨[], hops.trans (List.append_nil _).symm, nofun⟩
    · exact ⟨_, hops, fun x hx => Or.inl ⟨d, List.mem_singleton.mp hx⟩⟩
  · exact ⟨Nat.le_succ _, _, rfl, fun x hx => Or.inr (Or.inl (List.mem_singleton.mp hx))⟩
  · refine ⟨le_rfl, _, rfl, fun x hx => Or.inr (Or.inr ?_)⟩
    obtain ⟨op', hop', rfl⟩ := List.mem_map.mp hx
    exact ⟨rfl, hop'⟩

omit [Zero D] [OfNumeral D] in
theorem establishes_complete (hp : c.pending[k]? = some p) :
    c.establishes (.complete k o) = some a ↔
      p.operation = .wsHandshake ∧ o.ec = none ∧ p.attempt = a := by
  simp [Connector.establishes, hp, and_assoc]

theorem settled_step (h : c.view.Settled established)
    (hone : c.view.Single Operation.inReadChain) (hs : c.step jsonParse e = some c') :
    c'.view.Settled (observeEstablished established c e c') := by
  cases e with
  | expire k =>
    rw [Connector.step_expire hs]
    simpa [observeEstablished, Connector.establishes] using h
  | complete k o =>
    obtain ⟨p, hp, -, hv⟩ := Connector.step_complete hs
    have hk := Connector.view_getElem? hp
    have hnew : ∀ a ∈ observeEstablished established c (.complete k o) c',
        a ∈ established ∨ p.operation = .wsHandshake ∧ p.attempt = a := by
      intro a ha
      rcases List.mem_append.mp ha with ha | ha
      · exact Or.inl ha
      · obtain ⟨hop, -, heq⟩ := (establishes_complete hp).mp (Option.mem_toList.mp ha)
        exact Or.inr ⟨hop, heq⟩
    have hbegun : ∀ a ∈ observeEstablished established c (.complete k o) c',
        a ≤ c.view.attempt := by
      intro a ha
      rcases hnew a ha with ha | ⟨-, rfl⟩
      · exact h.begun a ha
      · exact hone.bounded _ (List.mem_of_getElem? hk)
    obtain ⟨hattempt, added, hops, hadded⟩ := View.handle_operations hv
    refine ⟨fun a ha => (hbegun a ha).trans hattempt, fun x hx hmem => ?_⟩
    rw [hops] at hx
    rcases List.mem_append.mp hx with hx | hx
    · rcases hnew _ hmem with hold | ⟨hop, htag⟩
      · exact h.past x (List.mem_of_mem_eraseIdx hx) hold
      · -- the handshake was the only operation of its attempt that leads to a session
        have hchain : Operation.inReadChain p.operation = true := by rw [hop]; rfl
        have honly := ne_tag_of_count_le_one hk hchain (hone.once p.attempt) x hx
        by_contra hbefore
        rw [Bool.not_eq_false] at hbefore
        exact honly (Operation.beforeSession_inReadChain hbefore) htag.symm
    · obtain ⟨d, rfl⟩ | rfl | ⟨htag, hsucc⟩ := hadded x hx
      · rfl
      · exact absurd (hbegun _ hmem) (Nat.not_succ_le_self _)
      · have hop : p.operation.beforeSession = false ∨ p.operation = .wsHandshake := by
          rcases hnew _ hmem with hold | ⟨hop, -⟩
          · exact Or.inl (h.past _ (List.mem_of_getElem? hk) (htag ▸ hold))
          · exact Or.inr hop
        exact beforeSession_of_mem_successors hop hsucc

def Connector.Cancelled (c : Connector D) (established : List ℕ) : Prop :=
  ∀ p ∈ c.pending, p.operation.isDeadline = true → p.attempt ∈ established → p.status = .cancelled

/-- A deadline after a handler was there before, or was set with the handshake just now. -/
theorem deadline_cases {b : Connector D} {op : Operation} {p' : Pending}
    (hkeeps : b.Keeps c') (hv : b.view.handle jsonParse a o op = some c'.view)
    (hp' : p' ∈ c'.pending) (hd : p'.operation.isDeadline = true) :
    op = .sslHandshake ∧ p'.attempt = a ∨ ∃ p ∈ b.pending, p.Ages p' := by
  obtain ⟨i, hi⟩ := List.mem_iff_getElem?.mp hp'
  by_cases hlt : i < b.pending.length
  · obtain ⟨p'', hp'', hages⟩ := hkeeps i _ (List.getElem?_eq_getElem hlt)
    obtain rfl : p'' = p' := Option.some.inj (hp''.symm.trans hi)
    exact Or.inr ⟨_, List.getElem_mem hlt, hages⟩
  · obtain ⟨-, added, hops, hadded⟩ := View.handle_operations hv
    have hlength : b.view.operations.length ≤ i := by simpa [Connector.view] using hlt
    have hmem := Connector.view_getElem? hi
    rw [hops, List.getElem?_append_right hlength] at hmem
    obtain ⟨d, hx⟩ | hx | ⟨htag, hsucc⟩ := hadded _ (List.mem_of_getElem? hmem)
    · rw [(Prod.mk.inj hx).1] at hd
      cases hd
    · rw [(Prod.mk.inj hx).1] at hd
      cases hd
    · exact Or.inl ⟨eq_sslHandshake_of_mem_successors hd hsucc, htag⟩

omit [Zero D] [OfNumeral D] in
theorem status_cancel_handshake (hd : p.operation.isDeadline = true) :
    (p.cancel .handshake).status = .cancelled ∨
      p.status = .expired ∧ (p.cancel .handshake).status = .expired := by
  obtain ⟨op, attempt, status⟩ := p
  cases op with
  | wait timer d =>
    cases timer with
    | handshake => cases status <;> simp [Pending.cancel]
    | _ => cases hd
  | _ => cases hd

namespace Connector
variable {b : Connector D} {op : Operation}

theorem Cancelled.handle (h : b.Cancelled established) (hkeeps : b.Keeps c')
    (hv : b.view.handle jsonParse a o op = some c'.view)
    (hpast : op = .sslHandshake → a ∉ established) : c'.Cancelled established := by
  intro p' hp' hd hmem
  rcases deadline_cases hkeeps hv hp' hd with ⟨hop, htag⟩ | ⟨p, hp, hages⟩
  · exact absurd (htag ▸ hmem) (hpast hop)
  · have hcancelled := h p hp (hages.operation ▸ hd) (hages.attempt ▸ hmem)
    exact hages.status_eq hcancelled nofun

omit [Zero D] [OfNumeral D] in
theorem Keeps.exists_expired (h : b.Keeps c') (hp : p ∈ b.pending) (hexp : p.status = .expired) :
    ∃ p' ∈ c'.pending, p.Ages p' ∧ p'.status = .expired := by
  obtain ⟨i, hi⟩ := List.mem_iff_getElem?.mp hp
  obtain ⟨p', hp', hages⟩ := h i p hi
  exact ⟨p', List.mem_of_getElem? hp', hages, hages.status_eq hexp nofun⟩

theorem cancelled_expire (h : c.Cancelled established)
    (hs : c.step jsonParse (.expire k) = some c') : c'.Cancelled established := by
  obtain ⟨p, hp, hstatus, rfl⟩ := expire_of_step hs
  intro q hq hd hmem
  rcases List.mem_or_eq_of_mem_set hq with hq | rfl
  · exact h q hq hd hmem
  · have hcancelled := h p (List.mem_of_getElem? hp) hd hmem
    cases hstatus.symm.trans hcancelled

/-- The handshake cancels the deadlines that have not expired, and only those. -/
theorem cancelled_handshake_iff {b : Connector D} (hp : c.pending[k]? = some p)
    (hop : p.operation = .wsHandshake) (hcan : c.Cancelled established)
    (hb : b = (c.remove k).cancel .handshake) (hkeeps : b.Keeps c')
    (hv : b.view.handle jsonParse a o .wsHandshake = some c'.view) :
    c'.Cancelled (established ++ [p.attempt]) ↔
      ∀ q ∈ c.pending, q.operation.isDeadline = true → q.attempt = p.attempt →
        q.status ≠ .expired := by
  subst hb
  constructor
  · intro hcan'
    refine (forall_mem_iff_eraseIdx hp _).mpr ⟨fun hd => ?_, fun q hq hd htag hexp => ?_⟩
    · rw [hop] at hd
      cases hd
    · have hcancel := Pending.ages_cancel .handshake q
      have hq' : q.cancel .handshake ∈ ((c.remove k).cancel .handshake).pending :=
        List.mem_map_of_mem hq
      have hexp' : (q.cancel .handshake).status = .expired := hcancel.status_eq hexp nofun
      obtain ⟨q', hmem, hages, hlate⟩ := hkeeps.exists_expired hq' hexp'
      have hfrom := hcancel.trans hages
      have htag' : q'.attempt = p.attempt := hfrom.attempt.trans htag
      have hdone := hcan' q' hmem (hfrom.operation ▸ hd) (by simp [htag'])
      cases hlate.symm.trans hdone
  · intro htime
    refine Cancelled.handle ?_ hkeeps hv nofun
    intro q' hq' hd hmem
    obtain ⟨q, hq, rfl⟩ := List.mem_map.mp hq'
    have hpending : q ∈ c.pending := List.mem_of_mem_eraseIdx hq
    have hcancel := Pending.ages_cancel .handshake q
    rw [hcancel.operation] at hd
    rw [hcancel.attempt, List.mem_append, List.mem_singleton] at hmem
    rcases status_cancel_handshake hd with hdone | ⟨hexp, -⟩
    · exact hdone
    · rcases hmem with hold | hnew
      · cases hexp.symm.trans (hcan q hpending hd hold)
      · exact absurd hexp (htime q hpending hd hnew)

/-- A handshake that succeeds does so before its deadline has expired. -/
def InTime (c : Connector D) (e : ConnectorEvent) : Prop :=
  ∀ a, c.establishes e = some a →
    ∀ p ∈ c.pending, p.operation.isDeadline = true → p.attempt = a → p.status ≠ .expired

theorem cancelled_step_iff (h : c.view.Settled established) (hcan : c.Cancelled established)
    (hs : c.step jsonParse e = some c') :
    c'.Cancelled (observeEstablished established c e c') ↔ c.InTime e := by
  have hidle : c.establishes e = none → c'.Cancelled established →
      (c'.Cancelled (observeEstablished established c e c') ↔ c.InTime e) := by
    intro hnone hcan'
    refine iff_of_true ?_ fun a ha => ?_
    · simpa [observeEstablished, hnone] using hcan'
    · cases hnone.symm.trans ha
  cases e with
  | expire k => exact hidle rfl (cancelled_expire hcan hs)
  | complete k o =>
    obtain ⟨p, hp, -, hhandle⟩ := handle_of_step hs
    have hv := view_of_handle hhandle
    cases hest : c.establishes (.complete k o) with
    | none =>
      have hremove : (c.remove k).Cancelled established := fun q hq =>
        hcan q (List.mem_of_mem_eraseIdx hq)
      refine hidle hest (hremove.handle (keeps_handle hhandle) hv fun hop hmem => ?_)
      have hpast := h.past _ (List.mem_of_getElem? (view_getElem? hp)) hmem
      rw [hop] at hpast
      cases hpast
    | some a =>
      obtain ⟨hop, -, rfl⟩ := (establishes_complete hp).mp hest
      rw [hop] at hhandle hv
      have hiff := cancelled_handshake_iff hp hop hcan rfl
        (keeps_onWsHandshake hhandle) (by rw [view_cancel]; exact hv)
      simp only [observeEstablished, InTime, hest, Option.toList_some, Option.some.injEq,
        forall_eq', hiff]

end Connector

abbrev sessionStep (jsonParse : String → Except StdException Json) :
    Connector D × List ℕ → ConnectorEvent → Option (Connector D × List ℕ) :=
  withHistory (Connector.step jsonParse) observeEstablished

/-- Whatever comes next, a deadline whose handshake has succeeded ends without a call of `fail` and
leaves the session alone. -/
def Spared (jsonParse : String → Except StdException Json) (x : Connector D × List ℕ) : Prop :=
  ∀ e c', x.1.step jsonParse e = some c' → OnCompletion x.1 e fun k o p =>
    p.operation.isDeadline = true → p.attempt ∈ x.2 →
      failure o p.operation = none ∧ c' = x.1.remove k

variable {exchange : Exchange} {events : List ConnectorEvent}

/-- Only a wait that was cancelled cannot end with `fail`. -/
theorem spared_iff (hretry : c.stopped = false → c.retryCount ≤ maxRetry) :
    Spared jsonParse (c, established) ↔ c.Cancelled established := by
  constructor
  · intro h p hp hd hmem
    obtain ⟨k, hk⟩ := List.mem_iff_getElem?.mp hp
    obtain ⟨d, hop⟩ := Operation.isDeadline_iff.mp hd
    by_contra hstatus
    have hend : p.mayEndWith none = true := by
      unfold Pending.mayEndWith
      cases hs : p.status with
      | outstanding | expired => simp
      | cancelled => exact absurd hs hstatus
    have hretry' : (c.remove k).stopped = false → (c.remove k).retryCount ≤ maxRetry := hretry
    obtain ⟨c', hfail⟩ := Option.isSome_iff_exists.mp
      (Connector.fail_isSome hretry' p.attempt .timedOut .unit)
    have hs : c.step jsonParse (.complete k (.success "")) = some c' := by
      simp [Connector.step, hk, Outcome.success, hend, hop, Connector.handle,
        Connector.onHandshakeTimer, hfail]
    obtain ⟨hnone, -⟩ := h _ _ hs k _ p rfl hk hd hmem
    rw [hop] at hnone
    cases hnone
  · rintro h e c' hs k o p rfl hp hd hmem
    obtain ⟨q, hq, hend, hhandle⟩ := Connector.handle_of_step hs
    obtain rfl : p = q := Option.some.inj (hp.symm.trans hq)
    obtain ⟨d, hop⟩ := Operation.isDeadline_iff.mp hd
    have hec : o.ec = some .operationAborted := by
      simpa [Pending.mayEndWith, h p (List.mem_of_getElem? hp) hd hmem] using hend
    rw [hop] at hhandle ⊢
    simp only [Connector.handle, Connector.onHandshakeTimer, hec, ne_eq, not_true_eq_false,
      if_false, Option.some.injEq] at hhandle
    exact ⟨by simp [failure, hec], hhandle.symm⟩

theorem settled_run
    (hrun : run (sessionStep jsonParse) ((Connector.initial exchange : Connector D), []) events =
      some (c, established)) : c.view.Settled established := by
  refine history_invariant (I := fun _ (x : Connector D × List ℕ) => x.1.view.Settled x.2)
    ⟨by simp, by simp⟩ ?_ hrun
  rintro es ⟨t, before⟩ e ⟨t', after⟩ hpre ht hstep
  obtain ⟨hs, rfl⟩ := withHistory_eq_some.mp hstep
  exact settled_step ht (single_run readChain_neverMultiplies (run_of_withHistory hpre)) hs

/-- At every moment of a run the deadlines spare the sessions exactly when each handshake that
succeeds does so before its deadline has expired. -/
theorem deadline_spares_session_iff (exchange : Exchange) (events : List ConnectorEvent) :
    EveryState (sessionStep jsonParse) ((Connector.initial exchange : Connector D), []) events
        (Spared jsonParse) ↔
      EveryStep (sessionStep jsonParse) ((Connector.initial exchange : Connector D), []) events
        (fun x e _ => x.1.InTime e) := by
  refine everyState_iff_everyStep ?_ ?_
  · have hscheduled : (Connector.initial exchange : Connector D).view.Scheduled := scheduled_initial
    refine (spared_iff hscheduled.running).mpr fun p _ _ hmem => ?_
    cases hmem
  · rintro pre e post ⟨c, established⟩ ⟨c', established'⟩ - hpre hspared hstep
    have hscheduled := scheduled_run (run_of_withHistory hpre)
    obtain ⟨hs, rfl⟩ := withHistory_eq_some.mp hstep
    rw [spared_iff hscheduled.running] at hspared
    rw [spared_iff (scheduled_step hscheduled hs).running]
    exact Connector.cancelled_step_iff (settled_run hpre) hspared hs

/-- The deadline expires, its handler is queued, and the handshake succeeds first: then the handler
stops the connector. -/
theorem deadline_retires_session :
    ¬ EveryState (sessionStep (decodeTable [])) ((Connector.initial .binance : Connector ℚ), [])
      ([.complete 0 (.success ""), .complete 0 (.success ""), .complete 0 (.success ""),
        .expire 0, .complete 1 (.success "")] ++ []) (Spared (decodeTable [])) :=
  not_everyState
    (B := fun x => x.1.pending[0]? = some ⟨.wait .handshake 10000, 1, .expired⟩ ∧ 1 ∈ x.2 ∧
      x.1.stopped = false ∧
        (x.1.step (decodeTable []) (.complete 0 (.success ""))).any Connector.stopped)
    (fun x hspared => by
      rw [decide_eq_false_iff_not]
      rintro ⟨hp, hmem, hrunning, hany⟩
      obtain ⟨c', hs, hstopped⟩ := (Option.any_eq_true _ _).mp hany
      obtain ⟨-, rfl⟩ := hspared _ _ hs _ _ _ rfl hp rfl hmem
      exact Bool.false_ne_true (hrunning.symm.trans hstopped))
    (by decide +kernel)

end AsioAggregator
