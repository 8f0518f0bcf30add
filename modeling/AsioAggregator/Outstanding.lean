import AsioAggregator.Lifecycle
import AsioAggregator.Library.Tagged

/-!
# One read and one write at a time

A websocket stream allows one pending read and one pending write. Within an attempt the operations
follow each other in two chains, from the resolving on to the reads and from the resolving on to the
pings, and each chain has at most one operation pending. Two reads meet only where two attempts
overlap; two writes also where the ping timer expires before the subscription is written.
-/

namespace AsioAggregator

open Runs Tagged

namespace Operation

def isRead : Operation → Bool
  | .read => true
  | _ => false

def isWrite : Operation → Bool
  | .write | .jsonPing => true
  | _ => false

def inReadChain : Operation → Bool
  | .resolve | .connect | .sslHandshake | .wsHandshake | .write | .read => true
  | _ => false

def inPingChain : Operation → Bool
  | .resolve | .connect | .sslHandshake | .wsHandshake | .wait .ping _ | .ping | .jsonPing => true
  | _ => false

end Operation

/-- Whether a read follows the operation when it succeeds. -/
def startsRead (exchange : Exchange) : Operation → Bool
  | .write | .read => true
  | .wsHandshake => exchange = .binance
  | _ => false

def startsWrite (exchange : Exchange) (stopped : Bool) : Operation → Bool
  | .wsHandshake => exchange ≠ .binance
  | .wait .ping _ => !stopped && exchange ≠ .binance
  | _ => false

section Successors
variable (exchange : Exchange) (stopped : Bool) (o : Outcome) (op : Operation)

theorem countP_read_successors :
    (successors exchange stopped o op).countP Operation.isRead =
      if startsRead exchange op then 1 else 0 := by
  cases op with
  | wsHandshake => cases exchange <;> cases stopped <;> rfl
  | ping => cases stopped <;> rfl
  | jsonPing => cases stopped <;> rfl
  | wait timer d =>
    cases timer with
    | ping =>
      obtain h | h | h := successors_pingTimer exchange stopped o d
      all_goals rw [h]; rfl
    | _ => rfl
  | _ => rfl

theorem countP_write_successors (hec : o.ec = none) :
    (successors exchange stopped o op).countP Operation.isWrite =
      if startsWrite exchange stopped op then 1 else 0 := by
  cases op with
  | wsHandshake => cases exchange <;> cases stopped <;> rfl
  | ping => cases stopped <;> rfl
  | jsonPing => cases stopped <;> rfl
  | wait timer d =>
    cases timer with
    | ping =>
      simp only [successors, hec, Option.isSome_none, Bool.or_false]
      cases stopped <;> cases exchange <;> rfl
    | _ => rfl
  | _ => rfl

end Successors

theorem successors_of_error {exchange : Exchange} {stopped : Bool} {o : Outcome} {op : Operation}
    (hec : o.ec ≠ none) (hf : failure o op = none) :
    successors exchange stopped o op = [] ∨ successors exchange stopped o op = [.close] := by
  have hsome : o.ec.isSome = true := Option.isSome_iff_ne_none.mpr hec
  cases op with
  | wait timer d =>
    cases timer with
    | ping => exact Or.inr (by simp [successors, hsome])
    | _ => exact Or.inl rfl
  | close => exact Or.inl rfl
  | connect => exact absurd (Option.or_eq_none_iff.mp hf).1 hec
  | _ => exact absurd hf hec

theorem startsRead_inReadChain {exchange : Exchange} {op : Operation}
    (h : startsRead exchange op = true) : op.inReadChain = true := by
  cases op with
  | write | read | wsHandshake => rfl
  | _ => simp [startsRead] at h

theorem isRead_inReadChain {op : Operation} (h : op.isRead = true) : op.inReadChain = true := by
  cases op with
  | read => rfl
  | _ => simp [Operation.isRead] at h

theorem startsWrite_inPingChain {exchange : Exchange} {stopped : Bool} {op : Operation}
    (h : startsWrite exchange stopped op = true) : op.inPingChain = true ∧ op.isWrite = false := by
  cases op with
  | wsHandshake => exact ⟨rfl, rfl⟩
  | wait timer d =>
    cases timer with
    | ping => exact ⟨rfl, rfl⟩
    | _ => simp [startsWrite] at h
  | _ => simp [startsWrite] at h

theorem isWrite_inPingChain {op : Operation} (h : op.isWrite = true) :
    op = .write ∨ op.inPingChain = true := by
  cases op with
  | write => exact Or.inl rfl
  | jsonPing => exact Or.inr rfl
  | _ => simp [Operation.isWrite] at h

/-- A kind of operation whose successors hold no more of the kind. -/
structure NeverMultiplies (P : Operation → Bool) : Prop where
  successors : ∀ exchange stopped o op,
    (successors exchange stopped o op).countP P ≤ if P op then 1 else 0
  reconnect : ∀ d, P (.wait .reconnect d) = false

theorem readChain_neverMultiplies : NeverMultiplies Operation.inReadChain where
  successors exchange stopped o op := by
    cases op with
    | wsHandshake => cases exchange <;> cases stopped <;> exact le_rfl
    | ping => cases stopped <;> exact le_rfl
    | jsonPing => cases stopped <;> exact le_rfl
    | wait timer d =>
      cases timer with
      | ping =>
        obtain h | h | h := successors_pingTimer exchange stopped o d
        all_goals rw [h]; exact le_rfl
      | _ => exact le_rfl
    | _ => exact le_rfl
  reconnect _ := rfl

theorem pingChain_neverMultiplies : NeverMultiplies Operation.inPingChain where
  successors exchange stopped o op := by
    cases op with
    | wsHandshake =>
      cases stopped with
      | true => cases exchange <;> exact zero_le_one
      | false => cases exchange <;> exact le_rfl
    | ping =>
      cases stopped with
      | true => exact zero_le_one
      | false => exact le_rfl
    | jsonPing =>
      cases stopped with
      | true => exact zero_le_one
      | false => exact le_rfl
    | wait timer d =>
      cases timer with
      | ping =>
        obtain h | h | h := successors_pingTimer exchange stopped o d
        · rw [h]
          exact zero_le_one
        all_goals rw [h]; exact le_rfl
      | _ => exact le_rfl
    | _ => exact le_rfl
  reconnect _ := rfl

variable {D : Type} [LinearOrder D]

/-- Each attempt has at most one operation of the kind. -/
structure View.Single (P : Operation → Bool) (v : View D) : Prop where
  once : ∀ a, count P a v.operations ≤ 1
  bounded : ∀ x ∈ v.operations, x.2 ≤ v.attempt

theorem View.fail_operations {v v' : View D} {a : ℕ} {ec : ErrorCode} {jitter : Jitter}
    (h : v.fail a ec jitter = some v') : v'.operations = v.operations ∨
      ∃ d, v'.operations = v.operations ++ [(.wait .reconnect d, a)] := by
  by_cases hstopped : v.stopped = true
  · rw [fail_of_stopped hstopped, Option.some.injEq] at h
    exact Or.inl (congrArg View.operations h.symm)
  · obtain ⟨-, rfl⟩ | ⟨-, ⟨-, rfl⟩ | ⟨-, d, -, rfl⟩⟩ :=
      fail_of_running (Bool.eq_false_iff.mpr hstopped) h
    · exact Or.inl rfl
    · exact Or.inl rfl
    · exact Or.inr ⟨d, rfl⟩

namespace View.Single
variable {v v' : View D} {P : Operation → Bool} {k a : ℕ} {o : Outcome} {op : Operation}

theorem remove (h : v.Single P) (k : ℕ) : (v.remove k).Single P where
  once a := (List.eraseIdx_sublist _ k).countP_le.trans (h.once a)
  bounded x hx := h.bounded x (List.mem_of_mem_eraseIdx hx)

theorem fail {ec : ErrorCode} {jitter : Jitter} (hP : NeverMultiplies P) (h : v.Single P)
    (ha : a ≤ v.attempt) (hfail : v.fail a ec jitter = some v') : v'.Single P := by
  have hattempt := (fail_frame hfail).2.2.1
  rcases fail_operations hfail with hops | ⟨d, hops⟩
  · exact ⟨hops ▸ h.once, fun x hx => hattempt ▸ h.bounded x (hops ▸ hx)⟩
  · refine ⟨fun b => ?_, fun x hx => ?_⟩
    · rw [hops, count_append]
      simpa [count, hP.reconnect] using h.once b
    · rw [hops, List.mem_append, List.mem_singleton] at hx
      rw [hattempt]
      rcases hx with hx | rfl
      · exact h.bounded x hx
      · exact ha

theorem start (h : v.Single P) : v.start.Single P := by
  refine ⟨fun a => ?_, fun x hx => ?_⟩
  · have hcount : count P a v.start.operations =
        count P a v.operations + count P a [(Operation.resolve, v.attempt + 1)] := count_append ..
    have hone : count P a [(Operation.resolve, v.attempt + 1)] ≤ 1 := List.countP_le_length
    by_cases hnew : v.attempt + 1 = a
    · have hfresh : count P a v.operations = 0 := by
        refine count_eq_zero_iff.mpr fun x hx _ heq => ?_
        have hle := h.bounded x hx
        omega
      omega
    · have hold : count P a [(Operation.resolve, v.attempt + 1)] = 0 := by
        refine count_eq_zero_iff.mpr fun x hx _ heq => ?_
        rw [List.mem_singleton.mp hx] at heq
        exact hnew heq
      have honce := h.once a
      omega
  · rcases List.mem_append.mp hx with hx | hx
    · exact (h.bounded x hx).trans (Nat.le_succ _)
    · rw [List.mem_singleton.mp hx]
      exact le_rfl

theorem proceed (hP : NeverMultiplies P) (h : v.Single P) (hk : v.operations[k]? = some (op, a))
    (b : Books D) : ((v.remove k).proceed a o op b).Single P := by
  refine ⟨fun a' => ?_, fun x hx => ?_⟩
  · exact (count_step_le hk (hP.successors v.exchange v.stopped o op) a').trans (h.once a')
  · rcases List.mem_append.mp hx with hx | hx
    · exact h.bounded x (List.mem_of_mem_eraseIdx hx)
    · have hle : a ≤ v.attempt := h.bounded _ (List.mem_of_getElem? hk)
      obtain ⟨op', -, rfl⟩ := List.mem_map.mp hx
      exact hle

end View.Single

theorem single_initial (exchange : Exchange) (P : Operation → Bool) :
    (Connector.initial exchange : Connector D).view.Single P := by
  rw [Connector.view_initial]
  exact ⟨fun a => List.countP_le_length, by simp⟩

section Pending
variable {c c' : Connector D} {k : ℕ} {o : Outcome} {p : Pending}

structure OnePending (c : Connector D) : Prop where
  reads : c.pending.countP (fun p => p.operation.isRead) ≤ 1
  writes : c.pending.countP (fun p => p.operation.isWrite) ≤ 1

/-- Where the success of `p` starts a read or a write, no other attempt has one pending; where it
starts a ping, the subscription is not pending either. -/
structure KeptApart (c : Connector D) (p : Pending) : Prop where
  reads : startsRead c.exchange p.operation = true →
    ∀ q ∈ c.pending, q.operation.isRead = true → q.attempt = p.attempt
  writes : startsWrite c.exchange c.stopped p.operation = true →
    ∀ q ∈ c.pending, q.operation.isWrite = true → q.attempt = p.attempt
  pings : startsWrite c.exchange c.stopped p.operation = true → p.operation ≠ .wsHandshake →
    ∀ q ∈ c.pending, q.operation ≠ .write

theorem onePending_iff : OnePending c ↔
    c.view.operations.countP (fun x => x.1.isRead) ≤ 1 ∧
      c.view.operations.countP (fun x => x.1.isWrite) ≤ 1 := by
  rw [Connector.countP_view, Connector.countP_view]
  exact ⟨fun h => ⟨h.reads, h.writes⟩, fun h => ⟨h.1, h.2⟩⟩

theorem forall_operations_iff (Q : Operation × ℕ → Prop) :
    (∀ x ∈ c.view.operations, Q x) ↔ ∀ q ∈ c.pending, Q (q.operation, q.attempt) :=
  List.forall_mem_map

theorem OnePending.of_idle {added : List (Operation × ℕ)} (hone : OnePending c)
    (hops : c'.view.operations = c.view.operations.eraseIdx k ++ added)
    (hadded : ∀ x ∈ added, x.1.isRead = false ∧ x.1.isWrite = false) : OnePending c' := by
  obtain ⟨hreads, hwrites⟩ := onePending_iff.mp hone
  have hidle : ∀ P : Operation → Bool, (∀ x ∈ added, P x.1 = false) →
      c.view.operations.countP (fun x => P x.1) ≤ 1 →
      c'.view.operations.countP (fun x => P x.1) ≤ 1 := by
    intro P hP hle
    have hzero : added.countP (fun x => P x.1) = 0 :=
      List.countP_eq_zero.mpr fun x hx => by simp [hP x hx]
    rw [hops, List.countP_append, hzero]
    exact (List.eraseIdx_sublist _ k).countP_le.trans hle
  exact onePending_iff.mpr ⟨hidle _ (fun x hx => (hadded x hx).1) hreads,
    hidle _ (fun x hx => (hadded x hx).2) hwrites⟩

theorem reads_after_success_iff (hp : c.pending[k]? = some p) (hone : OnePending c)
    (hread : c.view.Single Operation.inReadChain) :
    (c.view.operations.eraseIdx k ++ (successors c.exchange c.stopped o p.operation).map
        fun op => (op, p.attempt)).countP (fun x => x.1.isRead) ≤ 1 ↔
      (startsRead c.exchange p.operation = true →
        ∀ q ∈ c.pending, q.operation.isRead = true → q.attempt = p.attempt) := by
  have hk := Connector.view_getElem? hp
  have hsuccessors := countP_read_successors c.exchange c.stopped o p.operation
  refine (countP_step_le_one_iff (Q := fun y => y.2 = p.attempt) hk (onePending_iff.mp hone).1
    hsuccessors (fun _ _ => rfl) fun hstarts y hy hP => ?_).trans ?_
  · have hchain := startsRead_inReadChain hstarts
    exact ne_tag_of_count_le_one hk hchain (hread.once p.attempt) y hy (isRead_inReadChain hP)
  · rw [forall_operations_iff]

/-- After a handshake both chains are empty, and after a ping wait only the second one. -/
theorem writes_after_success_iff (hp : c.pending[k]? = some p) (hone : OnePending c)
    (hread : c.view.Single Operation.inReadChain) (hping : c.view.Single Operation.inPingChain)
    (hec : o.ec = none) :
    (c.view.operations.eraseIdx k ++ (successors c.exchange c.stopped o p.operation).map
        fun op => (op, p.attempt)).countP (fun x => x.1.isWrite) ≤ 1 ↔
      (startsWrite c.exchange c.stopped p.operation = true →
        ∀ q ∈ c.pending, q.operation.isWrite = true →
          q.attempt = p.attempt ∧ (p.operation ≠ .wsHandshake → q.operation ≠ .write)) := by
  have hk := Connector.view_getElem? hp
  have hsuccessors := countP_write_successors c.exchange c.stopped o p.operation hec
  refine (countP_step_le_one_iff
    (Q := fun y => y.2 = p.attempt ∧ (p.operation ≠ .wsHandshake → y.1 ≠ .write)) hk
    (onePending_iff.mp hone).2 hsuccessors (fun hstarts hP => ?_)
    fun hstarts y hy hP hQ => ?_).trans ?_
  · simp [(startsWrite_inPingChain hstarts).2] at hP
  · rcases isWrite_inPingChain hP with hwrite | hchain
    · have hop : p.operation = .wsHandshake := by
        by_contra hne
        exact hQ.2 hne hwrite
      have hchain : p.operation.inReadChain = true := by rw [hop]; rfl
      have hy' : y.1.inReadChain = true := by rw [hwrite]; rfl
      exact ne_tag_of_count_le_one hk hchain (hread.once p.attempt) y hy hy' hQ.1
    · have hp' := (startsWrite_inPingChain hstarts).1
      exact ne_tag_of_count_le_one hk hp' (hping.once p.attempt) y hy hchain hQ.1
  · rw [forall_operations_iff]

theorem onePending_proceed_iff (hp : c.pending[k]? = some p) (hone : OnePending c)
    (hread : c.view.Single Operation.inReadChain) (hping : c.view.Single Operation.inPingChain)
    (hec : o.ec = none)
    (hops : c'.view.operations = c.view.operations.eraseIdx k ++
      (successors c.exchange c.stopped o p.operation).map fun op => (op, p.attempt)) :
    OnePending c' ↔ KeptApart c p := by
  rw [onePending_iff, hops, reads_after_success_iff hp hone hread,
    writes_after_success_iff hp hone hread hping hec]
  constructor
  · rintro ⟨hr, hw⟩
    exact {
      reads := hr
      writes := fun h q hq hP => (hw h q hq hP).1
      pings := fun h hne q hq hwrite => (hw h q hq (by rw [hwrite]; rfl)).2 hne hwrite }
  · intro hapart
    exact ⟨hapart.reads, fun h q hq hP =>
      ⟨hapart.writes h q hq hP, fun hne => hapart.pings h hne q hq⟩⟩

theorem keptApart_of_idle (hec : o.ec = none)
    (hidle : failure o p.operation ≠ none ∨ restarts o p.operation = true) : KeptApart c p := by
  have hreads : startsRead c.exchange p.operation ≠ true := by
    intro h
    cases hop : p.operation with
    | write | read | wsHandshake => simp [hop, failure, restarts, hec] at hidle
    | _ => simp [hop, startsRead] at h
  have hwrites : startsWrite c.exchange c.stopped p.operation ≠ true := by
    intro h
    cases hop : p.operation with
    | wsHandshake => simp [hop, failure, restarts, hec] at hidle
    | wait timer d =>
      cases timer with
      | ping => simp [hop, failure, restarts] at hidle
      | _ => simp [hop, startsWrite] at h
    | _ => simp [hop, startsWrite] at h
  exact ⟨fun h => absurd h hreads, fun h => absurd h hwrites, fun h => absurd h hwrites⟩

end Pending

section Steps
variable [Zero D] [OfNumeral D] {jsonParse : String → Except StdException Json}
variable {c c' : Connector D} {e : ConnectorEvent} {exchange : Exchange}
variable {events : List ConnectorEvent} {P : Operation → Bool}

theorem single_step (hP : NeverMultiplies P) (h : c.view.Single P)
    (hs : c.step jsonParse e = some c') : c'.view.Single P := by
  cases e with
  | expire k => exact Connector.step_expire hs ▸ h
  | complete k o =>
    obtain ⟨p, hp, -, hv⟩ := Connector.step_complete hs
    have hk := Connector.view_getElem? hp
    obtain ⟨ec, -, hfail⟩ | ⟨-, -, hstart⟩ | ⟨-, -, b, -, hb⟩ := View.handle_cases hv
    · exact (h.remove k).fail hP (h.bounded _ (List.mem_of_getElem? hk)) hfail
    · exact hstart ▸ (h.remove k).start
    · exact hb ▸ View.Single.proceed hP h hk b

theorem single_run (hP : NeverMultiplies P)
    (hrun : run (Connector.step jsonParse) (Connector.initial exchange) events = some c) :
    c.view.Single P :=
  invariant (I := fun c : Connector D => c.view.Single P) (single_initial exchange P)
    (fun _ _ _ h hs => single_step hP h hs) hrun

theorem onePending_step_iff (hone : OnePending c) (hread : c.view.Single Operation.inReadChain)
    (hping : c.view.Single Operation.inPingChain) (hs : c.step jsonParse e = some c') :
    OnePending c' ↔ OnCompletion c e fun _ o p => o.ec = none → KeptApart c p := by
  cases e with
  | expire k =>
    refine iff_of_true ?_ onCompletion_expire
    rw [onePending_iff, Connector.step_expire hs, ← onePending_iff]
    exact hone
  | complete k o =>
    obtain ⟨p, hp, -, hv⟩ := Connector.step_complete hs
    rw [onCompletion_complete hp]
    obtain ⟨ec, hf, hfail⟩ | ⟨hf, hr, hstart⟩ | ⟨hf, -, b, -, hb⟩ := View.handle_cases hv
    · refine iff_of_true ?_ fun hec => keptApart_of_idle hec (Or.inl (by simp [hf]))
      rcases View.fail_operations hfail with hops | ⟨d, hops⟩
      · exact hone.of_idle (hops.trans (List.append_nil _).symm) nofun
      · refine hone.of_idle hops fun x hx => ?_
        rw [List.mem_singleton.mp hx]
        exact ⟨rfl, rfl⟩
    · refine iff_of_true ?_ fun hec => keptApart_of_idle hec (Or.inr hr)
      refine hone.of_idle (congrArg View.operations hstart) fun x hx => ?_
      rw [List.mem_singleton.mp hx]
      exact ⟨rfl, rfl⟩
    · have hops : c'.view.operations = c.view.operations.eraseIdx k ++
          (successors c.exchange c.stopped o p.operation).map fun op => (op, p.attempt) :=
        congrArg View.operations hb
      by_cases hec : o.ec = none
      · rw [onePending_proceed_iff hp hone hread hping hec hops]
        exact ⟨fun h _ => h, fun h => h hec⟩
      · refine iff_of_true (hone.of_idle hops fun x hx => ?_) fun hnone => absurd hnone hec
        obtain ⟨op, hop, rfl⟩ := List.mem_map.mp hx
        rcases successors_of_error hec hf with hnil | hclose
        · rw [hnil] at hop
          cases hop
        · rw [hclose, List.mem_singleton] at hop
          rw [hop]
          exact ⟨rfl, rfl⟩

/-- At every moment of a run at most one read and one write are pending exactly when each success
that starts one finds those of the other attempts, and the subscription, done. -/
theorem one_pending_iff (exchange : Exchange) (events : List ConnectorEvent) :
    EveryState (Connector.step jsonParse) (Connector.initial exchange : Connector D) events
        OnePending ↔
      EveryStep (Connector.step jsonParse) (Connector.initial exchange : Connector D) events
        (fun c e _ => OnCompletion c e fun _ o p => o.ec = none → KeptApart c p) := by
  refine everyState_iff_everyStep ⟨?_, ?_⟩ ?_
  · exact List.countP_le_length
  · exact List.countP_le_length
  · rintro pre e post c c' - hpre hone hs
    exact onePending_step_iff hone (single_run readChain_neverMultiplies hpre)
      (single_run pingChain_neverMultiplies hpre) hs

end Steps

/-- The ping timer expires while the subscription is still being written. -/
theorem ping_during_subscription :
    ¬ EveryState (Connector.step (decodeTable [])) (Connector.initial .okx : Connector ℚ)
      ([.complete 0 (.success ""), .complete 0 (.success ""), .complete 0 (.success ""),
        .complete 1 (.success ""), .complete 2 (.success "")] ++ []) OnePending :=
  not_everyState
    (B := fun c => 1 < c.pending.countP fun p => p.operation.isWrite)
    (fun c hone => by
      rw [decide_eq_false_iff_not, not_lt]
      exact hone.writes)
    (by decide +kernel)

end AsioAggregator
