import AsioAggregator.Feeds
import AsioAggregator.Library.Scripts
import AsioAggregator.Lifetime

/-!
# The stages of an attempt

An attempt resolves, connects, shakes hands twice, subscribes where the exchange wants it, and reads
from then on. Handlers of several attempts, of the timers and of the pings run in between in any
order, but each attempt on its own goes through its stages in this order, one at a time.
-/

namespace AsioAggregator

open Runs Tagged

/-- The operations of an attempt that lead to its messages, in order. -/
def stage (exchange : Exchange) : ℕ → Operation
  | 0 => .resolve
  | 1 => .connect
  | 2 => .sslHandshake
  | 3 => .wsHandshake
  | 4 => if subscriptionMessage exchange ≠ "" then .write else .read
  | _ + 5 => .read

section Successors
variable {exchange : Exchange} {stopped : Bool} {o : Outcome} {op : Operation}

theorem filter_nextPing (stopped : Bool) :
    (nextPing stopped).filter Operation.inReadChain = [] := by
  cases stopped <;> rfl

theorem filter_successors_stage (exchange : Exchange) (stopped : Bool) (o : Outcome) (n : ℕ) :
    (successors exchange stopped o (stage exchange n)).filter Operation.inReadChain =
      [stage exchange (n + 1)] := by
  match n with
  | 0 | 1 | 2 => rfl
  | 3 =>
    simp only [stage, successors]
    split_ifs with hsub
    · rw [List.filter_cons_of_pos rfl, filter_nextPing]
    · rw [List.filter_cons_of_pos rfl, filter_nextPing]
  | 4 =>
    simp only [stage]
    split_ifs <;> rfl
  | _ + 5 => rfl

theorem filter_successors_other (hop : op.inReadChain = false) :
    (successors exchange stopped o op).filter Operation.inReadChain = [] := by
  have hcount := readChain_neverMultiplies.successors exchange stopped o op
  rw [hop, if_neg Bool.false_ne_true, List.countP_eq_length_filter] at hcount
  exact List.length_eq_zero_iff.mp (Nat.le_zero.mp hcount)

end Successors

variable {D : Type} [LinearOrder D]

namespace Connector

/-- The stage that the event ends, with its attempt, and whether it has succeeded. -/
def endsStage (c : Connector D) : ConnectorEvent → Option ((Operation × Bool) × ℕ)
  | .expire _ => none
  | .complete k o => c.pending[k]?.bind fun p =>
    if p.operation.inReadChain then
      some ((p.operation, (failure o p.operation).isNone), p.attempt)
    else none

def onTheWay (c : Connector D) (a : ℕ) : List Operation :=
  under Operation.inReadChain a c.view.operations

end Connector

def observeStages (log : List ((Operation × Bool) × ℕ)) (c : Connector D) (e : ConnectorEvent)
    (_ : Connector D) : List ((Operation × Bool) × ℕ) :=
  log ++ (c.endsStage e).toList

def stagesOf (a : ℕ) (log : List ((Operation × Bool) × ℕ)) : List (Operation × Bool) :=
  under (fun _ => true) a log

/-- All attempts are in their stages, and nothing belongs to any other attempt. -/
structure InStages (c : Connector D) (log : List ((Operation × Bool) × ℕ)) : Prop where
  follows : ∀ a, 1 ≤ a → a ≤ c.attempt →
    FollowsScript (stage c.exchange) (stagesOf a log) (c.onTheWay a)
  pending : ∀ x ∈ c.view.operations, 1 ≤ x.2 ∧ x.2 ≤ c.attempt
  ended : ∀ entry ∈ log, 1 ≤ entry.2 ∧ entry.2 ≤ c.attempt

section Steps
variable {c c' : Connector D} {e : ConnectorEvent} {exchange : Exchange} {k : ℕ} {o : Outcome}
variable {p : Pending} {log : List ((Operation × Bool) × ℕ)} {events : List ConnectorEvent}

theorem stagesOf_concat (a : ℕ) (entry : (Operation × Bool) × ℕ) :
    stagesOf a (log ++ [entry]) = stagesOf a log ++ if entry.2 = a then [entry.1] else [] := by
  rw [stagesOf, under_append, stagesOf]
  by_cases ha : entry.2 = a <;> simp [under, ha]

/-- One operation ends and others are started on behalf of its attempt. -/
theorem InStages.replace (h : InStages c log) (hp : c.pending[k]? = some p)
    (hexchange : c'.exchange = c.exchange) (hattempt : c'.attempt = c.attempt)
    {added : List Operation}
    (hops : c'.view.operations =
      c.view.operations.eraseIdx k ++ added.map fun op => (op, p.attempt))
    (hother : p.operation.inReadChain = false → added.filter Operation.inReadChain = [])
    (hstage : ∀ n, p.operation = stage c.exchange n →
      added.filter Operation.inReadChain =
        if (failure o p.operation).isNone then [stage c.exchange (n + 1)] else []) :
    InStages c' (observeStages log c (.complete k o) c') := by
  have hk := Connector.view_getElem? hp
  have hbounds := h.pending _ (List.mem_of_getElem? hk)
  have hlog : observeStages log c (.complete k o) c' = log ++
      if p.operation.inReadChain then
        [((p.operation, (failure o p.operation).isNone), p.attempt)] else [] := by
    simp only [observeStages, Connector.endsStage, hp, Option.bind_some]
    split_ifs <;> rfl
  refine ⟨fun a hone hle => ?_, ?_, ?_⟩
  · rw [hattempt] at hle
    have hfollows := h.follows a hone hle
    rw [hexchange, hlog, Connector.onTheWay, hops]
    -- only the attempt whose stage ends moves on
    by_cases hmine : p.operation.inReadChain = true ∧ p.attempt = a
    · obtain ⟨hchain, rfl⟩ := hmine
      rw [if_pos hchain, stagesOf_concat, if_pos rfl]
      have hcurrent := (hfollows.current hk hchain).2
      exact hfollows.step hk hchain (hstage _ hcurrent)
    · have hlog' : stagesOf a (log ++ if p.operation.inReadChain then
          [((p.operation, (failure o p.operation).isNone), p.attempt)] else []) =
            stagesOf a log := by
        split_ifs with hchain
        · rw [stagesOf_concat, if_neg fun ha => hmine ⟨hchain, ha⟩, List.append_nil]
        · rw [List.append_nil]
      have hother' : p.operation.inReadChain = false ∨ p.attempt ≠ a := by
        rcases hchain : p.operation.inReadChain with _ | _
        · exact Or.inl rfl
        · exact Or.inr fun ha => hmine ⟨hchain, ha⟩
      rw [hlog', under_step_of_other hk hother' hother]
      exact hfollows
  · rw [hattempt, hops]
    intro x hx
    rcases List.mem_append.mp hx with hold | hnew
    · exact h.pending x (List.mem_of_mem_eraseIdx hold)
    · obtain ⟨op, -, rfl⟩ := List.mem_map.mp hnew
      exact hbounds
  · rw [hattempt, hlog]
    intro entry hentry
    rcases List.mem_append.mp hentry with hold | hnew
    · exact h.ended entry hold
    · split_ifs at hnew
      · rw [List.mem_singleton.mp hnew]
        exact hbounds
      · cases hnew

theorem InStages.start (h : InStages c log) (hp : c.pending[k]? = some p)
    (hop : p.operation.inReadChain = false) (hstart : c'.view = (c.view.remove k).start) :
    InStages c' (observeStages log c (.complete k o) c') := by
  have hk := Connector.view_getElem? hp
  have hexchange : c'.exchange = c.exchange := congrArg View.exchange hstart
  have hattempt : c'.attempt = c.attempt + 1 := congrArg View.attempt hstart
  have hops : c'.view.operations = c.view.operations.eraseIdx k ++
      [(Operation.resolve, c.attempt + 1)] := congrArg View.operations hstart
  have hlog : observeStages log c (.complete k o) c' = log := by
    simp [observeStages, Connector.endsStage, hp, hop]
  rw [hlog]
  refine ⟨fun a hone hle => ?_, ?_, fun entry hentry => ?_⟩
  · have hrest : under Operation.inReadChain a (c.view.operations.eraseIdx k) = c.onTheWay a :=
      under_eraseIdx hk (by rw [hop]; rfl)
    rw [hexchange, Connector.onTheWay, hops, under_append, hrest]
    rcases Nat.lt_or_ge c.attempt a with hlt | hge
    · obtain rfl : a = c.attempt + 1 := by omega
      have hdone : stagesOf (c.attempt + 1) log = [] := under_eq_nil fun entry hentry => by
        have := h.ended entry hentry
        omega
      have hnone : c.onTheWay (c.attempt + 1) = [] := under_eq_nil fun x hx => by
        have := h.pending x hx
        omega
      have hfirst : under Operation.inReadChain (c.attempt + 1)
          [(Operation.resolve, c.attempt + 1)] = [stage c.exchange 0] := by
        simp [under, Operation.inReadChain, stage]
      rw [hdone, hnone, hfirst]
      exact FollowsScript.start _
    · have hnew : under Operation.inReadChain a [(Operation.resolve, c.attempt + 1)] = [] :=
        under_eq_nil fun x hx => by
          rw [List.mem_singleton.mp hx]
          omega
      rw [hnew, List.append_nil]
      exact h.follows a hone hge
  · rw [hattempt, hops]
    intro x hx
    rcases List.mem_append.mp hx with hold | hnew
    · have hx := h.pending x (List.mem_of_mem_eraseIdx hold)
      exact ⟨hx.1, hx.2.trans (Nat.le_succ _)⟩
    · rw [List.mem_singleton.mp hnew]
      exact ⟨Nat.le_add_left _ _, le_rfl⟩
  · rw [hattempt]
    exact ⟨(h.ended entry hentry).1, (h.ended entry hentry).2.trans (Nat.le_succ _)⟩

variable [Zero D] [OfNumeral D] {jsonParse : String → Except StdException Json}

theorem inStages_step (h : InStages c log) (hs : c.step jsonParse e = some c') :
    InStages c' (observeStages log c e c') := by
  cases e with
  | expire k =>
    have hv := Connector.step_expire hs
    have hattempt : c'.attempt = c.attempt := congrArg View.attempt hv
    have hexchange : c'.exchange = c.exchange := congrArg View.exchange hv
    have hlog : observeStages log c (.expire k) c' = log := List.append_nil _
    rw [hlog]
    refine ⟨fun a hone hle => ?_, ?_, ?_⟩
    · rw [hexchange, Connector.onTheWay, hv]
      exact h.follows a hone (hattempt ▸ hle)
    · rw [hattempt, hv]
      exact h.pending
    · rw [hattempt]
      exact h.ended
  | complete k o =>
    obtain ⟨p, hp, -, hv⟩ := Connector.step_complete hs
    obtain ⟨ec, hf, hfail⟩ | ⟨-, hr, hstart⟩ | ⟨hf, -, b, -, hb⟩ := View.handle_cases hv
    · have hframe := View.fail_frame hfail
      obtain ⟨added, hops, hadded⟩ : ∃ added : List Operation,
          c'.view.operations =
            c.view.operations.eraseIdx k ++ added.map (fun op => (op, p.attempt)) ∧
          added.filter Operation.inReadChain = [] := by
        rcases View.fail_operations hfail with hops | ⟨d, hops⟩
        · exact ⟨[], hops.trans (List.append_nil _).symm, rfl⟩
        · exact ⟨[.wait .reconnect d], hops, rfl⟩
      refine h.replace hp hframe.1 hframe.2.2.1 hops (fun _ => hadded) fun n _ => ?_
      rw [hadded, hf]
      rfl
    · obtain ⟨⟨d, hd⟩, -⟩ := restarts_eq_true_iff.mp hr
      exact h.start hp (by rw [hd]; rfl) hstart
    · have hexchange : c'.exchange = c.exchange := congrArg View.exchange hb
      have hattempt : c'.attempt = c.attempt := congrArg View.attempt hb
      refine h.replace hp hexchange hattempt (congrArg View.operations hb)
        filter_successors_other fun n hn => ?_
      rw [hf, hn]
      exact filter_successors_stage c.exchange c.stopped o n

omit [Zero D] [OfNumeral D] in
theorem inStages_initial : InStages (Connector.initial exchange : Connector D) [] := by
  have hview := Connector.view_initial (D := D) exchange
  have hattempt : (Connector.initial exchange : Connector D).attempt = 1 := rfl
  refine ⟨fun a hone hle => ?_, ?_, nofun⟩
  · obtain rfl : a = 1 := by omega
    rw [Connector.onTheWay, hview]
    exact FollowsScript.start (stage exchange)
  · rw [hview, hattempt]
    intro x hx
    rw [List.mem_singleton.mp hx]
    exact ⟨le_rfl, le_rfl⟩

theorem inStages_run
    (hrun : run (withHistory (Connector.step jsonParse) observeStages)
      ((Connector.initial exchange : Connector D), []) events = some (c, log)) :
    InStages c log := by
  refine invariant (I := fun x : Connector D × List ((Operation × Bool) × ℕ) => InStages x.1 x.2)
    inStages_initial ?_ hrun
  rintro ⟨t, l⟩ e ⟨t', l'⟩ h hstep
  obtain ⟨hs, rfl⟩ := withHistory_eq_some.mp hstep
  exact inStages_step h hs

/-- Whatever runs in between, the stages of every attempt end in their order and one at a time: the
next one is pending until one has failed, and from then on none is. -/
theorem session_order
    (hrun : run (withHistory (Connector.step jsonParse) observeStages)
      ((Connector.initial exchange : Connector D), []) events = some (c, log)) :
    (∀ a, 1 ≤ a → a ≤ c.attempt →
        FollowsScript (stage exchange) (stagesOf a log) (c.onTheWay a)) ∧
      (∀ p ∈ c.pending, 1 ≤ p.attempt ∧ p.attempt ≤ c.attempt) ∧
      ∀ entry ∈ log, 1 ≤ entry.2 ∧ entry.2 ≤ c.attempt := by
  have h := inStages_run hrun
  have hexchange : c.exchange = exchange :=
    invariant (I := fun c : Connector D => c.exchange = exchange) rfl
      (fun _ _ _ h hs => (exchange_step hs).trans h) (run_of_withHistory hrun)
  have hpending := (forall_operations_iff fun x => 1 ≤ x.2 ∧ x.2 ≤ c.attempt).mp h.pending
  exact ⟨hexchange ▸ h.follows, hpending, h.ended⟩

end Steps

/-- The first attempt still reads while the second one connects, after a ping has failed. -/
theorem session_order_example :
    ∃ (c : Connector ℚ) (log : List ((Operation × Bool) × ℕ)),
      run (withHistory (Connector.step (decodeTable [])) observeStages)
        (Connector.initial .bybit, [])
        [.complete 0 (.success ""), .complete 0 (.success ""), .complete 0 (.success ""),
          .complete 1 (.success ""), .complete 0 (.error .operationAborted),
          .complete 0 (.success ""), .expire 0, .complete 0 (.success ""),
          .complete 1 (.error .eof), .expire 1, .complete 1 (.success ""),
          .complete 1 (.success ""), .complete 0 (.success "pong")] = some (c, log) ∧
      stagesOf 1 log = [(.resolve, true), (.connect, true), (.sslHandshake, true),
        (.wsHandshake, true), (.write, true), (.read, true)] ∧
      stagesOf 2 log = [(.resolve, true)] ∧
      FollowsScript (stage .bybit) (stagesOf 1 log) (c.onTheWay 1) := by
  obtain ⟨⟨c, log⟩, hrun, hfirst, hsecond, hattempt⟩ := exists_of_run_any
    (P := fun x : Connector ℚ × List ((Operation × Bool) × ℕ) =>
      stagesOf 1 x.2 = [(.resolve, true), (.connect, true), (.sslHandshake, true),
        (.wsHandshake, true), (.write, true), (.read, true)] ∧
      stagesOf 2 x.2 = [(.resolve, true)] ∧ x.1.attempt = 2)
    (show (run (withHistory (Connector.step (decodeTable [])) observeStages)
      ((Connector.initial .bybit : Connector ℚ), [])
      [.complete 0 (.success ""), .complete 0 (.success ""), .complete 0 (.success ""),
        .complete 1 (.success ""), .complete 0 (.error .operationAborted),
        .complete 0 (.success ""), .expire 0, .complete 0 (.success ""),
        .complete 1 (.error .eof), .expire 1, .complete 1 (.success ""),
        .complete 1 (.success ""), .complete 0 (.success "pong")]).any _ = true by decide +kernel)
  have hle : 1 ≤ c.attempt := hattempt ▸ one_le_two
  exact ⟨c, log, hrun, hfirst, hsecond, (session_order hrun).1 1 le_rfl hle⟩

namespace Operation

/-- The pings of an attempt and what it takes to get there. -/
def inClosingChain : Operation → Bool
  | .close => true
  | op => op.inPingChain

/-- The deadline of an attempt and what it takes to get there. -/
def inDeadlineChain : Operation → Bool
  | .resolve | .connect | .sslHandshake | .wait .handshake _ => true
  | _ => false

end Operation

theorem closingChain_neverMultiplies : NeverMultiplies Operation.inClosingChain where
  successors exchange stopped o op := by
    cases op with
    | wsHandshake =>
      cases exchange <;> cases stopped <;> exact Nat.le_of_ble_eq_true rfl
    | ping | jsonPing => cases stopped <;> exact Nat.le_of_ble_eq_true rfl
    | wait timer d =>
      cases timer with
      | ping =>
        obtain h | h | h := successors_pingTimer exchange stopped o d
        all_goals rw [h]; exact le_rfl
      | handshake | reconnect => exact le_rfl
    | _ => exact Nat.le_of_ble_eq_true rfl
  reconnect _ := rfl

theorem deadlineChain_neverMultiplies : NeverMultiplies Operation.inDeadlineChain where
  successors exchange stopped o op := by
    cases op with
    | wsHandshake =>
      cases exchange <;> cases stopped <;> exact Nat.le_of_ble_eq_true rfl
    | ping | jsonPing => cases stopped <;> exact Nat.le_of_ble_eq_true rfl
    | wait timer d =>
      cases timer with
      | ping =>
        obtain h | h | h := successors_pingTimer exchange stopped o d
        all_goals rw [h]; exact le_rfl
      | handshake => exact Nat.zero_le _
      | reconnect => exact le_rfl
    | _ => exact Nat.le_of_ble_eq_true rfl
  reconnect _ := rfl

/-- Every operation is of one of four kinds. -/
theorem kind_of_operation (op : Operation) :
    op.inReadChain ∨ op.inClosingChain ∨ op.inDeadlineChain ∨ op.isReconnectWait := by
  cases op with
  | wait timer d =>
    cases timer with
    | handshake => exact Or.inr (Or.inr (Or.inl rfl))
    | ping => exact Or.inr (Or.inl rfl)
    | reconnect => exact Or.inr (Or.inr (Or.inr rfl))
  | resolve | connect | sslHandshake | wsHandshake | write | read => exact Or.inl rfl
  | ping | jsonPing | close => exact Or.inr (Or.inl rfl)

theorem length_operations_le (operations : List (Operation × ℕ)) :
    operations.length ≤ operations.countP (fun x => x.1.inReadChain) +
      operations.countP (fun x => x.1.inClosingChain) +
      operations.countP (fun x => x.1.inDeadlineChain) +
      operations.countP fun x => x.1.isReconnectWait := by
  induction operations with
  | nil => exact Nat.zero_le _
  | cons x operations ih =>
    simp only [List.length_cons, List.countP_cons]
    rcases kind_of_operation x.1 with h | h | h | h <;> rw [if_pos h] <;> omega

namespace Connector

def pendingOf (c : Connector D) (P : Operation → Bool) (a : ℕ) : List Pending :=
  c.pending.filter fun p => P p.operation && p.attempt = a

theorem length_pendingOf (c : Connector D) (P : Operation → Bool) (a : ℕ) :
    (c.pendingOf P a).length = count P a c.view.operations := by
  rw [pendingOf, ← List.countP_eq_length_filter, count, view, List.countP_map]
  rfl

theorem length_pendingOf_le {c : Connector D} {a : ℕ}
    (hread : (c.pendingOf Operation.inReadChain a).length ≤ 1)
    (hclosing : (c.pendingOf Operation.inClosingChain a).length ≤ 1)
    (hdeadline : (c.pendingOf Operation.inDeadlineChain a).length ≤ 1) :
    (c.pendingOf (fun op => !op.isReconnectWait) a).length ≤ 3 := by
  rw [length_pendingOf] at hread hclosing hdeadline ⊢
  let mine := c.view.operations.filter fun x => !x.1.isReconnectWait && x.2 = a
  have hle : ∀ P : Operation → Bool,
      mine.countP (fun x => P x.1) ≤ count P a c.view.operations := by
    intro P
    rw [List.countP_filter]
    refine List.countP_mono_left fun x _ hx => ?_
    simp only [Bool.and_eq_true, decide_eq_true_iff] at hx ⊢
    exact ⟨hx.1, hx.2.2⟩
  have hnone : mine.countP (fun x => x.1.isReconnectWait) = 0 := by
    refine List.countP_eq_zero.mpr fun x hx => ?_
    simpa using (Bool.and_eq_true_iff.mp (List.mem_filter.mp hx).2).1
  have hkinds := length_operations_le mine
  have hmine : count (fun op => !op.isReconnectWait) a c.view.operations = mine.length :=
    List.countP_eq_length_filter
  have hr := hle Operation.inReadChain
  have hc := hle Operation.inClosingChain
  have hd := hle Operation.inDeadlineChain
  omega

end Connector

section Bound
variable [Zero D] [OfNumeral D] {jsonParse : String → Except StdException Json}
variable {c : Connector D} {exchange : Exchange} {events : List ConnectorEvent}

theorem length_pendingOf_le_one {P : Operation → Bool} (hP : NeverMultiplies P)
    (hrun : run (Connector.step jsonParse) (Connector.initial exchange : Connector D) events =
      some c) (a : ℕ) : (c.pendingOf P a).length ≤ 1 := by
  rw [Connector.length_pendingOf]
  exact (single_run hP hrun).once a

theorem length_pending_le
    (hrun : run (Connector.step jsonParse) (Connector.initial exchange : Connector D) events =
      some c) (htags : ∀ x ∈ c.view.operations, 1 ≤ x.2 ∧ x.2 ≤ c.attempt) :
    c.pending.length ≤ 3 * c.attempt + c.reconnectWaits.length := by
  have hkind : ∀ {P}, NeverMultiplies P →
      c.view.operations.countP (fun x => P x.1) ≤ c.attempt := fun hP =>
    countP_le_of_count_le_one (single_run hP hrun).once htags
  have hview : c.view.operations.length = c.pending.length := List.length_map _
  have hkinds := length_operations_le c.view.operations
  have hreads := hkind readChain_neverMultiplies
  have hclosings := hkind closingChain_neverMultiplies
  have hdeadlines := hkind deadlineChain_neverMultiplies
  rw [Connector.length_reconnectWaits]
  omega

/-- Each attempt has one operation of each kind pending at most, and so three besides a reconnect,
of which there is one in all. A connector never has more than thirty-three. -/
theorem pending_is_bounded
    (hrun : run (Connector.step jsonParse) (Connector.initial exchange : Connector D) events =
      some c) :
    (∀ a, (c.pendingOf Operation.inReadChain a).length ≤ 1 ∧
        (c.pendingOf Operation.inClosingChain a).length ≤ 1 ∧
        (c.pendingOf Operation.inDeadlineChain a).length ≤ 1 ∧
        (c.pendingOf (fun op => !op.isReconnectWait) a).length ≤ 3) ∧
      c.reconnectWaits.length ≤ 1 ∧
      (∀ p ∈ c.pending, 1 ≤ p.attempt ∧ p.attempt ≤ c.attempt ∧
        (p.operation.inReadChain ∨ p.operation.inClosingChain ∨ p.operation.inDeadlineChain ∨
          p.operation.isReconnectWait)) ∧
      c.pending.length ≤ 3 * c.attempt + c.reconnectWaits.length ∧ c.pending.length ≤ 33 := by
  obtain ⟨log, hlog⟩ := exists_history observeStages [] hrun
  obtain ⟨life, hlife⟩ := exists_history observeLife .start hrun
  have hbudget := budgeted_run hlife
  have htags := (inStages_run hlog).pending
  have hread := length_pendingOf_le_one readChain_neverMultiplies hrun
  have hclosing := length_pendingOf_le_one closingChain_neverMultiplies hrun
  have hdeadline := length_pendingOf_le_one deadlineChain_neverMultiplies hrun
  have hwaits := Connector.length_reconnectWaits (c := c)
  have hlength := length_pending_le hrun htags
  refine ⟨fun a => ⟨hread a, hclosing a, hdeadline a,
    Connector.length_pendingOf_le (hread a) (hclosing a) (hdeadline a)⟩, ?_, fun p hp => ?_,
    hlength, ?_⟩
  · rw [hwaits]
    exact hbudget.scheduled.one
  · obtain ⟨hone, hle⟩ := htags _ (List.mem_map_of_mem hp)
    exact ⟨hone, hle, kind_of_operation p.operation⟩
  · -- a connector with a wait more has made an attempt less
    have hattempts := hbudget.attempts
    have hdelays : life.delays.length ≤ 10 := hbudget.count.trans_le (Nat.min_le_right _ _)
    omega

end Bound

theorem pending_is_bounded_example :
    ∃ c : Connector ℚ, run (Connector.step (decodeTable [])) (Connector.initial .okx)
      [.complete 0 (.success ""), .complete 0 (.success ""), .complete 0 (.success ""),
        .complete 1 (.success "")] = some c ∧ c.pending.length = 3 ∧
      (c.pendingOf Operation.inDeadlineChain 1).length ≤ 1 ∧ c.pending.length ≤ 33 := by
  obtain ⟨c, hrun, hlength⟩ := exists_of_run_any
    (P := fun c : Connector ℚ => c.pending.length = 3)
    (show (run (Connector.step (decodeTable [])) (Connector.initial .okx : Connector ℚ)
      [.complete 0 (.success ""), .complete 0 (.success ""), .complete 0 (.success ""),
        .complete 1 (.success "")]).any _ = true by decide +kernel)
  obtain ⟨hkinds, -, -, -, hbound⟩ := pending_is_bounded hrun
  exact ⟨c, hrun, hlength, (hkinds 1).2.2.1, hbound⟩

end AsioAggregator
