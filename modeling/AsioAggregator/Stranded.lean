import AsioAggregator.Outstanding
import AsioAggregator.Process
import AsioAggregator.Reconnect

/-!
# Subscribers that wait for ever

A `SubscribeBook` thread blocks until its snapshot has run, and only `ioc.run()` runs snapshots. It
returns as soon as the connectors have nothing pending and the strand is empty, while the server
still accepts calls and goes on with those it has. Whoever asks for a snapshot then waits for ever.
-/

namespace AsioAggregator

open Runs

variable {D : Type} [LinearOrder D]

theorem exists_successor_inReadChain (exchange : Exchange) (stopped : Bool) (o : Outcome)
    {op : Operation} (h : op.inReadChain = true) :
    ∃ op' ∈ successors exchange stopped o op, op'.inReadChain = true := by
  cases op with
  | resolve => exact ⟨.connect, List.mem_singleton_self _, rfl⟩
  | connect => exact ⟨.sslHandshake, List.mem_singleton_self _, rfl⟩
  | sslHandshake => exact ⟨.wsHandshake, by simp [successors], rfl⟩
  | wsHandshake =>
    refine ⟨_, List.mem_cons_self, ?_⟩
    split_ifs <;> rfl
  | write | read => exact ⟨.read, List.mem_singleton_self _, rfl⟩
  | _ => simp [Operation.inReadChain] at h

def View.Active (v : View D) : Prop :=
  v.stopped = false → ∃ x ∈ v.operations, x.1.inReadChain = true

theorem givenUp_of_idle {c : Connector D} (h : c.view.Active) (hidle : c.pending = []) :
    c.view.GivenUp := by
  have hnil : c.view.operations = [] := by simp [Connector.view, hidle]
  constructor
  · by_contra hstopped
    obtain ⟨x, hx, -⟩ := h (by simpa using hstopped)
    simp [hnil] at hx
  · rw [hnil]
    rfl

section Active
variable [Zero D] [OfNumeral D] {jsonParse : String → Except StdException Json}
variable {c c' : Connector D} {e : ConnectorEvent} {exchange : Exchange}
variable {events : List ConnectorEvent}

theorem active_step (h : c.view.Active) (hs : c.step jsonParse e = some c') : c'.view.Active := by
  cases e with
  | expire k => exact Connector.step_expire hs ▸ h
  | complete k o =>
    obtain ⟨p, hp, -, hv⟩ := Connector.step_complete hs
    have hk := Connector.view_getElem? hp
    intro hrunning
    obtain ⟨ec, -, hfail⟩ | ⟨-, -, hstart⟩ | ⟨-, -, b, -, hb⟩ := View.handle_cases hv
    · have hstopped := (View.fail_frame hfail).2.2.2
      exact absurd (hrunning.symm.trans hstopped) Bool.false_ne_true
    · rw [hstart]
      exact ⟨_, List.mem_append_right _ (List.mem_singleton_self _), rfl⟩
    · rw [hb] at hrunning ⊢
      by_cases hchain : p.operation.inReadChain = true
      · obtain ⟨op, hop, hread⟩ := exists_successor_inReadChain c.exchange c.stopped o hchain
        exact ⟨(op, p.attempt), List.mem_append_right _ (List.mem_map_of_mem hop), hread⟩
      · obtain ⟨x, hx, hread⟩ := h hrunning
        obtain ⟨i, hi⟩ := List.mem_iff_getElem?.mp hx
        have hne : i ≠ k := by
          rintro rfl
          rw [hk, Option.some.injEq] at hi
          rw [← hi] at hread
          exact hchain hread
        have hmem : x ∈ c.view.operations.eraseIdx k :=
          List.mem_eraseIdx_iff_getElem?.mpr ⟨i, hne, hi⟩
        exact ⟨x, List.mem_append_left _ hmem, hread⟩

theorem active_run
    (hrun : run (Connector.step jsonParse) (Connector.initial exchange) events = some c) :
    c.view.Active := by
  refine invariant (I := fun c : Connector D => c.view.Active) (fun _ => ?_)
    (fun _ _ _ h hs => active_step h hs) hrun
  rw [Connector.view_initial]
  exact ⟨_, List.mem_singleton_self _, rfl⟩

end Active

def Server.Waits (s : Server D) (j : ℕ) : Prop :=
  ∃ sub, s.subscribers[j]? = some sub ∧ sub.phase = .waiting

namespace Process

/-- The subscriber waits for a snapshot that is never run. -/
def StrandedAt (p : Process D) (j : ℕ) : Prop :=
  p.main.hasReturned = true ∧ p.server.Waits j ∧ .snapshot j ∈ p.server.strand

def Stranded (p : Process D) : Prop := ∃ j, p.StrandedAt j

def hasWork (p : Process D) : Bool := p.main = .handling || p.outstanding

theorem not_stranded_of_strand_nil {p : Process D} (h : p.server.strand = []) :
    ¬ p.Stranded := by
  rintro ⟨j, -, -, hmem⟩
  rw [h] at hmem
  cases hmem

theorem outstanding_eq_false_iff {p : Process D} :
    p.outstanding = false ↔ p.server.strand = [] ∧ p.operating = false := by
  simp [outstanding]

end Process

variable [Zero D] [Add D] [OfNumeral D] {jsonParse : String → Except StdException Json}

omit [Zero D] [Add D] [OfNumeral D] in
theorem Server.Waits.set {s : Server D} {j k : ℕ} {sub : Subscriber D} (h : s.Waits k)
    (hsub : s.subscribers[j]? = some sub) (hphase : sub.phase ≠ .waiting) (sub' : Subscriber D) :
    Server.Waits { s with subscribers := s.subscribers.set j sub' } k := by
  obtain ⟨x, hx, hwaiting⟩ := h
  have hne : j ≠ k := by
    rintro rfl
    exact hphase (Option.some.inj (hsub.symm.trans hx) ▸ hwaiting)
  exact ⟨x, (List.getElem?_set_ne hne).trans hx, hwaiting⟩

theorem grpcThread_step {s s' : Server D} {e : ProcessEvent} {se : ServerEvent}
    (he : e.ofSubscriber = some se) (h : s.step jsonParse se = some s') :
    (∀ j, s.Waits j → s'.Waits j) ∧
      ((∃ j, e = .poll j false ∧ s'.strand = s.strand ++ [.snapshot j] ∧ s'.Waits j) ∨
        (∀ j, e ≠ .poll j false) ∧ s'.strand = s.strand) := by
  cases e with
  | subscribe =>
    obtain rfl := Option.some.inj he
    obtain rfl := step_subscribe.mp h
    refine ⟨?_, Or.inr ⟨nofun, rfl⟩⟩
    rintro j ⟨sub, hsub, hwaiting⟩
    exact ⟨sub, List.getElem?_append_left (List.getElem?_eq_some_iff.mp hsub).1 ▸ hsub, hwaiting⟩
  | poll j cancelled =>
    obtain rfl := Option.some.inj he
    obtain ⟨sub, hsub, hpolling, rfl⟩ := step_poll.mp h
    have hphase : sub.phase ≠ .waiting := by simp [hpolling]
    cases cancelled with
    | true => exact ⟨fun k hk => hk.set hsub hphase _, Or.inr ⟨nofun, rfl⟩⟩
    | false =>
      have hlt : j < s.subscribers.length := (List.getElem?_eq_some_iff.mp hsub).1
      refine ⟨fun k hk => hk.set hsub hphase _, Or.inl ⟨j, rfl, rfl, ?_⟩⟩
      exact ⟨_, List.getElem?_set_self hlt, rfl⟩
  | resume j writeOk =>
    obtain rfl := Option.some.inj he
    obtain ⟨sub, update, version, hsub, hreceived, rfl⟩ := step_resume.mp h
    have hphase : sub.phase ≠ .waiting := by simp [hreceived]
    exact ⟨fun k hk => hk.set hsub hphase _, Or.inr ⟨nofun, rfl⟩⟩
  | _ => cases he

namespace Process

/-- What every reachable state satisfies: between two handlers there is work, and after the return
no operation is pending and the strand holds snapshots of waiting subscribers only. -/
structure Consistent (p : Process D) : Prop where
  busy : p.main = .idle → p.outstanding = true
  ended : p.main.hasReturned = true → p.operating = false ∧
    ∀ t ∈ p.server.strand, ∃ j, t = .snapshot j ∧ p.server.Waits j

variable {p p' : Process D} {e : ProcessEvent}

namespace Consistent

omit [Zero D] [Add D] [OfNumeral D] in
theorem resumeRun (p : Process D) : Consistent p.resumeRun := by
  cases hout : p.outstanding with
  | true =>
    have hidle : p.resumeRun = { p with main := .idle } := by simp [Process.resumeRun, hout]
    rw [hidle]
    exact ⟨fun _ => hout, nofun⟩
  | false =>
    have hafter : p.resumeRun = { p with main := .afterRun } := by simp [Process.resumeRun, hout]
    obtain ⟨hstrand, hoperating⟩ := outstanding_eq_false_iff.mp hout
    rw [hafter]
    exact ⟨nofun, fun _ => ⟨hoperating, by simp [hstrand]⟩⟩

omit [Add D] in
theorem operating_of_expire {i k : ℕ} {c c' : Connector D} {s : Server D} {main : MainThread}
    (hc : p.connectors[i]? = some c) (hstep : c.step jsonParse (.expire k) = some c') :
    (⟨p.connectors.set i c', s, main⟩ : Process D).operating = true := by
  obtain ⟨q, hq, -⟩ := Connector.expire_of_step hstep
  have hview : c'.view.operations[k]? = some (q.operation, q.attempt) := by
    rw [Connector.step_expire hstep]
    exact Connector.view_getElem? hq
  have hne : c'.pending ≠ [] := by
    intro hnil
    simp [Connector.view, hnil] at hview
  have hlt : i < p.connectors.length := (List.getElem?_eq_some_iff.mp hc).1
  exact List.any_eq_true.mpr ⟨c', List.mem_set hlt c', by simpa using hne⟩

theorem step (h : Consistent p) (hs : p.step jsonParse e = some p') : Consistent p' := by
  cases transition_of_step hs with
  | @connector i ce c c' s hmain hc hstep hserver =>
    cases ce with
    | expire k =>
      exact ⟨fun _ => by simp [outstanding, operating_of_expire hc hstep], nofun⟩
    | complete k o => exact ⟨nofun, nofun⟩
  | runStrand hmain hserver => exact ⟨nofun, nofun⟩
  | @subscriber _ se s he hserver =>
    obtain ⟨hwaits, hposted⟩ := grpcThread_step he hserver
    constructor
    · intro hidle
      have hout := h.busy hidle
      simp only [outstanding, Bool.or_eq_true] at hout ⊢
      refine hout.imp_left fun hstrand => ?_
      rcases hposted with ⟨j, -, hposted, -⟩ | ⟨-, hsame⟩
      · simp [hposted]
      · rw [hsame]
        exact hstrand
    · intro hreturned
      obtain ⟨hoperating, hstrand⟩ := h.ended hreturned
      refine ⟨hoperating, fun t ht => ?_⟩
      have hold : t ∈ p.server.strand → ∃ j, t = .snapshot j ∧ s.Waits j := by
        intro hmem
        obtain ⟨j, rfl, hj⟩ := hstrand t hmem
        exact ⟨j, rfl, hwaits j hj⟩
      rcases hposted with ⟨j, -, hposted, hj⟩ | ⟨-, hsame⟩
      · simp only [hposted, List.mem_append, List.mem_singleton] at ht
        rcases ht with ht | rfl
        · exact hold ht
        · exact ⟨j, rfl, hj⟩
      · simp only [hsame] at ht
        exact hold ht
  | enterRun | handlerReturns => exact resumeRun p
  | shutdown hmain => exact ⟨nofun, fun _ => h.ended (by rw [hmain]; rfl)⟩
  | exit hmain => exact ⟨nofun, fun _ => h.ended (by rw [hmain]; rfl)⟩

omit [Zero D] [Add D] [OfNumeral D] in
theorem initial (exchanges : List Exchange) : Consistent (initial exchanges : Process D) where
  busy h := by cases h
  ended h := by cases h

end Consistent

variable {exchanges : List Exchange} {events : List ProcessEvent}

theorem consistent_run
    (hrun : run (step jsonParse) (initial exchanges : Process D) events = some p) :
    Consistent p :=
  invariant (I := Consistent) (Consistent.initial exchanges) (fun _ _ _ h hs => h.step hs) hrun

theorem hasReturned_step (hreturned : p.main.hasReturned = true)
    (hs : p.step jsonParse e = some p') :
    p'.main.hasReturned = true ∧
      ((∃ se s, e.ofSubscriber = some se ∧ p.server.step jsonParse se = some s ∧
          p' = { p with server := s }) ∨
        e.ofSubscriber = none ∧ p'.server = p.server) := by
  cases transition_of_step hs with
  | connector hmain | runStrand hmain =>
    exact absurd hmain (MainThread.hasReturned_iff.mp hreturned).2.1
  | @subscriber _ se s he hserver => exact ⟨hreturned, Or.inl ⟨se, s, he, hserver, rfl⟩⟩
  | enterRun hmain | handlerReturns hmain => simp [hmain, MainThread.hasReturned] at hreturned
  | shutdown hmain => exact ⟨rfl, Or.inr ⟨rfl, rfl⟩⟩
  | exit hmain => exact ⟨rfl, Or.inr ⟨rfl, rfl⟩⟩

theorem not_stranded_of_running (hrunning : p.main.hasReturned = false)
    (hs : p.step jsonParse e = some p') : ¬ p'.Stranded := by
  cases transition_of_step hs with
  | @connector i ce => cases ce <;> exact fun ⟨_, hreturned, _⟩ => Bool.false_ne_true hreturned
  | runStrand => exact fun ⟨_, hreturned, _⟩ => Bool.false_ne_true hreturned
  | subscriber => exact fun ⟨_, hreturned, _⟩ => Bool.false_ne_true (hrunning.symm.trans hreturned)
  | enterRun | handlerReturns =>
    cases hout : p.outstanding with
    | true =>
      rintro ⟨j, hreturned, -⟩
      simp [resumeRun, hout, MainThread.hasReturned] at hreturned
    | false =>
      have hstrand : p.server.strand = [] := (outstanding_eq_false_iff.mp hout).1
      exact not_stranded_of_strand_nil hstrand
  | shutdown hmain => simp [hmain, MainThread.hasReturned] at hrunning
  | exit hmain => simp [hmain, MainThread.hasReturned] at hrunning

/-- A step strands a subscriber just when it posts a snapshot for which there is no work. -/
theorem not_stranded_step_iff (h : Consistent p) (hnone : ¬ p.Stranded)
    (hs : p.step jsonParse e = some p') :
    ¬ p'.Stranded ↔ ∀ j, e = .poll j false → p.main ≠ .starting → p.hasWork = true := by
  cases hreturned : p.main.hasReturned with
  | false =>
    refine iff_of_true (not_stranded_of_running hreturned hs) fun j _ hstarted => ?_
    cases hmain : p.main with
    | idle => simp [hasWork, h.busy hmain]
    | handling => simp [hasWork, hmain]
    | starting => exact absurd hmain hstarted
    | afterRun | shuttingDown | exited => simp [hmain, MainThread.hasReturned] at hreturned
  | true =>
    obtain ⟨hoperating, hposted⟩ := h.ended hreturned
    have hstrand : p.server.strand = [] := by
      refine List.eq_nil_iff_forall_not_mem.mpr fun t ht => ?_
      obtain ⟨j, rfl, hj⟩ := hposted t ht
      exact hnone ⟨j, hreturned, hj, ht⟩
    obtain ⟨hstarted, -, hhandling⟩ := MainThread.hasReturned_iff.mp hreturned
    have hidle : p.hasWork = false := by
      simp [hasWork, hhandling, outstanding_eq_false_iff.mpr ⟨hstrand, hoperating⟩]
    obtain ⟨hreturned', ⟨se, s, he, hserver, rfl⟩ | ⟨he, hserver⟩⟩ := hasReturned_step hreturned hs
    · obtain ⟨-, ⟨j, rfl, hadded, hj⟩ | ⟨hother, hsame⟩⟩ := grpcThread_step he hserver
      · refine iff_of_false (fun hgood => hgood ⟨j, hreturned', hj, ?_⟩) fun hgood => ?_
        · simp [hadded]
        · exact Bool.false_ne_true (hidle.symm.trans (hgood j rfl hstarted))
      · have hnil : s.strand = [] := hsame.trans hstrand
        exact iff_of_true (not_stranded_of_strand_nil hnil) fun j hj => absurd hj (hother j)
    · have hnil : p'.server.strand = [] := by rw [hserver, hstrand]
      refine iff_of_true (not_stranded_of_strand_nil hnil) fun j hj => ?_
      rw [hj] at he
      cases he

/-- A stranded subscriber stays so, and `~Aggregator` never returns. -/
theorem strandedAt_forever {j : ℕ} (h : p.StrandedAt j) (hmain : p.main ≠ .exited)
    (hrun : run (step jsonParse) p events = some p') :
    p'.StrandedAt j ∧ p'.main ≠ .exited := by
  refine invariant (I := fun p : Process D => p.StrandedAt j ∧ p.main ≠ .exited) ⟨h, hmain⟩ ?_ hrun
  rintro t e t' ⟨⟨hreturned, hwaits, hmem⟩, hne⟩ hs
  have hne' : t'.main ≠ .exited := by
    cases transition_of_step hs with
    | @connector i ce => cases ce <;> exact fun h => by cases h
    | runStrand => exact fun h => by cases h
    | subscriber => exact hne
    | enterRun hmain | handlerReturns hmain => simp [hmain, MainThread.hasReturned] at hreturned
    | shutdown => exact fun h => by cases h
    | exit _ hall =>
      obtain ⟨sub, hsub, hwaiting⟩ := hwaits
      have hphase := hall sub (List.mem_of_getElem? hsub)
      cases hphase.symm.trans hwaiting
  obtain ⟨hreturned', ⟨se, s, he, hserver, rfl⟩ | ⟨-, hserver⟩⟩ := hasReturned_step hreturned hs
  · obtain ⟨hkept, hposted⟩ := grpcThread_step he hserver
    refine ⟨⟨hreturned', hkept j hwaits, ?_⟩, hne'⟩
    rcases hposted with ⟨k, -, hadded, -⟩ | ⟨-, hsame⟩
    · simp [hadded, hmem]
    · simpa [hsame] using hmem
  · exact ⟨⟨hreturned', hserver ▸ hwaits, hserver ▸ hmem⟩, hne'⟩

/-- A subscriber is stranded only after all connectors have given up. -/
theorem givenUp_of_stranded
    (hrun : run (step jsonParse) (initial exchanges : Process D) events = some p)
    (hstranded : p.Stranded) : ∀ c ∈ p.connectors, c.view.GivenUp := by
  intro c hc
  obtain ⟨j, hreturned, -⟩ := hstranded
  have hoperating := ((consistent_run hrun).ended hreturned).1
  obtain ⟨serverEvents, hcomposed⟩ := composed_run hrun
  obtain ⟨i, hi⟩ := List.mem_iff_getElem?.mp hc
  obtain ⟨exchange, connectorEvents, -, hconnector⟩ := hcomposed.connectors i c hi
  refine givenUp_of_idle (active_run (run_of_withHistory hconnector)) ?_
  simpa using List.any_eq_false.mp hoperating c hc

/-- No subscriber is stranded exactly when each of them posts its snapshots before `ioc.run()` is
entered or while it has work. -/
theorem never_stranded_iff (exchanges : List Exchange) (events : List ProcessEvent) :
    EveryState (step jsonParse) (initial exchanges : Process D) events (fun p => ¬ p.Stranded) ↔
      EveryStep (step jsonParse) (initial exchanges : Process D) events fun p e _ =>
        ∀ j, e = .poll j false → p.main ≠ .starting → p.hasWork = true := by
  refine everyState_iff_everyStep ?_ fun pre e post p p' _ hrun hnone hs => ?_
  · rintro ⟨j, hreturned, -⟩
    cases hreturned
  · exact not_stranded_step_iff (consistent_run hrun) hnone hs

/-- The only connector fails to resolve its host, and a client subscribes. -/
theorem stranded_after_fatal_error :
    ¬ EveryState (step (decodeTable [])) (initial [.binance] : Process ℚ)
      ([.enterRun, .connector 0 (.complete 0 (.error (.other 1))), .handlerReturns, .subscribe,
        .poll 0 false] ++ []) (fun p => ¬ p.Stranded) :=
  not_everyState
    (B := fun p => p.main = .afterRun ∧ p.server.subscribers = [⟨0, .waiting, []⟩] ∧
      p.server.strand = [.snapshot 0])
    (fun p hnone => by
      rw [decide_eq_false_iff_not]
      rintro ⟨hmain, hsubs, hstrand⟩
      refine hnone ⟨0, by rw [hmain]; rfl, ⟨⟨0, .waiting, []⟩, by rw [hsubs]; rfl, rfl⟩, ?_⟩
      rw [hstrand]
      exact List.mem_singleton_self _)
    (by decide +kernel)

end Process
end AsioAggregator
