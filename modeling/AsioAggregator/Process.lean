import AsioAggregator.Feeds

/-!
# The whole process

`main` starts the connectors and the gRPC server, and then runs the handlers of the `io_context`
until none is outstanding. The threads of the server go on meanwhile and afterwards. Each part of a
process is a run of the machine that the other modules are about, and the feeds of the aggregator
hold the books of the connectors.
-/

namespace AsioAggregator

open Runs

/-- Where `main` stands: before `ioc.run()`, in it between two handlers, in a handler, after its
return, in the `Shutdown()` of `~Aggregator`, and at its end. -/
inductive MainThread where
  | starting
  | idle
  | handling
  | afterRun
  | shuttingDown
  | exited
deriving DecidableEq

def MainThread.hasReturned : MainThread → Bool
  | .starting | .idle | .handling => false
  | .afterRun | .shuttingDown | .exited => true

theorem MainThread.hasReturned_iff {main : MainThread} :
    main.hasReturned = true ↔ main ≠ .starting ∧ main ≠ .idle ∧ main ≠ .handling := by
  cases main <;> simp [hasReturned]

structure Process (D : Type) [LinearOrder D] where
  connectors : List (Connector D)
  server : Server D
  main : MainThread

inductive ProcessEvent where
  | enterRun
  | connector (i : ℕ) (e : ConnectorEvent)
  | runStrand (now : ℤ)
  | handlerReturns
  | subscribe
  | poll (subscriber : ℕ) (cancelled : Bool)
  | resume (subscriber : ℕ) (writeOk : Bool)
  | shutdown
  | exit

/-- Where `main` is left by an event of a connector: an expiry runs no handler. -/
def ConnectorEvent.leaves : ConnectorEvent → MainThread
  | .expire _ => .idle
  | .complete _ _ => .handling

def Phase.isReturned {D : Type} : Phase D → Bool
  | .returned => true
  | _ => false

namespace Process
variable {D : Type} [LinearOrder D]

def initial (exchanges : List Exchange) : Process D where
  connectors := exchanges.map Connector.initial
  server := Server.initial exchanges
  main := .starting

def operating (p : Process D) : Bool := p.connectors.any fun c => !c.pending.isEmpty

def outstanding (p : Process D) : Bool := !p.server.strand.isEmpty || p.operating

/-- `ioc.run()` goes on while it has work, and returns without. -/
def resumeRun (p : Process D) : Process D :=
  { p with main := if p.outstanding then .idle else .afterRun }

variable [Zero D] [Add D] [OfNumeral D] (jsonParse : String → Except StdException Json)

def notify (s : Server D) (i : ℕ) : Option (ℕ × String) → Option (Server D)
  | some (_, msg) => s.handleMessage jsonParse i msg
  | none => some s

def onConnector (p : Process D) (i : ℕ) (e : ConnectorEvent) : Option (Process D) := do
  let c ← p.connectors[i]?
  let c' ← c.step jsonParse e
  let server ← notify jsonParse p.server i (c.delivers e)
  return ⟨p.connectors.set i c', server, e.leaves⟩

def step (p : Process D) : ProcessEvent → Option (Process D)
  | .enterRun => if p.main = .starting then some p.resumeRun else none
  | .connector i e => if p.main = .idle then p.onConnector jsonParse i e else none
  | .runStrand now =>
    if p.main = .idle then
      (p.server.runStrand now).map fun s => { p with server := s, main := .handling }
    else none
  | .handlerReturns => if p.main = .handling then some p.resumeRun else none
  | .subscribe =>
    if p.main = .shuttingDown ∨ p.main = .exited then none
    else (p.server.step jsonParse .subscribe).map fun s => { p with server := s }
  | .poll j cancelled => (p.server.poll j cancelled).map fun s => { p with server := s }
  | .resume j writeOk => (p.server.resume j writeOk).map fun s => { p with server := s }
  | .shutdown => if p.main = .afterRun then some { p with main := .shuttingDown } else none
  | .exit =>
    if p.main = .shuttingDown ∧ p.server.subscribers.all fun sub => sub.phase.isReturned then
      some { p with main := .exited }
    else none

end Process

def ProcessEvent.ofSubscriber : ProcessEvent → Option ServerEvent
  | .subscribe => some .subscribe
  | .poll j cancelled => some (.poll j cancelled)
  | .resume j writeOk => some (.resume j writeOk)
  | _ => none

namespace Process
variable {D : Type} [LinearOrder D] [Zero D] [Add D] [OfNumeral D]

inductive Transition (jsonParse : String → Except StdException Json) (p : Process D) :
    ProcessEvent → Process D → Prop
  | connector {i : ℕ} {e : ConnectorEvent} {c c' : Connector D} {s : Server D}
      (hmain : p.main = .idle) (hc : p.connectors[i]? = some c)
      (hstep : c.step jsonParse e = some c')
      (hserver : notify jsonParse p.server i (c.delivers e) = some s) :
      Transition jsonParse p (.connector i e) ⟨p.connectors.set i c', s, e.leaves⟩
  | runStrand {now : ℤ} {s : Server D} (hmain : p.main = .idle)
      (hserver : p.server.step jsonParse (.runStrand now) = some s) :
      Transition jsonParse p (.runStrand now) { p with server := s, main := .handling }
  | subscriber {e : ProcessEvent} {se : ServerEvent} {s : Server D} (he : e.ofSubscriber = some se)
      (hserver : p.server.step jsonParse se = some s) :
      Transition jsonParse p e { p with server := s }
  | enterRun (hmain : p.main = .starting) : Transition jsonParse p .enterRun p.resumeRun
  | handlerReturns (hmain : p.main = .handling) : Transition jsonParse p .handlerReturns p.resumeRun
  | shutdown (hmain : p.main = .afterRun) :
      Transition jsonParse p .shutdown { p with main := .shuttingDown }
  | exit (hmain : p.main = .shuttingDown)
      (hreturned : ∀ sub ∈ p.server.subscribers, sub.phase = .returned) :
      Transition jsonParse p .exit { p with main := .exited }

variable {jsonParse : String → Except StdException Json} {p p' : Process D} {e : ProcessEvent}

theorem transition_of_step (h : p.step jsonParse e = some p') :
    Transition jsonParse p e p' := by
  cases e with
  | enterRun =>
    simp only [step] at h
    split_ifs at h with hmain
    exact Option.some.inj h ▸ .enterRun hmain
  | connector i ce =>
    simp only [step] at h
    split_ifs at h with hmain
    simp only [onConnector, Option.bind_eq_bind, Option.bind_eq_some_iff] at h
    obtain ⟨c, hc, c', hc', s, hs, hp⟩ := h
    exact Option.some.inj hp ▸ .connector hmain hc hc' hs
  | runStrand now =>
    simp only [step] at h
    split_ifs at h with hmain
    obtain ⟨s, hs, rfl⟩ := Option.map_eq_some_iff.mp h
    exact .runStrand hmain hs
  | handlerReturns =>
    simp only [step] at h
    split_ifs at h with hmain
    exact Option.some.inj h ▸ .handlerReturns hmain
  | subscribe =>
    simp only [step] at h
    split_ifs at h
    obtain ⟨s, hs, rfl⟩ := Option.map_eq_some_iff.mp h
    exact .subscriber rfl hs
  | poll j cancelled =>
    obtain ⟨s, hs, rfl⟩ := Option.map_eq_some_iff.mp h
    exact .subscriber rfl hs
  | resume j writeOk =>
    obtain ⟨s, hs, rfl⟩ := Option.map_eq_some_iff.mp h
    exact .subscriber rfl hs
  | shutdown =>
    simp only [step] at h
    split_ifs at h with hmain
    exact Option.some.inj h ▸ .shutdown hmain
  | exit =>
    simp only [step] at h
    split_ifs at h with hmain
    refine Option.some.inj h ▸ .exit hmain.1 fun sub hsub => ?_
    have hreturned := List.all_eq_true.mp hmain.2 sub hsub
    cases hphase : sub.phase with
    | returned => rfl
    | _ => simp [hphase, Phase.isReturned] at hreturned

/-- What the event hands on to the aggregator. -/
def handsOn (p : Process D) : ProcessEvent → List ServerEvent
  | .connector i ce =>
    (p.connectors[i]?.bind fun c => c.delivers ce).toList.map fun m => .deliver i m.2
  | .runStrand now => [.runStrand now]
  | e => e.ofSubscriber.toList

/-- The aggregator has been handed just what the connectors have read. -/
structure Composed (jsonParse : String → Except StdException Json) (exchanges : List Exchange)
    (serverEvents : List ServerEvent) (p : Process D) : Prop where
  server : run (Server.step jsonParse) (Server.initial exchanges) serverEvents = some p.server
  connectors : ∀ i c, p.connectors[i]? = some c → ∃ exchange events,
    exchanges[i]? = some exchange ∧
      run (withHistory (Connector.step jsonParse) observeMessages)
        ((Connector.initial exchange : Connector D), []) events =
          some (c, messagesTo i serverEvents)

namespace Composed
variable {exchanges : List Exchange} {serverEvents : List ServerEvent}

theorem initial : Composed jsonParse exchanges [] (Process.initial exchanges : Process D) where
  server := rfl
  connectors i c hc := by
    simp only [Process.initial, List.getElem?_map, Option.map_eq_some_iff] at hc
    obtain ⟨exchange, hexchange, rfl⟩ := hc
    exact ⟨exchange, [], hexchange, rfl⟩

theorem of_server {se : ServerEvent} {s : Server D} {main : MainThread}
    (h : Composed jsonParse exchanges serverEvents p) (hse : se.isDelivery = false)
    (hserver : p.server.step jsonParse se = some s) :
    Composed jsonParse exchanges (serverEvents ++ [se]) ⟨p.connectors, s, main⟩ where
  server := run_concat_eq_some.mpr ⟨p.server, h.server, hserver⟩
  connectors i c hc := by
    rw [messagesTo_concat, messageTo_eq_none_of_not_isDelivery hse, Option.toList_none,
      List.append_nil]
    exact h.connectors i c hc

theorem of_connector {i : ℕ} {ce : ConnectorEvent} {c c' : Connector D} {s : Server D}
    {main : MainThread} {added : List ServerEvent}
    (h : Composed jsonParse exchanges serverEvents p) (hc : p.connectors[i]? = some c)
    (hstep : c.step jsonParse ce = some c')
    (hserver : run (Server.step jsonParse) (Server.initial exchanges) (serverEvents ++ added) =
      some s)
    (hadded : ∀ k, messagesTo k (serverEvents ++ added) = messagesTo k serverEvents ++
      if i = k then (c.delivers ce).toList.map Prod.snd else []) :
    Composed jsonParse exchanges (serverEvents ++ added) ⟨p.connectors.set i c', s, main⟩ where
  server := hserver
  connectors k d hd := by
    simp only at hd
    rw [hadded]
    by_cases hk : i = k
    · subst hk
      rw [List.getElem?_set_self (List.getElem?_eq_some_iff.mp hc).1, Option.some.injEq] at hd
      obtain ⟨exchange, events, hexchange, hrun⟩ := h.connectors i c hc
      refine ⟨exchange, events ++ [ce], hexchange, ?_⟩
      rw [if_pos rfl, ← hd]
      exact run_concat_eq_some.mpr ⟨_, hrun, withHistory_eq_some.mpr ⟨hstep, rfl⟩⟩
    · rw [List.getElem?_set_ne hk] at hd
      rw [if_neg hk, List.append_nil]
      exact h.connectors k d hd

theorem step (h : Composed jsonParse exchanges serverEvents p)
    (hs : p.step jsonParse e = some p') :
    Composed jsonParse exchanges (serverEvents ++ p.handsOn e) p' := by
  cases transition_of_step hs with
  | @connector i ce c c' s hmain hc hstep hserver =>
    simp only [handsOn, hc, Option.bind_some]
    cases hd : c.delivers ce with
    | none =>
      rw [hd] at hserver
      obtain rfl : p.server = s := Option.some.inj hserver
      refine h.of_connector hc hstep ?_ fun k => ?_
      · exact (List.append_nil _).symm ▸ h.server
      · simp [hd]
    | some delivered =>
      obtain ⟨a, msg⟩ := delivered
      rw [hd] at hserver
      refine h.of_connector hc hstep ?_ fun k => ?_
      · exact run_concat_eq_some.mpr ⟨p.server, h.server, hserver⟩
      · rw [Option.toList_some, List.map_singleton, messagesTo_concat, hd]
        by_cases hk : i = k <;> simp [ServerEvent.messageTo, hk]
  | @runStrand now s hmain hserver => exact h.of_server rfl hserver
  | @subscriber _ se s he hserver =>
    cases e with
    | subscribe | poll | resume =>
      obtain rfl := Option.some.inj he
      exact h.of_server rfl hserver
    | _ => cases he
  | enterRun | handlerReturns | shutdown | exit =>
    exact (List.append_nil serverEvents).symm ▸ ⟨h.server, h.connectors⟩

end Composed

theorem composed_run {exchanges : List Exchange} {events : List ProcessEvent}
    (hrun : run (Process.step jsonParse) (Process.initial exchanges) events = some p) :
    ∃ serverEvents, Composed jsonParse exchanges serverEvents p :=
  invariant (I := fun p : Process D => ∃ events, Composed jsonParse exchanges events p)
    ⟨[], Composed.initial⟩ (fun _ _ _ ⟨_, h⟩ hs => ⟨_, h.step hs⟩) hrun

section Reached
variable {exchanges : List Exchange} {serverEvents : List ServerEvent}
variable {i : ℕ} {c c' : Connector D} {ce : ConnectorEvent}

theorem Composed.feed (h : Composed jsonParse exchanges serverEvents p)
    (hc : p.connectors[i]? = some c) :
    p.server.connectors[i]? = some ⟨c.exchange, c.localBooks⟩ := by
  obtain ⟨exchange, events, hexchange, hrun⟩ := h.connectors i c hc
  rw [feed_of_connector hexchange h.server hrun, (replay_run hrun).1]

/-- The aggregator never refuses what a connector hands over. -/
theorem Composed.connector_step (h : Composed jsonParse exchanges serverEvents p)
    (hmain : p.main = .idle) (hc : p.connectors[i]? = some c)
    (hstep : c.step jsonParse ce = some c') :
    ∃ p', p.step jsonParse (.connector i ce) = some p' ∧ p'.connectors = p.connectors.set i c' := by
  have hserver : ∃ s, notify jsonParse p.server i (c.delivers ce) = some s := by
    rcases localBooks_step hstep with ⟨hnone, -⟩ | ⟨a, msg, hmsg, hparse⟩
    · exact ⟨p.server, by rw [hnone]; rfl⟩
    · obtain ⟨s, hs⟩ : ∃ s, p.server.step jsonParse (.deliver i msg) = some s :=
        ⟨_, step_deliver.mpr ⟨_, c'.localBooks, h.feed hc, hparse, rfl⟩⟩
      exact ⟨s, by rw [hmsg]; exact hs⟩
  obtain ⟨s, hs⟩ := hserver
  refine ⟨⟨p.connectors.set i c', s, ce.leaves⟩, ?_, rfl⟩
  simp [Process.step, hmain, onConnector, hc, hstep, hs]

end Reached

end Process
end AsioAggregator
