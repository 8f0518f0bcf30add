import AsioAggregator.Startup
import AsioAggregator.Stranded
import AsioAggregator.Subscribers

/-!
# After the return of `ioc.run()`

`ioc.run()` returns when all connectors have been given up and every task has run. From then on the
books stay as they are, complete up to the last message, and all that a subscriber may still write
is the result that it has in hand.
-/

namespace AsioAggregator

open Runs

variable {D : Type}

/-- What becomes of a subscriber that is no longer served. -/
structure Subscriber.WindsDown (sub sub' : Subscriber D) : Prop where
  written : sub'.written = sub.written ∨
    ∃ u v, sub.phase = .received u v ∧ sub'.written = sub.written ++ [(v, u)]
  inHand : ∀ u v, sub'.phase = .received u v → sub.phase = .received u v ∧
    sub'.written = sub.written

namespace Subscriber.WindsDown
variable {sub sub' : Subscriber D}

theorem refl (sub : Subscriber D) : sub.WindsDown sub := ⟨Or.inl rfl, fun _ _ h => ⟨h, rfl⟩⟩

theorem setPhase (h : sub.WindsDown sub') {phase : Phase D}
    (hphase : ∀ u v, phase ≠ .received u v) : sub.WindsDown { sub' with phase := phase } :=
  ⟨h.written, fun u v hreceived => absurd hreceived (hphase u v)⟩

theorem consume (h : sub.WindsDown sub') {u : BookUpdate D} {v : UInt64}
    (hreceived : sub'.phase = .received u v) (writeOk : Bool) :
    sub.WindsDown (sub'.consume u v writeOk) := by
  obtain ⟨hphase, hwritten⟩ := h.inHand u v hreceived
  unfold Subscriber.consume
  split_ifs
  · exact ⟨Or.inr ⟨u, v, hphase, by rw [hwritten]⟩, nofun⟩
  · exact ⟨h.written, nofun⟩
  · exact h.setPhase nofun

end Subscriber.WindsDown

namespace Process
variable [LinearOrder D] [Zero D] [Add D] [OfNumeral D]
variable {jsonParse : String → Except StdException Json}
variable {exchanges : List Exchange} {events later : List ProcessEvent} {p p' : Process D}
variable {e : ProcessEvent}

/-- The process after its `ioc.run()` has returned, compared with the moment of the return. -/
structure Ended (p p' : Process D) : Prop where
  returned : p'.main.hasReturned = true
  connectors : p'.connectors = p.connectors
  feeds : p'.server.connectors = p.server.connectors
  consolidated : p'.server.consolidated = p.server.consolidated
  version : p'.server.version = p.server.version
  older : p.server.subscribers.length ≤ p'.server.subscribers.length
  subscribers : ∀ (j : ℕ) (sub' : Subscriber D), p'.server.subscribers[j]? = some sub' →
    ((p.server.subscribers[j]?).getD Subscriber.new).WindsDown sub'
  exited : p'.main = .exited → ∀ sub ∈ p'.server.subscribers, sub.phase = .returned

theorem returned_step (hreturned : p.main.hasReturned = true) (hs : p.step jsonParse e = some p') :
    (∃ se s, e.ofSubscriber = some se ∧ p.server.step jsonParse se = some s ∧
        p' = { p with server := s } ∧ (e = .subscribe → p.main ≠ .exited)) ∨
      p' = { p with main := .shuttingDown } ∨
      p' = { p with main := .exited } ∧ ∀ sub ∈ p.server.subscribers, sub.phase = .returned := by
  cases transition_of_step hs with
  | connector hmain | runStrand hmain =>
    exact absurd hmain (MainThread.hasReturned_iff.mp hreturned).2.1
  | @subscriber _ se s he hserver =>
    refine Or.inl ⟨se, s, he, hserver, rfl, fun hsubscribe hexited => ?_⟩
    subst hsubscribe
    simp [Process.step, hexited] at hs
  | enterRun hmain | handlerReturns hmain => simp [hmain, MainThread.hasReturned] at hreturned
  | shutdown hmain => exact Or.inr (Or.inl rfl)
  | exit hmain hall => exact Or.inr (Or.inr ⟨rfl, hall⟩)

omit [Zero D] [Add D] [OfNumeral D] in
theorem Ended.refl (hreturned : p.main.hasReturned = true)
    (hexited : p.main = .exited → ∀ sub ∈ p.server.subscribers, sub.phase = .returned) :
    Ended p p where
  returned := hreturned
  connectors := rfl
  feeds := rfl
  consolidated := rfl
  version := rfl
  older := le_rfl
  subscribers j sub' hsub' := by
    rw [hsub']
    exact .refl sub'
  exited := hexited

theorem Ended.subscribers_step {p₀ : Process D} {se : ServerEvent} {s : Server D} (h : Ended p₀ p)
    (he : e.ofSubscriber = some se) (hserver : p.server.step jsonParse se = some s) :
    p₀.server.subscribers.length ≤ s.subscribers.length ∧
      ∀ (j : ℕ) (sub' : Subscriber D), s.subscribers[j]? = some sub' →
        ((p₀.server.subscribers[j]?).getD Subscriber.new).WindsDown sub' := by
  refine ⟨h.older.trans (subscribers_length_le hserver), fun j sub' hsub' => ?_⟩
  obtain ⟨hge, rfl⟩ | ⟨sub, hsub, hstep⟩ := step_subscriber hserver hsub'
  · rw [List.getElem?_eq_none (h.older.trans hge)]
    exact .refl _
  · have hold := h.subscribers j sub hsub
    cases hstep with
    | idle => exact hold
    | polled phase _ hnew => exact hold.setPhase hnew
    | fulfilled now hse =>
      subst hse
      cases e <;> cases he
    | consumed u v writeOk _ hreceived => exact hold.consume hreceived writeOk

theorem Ended.grpcThread {p₀ : Process D} {se : ServerEvent} {s : Server D} (h : Ended p₀ p)
    (he : e.ofSubscriber = some se) (hserver : p.server.step jsonParse se = some s)
    (hsubscribe : e = .subscribe → p.main ≠ .exited) : Ended p₀ { p with server := s } := by
  obtain ⟨holder, hsubscribers⟩ := h.subscribers_step he hserver
  have hreturned : ∀ {j : ℕ} {sub : Subscriber D}, p.server.subscribers[j]? = some sub →
      sub.phase ≠ .returned → p.main ≠ .exited := fun hsub hphase hmain =>
    hphase (h.exited hmain _ (List.mem_of_getElem? hsub))
  cases e with
  | subscribe =>
    obtain rfl := Option.some.inj he
    obtain rfl := step_subscribe.mp hserver
    exact ⟨h.returned, h.connectors, h.feeds, h.consolidated, h.version, holder, hsubscribers,
      fun hmain => absurd hmain (hsubscribe rfl)⟩
  | poll j cancelled =>
    obtain rfl := Option.some.inj he
    obtain ⟨sub, hsub, hpolling, rfl⟩ := step_poll.mp hserver
    have hmain := hreturned hsub (by rw [hpolling]; nofun)
    cases cancelled with
    | true | false =>
      exact ⟨h.returned, h.connectors, h.feeds, h.consolidated, h.version, holder, hsubscribers,
        fun hexited => absurd hexited hmain⟩
  | resume j writeOk =>
    obtain rfl := Option.some.inj he
    obtain ⟨sub, u, v, hsub, hreceived, rfl⟩ := step_resume.mp hserver
    have hmain := hreturned hsub (by rw [hreceived]; nofun)
    exact ⟨h.returned, h.connectors, h.feeds, h.consolidated, h.version, holder, hsubscribers,
      fun hexited => absurd hexited hmain⟩
  | _ => cases he

theorem Ended.step {p₀ : Process D} (h : Ended p₀ p) (hs : p.step jsonParse e = some p') :
    Ended p₀ p' := by
  obtain ⟨se, s, he, hserver, rfl, hsubscribe⟩ | rfl | ⟨rfl, hall⟩ := returned_step h.returned hs
  · exact h.grpcThread he hserver hsubscribe
  · exact ⟨rfl, h.connectors, h.feeds, h.consolidated, h.version, h.older, h.subscribers, nofun⟩
  · exact ⟨rfl, h.connectors, h.feeds, h.consolidated, h.version, h.older, h.subscribers,
      fun _ => hall⟩

theorem exited_run
    (hrun : run (step jsonParse) (initial exchanges : Process D) events = some p) :
    p.main = .exited → ∀ sub ∈ p.server.subscribers, sub.phase = .returned := by
  refine invariant (I := fun t : Process D => t.main = .exited →
    ∀ sub ∈ t.server.subscribers, sub.phase = .returned) (fun h => by cases h) ?_ hrun
  intro t e t' h hs hexited
  cases hreturned : t.main.hasReturned with
  | true => exact ((Ended.refl hreturned h).step hs).exited hexited
  | false =>
    cases transition_of_step hs with
    | @connector i ce => cases ce <;> cases hexited
    | runStrand => cases hexited
    | subscriber =>
      have hmain : t.main = .exited := hexited
      rw [hmain] at hreturned
      cases hreturned
    | enterRun | handlerReturns =>
      simp only [resumeRun] at hexited
      split_ifs at hexited
    | shutdown => cases hexited
    | exit _ hall => exact hall

/-- When `ioc.run()` has returned, every connector has been given up with nothing pending, and the
consolidated book is that of the last messages. From then on books and version never change, each
subscriber writes at most the result that it has in hand, and the process ends without any left. -/
theorem after_run_returned
    (hrun : run (step jsonParse) (initial exchanges : Process D) events = some p)
    (hreturned : p.main.hasReturned = true) (hlater : run (step jsonParse) p later = some p') :
    (∀ c ∈ p'.connectors, c.pending = [] ∧ c.stopped = true) ∧ p'.connectors = p.connectors ∧
      p'.server.version = p.server.version ∧
      p'.server.consolidated = consolidate (p'.connectors.map fun c => ⟨c.exchange, c.localBooks⟩) ∧
      (∀ (j : ℕ) (sub' : Subscriber D), p'.server.subscribers[j]? = some sub' →
        ∃ sub, (p.server.subscribers[j]?).getD Subscriber.new = sub ∧
          (sub'.written = sub.written ∨
            ∃ u v, sub.phase = .received u v ∧ sub'.written = sub.written ++ [(v, u)])) ∧
      (p'.main = .exited → ∀ sub ∈ p'.server.subscribers, sub.phase = .returned) := by
  have hended : Ended p p' := invariant (I := Ended p) (Ended.refl hreturned (exited_run hrun))
    (fun _ _ _ h hs => h.step hs) hlater
  obtain ⟨hoperating, hstrand⟩ := (consistent_run hrun).ended hreturned
  obtain ⟨serverEvents, hcomposed⟩ := composed_run hrun
  have hacc := accounted_run hcomposed.server
  have hpending : pendingUpdates p.server = 0 := by
    refine List.countP_eq_zero.mpr fun t ht => ?_
    obtain ⟨j, rfl, -⟩ := hstrand t ht
    exact Bool.false_ne_true
  have hfeeds : p.server.connectors =
      p.connectors.map fun c => ⟨c.exchange, c.localBooks⟩ := by
    have hlength : p.server.connectors.length = p.connectors.length := by
      rw [hacc.length_eq, ← List.length_map Connector.exchange, map_exchange_run hrun]
    refine List.ext_getElem? fun i => ?_
    rw [List.getElem?_map]
    cases hc : p.connectors[i]? with
    | none => exact List.getElem?_eq_none (hlength ▸ List.getElem?_eq_none_iff.mp hc)
    | some c => exact hcomposed.feed hc
  refine ⟨fun c hc => ?_, hended.connectors, hended.version, ?_, fun j sub' hsub' =>
    ⟨_, rfl, (hended.subscribers j sub' hsub').written⟩, hended.exited⟩
  · rw [hended.connectors] at hc
    have hidle : c.pending = [] := by simpa using List.any_eq_false.mp hoperating c hc
    obtain ⟨i, hi⟩ := List.mem_iff_getElem?.mp hc
    obtain ⟨exchange, connectorEvents, -, hconnector⟩ := hcomposed.connectors i c hi
    exact ⟨hidle, (givenUp_of_idle (active_run (run_of_withHistory hconnector)) hidle).stopped⟩
  · rw [hended.consolidated, hended.connectors, hacc.upToDate hpending, hfeeds]

theorem after_run_returned_example :
    ∃ p p' : Process ℚ,
      run (step (decodeTable [])) (initial [.okx] : Process ℚ)
        [.enterRun, .subscribe, .poll 0 false, .runStrand 0, .handlerReturns,
          .connector 0 (.complete 0 (.error (.other 1))), .handlerReturns] = some p ∧
      run (step (decodeTable [])) p [.shutdown, .resume 0 true, .poll 0 true, .exit] = some p' ∧
      p'.connectors = p.connectors ∧ ∀ sub ∈ p'.server.subscribers, sub.phase = .returned := by
  obtain ⟨p, hrun, hmain, hany⟩ := exists_of_run_any
    (P := fun p : Process ℚ => p.main = .afterRun ∧ (run (step (decodeTable [])) p
      [.shutdown, .resume 0 true, .poll 0 true, .exit]).any (fun p' => p'.main = .exited) = true)
    (show (run (step (decodeTable [])) (initial [.okx] : Process ℚ)
      [.enterRun, .subscribe, .poll 0 false, .runStrand 0, .handlerReturns,
        .connector 0 (.complete 0 (.error (.other 1))), .handlerReturns]).any _ = true by
          decide +kernel)
  obtain ⟨p', hlater, hexited⟩ := exists_of_run_any hany
  obtain ⟨-, hsame, -, -, -, hall⟩ := after_run_returned hrun (by rw [hmain]; rfl) hlater
  exact ⟨p, p', hrun, hlater, hsame, hall hexited⟩

end Process
end AsioAggregator
