import AsioAggregator.Deadline

/-!
# The pings of a session

The connector has one timer of each kind, and arming it cancels the wait that it may still have. A
session that has begun sends pings for as long as the connector runs: there is always a ping on its
way or a wait for the next one, even where handlers of earlier attempts interfere.
-/

namespace AsioAggregator

open Relation Runs

namespace Pending

def armedOn (timer : Timer) (p : Pending) : Bool :=
  match p.operation, p.status with
  | .wait timer' _, .outstanding => timer' = timer
  | _, _ => false

def pings (p : Pending) : Bool :=
  match p.operation with
  | .ping | .jsonPing => true
  | .wait .ping _ => p.status ≠ .cancelled
  | _ => false

variable {p p' : Pending} {timer timer' : Timer}

theorem armedOn_cancel : (p.cancel timer').armedOn timer = (p.armedOn timer && timer' ≠ timer) := by
  obtain ⟨op, a, status⟩ := p
  cases op with
  | wait timer₀ d =>
    cases status with
    | outstanding =>
      by_cases h : timer₀ = timer'
      · subst h
        by_cases h' : timer₀ = timer <;> simp [cancel, armedOn, h']
      · by_cases h' : timer₀ = timer
        · subst h'
          simp [cancel, armedOn, h, Ne.symm h]
        · simp [cancel, armedOn, h, h']
    | expired | cancelled => simp [cancel, armedOn]
  | _ => simp [cancel, armedOn]

theorem pings_cancel (h : timer ≠ .ping) : (p.cancel timer).pings = p.pings := by
  obtain ⟨op, a, status⟩ := p
  cases op with
  | wait timer' d =>
    cases status with
    | outstanding =>
      cases timer' with
      | ping => simp [cancel, h.symm]
      | handshake | reconnect =>
        simp only [cancel]
        split_ifs <;> rfl
    | expired | cancelled => rfl
  | _ => rfl

theorem armedOn_of_status (h : p.status ≠ .outstanding) : p.armedOn timer = false := by
  obtain ⟨op, a, status⟩ := p
  cases op with
  | wait timer' d =>
    cases status with
    | outstanding => exact absurd rfl h
    | expired | cancelled => rfl
  | _ => rfl

theorem pings_of_status (h : p.status ≠ .cancelled) {status : Status} (hne : status ≠ .cancelled) :
    { p with status := status }.pings = p.pings := by
  obtain ⟨op, a, status'⟩ := p
  cases op with
  | wait timer' d => cases timer' <;> simp_all [pings]
  | _ => rfl

end Pending

namespace Connector
variable {D : Type} [LinearOrder D] {c c' : Connector D} {timer : Timer}

/-- What the handlers are made of, `start` apart: the ping timer is armed by a running connector
only. -/
inductive Move : Connector D → Connector D → Prop
  | initiate (c : Connector D) (a : ℕ) (op : Operation) (hop : ∀ timer d, op ≠ .wait timer d) :
      Move c (c.initiate a op)
  | cancelDeadline (c : Connector D) : Move c (c.cancel .handshake)
  | arm (c : Connector D) (a : ℕ) (timer : Timer) (d : ℤ)
      (hping : timer = .ping → c.stopped = false) : Move c (c.arm a timer d)
  | stop (c : Connector D) : Move c (({ c with stopped := true }.cancel .handshake).cancel .ping)
  | count (c : Connector D) (n : ℕ) : Move c { c with retryCount := n }
  | store (c : Connector D) (b : Books D) : Move c { c with localBooks := b }

theorem moves_fail {a : ℕ} {ec : ErrorCode} {jitter : Jitter}
    (h : c.fail a ec jitter = some c') : ReflTransGen Move c c' ∧ c'.stopped = true := by
  have hstop := ReflTransGen.single (Move.stop c)
  simp only [fail] at h
  split_ifs at h with hstopped
  · exact Option.some.inj h ▸ ⟨.refl, hstopped⟩
  · exact Option.some.inj h ▸ ⟨hstop, rfl⟩
  · exact Option.some.inj h ▸ ⟨hstop.tail (.count _ _), rfl⟩
  · obtain ⟨d, -, rfl⟩ := Option.map_eq_some_iff.mp h
    exact ⟨(hstop.tail (.count _ _)).tail (.arm _ _ _ _ (by simp)), rfl⟩

theorem moves_doPing (c : Connector D) (a : ℕ) : ReflTransGen Move c (c.doPing a) := by
  unfold doPing
  split_ifs with hstopped
  · exact .refl
  · exact .single (.arm _ _ _ _ fun _ => Bool.eq_false_iff.mpr hstopped)

section Handlers
variable [Zero D] [OfNumeral D] {jsonParse : String → Except StdException Json} {a : ℕ}
variable {o : Outcome} {op : Operation}

/-- Every handler but that of the reconnect timer is a sequence of these. -/
theorem moves_handle (h : c.handle jsonParse a o op = some c') :
    c' = c.start ∨ ReflTransGen Move c c' := by
  cases op with
  | resolve =>
    simp only [handle, onResolve] at h
    split at h
    · exact Or.inr (moves_fail h).1
    · exact Or.inr (Option.some.inj h ▸ .single (.initiate _ _ _ (by simp)))
  | connect =>
    simp only [handle, onConnect] at h
    split at h
    · exact Or.inr (moves_fail h).1
    · split at h
      · exact Or.inr (moves_fail h).1
      · exact Or.inr (Option.some.inj h ▸ .single (.initiate _ _ _ (by simp)))
  | sslHandshake =>
    simp only [handle, onSslHandshake] at h
    split at h
    · exact Or.inr (moves_fail h).1
    · have harm := ReflTransGen.single (Move.arm c a .handshake 10000 (by simp))
      exact Or.inr (Option.some.inj h ▸ harm.tail (.initiate _ _ _ (by simp)))
  | wsHandshake =>
    have hcancel := ReflTransGen.single (Move.cancelDeadline c)
    simp only [handle, onWsHandshake] at h
    split at h
    · exact Or.inr (hcancel.trans (moves_fail h).1)
    · refine Or.inr (Option.some.inj h ▸ ?_)
      refine ReflTransGen.trans ?_ (moves_doPing _ a)
      split_ifs
      · exact hcancel.tail (.initiate _ _ _ (by simp))
      · exact hcancel.tail (.initiate _ _ _ (by simp))
  | write =>
    simp only [handle, onWrite] at h
    split at h
    · exact Or.inr (moves_fail h).1
    · exact Or.inr (Option.some.inj h ▸ .single (.initiate _ _ _ (by simp)))
  | read =>
    simp only [handle, onRead] at h
    split at h
    · exact Or.inr (moves_fail h).1
    · split_ifs at h
      · exact Or.inr (Option.some.inj h ▸ .single (.initiate _ _ _ (by simp)))
      · simp only [handleMessage, Option.map_map, Option.map_eq_some_iff] at h
        obtain ⟨b, -, rfl⟩ := h
        have hstore := ReflTransGen.single (Move.store c b)
        exact Or.inr (hstore.tail (.initiate _ _ _ (by simp)))
  | ping | jsonPing =>
    simp only [handle, onPing] at h
    split at h
    · exact Or.inr (moves_fail h).1
    · exact Or.inr (Option.some.inj h ▸ moves_doPing c a)
  | close => exact Or.inr (Option.some.inj h ▸ .refl)
  | wait timer d =>
    cases timer with
    | handshake =>
      simp only [handle, onHandshakeTimer] at h
      split_ifs at h
      · exact Or.inr (moves_fail h).1
      · exact Or.inr (Option.some.inj h ▸ .refl)
    | ping =>
      obtain rfl := Option.some.inj h
      unfold onPingTimer
      refine Or.inr ?_
      split_ifs
      · exact .single (.initiate _ _ _ (by simp))
      · refine .single (.initiate _ _ _ fun timer d => ?_)
        cases c.exchange <;> simp [pingOperation]
    | reconnect =>
      obtain rfl := Option.some.inj h
      unfold onReconnectTimer
      split_ifs
      · exact Or.inr .refl
      · exact Or.inl rfl

end Handlers
theorem countP_armedOn_cancel (c : Connector D) (timer timer' : Timer) :
    (c.cancel timer').pending.countP (Pending.armedOn timer) =
      if timer' = timer then 0 else c.pending.countP (Pending.armedOn timer) := by
  simp only [cancel, List.countP_map]
  split_ifs with h
  · refine List.countP_eq_zero.mpr fun p _ => ?_
    simp [Pending.armedOn_cancel, h]
  · refine congrArg (fun P => c.pending.countP P) (funext fun p => ?_)
    simp [Pending.armedOn_cancel, h]

theorem countP_armedOn_initiate (c : Connector D) (timer : Timer) (a : ℕ) {op : Operation}
    (hop : ∀ timer d, op ≠ .wait timer d) :
    (c.initiate a op).pending.countP (Pending.armedOn timer) =
      c.pending.countP (Pending.armedOn timer) := by
  cases op with
  | wait timer' d => exact absurd rfl (hop timer' d)
  | _ => simp [initiate, Pending.armedOn]

theorem countP_armedOn_arm (c : Connector D) (a : ℕ) (timer timer' : Timer) (d : ℤ) :
    (c.arm a timer' d).pending.countP (Pending.armedOn timer) =
      if timer' = timer then 1 else c.pending.countP (Pending.armedOn timer) := by
  have hcancel := countP_armedOn_cancel c timer timer'
  simp only [arm, initiate, List.countP_append, hcancel]
  by_cases h : timer' = timer <;> simp [Pending.armedOn, h]

/-- Each timer has one wait at most, and a stopped connector waits for no ping. -/
structure Armed (c : Connector D) : Prop where
  once : ∀ timer, c.pending.countP (Pending.armedOn timer) ≤ 1
  silent : c.stopped = true → c.pending.countP (Pending.armedOn .ping) = 0

theorem Armed.move (h : c.Armed) (hmove : Move c c') : c'.Armed := by
  cases hmove with
  | initiate a op hop =>
    refine ⟨fun timer => ?_, fun hstopped => ?_⟩
    · rw [countP_armedOn_initiate c timer a hop]
      exact h.once timer
    · rw [countP_armedOn_initiate c .ping a hop]
      exact h.silent hstopped
  | cancelDeadline =>
    refine ⟨fun timer => ?_, fun hstopped => ?_⟩
    · rw [countP_armedOn_cancel]
      split_ifs
      · exact Nat.zero_le 1
      · exact h.once timer
    · rw [countP_armedOn_cancel]
      exact h.silent hstopped
  | arm a timer' d hping =>
    refine ⟨fun timer => ?_, fun hstopped => ?_⟩
    · rw [countP_armedOn_arm]
      split_ifs
      · exact le_rfl
      · exact h.once timer
    · rw [countP_armedOn_arm, if_neg]
      · exact h.silent hstopped
      · intro heq
        exact Bool.false_ne_true ((hping heq).symm.trans hstopped)
  | stop =>
    refine ⟨fun timer => ?_, fun _ => ?_⟩
    · rw [countP_armedOn_cancel, countP_armedOn_cancel]
      split_ifs
      · exact Nat.zero_le 1
      · exact Nat.zero_le 1
      · exact h.once timer
    · rw [countP_armedOn_cancel, if_pos rfl]
  | count n => exact ⟨h.once, h.silent⟩
  | store b => exact ⟨h.once, h.silent⟩

theorem Armed.moves (h : c.Armed) (hmoves : ReflTransGen Move c c') : c'.Armed := by
  induction hmoves with
  | refl => exact h
  | tail _ hmove ih => exact ih.move hmove

theorem Armed.start (h : c.Armed) : c.start.Armed := by
  refine ⟨fun timer => ?_, nofun⟩
  have hresolve : ∀ timer d, Operation.resolve ≠ .wait timer d := nofun
  rw [Connector.start, countP_armedOn_initiate _ timer _ hresolve, countP_armedOn_cancel,
    countP_armedOn_cancel, countP_armedOn_cancel]
  split_ifs
  · exact Nat.zero_le 1
  · exact Nat.zero_le 1
  · exact Nat.zero_le 1
  · exact h.once timer

section Run
variable [Zero D] [OfNumeral D] {jsonParse : String → Except StdException Json}
variable {e : ConnectorEvent} {events : List ConnectorEvent} {exchange : Exchange}

theorem Armed.step (h : c.Armed) (hs : c.step jsonParse e = some c') : c'.Armed := by
  cases e with
  | expire k =>
    obtain ⟨p, hp, -, rfl⟩ := expire_of_step hs
    have hcount : ∀ timer,
        (c.pending.set k { p with status := .expired }).countP (Pending.armedOn timer) ≤
          c.pending.countP (Pending.armedOn timer) := by
      intro timer
      have hk := (List.getElem?_eq_some_iff.mp hp).1
      have hnew : { p with status := .expired }.armedOn timer = false :=
        Pending.armedOn_of_status nofun
      simp only [List.countP_set hk, hnew, Bool.false_eq_true, if_false, Nat.add_zero, Nat.sub_le]
    exact ⟨fun timer => (hcount timer).trans (h.once timer), fun hstopped =>
      Nat.le_zero.mp ((hcount .ping).trans (h.silent hstopped).le)⟩
  | complete k o =>
    obtain ⟨p, hp, -, hhandle⟩ := handle_of_step hs
    have hremoved : (c.remove k).Armed := by
      have hcount : ∀ timer, (c.remove k).pending.countP (Pending.armedOn timer) ≤
          c.pending.countP (Pending.armedOn timer) := fun timer =>
        (List.eraseIdx_sublist _ _).countP_le
      exact ⟨fun timer => (hcount timer).trans (h.once timer), fun hstopped =>
        Nat.le_zero.mp ((hcount .ping).trans (h.silent hstopped).le)⟩
    rcases moves_handle hhandle with rfl | hmoves
    · exact hremoved.start
    · exact hremoved.moves hmoves

end Run

/-- Unless it is stopped, the connector has a ping on its way or a wait for the next one. -/
def KeepsAlive (c : Connector D) : Prop := c.stopped = false → ∃ p ∈ c.pending, p.pings = true

theorem KeepsAlive.of_stopped (h : c.stopped = true) : c.KeepsAlive :=
  fun hrunning => absurd (hrunning.symm.trans h) Bool.false_ne_true

theorem KeepsAlive.initiate (h : c.KeepsAlive) (a : ℕ) (op : Operation) :
    (c.initiate a op).KeepsAlive := by
  intro hrunning
  obtain ⟨p, hp, hpings⟩ := h hrunning
  exact ⟨p, List.mem_append_left _ hp, hpings⟩

theorem KeepsAlive.cancel (h : c.KeepsAlive) (htimer : timer ≠ .ping) :
    (c.cancel timer).KeepsAlive := by
  intro hrunning
  obtain ⟨p, hp, hpings⟩ := h hrunning
  exact ⟨p.cancel timer, List.mem_map_of_mem hp, (Pending.pings_cancel htimer).trans hpings⟩

theorem keepsAlive_initiate (c : Connector D) (a : ℕ) {op : Operation}
    (hpings : Pending.pings ⟨op, a, .outstanding⟩ = true) : (c.initiate a op).KeepsAlive :=
  fun _ => ⟨_, List.mem_append_right _ List.mem_cons_self, hpings⟩

theorem keepsAlive_doPing (c : Connector D) (a : ℕ) : (c.doPing a).KeepsAlive := by
  unfold doPing
  split_ifs with hstopped
  · exact .of_stopped hstopped
  · exact keepsAlive_initiate _ a rfl

theorem KeepsAlive.move (h : c.KeepsAlive) (hmove : Move c c') : c'.KeepsAlive := by
  cases hmove with
  | initiate a op _ => exact h.initiate a op
  | cancelDeadline => exact h.cancel nofun
  | arm a timer d _ =>
    by_cases htimer : timer = .ping
    · subst htimer
      exact keepsAlive_initiate _ a rfl
    · exact (h.cancel htimer).initiate a _
  | stop => exact .of_stopped rfl
  | count n => exact h
  | store b => exact h

theorem KeepsAlive.moves (h : c.KeepsAlive) (hmoves : ReflTransGen Move c c') : c'.KeepsAlive := by
  induction hmoves with
  | refl => exact h
  | tail _ hmove ih => exact ih.move hmove

theorem attempt_moves (hmoves : ReflTransGen Move c c') : c'.attempt = c.attempt := by
  induction hmoves with
  | refl => rfl
  | tail _ hmove ih =>
    rw [← ih]
    cases hmove <;> rfl

theorem KeepsAlive.expire {k : ℕ} {p : Pending} (h : c.KeepsAlive) (hp : c.pending[k]? = some p)
    (hstatus : p.status = .outstanding) :
    KeepsAlive { c with pending := c.pending.set k { p with status := .expired } } := by
  intro hrunning
  obtain ⟨p', hp', hpings⟩ := h hrunning
  obtain ⟨i, hi⟩ := List.mem_iff_getElem?.mp hp'
  by_cases hik : k = i
  · subst hik
    obtain rfl : p = p' := Option.some.inj (hp.symm.trans hi)
    have hlt := (List.getElem?_eq_some_iff.mp hp).1
    have hoff : p.status ≠ .cancelled := by simp [hstatus]
    have hexpired : Status.expired ≠ .cancelled := nofun
    exact ⟨_, List.mem_of_getElem? (List.getElem?_set_self hlt),
      (Pending.pings_of_status hoff hexpired).trans hpings⟩
  · exact ⟨p', List.mem_of_getElem? ((List.getElem?_set_ne hik).trans hi), hpings⟩

theorem KeepsAlive.remove {k : ℕ} {p : Pending} (h : c.KeepsAlive) (hp : c.pending[k]? = some p)
    (hpings : p.pings ≠ true) : (c.remove k).KeepsAlive := by
  intro hrunning
  obtain ⟨p', hp', hpings'⟩ := h hrunning
  obtain ⟨i, hi⟩ := List.mem_iff_getElem?.mp hp'
  refine ⟨p', List.mem_eraseIdx_iff_getElem?.mpr ⟨i, fun hik => ?_, hi⟩, hpings'⟩
  rw [hik, hp] at hi
  exact hpings (Option.some.inj hi ▸ hpings')

/-- A wait that has not been cancelled ends without error. -/
def TimersExpire (c : Connector D) (e : ConnectorEvent) : Prop :=
  OnCompletion c e fun _ o p =>
    (∃ timer d, p.operation = .wait timer d) → p.status ≠ .cancelled → o.ec = none

section Pings
variable [Zero D] [OfNumeral D] {jsonParse : String → Except StdException Json} {a : ℕ}
variable {o : Outcome} {p : Pending}

/-- When a ping has been sent or the time for one has come, the next thing is started. -/
theorem keepsAlive_of_pings (hpings : p.pings = true)
    (hend : (∃ timer d, p.operation = .wait timer d) → p.status ≠ .cancelled → o.ec = none)
    (h : c.handle jsonParse a o p.operation = some c') : c'.KeepsAlive := by
  obtain ⟨op, a', status⟩ := p
  cases op with
  | ping | jsonPing =>
    simp only [handle, onPing] at h
    split at h
    · exact .of_stopped (moves_fail h).2
    · exact Option.some.inj h ▸ keepsAlive_doPing c a
  | wait timer d =>
    cases timer with
    | ping =>
      obtain rfl := Option.some.inj h
      have hec := hend ⟨_, _, rfl⟩ (of_decide_eq_true hpings)
      unfold onPingTimer
      split_ifs with hstop
      · refine .of_stopped ?_
        simpa [hec] using hstop
      · refine keepsAlive_initiate c a ?_
        cases c.exchange <;> rfl
    | handshake | reconnect => cases hpings
  | _ => cases hpings

omit [Zero D] [OfNumeral D] in
theorem keepsAlive_onWsHandshake (hec : o.ec = none) (h : c.onWsHandshake a o = some c') :
    c'.KeepsAlive := by
  simp only [onWsHandshake, hec] at h
  exact Option.some.inj h ▸ keepsAlive_doPing _ a

end Pings
end Connector

section Sessions
variable {D : Type} [LinearOrder D] [Zero D] [OfNumeral D]
variable {jsonParse : String → Except StdException Json} {exchange : Exchange}
variable {c c' : Connector D} {e : ConnectorEvent} {events : List ConnectorEvent}
variable {established : List ℕ}

theorem keepsAlive_step (hsettled : c.view.Settled established) (hexpire : c.TimersExpire e)
    (h : c.attempt ∈ established → c.KeepsAlive) (hs : c.step jsonParse e = some c')
    (hmem : c'.attempt ∈ observeEstablished established c e c') : c'.KeepsAlive := by
  cases e with
  | expire k =>
    obtain ⟨p, hp, hstatus, rfl⟩ := Connector.expire_of_step hs
    have hbefore : c.attempt ∈ established := by
      simpa [observeEstablished, Connector.establishes] using hmem
    exact (h hbefore).expire hp hstatus
  | complete k o =>
    obtain ⟨p, hp, -, hhandle⟩ := Connector.handle_of_step hs
    by_cases hbegins : p.operation = .wsHandshake ∧ o.ec = none
    · rw [hbegins.1] at hhandle
      exact Connector.keepsAlive_onWsHandshake hbegins.2 hhandle
    have hbefore : c'.attempt ∈ established := by
      simpa [observeEstablished, Connector.establishes, hp, hbegins] using hmem
    rcases Connector.moves_handle hhandle with rfl | hmoves
    · exact absurd (hsettled.begun _ hbefore) (Nat.not_succ_le_self _)
    · rw [Connector.attempt_moves hmoves] at hbefore
      by_cases hpings : p.pings = true
      · exact Connector.keepsAlive_of_pings hpings (hexpire k o p rfl hp) hhandle
      · exact ((h hbefore).remove hp hpings).moves hmoves

/-- Each timer has one armed wait at most, a stopped connector has none armed for a ping, and in a
session that has begun a ping or the wait for one is under way until the connector stops or starts
again. -/
theorem session_keeps_pinging
    (hrun : run (sessionStep jsonParse) ((Connector.initial exchange : Connector D), []) events =
      some (c, established))
    (hexpire : EveryStep (sessionStep jsonParse) ((Connector.initial exchange : Connector D), [])
      events fun x e _ => x.1.TimersExpire e) :
    (∀ timer, c.pending.countP (Pending.armedOn timer) ≤ 1) ∧
      (c.stopped = true → c.pending.countP (Pending.armedOn .ping) = 0) ∧
      (c.stopped = false → c.attempt ∈ established → ∃ p ∈ c.pending, p.pings = true) := by
  have harmed : c.Armed := by
    have hnew : (⟨exchange, false, 0, Books.empty, 0, []⟩ : Connector D).Armed :=
      ⟨fun _ => Nat.zero_le 1, nofun⟩
    exact invariant (I := fun c : Connector D => c.Armed) hnew.start
      (fun _ _ _ h hs => h.step hs) (run_of_withHistory hrun)
  have halive : EveryState (sessionStep jsonParse) ((Connector.initial exchange : Connector D), [])
      events fun x => x.1.attempt ∈ x.2 → x.1.KeepsAlive := by
    refine everyState_of_everyStep nofun ?_ hexpire
    rintro pre ⟨t, before⟩ e ⟨t', after⟩ hpre ht hstep hexp
    obtain ⟨hs, rfl⟩ := withHistory_eq_some.mp hstep
    exact keepsAlive_step (settled_run hpre) hexp ht hs
  exact ⟨harmed.once, harmed.silent, fun hrunning hmem => halive.last hrun hmem hrunning⟩

def pingEvents : List ConnectorEvent :=
  [.complete 0 (.success ""), .complete 0 (.success ""), .complete 0 (.success ""),
    .complete 1 (.success ""), .expire 2, .complete 2 (.success ""), .complete 2 (.success "")]

theorem session_keeps_pinging_example :
    ∃ (c : Connector ℚ) (established : List ℕ),
      run (sessionStep (decodeTable [])) (Connector.initial .bybit, []) pingEvents =
        some (c, established) ∧ ∃ p ∈ c.pending, p.pings = true := by
  obtain ⟨⟨c, established⟩, hrun, hrunning, hmem⟩ := exists_of_run_any
    (P := fun x : Connector ℚ × List ℕ => x.1.stopped = false ∧ x.1.attempt ∈ x.2)
    (show (run (sessionStep (decodeTable [])) ((Connector.initial .bybit : Connector ℚ), [])
      pingEvents).any _ = true by decide +kernel)
  have hexpire : EveryStep (sessionStep (decodeTable []))
      ((Connector.initial .bybit : Connector ℚ), []) pingEvents
        fun x e _ => x.1.TimersExpire e := by
    have hsuccess : ∀ e ∈ pingEvents, ∀ k o, e = .complete k o → o.ec = none := by
      simp [pingEvents, Outcome.success]
    have hall := (everyStep_iff_forall_mem (Q := fun e : ConnectorEvent => ∀ k o,
      e = .complete k o → o.ec = none) hrun).mpr hsuccess
    exact hall.mono fun _ _ _ _ _ _ h k o _ he _ _ _ => h k o he
  exact ⟨c, established, hrun, (session_keeps_pinging hrun hexpire).2.2 hrunning hmem⟩

end Sessions
end AsioAggregator
