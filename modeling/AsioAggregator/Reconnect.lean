import AsioAggregator.Lifecycle
import AsioAggregator.Library.Tagged

/-!
# When a connector connects again

At most one reconnect is scheduled at any time, it is scheduled only while the connector is stopped
and within the budget of attempts, and a connector that is stopped without one stays stopped.
-/

namespace AsioAggregator

open Runs Tagged

variable {D : Type} [LinearOrder D]

def Operation.isReconnectWait : Operation → Bool
  | .wait .reconnect _ => true
  | _ => false

namespace View

structure Scheduled (v : View D) : Prop where
  one : v.operations.countP (fun x => x.1.isReconnectWait) ≤ 1
  armed : ∀ d a, (.wait .reconnect d, a) ∈ v.operations → v.stopped = true ∧
    1 ≤ v.retryCount ∧ v.retryCount ≤ maxRetry ∧
      ∃ jitter, reconnectDelay v.retryCount jitter = some d
  running : v.stopped = false → v.retryCount ≤ maxRetry
  bounded : v.retryCount ≤ maxRetry + 1

theorem isReconnectWait_iff {op : Operation} :
    op.isReconnectWait = true ↔ ∃ d, op = .wait .reconnect d := by
  cases op with
  | wait timer d => cases timer <;> simp [Operation.isReconnectWait]
  | _ => simp [Operation.isReconnectWait]

theorem countP_successors (exchange : Exchange) (stopped : Bool) (o : Outcome) (op : Operation) :
    (successors exchange stopped o op).countP Operation.isReconnectWait = 0 := by
  refine List.countP_eq_zero.mpr fun op' hop' hrec => ?_
  obtain ⟨-, rfl⟩ | ⟨-, rfl⟩ | ⟨-, rfl | rfl⟩ | hsession := mem_successors hop'
  · cases hrec
  · cases hrec
  · cases hrec
  · cases hrec
  · have hnone : ∀ op ∈ sessionOperations, op.isReconnectWait = false := by decide
    exact Bool.false_ne_true ((hnone op' hsession).symm.trans hrec)

namespace Scheduled
variable {v v' : View D} {k : ℕ}

theorem remove (h : Scheduled v) (k : ℕ) : Scheduled (v.remove k) where
  one := (List.eraseIdx_sublist _ k).countP_le.trans h.one
  armed d a hmem := h.armed d a (List.mem_of_mem_eraseIdx hmem)
  running := h.running
  bounded := h.bounded

theorem countP_of_running (h : Scheduled v) (hrunning : v.stopped = false) :
    v.operations.countP (fun x => x.1.isReconnectWait) = 0 := by
  refine List.countP_eq_zero.mpr fun x hx hrec => ?_
  obtain ⟨d, hd⟩ := isReconnectWait_iff.mp hrec
  have hstopped := (h.armed d x.2 (hd ▸ hx)).1
  exact Bool.false_ne_true (hrunning.symm.trans hstopped)

theorem fail {a : ℕ} {ec : ErrorCode} {jitter : Jitter} (h : Scheduled v)
    (hfail : v.fail a ec jitter = some v') : Scheduled v' := by
  by_cases hstopped : v.stopped = true
  · rw [fail_of_stopped hstopped, Option.some.injEq] at hfail
    exact hfail ▸ h
  have hrunning : v.stopped = false := by simpa using hstopped
  have hnone := h.countP_of_running hrunning
  have hmem : ∀ d a, (Operation.wait .reconnect d, a) ∉ v.operations := fun d a hd =>
    hstopped (h.armed d a hd).1
  have hretry := h.running hrunning
  obtain ⟨-, rfl⟩ | ⟨-, ⟨hmax, rfl⟩ | ⟨hmax, d, hd, rfl⟩⟩ := fail_of_running hrunning hfail
  · exact {
      one := hnone.le.trans zero_le_one
      armed := fun d a hd => absurd hd (hmem d a)
      running := nofun
      bounded := h.bounded }
  · exact {
      one := hnone.le.trans zero_le_one
      armed := fun d a hd => absurd hd (hmem d a)
      running := nofun
      bounded := Nat.succ_le_succ hretry }
  · refine ⟨?_, fun d' a' hd' => ⟨rfl, Nat.succ_pos _, hmax, jitter, ?_⟩, nofun,
      Nat.succ_le_succ hretry⟩
    · simp only [List.countP_append, hnone, List.countP_singleton]
      rfl
    · rcases List.mem_append.mp hd' with hd' | hd'
      · exact absurd hd' (hmem d' a')
      · simp only [List.mem_singleton, Prod.mk.injEq, Operation.wait.injEq, true_and] at hd'
        rw [hd'.1]
        exact hd

theorem start {d : ℤ} {a : ℕ} (h : Scheduled v)
    (hk : v.operations[k]? = some (.wait .reconnect d, a)) :
    Scheduled (v.remove k).start ∧ v.stopped = true := by
  obtain ⟨hstopped, -, hmax, -⟩ := h.armed d a (List.mem_of_getElem? hk)
  have hzero : (v.operations.eraseIdx k).countP (fun x => x.1.isReconnectWait) = 0 := by
    have hone := h.one
    rw [countP_eraseIdx hk] at hone
    simpa [Operation.isReconnectWait] using hone
  have hnone : (v.remove k).start.operations.countP (fun x => x.1.isReconnectWait) = 0 := by
    simp only [View.start, View.remove, List.countP_append, hzero]
    rfl
  refine ⟨⟨hnone.le.trans zero_le_one, fun d' a' hd' => ?_, fun _ => hmax, h.bounded⟩, hstopped⟩
  exact absurd rfl (List.countP_eq_zero.mp hnone _ hd')

theorem proceed {a : ℕ} {o : Outcome} {op : Operation} (h : Scheduled v) (b : Books D) :
    Scheduled (v.proceed a o op b) := by
  have hnone := countP_successors v.exchange v.stopped o op
  have hmap : ((successors v.exchange v.stopped o op).map fun op => (op, a)).countP
      (fun x => x.1.isReconnectWait) = 0 := by
    rw [countP_map_tag, hnone]
  refine ⟨?_, fun d a' hd => ?_, h.running, h.bounded⟩
  · simp only [View.proceed, List.countP_append, hmap]
    exact h.one
  · rcases List.mem_append.mp hd with hd | hd
    · exact h.armed d a' hd
    · exact absurd rfl (List.countP_eq_zero.mp hmap _ hd)

end Scheduled

structure GivenUp (v : View D) : Prop where
  stopped : v.stopped = true
  noReconnect : v.operations.countP (fun x => x.1.isReconnectWait) = 0

end View

namespace Connector
variable {c : Connector D}

def reconnectWaits (c : Connector D) : List Pending :=
  c.pending.filter fun p => p.operation.isReconnectWait

theorem length_reconnectWaits :
    c.reconnectWaits.length = c.view.operations.countP fun x => x.1.isReconnectWait := by
  rw [reconnectWaits, ← List.countP_eq_length_filter, countP_view]

/-- `fail` never converts a delay that does not fit. -/
theorem fail_isSome (h : c.stopped = false → c.retryCount ≤ maxRetry) (a : ℕ) (ec : ErrorCode)
    (jitter : Jitter) : (c.fail a ec jitter).isSome := by
  cases hs : c.stopped with
  | true => simp only [fail, hs, if_true, Option.isSome_some]
  | false =>
    have hretry : c.retryCount ≤ 10 := h hs
    obtain ⟨d, hd, -⟩ := reconnectDelay_eq (show c.retryCount + 1 ≤ 22 by omega) jitter
    simp only [fail, hs, Bool.false_eq_true, if_false, cancel, hd]
    split_ifs <;> rfl

end Connector

section Steps
variable [Zero D] [OfNumeral D] {jsonParse : String → Except StdException Json}
variable {c c' : Connector D} {e : ConnectorEvent} {exchange : Exchange}
variable {events : List ConnectorEvent}

theorem scheduled_step (h : c.view.Scheduled) (hs : c.step jsonParse e = some c') :
    c'.view.Scheduled := by
  cases e with
  | expire k => exact Connector.step_expire hs ▸ h
  | complete k o =>
    obtain ⟨p, hp, -, hv⟩ := Connector.step_complete hs
    obtain ⟨ec, -, hfail⟩ | ⟨-, hr, hstart⟩ | ⟨-, -, b, -, hb⟩ := View.handle_cases hv
    · exact (h.remove k).fail hfail
    · obtain ⟨⟨d, hd⟩, -⟩ := restarts_eq_true_iff.mp hr
      rw [hstart]
      exact (h.start (hd ▸ Connector.view_getElem? hp)).1
    · exact hb ▸ (h.remove k).proceed b

omit [Zero D] [OfNumeral D] in
theorem scheduled_initial : (Connector.initial exchange : Connector D).view.Scheduled where
  one := zero_le_one
  armed d a hd := by
    rw [Connector.view_initial] at hd
    simp at hd
  running _ := Nat.zero_le _
  bounded := Nat.zero_le _

theorem scheduled_run
    (hrun : run (Connector.step jsonParse) (Connector.initial exchange) events = some c) :
    c.view.Scheduled :=
  invariant (I := fun c : Connector D => c.view.Scheduled) scheduled_initial
    (fun _ _ _ h hs => scheduled_step h hs) hrun

theorem attempt_step (h : c.view.Scheduled) (hs : c.step jsonParse e = some c') :
    c'.attempt = c.attempt ∨ c.stopped = true ∧ c'.attempt = c.attempt + 1 := by
  cases e with
  | expire k => exact Or.inl (congrArg View.attempt (Connector.step_expire hs))
  | complete k o =>
    obtain ⟨p, hp, -, hv⟩ := Connector.step_complete hs
    obtain ⟨ec, -, hfail⟩ | ⟨-, hr, hstart⟩ | ⟨-, -, b, -, hb⟩ := View.handle_cases hv
    · exact Or.inl (View.fail_frame hfail).2.2.1
    · obtain ⟨⟨d, hd⟩, -⟩ := restarts_eq_true_iff.mp hr
      exact Or.inr ⟨(h.start (hd ▸ Connector.view_getElem? hp)).2, congrArg View.attempt hstart⟩
    · exact Or.inl (congrArg View.attempt hb)

theorem givenUp_step (h : c.view.GivenUp) (hs : c.step jsonParse e = some c') :
    c'.view.GivenUp ∧ c'.attempt = c.attempt := by
  cases e with
  | expire k =>
    have hv := Connector.step_expire hs
    exact ⟨hv ▸ h, congrArg View.attempt hv⟩
  | complete k o =>
    obtain ⟨p, hp, -, hv⟩ := Connector.step_complete hs
    have hk := Connector.view_getElem? hp
    have hzero : (c.view.remove k).operations.countP (fun x => x.1.isReconnectWait) = 0 :=
      Nat.le_zero.mp ((List.eraseIdx_sublist _ k).countP_le.trans h.noReconnect.le)
    obtain ⟨ec, -, hfail⟩ | ⟨-, hr, -⟩ | ⟨-, -, b, -, hb⟩ := View.handle_cases hv
    · have hstopped : (c.view.remove k).stopped = true := h.stopped
      rw [View.fail_of_stopped hstopped, Option.some.injEq] at hfail
      rw [← hfail]
      exact ⟨⟨h.stopped, hzero⟩, (congrArg View.attempt hfail).symm⟩
    · obtain ⟨⟨d, hd⟩, -⟩ := restarts_eq_true_iff.mp hr
      have hmem := List.mem_of_getElem? hk
      exact absurd (by rw [hd]; rfl) (List.countP_eq_zero.mp h.noReconnect _ hmem)
    · rw [hb]
      refine ⟨⟨h.stopped, ?_⟩, congrArg View.attempt hb⟩
      simp only [View.proceed, List.countP_append, hzero, countP_map_tag,
        View.countP_successors]

/-- Once given up, a connector never stops being so. -/
theorem givenUp_run (h : c.view.GivenUp)
    (hrun : run (Connector.step jsonParse) c events = some c') :
    c'.view.GivenUp ∧ c'.attempt = c.attempt := by
  refine invariant (I := fun x : Connector D => x.view.GivenUp ∧ x.attempt = c.attempt)
    ⟨h, rfl⟩ ?_ hrun
  rintro t e t' ⟨ht, ha⟩ hs
  obtain ⟨ht', ha'⟩ := givenUp_step ht hs
  exact ⟨ht', ha'.trans ha⟩

/-- At most one reconnect is pending; if one is, the connector is stopped, within its budget, and
waits for the doubled delay; attempts begin only when stopped; giving up is final. -/
theorem reconnect_scheduling
    (hrun : run (Connector.step jsonParse) (Connector.initial exchange : Connector D) events =
      some c) :
    c.reconnectWaits.length ≤ 1 ∧
      (∀ p ∈ c.pending, ∀ d, p.operation = .wait .reconnect d → c.stopped = true ∧
        1 ≤ c.retryCount ∧ c.retryCount ≤ 10 ∧ 800 ≤ d ∧ d ≤ 36000 ∧ ∃ jitter : Jitter,
          d = ⌊((min (1000 * 2 ^ (c.retryCount - 1)) 30000 : ℤ) : ℚ) * jitter.value⌋) ∧
      (c.retryCount ≤ 11 ∧ ∀ a ec jitter, (c.fail a ec jitter).isSome) ∧
      (∀ e c', c.step jsonParse e = some c' → c'.attempt ≠ c.attempt → c.stopped = true) ∧
      (c.stopped = true → c.reconnectWaits = [] →
        ∀ events' c', run (Connector.step jsonParse) c events' = some c' → c'.stopped = true ∧
          c'.reconnectWaits = [] ∧
            c'.attempt = c.attempt) := by
  have h := scheduled_run hrun
  have hfail := Connector.fail_isSome h.running
  refine ⟨?_, ?_, ⟨h.bounded, hfail⟩, ?_, ?_⟩
  · rw [Connector.length_reconnectWaits]
    exact h.one
  · intro p hp d hd
    have hmem : (Operation.wait .reconnect d, p.attempt) ∈ c.view.operations :=
      List.mem_map.mpr ⟨p, hp, by rw [hd]⟩
    obtain ⟨hstopped, hpos, hmax, jitter, hdelay⟩ := h.armed d p.attempt hmem
    have hretry : c.retryCount ≤ 10 := hmax
    obtain ⟨d', hd', hlow, hhigh, hformula⟩ :=
      reconnectDelay_eq (show c.retryCount ≤ 22 by omega) jitter
    obtain rfl : d' = d := Option.some.inj (hd'.symm.trans hdelay)
    exact ⟨hstopped, hpos, hmax, hlow, hhigh, jitter, hformula⟩
  · intro e c' hs hne
    rcases attempt_step h hs with heq | ⟨hstopped, -⟩
    · exact absurd heq hne
    · exact hstopped
  · intro hstopped hnone events' c' hrun'
    have hcount : c.view.operations.countP (fun x => x.1.isReconnectWait) = 0 := by
      rw [← Connector.length_reconnectWaits, hnone]
      rfl
    obtain ⟨hgiven, hattempt⟩ := givenUp_run ⟨hstopped, hcount⟩ hrun'
    refine ⟨hgiven.stopped, ?_, hattempt⟩
    rw [← List.length_eq_zero_iff, Connector.length_reconnectWaits]
    exact hgiven.noReconnect

end Steps

theorem reconnect_scheduling_example :
    ∃ c : Connector ℚ, run (Connector.step (decodeTable [])) (Connector.initial .okx)
        [.complete 0 (.error .timedOut)] = some c ∧
      (c.pending.map Pending.operation) = [.wait .reconnect 1000] ∧
      c.reconnectWaits.length ≤ 1 ∧ c.stopped = true := by
  obtain ⟨c, hrun, hpending⟩ := exists_of_run_any
    (P := fun c : Connector ℚ => c.pending.map Pending.operation = [.wait .reconnect 1000])
    (show (run (Connector.step (decodeTable [])) (Connector.initial .okx)
      [.complete 0 (.error .timedOut)]).any _ = true by decide +kernel)
  obtain ⟨hone, hwait, -⟩ := reconnect_scheduling hrun
  obtain ⟨p, hp, hop⟩ := List.mem_map.mp (hpending ▸ List.mem_singleton_self _)
  exact ⟨c, hrun, hpending, hone, (hwait p hp 1000 hop).1⟩

end AsioAggregator
