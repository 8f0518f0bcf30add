import AsioAggregator.Aggregator

/-!
# No update is lost

An update task reads the local books when it runs, not when it was posted. So as long as one is
pending the consolidated book may be stale, and as soon as none is pending it is the consolidation
of the current local books, however the messages, the tasks and the subscribers interleave.
-/

namespace AsioAggregator

open Runs

def Task.isUpdate : Task → Bool
  | .update _ => true
  | .snapshot _ => false

/-- The text that the event hands to connector `i`. -/
def ServerEvent.messageTo (i : ℕ) : ServerEvent → Option String
  | .deliver k msg => if k = i then some msg else none
  | _ => none

def ServerEvent.isDelivery : ServerEvent → Bool
  | .deliver _ _ => true
  | _ => false

def messagesTo (i : ℕ) (events : List ServerEvent) : List String :=
  events.filterMap (ServerEvent.messageTo i)

def messageCount (events : List ServerEvent) : ℕ := events.countP ServerEvent.isDelivery

theorem messagesTo_concat (i : ℕ) (events : List ServerEvent) (e : ServerEvent) :
    messagesTo i (events ++ [e]) = messagesTo i events ++ (e.messageTo i).toList := by
  rw [messagesTo, List.filterMap_append]
  cases h : e.messageTo i <;> simp [messagesTo, h]

theorem messageCount_concat (events : List ServerEvent) (e : ServerEvent) :
    messageCount (events ++ [e]) = messageCount events + if e.isDelivery then 1 else 0 := by
  rw [messageCount, List.countP_append, List.countP_singleton]
  rfl

theorem messageTo_eq_none_of_not_isDelivery {e : ServerEvent} (h : e.isDelivery = false) (i : ℕ) :
    e.messageTo i = none := by
  cases e with
  | deliver k msg => cases h
  | _ => rfl

variable {D : Type} [LinearOrder D]

def pendingUpdates (s : Server D) : ℕ := s.strand.countP Task.isUpdate

variable [Zero D] [OfNumeral D] (jsonParse : String → Except StdException Json)

def replay (ex : Exchange) (msgs : List String) : Option (Books D) :=
  parseMessages jsonParse ex msgs Books.empty

theorem replay_concat (ex : Exchange) (msgs : List String) (msg : String) :
    replay jsonParse ex (msgs ++ [msg]) =
      (replay (D := D) jsonParse ex msgs).bind fun b => parseMessage jsonParse ex msg b := by
  rw [replay, parseMessages_append]
  refine congrArg _ (funext fun b => ?_)
  simp [parseMessages]

/-- What every reachable state satisfies: the local books are the replays of the messages handled,
every message handled has raised the version or will, and the consolidated book is up to date
unless an update is pending. -/
structure Accounted [Add D] (exchanges : List Exchange) (events : List ServerEvent)
    (s : Server D) : Prop where
  length_eq : s.connectors.length = exchanges.length
  replayed : ∀ i c, s.connectors[i]? = some c →
    exchanges[i]? = some c.exchange ∧
      replay jsonParse c.exchange (messagesTo i events) = some c.localBooks
  count_eq : messageCount events =
    ∑ i ∈ Finset.range exchanges.length, (messagesTo i events).length
  version_eq : s.version + UInt64.ofNat (pendingUpdates s) = UInt64.ofNat (messageCount events)
  upToDate : pendingUpdates s = 0 → s.consolidated = consolidate s.connectors

variable {jsonParse} [Add D] {exchanges : List Exchange} {events : List ServerEvent}
variable {s s' : Server D}

theorem accounted_initial :
    Accounted jsonParse exchanges [] (Server.initial exchanges : Server D) where
  length_eq := List.length_map _
  replayed i c hc := by
    simp only [Server.initial, List.getElem?_map, Option.map_eq_some_iff] at hc
    obtain ⟨ex, hex, rfl⟩ := hc
    exact ⟨hex, rfl⟩
  count_eq := by simp [messageCount, messagesTo]
  version_eq := rfl
  upToDate _ := by
    have hnil : ∀ exs : List Exchange, consolidate (D := D)
        (exs.map fun ex => ⟨ex, Books.empty⟩) = Books.empty := by
      intro exs
      induction exs with
      | nil => rfl
      | cons ex exs ih => exact ih
    exact (hnil exchanges).symm

namespace Accounted

theorem of_frame {e : ServerEvent} (h : Accounted jsonParse exchanges events s)
    (he : e.isDelivery = false) (hconn : s'.connectors = s.connectors)
    (hcons : s'.consolidated = s.consolidated) (hver : s'.version = s.version)
    (hpend : pendingUpdates s' = pendingUpdates s) :
    Accounted jsonParse exchanges (events ++ [e]) s' := by
  have hmsgs : ∀ i, messagesTo i (events ++ [e]) = messagesTo i events := by
    intro i
    rw [messagesTo_concat, messageTo_eq_none_of_not_isDelivery he]
    exact List.append_nil _
  have hcount : messageCount (events ++ [e]) = messageCount events := by
    rw [messageCount_concat, he]
    rfl
  exact {
    length_eq := by rw [hconn, h.length_eq]
    replayed := fun i c hc => by rw [hmsgs]; exact h.replayed i c (hconn ▸ hc)
    count_eq := by simp only [hcount, hmsgs, h.count_eq]
    version_eq := by rw [hver, hpend, hcount, h.version_eq]
    upToDate := fun h0 => by rw [hcons, hconn]; exact h.upToDate (hpend ▸ h0) }

theorem deliver {i : ℕ} {msg : String} (h : Accounted jsonParse exchanges events s)
    (hs : s.step jsonParse (.deliver i msg) = some s') :
    Accounted jsonParse exchanges (events ++ [.deliver i msg]) s' := by
  obtain ⟨c, books, hc, hbooks, rfl⟩ := step_deliver.mp hs
  have hi : i < s.connectors.length := (List.getElem?_eq_some_iff.mp hc).1
  have hmsgs : ∀ k, messagesTo k (events ++ [.deliver i msg]) =
      messagesTo k events ++ if i = k then [msg] else [] := by
    intro k
    rw [messagesTo_concat]
    by_cases hk : i = k <;> simp [ServerEvent.messageTo, hk]
  have hcount : messageCount (events ++ [.deliver i msg]) = messageCount events + 1 := by
    rw [messageCount_concat]
    rfl
  have hpend : pendingUpdates { s with
      connectors := s.connectors.set i ⟨c.exchange, books⟩
      strand := s.strand ++ [.update i] } = pendingUpdates s + 1 := by
    simp [pendingUpdates, Task.isUpdate]
  constructor
  · simpa using h.length_eq
  · intro k d hd
    rw [hmsgs]
    by_cases hk : i = k
    · subst hk
      obtain ⟨hex, hreplay⟩ := h.replayed i c hc
      simp only [List.getElem?_set_self hi, Option.some.injEq] at hd
      subst hd
      rw [if_pos rfl, replay_concat, hreplay]
      exact ⟨hex, hbooks⟩
    · rw [if_neg hk, List.append_nil]
      refine h.replayed k d ?_
      simpa only [List.getElem?_set_ne hk] using hd
  · have hmem : i ∈ Finset.range exchanges.length := by
      rw [Finset.mem_range, ← h.length_eq]
      exact hi
    have hlen : ∀ k, (messagesTo k (events ++ [.deliver i msg])).length =
        (messagesTo k events).length + if i = k then 1 else 0 := by
      intro k
      rw [hmsgs, List.length_append]
      by_cases hk : i = k <;> simp [hk]
    rw [hcount, h.count_eq]
    simp only [hlen, Finset.sum_add_distrib, Finset.sum_ite_eq, if_pos hmem]
  · rw [hpend, hcount, UInt64.ofNat_add, UInt64.ofNat_add, ← h.version_eq, UInt64.add_assoc]
  · intro h0
    rw [hpend] at h0
    omega

theorem runStrand {now : ℤ} (h : Accounted jsonParse exchanges events s)
    (hs : s.step jsonParse (.runStrand now) = some s') :
    Accounted jsonParse exchanges (events ++ [.runStrand now]) s' := by
  obtain ⟨i, rest, hstrand, rfl⟩ | ⟨j, rest, hstrand, rfl⟩ := step_runStrand.mp hs
  · have hpend : pendingUpdates s = pendingUpdates { s with strand := rest } + 1 := by
      rw [pendingUpdates, hstrand]
      exact List.countP_cons_of_pos rfl
    have hmsgs : ∀ k, messagesTo k (events ++ [.runStrand now]) = messagesTo k events := by
      intro k
      rw [messagesTo_concat]
      exact List.append_nil _
    have hcount : messageCount (events ++ [.runStrand now]) = messageCount events := by
      rw [messageCount_concat]
      rfl
    constructor
    · exact h.length_eq
    · intro k c hc
      rw [hmsgs]
      exact h.replayed k c hc
    · simp only [hcount, hmsgs, h.count_eq]
    · rw [hcount, ← h.version_eq, hpend, UInt64.ofNat_add, UInt64.add_assoc]
      exact congrArg _ (UInt64.add_comm _ _)
    · intro _
      rfl
  · refine h.of_frame rfl rfl rfl rfl ?_
    simp [pendingUpdates, hstrand, Task.isUpdate]

theorem step {e : ServerEvent} (h : Accounted jsonParse exchanges events s)
    (hs : s.step jsonParse e = some s') : Accounted jsonParse exchanges (events ++ [e]) s' := by
  cases e with
  | deliver i msg => exact h.deliver hs
  | runStrand now => exact h.runStrand hs
  | subscribe =>
    obtain rfl := step_subscribe.mp hs
    exact h.of_frame rfl rfl rfl rfl rfl
  | poll j cancelled =>
    obtain ⟨sub, -, -, rfl⟩ := step_poll.mp hs
    cases cancelled
    · refine h.of_frame rfl rfl rfl rfl ?_
      simp [pendingUpdates, Task.isUpdate]
    · exact h.of_frame rfl rfl rfl rfl rfl
  | resume j writeOk =>
    obtain ⟨sub, update, version, -, -, rfl⟩ := step_resume.mp hs
    exact h.of_frame rfl rfl rfl rfl rfl

end Accounted

theorem accounted_run
    (hrun : run (Server.step jsonParse) (Server.initial exchanges) events = some s) :
    Accounted jsonParse exchanges events s :=
  history_invariant accounted_initial (fun _ _ _ _ _ h hs => h.step hs) hrun

theorem Accounted.connectors_eq {events' : List ServerEvent}
    (h : Accounted jsonParse exchanges events s) (h' : Accounted jsonParse exchanges events' s')
    (hmsgs : ∀ i, messagesTo i events' = messagesTo i events) : s'.connectors = s.connectors := by
  refine List.ext_getElem (h'.length_eq.trans h.length_eq.symm) fun i hi' hi => ?_
  obtain ⟨hex, hreplay⟩ := h.replayed i _ (List.getElem?_eq_getElem hi)
  obtain ⟨hex', hreplay'⟩ := h'.replayed i _ (List.getElem?_eq_getElem hi')
  have hexchange : s'.connectors[i].exchange = s.connectors[i].exchange :=
    Option.some.inj (hex'.symm.trans hex)
  rw [hmsgs, hexchange, hreplay] at hreplay'
  have hbooks : s.connectors[i].localBooks = s'.connectors[i].localBooks :=
    Option.some.inj hreplay'
  cases hc : s.connectors[i]
  cases hc' : s'.connectors[i]
  simp_all

theorem Accounted.messageCount_eq {events' : List ServerEvent}
    (h : Accounted jsonParse exchanges events s) (h' : Accounted jsonParse exchanges events' s')
    (hmsgs : ∀ i, messagesTo i events' = messagesTo i events) :
    messageCount events' = messageCount events := by
  rw [h.count_eq, h'.count_eq]
  exact Finset.sum_congr rfl fun i _ => by rw [hmsgs]

theorem Accounted.version_of_drained (h : Accounted jsonParse exchanges events s)
    (hdrained : pendingUpdates s = 0) : s.version = UInt64.ofNat (messageCount events) := by
  simpa [hdrained] using h.version_eq

/-- Once no update is pending, the consolidated book is that of the current local books and the
version counts the messages handled, modulo the range of `uint64_t`. Runs that hand the same
messages to each connector then agree, whatever their interleaving. -/
theorem drained_up_to_date
    (hrun : run (Server.step jsonParse) (Server.initial exchanges) events = some s)
    (hdrained : pendingUpdates s = 0) :
    s.consolidated = consolidate s.connectors ∧
      s.version.toNat = messageCount events % 2 ^ 64 ∧
      ∀ events' s', run (Server.step jsonParse) (Server.initial exchanges) events' = some s' →
        pendingUpdates s' = 0 → (∀ i, messagesTo i events' = messagesTo i events) →
        s'.consolidated = s.consolidated ∧ s'.version = s.version := by
  have h := accounted_run hrun
  refine ⟨h.upToDate hdrained, ?_, ?_⟩
  · rw [h.version_of_drained hdrained]
    exact UInt64.toNat_ofNat'
  · intro events' s' hrun' hdrained' hmsgs
    have h' := accounted_run hrun'
    constructor
    · rw [h.upToDate hdrained, h'.upToDate hdrained', h.connectors_eq h' hmsgs]
    · rw [h.version_of_drained hdrained, h'.version_of_drained hdrained',
        h.messageCount_eq h' hmsgs]

def oneBidText : String :=
  "\x7b\"lastUpdateId\":160,\"bids\":[[\"70400.00\",\"1.5\"]],\"asks\":[]\x7d"

def subscribedText : String := "\x7b\"success\":true,\"op\":\"subscribe\"\x7d"

def decodeOneBid : String → Except StdException Json :=
  decodeTable
    [(oneBidText, .object [("asks", .array []), ("bids", .array [.level "70400.00" "1.5"]),
      ("lastUpdateId", .number 160)]),
    (subscribedText, .object [("op", .string "subscribe"), ("success", .bool true)])]

theorem drained_up_to_date_example : ∃ s : Server ℚ,
    run (Server.step decodeOneBid) (Server.initial [.binance, .okx])
      [.deliver 0 oneBidText, .deliver 1 subscribedText, .subscribe, .poll 0 false, .runStrand 0,
        .runStrand 0, .runStrand 7] = some s ∧
    s.consolidated = consolidate s.connectors ∧ s.version.toNat = 2 % 2 ^ 64 := by
  obtain ⟨s, hrun, hdrained⟩ := exists_of_run_any (P := fun s : Server ℚ => pendingUpdates s = 0)
    (show (run (Server.step decodeOneBid) (Server.initial [.binance, .okx])
      [.deliver 0 oneBidText, .deliver 1 subscribedText, .subscribe, .poll 0 false, .runStrand 0,
        .runStrand 0, .runStrand 7]).any (fun s : Server ℚ => pendingUpdates s = 0) = true by
          decide +kernel)
  obtain ⟨hcons, hver, -⟩ := drained_up_to_date hrun hdrained
  exact ⟨s, hrun, hcons, hver⟩

section Wrap

def rounds (n : ℕ) : List ServerEvent :=
  (List.replicate n [ServerEvent.deliver 0 "", .runStrand 0]).flatten

theorem run_round (v : UInt64) :
    run (Server.step fun _ => .error .parseError)
      { (Server.initial [.binance] : Server ℚ) with version := v } [.deliver 0 "", .runStrand 0] =
      some { (Server.initial [.binance] : Server ℚ) with version := v + 1 } := rfl

theorem run_rounds (n : ℕ) :
    run (Server.step fun _ => .error .parseError) (Server.initial [.binance] : Server ℚ)
      (rounds n) = some { Server.initial [.binance] with version := UInt64.ofNat n } := by
  induction n with
  | zero => rfl
  | succ n ih =>
    have hrounds : rounds (n + 1) = rounds n ++ [.deliver 0 "", .runStrand 0] := by
      simp [rounds, List.replicate_succ']
    rw [hrounds, run_append_eq_some]
    exact ⟨_, ih, by rw [run_round, UInt64.ofNat_add]; rfl⟩

theorem messageCount_rounds (n : ℕ) : messageCount (rounds n) = n := by
  induction n with
  | zero => rfl
  | succ n ih =>
    have hrounds : rounds (n + 1) = [.deliver 0 "", .runStrand 0] ++ rounds n := by
      simp [rounds, List.replicate_succ]
    rw [hrounds, messageCount, List.countP_append]
    change 1 + messageCount (rounds n) = n + 1
    omega

/-- After `2 ^ 64` messages the version is zero again. -/
theorem version_wraps : ∃ s : Server ℚ,
    run (Server.step fun _ => .error .parseError) (Server.initial [.binance]) (rounds (2 ^ 64)) =
      some s ∧ pendingUpdates s = 0 ∧ s.version.toNat ≠ messageCount (rounds (2 ^ 64)) := by
  refine ⟨_, run_rounds _, rfl, ?_⟩
  rw [messageCount_rounds, UInt64.toNat_ofNat', Nat.mod_self]
  exact (Nat.two_pow_pos 64).ne

end Wrap
end AsioAggregator
