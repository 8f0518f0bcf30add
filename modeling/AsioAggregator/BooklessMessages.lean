import AsioAggregator.NoLostUpdate

/-!
# Messages without book data

Acknowledgements, errors, heartbeats and texts that are no JSON leave the parsers before they reach
the books. `handle_message` does not ask: it notifies the aggregator all the same, which rebuilds
the same consolidated books under a new version, and the subscribers are sent them again.
-/

namespace AsioAggregator

open Runs

/-- The value carries order-book data of the exchange. -/
def carriesBook : Exchange → Json → Bool
  | .binance, j => j.contains "lastUpdateId"
  | .okx, j => !j.memberIs "event" "subscribe" && j.contains "data"
  | .bitget, j => !j.memberIs "op" "subscribe" && j.memberIs "action" "snapshot"
  | .bybit, j =>
    !j.memberIs "op" "subscribe" && !j.memberIs "op" "pong" &&
      j.memberIs "topic" "orderbook.50.BTCUSDT" &&
      (j.member? "data").any Json.isObject &&
      (j.memberIs "type" "snapshot" || j.memberIs "type" "delta")

def Bookless (jsonParse : String → Except StdException Json) (ex : Exchange) (msg : String) :
    Prop :=
  ∀ j, jsonParse msg = .ok j → carriesBook ex j = false

variable {D : Type} [LinearOrder D] [Zero D] [OfNumeral D]
variable {jsonParse : String → Except StdException Json}

theorem bybitContent_of_bookless {j data : Json}
    (h : (data.isObject && (j.memberIs "type" "snapshot" || j.memberIs "type" "delta")) = false) :
    (bybitContent j data : Reading D) = .skipped none := by
  unfold bybitContent
  cases hobject : data.isObject with
  | false => rfl
  | true =>
    rw [hobject, Bool.true_and, Bool.or_eq_false_iff] at h
    simp only [h.1, h.2, Bool.not_true, Bool.false_eq_true, if_false]

theorem reading_of_not_carriesBook {ex : Exchange} {msg : String} {j : Json}
    (hj : jsonParse msg = .ok j) (h : carriesBook ex j = false) :
    (reading jsonParse ex msg : Reading D) = .skipped none := by
  have hparse := parseJson_of_ok jsonParse hj
  cases ex with
  | binance =>
    have hid : j.contains "lastUpdateId" = false := h
    simp only [reading, binanceReading, hparse, hid, Bool.false_eq_true, if_false]
  | okx =>
    simp only [reading, okxReading, hparse]
    cases hevent : j.memberIs "event" "subscribe" with
    | true => rfl
    | false =>
      have hdata : j.contains "data" = false := by simpa [carriesBook, hevent] using h
      simp only [hdata, Bool.false_eq_true, if_false]
  | bitget =>
    simp only [reading, bitgetReading, hparse]
    cases hop : j.memberIs "op" "subscribe" with
    | true => rfl
    | false =>
      have haction : j.memberIs "action" "snapshot" = false := by
        simpa [carriesBook, hop] using h
      simp only [haction, Bool.false_eq_true, if_false]
  | bybit =>
    simp only [reading, bybitReading, hparse]
    cases hsub : j.memberIs "op" "subscribe" with
    | true => rfl
    | false =>
      cases hpong : j.memberIs "op" "pong" with
      | true => rfl
      | false =>
        cases htopic : j.memberIs "topic" "orderbook.50.BTCUSDT" with
        | false => rfl
        | true =>
          obtain ⟨members, rfl⟩ := Json.object_of_memberIs htopic
          simp only [carriesBook, hsub, hpong, htopic, Bool.not_false, Bool.true_and] at h
          refine bybitContent_of_bookless ?_
          cases hdata : members.lookup "data" with
          | none => rfl
          | some data => simpa [Json.member?, hdata] using h

theorem parseMessage_of_bookless {ex : Exchange} {msg : String} (h : Bookless jsonParse ex msg)
    (b : Books D) : parseMessage jsonParse ex msg b = some b := by
  refine (parseMessage_eq_some jsonParse).mpr ?_
  cases hj : jsonParse msg with
  | ok j =>
    rw [reading_of_not_carriesBook hj (h j hj)]
    exact ⟨rfl, rfl⟩
  | error e =>
    have hparse : parseJson jsonParse msg = .error (.exception e) := by
      rw [parseJson, hj]
      rfl
    have hskip : (reading jsonParse ex msg : Reading D) = .skipped (some (.exception e)) := by
      cases ex <;>
        simp only [reading, binanceReading, okxReading, bitgetReading, bybitReading, hparse]
    rw [hskip]
    exact ⟨rfl, rfl⟩

variable [Add D] {s s' : Server D} {i : ℕ} {msg : String} {events : List ServerEvent}

/-- The message is handled in the state `s`, and what it posted has run, with any steps of the
other threads in between. -/
structure HandledThrough (jsonParse : String → Except StdException Json) (s : Server D) (i : ℕ)
    (msg : String) (events : List ServerEvent) (s' : Server D) : Prop where
  run : run (Server.step jsonParse) s (.deliver i msg :: events) = some s'
  alone : ∀ e ∈ events, e.isDelivery = false
  drained : pendingUpdates s' = 0

def Invisible (jsonParse : String → Except StdException Json) (s : Server D) (i : ℕ)
    (msg : String) : Prop :=
  ∀ events s', HandledThrough jsonParse s i msg events s' →
    s'.connectors = s.connectors ∧ s'.consolidated = s.consolidated ∧ s'.version = s.version

theorem connectors_step {e : ServerEvent} (he : e.isDelivery = false)
    (hs : s.step jsonParse e = some s') : s'.connectors = s.connectors := by
  cases e with
  | deliver k text => cases he
  | runStrand now =>
    obtain ⟨k, rest, -, rfl⟩ | ⟨j, rest, -, rfl⟩ := step_runStrand.mp hs
    · rfl
    · rfl
  | subscribe =>
    obtain rfl := step_subscribe.mp hs
    rfl
  | poll j cancelled =>
    obtain ⟨sub, -, -, rfl⟩ := step_poll.mp hs
    cases cancelled <;> rfl
  | resume j writeOk =>
    obtain ⟨sub, update, version, -, -, rfl⟩ := step_resume.mp hs
    rfl

theorem connectors_run (halone : ∀ e ∈ events, e.isDelivery = false)
    (hrun : run (Server.step jsonParse) s events = some s') : s'.connectors = s.connectors := by
  induction events generalizing s with
  | nil => exact congrArg Server.connectors (Option.some.inj hrun).symm
  | cons e events ih =>
    obtain ⟨t, ht, hrest⟩ := run_cons_eq_some.mp hrun
    have hstep := connectors_step (halone e List.mem_cons_self) ht
    exact (ih (fun e' he' => halone e' (List.mem_cons_of_mem _ he')) hrest).trans hstep

theorem exists_drain (jsonParse : String → Except StdException Json) (now : ℤ) (s : Server D) :
    ∃ s', run (Server.step jsonParse) s (List.replicate s.strand.length (.runStrand now)) =
      some s' ∧ s'.strand = [] := by
  induction hn : s.strand.length generalizing s with
  | zero => exact ⟨s, rfl, List.length_eq_zero_iff.mp hn⟩
  | succ n ih =>
    obtain ⟨t, ht, hlength⟩ : ∃ t, s.step jsonParse (.runStrand now) = some t ∧
        t.strand.length = n := by
      cases hstrand : s.strand with
      | nil => simp [hstrand] at hn
      | cons task rest =>
        have hrest : rest.length = n := by simpa [hstrand] using hn
        cases task with
        | update k => exact ⟨_, step_runStrand.mpr (Or.inl ⟨k, rest, hstrand, rfl⟩), hrest⟩
        | snapshot j => exact ⟨_, step_runStrand.mpr (Or.inr ⟨j, rest, hstrand, rfl⟩), hrest⟩
    obtain ⟨s', hrun, hempty⟩ := ih t hlength
    refine ⟨s', ?_, hempty⟩
    rw [List.replicate_succ]
    exact run_cons_eq_some.mpr ⟨t, ht, hrun⟩

theorem exists_handledThrough {c : Feed D} {books : Books D} (hc : s.connectors[i]? = some c)
    (hparse : parseMessage jsonParse c.exchange msg c.localBooks = some books) :
    ∃ events s', HandledThrough jsonParse s i msg events s' := by
  obtain ⟨t, ht⟩ : ∃ t, s.step jsonParse (.deliver i msg) = some t :=
    ⟨_, step_deliver.mpr ⟨c, books, hc, hparse, rfl⟩⟩
  obtain ⟨s', hrun, hempty⟩ := exists_drain jsonParse 0 t
  refine ⟨List.replicate t.strand.length (.runStrand 0), s', ?_, ?_, ?_⟩
  · exact run_cons_eq_some.mpr ⟨t, ht, hrun⟩
  · intro e he
    rw [List.eq_of_mem_replicate he]
    rfl
  · rw [pendingUpdates, hempty]
    rfl

section Reached
variable {exchanges : List Exchange} {pre : List ServerEvent} {c : Feed D}

/-- Every message that is handled raises the version by one, whatever it says. -/
theorem version_handledThrough
    (hrun : run (Server.step jsonParse) (Server.initial exchanges) pre = some s)
    (hdrained : pendingUpdates s = 0) (h : HandledThrough jsonParse s i msg events s') :
    s'.version = s.version + 1 := by
  have hrun' : run (Server.step jsonParse) (Server.initial exchanges)
      (pre ++ .deliver i msg :: events) = some s' := run_append_eq_some.mpr ⟨s, hrun, h.run⟩
  have hnone : events.countP ServerEvent.isDelivery = 0 :=
    List.countP_eq_zero.mpr fun e he => by simp [h.alone e he]
  have hcount : messageCount (pre ++ .deliver i msg :: events) = messageCount pre + 1 := by
    rw [messageCount, List.countP_append, List.countP_cons_of_pos rfl, hnone, messageCount]
  rw [(accounted_run hrun').version_of_drained h.drained,
    (accounted_run hrun).version_of_drained hdrained, hcount, UInt64.ofNat_add]
  rfl

theorem books_handledThrough
    (hrun : run (Server.step jsonParse) (Server.initial exchanges) pre = some s)
    (hdrained : pendingUpdates s = 0) (hc : s.connectors[i]? = some c)
    (hmsg : Bookless jsonParse c.exchange msg) (h : HandledThrough jsonParse s i msg events s') :
    s'.connectors = s.connectors ∧ s'.consolidated = s.consolidated := by
  have hconnectors : s'.connectors = s.connectors := by
    obtain ⟨t, ht, hrest⟩ := run_cons_eq_some.mp h.run
    obtain ⟨c', books, hc', hparse, rfl⟩ := step_deliver.mp ht
    obtain rfl : c = c' := Option.some.inj (hc.symm.trans hc')
    have hbooks : c.localBooks = books :=
      Option.some.inj ((parseMessage_of_bookless hmsg c.localBooks).symm.trans hparse)
    obtain ⟨hlt, hget⟩ := List.getElem?_eq_some_iff.mp hc
    have hset : s.connectors.set i ⟨c.exchange, books⟩ = s.connectors := by
      rw [← hbooks, ← hget]
      exact List.set_getElem_self hlt
    exact (connectors_run h.alone hrest).trans hset
  have hrun' : run (Server.step jsonParse) (Server.initial exchanges)
      (pre ++ .deliver i msg :: events) = some s' := run_append_eq_some.mpr ⟨s, hrun, h.run⟩
  refine ⟨hconnectors, ?_⟩
  rw [(accounted_run hrun').upToDate h.drained, (accounted_run hrun).upToDate hdrained,
    hconnectors]

/-- A message without book data leaves all books as they are, and is visible all the same: its
handling raises the version. -/
theorem bookless_message_visible
    (hrun : run (Server.step jsonParse) (Server.initial exchanges) pre = some s)
    (hdrained : pendingUpdates s = 0) (hc : s.connectors[i]? = some c)
    (hmsg : Bookless jsonParse c.exchange msg) :
    ¬ Invisible jsonParse s i msg ∧
      ∀ events s', HandledThrough jsonParse s i msg events s' →
        s'.connectors = s.connectors ∧ s'.consolidated = s.consolidated ∧
          s'.version = s.version + 1 := by
  constructor
  · intro hinvisible
    obtain ⟨events, s', h⟩ :=
      exists_handledThrough hc (parseMessage_of_bookless hmsg c.localBooks)
    have hsame := (hinvisible events s' h).2.2
    rw [version_handledThrough hrun hdrained h] at hsame
    simp at hsame
  · intro events s' h
    obtain ⟨hconnectors, hconsolidated⟩ := books_handledThrough hrun hdrained hc hmsg h
    exact ⟨hconnectors, hconsolidated, version_handledThrough hrun hdrained h⟩

end Reached

/-- A subscriber that has not seen the version is sent the book at its next poll. -/
theorem sent_at_next_poll {j : ℕ} {sub : Subscriber D} (now : ℤ) (hstrand : s.strand = [])
    (hsub : s.subscribers[j]? = some sub) (hpolling : sub.phase = .polling)
    (hnew : sub.lastSeenVersion < s.version) :
    ∃ s', run (Server.step jsonParse) s [.poll j false, .runStrand now, .resume j true] = some s' ∧
      s'.subscribers[j]? = some ⟨s.version, .polling,
        sub.written ++ [(s.version, buildBookUpdate now s.consolidated)]⟩ := by
  have hlt : j < s.subscribers.length := (List.getElem?_eq_some_iff.mp hsub).1
  let sub₁ : Subscriber D := { sub with phase := .waiting }
  let sub₂ : Subscriber D :=
    { sub with phase := .received (buildBookUpdate now s.consolidated) s.version }
  let s₁ : Server D := { s with
    subscribers := s.subscribers.set j sub₁
    strand := [.snapshot j] }
  let s₂ : Server D := { s with
    subscribers := s₁.subscribers.modify j fun sub =>
      { sub with phase := .received (buildBookUpdate now s.consolidated) s.version }
    strand := [] }
  let sub₃ := sub₂.consume (buildBookUpdate now s.consolidated) s.version true
  have hwaiting : s₁.subscribers[j]? = some sub₁ := List.getElem?_set_self hlt
  have hreceived : s₂.subscribers[j]? = some sub₂ := by simp [s₂, hwaiting, sub₁, sub₂]
  have hposted : s.step jsonParse (.poll j false) = some s₁ :=
    step_poll.mpr ⟨sub, hsub, hpolling, by simp [s₁, sub₁, hstrand]⟩
  have hran : s₁.step jsonParse (.runStrand now) = some s₂ :=
    step_runStrand.mpr (Or.inr ⟨j, [], rfl, rfl⟩)
  have hwritten : s₂.step jsonParse (.resume j true) =
      some { s₂ with subscribers := s₂.subscribers.set j sub₃ } :=
    step_resume.mpr ⟨sub₂, _, _, hreceived, rfl, rfl⟩
  have hrun : run (Server.step jsonParse) s [.poll j false, .runStrand now, .resume j true] =
      some { s₂ with subscribers := s₂.subscribers.set j sub₃ } := by
    simp only [run_cons, hposted, hran, hwritten, Option.bind_some, run_nil]
  refine ⟨_, hrun, ?_⟩
  have hlt' : j < s₂.subscribers.length := (List.getElem?_eq_some_iff.mp hreceived).1
  rw [List.getElem?_set_self hlt']
  simp [sub₃, sub₂, Subscriber.consume, hnew]

section Example

def acknowledgementText : String := "\x7b\"result\":null,\"id\":1\x7d"

def decodeAcknowledgement : String → Except StdException Json :=
  decodeTable
    [(acknowledgementText, .object [("id", .number 1), ("result", .null)]),
    (oneBidText, .object [("asks", .array []), ("bids", .array [.level "70400.00" "1.5"]),
      ("lastUpdateId", .number 160)])]

def bookSent : List ServerEvent :=
  [.subscribe, .deliver 0 oneBidText, .runStrand 0, .poll 0 false, .runStrand 0, .resume 0 true]

def levelsSent (sub : Subscriber ℚ) : List (UInt64 × List (Level ℚ) × List (Level ℚ)) :=
  sub.written.map fun w => (w.1, w.2.bids, w.2.asks)

theorem bookless_acknowledgement :
    Bookless decodeAcknowledgement .binance acknowledgementText := by
  intro j hj
  have hmessage : decodeAcknowledgement acknowledgementText = .ok _ := decodeTable_cons_self
  obtain rfl := Except.ok.inj (hmessage.symm.trans hj)
  rfl

theorem bookless_message_visible_example :
    ∃ s : Server ℚ, run (Server.step decodeAcknowledgement) (Server.initial [.binance]) bookSent =
      some s ∧ ¬ Invisible decodeAcknowledgement s 0 acknowledgementText := by
  obtain ⟨s, hrun, hdrained, hexchange⟩ := exists_of_run_any
    (P := fun s : Server ℚ => pendingUpdates s = 0 ∧
      (s.connectors[0]?.map Feed.exchange) = some .binance)
    (show (run (Server.step decodeAcknowledgement) (Server.initial [.binance]) bookSent).any _ =
      true by decide +kernel)
  obtain ⟨c, hc, hbinance⟩ := Option.map_eq_some_iff.mp hexchange
  have hmsg : Bookless decodeAcknowledgement c.exchange acknowledgementText :=
    hbinance ▸ bookless_acknowledgement
  exact ⟨s, hrun, (bookless_message_visible hrun hdrained hc hmsg).1⟩

/-- The acknowledgement is followed by a second update with the same levels. -/
theorem acknowledgement_resends_book :
    Bookless decodeAcknowledgement .binance acknowledgementText ∧
      ∃ s s' : Server ℚ,
        run (Server.step decodeAcknowledgement) (Server.initial [.binance]) bookSent = some s ∧
        pendingUpdates s = 0 ∧ ¬ Invisible decodeAcknowledgement s 0 acknowledgementText ∧
        run (Server.step decodeAcknowledgement) s [.deliver 0 acknowledgementText, .runStrand 0,
          .poll 0 false, .runStrand 0, .resume 0 true] = some s' ∧
        s'.subscribers.length = 1 ∧ ∀ sub ∈ s'.subscribers,
          levelsSent sub = [(1, [⟨70400, 3 / 2⟩], []), (2, [⟨70400, 3 / 2⟩], [])] := by
  obtain ⟨s, hrun, hdrained, hversion, hresent⟩ := exists_of_run_any
    (P := fun s : Server ℚ => pendingUpdates s = 0 ∧
      (run (Server.step decodeAcknowledgement) s
        [.deliver 0 acknowledgementText, .runStrand 0]).any
          (fun t => pendingUpdates t = 0 ∧ t.version ≠ s.version) = true ∧
      (run (Server.step decodeAcknowledgement) s [.deliver 0 acknowledgementText, .runStrand 0,
        .poll 0 false, .runStrand 0, .resume 0 true]).any
          (fun t => t.subscribers.length = 1 ∧ ∀ sub ∈ t.subscribers,
            levelsSent sub = [(1, [⟨70400, 3 / 2⟩], []), (2, [⟨70400, 3 / 2⟩], [])]) = true)
    (show (run (Server.step decodeAcknowledgement) (Server.initial [.binance]) bookSent).any _ =
      true by decide +kernel)
  obtain ⟨t, ht, hdone, hraised⟩ := exists_of_run_any
    (P := fun t : Server ℚ => pendingUpdates t = 0 ∧ t.version ≠ s.version) hversion
  obtain ⟨s', hs', hsent⟩ := exists_of_run_any
    (P := fun t : Server ℚ =>
      t.subscribers.length = 1 ∧ ∀ sub ∈ t.subscribers,
        levelsSent sub = [(1, [⟨70400, 3 / 2⟩], []), (2, [⟨70400, 3 / 2⟩], [])]) hresent
  refine ⟨bookless_acknowledgement, s, s', hrun, hdrained, fun hinvisible => ?_, hs', hsent⟩
  have hhandled : HandledThrough decodeAcknowledgement s 0 acknowledgementText [.runStrand 0] t :=
    ⟨ht, by decide, hdone⟩
  exact hraised (hinvisible _ t hhandled).2.2

end Example
end AsioAggregator
