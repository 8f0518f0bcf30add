import AsioAggregator.Market
import AsioAggregator.Replication

/-!
# From the exchanges to the subscribers

In the whole process, with connectors that fail and connect again at any time, what a subscriber
gets for its poll is the sum of books that the exchanges had, none of them older than the poll. What
the clients print is about such books as well, in exact arithmetic.
-/

namespace AsioAggregator

open Runs

/-- What the event does to the server, a message that is handed over apart. -/
def ProcessEvent.serves : ProcessEvent → Option ServerEvent
  | .runStrand now => some (.runStrand now)
  | e => e.ofSubscriber

namespace Process
variable {D : Type} [LinearOrder D]

def observeReads (reads : List (ℕ × String)) (p : Process D) (e : ProcessEvent) (_ : Process D) :
    List (ℕ × String) :=
  match e with
  | .connector i ce => reads ++
      (p.connectors[i]?.bind fun c => c.delivers ce).toList.map fun delivered => (i, delivered.2)
  | _ => reads

def readsOf (i : ℕ) (reads : List (ℕ × String)) : List String :=
  (reads.filter fun r => r.1 = i).map Prod.snd

variable [Zero D] [Add D] [OfNumeral D] {jsonParse : String → Except StdException Json}
variable {exchanges : List Exchange} {serverEvents : List ServerEvent} {p p' : Process D}
variable {reads reads' : List (ℕ × String)} {e : ProcessEvent} {events : List ProcessEvent}

omit [Zero D] [Add D] [OfNumeral D] in
theorem isDelivery_or_serves_of_mem {se : ServerEvent} (h : se ∈ p.handsOn e) :
    se.isDelivery = true ∨ e.serves = some se := by
  cases e with
  | connector i ce =>
    obtain ⟨delivered, -, rfl⟩ := List.mem_map.mp h
    exact Or.inl rfl
  | runStrand now => exact Or.inr (congrArg some (List.mem_singleton.mp h).symm)
  | _ => exact Or.inr (Option.mem_toList.mp h)

/-- The messages of the aggregator are what the connectors have read. -/
structure Traced (jsonParse : String → Except StdException Json) (exchanges : List Exchange)
    (serverEvents : List ServerEvent) (p : Process D) (reads : List (ℕ × String)) : Prop where
  composed : Composed jsonParse exchanges serverEvents p
  reads_eq : ∀ i, messagesTo i serverEvents = readsOf i reads

namespace Traced

theorem step (h : Traced jsonParse exchanges serverEvents p reads)
    (hs : p.step jsonParse e = some p') :
    Traced jsonParse exchanges (serverEvents ++ p.handsOn e) p' (observeReads reads p e p') where
  composed := h.composed.step hs
  reads_eq i := by
    rw [messagesTo, List.filterMap_append, ← messagesTo, h.reads_eq i]
    cases e with
    | connector k ce =>
      cases hd : p.connectors[k]?.bind fun c => c.delivers ce with
      | none => simp [handsOn, observeReads, hd]
      | some delivered =>
        by_cases hk : k = i
        · subst hk
          simp [handsOn, observeReads, readsOf, hd, ServerEvent.messageTo]
        · simp [handsOn, observeReads, readsOf, hd, ServerEvent.messageTo, hk]
    | _ => exact List.append_nil _

theorem initial : Traced jsonParse exchanges [] (Process.initial exchanges : Process D) [] where
  composed := Composed.initial
  reads_eq _ := rfl

theorem run (h : Traced jsonParse exchanges serverEvents p reads)
    (hrun : Runs.run (withHistory (Process.step jsonParse) observeReads) (p, reads) events =
      some (p', reads')) :
    ∃ added, Traced jsonParse exchanges (serverEvents ++ added) p' reads' ∧
      ∀ se ∈ added, se.isDelivery = true ∨ ∃ e ∈ events, e.serves = some se := by
  refine history_invariant (I := fun es (x : Process D × List (ℕ × String)) => ∃ added,
    Traced jsonParse exchanges (serverEvents ++ added) x.1 x.2 ∧
      ∀ se ∈ added, se.isDelivery = true ∨ ∃ e ∈ es, e.serves = some se) ?_ ?_ hrun
  · exact ⟨[], by rwa [List.append_nil], nofun⟩
  rintro es ⟨t, r⟩ e ⟨t', r'⟩ - ⟨added, htraced, hadded⟩ hstep
  obtain ⟨hs, rfl⟩ := withHistory_eq_some.mp hstep
  refine ⟨added ++ t.handsOn e, by rw [← List.append_assoc]; exact htraced.step hs,
    fun se hse => ?_⟩
  rcases List.mem_append.mp hse with hse | hse
  · exact (hadded se hse).imp_right fun ⟨e', he', hserves⟩ =>
      ⟨e', List.mem_append_left _ he', hserves⟩
  · exact (isDelivery_or_serves_of_mem hse).imp_right fun hserves => ⟨e, by simp, hserves⟩

theorem prefix_reads {seen : List ServerEvent} (i : ℕ)
    (h : Traced jsonParse exchanges serverEvents p reads) (hseen : seen <+: serverEvents) :
    messagesTo i seen <+: readsOf i reads := by
  rw [← h.reads_eq i]
  exact hseen.filterMap _

end Traced

end Process

section Books
variable {D : Type} [LinearOrder D]

/-- The books that have been told after so many texts of each connector. -/
def trueBooks (received : ℕ → List (String × Books D)) (count : ℕ → ℕ)
    (exchanges : List Exchange) : List (Feed D) :=
  exchanges.mapIdx fun i ex => ⟨ex, bookAfter Books.empty ((received i).take (count i))⟩

variable [Zero D] [OfNumeral D] {jsonParse : String → Except StdException Json}
variable {exchanges : List Exchange} {received : ℕ → List (String × Books D)}

theorem Replayed.eq_trueBooks {seen : List ServerEvent} {feeds : List (Feed D)}
    (h : Replayed jsonParse exchanges seen feeds)
    (hsessions : ∀ i ex, exchanges[i]? = some ex →
      Session jsonParse ex Books.empty (received i))
    (hseen : ∀ i, messagesTo i seen <+: (received i).map Prod.fst) :
    feeds = trueBooks received (fun i => (messagesTo i seen).length) exchanges := by
  obtain ⟨hlength, hfeeds⟩ := h
  refine List.ext_getElem? fun i => ?_
  rw [trueBooks, List.getElem?_mapIdx]
  cases hc : feeds[i]? with
  | none =>
    have hge : exchanges.length ≤ i := hlength ▸ List.getElem?_eq_none_iff.mp hc
    rw [List.getElem?_eq_none hge]
    rfl
  | some c =>
    obtain ⟨hex, hreplay⟩ := hfeeds i c hc
    rw [(hsessions i c.exchange hex).replay_beginning (hseen i), Option.some.injEq] at hreplay
    rw [hex, Option.map_some, hreplay]

end Books

section Subscribers
variable {D : Type} [LinearOrder D] [Zero D] [Add D] [OfNumeral D]
variable {jsonParse : String → Except StdException Json} {exchanges : List Exchange}
variable {received : ℕ → List (String × Books D)}

/-- What a subscriber gets for its poll is the sum of books that the exchanges had: those told by
all that was read before the poll or by more, and at most by what has been read so far. -/
theorem subscribers_see_true_books {p p' : Process D} {reads reads' : List (ℕ × String)}
    {pre mid : List ProcessEvent} {j : ℕ} {sub : Subscriber D} {u : BookUpdate D} {v : UInt64}
    (hsessions : ∀ i ex, exchanges[i]? = some ex →
      Session jsonParse ex Books.empty (received i))
    (hpre : run (withHistory (Process.step jsonParse) Process.observeReads)
      (Process.initial exchanges, []) pre = some (p, reads))
    (hmid : run (withHistory (Process.step jsonParse) Process.observeReads) (p, reads)
      (.poll j false :: mid) = some (p', reads'))
    (hreceived : ∀ i, Process.readsOf i reads' = (received i).map Prod.fst)
    (hno : ∀ writeOk, .resume j writeOk ∉ mid) (hsub : p'.server.subscribers[j]? = some sub)
    (hphase : sub.phase = .received u v) :
    ∃ count : ℕ → ℕ, (∀ i, (Process.readsOf i reads).length ≤ count i ∧
        count i ≤ (Process.readsOf i reads').length) ∧
      Shows (consolidate (trueBooks received count exchanges)) u := by
  obtain ⟨es, hes, -⟩ := Process.Traced.initial.run hpre
  obtain ⟨⟨p₁, reads₁⟩, hstep, hrest⟩ := run_cons_eq_some.mp hmid
  obtain ⟨hpoll, rfl⟩ := withHistory_eq_some.mp hstep
  have hpolled : Process.Traced jsonParse exchanges ([] ++ es ++ [.poll j false]) p₁ reads :=
    hes.step hpoll
  obtain ⟨added, htraced, hadded⟩ := hpolled.run hrest
  have hwhole : run (Server.step jsonParse) p.server (.poll j false :: added) = some p'.server := by
    obtain ⟨t, ht, hlater⟩ := run_append_eq_some.mp htraced.composed.server
    obtain ⟨t', ht', hlast⟩ := run_concat_eq_some.mp ht
    obtain rfl : p.server = t' := Option.some.inj (hes.composed.server.symm.trans ht')
    exact run_cons_eq_some.mpr ⟨t, hlast, hlater⟩
  have hno' : ∀ writeOk, ServerEvent.resume j writeOk ∉ added := by
    intro writeOk hmem
    rcases hadded _ hmem with hdelivery | ⟨e, he, hserves⟩
    · cases hdelivery
    · cases e with
      | resume k ok =>
        obtain ⟨rfl, rfl⟩ := ServerEvent.resume.inj (Option.some.inj hserves)
        exact hno ok he
      | _ => cases hserves
  obtain ⟨-, seen, b, hfresh, hseen, hreflects, hshows⟩ :=
    snapshot_is_fresh hes.composed.server hwhole hno' hsub hphase
  obtain ⟨feeds, rfl, hreplayed⟩ := hreflects
  have hafter : ∀ i, messagesTo i seen <+: Process.readsOf i reads' := fun i =>
    htraced.prefix_reads i (by simpa using hseen)
  refine ⟨fun i => (messagesTo i seen).length, fun i => ⟨?_, (hafter i).length_le⟩, ?_⟩
  · have hbefore := (hfresh i).length_le
    have hreads := hes.reads_eq i
    rw [List.nil_append] at hreads
    rwa [← hreads]
  · rw [← hreplayed.eq_trueBooks hsessions fun i => hreceived i ▸ hafter i]
    exact hshows

section Example

def beforePoll : List ProcessEvent :=
  [.enterRun, .connector 0 (.complete 0 (.success "")), .handlerReturns,
    .connector 0 (.complete 0 (.success "")), .handlerReturns,
    .connector 0 (.complete 0 (.success "")), .handlerReturns,
    .connector 0 (.complete 1 (.success "")), .handlerReturns,
    .connector 0 (.complete 1 (.success "")), .handlerReturns,
    .connector 0 (.complete 2 (.success openingText)), .handlerReturns, .subscribe]

def afterPoll : List ProcessEvent :=
  [.runStrand 1, .handlerReturns, .connector 0 (.complete 2 (.success nextText)), .handlerReturns,
    .runStrand 2]

def readFromBybit (i : ℕ) : List (String × Books ℚ) :=
  if i = 0 then [(openingText, openingBook), (nextText, nextBook)] else []

theorem session_readFromBybit :
    ∀ i ex, [Exchange.bybit][i]? = some ex →
      Session decodeSession ex Books.empty (readFromBybit i) := by
  intro i ex hex
  match i with
  | 0 =>
    obtain rfl : .bybit = ex := Option.some.inj hex
    exact ⟨transmits_openingText _, transmits_nextText, trivial⟩
  | i + 1 => simp at hex

theorem subscribers_see_true_books_example :
    ∃ (p p' : Process ℚ) (reads reads' : List (ℕ × String)) (u : BookUpdate ℚ) (count : ℕ → ℕ),
      run (withHistory (Process.step decodeSession) Process.observeReads)
        (Process.initial [.bybit], []) beforePoll = some (p, reads) ∧
      run (withHistory (Process.step decodeSession) Process.observeReads) (p, reads)
        (.poll 0 false :: afterPoll) = some (p', reads') ∧
      (∀ i, (Process.readsOf i reads).length ≤ count i ∧
        count i ≤ (Process.readsOf i reads').length) ∧
      Shows (consolidate (trueBooks readFromBybit count [.bybit])) u := by
  obtain ⟨⟨p, reads⟩, hpre, hany⟩ := exists_of_run_any
    (P := fun x : Process ℚ × List (ℕ × String) =>
      (run (withHistory (Process.step decodeSession) Process.observeReads) x
        (.poll 0 false :: afterPoll)).any (fun x' =>
          x'.2 = [(0, openingText), (0, nextText)] ∧
          x'.1.server.subscribers = [⟨0, .received ⟨2, [⟨70400, 3 / 2⟩], []⟩ 1, []⟩]) = true)
    (show (run (withHistory (Process.step decodeSession) Process.observeReads)
      (Process.initial [.bybit], []) beforePoll).any _ = true by decide +kernel)
  obtain ⟨⟨p', reads'⟩, hmid, hreads, hsubs⟩ := exists_of_run_any hany
  have hsub : p'.server.subscribers[0]? =
      some ⟨0, .received ⟨2, [⟨70400, 3 / 2⟩], []⟩ 1, []⟩ := by
    rw [hsubs]
    rfl
  obtain rfl : reads' = [(0, openingText), (0, nextText)] := hreads
  have hreceived : ∀ i, Process.readsOf i [(0, openingText), (0, nextText)] =
      (readFromBybit i).map Prod.fst := by
    intro i
    by_cases hi : i = 0
    · subst hi
      rfl
    · have hi' : ¬ 0 = i := fun h => hi h.symm
      simp [Process.readsOf, readFromBybit, hi, hi']
  obtain ⟨count, hcount, hshows⟩ := subscribers_see_true_books session_readFromBybit hpre hmid
    hreceived (by simp [afterPoll]) hsub rfl
  exact ⟨p, p', reads, _, _, count, hpre, hmid, hcount, hshows⟩

end Example
end Subscribers

section Clients
variable {D : Type} [Field D] [LinearOrder D] [IsStrictOrderedRing D] [OfNumeral D]
variable {jsonParse : String → Except StdException Json} {exchanges : List Exchange}
variable {received : ℕ → List (String × Books D)}

/-- What the clients print for an update that was written to them is true of books that the
exchanges have told: the ranks and quantities of the levels, the bands, the thresholds and the
warnings. -/
theorem clients_show_true_books {p : Process D} {reads : List (ℕ × String)}
    {events : List ProcessEvent} {j : ℕ} {sub : Subscriber D} {u : BookUpdate D} {v : UInt64}
    (hsessions : ∀ i ex, exchanges[i]? = some ex →
      Session jsonParse ex Books.empty (received i))
    (hrun : run (withHistory (Process.step jsonParse) Process.observeReads)
      (Process.initial exchanges, []) events = some (p, reads))
    (hreceived : ∀ i, Process.readsOf i reads = (received i).map Prod.fst)
    (hsub : p.server.subscribers[j]? = some sub) (hwritten : (v, u) ∈ sub.written) :
    ∃ count : ℕ → ℕ, (∀ i, count i ≤ (Process.readsOf i reads).length) ∧
      (u.bids ≠ [] → maxLevel < u.asks.length → ∃ screen, bboScreen u = some screen ∧
        screen.ShowsMarket (trueBooks received count exchanges)) ∧
      (u.bids ≠ [] → u.asks ≠ [] → ∃ screen, priceBands u = some screen ∧
        screen.ShowsMarket (trueBooks received count exchanges) u) ∧
      (u.bids ≠ [] → u.asks ≠ [] →
        VolumeLinesShowMarket (trueBooks received count exchanges) u (volumeBands u)) := by
  obtain ⟨es, hes, -⟩ := Process.Traced.initial.run hrun
  obtain ⟨seen, connectors, hseen, hreplayed, hshows⟩ :=
    got_run hes.composed.server hsub (Or.inr hwritten)
  have hread : ∀ i, messagesTo i seen <+: Process.readsOf i reads := fun i =>
    hes.prefix_reads i hseen
  obtain rfl := hreplayed.eq_trueBooks hsessions fun i => hreceived i ▸ hread i
  exact ⟨fun i => (messagesTo i seen).length, fun i => (hread i).length_le,
    fun hbids hasks => exists_bboScreen hshows hbids hasks,
    fun hbids hasks => exists_priceBands hshows hbids hasks,
    fun hbids hasks => volumeBands_showMarket hshows hbids hasks⟩

section Example

def twoSidedText : String :=
  "\x7b\"lastUpdateId\":160,\"bids\":[[\"70400.00\",\"1.5\"]],\"asks\":[[\"70410.00\",\"2\"]]\x7d"

def twoSidedMessage : Json :=
  .object [("asks", .array [.level "70410.00" "2"]), ("bids", .array [.level "70400.00" "1.5"]),
    ("lastUpdateId", .number 160)]

def decodeTwoSided : String → Except StdException Json :=
  decodeTable [(twoSidedText, twoSidedMessage)]

def twoSidedBook : Books ℚ := (Books.empty.setBid 70400 (3 / 2)).setAsk 70410 2

theorem transmits_twoSidedText :
    Transmits decodeTwoSided .binance Books.empty twoSidedText twoSidedBook := by
  have hsnapshot : IsSnapshot .binance twoSidedMessage [((70400 : ℚ), (3 / 2 : ℚ))]
      [((70410 : ℚ), (2 : ℚ))] :=
    ⟨by decide, ⟨_, rfl, quotesLevels_of_texts [("70400.00", "1.5")] (by decide +kernel)⟩,
      ⟨_, rfl, quotesLevels_of_texts [("70410.00", "2")] (by decide +kernel)⟩⟩
  exact .snapshot decodeTable_cons_self hsnapshot (listsSide_perform (by decide +kernel))
    (listsSide_perform (by decide +kernel))

def writtenEvents : List ProcessEvent :=
  [.enterRun, .connector 0 (.complete 0 (.success "")), .handlerReturns,
    .connector 0 (.complete 0 (.success "")), .handlerReturns,
    .connector 0 (.complete 0 (.success "")), .handlerReturns,
    .connector 0 (.complete 1 (.success "")), .handlerReturns,
    .connector 0 (.complete 1 (.success twoSidedText)), .handlerReturns, .subscribe, .runStrand 1,
    .handlerReturns, .poll 0 false, .runStrand 2, .handlerReturns, .resume 0 true]

def twoSidedUpdate : BookUpdate ℚ := ⟨2, [⟨70400, 3 / 2⟩], [⟨70410, 2⟩]⟩

def readFromBinance (i : ℕ) : List (String × Books ℚ) :=
  if i = 0 then [(twoSidedText, twoSidedBook)] else []

theorem clients_show_true_books_example :
    ∃ (p : Process ℚ) (count : ℕ → ℕ),
      run (withHistory (Process.step decodeTwoSided) Process.observeReads)
        (Process.initial [.binance], []) writtenEvents = some (p, [(0, twoSidedText)]) ∧
      ∃ screen, priceBands twoSidedUpdate = some screen ∧
        screen.ShowsMarket (trueBooks readFromBinance count [.binance]) twoSidedUpdate := by
  obtain ⟨⟨p, reads⟩, hrun, hreads, hsubs⟩ := exists_of_run_any
    (P := fun x : Process ℚ × List (ℕ × String) => x.2 = [(0, twoSidedText)] ∧
      x.1.server.subscribers = [⟨1, .polling, [(1, twoSidedUpdate)]⟩])
    (show (run (withHistory (Process.step decodeTwoSided) Process.observeReads)
      (Process.initial [.binance], []) writtenEvents).any _ = true by decide +kernel)
  obtain rfl : reads = [(0, twoSidedText)] := hreads
  have hsessions : ∀ (i : ℕ) (ex : Exchange), [Exchange.binance][i]? = some ex →
      Session decodeTwoSided ex Books.empty (readFromBinance i) := by
    intro i ex hex
    match i with
    | 0 =>
      obtain rfl : .binance = ex := Option.some.inj hex
      exact ⟨transmits_twoSidedText, trivial⟩
    | i + 1 => simp at hex
  have hreceived : ∀ i : ℕ, Process.readsOf i [(0, twoSidedText)] =
      (readFromBinance i).map Prod.fst := by
    intro i
    by_cases hi : i = 0
    · subst hi
      rfl
    · have hi' : ¬ 0 = i := fun h => hi h.symm
      simp [Process.readsOf, readFromBinance, hi, hi']
  obtain ⟨count, -, -, hbands, -⟩ := clients_show_true_books (j := 0) hsessions hrun hreceived
    (by rw [hsubs]; rfl) List.mem_cons_self
  exact ⟨p, count, hrun, hbands (by simp [twoSidedUpdate]) (by simp [twoSidedUpdate])⟩

end Example
end Clients

end AsioAggregator
