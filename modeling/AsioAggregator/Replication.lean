import AsioAggregator.BooklessMessages
import AsioAggregator.Decimals
import AsioAggregator.Feeds
import AsioAggregator.Snapshots

/-!
# The books of the exchanges and their copies

A snapshot tells its reader the book of the exchange, and a Bybit delta what has become of the book
that the messages before it have told. A connector makes of what it reads the book that it is told,
through any failures and reconnects. Messages may be lost in front of a snapshot, but a delta has to
follow the messages that it builds on.
-/

namespace AsioAggregator

open Std Runs Writes

variable {D : Type} [LinearOrder D] [Zero D]

section Sides
variable {cmp : D → D → Ordering} [TransCmp cmp]

/-- The levels list all of a side: at each price the last quantity counts. -/
structure ListsSide (levels : List (D × D)) (side : ExtTreeMap D D cmp) : Prop where
  positive : ∀ l ∈ levels, 0 < l.2
  quantity : ∀ p : D, side[p]? = last levels p

/-- The update lists all that differs between two sides. -/
def ListsChanges (u : SideUpdate D) (old new : ExtTreeMap D D cmp) : Prop :=
  ∀ p : D, new[p]? = quantityAfter [u] old[p]? p

variable [LawfulEqCmp cmp] {levels : List (D × D)} {side old new : ExtTreeMap D D cmp}
variable {u : SideUpdate D}

theorem ListsSide.perform_eq (h : ListsSide levels side) (ex : Exchange) :
    perform ∅ (levels.filterMap (snapshotRule ex)) = side := by
  refine ExtTreeMap.ext_getElem? fun p => ?_
  rw [getElem?_perform_snapshotRule h.positive, h.quantity]

theorem listsSide_perform (hpos : ∀ l ∈ levels, 0 < l.2) :
    ListsSide levels (perform (∅ : ExtTreeMap D D cmp) (levels.filterMap storeRule)) :=
  ⟨hpos, getElem?_perform_snapshotRule hpos .binance⟩

theorem ListsChanges.apply_eq (h : ListsChanges u old new) (hu : u.WellFormed) :
    u.apply old = new := by
  refine ExtTreeMap.ext_getElem? fun p => ?_
  rw [SideUpdate.getElem?_apply hu, h p]

theorem listsChanges_apply (hu : u.WellFormed) : ListsChanges u old (u.apply old) :=
  fun p => SideUpdate.getElem?_apply hu old p

end Sides

section Sessions
variable [OfNumeral D] {jsonParse : String → Except StdException Json} {b b' : Books D}
variable {ex : Exchange} {msg : String} {received : List (String × Books D)}

/-- A reader that has been told the book `b` of the exchange is told `b'` by the text. -/
inductive Transmits (jsonParse : String → Except StdException Json) (ex : Exchange) (b : Books D)
    (msg : String) : Books D → Prop
  | snapshot {b' : Books D} {j : Json} {bids asks : List (D × D)} (hmsg : jsonParse msg = .ok j)
      (h : IsSnapshot ex j bids asks) (hbids : ListsSide bids b'.bids)
      (hasks : ListsSide asks b'.asks) : Transmits jsonParse ex b msg b'
  | delta {b' : Books D} {m : BookMessage D} (hex : ex = .bybit) (hmsg : Encodes jsonParse msg m)
      (hdelta : m.snapshot = false) (hbids : ListsChanges m.bidUpdate b.bids b'.bids)
      (hasks : ListsChanges m.askUpdate b.asks b'.asks) : Transmits jsonParse ex b msg b'
  | bookless (h : Bookless jsonParse ex msg) : Transmits jsonParse ex b msg b

/-- Texts that are read one after the other, each with the book that has been told then. What the
exchange has sent in between does not matter, unless a delta builds on it. -/
def Session (jsonParse : String → Except StdException Json) (ex : Exchange) :
    Books D → List (String × Books D) → Prop
  | _, [] => True
  | b, (msg, b') :: rest => Transmits jsonParse ex b msg b' ∧ Session jsonParse ex b' rest

/-- The book that has been told last, or `b`. -/
def bookAfter (b : Books D) (received : List (String × Books D)) : Books D :=
  (received.getLast?.map Prod.snd).getD b

/-- The copy of a reader follows the book that it is told. -/
theorem Transmits.parseMessage (h : Transmits jsonParse ex b msg b') :
    parseMessage jsonParse ex msg b = some b' := by
  cases h with
  | snapshot hmsg h hbids hasks =>
    rw [parseMessage_of_reading (reading_of_isSnapshot hmsg h), if_pos rfl, if_pos rfl,
      hbids.perform_eq, hasks.perform_eq]
  | delta hex hmsg hdelta hbids hasks =>
    subst hex
    have hparse := BookMessage.parseMessage_eq hmsg b
    obtain ⟨j, data, -, hw⟩ := hmsg
    rw [hparse, BookMessage.apply, hbids.apply_eq hw.bidUpdate,
      hasks.apply_eq hw.askUpdate]
  | bookless h => exact parseMessage_of_bookless h b

omit [Zero D] [OfNumeral D] in
theorem bookAfter_cons (m : String × Books D) (rest : List (String × Books D)) :
    bookAfter b (m :: rest) = bookAfter m.2 rest := by
  rw [bookAfter, bookAfter, List.getLast?_cons]
  cases rest.getLast? <;> rfl

theorem Session.parseMessages (h : Session jsonParse ex b received) :
    parseMessages jsonParse ex (received.map Prod.fst) b = some (bookAfter b received) := by
  induction received generalizing b with
  | nil => rfl
  | cons m rest ih =>
    obtain ⟨msg, b'⟩ := m
    obtain ⟨htransmits, hrest⟩ := h
    rw [bookAfter_cons, List.map_cons, AsioAggregator.parseMessages, List.foldlM_cons,
      htransmits.parseMessage]
    exact ih hrest

theorem Session.take (h : Session jsonParse ex b received) (k : ℕ) :
    Session jsonParse ex b (received.take k) := by
  induction received generalizing b k with
  | nil => rwa [List.take_nil]
  | cons m rest ih =>
    cases k with
    | zero => exact trivial
    | succ k => exact ⟨h.1, ih h.2 k⟩

/-- The replay of the first texts of a session is the book that they tell. -/
theorem Session.replay_beginning {msgs : List String}
    (h : Session jsonParse ex Books.empty received) (hmsgs : msgs <+: received.map Prod.fst) :
    replay jsonParse ex msgs = some (bookAfter Books.empty (received.take msgs.length)) := by
  have htake : msgs = (received.take msgs.length).map Prod.fst := by
    rw [List.map_take]
    exact List.prefix_iff_eq_take.mp hmsgs
  conv_lhs => rw [htake]
  exact (h.take _).parseMessages

/-- At every moment of its life a connector holds exactly the book that its exchange had when it
sent the last book message that has been read, however often the connection was lost. -/
theorem replica_tracks {events : List ConnectorEvent} {c : Connector D}
    (hsession : Session jsonParse ex Books.empty received)
    (hrun : run (withHistory (Connector.step jsonParse) observeMessages)
      ((Connector.initial ex : Connector D), []) events = some (c, received.map Prod.fst)) :
    c.localBooks = bookAfter Books.empty received := by
  have hreplay := (replay_run hrun).2
  rw [replay, hsession.parseMessages] at hreplay
  exact (Option.some.inj hreplay).symm

end Sessions

section Decimals

/-- A book in whole ticks, without empty levels. -/
def Quotable (places : ℕ) (b : Books ℚ) : Prop :=
  b.ForallLevels fun p q => OnGrid places p ∧ OnGrid places q ∧ 0 < q

section Printing
variable {cmp : ℚ → ℚ → Ordering} [TransCmp cmp] [LawfulEqCmp cmp] {places : ℕ}

def printLevels (places : ℕ) (levels : List (ℚ × ℚ)) : List (String × String) :=
  levels.map fun l => (printDecimal places l.1, printDecimal places l.2)

theorem stod_printLevels {levels : List (ℚ × ℚ)}
    (h : ∀ l ∈ levels, OnGrid places l.1 ∧ OnGrid places l.2) :
    List.Forall₂ (fun t l => stod t.1 = .ok l.1 ∧ stod t.2 = .ok l.2)
      (printLevels places levels) levels := by
  rw [printLevels, List.forall₂_map_left_iff, List.forall₂_same]
  exact fun l hl => ⟨stod_printDecimal (h l hl).1, stod_printDecimal (h l hl).2⟩

variable {side old new : ExtTreeMap ℚ ℚ cmp}

theorem exists_listsSide
    (h : ∀ p q : ℚ, side[p]? = some q → OnGrid places p ∧ OnGrid places q ∧ 0 < q) :
    ∃ levels : List (ℚ × ℚ), ListsSide levels side ∧
      ∀ l ∈ levels, OnGrid places l.1 ∧ OnGrid places l.2 := by
  have hmem : ∀ l ∈ side.toList, OnGrid places l.1 ∧ OnGrid places l.2 ∧ 0 < l.2 := fun l hl =>
    h l.1 l.2 (ExtTreeMap.mem_toList_iff_getElem?_eq_some.mp hl)
  refine ⟨side.toList, ⟨fun l hl => (hmem l hl).2.2, fun p => ?_⟩,
    fun l hl => ⟨(hmem l hl).1, (hmem l hl).2.1⟩⟩
  rw [last_toList]

theorem exists_listsChanges
    (hold : ∀ p q : ℚ, old[p]? = some q → OnGrid places p ∧ OnGrid places q ∧ 0 < q)
    (hnew : ∀ p q : ℚ, new[p]? = some q → OnGrid places p ∧ OnGrid places q ∧ 0 < q) :
    ∃ u : SideUpdate ℚ, u.snapshot = false ∧ u.WellFormed ∧ ListsChanges u old new ∧
      ∀ l ∈ u.levels, OnGrid places l.1 ∧ OnGrid places l.2 := by
  let levels := (changes old new).map fun w => (w.1, w.2.getD 0)
  have hlevels : ∀ l ∈ levels, OnGrid places l.1 ∧ OnGrid places l.2 ∧ 0 ≤ l.2 := by
    intro l hl
    obtain ⟨⟨p, q⟩, hw, rfl⟩ := List.mem_map.mp hl
    rcases mem_changes hw with ⟨rfl, q, hq⟩ | ⟨q, rfl, hq⟩
    · exact ⟨(hold p q hq).1, onGrid_zero places, le_rfl⟩
    · exact ⟨(hnew p q hq).1, (hnew p q hq).2.1, (hnew p q hq).2.2.le⟩
  refine ⟨⟨false, levels⟩, rfl, ⟨fun l hl => (hlevels l hl).2.2, by simp⟩, fun p => ?_,
    fun l hl => ⟨(hlevels l hl).1, (hlevels l hl).2.1⟩⟩
  have hlast : last levels p = (last (changes old new) p).map fun q => q.getD 0 :=
    last_map (fun _ q => q.getD 0) (changes old new) p
  have hafter := getElem?_perform old (changes old new) p
  rw [perform_changes] at hafter
  simp only [quantityAfter, levelsSince, List.any_nil, Bool.false_eq_true, if_false,
    List.flatMap_nil, List.append_nil, hlast]
  cases hchange : last (changes old new) p with
  | none => simpa [hchange] using hafter
  | some q =>
    rw [hchange, Option.getD_some] at hafter
    cases q with
    | none => simp [hafter, kept]
    | some q => simp [hafter, kept, (hnew p q hafter).2.2]

end Printing

theorem exists_isSnapshot (ex : Exchange) {bidTexts askTexts : List (String × String)}
    {bids asks : List (ℚ × ℚ)}
    (hbids : List.Forall₂ (fun t l => stod t.1 = .ok l.1 ∧ stod t.2 = .ok l.2) bidTexts bids)
    (hasks : List.Forall₂ (fun t l => stod t.1 = .ok l.1 ∧ stod t.2 = .ok l.2) askTexts asks) :
    ∃ j, IsSnapshot ex j bids asks := by
  let sides : List (String × Json) :=
    [("asks", .array (askTexts.map fun t => .level t.1 t.2)),
      ("bids", .array (bidTexts.map fun t => .level t.1 t.2))]
  have hsides : ∀ rest, SidesAt (.object (sides ++ rest)) "bids" "asks" bids asks := fun rest =>
    ⟨⟨_, rfl, quotesLevels_of_texts _ hbids⟩, ⟨_, rfl, quotesLevels_of_texts _ hasks⟩⟩
  cases ex with
  | binance => exact ⟨.object (sides ++ [("lastUpdateId", .number 1)]), rfl, hsides _⟩
  | okx => exact ⟨.object [("data", .array [_])], rfl, _, [], rfl, hsides []⟩
  | bitget =>
    exact ⟨.object [("action", .string "snapshot"), ("data", .array [_])], rfl, rfl, _, [], rfl,
      hsides []⟩
  | bybit => exact ⟨_, isBookMessage_bookMessage "snapshot" hbids hasks⟩

variable {places : ℕ} {b b' : Books ℚ}

/-- Whatever its book in whole ticks is, every exchange can tell it by a snapshot, and Bybit by a
delta from any other one as well. -/
theorem exists_transmits (hb : Quotable places b) (hb' : Quotable places b') :
    (∀ ex, ∃ j, ∀ jsonParse msg, jsonParse msg = .ok j → Transmits jsonParse ex b msg b') ∧
      ∃ j, j.memberIs "type" "delta" ∧
        ∀ jsonParse msg, jsonParse msg = .ok j → Transmits jsonParse .bybit b msg b' := by
  constructor
  · obtain ⟨bids, hbids, hbidTicks⟩ := exists_listsSide hb'.1
    obtain ⟨asks, hasks, haskTicks⟩ := exists_listsSide hb'.2
    intro ex
    obtain ⟨j, hj⟩ := exists_isSnapshot ex (stod_printLevels hbidTicks) (stod_printLevels haskTicks)
    exact ⟨j, fun jsonParse msg hmsg => .snapshot hmsg hj hbids hasks⟩
  · obtain ⟨⟨s, bids⟩, hs, hbids, hbidChanges, hbidTicks⟩ := exists_listsChanges hb.1 hb'.1
    obtain ⟨⟨s', asks⟩, hs', hasks, haskChanges, haskTicks⟩ := exists_listsChanges hb.2 hb'.2
    obtain rfl : s = false := hs
    obtain rfl : s' = false := hs'
    have hbidTexts := stod_printLevels hbidTicks
    have haskTexts := stod_printLevels haskTicks
    have hbook := isBookMessage_bookMessage "delta" hbidTexts haskTexts
    refine ⟨_, hbook.type, fun jsonParse msg hmsg => ?_⟩
    have hencodes : Encodes jsonParse msg (⟨false, some bids, some asks⟩ : BookMessage ℚ) :=
      ⟨_, _, hmsg, hbook.notSubscribe, hbook.notPong, hbook.topic, hbook.type, rfl,
        .some (quotesLevels_of_texts _ hbidTexts), .some (quotesLevels_of_texts _ haskTexts),
        by simp, hbids, hasks⟩
    exact .delta rfl hencodes rfl hbidChanges haskChanges

end Decimals

section Example

def openingText : String :=
  "\x7b\"topic\":\"orderbook.50.BTCUSDT\",\"type\":\"snapshot\"," ++
    "\"data\":\x7b\"b\":[[\"70400.00\",\"1.5\"]],\"a\":[],\"u\":7\x7d\x7d"

def nextText : String :=
  "\x7b\"topic\":\"orderbook.50.BTCUSDT\",\"type\":\"delta\"," ++
    "\"data\":\x7b\"b\":[[\"70400.00\",\"0\"],[\"70390.50\",\"2\"]],\"a\":[],\"u\":8\x7d\x7d"

def openingMessage : Json :=
  .object [("data", .object [("a", .array []), ("b", .array [.level "70400.00" "1.5"]),
      ("u", .number 7)]),
    ("topic", .string "orderbook.50.BTCUSDT"), ("type", .string "snapshot")]

def decodeSession : String → Except StdException Json :=
  decodeTable
    [(openingText, openingMessage),
    (nextText, .object [("data", .object [("a", .array []),
        ("b", .array [.level "70400.00" "0", .level "70390.50" "2"]), ("u", .number 8)]),
      ("topic", .string "orderbook.50.BTCUSDT"), ("type", .string "delta")]),
    (subscribedText, .object [("op", .string "subscribe"), ("success", .bool true)])]

def openingBook : Books ℚ := Books.empty.setBid 70400 (3 / 2)

def nextBook : Books ℚ := Books.empty.setBid (140781 / 2) 2

theorem transmits_openingText (b : Books ℚ) :
    Transmits decodeSession .bybit b openingText openingBook := by
  have hbids : QuotesLevels (.array [.level "70400.00" "1.5"]) [((70400 : ℚ), (3 / 2 : ℚ))] :=
    quotesLevels_of_texts [("70400.00", "1.5")] (by decide +kernel)
  have hsnapshot : IsSnapshot .bybit openingMessage [((70400 : ℚ), (3 / 2 : ℚ))] [] :=
    ⟨by decide, by decide, by decide, by decide, _, rfl, ⟨_, rfl, hbids⟩,
      ⟨_, rfl, quotesLevels_of_texts [] .nil⟩⟩
  exact .snapshot decodeTable_cons_self hsnapshot (listsSide_perform (by decide +kernel))
    (listsSide_perform (by simp))

theorem transmits_nextText : Transmits decodeSession .bybit openingBook nextText nextBook := by
  let m : BookMessage ℚ := ⟨false, some [(70400, 0), (140781 / 2, 2)], some []⟩
  have hencodes : Encodes decodeSession nextText m := by
    refine ⟨_, _, (decodeTable_cons_of_ne (by decide +kernel)).trans decodeTable_cons_self,
      ⟨by decide, by decide, by decide, by decide, rfl, ?_, ?_, by decide, ?_, ?_⟩⟩
    · exact .some (quotesLevels_of_texts [("70400.00", "0"), ("70390.50", "2")] (by decide +kernel))
    · exact .some (quotesLevels_of_texts [] .nil)
    · exact ⟨by decide +kernel, by simp [m, BookMessage.bidUpdate]⟩
    · exact ⟨by decide +kernel, by simp [m, BookMessage.askUpdate]⟩
  obtain ⟨j, data, -, hw⟩ := id hencodes
  have hbook : nextBook = m.apply openingBook := by decide +kernel
  rw [hbook]
  exact .delta rfl hencodes rfl (listsChanges_apply hw.bidUpdate) (listsChanges_apply hw.askUpdate)

theorem transmits_subscribedText (b : Books ℚ) :
    Transmits decodeSession .bybit b subscribedText b := by
  refine .bookless fun j hj => ?_
  have hmessage : decodeSession subscribedText = .ok _ :=
    (decodeTable_cons_of_ne (by decide +kernel)).trans
      ((decodeTable_cons_of_ne (by decide +kernel)).trans decodeTable_cons_self)
  obtain rfl := Except.ok.inj (hmessage.symm.trans hj)
  rfl

def readBooks : List (String × Books ℚ) :=
  [(openingText, openingBook), (subscribedText, openingBook), (openingText, openingBook),
    (nextText, nextBook)]

theorem session_readBooks : Session decodeSession .bybit Books.empty readBooks :=
  ⟨transmits_openingText _, transmits_subscribedText _, transmits_openingText _,
    transmits_nextText, trivial⟩

def readingEvents : List ConnectorEvent :=
  [.complete 0 (.success ""), .complete 0 (.success ""), .complete 0 (.success ""),
    .complete 1 (.success ""), .complete 1 (.success ""), .complete 2 (.success openingText),
    .complete 2 (.error .eof), .complete 2 (.success ""), .complete 2 (.success ""),
    .complete 2 (.success ""), .complete 2 (.success ""), .complete 3 (.success ""),
    .complete 3 (.success ""), .complete 4 (.success subscribedText),
    .complete 4 (.success openingText), .complete 4 (.success nextText)]

/-- The connection ends after the first snapshot; the delta erases a level of the second one. -/
theorem replica_tracks_example :
    ∃ c : Connector ℚ, run (withHistory (Connector.step decodeSession) observeMessages)
        ((Connector.initial .bybit : Connector ℚ), []) readingEvents =
          some (c, readBooks.map Prod.fst) ∧ c.attempt = 2 ∧ c.localBooks = nextBook := by
  obtain ⟨⟨c, msgs⟩, hrun, hmsgs, hattempt⟩ := exists_of_run_any
    (P := fun x : Connector ℚ × List String => x.2 = readBooks.map Prod.fst ∧ x.1.attempt = 2)
    (show (run (withHistory (Connector.step decodeSession) observeMessages)
      ((Connector.initial .bybit : Connector ℚ), []) readingEvents).any _ = true by decide +kernel)
  obtain rfl : msgs = readBooks.map Prod.fst := hmsgs
  exact ⟨c, hrun, hattempt, replica_tracks session_readBooks hrun⟩

end Example

end AsioAggregator
