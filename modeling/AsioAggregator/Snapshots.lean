import AsioAggregator.BybitReplay

/-!
# Snapshots on all exchanges

Four parsers with four envelopes make the same books of the same positive levels: at each price the
last quantity listed, whatever was there before. The two paths of the Bybit parser agree only on
levels of which the quantity is positive, or zero for good.
-/

namespace AsioAggregator

open Std Writes

variable {D : Type}

section Envelopes
variable [OfNumeral D]

def SideAt (data : Json) (key : String) (levels : List (D × D)) : Prop :=
  ∃ j, data.member? key = some j ∧ QuotesLevels j levels

def SidesAt (data : Json) (bidKey askKey : String) (bids asks : List (D × D)) : Prop :=
  SideAt data bidKey bids ∧ SideAt data askKey asks

def FirstDataAt (j : Json) (bids asks : List (D × D)) : Prop :=
  ∃ first rest, j.member? "data" = some (.array (first :: rest)) ∧
    SidesAt first "bids" "asks" bids asks

/-- An order-book message of Bybit of this type, with both sides. -/
structure IsBookMessage (type : String) (j : Json) (bids asks : List (D × D)) : Prop where
  notSubscribe : j.memberIs "op" "subscribe" = false
  notPong : j.memberIs "op" "pong" = false
  topic : j.memberIs "topic" "orderbook.50.BTCUSDT"
  type : j.memberIs "type" type
  data : ∃ data, j.member? "data" = some data ∧ SidesAt data "b" "a" bids asks

/-- The value is a snapshot of the exchange with these levels. -/
def IsSnapshot : Exchange → Json → List (D × D) → List (D × D) → Prop
  | .binance, j, bids, asks => j.contains "lastUpdateId" ∧ SidesAt j "bids" "asks" bids asks
  | .okx, j, bids, asks => j.memberIs "event" "subscribe" = false ∧ FirstDataAt j bids asks
  | .bitget, j, bids, asks =>
    j.memberIs "op" "subscribe" = false ∧ j.memberIs "action" "snapshot" ∧ FirstDataAt j bids asks
  | .bybit, j, bids, asks => IsBookMessage "snapshot" j bids asks

end Envelopes

section Readings
variable [OfNumeral D] {data j : Json} {key : String} {levels bids asks : List (D × D)}

theorem readSide_subscript (h : SideAt data key levels) :
    readSide (data.subscript key) = ⟨levels, none⟩ := by
  obtain ⟨j, hj, hquotes⟩ := h
  rw [Json.subscript_of_member? hj]
  exact hquotes.readSide_eq

theorem readSide_constSubscript (h : SideAt data key levels) :
    readSide (data.constSubscript key) = ⟨levels, none⟩ := by
  obtain ⟨j, hj, hquotes⟩ := h
  rw [Json.constSubscript_of_member? hj]
  exact hquotes.readSide_eq

theorem deltaSide_of_sideAt (h : SideAt data key levels) :
    deltaSide data key = ⟨levels, none⟩ := by
  obtain ⟨j, hj, hquotes⟩ := h
  rw [deltaSide_of_member? hj]
  exact hquotes.readSide_eq

theorem firstDataReading_eq (h : FirstDataAt j bids asks) :
    firstDataReading j = .content ⟨true, storeRule, ⟨bids, none⟩, ⟨asks, none⟩⟩ := by
  obtain ⟨first, rest, hdata, hbids, hasks⟩ := h
  simp only [firstDataReading, Json.subscript_of_member? hdata, bind, Except.bind, Json.index,
    List.getElem?_cons_zero, Option.getD_some, readSide_subscript hbids, readSide_subscript hasks]

variable [LinearOrder D] [Zero D] {jsonParse : String → Except StdException Json} {msg : String}

/-- What the parser of an exchange does with the levels of a snapshot. -/
def snapshotRule : Exchange → Rule D
  | .bybit => positiveRule
  | .binance | .okx | .bitget => storeRule

theorem reading_of_isBookMessage {type : String} (hparse : jsonParse msg = .ok j)
    (h : IsBookMessage type j bids asks) :
    ∃ data, SidesAt data "b" "a" bids asks ∧
      reading jsonParse .bybit msg = (bybitContent j data : Reading D) ∧ data.isObject := by
  obtain ⟨data, hdata, hsides⟩ := h.data
  refine ⟨data, hsides, ?_, ?_⟩
  · simp only [reading, bybitReading, parseJson_of_ok jsonParse hparse, h.notSubscribe, h.notPong,
      h.topic, Json.subscript_of_member? hdata, Bool.not_true, Bool.false_eq_true, if_false]
  · obtain ⟨⟨value, hvalue, -⟩, -⟩ := hsides
    cases data with
    | object members => rfl
    | _ => cases hvalue

theorem reading_of_isSnapshot (hparse : jsonParse msg = .ok j) {ex : Exchange}
    (h : IsSnapshot ex j bids asks) :
    reading jsonParse ex msg =
      .content ⟨true, snapshotRule ex, ⟨bids, none⟩, ⟨asks, none⟩⟩ := by
  have hj := parseJson_of_ok jsonParse hparse
  cases ex with
  | binance =>
    obtain ⟨hid, hbids, hasks⟩ := h
    simp only [reading, binanceReading, hj, hid, if_true, readSide_subscript hbids,
      readSide_subscript hasks, snapshotRule]
  | okx =>
    obtain ⟨hevent, hfirst⟩ := h
    have hread := firstDataReading_eq hfirst
    obtain ⟨first, rest, hdata, -⟩ := hfirst
    simp only [reading, okxReading, hj, hevent, Json.contains_of_member? hdata, Bool.false_eq_true,
      if_false, if_true, hread, snapshotRule]
  | bitget =>
    obtain ⟨hop, haction, hfirst⟩ := h
    simp only [reading, bitgetReading, hj, hop, haction, Bool.false_eq_true, if_false, if_true,
      firstDataReading_eq hfirst, snapshotRule]
  | bybit =>
    obtain ⟨data, ⟨hbids, hasks⟩, hread, hobject⟩ := reading_of_isBookMessage hparse h
    simp only [hread, bybitContent, hobject, h.type, Bool.not_true, Bool.false_eq_true, if_false,
      if_true, readSide_constSubscript hbids, readSide_constSubscript hasks, snapshotRule]

theorem reading_of_delta (hparse : jsonParse msg = .ok j) (h : IsBookMessage "delta" j bids asks) :
    reading jsonParse .bybit msg = .content ⟨false, updateRule, ⟨bids, none⟩, ⟨asks, none⟩⟩ := by
  have hnot : j.memberIs "type" "snapshot" = false := Json.memberIs_of_ne h.type (by decide)
  obtain ⟨data, ⟨hbids, hasks⟩, hread, hobject⟩ := reading_of_isBookMessage hparse h
  simp only [hread, bybitContent, hobject, hnot, h.type, Bool.not_true, Bool.false_eq_true,
    if_false, if_true, deltaSide_of_sideAt hbids, deltaSide_of_sideAt hasks]

/-- A parser that reads all levels of both sides applies them all. -/
theorem parseMessage_of_reading {ex : Exchange} {replaces : Bool} {rule : Rule D}
    (h : reading jsonParse ex msg = .content ⟨replaces, rule, ⟨bids, none⟩, ⟨asks, none⟩⟩)
    (b : Books D) :
    parseMessage jsonParse ex msg b =
      some ⟨perform (if replaces then ∅ else b.bids) (bids.filterMap rule),
        perform (if replaces then ∅ else b.asks) (asks.filterMap rule)⟩ := by
  refine (parseMessage_eq_some jsonParse).mpr ⟨?_, ?_⟩
  · rw [h]
    rfl
  · rw [h]
    cases replaces <;> rfl

end Readings

section Snapshots
variable [LinearOrder D] [Zero D] {levels : List (D × D)}

/-- On positive quantities the rules of all snapshots are the same. -/
theorem filterMap_snapshotRule (hpos : ∀ l ∈ levels, 0 < l.2) (ex : Exchange) :
    levels.filterMap (snapshotRule ex) = levels.map fun l => (l.1, some l.2) := by
  rw [← List.filterMap_eq_map]
  refine List.filterMap_congr fun l hl => ?_
  cases ex with
  | bybit => exact if_pos (hpos l hl)
  | _ => rfl

theorem getElem?_perform_snapshotRule {cmp : D → D → Ordering} [TransCmp cmp] [LawfulEqCmp cmp]
    (hpos : ∀ l ∈ levels, 0 < l.2) (ex : Exchange) (p : D) :
    (perform (∅ : ExtTreeMap D D cmp) (levels.filterMap (snapshotRule ex)))[p]? =
      last levels p := by
  rw [filterMap_snapshotRule hpos, getElem?_perform]
  have hlast := last_map (fun _ q => some q) levels p
  rw [hlast]
  cases last levels p <;> simp

/-- At no price is the last quantity listed negative, and where it is zero, no level of the price
has a positive one. -/
def Unambiguous (levels : List (D × D)) : Prop :=
  ∀ p q, last levels p = some q → 0 < q ∨ q = 0 ∧ ∀ l ∈ levels, l.1 = p → ¬ 0 < l.2

section Paths
variable {cmp : D → D → Ordering} [TransCmp cmp] [LawfulEqCmp cmp]

theorem getElem?_perform_positiveRule (levels : List (D × D)) (p : D) :
    (perform (∅ : ExtTreeMap D D cmp) (levels.filterMap positiveRule))[p]? =
      last (levels.filter fun l => 0 < l.2) p := by
  have hrule : levels.filterMap positiveRule =
      (levels.filter fun l => 0 < l.2).map fun l => (l.1, some l.2) := by
    rw [← List.filterMap_eq_map, List.filterMap_filter]
    refine List.filterMap_congr fun l _ => ?_
    by_cases hq : 0 < l.2 <;> simp [positiveRule, hq]
  rw [getElem?_perform, hrule, last_map (fun _ q => some q)]
  cases last (levels.filter fun l => 0 < l.2) p <;> simp

theorem getElem?_perform_updateRule (levels : List (D × D)) (p : D) :
    (perform (∅ : ExtTreeMap D D cmp) (levels.filterMap updateRule))[p]? =
      (last levels p).bind fun q => if q = 0 then none else some q := by
  have hrule : levels.filterMap updateRule =
      levels.map fun l => (l.1, if l.2 = 0 then none else some l.2) :=
    congrFun List.filterMap_eq_map levels
  rw [getElem?_perform, hrule, last_map (fun _ q => if q = 0 then none else some q)]
  cases last levels p <;> simp

theorem last_filter_pos {p q : D} (h : last (levels.filter fun l => 0 < l.2) p = some q) :
    0 < q ∧ (p, q) ∈ levels := by
  have hmem := List.mem_filter.mp (last_mem h)
  exact ⟨of_decide_eq_true hmem.2, hmem.1⟩

/-- A snapshot skips what is not positive, a delta erases what is zero and stores the rest. -/
theorem perform_positiveRule_eq_iff :
    perform (∅ : ExtTreeMap D D cmp) (levels.filterMap positiveRule) =
      perform ∅ (levels.filterMap updateRule) ↔ Unambiguous levels := by
  constructor
  · intro heq p q hlast
    have hp := congrArg (·[p]?) heq
    simp only [getElem?_perform_positiveRule, getElem?_perform_updateRule, hlast,
      Option.bind_some] at hp
    by_cases hzero : q = 0
    · refine Or.inr ⟨hzero, fun l hl hlp hpos => ?_⟩
      rw [if_pos hzero, last_eq_none_iff] at hp
      exact hp l (List.mem_filter.mpr ⟨hl, decide_eq_true hpos⟩) hlp
    · rw [if_neg hzero] at hp
      exact Or.inl (last_filter_pos hp).1
  · intro h
    refine ExtTreeMap.ext_getElem? fun p => ?_
    rw [getElem?_perform_positiveRule, getElem?_perform_updateRule]
    cases hlast : last levels p with
    | none =>
      rw [last_eq_none_iff] at hlast
      exact last_eq_none_iff.mpr fun l hl => hlast l (List.mem_filter.mp hl).1
    | some q =>
      rcases h p q hlast with hpos | ⟨rfl, hnone⟩
      · have hkeep : last (levels.filter fun l => 0 < l.2) p = some q :=
          last_filter hlast (by simpa using hpos)
        simp [hkeep, hpos.ne']
      · have habsent : last (levels.filter fun l => 0 < l.2) p = none := by
          refine last_eq_none_iff.mpr fun l hl hlp => ?_
          obtain ⟨hl, hpos⟩ := List.mem_filter.mp hl
          exact hnone l hl hlp (of_decide_eq_true hpos)
        simp [habsent]

end Paths

variable [OfNumeral D] (jsonParse : String → Except StdException Json)

/-- All parsers make the same books of a snapshot with these levels, from any books, so that
handling it again changes nothing: each side has the prices listed, with the last quantity. -/
theorem snapshots_replace {bids asks : List (D × D)} (hbids : ∀ l ∈ bids, 0 < l.2)
    (hasks : ∀ l ∈ asks, 0 < l.2) :
    ∃ b' : Books D, (∀ p, b'.bids[p]? = last bids p) ∧ (∀ p, b'.asks[p]? = last asks p) ∧
      ∀ ex msg j, jsonParse msg = .ok j → IsSnapshot ex j bids asks →
        ∀ b, parseMessage jsonParse ex msg b = some b' := by
  refine ⟨⟨perform ∅ (bids.filterMap storeRule), perform ∅ (asks.filterMap storeRule)⟩,
    getElem?_perform_snapshotRule hbids .binance, getElem?_perform_snapshotRule hasks .binance, ?_⟩
  intro ex msg j hparse h b
  have hbids' := filterMap_snapshotRule hbids
  have hasks' := filterMap_snapshotRule hasks
  have hrule : (storeRule : Rule D) = snapshotRule .binance := rfl
  rw [parseMessage_of_reading (reading_of_isSnapshot hparse h), hrule, hbids', hbids', hasks',
    hasks']
  rfl

/-- The two paths of the Bybit parser make the same books of the same levels exactly where they are
unambiguous on both sides. -/
theorem snapshot_eq_delta_iff {bids asks : List (D × D)} {msg msg' : String} {j j' : Json}
    (hmsg : jsonParse msg = .ok j) (hsnapshot : IsBookMessage "snapshot" j bids asks)
    (hmsg' : jsonParse msg' = .ok j') (hdelta : IsBookMessage "delta" j' bids asks) :
    (∀ b : Books D, parseMessage jsonParse .bybit msg b =
      parseMessage jsonParse .bybit msg' Books.empty) ↔ Unambiguous bids ∧ Unambiguous asks := by
  have hread : reading jsonParse .bybit msg =
      .content ⟨true, positiveRule, ⟨bids, none⟩, ⟨asks, none⟩⟩ :=
    reading_of_isSnapshot hmsg (show IsSnapshot .bybit j bids asks from hsnapshot)
  have hboth : (∀ b : Books D, parseMessage jsonParse .bybit msg b =
      parseMessage jsonParse .bybit msg' Books.empty) ↔
        perform (∅ : BidMap D) (bids.filterMap positiveRule) =
            perform ∅ (bids.filterMap updateRule) ∧
          perform (∅ : AskMap D) (asks.filterMap positiveRule) =
            perform ∅ (asks.filterMap updateRule) := by
    simp only [parseMessage_of_reading hread,
      parseMessage_of_reading (reading_of_delta hmsg' hdelta), if_true, Bool.false_eq_true,
      if_false, Option.some.injEq, Books.mk.injEq, Books.bids_empty, Books.asks_empty]
    exact ⟨fun h => h Books.empty, fun h _ => h⟩
  rw [hboth, perform_positiveRule_eq_iff, perform_positiveRule_eq_iff]

end Snapshots

section Example

def bookText (type bids asks : String) : String :=
  "\x7b\"topic\":\"orderbook.50.BTCUSDT\",\"type\":\"" ++ type ++ "\",\"data\":\x7b\"b\":" ++
    bids ++ ",\"a\":" ++ asks ++ "\x7d\x7d"

def bookMessage (type : String) (bids asks : List (String × String)) : Json :=
  .object [("data", .object [("a", .array (asks.map fun t => .level t.1 t.2)),
      ("b", .array (bids.map fun t => .level t.1 t.2))]),
    ("topic", .string "orderbook.50.BTCUSDT"), ("type", .string type)]

theorem isBookMessage_bookMessage (type : String) {bidTexts askTexts : List (String × String)}
    {bids asks : List (ℚ × ℚ)}
    (hbids : List.Forall₂ (fun t l => stod t.1 = .ok l.1 ∧ stod t.2 = .ok l.2) bidTexts bids)
    (hasks : List.Forall₂ (fun t l => stod t.1 = .ok l.1 ∧ stod t.2 = .ok l.2) askTexts asks) :
    IsBookMessage type (bookMessage type bidTexts askTexts) bids asks := by
  refine ⟨rfl, rfl, rfl, ?_, _, rfl, ⟨_, rfl, quotesLevels_of_texts _ hbids⟩,
    ⟨_, rfl, quotesLevels_of_texts _ hasks⟩⟩
  simp [bookMessage, Json.memberIs, Json.member?, Json.equalsText, List.lookup]

def repeatedDepth : String :=
  "\x7b\"lastUpdateId\":160,\"bids\":[[\"70400\",\"1\"],[\"70400.0\",\"2\"]]," ++
    "\"asks\":[[\"70410\",\"3\"]]\x7d"

def repeatedSnapshot : String :=
  bookText "snapshot" "[[\"70400\",\"1\"],[\"70400.0\",\"2\"]]" "[[\"70410\",\"3\"]]"

def decodeRepeated : String → Except StdException Json :=
  decodeTable
    [(repeatedDepth, .object [("asks", .array [.level "70410" "3"]),
      ("bids", .array [.level "70400" "1", .level "70400.0" "2"]), ("lastUpdateId", .number 160)]),
    (repeatedSnapshot,
      bookMessage "snapshot" [("70400", "1"), ("70400.0", "2")] [("70410", "3")])]

theorem snapshots_replace_example :
    ∃ b' : Books ℚ, b'.bids[(70400 : ℚ)]? = some 2 ∧
      parseMessage decodeRepeated .binance repeatedDepth Books.empty = some b' ∧
      parseMessage decodeRepeated .bybit repeatedSnapshot (Books.empty.setBid 1 1) = some b' := by
  have hbids : ∀ l ∈ [((70400 : ℚ), (1 : ℚ)), (70400, 2)], 0 < l.2 := by decide +kernel
  have hasks : ∀ l ∈ [((70410 : ℚ), (3 : ℚ))], 0 < l.2 := by decide +kernel
  have hquotes : List.Forall₂ (fun t l => stod t.1 = .ok l.1 ∧ stod t.2 = .ok l.2)
      [("70400", "1"), ("70400.0", "2")] [((70400 : ℚ), (1 : ℚ)), (70400, 2)] := by
    decide +kernel
  have hquotes' : List.Forall₂ (fun t l => stod t.1 = .ok l.1 ∧ stod t.2 = .ok l.2)
      [("70410", "3")] [((70410 : ℚ), (3 : ℚ))] := by decide +kernel
  obtain ⟨b', hb', -, hparse⟩ := snapshots_replace decodeRepeated hbids hasks
  refine ⟨b', ?_, ?_, ?_⟩
  · rw [hb']
    decide +kernel
  · exact hparse .binance repeatedDepth _ decodeTable_cons_self
      ⟨by decide, ⟨_, rfl, quotesLevels_of_texts _ hquotes⟩,
        ⟨_, rfl, quotesLevels_of_texts _ hquotes'⟩⟩ _
  · exact hparse .bybit repeatedSnapshot _
      ((decodeTable_cons_of_ne (by decide +kernel)).trans decodeTable_cons_self)
      (isBookMessage_bookMessage "snapshot" hquotes hquotes') _

def pathText (type : String) : String :=
  bookText type "[[\"70400\",\"1.5\"],[\"70390\",\"0\"]]" "[]"

def erasedText (type : String) : String :=
  bookText type "[[\"70400\",\"1.5\"],[\"70400\",\"0\"]]" "[]"

def decodePaths : String → Except StdException Json :=
  decodeTable
    [(pathText "snapshot", bookMessage "snapshot" [("70400", "1.5"), ("70390", "0")] []),
    (pathText "delta", bookMessage "delta" [("70400", "1.5"), ("70390", "0")] []),
    (erasedText "snapshot", bookMessage "snapshot" [("70400", "1.5"), ("70400", "0")] []),
    (erasedText "delta", bookMessage "delta" [("70400", "1.5"), ("70400", "0")] [])]

theorem erased_level_differs :
    IsBookMessage "snapshot" (bookMessage "snapshot" [("70400", "1.5"), ("70400", "0")] [])
        [((70400 : ℚ), (3 / 2 : ℚ)), (70400, 0)] [] ∧
      IsBookMessage "delta" (bookMessage "delta" [("70400", "1.5"), ("70400", "0")] [])
        [((70400 : ℚ), (3 / 2 : ℚ)), (70400, 0)] [] ∧
      ¬ ∀ b : Books ℚ, parseMessage decodePaths .bybit (erasedText "snapshot") b =
        parseMessage decodePaths .bybit (erasedText "delta") Books.empty := by
  refine ⟨isBookMessage_bookMessage "snapshot" (by decide +kernel) .nil,
    isBookMessage_bookMessage "delta" (by decide +kernel) .nil, fun h => ?_⟩
  exact absurd (h Books.empty) (by decide +kernel)

theorem snapshot_eq_delta_iff_example :
    parseMessage decodePaths .bybit (pathText "snapshot") (Books.empty.setBid 70390 9 : Books ℚ) =
      parseMessage decodePaths .bybit (pathText "delta") Books.empty := by
  have hquotes : List.Forall₂ (fun t l => stod t.1 = .ok l.1 ∧ stod t.2 = .ok l.2)
      [("70400", "1.5"), ("70390", "0")] [((70400 : ℚ), (3 / 2 : ℚ)), (70390, 0)] := by
    decide +kernel
  have hbids : Unambiguous [((70400 : ℚ), (3 / 2 : ℚ)), (70390, 0)] := by
    intro p q hlast
    have hmem := last_mem hlast
    simp only [List.mem_cons, Prod.mk.injEq, List.not_mem_nil, or_false] at hmem
    rcases hmem with ⟨-, rfl⟩ | ⟨rfl, rfl⟩
    · exact Or.inl (by norm_num)
    · exact Or.inr ⟨rfl, by decide +kernel⟩
  have hasks : Unambiguous ([] : List (ℚ × ℚ)) := by
    intro p q hlast
    cases hlast
  have hsnapshot := isBookMessage_bookMessage "snapshot" hquotes .nil
  have hdelta := isBookMessage_bookMessage "delta" hquotes .nil
  have hsnapshotText : decodePaths (pathText "snapshot") = .ok _ := decodeTable_cons_self
  have hdeltaText : decodePaths (pathText "delta") = .ok _ :=
    (decodeTable_cons_of_ne (by decide +kernel)).trans decodeTable_cons_self
  exact (snapshot_eq_delta_iff decodePaths hsnapshotText hsnapshot hdeltaText hdelta).mpr
    ⟨hbids, hasks⟩ _

end Example
end AsioAggregator
