import AsioAggregator.Readings

/-!
# The Bybit book after any sequence of messages

A Bybit snapshot replaces both sides and a delta changes the prices that it lists. What a side
holds after any sequence of them is said by the last level quoted for each price since the last
snapshot, so that repeating, splitting or joining deltas makes no difference.
-/

namespace AsioAggregator

open Std Writes

variable {D : Type}

structure SideUpdate (D : Type) where
  snapshot : Bool
  levels : List (D × D)

/-- The levels quoted from the last snapshot on, or all of them when there is none. -/
def levelsSince : List (SideUpdate D) → List (D × D)
  | [] => []
  | u :: us =>
    if us.any SideUpdate.snapshot then levelsSince us
    else u.levels ++ us.flatMap SideUpdate.levels

theorem levelsSince_of_no_snapshot {us : List (SideUpdate D)}
    (h : us.any SideUpdate.snapshot = false) : levelsSince us = us.flatMap SideUpdate.levels := by
  cases us with
  | nil => rfl
  | cons u us =>
    rw [List.any_cons, Bool.or_eq_false_iff] at h
    simp [levelsSince, h.2]

section Sides
variable [LinearOrder D] [Zero D] {cmp : D → D → Ordering} [TransCmp cmp] {u u₁ u₂ : SideUpdate D}

def kept (q : D) : Option D := if 0 < q then some q else none

namespace SideUpdate

/-- No negative quantity, and in a snapshot no price twice. -/
structure WellFormed (u : SideUpdate D) : Prop where
  nonneg : ∀ l ∈ u.levels, 0 ≤ l.2
  distinct : u.snapshot → (u.levels.map Prod.fst).Nodup

def rule (u : SideUpdate D) : Rule D := if u.snapshot then positiveRule else updateRule

def apply (u : SideUpdate D) (m : ExtTreeMap D D cmp) : ExtTreeMap D D cmp :=
  perform (if u.snapshot then ∅ else m) (u.levels.filterMap u.rule)

end SideUpdate

theorem last_updateRule {levels : List (D × D)} (hnonneg : ∀ l ∈ levels, 0 ≤ l.2) (p : D) :
    last (levels.filterMap updateRule) p = (last levels p).map kept := by
  induction levels with
  | nil => rfl
  | cons l ls ih =>
    have hl : updateRule l = some (l.1, kept l.2) := by
      have h0 := hnonneg l List.mem_cons_self
      by_cases hq : l.2 = 0
      · simp [updateRule, kept, hq]
      · simp [updateRule, kept, hq, h0.lt_of_ne (Ne.symm hq)]
    rw [List.filterMap_cons_some hl, last_cons, last_cons,
      ih fun l' hl' => hnonneg l' (List.mem_cons_of_mem _ hl')]
    by_cases hp : l.1 = p <;> simp [hp]

/-- With distinct prices the levels that a snapshot leaves out are those of quantity zero. -/
theorem last_positiveRule {levels : List (D × D)} (hdistinct : (levels.map Prod.fst).Nodup)
    (p : D) :
    (last (levels.filterMap positiveRule) p).getD none = (last levels p).bind kept := by
  induction levels with
  | nil => rfl
  | cons l ls ih =>
    rw [List.map_cons, List.nodup_cons] at hdistinct
    have hrest := ih hdistinct.2
    rw [last_cons]
    by_cases hp : l.1 = p
    · have hnone : last ls p = none := by
        refine last_eq_none_iff.mpr fun w hw hwp => hdistinct.1 ?_
        exact List.mem_map.mpr ⟨w, hw, hwp.trans hp.symm⟩
      have hnone' : last (ls.filterMap positiveRule) p = none := by
        refine last_eq_none_iff.mpr fun w hw => ?_
        obtain ⟨l', hl', hw'⟩ := List.mem_filterMap.mp hw
        have hfst : w.1 = l'.1 := by
          unfold positiveRule at hw'
          split_ifs at hw'
          cases hw'
          rfl
        exact hfst ▸ last_eq_none_iff.mp hnone l' hl'
      by_cases hq : 0 < l.2
      · have hl : positiveRule l = some (l.1, some l.2) := if_pos hq
        rw [List.filterMap_cons_some hl, last_cons, hnone, hnone']
        simp [hp, kept, hq]
      · have hl : positiveRule l = none := if_neg hq
        rw [List.filterMap_cons_none hl, hnone, hnone']
        simp [hp, kept, hq]
    · by_cases hq : 0 < l.2
      · have hl : positiveRule l = some (l.1, some l.2) := if_pos hq
        rw [List.filterMap_cons_some hl, last_cons]
        simpa [hp] using hrest
      · have hl : positiveRule l = none := if_neg hq
        rw [List.filterMap_cons_none hl]
        simpa [hp] using hrest

/-- The quantity at a price after these updates, when it was `initial` before. -/
def quantityAfter (us : List (SideUpdate D)) (initial : Option D) (p : D) : Option D :=
  match last (levelsSince us) p with
  | some q => kept q
  | none => if us.any SideUpdate.snapshot then none else initial

/-- The last level quoted for the price has this positive quantity, or none was quoted, no snapshot
came, and the quantity was there before. -/
def Quoted (us : List (SideUpdate D)) (initial : Option D) (p q : D) : Prop :=
  (last (levelsSince us) p = some q ∧ 0 < q) ∨
    (last (levelsSince us) p = none ∧ us.any SideUpdate.snapshot = false ∧ initial = some q)

theorem quantityAfter_eq_some {us : List (SideUpdate D)} {initial : Option D} {p q : D} :
    quantityAfter us initial p = some q ↔ Quoted us initial p q := by
  unfold quantityAfter Quoted
  cases last (levelsSince us) p with
  | some r =>
    by_cases hr : 0 < r
    · simp only [kept, hr, if_true, Option.some.injEq, reduceCtorEq, false_and, or_false]
      exact ⟨fun h => ⟨h, h ▸ hr⟩, fun h => h.1⟩
    · simp only [kept, hr, if_false, Option.some.injEq, reduceCtorEq, false_and, or_false,
        false_iff, not_and]
      exact fun h => h ▸ hr
  | none => cases us.any SideUpdate.snapshot <;> simp

section Lookup
variable [LawfulEqCmp cmp]

theorem SideUpdate.getElem?_apply (hu : u.WellFormed) (m : ExtTreeMap D D cmp) (p : D) :
    (u.apply m)[p]? = quantityAfter [u] m[p]? p := by
  simp only [apply, getElem?_perform, quantityAfter, levelsSince, List.any_nil, List.flatMap_nil,
    List.append_nil, List.any_cons, Bool.or_false, Bool.false_eq_true, if_false]
  cases hs : u.snapshot with
  | true =>
    have hrule : u.rule = positiveRule := by rw [rule, hs, if_pos rfl]
    simp only [hrule, if_true, ExtTreeMap.getElem?_empty]
    rw [last_positiveRule (hu.distinct hs) p]
    cases last u.levels p <;> rfl
  | false =>
    have hrule : u.rule = updateRule := by rw [rule, hs, if_neg Bool.false_ne_true]
    simp only [hrule, Bool.false_eq_true, if_false]
    rw [last_updateRule hu.nonneg]
    cases last u.levels p <;> rfl

theorem getElem?_foldl_apply {us : List (SideUpdate D)} (hus : ∀ u ∈ us, u.WellFormed)
    (m : ExtTreeMap D D cmp) (p : D) :
    (us.foldl (fun m u => u.apply m) m)[p]? = quantityAfter us m[p]? p := by
  induction us generalizing m with
  | nil => rfl
  | cons u us ih =>
    rw [List.foldl_cons, ih fun u' hu' => hus u' (List.mem_cons_of_mem _ hu'),
      SideUpdate.getElem?_apply (hus u List.mem_cons_self)]
    by_cases hany : us.any SideUpdate.snapshot
    · simp [quantityAfter, levelsSince, hany]
    · rw [Bool.not_eq_true] at hany
      simp only [quantityAfter, levelsSince_of_no_snapshot hany, levelsSince, hany, List.any_cons,
        List.any_nil, List.flatMap_nil, Bool.or_false, Bool.false_eq_true, if_false,
        List.append_nil, last_append]
      cases last (us.flatMap SideUpdate.levels) p <;> rfl

end Lookup

theorem SideUpdate.apply_self [LawfulEqCmp cmp] (hu : u.snapshot = false)
    (m : ExtTreeMap D D cmp) : u.apply (u.apply m) = u.apply m := by
  simp only [apply, hu, Bool.false_eq_true, if_false]
  exact perform_self _ _

theorem SideUpdate.apply_split (h : u.snapshot = false) (h₁ : u₁.snapshot = false)
    (h₂ : u₂.snapshot = false) (hlevels : u.levels = u₁.levels ++ u₂.levels)
    (m : ExtTreeMap D D cmp) : u₂.apply (u₁.apply m) = u.apply m := by
  simp only [apply, rule, h, h₁, h₂, Bool.false_eq_true, if_false, hlevels, List.filterMap_append,
    perform_append]

end Sides

/-- An order-book message of Bybit: its type and the levels of the sides that it has. -/
structure BookMessage (D : Type) where
  snapshot : Bool
  bids : Option (List (D × D))
  asks : Option (List (D × D))

namespace BookMessage

def bidUpdate (m : BookMessage D) : SideUpdate D := ⟨m.snapshot, m.bids.getD []⟩

def askUpdate (m : BookMessage D) : SideUpdate D := ⟨m.snapshot, m.asks.getD []⟩

end BookMessage

/-- A level `[price, quantity]`, quoted as text that reads as these numbers. Further entries, such
as the order counts of OKX, may follow. -/
def QuotesLevel [OfNumeral D] (level : Json) (l : D × D) : Prop :=
  ∃ price qty rest, level = .array (.string price :: .string qty :: rest) ∧
    stod price = .ok l.1 ∧ stod qty = .ok l.2

def QuotesLevels [OfNumeral D] (j : Json) (levels : List (D × D)) : Prop :=
  ∃ items, j = .array items ∧ List.Forall₂ QuotesLevel items levels

theorem QuotesLevel.readLevel_eq [OfNumeral D] {level : Json} {l : D × D}
    (h : QuotesLevel level l) : readLevel level = .ok l := by
  obtain ⟨price, qty, rest, rfl, hprice, hqty⟩ := h
  simp [readLevel, Json.constIndex, Json.getString, bind, Except.bind, hprice, hqty]
  rfl

theorem QuotesLevels.readSide_eq [OfNumeral D] {j : Json} {levels : List (D × D)}
    (h : QuotesLevels j levels) : readSide (.ok j) = ⟨levels, none⟩ := by
  obtain ⟨items, rfl, hitems⟩ := h
  simp only [readSide, Json.elements]
  induction hitems with
  | nil => rfl
  | cons hl _ ih =>
    simp only [Side.mk.injEq] at ih ⊢
    simp only [readable, firstFault, hl.readLevel_eq, ih.1, ih.2, and_self]

/-- The levels that two texts each are read from. -/
theorem quotesLevels_of_texts [OfNumeral D] (texts : List (String × String))
    {levels : List (D × D)}
    (h : List.Forall₂ (fun t l => stod t.1 = .ok l.1 ∧ stod t.2 = .ok l.2) texts levels) :
    QuotesLevels (.array (texts.map fun t => .level t.1 t.2)) levels := by
  refine ⟨_, rfl, List.forall₂_map_left_iff.mpr (h.imp fun t l htl => ?_)⟩
  exact ⟨t.1, t.2, [], rfl, htl⟩

theorem deltaSide_eq [OfNumeral D] {data : List (String × Json)} {key : String}
    {side : Option (List (D × D))} (h : Option.Rel QuotesLevels (data.lookup key) side) :
    deltaSide (.object data) key = ⟨side.getD [], none⟩ := by
  obtain hd | ⟨j, hd⟩ := Option.eq_none_or_eq_some (data.lookup key)
  · rw [hd] at h
    cases h
    simp [deltaSide, Json.contains, Json.member?, hd, Side.absent]
  · have hmember : (Json.object data).member? key = some j := hd
    rw [hd] at h
    cases h with
    | some hquotes =>
      rw [deltaSide_of_member? hmember]
      exact hquotes.readSide_eq

theorem readSide_eq_of_isSome [OfNumeral D] {data : List (String × Json)} {key : String}
    {side : Option (List (D × D))} (h : Option.Rel QuotesLevels (data.lookup key) side)
    (hside : side.isSome) :
    readSide ((Json.object data).constSubscript key) = ⟨side.getD [], none⟩ := by
  obtain ⟨levels, rfl⟩ := Option.isSome_iff_exists.mp hside
  cases hd : data.lookup key with
  | none =>
    rw [hd] at h
    cases h
  | some j =>
    have hmember : (Json.object data).member? key = some j := hd
    rw [hd] at h
    cases h with
    | some hquotes =>
      rw [Json.constSubscript_of_member? hmember]
      exact hquotes.readSide_eq

section Messages
variable [LinearOrder D] [Zero D] [OfNumeral D] {jsonParse : String → Except StdException Json}

/-- The text is a well-formed order-book message with these levels. -/
structure BookMessage.WellFormed (m : BookMessage D) (j : Json)
    (data : List (String × Json)) : Prop where
  notSubscribe : j.memberIs "op" "subscribe" = false
  notPong : j.memberIs "op" "pong" = false
  topic : j.memberIs "topic" "orderbook.50.BTCUSDT"
  type : j.memberIs "type" (if m.snapshot then "snapshot" else "delta")
  hasData : j.member? "data" = some (.object data)
  bids : Option.Rel QuotesLevels (data.lookup "b") m.bids
  asks : Option.Rel QuotesLevels (data.lookup "a") m.asks
  both : m.snapshot → m.bids.isSome ∧ m.asks.isSome
  bidUpdate : m.bidUpdate.WellFormed
  askUpdate : m.askUpdate.WellFormed

def Encodes (jsonParse : String → Except StdException Json) (msg : String) (m : BookMessage D) :
    Prop :=
  ∃ j data, jsonParse msg = .ok j ∧ m.WellFormed j data

namespace BookMessage
variable {m : BookMessage D}

theorem reading_eq {msg : String} (h : Encodes jsonParse msg m) :
    reading jsonParse .bybit msg = .content ⟨m.snapshot, m.bidUpdate.rule,
      ⟨m.bidUpdate.levels, none⟩, ⟨m.askUpdate.levels, none⟩⟩ := by
  obtain ⟨j, data, hparse, hw⟩ := h
  have hj := parseJson_of_ok jsonParse hparse
  have htype := hw.type
  simp only [reading, bybitReading, hj, hw.notSubscribe, hw.notPong, hw.topic,
    Json.subscript_of_member? hw.hasData, bybitContent, Json.isObject, Bool.not_true,
    Bool.false_eq_true, if_false]
  cases hs : m.snapshot with
  | true =>
    obtain ⟨hb, ha⟩ := hw.both hs
    rw [hs, if_pos rfl] at htype
    simp only [htype, if_true, readSide_eq_of_isSome hw.bids hb, readSide_eq_of_isSome hw.asks ha,
      SideUpdate.rule, bidUpdate, askUpdate, hs]
  | false =>
    rw [hs, if_neg Bool.false_ne_true] at htype
    have hnot : j.memberIs "type" "snapshot" = false := Json.memberIs_of_ne htype (by decide)
    simp only [hnot, htype, Bool.false_eq_true, if_false, if_true, deltaSide_eq hw.bids,
      deltaSide_eq hw.asks, SideUpdate.rule, bidUpdate, askUpdate, hs]

def apply (m : BookMessage D) (b : Books D) : Books D :=
  ⟨m.bidUpdate.apply b.bids, m.askUpdate.apply b.asks⟩

theorem parseMessage_eq {msg : String} (h : Encodes jsonParse msg m) (b : Books D) :
    parseMessage jsonParse .bybit msg b = some (m.apply b) := by
  refine (parseMessage_eq_some jsonParse).mpr ?_
  rw [reading_eq h]
  refine ⟨rfl, ?_⟩
  cases hs : m.snapshot <;>
    simp [Reading.apply, Content.apply, Content.start, Content.bidWrites, Content.askWrites, apply,
      SideUpdate.apply, Books.performBids, Books.performAsks, SideUpdate.rule, bidUpdate, askUpdate,
      hs]

end BookMessage

theorem parseMessages_eq {msgs : List String} {ms : List (BookMessage D)}
    (h : List.Forall₂ (Encodes jsonParse) msgs ms) (b : Books D) :
    parseMessages jsonParse .bybit msgs b =
      some ⟨(ms.map BookMessage.bidUpdate).foldl (fun side u => u.apply side) b.bids,
        (ms.map BookMessage.askUpdate).foldl (fun side u => u.apply side) b.asks⟩ := by
  induction h generalizing b with
  | nil => rfl
  | cons hm _ ih =>
    simp only [parseMessages, List.foldlM_cons, BookMessage.parseMessage_eq hm]
    exact ih _

theorem bidUpdates_wellFormed {msgs : List String} {ms : List (BookMessage D)}
    (h : List.Forall₂ (Encodes jsonParse) msgs ms) :
    ∀ u ∈ ms.map BookMessage.bidUpdate, u.WellFormed := by
  induction h with
  | nil => simp
  | cons hm _ ih =>
    obtain ⟨j, data, -, hw⟩ := hm
    exact List.forall_mem_cons.mpr ⟨hw.bidUpdate, ih⟩

theorem askUpdates_wellFormed {msgs : List String} {ms : List (BookMessage D)}
    (h : List.Forall₂ (Encodes jsonParse) msgs ms) :
    ∀ u ∈ ms.map BookMessage.askUpdate, u.WellFormed := by
  induction h with
  | nil => simp
  | cons hm _ ih =>
    obtain ⟨j, data, -, hw⟩ := hm
    exact List.forall_mem_cons.mpr ⟨hw.askUpdate, ih⟩

theorem redelivered_delta {msg : String} {m : BookMessage D} (h : Encodes jsonParse msg m)
    (hdelta : m.snapshot = false) (pre post : List String) (b : Books D) :
    parseMessages jsonParse .bybit (pre ++ msg :: msg :: post) b =
      parseMessages jsonParse .bybit (pre ++ msg :: post) b := by
  rw [parseMessages_append, parseMessages_append]
  refine congrArg _ (funext fun b => ?_)
  have htwice : m.apply (m.apply b) = m.apply b := by
    simp only [BookMessage.apply, SideUpdate.apply_self (u := m.bidUpdate) hdelta,
      SideUpdate.apply_self (u := m.askUpdate) hdelta]
  simp only [parseMessages, List.foldlM_cons, BookMessage.parseMessage_eq h, Option.bind_eq_bind,
    Option.bind_some, htwice]

theorem split_delta {msg msg₁ msg₂ : String} {m m₁ m₂ : BookMessage D}
    (h : Encodes jsonParse msg m) (h₁ : Encodes jsonParse msg₁ m₁) (h₂ : Encodes jsonParse msg₂ m₂)
    (hm : m.snapshot = false) (hm₁ : m₁.snapshot = false) (hm₂ : m₂.snapshot = false)
    (hbids : m.bidUpdate.levels = m₁.bidUpdate.levels ++ m₂.bidUpdate.levels)
    (hasks : m.askUpdate.levels = m₁.askUpdate.levels ++ m₂.askUpdate.levels)
    (pre post : List String) (b : Books D) :
    parseMessages jsonParse .bybit (pre ++ msg₁ :: msg₂ :: post) b =
      parseMessages jsonParse .bybit (pre ++ msg :: post) b := by
  rw [parseMessages_append, parseMessages_append]
  refine congrArg _ (funext fun b => ?_)
  have hsplit : m₂.apply (m₁.apply b) = m.apply b := by
    simp only [BookMessage.apply,
      SideUpdate.apply_split (u := m.bidUpdate) hm hm₁ hm₂ hbids,
      SideUpdate.apply_split (u := m.askUpdate) hm hm₁ hm₂ hasks]
  simp only [parseMessages, List.foldlM_cons, BookMessage.parseMessage_eq h,
    BookMessage.parseMessage_eq h₁, BookMessage.parseMessage_eq h₂, Option.bind_eq_bind,
    Option.bind_some, hsplit]

/-- After any sequence of well-formed messages each side holds what was quoted last, whatever
happened on the other side. Deltas may be redelivered, split and joined. -/
theorem bybit_replay {msgs : List String} {ms : List (BookMessage D)}
    (h : List.Forall₂ (Encodes jsonParse) msgs ms) (b : Books D) :
    ∃ b', parseMessages jsonParse .bybit msgs b = some b' ∧
      (∀ p q, b'.bids[p]? = some q ↔ Quoted (ms.map BookMessage.bidUpdate) b.bids[p]? p q) ∧
      (∀ p q, b'.asks[p]? = some q ↔ Quoted (ms.map BookMessage.askUpdate) b.asks[p]? p q) ∧
      (∀ msgs₂ ms₂ b₂ b₂', List.Forall₂ (Encodes jsonParse) msgs₂ ms₂ →
        parseMessages jsonParse .bybit msgs₂ b₂ = some b₂' →
        (ms₂.map BookMessage.bidUpdate = ms.map BookMessage.bidUpdate → b₂.bids = b.bids →
          b₂'.bids = b'.bids) ∧
        (ms₂.map BookMessage.askUpdate = ms.map BookMessage.askUpdate → b₂.asks = b.asks →
          b₂'.asks = b'.asks)) ∧
      (∀ pre post msg, ∀ m : BookMessage D, Encodes jsonParse msg m → m.snapshot = false →
        ∀ b : Books D,
        parseMessages jsonParse .bybit (pre ++ msg :: msg :: post) b =
          parseMessages jsonParse .bybit (pre ++ msg :: post) b) ∧
      (∀ pre post msg msg₁ msg₂, ∀ m m₁ m₂ : BookMessage D, Encodes jsonParse msg m →
        Encodes jsonParse msg₁ m₁ → Encodes jsonParse msg₂ m₂ →
        m.snapshot = false → m₁.snapshot = false → m₂.snapshot = false →
        m.bidUpdate.levels = m₁.bidUpdate.levels ++ m₂.bidUpdate.levels →
        m.askUpdate.levels = m₁.askUpdate.levels ++ m₂.askUpdate.levels → ∀ b : Books D,
        parseMessages jsonParse .bybit (pre ++ msg₁ :: msg₂ :: post) b =
          parseMessages jsonParse .bybit (pre ++ msg :: post) b) := by
  refine ⟨_, parseMessages_eq h b, ?_, ?_, ?_, ?_, ?_⟩
  · intro p q
    rw [getElem?_foldl_apply (bidUpdates_wellFormed h), quantityAfter_eq_some]
  · intro p q
    rw [getElem?_foldl_apply (askUpdates_wellFormed h), quantityAfter_eq_some]
  · intro msgs₂ ms₂ b₂ b₂' h₂ hrun
    rw [parseMessages_eq h₂, Option.some.injEq] at hrun
    subst hrun
    constructor
    · intro hms hb
      simp only [hms, hb]
    · intro hms hb
      simp only [hms, hb]
  · intro pre post msg m hm hdelta b
    exact redelivered_delta hm hdelta pre post b
  · intro pre post msg msg₁ msg₂ m m₁ m₂ hm hm₁ hm₂ hd hd₁ hd₂ hbids hasks b
    exact split_delta hm hm₁ hm₂ hd hd₁ hd₂ hbids hasks pre post b

end Messages

section Example

def snapshotText : String :=
  "\x7b\"topic\":\"orderbook.50.BTCUSDT\",\"ts\":1,\"type\":\"snapshot\",\"data\":\x7b" ++
    "\"s\":\"BTCUSDT\",\"b\":[[\"70400.00\",\"1.5\"],[\"70390.00\",\"0\"]]," ++
    "\"a\":[[\"70410.00\",\"2.0\"]],\"u\":7,\"seq\":9\x7d,\"cts\":1\x7d"

def deltaText : String :=
  "\x7b\"topic\":\"orderbook.50.BTCUSDT\",\"ts\":2,\"type\":\"delta\",\"data\":\x7b" ++
    "\"s\":\"BTCUSDT\",\"b\":[[\"70400.00\",\"0\"],[\"70395.00\",\"3\"]],\"u\":8," ++
    "\"seq\":10\x7d,\"cts\":2\x7d"

def exampleSnapshot : BookMessage ℚ := ⟨true, some [(70400, 3 / 2), (70390, 0)], some [(70410, 2)]⟩

def exampleDelta : BookMessage ℚ := ⟨false, some [(70400, 0), (70395, 3)], none⟩

def decodeExample : String → Except StdException Json :=
  decodeTable
    [(snapshotText, .object [("cts", .number 1),
      ("data", .object [("a", .array [.level "70410.00" "2.0"]),
        ("b", .array [.level "70400.00" "1.5", .level "70390.00" "0"]), ("s", .string "BTCUSDT"),
        ("seq", .number 9), ("u", .number 7)]),
      ("topic", .string "orderbook.50.BTCUSDT"), ("ts", .number 1), ("type", .string "snapshot")]),
    (deltaText, .object [("cts", .number 2),
      ("data", .object [("b", .array [.level "70400.00" "0", .level "70395.00" "3"]),
        ("s", .string "BTCUSDT"), ("seq", .number 10), ("u", .number 8)]),
      ("topic", .string "orderbook.50.BTCUSDT"), ("ts", .number 2), ("type", .string "delta")])]

theorem encodes_exampleSnapshot : Encodes decodeExample snapshotText exampleSnapshot := by
  refine ⟨_, _, decodeTable_cons_self,
    ⟨by decide, by decide, by decide, by decide, rfl, ?_, ?_, by decide, ?_, ?_⟩⟩
  · exact .some (quotesLevels_of_texts [("70400.00", "1.5"), ("70390.00", "0")]
      (by decide +kernel))
  · exact .some (quotesLevels_of_texts [("70410.00", "2.0")] (by decide +kernel))
  · exact ⟨by decide +kernel, fun _ => by decide +kernel⟩
  · exact ⟨by decide +kernel, fun _ => by decide +kernel⟩

theorem encodes_exampleDelta : Encodes decodeExample deltaText exampleDelta := by
  refine ⟨_, _, (decodeTable_cons_of_ne (by decide +kernel)).trans decodeTable_cons_self,
    ⟨by decide, by decide, by decide, by decide, rfl, ?_, .none, by decide, ?_, ?_⟩⟩
  · exact .some (quotesLevels_of_texts [("70400.00", "0"), ("70395.00", "3")]
      (by decide +kernel))
  · exact ⟨by decide +kernel, fun _ => by decide +kernel⟩
  · exact ⟨by decide +kernel, fun _ => by decide +kernel⟩

theorem bybit_replay_example :
    ∃ b', parseMessages decodeExample .bybit [snapshotText, deltaText]
        (Books.empty.setBid 70400 9 : Books ℚ) = some b' ∧
      b'.bids[(70395 : ℚ)]? = some 3 ∧ ∀ q, b'.bids[(70400 : ℚ)]? ≠ some q := by
  obtain ⟨b', hb', hbids, -⟩ := bybit_replay
    (List.Forall₂.cons encodes_exampleSnapshot (.cons encodes_exampleDelta .nil))
    (Books.empty.setBid 70400 9 : Books ℚ)
  refine ⟨b', hb', (hbids 70395 3).mpr (Or.inl (by decide +kernel)), fun q hq => ?_⟩
  rcases (hbids 70400 q).mp hq with ⟨hlast, hpos⟩ | ⟨hlast, -⟩
  · have hzero : (0 : ℚ) = q := Option.some.inj ((by decide +kernel : some (0 : ℚ) =
      last (levelsSince ([exampleSnapshot, exampleDelta].map BookMessage.bidUpdate)) 70400).trans
        hlast)
    exact hpos.ne hzero
  · exact absurd hlast (by decide +kernel)

end Example
end AsioAggregator
