import AsioAggregator.Parsers

/-!
# What a message says, apart from the books it is applied to

A parser reads its message before it looks at the books: which levels it will see, what each of
them does at its price, and where reading stops do not depend on the local books. `reading`
collects this, and `parseBody_run` shows that running the parser is applying its reading.
-/

namespace AsioAggregator

open Std Writes

variable {D : Type} [LinearOrder D]

abbrev Rule (D : Type) := D × D → Option (Write D D)

def storeRule : Rule D := fun l => some (l.1, some l.2)

section Rules
variable [Zero D]

/-- A Bybit snapshot stores the levels with positive quantity. -/
def positiveRule : Rule D := fun l => if 0 < l.2 then some (l.1, some l.2) else none

/-- A Bybit delta erases the price of a level with quantity zero. -/
def updateRule : Rule D := fun l => some (l.1, if l.2 = 0 then none else some l.2)

end Rules

def readable [OfNumeral D] : List Json → List (D × D)
  | [] => []
  | level :: rest =>
    match readLevel level with
    | .ok l => l :: readable rest
    | .error _ => []

def firstFault (D : Type) [OfNumeral D] : List Json → Option Fault
  | [] => none
  | level :: rest =>
    match (readLevel level : Except Fault (D × D)) with
    | .ok _ => firstFault D rest
    | .error f => some f

/-- What the loop over one side reads: its levels up to the fault that ends the loop, if any. -/
structure Side (D : Type) where
  levels : List (D × D)
  fault : Option Fault

def readSide [OfNumeral D] (range : Except Fault Json) : Side D :=
  match range with
  | .ok j => ⟨readable j.elements, firstFault D j.elements⟩
  | .error f => ⟨[], some f⟩

def Side.absent : Side D := ⟨[], none⟩

/-- The book data of a message: whether the books are cleared first, the rule of its levels, and
both sides. The loop over asks runs only when the one over bids ends without a fault. -/
structure Content (D : Type) where
  replaces : Bool
  rule : Rule D
  bids : Side D
  asks : Side D

inductive Reading (D : Type) where
  | skipped (fault : Option Fault)
  | content (c : Content D)

namespace Books

def performBids (ws : List (Write D D)) (b : Books D) : Books D :=
  { b with bids := perform b.bids ws }

def performAsks (ws : List (Write D D)) (b : Books D) : Books D :=
  { b with asks := perform b.asks ws }

end Books

namespace Content

def start (c : Content D) (b : Books D) : Books D := if c.replaces then Books.empty else b

def bidWrites (c : Content D) : List (Write D D) := c.bids.levels.filterMap c.rule

/-- The asks that are written: none when the bids end by a fault. -/
def askWrites (c : Content D) : List (Write D D) :=
  if c.bids.fault.isSome then [] else c.asks.levels.filterMap c.rule

def fault (c : Content D) : Option Fault := c.bids.fault.or c.asks.fault

def apply (c : Content D) (b : Books D) : Books D :=
  ((c.start b).performBids c.bidWrites).performAsks c.askWrites

end Content

namespace Content

@[simp] theorem bids_apply (c : Content D) (b : Books D) :
    (c.apply b).bids = perform (c.start b).bids c.bidWrites := rfl

@[simp] theorem asks_apply (c : Content D) (b : Books D) :
    (c.apply b).asks = perform (c.start b).asks c.askWrites := rfl

theorem start_of_replaces {c : Content D} (h : c.replaces = true) (b : Books D) :
    c.start b = Books.empty := by simp [start, h]

theorem start_of_not_replaces {c : Content D} (h : c.replaces = false) (b : Books D) :
    c.start b = b := by simp [start, h]

end Content

def endedBy : Option Fault → Except Fault Unit
  | none => .ok ()
  | some f => .error f

def Reading.run : Reading D → Books D → EStateM.Result Fault (Books D) Unit
  | .skipped fault, b => ended (endedBy fault) b
  | .content c, b => ended (endedBy c.fault) (c.apply b)

namespace Books
variable (b : Books D)

@[simp] theorem performBids_nil : b.performBids [] = b := rfl

@[simp] theorem performAsks_nil : b.performAsks [] = b := rfl

theorem foldl_performBids (ws : List (Write D D)) :
    ws.foldl (fun b w => b.performBids [w]) b = b.performBids ws := by
  induction ws generalizing b with
  | nil => rfl
  | cons w ws ih => rw [List.foldl_cons, ih]; rfl

theorem foldl_performAsks (ws : List (Write D D)) :
    ws.foldl (fun b w => b.performAsks [w]) b = b.performAsks ws := by
  induction ws generalizing b with
  | nil => rfl
  | cons w ws ih => rw [List.foldl_cons, ih]; rfl

end Books

section Loops

@[simp] theorem run_lift {α : Type} (x : Except Fault α) (b : Books D) :
    (liftM x : ParseM D α).run b = ended x b := rfl

@[simp] theorem run_clearBooks (b : Books D) :
    (clearBooks : ParseM D Unit).run b = .ok () Books.empty := rfl

theorem loops_run {x y : ParseM D Unit} {c : Content D} {b : Books D}
    (hx : ∀ b, x.run b = ended (endedBy c.bids.fault)
      (b.performBids (c.bids.levels.filterMap c.rule)))
    (hy : ∀ b, y.run b = ended (endedBy c.asks.fault)
      (b.performAsks (c.asks.levels.filterMap c.rule))) :
    (x >>= fun _ => y).run (c.start b) = ended (endedBy c.fault) (c.apply b) := by
  rw [EStateM.run_bind, hx]
  cases hf : c.bids.fault with
  | some f =>
    simp [Content.fault, Content.apply, Content.askWrites, Content.bidWrites, hf, endedBy, ended]
  | none =>
    change y.run _ = _
    rw [hy]
    simp [Content.fault, Content.apply, Content.askWrites, Content.bidWrites, hf]

variable [OfNumeral D]

/-- A loop whose body reads the level, and then writes what the rule says with `put`, writes the
readable levels and ends with the first fault. -/
theorem forM_run {body : Json → ParseM D Unit} {rule : Rule D}
    {put : Books D → Write D D → Books D}
    (hbody : ∀ level b, (body level).run b = match readLevel level with
      | .ok l => .ok () ((rule l).elim b (put b))
      | .error f => .error f b)
    (levels : List Json) (b : Books D) :
    (levels.forM body).run b = ended (endedBy (firstFault D levels))
      (((readable levels).filterMap rule).foldl put b) := by
  induction levels generalizing b with
  | nil => rfl
  | cons level rest ih =>
    change (body level >>= fun _ => rest.forM body).run b = _
    rw [EStateM.run_bind, hbody]
    cases hl : (readLevel level : Except Fault (D × D)) with
    | error f => simp only [readable, firstFault, hl, List.filterMap_nil, List.foldl_nil]; rfl
    | ok l =>
      simp only [readable, firstFault, hl, ih]
      cases hw : rule l <;> simp [hw]

/-- The bodies of the loops over bids, by the rule that each of them follows. -/
def IsBidBody (body : Json → ParseM D Unit) (rule : Rule D) : Prop :=
  ∀ level b, (body level).run b = match readLevel level with
    | .ok l => .ok () ((rule l).elim b fun w => b.performBids [w])
    | .error f => .error f b

def IsAskBody (body : Json → ParseM D Unit) (rule : Rule D) : Prop :=
  ∀ level b, (body level).run b = match readLevel level with
    | .ok l => .ok () ((rule l).elim b fun w => b.performAsks [w])
    | .error f => .error f b

def loop (range : Except Fault Json) (body : Json → ParseM D Unit) : ParseM D Unit := do
  (← range).elements.forM body

theorem loop_bids {body : Json → ParseM D Unit} {rule : Rule D} (h : IsBidBody body rule)
    (range : Except Fault Json) (b : Books D) :
    (loop range body).run b = ended (endedBy (readSide range : Side D).fault)
      (b.performBids ((readSide range).levels.filterMap rule)) := by
  cases range with
  | error f => rfl
  | ok j =>
    change (j.elements.forM body).run b = _
    rw [forM_run h, Books.foldl_performBids]
    rfl

theorem loop_asks {body : Json → ParseM D Unit} {rule : Rule D} (h : IsAskBody body rule)
    (range : Except Fault Json) (b : Books D) :
    (loop range body).run b = ended (endedBy (readSide range : Side D).fault)
      (b.performAsks ((readSide range).levels.filterMap rule)) := by
  cases range with
  | error f => rfl
  | ok j =>
    change (j.elements.forM body).run b = _
    rw [forM_run h, Books.foldl_performAsks]
    rfl

theorem storeBid_spec : IsBidBody (storeBid : Json → ParseM D Unit) storeRule := by
  intro level b
  unfold storeBid
  rw [EStateM.run_bind, run_lift]
  cases (readLevel level : Except Fault (D × D)) <;> rfl

theorem storeAsk_spec : IsAskBody (storeAsk : Json → ParseM D Unit) storeRule := by
  intro level b
  unfold storeAsk
  rw [EStateM.run_bind, run_lift]
  cases (readLevel level : Except Fault (D × D)) <;> rfl

variable [Zero D]

theorem storePositiveBid_spec :
    IsBidBody (storePositiveBid : Json → ParseM D Unit) positiveRule := by
  intro level b
  unfold storePositiveBid
  rw [EStateM.run_bind, run_lift]
  cases (readLevel level : Except Fault (D × D)) with
  | error f => rfl
  | ok l =>
    by_cases h : 0 < l.2
    · simp [ended, positiveRule, h]
      rfl
    · simp [ended, positiveRule, h]

theorem storePositiveAsk_spec :
    IsAskBody (storePositiveAsk : Json → ParseM D Unit) positiveRule := by
  intro level b
  unfold storePositiveAsk
  rw [EStateM.run_bind, run_lift]
  cases (readLevel level : Except Fault (D × D)) with
  | error f => rfl
  | ok l =>
    by_cases h : 0 < l.2
    · simp [ended, positiveRule, h]
      rfl
    · simp [ended, positiveRule, h]

theorem updateBid_spec : IsBidBody (updateBid : Json → ParseM D Unit) updateRule := by
  intro level b
  unfold updateBid
  rw [EStateM.run_bind, run_lift]
  cases (readLevel level : Except Fault (D × D)) with
  | error f => rfl
  | ok l =>
    by_cases h : l.2 = 0
    · simp [ended, updateRule, h]
      rfl
    · simp [ended, updateRule, h]
      rfl

theorem updateAsk_spec : IsAskBody (updateAsk : Json → ParseM D Unit) updateRule := by
  intro level b
  unfold updateAsk
  rw [EStateM.run_bind, run_lift]
  cases (readLevel level : Except Fault (D × D)) with
  | error f => rfl
  | ok l =>
    by_cases h : l.2 = 0
    · simp [ended, updateRule, h]
      rfl
    · simp [ended, updateRule, h]
      rfl

end Loops

variable [OfNumeral D] [Zero D] (jsonParse : String → Except StdException Json)

omit [LinearOrder D] [OfNumeral D] [Zero D] in
theorem parseJson_of_ok {msg : String} {j : Json} (h : jsonParse msg = .ok j) :
    parseJson jsonParse msg = .ok j := by
  rw [parseJson, h]
  rfl

def binanceReading (msg : String) : Reading D :=
  match parseJson jsonParse msg with
  | .error f => .skipped (some f)
  | .ok j =>
    if j.contains "lastUpdateId" then
      .content ⟨true, storeRule, readSide (j.subscript "bids"), readSide (j.subscript "asks")⟩
    else .skipped none

def firstDataReading (j : Json) : Reading D :=
  match j.subscript "data" >>= fun data => data.index 0 with
  | .error f => .skipped (some f)
  | .ok data =>
    .content ⟨true, storeRule, readSide (data.subscript "bids"), readSide (data.subscript "asks")⟩

def okxReading (msg : String) : Reading D :=
  match parseJson jsonParse msg with
  | .error f => .skipped (some f)
  | .ok j =>
    if j.memberIs "event" "subscribe" then .skipped none
    else if j.contains "data" then firstDataReading j
    else .skipped none

def bitgetReading (msg : String) : Reading D :=
  match parseJson jsonParse msg with
  | .error f => .skipped (some f)
  | .ok j =>
    if j.memberIs "op" "subscribe" then .skipped none
    else if j.memberIs "action" "snapshot" then firstDataReading j
    else .skipped none

/-- A side of a Bybit delta, which may be missing. -/
def deltaSide (data : Json) (key : String) : Side D :=
  if data.contains key then readSide (data.constSubscript key) else .absent

omit [LinearOrder D] [Zero D] in
theorem deltaSide_of_member? {data j : Json} {key : String} (h : data.member? key = some j) :
    deltaSide (D := D) data key = readSide (.ok j) := by
  rw [deltaSide, if_pos (Json.contains_of_member? h), Json.constSubscript_of_member? h]

def bybitContent (j data : Json) : Reading D :=
  if !data.isObject then .skipped none
  else if j.memberIs "type" "snapshot" then
    .content ⟨true, positiveRule, readSide (data.constSubscript "b"),
      readSide (data.constSubscript "a")⟩
  else if j.memberIs "type" "delta" then
    .content ⟨false, updateRule, deltaSide data "b", deltaSide data "a"⟩
  else .skipped none

def bybitReading (msg : String) : Reading D :=
  match parseJson jsonParse msg with
  | .error f => .skipped (some f)
  | .ok j =>
    if j.memberIs "op" "subscribe" then .skipped none
    else if j.memberIs "op" "pong" then .skipped none
    else if !j.memberIs "topic" "orderbook.50.BTCUSDT" then .skipped none
    else
      match j.subscript "data" with
      | .error f => .skipped (some f)
      | .ok data => bybitContent j data

def reading : Exchange → String → Reading D
  | .binance => binanceReading jsonParse
  | .okx => okxReading jsonParse
  | .bitget => bitgetReading jsonParse
  | .bybit => bybitReading jsonParse

omit [Zero D] in
theorem storeLoops_run (bids asks : Except Fault Json) (b : Books D) :
    (do
      clearBooks
      (← bids).elements.forM storeBid
      (← asks).elements.forM storeAsk : ParseM D Unit).run b =
      (Reading.content ⟨true, storeRule, readSide bids, readSide asks⟩).run b := by
  let c : Content D := ⟨true, storeRule, readSide bids, readSide asks⟩
  have h := loops_run (c := c) (b := b) (loop_bids storeBid_spec bids)
    (loop_asks storeAsk_spec asks)
  simp only [loop, bind_assoc] at h
  rw [EStateM.run_bind, run_clearBooks]
  exact h

theorem positiveLoops_run (bids asks : Except Fault Json) (b : Books D) :
    (do
      clearBooks
      (← bids).elements.forM storePositiveBid
      (← asks).elements.forM storePositiveAsk : ParseM D Unit).run b =
      (Reading.content ⟨true, positiveRule, readSide bids, readSide asks⟩).run b := by
  let c : Content D := ⟨true, positiveRule, readSide bids, readSide asks⟩
  have h := loops_run (c := c) (b := b) (loop_bids storePositiveBid_spec bids)
    (loop_asks storePositiveAsk_spec asks)
  simp only [loop, bind_assoc] at h
  rw [EStateM.run_bind, run_clearBooks]
  exact h

theorem deltaLoop_bids (data : Json) (key : String) (b : Books D) :
    (if data.contains key then loop (data.constSubscript key) updateBid else pure () :
      ParseM D Unit).run b = ended (endedBy (deltaSide data key : Side D).fault)
        (b.performBids ((deltaSide data key).levels.filterMap updateRule)) := by
  by_cases h : data.contains key
  · simp only [deltaSide, h, if_true]
    exact loop_bids updateBid_spec _ b
  · simp only [deltaSide, h]
    rfl

theorem deltaLoop_asks (data : Json) (key : String) (b : Books D) :
    (if data.contains key then loop (data.constSubscript key) updateAsk else pure () :
      ParseM D Unit).run b = ended (endedBy (deltaSide data key : Side D).fault)
        (b.performAsks ((deltaSide data key).levels.filterMap updateRule)) := by
  by_cases h : data.contains key
  · simp only [deltaSide, h, if_true]
    exact loop_asks updateAsk_spec _ b
  · simp only [deltaSide, h]
    rfl

theorem deltaLoops_run (data : Json) (b : Books D) :
    (do
      if data.contains "b" then
        (← data.constSubscript "b").elements.forM updateBid
      if data.contains "a" then
        (← data.constSubscript "a").elements.forM updateAsk : ParseM D Unit).run b =
      (Reading.content ⟨false, updateRule, deltaSide data "b", deltaSide data "a"⟩).run b := by
  let c : Content D := ⟨false, updateRule, deltaSide data "b", deltaSide data "a"⟩
  have h := loops_run (c := c) (b := b) (deltaLoop_bids data "b") (deltaLoop_asks data "a")
  by_cases hb : data.contains "b" <;> simp only [hb, loop, bind_assoc, if_true] at h ⊢ <;> exact h

omit [Zero D] in
theorem binanceBody_run (msg : String) (b : Books D) :
    (binanceBody jsonParse msg).run b = (binanceReading jsonParse msg).run b := by
  unfold binanceBody binanceReading
  rw [EStateM.run_bind, run_lift]
  cases parseJson jsonParse msg with
  | error f => rfl
  | ok j =>
    by_cases hid : j.contains "lastUpdateId"
    · simp only [ended, hid, if_true]
      exact storeLoops_run _ _ b
    · simp only [ended, hid]
      rfl

omit [Zero D] in
theorem firstData_run (j : Json) (b : Books D) :
    (do
      let data ← (← j.subscript "data").index 0
      clearBooks
      (← data.subscript "bids").elements.forM storeBid
      (← data.subscript "asks").elements.forM storeAsk : ParseM D Unit).run b =
      (firstDataReading j).run b := by
  unfold firstDataReading
  rw [EStateM.run_bind, run_lift]
  cases j.subscript "data" with
  | error f => rfl
  | ok data =>
    change (liftM (data.index 0) >>= _ : ParseM D Unit).run b = _
    rw [EStateM.run_bind, run_lift]
    change _ = (match data.index 0 with | .error f => _ | .ok data => _ : Reading D).run b
    cases data.index 0 with
    | error f => rfl
    | ok data => exact storeLoops_run _ _ b

omit [Zero D] in
theorem okxBody_run (msg : String) (b : Books D) :
    (okxBody jsonParse msg).run b = (okxReading jsonParse msg).run b := by
  unfold okxBody okxReading
  rw [EStateM.run_bind, run_lift]
  cases parseJson jsonParse msg with
  | error f => rfl
  | ok j =>
    by_cases he : j.memberIs "event" "subscribe"
    · simp only [ended, he, if_true]
      rfl
    · by_cases hd : j.contains "data"
      · simp only [ended, he, hd, if_true]
        exact firstData_run j b
      · simp only [ended, he, hd]
        rfl

omit [Zero D] in
theorem bitgetBody_run (msg : String) (b : Books D) :
    (bitgetBody jsonParse msg).run b = (bitgetReading jsonParse msg).run b := by
  unfold bitgetBody bitgetReading
  rw [EStateM.run_bind, run_lift]
  cases parseJson jsonParse msg with
  | error f => rfl
  | ok j =>
    by_cases ho : j.memberIs "op" "subscribe"
    · simp only [ended, ho, if_true]
      rfl
    · by_cases hs : j.memberIs "action" "snapshot"
      · simp only [ended, ho, hs, if_true]
        exact firstData_run j b
      · simp only [ended, ho, hs]
        rfl

theorem bybitBody_run (msg : String) (b : Books D) :
    (bybitBody jsonParse msg).run b = (bybitReading jsonParse msg).run b := by
  unfold bybitBody bybitReading
  rw [EStateM.run_bind, run_lift]
  cases parseJson jsonParse msg with
  | error f => rfl
  | ok j =>
    by_cases hsub : j.memberIs "op" "subscribe"
    · simp only [ended, hsub, if_true]
      rfl
    by_cases hpong : j.memberIs "op" "pong"
    · simp only [ended, hsub, hpong, if_true]
      rfl
    by_cases htopic : j.memberIs "topic" "orderbook.50.BTCUSDT"
    swap
    · simp only [ended, hsub, hpong, htopic]
      rfl
    simp only [ended, hsub, hpong, htopic, Bool.not_true, Bool.false_eq_true, if_false,
      EStateM.run_bind, run_lift]
    cases j.subscript "data" with
    | error f => rfl
    | ok data =>
      simp only [bybitContent]
      by_cases hobj : data.isObject
      swap
      · simp only [hobj]
        rfl
      by_cases hsnap : j.memberIs "type" "snapshot"
      · simp only [hobj, hsnap, Bool.not_true, Bool.false_eq_true, if_false, if_true]
        exact positiveLoops_run _ _ b
      by_cases hdelta : j.memberIs "type" "delta"
      · simp only [hobj, hsnap, hdelta, Bool.not_true, Bool.false_eq_true, if_false, if_true]
        exact deltaLoops_run data b
      · simp only [hobj, hsnap, hdelta, Bool.not_true, Bool.false_eq_true, if_false]
        rfl

/-- Running a parser is applying what it reads from its message. -/
theorem parseBody_run (ex : Exchange) (msg : String) (b : Books D) :
    (parseBody jsonParse ex msg).run b = (reading jsonParse ex msg).run b := by
  cases ex with
  | binance => exact binanceBody_run jsonParse msg b
  | okx => exact okxBody_run jsonParse msg b
  | bitget => exact bitgetBody_run jsonParse msg b
  | bybit => exact bybitBody_run jsonParse msg b

/-- Whether the catch block of the parsers takes over: it catches every exception. -/
def caught : Option Fault → Bool
  | none | some (.exception _) => true
  | some .undefinedAccess | some .nan => false

def Reading.fault : Reading D → Option Fault
  | .skipped fault => fault
  | .content c => c.fault

omit [LinearOrder D] [OfNumeral D] [Zero D] in
@[simp] theorem Reading.fault_skipped (fault : Option Fault) :
    (Reading.skipped fault : Reading D).fault = fault := rfl

omit [LinearOrder D] [OfNumeral D] [Zero D] in
@[simp] theorem Reading.fault_content (c : Content D) : (Reading.content c).fault = c.fault := rfl

/-- What the reading leaves in the books. -/
def Reading.apply : Reading D → Books D → Books D
  | .skipped _, b => b
  | .content c, b => c.apply b

omit [OfNumeral D] [Zero D] in
theorem afterCatch_ended (fault : Option Fault) (b : Books D) :
    afterCatch (ended (endedBy fault) b) = if caught fault then some b else none := by
  rcases fault with _ | ⟨_ | _ | _⟩ <;> rfl

theorem parseMessage_eq (ex : Exchange) (msg : String) (b : Books D) :
    parseMessage jsonParse ex msg b =
      if caught (reading (D := D) jsonParse ex msg).fault then
        some ((reading jsonParse ex msg).apply b)
      else none := by
  rw [parseMessage, parseBody_run]
  cases (reading jsonParse ex msg : Reading D) with
  | skipped fault => exact afterCatch_ended fault b
  | content c => exact afterCatch_ended c.fault (c.apply b)

theorem parseMessage_eq_some {ex : Exchange} {msg : String} {b b' : Books D} :
    parseMessage jsonParse ex msg b = some b' ↔
      caught (reading (D := D) jsonParse ex msg).fault ∧
        b' = (reading jsonParse ex msg).apply b := by
  rw [parseMessage_eq]
  by_cases h : caught (reading (D := D) jsonParse ex msg).fault <;> simp [h, eq_comm]

theorem parseMessages_append {ex : Exchange} (pre post : List String) (b : Books D) :
    parseMessages jsonParse ex (pre ++ post) b =
      (parseMessages jsonParse ex pre b).bind (parseMessages jsonParse ex post) := by
  simp only [parseMessages, List.foldlM_append]
  rfl

end AsioAggregator
