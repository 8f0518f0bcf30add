import AsioAggregator.Books

/-!
# The message parsers

`parseMessage` of each connector as the source has it: the body works on the local books and may
end by an exception at any access, in which case what it did to the books before stays. The catch
block swallows the exception. A body that makes an undefined access has no result.
-/

namespace AsioAggregator

/-- The connectors of the repository. Aggregator::start builds all of them but `bitget`. -/
inductive Exchange where
  | binance
  | okx
  | bitget
  | bybit
deriving DecidableEq, Repr

/-- Code that changes the local books and may end early, keeping the changes made so far. -/
abbrev ParseM (D : Type) [LinearOrder D] := EStateM Fault (Books D)

def ended {D α : Type} [LinearOrder D] (x : Except Fault α) (b : Books D) :
    EStateM.Result Fault (Books D) α :=
  match x with
  | .ok a => .ok a b
  | .error f => .error f b

instance {D : Type} [LinearOrder D] : MonadLift (Except Fault) (ParseM D) where
  monadLift x := ended x

variable {D : Type} [LinearOrder D] [Zero D] [OfNumeral D]
variable (jsonParse : String → Except StdException Json)

def parseJson (msg : String) : Except Fault Json := (jsonParse msg).mapError .exception

def clearBooks : ParseM D Unit := set (Books.empty : Books D)

/-- The body of the Binance, OKX and Bitget loops over bids. -/
def storeBid (bid : Json) : ParseM D Unit := do
  let (price, qty) ← readLevel bid
  modify (Books.setBid price qty)

def storeAsk (ask : Json) : ParseM D Unit := do
  let (price, qty) ← readLevel ask
  modify (Books.setAsk price qty)

def binanceBody (msg : String) : ParseM D Unit := do
  let j ← parseJson jsonParse msg
  if j.contains "lastUpdateId" then
    clearBooks
    (← j.subscript "bids").elements.forM storeBid
    (← j.subscript "asks").elements.forM storeAsk

def okxBody (msg : String) : ParseM D Unit := do
  let j ← parseJson jsonParse msg
  if j.memberIs "event" "subscribe" then return
  if j.contains "data" then
    let data ← (← j.subscript "data").index 0
    clearBooks
    (← data.subscript "bids").elements.forM storeBid
    (← data.subscript "asks").elements.forM storeAsk

def bitgetBody (msg : String) : ParseM D Unit := do
  let j ← parseJson jsonParse msg
  if j.memberIs "op" "subscribe" then return
  if j.memberIs "action" "snapshot" then
    let data ← (← j.subscript "data").index 0
    clearBooks
    (← data.subscript "bids").elements.forM storeBid
    (← data.subscript "asks").elements.forM storeAsk

/-- The body of the Bybit snapshot loop over bids: only positive quantities are kept. -/
def storePositiveBid (level : Json) : ParseM D Unit := do
  let (price, qty) ← readLevel level
  if qty > 0 then modify (Books.setBid price qty)

def storePositiveAsk (level : Json) : ParseM D Unit := do
  let (price, qty) ← readLevel level
  if qty > 0 then modify (Books.setAsk price qty)

/-- The body of the Bybit delta loop over bids: quantity zero erases the price. -/
def updateBid (level : Json) : ParseM D Unit := do
  let (price, qty) ← readLevel level
  if qty = 0 then modify (Books.eraseBid price) else modify (Books.setBid price qty)

def updateAsk (level : Json) : ParseM D Unit := do
  let (price, qty) ← readLevel level
  if qty = 0 then modify (Books.eraseAsk price) else modify (Books.setAsk price qty)

def bybitBody (msg : String) : ParseM D Unit := do
  let j ← parseJson jsonParse msg
  if j.memberIs "op" "subscribe" then return
  if j.memberIs "op" "pong" then return
  if !j.memberIs "topic" "orderbook.50.BTCUSDT" then return
  let data ← j.subscript "data"
  if !data.isObject then return
  if j.memberIs "type" "snapshot" then
    clearBooks
    (← data.constSubscript "b").elements.forM storePositiveBid
    (← data.constSubscript "a").elements.forM storePositiveAsk
  else if j.memberIs "type" "delta" then
    if data.contains "b" then
      (← data.constSubscript "b").elements.forM updateBid
    if data.contains "a" then
      (← data.constSubscript "a").elements.forM updateAsk

def parseBody : Exchange → String → ParseM D Unit
  | .binance => binanceBody jsonParse
  | .okx => okxBody jsonParse
  | .bitget => bitgetBody jsonParse
  | .bybit => bybitBody jsonParse

/-- What the catch block makes of the end of a body. -/
def afterCatch : EStateM.Result Fault (Books D) Unit → Option (Books D)
  | .ok _ books => some books
  | .error (.exception _) books => some books
  | .error _ _ => none

/-- `parse_message`: the books after the catch block, or none after an undefined access. -/
def parseMessage (ex : Exchange) (msg : String) (books : Books D) : Option (Books D) :=
  afterCatch ((parseBody jsonParse ex msg).run books)

def parseMessages (ex : Exchange) (msgs : List String) (books : Books D) : Option (Books D) :=
  msgs.foldlM (fun books msg => parseMessage jsonParse ex msg books) books

end AsioAggregator
