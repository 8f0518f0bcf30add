import AsioAggregator.Backoff
import AsioAggregator.Readings
import AsioAggregator.Library.Runs

/-!
# The life of a connector

One `market_connector` as a machine. Its asynchronous operations are pending until the environment
completes them, at any time, in any order and with any outcome; each of them carries the number of
the `start()` call that it goes back to. A cancelled wait completes with `operation_aborted`, unless
it had expired before it was cancelled.
-/

namespace AsioAggregator

open Runs

inductive ErrorCode where
  | connectionReset
  | connectionAborted
  | eof
  | timedOut
  | operationAborted
  | websocketClosed
  | sslStream (value : ℤ)
  | ssl (value : ℤ)
  | other (value : ℤ)
deriving DecidableEq

def shouldReconnect : ErrorCode → Bool
  | .connectionReset | .connectionAborted | .eof | .timedOut | .operationAborted
  | .websocketClosed | .sslStream _ => true
  | .ssl _ | .other _ => false

def maxRetry : ℕ := 10

inductive Timer where
  | handshake
  | ping
  | reconnect
deriving DecidableEq

/-- The asynchronous operations; `ping` is the control frame, `jsonPing` the text. -/
inductive Operation where
  | resolve
  | connect
  | sslHandshake
  | wsHandshake
  | write
  | read
  | ping
  | jsonPing
  | close
  | wait (timer : Timer) (delayMs : ℤ)
deriving DecidableEq

/-- A wait may have expired or been cancelled before its handler runs. -/
inductive Status where
  | outstanding
  | expired
  | cancelled
deriving DecidableEq

structure Pending where
  operation : Operation
  attempt : ℕ
  status : Status
deriving DecidableEq

namespace Pending

/-- `cancel()` on a timer, which has no effect on a wait that expired before. -/
def cancel (timer : Timer) (p : Pending) : Pending :=
  match p.operation, p.status with
  | .wait timer' _, .outstanding => if timer' = timer then { p with status := .cancelled } else p
  | _, _ => p

def mayEndWith (p : Pending) (ec : Option ErrorCode) : Bool :=
  match p.status with
  | .outstanding => true
  | .expired => ec = none
  | .cancelled => ec = some .operationAborted

end Pending

/-- What the environment decides when an operation ends: the error code, the text in the buffer,
the error of `SSL_set_tlsext_host_name` and the random factor. -/
structure Outcome where
  ec : Option ErrorCode
  msg : String
  hostNameError : Option ℤ
  jitter : Jitter

def Outcome.error (ec : ErrorCode) : Outcome := ⟨some ec, "", none, .unit⟩

def Outcome.success (msg : String) : Outcome := ⟨none, msg, none, .unit⟩

def subscriptionMessage : Exchange → String
  | .binance => ""
  | .okx => "\x7b\n        \"op\":\"subscribe\",\n        \"args\":[\x7b\"channel\":\"books5\"," ++
      "\"instId\":\"BTC-USDT\"\x7d]\n    \x7d"
  | .bitget => "\x7b\n        \"op\":\"subscribe\",\n        \"args\":[\x7b" ++
      "\"instType\":\"SPOT\",\"channel\":\"books50\",\"instId\":\"BTCUSDT\"\x7d]\n    \x7d"
  | .bybit => "\x7b\n        \"op\": \"subscribe\",\n" ++
      "        \"args\": [\"orderbook.50.BTCUSDT\"]\n    \x7d"

def finds (msg text : String) : Bool := text.toList <:+: msg.toList

def isPong (msg : String) : Bool :=
  finds msg "pong" || finds msg "\"event\":\"pong\"" || finds msg "\"op\":\"pong\"" ||
    msg = "pong" || msg = "\x7b\"pong\":true\x7d"

def pingOperation : Exchange → Operation
  | .binance => .ping
  | .okx | .bybit | .bitget => .jsonPing

/-- The state of a `market_connector`, with the number of `start()` calls so far. -/
structure Connector (D : Type) [LinearOrder D] where
  exchange : Exchange
  stopped : Bool
  retryCount : ℕ
  localBooks : Books D
  attempt : ℕ
  pending : List Pending

namespace Connector
variable {D : Type} [LinearOrder D]

def initiate (c : Connector D) (a : ℕ) (op : Operation) : Connector D :=
  { c with pending := c.pending ++ [⟨op, a, .outstanding⟩] }

def cancel (c : Connector D) (timer : Timer) : Connector D :=
  { c with pending := c.pending.map (Pending.cancel timer) }

def remove (c : Connector D) (k : ℕ) : Connector D := { c with pending := c.pending.eraseIdx k }

/-- `expires_after`, which cancels the waits on the timer, and `async_wait`. -/
def arm (c : Connector D) (a : ℕ) (timer : Timer) (delayMs : ℤ) : Connector D :=
  (c.cancel timer).initiate a (.wait timer delayMs)

def start (c : Connector D) : Connector D :=
  ((({ c with stopped := false, attempt := c.attempt + 1 }.cancel .handshake).cancel
    .reconnect).cancel .ping).initiate (c.attempt + 1) .resolve

/-- `fail`, called by a handler of the attempt `a`. Without a result, a conversion to `int` was
out of range. -/
def fail (c : Connector D) (a : ℕ) (ec : ErrorCode) (jitter : Jitter) : Option (Connector D) :=
  if c.stopped then some c
  else
    let c := ({ c with stopped := true }.cancel .handshake).cancel .ping
    if !shouldReconnect ec then some c
    else
      let c := { c with retryCount := c.retryCount + 1 }
      if c.retryCount > maxRetry then some c
      else (reconnectDelay c.retryCount jitter).map (c.arm a .reconnect)

def onResolve (c : Connector D) (a : ℕ) (o : Outcome) : Option (Connector D) :=
  match o.ec with
  | some ec => c.fail a ec o.jitter
  | none => some (c.initiate a .connect)

def onConnect (c : Connector D) (a : ℕ) (o : Outcome) : Option (Connector D) :=
  match o.ec with
  | some ec => c.fail a ec o.jitter
  | none =>
    match o.hostNameError with
    | some value => c.fail a (.ssl value) o.jitter
    | none => some (c.initiate a .sslHandshake)

def onSslHandshake (c : Connector D) (a : ℕ) (o : Outcome) : Option (Connector D) :=
  match o.ec with
  | some ec => c.fail a ec o.jitter
  | none => some ((c.arm a .handshake 10000).initiate a .wsHandshake)

def onHandshakeTimer (c : Connector D) (a : ℕ) (o : Outcome) : Option (Connector D) :=
  if o.ec ≠ some .operationAborted then c.fail a .timedOut o.jitter else some c

def doRead (c : Connector D) (a : ℕ) : Connector D := c.initiate a .read

def doPing (c : Connector D) (a : ℕ) : Connector D :=
  if c.stopped then c else c.arm a .ping 17000

def onWsHandshake (c : Connector D) (a : ℕ) (o : Outcome) : Option (Connector D) :=
  let c := c.cancel .handshake
  match o.ec with
  | some ec => c.fail a ec o.jitter
  | none =>
    let c := if subscriptionMessage c.exchange ≠ "" then c.initiate a .write else c.doRead a
    some (c.doPing a)

def onWrite (c : Connector D) (a : ℕ) (o : Outcome) : Option (Connector D) :=
  match o.ec with
  | some ec => c.fail a ec o.jitter
  | none => some (c.doRead a)

def handleMessage [Zero D] [OfNumeral D] (jsonParse : String → Except StdException Json)
    (c : Connector D) (msg : String) : Option (Connector D) :=
  (parseMessage jsonParse c.exchange msg c.localBooks).map fun b => { c with localBooks := b }

def onRead [Zero D] [OfNumeral D] (jsonParse : String → Except StdException Json)
    (c : Connector D) (a : ℕ) (o : Outcome) : Option (Connector D) :=
  match o.ec with
  | some ec => c.fail a ec o.jitter
  | none =>
    if isPong o.msg then some (c.doRead a)
    else (c.handleMessage jsonParse o.msg).map fun c => c.doRead a

def onPingTimer (c : Connector D) (a : ℕ) (o : Outcome) : Connector D :=
  if c.stopped || o.ec.isSome then c.initiate a .close
  else c.initiate a (pingOperation c.exchange)

def onPing (c : Connector D) (a : ℕ) (o : Outcome) : Option (Connector D) :=
  match o.ec with
  | some ec => c.fail a ec o.jitter
  | none => some (c.doPing a)

def onReconnectTimer (c : Connector D) (o : Outcome) : Connector D :=
  if o.ec.isSome then c else c.start

def handle [Zero D] [OfNumeral D] (jsonParse : String → Except StdException Json)
    (c : Connector D) (a : ℕ) (o : Outcome) : Operation → Option (Connector D)
  | .resolve => c.onResolve a o
  | .connect => c.onConnect a o
  | .sslHandshake => c.onSslHandshake a o
  | .wsHandshake => c.onWsHandshake a o
  | .write => c.onWrite a o
  | .read => c.onRead jsonParse a o
  | .ping | .jsonPing => c.onPing a o
  | .close => some c
  | .wait .handshake _ => c.onHandshakeTimer a o
  | .wait .ping _ => some (c.onPingTimer a o)
  | .wait .reconnect _ => some (c.onReconnectTimer o)

/-- The state after `Aggregator::start` has called `start()`. -/
def initial (exchange : Exchange) : Connector D :=
  start ⟨exchange, false, 0, Books.empty, 0, []⟩

end Connector

inductive ConnectorEvent where
  | expire (k : ℕ)
  | complete (k : ℕ) (o : Outcome)

def Pending.expire (p : Pending) : Option Pending :=
  match p.operation, p.status with
  | .wait _ _, .outstanding => some { p with status := .expired }
  | _, _ => none

def Connector.step {D : Type} [LinearOrder D] [Zero D] [OfNumeral D]
    (jsonParse : String → Except StdException Json) (c : Connector D) :
    ConnectorEvent → Option (Connector D)
  | .expire k => do
    let p ← c.pending[k]?
    let p' ← p.expire
    return { c with pending := c.pending.set k p' }
  | .complete k o => do
    let p ← c.pending[k]?
    if p.mayEndWith o.ec then (c.remove k).handle jsonParse p.attempt o p.operation else none

end AsioAggregator
