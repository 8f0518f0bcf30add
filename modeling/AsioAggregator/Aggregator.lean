import AsioAggregator.Readings
import AsioAggregator.Library.Runs

/-!
# The aggregator and its subscribers

The program as one machine. The thread of the `io_context` either hands a message to a connector or
runs the oldest task of the strand; the gRPC threads run the loops of `SubscribeBook`, which post
their snapshots to the same strand and block until these have run. The events choose what happens
next, so that a list of events is an interleaving of all threads.
-/

namespace AsioAggregator

open Std

variable {D : Type} [LinearOrder D]

/-- A connector as the aggregator sees it. -/
structure Feed (D : Type) [LinearOrder D] where
  exchange : Exchange
  localBooks : Books D

section Consolidation
variable [Zero D] [Add D]

/-- `consolidated[price] += qty` for every level of one side; a new price starts from zero. -/
def addLevels {cmp : D → D → Ordering} [TransCmp cmp] (acc side : ExtTreeMap D D cmp) :
    ExtTreeMap D D cmp :=
  side.toList.foldl (fun acc level => acc.alter level.1 fun q => some (q.getD 0 + level.2)) acc

def addBooks (acc : Books D) (c : Feed D) : Books D :=
  ⟨addLevels acc.bids c.localBooks.bids, addLevels acc.asks c.localBooks.asks⟩

def consolidate (connectors : List (Feed D)) : Books D := connectors.foldl addBooks Books.empty

end Consolidation

structure Level (D : Type) where
  price : D
  quantity : D
deriving DecidableEq

structure BookUpdate (D : Type) where
  timestampMs : ℤ
  bids : List (Level D)
  asks : List (Level D)
deriving DecidableEq

def maxDepth : ℕ := 5000

/-- The loop that copies levels until `count++ >= MAX_DEPTH`. -/
def copyLevels (count : ℕ) : List (D × D) → List (Level D)
  | [] => []
  | (price, qty) :: rest =>
    if count ≥ maxDepth then [] else ⟨price, qty⟩ :: copyLevels (count + 1) rest

def buildBookUpdate (now : ℤ) (consolidated : Books D) : BookUpdate D where
  timestampMs := now
  bids := copyLevels 0 consolidated.bids.toList
  asks := copyLevels 0 consolidated.asks.toList

inductive Task where
  | update (connector : ℕ)
  | snapshot (subscriber : ℕ)
deriving DecidableEq

/-- Where a `SubscribeBook` loop stands: before its next poll, blocked on the future, with the
result of the future in hand, or returned. -/
inductive Phase (D : Type) where
  | polling
  | waiting
  | received (update : BookUpdate D) (version : UInt64)
  | returned
deriving DecidableEq

structure Subscriber (D : Type) where
  lastSeenVersion : UInt64
  phase : Phase D
  written : List (UInt64 × BookUpdate D)
deriving DecidableEq

def Subscriber.new : Subscriber D := ⟨0, .polling, []⟩

/-- The loop body after `fut.get()`: a newer version is written, and a failed write ends the loop;
otherwise the thread sleeps before it polls again. -/
def Subscriber.consume (sub : Subscriber D) (update : BookUpdate D) (version : UInt64)
    (writeOk : Bool) : Subscriber D :=
  if sub.lastSeenVersion < version then
    if writeOk then ⟨version, .polling, sub.written ++ [(version, update)]⟩
    else ⟨version, .returned, sub.written⟩
  else { sub with phase := .polling }

structure Server (D : Type) [LinearOrder D] where
  connectors : List (Feed D)
  consolidated : Books D
  version : UInt64
  strand : List Task
  subscribers : List (Subscriber D)

namespace Server

def initial (exchanges : List Exchange) : Server D where
  connectors := exchanges.map fun ex => ⟨ex, Books.empty⟩
  consolidated := Books.empty
  version := 0
  strand := []
  subscribers := []

def post (s : Server D) (task : Task) : Server D := { s with strand := s.strand ++ [task] }

def onBookUpdated (s : Server D) (connector : ℕ) : Server D := s.post (.update connector)

def updateConsolidatedBook [Zero D] [Add D] (s : Server D) : Server D :=
  { s with consolidated := consolidate s.connectors, version := s.version + 1 }

/-- `handle_message`: parses, and notifies the aggregator whatever the parser did. -/
def handleMessage [Zero D] [OfNumeral D] (jsonParse : String → Except StdException Json)
    (s : Server D) (i : ℕ) (msg : String) : Option (Server D) := do
  let c ← s.connectors[i]?
  let books ← parseMessage jsonParse c.exchange msg c.localBooks
  return { s with connectors := s.connectors.set i ⟨c.exchange, books⟩ }.onBookUpdated i

def runStrand [Zero D] [Add D] (s : Server D) (now : ℤ) : Option (Server D) :=
  match s.strand with
  | [] => none
  | .update _ :: rest => some { s with strand := rest }.updateConsolidatedBook
  | .snapshot j :: rest => some { s with
      strand := rest
      subscribers := s.subscribers.modify j fun sub =>
        { sub with phase := .received (buildBookUpdate now s.consolidated) s.version } }

/-- The head of the loop: the call returns when it is cancelled, else it posts its snapshot. -/
def poll (s : Server D) (j : ℕ) (cancelled : Bool) : Option (Server D) := do
  let sub ← s.subscribers[j]?
  match sub.phase with
  | .polling =>
    if cancelled then
      return { s with subscribers := s.subscribers.set j { sub with phase := .returned } }
    else
      return { s with
        subscribers := s.subscribers.set j { sub with phase := .waiting } }.post (.snapshot j)
  | _ => none

/-- The rest of the loop, once the future has its value. -/
def resume (s : Server D) (j : ℕ) (writeOk : Bool) : Option (Server D) := do
  let sub ← s.subscribers[j]?
  match sub.phase with
  | .received update version =>
    return { s with subscribers := s.subscribers.set j (sub.consume update version writeOk) }
  | _ => none

end Server

inductive ServerEvent where
  | deliver (connector : ℕ) (msg : String)
  | runStrand (now : ℤ)
  | subscribe
  | poll (subscriber : ℕ) (cancelled : Bool)
  | resume (subscriber : ℕ) (writeOk : Bool)
deriving DecidableEq

def Server.step [Zero D] [Add D] [OfNumeral D] (jsonParse : String → Except StdException Json)
    (s : Server D) : ServerEvent → Option (Server D)
  | .deliver i msg => s.handleMessage jsonParse i msg
  | .runStrand now => s.runStrand now
  | .subscribe => some { s with subscribers := s.subscribers ++ [Subscriber.new] }
  | .poll j cancelled => s.poll j cancelled
  | .resume j writeOk => s.resume j writeOk

section Steps
variable [Zero D] [Add D] [OfNumeral D] {jsonParse : String → Except StdException Json}
variable {s s' : Server D}

theorem step_deliver {i : ℕ} {msg : String} :
    s.step jsonParse (.deliver i msg) = some s' ↔
      ∃ c books, s.connectors[i]? = some c ∧
        parseMessage jsonParse c.exchange msg c.localBooks = some books ∧
        s' = { s with
          connectors := s.connectors.set i ⟨c.exchange, books⟩
          strand := s.strand ++ [.update i] } := by
  simp only [Server.step, Server.handleMessage, Server.onBookUpdated, Server.post,
    Option.bind_eq_bind, Option.bind_eq_some_iff, Option.pure_def, Option.some.injEq]
  constructor
  · rintro ⟨c, hc, books, hbooks, rfl⟩
    exact ⟨c, books, hc, hbooks, rfl⟩
  · rintro ⟨c, books, hc, hbooks, rfl⟩
    exact ⟨c, hc, books, hbooks, rfl⟩

theorem step_runStrand {now : ℤ} :
    s.step jsonParse (.runStrand now) = some s' ↔
      (∃ i rest, s.strand = .update i :: rest ∧ s' = { s with
        consolidated := consolidate s.connectors
        version := s.version + 1
        strand := rest }) ∨
      ∃ j rest, s.strand = .snapshot j :: rest ∧ s' = { s with
        strand := rest
        subscribers := s.subscribers.modify j fun sub =>
          { sub with phase := .received (buildBookUpdate now s.consolidated) s.version } } := by
  simp only [Server.step, Server.runStrand]
  cases hs : s.strand with
  | nil => simp
  | cons task rest => cases task <;> simp [Server.updateConsolidatedBook, eq_comm]

theorem step_poll {j : ℕ} {cancelled : Bool} :
    s.step jsonParse (.poll j cancelled) = some s' ↔
      ∃ sub, s.subscribers[j]? = some sub ∧ sub.phase = .polling ∧
        s' = if cancelled then { s with
          subscribers := s.subscribers.set j { sub with phase := .returned } }
        else { s with
          subscribers := s.subscribers.set j { sub with phase := .waiting }
          strand := s.strand ++ [.snapshot j] } := by
  simp only [Server.step, Server.poll, Option.bind_eq_bind, Option.bind_eq_some_iff]
  refine exists_congr fun sub => and_congr_right fun _ => ?_
  cases hp : sub.phase <;> cases cancelled <;> simp [Server.post, eq_comm]

theorem step_resume {j : ℕ} {writeOk : Bool} :
    s.step jsonParse (.resume j writeOk) = some s' ↔
      ∃ sub update version, s.subscribers[j]? = some sub ∧
        sub.phase = .received update version ∧
        s' = { s with
          subscribers := s.subscribers.set j (sub.consume update version writeOk) } := by
  simp only [Server.step, Server.resume, Option.bind_eq_bind, Option.bind_eq_some_iff]
  constructor
  · rintro ⟨sub, hsub, h⟩
    cases hp : sub.phase with
    | received update version =>
      simp only [hp, Option.pure_def, Option.some.injEq] at h
      exact ⟨sub, update, version, hsub, hp, h.symm⟩
    | _ => simp [hp] at h
  · rintro ⟨sub, update, version, hsub, hp, rfl⟩
    exact ⟨sub, hsub, by simp [hp]⟩

theorem step_subscribe :
    s.step jsonParse .subscribe = some s' ↔
      s' = { s with subscribers := s.subscribers ++ [Subscriber.new] } := by
  simp only [Server.step, Option.some.injEq, eq_comm]

end Steps
end AsioAggregator
