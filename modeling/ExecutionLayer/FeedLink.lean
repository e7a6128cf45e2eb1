import ExecutionLayer.CoinbaseTasks
import ExecutionLayer.Engine
import ExecutionLayer.Publisher

/-!
# From the watch list to the exchange

A symbol that is added in the terminal passes four hands: the engine thread
leaves it in `MarketStore::requested_`, the `FeedServer` thread drains it into
the reply to a poll, the socket carries the reply, and the control loop of the
feedhandler subscribes to it.

The state below has the engine, the handler and the connections between them,
and a step is one of the engine, of the server, of the feedhandler's socket,
of the handler's tasks, or a break of a connection.  `query_requested` blocks
the event loop, so no task and no publish path runs while it waits.  A socket
carries JSON values in place of their lines.

`Held` says where a request may be, and `Loses` which steps lose it: the list
is drained on read and nothing is acknowledged.
-/

namespace ExecutionLayer

open JsonLib JsonLib.Json StepSystem

/-- A connection, with the lines that the server has not read and the replies
that the feedhandler has not read. -/
structure Conn where
  live : Bool := true
  up : List Json := []
  down : List Json := []

/-- What the publish paths write. -/
inductive Publication where
  | trades (rows : List FeedTrade)
  | history (symbol : String) (points : List (ℚ × Int))
  | quotes (rows : List FeedQuote)
  | products (ids : List String)
  | universeSyms (ids : List String)
  | names (map : List (String × String))

def Publication.msg : Publication → Json
  | .trades rows => FeedPublisher.tradesMsg rows
  | .history symbol points => FeedPublisher.historyMsg symbol points
  | .quotes rows => FeedPublisher.quotesMsg rows
  | .products ids => FeedPublisher.productsMsg ids
  | .universeSyms ids => FeedPublisher.universeMsg ids
  | .names map => FeedPublisher.namesMsg map

/-- Terminal and feedhandler.  Connections are named by their index; `client`
is the feedhandler's socket, `waiting` the one it waits on for a reply. -/
structure FeedLink where
  engine : TradingEngine
  handler : CoinbaseHandler
  conns : List Conn := []
  backlog : List Nat := []
  serving : Option Nat := none
  client : Option Nat := none
  waiting : Option Nat := none

inductive LinkStep where
  /-- a step of the engine thread -/
  | engine (a : EngineStep)
  /-- `connect` finds the terminal listening -/
  | connect
  /-- a publish path, or a write of the resync -/
  | publish (p : Publication)
  /-- `_drop` after a failed write -/
  | drop
  /-- `query_requested` up to its wait -/
  | sendPoll
  /-- `query_requested` from the reply on -/
  | recvReply
  /-- the wait ends in a timeout, an error or a close -/
  | recvFailed
  /-- a task of the handler goes on from another await -/
  | task (a : TaskStep)
  /-- the connection breaks -/
  | broken (k : Nat)
  /-- the server accepts a connection -/
  | accept
  /-- the server handles the next line -/
  | handleLine
  /-- `serve` returns -/
  | served

/-- A closed connection delivers nothing any more. -/
def Conn.close (conn : Conn) : Conn :=
  { conn with live := false, down := [] }

/-- A line is handled, and its reply written if anyone is there. -/
def Conn.answer (reply : Option Json) (conn : Conn) : Conn :=
  { conn with
    up := conn.up.tail
    down :=
      if conn.live then conn.down ++ reply.toList else conn.down }

namespace FeedLink

def start (symbols : List String) (capital : ℚ) (limits : RiskLimits)
    (stocks : StockFeed) (bootSymbols : List String) : FeedLink where
  engine := .start symbols capital limits stocks
  handler := .booting bootSymbols

/-! ### The engine thread -/

/-- The store is written by the other steps here. -/
def stepEngine (L : FeedLink) : EngineStep → Option FeedLink
  | .feeds _ _ => none
  | a => some { L with engine := L.engine.step a }

/-! ### The feedhandler -/

def connect (L : FeedLink) : Option FeedLink := do
  guard (L.client = none ∧ L.waiting = none)
  return { L with
    conns := L.conns ++ [{}]
    backlog := L.backlog ++ [L.conns.length]
    client := some L.conns.length }

def write (L : FeedLink) (k : Nat) (msg : Json) : FeedLink :=
  { L with
    conns := L.conns.modify k fun conn =>
      { conn with up := conn.up ++ [msg] } }

def close (L : FeedLink) (k : Nat) : FeedLink :=
  { L with conns := L.conns.modify k Conn.close }

def publish (L : FeedLink) (p : Publication) : Option FeedLink := do
  let k ← L.client
  guard (L.waiting = none)
  return L.write k p.msg

def drop (L : FeedLink) : Option FeedLink := do
  let k ← L.client
  guard (L.waiting = none)
  return { L.close k with client := none }

def sendPoll (L : FeedLink) : Option FeedLink := do
  let k ← L.client
  guard (L.waiting = none ∧ L.handler.control = .idle)
  return { L.write k FeedPublisher.pollMsg with waiting := some k }

/-- The reply is read, and the control loop goes on with its lists. -/
def recvReply (str : Json → String) (L : FeedLink) : Option FeedLink := do
  let k ← L.waiting
  let conn ← L.conns[k]?
  let reply ← conn.down.head?
  let (syms, hist) ←
    (FeedPublisher.repliedLists str (some reply)).toOption
  let handler ← L.handler.step (.poll syms hist)
  return { L with
    handler := handler
    conns := L.conns.modify k fun conn =>
      { conn with down := conn.down.tail }
    waiting := none }

/-- The control loop goes on with empty lists. -/
def recvFailed (L : FeedLink) : Option FeedLink := do
  let k ← L.waiting
  let handler ← L.handler.step (.poll [] [])
  return { L.close k with
    handler := handler
    client := none
    waiting := none }

def stepTask (L : FeedLink) : TaskStep → Option FeedLink
  | .poll _ _ => none
  | a => do
      guard (L.waiting = none)
      let handler ← L.handler.step a
      return { L with handler := handler }

/-! ### The server thread -/

def setStore (L : FeedLink) (store : MarketStore) : FeedLink :=
  { L with engine := { L.engine with store := store } }

def accept (L : FeedLink) : Option FeedLink := do
  guard (L.serving = none)
  let k ← L.backlog.head?
  return { L.setStore (L.engine.store.setFeedAttached true) with
    backlog := L.backlog.tail
    serving := some k }

/-- An exception ends the process. -/
def handleLine (L : FeedLink) : Option FeedLink := do
  let k ← L.serving
  let conn ← L.conns[k]?
  let line ← conn.up.head?
  match FeedServer.handleParsed (some line) L.engine.store with
  | (.error _, _) => none
  | (.ok reply, store) =>
      return { L.setStore store with
        conns := L.conns.modify k (Conn.answer reply) }

def served (L : FeedLink) : Option FeedLink := do
  let _ ← L.serving
  return { L.setStore (L.engine.store.setFeedAttached false) with
    serving := none }

def step (str : Json → String) (L : FeedLink) :
    LinkStep → Option FeedLink
  | .engine a => L.stepEngine a
  | .connect => L.connect
  | .publish p => L.publish p
  | .drop => L.drop
  | .sendPoll => L.sendPoll
  | .recvReply => L.recvReply str
  | .recvFailed => L.recvFailed
  | .task a => L.stepTask a
  | .broken k => some (L.close k)
  | .accept => L.accept
  | .handleLine => L.handleLine
  | .served => L.served

end FeedLink

/-! ### Who holds a request -/

/-- The batch that the control loop is subscribing to. -/
def ControlTask.batch : ControlTask → List String
  | .sending _ new _ => new
  | .sent _ new _ => new
  | _ => []

/-- The symbol is in the control loop's hands or in `_subscribed`. -/
def CoinbaseHandler.Wants (h : CoinbaseHandler) (s : String) : Prop :=
  s ∈ h.control.batch ∨ s ∈ h.subscribed

instance (h : CoinbaseHandler) (s : String) : Decidable (h.Wants s) := by
  unfold CoinbaseHandler.Wants
  infer_instance

/-- The symbols that the handler drops with a step: the subscribe call raises,
or the catalog fetched at boot does not have them. -/
def CoinbaseHandler.dropped (h : CoinbaseHandler) : TaskStep → List String
  | .controlRaised => h.control.batch
  | .catalogFetched ids =>
      h.subscribed.filter fun s => s ∉ bootSymbols ids h.subscribed
  | _ => []

/-- The line is a poll. -/
def isPoll : Json → Bool
  | .object msg =>
      match find msg "m" with
      | some (.string m) => m = "poll"
      | _ => false
  | _ => false

section Holders

variable (str : Json → String)

/-- The symbols that a reply asks to subscribe to. -/
def repliedSyms (reply : Json) : List String :=
  match FeedPublisher.repliedLists str (some reply) with
  | .ok (syms, _) => syms
  | .error _ => []

/-- The symbol is in a reply in flight on the live connection. -/
def Conn.Carries (conn : Conn) (s : String) : Prop :=
  conn.live = true ∧ ∃ reply ∈ conn.down, s ∈ repliedSyms str reply

instance (conn : Conn) (s : String) : Decidable (conn.Carries str s) := by
  unfold Conn.Carries
  infer_instance

namespace FeedLink

/-- The symbol is pending in the store, in flight, or with the handler. -/
def Held (L : FeedLink) (s : String) : Prop :=
  s ∈ L.engine.store.requested ∨
    (∃ conn ∈ L.conns, conn.Carries str s) ∨ L.handler.Wants s

instance (L : FeedLink) (s : String) : Decidable (L.Held str s) := by
  unfold Held
  infer_instance

/-- The symbol is in flight on connection `k`. -/
def CarriedOn (L : FeedLink) (k : Nat) (s : String) : Prop :=
  ∃ conn ∈ L.conns[k]?, conn.Carries str s

instance (L : FeedLink) (k : Nat) (s : String) :
    Decidable (L.CarriedOn str k s) := by
  unfold CarriedOn
  infer_instance

/-- The steps that lose a request: a connection goes down with the reply, the
reply is written to a connection that is down already, or the handler drops
the symbol. -/
def Loses (s : String) (L : FeedLink) : LinkStep → Prop
  | .drop => ∃ k ∈ L.client, L.CarriedOn str k s
  | .recvFailed => ∃ k ∈ L.waiting, L.CarriedOn str k s
  | .broken k => L.CarriedOn str k s
  | .handleLine =>
      ∃ k ∈ L.serving, ∃ conn ∈ L.conns[k]?, ∃ line ∈ conn.up.head?,
        conn.live = false ∧ isPoll line = true ∧
          s ∈ L.engine.store.requested
  | .task a => s ∈ L.handler.dropped a
  | _ => False

instance (s : String) (L : FeedLink) (a : LinkStep) :
    Decidable (L.Loses str s a) := by
  unfold Loses
  split <;> infer_instance

end FeedLink

end Holders

end ExecutionLayer
