import ExecutionLayer.Desk
import ExecutionLayer.WireFormat

/-!
# The poll and its reply on the wire

`query_requested` writes a poll and waits for one line.  The reply comes in
pieces of any size, the wait may end in a timeout, an error or a close, and
after each of these the next poll goes out on a new connection.  Nothing on
the wire says which poll a reply belongs to.

The state has the engine with its store, the connections with the bytes that
the server has sent, and the feedhandler's receive buffer.  Lines towards the
terminal are kept whole: how the server cuts its stream into lines is the
matter of `serve`.  A step is one of the desk's other threads, of the
server's thread, of the feedhandler, or a break of a connection.  The server
drains its two lists one after the other, and the other threads may take
steps in between.

Polls are numbered, and four records say what happened: `polls` counts them,
`drained` has the lists that the server took for each, `returned` what
`query_requested` returned, and `added` the symbols that the user added, in
that order.
-/

namespace ExecutionLayer

open JsonLib StepSystem

/-- The JSON libraries of both sides: the terminal parses and dumps with the
first two, the feedhandler loads and dumps with the last two. -/
structure Codecs where
  parse : List UInt8 → Option Json
  dump : Json → List UInt8
  py : FeedPublisher.PyJson
  dumps : Json → List UInt8

/-- A line towards the terminal; the number of a poll is not on the wire. -/
inductive UpLine where
  | poll (n : Nat)
  | publication (p : Publication)

def UpLine.msg : UpLine → Json
  | .poll _ => FeedPublisher.pollMsg
  | .publication p => p.msg

def UpLine.pollNo : UpLine → Option Nat
  | .poll n => some n
  | .publication _ => none

/-- The two lists that were drained for a poll. -/
structure PollLists where
  poll : Nat
  syms : List String
  hist : List String
deriving DecidableEq, Repr

/-- What a call of `query_requested` returned: the lists of a reply, or the
empty lists of a poll that failed. -/
inductive Returned where
  | reply (d : PollLists)
  | failed (n : Nat)
deriving DecidableEq, Repr

namespace Returned

/-- The returned pair. -/
def lists : Returned → List String × List String
  | .reply d => (d.syms, d.hist)
  | .failed _ => ([], [])

/-- The number of the poll. -/
def poll : Returned → Nat
  | .reply d => d.poll
  | .failed n => n

/-- The lists, if they come from a reply. -/
def fromReply : Returned → Option PollLists
  | .reply d => some d
  | .failed _ => none

end Returned

/-- A connection: the lines that the server has not handled, and the bytes
that the feedhandler has not received. -/
structure Wire where
  live : Bool := true
  up : List UpLine := []
  down : List UInt8 := []

namespace Wire

def write (w : Wire) (line : UpLine) : Wire :=
  { w with up := w.up ++ [line] }

/-- The feedhandler closes its end. -/
def close (w : Wire) : Wire :=
  { w with live := false, down := [] }

/-- The connection breaks, and of the bytes in flight `m` still arrive. -/
def broken (m : Nat) (w : Wire) : Wire :=
  { w with live := false, down := w.down.take m }

/-- The first line is handled, and the answer sent if anyone is there. -/
def answer (bytes : List UInt8) (w : Wire) : Wire :=
  { w with
    up := w.up.tail
    down := if w.live then w.down ++ bytes else w.down }

/-- The polls that the server has not handled. -/
def polls (w : Wire) : List Nat :=
  w.up.filterMap UpLine.pollNo

end Wire

/-- A step of the engine's thread or of the stock poller. -/
def DeskStep.NotServer : DeskStep → Prop
  | .engine _ _ => True
  | .stocks _ => True
  | _ => False

structure PollChannel where
  engine : TradingEngine
  conns : List Wire := []
  backlog : List Nat := []
  serving : Option Nat := none
  client : Option Nat := none
  rbuf : List UInt8 := []
  waiting : Option Nat := none
  polls : Nat := 0
  drained : List PollLists := []
  returned : List Returned := []
  added : List String := []

inductive PollStep where
  /-- a step of one of the desk's other threads -/
  | desk (d : DeskStep) (other : d.NotServer)
  /-- `connect` finds the terminal listening -/
  | connect
  /-- a publish path, or a write of the resync -/
  | publish (p : Publication)
  /-- `_drop` after a failed write -/
  | drop
  /-- `query_requested` up to its wait -/
  | sendPoll
  /-- `query_requested` without a connection, or with a failed write -/
  | unsent
  /-- `recv` returns `m` bytes, or what there is -/
  | recv (m : Nat)
  /-- the buffer holds a line: it is taken out, decoded and returned -/
  | finish
  /-- the wait ends in a timeout, an error or a close -/
  | recvFailed
  /-- the feedhandler ends, and a new one is started -/
  | restart
  /-- the connection breaks -/
  | broken (k m : Nat)
  /-- the server accepts a connection -/
  | accept
  /-- the server handles the next line; `between` is what the other threads do
  between the drains of a poll -/
  | handleLine (between : List DeskStep) (other : ∀ d ∈ between, d.NotServer)
  /-- `serve` returns -/
  | served

namespace PollChannel

def start (symbols : List String) (capital : ℚ) (limits : RiskLimits)
    (configured : Bool) : PollChannel where
  engine := .start symbols capital limits { configured := configured }

/-! ### The other threads of the desk -/

/-- The symbols that the user has asked the feed for, without repeats. -/
def noteAdded (added : List String) : DeskStep → List String
  | .engine (.command c) _ =>
      if c.type = .addSymbol ∧ c.assetClass = .crypto ∧ c.symbol ≠ "" ∧
          c.symbol ∉ added then
        added ++ [c.symbol]
      else added
  | _ => added

def runDesk (L : PollChannel) (ds : List DeskStep) : PollChannel :=
  { L with
    engine := run TradingEngine.deskStep L.engine ds
    added := ds.foldl noteAdded L.added }

/-! ### The feedhandler -/

def connect (L : PollChannel) : Option PollChannel := do
  guard (L.client = none ∧ L.waiting = none)
  return { L with
    conns := L.conns ++ [{}]
    backlog := L.backlog ++ [L.conns.length]
    client := some L.conns.length
    rbuf := [] }

def write (L : PollChannel) (k : Nat) (line : UpLine) : PollChannel :=
  { L with conns := L.conns.modify k fun w => w.write line }

def publish (L : PollChannel) (p : Publication) : Option PollChannel := do
  let k ← L.client
  guard (L.waiting = none)
  return L.write k (.publication p)

/-- `_drop`, and the end of a process -/
def dropped (L : PollChannel) (k : Nat) : PollChannel :=
  { L with
    conns := L.conns.modify k Wire.close
    client := none
    rbuf := [] }

def drop (L : PollChannel) : Option PollChannel := do
  let k ← L.client
  guard (L.waiting = none)
  return L.dropped k

def sendPoll (L : PollChannel) : Option PollChannel := do
  let k ← L.client
  guard (L.waiting = none)
  return { L.write k (.poll L.polls) with
    waiting := some L.polls
    polls := L.polls + 1 }

def unsent (L : PollChannel) : Option PollChannel := do
  guard (L.waiting = none)
  return { L.client.elim L L.dropped with
    polls := L.polls + 1
    returned := L.returned ++ [.failed L.polls] }

/-- The loop receives only while the buffer holds no newline. -/
def recv (L : PollChannel) (m : Nat) : Option PollChannel := do
  let _ ← L.waiting
  let k ← L.client
  let w ← L.conns[k]?
  guard (0 < m ∧ 10 ∉ L.rbuf ∧ w.down ≠ [])
  return { L with
    conns := L.conns.modify k fun w => { w with down := w.down.drop m }
    rbuf := L.rbuf ++ w.down.take m }

/-- A reply that does not decode raises, and nothing is returned. -/
def finish (C : Codecs) (L : PollChannel) : Option PollChannel := do
  let n ← L.waiting
  let (line, rest) ← FeedPublisher.splitLine L.rbuf
  return { L with
    rbuf := rest
    waiting := none
    returned :=
      match FeedPublisher.decodeReply C.py line with
      | .ok (syms, hist) => L.returned ++ [.reply ⟨n, syms, hist⟩]
      | .error _ => L.returned }

def recvFailed (L : PollChannel) : Option PollChannel := do
  let n ← L.waiting
  let k ← L.client
  guard (10 ∉ L.rbuf)
  return { L.dropped k with
    waiting := none
    returned := L.returned ++ [.failed n] }

def restart (L : PollChannel) : PollChannel :=
  { L.client.elim L L.dropped with waiting := none }

/-! ### The server thread -/

def setStore (L : PollChannel) (store : MarketStore) : PollChannel :=
  { L with engine := { L.engine with store := store } }

def accept (L : PollChannel) : Option PollChannel := do
  guard (L.serving = none)
  let k ← L.backlog.head?
  return { L.setStore (L.engine.store.setFeedAttached true) with
    backlog := L.backlog.tail
    serving := some k }

/-- Both lists are drained for a poll, and sent. -/
def answerPoll (C : Codecs) (L : PollChannel) (k : Nat) (line : UpLine)
    (between : List DeskStep) : PollChannel :=
  let (syms, store) := L.engine.store.takeRequested
  let L := (L.setStore store).runDesk between
  let (hist, store) := L.engine.store.takeHistoryRequests
  let bytes := C.dump (FeedServer.requestedReply syms hist) ++ [10]
  { L.setStore store with
    conns := L.conns.modify k (Wire.answer bytes)
    drained := L.drained ++
      line.pollNo.toList.map fun n => ⟨n, syms, hist⟩ }

/-- With nothing in between this is what `handlePoll` does. -/
theorem answerPoll_nil
    (C : Codecs) (L : PollChannel) (k : Nat) (line : UpLine) :
    ∃ reply, (FeedServer.handlePoll L.engine.store).1 = .ok (some reply) ∧
      (L.answerPoll C k line []).engine.store =
        (FeedServer.handlePoll L.engine.store).2 ∧
      (L.answerPoll C k line []).conns =
        L.conns.modify k (Wire.answer (C.dump reply ++ [10])) := by
  exact ⟨_, rfl, rfl, rfl⟩

/-- An exception ends the process. -/
def handleLine (C : Codecs) (L : PollChannel) (between : List DeskStep) :
    Option PollChannel := do
  let k ← L.serving
  let w ← L.conns[k]?
  let line ← w.up.head?
  match FeedServer.handleLine C.parse (C.dumps line.msg) L.engine.store with
  | (.error _, _) => none
  | (.ok none, store) =>
      guard between.isEmpty
      return { L.setStore store with
        conns := L.conns.modify k (Wire.answer []) }
  | (.ok (some _), _) => return L.answerPoll C k line between

def served (L : PollChannel) : Option PollChannel := do
  let _ ← L.serving
  return { L.setStore (L.engine.store.setFeedAttached false) with
    serving := none }

def step (C : Codecs) (L : PollChannel) : PollStep → Option PollChannel
  | .desk d _ => some (L.runDesk [d])
  | .connect => L.connect
  | .publish p => L.publish p
  | .drop => L.drop
  | .sendPoll => L.sendPoll
  | .unsent => L.unsent
  | .recv m => L.recv m
  | .finish => L.finish C
  | .recvFailed => L.recvFailed
  | .restart => some L.restart
  | .broken k m => some { L with conns := L.conns.modify k (Wire.broken m) }
  | .accept => L.accept
  | .handleLine between _ => L.handleLine C between
  | .served => L.served

end PollChannel

end ExecutionLayer
