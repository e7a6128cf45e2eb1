import ExecutionLayer.FeedServer

/-!
# The feed publisher

`FeedPublisher` of `publisher.py`, the writing half of the feed.  It attaches
lazily, resends its caches on every attach, and drops the socket on any
`OSError`.

The network is a script: the clock, whether a connection attempt succeeds,
and the outcome of each `sendall` and `recv` of one call, in order.  A script
that is used up sends without failing and times out on `recv`.  Python
exceptions that are not caught are values of `PyError`, and the session
behind them is kept.  `json.loads` and `str` are parameters.
-/

namespace ExecutionLayer

open JsonLib JsonLib.Json

/-- A trade of the feed, as far as it is published. -/
structure FeedTrade where
  symbol : String
  price : ℚ
  eventTimeNs : Int
deriving DecidableEq, Repr

/-- A top-of-book quote of the feed, as far as it is published. -/
structure FeedQuote where
  symbol : String
  bid : ℚ
  ask : ℚ
  bsize : ℚ
  asize : ℚ
  eventTimeNs : Int
deriving DecidableEq, Repr

/-- Exceptions that a call may let escape. -/
inductive PyError where
  | osError
  | attributeError
  | typeError
deriving DecidableEq, Repr

/-- What `recv` does.  The empty chunk is the peer's close; a timeout is an
`OSError`. -/
inductive Recv where
  | chunk (bytes : List UInt8)
  | osError
deriving DecidableEq, Repr

/-- The network during one call, and the lines written to it. -/
structure Net where
  now : ℚ := 0
  connects : Bool := true
  sends : List Bool := []
  recvs : List Recv := []
  written : List Json := []

/-- `_RETRY_INTERVAL_S` -/
def retryIntervalS : ℚ := 1 / 4

structure FeedPublisher where
  attached : Bool := false
  rbuf : List UInt8 := []
  nextRetry : ℚ := 0
  announced : Bool := false
  lastProducts : List String := []
  lastUniverse : List String := []
  lastQuotes : List (String × FeedQuote) := []
  lastNames : List (String × String) := []
deriving DecidableEq, Repr

/-- A publisher on its network. -/
structure Session where
  pub : FeedPublisher
  net : Net := {}

/-- A call returns a value or raises; the session is kept in both cases. -/
abbrev Outcome (α : Type) := Except PyError α × Session

/-- Go on with the value of a call that returned. -/
def Outcome.andThen {α β : Type} (r : Outcome α)
    (f : α → Session → Outcome β) : Outcome β :=
  match r with
  | (.ok a, s) => f a s
  | (.error e, s) => (.error e, s)

namespace FeedPublisher

/-! ### Messages -/

/-- The JSON number of a Python integer. -/
def jsonInt (n : Int) : Json :=
  if 0 ≤ n then .numberUnsigned n.toNat else .numberInteger n

def productsMsg (ids : List String) : Json :=
  .object [("m", .string "products"), ("syms", .array (ids.map .string))]

def universeMsg (ids : List String) : Json :=
  .object [("m", .string "universe"), ("syms", .array (ids.map .string))]

def namesMsg (names : List (String × String)) : Json :=
  .object
    [("m", .string "names"),
      ("map", .object (names.map fun e => (e.1, .string e.2)))]

def quoteCells (q : FeedQuote) : Json :=
  .array
    [.string q.symbol, .numberFloat q.bid, .numberFloat q.ask,
      .numberFloat q.bsize, .numberFloat q.asize, jsonInt q.eventTimeNs]

def quotesMsg (rows : List FeedQuote) : Json :=
  .object [("m", .string "quotes"), ("rows", .array (rows.map quoteCells))]

def tradeCells (t : FeedTrade) : Json :=
  .array [.string t.symbol, .numberFloat t.price, jsonInt t.eventTimeNs]

def tradesMsg (trades : List FeedTrade) : Json :=
  .object [("m", .string "trades"), ("rows", .array (trades.map tradeCells))]

def historyMsg (symbol : String) (points : List (ℚ × Int)) : Json :=
  .object
    [("m", .string "history"), ("sym", .string symbol),
      ("rows", .array (points.map fun p =>
        .array [.numberFloat p.1, jsonInt p.2]))]

def pollMsg : Json :=
  .object [("m", .string "poll")]

/-! ### Connection -/

/-- `_drop` -/
def drop (pub : FeedPublisher) : FeedPublisher :=
  { pub with attached := false, rbuf := [] }

/-- `_write`: without a socket the attribute lookup on `None` raises. -/
def write (msg : Json) (s : Session) : Outcome Bool :=
  if s.pub.attached = false then (.error .attributeError, s)
  else
    match s.net.sends with
    | false :: rest =>
        (.ok false, { pub := s.pub.drop, net := { s.net with sends := rest } })
    | sends =>
        (.ok true,
          { s with
            net :=
              { s.net with
                sends := sends.tail
                written := s.net.written ++ [msg] } })

/-- A write of the resync, made when `ready`. -/
def writeWhen (ready : Bool) (msg : Json) (s : Session) : Outcome Unit :=
  if ready then (write msg s).andThen fun _ s => (.ok (), s)
  else (.ok (), s)

/-- `_resync` -/
def resync (s : Session) : Outcome Unit :=
  (writeWhen (!s.pub.lastProducts.isEmpty)
      (productsMsg s.pub.lastProducts) s).andThen fun _ s =>
  (writeWhen (!s.pub.lastUniverse.isEmpty && s.pub.attached)
      (universeMsg s.pub.lastUniverse) s).andThen fun _ s =>
  (writeWhen (!s.pub.lastNames.isEmpty && s.pub.attached)
      (namesMsg s.pub.lastNames) s).andThen fun _ s =>
  writeWhen (!s.pub.lastQuotes.isEmpty && s.pub.attached)
    (quotesMsg (s.pub.lastQuotes.map Prod.snd)) s

/-- The state in which a connection attempt leaves the publisher. -/
def opened (s : Session) : Session :=
  { s with
    pub :=
      { s.pub with
        attached := true
        rbuf := []
        announced := false
        nextRetry := s.net.now + retryIntervalS } }

/-- A call of `connect` comes to `create_connection`. -/
def Tries (s : Session) : Prop :=
  s.pub.attached = false ∧ s.pub.nextRetry ≤ s.net.now

instance (s : Session) : Decidable (Tries s) :=
  inferInstanceAs (Decidable (_ ∧ _))

def connect (s : Session) : Outcome Bool :=
  -- `True` with a socket, `False` before the deadline
  if ¬ Tries s then (.ok s.pub.attached, s)
  else if s.net.connects then
    match resync (opened s) with
    | (.ok _, s) => (.ok true, s)
    | (.error .osError, s) =>
        (.ok false, { s with pub := { s.pub with announced := true } })
    | (.error e, s) => (.error e, s)
  else
    (.ok false,
      { s with
        pub :=
          { s.pub with
            announced := true
            nextRetry := s.net.now + retryIntervalS } })

/-- `_send` -/
def send (msg : Json) (s : Session) : Outcome Bool :=
  (connect s).andThen fun ok s =>
    if ok then write msg s else (.ok false, s)

/-! ### Publish paths -/

/-- A publish path sends and returns `None`. -/
def sendOnly (msg : Json) (s : Session) : Outcome Unit :=
  (send msg s).andThen fun _ s => (.ok (), s)

def publishTrades (trades : List FeedTrade) (s : Session) : Outcome Unit :=
  if trades = [] then (.ok (), s) else sendOnly (tradesMsg trades) s

def publishHistory (symbol : String) (points : List (ℚ × Int))
    (s : Session) : Outcome Unit :=
  if points = [] then (.ok (), s)
  else sendOnly (historyMsg symbol points) s

/-- `d[key] = value` on an insertion-ordered dictionary. -/
def setKey {β : Type} (d : List (String × β)) (key : String) (value : β) :
    List (String × β) :=
  if key ∈ d.map Prod.fst then
    d.map fun e => if e.1 = key then (key, value) else e
  else d ++ [(key, value)]

/-- Keep the newest row per symbol. -/
def cacheQuotes (pub : FeedPublisher) (quotes : List FeedQuote) :
    FeedPublisher :=
  { pub with
    lastQuotes :=
      quotes.foldl (fun d q => setKey d q.symbol q) pub.lastQuotes }

def publishQuotes (quotes : List FeedQuote) (s : Session) : Outcome Unit :=
  if quotes = [] then (.ok (), s)
  else
    sendOnly (quotesMsg quotes) { s with pub := s.pub.cacheQuotes quotes }

def setProducts (ids : List String) (s : Session) : Outcome Unit :=
  sendOnly (productsMsg ids)
    { s with pub := { s.pub with lastProducts := ids } }

def setUniverse (ids : List String) (s : Session) : Outcome Unit :=
  sendOnly (universeMsg ids)
    { s with pub := { s.pub with lastUniverse := ids } }

def setNames (names : List (String × String)) (s : Session) :
    Outcome Unit :=
  sendOnly (namesMsg names)
    { s with pub := { s.pub with lastNames := names } }

/-! ### Control plane -/

/-- The end of the loop that reads up to a newline. -/
inductive ReadLine where
  | line (line rest : List UInt8)
  | closed
  | osError
deriving DecidableEq, Repr

/-- Split a buffer at its first newline. -/
def splitLine (rbuf : List UInt8) : Option (List UInt8 × List UInt8) :=
  if 10 ∈ rbuf then
    some (rbuf.takeWhile (· ≠ 10), (rbuf.dropWhile (· ≠ 10)).drop 1)
  else none

/-- Receive until the buffer holds a newline, and split there. -/
def recvLine (rbuf : List UInt8) (recvs : List Recv) : ReadLine :=
  match splitLine rbuf, recvs with
  | some (line, rest), _ => .line line rest
  | none, [] => .osError
  | none, .osError :: _ => .osError
  | none, .chunk [] :: _ => .closed
  | none, .chunk (b :: bytes) :: recvs => recvLine (rbuf ++ b :: bytes) recvs
termination_by structural recvs

/-- `json.loads`, `none` where it raises a `ValueError`, and `str`. -/
structure PyJson where
  loads : List UInt8 → Option Json
  str : Json → String

/-- `[str(s) for s in v]` -/
def strings (str : Json → String) : Json → Except PyError (List String)
  | .array cells => .ok (cells.map fun
      | .string s => s
      | v => str v)
  | .string s => .ok (s.toList.map fun c => c.toString)
  | .object members => .ok (members.map Prod.fst)
  | _ => .error .typeError

/-- `[str(s) for s in msg.get(key, [])]` -/
def stringsAt (str : Json → String) (members : List (String × Json))
    (key : String) : Except PyError (List String) :=
  match find members key with
  | none => .ok []
  | some v => strings str v

/-- The pair of lists in a loaded reply; only a dictionary has a `get`. -/
def repliedLists (str : Json → String) :
    Option Json → Except PyError (List String × List String)
  | none => .ok ([], [])
  | some (.object members) =>
      match find members "m" with
      | some (.string "requested") => do
          let syms ← stringsAt str members "syms"
          let hist ← stringsAt str members "hist"
          return (syms, hist)
      | _ => .ok ([], [])
  | some _ => .error .attributeError

def decodeReply (py : PyJson) (line : List UInt8) :
    Except PyError (List String × List String) :=
  repliedLists py.str (py.loads line)

def queryRequested (py : PyJson) (s : Session) :
    Outcome (List String × List String) :=
  (send pollMsg s).andThen fun ok s =>
    if ok = false then (.ok ([], []), s)
    else if s.pub.attached = false then (.error .attributeError, s)
    else
      match recvLine s.pub.rbuf s.net.recvs with
      | .line line rest =>
          (decodeReply py line, { s with pub := { s.pub with rbuf := rest } })
      | .closed => (.ok ([], []), { s with pub := s.pub.drop })
      | .osError => (.ok ([], []), { s with pub := s.pub.drop })

end FeedPublisher

end ExecutionLayer
