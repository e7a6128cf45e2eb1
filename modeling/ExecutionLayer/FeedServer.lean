import ExecutionLayer.Library.Framing
import ExecutionLayer.Library.Json
import ExecutionLayer.MarketStore

/-!
# Decoding the feed

`FeedServer::handle_line` of `feed_server.cpp`: one line of newline-delimited
JSON is parsed, dispatched on its `"m"` member and applied to the store.  The
parser is a parameter, `none` being its discarded value.  A call either
returns, with a reply for a poll, or lets the exception of a typed accessor
escape, and in both cases the store keeps what was applied up to then.

The reply is sent by `send_all`, whose verdict is ignored.  That call is taken
to return: neither does SIGPIPE end the process when the peer has closed the
connection, nor is the thread blocked by a peer that does not read.

`intendedLine` states separately what a line is meant to do: the calls of its
well-formed rows and entries are made in order, and everything ill-formed is
skipped.
-/

namespace ExecutionLayer

open FiniteMap JsonLib JsonLib.Json

namespace FeedServer

/-- The members of a JSON object. -/
abbrev Members := List (String × Json)

/-- What a call leaves behind: a reply or an escaping exception, and the
store. -/
abbrev Handled := Except TypeError (Option Json) × MarketStore

/-! ### Rows -/

def quoteOf (cells : List Json) : Except TypeError Quote := do
  let symbol ← (cells.getD 0 .null).getString
  let bid ← (cells.getD 1 .null).getDouble
  let ask ← (cells.getD 2 .null).getDouble
  let bsize ← (cells.getD 3 .null).getDouble
  let asize ← (cells.getD 4 .null).getDouble
  let tsNs ← (cells.getD 5 .null).getInt64
  return { symbol, bid, ask, bsize, asize, tsNs }

/-- The arguments of `on_trade`. -/
def tradeOf (cells : List Json) : Except TypeError (String × ℚ × Int) := do
  let symbol ← (cells.getD 0 .null).getString
  let price ← (cells.getD 1 .null).getDouble
  let tsNs ← (cells.getD 2 .null).getInt64
  return (symbol, price, tsNs)

def pointOf (cells : List Json) : Except TypeError PricePoint := do
  let tsNs ← (cells.getD 1 .null).getInt64
  let price ← (cells.getD 0 .null).getDouble
  return { tsNs, price }

section Rows

variable {σ β : Type}

/-- The loop over the rows of a message.  Rows that are no arrays or too
short are skipped, an exception ends the loop. -/
def forRows (width : Nat) (decode : List Json → Except TypeError β)
    (act : σ → β → σ) : List Json → σ → Except TypeError Unit × σ
  | [], st => (.ok (), st)
  | .array cells :: rows, st =>
      if cells.length < width then forRows width decode act rows st
      else
        match decode cells with
        | .error e => (.error e, st)
        | .ok b => forRows width decode act rows (act st b)
  | _ :: rows, st => forRows width decode act rows st

end Rows

/-! ### Messages -/

/-- The array that a member points to. -/
def arrayAt (msg : Members) (key : String) : Option (List Json) :=
  match find msg key with
  | some (.array cells) => some cells
  | _ => none

/-- The messages whose rows are applied one by one. -/
def handleRows {β : Type} (width : Nat)
    (decode : List Json → Except TypeError β)
    (act : MarketStore → β → MarketStore) (msg : Members)
    (store : MarketStore) : Handled :=
  match arrayAt msg "rows" with
  | none => (.ok none, store)
  | some rows =>
      let (r, store) := forRows width decode act rows store
      (r.map fun _ => none, store)

def handleQuotes (msg : Members) (store : MarketStore) : Handled :=
  handleRows 6 quoteOf MarketStore.onQuote msg store

def onTradeRow (store : MarketStore) (row : String × ℚ × Int) :
    MarketStore :=
  store.onTrade row.1 row.2.1 row.2.2

def handleTrades (msg : Members) (store : MarketStore) : Handled :=
  handleRows 3 tradeOf onTradeRow msg store

def pushPoint (pts : List PricePoint) (p : PricePoint) :
    List PricePoint :=
  pts ++ [p]

def handleHistory (msg : Members) (store : MarketStore) : Handled :=
  match valueString msg "sym" "" with
  | .error e => (.error e, store)
  | .ok sym =>
      match arrayAt msg "rows" with
      | none => (.ok none, store)
      | some rows =>
          if sym = "" then (.ok none, store)
          else
            match forRows 2 pointOf pushPoint rows [] with
            | (.error e, _) => (.error e, store)
            | (.ok _, pts) => (.ok none, store.backfillHistory sym pts)

/-- The catalog and the universe differ in where the list is stored. -/
def handleSyms (set : MarketStore → List String → MarketStore)
    (msg : Members) (store : MarketStore) : Handled :=
  match arrayAt msg "syms" with
  | none => (.ok none, store)
  | some cells => (.ok none, set store (strings cells))

/-- The string members of a name map. -/
def namesOf (map : Members) : Finmap fun _ : String => String :=
  map.foldl (fun names member =>
    match member.2 with
    | .string s => names.insert member.1 s
    | _ => names) ∅

def handleNames (msg : Members) (store : MarketStore) : Handled :=
  match find msg "map" with
  | some (.object map) => (.ok none, store.setNames (namesOf map))
  | _ => (.ok none, store)

/-- The reply to a poll: what is drained from the store. -/
def requestedReply (syms hist : List String) : Json :=
  .object
    [("hist", .array (hist.map .string)),
      ("m", .string "requested"),
      ("syms", .array (syms.map .string))]

def handlePoll (store : MarketStore) : Handled :=
  let (syms, store) := store.takeRequested
  let (hist, store) := store.takeHistoryRequests
  (.ok (some (requestedReply syms hist)), store)

def handleMessage (msg : Members) (store : MarketStore) : Handled :=
  match valueString msg "m" "" with
  | .error e => (.error e, store)
  | .ok m =>
      if m = "quotes" then handleQuotes msg store
      else if m = "trades" then handleTrades msg store
      else if m = "history" then handleHistory msg store
      else if m = "products" then
        handleSyms MarketStore.setProducts msg store
      else if m = "universe" then
        handleSyms MarketStore.setUniverse msg store
      else if m = "names" then handleNames msg store
      else if m = "poll" then handlePoll store
      else (.ok none, store)

/-- Go on with what the parser made of a line; only objects are handled. -/
def handleParsed : Option Json → MarketStore → Handled
  | some (.object msg), store => handleMessage msg store
  | _, store => (.ok none, store)

def handleLine (parse : List UInt8 → Option Json) (line : List UInt8)
    (store : MarketStore) : Handled :=
  if line = [] then (.ok none, store)
  else handleParsed (parse line) store

/-! ### The connection -/

/-- The replies that the thread sends until an exception ends it, and the
store. -/
abbrev Served := Except TypeError (List Json) × MarketStore

/-- Go on unless an exception has ended the thread. -/
def Served.andThen (r : Served) (f : MarketStore → Served) : Served :=
  match r with
  | (.error e, store) => (.error e, store)
  | (.ok now, store) =>
      ((f store).1.map fun later => now ++ later, (f store).2)

/-- The lines of a chunk, one after the other. -/
def handleLines (parse : List UInt8 → Option Json) :
    List (List UInt8) → MarketStore → Served
  | [], store => (.ok [], store)
  | line :: lines, store =>
      Served.andThen
        ((handleLine parse line store).map
          (fun r => r.map Option.toList) id)
        (handleLines parse lines)

/-- `serve`, for the chunks that arrive on one connection. -/
def serve (parse : List UInt8 → Option Json) :
    List UInt8 → List (List UInt8) → MarketStore → Served
  | _, [], store => (.ok [], store)
  | buf, chunk :: chunks, store =>
      let (lines, rest) := Framing.frames 10 (buf ++ chunk)
      (handleLines parse lines store).andThen (serve parse rest chunks)

/-! ### What a line is meant to do -/

/-- The calls on the store that messages stand for. -/
inductive StoreCall where
  | onQuote (q : Quote)
  | onTrade (symbol : String) (price : ℚ) (tsNs : Int)
  | backfillHistory (symbol : String) (points : List PricePoint)
  | setProducts (products : List String)
  | setUniverse (syms : List String)
  | setNames (names : Finmap fun _ : String => String)

def applyCall (store : MarketStore) : StoreCall → MarketStore
  | .onQuote q => store.onQuote q
  | .onTrade symbol price tsNs => store.onTrade symbol price tsNs
  | .backfillHistory symbol points => store.backfillHistory symbol points
  | .setProducts products => store.setProducts products
  | .setUniverse syms => store.setUniverse syms
  | .setNames names => store.setNames names

/-- A well-formed row `[sym, bid, ask, bsize, asize, ts_ns]`. -/
def quoteRow : Json → Option Quote
  | .array (.string symbol :: bid :: ask :: bsize :: asize :: ts :: _) => do
      let bid ← bid.number
      let ask ← ask.number
      let bsize ← bsize.number
      let asize ← asize.number
      let tsNs ← ts.integer
      return { symbol, bid, ask, bsize, asize, tsNs }
  | _ => none

/-- A well-formed row `[sym, price, ts_ns]`. -/
def tradeRow : Json → Option (String × ℚ × Int)
  | .array (.string symbol :: price :: ts :: _) => do
      let price ← price.number
      let tsNs ← ts.integer
      return (symbol, price, tsNs)
  | _ => none

/-- A well-formed row `[price, ts_ns]`. -/
def pointRow : Json → Option PricePoint
  | .array (price :: ts :: _) => do
      let price ← price.number
      let tsNs ← ts.integer
      return { tsNs, price }
  | _ => none

def historyCalls (msg : Members) : List StoreCall :=
  match find msg "sym", arrayAt msg "rows" with
  | some (.string sym), some rows =>
      [.backfillHistory sym (rows.filterMap pointRow)]
  | _, _ => []

/-- The calls that a message of kind `m` stands for, ill-formed parts left
out. -/
def intendedCalls (m : String) (msg : Members) : List StoreCall :=
  if m = "quotes" then
    (((arrayAt msg "rows").getD []).filterMap quoteRow).map .onQuote
  else if m = "trades" then
    (((arrayAt msg "rows").getD []).filterMap tradeRow).map fun r =>
      .onTrade r.1 r.2.1 r.2.2
  else if m = "history" then
    historyCalls msg
  else if m = "products" then
    (arrayAt msg "syms").toList.map fun cells =>
      .setProducts (strings cells)
  else if m = "universe" then
    (arrayAt msg "syms").toList.map fun cells =>
      .setUniverse (strings cells)
  else if m = "names" then
    match find msg "map" with
    | some (.object map) => [.setNames (namesOf map)]
    | _ => []
  else []

/-- The intended end of a message: its calls, or the answer to a poll. -/
def intendedMessage (msg : Members) (store : MarketStore) : Handled :=
  match find msg "m" with
  | some (.string m) =>
      if m = "poll" then
        (.ok (some (requestedReply store.requested
            store.historyRequests)),
          { store with requested := [], historyRequests := [] })
      else (.ok none, (intendedCalls m msg).foldl applyCall store)
  | _ => (.ok none, store)

def intendedLine (parse : List UInt8 → Option Json) (line : List UInt8)
    (store : MarketStore) : Handled :=
  if line = [] then (.ok none, store)
  else
    match parse line with
    | some (.object msg) => intendedMessage msg store
    | _ => (.ok none, store)

end FeedServer

end ExecutionLayer
