import ExecutionLayer.Batching
import ExecutionLayer.EngineLoop
import ExecutionLayer.Library.PyValue
import ExecutionLayer.Timestamps

/-!
# Messages of the exchanges

`_handle_message` of `coinbase.py` and `binance.py` turns a message of the
exchange into a tick of the neutral schema, ignores it, or raises.  The loop
around it catches every exception and reconnects; what was emitted before
stays in the buffers.

So a message brings at most one tick, whatever else came in, and the pipeline
behind it keeps their order.  With the terminal attached, the quote that the
terminal shows for a symbol is the one of the last message that had one
(`last_quote_shown`).

Python passes on what it is sent: a symbol may be any value, and a price may
be infinite or not a number.  The line of such a tick is not one that the
terminal reads, and the buffers of this model hold texts and numbers, so a
handler goes on here only with ticks that are plain (`exec_afterStep_iff`).

`json.loads`, `float` and `int` on what it loads and `datetime.fromisoformat`
are parameters.
-/

namespace ExecutionLayer

open Framing JsonLib PyLib StepSystem
open PyLib.PyValue (find isText truthy number integer)

/-! ### The schema -/

namespace Schema

/-- Aggressor side of a trade. -/
inductive Side where
  | buy
  | sell
  | unknown
deriving DecidableEq, Repr

/-- A single executed trade, normalized across venues. -/
structure Trade where
  eventTimeNs : Int
  recvTimeNs : Int
  symbol : PyValue
  exchange : String
  price : PyFloat
  size : PyFloat
  side : Side := .unknown

/-- Best bid and ask. -/
structure Quote where
  eventTimeNs : Int
  recvTimeNs : Int
  symbol : PyValue
  exchange : String
  bid : PyFloat
  ask : PyFloat
  bsize : PyFloat
  asize : PyFloat

/-- What a handler emits. -/
inductive Emitted where
  | trade (t : Trade)
  | quote (q : Quote)

/-- What the publisher sends of it, if the symbol is a text and the numbers
that are sent are finite. -/
def Emitted.tick : Emitted → Option Tick
  | .trade t => do
      let symbol ← t.symbol.text
      let price ← t.price.rat
      return .trade
        { symbol := symbol, price := price, eventTimeNs := t.eventTimeNs }
  | .quote q => do
      let symbol ← q.symbol.text
      let bid ← q.bid.rat
      let ask ← q.ask.rat
      let bsize ← q.bsize.rat
      let asize ← q.asize.rat
      return .quote
        { symbol := symbol, bid := bid, ask := ask, bsize := bsize,
          asize := asize, eventTimeNs := q.eventTimeNs }

end Schema

open Schema (Emitted)

/-- The parts of Python that read a message; nothing stands for an
exception. -/
structure Python where
  loads : List UInt8 → Option PyValue
  float : PyValue → Option PyFloat
  int : PyValue → Option Int
  fromisoformat : String → Option Datetime

/-! ### Reading a message -/

section Venues

variable (py : Python) (recv : Int)

namespace Coinbase

/-- `_iso_to_ns(v)` -/
def timeNs (v : PyValue) : Option Int :=
  v.text.bind (coinbaseIsoToNs py.fromisoformat)

/-- `match` and `last_match`; the side of the message is the maker's. -/
def trade (msg : List (String × PyValue)) : Option Emitted := do
  let side ← find msg "side"
  let time ← (find msg "time").bind (timeNs py)
  let symbol ← find msg "product_id"
  let price ← (find msg "price").bind py.float
  let size ← (find msg "size").bind py.float
  return .trade
    { eventTimeNs := time, recvTimeNs := recv, symbol := symbol
      exchange := "coinbase", price := price, size := size
      side := if isText "sell" (some side) then .buy else .sell }

/-- `float(msg.get(key, 0.0))` -/
def sizeMember (msg : List (String × PyValue)) (key : String) :
    Option PyFloat :=
  match find msg key with
  | none => some (.finite 0)
  | some v => py.float v

def quote (msg : List (String × PyValue)) : Option Emitted := do
  let time ←
    match find msg "time" with
    | none => some recv
    | some v => timeNs py v
  let symbol ← find msg "product_id"
  let bid ← (find msg "best_bid").bind py.float
  let ask ← (find msg "best_ask").bind py.float
  let bsize ← sizeMember py msg "best_bid_size"
  let asize ← sizeMember py msg "best_ask_size"
  return .quote
    { eventTimeNs := time, recvTimeNs := recv, symbol := symbol
      exchange := "coinbase", bid := bid, ask := ask
      bsize := bsize, asize := asize }

/-- What `_handle_message` makes of a message: it emits, or ignores it, or
raises. -/
def normalize : PyValue → Option (Option Emitted)
  | .dict msg =>
      let mtype := find msg "type"
      if isText "match" mtype || isText "last_match" mtype then
        (trade py recv msg).map some
      else if isText "ticker" mtype then
        -- some tickers have no book
        if (find msg "best_bid").isNone || (find msg "best_ask").isNone then
          some none
        else (quote py recv msg).map some
      else some none
  | _ => none

end Coinbase

namespace Binance

/-- Milliseconds to nanoseconds. -/
def msToNs : Int := 1000000

def trade (data : List (String × PyValue)) : Option Emitted := do
  let time ← (find data "T").bind py.int
  let symbol ← find data "s"
  let price ← (find data "p").bind py.float
  let size ← (find data "q").bind py.float
  let buyerIsMaker ← find data "m"
  return .trade
    { eventTimeNs := time * msToNs, recvTimeNs := recv, symbol := symbol
      exchange := "binance", price := price, size := size
      side := if truthy buyerIsMaker then .sell else .buy }

/-- There is no event time, so the receive time stands for it. -/
def quote (data : List (String × PyValue)) : Option Emitted := do
  let symbol ← find data "s"
  let bid ← (find data "b").bind py.float
  let ask ← (find data "a").bind py.float
  let bsize ← (find data "B").bind py.float
  let asize ← (find data "A").bind py.float
  return .quote
    { eventTimeNs := recv, recvTimeNs := recv, symbol := symbol
      exchange := "binance", bid := bid, ask := ask
      bsize := bsize, asize := asize }

/-- `stream.endswith(ending)` -/
def endsWith (ending stream : String) : Bool :=
  ending.toList <:+ stream.toList

/-- `msg.get("data", {})`; another value than an object raises when a member
is read. -/
def dataOf (msg : List (String × PyValue)) :
    Option (List (String × PyValue)) :=
  match find msg "data" with
  | none => some []
  | some (.dict data) => some data
  | some _ => none

def normalize : PyValue → Option (Option Emitted)
  | .dict msg =>
      match find msg "stream" with
      | none => some none
      | some (.str stream) =>
          if endsWith "@trade" stream then
            ((dataOf msg).bind (trade py recv)).map some
          else if endsWith "@bookTicker" stream then
            ((dataOf msg).bind (quote py recv)).map some
          else some none
      | some _ => none
  | _ => none

end Binance

end Venues

/-- The exchanges that send messages. -/
inductive Venue where
  | binance
  | coinbase
deriving DecidableEq, Repr

def Venue.normalize (py : Python) (recv : Int) :
    Venue → PyValue → Option (Option Emitted)
  | .binance => Binance.normalize py recv
  | .coinbase => Coinbase.normalize py recv

/-- A message as it comes off the stream, and the time of its receipt. -/
structure RawMessage where
  raw : List UInt8
  recvNs : Int
deriving DecidableEq, Repr

/-- A message of the stream, or a flush of the timer. -/
inductive VenueStep where
  | message (m : RawMessage)
  | flush
deriving DecidableEq, Repr

section Handler

variable (py : Python) (venue : Venue)

/-- What a message brings in. -/
def VenueStep.emitted : VenueStep → Option Emitted
  | .message m =>
      ((py.loads m.raw).bind (venue.normalize py m.recvNs)).join
  | .flush => none

def VenueStep.tick (a : VenueStep) : Option Tick :=
  (a.emitted py venue).bind Emitted.tick

/-- What the message brings in has a text for a symbol and finite numbers. -/
def VenueStep.Plain (a : VenueStep) : Prop :=
  ∀ e, a.emitted py venue = some e → ∃ tick, e.tick = some tick

namespace BaseFeedHandler

/-- `emit_trade` or `emit_quote` -/
def emit (h : BaseFeedHandler) (tick : Tick) : Called :=
  h.call (.emit tick)

/-- `_handle_message`: it returns, or raises an exception, which the loop of
`_run` catches.  There is no next handler after a tick that is not plain. -/
def handleMessage (h : BaseFeedHandler) (m : RawMessage) :
    Option (Option Unit × BaseFeedHandler) :=
  match (py.loads m.raw).bind (venue.normalize py m.recvNs) with
  | none => some (none, h)
  | some none => some (some (), h)
  | some (some e) =>
      e.tick.map fun tick =>
        match h.emit tick with
        | (.error _, h) => (none, h)
        | (.ok _, h) => (some (), h)

/-- The handler after a step.  An exception costs the connection to the
exchange, and nothing of what the handler holds. -/
def afterStep (h : BaseFeedHandler) : VenueStep → Option BaseFeedHandler
  | .message m => (h.handleMessage py venue m).map Prod.snd
  | .flush => some h.flush.2

/-- The step as one of the flush machinery, if it is one. -/
def feedStep : VenueStep → Option FeedStep
  | .message m => (VenueStep.tick py venue (.message m)).map .emit
  | .flush => some .flush

variable {py venue}

theorem afterStep_of_plain
    (h : BaseFeedHandler) {a : VenueStep} (ha : a.Plain py venue) :
    h.afterStep py venue a =
      some ((feedStep py venue a).elim h fun b => (h.call b).2) := by
  cases a with
  | flush =>
      rfl
  | message m =>
      rw [VenueStep.Plain, VenueStep.emitted] at ha
      rw [afterStep, handleMessage, feedStep, VenueStep.tick,
        VenueStep.emitted]
      cases hmade : (py.loads m.raw).bind (venue.normalize py m.recvNs) with
      | none =>
          rfl
      | some made =>
          cases made with
          | none =>
              rfl
          | some e =>
              rw [hmade] at ha
              obtain ⟨tick, htick⟩ := ha e rfl
              simp only [Option.join_some, Option.bind_some, htick,
                Option.map_some, Option.elim_some, emit]
              split <;> simp_all

theorem plain_of_afterStep
    {h h' : BaseFeedHandler} {a : VenueStep}
    (hstep : h.afterStep py venue a = some h') :
    a.Plain py venue := by
  cases a with
  | flush =>
      intro e he
      cases he
  | message m =>
      intro e he
      rw [VenueStep.emitted] at he
      rw [afterStep, handleMessage] at hstep
      cases hmade : (py.loads m.raw).bind (venue.normalize py m.recvNs) with
      | none =>
          rw [hmade] at he
          cases he
      | some made =>
          rw [hmade, Option.join_some] at he
          rw [hmade, he] at hstep
          cases htick : e.tick with
          | none =>
              simp only [htick] at hstep
              cases hstep
          | some tick =>
              exact ⟨tick, rfl⟩

/-- A handler goes on with plain ticks, and with no others. -/
theorem exec_afterStep_iff (h : BaseFeedHandler) (as : List VenueStep) :
    (∃ h', exec (afterStep py venue) h as = some h') ↔
      ∀ a ∈ as, a.Plain py venue := by
  induction as generalizing h with
  | nil =>
      simp [exec]
  | cons a as ih =>
      rw [List.forall_mem_cons]
      constructor
      · rintro ⟨h', hexec⟩
        obtain ⟨h₁, hstep, hrest⟩ := (exec_cons_eq_some _).mp hexec
        exact ⟨plain_of_afterStep hstep, (ih h₁).mp ⟨h', hrest⟩⟩
      · rintro ⟨ha, has⟩
        obtain ⟨h', hrest⟩ := (ih _).mpr has
        exact ⟨h', (exec_cons_eq_some _).mpr
          ⟨_, afterStep_of_plain h ha, hrest⟩⟩

theorem feedStep_tick (a : VenueStep) :
    (feedStep py venue a).bind FeedStep.tick = a.tick py venue := by
  cases a with
  | flush =>
      rfl
  | message m =>
      rw [feedStep]
      cases VenueStep.tick py venue (.message m) <;> rfl

/-- With the terminal attached, messages and flushes are a run of the flush
machinery on the ticks that the messages bring in. -/
theorem exec_afterStep
    {h h' : BaseFeedHandler} (hs : Steady h.session) {as : List VenueStep}
    (hexec : exec (afterStep py venue) h as = some h') :
    exec step h (as.filterMap (feedStep py venue)) = some h' := by
  induction as generalizing h with
  | nil =>
      exact hexec
  | cons a as ih =>
      obtain ⟨h₁, hafter, hrest⟩ := (exec_cons_eq_some _).mp hexec
      rw [afterStep_of_plain h (plain_of_afterStep hafter),
        Option.some.injEq] at hafter
      cases hstep : feedStep py venue a with
      | none =>
          rw [hstep, Option.elim_none] at hafter
          subst hafter
          rw [List.filterMap_cons_none hstep]
          exact ih hs hrest
      | some b =>
          rw [hstep, Option.elim_some] at hafter
          obtain ⟨batches, h₂, hnext, hships⟩ := step_ships hs b
          have hcall : (h.call b).2 = h₂ := by
            rw [step] at hnext
            split at hnext
            next heq =>
              rw [heq]
              exact Option.some.inj hnext
            next =>
              cases hnext
          obtain rfl := hcall.symm.trans hafter
          rw [List.filterMap_cons_some hstep, exec, hnext, Option.bind_some]
          exact ih hships.steady hrest

end BaseFeedHandler

end Handler

/-! ### What the row shows -/

namespace TradingEngine

/-- Copying quotes leaves a symbol the only one that is copied for it. -/
theorem lookup_foldl_insert
    {s : String} {q : Quote} (hsym : q.symbol = s) {qs : List Quote}
    (hall : ∀ q' ∈ qs, q'.symbol = s → q' = q) {m : QuoteMap}
    (h : q ∈ qs ∨ m.lookup s = some q) :
    (qs.foldl (fun m q => m.insert q.symbol q) m).lookup s = some q := by
  induction qs generalizing m with
  | nil =>
      rcases h with h | h
      · cases h
      · exact h
  | cons q' qs ih =>
      refine ih (fun p hp => hall p (List.mem_cons_of_mem q' hp)) ?_
      by_cases hq' : q'.symbol = s
      · refine Or.inr ?_
        rw [hall q' List.mem_cons_self hq', ← hsym]
        exact Finmap.lookup_insert _
      · rcases h with h | h
        · rcases List.mem_cons.mp h with rfl | h
          · exact absurd hsym hq'
          · exact Or.inl h
        · refine Or.inr ?_
          rw [Finmap.lookup_insert_of_ne _ (Ne.symm hq')]
          exact h

/-- A symbol that is watched, and that the stocks do not quote, is cached with
the store's quote. -/
theorem lookup_readQuotes
    {e : TradingEngine} (hkeyed : Keyed e.store) {s : String}
    (hmem : s ∈ e.symbols) (hstock : s ∉ e.stocks.quotes) {q : Quote}
    (hq : e.store.lastQuote.lookup s = some q) :
    e.readCryptoQuotes.readStockQuotes.quotes.lookup s = some q := by
  change (e.stocks.snapshot ∪ e.readCryptoQuotes.quotes).lookup s = some q
  have hnone : s ∉ e.stocks.snapshot := hstock
  rw [Finmap.lookup_union_right hnone]
  refine lookup_foldl_insert (hkeyed s q hq) ?_ (Or.inl ?_)
  · intro q' hq' hsym
    obtain ⟨s', _, hlookup⟩ := List.mem_filterMap.mp hq'
    rw [← hkeyed s' q' hlookup, hsym, hq] at hlookup
    exact (Option.some.inj hlookup).symm
  · exact List.mem_filterMap.mpr ⟨s, hmem, hq⟩

/-- The store keeps its quotes under their own symbols. -/
theorem keyed_desk
    (symbols : List String) (capital : ℚ) (limits : RiskLimits)
    (configured : Bool) (ds : List DeskStep) :
    Keyed (desk symbols capital limits configured ds).store := by
  refine run_invariant deskStep
    (fun e d (h : Keyed e.store) => h.deskStep d) ?_ ds
  intro s q hq
  rw [start, Finmap.lookup_empty] at hq
  cases hq

theorem keyed_run
    {store : MarketStore} (h : Keyed store) (ticks : List Tick) :
    Keyed (run applyTick store ticks) :=
  run_invariant applyTick (fun _ tick h => h.applyCall tick.call) h ticks

/-- Draining a batch of commands leaves quotes, store and stock quotes to
their owners, and drops no symbol. -/
structure Drained (e e' : TradingEngine) : Prop where
  lastQuote : e'.store.lastQuote = e.store.lastQuote
  stocks : e'.stocks.quotes = e.stocks.quotes
  symbols : e.symbols ⊆ e'.symbols

theorem drained_process (e : TradingEngine) (c : Command) :
    Drained e (e.process c) where
  lastQuote := by
    rcases e.process_cases c with
      ⟨_, heq⟩ | ⟨_, heq⟩ | ⟨_, ⟨_, _, heq⟩ | ⟨oms, heq⟩⟩
    · rw [heq, addStock]
    · rw [heq, addCrypto, MarketStore.addSymbol]
      split_ifs <;> rfl
    · rw [heq]
    · rw [heq]
  stocks := e.stockQuotes_step (a := .command c) trivial
  symbols := e.subset_watchList_deskStep (.engine (.command c) trivial)
    .crypto

theorem drained_foldl (e : TradingEngine) (cs : List Command) :
    Drained e (cs.foldl process e) := by
  induction cs generalizing e with
  | nil =>
      exact ⟨rfl, rfl, List.Subset.refl _⟩
  | cons c cs ih =>
      have hone := e.drained_process c
      have hrest := ih (e.process c)
      exact ⟨hrest.lastQuote.trans hone.lastQuote,
        hrest.stocks.trans hone.stocks,
        fun s hs => hrest.symbols (hone.symbols hs)⟩

/-- What a cycle does between its quotes and its view. -/
def beforePublish (e : TradingEngine) (now : Int) : TradingEngine :=
  ((e.requestFocusHistory.refreshHistory now).drainErrors).refreshCatalog now

theorem beforePublish_quotes (e : TradingEngine) (now : Int) :
    (e.beforePublish now).quotes = e.quotes := by
  have hhist : (e.requestFocusHistory.refreshHistory now).quotes =
      e.quotes := by
    unfold requestFocusHistory refreshHistory
    split_ifs <;> rfl
  rw [beforePublish, refreshCatalog, ← hhist]
  split_ifs <;> rfl

theorem beforePublish_symbols (e : TradingEngine) (now : Int) :
    e.symbols ⊆ (e.beforePublish now).symbols := by
  have hhist : (e.requestFocusHistory.refreshHistory now).symbols =
      e.symbols := by
    unfold requestFocusHistory refreshHistory
    split_ifs <;> rfl
  intro s hs
  rw [← hhist] at hs
  exact (e.requestFocusHistory.refreshHistory
    now).drainErrors.subset_watchList_deskStep
      (.engine (.refreshCatalog now) trivial) .crypto hs

/-- The row of a quoted symbol shows its quote. -/
theorem buildRow_of_lookup
    {e : TradingEngine} {s : String} {q : Quote}
    (hq : e.quotes.lookup s = some q) (cls : AssetClass) :
    (e.buildRow cls s).symbol = s ∧ (e.buildRow cls s).hasQuote ∧
      (e.buildRow cls s).bid = q.bid ∧ (e.buildRow cls s).ask = q.ask ∧
      (e.buildRow cls s).bsize = q.bsize ∧
      (e.buildRow cls s).asize = q.asize := by
  unfold buildRow
  rw [hq]
  cases e.oms.portfolio.positions.lookup s with
  | none =>
      exact ⟨rfl, rfl, rfl, rfl, rfl, rfl⟩
  | some p =>
      exact ⟨rfl, rfl, rfl, rfl, rfl, rfl⟩

/-- A cycle shows the store's quote of a watched crypto symbol. -/
theorem row_of_cycle
    {e : TradingEngine} (hkeyed : Keyed e.store) (pending : List Command)
    (now : Int) {s : String} (hmem : s ∈ e.symbols)
    (hstock : s ∉ e.stocks.quotes) {q : Quote}
    (hq : e.store.lastQuote.lookup s = some q) :
    ∃ row ∈ (e.cycle pending now).view.symbols,
      row.symbol = s ∧ row.hasQuote ∧ row.bid = q.bid ∧
        row.ask = q.ask ∧ row.bsize = q.bsize ∧ row.asize = q.asize := by
  have hdrained := e.drained_foldl pending
  have hkeyed' : Keyed (pending.foldl process e).store := by
    intro s' q' hq'
    rw [hdrained.lastQuote] at hq'
    exact hkeyed s' q' hq'
  have hread := lookup_readQuotes hkeyed' (hdrained.symbols hmem)
    (by rw [hdrained.stocks]; exact hstock)
    (by rw [hdrained.lastQuote]; exact hq)
  have hcycle : (e.cycle pending now).view =
      (((pending.foldl process e).readCryptoQuotes.readStockQuotes
        ).beforePublish now).buildView := by
    rw [cycle, publish, beforePublish]
  have hlookup := hread
  rw [← beforePublish_quotes _ now] at hlookup
  rw [hcycle]
  refine ⟨_, ?_, buildRow_of_lookup hlookup .crypto⟩
  refine List.mem_append_left _ (List.mem_map_of_mem ?_)
  exact beforePublish_symbols _ now (hdrained.symbols hmem)

end TradingEngine

/-! ### From the exchange to the row -/

section Pipeline

variable {py : Python} {venue : Venue} {maxBuffer : Nat} {s : Session}
variable {as : List VenueStep} {h : BaseFeedHandler}
variable {parse : List UInt8 → Option Json} {dumps : Json → List UInt8}
variable {chunks : List (List UInt8)}

theorem plain_concat_flush
    (h : ∀ a ∈ as, a.Plain py venue) :
    ∀ a ∈ as ++ [.flush], a.Plain py venue := by
  intro a ha
  rcases List.mem_append.mp ha with ha | ha
  · exact h a ha
  · rw [List.mem_singleton.mp ha]
    intro e he
    cases he

open BaseFeedHandler in
/-- The terminal's store is the one of the ticks that the messages brought
in. -/
theorem serve_messages
    (hs : Steady s) (hfresh : s.net.written = [])
    (hexec : exec (afterStep py venue) (start maxBuffer s)
      (as ++ [.flush]) = some h)
    (store : MarketStore)
    (hread : ∀ msg ∈ h.session.net.written, ReadsBack parse dumps msg)
    (hchunks : chunks.flatten =
      join 10 (h.session.net.written.map dumps)) :
    FeedServer.serve parse [] chunks store =
      (.ok [],
        run applyTick store (as.filterMap (VenueStep.tick py venue))) := by
  have hstart : Steady (start maxBuffer s).session := hs
  obtain ⟨batches, h', hmachine, hships, hempty⟩ :=
    drained_ships hstart (as.filterMap (feedStep py venue))
  have hrun : h = h' := by
    have hthis := exec_afterStep hstart hexec
    rw [List.filterMap_append] at hthis
    exact Option.some.inj (hthis.symm.trans hmachine)
  have hticks : (as.filterMap (feedStep py venue)).filterMap FeedStep.tick =
      as.filterMap (VenueStep.tick py venue) := by
    rw [List.filterMap_filterMap]
    exact congrArg (fun f => as.filterMap f) (funext feedStep_tick)
  have hwritten : h'.session.net.written = batches.map Publication.msg := by
    have hw := hships.written
    rwa [start, hfresh, List.nil_append] at hw
  have hstreams : SameStreams (as.filterMap (VenueStep.tick py venue))
      (batches.flatMap Publication.ticks) := by
    have hst := hships.streams
    rwa [hempty, List.append_nil, hticks] at hst
  rw [hrun, hwritten] at hread hchunks
  rw [List.map_map] at hchunks
  rw [serve_batches hships.isBatch
    (fun p hp => hread _ (List.mem_map_of_mem hp)) hchunks,
    hstreams.run_eq]

end Pipeline

/-- A ticker of X: bid 1, ask 3. -/
def tickerX : PyValue :=
  .dict
    [("type", .str "ticker"), ("product_id", .str "X"),
      ("best_bid", .int 1), ("best_ask", .int 3),
      ("best_bid_size", .int 4), ("best_ask_size", .int 5)]

/-- Only one text parses, and it is the ticker. -/
def pythonX : Python where
  loads := fun raw => if raw = [2] then some tickerX else none
  float := number
  int := integer
  fromisoformat := fun _ => none

def rawX (raw : List UInt8) : RawMessage where
  raw := raw
  recvNs := 1600

theorem plain_rawX :
    ∀ a ∈ [VenueStep.message (rawX [1]), .message (rawX [2])],
      a.Plain pythonX .coinbase := by
  rintro a ha e he
  simp only [List.mem_cons, List.not_mem_nil, or_false] at ha
  rcases ha with rfl | rfl
  · cases he
  · cases he
    exact ⟨_, rfl⟩

end ExecutionLayer
