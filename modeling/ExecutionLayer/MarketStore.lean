import ExecutionLayer.Library.FiniteMap
import ExecutionLayer.Types

/-!
# In-process market data

`MarketStore` (`market_store.cpp`) is the crypto half: the last quote and a
bounded price history per symbol, the catalog, the streaming universe, the
display names, and the two request lists that the terminal fills and the
feedhandler drains.  One mutex covers every method, so a method is one step.

`StockFeed` (`stock_feed.hpp`) is the stock half as the engine sees it: the
watch list, the caches behind its cached reads, and the queued errors.
-/

namespace ExecutionLayer

open FiniteMap

/-- Trade points retained per symbol. -/
def kHistoryCap : Nat := 4096

/-- `while (h.size() > kHistoryCap) h.pop_front();` -/
def trimHistory (h : List PricePoint) : List PricePoint :=
  h.drop (h.length - kHistoryCap)

/-- `std::numeric_limits<TimestampNs>::max()` -/
def maxTimestampNs : Int := 2 ^ 63 - 1

structure MarketStore where
  lastQuote : Finmap fun _ : String => Quote := ∅
  histories : Finmap fun _ : String => List PricePoint := ∅
  products : List String := []
  universeSyms : List String := []
  requested : List String := []
  historyRequests : List String := []
  names : Finmap fun _ : String => String := ∅
  feedAttached : Bool := false
deriving DecidableEq

namespace MarketStore

/-! ### Writer half -/

def onQuote (store : MarketStore) (q : Quote) : MarketStore :=
  if q.symbol = "" then store
  else { store with lastQuote := store.lastQuote.insert q.symbol q }

def onTrade (store : MarketStore) (symbol : String) (price : ℚ)
    (tsNs : Int) : MarketStore :=
  if symbol = "" ∨ ¬ 0 < price then store
  else
    let h := lookupD store.histories symbol []
    { store with
      histories := store.histories.insert symbol
        (trimHistory (h ++ [{ tsNs := tsNs, price := price }])) }

/-- The time stamp that backfilled points must be older than. -/
def oldestTsNs (h : List PricePoint) : Int :=
  match h with
  | [] => maxTimestampNs
  | p :: _ => p.tsNs

def backfillHistory (store : MarketStore) (symbol : String)
    (points : List PricePoint) : MarketStore :=
  if symbol = "" ∨ points = [] then store
  else
    let h := lookupD store.histories symbol []
    let older := points.filter fun p =>
      0 < p.price ∧ 0 < p.tsNs ∧ p.tsNs < oldestTsNs h
    { store with
      histories := store.histories.insert symbol
        (trimHistory (older ++ h)) }

def setProducts (store : MarketStore) (products : List String) :
    MarketStore :=
  { store with products := products }

def setUniverse (store : MarketStore) (syms : List String) :
    MarketStore :=
  { store with universeSyms := syms }

def setNames (store : MarketStore)
    (names : Finmap fun _ : String => String) : MarketStore :=
  { store with names := names }

def setFeedAttached (store : MarketStore) (attached : Bool) :
    MarketStore :=
  { store with feedAttached := attached }

/-- Drain the symbols the terminal has asked to start streaming. -/
def takeRequested (store : MarketStore) : List String × MarketStore :=
  (store.requested, { store with requested := [] })

/-- Drain the symbols the terminal wants chart backfill for. -/
def takeHistoryRequests (store : MarketStore) :
    List String × MarketStore :=
  (store.historyRequests, { store with historyRequests := [] })

/-! ### Reader half -/

def connected (store : MarketStore) : Bool :=
  store.feedAttached

/-- Latest quote of each requested symbol, without those that have none. -/
def snapshot (store : MarketStore) (symbols : List String) : List Quote :=
  symbols.filterMap store.lastQuote.lookup

/-- The last `n` trade points, oldest first. -/
def history (store : MarketStore) (symbol : String) (n : Int) :
    List PricePoint :=
  match store.histories.lookup symbol with
  | none => []
  | some h =>
      if n ≤ 0 then []
      else h.drop (h.length - min n.toNat h.length)

def name (store : MarketStore) (symbol : String) : String :=
  lookupD store.names symbol ""

/-- Ask the feed to start streaming `symbol`. -/
def addSymbol (store : MarketStore) (symbol : String) : MarketStore :=
  if symbol = "" then store
  else if symbol ∈ store.requested then store
  else { store with requested := store.requested ++ [symbol] }

/-- Ask the feed for historical candles of `symbol`. -/
def requestHistory (store : MarketStore) (symbol : String) : MarketStore :=
  if symbol = "" then store
  else if symbol ∈ store.historyRequests then store
  else
    { store with historyRequests := store.historyRequests ++ [symbol] }

/-! ### The request list -/

/-- A symbol that was added is pending. -/
theorem mem_requested_addSymbol
    (store : MarketStore) {symbol : String} (h : symbol ≠ "") :
    symbol ∈ (store.addSymbol symbol).requested := by
  rw [addSymbol, if_neg h]
  split_ifs with hmem
  · exact hmem
  · simp

/-- Adding a symbol drops no pending request. -/
theorem requested_subset_addSymbol
    (store : MarketStore) (symbol : String) :
    store.requested ⊆ (store.addSymbol symbol).requested := by
  intro s hs
  unfold addSymbol
  split_ifs
  · exact hs
  · exact hs
  · exact List.mem_append_left _ hs

@[simp] theorem requestHistory_requested
    (store : MarketStore) (symbol : String) :
    (store.requestHistory symbol).requested = store.requested := by
  unfold requestHistory
  split_ifs <;> rfl

/-- The writer half leaves the request list alone. -/
@[simp] theorem onQuote_requested (store : MarketStore) (q : Quote) :
    (store.onQuote q).requested = store.requested := by
  unfold onQuote
  split_ifs <;> rfl

@[simp] theorem onTrade_requested
    (store : MarketStore) (symbol : String) (price : ℚ) (tsNs : Int) :
    (store.onTrade symbol price tsNs).requested = store.requested := by
  unfold onTrade
  split_ifs <;> rfl

@[simp] theorem backfillHistory_requested
    (store : MarketStore) (symbol : String) (points : List PricePoint) :
    (store.backfillHistory symbol points).requested = store.requested := by
  unfold backfillHistory
  split_ifs <;> rfl

end MarketStore

/-- The stock poller's caches, and whether its client has credentials. -/
structure StockFeed where
  configured : Bool := false
  symbols : List String := []
  quotes : Finmap fun _ : String => Quote := ∅
  histories : Finmap fun _ : String => List PricePoint := ∅
  names : Finmap fun _ : String => String := ∅
  errorList : List String := []
deriving DecidableEq

namespace StockFeed

/-- Start watching a symbol (idempotent). -/
def watch (stocks : StockFeed) (symbol : String) : StockFeed :=
  if symbol ∈ stocks.symbols then stocks
  else { stocks with symbols := stocks.symbols ++ [symbol] }

def snapshot (stocks : StockFeed) : Finmap fun _ : String => Quote :=
  stocks.quotes

def history (stocks : StockFeed) (symbol : String) : List PricePoint :=
  lookupD stocks.histories symbol []

def name (stocks : StockFeed) (symbol : String) : String :=
  lookupD stocks.names symbol ""

/-- Drain the queued errors. -/
def errors (stocks : StockFeed) : List String × StockFeed :=
  (stocks.errorList, { stocks with errorList := [] })

/-! ### What the polling thread writes -/

/-- Points retained per symbol, and the newest points of a series. -/
def kHistoryCap : Nat := 4096

def trim (h : List PricePoint) : List PricePoint :=
  h.drop (h.length - kHistoryCap)

/-- Price to chart for a quote: the mid, or the side that is there. -/
def chartPrice (q : Quote) : ℚ :=
  if 0 < q.bid ∧ 0 < q.ask then q.mid
  else if 0 < q.bid then q.bid
  else q.ask

/-- Queue an error, and keep the newest 50. -/
def noteError (stocks : StockFeed) (e : String) : StockFeed :=
  { stocks with
    errorList :=
      (stocks.errorList ++ [e]).drop ((stocks.errorList ++ [e]).length - 50) }

/-- The answer to the one backfill request of a symbol. -/
def storeBars (stocks : StockFeed) (symbol : String)
    (bars : List PricePoint) (lastError : String) : StockFeed :=
  let stocks :=
    if bars = [] then
      stocks.noteError ("alpaca backfill " ++ symbol ++ ": " ++ lastError)
    else stocks
  { stocks with
    histories := stocks.histories.insert symbol
      (trim (bars ++ lookupD stocks.histories symbol [])) }

/-- The display name of a symbol, also when it is empty. -/
def storeName (stocks : StockFeed) (symbol name : String) : StockFeed :=
  { stocks with names := stocks.names.insert symbol name }

/-- One fresh quote: it is cached, and its price is sampled. -/
def storeQuote (stocks : StockFeed) (symbol : String) (q : Quote) :
    StockFeed :=
  let px := chartPrice q
  { stocks with
    quotes := stocks.quotes.insert symbol q
    histories :=
      if 0 < px then
        stocks.histories.insert symbol
          (trim (lookupD stocks.histories symbol [] ++
            [{ tsNs := q.tsNs, price := px }]))
      else stocks.histories }

/-- The answer to a poll: `fresh` is read entry by entry. -/
def storeQuotes (stocks : StockFeed) (fresh : List (String × Quote))
    (lastError : String) : StockFeed :=
  if fresh = [] then stocks.noteError ("alpaca quotes: " ++ lastError)
  else fresh.foldl (fun stocks e => stocks.storeQuote e.1 e.2) stocks

end StockFeed

end ExecutionLayer
