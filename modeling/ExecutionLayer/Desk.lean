import ExecutionLayer.EngineAccount
import ExecutionLayer.FeedServer

/-!
# The desk: the engine and the threads that feed it

Three threads share the engine's state.  The engine thread runs the loop of
`engine.cpp`.  The thread of `FeedServer` writes the market store and drains
its request lists when the feedhandler polls.  The thread of `StockFeed`
writes the stock caches.  Every access is one critical section, so a run of
the desk is a list of `DeskStep`s.

A step of the desk is a step of the engine (`deskStep`): what the other
threads do is an update of the fields they own.  So what holds along every
run of the engine holds along every run of the desk.
-/

namespace ExecutionLayer

open FiniteMap StepSystem FeedServer

/-- A step of the engine's own thread. -/
def EngineStep.Own : EngineStep → Prop
  | .quote _ _ => False
  | .feeds _ _ => False
  | _ => True

/-- What the stock poller writes. -/
inductive StockUpdate where
  | bars (symbol : String) (points : List PricePoint) (lastError : String)
  | name (symbol name : String)
  | quotes (fresh : List (String × Quote)) (lastError : String)

namespace StockFeed

def update (stocks : StockFeed) : StockUpdate → StockFeed
  | .bars symbol points lastError =>
      stocks.storeBars symbol points lastError
  | .name symbol name => stocks.storeName symbol name
  | .quotes fresh lastError => stocks.storeQuotes fresh lastError

@[simp] theorem storeQuote_symbols
    (stocks : StockFeed) (symbol : String) (q : Quote) :
    (stocks.storeQuote symbol q).symbols = stocks.symbols := by
  rfl

theorem foldl_storeQuote_symbols
    (stocks : StockFeed) (fresh : List (String × Quote)) :
    (fresh.foldl (fun stocks e => stocks.storeQuote e.1 e.2)
      stocks).symbols = stocks.symbols := by
  induction fresh generalizing stocks with
  | nil =>
      rfl
  | cons e fresh ih =>
      rw [List.foldl_cons, ih, storeQuote_symbols]

/-- The poller does not change the watch list. -/
@[simp] theorem update_symbols (stocks : StockFeed) (u : StockUpdate) :
    (stocks.update u).symbols = stocks.symbols := by
  cases u with
  | bars symbol points lastError =>
      simp only [update, storeBars]
      split_ifs <;> rfl
  | name symbol name =>
      rfl
  | quotes fresh lastError =>
      simp only [update, storeQuotes]
      split_ifs
      · rfl
      · exact foldl_storeQuote_symbols stocks fresh

end StockFeed

/-- A step of one of the three threads. -/
inductive DeskStep where
  | engine (a : EngineStep) (own : a.Own)
  | store (c : StoreCall)
  | attached (attached : Bool)
  | takeRequested
  | takeHistoryRequests
  | stocks (u : StockUpdate)

namespace TradingEngine

/-- The step of a desk as a step of its engine. -/
def label (e : TradingEngine) : DeskStep → EngineStep
  | .engine a _ => a
  | .store c => .feeds (applyCall e.store c) e.stocks
  | .attached attached =>
      .feeds (e.store.setFeedAttached attached) e.stocks
  | .takeRequested => .feeds e.store.takeRequested.2 e.stocks
  | .takeHistoryRequests => .feeds e.store.takeHistoryRequests.2 e.stocks
  | .stocks u => .feeds e.store (e.stocks.update u)

def deskStep (e : TradingEngine) (d : DeskStep) : TradingEngine :=
  e.step (e.label d)

/-- The state after a list of steps of a desk that has just started. -/
def desk (symbols : List String) (capital : ℚ) (limits : RiskLimits)
    (configured : Bool) (ds : List DeskStep) : TradingEngine :=
  run deskStep (start symbols capital limits { configured := configured })
    ds

theorem desk_concat
    (symbols : List String) (capital : ℚ) (limits : RiskLimits)
    (configured : Bool) (ds : List DeskStep) (d : DeskStep) :
    desk symbols capital limits configured (ds ++ [d]) =
      (desk symbols capital limits configured ds).deskStep d := by
  rw [desk, run_append]
  rfl

/-- A run of the desk is a run of its engine. -/
theorem desk_eq_reached
    (symbols : List String) (capital : ℚ) (limits : RiskLimits)
    (configured : Bool) (ds : List DeskStep) :
    ∃ steps, desk symbols capital limits configured ds =
      reached symbols capital limits { configured := configured }
        steps := by
  induction ds using List.reverseRecOn with
  | nil =>
      exact ⟨[], rfl⟩
  | append_singleton ds d ih =>
      obtain ⟨steps, heq⟩ := ih
      refine ⟨steps ++
        [(desk symbols capital limits configured ds).label d], ?_⟩
      rw [desk_concat, reached, run_append, ← reached, ← heq]
      rfl

/-! ### What a step can do -/

/-- A stock is watched that was not. -/
def addStock (e : TradingEngine) (symbol : String) : TradingEngine :=
  { e with
    stockSymbols := e.stockSymbols ++ [symbol]
    stocks := e.stocks.watch symbol
    focus := symbol
    priceHist := [] }

/-- A crypto symbol is watched that was not. -/
def addCrypto (e : TradingEngine) (symbol : String) : TradingEngine :=
  { e with
    symbols := e.symbols ++ [symbol]
    store := e.store.addSymbol symbol
    focus := symbol
    priceHist := [] }

/-- The watch list of a class. -/
def watchList (e : TradingEngine) : AssetClass → List String
  | .crypto => e.symbols
  | .stock => e.stockSymbols

/-- The command adds its symbol to the watch list of `cls`. -/
structure Adds (e : TradingEngine) (cls : AssetClass) (c : Command) :
    Prop where
  type_eq : c.type = .addSymbol
  symbol_ne : c.symbol ≠ ""
  class_eq : c.assetClass = cls
  symbol_new : c.symbol ∉ e.watchList cls

theorem process_of_adds_stock
    {e : TradingEngine} {c : Command} (h : e.Adds .stock c) :
    e.process c = e.addStock c.symbol := by
  have hnew : c.symbol ∉ e.stockSymbols := h.symbol_new
  rw [process, if_pos h.type_eq, processAddSymbol, if_neg h.symbol_ne,
    if_pos h.class_eq, if_neg hnew, addStock]

theorem process_of_adds_crypto
    {e : TradingEngine} {c : Command} (h : e.Adds .crypto c) :
    e.process c = e.addCrypto c.symbol := by
  have hnew : c.symbol ∉ e.symbols := h.symbol_new
  have hcls : ¬ c.assetClass = .stock := by simp [h.class_eq]
  rw [process, if_pos h.type_eq, processAddSymbol, if_neg h.symbol_ne,
    if_neg hcls, if_neg hnew, addCrypto]

/-- A command that adds nothing moves the focus, or acts on the order manager
alone. -/
theorem process_of_not_adds
    {e : TradingEngine} {c : Command} (h : ∀ cls, ¬ e.Adds cls c) :
    (c.symbol ≠ "" ∧ c.symbol ≠ e.focus ∧
        e.process c = { e with focus := c.symbol, priceHist := [] }) ∨
      ∃ oms, e.process c = { e with oms := oms } := by
  unfold process
  by_cases hadd : c.type = .addSymbol
  · refine Or.inr ⟨e.oms, ?_⟩
    rw [if_pos hadd, processAddSymbol]
    by_cases hempty : c.symbol = ""
    · rw [if_pos hempty]
    · rw [if_neg hempty]
      have hold : c.symbol ∈ e.watchList c.assetClass := by
        by_contra hnew
        exact h c.assetClass ⟨hadd, hempty, rfl, hnew⟩
      cases hcls : c.assetClass with
      | crypto =>
          rw [hcls, watchList] at hold
          rw [if_neg (by simp), if_pos hold]
      | stock =>
          rw [hcls, watchList] at hold
          rw [if_pos rfl, if_pos hold]
  · rw [if_neg hadd]
    by_cases hfocus : c.type = .setFocus
    · rw [if_pos hfocus, processSetFocus]
      by_cases hnew : c.symbol ≠ "" ∧ c.symbol ≠ e.focus
      · rw [if_pos hnew]
        exact Or.inl ⟨hnew.1, hnew.2, rfl⟩
      · rw [if_neg hnew]
        exact Or.inr ⟨e.oms, rfl⟩
    · rw [if_neg hfocus]
      refine Or.inr ?_
      by_cases hkill : c.type = .kill
      · rw [if_pos hkill]
        exact ⟨_, rfl⟩
      · rw [if_neg hkill, processTrade_eq]
        exact ⟨_, rfl⟩

/-- A command adds a stock, adds a crypto symbol, moves the focus, or acts on
the order manager alone. -/
theorem process_cases (e : TradingEngine) (c : Command) :
    (e.Adds .stock c ∧ e.process c = e.addStock c.symbol) ∨
      (e.Adds .crypto c ∧ e.process c = e.addCrypto c.symbol) ∨
      (∀ cls, ¬ e.Adds cls c) ∧
        ((c.symbol ≠ "" ∧ c.symbol ≠ e.focus ∧
            e.process c = { e with focus := c.symbol, priceHist := [] }) ∨
          ∃ oms, e.process c = { e with oms := oms }) := by
  by_cases hstock : e.Adds .stock c
  · exact Or.inl ⟨hstock, process_of_adds_stock hstock⟩
  · by_cases hcrypto : e.Adds .crypto c
    · exact Or.inr (Or.inl ⟨hcrypto, process_of_adds_crypto hcrypto⟩)
    · have hnone : ∀ cls, ¬ e.Adds cls c := by
        intro cls
        cases cls with
        | crypto =>
            exact hcrypto
        | stock =>
            exact hstock
      exact Or.inr (Or.inr ⟨hnone, process_of_not_adds hnone⟩)

/-- The engine's thread asks the store for streams and candles only. -/
theorem step_store_cases
    (e : TradingEngine) {a : EngineStep} (own : a.Own) :
    (e.step a).store = e.store ∨
      (∃ c, a = .command c ∧ e.Adds .crypto c ∧
        (e.step a).store = e.store.addSymbol c.symbol) ∨
      (e.step a).store = e.store.requestHistory e.focus := by
  cases a with
  | command c =>
      rcases e.process_cases c with
        ⟨_, heq⟩ | ⟨hadds, heq⟩ | ⟨_, ⟨_, _, heq⟩ | ⟨oms, heq⟩⟩
      · exact Or.inl (by rw [step, heq, addStock])
      · exact Or.inr (Or.inl ⟨c, rfl, hadds, by rw [step, heq, addCrypto]⟩)
      · exact Or.inl (by rw [step, heq])
      · exact Or.inl (by rw [step, heq])
  | quote symbol q =>
      exact own.elim
  | feeds store stocks =>
      exact own.elim
  | requestFocusHistory =>
      simp only [step, requestFocusHistory]
      split_ifs
      · exact Or.inr (Or.inr rfl)
      · exact Or.inl rfl
  | refreshHistory now =>
      refine Or.inl ?_
      simp only [step, refreshHistory]
      split_ifs <;> rfl
  | refreshCatalog now =>
      refine Or.inl ?_
      simp only [step, refreshCatalog]
      split_ifs <;> rfl
  | readCryptoQuotes =>
      exact Or.inl rfl
  | readStockQuotes =>
      exact Or.inl rfl
  | drainErrors =>
      exact Or.inl rfl
  | publish =>
      exact Or.inl (by rw [step, publish])

end TradingEngine

end ExecutionLayer
