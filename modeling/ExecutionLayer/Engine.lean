import ExecutionLayer.Library.MachineInt
import ExecutionLayer.MarketStore
import ExecutionLayer.OrderRuns

/-!
# The trading engine

`TradingEngine` of `engine.cpp`: the thread that owns the account, the quote
cache and the watch lists.  A cycle of its loop drains the posted commands,
copies the feeds' quotes into the cache, refreshes chart, catalog and watch
list when they are due, and publishes a view.

The feeds are fields of the engine that other threads write, so a run is a
list of `EngineStep`s in which anything may happen to them, and to the quote
cache, between two steps of the engine.  The event log is left out.  Two steps
read the store twice, `refresh_catalog` for the catalog and the universe and
`publish` for the connection and the name of the focus, each read under a lock
of its own; the two reads of one step are taken together here.

`step_oms` says what a step does to the order manager: at most one call, and
a call that trades is a market order on a quoted symbol.  So the account of
an engine run is that of a run of the order manager (`reached_oms`).
-/

namespace ExecutionLayer

open FiniteMap MachineInt StepSystem

/-- Per-symbol row: live top of book and our position in it. -/
structure SymbolView where
  symbol : String := ""
  assetClass : AssetClass := .crypto
  hasQuote : Bool := false
  bid : ℚ := 0
  ask : ℚ := 0
  mid : ℚ := 0
  bsize : ℚ := 0
  asize : ℚ := 0
  netQty : ℚ := 0
  avgPrice : ℚ := 0
  unrealized : ℚ := 0
  realized : ℚ := 0
deriving DecidableEq, Repr

/-- A closed round trip as it is shown. -/
structure ClosedPositionView where
  symbol : String := ""
  assetClass : AssetClass := .crypto
  qty : ℚ := 0
  avgEntry : ℚ := 0
  exitPrice : ℚ := 0
  realizedPnl : ℚ := 0
  closedTsNs : Int := 0
deriving DecidableEq, Repr

/-- The snapshot the terminal renders. -/
structure EngineView where
  connected : Bool := false
  riskKilled : Bool := false
  status : String := ""
  initialCapital : ℚ := 0
  cash : ℚ := 0
  equity : ℚ := 0
  totalPnl : ℚ := 0
  realized : ℚ := 0
  unrealized : ℚ := 0
  symbols : List SymbolView := []
  closedPositions : List ClosedPositionView := []
  products : List String := []
  focus : String := ""
  focusName : String := ""
  priceHistory : List ℚ := []
  priceAgeS : List ℚ := []
  pnlHistory : List ℚ := []
  equityHistory : List ℚ := []
  stocksEnabled : Bool := false
deriving DecidableEq, Repr

inductive CommandType where
  | buy
  | sell
  | flatten
  | addSymbol
  | kill
  | setFocus
deriving DecidableEq, Repr

/-- Command posted from the terminal to the engine thread. -/
structure Command where
  type : CommandType
  symbol : String := ""
  amount : ℚ := 0
  useNotional : Bool := true
  assetClass : AssetClass := .crypto
deriving DecidableEq, Repr

/-- Quote cache. -/
abbrev QuoteMap := Finmap fun _ : String => Quote

structure TradingEngine where
  symbols : List String := []
  initialCapital : ℚ := 0
  store : MarketStore := {}
  stocks : StockFeed := {}
  oms : OrderManager := {}
  quotes : QuoteMap := ∅
  stockSymbols : List String := []
  focus : String := ""
  histRequested : Finset String := ∅
  products : List String := []
  priceHist : List PricePoint := []
  pnlHist : List ℚ := []
  eqHist : List ℚ := []
  nextHistory : Int := 0
  nextCatalog : Int := 0
  universeSeen : Bool := false
  view : EngineView := {}

namespace TradingEngine

def kHistoryEvery : Int := 100 * 10 ^ 6

def kChartPoints : Int := 4096

def kCatalogEvery : Int := 2 * 10 ^ 9

/-- Samples kept of the account series. -/
def kSeriesCap : Nat := 1800

/-- The constructor, and the funding that the loop starts with. -/
def start (symbols : List String) (capital : ℚ) (limits : RiskLimits)
    (stocks : StockFeed) : TradingEngine where
  symbols := symbols
  initialCapital := capital
  stocks := stocks
  oms := OrderManager.funded { limits := limits } capital
  focus := symbols.headD ""

def isStock (e : TradingEngine) (symbol : String) : Bool :=
  symbol ∈ e.stockSymbols

/-! ### Commands -/

def processAddSymbol (e : TradingEngine) (c : Command) : TradingEngine :=
  if c.symbol = "" then e
  else if c.assetClass = .stock then
    if c.symbol ∈ e.stockSymbols then e
    else
      { e with
        stockSymbols := e.stockSymbols ++ [c.symbol]
        stocks := e.stocks.watch c.symbol
        focus := c.symbol
        priceHist := [] }
  else if c.symbol ∈ e.symbols then e
  else
    { e with
      symbols := e.symbols ++ [c.symbol]
      store := e.store.addSymbol c.symbol
      focus := c.symbol
      priceHist := [] }

def processSetFocus (e : TradingEngine) (c : Command) : TradingEngine :=
  if c.symbol ≠ "" ∧ c.symbol ≠ e.focus then
    { e with focus := c.symbol, priceHist := [] }
  else e

def sideOf (c : Command) : Side :=
  if c.type = .buy then .buy else .sell

/-- The quantity of a buy or sell command at quote `q`. -/
def orderQty (c : Command) (q : Quote) : ℚ :=
  let ref := q.touch (sideOf c)
  if c.useNotional then (if 0 < ref then c.amount / ref else 0)
  else c.amount

/-- The market signal of a buy or sell command at quote `q`. -/
def orderSignal (c : Command) (q : Quote) : Signal where
  symbol := c.symbol
  side := sideOf c
  targetQty := orderQty c q
  type := .market
  limitPrice := 0
  strategy := "manual"
  tsNs := q.tsNs

/-- The commands that trade. -/
def processTrade (e : TradingEngine) (c : Command) : TradingEngine :=
  match e.quotes.lookup c.symbol with
  | none => e
  | some q =>
      if c.type = .flatten then
        { e with oms := (e.oms.flatten c.symbol q).2 }
      else if ¬ 0 < orderQty c q then e
      else { e with oms := (e.oms.submit (orderSignal c q) q).2 }

def process (e : TradingEngine) (c : Command) : TradingEngine :=
  if c.type = .addSymbol then e.processAddSymbol c
  else if c.type = .setFocus then e.processSetFocus c
  else if c.type = .kill then
    { e with
      oms :=
        { e.oms with
          risk := e.oms.risk.kill "manual halt (terminal)" } }
  else e.processTrade c

/-! ### The loop -/

/-- Copy the last quotes of the crypto watch list. -/
def readCryptoQuotes (e : TradingEngine) : TradingEngine :=
  { e with
    quotes := (e.store.snapshot e.symbols).foldl
      (fun m q => m.insert q.symbol q) e.quotes }

/-- Copy all stock quotes. -/
def readStockQuotes (e : TradingEngine) : TradingEngine :=
  { e with quotes := e.stocks.snapshot ∪ e.quotes }

/-- Ask for candles the first time a crypto symbol is charted. -/
def requestFocusHistory (e : TradingEngine) : TradingEngine :=
  if e.focus ≠ "" ∧ e.isStock e.focus = false ∧
      e.focus ∉ e.histRequested then
    { e with
      histRequested := insert e.focus e.histRequested
      store := e.store.requestHistory e.focus }
  else e

/-- Read the chart series of the focused symbol when it is due. -/
def refreshHistory (e : TradingEngine) (now : Int) : TradingEngine :=
  if e.focus ≠ "" ∧ e.nextHistory ≤ now then
    { e with
      priceHist :=
        if e.isStock e.focus then e.stocks.history e.focus
        else e.store.history e.focus kChartPoints
      nextHistory := now + kHistoryEvery }
  else e

/-- The stock feed's errors are drained into the event log. -/
def drainErrors (e : TradingEngine) : TradingEngine :=
  { e with stocks := e.stocks.errors.2 }

/-- Append the streaming symbols that are not watched yet. -/
def mergeUniverse (symbols streaming : List String) : List String :=
  streaming.foldl (fun ss s => if s ∈ ss then ss else ss ++ [s]) symbols

/-- Read catalog and universe when due, or until both have landed. -/
def refreshCatalog (e : TradingEngine) (now : Int) : TradingEngine :=
  if e.nextCatalog ≤ now ∨ e.products = [] ∨ e.universeSeen = false then
    let symbols := mergeUniverse e.symbols e.store.universeSyms
    { e with
      products := e.store.products
      universeSeen := e.universeSeen || !e.store.universeSyms.isEmpty
      symbols := symbols
      focus := if e.focus = "" then symbols.headD "" else e.focus
      nextCatalog := now + kCatalogEvery }
  else e

/-! ### The view -/

/-- Every cached quote marks its symbol at the mid. -/
def marks (e : TradingEngine) : MarkMap :=
  mapValues Quote.mid e.quotes

def buildRow (e : TradingEngine) (cls : AssetClass) (sym : String) :
    SymbolView :=
  let sv : SymbolView := { symbol := sym, assetClass := cls }
  let sv :=
    match e.quotes.lookup sym with
    | none => sv
    | some q =>
        { sv with
          hasQuote := true
          bid := q.bid
          ask := q.ask
          mid := q.mid
          bsize := q.bsize
          asize := q.asize }
  match e.oms.portfolio.positions.lookup sym with
  | none => sv
  | some p =>
      { sv with
        netQty := p.netQty
        avgPrice := p.avgPrice
        realized := p.realizedPnl
        unrealized :=
          if sv.hasQuote then p.unrealized sv.mid else sv.unrealized }

def closedView (e : TradingEngine) (c : ClosedPosition) :
    ClosedPositionView where
  symbol := c.symbol
  assetClass := if e.isStock c.symbol then .stock else .crypto
  qty := c.qty
  avgEntry := c.avgEntry
  exitPrice := c.exitPrice
  realizedPnl := c.realizedPnl
  closedTsNs := c.closedTsNs

/-- Push a sample and keep the newest `kSeriesCap`. -/
def pushSample (series : List ℚ) (x : ℚ) : List ℚ :=
  (series ++ [x]).drop ((series ++ [x]).length - kSeriesCap)

/-- The ages of the chart points against the newest one, in seconds.  The
difference of two time stamps has 64 bits. -/
def priceAges (points : List PricePoint) : List ℚ :=
  let newest := (points.getLast?.map PricePoint.tsNs).getD 0
  points.map fun p => (wrapInt64 (p.tsNs - newest) : ℚ) / 10 ^ 9

def buildView (e : TradingEngine) : EngineView :=
  let pf := e.oms.portfolio
  { connected := e.store.connected
    riskKilled := e.oms.risk.killed
    status := if e.store.connected then "LIVE" else "DISCONNECTED"
    initialCapital := pf.initialCapital
    cash := pf.cash
    equity := pf.equity e.marks
    totalPnl := pf.totalPnl e.marks
    realized := pf.realized
    unrealized := pf.unrealized e.marks
    symbols :=
      e.symbols.map (e.buildRow .crypto) ++
        e.stockSymbols.map (e.buildRow .stock)
    closedPositions := pf.closed.reverse.map e.closedView
    products := e.products
    focus := e.focus
    focusName :=
      if e.focus = "" then ""
      else if e.isStock e.focus then e.stocks.name e.focus
      else e.store.name e.focus
    priceHistory := e.priceHist.map PricePoint.price
    priceAgeS := priceAges e.priceHist
    pnlHistory := pushSample e.pnlHist (pf.totalPnl e.marks)
    equityHistory := pushSample e.eqHist (pf.equity e.marks)
    stocksEnabled := e.stocks.configured }

def publish (e : TradingEngine) : TradingEngine :=
  { e with
    pnlHist := pushSample e.pnlHist e.buildView.totalPnl
    eqHist := pushSample e.eqHist e.buildView.equity
    view := e.buildView }

/-- One cycle of the engine loop. -/
def cycle (e : TradingEngine) (pending : List Command) (now : Int) :
    TradingEngine :=
  let e := pending.foldl process e
  let e := e.readCryptoQuotes.readStockQuotes
  let e := e.requestFocusHistory.refreshHistory now
  (e.drainErrors.refreshCatalog now).publish

end TradingEngine

/-! ### Runs -/

/-- A step of the engine, an update of the quote cache, or a step of the
threads that own the feeds. -/
inductive EngineStep where
  | command (c : Command)
  | quote (symbol : String) (q : Quote)
  | feeds (store : MarketStore) (stocks : StockFeed)
  | readCryptoQuotes
  | readStockQuotes
  | requestFocusHistory
  | refreshHistory (now : Int)
  | drainErrors
  | refreshCatalog (now : Int)
  | publish

namespace TradingEngine

def step (e : TradingEngine) : EngineStep → TradingEngine
  | .command c => e.process c
  | .quote symbol q => { e with quotes := e.quotes.insert symbol q }
  | .feeds store stocks => { e with store := store, stocks := stocks }
  | .readCryptoQuotes => e.readCryptoQuotes
  | .readStockQuotes => e.readStockQuotes
  | .requestFocusHistory => e.requestFocusHistory
  | .refreshHistory now => e.refreshHistory now
  | .drainErrors => e.drainErrors
  | .refreshCatalog now => e.refreshCatalog now
  | .publish => e.publish

/-- The state after a list of steps of a started engine. -/
def reached (symbols : List String) (capital : ℚ) (limits : RiskLimits)
    (stocks : StockFeed) (steps : List EngineStep) : TradingEngine :=
  run step (start symbols capital limits stocks) steps

/-- A cycle of the loop is a run of the engine's own steps. -/
theorem cycle_eq_run
    (e : TradingEngine) (pending : List Command) (now : Int) :
    e.cycle pending now =
      run step e
        (pending.map .command ++
          [.readCryptoQuotes, .readStockQuotes, .requestFocusHistory,
            .refreshHistory now, .drainErrors, .refreshCatalog now,
            .publish]) := by
  have hcommands : run step e (pending.map .command) =
      pending.foldl process e := by
    simp only [run, List.foldl_map]
    rfl
  rw [run_append, hcommands]
  rfl

/-! ### What a step does to the order manager -/

/-- The call of a command that trades. -/
def tradeCall (e : TradingEngine) (c : Command) : Option OmsCall :=
  (e.quotes.lookup c.symbol).bind fun q =>
    if c.type = .flatten then some (.flatten c.symbol q)
    else if 0 < orderQty c q then some (.submit (orderSignal c q) q)
    else none

/-- The call on the order manager that a step makes, if it makes one. -/
def callOf (e : TradingEngine) : EngineStep → Option OmsCall
  | .command c =>
      if c.type = .addSymbol ∨ c.type = .setFocus then none
      else if c.type = .kill then some (.kill "manual halt (terminal)")
      else e.tradeCall c
  | _ => none

theorem processAddSymbol_oms (e : TradingEngine) (c : Command) :
    (e.processAddSymbol c).oms = e.oms := by
  unfold processAddSymbol
  split_ifs <;> rfl

theorem processSetFocus_oms (e : TradingEngine) (c : Command) :
    (e.processSetFocus c).oms = e.oms := by
  unfold processSetFocus
  split_ifs <;> rfl

/-- A command that trades changes the order manager alone. -/
theorem processTrade_eq (e : TradingEngine) (c : Command) :
    e.processTrade c =
      { e with oms := (e.tradeCall c).elim e.oms e.oms.call } := by
  unfold processTrade tradeCall
  cases e.quotes.lookup c.symbol with
  | none =>
      rfl
  | some q =>
      simp only [Option.bind_some]
      by_cases hflat : c.type = .flatten
      · simp [hflat, OrderManager.call]
      · by_cases hqty : 0 < orderQty c q
        · simp [hflat, hqty, OrderManager.call]
        · simp [hflat, hqty]

theorem process_oms (e : TradingEngine) (c : Command) :
    (e.process c).oms =
      (e.callOf (.command c)).elim e.oms e.oms.call := by
  unfold process callOf
  by_cases hadd : c.type = .addSymbol
  · simp [hadd, processAddSymbol_oms]
  · by_cases hfocus : c.type = .setFocus
    · simp [hfocus, processSetFocus_oms]
    · by_cases hkill : c.type = .kill
      · simp [hkill, OrderManager.call]
      · simp [hadd, hfocus, hkill, processTrade_eq]

/-- A step acts on the order manager by its call only. -/
theorem step_oms (e : TradingEngine) (a : EngineStep) :
    (e.step a).oms = (e.callOf a).elim e.oms e.oms.call := by
  cases a with
  | command c =>
      exact process_oms e c
  | quote symbol q =>
      simp only [step, callOf, Option.elim_none]
  | feeds store stocks =>
      simp only [step, callOf, Option.elim_none]
  | readCryptoQuotes =>
      simp only [step, readCryptoQuotes, callOf, Option.elim_none]
  | readStockQuotes =>
      simp only [step, readStockQuotes, callOf, Option.elim_none]
  | requestFocusHistory =>
      simp only [step, requestFocusHistory, callOf, Option.elim_none]
      split_ifs <;> rfl
  | refreshHistory now =>
      simp only [step, refreshHistory, callOf, Option.elim_none]
      split_ifs <;> rfl
  | drainErrors =>
      simp only [step, drainErrors, callOf, Option.elim_none]
  | refreshCatalog now =>
      simp only [step, refreshCatalog, callOf, Option.elim_none]
      split_ifs <;> rfl
  | publish =>
      simp only [step, publish, callOf, Option.elim_none]

/-- A signal of the engine is a market order on a quoted symbol. -/
theorem tradeCall_signal
    {e : TradingEngine} {cmd : Command} {c : OmsCall}
    (hcall : e.tradeCall cmd = some c)
    {oms : OrderManager} {sig : Signal} {market : Quote}
    (hsig : oms.signalOf c = some (sig, market)) :
    sig.type = .market ∧
      sig.symbol = cmd.symbol ∧
      e.quotes.lookup cmd.symbol = some market := by
  obtain ⟨q, hq, hcall⟩ := Option.bind_eq_some_iff.mp hcall
  split_ifs at hcall with hflat hqty
  · rw [← Option.some.inj hcall] at hsig
    simp only [OrderManager.signalOf] at hsig
    split_ifs at hsig
    simp only [Option.some.injEq, Prod.mk.injEq] at hsig
    obtain ⟨rfl, rfl⟩ := hsig
    exact ⟨rfl, rfl, hq⟩
  · rw [← Option.some.inj hcall] at hsig
    simp only [OrderManager.signalOf, Option.some.injEq,
      Prod.mk.injEq] at hsig
    obtain ⟨rfl, rfl⟩ := hsig
    exact ⟨rfl, rfl, hq⟩

theorem callOf_signal
    {e : TradingEngine} {a : EngineStep} {c : OmsCall}
    (hcall : e.callOf a = some c)
    {oms : OrderManager} {sig : Signal} {market : Quote}
    (hsig : oms.signalOf c = some (sig, market)) :
    ∃ cmd, a = .command cmd ∧
      sig.type = .market ∧
      sig.symbol = cmd.symbol ∧
      e.quotes.lookup cmd.symbol = some market := by
  cases a with
  | command cmd =>
      refine ⟨cmd, rfl, ?_⟩
      simp only [callOf] at hcall
      split_ifs at hcall with h hkill
      · rw [← Option.some.inj hcall] at hsig
        cases hsig
      · exact tradeCall_signal hcall hsig
  | _ =>
      simp [callOf] at hcall

/-- The order manager of an engine run is reached by calls, and every
signal of these calls is a market order. -/
theorem reached_oms
    (symbols : List String) (capital : ℚ) (limits : RiskLimits)
    (stocks : StockFeed) (steps : List EngineStep) :
    ∃ calls : List OmsCall,
      (∀ c ∈ calls, ∀ oms : OrderManager,
        OrderManager.Signals (fun _ sig _ => sig.type = .market) oms c) ∧
      (reached symbols capital limits stocks steps).oms =
        OrderManager.reached { limits := limits } capital calls := by
  refine exists_run_of_simulation step OrderManager.call oms
    (fun c => ∀ oms : OrderManager,
      OrderManager.Signals (fun _ sig _ => sig.type = .market) oms c)
    ?_ (start symbols capital limits stocks) steps
  intro e a
  refine ⟨(e.callOf a).toList, ?_, ?_⟩
  · intro c hc oms sig market hsig
    obtain ⟨_, _, htype, _⟩ :=
      callOf_signal (Option.mem_toList.mp hc) hsig
    exact htype
  · rw [step_oms]
    cases e.callOf a with
    | none =>
        rfl
    | some c =>
        rfl

/-! ### The quote cache only grows -/

theorem mem_foldl_insert
    {m : QuoteMap} {symbol : String} (h : symbol ∈ m) (qs : List Quote) :
    symbol ∈ qs.foldl (fun m q => m.insert q.symbol q) m := by
  induction qs generalizing m with
  | nil =>
      exact h
  | cons q qs ih =>
      exact ih (Finmap.mem_insert.mpr (Or.inr h))

theorem processAddSymbol_quotes (e : TradingEngine) (c : Command) :
    (e.processAddSymbol c).quotes = e.quotes := by
  unfold processAddSymbol
  split_ifs <;> rfl

theorem processSetFocus_quotes (e : TradingEngine) (c : Command) :
    (e.processSetFocus c).quotes = e.quotes := by
  unfold processSetFocus
  split_ifs <;> rfl

/-- Commands do not touch the quote cache. -/
theorem process_quotes (e : TradingEngine) (c : Command) :
    (e.process c).quotes = e.quotes := by
  unfold process
  split_ifs
  · exact processAddSymbol_quotes e c
  · exact processSetFocus_quotes e c
  · rfl
  · rw [processTrade_eq]

theorem mem_quotes_step
    {e : TradingEngine} {symbol : String} (h : symbol ∈ e.quotes)
    (a : EngineStep) :
    symbol ∈ (e.step a).quotes := by
  cases a with
  | command c =>
      rw [step, process_quotes]
      exact h
  | quote s q =>
      exact Finmap.mem_insert.mpr (Or.inr h)
  | readCryptoQuotes =>
      exact mem_foldl_insert h _
  | readStockQuotes =>
      exact Finmap.mem_union.mpr (Or.inr h)
  | requestFocusHistory =>
      simp only [step, requestFocusHistory]
      split_ifs <;> exact h
  | refreshHistory now =>
      simp only [step, refreshHistory]
      split_ifs <;> exact h
  | refreshCatalog now =>
      simp only [step, refreshCatalog]
      split_ifs <;> exact h
  | _ =>
      exact h

/-! ### The request list only grows -/

/-- A symbol that is added and not watched yet is requested. -/
theorem requested_process_addSymbol
    {e : TradingEngine} {c : Command}
    (htype : c.type = .addSymbol) (hclass : c.assetClass = .crypto)
    (hsym : c.symbol ≠ "") (hnew : c.symbol ∉ e.symbols) :
    c.symbol ∈ (e.process c).store.requested := by
  have hcls : ¬ c.assetClass = .stock := by simp [hclass]
  rw [process, if_pos htype, processAddSymbol, if_neg hsym, if_neg hcls,
    if_neg hnew]
  exact e.store.mem_requested_addSymbol hsym

theorem processAddSymbol_requested (e : TradingEngine) (c : Command) :
    e.store.requested ⊆ (e.processAddSymbol c).store.requested := by
  unfold processAddSymbol
  split_ifs
  · exact List.Subset.refl _
  · exact List.Subset.refl _
  · exact List.Subset.refl _
  · exact List.Subset.refl _
  · exact e.store.requested_subset_addSymbol c.symbol

theorem processSetFocus_store (e : TradingEngine) (c : Command) :
    (e.processSetFocus c).store = e.store := by
  unfold processSetFocus
  split_ifs <;> rfl

theorem process_requested (e : TradingEngine) (c : Command) :
    e.store.requested ⊆ (e.process c).store.requested := by
  unfold process
  split_ifs
  · exact processAddSymbol_requested e c
  · rw [processSetFocus_store]
    exact List.Subset.refl _
  · exact List.Subset.refl _
  · rw [processTrade_eq]
    exact List.Subset.refl _

/-- The engine's own steps drop no request. -/
theorem step_requested
    (e : TradingEngine) {a : EngineStep}
    (ha : ∀ store stocks, a ≠ .feeds store stocks) :
    e.store.requested ⊆ (e.step a).store.requested := by
  cases a with
  | command c =>
      exact process_requested e c
  | feeds store stocks =>
      exact absurd rfl (ha store stocks)
  | requestFocusHistory =>
      simp only [step, requestFocusHistory]
      split_ifs
      · rw [MarketStore.requestHistory_requested]
        exact List.Subset.refl _
      · exact List.Subset.refl _
  | refreshHistory now =>
      simp only [step, refreshHistory]
      split_ifs <;> exact List.Subset.refl _
  | refreshCatalog now =>
      simp only [step, refreshCatalog]
      split_ifs <;> exact List.Subset.refl _
  | _ =>
      exact List.Subset.refl _

end TradingEngine

end ExecutionLayer
