import ExecutionLayer.Desk

/-!
# Rows of the watch lists

A view has a row for every entry of the crypto watch list and one for every
entry of the stock watch list.  Quotes and positions are keyed by the symbol
alone.  Each of the three paths that extend a list looks for the symbol in
that list only: a user may watch as a stock what is already watched as
crypto, or the other way round, and the streaming universe may bring in a
symbol that is watched as a stock.

As long as none of that happens, every position has exactly one row, and the
rows add up to the totals (`one_row_each_iff`).
-/

namespace ExecutionLayer

open FeedServer FiniteMap StepSystem

namespace TradingEngine

/-! ### What a row shows -/

/-- What a position adds to the unrealized total. -/
def unrealizedAt (marks : MarkMap) (sym : String) (p : Position) : ℚ :=
  match marks.lookup sym with
  | some m => p.unrealized m
  | none => 0

/-- A row shows its symbol and what the position of it contributes. -/
theorem buildRow_shows
    (e : TradingEngine) (cls : AssetClass) (sym : String) :
    (e.buildRow cls sym).symbol = sym ∧
      (e.buildRow cls sym).realized =
        contribution (fun _ p => p.realizedPnl)
          e.oms.portfolio.positions sym ∧
      (e.buildRow cls sym).unrealized =
        contribution (unrealizedAt e.marks) e.oms.portfolio.positions
          sym := by
  unfold buildRow contribution unrealizedAt marks
  rw [lookup_mapValues]
  cases e.quotes.lookup sym with
  | none =>
      cases e.oms.portfolio.positions.lookup sym with
      | none =>
          exact ⟨rfl, rfl, rfl⟩
      | some p =>
          exact ⟨rfl, rfl, rfl⟩
  | some q =>
      cases e.oms.portfolio.positions.lookup sym with
      | none =>
          exact ⟨rfl, rfl, rfl⟩
      | some p =>
          exact ⟨rfl, rfl, rfl⟩

/-- The symbols of the rows of a view. -/
def rowSymbols (e : TradingEngine) : List String :=
  e.symbols ++ e.stockSymbols

/-- Every symbol has one row, and the rows add up to the totals. -/
structure OneRowEach (v : EngineView) : Prop where
  nodup : (v.symbols.map SymbolView.symbol).Nodup
  realized : (v.symbols.map SymbolView.realized).sum = v.realized
  unrealized : (v.symbols.map SymbolView.unrealized).sum = v.unrealized

theorem buildView_symbols (e : TradingEngine) {α : Type} (f : SymbolView → α)
    (g : String → α) (hf : ∀ cls sym, f (e.buildRow cls sym) = g sym) :
    e.buildView.symbols.map f = e.rowSymbols.map g := by
  have hcomp : ∀ cls, f ∘ e.buildRow cls = g := fun cls =>
    funext (hf cls)
  rw [buildView, List.map_append, List.map_map, List.map_map, hcomp, hcomp,
    ← List.map_append]
  rfl

/-- Rows of distinct symbols that cover the positions are right. -/
theorem oneRowEach_iff
    {e : TradingEngine}
    (hcover : ∀ sym ∈ e.oms.portfolio.positions, sym ∈ e.rowSymbols) :
    OneRowEach e.publish.view ↔ e.rowSymbols.Nodup := by
  change OneRowEach e.buildView ↔ _
  have hsymbols := e.buildView_symbols SymbolView.symbol id
    fun cls sym => (e.buildRow_shows cls sym).1
  rw [List.map_id] at hsymbols
  constructor
  · intro h
    have hnodup := h.nodup
    rw [hsymbols] at hnodup
    exact hnodup
  · intro h
    refine ⟨?_, ?_, ?_⟩
    · rw [hsymbols]
      exact h
    · rw [e.buildView_symbols _ _ fun cls sym =>
          (e.buildRow_shows cls sym).2.1,
        sum_contribution _ h hcover]
      rfl
    · rw [e.buildView_symbols _ _ fun cls sym =>
          (e.buildRow_shows cls sym).2.2,
        sum_contribution _ h hcover]
      rfl

/-! ### The watch lists -/

/-- The catalog is read when it is due, or until everything has landed. -/
def CatalogDue (e : TradingEngine) (now : Int) : Prop :=
  e.nextCatalog ≤ now ∨ e.products = [] ∨ e.universeSeen = false

theorem mem_mergeUniverse
    {symbols streaming : List String} {s : String} :
    s ∈ mergeUniverse symbols streaming ↔ s ∈ symbols ∨ s ∈ streaming := by
  unfold mergeUniverse
  induction streaming generalizing symbols with
  | nil =>
      simp
  | cons t streaming ih =>
      rw [List.foldl_cons, ih]
      by_cases ht : t ∈ symbols
      · rw [if_pos ht, List.mem_cons]
        constructor
        · rintro (hs | hs)
          · exact Or.inl hs
          · exact Or.inr (Or.inr hs)
        · rintro (hs | rfl | hs)
          · exact Or.inl hs
          · exact Or.inl ht
          · exact Or.inr hs
      · rw [if_neg ht, List.mem_append, List.mem_singleton, List.mem_cons,
          or_assoc]

theorem nodup_mergeUniverse
    {symbols : List String} (h : symbols.Nodup) (streaming : List String) :
    (mergeUniverse symbols streaming).Nodup := by
  unfold mergeUniverse
  induction streaming generalizing symbols with
  | nil =>
      exact h
  | cons t streaming ih =>
      rw [List.foldl_cons]
      by_cases ht : t ∈ symbols
      · rw [if_pos ht]
        exact ih h
      · rw [if_neg ht]
        exact ih (List.nodup_append.mpr
          ⟨h, List.nodup_singleton t, fun a ha b hb => by
            rw [List.mem_singleton.mp hb]
            exact fun heq => ht (heq ▸ ha)⟩)

/-- The step brings `s` to the watch list of `cls`: a command adds it, or it
streams and is not watched yet. -/
def Brings (e : TradingEngine) (d : DeskStep) (cls : AssetClass)
    (s : String) : Prop :=
  match d with
  | .engine (.command c) _ => e.Adds cls c ∧ s = c.symbol
  | .engine (.refreshCatalog now) _ =>
      cls = .crypto ∧ e.CatalogDue now ∧ s ∈ e.store.universeSyms ∧
        s ∉ e.symbols
  | _ => False

/-- What a step may do to the watch lists: nothing, watch one more stock, one
more crypto symbol, or the streaming universe. -/
inductive WatchStep (e : TradingEngine) (d : DeskStep) : Prop where
  | kept (brings : ∀ cls s, ¬ e.Brings d cls s)
      (symbols : (e.deskStep d).symbols = e.symbols)
      (stockSymbols : (e.deskStep d).stockSymbols = e.stockSymbols)
      (watched : (e.deskStep d).stocks.symbols = e.stocks.symbols)
  | stock (c : Command) (adds : e.Adds .stock c)
      (brings : ∀ cls s, e.Brings d cls s ↔ cls = .stock ∧ s = c.symbol)
      (after : e.deskStep d = e.addStock c.symbol)
  | crypto (c : Command) (adds : e.Adds .crypto c)
      (brings : ∀ cls s, e.Brings d cls s ↔ cls = .crypto ∧ s = c.symbol)
      (after : e.deskStep d = e.addCrypto c.symbol)
  | catalog
      (brings : ∀ cls s, e.Brings d cls s ↔
        cls = .crypto ∧ s ∈ e.store.universeSyms ∧ s ∉ e.symbols)
      (symbols : (e.deskStep d).symbols =
        mergeUniverse e.symbols e.store.universeSyms)
      (stockSymbols : (e.deskStep d).stockSymbols = e.stockSymbols)
      (watched : (e.deskStep d).stocks.symbols = e.stocks.symbols)

/-- A command adds to the list of its own class. -/
theorem adds_iff_of_adds
    {e : TradingEngine} {cls : AssetClass} {c : Command}
    (h : e.Adds cls c) (cls' : AssetClass) :
    e.Adds cls' c ↔ cls' = cls := by
  constructor
  · intro h'
    rw [← h'.class_eq, h.class_eq]
  · rintro rfl
    exact h

theorem watchStep (e : TradingEngine) (d : DeskStep) : WatchStep e d := by
  have hnone : ∀ {d}, (∀ cls s, e.Brings d cls s = False) →
      ∀ cls s, ¬ e.Brings d cls s := fun h cls s hb => h cls s ▸ hb
  cases d with
  | engine a own =>
      have hdesk : e.deskStep (.engine a own) = e.step a := rfl
      cases a with
      | command c =>
          rcases e.process_cases c with
            ⟨hadds, heq⟩ | ⟨hadds, heq⟩ | ⟨hnot, hcases⟩
          · refine .stock c hadds ?_ (by rw [hdesk, step, heq])
            intro cls s
            rw [Brings, adds_iff_of_adds hadds]
          · refine .crypto c hadds ?_ (by rw [hdesk, step, heq])
            intro cls s
            rw [Brings, adds_iff_of_adds hadds]
          · have hquiet : ∀ cls s,
                ¬ e.Brings (.engine (.command c) own) cls s :=
              fun cls s hb => hnot cls hb.1
            rcases hcases with ⟨_, _, heq⟩ | ⟨oms, heq⟩
            · refine .kept hquiet ?_ ?_ ?_
              all_goals rw [hdesk, step, heq]
            · refine .kept hquiet ?_ ?_ ?_
              all_goals rw [hdesk, step, heq]
      | quote symbol q =>
          exact own.elim
      | feeds store stocks =>
          exact own.elim
      | requestFocusHistory =>
          refine .kept (hnone fun _ _ => rfl) ?_ ?_ ?_
          all_goals
            rw [hdesk, step, requestFocusHistory]
            split_ifs <;> rfl
      | refreshHistory now =>
          refine .kept (hnone fun _ _ => rfl) ?_ ?_ ?_
          all_goals
            rw [hdesk, step, refreshHistory]
            by_cases hdue : e.focus ≠ "" ∧ e.nextHistory ≤ now
            · rw [if_pos hdue]
            · rw [if_neg hdue]
      | refreshCatalog now =>
          by_cases hdue : e.CatalogDue now
          · refine .catalog ?_ ?_ ?_ ?_
            · intro cls s
              rw [Brings]
              exact ⟨fun h => ⟨h.1, h.2.2⟩, fun h => ⟨h.1, hdue, h.2⟩⟩
            all_goals
              rw [hdesk, step, refreshCatalog]
              rw [CatalogDue] at hdue
              rw [if_pos hdue]
          · refine .kept (fun cls s hb => hdue hb.2.1) ?_ ?_ ?_
            all_goals
              rw [hdesk, step, refreshCatalog]
              rw [CatalogDue] at hdue
              rw [if_neg hdue]
      | readCryptoQuotes =>
          exact .kept (hnone fun _ _ => rfl) rfl rfl rfl
      | readStockQuotes =>
          exact .kept (hnone fun _ _ => rfl) rfl rfl rfl
      | drainErrors =>
          exact .kept (hnone fun _ _ => rfl) rfl rfl rfl
      | publish =>
          refine .kept (hnone fun _ _ => rfl) ?_ ?_ ?_
          all_goals rw [hdesk, step, publish]
  | stocks u =>
      exact .kept (hnone fun _ _ => rfl) rfl rfl
        (StockFeed.update_symbols e.stocks u)
  | _ =>
      exact .kept (hnone fun _ _ => rfl) rfl rfl rfl

/-- After a step a list holds what it held and what the step brings. -/
theorem mem_watchList_deskStep
    (e : TradingEngine) (d : DeskStep) (cls : AssetClass) (s : String) :
    s ∈ (e.deskStep d).watchList cls ↔
      s ∈ e.watchList cls ∨ e.Brings d cls s := by
  cases e.watchStep d with
  | kept brings symbols stockSymbols watched =>
      have hsame : (e.deskStep d).watchList cls = e.watchList cls := by
        cases cls with
        | crypto =>
            exact symbols
        | stock =>
            exact stockSymbols
      rw [hsame]
      exact (or_iff_left (brings cls s)).symm
  | stock c adds brings after =>
      rw [after, brings]
      cases cls with
      | crypto =>
          simp [addStock, watchList]
      | stock =>
          simp [addStock, watchList]
  | crypto c adds brings after =>
      rw [after, brings]
      cases cls with
      | crypto =>
          simp [addCrypto, watchList]
      | stock =>
          simp [addCrypto, watchList]
  | catalog brings symbols stockSymbols watched =>
      rw [brings]
      cases cls with
      | crypto =>
          rw [watchList, watchList, symbols, mem_mergeUniverse]
          tauto
      | stock =>
          simp [watchList, stockSymbols]

/-- A step brings nothing to two lists. -/
theorem class_of_brings
    {e : TradingEngine} {d : DeskStep} {cls cls' : AssetClass}
    {s s' : String} (h : e.Brings d cls s) (h' : e.Brings d cls' s') :
    cls = cls' := by
  cases e.watchStep d with
  | kept brings symbols stockSymbols watched =>
      exact absurd h (brings cls s)
  | stock c adds brings after =>
      rw [((brings _ _).mp h).1, ((brings _ _).mp h').1]
  | crypto c adds brings after =>
      rw [((brings _ _).mp h).1, ((brings _ _).mp h').1]
  | catalog brings symbols stockSymbols watched =>
      rw [((brings _ _).mp h).1, ((brings _ _).mp h').1]

/-- The step brings no symbol to a list that is on the other list. -/
def OneClass (e : TradingEngine) (d : DeskStep) : Prop :=
  ∀ cls other s, cls ≠ other → e.Brings d cls s → s ∉ e.watchList other

/-- The quotes that a poll of the stocks brings are of watched symbols. -/
def OnlyWatched (e : TradingEngine) : DeskStep → Prop
  | .stocks (.quotes fresh _) => ∀ p ∈ fresh, p.1 ∈ e.stocks.symbols
  | _ => True

instance (e : TradingEngine) (d : DeskStep) :
    Decidable (e.OnlyWatched d) := by
  unfold OnlyWatched
  split <;> infer_instance

/-- The lists only grow. -/
theorem subset_watchList_deskStep
    (e : TradingEngine) (d : DeskStep) (cls : AssetClass) :
    e.watchList cls ⊆ (e.deskStep d).watchList cls := fun s hs =>
  (e.mem_watchList_deskStep d cls s).mpr (Or.inl hs)

/-- A cached quote stands under its own symbol. -/
def Keyed (store : MarketStore) : Prop :=
  ∀ s q, store.lastQuote.lookup s = some q → q.symbol = s

theorem Keyed.applyCall
    {store : MarketStore} (h : Keyed store) (c : StoreCall) :
    Keyed (applyCall store c) := by
  cases c with
  | onQuote q =>
      rw [FeedServer.applyCall, MarketStore.onQuote]
      split_ifs with hempty
      · exact h
      · intro s q' hq'
        by_cases hs : s = q.symbol
        · subst hs
          rw [Finmap.lookup_insert] at hq'
          exact (Option.some.inj hq') ▸ rfl
        · rw [Finmap.lookup_insert_of_ne _ hs] at hq'
          exact h s q' hq'
  | onTrade symbol price tsNs =>
      rw [FeedServer.applyCall, MarketStore.onTrade]
      split_ifs
      · exact h
      · exact h
  | backfillHistory symbol points =>
      rw [FeedServer.applyCall, MarketStore.backfillHistory]
      split_ifs
      · exact h
      · exact h
  | _ =>
      exact h

theorem Keyed.deskStep
    {e : TradingEngine} (h : Keyed e.store) (d : DeskStep) :
    Keyed (e.deskStep d).store := by
  cases d with
  | engine a own =>
      change Keyed (e.step a).store
      rcases e.step_store_cases own with heq | ⟨c, _, _, heq⟩ | heq
      · rw [heq]
        exact h
      · rw [heq, MarketStore.addSymbol]
        split_ifs
        · exact h
        · exact h
        · exact h
      · rw [heq, MarketStore.requestHistory]
        split_ifs
        · exact h
        · exact h
        · exact h
  | store c =>
      exact h.applyCall c
  | _ =>
      exact h

theorem symbol_of_mem_snapshot
    {store : MarketStore} (h : Keyed store) {symbols : List String}
    {q : Quote} (hq : q ∈ store.snapshot symbols) :
    q.symbol ∈ symbols := by
  obtain ⟨s, hs, hlook⟩ := List.mem_filterMap.mp hq
  rw [h s q hlook]
  exact hs

theorem mem_of_mem_foldl_insert
    {m : QuoteMap} {qs : List Quote} {s : String}
    (h : s ∈ qs.foldl (fun m q => m.insert q.symbol q) m) :
    s ∈ m ∨ ∃ q ∈ qs, q.symbol = s := by
  induction qs generalizing m with
  | nil =>
      exact Or.inl h
  | cons q qs ih =>
      rcases ih h with hm | ⟨q', hq', hs⟩
      · rcases Finmap.mem_insert.mp hm with hs | hm
        · exact Or.inr ⟨q, List.mem_cons_self, hs.symm⟩
        · exact Or.inl hm
      · exact Or.inr ⟨q', List.mem_cons_of_mem q hq', hs⟩

/-- What comes into the quote cache is of a watched symbol. -/
theorem quotes_deskStep
    {e : TradingEngine} (hkeyed : Keyed e.store) (d : DeskStep)
    {s : String} (hs : s ∈ (e.deskStep d).quotes) :
    s ∈ e.quotes ∨ s ∈ e.symbols ∨ s ∈ e.stocks.quotes := by
  cases d with
  | engine a own =>
      change s ∈ (e.step a).quotes at hs
      cases a with
      | command c =>
          rw [step, process_quotes] at hs
          exact Or.inl hs
      | quote symbol q =>
          exact own.elim
      | feeds store stocks =>
          exact own.elim
      | readCryptoQuotes =>
          rcases mem_of_mem_foldl_insert hs with hs | ⟨q, hq, rfl⟩
          · exact Or.inl hs
          · exact Or.inr (Or.inl (symbol_of_mem_snapshot hkeyed hq))
      | readStockQuotes =>
          rcases Finmap.mem_union.mp hs with hs | hs
          · exact Or.inr (Or.inr hs)
          · exact Or.inl hs
      | requestFocusHistory =>
          rw [step, requestFocusHistory] at hs
          split_ifs at hs
          · exact Or.inl hs
          · exact Or.inl hs
      | refreshHistory now =>
          rw [step, refreshHistory] at hs
          split_ifs at hs
          · exact Or.inl hs
          · exact Or.inl hs
          · exact Or.inl hs
      | refreshCatalog now =>
          rw [step, refreshCatalog] at hs
          split_ifs at hs
          · exact Or.inl hs
          · exact Or.inl hs
          · exact Or.inl hs
      | _ =>
          exact Or.inl hs
  | _ =>
      exact Or.inl hs

theorem mem_foldl_storeQuote
    {stocks : StockFeed} {fresh : List (String × Quote)} {s : String}
    (h : s ∈ (fresh.foldl (fun stocks p => stocks.storeQuote p.1 p.2)
      stocks).quotes) :
    s ∈ stocks.quotes ∨ ∃ p ∈ fresh, p.1 = s := by
  induction fresh generalizing stocks with
  | nil =>
      exact Or.inl h
  | cons p fresh ih =>
      rcases ih h with hm | ⟨p', hp', hs⟩
      · rcases Finmap.mem_insert.mp hm with hs | hm
        · exact Or.inr ⟨p, List.mem_cons_self, hs.symm⟩
        · exact Or.inl hm
      · exact Or.inr ⟨p', List.mem_cons_of_mem p hp', hs⟩

/-- The engine's thread does not write the stock quotes. -/
theorem stockQuotes_step (e : TradingEngine) {a : EngineStep} (own : a.Own) :
    (e.step a).stocks.quotes = e.stocks.quotes := by
  cases a with
  | command c =>
      rcases e.process_cases c with
        ⟨_, heq⟩ | ⟨_, heq⟩ | ⟨_, ⟨_, _, heq⟩ | ⟨oms, heq⟩⟩
      · rw [step, heq, addStock, StockFeed.watch]
        split_ifs <;> rfl
      · rw [step, heq, addCrypto]
      · rw [step, heq]
      · rw [step, heq]
  | quote symbol q =>
      exact own.elim
  | feeds store stocks =>
      exact own.elim
  | requestFocusHistory =>
      rw [step, requestFocusHistory]
      split_ifs <;> rfl
  | refreshHistory now =>
      rw [step, refreshHistory]
      split_ifs <;> rfl
  | refreshCatalog now =>
      rw [step, refreshCatalog]
      split_ifs <;> rfl
  | publish =>
      rw [step, publish]
  | _ =>
      rfl

theorem stockQuotes_deskStep
    {e : TradingEngine} {d : DeskStep} (honly : e.OnlyWatched d)
    {s : String} (hs : s ∈ (e.deskStep d).stocks.quotes) :
    s ∈ e.stocks.quotes ∨ s ∈ e.stocks.symbols := by
  cases d with
  | engine a own =>
      change s ∈ (e.step a).stocks.quotes at hs
      rw [e.stockQuotes_step own] at hs
      exact Or.inl hs
  | stocks u =>
      change s ∈ (e.stocks.update u).quotes at hs
      cases u with
      | bars symbol points lastError =>
          rw [StockFeed.update, StockFeed.storeBars] at hs
          split_ifs at hs
          · exact Or.inl hs
          · exact Or.inl hs
      | name symbol name =>
          exact Or.inl hs
      | quotes fresh lastError =>
          rw [StockFeed.update, StockFeed.storeQuotes] at hs
          split_ifs at hs
          · exact Or.inl hs
          · rcases mem_foldl_storeQuote hs with hs | ⟨p, hp, rfl⟩
            · exact Or.inl hs
            · exact Or.inr (honly p hp)
  | _ =>
      exact Or.inl hs

/-- What ties the caches to the watch lists. -/
structure Listed (e : TradingEngine) : Prop where
  symbols_nodup : e.symbols.Nodup
  stocks_nodup : e.stockSymbols.Nodup
  watched : e.stocks.symbols = e.stockSymbols
  keyed : Keyed e.store
  stockQuotes : ∀ s ∈ e.stocks.quotes, s ∈ e.stockSymbols
  quotes : ∀ s ∈ e.quotes, s ∈ e.rowSymbols
  quoted : e.Quoted

theorem Listed.start
    {symbols : List String} (h : symbols.Nodup) (capital : ℚ)
    (limits : RiskLimits) (configured : Bool) :
    Listed (start symbols capital limits { configured := configured }) where
  symbols_nodup := h
  stocks_nodup := List.nodup_nil
  watched := rfl
  keyed := by
    intro s q hq
    rw [TradingEngine.start, Finmap.lookup_empty] at hq
    cases hq
  stockQuotes := fun s hs => absurd hs Finmap.notMem_empty
  quotes := fun s hs => absurd hs Finmap.notMem_empty
  quoted := fun s hs => absurd hs Finmap.notMem_empty

theorem Listed.deskStep
    {e : TradingEngine} (h : e.Listed) {d : DeskStep}
    (honly : e.OnlyWatched d) :
    (e.deskStep d).Listed := by
  have hsymbols := e.subset_watchList_deskStep d .crypto
  have hstocks := e.subset_watchList_deskStep d .stock
  have hlists : (e.deskStep d).symbols.Nodup ∧
      (e.deskStep d).stockSymbols.Nodup ∧
      (e.deskStep d).stocks.symbols = (e.deskStep d).stockSymbols := by
    cases e.watchStep d with
    | kept brings symbols stockSymbols watched =>
        rw [symbols, stockSymbols, watched]
        exact ⟨h.symbols_nodup, h.stocks_nodup, h.watched⟩
    | stock c adds brings after =>
        have hnew : c.symbol ∉ e.stockSymbols := adds.symbol_new
        rw [after, addStock, StockFeed.watch, h.watched, if_neg hnew,
          ← List.concat_eq_append]
        exact ⟨h.symbols_nodup, h.stocks_nodup.concat hnew, rfl⟩
    | crypto c adds brings after =>
        rw [after, addCrypto, ← List.concat_eq_append]
        exact ⟨h.symbols_nodup.concat adds.symbol_new, h.stocks_nodup,
          h.watched⟩
    | catalog brings symbols stockSymbols watched =>
        rw [symbols, stockSymbols, watched]
        exact ⟨nodup_mergeUniverse h.symbols_nodup _, h.stocks_nodup,
          h.watched⟩
  refine ⟨hlists.1, hlists.2.1, hlists.2.2, h.keyed.deskStep d, ?_, ?_,
    h.quoted.step _⟩
  · intro s hs
    apply hstocks
    rcases stockQuotes_deskStep honly hs with hs | hs
    · exact h.stockQuotes s hs
    · rw [h.watched] at hs
      exact hs
  · intro s hs
    have hold : s ∈ e.rowSymbols := by
      rcases quotes_deskStep h.keyed d hs with hs | hs | hs
      · exact h.quotes s hs
      · exact List.mem_append_left _ hs
      · exact List.mem_append_right _ (h.stockQuotes s hs)
    rcases List.mem_append.mp hold with hs | hs
    · exact List.mem_append_left _ (hsymbols hs)
    · exact List.mem_append_right _ (hstocks hs)

/-- The views of such a state are right when no symbol is on both lists. -/
theorem Listed.oneRowEach_iff
    {e : TradingEngine} (h : e.Listed) :
    OneRowEach e.publish.view ↔ e.symbols.Disjoint e.stockSymbols := by
  rw [TradingEngine.oneRowEach_iff fun sym hsym => h.quotes sym
    (h.quoted sym hsym), rowSymbols, List.nodup_append']
  constructor
  · rintro ⟨_, _, hdis⟩
    exact hdis
  · intro hdis
    exact ⟨h.symbols_nodup, h.stocks_nodup, hdis⟩

/-- One step keeps the lists disjoint exactly when it brings no symbol to a
list that is on the other. -/
theorem disjoint_deskStep_iff
    {e : TradingEngine} (h : e.symbols.Disjoint e.stockSymbols)
    (d : DeskStep) :
    (e.deskStep d).symbols.Disjoint (e.deskStep d).stockSymbols ↔
      e.OneClass d := by
  have hcrypto := e.mem_watchList_deskStep d .crypto
  have hstock := e.mem_watchList_deskStep d .stock
  constructor
  · intro hafter cls other s hne hbrings hother
    have hcls := (e.mem_watchList_deskStep d cls s).mpr (Or.inr hbrings)
    have hmem := (e.mem_watchList_deskStep d other s).mpr (Or.inl hother)
    cases cls with
    | crypto =>
        cases other with
        | crypto =>
            exact hne rfl
        | stock =>
            exact hafter hcls hmem
    | stock =>
        cases other with
        | crypto =>
            exact hafter hmem hcls
        | stock =>
            exact hne rfl
  · intro hone s hs hs'
    rcases (hcrypto s).mp hs with hs | hs
    · rcases (hstock s).mp hs' with hs' | hs'
      · exact h hs hs'
      · exact hone .stock .crypto s (by simp) hs' hs
    · rcases (hstock s).mp hs' with hs' | hs'
      · exact hone .crypto .stock s (by simp) hs hs'
      · cases class_of_brings hs hs'

/-! ### Runs -/

section Runs

variable {symbols : List String} (hsymbols : symbols.Nodup)
variable (capital : ℚ) (limits : RiskLimits) (configured : Bool)

/-- The quotes of a run's polls are of watched symbols. -/
def PollsWatched (symbols : List String) (capital : ℚ) (limits : RiskLimits)
    (configured : Bool) (ds : List DeskStep) : Prop :=
  ∀ before d, before ++ [d] <+: ds →
    (desk symbols capital limits configured before).OnlyWatched d

include hsymbols in
theorem listed_desk
    {ds : List DeskStep}
    (hpolls : PollsWatched symbols capital limits configured ds) :
    (desk symbols capital limits configured ds).Listed := by
  induction ds using List.reverseRecOn with
  | nil =>
      exact Listed.start hsymbols capital limits configured
  | append_singleton ds d ih =>
      obtain ⟨hbefore, hlast⟩ := (forall_step_concat
        (P := fun before d => (desk symbols capital limits configured
          before).OnlyWatched d) ds d).mp hpolls
      rw [desk_concat]
      exact (ih hbefore).deskStep hlast

include hsymbols in
/-- **When every position has one row.**  With polls that only return watched
stocks, in every published view of a run no symbol has two rows and the rows
add up to the realized and the unrealized total, exactly when no step brings
a symbol to one watch list that is on the other. -/
theorem one_row_each_iff
    {ds : List DeskStep}
    (hpolls : PollsWatched symbols capital limits configured ds) :
    (∀ before, before <+: ds →
        OneRowEach (desk symbols capital limits configured
          before).publish.view) ↔
      ∀ before d, before ++ [d] <+: ds →
        (desk symbols capital limits configured before).OneClass d := by
  induction ds using List.reverseRecOn with
  | nil =>
      constructor
      · intro _ before d hpre
        simp at hpre
      · intro _ before hpre
        rw [List.prefix_nil.mp hpre]
        refine (Listed.start hsymbols capital limits
          configured).oneRowEach_iff.mpr ?_
        exact List.disjoint_nil_right symbols
  | append_singleton ds d ih =>
      have hlisted := listed_desk hsymbols capital limits configured hpolls
      obtain ⟨hbefore, _⟩ := (forall_step_concat
        (P := fun before d => (desk symbols capital limits configured
          before).OnlyWatched d) ds d).mp hpolls
      rw [forall_prefix_concat, forall_step_concat, ih hbefore]
      refine and_congr_right fun hone => ?_
      have hrows := (ih hbefore).mpr hone ds List.prefix_rfl
      have hdis := (listed_desk hsymbols capital limits configured
        hbefore).oneRowEach_iff.mp hrows
      rw [hlisted.oneRowEach_iff, desk_concat, disjoint_deskStep_iff hdis]

end Runs

/-- A quote of AAPL, bid 9 and ask 11. -/
def appleQuote : Quote := { symbol := "AAPL", bid := 9, ask := 11 }

/-- AAPL is watched as a stock, quoted and bought; `cls` is the class of one
more add. -/
def boughtApple (cls : AssetClass) : List DeskStep :=
  [.engine (.command
      { type := .addSymbol, symbol := "AAPL", assetClass := .stock })
      trivial,
    .stocks (.quotes [("AAPL", appleQuote)] ""),
    .engine .readStockQuotes trivial,
    .engine (.command { type := .buy, symbol := "AAPL", amount := 11 })
      trivial,
    .engine (.command
      { type := .addSymbol, symbol := "AAPL", assetClass := cls }) trivial]

theorem pollsWatched_boughtApple (cls : AssetClass) :
    PollsWatched ["BTC-USD"] 100 {} true (boughtApple cls) := by
  refine (allSteps_iff_parts deskStep OnlyWatched _ _).mp ?_
  refine ⟨trivial, ?_, trivial, trivial, trivial, trivial⟩
  intro p hp
  rw [List.mem_singleton.mp hp]
  decide

/-- With AAPL on one list there is one row. -/
theorem one_row_each_apple :
    OneRowEach
      (desk ["BTC-USD"] 100 {} true
        (boughtApple .stock)).publish.view := by
  refine (one_row_each_iff (List.nodup_singleton _) 100 {} true
    (pollsWatched_boughtApple .stock)).mpr ?_ _ List.prefix_rfl
  refine (allSteps_iff_parts deskStep OneClass _ _).mp ?_
  refine ⟨?_, fun _ _ _ _ h => h.elim, fun _ _ _ _ h => h.elim, ?_, ?_,
    trivial⟩
  · rintro cls other s hne ⟨hadds, rfl⟩ hmem
    have hcls : AssetClass.stock = cls := hadds.class_eq
    subst hcls
    cases other with
    | crypto =>
        simp [start, watchList] at hmem
    | stock =>
        exact hne rfl
  · rintro cls other s hne ⟨hadds, rfl⟩ hmem
    cases hadds.type_eq
  · rintro cls other s hne ⟨hadds, rfl⟩ hmem
    have hcls : AssetClass.stock = cls := hadds.class_eq
    subst hcls
    refine hadds.symbol_new ?_
    decide +kernel

/-- Added as crypto as well, the position is shown and counted twice. -/
theorem apple_shown_twice :
    PollsWatched ["BTC-USD"] 100 {} true (boughtApple .crypto) ∧
      ¬ OneRowEach
        (desk ["BTC-USD"] 100 {} true (boughtApple .crypto)).publish.view ∧
      ((desk ["BTC-USD"] 100 {} true
          (boughtApple .crypto)).publish.view.symbols.map
            SymbolView.unrealized).sum = -2 ∧
      (desk ["BTC-USD"] 100 {} true
          (boughtApple .crypto)).publish.view.unrealized = -1 := by
  have hsum : ((desk ["BTC-USD"] 100 {} true
      (boughtApple .crypto)).publish.view.symbols.map
        SymbolView.unrealized).sum = -2 := by
    decide +kernel
  have htotal : (desk ["BTC-USD"] 100 {} true
      (boughtApple .crypto)).publish.view.unrealized = -1 := by
    decide +kernel
  refine ⟨pollsWatched_boughtApple .crypto, ?_, hsum, htotal⟩
  intro h
  have hsame := h.unrealized
  rw [hsum, htotal] at hsame
  norm_num at hsame

end TradingEngine

end ExecutionLayer
