import ExecutionLayer.ExchangeTape
import ExecutionLayer.StockHistory

/-!
# The stock poller beside the engine

The engine watches stocks and drains errors, the poller's thread stores bars,
names and quotes, and the engine's loop copies what it finds.  The caches of
the feed are the only thing that the two threads share.

A symbol is asked about once: its bars and its name are each stored at most
one time, empty answers included.  So the series of a stock is what is left of
its bars and of every sample since (`Holds`), and a cycle of the engine shows
the last book that a poll brought, this series and this name
(`watched_stock_shown`).
-/

namespace ExecutionLayer

open FiniteMap StepSystem Window

/-! ### What is stored of a symbol -/

/-- What a step of the desk stores for the poller. -/
def DeskStep.update : DeskStep → Option StockUpdate
  | .stocks u => some u
  | _ => none

namespace StockUpdate

def barsFor (s : String) : StockUpdate → Option (List PricePoint)
  | .bars symbol points _ => if symbol = s then some points else none
  | _ => none

def nameFor (s : String) : StockUpdate → Option String
  | .name symbol text => if symbol = s then some text else none
  | _ => none

def quotesFor (s : String) : StockUpdate → List Quote
  | .quotes fresh _ => (fresh.filter fun e => e.1 = s).map Prod.snd
  | _ => []

def samplesFor (s : String) : StockUpdate → List PricePoint
  | .quotes fresh _ => fresh.filterMap (StockFeed.sample s)
  | _ => []

end StockUpdate

open StockUpdate (barsFor nameFor quotesFor samplesFor)

namespace StockFeed

/-- The caches that the engine reads are the same. -/
structure SameCaches (st st' : StockFeed) : Prop where
  quotes : st'.quotes = st.quotes
  histories : st'.histories = st.histories
  names : st'.names = st.names

theorem SameCaches.refl (st : StockFeed) : SameCaches st st :=
  ⟨rfl, rfl, rfl⟩

theorem SameCaches.trans
    {st₁ st₂ st₃ : StockFeed} (h : SameCaches st₁ st₂)
    (h' : SameCaches st₂ st₃) :
    SameCaches st₁ st₃ :=
  ⟨h'.quotes.trans h.quotes, h'.histories.trans h.histories,
    h'.names.trans h.names⟩

theorem sameCaches_watch (st : StockFeed) (symbol : String) :
    SameCaches st (st.watch symbol) := by
  rw [watch]
  split_ifs <;> exact ⟨rfl, rfl, rfl⟩

/-- The caches hold, of symbol `s`, what the updates have stored: the last
quote, the last name, and the last points of bars and samples. -/
structure Holds (st : StockFeed) (us : List StockUpdate) (s : String) :
    Prop where
  quote : st.quotes.lookup s = (us.flatMap (quotesFor s)).getLast?
  name : st.names.lookup s = (us.filterMap (nameFor s)).getLast?
  retains : st.Retains s
    ((us.filterMap (barsFor s)).reverse.flatten ++
      us.flatMap (samplesFor s))

theorem holds_nil
    {st : StockFeed} (hquotes : st.quotes = ∅) (hhistories : st.histories = ∅)
    (hnames : st.names = ∅) (s : String) :
    st.Holds [] s where
  quote := by
    rw [hquotes]
    exact Finmap.lookup_empty s
  name := by
    rw [hnames]
    exact Finmap.lookup_empty s
  retains := by
    rw [Retains, history, lookupD, hhistories, Finmap.lookup_empty,
      List.filterMap_nil, List.flatMap_nil, List.append_nil,
      List.reverse_nil, List.flatten_nil, List.rtake_nil]
    rfl

theorem Holds.same
    {st st' : StockFeed} {us : List StockUpdate} {s : String}
    (h : st.Holds us s) (hsame : SameCaches st st') :
    st'.Holds us s where
  quote := by
    rw [hsame.quotes]
    exact h.quote
  name := by
    rw [hsame.names]
    exact h.name
  retains := by
    rw [Retains, history, hsame.histories]
    exact h.retains

theorem storeQuotes_names
    (st : StockFeed) (fresh : List (String × Quote)) (lastError : String) :
    (st.storeQuotes fresh lastError).names = st.names := by
  unfold StockFeed.storeQuotes
  split_ifs with hfresh
  · rfl
  · clear hfresh
    induction fresh generalizing st with
    | nil =>
        rfl
    | cons e fresh ih =>
        rw [List.foldl_cons]
        exact ih (st.storeQuote e.1 e.2)

/-- A poll leaves the last quote it has of a symbol. -/
theorem storeQuotes_lookup
    (st : StockFeed) (fresh : List (String × Quote)) (lastError s : String) :
    (st.storeQuotes fresh lastError).quotes.lookup s =
      ((fresh.filter fun e => e.1 = s).map Prod.snd).getLast?.or
        (st.quotes.lookup s) := by
  unfold StockFeed.storeQuotes
  split_ifs with hfresh
  · rw [hfresh]
    rfl
  · clear hfresh
    induction fresh using List.reverseRecOn with
    | nil =>
        rfl
    | append_singleton fresh e ih =>
        rw [List.foldl_append, List.foldl_cons, List.foldl_nil,
          List.filter_append, List.map_append, List.getLast?_append,
          storeQuote]
        by_cases hs : e.1 = s
        · subst hs
          rw [Finmap.lookup_insert]
          simp
        · rw [Finmap.lookup_insert_of_ne _ (Ne.symm hs), ih]
          simp [hs]

theorem storeBars_quotes
    (st : StockFeed) (symbol : String) (bars : List PricePoint)
    (lastError : String) :
    (st.storeBars symbol bars lastError).quotes = st.quotes := by
  unfold storeBars
  split_ifs <;> rfl

theorem storeBars_names
    (st : StockFeed) (symbol : String) (bars : List PricePoint)
    (lastError : String) :
    (st.storeBars symbol bars lastError).names = st.names := by
  unfold storeBars
  split_ifs <;> rfl

theorem Holds.storeBars
    {st : StockFeed} {us : List StockUpdate} {s : String}
    (h : st.Holds us s) (symbol : String) (bars : List PricePoint)
    (lastError : String) :
    (st.storeBars symbol bars lastError).Holds
      (us ++ [.bars symbol bars lastError]) s where
  quote := by
    rw [storeBars_quotes, h.quote, List.flatMap_append]
    simp [quotesFor]
  name := by
    rw [storeBars_names, h.name, List.filterMap_append]
    simp [nameFor]
  retains := by
    have hnone : [StockUpdate.bars symbol bars lastError].flatMap
        (samplesFor s) = [] := rfl
    rw [List.filterMap_append, List.flatMap_append, hnone, List.append_nil]
    by_cases hs : symbol = s
    · subst hs
      have hone : [StockUpdate.bars symbol bars lastError].filterMap
          (barsFor symbol) = [bars] := by
        simp [barsFor]
      rw [hone, List.reverse_append, List.reverse_singleton,
        List.flatten_append, List.flatten_singleton, List.append_assoc,
        Retains, history_storeBars, h.retains, rtake_append_rtake]
    · have hone : [StockUpdate.bars symbol bars lastError].filterMap
          (barsFor s) = [] := by
        simp [barsFor, hs]
      rw [hone, List.append_nil, Retains,
        history_storeBars_of_ne _ (Ne.symm hs)]
      exact h.retains

theorem Holds.storeName
    {st : StockFeed} {us : List StockUpdate} {s : String}
    (h : st.Holds us s) (symbol name : String) :
    (st.storeName symbol name).Holds (us ++ [.name symbol name]) s where
  quote := by
    rw [StockFeed.storeName, List.flatMap_append]
    simpa [quotesFor] using h.quote
  name := by
    rw [StockFeed.storeName, List.filterMap_append, List.getLast?_append]
    by_cases hs : symbol = s
    · subst hs
      rw [Finmap.lookup_insert]
      simp [nameFor]
    · rw [Finmap.lookup_insert_of_ne _ (Ne.symm hs), h.name]
      simp [nameFor, hs]
  retains := by
    have hbars : [StockUpdate.name symbol name].filterMap (barsFor s) =
        [] := rfl
    have hsamples : [StockUpdate.name symbol name].flatMap (samplesFor s) =
        [] := rfl
    rw [List.filterMap_append, List.flatMap_append, hbars, hsamples,
      List.append_nil, List.append_nil]
    exact h.retains

theorem Holds.storeQuotes
    {st : StockFeed} {us : List StockUpdate} {s : String}
    (h : st.Holds us s) (fresh : List (String × Quote))
    (lastError : String) :
    (st.storeQuotes fresh lastError).Holds
      (us ++ [.quotes fresh lastError]) s where
  quote := by
    rw [storeQuotes_lookup, List.flatMap_append, List.getLast?_append,
      h.quote]
    simp [quotesFor]
  name := by
    rw [storeQuotes_names, h.name, List.filterMap_append]
    simp [nameFor]
  retains := by
    have hnone : [StockUpdate.quotes fresh lastError].filterMap
        (barsFor s) = [] := rfl
    have hone : [StockUpdate.quotes fresh lastError].flatMap
        (samplesFor s) = fresh.filterMap (sample s) := by
      simp [samplesFor]
    rw [List.filterMap_append, List.flatMap_append, hnone, hone,
      List.append_nil, ← List.append_assoc]
    exact h.retains.storeQuotes fresh lastError

/-- An update stores what it says. -/
theorem Holds.update
    {st : StockFeed} {us : List StockUpdate} {s : String}
    (h : st.Holds us s) (u : StockUpdate) :
    (st.update u).Holds (us ++ [u]) s := by
  cases u with
  | bars symbol points lastError =>
      exact h.storeBars symbol points lastError
  | name symbol name =>
      exact h.storeName symbol name
  | quotes fresh lastError =>
      exact h.storeQuotes fresh lastError

end StockFeed

namespace TradingEngine

/-- Only the poller writes the caches. -/
theorem sameCaches_deskStep
    (e : TradingEngine) {d : DeskStep} (hother : d.update = none) :
    StockFeed.SameCaches e.stocks (e.deskStep d).stocks := by
  cases d with
  | stocks u =>
      cases hother
  | engine a own =>
      cases a with
      | command c =>
          change StockFeed.SameCaches _ (e.process c).stocks
          rcases e.process_cases c with
            ⟨_, heq⟩ | ⟨_, heq⟩ | ⟨_, ⟨_, _, heq⟩ | ⟨oms, heq⟩⟩
          · rw [heq]
            exact StockFeed.sameCaches_watch _ _
          · rw [heq]
            exact .refl _
          · rw [heq]
            exact .refl _
          · rw [heq]
            exact .refl _
      | quote symbol q =>
          exact own.elim
      | feeds store stocks =>
          exact own.elim
      | requestFocusHistory =>
          change StockFeed.SameCaches _ e.requestFocusHistory.stocks
          rw [requestFocusHistory]
          split_ifs <;> exact .refl _
      | refreshHistory now =>
          change StockFeed.SameCaches _ (e.refreshHistory now).stocks
          rw [refreshHistory]
          split_ifs <;> exact .refl _
      | refreshCatalog now =>
          change StockFeed.SameCaches _ (e.refreshCatalog now).stocks
          rw [refreshCatalog]
          split_ifs <;> exact .refl _
      | drainErrors =>
          exact ⟨rfl, rfl, rfl⟩
      | publish =>
          change StockFeed.SameCaches _ e.publish.stocks
          rw [publish]
          exact .refl _
      | _ =>
          exact .refl _
  | _ =>
      exact .refl _

section Runs

variable (symbols : List String) (capital : ℚ) (limits : RiskLimits)
variable (configured : Bool)

/-- Along every run of the desk the caches hold what has been stored. -/
theorem holds_desk (ds : List DeskStep) (s : String) :
    (desk symbols capital limits configured ds).stocks.Holds
      (ds.filterMap DeskStep.update) s := by
  induction ds using List.reverseRecOn with
  | nil =>
      exact StockFeed.holds_nil rfl rfl rfl s
  | append_singleton ds d ih =>
      rw [desk_concat, List.filterMap_append]
      cases hupdate : d.update with
      | none =>
          rw [List.filterMap_cons_none hupdate, List.filterMap_nil,
            List.append_nil]
          exact ih.same (sameCaches_deskStep _ hupdate)
      | some u =>
          rw [List.filterMap_cons_some hupdate, List.filterMap_nil]
          cases d with
          | stocks u' =>
              cases hupdate
              have hstocks :
                  ((desk symbols capital limits configured ds).deskStep
                    (.stocks u)).stocks =
                  (desk symbols capital limits configured ds).stocks.update
                    u := rfl
              rw [hstocks]
              exact ih.update u
          | _ =>
              cases hupdate

/-- No stock is watched under the empty symbol. -/
theorem stockSymbols_ne_empty (ds : List DeskStep) :
    ∀ s ∈ (desk symbols capital limits configured ds).stockSymbols,
      s ≠ "" := by
  refine run_invariant deskStep
    (I := fun e : TradingEngine => ∀ s ∈ e.stockSymbols, s ≠ "") ?_ ?_ ds
  · intro e d h s hs
    rcases (e.mem_watchList_deskStep d .stock s).mp hs with hold | hnew
    · exact h s hold
    · cases d with
      | engine a own =>
          cases a with
          | command c =>
              obtain ⟨hadds, rfl⟩ := hnew
              exact hadds.symbol_ne
          | refreshCatalog now =>
              cases hnew.1
          | _ =>
              exact hnew.elim
      | _ =>
          exact hnew.elim
  · intro s hs
    cases hs

end Runs

end TradingEngine

/-! ### Two threads -/

/-- The step belongs to the poller's thread, or to time. -/
def StockStep.own : StockStep → Bool
  | .watch _ => false
  | .drainErrors => false
  | _ => true

namespace PollPhase

/-- The bars of `s` are asked for. -/
def AsksBars (s : String) : PollPhase → Prop
  | .backfilling _ sym _ _ => sym = s
  | _ => False

/-- The name of `s` is asked for, or will be next. -/
def AsksName (s : String) : PollPhase → Prop
  | .backfilling _ sym needName _ => sym = s ∧ needName
  | .naming _ sym _ => sym = s
  | _ => False

end PollPhase

namespace StockPoller

/-- What a step stores. -/
def stores (p : StockPoller) : StockStep → Option StockUpdate
  | .gotBars bars lastError =>
      match p.phase with
      | .backfilling _ sym _ _ => some (.bars sym bars lastError)
      | _ => none
  | .gotName name =>
      match p.phase with
      | .naming _ sym _ => some (.name sym name)
      | _ => none
  | .gotQuotes fresh lastError => some (.quotes fresh lastError)
  | _ => none

/-- A step of the poller's thread writes what it stores. -/
theorem feed_of_step
    {p q : StockPoller} {b : StockStep} (hown : b.own)
    (h : p.step b = some q) :
    q.feed = (p.stores b).elim p.feed p.feed.update := by
  cases step_moved h with
  | watch symbol =>
      cases hown
  | drainErrors =>
      cases hown
  | prepared syms sym todo phase =>
      rcases p.prepare_cases syms sym todo with
        ⟨needName, _, heq⟩ | heq | heq <;> rw [heq] <;> rfl
  | gotBars syms sym needName todo bars lastError phase =>
      rw [stores, phase]
      rfl
  | gotName syms sym todo name phase =>
      rw [stores, phase]
      rfl
  | _ =>
      rfl

/-- Of what was stored of `s` there are bars and a name, once each, if the
poller knows so; it asks for what it does not have. -/
structure Once (p : StockPoller) (us : List StockUpdate) (s : String) :
    Prop where
  bars : (us.filterMap (barsFor s)).length =
    if s ∈ p.backfilled then 1 else 0
  names : (us.filterMap (nameFor s)).length =
    if s ∈ p.feed.names then 1 else 0
  asksBars : p.phase.AsksBars s → s ∉ p.backfilled
  asksName : p.phase.AsksName s → s ∉ p.feed.names

/-- A step that stores neither bars nor names, and asks for nothing new. -/
theorem Once.kept
    {p q : StockPoller} {us : List StockUpdate} {s : String}
    (h : p.Once us s) {more : List StockUpdate}
    (hbars : more.filterMap (barsFor s) = [])
    (hnames : more.filterMap (nameFor s) = [])
    (hbackfilled : q.backfilled = p.backfilled)
    (hcached : q.feed.names = p.feed.names)
    (hasksBars : q.phase.AsksBars s → s ∉ p.backfilled)
    (hasksName : q.phase.AsksName s → s ∉ p.feed.names) :
    q.Once (us ++ more) s where
  bars := by
    rw [List.filterMap_append, hbars, List.append_nil, hbackfilled]
    exact h.bars
  names := by
    rw [List.filterMap_append, hnames, List.append_nil, hcached]
    exact h.names
  asksBars := by
    rw [hbackfilled]
    exact hasksBars
  asksName := by
    rw [hcached]
    exact hasksName

/-- Before a symbol is asked about, the poller looks what it has. -/
theorem Once.prepare
    {p : StockPoller} {us : List StockUpdate} {s : String}
    (h : p.Once us s) (syms : List String) (sym : String)
    (todo : List String) :
    (p.prepare syms sym todo).Once (us ++ []) s := by
  refine h.kept rfl rfl rfl rfl ?_ ?_
  · unfold StockPoller.prepare
    by_cases hbars : sym ∉ p.backfilled
    · simp only [if_pos hbars]
      rintro rfl
      exact hbars
    · by_cases hname : sym ∉ p.feed.names
      · simp only [if_neg hbars, hname, not_false_eq_true, decide_true,
          if_true]
        exact False.elim
      · simp only [if_neg hbars, hname, decide_false, Bool.false_eq_true,
          if_false]
        exact False.elim
  · unfold StockPoller.prepare
    by_cases hbars : sym ∉ p.backfilled
    · simp only [if_pos hbars]
      rintro ⟨rfl, hneed⟩
      exact of_decide_eq_true hneed
    · by_cases hname : sym ∉ p.feed.names
      · simp only [if_neg hbars, hname, not_false_eq_true, decide_true,
          if_true]
        rintro rfl
        exact hname
      · simp only [if_neg hbars, hname, decide_false, Bool.false_eq_true,
          if_false]
        exact False.elim

theorem Once.storeBars
    {p : StockPoller} {us : List StockUpdate} {s : String}
    (h : p.Once us s) {syms : List String} {sym : String} {needName : Bool}
    {todo : List String} (bars : List PricePoint) (lastError : String)
    (hphase : p.phase = .backfilling syms sym needName todo) :
    (p.storeBars syms sym needName todo bars lastError).Once
      (us ++ [.bars sym bars lastError]) s where
  bars := by
    rw [List.filterMap_append, List.length_append, h.bars]
    by_cases hs : sym = s
    · subst hs
      have hnew : sym ∉ p.backfilled := by
        refine h.asksBars ?_
        rw [hphase]
        rfl
      simp [barsFor, StockPoller.storeBars, hnew]
    · simp [barsFor, StockPoller.storeBars, hs, Ne.symm hs]
  names := by
    rw [List.filterMap_append, List.length_append, h.names,
      StockPoller.storeBars, StockFeed.storeBars_names]
    rfl
  asksBars := by
    rcases p.storeBars_phase syms sym needName todo bars lastError with
      heq | heq <;> rw [heq] <;> exact False.elim
  asksName := by
    have hasks := h.asksName
    rw [hphase] at hasks
    rw [StockPoller.storeBars, StockFeed.storeBars_names]
    cases needName with
    | true =>
        rintro rfl
        exact hasks ⟨rfl, rfl⟩
    | false =>
        exact False.elim

theorem Once.storeName
    {p : StockPoller} {us : List StockUpdate} {s : String}
    (h : p.Once us s) {syms : List String} {sym : String}
    {todo : List String} (name : String)
    (hphase : p.phase = .naming syms sym todo) :
    StockPoller.Once
      { p with
        feed := p.feed.storeName sym name
        phase := .preparing syms todo }
      (us ++ [.name sym name]) s where
  bars := by
    rw [List.filterMap_append, List.length_append, h.bars]
    rfl
  names := by
    rw [List.filterMap_append, List.length_append, h.names]
    by_cases hs : sym = s
    · subst hs
      have hnew : sym ∉ p.feed.names := by
        refine h.asksName ?_
        rw [hphase]
        rfl
      simp [nameFor, StockFeed.storeName, hnew]
    · simp [nameFor, StockFeed.storeName, hs, Ne.symm hs]
  asksBars := False.elim
  asksName := False.elim

/-- What a step of the poller's thread preserves. -/
theorem Once.moved
    {p q : StockPoller} {us : List StockUpdate} {s : String}
    (h : p.Once us s) {b : StockStep} (hown : b.own)
    (hstep : p.step b = some q) :
    q.Once (us ++ (p.stores b).toList) s := by
  cases step_moved hstep with
  | watch symbol =>
      cases hown
  | drainErrors =>
      cases hown
  | pass duration =>
      exact h.kept rfl rfl rfl rfl h.asksBars h.asksName
  | sleep late phase early =>
      exact h.kept rfl rfl rfl rfl h.asksBars h.asksName
  | prepared syms sym todo phase =>
      exact h.prepare syms sym todo
  | gotBars syms sym needName todo bars lastError phase =>
      rw [stores, phase]
      exact h.storeBars bars lastError phase
  | gotName syms sym todo name phase =>
      rw [stores, phase]
      exact h.storeName name phase
  | gotQuotes syms fresh lastError phase =>
      exact h.kept rfl rfl rfl
        (p.feed.storeQuotes_names fresh lastError) False.elim False.elim
  | _ =>
      exact h.kept rfl rfl rfl rfl False.elim False.elim

/-- The engine adds watched symbols and takes errors. -/
theorem Once.shared
    {p : StockPoller} {us : List StockUpdate} {s : String}
    (h : p.Once us s) {feed : StockFeed}
    (hsame : StockFeed.SameCaches p.feed feed) :
    StockPoller.Once { p with feed := feed } us s where
  bars := h.bars
  names := by
    rw [hsame.names]
    exact h.names
  asksBars := h.asksBars
  asksName := by
    rw [hsame.names]
    exact h.asksName

end StockPoller

/-- The engine, the poller, and all that the poller has stored. -/
structure StockDesk where
  engine : TradingEngine
  poller : StockPoller
  stored : List StockUpdate := []

/-- Any other thread takes a step of the desk, or the poller's thread goes
on. -/
inductive StockDeskStep where
  | desk (d : DeskStep) (other : d.update.isNone)
  | poller (b : StockStep) (own : b.own)

def StockDeskStep.deskStep : StockDeskStep → Option DeskStep
  | .desk d _ => some d
  | .poller _ _ => none

namespace StockDesk

/-- Both threads work on the one feed. -/
def step (t : StockDesk) : StockDeskStep → Option StockDesk
  | .desk d _ =>
      let engine := t.engine.deskStep d
      some
        { t with
          engine := engine
          poller := { t.poller with feed := engine.stocks } }
  | .poller b _ =>
      (t.poller.step b).map fun poller =>
        { engine := { t.engine with stocks := poller.feed }
          poller := poller
          stored := t.stored ++ (t.poller.stores b).toList }

section Runs

variable (symbols : List String) (capital : ℚ) (limits : RiskLimits)
variable (configured : Bool) (now : Int)

/-- A desk whose threads have just started. -/
def boot : StockDesk where
  engine := .start symbols capital limits { configured := configured }
  poller := .start { configured := configured } now

/-- The desk has made the run `ds`, of which the other threads made the steps
`others`. -/
structure Refines (t : StockDesk) (others ds : List DeskStep) : Prop where
  engine : t.engine =
    TradingEngine.desk symbols capital limits configured ds
  shared : t.poller.feed = t.engine.stocks
  stored : ds.filterMap DeskStep.update = t.stored
  others : (ds.filter fun d => d.update.isNone) = others
  once : ∀ s, t.poller.Once t.stored s

variable {symbols capital limits configured now}

theorem Refines.booted :
    Refines symbols capital limits configured
      (boot symbols capital limits configured now) [] [] where
  engine := rfl
  shared := rfl
  stored := rfl
  others := rfl
  once := by
    intro s
    refine ⟨?_, ?_, False.elim, False.elim⟩
    · rw [boot, StockPoller.start, if_neg (Finset.notMem_empty s)]
      rfl
    · rw [boot, StockPoller.start, if_neg (Finmap.notMem_empty)]
      rfl

/-- Another thread takes a step. -/
theorem Refines.desk
    {t : StockDesk} {others ds : List DeskStep}
    (h : Refines symbols capital limits configured t others ds)
    {d : DeskStep} (other : d.update.isNone) :
    Refines symbols capital limits configured
      { t with
        engine := t.engine.deskStep d
        poller := { t.poller with feed := (t.engine.deskStep d).stocks } }
      (others ++ [d]) (ds ++ [d]) where
  engine := by
    rw [TradingEngine.desk_concat, ← h.engine]
  shared := rfl
  stored := by
    rw [List.filterMap_append, List.filterMap_cons_none
      (Option.isNone_iff_eq_none.mp other), List.filterMap_nil,
      List.append_nil]
    exact h.stored
  others := by
    rw [List.filter_append, h.others, List.filter_cons_of_pos
      (p := fun d : DeskStep => d.update.isNone) other, List.filter_nil]
  once := by
    intro s
    refine (h.once s).shared ?_
    rw [h.shared]
    exact t.engine.sameCaches_deskStep (Option.isNone_iff_eq_none.mp other)

/-- The poller's thread goes on; what it stores is a step of the desk. -/
theorem Refines.poller
    {t : StockDesk} {others ds : List DeskStep}
    (h : Refines symbols capital limits configured t others ds)
    {b : StockStep} (hown : b.own) {p : StockPoller}
    (hstep : t.poller.step b = some p) :
    Refines symbols capital limits configured
      { engine := { t.engine with stocks := p.feed }
        poller := p
        stored := t.stored ++ (t.poller.stores b).toList }
      others (ds ++ (t.poller.stores b).toList.map .stocks) where
  engine := by
    have hfeed := StockPoller.feed_of_step hown hstep
    rw [hfeed, h.shared]
    cases t.poller.stores b with
    | none =>
        change t.engine = TradingEngine.desk _ _ _ _ (ds ++ [])
        rw [List.append_nil]
        exact h.engine
    | some u =>
        rw [Option.toList_some, List.map_singleton,
          TradingEngine.desk_concat, ← h.engine]
        rfl
  shared := rfl
  stored := by
    rw [List.filterMap_append, h.stored]
    cases t.poller.stores b <;> rfl
  others := by
    rw [List.filter_append, h.others]
    cases t.poller.stores b <;> exact List.append_nil _
  once := fun s => (h.once s).moved hown hstep

theorem Refines.next
    {t t' : StockDesk} {others ds : List DeskStep}
    (h : Refines symbols capital limits configured t others ds)
    {a : StockDeskStep} (hstep : t.step a = some t') :
    ∃ more, Refines symbols capital limits configured t'
      (others ++ a.deskStep.toList) (ds ++ more) := by
  cases a with
  | desk d other =>
      cases hstep
      exact ⟨[d], h.desk other⟩
  | poller b own =>
      obtain ⟨p, hp, rfl⟩ := Option.map_eq_some_iff.mp hstep
      rw [StockDeskStep.deskStep, Option.toList_none, List.append_nil]
      exact ⟨_, h.poller own hp⟩

theorem Refines.ran
    {t t' : StockDesk} {others ds : List DeskStep}
    (h : Refines symbols capital limits configured t others ds)
    {bs : List StockDeskStep} (hrun : exec step t bs = some t') :
    ∃ more, Refines symbols capital limits configured t'
      (others ++ bs.filterMap StockDeskStep.deskStep) (ds ++ more) := by
  induction bs generalizing t others ds with
  | nil =>
      obtain rfl := Option.some.inj hrun
      refine ⟨[], ?_⟩
      rw [List.filterMap_nil, List.append_nil, List.append_nil]
      exact h
  | cons a bs ih =>
      obtain ⟨t₁, hstep, hrest⟩ := (exec_cons_eq_some step).mp hrun
      obtain ⟨one, hone⟩ := h.next hstep
      obtain ⟨more, hmore⟩ := ih hone hrest
      have hothers : (a :: bs).filterMap StockDeskStep.deskStep =
          a.deskStep.toList ++ bs.filterMap StockDeskStep.deskStep := by
        cases a <;> rfl
      refine ⟨one ++ more, ?_⟩
      rw [hothers, ← List.append_assoc, ← List.append_assoc]
      exact hmore

end Runs

end StockDesk

/-! ### What a cycle shows -/

/-- The point that a quote adds to a series. -/
def StockFeed.chartPoint (q : Quote) : Option PricePoint :=
  if 0 < chartPrice q then
    some { tsNs := q.tsNs, price := chartPrice q }
  else none

/-- The samples are the points of the quotes. -/
theorem StockUpdate.samples_eq (us : List StockUpdate) (s : String) :
    us.flatMap (samplesFor s) =
      (us.flatMap (quotesFor s)).filterMap StockFeed.chartPoint := by
  rw [List.filterMap_flatMap]
  congr 1
  funext u
  cases u with
  | quotes fresh lastError =>
      simp only [samplesFor, quotesFor]
      rw [List.filterMap_map, List.filterMap_filter]
      congr 1
      funext e
      by_cases hs : e.1 = s
      · simp [StockFeed.sample, StockFeed.chartPoint, hs]
      · simp [StockFeed.sample, hs]
  | _ =>
      rfl

namespace TradingEngine

/-- The engine shows a stock: its book, which orders are priced from as well,
the series in its chart, and its name. -/
structure ShowsStock (e : TradingEngine) (s : String) (q : Quote)
    (series : List PricePoint) (name : String) : Prop where
  cached : e.quotes.lookup s = some q
  row : ∃ row ∈ e.view.symbols, row.symbol = s ∧ row.assetClass = .stock ∧
    row.hasQuote ∧ row.bid = q.bid ∧ row.ask = q.ask ∧
      row.bsize = q.bsize ∧ row.asize = q.asize
  focus : e.view.focus = s
  prices : e.view.priceHistory = series.map PricePoint.price
  ages : e.view.priceAgeS = priceAges series
  name : e.view.focusName = name

/-- What the row, the chart and the name of a stock come from. -/
structure SameStocks (e e' : TradingEngine) : Prop where
  caches : StockFeed.SameCaches e.stocks e'.stocks
  nextHistory : e'.nextHistory = e.nextHistory
  watched : e.stockSymbols ⊆ e'.stockSymbols

theorem SameStocks.trans
    {e₁ e₂ e₃ : TradingEngine} (h : SameStocks e₁ e₂)
    (h' : SameStocks e₂ e₃) :
    SameStocks e₁ e₃ :=
  ⟨h.caches.trans h'.caches, h'.nextHistory.trans h.nextHistory,
    fun _ hs => h'.watched (h.watched hs)⟩

theorem sameStocks_process (e : TradingEngine) (c : Command) :
    SameStocks e (e.process c) where
  caches := e.sameCaches_deskStep (d := .engine (.command c) trivial) rfl
  nextHistory := by
    rcases e.process_cases c with
      ⟨_, heq⟩ | ⟨_, heq⟩ | ⟨_, ⟨_, _, heq⟩ | ⟨oms, heq⟩⟩ <;> rw [heq] <;> rfl
  watched := e.subset_watchList_deskStep (.engine (.command c) trivial)
    .stock

theorem sameStocks_foldl (e : TradingEngine) (cs : List Command) :
    SameStocks e (cs.foldl process e) := by
  induction cs generalizing e with
  | nil =>
      exact ⟨.refl _, rfl, List.Subset.refl _⟩
  | cons c cs ih =>
      exact (e.sameStocks_process c).trans (ih (e.process c))

theorem sameStocks_beforeHistory (e : TradingEngine) :
    SameStocks e e.beforeHistory := by
  simp only [beforeHistory, requestFocusHistory]
  split_ifs <;> exact ⟨.refl _, rfl, List.Subset.refl _⟩

theorem sameStocks_refreshCatalog (e : TradingEngine) (now : Int) :
    SameStocks e (e.drainErrors.refreshCatalog now) := by
  rw [refreshCatalog, drainErrors]
  split_ifs <;> exact ⟨⟨rfl, rfl, rfl⟩, rfl, List.Subset.refl _⟩

/-- The engine is about to publish a stock. -/
structure StockDue (e : TradingEngine) (s : String) (q : Quote)
    (series : List PricePoint) (name : String) : Prop where
  cached : e.quotes.lookup s = some q
  watched : s ∈ e.stockSymbols
  focus : e.focus = s
  charted : e.priceHist = series
  named : e.stocks.name s = name

theorem StockDue.publish
    {e : TradingEngine} {s : String} (hs : s ≠ "") {q : Quote}
    {series : List PricePoint} {name : String}
    (h : e.StockDue s q series name) :
    e.publish.ShowsStock s q series name where
  cached := by
    rw [TradingEngine.publish]
    exact h.cached
  row := by
    refine ⟨e.buildRow .stock s, ?_, ?_⟩
    · exact List.mem_append_right _ (List.mem_map_of_mem h.watched)
    · obtain ⟨hsym, hquote, hbook⟩ := buildRow_of_lookup h.cached .stock
      exact ⟨hsym, e.buildRow_assetClass .stock s, hquote, hbook⟩
  focus := h.focus
  prices := by
    rw [← h.charted]
    rfl
  ages := by
    rw [← h.charted]
    rfl
  name := by
    change (if e.focus = "" then "" else
      if e.isStock e.focus then e.stocks.name e.focus
      else e.store.name e.focus) = name
    have hclass : e.isStock s = true := decide_eq_true h.watched
    rw [h.focus, if_neg hs, if_pos hclass]
    exact h.named

/-- A due series of a stock is read from the feed. -/
theorem refreshHistory_of_stock
    {e : TradingEngine} {s : String} (hs : s ≠ "") (hfocus : e.focus = s)
    (hstock : s ∈ e.stockSymbols) {now : Int} (hdue : e.nextHistory ≤ now) :
    e.refreshHistory now =
      { e with
        priceHist := e.stocks.history s
        nextHistory := now + kHistoryEvery } := by
  subst hfocus
  have hclass : e.isStock e.focus = true := decide_eq_true hstock
  rw [refreshHistory, if_pos ⟨hs, hdue⟩, if_pos hclass]

/-- A cycle in which a watched stock is clicked shows what the feed has of
it. -/
theorem stock_of_cycle
    {e : TradingEngine} {s : String} (hs : s ≠ "")
    (hstock : s ∈ e.stockSymbols) {q : Quote}
    (hq : e.stocks.quotes.lookup s = some q) (cs : List Command)
    {now : Int} (hdue : e.nextHistory ≤ now) :
    (e.cycle (cs ++ [Gui.setFocus s]) now).ShowsStock s q
      (e.stocks.history s) (e.stocks.name s) := by
  have hdrained := e.sameStocks_foldl (cs ++ [Gui.setFocus s])
  have hfocus : ((cs ++ [Gui.setFocus s]).foldl process e).focus = s := by
    rw [List.foldl_append]
    exact focus_process_setFocus _ hs
  have hcycle : e.cycle (cs ++ [Gui.setFocus s]) now =
      ((((cs ++ [Gui.setFocus s]).foldl process
        e).beforeHistory.refreshHistory now).drainErrors.refreshCatalog
          now).publish := by
    rw [cycle, beforeHistory]
  rw [hcycle]
  generalize (cs ++ [Gui.setFocus s]).foldl process e = drained at *
  have hbefore := hdrained.trans drained.sameStocks_beforeHistory
  have hread : drained.beforeHistory.focus = s :=
    (drained.sameSource_beforeHistory s).2.trans hfocus
  have hcharted := refreshHistory_of_stock hs hread
    (hbefore.watched hstock) (hbefore.nextHistory.le.trans hdue)
  have hquotes : ((drained.beforeHistory.refreshHistory
      now).drainErrors.refreshCatalog now).quotes =
      e.stocks.quotes ∪ drained.readCryptoQuotes.quotes := by
    rw [← hdrained.caches.quotes]
    exact beforePublish_quotes drained.readCryptoQuotes.readStockQuotes now
  generalize drained.beforeHistory.refreshHistory now = charted at *
  have hfoc : charted.focus = s := by
    rw [hcharted]
    exact hread
  have hafter := charted.sameStocks_refreshCatalog now
  obtain ⟨hhist, hfocus', _⟩ := chart_afterHistory charted now
    (by rw [hfoc]; exact hs)
  refine StockDue.publish hs ⟨?_, ?_, hfocus'.trans hfoc, ?_, ?_⟩
  · rw [hquotes, Finmap.lookup_union_left
      (Finmap.mem_of_lookup_eq_some hq)]
    exact hq
  · refine hafter.watched ?_
    rw [hcharted]
    exact hbefore.watched hstock
  · rw [hhist, hcharted, StockFeed.history, StockFeed.history,
      hbefore.caches.histories]
  · rw [StockFeed.name, StockFeed.name, hafter.caches.names, hcharted,
      hbefore.caches.names]

end TradingEngine

/-- The series ends at the last book that has a price. -/
theorem StockUpdate.getLast?_series
    {us : List StockUpdate} {s : String} {q : Quote}
    (hq : (us.flatMap (quotesFor s)).getLast? = some q)
    (hprice : 0 < StockFeed.chartPrice q) (bars : List PricePoint) :
    ((bars ++ us.flatMap (samplesFor s)).rtake
        StockFeed.kHistoryCap).getLast? =
      some { tsNs := q.tsNs, price := StockFeed.chartPrice q } := by
  obtain ⟨before, hbefore⟩ := List.getLast?_eq_some_iff.mp hq
  have hpoint : StockFeed.chartPoint q =
      some { tsNs := q.tsNs, price := StockFeed.chartPrice q } :=
    if_pos hprice
  have hcap : 0 < StockFeed.kHistoryCap := by
    rw [StockFeed.kHistoryCap]
    omega
  rw [getLast?_rtake hcap, StockUpdate.samples_eq, hbefore,
    List.filterMap_append, List.filterMap_cons_some hpoint,
    List.filterMap_nil, ← List.append_assoc, List.getLast?_concat]

/-- An entry that is there at most once is the last one and the first. -/
theorem reverse_eq_of_length_le_one
    {α : Type} {l : List α} (h : l.length ≤ 1) (default : α) :
    l.reverse = l ∧ l.getLast?.getD default = l.headD default := by
  cases l with
  | nil =>
      exact ⟨rfl, rfl⟩
  | cons a l =>
      have hnil : l = [] := by
        rw [List.length_cons] at h
        exact List.eq_nil_of_length_eq_zero (by omega)
      rw [hnil]
      exact ⟨rfl, rfl⟩

namespace StockDesk

section Runs

variable {symbols : List String} {capital : ℚ} {limits : RiskLimits}
variable {configured : Bool} {now : Int}

/-- **A watched stock is shown as it was polled last.**  However the engine,
the feeds and the poller interleave, the engine has made a run of the desk in
which the poller's answers are steps like others.  Of each symbol bars and
name were stored at most once.  After the next cycle in which a polled stock
is clicked, whatever other commands it handles, orders and row have the last
book, the chart has the newest points of the bars and of all samples since,
and ends at the price of that book if it has one; and the name is the one that
was stored. -/
theorem watched_stock_shown
    {bs : List StockDeskStep} {t : StockDesk}
    (hrun : exec step (boot symbols capital limits configured now) bs =
      some t) :
    (∃ ds,
      t.engine =
          TradingEngine.desk symbols capital limits configured ds ∧
        (ds.filter fun d => d.update.isNone) =
          bs.filterMap StockDeskStep.deskStep ∧
        ds.filterMap DeskStep.update = t.stored) ∧
      ∀ s,
        (t.stored.filterMap (barsFor s)).length ≤ 1 ∧
          (t.stored.filterMap (nameFor s)).length ≤ 1 ∧
          ∀ q series, s ∈ t.engine.stockSymbols →
            (t.stored.flatMap (quotesFor s)).getLast? = some q →
            series = ((t.stored.filterMap (barsFor s)).flatten ++
              t.stored.flatMap (samplesFor s)).rtake
                StockFeed.kHistoryCap →
            (∀ cs clock, t.engine.nextHistory ≤ clock →
              (t.engine.cycle (cs ++ [Gui.setFocus s]) clock).ShowsStock s q
                series ((t.stored.filterMap (nameFor s)).headD "")) ∧
              (0 < StockFeed.chartPrice q → series.getLast? =
                some { tsNs := q.tsNs, price := StockFeed.chartPrice q }) := by
  obtain ⟨ds, h⟩ := Refines.booted.ran hrun
  rw [List.nil_append, List.nil_append] at h
  refine ⟨⟨ds, h.engine, h.others, h.stored⟩, ?_⟩
  intro s
  have hbars : (t.stored.filterMap (barsFor s)).length ≤ 1 := by
    rw [(h.once s).bars]
    split_ifs <;> omega
  have hnames : (t.stored.filterMap (nameFor s)).length ≤ 1 := by
    rw [(h.once s).names]
    split_ifs <;> omega
  refine ⟨hbars, hnames, ?_⟩
  intro q series hstock hq hnewest
  have hholds := TradingEngine.holds_desk symbols capital limits configured
    ds s
  have hs := TradingEngine.stockSymbols_ne_empty symbols capital limits
    configured ds s
  rw [← h.engine] at hholds hs
  rw [h.stored] at hholds
  have hlast : 0 < StockFeed.chartPrice q → series.getLast? =
      some { tsNs := q.tsNs, price := StockFeed.chartPrice q } := by
    intro hprice
    rw [hnewest]
    exact StockUpdate.getLast?_series hq hprice _
  refine ⟨?_, hlast⟩
  intro cs clock hdue
  have hshown := TradingEngine.stock_of_cycle (hs hstock) hstock
    (hholds.quote.trans hq) cs hdue
  have hseries : t.engine.stocks.history s = series := by
    have hretains := hholds.retains
    rw [(reverse_eq_of_length_le_one hbars []).1] at hretains
    exact hretains.trans hnewest.symm
  have hname : t.engine.stocks.name s =
      (t.stored.filterMap (nameFor s)).headD "" := by
    rw [StockFeed.name, lookupD, hholds.name]
    exact (reverse_eq_of_length_le_one hnames "").2
  rw [← hseries, ← hname]
  exact hshown

end Runs

/-- A stock is watched and polled. -/
def polledDesk : List StockDeskStep :=
  [.desk (.engine (.command (Gui.addSymbol "X" .stock)) trivial) rfl,
    .poller .wake rfl, .poller .copySymbols rfl, .poller .nextSymbol rfl,
    .poller (.gotBars [{ tsNs := 1, price := 9 }] "") rfl,
    .poller (.gotName "Acme") rfl,
    .desk (.engine .drainErrors trivial) rfl,
    .poller .askQuotes rfl,
    .poller (.gotQuotes [("X", { symbol := "X", bid := 10, tsNs := 2 })] "")
      rfl]

theorem watched_stock_shown_acme :
    ∃ t, exec step (boot [] 100 {} true 0) polledDesk = some t ∧
      (t.engine.cycle ([] ++ [Gui.setFocus "X"]) 0).ShowsStock "X"
        { symbol := "X", bid := 10, tsNs := 2 }
        [{ tsNs := 1, price := 9 }, { tsNs := 2, price := 10 }] "Acme" := by
  have hstate : (exec step (boot [] 100 {} true 0) polledDesk).map
      (fun t => (t.engine.stockSymbols, t.engine.nextHistory,
        t.stored.flatMap (quotesFor "X"),
        ((t.stored.filterMap (barsFor "X")).flatten ++
          t.stored.flatMap (samplesFor "X")).rtake StockFeed.kHistoryCap,
        (t.stored.filterMap (nameFor "X")).headD "")) =
      some (["X"], 0, [{ symbol := "X", bid := 10, tsNs := 2 }],
        [{ tsNs := 1, price := 9 }, { tsNs := 2, price := 10 }],
        "Acme") := by
    decide +kernel
  obtain ⟨t, hrun, ht⟩ := Option.map_eq_some_iff.mp hstate
  simp only [Prod.mk.injEq] at ht
  obtain ⟨hstocks, hdue, hquotes, hseries, hname⟩ := ht
  obtain ⟨_, hshown⟩ := watched_stock_shown hrun
  obtain ⟨_, _, hshown⟩ := hshown "X"
  refine ⟨t, hrun, ?_⟩
  rw [← hname]
  refine (hshown _ _ ?_ ?_ hseries.symm).1 [] 0 hdue.le
  · rw [hstocks]
    exact List.mem_singleton_self "X"
  · rw [hquotes]
    rfl

end StockDesk

end ExecutionLayer
