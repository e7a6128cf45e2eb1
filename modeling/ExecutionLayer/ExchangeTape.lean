import ExecutionLayer.PriceChart
import ExecutionLayer.VenueMessages

/-!
# The exchange's tape on the chart

A trade travels from a message of the exchange through the buffers of the
handler, the socket and the store into the series that the chart draws.  The
store keeps the newest trades only, behind what it held before.

So when the user opens the chart of a crypto symbol, it shows the newest
trades of the exchange, in the order of their messages, and in front of them
as much of what was retained before as there is room for
(`exchange_tape_charted`).
-/

namespace ExecutionLayer

open FeedServer Framing MarketStore StepSystem Window
open TradingEngine (priceAges)

namespace TradingEngine

/-! ### Opening a chart -/

/-- The command watches `s` as a stock. -/
def AddsStock (s : String) (c : Command) : Prop :=
  c.type = .addSymbol ∧ c.assetClass = .stock ∧ c.symbol = s

instance (s : String) : DecidablePred (AddsStock s) := by
  unfold AddsStock
  infer_instance

/-- What the chart of `s` depends on, before it is opened. -/
structure SameSource (s : String) (e e' : TradingEngine) : Prop where
  points : e'.store.points s = e.store.points s
  nextHistory : e'.nextHistory = e.nextHistory
  crypto : e.isStock s = false → e'.isStock s = false

theorem SameSource.refl (s : String) (e : TradingEngine) :
    SameSource s e e :=
  ⟨rfl, rfl, id⟩

theorem SameSource.trans
    {s : String} {e₁ e₂ e₃ : TradingEngine} (h : SameSource s e₁ e₂)
    (h' : SameSource s e₂ e₃) :
    SameSource s e₁ e₃ :=
  ⟨h'.points.trans h.points, h'.nextHistory.trans h.nextHistory,
    h'.crypto ∘ h.crypto⟩

/-- Only the command that watches `s` as a stock takes it from the feed. -/
theorem sameSource_process
    (e : TradingEngine) {s : String} {c : Command} (hc : ¬ AddsStock s c) :
    SameSource s e (e.process c) := by
  rcases e.process_cases c with
    ⟨hadds, heq⟩ | ⟨_, heq⟩ | ⟨_, ⟨_, _, heq⟩ | ⟨oms, heq⟩⟩
  · rw [heq, addStock]
    refine ⟨rfl, rfl, fun hcrypto => ?_⟩
    have hne : s ≠ c.symbol := fun hs =>
      hc ⟨hadds.type_eq, hadds.class_eq, hs.symm⟩
    simp only [isStock, List.mem_append, List.mem_singleton, hne, or_false]
      at hcrypto ⊢
    exact hcrypto
  · rw [heq, addCrypto]
    exact ⟨points_addSymbol _ _ _, rfl, id⟩
  · rw [heq]
    exact ⟨rfl, rfl, id⟩
  · rw [heq]
    exact ⟨rfl, rfl, id⟩

theorem sameSource_foldl
    (e : TradingEngine) {s : String} {cs : List Command}
    (hcs : ∀ c ∈ cs, ¬ AddsStock s c) :
    SameSource s e (cs.foldl process e) := by
  induction cs generalizing e with
  | nil =>
      exact .refl s e
  | cons c cs ih =>
      exact (e.sameSource_process (hcs c List.mem_cons_self)).trans
        (ih _ fun c' hc' => hcs c' (List.mem_cons_of_mem c hc'))

/-- A click on a row moves the focus to it. -/
theorem focus_process_setFocus
    (e : TradingEngine) {s : String} (hs : s ≠ "") :
    (e.process (Gui.setFocus s)).focus = s := by
  change (e.processSetFocus (Gui.setFocus s)).focus = s
  rw [processSetFocus]
  split_ifs with hmove
  · rfl
  · by_contra hne
    exact hmove ⟨hs, fun h => hne h.symm⟩

/-- What a cycle does between its commands and the read of the series. -/
def beforeHistory (e : TradingEngine) : TradingEngine :=
  e.readCryptoQuotes.readStockQuotes.requestFocusHistory

theorem sameSource_beforeHistory (e : TradingEngine) (s : String) :
    SameSource s e e.beforeHistory ∧ e.beforeHistory.focus = e.focus := by
  simp only [beforeHistory, requestFocusHistory]
  split_ifs
  · exact ⟨⟨points_requestHistory _ _ _, rfl, id⟩, rfl⟩
  · exact ⟨⟨rfl, rfl, id⟩, rfl⟩

/-- What a cycle does between the series and its view. -/
theorem chart_afterHistory
    (e : TradingEngine) (now : Int) (hfocus : e.focus ≠ "") :
    (e.drainErrors.refreshCatalog now).priceHist = e.priceHist ∧
      (e.drainErrors.refreshCatalog now).focus = e.focus ∧
      (e.drainErrors.refreshCatalog now).stockSymbols =
        e.stockSymbols := by
  unfold refreshCatalog drainErrors
  by_cases hdue : e.nextCatalog ≤ now ∨ e.products = [] ∨
      e.universeSeen = false
  · simp only [if_pos hdue, if_neg hfocus, and_self]
  · simp only [if_neg hdue, and_self]

/-- A focus that is no stock is shown as none. -/
theorem cryptoFocus_buildView
    {e : TradingEngine} (h : e.isStock e.focus = false) :
    e.buildView.CryptoFocus := by
  intro row hrow hsym
  rcases List.mem_append.mp hrow with hrow | hrow
  · obtain ⟨sym, _, rfl⟩ := List.mem_map.mp hrow
    exact e.buildRow_assetClass .crypto sym
  · obtain ⟨sym, hmem, rfl⟩ := List.mem_map.mp hrow
    rw [(e.buildRow_shows .stock sym).1] at hsym
    have hfocus : e.focus ∈ e.stockSymbols := by
      change e.buildView.focus ∈ e.stockSymbols
      rw [← hsym]
      exact hmem
    rw [isStock, decide_eq_false_iff_not] at h
    exact absurd hfocus h

/-- A cycle that opens the chart of a crypto symbol shows what the store
retains of it. -/
theorem chart_of_cycle
    {e : TradingEngine} {s : String} (hs : s ≠ "") {cs : List Command}
    (hcs : ∀ c ∈ cs, ¬ AddsStock s c) (hcrypto : e.isStock s = false)
    {now : Int} (hdue : e.nextHistory ≤ now)
    (hcap : (e.store.points s).length ≤ kHistoryCap) :
    ∃ last : TradingEngine,
      (e.cycle (cs ++ [Gui.setFocus s]) now).view = last.buildView ∧
        last.focus = s ∧ last.isStock last.focus = false ∧
        last.priceHist = e.store.points s := by
  have hclick : ¬ AddsStock s (Gui.setFocus s) := by
    rintro ⟨htype, _⟩
    cases htype
  have hdrained : SameSource s e
      ((cs ++ [Gui.setFocus s]).foldl process e) := by
    refine e.sameSource_foldl fun c hc => ?_
    rcases List.mem_append.mp hc with hc | hc
    · exact hcs c hc
    · rw [List.mem_singleton.mp hc]
      exact hclick
  have hfocus : ((cs ++ [Gui.setFocus s]).foldl process e).focus = s := by
    rw [List.foldl_append]
    exact focus_process_setFocus _ hs
  set drained := (cs ++ [Gui.setFocus s]).foldl process e
  obtain ⟨hbefore, hkept⟩ := drained.sameSource_beforeHistory s
  have hsource := hdrained.trans hbefore
  have hread : drained.beforeHistory.focus = s := hkept.trans hfocus
  have hseries : (drained.beforeHistory.refreshHistory now).priceHist =
      e.store.points s := by
    rw [refreshHistory, if_pos
      ⟨by rw [hread]; exact hs, by rw [hsource.nextHistory]; exact hdue⟩]
    simp only [hread, hsource.crypto hcrypto, Bool.false_eq_true,
      if_false]
    rw [history_eq, hsource.points]
    exact rtake_of_length_le hcap
  have hsame : (drained.beforeHistory.refreshHistory now).focus = s ∧
      (drained.beforeHistory.refreshHistory now).stockSymbols =
        drained.beforeHistory.stockSymbols := by
    rw [refreshHistory]
    split_ifs <;> exact ⟨hread, rfl⟩
  obtain ⟨hhist, hfoc, hstocks⟩ := chart_afterHistory
    (drained.beforeHistory.refreshHistory now) now
    (by rw [hsame.1]; exact hs)
  refine ⟨((drained.beforeHistory.refreshHistory
    now).drainErrors).refreshCatalog now, ?_, hfoc.trans hsame.1, ?_,
    hhist.trans hseries⟩
  · rw [cycle, publish, beforeHistory]
  · rw [hfoc, hsame.1, isStock, hstocks, hsame.2]
    exact hsource.crypto hcrypto

end TradingEngine

/-! ### From the exchange to the pane -/

section Pipeline

variable {py : Python} {venue : Venue} {maxBuffer : Nat} {s : Session}
variable {as : List VenueStep}

open BaseFeedHandler TradingEngine in
/-- **The chart shows the exchange's tape.**  Messages of the exchange come
in, any of them malformed, what they bring in is plain, and they are flushed
at any times; the terminal reads what was written, in chunks cut anywhere.  If
the user then opens the chart of a crypto symbol, and the history is due when
the command is handled, whatever was clicked before in the same cycle except
adding the symbol as a stock, the view shows the newest trades of the symbol
behind what was retained of it before.  If this series is in order and its
ages fit, the price pane shows what is inside its timeframe. -/
theorem exchange_tape_charted
    (hs : Steady s) (hfresh : s.net.written = [])
    (hplain : ∀ a ∈ as, a.Plain py venue)
    (symbols : List String) (capital : ℚ) (limits : RiskLimits)
    (configured : Bool) (ds : List DeskStep) {sym : String}
    (hsym : sym ≠ "")
    (hcrypto : (desk symbols capital limits configured ds).isStock sym =
      false)
    {cs : List Command} (hcs : ∀ c ∈ cs, ¬ AddsStock sym c) {now : Int}
    (hdue : (desk symbols capital limits configured ds).nextHistory ≤
      now) :
    ∃ h, exec (afterStep py venue) (BaseFeedHandler.start maxBuffer s)
          (as ++ [.flush]) =
        some h ∧
      ∀ (parse : List UInt8 → Option JsonLib.Json)
        (dumps : JsonLib.Json → List UInt8) (chunks : List (List UInt8)),
        (∀ msg ∈ h.session.net.written, ReadsBack parse dumps msg) →
        chunks.flatten = join 10 (h.session.net.written.map dumps) →
        ∃ store,
          FeedServer.serve parse [] chunks
              (desk symbols capital limits configured ds).store =
            (.ok [], store) ∧
          ∀ view series,
            view = (TradingEngine.cycle
              { desk symbols capital limits configured ds with
                store := store } (cs ++ [Gui.setFocus sym]) now).view →
            series =
              ((desk symbols capital limits configured
                  ds).store.points sym ++
                tradePoints (as.filterMap (VenueStep.tick py venue))
                  sym).rtake kHistoryCap →
            view.focus = sym ∧
              view.priceHistory = series.map PricePoint.price ∧
              view.priceAgeS = priceAges series ∧
              (OldestFirst series → SpanFits series →
                ∀ sqrt windowS pane, 0 ≤ windowS →
                  Gui.pricePane sqrt view windowS = some pane →
                    pane.Shows sqrt view windowS) := by
  obtain ⟨h, hexec⟩ :=
    (exec_afterStep_iff (BaseFeedHandler.start maxBuffer s) _).mpr
      (plain_concat_flush hplain)
  refine ⟨h, hexec, ?_⟩
  intro parse dumps chunks hread hchunks
  have hcap := (tape_desk symbols capital limits configured ds
    sym).length_le
  generalize desk symbols capital limits configured ds = e at *
  have hserve := serve_messages hs hfresh hexec e.store hread hchunks
  have hpoints := points_run e.store
    (as.filterMap (VenueStep.tick py venue)) sym hcap
  generalize run applyTick e.store
    (as.filterMap (VenueStep.tick py venue)) = store at hserve hpoints
  have hcap' : (store.points sym).length ≤ kHistoryCap := by
    rw [hpoints, length_rtake]
    exact Nat.min_le_left _ _
  obtain ⟨last, hview, hfocus, hclass, hseries⟩ :=
    chart_of_cycle (e := { e with store := store }) hsym hcs hcrypto hdue
      hcap'
  refine ⟨store, hserve, ?_⟩
  intro view series hshown hnewest
  have hlast : last.priceHist = series :=
    hseries.trans (hpoints.trans hnewest.symm)
  rw [hshown, hview, ← hlast]
  refine ⟨hfocus, rfl, rfl, ?_⟩
  intro hsorted hspan sqrt windowS pane hwindow hpane
  have horder : CryptoChart OldestFirst last :=
    ⟨fun hempty => absurd (hfocus.symm.trans hempty) hsym,
      fun _ => hsorted⟩
  exact Gui.shows_of_pricePane (charted_buildView horder fun _ => hspan)
    (cryptoFocus_buildView hclass) hwindow hpane

end Pipeline

/-- A match of X at 2, at the beginning of 2000. -/
def matchX : PyLib.PyValue :=
  .dict
    [("type", .str "match"), ("side", .str "sell"),
      ("time", .str "2000-01-01T00:00:00.000000Z"),
      ("product_id", .str "X"), ("price", .int 2), ("size", .int 1)]

/-- Only one text parses, and it is the match. -/
def pythonMatch : Python where
  loads := fun raw => if raw = [3] then some matchX else none
  float := PyLib.PyValue.number
  int := PyLib.PyValue.integer
  fromisoformat := fun _ =>
    some { moment := newYear2000, microsecond := 0, utcoffset := some 0 }

def rawMatch (raw : List UInt8) : RawMessage where
  raw := raw
  recvNs := 946684800500000000

theorem plain_rawMatch :
    ∀ a ∈ [VenueStep.message (rawMatch [3]), .message (rawMatch [4])],
      a.Plain pythonMatch .coinbase := by
  rintro a ha e he
  simp only [List.mem_cons, List.not_mem_nil, or_false] at ha
  rcases ha with rfl | rfl
  · cases he
    exact ⟨_, rfl⟩
  · cases he

/-- `{"m":"trades","rows":[["X",2.0,946684800000000000]]}` -/
def tapeText : List UInt8 :=
  [123, 34, 109, 34, 58, 34, 116, 114, 97, 100, 101, 115, 34, 44, 34,
    114, 111, 119, 115, 34, 58, 91, 91, 34, 88, 34, 44, 50, 46, 48,
    44, 57, 52, 54, 54, 56, 52, 56, 48, 48, 48, 48, 48, 48, 48, 48,
    48, 48, 48, 93, 93, 125]

def tapeX : FeedTrade :=
  { symbol := "X", price := 2, eventTimeNs := 946684800000000000 }

def dumpTape (_ : JsonLib.Json) : List UInt8 :=
  tapeText

def parseTape (_ : List UInt8) : Option JsonLib.Json :=
  some (FeedPublisher.tradesMsg [tapeX])

/-- A match, a message that does not parse, and a click on the row. -/
theorem exchange_tape_charted_x :
    ∃ store,
      FeedServer.serve parseTape [] [tapeText ++ [10]]
          (TradingEngine.desk ["X"] 100 {} false []).store =
        (.ok [], store) ∧
      ∃ view, view = (TradingEngine.cycle
          { TradingEngine.desk ["X"] 100 {} false [] with
            store := store } ([] ++ [Gui.setFocus "X"]) 0).view ∧
        view.focus = "X" ∧ view.priceHistory = [2] ∧
          view.priceAgeS = [0] := by
  obtain ⟨h, hexec, hserved⟩ := @exchange_tape_charted pythonMatch
    .coinbase 10 { pub := { attached := true } } _ ⟨rfl, by simp⟩ rfl
    plain_rawMatch ["X"] 100 {} false [] "X" (by decide)
    (by decide +kernel) [] (fun c hc => absurd hc List.not_mem_nil) 0
    (show (TradingEngine.desk ["X"] 100 {} false []).nextHistory ≤ 0
      from le_rfl)
  have hwritten : h.session.net.written =
      [FeedPublisher.tradesMsg [tapeX]] := by
    rw [← Option.some.inj hexec]
    rfl
  obtain ⟨store, hserve, hchart⟩ := hserved parseTape dumpTape
    [tapeText ++ [10]]
    (by
      intro msg hmsg
      rw [hwritten] at hmsg
      rw [List.mem_singleton.mp hmsg]
      exact ⟨by decide, by decide, _, rfl, .refl _⟩)
    (by
      rw [hwritten]
      decide)
  have hseries :
      ((TradingEngine.desk ["X"] 100 {} false []).store.points "X" ++
        tradePoints ([VenueStep.message (rawMatch [3]),
          .message (rawMatch [4])].filterMap
            (VenueStep.tick pythonMatch .coinbase)) "X").rtake
              kHistoryCap =
        [{ tsNs := 946684800000000000, price := 2 }] := by
    decide +kernel
  obtain ⟨hfocus, hprices, hages, _⟩ := hchart _ _ rfl hseries.symm
  have hage : priceAges [{ tsNs := 946684800000000000, price := 2 }] =
      [0] := by
    decide +kernel
  exact ⟨store, hserve, _, rfl, hfocus, hprices, hages.trans hage⟩

end ExecutionLayer
