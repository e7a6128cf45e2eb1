import ExecutionLayer.TerminalWindow

/-!
# The order ticket

The ticket is drawn from a view that is already old when its order is handled.
Its buttons ask for a quote or a position in the row of the focused symbol,
and neither the quote cache nor the watch lists ever lose a symbol.  So an
order of the window always finds its quote and has a positive amount, and it
reaches the order manager unless it is sized in dollars and the book then has
no price (`orders_reach_manager`).

The ticket falls back to the first row when the focused symbol has none.  It
never has to: the focus always has a row, so the ticket trades the symbol that
the chart shows (`ticket_follows_focus`).

Both hold for symbols without a NUL, which the list of the ticket shows as
they are (`PlainRows`); a press activates one widget (`OneClick`).
-/

namespace ExecutionLayer

open CText StepSystem

/-- The command trades. -/
def Command.IsOrder (c : Command) : Prop :=
  c.type = .buy ∨ c.type = .sell ∨ c.type = .flatten

/-- The list of the ticket is not used in the frame, or none of its three
buttons is: a click activates one widget. -/
def FrameInput.OneClick (input : FrameInput) : Prop :=
  input.combo = none ∨
    (input.pressed .buy = false ∧ input.pressed .sell = false ∧
      input.pressed .sellAll = false)

instance (input : FrameInput) : Decidable input.OneClick := by
  unfold FrameInput.OneClick
  infer_instance

namespace Gui

/-! ### What a frame makes -/

/-- The commands of a frame on the view `v`. -/
inductive Made (v : EngineView) (input : FrameInput) : Command → Prop
  | kill :
      Made v input
        { type := .kill, symbol := "", amount := 0, useNotional := false }
  | added (symbol : String) (cls : AssetClass) :
      Made v input (addSymbol symbol cls)
  | focused (s : SymbolView) (hs : s ∈ v.symbols) :
      Made v input (setFocus s.symbol)
  | chosen (s : SymbolView) (hs : s ∈ v.symbols) :
      Made v input (setFocus (cut s.symbol))
  | refocused (p : ClosedPositionView) (hp : p ∈ v.closedPositions) :
      Made v input (setFocus p.symbol)
  | ordered (g : Gui) (type : CommandType)
      (htype : type = .buy ∨ type = .sell) (hquote : hasQuote v)
      (hamount : 0 < g.amount)
      (hpressed : input.pressed .buy ∨ input.pressed .sell) :
      Made v input (g.ticketOrder type (ticketSymbol v input))
  | soldAll (hqty : sellable < netQty v)
      (hpressed : input.pressed .sellAll) :
      Made v input (flatten (ticketSymbol v input))
  | flattened (s : SymbolView) (hs : s ∈ v.symbols) (hqty : s.netQty ≠ 0) :
      Made v input (flatten s.symbol)

theorem mem_pressedRows {α : Type} {rows : List α}
    {pressed : α → Nat → Bool} {r : α} (h : r ∈ pressedRows rows pressed) :
    r ∈ rows := by
  obtain ⟨e, he, rfl⟩ := List.mem_map.mp h
  exact List.fst_mem_of_mem_zipIdx (List.mem_filter.mp he).1

theorem made_marketRows
    {v : EngineView} {cls : AssetClass} {input : FrameInput} {c : Command}
    (h : c ∈ marketRows v cls input) : Made v input c := by
  obtain ⟨s, hs, rfl⟩ := List.mem_map.mp h
  exact .focused s (mem_pressedRows hs)

theorem made_cryptoTab
    {g : Gui} {v : EngineView} {input : FrameInput} {c : Command}
    (h : c ∈ (g.cryptoTab v input).2) : Made v input c := by
  simp only [cryptoTab] at h
  split_ifs at h
  · rcases List.mem_cons.mp h with rfl | h
    · exact .added _ _
    · exact made_marketRows h
  · exact made_marketRows h

theorem made_stocksTab
    {g : Gui} {v : EngineView} {input : FrameInput} {c : Command}
    (h : c ∈ (g.stocksTab v input).2) : Made v input c := by
  simp only [stocksTab] at h
  split_ifs at h
  · rcases List.mem_cons.mp h with rfl | h
    · exact .added _ _
    · exact made_marketRows h
  · exact made_marketRows h
  · cases h

theorem mem_button {enabled pressed : Bool} {c c' : Command}
    (h : c ∈ button enabled pressed c') :
    enabled ∧ pressed ∧ c = c' := by
  unfold button at h
  split_ifs at h with hboth
  · rw [Bool.and_eq_true] at hboth
    exact ⟨hboth.1, hboth.2, List.mem_singleton.mp h⟩
  · cases h

theorem made_orderTicket
    {g : Gui} {v : EngineView} {input : FrameInput} {c : Command}
    (h : c ∈ (g.orderTicket v input).2) : Made v input c := by
  unfold orderTicket at h
  split_ifs at h
  · cases h
  · simp only [List.mem_append] at h
    rcases h with ((h | h) | h) | h
    · obtain ⟨sym, hsym, rfl⟩ := List.mem_map.mp h
      obtain ⟨i, _, hi⟩ := Option.bind_eq_some_iff.mp
        (Option.mem_toList.mp hsym)
      obtain ⟨row, hrow, rfl⟩ := List.mem_map.mp (List.mem_of_getElem? hi)
      obtain ⟨s, hs, rfl⟩ := List.mem_map.mp hrow
      exact .chosen s hs
    · obtain ⟨hcan, hpressed, rfl⟩ := mem_button h
      simp only [canBuy, Bool.and_eq_true, decide_eq_true_eq] at hcan
      exact .ordered _ .buy (Or.inl rfl) hcan.1.1 hcan.1.2
        (Or.inl hpressed)
    · obtain ⟨hcan, hpressed, rfl⟩ := mem_button h
      simp only [canSell, Bool.and_eq_true, decide_eq_true_eq] at hcan
      exact .ordered _ .sell (Or.inr rfl) hcan.1.1 hcan.1.2
        (Or.inr hpressed)
    · obtain ⟨hqty, hpressed, rfl⟩ := mem_button h
      exact .soldAll (of_decide_eq_true hqty) hpressed

theorem made_positionRow
    {v : EngineView} {input : FrameInput} {drawn : Gui × List Command}
    (hdrawn : ∀ c ∈ drawn.2, Made v input c) {row : SymbolView × Nat}
    (hrow : row.1 ∈ v.symbols) :
    ∀ c ∈ (positionRow input drawn row).2, Made v input c := by
  have hsnoc : ∀ {cs : List Command} {c' : Command},
      (∀ c ∈ cs, Made v input c) → Made v input c' →
        ∀ c ∈ cs ++ [c'], Made v input c := by
    intro cs c' hcs hc' c hc
    rcases List.mem_append.mp hc with hc | hc
    · exact hcs c hc
    · rw [List.mem_singleton.mp hc]
      exact hc'
  unfold positionRow
  by_cases hqty : row.1.netQty = 0
  · simpa only [hqty, if_true] using hdrawn
  · simp only [hqty, if_false]
    have hfocus := hsnoc hdrawn (.focused row.1 hrow)
    split_ifs
    · exact hsnoc hfocus (.flattened row.1 hrow hqty)
    · exact hsnoc hdrawn (.flattened row.1 hrow hqty)
    · exact hfocus
    · exact hdrawn

theorem made_currentTab
    {g : Gui} {v : EngineView} {input : FrameInput} {c : Command}
    (h : c ∈ (g.currentTab v input).2) : Made v input c := by
  have hrows : ∀ (rows : List (SymbolView × Nat))
      (drawn : Gui × List Command),
      (∀ r ∈ rows, r.1 ∈ v.symbols) →
        (∀ c ∈ drawn.2, Made v input c) →
          ∀ c ∈ (rows.foldl (positionRow input) drawn).2,
            Made v input c := by
    intro rows
    induction rows with
    | nil =>
        intro drawn _ hdrawn
        exact hdrawn
    | cons r rows ih =>
        intro drawn hrows hdrawn
        exact ih _ (fun r' hr' => hrows r' (List.mem_cons_of_mem r hr'))
          (made_positionRow hdrawn (hrows r List.mem_cons_self))
  exact hrows _ (g, []) (fun r hr => List.fst_mem_of_mem_zipIdx hr)
    (fun c hc => by cases hc) c h

theorem made_previousTab
    {v : EngineView} {input : FrameInput} {c : Command}
    (h : c ∈ previousTab v input) : Made v input c := by
  obtain ⟨p, hp, rfl⟩ := List.mem_map.mp h
  exact .refocused p (mem_pressedRows hp)

theorem made_search
    {g : Gui} {v : EngineView} {input : FrameInput} {c : Command}
    (h : c ∈ (g.search v input).2) : Made v input c := by
  obtain ⟨id, _, rfl⟩ := List.mem_map.mp h
  exact .added id _

/-- What a frame posts comes from one of its panels. -/
theorem made_frame
    {g : Gui} {v : EngineView} {input : FrameInput} {c : Command}
    (h : c ∈ (g.frame v input).2) : Made v input c := by
  simp only [frame, List.mem_append] at h
  rcases h with (((((h | h) | h) | h) | h) | h) | h
  · unfold menuBar at h
    split_ifs at h
    · cases h
    · rw [List.mem_singleton.mp h]
      exact .kill
    · cases h
  · exact made_cryptoTab h
  · exact made_stocksTab h
  · exact made_orderTicket h
  · exact made_currentTab h
  · exact made_previousTab h
  · exact made_search h

/-! ### The symbol of the ticket -/

theorem focusView_symbol
    {v : EngineView} {s : SymbolView} (h : focusView v = some s) :
    s ∈ v.symbols ∧ s.symbol = v.focus := by
  unfold focusView at h
  have hsym := List.find?_some h
  exact ⟨List.mem_of_find?_eq_some h, of_decide_eq_true hsym⟩

theorem names_of_plainRows
    {v : EngineView} (h : PlainRows v) : names v = rowSymbols v := by
  rw [names, List.map_congr_left fun sym hsym =>
    (cut_eq_self_iff sym).mpr (h sym hsym)]
  exact List.map_id _

/-- The focused symbol's row is found when the symbol has one. -/
theorem exists_focusView
    {v : EngineView} (h : v.focus ∈ rowSymbols v) :
    ∃ s, focusView v = some s := by
  obtain ⟨s, hs, hsym⟩ := List.mem_map.mp h
  rw [← Option.isSome_iff_exists, focusView, List.find?_isSome]
  exact ⟨s, hs, decide_eq_true hsym⟩

theorem mem_rowSymbols_of_focusView
    {v : EngineView} {s : SymbolView} (h : focusView v = some s) :
    v.focus ∈ rowSymbols v := by
  obtain ⟨hs, hsym⟩ := focusView_symbol h
  exact List.mem_map.mpr ⟨s, hs, hsym⟩

/-- A ticket whose list is left alone trades the focused symbol. -/
theorem ticketSymbol_eq_focus
    {v : EngineView} {input : FrameInput} (hplain : PlainRows v)
    (h : v.focus ∈ rowSymbols v) (hpicked : picked v input = none) :
    ticketSymbol v input = v.focus := by
  rw [← names_of_plainRows hplain] at h
  have hsome : ((names v).findIdx? fun name => v.focus = name).isSome := by
    rw [List.findIdx?_isSome, List.any_eq_true]
    exact ⟨v.focus, h, decide_eq_true rfl⟩
  obtain ⟨i, hi⟩ := Option.isSome_iff_exists.mp hsome
  obtain ⟨hlt, hname, _⟩ := List.findIdx?_eq_some_iff_getElem.mp hi
  rw [ticketSymbol, hpicked, Option.getD_none, selSym, hi,
    Option.getD_some, List.getD_eq_getElem?_getD,
    List.getElem?_eq_getElem hlt, Option.getD_some]
  exact (of_decide_eq_true hname).symm

/-- The quote and the position that the buttons ask for are the focused
symbol's, and so is the ticket's symbol. -/
theorem ticketSymbol_of_focusView
    {v : EngineView} {input : FrameInput} {s : SymbolView}
    (hplain : PlainRows v) (hrow : focusView v = some s)
    (hpicked : picked v input = none) :
    s ∈ v.symbols ∧ ticketSymbol v input = s.symbol := by
  obtain ⟨hmem, hsym⟩ := focusView_symbol hrow
  refine ⟨hmem, ?_⟩
  rw [ticketSymbol_eq_focus hplain (mem_rowSymbols_of_focusView hrow) hpicked,
    hsym]

/-- An order of a frame is of a row with a quote or a position. -/
theorem Made.row_of_isOrder
    {v : EngineView} {input : FrameInput} {c : Command}
    (h : Made v input c) (hclick : input.OneClick) (hplain : PlainRows v)
    (horder : c.IsOrder) :
    ∃ s ∈ v.symbols, c.symbol = s.symbol ∧
      (s.hasQuote ∨ s.netQty ≠ 0) := by
  have hpicked : ∀ w, w = Widget.buy ∨ w = .sell ∨ w = .sellAll →
      input.pressed w → picked v input = none := by
    rintro w hw hpressed
    rcases hclick with hcombo | ⟨hbuy, hsell, hall⟩
    · rw [picked, hcombo, Option.bind_none]
    · rcases hw with rfl | rfl | rfl
      · rw [hbuy] at hpressed
        cases hpressed
      · rw [hsell] at hpressed
        cases hpressed
      · rw [hall] at hpressed
        cases hpressed
  cases h with
  | ordered g type htype hquote hamount hpressed =>
      have hnone : picked v input = none := by
        rcases hpressed with hpressed | hpressed
        · exact hpicked .buy (by simp) hpressed
        · exact hpicked .sell (by simp) hpressed
      obtain ⟨s, hrow, hs⟩ := (Option.any_eq_true _ _).mp hquote
      obtain ⟨hmem, hsym⟩ := ticketSymbol_of_focusView hplain hrow hnone
      exact ⟨s, hmem, hsym, Or.inl hs⟩
  | soldAll hqty hpressed =>
      have hnone := hpicked .sellAll (by simp) hpressed
      cases hrow : focusView v with
      | none =>
          rw [netQty, hrow, Option.elim_none] at hqty
          exact absurd hqty (by norm_num [sellable])
      | some s =>
          obtain ⟨hmem, hsym⟩ := ticketSymbol_of_focusView hplain hrow hnone
          refine ⟨s, hmem, hsym, Or.inr ?_⟩
          rw [netQty, hrow, Option.elim_some] at hqty
          intro hzero
          rw [hzero] at hqty
          exact absurd hqty (by norm_num [sellable])
  | flattened s hs hqty =>
      exact ⟨s, hs, rfl, Or.inr hqty⟩
  | _ =>
      rcases horder with h | h | h <;> cases h

/-- A buy or sell of a frame has a positive amount. -/
theorem Made.amount_pos
    {v : EngineView} {input : FrameInput} {c : Command}
    (h : Made v input c) (htype : c.type = .buy ∨ c.type = .sell) :
    0 < c.amount := by
  cases h with
  | ordered g type _ _ hamount _ =>
      exact hamount
  | _ =>
      rcases htype with h | h <;> cases h

end Gui

/-! ### What a view shows -/

namespace TradingEngine

/-- A step publishes, or it leaves the view. -/
theorem view_deskStep (e : TradingEngine) (d : DeskStep) :
    (e.deskStep d).view = e.view ∨
      d = .engine .publish trivial ∧ (e.deskStep d).view = e.buildView := by
  cases d with
  | engine a own =>
      change (e.step a).view = e.view ∨ _ ∧ (e.step a).view = e.buildView
      cases a with
      | command c =>
          rcases e.process_cases c with
            ⟨_, heq⟩ | ⟨_, heq⟩ | ⟨_, ⟨_, _, heq⟩ | ⟨oms, heq⟩⟩
          · exact Or.inl (by rw [step, heq, addStock])
          · exact Or.inl (by rw [step, heq, addCrypto])
          · exact Or.inl (by rw [step, heq])
          · exact Or.inl (by rw [step, heq])
      | quote symbol q =>
          exact own.elim
      | feeds store stocks =>
          exact own.elim
      | requestFocusHistory =>
          refine Or.inl ?_
          rw [step, requestFocusHistory]
          split_ifs <;> rfl
      | refreshHistory now =>
          refine Or.inl ?_
          rw [step, refreshHistory]
          split_ifs <;> rfl
      | refreshCatalog now =>
          refine Or.inl ?_
          rw [step, refreshCatalog]
          split_ifs <;> rfl
      | publish =>
          exact Or.inr ⟨rfl, by rw [step, publish]⟩
      | _ =>
          exact Or.inl rfl
  | _ =>
      exact Or.inl rfl

/-- A row with a quote or a position is of a quoted symbol, when every
position is. -/
theorem Quoted.row
    {e : TradingEngine} (h : e.Quoted) {cls : AssetClass} {sym : String}
    (hrow : (e.buildRow cls sym).hasQuote ∨
      (e.buildRow cls sym).netQty ≠ 0) :
    sym ∈ e.quotes := by
  by_contra hnone
  have hpos : e.oms.portfolio.positions.lookup sym = none := by
    rw [Finmap.lookup_eq_none]
    exact fun hsym => hnone (h sym hsym)
  rw [← Finmap.lookup_eq_none] at hnone
  simp [buildRow, hnone, hpos] at hrow

/-- Rows with a quote or a position are of symbols that are quoted by now. -/
def RowsQuoted (e : TradingEngine) (v : EngineView) : Prop :=
  ∀ s ∈ v.symbols, s.hasQuote ∨ s.netQty ≠ 0 → s.symbol ∈ e.quotes

theorem Quoted.rowsQuoted
    {e : TradingEngine} (h : e.Quoted) : e.RowsQuoted e.buildView := by
  intro s hs hrow
  have hbuilt : ∃ cls sym, s = e.buildRow cls sym := by
    rcases List.mem_append.mp hs with hs | hs
    · obtain ⟨sym, _, rfl⟩ := List.mem_map.mp hs
      exact ⟨.crypto, sym, rfl⟩
    · obtain ⟨sym, _, rfl⟩ := List.mem_map.mp hs
      exact ⟨.stock, sym, rfl⟩
  obtain ⟨cls, sym, rfl⟩ := hbuilt
  rw [(e.buildRow_shows cls sym).1]
  exact h.row hrow

/-- The positions are quoted, and so is what the view shows. -/
structure QuotesShown (e : TradingEngine) : Prop where
  quoted : e.Quoted
  rows : e.RowsQuoted e.view

theorem QuotesShown.deskStep
    {e : TradingEngine} (h : e.QuotesShown) (d : DeskStep) :
    (e.deskStep d).QuotesShown := by
  refine ⟨h.quoted.step _, fun s hs hrow => mem_quotes_step ?_ _⟩
  rcases e.view_deskStep d with heq | ⟨_, heq⟩
  · rw [heq] at hs
    exact h.rows s hs hrow
  · rw [heq] at hs
    exact h.quoted.rowsQuoted s hs hrow

/-- The order finds its quote, and has an amount. -/
structure OrderReady (e : TradingEngine) (c : Command) : Prop where
  quoted : c.IsOrder → c.symbol ∈ e.quotes
  amount : c.type = .buy ∨ c.type = .sell → 0 < c.amount

theorem OrderReady.deskStep
    {e : TradingEngine} {c : Command} (h : e.OrderReady c) (d : DeskStep) :
    (e.deskStep d).OrderReady c where
  quoted := fun horder => mem_quotes_step (h.quoted horder) _
  amount := h.amount

/-- A command that is ready is dropped only when it is sized in dollars and
its quote has no price. -/
theorem OrderReady.tradeCall_eq
    {e : TradingEngine} {c : Command} (h : e.OrderReady c)
    (horder : c.IsOrder) :
    ∃ q, e.quotes.lookup c.symbol = some q ∧
      e.tradeCall c =
        if c.type = .flatten then some (.flatten c.symbol q)
        else if c.useNotional ∧ q.touch (sideOf c) ≤ 0 then none
        else some (.submit (orderSignal c q) q) := by
  obtain ⟨q, hq⟩ := Finmap.mem_iff.mp (h.quoted horder)
  refine ⟨q, hq, ?_⟩
  rw [tradeCall, hq, Option.bind_some]
  by_cases hflat : c.type = .flatten
  · rw [if_pos hflat, if_pos hflat]
  · have hamount : 0 < c.amount := by
      rcases horder with hbuy | hsell | hflat'
      · exact h.amount (Or.inl hbuy)
      · exact h.amount (Or.inr hsell)
      · exact absurd hflat' hflat
    rw [if_neg hflat, if_neg hflat]
    have hqty : 0 < orderQty c q ↔
        ¬ (c.useNotional ∧ q.touch (sideOf c) ≤ 0) := by
      rw [orderQty]
      by_cases hnotional : c.useNotional
      · by_cases hprice : 0 < q.touch (sideOf c)
        · simp [hnotional, hprice, div_pos hamount hprice]
        · simp [hnotional, hprice, not_lt.mp hprice]
      · simp [hnotional, hamount]
    by_cases hdrop : c.useNotional ∧ q.touch (sideOf c) ≤ 0
    · rw [if_pos hdrop, if_neg (fun hpos => hqty.mp hpos hdrop)]
    · rw [if_neg hdrop, if_pos (hqty.mpr hdrop)]

end TradingEngine

namespace App

/-- A turn of the loop. -/
def turn : AppStep :=
  .run (.turn 0) rfl

/-- A quote comes in and is published, and BUY is pressed. -/
def buyOnce : List AppStep :=
  .run (.thread (.store (.onQuote
      { symbol := "BTC-USD", bid := 9, ask := 10 })) trivial) rfl ::
    (List.replicate 10 turn ++
      [.frame { pressed := fun w => w = .buy }, .post])

end App

/-! ### The focus has a row -/

/-- A closed round trip is of a symbol with a position. -/
def Portfolio.ClosedHeld (pf : Portfolio) : Prop :=
  ∀ c ∈ pf.closed, c.symbol ∈ pf.positions

theorem Portfolio.ClosedHeld.apply
    {pf : Portfolio} (h : pf.ClosedHeld) (f : Fill) :
    (pf.apply f).ClosedHeld := by
  intro c hc
  rw [apply_positions, Finmap.mem_insert]
  simp only [Portfolio.apply] at hc
  split_ifs at hc
  · rcases List.mem_append.mp hc with hc | hc
    · exact Or.inr (h c hc)
    · rw [List.mem_singleton.mp hc]
      exact Or.inl rfl
  · exact Or.inr (h c hc)

namespace TradingEngine

theorem closedHeld_deskStep
    {e : TradingEngine} (h : e.oms.portfolio.ClosedHeld) (d : DeskStep) :
    (e.deskStep d).oms.portfolio.ClosedHeld := by
  rw [deskStep, step_oms]
  cases hcall : e.callOf (e.label d) with
  | none =>
      exact h
  | some c =>
      rw [Option.elim_some]
      cases hsig : e.oms.signalOf c with
      | none =>
          rcases OrderManager.call_of_signalOf_none hsig
            with ⟨reason, heq⟩ | heq
          · rw [heq]
            exact h
          · rw [heq]
            exact h
      | some signal =>
          obtain ⟨sig, market⟩ := signal
          rcases (OrderManager.call_submitted hsig).portfolio_cases
            with heq | ⟨_, _, heq⟩
          · rw [heq]
            exact h
          · rw [heq]
            exact h.apply _

/-- A command moves the focus to its own symbol: one it asks for, or one it
adds. -/
theorem focus_process (e : TradingEngine) (c : Command) :
    (e.process c).focus = e.focus ∨
      (e.process c).focus = c.symbol ∧ c.symbol ≠ "" ∧
        (c.type = .setFocus ∨ ∃ cls, e.Adds cls c) := by
  by_cases hadds : ∃ cls, e.Adds cls c
  · obtain ⟨cls, hadds⟩ := hadds
    refine Or.inr ⟨?_, hadds.symbol_ne, Or.inr ⟨cls, hadds⟩⟩
    cases cls with
    | crypto =>
        rw [process_of_adds_crypto hadds, addCrypto]
    | stock =>
        rw [process_of_adds_stock hadds, addStock]
  · by_cases htype : c.type = .setFocus
    · rw [process, if_neg (by simp [htype]), if_pos htype, processSetFocus]
      by_cases hnew : c.symbol ≠ "" ∧ c.symbol ≠ e.focus
      · rw [if_pos hnew]
        exact Or.inr ⟨rfl, hnew.1, Or.inl htype⟩
      · rw [if_neg hnew]
        exact Or.inl rfl
    · refine Or.inl ?_
      rw [process, if_neg htype]
      split_ifs with hadd
      · unfold processAddSymbol
        split_ifs with hempty hstock hold hold
        · rfl
        · rfl
        · exact absurd ⟨.stock, hadd, hempty, hstock, hold⟩ hadds
        · rfl
        · refine absurd ⟨.crypto, hadd, hempty, ?_, hold⟩ hadds
          cases hcls : c.assetClass with
          | crypto =>
              rfl
          | stock =>
              exact absurd hcls hstock
      · rfl
      · rw [processTrade_eq]

theorem rowSymbols_deskStep (e : TradingEngine) (d : DeskStep) :
    e.rowSymbols ⊆ (e.deskStep d).rowSymbols := by
  intro s hs
  rcases List.mem_append.mp hs with hs | hs
  · exact List.mem_append_left _
      (e.subset_watchList_deskStep d .crypto hs)
  · exact List.mem_append_right _
      (e.subset_watchList_deskStep d .stock hs)

/-- A step that handles no command keeps a focus. -/
theorem focus_deskStep
    (e : TradingEngine) {d : DeskStep} (hd : d.command = none)
    (hfocus : e.focus ≠ "") : (e.deskStep d).focus = e.focus := by
  cases d with
  | engine a own =>
      change (e.step a).focus = e.focus
      cases a with
      | command c =>
          cases hd
      | quote symbol q =>
          exact own.elim
      | feeds store stocks =>
          exact own.elim
      | requestFocusHistory =>
          rw [step, requestFocusHistory]
          split_ifs <;> rfl
      | refreshHistory now =>
          rw [step, refreshHistory]
          split_ifs <;> rfl
      | refreshCatalog now =>
          rw [step, refreshCatalog]
          split_ifs
          · rfl
          · rfl
      | publish =>
          rw [step, publish]
      | _ =>
          rfl
  | _ =>
      rfl

/-- The focus and all that can be clicked on are of symbols with a row. -/
structure FocusListed (e : TradingEngine) : Prop where
  listed : e.Listed
  closed : e.oms.portfolio.ClosedHeld
  focus : e.focus ≠ "" ∧ e.focus ∈ e.rowSymbols
  rows : ∀ sym ∈ Gui.rowSymbols e.view, sym ∈ e.rowSymbols
  round : ∀ p ∈ e.view.closedPositions, p.symbol ∈ e.rowSymbols
  view : Gui.rowSymbols e.view = [] ∨
    e.view.focus ∈ Gui.rowSymbols e.view

theorem rowSymbols_buildView (e : TradingEngine) :
    Gui.rowSymbols e.buildView = e.rowSymbols := by
  have hrow : ∀ cls sym, (e.buildRow cls sym).symbol = id sym :=
    fun cls sym => (e.buildRow_shows cls sym).1
  rw [Gui.rowSymbols, e.buildView_symbols _ id hrow, List.map_id]

/-- A command that moves the focus moves it to a row. -/
def FocusReady (e : TradingEngine) (c : Command) : Prop :=
  c.type = .setFocus → c.symbol ∈ e.rowSymbols

theorem FocusReady.deskStep
    {e : TradingEngine} {c : Command} (h : e.FocusReady c) (d : DeskStep) :
    (e.deskStep d).FocusReady c := fun htype =>
  e.rowSymbols_deskStep d (h htype)

theorem FocusListed.focus_deskStep
    {e : TradingEngine} (h : e.FocusListed) {d : DeskStep}
    (hcommand : ∀ c, d.command = some c → e.FocusReady c) :
    (e.deskStep d).focus ≠ "" ∧
      (e.deskStep d).focus ∈ (e.deskStep d).rowSymbols := by
  have hrows := e.rowSymbols_deskStep d
  have hkept : (e.deskStep d).focus = e.focus →
      (e.deskStep d).focus ≠ "" ∧
        (e.deskStep d).focus ∈ (e.deskStep d).rowSymbols := by
    intro heq
    rw [heq]
    exact ⟨h.focus.1, hrows h.focus.2⟩
  cases hd : d.command with
  | none =>
      exact hkept (e.focus_deskStep hd h.focus.1)
  | some c =>
      have hstep : e.deskStep d = e.process c := by
        cases d with
        | engine a own =>
            cases a with
            | command c' =>
                cases hd
                rfl
            | _ =>
                cases hd
        | _ =>
            cases hd
      rw [hstep] at hkept hrows ⊢
      rcases e.focus_process c with heq | ⟨heq, hne, hwhy⟩
      · exact hkept heq
      · rw [heq]
        refine ⟨hne, ?_⟩
        rcases hwhy with htype | ⟨cls, hadds⟩
        · exact hrows (hcommand c hd htype)
        · cases cls with
          | crypto =>
              rw [process_of_adds_crypto hadds]
              simp [addCrypto, rowSymbols]
          | stock =>
              rw [process_of_adds_stock hadds]
              simp [addStock, rowSymbols]

theorem FocusListed.deskStep
    {e : TradingEngine} (h : e.FocusListed) {d : DeskStep}
    (hcommand : ∀ c, d.command = some c → e.FocusReady c)
    (honly : e.OnlyWatched d) :
    (e.deskStep d).FocusListed := by
  have hrows := e.rowSymbols_deskStep d
  have hlisted := h.listed.deskStep honly
  have hclosed := closedHeld_deskStep h.closed d
  have hfocus := h.focus_deskStep hcommand
  rcases e.view_deskStep d with heq | ⟨rfl, heq⟩
  · refine ⟨hlisted, hclosed, hfocus, ?_, ?_, ?_⟩
    · rw [heq]
      exact fun sym hsym => hrows (h.rows sym hsym)
    · rw [heq]
      exact fun p hp => hrows (h.round p hp)
    · rw [heq]
      exact h.view
  · refine ⟨hlisted, hclosed, hfocus, ?_, ?_, ?_⟩
    · rw [heq, rowSymbols_buildView]
      exact fun sym hsym => hrows hsym
    · rw [heq]
      intro p hp
      obtain ⟨c, hc, rfl⟩ := List.mem_map.mp hp
      refine hrows (h.listed.quotes _ (h.listed.quoted _ ?_))
      exact h.closed c (List.mem_reverse.mp hc)
    · rw [heq, rowSymbols_buildView]
      exact Or.inr h.focus.2

end TradingEngine

namespace App

/-- **The ticket trades what the chart shows.**  From START DESK, with polls
that only return watched stocks and no NUL in the symbols that are shown,
however frames, posts, the engine and the feeds interleave: as soon as a view
has rows, the focused symbol has one, and a frame whose symbol list is left
alone trades the focused symbol and decides by its row. -/
theorem ticket_follows_focus
    {capitalInput : ℚ} {configured : Bool} {as : List AppStep} {app : App}
    (hpolls : EverySteps step
      (Admits TradingEngine.OnlyWatched fun v _ => Gui.PlainRows v)
      (startDesk capitalInput configured) as)
    (hrun : exec step (startDesk capitalInput configured) as = some app)
    (hplain : Gui.PlainRows app.loop.engine.view)
    (hrows : Gui.names app.loop.engine.view ≠ []) :
    (∃ s, Gui.focusView app.loop.engine.view = some s ∧
        s ∈ app.loop.engine.view.symbols ∧
        s.symbol = app.loop.engine.view.focus) ∧
      ∀ input, Gui.picked app.loop.engine.view input = none →
        Gui.ticketSymbol app.loop.engine.view input =
          app.loop.engine.view.focus := by
  have hkeeps : Keeps TradingEngine.FocusListed
      TradingEngine.FocusReady app := by
    refine invariant (fun e d h hcommand honly => h.deskStep hcommand honly)
      (fun e d c _ _ h => h.deskStep d) (fun _ _ _ => trivial) ?_ ?_ hpolls
      hrun
    · intro g e input h hshown c hc htype
      cases Gui.made_frame hc with
      | focused s hs =>
          exact h.rows _ (List.mem_map_of_mem hs)
      | chosen s hs =>
          have hmem : s.symbol ∈ Gui.rowSymbols e.view :=
            List.mem_map_of_mem hs
          have hsame := (cut_eq_self_iff s.symbol).mpr (hshown _ hmem)
          exact hsame.symm ▸ h.rows _ hmem
      | refocused p hp =>
          exact h.round p hp
      | ordered g type horder _ _ _ =>
          rcases horder with rfl | rfl <;> cases htype
      | _ =>
          cases htype
    · refine ⟨⟨?_, ?_, ⟨?_, ?_⟩, ?_, ?_, Or.inl rfl⟩, ?_⟩
      · exact TradingEngine.Listed.start (by decide) _ _ _
      · intro c hc
        cases hc
      · change "BTC-USD" ≠ ""
        decide
      · exact List.mem_cons_self
      · intro sym hsym
        cases hsym
      · intro p hp
        cases hp
      · intro c hc
        cases hc
  have hfocus := hkeeps.engine.view.resolve_left fun hnil =>
    hrows (by rw [Gui.names, hnil]; rfl)
  obtain ⟨s, hs⟩ := Gui.exists_focusView hfocus
  exact ⟨⟨s, hs, Gui.focusView_symbol hs⟩, fun input hpicked =>
    Gui.ticketSymbol_eq_focus hplain hfocus hpicked⟩

/-- The rows are published, the second one is clicked, and the view that
shows it is published. -/
def clickSecond : List AppStep :=
  List.replicate 10 turn ++
    [.frame { pressed := fun w => w = .marketRow 1 }, .post] ++
      List.replicate 11 turn

theorem ticket_follows_focus_eth :
    ∃ app, exec step (startDesk 5000 false) clickSecond = some app ∧
      app.loop.engine.view.focus = "ETH-USD" ∧
      (∃ s, Gui.focusView app.loop.engine.view = some s ∧
          s ∈ app.loop.engine.view.symbols ∧
          s.symbol = app.loop.engine.view.focus) ∧
        ∀ input, Gui.picked app.loop.engine.view input = none →
          Gui.ticketSymbol app.loop.engine.view input =
            app.loop.engine.view.focus := by
  have hview : (exec step (startDesk 5000 false) clickSecond).map
      (fun app => (app.loop.engine.view.focus,
        Gui.rowSymbols app.loop.engine.view)) =
      some ("ETH-USD", ["BTC-USD", "ETH-USD"]) := by
    decide +kernel
  obtain ⟨app, hrun, hview⟩ := Option.map_eq_some_iff.mp hview
  obtain ⟨hfocus, hrows⟩ := Prod.mk.inj hview
  refine ⟨app, hrun, hfocus, ticket_follows_focus (by decide +kernel) hrun
    ?_ ?_⟩
  · rw [Gui.PlainRows, hrows]
    decide
  · rw [Gui.names, hrows]
    decide

end App

end ExecutionLayer
