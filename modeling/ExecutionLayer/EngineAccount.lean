import ExecutionLayer.Engine

/-!
# The account over whole runs of the engine

Two laws of the account hold in every state that an engine can reach, under
any commands and any updates of the quote cache.

The published total PnL is what was realized plus what is unrealized.  The
account is balanced along every run of the order manager; what the engine
adds is that a position only exists for a symbol whose quote stays cached, so
every position has a mark.

The account is solvent and long-only.  A market order is gated at the touch
and filled at the touch, so a buy costs what was checked.  The sell gate
allows the position to end at most `qtyTolerance` below zero, whatever the
position was before, so the tolerance does not add up.
-/

namespace ExecutionLayer

open FiniteMap StepSystem

namespace OrderManager

/-- A submission leaves the portfolio alone or applies its fill. -/
theorem Submitted.portfolio_cases
    {oms oms' : OrderManager} {sig : Signal} {market : Quote}
    {id : Option Nat}
    (h : Submitted oms sig market id oms') :
    oms'.portfolio = oms.portfolio ∨
      (oms.Cleared sig market ∧
        PaperMatchingEngine.Fills (orderOf oms.nextId sig) market ∧
        oms'.portfolio =
          oms.portfolio.apply (oms.fillFor sig market)) := by
  cases h with
  | degenerate _ =>
      exact Or.inl rfl
  | rejected _ _ _ _ =>
      exact Or.inl rfl
  | resting _ _ _ =>
      exact Or.inl rfl
  | filled _ hgates hfills =>
      exact Or.inr ⟨hgates, hfills, rfl⟩

/-- Every run of the order manager keeps the account balanced. -/
theorem balanced_reached
    (risk : RiskManager) (capital : ℚ) (calls : List OmsCall) :
    (reached risk capital calls).portfolio.Balanced := by
  refine run_invariant_of_submitted
    (I := fun oms => oms.portfolio.Balanced) ?_ ?_
    (Portfolio.balanced_fund capital) calls
  · intro oms reason h
    exact h
  · intro oms sig market id oms' h hsub
    rcases hsub.portfolio_cases with heq | ⟨_, hfills, heq⟩
    · rw [heq]
      exact h
    · rw [heq]
      exact h.apply (fillFor_pos hfills).1

/-- No debt, and no short position beyond the tolerance of the sell gate. -/
structure Solvent (oms : OrderManager) : Prop where
  cash_nonneg : 0 ≤ oms.portfolio.cash
  netQty_ge : ∀ sym, -qtyTolerance ≤ oms.portfolio.netQty sym

theorem referencePrice_market
    {o : Order} (htype : o.type = .market) (market : Quote) :
    referencePrice o market = market.touch o.side := by
  simp [referencePrice, htype]

/-- The buying-power gate. -/
theorem Cleared.cost_le
    {oms : OrderManager} {sig : Signal} {market : Quote}
    (h : oms.Cleared sig market) (hside : sig.side = .buy) :
    sig.targetQty * referencePrice (orderOf oms.nextId sig) market ≤
      oms.portfolio.cash :=
  (bizReject_buy_iff (o := orderOf oms.nextId sig) hside).mp h.biz

/-- The no-shorting gate. -/
theorem Cleared.held
    {oms : OrderManager} {sig : Signal} {market : Quote}
    (h : oms.Cleared sig market) (hside : sig.side = .sell) :
    sig.targetQty - qtyTolerance ≤ oms.portfolio.netQty sig.symbol :=
  (bizReject_sell_iff (o := orderOf oms.nextId sig) hside).mp h.biz

theorem Solvent.filled
    {oms : OrderManager} {sig : Signal} {market : Quote}
    (h : Solvent oms) (htype : sig.type = .market)
    (hgates : oms.Cleared sig market)
    (hfills :
      PaperMatchingEngine.Fills (orderOf oms.nextId sig) market) :
    0 ≤ (oms.portfolio.apply (oms.fillFor sig market)).cash ∧
      ∀ sym, -qtyTolerance ≤
        (oms.portfolio.apply (oms.fillFor sig market)).netQty sym := by
  obtain ⟨hq, hp⟩ := fillFor_pos hfills
  rw [fillFor_qty] at hq
  rw [fillFor_price] at hp
  have hcash := Portfolio.apply_cash oms.portfolio
    (oms.fillFor sig market)
  rw [fillFor_trade_qty] at hcash
  have hnet := Portfolio.apply_netQty oms.portfolio
    (oms.fillFor sig market)
  simp only [fillFor_symbol, fillFor_trade_qty] at hnet
  cases hside : sig.side with
  | buy =>
      have hcost := hgates.cost_le hside
      rw [referencePrice_market (o := orderOf oms.nextId sig) htype]
        at hcost
      constructor
      · rw [hcash, hside]
        exact sub_nonneg.mpr hcost
      · intro sym
        rw [hnet, hside]
        have := h.netQty_ge sym
        simp only [signedQty]
        split_ifs <;> linarith
  | sell =>
      have hheld := hgates.held hside
      constructor
      · rw [hcash, hside]
        have hmul : 0 < sig.targetQty * market.touch sig.side :=
          mul_pos hq hp
        have := h.cash_nonneg
        change 0 ≤ oms.portfolio.cash -
          -sig.targetQty * market.touch sig.side
        linarith
      · intro sym
        rw [hnet, hside]
        have := h.netQty_ge sym
        simp only [signedQty]
        split_ifs with hsym
        · subst hsym
          linarith
        · linarith

theorem Solvent.submitted
    {oms oms' : OrderManager} {sig : Signal} {market : Quote}
    {id : Option Nat}
    (h : Solvent oms) (htype : sig.type = .market)
    (hsub : Submitted oms sig market id oms') :
    Solvent oms' := by
  rcases hsub.portfolio_cases with heq | ⟨hgates, hfills, heq⟩
  · refine ⟨?_, ?_⟩
    · rw [heq]
      exact h.cash_nonneg
    · intro sym
      rw [heq]
      exact h.netQty_ge sym
  · obtain ⟨hcash, hnet⟩ := h.filled htype hgates hfills
    refine ⟨?_, ?_⟩
    · rw [heq]
      exact hcash
    · intro sym
      rw [heq]
      exact hnet sym

theorem solvent_funded
    (risk : RiskManager) {capital : ℚ} (h : 0 ≤ capital) :
    Solvent (funded risk capital) where
  cash_nonneg := h
  netQty_ge := by
    intro sym
    change -qtyTolerance ≤ 0
    exact neg_nonpos.mpr qtyTolerance_pos.le

/-- The capital is what the account was funded with. -/
theorem initialCapital_reached
    (risk : RiskManager) (capital : ℚ) (calls : List OmsCall) :
    (reached risk capital calls).portfolio.initialCapital = capital := by
  refine run_invariant_of_submitted
    (I := fun oms => oms.portfolio.initialCapital = capital) ?_ ?_ rfl calls
  · intro oms reason h
    exact h
  · intro oms sig market id oms' h hsub
    rcases hsub.portfolio_cases with heq | ⟨_, _, heq⟩
    · rw [heq]
      exact h
    · rw [heq, Portfolio.apply_initialCapital]
      exact h

end OrderManager

namespace TradingEngine

section Runs

variable (symbols : List String) (capital : ℚ) (limits : RiskLimits)
variable (stocks : StockFeed) (steps : List EngineStep)

/-! ### Profit and loss -/

/-- Every position is on a symbol with a cached quote. -/
def Quoted (e : TradingEngine) : Prop :=
  ∀ sym ∈ e.oms.portfolio.positions, sym ∈ e.quotes

theorem Quoted.step
    {e : TradingEngine} (h : e.Quoted) (a : EngineStep) :
    (e.step a).Quoted := by
  intro sym hsym
  apply mem_quotes_step
  rw [step_oms] at hsym
  cases hcall : e.callOf a with
  | none =>
      rw [hcall] at hsym
      exact h sym hsym
  | some c =>
      rw [hcall] at hsym
      simp only [Option.elim_some] at hsym
      cases hsig : e.oms.signalOf c with
      | none =>
          rcases OrderManager.call_of_signalOf_none hsig
            with ⟨reason, heq⟩ | heq
          · rw [heq] at hsym
            exact h sym hsym
          · rw [heq] at hsym
            exact h sym hsym
      | some signal =>
          obtain ⟨sig, market⟩ := signal
          have hsub := OrderManager.call_submitted hsig
          obtain ⟨cmd, _, _, hsame, hquote⟩ := callOf_signal hcall hsig
          rcases hsub.portfolio_cases with heq | ⟨_, _, heq⟩
          · rw [heq] at hsym
            exact h sym hsym
          · rw [heq, Portfolio.apply_positions,
              Finmap.mem_insert] at hsym
            rcases hsym with hsym | hsym
            · rw [hsym, OrderManager.fillFor_symbol, hsame]
              exact Finmap.mem_of_lookup_eq_some hquote
            · exact h sym hsym

theorem quoted_reached :
    (reached symbols capital limits stocks steps).Quoted := by
  refine run_invariant step (fun e a h => h.step a) ?_ steps
  intro sym hsym
  exact absurd hsym Finmap.notMem_empty

/-- **The PnL identity of every published view.**  Every position has a mark,
the view shows what the account comes to at these marks less the capital, what
its positions have realized and what they would realize, and the first is the
sum of the other two. -/
theorem published_pnl_identity :
    (∀ sym ∈ (reached symbols capital limits stocks
        steps).oms.portfolio.positions,
      sym ∈ (reached symbols capital limits stocks steps).marks) ∧
    let e := reached symbols capital limits stocks steps
    let positions := e.oms.portfolio.positions
    let mark := fun sym => lookupD e.marks sym 0
    let view := e.publish.view
    view.totalPnl =
        e.oms.portfolio.cash +
          total (fun sym p => p.netQty * mark sym) positions - capital ∧
      view.realized = total (fun _ p => p.realizedPnl) positions ∧
      view.unrealized =
        total (fun sym p => (mark sym - p.avgPrice) * p.netQty)
          positions ∧
      view.totalPnl = view.realized + view.unrealized := by
  have hmarked : (reached symbols capital limits stocks
      steps).oms.portfolio.Marked
        (reached symbols capital limits stocks steps).marks := by
    intro sym hsym
    rw [marks, FiniteMap.mem_mapValues]
    exact quoted_reached symbols capital limits stocks steps sym hsym
  obtain ⟨calls, _, homs⟩ :=
    reached_oms symbols capital limits stocks steps
  have hbalanced : (reached symbols capital limits stocks
      steps).oms.portfolio.Balanced := by
    rw [homs]
    exact OrderManager.balanced_reached _ _ _
  have hcapital : (reached symbols capital limits stocks
      steps).oms.portfolio.initialCapital = capital := by
    rw [homs]
    exact OrderManager.initialCapital_reached _ _ _
  refine ⟨hmarked, ?_⟩
  intro e positions mark view
  refine ⟨?_, rfl, hmarked.total_eq Position.unrealized,
    hbalanced.totalPnl_eq hmarked⟩
  change e.oms.portfolio.cash + e.oms.portfolio.positionsValue e.marks -
    e.oms.portfolio.initialCapital = _
  rw [hcapital, Portfolio.positionsValue]
  exact congrArg (e.oms.portfolio.cash + · - capital)
    (hmarked.total_eq fun p m => p.netQty * m)

/-! ### Solvency -/

/-- A fill costs its order's quantity at the price the buying-power gate
used, and for a buy that was not more than the cash at hand. -/
def PricedAsGated (cash : ℚ) (orders : Finmap fun _ : Nat => Order)
    (market : Quote) (f : Fill) : Prop :=
  ∃ o, orders.lookup f.orderId = some o ∧
    f.qty * f.price = o.qty * OrderManager.referencePrice o market ∧
    (o.side = .buy →
      o.qty * OrderManager.referencePrice o market ≤ cash)

/-- What a command books is priced as it was gated. -/
theorem process_fills_gated (e : TradingEngine) (c : Command) :
    ∃ booked : List Fill,
      (e.process c).oms.fills = e.oms.fills ++ booked ∧
        ∀ f ∈ booked, ∃ market,
          e.quotes.lookup c.symbol = some market ∧
            PricedAsGated e.oms.portfolio.cash
              (e.process c).oms.orders market f := by
  rw [process_oms]
  cases hcall : e.callOf (.command c) with
  | none =>
      exact ⟨[], by simp, by simp⟩
  | some call =>
      simp only [Option.elim_some]
      cases hsig : e.oms.signalOf call with
      | none =>
          rcases OrderManager.call_of_signalOf_none hsig
            with ⟨reason, heq⟩ | heq
          · rw [heq]
            exact ⟨[], by simp, by simp⟩
          · rw [heq]
            exact ⟨[], by simp, by simp⟩
      | some signal =>
          obtain ⟨sig, market⟩ := signal
          obtain ⟨cmd, hcmd, htype, _, hquote⟩ :=
            callOf_signal hcall hsig
          obtain rfl : c = cmd := EngineStep.command.inj hcmd
          generalize hnext : e.oms.call call = next
          have hsub := OrderManager.call_submitted hsig
          rw [hnext] at hsub
          generalize (e.oms.submit sig market).1 = id at hsub
          cases hsub with
          | degenerate _ =>
              exact ⟨[], by simp, by simp⟩
          | rejected _ _ _ _ =>
              exact ⟨[], by simp [OrderManager.stored], by simp⟩
          | resting _ _ _ =>
              exact ⟨[], by simp [OrderManager.stored], by simp⟩
          | filled _ hgates hfills =>
              refine ⟨[e.oms.fillFor sig market], rfl, ?_⟩
              intro f hf
              obtain rfl := List.mem_singleton.mp hf
              refine ⟨market, hquote, _, Finmap.lookup_insert _, ?_, ?_⟩
              · rw [OrderManager.fillFor_qty, OrderManager.fillFor_price,
                  OrderManager.referencePrice_market htype]
                rfl
              · intro hside
                exact hgates.cost_le hside

/-- **Solvency and long-only.**  With a funded account that is not negative,
cash is never negative, no position is short by more than the tolerance, and
no order costs more than the buying-power gate checked. -/
theorem solvent_reached (hcapital : 0 ≤ capital) :
    0 ≤ (reached symbols capital limits stocks
        steps).oms.portfolio.cash ∧
      (∀ sym, -qtyTolerance ≤
        (reached symbols capital limits stocks
          steps).oms.portfolio.netQty sym) ∧
      ∀ c : Command, ∃ booked : List Fill,
        ((reached symbols capital limits stocks steps).process
            c).oms.fills =
          (reached symbols capital limits stocks steps).oms.fills ++
            booked ∧
          ∀ f ∈ booked, ∃ market,
            (reached symbols capital limits stocks
                steps).quotes.lookup c.symbol = some market ∧
              PricedAsGated
                (reached symbols capital limits stocks
                  steps).oms.portfolio.cash
                ((reached symbols capital limits stocks steps).process
                  c).oms.orders market f := by
  obtain ⟨calls, hcalls, homs⟩ :=
    reached_oms symbols capital limits stocks steps
  have hsolvent : OrderManager.Solvent
      (reached symbols capital limits stocks steps).oms := by
    rw [homs]
    refine OrderManager.run_invariant_of_signals
      (P := fun _ sig _ => sig.type = .market) ?_ ?_
      (OrderManager.solvent_funded _ hcapital) ?_
    · intro oms reason h
      exact ⟨h.cash_nonneg, h.netQty_ge⟩
    · intro oms sig market id oms' h htype hsub
      exact h.submitted htype hsub
    · exact allSteps_of_forall OrderManager.call hcalls _
  refine ⟨hsolvent.cash_nonneg, hsolvent.netQty_ge, ?_⟩
  intro c
  exact process_fills_gated _ c

end Runs

/-- A funded engine that bought one unit at 10. -/
theorem solvent_reached_after_buy :
    (reached ["BTC-USD"] 100 {} {}
        [.quote "BTC-USD" { bid := 9, ask := 10 },
          .command { type := .buy, symbol := "BTC-USD", amount := 10 }]
        ).oms.fills.length = 1 ∧
      0 ≤ (reached ["BTC-USD"] 100 {} {}
        [.quote "BTC-USD" { bid := 9, ask := 10 },
          .command { type := .buy, symbol := "BTC-USD", amount := 10 }]
        ).oms.portfolio.cash := by
  refine ⟨by decide +kernel, ?_⟩
  exact (solvent_reached ["BTC-USD"] 100 {} {} _ (by norm_num)).1

end TradingEngine

end ExecutionLayer
