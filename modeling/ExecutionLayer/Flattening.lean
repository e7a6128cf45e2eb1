import ExecutionLayer.NotionalCap
import ExecutionLayer.RoundTrips

/-!
# Flattening a position

`flatten` promises to sell the entire long position at the market.  It does
so by an ordinary submission, and the position passes both gates as if it
were one order: the account rules let it through, since it is held, and so
does the position limit, since nothing is left of it; but the limits of a
single order apply to what several orders have accumulated, at the price of
now.

So a flatten goes through exactly when the whole position would have been
allowed as one order (`flattened_iff`).
-/

namespace ExecutionLayer

open StepSystem

namespace OrderManager

/-- The price at which the risk check takes the notional of a flatten. -/
def flattenRef (market : Quote) : ℚ :=
  if 0 < market.bid then market.bid else market.mid

theorem notionalRef_flatten
    (id : Nat) (symbol : String) (net : ℚ) (market : Quote) :
    RiskManager.notionalRef (orderOf id (flattenSignal symbol net market))
      market = flattenRef market := by
  rfl

/-- The whole position is sold at the touch, and its round trip is filed. -/
structure Flattened (oms oms' : OrderManager) (symbol : String)
    (market : Quote) : Prop where
  netQty : oms'.portfolio.netQty symbol = 0
  cash : oms'.portfolio.cash =
    oms.portfolio.cash + oms.portfolio.netQty symbol * market.touch .sell
  closed : ∃ c : ClosedPosition, c.symbol = symbol ∧
    oms'.portfolio.closed = oms.portfolio.closed ++ [c]

/-- What is held has a name, and was within a position limit. -/
def Held (oms : OrderManager) : Prop :=
  ∀ symbol, oms.portfolio.netQty symbol ≠ 0 →
    symbol ≠ "" ∧ 0 ≤ oms.risk.limits.maxPositionQty

theorem held_funded (risk : RiskManager) (capital : ℚ) :
    Held (funded risk capital) := by
  intro symbol hnet
  exact absurd rfl hnet

theorem Held.submitted
    {oms oms' : OrderManager} {sig : Signal} {market : Quote}
    {id : Option Nat} (h : Held oms)
    (hsub : Submitted oms sig market id oms') :
    Held oms' := by
  cases hsub with
  | degenerate _ =>
      exact h
  | rejected _ _ _ _ =>
      exact h
  | resting _ _ _ =>
      exact h
  | filled hdeg hgates _ =>
      intro symbol hnet
      by_cases hsym : sig.symbol = symbol
      · subst hsym
        refine ⟨fun hempty => hdeg (Or.inr hempty), ?_⟩
        exact (abs_nonneg _).trans hgates.risk.position_le
      · have hold := Portfolio.apply_netQty oms.portfolio
          (oms.fillFor sig market) symbol
        rw [fillFor_symbol, if_neg hsym, add_zero] at hold
        refine h symbol fun hzero => hnet ?_
        rw [← hzero, ← hold]
        rfl

theorem held_reached
    (risk : RiskManager) (capital : ℚ) (calls : List OmsCall) :
    Held (reached risk capital calls) := by
  refine run_invariant_of_submitted (I := Held) ?_ ?_
    (held_funded risk capital) calls
  · intro oms reason h
    exact h
  · intro oms sig market id oms' h hsub
    exact h.submitted hsub

/-- The position as one order: within the limits of a single order. -/
structure AllowedAsOrder (oms : OrderManager) (symbol : String)
    (market : Quote) : Prop where
  qty_le : oms.portfolio.netQty symbol ≤ oms.risk.limits.maxOrderQty
  notional_le :
    oms.portfolio.netQty symbol * flattenRef market ≤
      oms.risk.limits.maxOrderNotional

section OneFlatten

variable {oms : OrderManager} {symbol : String} {market : Quote}

/-- Both gates let the flatten through exactly when the position is allowed
as one order. -/
theorem cleared_flatten_iff
    (hheld : Held oms) (halive : oms.risk.killed = false)
    (hlong : 0 < oms.portfolio.netQty symbol) :
    oms.Cleared
        (flattenSignal symbol (oms.portfolio.netQty symbol) market)
        market ↔
      oms.AllowedAsOrder symbol market := by
  have href := notionalRef_flatten oms.nextId symbol
    (oms.portfolio.netQty symbol) market
  constructor
  · intro h
    have hnotional := h.risk.notional_le
    rw [href] at hnotional
    exact ⟨h.risk.qty_le, hnotional⟩
  · intro h
    have hnotional := h.notional_le
    rw [← href] at hnotional
    refine ⟨?_, halive, hlong, h.qty_le, hnotional, ?_⟩
    · rw [bizReject_sell_iff rfl]
      exact sub_le_self _ qtyTolerance_pos.le
    · have hzero : oms.portfolio.netQty symbol +
          signedQty .sell (oms.portfolio.netQty symbol) = 0 :=
        add_neg_cancel _
      change |oms.portfolio.netQty symbol +
        signedQty .sell (oms.portfolio.netQty symbol)| ≤ _
      rw [hzero, abs_zero]
      exact (hheld symbol hlong.ne').2

theorem executed_netQty (oms : OrderManager) (sig : Signal)
    (market : Quote) :
    (oms.executed sig market).portfolio.netQty sig.symbol =
      oms.portfolio.netQty sig.symbol +
        signedQty sig.side sig.targetQty := by
  have hnet := Portfolio.apply_netQty oms.portfolio
    (oms.fillFor sig market) sig.symbol
  rw [fillFor_symbol, if_pos rfl, fillFor_trade_qty] at hnet
  exact hnet

/-- The executed flatten sells all there is. -/
theorem flattened_executed (hlong : 0 < oms.portfolio.netQty symbol) :
    Flattened oms
      (oms.executed
        (flattenSignal symbol (oms.portfolio.netQty symbol) market) market)
      symbol market := by
  have hnet : (oms.executed
      (flattenSignal symbol (oms.portfolio.netQty symbol) market)
        market).portfolio.netQty symbol = 0 :=
    (executed_netQty oms _ market).trans (add_neg_cancel _)
  refine ⟨hnet, ?_, ?_⟩
  · have hcash := Portfolio.apply_cash oms.portfolio
      (oms.fillFor
        (flattenSignal symbol (oms.portfolio.netQty symbol) market) market)
    rw [fillFor_trade_qty] at hcash
    change (oms.portfolio.apply _).cash = _
    rw [hcash]
    change oms.portfolio.cash -
      -oms.portfolio.netQty symbol * market.touch .sell = _
    ring
  · have hclosing : oms.portfolio.Closing
        (oms.fillFor
          (flattenSignal symbol (oms.portfolio.netQty symbol) market)
          market) := by
      refine ⟨hlong.ne', ?_⟩
      rw [fillFor_qty]
      exact add_neg_cancel _
    refine ⟨oms.portfolio.recordOf
      (oms.fillFor
        (flattenSignal symbol (oms.portfolio.netQty symbol) market)
        market), rfl, ?_⟩
    change (oms.portfolio.apply _).closed = _
    rw [Portfolio.apply_closed, if_pos hclosing]

/-- A long position can be flattened exactly when it is allowed as one
order. -/
theorem flattened_iff_of_held
    (hheld : Held oms) (halive : oms.risk.killed = false)
    (hlong : qtyTolerance < oms.portfolio.netQty symbol)
    (htouch : 0 < market.touch .sell) :
    Flattened oms (oms.flatten symbol market).2 symbol market ↔
      oms.AllowedAsOrder symbol market := by
  have hpos := qtyTolerance_pos.trans hlong
  have hdeg : ¬ Degenerate
      (flattenSignal symbol (oms.portfolio.netQty symbol) market) := by
    rintro (hqty | hempty)
    · exact hqty hpos
    · exact (hheld symbol hpos.ne').1 hempty
  have hfills : PaperMatchingEngine.Fills
      (orderOf oms.nextId
        (flattenSignal symbol (oms.portfolio.netQty symbol) market))
      market :=
    (fills_market_iff hpos rfl).mpr htouch
  rw [← cleared_flatten_iff hheld halive hpos, flatten,
    if_neg (not_le.mpr hlong)]
  have hsub := submit_submitted oms
    (flattenSignal symbol (oms.portfolio.netQty symbol) market) market
  generalize oms.submit
    (flattenSignal symbol (oms.portfolio.netQty symbol) market) market = res
    at hsub
  obtain ⟨id, oms'⟩ := res
  cases hsub with
  | degenerate h =>
      exact absurd h hdeg
  | rejected reason _ hgates _ =>
      refine iff_of_false ?_ hgates
      intro h
      exact hpos.ne' h.netQty
  | resting _ _ hrest =>
      exact absurd hfills hrest
  | filled _ hgates _ =>
      exact iff_of_true (flattened_executed hpos) hgates

end OneFlatten

/-- **When flatten flattens.**  In every state that submissions and flattens
reach, a long position is sold entirely at the touch, and its round trip is
filed, exactly when the whole position is within the order limits. -/
theorem flattened_iff
    (risk : RiskManager) (capital : ℚ) (calls : List OmsCall)
    {symbol : String} {market : Quote}
    (halive : (reached risk capital calls).risk.killed = false)
    (hlong : qtyTolerance <
      (reached risk capital calls).portfolio.netQty symbol)
    (htouch : 0 < market.touch .sell) :
    Flattened (reached risk capital calls)
        ((reached risk capital calls).flatten symbol market).2
        symbol market ↔
      (reached risk capital calls).AllowedAsOrder symbol market :=
  flattened_iff_of_held (held_reached risk capital calls) halive hlong
    htouch

/-- The limits of a desk with 1000 of capital. -/
def deskLimits : RiskLimits where
  maxOrderQty := 100
  maxPositionQty := 10 ^ 6
  maxOrderNotional := 1000

/-- A buy of 60 units, and the market it is made in. -/
def buySixty : OmsCall :=
  .submit { symbol := "X", targetQty := 60 } { bid := 1, ask := 1 }

/-- One purchase is within the order limit and can be flattened. -/
theorem flattened_after_one_buy :
    Flattened (reached { limits := deskLimits } 1000 [buySixty])
      ((reached { limits := deskLimits } 1000 [buySixty]).flatten "X"
        { bid := 1, ask := 1 }).2
      "X" { bid := 1, ask := 1 } :=
  (flattened_iff { limits := deskLimits } 1000 [buySixty]
    (by decide +kernel) (by decide +kernel) (by decide +kernel)).mpr
    ⟨by decide +kernel, by decide +kernel⟩

/-- The state after two purchases. -/
def boughtTwice : OrderManager :=
  reached { limits := deskLimits } 1000 [buySixty, buySixty]

/-- Two purchases are together above it, and the flatten is rejected. -/
theorem not_flattened_after_two_buys :
    boughtTwice.risk.killed = false ∧
      qtyTolerance < boughtTwice.portfolio.netQty "X" ∧
      0 < Quote.touch { bid := 1, ask := 1 } .sell ∧
      ((boughtTwice.flatten "X" { bid := 1, ask := 1 }).2.orders.lookup
        3).map Order.rejectReason =
          some "order qty exceeds max_order_qty" ∧
      ¬ Flattened boughtTwice
        (boughtTwice.flatten "X" { bid := 1, ask := 1 }).2
        "X" { bid := 1, ask := 1 } := by
  refine ⟨by decide +kernel, by decide +kernel, by decide +kernel,
    by decide +kernel, ?_⟩
  intro h
  have hkept : (boughtTwice.flatten "X"
      { bid := 1, ask := 1 }).2.portfolio.netQty "X" = 120 := by
    decide +kernel
  have hzero := h.netQty
  rw [hkept] at hzero
  norm_num at hzero

end OrderManager

end ExecutionLayer
