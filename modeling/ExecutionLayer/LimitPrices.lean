import ExecutionLayer.NotionalCap

/-!
# Limit orders and their limits

A limit order is tested against the raw sides of the book and filled at
`Quote.touch`, which falls back to the other side where the crossed side is
missing.  A missing bid never reaches a positive sell limit.  A missing ask
is 0, which every buy limit reaches, and the fill is then at the bid, which
the limit was never compared with.

So a buy without an ask and with a bid above the limit is the one case in
which a limit order trades through its limit (`within_limit_iff`).
-/

namespace ExecutionLayer

namespace PaperMatchingEngine

/-- The fill is not worse than the limit of its order. -/
def WithinLimit (order : Order) (f : Fill) : Prop :=
  if order.side = .buy then f.price ≤ order.limitPrice
  else order.limitPrice ≤ f.price

instance (order : Order) (f : Fill) : Decidable (WithinLimit order f) := by
  unfold WithinLimit
  infer_instance

/-- A buy without an ask, below the bid. -/
structure BelowLoneBid (order : Order) (market : Quote) : Prop where
  side_eq : order.side = .buy
  ask_eq : market.ask = 0
  limit_lt : order.limitPrice < market.bid

/-- The fills of an order are within its limit when its one fill is. -/
theorem forall_mem_fill_iff
    (matcher : PaperMatchingEngine) (order : Order) (market : Quote)
    (P : Fill → Prop) :
    (∀ f ∈ (matcher.fill order market).1, P f) ↔
      (Fills order market → P (matcher.fillOf order market)) := by
  by_cases h : Fills order market
  · rw [fill_of_fills h]
    simp [h]
  · rw [fill_of_not_fills h]
    simp [h]

section OneOrder

variable {matcher : PaperMatchingEngine} {order : Order} {market : Quote}

/-- A sell that fills crosses the bid, and the bid reaches its limit. -/
theorem within_limit_sell
    (htype : order.type = .limit) (hlimit : 0 < order.limitPrice)
    (hside : order.side = .sell) (h : Fills order market) :
    order.limitPrice ≤ market.touch order.side := by
  have hreach : order.limitPrice ≤ market.bid := by
    have hm := h.marketable htype
    rw [Marketable, hside, if_neg (by simp)] at hm
    exact hm
  rw [hside, Quote.touch_sell_of_bid_pos (hlimit.trans_le hreach)]
  exact hreach

/-- A buy that crosses an ask is filled at it, and its limit reaches it. -/
theorem within_limit_buy_of_ask
    (htype : order.type = .limit) (hside : order.side = .buy)
    (hask : 0 < market.ask) (h : Fills order market) :
    market.touch order.side ≤ order.limitPrice := by
  have hreach : market.ask ≤ order.limitPrice := by
    have hm := h.marketable htype
    rw [Marketable, hside, if_pos rfl] at hm
    exact hm
  rw [hside, Quote.touch_buy_of_ask_pos hask]
  exact hreach

/-- Without an ask a buy fills at the bid, whatever its limit is. -/
theorem fills_buy_of_no_ask_iff
    (hside : order.side = .buy) (hlimit : 0 < order.limitPrice)
    (hleaves : 0 < order.leaves) (hm : NonnegSides market)
    (hask : market.ask = 0) :
    Fills order market ↔ 0 < market.bid := by
  have htouch : market.touch order.side = market.bid := by
    rw [hside, Quote.touch_buy_of_ask_zero hm hask]
  constructor
  · intro h
    rw [← htouch]
    exact h.touch_pos
  · intro hbid
    refine ⟨hleaves, ?_, fun _ => ?_⟩
    · rw [htouch]
      exact hbid
    · rw [Marketable, hside, if_pos rfl, hask]
      exact hlimit.le

/-- **When a limit order keeps its limit.**  Every fill of a limit order with
a positive limit is within the limit, unless it is a buy on a book without an
ask whose bid is above the limit. -/
theorem within_limit_iff
    (htype : order.type = .limit) (hlimit : 0 < order.limitPrice)
    (hleaves : 0 < order.leaves) (hm : NonnegSides market) :
    (∀ f ∈ (matcher.fill order market).1, WithinLimit order f) ↔
      ¬ BelowLoneBid order market := by
  rw [forall_mem_fill_iff, WithinLimit]
  cases hside : order.side with
  | sell =>
      rw [if_neg (by simp)]
      refine iff_of_true ?_ ?_
      · intro h
        exact within_limit_sell htype hlimit hside h
      · intro hbelow
        rw [hbelow.side_eq] at hside
        cases hside
  | buy =>
      rw [if_pos rfl]
      rcases hm.ask.lt_or_eq with hask | hask
      · refine iff_of_true ?_ ?_
        · intro h
          exact within_limit_buy_of_ask htype hside hask h
        · intro hbelow
          exact hask.ne' hbelow.ask_eq
      · have hprice : (matcher.fillOf order market).price = market.bid := by
          rw [fillOf, hside, Quote.touch_buy_of_ask_zero hm hask.symm]
        rw [fills_buy_of_no_ask_iff hside hlimit hleaves hm hask.symm]
        simp only [hprice]
        constructor
        · intro h hbelow
          have hbid := hlimit.trans hbelow.limit_lt
          exact absurd (h hbid) (not_le.mpr hbelow.limit_lt)
        · intro h _
          by_contra hlt
          exact h ⟨hside, hask.symm, not_le.mp hlt⟩

end OneOrder

/-- A limit order for one unit at 50. -/
def limitFifty (side : Side) : Order where
  id := 1
  symbol := "X"
  side := side
  type := .limit
  qty := 1
  limitPrice := 50

/-- On an ordinary book a buy at 50 crosses the ask of 50. -/
theorem within_limit_two_sided :
    WithinLimit (limitFifty .buy)
      (fillOf {} (limitFifty .buy) { bid := 49, ask := 50 }) := by
  have hiff : (∀ f ∈ (fill {} (limitFifty .buy)
      { bid := 49, ask := 50 }).1, WithinLimit (limitFifty .buy) f) ↔
        ¬ BelowLoneBid (limitFifty .buy) { bid := 49, ask := 50 } :=
    within_limit_iff rfl (by decide +kernel) (by decide +kernel)
      ⟨by decide +kernel, by decide +kernel⟩
  refine hiff.mpr ?_ _ (by decide +kernel)
  intro h
  exact absurd h.ask_eq (by decide +kernel)

/-- On a book with a lone bid of 100, a buy at 50 is filled at 100. -/
theorem limit_traded_through :
    (fill {} (limitFifty .buy) { bid := 100, ask := 0 }).1.map
        Fill.price = [100] ∧
      ¬ ∀ f ∈ (fill {} (limitFifty .buy) { bid := 100, ask := 0 }).1,
        WithinLimit (limitFifty .buy) f := by
  refine ⟨by decide +kernel, ?_⟩
  intro h
  have hmem : fillOf {} (limitFifty .buy) { bid := 100, ask := 0 } ∈
      (fill {} (limitFifty .buy) { bid := 100, ask := 0 }).1 := by
    decide +kernel
  have hle := h _ hmem
  revert hle
  decide +kernel

end PaperMatchingEngine

end ExecutionLayer
