import ExecutionLayer.OrderRuns

/-!
# The notional cap and the price that is executed

`RiskManager.check` takes the notional of an order at `notionalRef`, the
matcher fills it at `Quote.touch`.  The two prices are chosen by different
rules: where the crossed side of the book is empty the risk check falls back
to the mid, which averages in the missing side, while the touch is the price
of the other side; and a sell limit is checked at its limit although it fills
at the bid.

`Covered` lists the signals and quotes on which the checked price is not
below the fill price.  On runs of covered signals the cap bounds what is
executed, and `covered_iff` says that the list is exact.
-/

namespace ExecutionLayer

open StepSystem

/-- A quote without negative sides. -/
structure NonnegSides (market : Quote) : Prop where
  bid : 0 ≤ market.bid
  ask : 0 ≤ market.ask

/-- The risk check prices the signal at or above its fill price.  A market
order needs the side it crosses (or an empty book); a limit buy needs an ask
or a limit that reaches the bid (or a negative limit, which never trades); a
limit sell needs a limit that is not below the bid, or no positive limit and
an ordinary or empty book. -/
def Covered (sig : Signal) (market : Quote) : Prop :=
  match sig.type, sig.side with
  | .market, .buy => 0 < market.ask ∨ market.bid = 0
  | .market, .sell => 0 < market.bid ∨ market.ask = 0
  | .limit, .buy =>
      0 < market.ask ∨ market.bid ≤ sig.limitPrice ∨ sig.limitPrice < 0
  | .limit, .sell =>
      if 0 < sig.limitPrice then market.bid ≤ sig.limitPrice
      else
        (0 < market.bid ∧ market.bid ≤ market.ask) ∨
          (market.bid = 0 ∧ market.ask = 0)

namespace Quote

theorem touch_buy_of_ask_pos
    {q : Quote} (h : 0 < q.ask) :
    q.touch .buy = q.ask := by
  simp [touch, h]

theorem touch_sell_of_bid_pos
    {q : Quote} (h : 0 < q.bid) :
    q.touch .sell = q.bid := by
  simp [touch, h]

/-- Without the crossed side the touch is the other side of the book. -/
theorem touch_buy_of_ask_zero
    {q : Quote} (hq : NonnegSides q) (h : q.ask = 0) :
    q.touch .buy = q.bid := by
  rcases hq.bid.lt_or_eq with hb | hb
  · simp [touch, h, hb]
  · simp [touch, h, ← hb, mid]

theorem touch_sell_of_bid_zero
    {q : Quote} (hq : NonnegSides q) (h : q.bid = 0) :
    q.touch .sell = q.ask := by
  rcases hq.ask.lt_or_eq with ha | ha
  · simp [touch, h, ha]
  · simp [touch, h, ← ha, mid]

end Quote

namespace OrderManager

/-- The checked price is not below the price of the fill. -/
def PricedAbove (id : Nat) (sig : Signal) (market : Quote) : Prop :=
  PaperMatchingEngine.Fills (orderOf id sig) market →
    market.touch sig.side ≤
      RiskManager.notionalRef (orderOf id sig) market

section Exactness

variable {id : Nat} {sig : Signal} {market : Quote}

theorem fills_market_iff
    (hq : 0 < sig.targetQty) (htype : sig.type = .market) :
    PaperMatchingEngine.Fills (orderOf id sig) market ↔
      0 < market.touch sig.side := by
  constructor
  · intro h
    exact h.touch_pos
  · intro h
    refine ⟨?_, h, ?_⟩
    · simpa [Order.leaves, orderOf] using hq
    · intro hlimit
      simp [orderOf, htype] at hlimit

theorem fills_limit_iff
    (hq : 0 < sig.targetQty) (htype : sig.type = .limit) :
    PaperMatchingEngine.Fills (orderOf id sig) market ↔
      0 < market.touch sig.side ∧
        if sig.side = .buy then market.ask ≤ sig.limitPrice
        else sig.limitPrice ≤ market.bid := by
  constructor
  · intro h
    exact ⟨h.touch_pos, h.marketable htype⟩
  · rintro ⟨htouch, hm⟩
    refine ⟨?_, htouch, fun _ => hm⟩
    simpa [Order.leaves, orderOf] using hq

theorem covered_iff_market_buy
    (hside : sig.side = .buy) (htype : sig.type = .market)
    (hq : 0 < sig.targetQty) (hm : NonnegSides market) :
    Covered sig market ↔ PricedAbove id sig market := by
  unfold PricedAbove
  rw [fills_market_iff hq htype, hside]
  simp only [Covered, htype, hside, RiskManager.notionalRef, orderOf,
    reduceCtorEq, if_false, if_true]
  rcases hm.ask.lt_or_eq with ha | ha
  · simp [Quote.touch_buy_of_ask_pos ha, ha]
  · rw [Quote.touch_buy_of_ask_zero hm ha.symm, ← ha]
    simp only [lt_irrefl, if_false, false_or, Quote.mid, ← ha, add_zero]
    constructor
    · intro hb h
      rw [hb] at h
      exact absurd h (lt_irrefl _)
    · intro h
      by_contra hb
      have hpos : 0 < market.bid := lt_of_le_of_ne hm.bid (Ne.symm hb)
      have hle := h hpos
      linarith

theorem covered_iff_market_sell
    (hside : sig.side = .sell) (htype : sig.type = .market)
    (hq : 0 < sig.targetQty) (hm : NonnegSides market) :
    Covered sig market ↔ PricedAbove id sig market := by
  unfold PricedAbove
  rw [fills_market_iff hq htype, hside]
  simp only [Covered, htype, hside, RiskManager.notionalRef, orderOf,
    reduceCtorEq, if_false]
  rcases hm.bid.lt_or_eq with hb | hb
  · simp [Quote.touch_sell_of_bid_pos hb, hb]
  · rw [Quote.touch_sell_of_bid_zero hm hb.symm, ← hb]
    simp only [lt_irrefl, if_false, false_or, Quote.mid, ← hb, zero_add]
    constructor
    · intro ha h
      rw [ha] at h
      exact absurd h (lt_irrefl _)
    · intro h
      by_contra ha
      have hpos : 0 < market.ask := lt_of_le_of_ne hm.ask (Ne.symm ha)
      have hle := h hpos
      linarith

theorem covered_iff_limit_buy
    (hside : sig.side = .buy) (htype : sig.type = .limit)
    (hq : 0 < sig.targetQty) (hm : NonnegSides market) :
    Covered sig market ↔ PricedAbove id sig market := by
  unfold PricedAbove
  rw [fills_limit_iff hq htype, hside]
  simp only [Covered, htype, hside, RiskManager.notionalRef, orderOf,
    if_true]
  rcases hm.ask.lt_or_eq with ha | ha
  · rw [Quote.touch_buy_of_ask_pos ha]
    simp only [ha, true_or, true_iff, true_and]
    intro hlimit
    rw [if_pos (lt_of_lt_of_le ha hlimit)]
    exact hlimit
  · rw [Quote.touch_buy_of_ask_zero hm ha.symm, ← ha]
    simp only [lt_irrefl, false_or, Quote.mid, ← ha, add_zero]
    constructor
    · rintro (hle | hneg) ⟨hpos, hlimit⟩
      · rw [if_pos (lt_of_lt_of_le hpos hle)]
        exact hle
      · exact absurd hlimit (not_le.mpr hneg)
    · intro h
      by_contra hno
      rw [not_or, not_le, not_lt] at hno
      have hpos : 0 < market.bid := lt_of_le_of_lt hno.2 hno.1
      have hle := h ⟨hpos, hno.2⟩
      split_ifs at hle with hlimit
      · exact absurd hle (not_le.mpr hno.1)
      · linarith

theorem covered_iff_limit_sell
    (hside : sig.side = .sell) (htype : sig.type = .limit)
    (hq : 0 < sig.targetQty) (hm : NonnegSides market) :
    Covered sig market ↔ PricedAbove id sig market := by
  unfold PricedAbove
  rw [fills_limit_iff hq htype, hside]
  simp only [Covered, htype, hside, RiskManager.notionalRef, orderOf,
    reduceCtorEq, if_false, if_true]
  by_cases hlimit : 0 < sig.limitPrice
  · simp only [hlimit, if_true]
    constructor
    · rintro hle ⟨_, hm'⟩
      rw [Quote.touch_sell_of_bid_pos (lt_of_lt_of_le hlimit hm')]
      exact hle
    · intro h
      by_contra hno
      have hlt := not_le.mp hno
      have hbid : 0 < market.bid := hlimit.trans hlt
      rw [Quote.touch_sell_of_bid_pos hbid] at h
      exact hno (h ⟨hbid, hlt.le⟩)
  · simp only [hlimit, if_false]
    have hmk : sig.limitPrice ≤ market.bid :=
      (not_lt.mp hlimit).trans hm.bid
    rcases hm.bid.lt_or_eq with hb | hb
    · rw [Quote.touch_sell_of_bid_pos hb]
      simp only [hb, hmk, true_and, and_true, hb.ne', false_and, or_false,
        Quote.mid]
      constructor
      · intro hle _
        linarith
      · intro h
        have hle := h trivial
        linarith
    · rw [Quote.touch_sell_of_bid_zero hm hb.symm]
      simp only [← hb, lt_irrefl, false_and, false_or, true_and,
        Quote.mid, zero_add]
      constructor
      · rintro ha ⟨hpos, _⟩
        rw [ha] at hpos
        exact absurd hpos (lt_irrefl _)
      · intro h
        by_contra ha
        have hpos : 0 < market.ask := lt_of_le_of_ne hm.ask (Ne.symm ha)
        have hle := h ⟨hpos, by rw [hb]; exact hmk⟩
        linarith

/-- The covered signals are exactly those that are priced at or above their
fill. -/
theorem covered_iff
    (hq : 0 < sig.targetQty) (hm : NonnegSides market) :
    Covered sig market ↔ PricedAbove id sig market := by
  cases htype : sig.type with
  | market =>
      cases hside : sig.side with
      | buy =>
          exact covered_iff_market_buy hside htype hq hm
      | sell =>
          exact covered_iff_market_sell hside htype hq hm
  | limit =>
      cases hside : sig.side with
      | buy =>
          exact covered_iff_limit_buy hside htype hq hm
      | sell =>
          exact covered_iff_limit_sell hside htype hq hm

end Exactness

/-! ### Runs of covered signals -/

/-- Every recorded fill is within the notional cap. -/
structure WithinCap (limits : RiskLimits) (oms : OrderManager) : Prop where
  limits_eq : oms.risk.limits = limits
  fills_le : ∀ f ∈ oms.fills, f.qty * f.price ≤ limits.maxOrderNotional

/-- The step condition: an ordinary quote, and a signal that is covered
unless no order is created for it. -/
def CapCondition (_ : OrderManager) (sig : Signal) (market : Quote) :
    Prop :=
  NonnegSides market ∧ (Degenerate sig ∨ Covered sig market)

theorem withinCap_funded (risk : RiskManager) (capital : ℚ) :
    WithinCap risk.limits (funded risk capital) where
  limits_eq := rfl
  fills_le := by
    intro f hf
    simp [funded] at hf

theorem WithinCap.submitted
    {limits : RiskLimits} {oms oms' : OrderManager}
    {sig : Signal} {market : Quote} {id : Option Nat}
    (h : WithinCap limits oms)
    (hcond : CapCondition oms sig market)
    (hsub : Submitted oms sig market id oms') :
    WithinCap limits oms' := by
  cases hsub with
  | degenerate _ =>
      exact h
  | rejected _ _ _ _ =>
      exact ⟨h.limits_eq, h.fills_le⟩
  | resting _ _ _ =>
      exact ⟨h.limits_eq, h.fills_le⟩
  | filled hdeg hgates hfills =>
      refine ⟨h.limits_eq, ?_⟩
      intro f hf
      rcases List.mem_append.mp hf with hf | hf
      · exact h.fills_le f hf
      · obtain ⟨hm, hcov⟩ := hcond
        have hqty : 0 < sig.targetQty := by
          by_contra hq
          exact hdeg (Or.inl hq)
        have hprice : market.touch sig.side ≤
            RiskManager.notionalRef (orderOf oms.nextId sig) market :=
          (covered_iff hqty hm).mp (hcov.resolve_left hdeg) hfills
        have hcheck := hgates.risk.notional_le
        rw [h.limits_eq] at hcheck
        rw [List.mem_singleton.mp hf, fillFor_qty, fillFor_price]
        calc sig.targetQty * market.touch sig.side
            ≤ sig.targetQty *
                RiskManager.notionalRef (orderOf oms.nextId sig) market :=
              mul_le_mul_of_nonneg_left hprice hqty.le
          _ ≤ limits.maxOrderNotional := hcheck

/-- **The cap bounds what is executed on runs of covered signals**, and the
covered signals are exactly those whose fill is not priced above the price
the risk check used. -/
theorem notional_cap_on_covered_runs
    (risk : RiskManager) (capital : ℚ)
    (calls : List OmsCall)
    (hcond : AllSteps call (Signals CapCondition)
      (funded risk capital) calls) :
    (∀ f ∈ (reached risk capital calls).fills,
        f.qty * f.price ≤ risk.limits.maxOrderNotional) ∧
      ∀ (id : Nat) (sig : Signal) (market : Quote),
        0 < sig.targetQty → NonnegSides market →
          (Covered sig market ↔ PricedAbove id sig market) := by
  have hcap : WithinCap risk.limits (reached risk capital calls) := by
    refine run_invariant_of_signals (I := WithinCap risk.limits)
      (P := CapCondition) ?_ ?_ (withinCap_funded risk capital) hcond
    · intro oms reason h
      exact ⟨h.limits_eq, h.fills_le⟩
    · intro oms sig market id oms' h hc hsub
      exact h.submitted hc hsub
  refine ⟨hcap.fills_le, ?_⟩
  intro id sig market hq hm
  exact covered_iff hq hm

/-- A buy of one unit against an ordinary two-sided quote. -/
theorem notional_cap_after_buy :
    (reached {} 100
        [.submit { symbol := "BTC-USD", targetQty := 1 }
          { bid := 9, ask := 10 }]).fills.length = 1 ∧
      ∀ f ∈ (reached {} 100
        [.submit { symbol := "BTC-USD", targetQty := 1 }
          { bid := 9, ask := 10 }]).fills, f.qty * f.price ≤ 1000000 := by
  refine ⟨by decide +kernel, ?_⟩
  have hcond : AllSteps call (Signals CapCondition) (funded {} 100)
      [.submit { symbol := "BTC-USD", targetQty := 1 }
        { bid := 9, ask := 10 }] := by
    refine ⟨?_, trivial⟩
    intro sig market hsig
    simp only [signalOf, Option.some.injEq, Prod.mk.injEq] at hsig
    obtain ⟨rfl, rfl⟩ := hsig
    exact ⟨⟨by norm_num, by norm_num⟩, Or.inr (Or.inl (by norm_num))⟩
  exact (notional_cap_on_covered_runs {} 100 _ hcond).1

/-- A market buy on a book without an ask is checked at the mid, 50, and
filled at the bid, 100: a fill of 100 under a cap of 60. -/
theorem notional_cap_exceeded_without_ask :
    ¬ ∀ f ∈ (reached { limits := { maxOrderNotional := 60 } } 1000
        [.submit { symbol := "BTC-USD", targetQty := 1 }
          { bid := 100, ask := 0 }]).fills, f.qty * f.price ≤ 60 := by
  decide +kernel

end OrderManager

end ExecutionLayer
