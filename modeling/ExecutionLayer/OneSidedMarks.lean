import ExecutionLayer.EngineAccount

/-!
# Marks and empty sides

A feed of a single venue may quote a real bid beside an ask of zero, or the
other way round.  `touch`, by which orders are sized and filled, and
`chartPrice` then take the side that is there.  The marks of the account take
the mid, which counts the empty side as a price of zero and so halves the
quote.

On an account that holds nothing short, equity, unrealized profit and total
PnL stay between their values at the lowest and at the highest price of the
quotes exactly when the spreads that are held weigh as much as the one-sided
prices that are held (`shown_within_quotes_iff`).
-/

namespace ExecutionLayer

open FiniteMap

namespace Quote

/-- Sides without a sign, and a price on one of them. -/
structure Priced (q : Quote) : Prop where
  bid_nonneg : 0 ≤ q.bid
  ask_nonneg : 0 ≤ q.ask
  price : 0 < q.bid ∨ 0 < q.ask

def TwoSided (q : Quote) : Prop :=
  0 < q.bid ∧ 0 < q.ask

instance (q : Quote) : Decidable q.TwoSided := by
  unfold TwoSided
  infer_instance

/-- The smallest positive side. -/
def lowest (q : Quote) : ℚ :=
  if q.TwoSided then min q.bid q.ask else max q.bid q.ask

/-- The largest positive side. -/
def highest (q : Quote) : ℚ :=
  max q.bid q.ask

/-- The spread of a quote with two sides. -/
def openSpread (q : Quote) : ℚ :=
  if q.TwoSided then |q.ask - q.bid| else 0

/-- The price of a quote with one side. -/
def lonePrice (q : Quote) : ℚ :=
  if q.TwoSided then 0 else max q.bid q.ask

/-- An empty side is zero. -/
theorem Priced.add_eq_max
    {q : Quote} (h : q.Priced) (hone : ¬ q.TwoSided) :
    q.bid + q.ask = max q.bid q.ask := by
  rcases h.price with hbid | hask
  · have hask : q.ask = 0 :=
      le_antisymm (not_lt.mp fun hask => hone ⟨hbid, hask⟩) h.ask_nonneg
    rw [hask, add_zero, max_eq_left hbid.le]
  · have hbid : q.bid = 0 :=
      le_antisymm (not_lt.mp fun hbid => hone ⟨hbid, hask⟩) h.bid_nonneg
    rw [hbid, zero_add, max_eq_right hask.le]

/-- The mid is above the lowest price by half the spread, or below it by half
of a lone price. -/
theorem Priced.mid_sub_lowest
    {q : Quote} (h : q.Priced) :
    (q.mid - q.lowest) + (q.mid - q.lowest) =
      q.openSpread - q.lonePrice := by
  unfold mid lowest openSpread lonePrice
  split_ifs with htwo
  · have hspread : |q.ask - q.bid| = q.bid + q.ask - 2 * min q.bid q.ask := by
      rw [← max_sub_min_eq_abs, ← max_add_min q.bid q.ask]
      ring
    rw [hspread]
    ring
  · rw [h.add_eq_max htwo]
    ring

/-- The mid is never above the highest price. -/
theorem mid_le_highest (q : Quote) :
    q.mid ≤ q.highest := by
  have hbid := le_max_left q.bid q.ask
  have hask := le_max_right q.bid q.ask
  unfold mid highest
  linarith

end Quote

/-- What the chart shows of a quote is a price between its sides. -/
theorem StockFeed.chartPrice_between
    {q : Quote} (h : q.Priced) :
    q.lowest ≤ chartPrice q ∧ chartPrice q ≤ q.highest := by
  have hmid := h.mid_sub_lowest
  unfold chartPrice
  by_cases htwo : 0 < q.bid ∧ 0 < q.ask
  · rw [if_pos htwo]
    refine ⟨?_, q.mid_le_highest⟩
    have hlone : q.lonePrice = 0 := if_pos htwo
    have hopen : q.openSpread = |q.ask - q.bid| := if_pos htwo
    have hnonneg := abs_nonneg (q.ask - q.bid)
    linarith
  · have hlow : q.lowest = max q.bid q.ask := if_neg htwo
    have hsum := h.add_eq_max htwo
    rw [if_neg htwo, hlow, Quote.highest, ← hsum]
    split_ifs with hbid
    · have hask : q.ask = 0 :=
        le_antisymm (not_lt.mp fun hask => htwo ⟨hbid, hask⟩) h.ask_nonneg
      rw [hask, add_zero]
      exact ⟨le_rfl, le_rfl⟩
    · have hzero : q.bid = 0 := le_antisymm (not_lt.mp hbid) h.bid_nonneg
      rw [hzero, zero_add]
      exact ⟨le_rfl, le_rfl⟩

namespace TradingEngine

variable {e : TradingEngine}

/-- Nothing is held short, and what is held has a price. -/
structure LongOnly (e : TradingEngine) : Prop where
  long : ∀ sym p, e.oms.portfolio.positions.lookup sym = some p →
    0 ≤ p.netQty
  quoted : ∀ sym p, e.oms.portfolio.positions.lookup sym = some p →
    p.netQty ≠ 0 → ∃ q, e.quotes.lookup sym = some q ∧ q.Priced

/-- The marks that a rule for quotes gives. -/
def marksBy (e : TradingEngine) (rule : Quote → ℚ) : MarkMap :=
  mapValues rule e.quotes

/-- The value of what is held, by a rule for quotes. -/
def worth (e : TradingEngine) (rule : Quote → ℚ) : ℚ :=
  e.oms.portfolio.positionsValue (e.marksBy rule)

/-- A figure that the view shows is between the same figure at the lowest and
at the highest prices. -/
def WithinQuotes (e : TradingEngine)
    (figure : Portfolio → MarkMap → ℚ) (shown : ℚ) : Prop :=
  figure e.oms.portfolio (e.marksBy Quote.lowest) ≤ shown ∧
    shown ≤ figure e.oms.portfolio (e.marksBy Quote.highest)

theorem worth_add (f g : Quote → ℚ) :
    e.worth f + e.worth g = e.worth fun q => f q + g q := by
  simp only [worth, Portfolio.positionsValue, ← total_add]
  refine total_congr fun sym p _ => ?_
  simp only [marksBy, lookup_mapValues]
  cases e.quotes.lookup sym with
  | none =>
      exact add_zero 0
  | some q =>
      exact (mul_add _ _ _).symm

theorem worth_sub (f g : Quote → ℚ) :
    e.worth f - e.worth g = e.worth fun q => f q - g q := by
  rw [sub_eq_iff_eq_add, worth_add]
  simp only [sub_add_cancel]

theorem LongOnly.worth_nonneg
    (h : e.LongOnly) {f : Quote → ℚ} (hf : ∀ q, q.Priced → 0 ≤ f q) :
    0 ≤ e.worth f := by
  unfold worth Portfolio.positionsValue
  refine total_nonneg fun sym p hp => ?_
  simp only [marksBy, lookup_mapValues]
  by_cases hflat : p.netQty = 0
  · cases e.quotes.lookup sym with
    | none =>
        exact le_rfl
    | some q =>
        simp only [Option.map_some, hflat, zero_mul, le_refl]
  · obtain ⟨q, hq, hpriced⟩ := h.quoted sym p hp hflat
    rw [hq]
    exact mul_nonneg (h.long sym p hp) (hf q hpriced)

theorem LongOnly.worth_congr
    (h : e.LongOnly) {f g : Quote → ℚ}
    (hfg : ∀ q, q.Priced → f q = g q) :
    e.worth f = e.worth g := by
  unfold worth Portfolio.positionsValue
  refine total_congr fun sym p hp => ?_
  simp only [marksBy, lookup_mapValues]
  by_cases hflat : p.netQty = 0
  · cases e.quotes.lookup sym with
    | none =>
        rfl
    | some q =>
        simp only [Option.map_some, hflat, zero_mul]
  · obtain ⟨q, hq, hpriced⟩ := h.quoted sym p hp hflat
    simp only [hq, Option.map_some, hfg q hpriced]

/-- At the lowest prices the account is worth less than it is marked by half
the spreads, and more by half the lone prices. -/
theorem LongOnly.worth_mid_sub_lowest (h : e.LongOnly) :
    (e.worth Quote.mid - e.worth Quote.lowest) +
        (e.worth Quote.mid - e.worth Quote.lowest) =
      e.worth Quote.openSpread - e.worth Quote.lonePrice := by
  rw [worth_sub, worth_add, worth_sub]
  exact h.worth_congr fun q hq => hq.mid_sub_lowest

theorem LongOnly.worth_mid_le_highest (h : e.LongOnly) :
    e.worth Quote.mid ≤ e.worth Quote.highest := by
  rw [← sub_nonneg, worth_sub]
  exact h.worth_nonneg fun q _ => sub_nonneg.mpr q.mid_le_highest

section Figures

variable {figure : Portfolio → MarkMap → ℚ}

/-- The figures that move by the value of what is held. -/
def MovesByWorth (e : TradingEngine)
    (figure : Portfolio → MarkMap → ℚ) : Prop :=
  ∀ f g : Quote → ℚ,
    figure e.oms.portfolio (e.marksBy f) -
        figure e.oms.portfolio (e.marksBy g) =
      e.worth f - e.worth g

theorem movesByWorth_equity : e.MovesByWorth Portfolio.equity := by
  intro f g
  exact add_sub_add_left_eq_sub _ _ _

theorem movesByWorth_unrealized : e.MovesByWorth Portfolio.unrealized := by
  intro f g
  simp only [worth, Portfolio.positionsValue, Portfolio.unrealized,
    ← total_sub]
  refine total_congr fun sym p _ => ?_
  simp only [marksBy, lookup_mapValues]
  cases e.quotes.lookup sym with
  | none =>
      rfl
  | some q =>
      simp only [Option.map_some, Position.unrealized]
      ring

theorem movesByWorth_totalPnl : e.MovesByWorth Portfolio.totalPnl := by
  intro f g
  simp only [Portfolio.totalPnl, sub_sub_sub_cancel_right]
  exact movesByWorth_equity f g

/-- Such a figure is within the quotes when the value is. -/
theorem MovesByWorth.withinQuotes_iff
    (hmoves : e.MovesByWorth figure) (rule : Quote → ℚ) :
    e.WithinQuotes figure (figure e.oms.portfolio (e.marksBy rule)) ↔
      e.worth Quote.lowest ≤ e.worth rule ∧
        e.worth rule ≤ e.worth Quote.highest := by
  have hlow := hmoves rule Quote.lowest
  have hhigh := hmoves Quote.highest rule
  rw [WithinQuotes, ← sub_nonneg, hlow, sub_nonneg,
    ← sub_nonneg (b := figure _ (e.marksBy rule)), hhigh, sub_nonneg]

/-- Marked by the price that the chart shows, the account would always be
within the quotes. -/
theorem LongOnly.chart_marks_within_quotes
    (h : e.LongOnly) (hmoves : e.MovesByWorth figure) :
    e.WithinQuotes figure
      (figure e.oms.portfolio (e.marksBy StockFeed.chartPrice)) := by
  rw [hmoves.withinQuotes_iff, ← sub_nonneg, worth_sub,
    ← sub_nonneg (b := e.worth StockFeed.chartPrice), worth_sub]
  constructor
  · refine h.worth_nonneg fun q hq => sub_nonneg.mpr ?_
    exact (StockFeed.chartPrice_between hq).1
  · refine h.worth_nonneg fun q hq => sub_nonneg.mpr ?_
    exact (StockFeed.chartPrice_between hq).2

/-- Marked by the mid, it is as long as the spreads outweigh the lone
prices. -/
theorem LongOnly.mid_marks_within_quotes_iff
    (h : e.LongOnly) (hmoves : e.MovesByWorth figure) :
    e.WithinQuotes figure (figure e.oms.portfolio e.marks) ↔
      e.worth Quote.lonePrice ≤ e.worth Quote.openSpread := by
  have hgap := h.worth_mid_sub_lowest
  have hmarks : e.marks = e.marksBy Quote.mid := rfl
  rw [hmarks, hmoves.withinQuotes_iff,
    and_iff_left h.worth_mid_le_highest]
  constructor
  · intro hle
    linarith
  · intro hle
    linarith

end Figures

/-- **What the view shows is within the quotes** of an account without short
positions exactly when the spreads that it holds weigh as much as the lone
prices that it holds: equity, unrealized profit and total PnL, which leave
their bounds together. -/
theorem shown_within_quotes_iff (h : e.LongOnly) :
    (e.WithinQuotes Portfolio.equity e.publish.view.equity ∧
        e.WithinQuotes Portfolio.unrealized e.publish.view.unrealized ∧
        e.WithinQuotes Portfolio.totalPnl e.publish.view.totalPnl) ↔
      e.worth Quote.lonePrice ≤ e.worth Quote.openSpread := by
  have hequity := h.mid_marks_within_quotes_iff movesByWorth_equity
  have hunrealized := h.mid_marks_within_quotes_iff movesByWorth_unrealized
  have hpnl := h.mid_marks_within_quotes_iff movesByWorth_totalPnl
  exact (and_congr hequity (and_congr hunrealized hpnl)).trans
    (by rw [and_self, and_self])

/-- One unit bought at 100, and the quote after that. -/
def boughtThen (q : Quote) : TradingEngine :=
  (reached ["X"] 1000 {} {}
    [.quote "X" { symbol := "X", bid := 99, ask := 100 },
      .command { type := .buy, symbol := "X", amount := 100 }]).step
    (.quote "X" q)

theorem longOnly_boughtThen {q : Quote} (hq : q.Priced) :
    (boughtThen q).LongOnly := by
  have hpos : ∀ sym p,
      (boughtThen q).oms.portfolio.positions.lookup sym = some p →
        sym = "X" ∧ p.netQty = 1 := by
    intro sym p hp
    change (boughtThen {}).oms.portfolio.positions.lookup sym = some p at hp
    by_cases hsym : sym = "X"
    · subst hsym
      have hnet : ((boughtThen {}).oms.portfolio.positions.lookup "X").map
          Position.netQty = some 1 := by
        decide +kernel
      rw [hp] at hnet
      exact ⟨rfl, Option.some.inj hnet⟩
    · have hmem : sym ∈ (boughtThen {}).oms.portfolio.positions.keys :=
        Finmap.mem_keys.mpr (Finmap.mem_of_lookup_eq_some hp)
      have hkeys :
          (boughtThen {}).oms.portfolio.positions.keys = {"X"} := by
        decide +kernel
      rw [hkeys, Finset.mem_singleton] at hmem
      exact absurd hmem hsym
  constructor
  · intro sym p hp
    rw [(hpos sym p hp).2]
    exact zero_le_one
  · intro sym p hp _
    rw [(hpos sym p hp).1]
    exact ⟨q, Finmap.lookup_insert _, hq⟩

/-- While both sides are quoted the figures are within the quotes. -/
theorem shown_within_quotes_two_sides :
    (boughtThen { bid := 98, ask := 100 }).WithinQuotes Portfolio.equity
        (boughtThen { bid := 98, ask := 100 }).publish.view.equity ∧
      (boughtThen { bid := 98, ask := 100 }).publish.view.equity = 999 := by
  have hpriced : Quote.Priced { bid := 98, ask := 100 } :=
    ⟨by decide, by decide, Or.inl (by decide)⟩
  exact ⟨((shown_within_quotes_iff (longOnly_boughtThen hpriced)).mpr
    (by decide +kernel)).1, by decide +kernel⟩

/-- The quote has lost its ask: at the only price the account has 1000, and
the view shows 950. -/
theorem lost_ask_shown_outside_quotes :
    (boughtThen { bid := 100 }).LongOnly ∧
      (boughtThen { bid := 100 }).oms.portfolio.equity
        ((boughtThen { bid := 100 }).marksBy Quote.lowest) = 1000 ∧
      (boughtThen { bid := 100 }).oms.portfolio.equity
        ((boughtThen { bid := 100 }).marksBy Quote.highest) = 1000 ∧
      (boughtThen { bid := 100 }).publish.view.equity = 950 ∧
      ¬ (boughtThen { bid := 100 }).WithinQuotes Portfolio.equity
        (boughtThen { bid := 100 }).publish.view.equity := by
  have hpriced : Quote.Priced { bid := 100 } :=
    ⟨by decide, le_rfl, Or.inl (by decide)⟩
  have hlow : (boughtThen { bid := 100 }).oms.portfolio.equity
      ((boughtThen { bid := 100 }).marksBy Quote.lowest) = 1000 := by
    decide +kernel
  have hshown : (boughtThen { bid := 100 }).publish.view.equity = 950 := by
    decide +kernel
  refine ⟨longOnly_boughtThen hpriced, hlow, by decide +kernel, hshown, ?_⟩
  rintro ⟨hle, _⟩
  rw [hlow, hshown] at hle
  exact absurd hle (by decide)

end TradingEngine

end ExecutionLayer
