import ExecutionLayer.ChartOrder
import ExecutionLayer.OrderTicket

/-!
# The price pane

What the Price Chart of `terminal_gui.cpp` draws of a view: the points inside
the chosen timeframe, found by walking back from the newest one, between
limits that are fitted to these points, with a floor under the range and
headroom above and below.

The walk stops at the first point that is too old, so it finds all that is
visible only in a series that is oldest first; and a point is inside the
horizontal limits only if it is not newer than the last one.  Both come from
the order of the published ages, which holds of every view as long as the
histories are in order and the ages fit (`charted_desk`).
-/

namespace ExecutionLayer

open MarketStore StepSystem

namespace Gui

/-! ### The pane -/

/-- The timeframes to choose from, in seconds. -/
def kWindows : List ℚ :=
  [60, 300, 900, 3600, 21600]

/-- The walk back to the first point inside the window. -/
def firstVisible (ages : List ℚ) (windowS : ℚ) : Nat → Nat
  | 0 => 0
  | first + 1 =>
      if -windowS ≤ ages.getD first 0 then
        firstVisible ages windowS first
      else first + 1

def kRangeAt6h : ℚ := 4 / 1000

/-- The extremes of the visible prices, moved apart when they are closer than
the floor. -/
def flooredRange (minRangePct lo hi : ℚ) : ℚ × ℚ :=
  let mid := 1 / 2 * (lo + hi)
  let minRange := |mid| * minRangePct
  if hi - lo < minRange then
    (mid - 1 / 2 * minRange, mid + 1 / 2 * minRange)
  else (lo, hi)

/-- The headroom over a range. -/
def headroom (range : ℚ) : ℚ :=
  let pad := range * (8 / 100)
  if pad ≤ 0 then 1 / 10 ^ 6 else pad

/-- The vertical limits around the prices from `lo` to `hi`. -/
def priceLimits (minRangePct lo hi : ℚ) : ℚ × ℚ :=
  let (lo, hi) := flooredRange minRangePct lo hi
  let pad := headroom (hi - lo)
  (lo - pad, hi + pad)

/-- What is handed to the plot. -/
structure PricePane where
  xs : List ℚ
  ys : List ℚ
  xMin : ℚ
  xMax : ℚ
  yMin : ℚ
  yMax : ℚ

/-- The line that is drawn, point by point. -/
def PricePane.points (pane : PricePane) : List (ℚ × ℚ) :=
  pane.xs.zip pane.ys

/-- The pane, unless it is still waiting for ticks.  `sqrt` is the square root
of the C library. -/
def pricePane (sqrt : ℚ → ℚ) (v : EngineView) (windowS : ℚ) :
    Option PricePane :=
  let first := firstVisible v.priceAgeS windowS v.priceHistory.length
  let nVis := v.priceHistory.length - first
  if nVis < 2 then none
  else
    let ys := v.priceHistory.drop first
    let limits :=
      priceLimits (kRangeAt6h * sqrt (windowS / 21600))
        (ys.min?.getD 0) (ys.max?.getD 0)
    some
      { xs := v.priceAgeS.drop first
        ys := ys
        xMin := -windowS
        xMax := 0
        yMin := limits.1
        yMax := limits.2 }

/-! ### The visible points -/

/-- The walk passes over points inside the window, and stops behind one that
is not. -/
theorem firstVisible_le (ages : List ℚ) (windowS : ℚ) (n : Nat) :
    firstVisible ages windowS n ≤ n := by
  induction n with
  | zero =>
      exact le_rfl
  | succ n ih =>
      rw [firstVisible]
      split_ifs
      · omega
      · exact le_rfl

theorem firstVisible_passed
    (ages : List ℚ) (windowS : ℚ) (n : Nat) {i : Nat}
    (hle : firstVisible ages windowS n ≤ i) (hlt : i < n) :
    -windowS ≤ ages.getD i 0 := by
  induction n with
  | zero =>
      omega
  | succ n ih =>
      rw [firstVisible] at hle
      split_ifs at hle with hage
      · rcases Nat.lt_succ_iff_lt_or_eq.mp hlt with hlt | rfl
        · exact ih hle hlt
        · exact hage
      · omega

theorem firstVisible_stopped
    (ages : List ℚ) (windowS : ℚ) (n : Nat) {first : Nat}
    (hfirst : firstVisible ages windowS n = first + 1) :
    ages.getD first 0 < -windowS := by
  induction n with
  | zero =>
      cases hfirst
  | succ n ih =>
      rw [firstVisible] at hfirst
      split_ifs at hfirst with hage
      · exact ih hfirst
      · obtain rfl : n = first := by
          omega
        exact not_le.mp hage

/-- A wider window starts no later. -/
theorem firstVisible_anti
    (ages : List ℚ) {narrow wide : ℚ} (h : narrow ≤ wide) (n : Nat) :
    firstVisible ages wide n ≤ firstVisible ages narrow n := by
  induction n with
  | zero =>
      exact le_rfl
  | succ n ih =>
      rw [firstVisible, firstVisible]
      by_cases hnarrow : -narrow ≤ ages.getD n 0
      · have hwide : -wide ≤ ages.getD n 0 :=
          (neg_le_neg h).trans hnarrow
        rw [if_pos hnarrow, if_pos hwide]
        exact ih
      · rw [if_neg hnarrow]
        split_ifs
        · exact (firstVisible_le ages wide n).trans (Nat.le_succ n)
        · exact le_rfl

/-- In a series that is oldest first, the walk finds all points inside the
window. -/
theorem drop_firstVisible
    {points : List (ℚ × ℚ)} (hsorted : points.Pairwise (·.1 ≤ ·.1))
    (windowS : ℚ) :
    points.drop
        (firstVisible (points.map Prod.fst) windowS points.length) =
      points.filter fun p => -windowS ≤ p.1 := by
  set first := firstVisible (points.map Prod.fst) windowS points.length
    with hfirst
  have hget : ∀ i (h : i < points.length),
      (points.map Prod.fst).getD i 0 = points[i].1 := by
    intro i h
    rw [List.getD_eq_getElem?_getD, List.getElem?_map,
      List.getElem?_eq_getElem h]
    rfl
  have hlater : ∀ p ∈ points.drop first, -windowS ≤ p.1 := by
    intro p hp
    obtain ⟨i, hi, rfl⟩ := List.getElem_of_mem hp
    have hlen : first + i < points.length := by
      rw [List.length_drop] at hi
      omega
    rw [List.getElem_drop, ← hget _ hlen]
    exact firstVisible_passed _ _ _ (Nat.le_add_right _ _) hlen
  have hearlier : ∀ p ∈ points.take first, ¬ -windowS ≤ p.1 := by
    intro p hp
    obtain ⟨i, hi, rfl⟩ := List.getElem_of_mem hp
    have hfront : i < first := by
      rw [List.length_take] at hi
      omega
    rw [List.getElem_take]
    obtain ⟨j, hj⟩ : ∃ j, first = j + 1 :=
      ⟨first - 1, by omega⟩
    have hle := firstVisible_le (points.map Prod.fst) windowS
      points.length
    have hjlen : j < points.length := by
      omega
    have hstop := firstVisible_stopped _ _ _ (hfirst.symm.trans hj)
    rw [hget j hjlen] at hstop
    have hij : i ≤ j := by
      omega
    have hage : points[i].1 ≤ points[j].1 := by
      rcases Nat.lt_or_eq_of_le hij with hij | rfl
      · exact List.pairwise_iff_getElem.mp hsorted i j _ hjlen hij
      · exact le_rfl
    exact not_le.mpr (hage.trans_lt hstop)
  conv_rhs => rw [← List.take_append_drop first points]
  rw [List.filter_append, List.filter_eq_nil_iff.mpr,
    List.filter_eq_self.mpr, List.nil_append]
  · simpa using hlater
  · simpa using hearlier

/-! ### The limits -/

/-- The floor moves the extremes only apart, and as far as it says. -/
theorem flooredRange_spec (minRangePct lo hi : ℚ) :
    (flooredRange minRangePct lo hi).1 ≤ lo ∧
      hi ≤ (flooredRange minRangePct lo hi).2 ∧
      |1 / 2 * (lo + hi)| * minRangePct ≤
        (flooredRange minRangePct lo hi).2 -
          (flooredRange minRangePct lo hi).1 := by
  simp only [flooredRange]
  split_ifs with hflat
  · refine ⟨?_, ?_, ?_⟩ <;> linarith
  · exact ⟨le_rfl, le_rfl, not_lt.mp hflat⟩

/-- There is always headroom, and at least 8% of the range. -/
theorem headroom_pos (range : ℚ) : 0 < headroom range := by
  simp only [headroom]
  split_ifs with h
  · norm_num
  · exact not_le.mp h

theorem le_headroom (range : ℚ) : range * (8 / 100) ≤ headroom range := by
  simp only [headroom]
  split_ifs with h
  · exact h.trans (by norm_num)
  · exact le_rfl

/-- Every price between the extremes keeps clear of the limits by 8% of what
lies between the extremes, and the range that is shown has a floor. -/
theorem priceLimits_spec
    (minRangePct : ℚ) {lo hi y : ℚ} (hlo : lo ≤ y) (hhi : y ≤ hi) :
    ((priceLimits minRangePct lo hi).1 < y ∧
        y < (priceLimits minRangePct lo hi).2) ∧
      ((priceLimits minRangePct lo hi).1 + (hi - lo) * (8 / 100) ≤ y ∧
        y + (hi - lo) * (8 / 100) ≤
          (priceLimits minRangePct lo hi).2) ∧
      |1 / 2 * (lo + hi)| * minRangePct <
        (priceLimits minRangePct lo hi).2 -
          (priceLimits minRangePct lo hi).1 := by
  obtain ⟨hlow, hhigh, hfloor⟩ := flooredRange_spec minRangePct lo hi
  simp only [priceLimits]
  set range := flooredRange minRangePct lo hi
  have hpos := headroom_pos (range.2 - range.1)
  have hpad := le_headroom (range.2 - range.1)
  refine ⟨⟨?_, ?_⟩, ⟨?_, ?_⟩, ?_⟩ <;> linarith

theorem minD_le {ys : List ℚ} {y : ℚ} (h : y ∈ ys) :
    ys.min?.getD 0 ≤ y := by
  rw [List.min?_eq_some_min (List.ne_nil_of_mem h)]
  exact List.min_le_of_mem h

theorem le_maxD {ys : List ℚ} {y : ℚ} (h : y ∈ ys) :
    y ≤ ys.max?.getD 0 := by
  rw [List.max?_eq_some_max (List.ne_nil_of_mem h)]
  exact List.le_max_of_mem h

end Gui

/-! ### The published chart -/

namespace EngineView

/-- The published points: age and price. -/
def chart (v : EngineView) : List (ℚ × ℚ) :=
  v.priceAgeS.zip v.priceHistory

/-- The points inside a timeframe. -/
def visible (v : EngineView) (windowS : ℚ) : List (ℚ × ℚ) :=
  v.chart.filter fun p => -windowS ≤ p.1

/-- No row of the view shows the focused symbol as a stock. -/
def CryptoFocus (v : EngineView) : Prop :=
  ∀ row ∈ v.symbols, row.symbol = v.focus → row.assetClass = .crypto

instance (v : EngineView) : Decidable v.CryptoFocus := by
  unfold CryptoFocus
  infer_instance

/-- One age for each price; of a crypto symbol they are in order, none of them
is positive, and the last one is 0. -/
structure Charted (v : EngineView) : Prop where
  length : v.priceAgeS.length = v.priceHistory.length
  sorted : v.CryptoFocus → v.chart.Pairwise (·.1 ≤ ·.1)
  nonpos : v.CryptoFocus → ∀ p ∈ v.chart, p.1 ≤ 0
  newest : v.CryptoFocus → ∀ p ∈ v.chart.getLast?, p.1 = 0

theorem chart_map_fst
    {v : EngineView} (h : v.priceAgeS.length = v.priceHistory.length) :
    v.chart.map Prod.fst = v.priceAgeS :=
  List.map_fst_zip h.le

theorem chart_length
    {v : EngineView} (h : v.priceAgeS.length = v.priceHistory.length) :
    v.chart.length = v.priceHistory.length := by
  rw [chart, List.length_zip, h, Nat.min_self]

/-- The newest point is inside every timeframe. -/
theorem Charted.getLast_visible
    {v : EngineView} (h : v.Charted) (hcrypto : v.CryptoFocus)
    {windowS : ℚ} (hwindow : 0 ≤ windowS) :
    (v.visible windowS).getLast? = v.chart.getLast? := by
  have hnewest := h.newest hcrypto
  rw [visible]
  rcases List.eq_nil_or_concat' v.chart with hnil | ⟨init, q, hchart⟩
  · rw [hnil]
    rfl
  · rw [hchart, List.getLast?_concat] at hnewest
    have hq : -windowS ≤ q.1 := by
      rw [hnewest q rfl]
      linarith
    rw [hchart, List.filter_append, List.getLast?_concat,
      List.filter_cons_of_pos (by simpa using hq), List.filter_nil,
      List.getLast?_concat]

end EngineView

namespace TradingEngine

/-- The row of a stock shows it as one. -/
theorem buildRow_assetClass
    (e : TradingEngine) (cls : AssetClass) (sym : String) :
    (e.buildRow cls sym).assetClass = cls := by
  unfold buildRow
  cases e.quotes.lookup sym with
  | none =>
      cases e.oms.portfolio.positions.lookup sym <;> rfl
  | some q =>
      cases e.oms.portfolio.positions.lookup sym <;> rfl

/-- A view whose focus is not shown as a stock is that of a crypto focus. -/
theorem isStock_of_cryptoFocus
    {e : TradingEngine} (h : e.buildView.CryptoFocus) :
    e.isStock e.focus = false := by
  by_contra hstock
  have hmem : e.focus ∈ e.stockSymbols := by
    simpa [isStock] using hstock
  have hrow : e.buildRow .stock e.focus ∈ e.buildView.symbols :=
    List.mem_append_right _ (List.mem_map_of_mem hmem)
  have hcls := h _ hrow (e.buildRow_shows .stock e.focus).1
  rw [buildRow_assetClass] at hcls
  cases hcls

/-- The ages of a series in order are in order, if they fit. -/
theorem priceAges_pairwise
    {h : List PricePoint} (hsorted : OldestFirst h) (hspan : SpanFits h) :
    (priceAges h).Pairwise (· ≤ ·) := by
  rw [priceAges_eq hspan]
  refine List.Pairwise.map _ ?_ hsorted
  intro p q hle
  have hsub : ((p.tsNs - (h.getLast?.map PricePoint.tsNs).getD 0 : Int) :
      ℚ) ≤ (q.tsNs - (h.getLast?.map PricePoint.tsNs).getD 0 : Int) := by
    exact_mod_cast sub_le_sub_right hle _
  exact div_le_div_of_nonneg_right hsub (by norm_num)

theorem charted_buildView
    {e : TradingEngine} (h : CryptoChart OldestFirst e)
    (hages : AgesFit e) :
    e.buildView.Charted := by
  have hlength : (priceAges e.priceHist).length =
      (e.priceHist.map PricePoint.price).length := by
    rw [priceAges, List.length_map, List.length_map]
  have hfst : e.buildView.chart.map Prod.fst = priceAges e.priceHist :=
    EngineView.chart_map_fst hlength
  refine ⟨hlength, ?_, ?_, ?_⟩
  · intro hcrypto
    have hfocus := isStock_of_cryptoFocus hcrypto
    have hsorted := priceAges_pairwise (h.crypto hfocus) (hages hfocus)
    rw [← hfst] at hsorted
    exact List.pairwise_map.mp hsorted
  · intro hcrypto p hp
    have hfocus := isStock_of_cryptoFocus hcrypto
    have hnonpos := priceAges_nonpos (h.crypto hfocus) (hages hfocus)
    rw [← hfst] at hnonpos
    exact hnonpos _ (List.mem_map_of_mem hp)
  · intro _ p hp
    have hlast := priceAges_getLast e.priceHist
    rw [← hfst, List.getLast?_map] at hlast
    exact hlast _ (Option.mem_map_of_mem _ hp)

section Runs

variable {symbols : List String} {capital : ℚ} {limits : RiskLimits}
variable {configured : Bool}

/-- Whatever view the window gets, its chart is in order. -/
theorem charted_desk
    {ds : List DeskStep}
    (h : ∀ before, before <+: ds →
      (desk symbols capital limits configured
        before).store.AllOldestFirst)
    (hages : ∀ before, before <+: ds →
      AgesFit (desk symbols capital limits configured before)) :
    (desk symbols capital limits configured ds).view.Charted := by
  induction ds using List.reverseRecOn with
  | nil =>
      refine ⟨rfl, fun _ => List.Pairwise.nil, ?_, ?_⟩
      · intro _ p hp
        cases hp
      · intro _ p hp
        cases hp
  | append_singleton ds d ih =>
      obtain ⟨hbefore, _⟩ := (forall_prefix_concat ds d).mp h
      obtain ⟨hfit, _⟩ := (forall_prefix_concat ds d).mp hages
      rw [desk_concat]
      rcases view_deskStep (desk symbols capital limits configured ds) d
        with heq | ⟨_, heq⟩
      · rw [heq]
        exact ih hbefore hfit
      · rw [heq]
        refine charted_buildView ?_ (hfit ds List.prefix_rfl)
        exact cryptoChart_desk symbols capital limits configured
          List.Pairwise.nil fun before hpre => (hbefore before hpre).history

end Runs

end TradingEngine

namespace Gui

/-- The pane shows the timeframe: the line is drawn through all points inside
it and no others, it lies inside the limits with 8% of its height to spare,
it ends at the newest point, on the right edge, and the range that is shown is
wider than the floor of the timeframe. -/
structure PricePane.Shows (pane : PricePane) (sqrt : ℚ → ℚ)
    (v : EngineView) (windowS : ℚ) : Prop where
  points : pane.points = v.visible windowS
  across : ∀ p ∈ pane.points, pane.xMin ≤ p.1 ∧ p.1 ≤ pane.xMax
  upright : ∀ p ∈ pane.points, pane.yMin < p.2 ∧ p.2 < pane.yMax
  headroom : ∀ p ∈ pane.points, ∀ q ∈ pane.points,
    pane.yMin + (p.2 - q.2) * (8 / 100) ≤ q.2 ∧
      p.2 + (p.2 - q.2) * (8 / 100) ≤ pane.yMax
  edge : ∃ price, v.chart.getLast? = some (pane.xMax, price) ∧
    pane.points.getLast? = some (pane.xMax, price)
  floor : ∃ lo hi, (∀ p ∈ pane.points, lo ≤ p.2 ∧ p.2 ≤ hi) ∧
    |1 / 2 * (lo + hi)| * (kRangeAt6h * sqrt (windowS / 21600)) <
      pane.yMax - pane.yMin

/-- The visible points are the ends of the two arrays. -/
theorem visible_eq
    {v : EngineView} (h : v.Charted) (hcrypto : v.CryptoFocus)
    (windowS : ℚ) :
    v.visible windowS =
      (v.priceAgeS.drop
          (firstVisible v.priceAgeS windowS v.priceHistory.length)).zip
        (v.priceHistory.drop
          (firstVisible v.priceAgeS windowS v.priceHistory.length)) := by
  have hdrop := drop_firstVisible (h.sorted hcrypto) windowS
  rw [EngineView.chart_map_fst h.length, EngineView.chart_length h.length]
    at hdrop
  rw [EngineView.visible, ← hdrop, EngineView.chart]
  exact List.drop_zipWith

theorem visible_length
    {v : EngineView} (h : v.Charted) (hcrypto : v.CryptoFocus)
    (windowS : ℚ) :
    (v.visible windowS).length = v.priceHistory.length -
      firstVisible v.priceAgeS windowS v.priceHistory.length := by
  rw [visible_eq h hcrypto, List.length_zip, List.length_drop,
    List.length_drop, h.length, Nat.min_self]

theorem pricePane_eq_none_iff
    {v : EngineView} (h : v.Charted) (hcrypto : v.CryptoFocus)
    (sqrt : ℚ → ℚ) (windowS : ℚ) :
    pricePane sqrt v windowS = none ↔
      (v.visible windowS).length < 2 := by
  simp only [pricePane]
  rw [visible_length h hcrypto]
  split_ifs with hfew
  · exact ⟨fun _ => hfew, fun _ => rfl⟩
  · exact ⟨fun hnone => (by cases hnone), fun hlt => absurd hlt hfew⟩

theorem shows_of_pricePane
    {v : EngineView} (h : v.Charted) (hcrypto : v.CryptoFocus)
    {sqrt : ℚ → ℚ} {windowS : ℚ} (hwindow : 0 ≤ windowS)
    {pane : PricePane} (hpane : pricePane sqrt v windowS = some pane) :
    pane.Shows sqrt v windowS := by
  have hvisible := visible_eq h hcrypto windowS
  have hlength := visible_length h hcrypto windowS
  simp only [pricePane] at hpane
  set first := firstVisible v.priceAgeS windowS v.priceHistory.length
  split_ifs at hpane with hfew
  have hpoints : pane.points = v.visible windowS := by
    rw [hvisible, ← Option.some.inj hpane]
    rfl
  have hextremes : ∀ p ∈ pane.points,
      (v.priceHistory.drop first).min?.getD 0 ≤ p.2 ∧
        p.2 ≤ (v.priceHistory.drop first).max?.getD 0 := by
    intro p hp
    rw [hpoints, hvisible] at hp
    have hmem := (List.of_mem_zip hp).2
    exact ⟨minD_le hmem, le_maxD hmem⟩
  have hne : v.visible windowS ≠ [] := by
    intro hnil
    rw [hnil, List.length_nil] at hlength
    omega
  have hlast := h.getLast_visible hcrypto hwindow
  obtain ⟨newest, hnewest⟩ :
      ∃ newest, (v.visible windowS).getLast? = some newest :=
    ⟨_, List.getLast?_eq_some_getLast hne⟩
  have hage : newest.1 = 0 :=
    h.newest hcrypto newest (hlast.symm.trans hnewest)
  have hlimits := fun (p : ℚ × ℚ) (hp : p ∈ pane.points) =>
    priceLimits_spec (kRangeAt6h * sqrt (windowS / 21600))
      (hextremes p hp).1 (hextremes p hp).2
  have hmem : newest ∈ pane.points := by
    rw [hpoints]
    exact List.mem_of_getLast? hnewest
  have hxMax : (0, newest.2) = newest := by
    rw [← hage]
  obtain rfl := Option.some.inj hpane
  refine ⟨hpoints, ?_, ?_, ?_, ⟨newest.2, ?_, ?_⟩, ?_⟩
  · intro p hp
    rw [hpoints] at hp
    obtain ⟨hchart, hinside⟩ := List.mem_filter.mp hp
    exact ⟨of_decide_eq_true hinside, h.nonpos hcrypto p hchart⟩
  · exact fun p hp => (hlimits p hp).1
  · intro p hp q hq
    have hp' := hextremes p hp
    have hq' := hextremes q hq
    have hlow := (hlimits q hq).2.1.1
    have hhigh := (hlimits p hp).2.1.2
    constructor <;> linarith
  · rw [← hlast, hnewest, hxMax]
  · rw [hpoints, hnewest, hxMax]
  · exact ⟨_, _, hextremes, (hlimits newest hmem).2.2⟩

end Gui

section Runs

variable {symbols : List String} {capital : ℚ} {limits : RiskLimits}
variable {configured : Bool}

open Gui TradingEngine in
/-- **The price pane shows its timeframe.**  The threads of a desk run in any
order, with trades and batches in order, no first trade older than a candle
that was backfilled before it, and ages that fit.  Then whatever view the
window gets, if its focus is a crypto symbol, the pane waits exactly while
fewer than two points are inside the timeframe, and otherwise it shows all of
them, inside its limits; and what it shows is still shown when the timeframe
is widened. -/
theorem pane_shows_timeframe
    {ds : List DeskStep} (hfeed : OrderedFeed ds)
    (hfirst : ∀ before d, before ++ [d] <+: ds →
      FirstTradeInOrder symbols capital limits configured before d)
    (hages : ∀ before, before <+: ds →
      AgesFit (desk symbols capital limits configured before))
    (hcrypto :
      (desk symbols capital limits configured ds).view.CryptoFocus)
    (sqrt : ℚ → ℚ) {windowS : ℚ} (hwindow : windowS ∈ kWindows) :
    (pricePane sqrt (desk symbols capital limits configured ds).view
          windowS = none ↔
        ((desk symbols capital limits configured ds).view.visible
          windowS).length < 2) ∧
      ∀ pane,
        pricePane sqrt (desk symbols capital limits configured ds).view
            windowS = some pane →
          pane.Shows sqrt
              (desk symbols capital limits configured ds).view windowS ∧
            ∀ wide, windowS ≤ wide →
              ∃ pane', pricePane sqrt
                  (desk symbols capital limits configured ds).view wide =
                some pane' ∧ pane.points <:+ pane'.points := by
  have hpos : 0 ≤ windowS := by
    simp only [kWindows, List.mem_cons, List.not_mem_nil, or_false]
      at hwindow
    rcases hwindow with rfl | rfl | rfl | rfl | rfl <;> norm_num
  have hcharted := charted_desk
    ((allOldestFirst_iff symbols capital limits configured hfeed).mpr
      hfirst) hages
  set v := (desk symbols capital limits configured ds).view
  refine ⟨pricePane_eq_none_iff hcharted hcrypto sqrt windowS, ?_⟩
  intro pane hpane
  have hshows := shows_of_pricePane hcharted hcrypto hpos hpane
  refine ⟨hshows, fun wide hwide => ?_⟩
  have hsuffix : v.visible windowS <:+ v.visible wide := by
    rw [EngineView.visible, EngineView.visible,
      ← drop_firstVisible (hcharted.sorted hcrypto),
      ← drop_firstVisible (hcharted.sorted hcrypto)]
    exact List.drop_suffix_drop_left _ (firstVisible_anti _ hwide _)
  have hmany : ¬ (v.visible wide).length < 2 := by
    have hnarrow : ¬ (v.visible windowS).length < 2 := by
      rw [← pricePane_eq_none_iff hcharted hcrypto sqrt windowS, hpane]
      exact Option.some_ne_none pane
    have hle := hsuffix.length_le
    omega
  obtain ⟨pane', hpane'⟩ :
      ∃ pane', pricePane sqrt v wide = some pane' := by
    rw [← Option.ne_none_iff_exists', Ne,
      pricePane_eq_none_iff hcharted hcrypto]
    exact hmany
  refine ⟨pane', hpane', ?_⟩
  rw [hshows.points,
    (shows_of_pricePane hcharted hcrypto (hpos.trans hwide)
      hpane').points]
  exact hsuffix

end Runs

open TradingEngine

/-- A candle, a newer trade, and a view of both. -/
def candleTradeView : List DeskStep :=
  candleThenTrade 61 ++ [.engine .publish trivial]

theorem orderedFeed_candleTradeView : OrderedFeed candleTradeView where
  trades := by
    intro s
    have hcalls : storeCalls candleTradeView =
        storeCalls (candleThenTrade 61) := rfl
    rw [hcalls]
    exact (orderedFeed_candleThenTrade 61).trades s
  batches := by
    intro s points hmem
    rcases List.mem_append.mp hmem with hmem | hmem
    · exact (orderedFeed_candleThenTrade 61).batches s points hmem
    · simp at hmem

theorem firstTradeInOrder_candleTradeView
    (before : List DeskStep) (d : DeskStep)
    (hpre : before ++ [d] <+: candleTradeView) :
    FirstTradeInOrder ["BTC-USD"] 0 {} false before d := by
  intro s price tsNs hd hacc hnil q hq
  subst hd
  rcases before with _ | ⟨a, _ | ⟨b, _ | ⟨c, rest⟩⟩⟩
  · simp [candleTradeView, candleThenTrade] at hpre
  · simp only [candleTradeView, candleThenTrade, List.cons_append,
      List.nil_append, List.cons_prefix_cons, List.nil_prefix, and_true,
      DeskStep.store.injEq, FeedServer.StoreCall.onTrade.injEq] at hpre
    obtain ⟨rfl, rfl, rfl, rfl⟩ := hpre
    have hpoints : (desk ["BTC-USD"] 0 {} false
        [.store (.backfillHistory "BTC-USD"
          [{ tsNs := 60, price := 1 }])]).store.points "BTC-USD" =
        [{ tsNs := 60, price := 1 }] := by
      decide +kernel
    rw [hpoints] at hq
    obtain rfl := Option.some.inj hq
    decide
  · simp [candleTradeView, candleThenTrade] at hpre
  · simp only [candleTradeView, candleThenTrade, List.cons_append,
      List.nil_append, List.cons_prefix_cons] at hpre
    obtain ⟨_, _, _, hpre⟩ := hpre
    cases rest <;> simp at hpre

theorem agesFit_candleTradeView
    (before : List DeskStep) (hpre : before <+: candleTradeView) :
    AgesFit (desk ["BTC-USD"] 0 {} false before) := by
  have hall : ∀ before ∈ candleTradeView.inits,
      AgesFit (desk ["BTC-USD"] 0 {} false before) := by
    decide +kernel
  exact hall before ((List.mem_inits before _).mpr hpre)

/-- The pane of the 6h timeframe: both points, the trade on the right edge. -/
theorem pane_shows_timeframe_6h :
    ∃ pane,
      Gui.pricePane id
          (desk ["BTC-USD"] 0 {} false candleTradeView).view 21600 =
        some pane ∧
      pane.points = [(-1 / 10 ^ 9, 1), (0, 2)] ∧
      pane.Shows id
        (desk ["BTC-USD"] 0 {} false candleTradeView).view 21600 := by
  have hpoints : (Gui.pricePane id
      (desk ["BTC-USD"] 0 {} false candleTradeView).view 21600).map
        Gui.PricePane.points = some [(-1 / 10 ^ 9, 1), (0, 2)] := by
    decide +kernel
  obtain ⟨pane, hpane, hdrawn⟩ := Option.map_eq_some_iff.mp hpoints
  refine ⟨pane, hpane, hdrawn, ?_⟩
  exact ((pane_shows_timeframe orderedFeed_candleTradeView
    firstTradeInOrder_candleTradeView agesFit_candleTradeView
    (by decide +kernel) id (by decide +kernel)).2 pane hpane).1

end ExecutionLayer
