import ExecutionLayer.ChartHistory
import ExecutionLayer.Desk

/-!
# The chart is read oldest first

The engine reads the history of the focused symbol and publishes the age of
each point against the last one, so the chart is right when the history is in
the order of the time stamps.

The backfill compares time stamps and the live path does not.  With a tape in
order, what can go wrong in a history is one thing: a backfill fills it while
it is empty, and the first trade that arrives after it is older than its
newest candle.  What can go wrong in the ages is another: a time stamp has 64
bits, so has the difference of two, and points that lie further apart than
2^63 nanoseconds have an age that does not fit.  `chart_oldest_first_iff` says
that nothing else can.
-/

namespace ExecutionLayer

open FeedServer FiniteMap MachineInt MarketStore StepSystem Window

/-- The call on the store that a step of the desk makes. -/
def DeskStep.storeCall : DeskStep → Option StoreCall
  | .store c => some c
  | _ => none

def storeCalls (ds : List DeskStep) : List StoreCall :=
  ds.filterMap DeskStep.storeCall

theorem storeCalls_concat (ds : List DeskStep) (d : DeskStep) :
    storeCalls (ds ++ [d]) = storeCalls ds ++ d.storeCall.toList := by
  rw [storeCalls, List.filterMap_append]
  cases h : d.storeCall with
  | none =>
      rw [List.filterMap_cons_none h]
      rfl
  | some c =>
      rw [List.filterMap_cons_some h]
      rfl

namespace MarketStore

theorem points_addSymbol
    (store : MarketStore) (symbol s : String) :
    (store.addSymbol symbol).points s = store.points s := by
  rw [addSymbol]
  split_ifs <;> rfl

theorem points_requestHistory
    (store : MarketStore) (symbol s : String) :
    (store.requestHistory symbol).points s = store.points s := by
  rw [requestHistory]
  split_ifs <;> rfl

/-- The time stamps that a call brings to the price histories. -/
def stamps : StoreCall → List Int
  | .onTrade _ _ tsNs => [tsNs]
  | .backfillHistory _ points => points.map PricePoint.tsNs
  | _ => []

/-- The time stamps of the calls are values of `TimestampNs`. -/
def StampsFit (calls : List StoreCall) : Prop :=
  ∀ c ∈ calls, ∀ n ∈ stamps c, FitsInt64 n

/-- What is retained carries time stamps of the calls. -/
theorem Tape.fits
    {calls : List StoreCall} {s : String} {h : List PricePoint}
    (ht : Tape calls s h) (hfits : StampsFit calls) :
    ∀ p ∈ h, FitsInt64 p.tsNs := by
  obtain ⟨front, rfl, hfront⟩ := ht.split
  intro p hp
  rcases List.mem_append.mp hp with hp | hp
  · obtain ⟨points, hcall, hmem⟩ := hfront p hp
    exact hfits _ hcall _ (List.mem_map_of_mem hmem)
  · obtain ⟨c, hcall, hc⟩ :=
      List.mem_filterMap.mp ((rtake_suffix _ _).subset hp)
    cases c with
    | onTrade symbol price tsNs =>
        rw [acceptedPoint] at hc
        split_ifs at hc
        obtain rfl := Option.some.inj hc
        exact hfits _ hcall tsNs (List.mem_singleton_self tsNs)
    | _ =>
        cases hc

/-- A read of as many points as there are. -/
theorem history_length (store : MarketStore) (s : String) :
    store.history s (store.points s).length = store.points s := by
  rw [history_eq, Int.toNat_natCast, rtake_of_length_le le_rfl]

theorem AllOldestFirst.history
    {store : MarketStore} (h : store.AllOldestFirst) (s : String)
    (n : Int) :
    OldestFirst (store.history s n) := by
  rw [history_eq]
  exact (h s).rtake _

/-- With the last trade of the tape retained, the next trade of an ordered
tape is in order. -/
theorem Tape.inOrder
    {calls : List StoreCall} {s : String} {h : List PricePoint}
    (ht : Tape calls s h) (hne : tape calls s ≠ []) {p : PricePoint}
    (hsorted : OldestFirst (tape calls s ++ [p])) :
    ∀ q ∈ h.getLast?, q.tsNs ≤ p.tsNs := by
  obtain ⟨front, rfl, _⟩ := ht.split
  intro q hq
  have hlen : ¬ (tape calls s).length ≤
      (tape calls s).length - kHistoryCap := by
    have hpos := List.length_pos_iff.mpr hne
    have hcap : 0 < kHistoryCap := by decide
    omega
  have hlast : ((tape calls s).rtake kHistoryCap).getLast? =
      (tape calls s).getLast? := by
    rw [List.rtake, List.getLast?_drop, if_neg hlen]
  rw [List.getLast?_append, hlast,
    List.getLast?_eq_some_getLast hne] at hq
  have hmem : q ∈ tape calls s := by
    have heq := Option.some.inj hq
    exact heq ▸ List.getLast_mem hne
  exact (List.pairwise_append.mp hsorted).2.2 q hmem p (by simp)

end MarketStore

namespace TradingEngine

/-- The engine's thread does not touch the price histories, and the threads of
the feeds touch them by calls on the store. -/
theorem points_deskStep (e : TradingEngine) (d : DeskStep) (s : String) :
    (e.deskStep d).store.points s =
      (d.storeCall.elim e.store (applyCall e.store)).points s := by
  cases d with
  | engine a own =>
      have hcases := e.step_store_cases own
      change (e.step a).store.points s = e.store.points s
      rcases hcases with heq | ⟨c, _, _, heq⟩ | heq
      · rw [heq]
      · rw [heq, points_addSymbol]
      · rw [heq, points_requestHistory]
  | _ =>
      rfl

/-! ### The chart series -/

/-- What a step may do to the chart series: keep it with the focus, clear it
with a new focus, open it for the first focus, or read it again. -/
inductive ChartStep (e e' : TradingEngine) : Prop where
  | kept (series : e'.priceHist = e.priceHist) (focus : e'.focus = e.focus)
      (stocks : e'.stockSymbols = e.stockSymbols)
  | cleared (series : e'.priceHist = []) (focus : e'.focus ≠ "")
  | opened (series : e'.priceHist = e.priceHist) (focus : e.focus = "")
  | read (focus : e'.focus = e.focus) (some : e.focus ≠ "")
      (stocks : e'.stockSymbols = e.stockSymbols)
      (series : e'.priceHist =
        if e.isStock e.focus then e.stocks.history e.focus
        else e.store.history e.focus kChartPoints)

/-- What a step may do to the chart series when it does not read it. -/
inductive UnreadStep (e e' : TradingEngine) : Prop where
  | kept (series : e'.priceHist = e.priceHist) (focus : e'.focus = e.focus)
      (stocks : e'.stockSymbols = e.stockSymbols)
  | cleared (series : e'.priceHist = []) (focus : e'.focus ≠ "")
  | opened (series : e'.priceHist = e.priceHist) (focus : e.focus = "")

theorem unreadStep
    (e : TradingEngine) {d : DeskStep}
    (hd : ∀ now own, d ≠ .engine (.refreshHistory now) own) :
    UnreadStep e (e.deskStep d) := by
  cases d with
  | engine a own =>
      change UnreadStep e (e.step a)
      cases a with
      | command c =>
          rcases e.process_cases c with
            ⟨hadds, heq⟩ | ⟨hadds, heq⟩ |
              ⟨_, ⟨hne, _, heq⟩ | ⟨oms, heq⟩⟩
          · rw [step, heq]
            exact .cleared rfl hadds.symbol_ne
          · rw [step, heq]
            exact .cleared rfl hadds.symbol_ne
          · rw [step, heq]
            exact .cleared rfl hne
          · rw [step, heq]
            exact .kept rfl rfl rfl
      | quote symbol q =>
          exact own.elim
      | feeds store stocks =>
          exact own.elim
      | requestFocusHistory =>
          rw [step, requestFocusHistory]
          split_ifs
          · exact .kept rfl rfl rfl
          · exact .kept rfl rfl rfl
      | refreshHistory now =>
          exact absurd rfl (hd now own)
      | refreshCatalog now =>
          rw [step, refreshCatalog]
          by_cases hdue :
              e.nextCatalog ≤ now ∨ e.products = [] ∨ e.universeSeen = false
          · rw [if_pos hdue]
            by_cases hfocus : e.focus = ""
            · exact .opened rfl hfocus
            · exact .kept rfl (if_neg hfocus) rfl
          · rw [if_neg hdue]
            exact .kept rfl rfl rfl
      | readCryptoQuotes =>
          exact .kept rfl rfl rfl
      | readStockQuotes =>
          exact .kept rfl rfl rfl
      | drainErrors =>
          exact .kept rfl rfl rfl
      | publish =>
          rw [step, publish]
          exact .kept rfl rfl rfl
  | _ =>
      exact .kept rfl rfl rfl

theorem chartStep (e : TradingEngine) (d : DeskStep) :
    ChartStep e (e.deskStep d) := by
  by_cases hread : ∃ now own, d = .engine (.refreshHistory now) own
  · obtain ⟨now, own, rfl⟩ := hread
    change ChartStep e (e.refreshHistory now)
    rw [refreshHistory]
    by_cases hdue : e.focus ≠ "" ∧ e.nextHistory ≤ now
    · rw [if_pos hdue]
      exact .read rfl hdue.1 rfl rfl
    · rw [if_neg hdue]
      exact .kept rfl rfl rfl
  · cases e.unreadStep fun now own hd => hread ⟨now, own, hd⟩ with
    | kept series focus stocks =>
        exact .kept series focus stocks
    | cleared series focus =>
        exact .cleared series focus
    | opened series focus =>
        exact .opened series focus

/-- The series of a crypto focus has a property. -/
structure CryptoChart (P : List PricePoint → Prop) (e : TradingEngine) :
    Prop where
  unfocused : e.focus = "" → e.priceHist = []
  crypto : e.isStock e.focus = false → P e.priceHist

theorem CryptoChart.of_nil
    {P : List PricePoint → Prop} {e : TradingEngine} (hnil : P [])
    (h : e.priceHist = []) : CryptoChart P e where
  unfocused := fun _ => h
  crypto := by
    intro _
    rw [h]
    exact hnil

/-- What holds of every read of a history holds of the chart. -/
theorem CryptoChart.step
    {P : List PricePoint → Prop} {e e' : TradingEngine}
    (h : CryptoChart P e) (hnil : P [])
    (hstore : ∀ s n, P (e.store.history s n)) (hstep : ChartStep e e') :
    CryptoChart P e' := by
  cases hstep with
  | kept series focus stocks =>
      refine ⟨?_, ?_⟩
      · rw [series, focus]
        exact h.unfocused
      · rw [series, focus, isStock, stocks]
        exact h.crypto
  | cleared series focus =>
      exact .of_nil hnil series
  | opened series focus =>
      exact .of_nil hnil (series.trans (h.unfocused focus))
  | read focus some stocks series =>
      refine ⟨?_, ?_⟩
      · intro hempty
        exact absurd (focus ▸ hempty) some
      · rw [focus, isStock, stocks, ← isStock]
        intro hcrypto
        rw [series, hcrypto]
        exact hstore _ _

/-! ### Ages -/

/-- The points of a series are no further before the last one than 64 bits
can say. -/
def SpanFits (h : List PricePoint) : Prop :=
  ∀ q ∈ h.getLast?, ∀ p ∈ h, FitsInt64 (p.tsNs - q.tsNs)

instance (h : List PricePoint) : Decidable (SpanFits h) := by
  unfold SpanFits
  infer_instance

/-- The ages of such a series are the differences themselves. -/
theorem priceAges_eq
    {h : List PricePoint} (hspan : SpanFits h) :
    priceAges h = h.map fun p =>
      ((p.tsNs - (h.getLast?.map PricePoint.tsNs).getD 0 : Int) : ℚ) /
        10 ^ 9 := by
  refine List.map_congr_left fun p hp => ?_
  have hlast := List.getLast?_eq_some_getLast (List.ne_nil_of_mem hp)
  rw [hlast, Option.map_some, Option.getD_some,
    wrapInt64_of_fits (hspan _ hlast p hp)]

/-- The last age is 0. -/
theorem priceAges_getLast (h : List PricePoint) :
    ∀ a ∈ (priceAges h).getLast?, a = 0 := by
  intro a ha
  rw [priceAges, List.getLast?_map] at ha
  cases hq : h.getLast? with
  | none =>
      rw [hq] at ha
      cases ha
  | some q =>
      rw [hq] at ha
      obtain rfl := Option.some.inj ha
      simp [wrapInt64]

theorem priceAges_nonpos
    {h : List PricePoint} (hsorted : OldestFirst h) (hspan : SpanFits h) :
    ∀ a ∈ priceAges h, a ≤ 0 := by
  intro a ha
  rw [priceAges_eq hspan] at ha
  obtain ⟨p, hp, rfl⟩ := List.mem_map.mp ha
  have hlast := List.getLast?_eq_some_getLast (List.ne_nil_of_mem hp)
  have hle : p.tsNs - (h.getLast (List.ne_nil_of_mem hp)).tsNs ≤ 0 := by
    have := hsorted.le_last hp hlast
    omega
  rw [hlast]
  exact div_nonpos_of_nonpos_of_nonneg (by exact_mod_cast hle)
    (by norm_num)

/-- With time stamps in order, an age that does not fit is positive. -/
theorem spanFits_of_priceAges_nonpos
    {h : List PricePoint} (hsorted : OldestFirst h)
    (hfits : ∀ p ∈ h, FitsInt64 p.tsNs) (hages : ∀ a ∈ priceAges h, a ≤ 0) :
    SpanFits h := by
  intro q hq p hp
  have hage := hages _ (List.mem_map_of_mem hp)
  rw [hq, Option.map_some, Option.getD_some, div_le_iff₀ (by norm_num),
    zero_mul] at hage
  have hwrap : wrapInt64 (p.tsNs - q.tsNs) ≤ 0 := by
    exact_mod_cast hage
  have hle := hsorted.le_last hp hq
  have hlow := (hfits p hp).1
  have hhigh := (hfits q (List.mem_of_getLast? hq)).2
  exact fitsInt64_of_wrap_nonpos (by omega) (by omega) hwrap

/-- The chart of a crypto focus spans no more than 64 bits can say. -/
def AgesFit (e : TradingEngine) : Prop :=
  e.isStock e.focus = false → SpanFits e.priceHist

instance (e : TradingEngine) : Decidable (AgesFit e) := by
  unfold AgesFit
  infer_instance

/-- What the chart relies on, in one state: reads of a history are oldest
first, and so are the ages that the next view shows for a crypto symbol. -/
structure ChartOldestFirst (e : TradingEngine) : Prop where
  history : ∀ s n, OldestFirst (e.store.history s n)
  ages : e.isStock e.focus = false →
    (∀ a ∈ e.publish.view.priceAgeS, a ≤ 0) ∧
      ∀ a ∈ e.publish.view.priceAgeS.getLast?, a = 0

theorem ChartOldestFirst.allOldestFirst
    {e : TradingEngine} (h : ChartOldestFirst e) :
    e.store.AllOldestFirst := by
  intro s
  rw [← history_length]
  exact h.history s _

/-- With histories and chart in order, it is the ages that fit or not. -/
theorem chartOldestFirst_iff_agesFit
    {e : TradingEngine} (hstore : e.store.AllOldestFirst)
    (hsorted : CryptoChart OldestFirst e)
    (hfits : CryptoChart (∀ p ∈ ·, FitsInt64 p.tsNs) e) :
    ChartOldestFirst e ↔ AgesFit e := by
  constructor
  · intro h hcrypto
    exact spanFits_of_priceAges_nonpos (hsorted.crypto hcrypto)
      (hfits.crypto hcrypto) (h.ages hcrypto).1
  · intro h
    refine ⟨hstore.history, fun hcrypto => ⟨?_, priceAges_getLast _⟩⟩
    exact priceAges_nonpos (hsorted.crypto hcrypto) (h hcrypto)

/-! ### Runs -/

/-- The feed of a run is in order: the trades of every symbol, and the points
of every batch. -/
structure OrderedFeed (ds : List DeskStep) : Prop where
  trades : ∀ s, OldestFirst (tape (storeCalls ds) s)
  batches : ∀ s points,
    .store (.backfillHistory s points) ∈ ds → OldestFirst points

theorem OrderedFeed.of_concat
    {ds : List DeskStep} {d : DeskStep} (h : OrderedFeed (ds ++ [d])) :
    OrderedFeed ds where
  trades := by
    intro s
    have hall := h.trades s
    rw [storeCalls_concat, tape, List.filterMap_append] at hall
    exact (List.pairwise_append.mp hall).1
  batches := fun s points hmem =>
    h.batches s points (List.mem_append_left _ hmem)

section Runs

variable (symbols : List String) (capital : ℚ) (limits : RiskLimits)
variable (configured : Bool)

/-- If `d` is the first trade of its symbol that the store takes, no candle
that is already retained is newer. -/
def FirstTradeInOrder (before : List DeskStep) (d : DeskStep) : Prop :=
  ∀ s price tsNs, d = .store (.onTrade s price tsNs) →
    Accepts s price → tape (storeCalls before) s = [] →
      ∀ q ∈ ((desk symbols capital limits configured
          before).store.points s).getLast?, q.tsNs ≤ tsNs

theorem tape_desk (ds : List DeskStep) (s : String) :
    Tape (storeCalls ds) s
      ((desk symbols capital limits configured ds).store.points s) := by
  induction ds using List.reverseRecOn with
  | nil =>
      exact tape_of_calls [] s
  | append_singleton ds d ih =>
      rw [storeCalls_concat, desk_concat, points_deskStep]
      cases d.storeCall with
      | none =>
          simpa using ih
      | some c =>
          exact ih.step c

/-- On an ordered tape only a first trade can be out of order. -/
theorem inOrder_iff_firstTradeInOrder
    {ds : List DeskStep} {d : DeskStep} (h : OrderedFeed (ds ++ [d])) :
    (∀ c, d.storeCall = some c →
        (desk symbols capital limits configured ds).store.InOrder c) ↔
      FirstTradeInOrder symbols capital limits configured ds d := by
  constructor
  · intro hin s price tsNs hd hacc _
    rw [hd] at hin
    exact hin _ rfl hacc
  · intro hfirst c hc
    cases c with
    | onTrade s price tsNs =>
        intro hacc
        have hd : d = .store (.onTrade s price tsNs) := by
          cases d with
          | store c =>
              rw [DeskStep.storeCall] at hc
              rw [Option.some.inj hc]
          | _ =>
              cases hc
        by_cases hnil : tape (storeCalls ds) s = []
        · exact hfirst s price tsNs hd hacc hnil
        · have hsorted := h.trades s
          rw [storeCalls_concat, hd, DeskStep.storeCall,
            Option.toList_some, tape_append] at hsorted
          rw [acceptedPoint, if_pos ⟨rfl, hacc⟩] at hsorted
          exact (tape_desk symbols capital limits configured ds s).inOrder
            hnil hsorted
    | _ =>
        trivial

/-- The histories are in order all along a run exactly when its first trades
are. -/
theorem allOldestFirst_iff
    {ds : List DeskStep} (h : OrderedFeed ds) :
    (∀ before, before <+: ds →
        (desk symbols capital limits configured
          before).store.AllOldestFirst) ↔
      ∀ before d, before ++ [d] <+: ds →
        FirstTradeInOrder symbols capital limits configured before d := by
  induction ds using List.reverseRecOn with
  | nil =>
      constructor
      · intro _ before d hpre
        simp at hpre
      · intro _ before hpre
        rw [List.prefix_nil.mp hpre]
        exact fun s => List.Pairwise.nil
  | append_singleton ds d ih =>
      rw [forall_prefix_concat, forall_step_concat, ih h.of_concat]
      refine and_congr_right fun hfirst => ?_
      have hbefore := (ih h.of_concat).mpr hfirst ds List.prefix_rfl
      rw [← inOrder_iff_firstTradeInOrder symbols capital limits configured
        h, desk_concat, AllOldestFirst]
      simp only [points_deskStep]
      cases hd : d.storeCall with
      | none =>
          refine ⟨fun _ c hc => ?_, fun _ => hbefore⟩
          cases hc
      | some c =>
          have hbatch : SortedBatch c := by
            cases d with
            | store c' =>
                rw [DeskStep.storeCall, Option.some.injEq] at hd
                subst hd
                cases c' with
                | backfillHistory s points =>
                    exact h.batches s points (by simp)
                | _ =>
                    trivial
            | _ =>
                cases hd
          simp only [Option.elim_some, Option.some.injEq, forall_eq']
          exact allOldestFirst_applyCall_iff hbefore hbatch

/-- What holds of all reads in a run holds of its chart. -/
theorem cryptoChart_desk
    {P : List PricePoint → Prop} {ds : List DeskStep} (hnil : P [])
    (h : ∀ before, before <+: ds → ∀ s n,
      P ((desk symbols capital limits configured before).store.history
        s n)) :
    CryptoChart P (desk symbols capital limits configured ds) := by
  induction ds using List.reverseRecOn with
  | nil =>
      exact .of_nil hnil rfl
  | append_singleton ds d ih =>
      obtain ⟨hbefore, _⟩ := (forall_prefix_concat ds d).mp h
      rw [desk_concat]
      exact (ih hbefore).step hnil (hbefore ds List.prefix_rfl)
        (chartStep _ d)

theorem stampsFit_part
    {before ds : List DeskStep} (h : StampsFit (storeCalls ds))
    (hpre : before <+: ds) : StampsFit (storeCalls before) :=
  fun c hc => h c ((hpre.filterMap DeskStep.storeCall).subset hc)

/-- The chart shows time stamps of the calls. -/
theorem chartFits_desk
    {ds : List DeskStep} (h : StampsFit (storeCalls ds)) :
    CryptoChart (∀ p ∈ ·, FitsInt64 p.tsNs)
      (desk symbols capital limits configured ds) := by
  refine cryptoChart_desk symbols capital limits configured (by simp) ?_
  intro before hpre s n p hp
  rw [history_eq] at hp
  exact (tape_desk symbols capital limits configured before s).fits
    (stampsFit_part h hpre) p ((rtake_suffix _ _).subset hp)

/-- **When the chart is oldest first.**  With trades and batches in order,
every read of a history is oldest first in every state of a run, and the ages
of a published crypto chart are not positive and end at 0, exactly when the
first trade of each symbol is not older than a candle that was backfilled
before it, and no crypto chart spans more than 64 bits of nanoseconds. -/
theorem chart_oldest_first_iff
    {ds : List DeskStep} (h : OrderedFeed ds)
    (hfits : StampsFit (storeCalls ds)) :
    (∀ before, before <+: ds →
        ChartOldestFirst (desk symbols capital limits configured before)) ↔
      (∀ before d, before ++ [d] <+: ds →
        FirstTradeInOrder symbols capital limits configured before d) ∧
      ∀ before, before <+: ds →
        AgesFit (desk symbols capital limits configured before) := by
  rw [← allOldestFirst_iff symbols capital limits configured h]
  have hiff : (∀ before, before <+: ds →
      (desk symbols capital limits configured
        before).store.AllOldestFirst) → ∀ before, before <+: ds →
      (ChartOldestFirst (desk symbols capital limits configured before) ↔
        AgesFit (desk symbols capital limits configured before)) := by
    intro hstore before hpre
    refine chartOldestFirst_iff_agesFit (hstore before hpre) ?_
      (chartFits_desk symbols capital limits configured
        (stampsFit_part hfits hpre))
    refine cryptoChart_desk symbols capital limits configured
      List.Pairwise.nil ?_
    intro earlier hearlier
    exact (hstore earlier (hearlier.trans hpre)).history
  constructor
  · intro hchart
    have hstore : ∀ before, before <+: ds →
        (desk symbols capital limits configured
          before).store.AllOldestFirst :=
      fun before hpre => (hchart before hpre).allOldestFirst
    refine ⟨hstore, fun before hpre => ?_⟩
    exact (hiff hstore before hpre).mp (hchart before hpre)
  · rintro ⟨hstore, hages⟩ before hpre
    exact (hiff hstore before hpre).mpr (hages before hpre)

end Runs

/-- A candle fills the empty history, then a trade of time `tsNs` comes, and
the chart is read and published. -/
def candleThenTrade (tsNs : Int) : List DeskStep :=
  [.store (.backfillHistory "BTC-USD" [{ tsNs := 60, price := 1 }]),
    .store (.onTrade "BTC-USD" 2 tsNs),
    .engine (.refreshHistory 0) trivial]

theorem orderedFeed_candleThenTrade (tsNs : Int) :
    OrderedFeed (candleThenTrade tsNs) where
  trades := by
    intro s
    have hcalls : storeCalls (candleThenTrade tsNs) =
        [.backfillHistory "BTC-USD" [{ tsNs := 60, price := 1 }],
          .onTrade "BTC-USD" 2 tsNs] := rfl
    rw [hcalls, tape, List.filterMap_cons_none rfl, List.filterMap_cons]
    cases acceptedPoint s (.onTrade "BTC-USD" 2 tsNs) with
    | none =>
        exact List.Pairwise.nil
    | some p =>
        exact List.pairwise_singleton _ _
  batches := by
    intro s points hmem
    simp only [candleThenTrade, List.mem_cons, DeskStep.store.injEq,
      StoreCall.backfillHistory.injEq, reduceCtorEq, List.not_mem_nil,
      or_false] at hmem
    rw [hmem.2]
    exact List.pairwise_singleton _ _

theorem stampsFit_candleThenTrade {tsNs : Int} (h : FitsInt64 tsNs) :
    StampsFit (storeCalls (candleThenTrade tsNs)) := by
  have hcalls : storeCalls (candleThenTrade tsNs) =
      [.backfillHistory "BTC-USD" [{ tsNs := 60, price := 1 }],
        .onTrade "BTC-USD" 2 tsNs] := rfl
  rw [hcalls]
  simp only [StampsFit, List.forall_mem_cons, stamps, List.map_cons,
    List.map_nil, List.not_mem_nil, false_implies, implies_true, and_true]
  exact ⟨by decide, h⟩

/-- A trade that is newer than the candle leaves the chart in order. -/
theorem chart_oldest_first_newer_trade :
    ChartOldestFirst
      (desk ["BTC-USD"] 0 {} false (candleThenTrade 61)) := by
  refine (chart_oldest_first_iff ["BTC-USD"] 0 {} false
    (orderedFeed_candleThenTrade 61)
    (stampsFit_candleThenTrade (by decide))).mpr ⟨?_, ?_⟩ _ List.prefix_rfl
  · intro before d hpre s price tsNs hd hacc hnil q hq
    subst hd
    rcases before with _ | ⟨a, _ | ⟨b, rest⟩⟩
    · simp [candleThenTrade] at hpre
    · simp only [candleThenTrade, List.cons_append, List.nil_append,
        List.cons_prefix_cons, List.nil_prefix, and_true,
        DeskStep.store.injEq, StoreCall.onTrade.injEq] at hpre
      obtain ⟨rfl, rfl, rfl, rfl⟩ := hpre
      have hpoints : (desk ["BTC-USD"] 0 {} false
          [.store (.backfillHistory "BTC-USD"
            [{ tsNs := 60, price := 1 }])]).store.points "BTC-USD" =
          [{ tsNs := 60, price := 1 }] := by
        decide +kernel
      rw [hpoints] at hq
      obtain rfl := Option.some.inj hq
      decide
    · simp only [candleThenTrade, List.cons_append, List.cons_prefix_cons]
        at hpre
      obtain ⟨_, _, hpre⟩ := hpre
      cases rest <;> simp at hpre
  · intro before hpre
    have hall : ∀ before ∈ (candleThenTrade 61).inits,
        AgesFit (desk ["BTC-USD"] 0 {} false before) := by
      decide +kernel
    exact hall before ((List.mem_inits before _).mpr hpre)

/-- A trade that is older than the candle is charted behind it. -/
theorem late_trade_charted_last :
    OrderedFeed (candleThenTrade 59) ∧
      (desk ["BTC-USD"] 0 {} false
          (candleThenTrade 59)).store.history "BTC-USD" 2 =
        [{ tsNs := 60, price := 1 }, { tsNs := 59, price := 2 }] ∧
      (desk ["BTC-USD"] 0 {} false
          (candleThenTrade 59)).publish.view.priceAgeS =
        [1 / 10 ^ 9, 0] ∧
      ¬ ChartOldestFirst
        (desk ["BTC-USD"] 0 {} false (candleThenTrade 59)) := by
  have hhistory : (desk ["BTC-USD"] 0 {} false
      (candleThenTrade 59)).store.history "BTC-USD" 2 =
        [{ tsNs := 60, price := 1 }, { tsNs := 59, price := 2 }] := by
    decide +kernel
  refine ⟨orderedFeed_candleThenTrade 59, hhistory, by decide +kernel, ?_⟩
  intro h
  have hsorted := h.history "BTC-USD" 2
  rw [hhistory] at hsorted
  revert hsorted
  decide

end TradingEngine

end ExecutionLayer
