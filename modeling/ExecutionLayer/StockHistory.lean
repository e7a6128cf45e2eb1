import ExecutionLayer.AlpacaClient
import ExecutionLayer.ChartHistory
import ExecutionLayer.Library.Calendar
import ExecutionLayer.StockPoller

/-!
# The chart series of a stock

The series of a stock begins with the bars of one request and goes on with a
sample for every poll.  A bar whose time cannot be read keeps its place among
the others and is stamped 0, the beginning of 1970.

Once the bars of a symbol have been stored, the poller never asks for them
again, and what it retains are the last points of bars and samples
(`Sampling`).  So as long as samples come in order and behind the bars, the
series is in order exactly when the retained bars are.  For bars that stand at
their own times this is so exactly when every bar without a time stands where
the beginning of 1970 belongs, and a bar stands at its own time exactly when
64 bits hold the nanoseconds (`history_oldest_first_iff`).
-/

namespace ExecutionLayer

open AlpacaClient Calendar FiniteMap JsonLib MachineInt MarketStore
open StepSystem Window

namespace StockFeed

theorem trim_eq (h : List PricePoint) :
    trim h = h.rtake kHistoryCap := by
  rfl

/-- The sample of a quote for the series of `s`. -/
def sample (s : String) (e : String × Quote) : Option PricePoint :=
  if e.1 = s ∧ 0 < chartPrice e.2 then
    some { tsNs := e.2.tsNs, price := chartPrice e.2 }
  else none

/-- The last points of a stream are retained. -/
def Retains (stocks : StockFeed) (s : String) (all : List PricePoint) :
    Prop :=
  stocks.history s = all.rtake kHistoryCap

section Updates

variable {stocks : StockFeed} {s : String} {all : List PricePoint}

theorem storeQuote_histories
    (stocks : StockFeed) (symbol : String) (q : Quote) :
    (stocks.storeQuote symbol q).histories =
      if 0 < chartPrice q then
        stocks.histories.insert symbol
          (List.rtake
            (stocks.history symbol ++
              [{ tsNs := q.tsNs, price := chartPrice q }]) kHistoryCap)
      else stocks.histories := by
  rfl

theorem Retains.storeQuote
    (h : stocks.Retains s all) (e : String × Quote) :
    (stocks.storeQuote e.1 e.2).Retains s (all ++ (sample s e).toList) := by
  unfold Retains at h ⊢
  rw [history, storeQuote_histories, sample]
  by_cases hprice : 0 < chartPrice e.2
  · by_cases hs : e.1 = s
    · rw [if_pos hprice, if_pos ⟨hs, hprice⟩, hs, lookupD_insert_self, h,
        rtake_rtake_append]
      rfl
    · rw [if_pos hprice, if_neg fun hc => hs hc.1,
        lookupD_insert_of_ne _ _ _ (Ne.symm hs), Option.toList_none,
        List.append_nil, ← h]
      rfl
  · rw [if_neg hprice, if_neg fun hc => hprice hc.2, Option.toList_none,
      List.append_nil, ← h]
    rfl

theorem Retains.storeQuotes
    (h : stocks.Retains s all) (fresh : List (String × Quote))
    (lastError : String) :
    (stocks.storeQuotes fresh lastError).Retains s
      (all ++ fresh.filterMap (sample s)) := by
  unfold StockFeed.storeQuotes
  split_ifs with hfresh
  · rw [hfresh, List.filterMap_nil, List.append_nil]
    exact h
  · clear hfresh
    induction fresh generalizing stocks all with
    | nil =>
        rw [List.filterMap_nil, List.append_nil]
        exact h
    | cons e fresh ih =>
        have hnext := ih (h.storeQuote e)
        rw [List.foldl_cons]
        cases he : sample s e with
        | none =>
            rw [he, Option.toList_none, List.append_nil] at hnext
            rw [List.filterMap_cons_none he]
            exact hnext
        | some x =>
            rw [he, Option.toList_some, List.append_assoc] at hnext
            rw [List.filterMap_cons_some he]
            exact hnext

theorem history_storeBars
    (stocks : StockFeed) (s : String) (bars : List PricePoint)
    (lastError : String) :
    (stocks.storeBars s bars lastError).history s =
      (bars ++ stocks.history s).rtake kHistoryCap := by
  unfold storeBars history
  rw [lookupD_insert_self, trim_eq]
  split_ifs <;> rfl

theorem history_storeBars_of_ne
    (stocks : StockFeed) {s sym : String} (hs : s ≠ sym)
    (bars : List PricePoint) (lastError : String) :
    (stocks.storeBars sym bars lastError).history s =
      stocks.history s := by
  unfold storeBars history
  rw [lookupD_insert_of_ne _ _ _ hs]
  split_ifs <;> rfl

theorem history_watch (stocks : StockFeed) (symbol s : String) :
    (stocks.watch symbol).history s = stocks.history s := by
  unfold watch
  split_ifs <;> rfl

end Updates

end StockFeed

/-- The samples that a step takes for the series of `s`. -/
def StockStep.samples (s : String) : StockStep → List PricePoint
  | .gotQuotes fresh _ => fresh.filterMap (StockFeed.sample s)
  | _ => []

/-- The times that the quotes of a step are stamped with. -/
def StockStep.stamps : StockStep → List Int
  | .gotQuotes fresh _ => fresh.map fun e => e.2.tsNs
  | _ => []

namespace StockPoller

/-- The bars of `s` have been stored, and the series goes on with samples. -/
structure Sampling (s : String) (all : List PricePoint) (p : StockPoller) :
    Prop where
  backfilled : s ∈ p.backfilled
  elsewhere : ∀ syms needName todo,
    p.phase ≠ .backfilling syms s needName todo
  retains : p.feed.Retains s all

/-- A step that leaves series, bookkeeping and phase class alone. -/
theorem Sampling.kept
    {s : String} {all : List PricePoint} {p q : StockPoller}
    (h : p.Sampling s all) (hbackfilled : p.backfilled ⊆ q.backfilled)
    (helsewhere : ∀ syms needName todo,
      q.phase ≠ .backfilling syms s needName todo)
    (hhistory : q.feed.history s = p.feed.history s) :
    q.Sampling s (all ++ []) := by
  refine ⟨hbackfilled h.backfilled, helsewhere, ?_⟩
  rw [List.append_nil]
  exact hhistory.trans h.retains

theorem Sampling.moved
    {s : String} {all : List PricePoint} {p q : StockPoller}
    {a : StockStep} (h : p.Sampling s all) (hstep : p.step a = some q) :
    q.Sampling s (all ++ a.samples s) := by
  cases step_moved hstep with
  | pass duration =>
      exact h.kept (Finset.Subset.refl _) h.elsewhere rfl
  | watch symbol =>
      exact h.kept (Finset.Subset.refl _) h.elsewhere
        (p.feed.history_watch symbol s)
  | drainErrors =>
      exact h.kept (Finset.Subset.refl _) h.elsewhere rfl
  | sleep late phase early =>
      exact h.kept (Finset.Subset.refl _) h.elsewhere rfl
  | prepared syms sym todo phase =>
      rcases p.prepare_cases syms sym todo with
        ⟨needName, hnew, heq⟩ | heq | heq
      · -- the bars of `s` have been stored
        have hne : sym ≠ s := fun hs => hnew (hs ▸ h.backfilled)
        rw [heq]
        refine h.kept (Finset.Subset.refl _) ?_ rfl
        intro _ _ _ hphase
        exact hne (PollPhase.backfilling.inj hphase).2.1
      · rw [heq]
        exact h.kept (Finset.Subset.refl _) (by simp) rfl
      · rw [heq]
        exact h.kept (Finset.Subset.refl _) (by simp) rfl
  | gotBars syms sym needName todo bars lastError phase =>
      have hne : s ≠ sym := by
        rintro rfl
        exact h.elsewhere _ _ _ phase
      refine h.kept (Finset.subset_insert _ _) ?_
        (p.feed.history_storeBars_of_ne hne bars lastError)
      intro _ _ _ hphase
      rcases p.storeBars_phase syms sym needName todo bars lastError with
        hnew | hnew
      · rw [hnew] at hphase
        cases hphase
      · rw [hnew] at hphase
        cases hphase
  | gotQuotes syms fresh lastError phase =>
      refine ⟨h.backfilled, ?_, h.retains.storeQuotes fresh lastError⟩
      intro _ _ _ hphase
      cases hphase
  | _ =>
      refine h.kept (Finset.Subset.refl _) ?_ rfl
      intro _ _ _ hphase
      cases hphase

/-- A run retains the last points of the bars and of all samples. -/
theorem Sampling.run
    {s : String} {all : List PricePoint} {p q : StockPoller}
    {bs : List StockStep} (h : p.Sampling s all)
    (hrun : exec step p bs = some q) :
    q.Sampling s (all ++ bs.flatMap (StockStep.samples s)) := by
  induction bs generalizing p all with
  | nil =>
      obtain rfl := Option.some.inj hrun
      rw [List.flatMap_nil, List.append_nil]
      exact h
  | cons b bs ih =>
      obtain ⟨r, hstep, hrest⟩ := (exec_cons_eq_some step).mp hrun
      rw [List.flatMap_cons, ← List.append_assoc]
      exact ih (h.moved hstep) hrest

/-- The bars go in front of the samples there may already be. -/
theorem sampling_gotBars
    (p : StockPoller) (syms : List String) (s : String) (needName : Bool)
    (todo : List String) (bars : List PricePoint) (lastError : String) :
    (p.storeBars syms s needName todo bars lastError).Sampling s
      (bars ++ p.feed.history s) := by
  refine ⟨Finset.mem_insert_self _ _, ?_,
    p.feed.history_storeBars s bars lastError⟩
  intro _ _ _ hphase
  rcases p.storeBars_phase syms s needName todo bars lastError with
    hnew | hnew
  · rw [hnew] at hphase
    cases hphase
  · rw [hnew] at hphase
    cases hphase

end StockPoller

/-! ### Samples in order -/

theorem samples_sublist_stamps (s : String) (a : StockStep) :
    ((a.samples s).map PricePoint.tsNs).Sublist a.stamps := by
  cases a with
  | gotQuotes fresh lastError =>
      simp only [StockStep.samples, StockStep.stamps]
      induction fresh with
      | nil =>
          exact List.Sublist.refl _
      | cons e fresh ih =>
          cases he : StockFeed.sample s e with
          | none =>
              rw [List.filterMap_cons_none he]
              exact ih.cons _
          | some x =>
              have hts : x.tsNs = e.2.tsNs := by
                unfold StockFeed.sample at he
                split_ifs at he
                rw [← Option.some.inj he]
              rw [List.filterMap_cons_some he, List.map_cons, hts]
              exact ih.cons_cons _
  | _ =>
      exact List.Sublist.refl _

theorem flatMap_samples_sublist_stamps (s : String) (bs : List StockStep) :
    ((bs.flatMap (StockStep.samples s)).map PricePoint.tsNs).Sublist
      (bs.flatMap StockStep.stamps) := by
  induction bs with
  | nil =>
      exact List.Sublist.refl _
  | cons b bs ih =>
      rw [List.flatMap_cons, List.flatMap_cons, List.map_append]
      exact (samples_sublist_stamps s b).append ih

/-- What a poll returns is made of an answer that was received at a time. -/
def StockStep.AnsweredAt (recv : Int) : StockStep → Prop
  | .gotQuotes fresh _ =>
      ∃ symbols response, fresh = latestQuotes recv symbols response
  | _ => True

theorem StockStep.AnsweredAt.stamps
    {recv : Int} {a : StockStep} (h : a.AnsweredAt recv) :
    ∀ t ∈ a.stamps, t = recv := by
  cases a with
  | gotQuotes fresh lastError =>
      obtain ⟨symbols, response, rfl⟩ := h
      intro t ht
      obtain ⟨e, he, rfl⟩ := List.mem_map.mp ht
      exact latestQuotes_tsNs recv symbols response e he
  | _ =>
      intro t ht
      cases ht

/-- Polls whose answers come one after the other are stamped in order. -/
theorem pairwise_stamps
    {steps : List (StockStep × Int)}
    (hanswers : ∀ a ∈ steps, a.1.AnsweredAt a.2)
    (hclock : (steps.map Prod.snd).Pairwise (· ≤ ·)) :
    ((steps.map Prod.fst).flatMap StockStep.stamps).Pairwise (· ≤ ·) := by
  rw [List.flatMap_map, List.pairwise_flatMap]
  refine ⟨?_, ?_⟩
  · intro a ha
    refine List.pairwise_of_forall_mem_list fun t ht u hu => ?_
    rw [(hanswers a ha).stamps t ht, (hanswers a ha).stamps u hu]
  · refine (List.pairwise_map.mp hclock).imp_of_mem
      fun {a b} ha hb hle t ht u hu => ?_
    rw [(hanswers a ha).stamps t ht, (hanswers b hb).stamps u hu]
    exact hle

/-- Points with samples in order behind them. -/
theorem oldestFirst_rtake_append
    {n : Nat} {points samples : List PricePoint}
    (hsamples : OldestFirst samples)
    (hlater : ∀ b ∈ points.rtake (n - samples.length), ∀ x ∈ samples,
      b.tsNs ≤ x.tsNs) :
    OldestFirst ((points ++ samples).rtake n) ↔
      OldestFirst (points.rtake (n - samples.length)) := by
  rw [rtake_append]
  constructor
  · intro h
    exact (List.pairwise_append.mp h).1
  · intro h
    refine List.pairwise_append.mpr ⟨h, hsamples.rtake n, ?_⟩
    intro b hb x hx
    exact hlater b hb x ((rtake_suffix n samples).subset hx)

/-! ### Bars without a time -/

section Bars

variable (timegm : Tm → Int)

instance (s : String) : Decidable (Parses timegm s) :=
  decidable_of_iff (∃ tm ∈ scanDate s, timegm tm ≠ -1)
    ⟨fun ⟨tm, htm, hne⟩ => ⟨tm, htm, hne⟩,
      fun ⟨tm, htm, hne⟩ => ⟨tm, htm, hne⟩⟩

/-- The bars that have a time are newest first. -/
def NewestFirst (bars : List Bar) : Prop :=
  bars.Pairwise fun a b => Parses timegm a.time → Parses timegm b.time →
    barNs timegm b.time ≤ barNs timegm a.time

/-- Of two bars of which one has no time, the other is on the right side of
the beginning of 1970. -/
def UntimedInPlace (bars : List Bar) : Prop :=
  bars.Pairwise fun a b =>
    (¬ Parses timegm a.time → Parses timegm b.time →
        barNs timegm b.time ≤ 0) ∧
      (Parses timegm a.time → ¬ Parses timegm b.time →
        0 ≤ barNs timegm a.time)

/-- The times of the bars have 64 bits. -/
def TimesFit (bars : List Bar) : Prop :=
  ∀ b ∈ bars, FitsInt64 (barNs timegm b.time)

instance (bars : List Bar) : Decidable (NewestFirst timegm bars) := by
  unfold NewestFirst
  infer_instance

instance (bars : List Bar) : Decidable (UntimedInPlace timegm bars) := by
  unfold UntimedInPlace
  infer_instance

instance (bars : List Bar) : Decidable (TimesFit timegm bars) := by
  unfold TimesFit
  infer_instance

/-- The point of a bar at the bar's own time. -/
def timedPoint (b : Bar) : PricePoint where
  tsNs := barNs timegm b.time
  price := b.close

variable {timegm}

/-- Bars are charted at their own times exactly when the times fit. -/
theorem map_point_eq_iff (bars : List Bar) :
    bars.map (Bar.point timegm) = bars.map (timedPoint timegm) ↔
      TimesFit timegm bars := by
  rw [List.map_inj_left, TimesFit]
  refine forall₂_congr fun b _ => ?_
  rw [← isoToNs_eq_barNs_iff, Bar.point, timedPoint, PricePoint.mk.injEq]
  exact and_iff_left rfl

theorem oldestFirst_timedPoints_iff
    {bars : List Bar} (h : NewestFirst timegm bars) :
    OldestFirst (bars.map (timedPoint timegm)).reverse ↔
      UntimedInPlace timegm bars := by
  rw [OldestFirst, List.pairwise_reverse, List.pairwise_map]
  constructor
  · intro hsorted
    refine hsorted.imp fun {a b} hle => ⟨fun ha _ => ?_, fun _ hb => ?_⟩
    · rw [← barNs_of_not_parses ha]
      exact hle
    · rw [← barNs_of_not_parses hb]
      exact hle
  · intro huntimed
    refine (h.and huntimed).imp fun {a b} hab => ?_
    change barNs timegm b.time ≤ barNs timegm a.time
    by_cases ha : Parses timegm a.time
    · by_cases hb : Parses timegm b.time
      · exact hab.1 ha hb
      · rw [barNs_of_not_parses hb]
        exact hab.2.2 ha hb
    · by_cases hb : Parses timegm b.time
      · rw [barNs_of_not_parses ha]
        exact hab.2.1 ha hb
      · rw [barNs_of_not_parses ha, barNs_of_not_parses hb]

/-- The bars that are retained are the first of the response. -/
theorem rtake_map_reverse (f : Bar → PricePoint) (bars : List Bar) (n : Nat) :
    ((bars.map f).reverse).rtake n = ((bars.take n).map f).reverse := by
  rw [List.rtake_eq_reverse_take_reverse, List.reverse_reverse, List.map_take]

theorem NewestFirst.take
    {bars : List Bar} (h : NewestFirst timegm bars) (n : Nat) :
    NewestFirst timegm (bars.take n) :=
  h.sublist (List.take_sublist n bars)

theorem TimesFit.take
    {bars : List Bar} (h : TimesFit timegm bars) (n : Nat) :
    TimesFit timegm (bars.take n) :=
  fun b hb => h b ((List.take_sublist n bars).subset hb)

end Bars

namespace StockPoller

/-- The minutes that a backfill asks for. -/
def kBackfillMinutes : Int := 480

section Backfill

variable (timegm : Tm → Int) (response : Option Json) (lastError : String)

/-- The answer to a backfill. -/
def barsStep : StockStep :=
  .gotBars (recentMinuteBars timegm kBackfillMinutes response) lastError

/-- In every state since the backfill, the series is in order and within its
bound. -/
def SeriesInOrder (p : StockPoller) (s : String) (bs : List StockStep) :
    Prop :=
  ∀ before q, before <+: bs →
    exec step p (barsStep timegm response lastError :: before) = some q →
      OldestFirst (q.feed.history s) ∧
        (q.feed.history s).length ≤ StockFeed.kHistoryCap

/-- The last points of bars, samples that were there before them, and samples
that follow; `point` makes a point of a bar. -/
def seriesBy (point : Bar → PricePoint) (p : StockPoller) (s : String)
    (before : List StockStep) : List PricePoint :=
  List.rtake
    (((returnedBars response).map point).reverse ++
      (p.feed.history s ++ before.flatMap (StockStep.samples s)))
    StockFeed.kHistoryCap

/-- In every state since the backfill, the bars stand at their own times. -/
def BarsInPlace (p : StockPoller) (s : String) (bs : List StockStep) : Prop :=
  ∀ before q, before <+: bs →
    exec step p (barsStep timegm response lastError :: before) = some q →
      q.feed.history s = seriesBy response (timedPoint timegm) p s before

/-- The bars that are among the last points. -/
def retainedBars (p : StockPoller) (s : String) (before : List StockStep) :
    List Bar :=
  (returnedBars response).take (StockFeed.kHistoryCap -
    (p.feed.history s ++ before.flatMap (StockStep.samples s)).length)

/-- The times of the polls: of the samples that were there before the bars,
and of the quotes that follow. -/
def polled (p : StockPoller) (s : String) (bs : List StockStep) : List Int :=
  (p.feed.history s).map PricePoint.tsNs ++ bs.flatMap StockStep.stamps

theorem polled_sublist
    (p : StockPoller) (s : String) {before bs : List StockStep}
    (hpre : before <+: bs) :
    ((p.feed.history s ++ before.flatMap (StockStep.samples s)).map
      PricePoint.tsNs).Sublist (p.polled s bs) := by
  obtain ⟨rest, rfl⟩ := hpre
  rw [polled, List.map_append, List.flatMap_append]
  exact (List.Sublist.refl _).append
    ((flatMap_samples_sublist_stamps s before).trans
      (List.sublist_append_left _ _))

/-- The bars go in front, the newest ones as far as there is room. -/
theorem seriesBy_eq
    (point : Bar → PricePoint) (p : StockPoller) (s : String)
    (before : List StockStep) :
    seriesBy response point p s before =
      ((retainedBars response p s before).map point).reverse ++
        List.rtake
          (p.feed.history s ++ before.flatMap (StockStep.samples s))
          StockFeed.kHistoryCap := by
  rw [seriesBy, rtake_append, rtake_map_reverse, retainedBars]

/-- What is retained later was retained at first. -/
theorem retainedBars_take
    (p : StockPoller) (s : String) (before : List StockStep) :
    ∃ n, retainedBars response p s before =
      (retainedBars response p s []).take n := by
  refine ⟨StockFeed.kHistoryCap -
    (p.feed.history s ++ before.flatMap (StockStep.samples s)).length, ?_⟩
  rw [retainedBars, retainedBars, List.take_take, Nat.min_eq_left]
  rw [List.flatMap_nil, List.append_nil, List.length_append]
  omega

/-- With the samples up to some point of the run behind them, it is the bars
that are in order or not. -/
theorem oldestFirst_seriesBy_iff
    {p : StockPoller} {s : String} {before bs : List StockStep}
    (hpre : before <+: bs)
    (hnewest : NewestFirst timegm (returnedBars response))
    (hstamps : (p.polled s bs).Pairwise (· ≤ ·))
    (hlater : ∀ b ∈ returnedBars response, ∀ t ∈ p.polled s bs,
      barNs timegm b.time ≤ t) :
    OldestFirst (seriesBy response (timedPoint timegm) p s before) ↔
      UntimedInPlace timegm (retainedBars response p s before) := by
  have hsub := polled_sublist p s hpre
  rw [seriesBy, oldestFirst_rtake_append, rtake_map_reverse,
    oldestFirst_timedPoints_iff (hnewest.take _), retainedBars]
  · exact List.pairwise_map.mp (hstamps.sublist hsub)
  · intro x hx y hy
    obtain ⟨b, hb, rfl⟩ := List.mem_map.mp
      (List.mem_reverse.mp ((rtake_suffix _ _).subset hx))
    exact hlater b hb y.tsNs (hsub.subset (List.mem_map_of_mem hy))

section Run

variable {p : StockPoller} {syms : List String} {s : String}
variable {needName : Bool} {todo : List String}

/-- The bars go in front of the samples there may already be, and the samples
that follow behind. -/
theorem history_since_bars
    (hphase : p.phase = .backfilling syms s needName todo)
    {before : List StockStep} {q : StockPoller}
    (hexec : exec step p (barsStep timegm response lastError :: before) =
      some q) :
    q.feed.history s = seriesBy response (Bar.point timegm) p s before := by
  obtain ⟨r, hr, hrest⟩ := (exec_cons_eq_some step).mp hexec
  have hbars : p.step (barsStep timegm response lastError) =
      some (p.storeBars syms s needName todo
        (recentMinuteBars timegm kBackfillMinutes response) lastError) := by
    simp only [barsStep, step, hphase]
  obtain rfl := Option.some.inj (hbars.symm.trans hr)
  have hretains := ((sampling_gotBars p syms s needName todo
    (recentMinuteBars timegm kBackfillMinutes response) lastError).run
      hrest).retains
  have hminutes : 0 < kBackfillMinutes := by decide
  rw [hretains, recentMinuteBars_eq timegm hminutes, List.append_assoc,
    seriesBy]

theorem exists_barsStep
    (hphase : p.phase = .backfilling syms s needName todo) :
    ∃ q, exec step p [barsStep timegm response lastError] = some q := by
  refine ⟨_, (exec_cons_eq_some step).mpr ⟨p.storeBars syms s needName todo
    (recentMinuteBars timegm kBackfillMinutes response) lastError, ?_, rfl⟩⟩
  simp only [barsStep, step, hphase]

/-- The bars stand at their own times exactly when the times fit. -/
theorem barsInPlace_iff
    (hphase : p.phase = .backfilling syms s needName todo)
    (bs : List StockStep) :
    BarsInPlace timegm response lastError p s bs ↔
      TimesFit timegm (retainedBars response p s []) := by
  constructor
  · intro h
    obtain ⟨q, hq⟩ := exists_barsStep timegm response lastError hphase
    have heq :=
      (history_since_bars timegm response lastError hphase hq).symm.trans
        (h [] q List.nil_prefix hq)
    rw [seriesBy_eq, seriesBy_eq, List.append_left_inj,
      List.reverse_inj] at heq
    exact (map_point_eq_iff _).mp heq
  · intro hfit before q _ hexec
    obtain ⟨n, hn⟩ := retainedBars_take response p s before
    rw [history_since_bars timegm response lastError hphase hexec,
      seriesBy_eq, seriesBy_eq, (map_point_eq_iff _).mpr (hn ▸ hfit.take n)]

/-- Of bars whose times fit, the series is in order exactly when the bars
without a time are in place. -/
theorem seriesInOrder_iff
    {bs : List StockStep}
    (hphase : p.phase = .backfilling syms s needName todo)
    (hnewest : NewestFirst timegm (returnedBars response))
    (hstamps : (p.polled s bs).Pairwise (· ≤ ·))
    (hlater : ∀ b ∈ returnedBars response, ∀ t ∈ p.polled s bs,
      barNs timegm b.time ≤ t)
    (hfit : TimesFit timegm (retainedBars response p s [])) :
    SeriesInOrder timegm response lastError p s bs ↔
      UntimedInPlace timegm (retainedBars response p s []) := by
  have hplaced :=
    (barsInPlace_iff timegm response lastError hphase bs).mpr hfit
  constructor
  · intro h
    obtain ⟨q, hq⟩ := exists_barsStep timegm response lastError hphase
    have hsorted := (h [] q List.nil_prefix hq).1
    rw [hplaced [] q List.nil_prefix hq] at hsorted
    exact (oldestFirst_seriesBy_iff timegm response List.nil_prefix hnewest
      hstamps hlater).mp hsorted
  · intro huntimed before q hpre hexec
    rw [hplaced before q hpre hexec]
    constructor
    · obtain ⟨n, hn⟩ := retainedBars_take response p s before
      rw [oldestFirst_seriesBy_iff timegm response hpre hnewest hstamps
        hlater, hn]
      exact huntimed.sublist (List.take_sublist n _)
    · rw [seriesBy, length_rtake]
      exact min_le_left _ _

/-- **The series of a stock is oldest first, with every bar at its own time,
exactly when the times fit and the bars without a time are in place.**  The
bars of a response whose times can be read are newest first; the polls, in
whatever run of the poller, are stamped in order and not before the bars.  If
the times fit, the order alone depends on the bars without a time alone. -/
theorem history_oldest_first_iff
    {bs : List StockStep}
    (hphase : p.phase = .backfilling syms s needName todo)
    (hnewest : NewestFirst timegm (returnedBars response))
    (hstamps : (p.polled s bs).Pairwise (· ≤ ·))
    (hlater : ∀ b ∈ returnedBars response, ∀ t ∈ p.polled s bs,
      barNs timegm b.time ≤ t) :
    (SeriesInOrder timegm response lastError p s bs ∧
        BarsInPlace timegm response lastError p s bs ↔
      TimesFit timegm (retainedBars response p s []) ∧
        UntimedInPlace timegm (retainedBars response p s [])) ∧
      (TimesFit timegm (retainedBars response p s []) →
        (SeriesInOrder timegm response lastError p s bs ↔
          UntimedInPlace timegm (retainedBars response p s []))) := by
  have horder := seriesInOrder_iff timegm response lastError hphase hnewest
    hstamps hlater
  refine ⟨?_, horder⟩
  rw [barsInPlace_iff timegm response lastError hphase bs, and_comm]
  exact and_congr_right horder

end Run

end Backfill

/-- `timegm` on dates of the calendar. -/
def utcSeconds (tm : Tm) : Int :=
  ((daysFromCivil (tm.year + 1900) (tm.mon + 1) tm.mday * 24 + tm.hour) * 60 +
    tm.min) * 60 + tm.sec

/-- The beginning of 2000, with a fraction of a second. -/
example : isoToNs utcSeconds "2000-01-01T00:00:00.5Z" =
    946684800 * 10 ^ 9 := by
  decide +kernel

/-- A bar as the provider sends it. -/
def barAt (time : String) : Json :=
  .object [("c", .numberFloat 10), ("t", .string time)]

def responseOf (times : List String) : Option Json :=
  some (.object [("bars", .array (times.map barAt))])

/-- An answer to a poll. -/
def quotesOfX : Option Json :=
  some (.object [("quotes",
    .object [("X", .object [("bp", .numberFloat 10)])])])

/-- The poller up to its first backfill. -/
def untilBackfill : List StockStep :=
  [.wake, .copySymbols, .nextSymbol]

theorem exists_untilBackfill :
    ∃ p, exec step (start { symbols := ["X"] } 0) untilBackfill = some p ∧
      p.phase = .backfilling ["X"] "X" true [] ∧
      p.feed.history "X" = [] := by
  have hstate : (exec step (start { symbols := ["X"] } 0)
      untilBackfill).map (fun p => (p.phase, p.feed.history "X")) =
        some (.backfilling ["X"] "X" true [], []) := by
    decide +kernel
  obtain ⟨p, hrun, hp⟩ := Option.map_eq_some_iff.mp hstate
  exact ⟨p, hrun, (Prod.mk.inj hp).1, (Prod.mk.inj hp).2⟩

/-- The oldest bar has no time, and a poll follows. -/
theorem history_oldest_first_untimed_last :
    ∃ p, exec step (start { symbols := ["X"] } 0) untilBackfill = some p ∧
      SeriesInOrder utcSeconds
        (responseOf ["2026-08-10T17:17:00Z", "2026-08-10T17:16:00Z", ""])
        "" p "X"
        [.gotName "", .askQuotes,
          .gotQuotes (latestQuotes (2 * 10 ^ 18) ["X"] quotesOfX) ""] := by
  obtain ⟨p, hrun, hphase, hempty⟩ := exists_untilBackfill
  have hnil : retainedBars
      (responseOf ["2026-08-10T17:17:00Z", "2026-08-10T17:16:00Z", ""])
      p "X" [] = returnedBars
        (responseOf ["2026-08-10T17:17:00Z", "2026-08-10T17:16:00Z", ""]) := by
    rw [retainedBars, hempty]
    decide +kernel
  refine ⟨p, hrun, ((history_oldest_first_iff utcSeconds _ "" hphase
    ?_ ?_ ?_).1.mpr ⟨?_, ?_⟩).1⟩
  · decide +kernel
  · rw [polled, hempty]
    exact @pairwise_stamps
      [(.gotName "", 0), (.askQuotes, 0),
        (.gotQuotes (latestQuotes (2 * 10 ^ 18) ["X"] quotesOfX) "",
          2 * 10 ^ 18)]
      (by simp [StockStep.AnsweredAt]) (by decide)
  · rw [polled, hempty]
    decide +kernel
  · rw [hnil]
    decide +kernel
  · rw [hnil]
    decide +kernel

/-- A bar in the middle has no time, and the series goes from 2026 back to
1970. -/
theorem untimed_bar_displaces_points :
    ∃ p, exec step (start { symbols := ["X"] } 0) untilBackfill = some p ∧
      p.phase = .backfilling ["X"] "X" true [] ∧
      p.feed.history "X" = [] ∧
      NewestFirst utcSeconds (returnedBars
        (responseOf ["2026-08-10T17:17:00Z", "", "2026-08-10T17:16:00Z"])) ∧
      (exec step p [barsStep utcSeconds
        (responseOf ["2026-08-10T17:17:00Z", "", "2026-08-10T17:16:00Z"])
        ""]).map (fun q => (q.feed.history "X").map PricePoint.tsNs) =
          some [1786382160 * 10 ^ 9, 0, 1786382220 * 10 ^ 9] ∧
      ¬ SeriesInOrder utcSeconds
        (responseOf ["2026-08-10T17:17:00Z", "", "2026-08-10T17:16:00Z"])
        "" p "X" [] := by
  obtain ⟨p, hrun, hphase, hempty⟩ := exists_untilBackfill
  have hseries : (exec step (start { symbols := ["X"] } 0)
      (untilBackfill ++ [barsStep utcSeconds
        (responseOf ["2026-08-10T17:17:00Z", "", "2026-08-10T17:16:00Z"])
        ""])).map (fun q => (q.feed.history "X").map PricePoint.tsNs) =
          some [1786382160 * 10 ^ 9, 0, 1786382220 * 10 ^ 9] := by
    decide +kernel
  rw [exec_append, hrun, Option.bind_some] at hseries
  refine ⟨p, hrun, hphase, hempty, by decide +kernel, hseries, fun h => ?_⟩
  obtain ⟨q, hq, hts⟩ := Option.map_eq_some_iff.mp hseries
  have hsorted := List.pairwise_map.mpr (h [] q List.prefix_rfl hq).1
  rw [hts] at hsorted
  exact absurd hsorted (by decide)

end StockPoller

end ExecutionLayer
