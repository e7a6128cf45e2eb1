import ExecutionLayer.ChartHistory
import ExecutionLayer.WireFormat

/-!
# Batches of ticks

`BaseFeedHandler` of `base.py` collects trades and quotes in two buffers and
ships each buffer as one message, when it is full, on a timer, and once more
at the end.  A flush therefore sends the trades ahead of quotes that were
emitted before them.

The terminal does not see the difference: a flush keeps the order within each
of the two streams (`Ships`), and a trade and a quote write different parts of
the store (`onTrade_onQuote`).  So the store is the one that the single ticks
would have produced (`batched_pipeline_eq_ticks`).
-/

namespace ExecutionLayer

open Framing JsonLib JsonLib.Json StepSystem

/-! ### The handler -/

/-- A normalized tick. -/
inductive Tick where
  | trade (t : FeedTrade)
  | quote (q : FeedQuote)
deriving DecidableEq, Repr

/-- `BaseFeedHandler`, as far as the flush machinery goes. -/
structure BaseFeedHandler where
  maxBuffer : Nat
  session : Session
  trades : List FeedTrade := []
  quotes : List FeedQuote := []
  totalTrades : Nat := 0
  totalQuotes : Nat := 0

namespace BaseFeedHandler

/-- A call returns or raises; the handler is kept in both cases. -/
abbrev Called := Except PyError Unit × BaseFeedHandler

/-- The buffer is swapped out before it is published. -/
def flushTrades (h : BaseFeedHandler) : Called :=
  if h.trades = [] then (.ok (), h)
  else
    match FeedPublisher.publishTrades h.trades h.session with
    | (.error e, s) => (.error e, { h with session := s, trades := [] })
    | (.ok _, s) =>
        (.ok (),
          { h with
            session := s
            trades := []
            totalTrades := h.totalTrades + h.trades.length })

def flushQuotes (h : BaseFeedHandler) : Called :=
  if h.quotes = [] then (.ok (), h)
  else
    match FeedPublisher.publishQuotes h.quotes h.session with
    | (.error e, s) => (.error e, { h with session := s, quotes := [] })
    | (.ok _, s) =>
        (.ok (),
          { h with
            session := s
            quotes := []
            totalQuotes := h.totalQuotes + h.quotes.length })

/-- `_flush` -/
def flush (h : BaseFeedHandler) : Called :=
  match h.flushTrades with
  | (.error e, h) => (.error e, h)
  | (.ok _, h) => h.flushQuotes

def emitTrade (h : BaseFeedHandler) (t : FeedTrade) : Called :=
  let h := { h with trades := h.trades ++ [t] }
  if h.maxBuffer ≤ h.trades.length then h.flush else (.ok (), h)

def emitQuote (h : BaseFeedHandler) (q : FeedQuote) : Called :=
  let h := { h with quotes := h.quotes ++ [q] }
  if h.maxBuffer ≤ h.quotes.length then h.flush else (.ok (), h)

end BaseFeedHandler

/-- A tick comes in, or the timer or the end of `run` flushes. -/
inductive FeedStep where
  | emit (tick : Tick)
  | flush
deriving DecidableEq, Repr

/-- The tick that a step emits. -/
def FeedStep.tick : FeedStep → Option Tick
  | .emit tick => some tick
  | .flush => none

namespace BaseFeedHandler

def call (h : BaseFeedHandler) : FeedStep → Called
  | .emit (.trade t) => h.emitTrade t
  | .emit (.quote q) => h.emitQuote q
  | .flush => h.flush

/-- A call that raises ends the run. -/
def step (h : BaseFeedHandler) (a : FeedStep) : Option BaseFeedHandler :=
  match h.call a with
  | (.ok _, h) => some h
  | (.error _, _) => none

/-- A handler with empty buffers. -/
def start (maxBuffer : Nat) (s : Session) : BaseFeedHandler where
  maxBuffer := maxBuffer
  session := s

end BaseFeedHandler

/-! ### Ticks, one by one -/

open FeedServer in
/-- The call that a tick stands for. -/
def Tick.call : Tick → StoreCall
  | .trade t => .onTrade t.symbol t.price (asTimestampNs t.eventTimeNs)
  | .quote q => .onQuote
      { symbol := q.symbol, bid := q.bid, ask := q.ask,
        bsize := q.bsize, asize := q.asize,
        tsNs := asTimestampNs q.eventTimeNs }

/-- `on_trade` or `on_quote` -/
def applyTick (store : MarketStore) (tick : Tick) : MarketStore :=
  FeedServer.applyCall store tick.call

/-- The tick is a trade. -/
def Tick.IsTrade : Tick → Prop
  | .trade _ => True
  | .quote _ => False

instance : DecidablePred Tick.IsTrade
  | .trade _ => .isTrue trivial
  | .quote _ => .isFalse id

/-- Trades and quotes write different parts of the store. -/
theorem onTrade_onQuote
    (store : MarketStore) (q : Quote) (symbol : String) (price : ℚ)
    (tsNs : Int) :
    (store.onQuote q).onTrade symbol price tsNs =
      (store.onTrade symbol price tsNs).onQuote q := by
  unfold MarketStore.onTrade MarketStore.onQuote
  split_ifs with hq ht
  · rfl
  · rfl
  · rfl
  · rfl

theorem applyTick_comm
    (store : MarketStore) {a b : Tick} (ha : a.IsTrade) (hb : ¬ b.IsTrade) :
    applyTick (applyTick store b) a = applyTick (applyTick store a) b := by
  cases a with
  | quote q =>
      exact absurd ha id
  | trade t =>
      cases b with
      | trade t' =>
          exact absurd trivial hb
      | quote q =>
          exact onTrade_onQuote store _ t.symbol t.price _

/-! ### What the store then holds -/

section Stored

open FeedServer MarketStore Window

/-- The quote of a tick of symbol `s`. -/
def Tick.quoteOf (s : String) : Tick → Option Quote
  | .trade _ => none
  | .quote q =>
      if q.symbol = s then
        some
          { symbol := q.symbol, bid := q.bid, ask := q.ask
            bsize := q.bsize, asize := q.asize
            tsNs := asTimestampNs q.eventTimeNs }
      else none

theorem lastQuote_applyTick
    (store : MarketStore) (tick : Tick) {s : String} (hs : s ≠ "") :
    (applyTick store tick).lastQuote.lookup s =
      (tick.quoteOf s).or (store.lastQuote.lookup s) := by
  cases tick with
  | trade t =>
      change (store.onTrade t.symbol t.price _).lastQuote.lookup s = _
      unfold MarketStore.onTrade
      split_ifs <;> rfl
  | quote q =>
      change (store.onQuote _).lastQuote.lookup s = _
      simp only [MarketStore.onQuote, Tick.quoteOf]
      by_cases hsym : q.symbol = s
      · subst hsym
        rw [if_neg hs, if_pos rfl, Option.some_or]
        exact Finmap.lookup_insert _
      · rw [if_neg hsym, Option.none_or]
        split_ifs
        · rfl
        · exact Finmap.lookup_insert_of_ne _ (Ne.symm hsym)

/-- The quote of a symbol is the last one that came in. -/
theorem lastQuote_run
    (store : MarketStore) (ticks : List Tick) {s : String} (hs : s ≠ "") :
    (run applyTick store ticks).lastQuote.lookup s =
      ((ticks.filterMap (Tick.quoteOf s)).getLast?).or
        (store.lastQuote.lookup s) := by
  induction ticks using List.reverseRecOn with
  | nil =>
      rfl
  | append_singleton ticks tick ih =>
      rw [run_append, run_cons, run_nil, lastQuote_applyTick _ _ hs, ih,
        List.filterMap_append]
      cases htick : tick.quoteOf s with
      | none =>
          simp [htick]
      | some q =>
          simp [htick]

/-- The trades of `s` among ticks, as the points that the store retains. -/
def tradePoints (ticks : List Tick) (s : String) : List PricePoint :=
  tape (ticks.map Tick.call) s

theorem points_applyTick
    (store : MarketStore) (tick : Tick) (s : String)
    (hcap : (store.points s).length ≤ kHistoryCap) :
    (applyTick store tick).points s =
      (store.points s ++ (acceptedPoint s tick.call).toList).rtake
        kHistoryCap := by
  cases tick with
  | quote q =>
      change (store.onQuote _).points s = (_ ++ []).rtake _
      rw [points_onQuote, List.append_nil, rtake_of_length_le hcap]
  | trade t =>
      change (store.onTrade t.symbol t.price
        (asTimestampNs t.eventTimeNs)).points s = _
      simp only [Tick.call, acceptedPoint]
      by_cases hacc : Accepts t.symbol t.price
      · rw [points_onTrade store hacc]
        by_cases hs : s = t.symbol
        · subst hs
          rw [if_pos rfl, if_pos ⟨rfl, hacc⟩, Option.toList_some]
        · rw [if_neg hs, if_neg (fun h => hs h.1.symm), Option.toList_none,
            List.append_nil, rtake_of_length_le hcap]
      · rw [onTrade_of_not_accepts store hacc, if_neg (fun h => hacc h.2),
          Option.toList_none, List.append_nil, rtake_of_length_le hcap]

/-- The newest trades stand behind what was retained before. -/
theorem points_run
    (store : MarketStore) (ticks : List Tick) (s : String)
    (hcap : (store.points s).length ≤ kHistoryCap) :
    (run applyTick store ticks).points s =
      (store.points s ++ tradePoints ticks s).rtake kHistoryCap := by
  induction ticks using List.reverseRecOn with
  | nil =>
      rw [tradePoints, List.map_nil, tape, List.filterMap_nil,
        List.append_nil, rtake_of_length_le hcap]
      rfl
  | append_singleton ticks tick ih =>
      have hlength : ((run applyTick store ticks).points s).length ≤
          kHistoryCap := by
        rw [ih, length_rtake]
        exact Nat.min_le_left _ _
      rw [run_append, run_cons, run_nil, points_applyTick _ _ _ hlength, ih,
        rtake_rtake_append, tradePoints, tradePoints, List.map_append,
        List.map_cons, List.map_nil, tape_append, List.append_assoc]

/-- What a store holds after ticks: the last quote of a symbol, and its newest
trades behind the points that were retained before. -/
structure TicksStored (store : MarketStore) (ticks : List Tick)
    (after : MarketStore) : Prop where
  quotes : ∀ s ≠ "", after.lastQuote.lookup s =
    ((ticks.filterMap (Tick.quoteOf s)).getLast?).or
      (store.lastQuote.lookup s)
  trades : ∀ s, (store.points s).length ≤ kHistoryCap →
    after.points s =
      (store.points s ++ tradePoints ticks s).rtake kHistoryCap

theorem ticksStored_run (store : MarketStore) (ticks : List Tick) :
    TicksStored store ticks (run applyTick store ticks) where
  quotes := fun _ hs => lastQuote_run store ticks hs
  trades := fun s hcap => points_run store ticks s hcap

end Stored

/-! ### The two streams -/

/-- The same trades and the same quotes, each in the same order. -/
structure SameStreams (xs ys : List Tick) : Prop where
  trades : xs.filter Tick.IsTrade = ys.filter Tick.IsTrade
  quotes : (xs.filter fun x => ¬ x.IsTrade) =
    ys.filter fun x => ¬ x.IsTrade

theorem SameStreams.refl (xs : List Tick) :
    SameStreams xs xs :=
  ⟨rfl, rfl⟩

theorem SameStreams.trans
    {xs ys zs : List Tick}
    (h : SameStreams xs ys) (h' : SameStreams ys zs) :
    SameStreams xs zs :=
  ⟨h.trades.trans h'.trades, h.quotes.trans h'.quotes⟩

theorem SameStreams.symm
    {xs ys : List Tick} (h : SameStreams xs ys) :
    SameStreams ys xs :=
  ⟨h.trades.symm, h.quotes.symm⟩

theorem SameStreams.append
    {xs ys xs' ys' : List Tick}
    (h : SameStreams xs ys) (h' : SameStreams xs' ys') :
    SameStreams (xs ++ xs') (ys ++ ys') := by
  refine ⟨?_, ?_⟩
  · rw [List.filter_append, List.filter_append, h.trades, h'.trades]
  · rw [List.filter_append, List.filter_append, h.quotes, h'.quotes]

@[simp] theorem filter_map_trade (ts : List FeedTrade) :
    (ts.map Tick.trade).filter Tick.IsTrade = ts.map .trade := by
  rw [List.filter_eq_self]
  intro x hx
  obtain ⟨t, _, rfl⟩ := List.mem_map.mp hx
  exact decide_eq_true trivial

@[simp] theorem filter_map_quote (qs : List FeedQuote) :
    (qs.map Tick.quote).filter Tick.IsTrade = [] := by
  rw [List.filter_eq_nil_iff]
  intro x hx
  obtain ⟨q, _, rfl⟩ := List.mem_map.mp hx
  exact fun h => of_decide_eq_true h

@[simp] theorem filter_not_map_trade (ts : List FeedTrade) :
    ((ts.map Tick.trade).filter fun x => ¬ x.IsTrade) = [] := by
  rw [List.filter_eq_nil_iff]
  intro x hx
  obtain ⟨t, _, rfl⟩ := List.mem_map.mp hx
  simp [Tick.IsTrade]

@[simp] theorem filter_not_map_quote (qs : List FeedQuote) :
    ((qs.map Tick.quote).filter fun x => ¬ x.IsTrade) =
      qs.map .quote := by
  rw [List.filter_eq_self]
  intro x hx
  obtain ⟨q, _, rfl⟩ := List.mem_map.mp hx
  simp [Tick.IsTrade]

/-- A trade may pass quotes. -/
theorem sameStreams_swap (ts : List FeedTrade) (qs : List FeedQuote) :
    SameStreams (ts.map .trade ++ qs.map .quote)
      (qs.map .quote ++ ts.map .trade) := by
  refine ⟨?_, ?_⟩
  · simp only [List.filter_append, filter_map_trade, filter_map_quote,
      List.append_nil, List.nil_append]
  · simp only [List.filter_append, filter_not_map_trade,
      filter_not_map_quote, List.append_nil, List.nil_append]

/-- The store only depends on the two streams. -/
theorem SameStreams.run_eq
    {xs ys : List Tick} (h : SameStreams xs ys) (store : MarketStore) :
    run applyTick store xs = run applyTick store ys :=
  run_eq_of_filter_eq applyTick (fun store _ _ => applyTick_comm store)
    h.trades h.quotes store

/-! ### What a handler has written -/

/-- The ticks of a batch. -/
def Publication.ticks : Publication → List Tick
  | .trades rows => rows.map .trade
  | .quotes rows => rows.map .quote
  | _ => []

/-- The publication is a batch of ticks. -/
inductive IsBatch : Publication → Prop where
  | trades {rows : List FeedTrade} (h : rows ≠ []) :
      IsBatch (.trades rows)
  | quotes {rows : List FeedQuote} (h : rows ≠ []) :
      IsBatch (.quotes rows)

theorem IsBatch.msgs_eq
    {p : Publication} (h : IsBatch p) :
    p.msgs = [p.msg] := by
  cases h with
  | @trades rows h =>
      cases rows with
      | nil =>
          exact absurd rfl h
      | cons t rows =>
          rfl
  | @quotes rows h =>
      cases rows with
      | nil =>
          exact absurd rfl h
      | cons q rows =>
          rfl

/-- A batch makes the calls of its ticks. -/
theorem IsBatch.received_eq
    {p : Publication} (h : IsBatch p) :
    p.received = p.ticks.map Tick.call := by
  cases h with
  | trades h =>
      simp [Publication.received, Publication.callsWith,
        Publication.ticks, Tick.call]
  | quotes h =>
      simp [Publication.received, Publication.callsWith,
        Publication.ticks, Tick.call]

namespace BaseFeedHandler

def buffered (h : BaseFeedHandler) : List Tick :=
  h.trades.map .trade ++ h.quotes.map .quote

/-- While `ticks` came in, `batches` were written, and what is not written
is in the buffers. -/
structure Ships (h : BaseFeedHandler) (ticks : List Tick)
    (batches : List Publication) (h' : BaseFeedHandler) : Prop where
  steady : Steady h'.session
  isBatch : ∀ p ∈ batches, IsBatch p
  written : h'.session.net.written =
    h.session.net.written ++ batches.map Publication.msg
  streams : SameStreams (h.buffered ++ ticks)
    (batches.flatMap Publication.ticks ++ h'.buffered)

theorem Ships.refl
    {h : BaseFeedHandler} (hs : Steady h.session) :
    Ships h [] [] h where
  steady := hs
  isBatch := by simp
  written := by simp
  streams := by
    simpa using SameStreams.refl h.buffered

theorem Ships.trans
    {h h₁ h₂ : BaseFeedHandler} {ticks ticks' : List Tick}
    {batches batches' : List Publication}
    (hs : Ships h ticks batches h₁) (hs' : Ships h₁ ticks' batches' h₂) :
    Ships h (ticks ++ ticks') (batches ++ batches') h₂ where
  steady := hs'.steady
  isBatch := by
    intro p hp
    rcases List.mem_append.mp hp with hp | hp
    · exact hs.isBatch p hp
    · exact hs'.isBatch p hp
  written := by
    rw [hs'.written, hs.written, List.map_append, List.append_assoc]
  streams := by
    have h₁ := hs.streams.append (SameStreams.refl ticks')
    have h₂ := (SameStreams.refl
      (batches.flatMap Publication.ticks)).append hs'.streams
    rw [List.append_assoc, List.append_assoc] at h₁
    rw [List.flatMap_append, List.append_assoc]
    exact h₁.trans h₂

/-- One buffer is published as one batch. -/
theorem flushTrades_ships
    {h : BaseFeedHandler} (hs : Steady h.session) :
    ∃ batches h', h.flushTrades = (.ok (), h') ∧
      Ships h [] batches h' ∧ h'.trades = [] ∧ h'.quotes = h.quotes := by
  by_cases hnil : h.trades = []
  · exact ⟨[], h, by rw [flushTrades, if_pos hnil], Ships.refl hs, hnil,
      rfl⟩
  · obtain ⟨s', hpub, hdel⟩ := publish_of_steady (.trades h.trades) hs
    have hbatch := IsBatch.trades hnil
    have hpub' : FeedPublisher.publishTrades h.trades h.session =
      (.ok (), s') := hpub
    refine ⟨[.trades h.trades],
      { h with
        session := s'
        trades := []
        totalTrades := h.totalTrades + h.trades.length },
      ?_, ⟨hdel.steady, ?_, ?_, ?_⟩, rfl, rfl⟩
    · rw [flushTrades, if_neg hnil, hpub']
    · simpa using hbatch
    · rw [hdel.written, hbatch.msgs_eq]
      rfl
    · simpa [buffered, Publication.ticks] using
        SameStreams.refl (h.trades.map .trade ++ h.quotes.map .quote)

theorem flushQuotes_ships
    {h : BaseFeedHandler} (hs : Steady h.session) :
    ∃ batches h', h.flushQuotes = (.ok (), h') ∧
      Ships h [] batches h' ∧ h'.quotes = [] ∧ h'.trades = h.trades := by
  by_cases hnil : h.quotes = []
  · exact ⟨[], h, by rw [flushQuotes, if_pos hnil], Ships.refl hs, hnil,
      rfl⟩
  · obtain ⟨s', hpub, hdel⟩ := publish_of_steady (.quotes h.quotes) hs
    have hbatch := IsBatch.quotes hnil
    have hpub' : FeedPublisher.publishQuotes h.quotes h.session =
      (.ok (), s') := hpub
    refine ⟨[.quotes h.quotes],
      { h with
        session := s'
        quotes := []
        totalQuotes := h.totalQuotes + h.quotes.length },
      ?_, ⟨hdel.steady, ?_, ?_, ?_⟩, rfl, rfl⟩
    · rw [flushQuotes, if_neg hnil, hpub']
    · simpa using hbatch
    · rw [hdel.written, hbatch.msgs_eq]
      rfl
    · simpa [buffered, Publication.ticks] using
        sameStreams_swap h.trades h.quotes

theorem flush_ships
    {h : BaseFeedHandler} (hs : Steady h.session) :
    ∃ batches h', h.flush = (.ok (), h') ∧
      Ships h [] batches h' ∧ h'.buffered = [] := by
  obtain ⟨b₁, h₁, heq₁, hs₁, htrades, hquotes⟩ := flushTrades_ships hs
  obtain ⟨b₂, h₂, heq₂, hs₂, hquotes', htrades'⟩ :=
    flushQuotes_ships hs₁.steady
  refine ⟨b₁ ++ b₂, h₂, ?_, hs₁.trans hs₂, ?_⟩
  · rw [flush, heq₁]
    exact heq₂
  · rw [buffered, hquotes', htrades', htrades]
    rfl

/-- A tick that is only buffered. -/
theorem emitted_ships
    {h h' : BaseFeedHandler} {tick : Tick} (hs : Steady h.session)
    (hsession : h'.session = h.session)
    (hstreams : SameStreams (h.buffered ++ [tick]) h'.buffered) :
    Ships h [tick] [] h' where
  steady := by rwa [hsession]
  isBatch := by simp
  written := by simp [hsession]
  streams := by simpa using hstreams

/-- After the tick is buffered, the buffers may be full. -/
theorem Ships.flush_if
    {h h' : BaseFeedHandler} {tick : Tick} (hs : Ships h [tick] [] h')
    (full : Prop) [Decidable full] :
    ∃ batches h'', (if full then h'.flush else (.ok (), h')) =
        (.ok (), h'') ∧
      Ships h [tick] batches h'' := by
  by_cases hfull : full
  · obtain ⟨batches, h'', hflush, hs', _⟩ := flush_ships hs.steady
    refine ⟨[] ++ batches, h'', by rw [if_pos hfull, hflush], ?_⟩
    exact hs.trans hs'
  · exact ⟨[], h', by rw [if_neg hfull], hs⟩

theorem emitTrade_ships
    {h : BaseFeedHandler} (hs : Steady h.session) (t : FeedTrade) :
    ∃ batches h', h.emitTrade t = (.ok (), h') ∧
      Ships h [.trade t] batches h' := by
  have hswap : SameStreams (h.quotes.map .quote ++ [.trade t])
      ([.trade t] ++ h.quotes.map .quote) :=
    (sameStreams_swap [t] h.quotes).symm
  have hstreams : SameStreams (h.buffered ++ [.trade t])
      ((h.trades ++ [t]).map .trade ++ h.quotes.map .quote) := by
    rw [buffered, List.map_append, List.append_assoc, List.append_assoc]
    exact (SameStreams.refl _).append hswap
  exact (emitted_ships hs rfl hstreams :
    Ships h [.trade t] [] { h with trades := h.trades ++ [t] }).flush_if _

theorem emitQuote_ships
    {h : BaseFeedHandler} (hs : Steady h.session) (q : FeedQuote) :
    ∃ batches h', h.emitQuote q = (.ok (), h') ∧
      Ships h [.quote q] batches h' := by
  have hstreams : SameStreams (h.buffered ++ [.quote q])
      (h.trades.map .trade ++ (h.quotes ++ [q]).map .quote) := by
    rw [buffered, List.map_append, List.append_assoc]
    exact SameStreams.refl _
  exact (emitted_ships hs rfl hstreams :
    Ships h [.quote q] [] { h with quotes := h.quotes ++ [q] }).flush_if _

/-- Every step returns, and ships what it emits. -/
theorem step_ships
    {h : BaseFeedHandler} (hs : Steady h.session) (a : FeedStep) :
    ∃ batches h', h.step a = some h' ∧
      Ships h a.tick.toList batches h' := by
  have hcall : ∃ batches h', h.call a = (.ok (), h') ∧
      Ships h a.tick.toList batches h' := by
    cases a with
    | emit tick =>
        cases tick with
        | trade t =>
            exact emitTrade_ships hs t
        | quote q =>
            exact emitQuote_ships hs q
    | flush =>
        obtain ⟨batches, h', hflush, hs', _⟩ := flush_ships hs
        exact ⟨batches, h', hflush, hs'⟩
  obtain ⟨batches, h', hcall, hs'⟩ := hcall
  exact ⟨batches, h', by rw [step, hcall], hs'⟩

theorem exec_ships
    {h : BaseFeedHandler} (hs : Steady h.session) (as : List FeedStep) :
    ∃ batches h', exec step h as = some h' ∧
      Ships h (as.filterMap FeedStep.tick) batches h' := by
  induction as generalizing h with
  | nil =>
      exact ⟨[], h, rfl, Ships.refl hs⟩
  | cons a as ih =>
      obtain ⟨b₁, h₁, hstep, hs₁⟩ := step_ships hs a
      obtain ⟨b₂, h₂, hexec, hs₂⟩ := ih hs₁.steady
      refine ⟨b₁ ++ b₂, h₂, ?_, ?_⟩
      · rw [exec_cons_eq_some]
        exact ⟨h₁, hstep, hexec⟩
      · have hticks : (a :: as).filterMap FeedStep.tick =
            a.tick.toList ++ as.filterMap FeedStep.tick := by
          cases ha : a.tick with
          | none =>
              rw [List.filterMap_cons_none ha]
              rfl
          | some tick =>
              rw [List.filterMap_cons_some ha]
              rfl
        rw [hticks]
        exact hs₁.trans hs₂

/-- The final drain leaves nothing in the buffers. -/
theorem drained_ships
    {h : BaseFeedHandler} (hs : Steady h.session) (as : List FeedStep) :
    ∃ batches h', exec step h (as ++ [.flush]) = some h' ∧
      Ships h (as.filterMap FeedStep.tick) batches h' ∧
      h'.buffered = [] := by
  obtain ⟨b₁, h₁, hexec, hs₁⟩ := exec_ships hs as
  obtain ⟨b₂, h₂, hflush, hs₂, hempty⟩ := flush_ships hs₁.steady
  refine ⟨b₁ ++ b₂, h₂, ?_, ?_, hempty⟩
  · rw [exec_append, hexec]
    simp [exec, step, call, hflush]
  · simpa using hs₁.trans hs₂

end BaseFeedHandler

/-- The batches on a stream end in the store of their ticks. -/
theorem serve_batches
    {parse : List UInt8 → Option Json} {dumps : Json → List UInt8}
    {batches : List Publication} {chunks : List (List UInt8)}
    (hbatch : ∀ p ∈ batches, IsBatch p)
    (hread : ∀ p ∈ batches, ReadsBack parse dumps p.msg)
    (hchunks : chunks.flatten =
      join 10 (batches.map fun p => dumps p.msg))
    (store : MarketStore) :
    FeedServer.serve parse [] chunks store =
      (.ok [],
        run applyTick store (batches.flatMap Publication.ticks)) := by
  have hcalls : batches.flatMap Publication.received =
      (batches.flatMap Publication.ticks).map Tick.call := by
    rw [List.map_flatMap]
    exact List.flatMap_congr fun p hp => (hbatch p hp).received_eq
  rw [FeedServer.serve_publications hread hchunks, hcalls, List.foldl_map]
  rfl

open BaseFeedHandler in
/-- **The batched pipeline ends in the store of the single ticks**, whatever
the buffer size and the schedule of flushes were: no call raises, each stream
is written in the order of emission, and the terminal that has decoded all
lines has the store that depends on the ticks alone: of every symbol the last
quote and the newest trades, in the order of emission. -/
theorem batched_pipeline_eq_ticks
    (maxBuffer : Nat) {s : Session} (hs : Steady s)
    (hfresh : s.net.written = []) (as : List FeedStep) :
    ∃ h', exec step (start maxBuffer s) (as ++ [.flush]) = some h' ∧
      (∃ batches : List Publication,
        h'.session.net.written = batches.map Publication.msg ∧
          SameStreams (as.filterMap FeedStep.tick)
            (batches.flatMap Publication.ticks)) ∧
      ∀ (parse : List UInt8 → Option Json) (dumps : Json → List UInt8)
        (chunks : List (List UInt8)) (store : MarketStore),
        (∀ msg ∈ h'.session.net.written, ReadsBack parse dumps msg) →
        chunks.flatten = join 10 (h'.session.net.written.map dumps) →
        FeedServer.serve parse [] chunks store =
            (.ok [], run applyTick store
              (as.filterMap FeedStep.tick)) ∧
          TicksStored store (as.filterMap FeedStep.tick)
            (run applyTick store (as.filterMap FeedStep.tick)) := by
  have hstart : Steady (start maxBuffer s).session := hs
  obtain ⟨batches, h', hexec, hships, hempty⟩ := drained_ships hstart as
  have hwritten : h'.session.net.written =
      batches.map Publication.msg := by
    have hw := hships.written
    rwa [start, hfresh, List.nil_append] at hw
  have hstreams : SameStreams (as.filterMap FeedStep.tick)
      (batches.flatMap Publication.ticks) := by
    have hst := hships.streams
    rwa [hempty, List.append_nil] at hst
  refine ⟨h', hexec, ⟨batches, hwritten, hstreams⟩, ?_⟩
  intro parse dumps chunks store hread hchunks
  have hread' : ∀ p ∈ batches, ReadsBack parse dumps p.msg := by
    intro p hp
    refine hread p.msg ?_
    rw [hwritten]
    exact List.mem_map_of_mem hp
  rw [hwritten, List.map_map] at hchunks
  refine ⟨?_, ticksStored_run store _⟩
  rw [serve_batches hships.isBatch hread' hchunks, hstreams.run_eq]

/-- `{"m":"quotes","rows":[["X",1.0,3.0,4.0,5.0,1600]]}` -/
def quotesText : List UInt8 :=
  [123, 34, 109, 34, 58, 34, 113, 117, 111, 116, 101, 115, 34, 44, 34, 114,
    111, 119, 115, 34, 58, 91, 91, 34, 88, 34, 44, 49, 46, 48, 44, 51, 46,
    48, 44, 52, 46, 48, 44, 53, 46, 48, 44, 49, 54, 48, 48, 93, 93, 125]

def quoteX : FeedQuote :=
  { symbol := "X", bid := 1, ask := 3, bsize := 4, asize := 5,
    eventTimeNs := 1600 }

def tradeX : FeedTrade :=
  { symbol := "X", price := 2, eventTimeNs := 1700 }

def dumpBatch (v : Json) : List UInt8 :=
  match v with
  | .object [("m", .string "trades"), _] => tradesText
  | _ => quotesText

def parseBatch (line : List UInt8) : Option Json :=
  if line = tradesText then some (FeedPublisher.tradesMsg [tradeX])
  else some (FeedPublisher.quotesMsg [quoteX])

open BaseFeedHandler in
/-- A quote is emitted ahead of a trade and written behind it. -/
theorem batched_pipeline_quote_then_trade :
    FeedServer.serve parseBatch []
        [tradesText ++ 10 :: quotesText.take 9,
          quotesText.drop 9 ++ [10]] {} =
      (.ok [], run applyTick {} [.quote quoteX, .trade tradeX]) := by
  obtain ⟨h', hexec, _, hserve⟩ := batched_pipeline_eq_ticks 2
    (s := { pub := { attached := true } }) ⟨rfl, by simp⟩ rfl
    [.emit (.quote quoteX), .emit (.trade tradeX)]
  have hwritten : h'.session.net.written =
      [FeedPublisher.tradesMsg [tradeX],
        FeedPublisher.quotesMsg [quoteX]] := by
    have hrun := Option.some.inj (hexec.symm.trans rfl)
    rw [hrun]
    rfl
  refine (hserve parseBatch dumpBatch _ {} ?_ ?_).1
  · intro msg hmsg
    rw [hwritten] at hmsg
    rcases List.mem_cons.mp hmsg with rfl | hmsg
    · exact ⟨by decide, by decide, _, rfl, .refl _⟩
    · rw [List.mem_singleton.mp hmsg]
      exact ⟨by decide, by decide, _, rfl, .refl _⟩
  · rw [hwritten]
    decide

end ExecutionLayer
