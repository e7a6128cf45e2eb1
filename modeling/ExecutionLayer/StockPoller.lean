import ExecutionLayer.Desk

/-!
# The stock poller

`StockFeed::run` of `stock_feed.cpp` over an explicit clock, in nanoseconds.
The loop sleeps until a deadline, copies the watch list, makes the requests
that every symbol needs once, polls all quotes with one request, and moves the
deadline on.

A run is a list of `StockStep`s.  Between any two steps of the loop the other
threads may watch symbols and drain the errors, and any time may pass: a
request takes as long as passes until its answer, and a thread that is woken
late is one before whose next step time has passed.  A stopped loop makes no
further step, so the runs that are stopped are among these.

What the loop writes are the updates that the desk knows
(`step_feed_cases`).
-/

namespace ExecutionLayer

open FiniteMap StepSystem

/-- Where the loop stands. -/
inductive PollPhase where
  /-- before the comparison with the deadline -/
  | waiting
  /-- before the copy of the watch list -/
  | due
  /-- before the symbols `todo` of the copy -/
  | preparing (syms todo : List String)
  /-- in `recent_minute_bars`; `needName` has been read -/
  | backfilling (syms : List String) (sym : String) (needName : Bool)
      (todo : List String)
  /-- in `asset_name` -/
  | naming (syms : List String) (sym : String) (todo : List String)
  /-- in `latest_quotes` -/
  | quoting (syms : List String)
  /-- before `schedule_next` -/
  | scheduling (interval : Int)
deriving DecidableEq, Repr

/-- The feed, the locals of `run`, the clock, and the moments at which quotes
were asked for. -/
structure StockPoller where
  feed : StockFeed
  backfilled : Finset String := ∅
  nextPoll : Int
  clock : Int
  phase : PollPhase := .waiting
  starts : List Int := []

/-- A step of the loop, of another thread, or of time. -/
inductive StockStep where
  | pass (duration : Nat)
  | watch (symbol : String)
  | drainErrors
  | sleep (late : Nat)
  | wake
  | copySymbols
  | nextSymbol
  | gotBars (bars : List PricePoint) (lastError : String)
  | gotName (name : String)
  | askQuotes
  | gotQuotes (fresh : List (String × Quote)) (lastError : String)
  | schedule
deriving DecidableEq, Repr

/-- The poll came back without quotes. -/
def StockStep.fails : StockStep → Bool
  | .gotQuotes fresh _ => fresh.isEmpty
  | _ => false

namespace StockPoller

def kQuoteInterval : Int := 1000 * 10 ^ 6

def kErrorBackoff : Int := 5000 * 10 ^ 6

def kTick : Int := 50 * 10 ^ 6

/-- The loop polls immediately. -/
def start (feed : StockFeed) (now : Int) : StockPoller where
  feed := feed
  nextPoll := now
  clock := now

/-- Advance the schedule from the deadline, but not into the past. -/
def scheduleNext (p : StockPoller) (interval : Int) : StockPoller :=
  { p with
    nextPoll := max (p.nextPoll + interval) p.clock
    phase := .waiting }

/-- The one-time work of a symbol is decided. -/
def prepare (p : StockPoller) (syms : List String) (sym : String)
    (todo : List String) : StockPoller :=
  let needBackfill := sym ∉ p.backfilled
  let needName := decide (sym ∉ p.feed.names)
  { p with
    phase :=
      if needBackfill then .backfilling syms sym needName todo
      else if needName then .naming syms sym todo
      else .preparing syms todo }

/-- The bars have arrived. -/
def storeBars (p : StockPoller) (syms : List String) (sym : String)
    (needName : Bool) (todo : List String) (bars : List PricePoint)
    (lastError : String) : StockPoller :=
  { p with
    feed := p.feed.storeBars sym bars lastError
    backfilled := insert sym p.backfilled
    phase :=
      if needName then .naming syms sym todo else .preparing syms todo }

/-- The quotes have arrived, or none have. -/
def storeQuotes (p : StockPoller) (fresh : List (String × Quote))
    (lastError : String) : StockPoller :=
  { p with
    feed := p.feed.storeQuotes fresh lastError
    phase := .scheduling (if fresh = [] then kErrorBackoff
      else kQuoteInterval) }

def step (p : StockPoller) : StockStep → Option StockPoller
  | .pass duration => some { p with clock := p.clock + duration }
  | .watch symbol => some { p with feed := p.feed.watch symbol }
  | .drainErrors => some { p with feed := p.feed.errors.2 }
  | .sleep late =>
      if p.phase = .waiting ∧ p.clock < p.nextPoll then
        some { p with clock := p.clock + kTick + late }
      else none
  | .wake =>
      if p.phase = .waiting ∧ ¬ p.clock < p.nextPoll then
        some { p with phase := .due }
      else none
  | .copySymbols =>
      if p.phase = .due then
        some
          { p with
            phase :=
              if p.feed.symbols = [] then .scheduling kQuoteInterval
              else .preparing p.feed.symbols p.feed.symbols }
      else none
  | .nextSymbol =>
      match p.phase with
      | .preparing syms (sym :: todo) => some (p.prepare syms sym todo)
      | _ => none
  | .gotBars bars lastError =>
      match p.phase with
      | .backfilling syms sym needName todo =>
          some (p.storeBars syms sym needName todo bars lastError)
      | _ => none
  | .gotName name =>
      match p.phase with
      | .naming syms sym todo =>
          some
            { p with
              feed := p.feed.storeName sym name
              phase := .preparing syms todo }
      | _ => none
  | .askQuotes =>
      match p.phase with
      | .preparing syms [] =>
          some
            { p with
              phase := .quoting syms
              starts := p.starts ++ [p.clock] }
      | _ => none
  | .gotQuotes fresh lastError =>
      match p.phase with
      | .quoting _ => some (p.storeQuotes fresh lastError)
      | _ => none
  | .schedule =>
      match p.phase with
      | .scheduling interval => some (p.scheduleNext interval)
      | _ => none

/-! ### What a step can do -/

/-- The steps that are enabled, and what they leave. -/
inductive Moved (p : StockPoller) : StockStep → StockPoller → Prop
  | pass (duration : Nat) :
      Moved p (.pass duration) { p with clock := p.clock + duration }
  | watch (symbol : String) :
      Moved p (.watch symbol) { p with feed := p.feed.watch symbol }
  | drainErrors :
      Moved p .drainErrors { p with feed := p.feed.errors.2 }
  | sleep (late : Nat) (phase : p.phase = .waiting)
      (early : p.clock < p.nextPoll) :
      Moved p (.sleep late) { p with clock := p.clock + kTick + late }
  | wake (phase : p.phase = .waiting) (behind : p.nextPoll ≤ p.clock) :
      Moved p .wake { p with phase := .due }
  | idle (phase : p.phase = .due) (empty : p.feed.symbols = []) :
      Moved p .copySymbols { p with phase := .scheduling kQuoteInterval }
  | copied (phase : p.phase = .due) (watched : p.feed.symbols ≠ []) :
      Moved p .copySymbols
        { p with phase := .preparing p.feed.symbols p.feed.symbols }
  | prepared (syms : List String) (sym : String) (todo : List String)
      (phase : p.phase = .preparing syms (sym :: todo)) :
      Moved p .nextSymbol (p.prepare syms sym todo)
  | gotBars (syms : List String) (sym : String) (needName : Bool)
      (todo : List String) (bars : List PricePoint) (lastError : String)
      (phase : p.phase = .backfilling syms sym needName todo) :
      Moved p (.gotBars bars lastError)
        (p.storeBars syms sym needName todo bars lastError)
  | gotName (syms : List String) (sym : String) (todo : List String)
      (name : String) (phase : p.phase = .naming syms sym todo) :
      Moved p (.gotName name)
        { p with
          feed := p.feed.storeName sym name
          phase := .preparing syms todo }
  | askQuotes (syms : List String) (phase : p.phase = .preparing syms []) :
      Moved p .askQuotes
        { p with
          phase := .quoting syms
          starts := p.starts ++ [p.clock] }
  | gotQuotes (syms : List String) (fresh : List (String × Quote))
      (lastError : String) (phase : p.phase = .quoting syms) :
      Moved p (.gotQuotes fresh lastError) (p.storeQuotes fresh lastError)
  | schedule (interval : Int) (phase : p.phase = .scheduling interval) :
      Moved p .schedule (p.scheduleNext interval)

theorem step_moved
    {p q : StockPoller} {a : StockStep} (h : p.step a = some q) :
    Moved p a q := by
  cases a with
  | pass duration =>
      obtain rfl := Option.some.inj h
      exact .pass duration
  | watch symbol =>
      obtain rfl := Option.some.inj h
      exact .watch symbol
  | drainErrors =>
      obtain rfl := Option.some.inj h
      exact .drainErrors
  | sleep late =>
      simp only [step] at h
      split_ifs at h with hc
      obtain rfl := Option.some.inj h
      exact .sleep late hc.1 hc.2
  | wake =>
      simp only [step] at h
      split_ifs at h with hc
      obtain rfl := Option.some.inj h
      exact .wake hc.1 (not_lt.mp hc.2)
  | copySymbols =>
      simp only [step] at h
      split_ifs at h with hphase hempty
      · obtain rfl := Option.some.inj h
        exact .idle hphase hempty
      · obtain rfl := Option.some.inj h
        exact .copied hphase hempty
  | nextSymbol =>
      simp only [step] at h
      split at h
      · rename_i syms sym todo hphase
        obtain rfl := Option.some.inj h
        exact .prepared syms sym todo hphase
      · cases h
  | gotBars bars lastError =>
      simp only [step] at h
      split at h
      · rename_i syms sym needName todo hphase
        obtain rfl := Option.some.inj h
        exact .gotBars syms sym needName todo bars lastError hphase
      · cases h
  | gotName name =>
      simp only [step] at h
      split at h
      · rename_i syms sym todo hphase
        obtain rfl := Option.some.inj h
        exact .gotName syms sym todo name hphase
      · cases h
  | askQuotes =>
      simp only [step] at h
      split at h
      · rename_i syms hphase
        obtain rfl := Option.some.inj h
        exact .askQuotes syms hphase
      · cases h
  | gotQuotes fresh lastError =>
      simp only [step] at h
      split at h
      · rename_i syms hphase
        obtain rfl := Option.some.inj h
        exact .gotQuotes syms fresh lastError hphase
      · cases h
  | schedule =>
      simp only [step] at h
      split at h
      · rename_i interval hphase
        obtain rfl := Option.some.inj h
        exact .schedule interval hphase
      · cases h

/-- The one-time work that is left for a symbol decides the phase alone. -/
theorem prepare_cases
    (p : StockPoller) (syms : List String) (sym : String)
    (todo : List String) :
    (∃ needName, sym ∉ p.backfilled ∧ p.prepare syms sym todo =
        { p with phase := .backfilling syms sym needName todo }) ∨
      p.prepare syms sym todo = { p with phase := .naming syms sym todo } ∨
      p.prepare syms sym todo =
        { p with phase := .preparing syms todo } := by
  unfold prepare
  by_cases hbackfill : sym ∉ p.backfilled
  · left
    exact ⟨decide (sym ∉ p.feed.names), hbackfill,
      by simp only [if_pos hbackfill]⟩
  · right
    by_cases hname : sym ∉ p.feed.names
    · left
      simp only [if_neg hbackfill, hname, not_false_eq_true, decide_true,
        if_true]
    · right
      simp only [if_neg hbackfill, hname, decide_false, Bool.false_eq_true,
        if_false]

/-- Behind the bars comes the name, or the next symbol. -/
theorem storeBars_phase
    (p : StockPoller) (syms : List String) (sym : String)
    (needName : Bool) (todo : List String) (bars : List PricePoint)
    (lastError : String) :
    (p.storeBars syms sym needName todo bars lastError).phase =
        .naming syms sym todo ∨
      (p.storeBars syms sym needName todo bars lastError).phase =
        .preparing syms todo := by
  cases needName with
  | true =>
      exact Or.inl rfl
  | false =>
      exact Or.inr rfl

/-- The loop writes by the updates of the desk; the other threads watch and
drain. -/
theorem step_feed_cases
    {p q : StockPoller} {a : StockStep} (h : p.step a = some q) :
    q.feed = p.feed ∨
      (∃ u, q.feed = p.feed.update u) ∨
      (∃ symbol, q.feed = p.feed.watch symbol) ∨
      q.feed = p.feed.errors.2 := by
  cases step_moved h with
  | watch symbol =>
      exact Or.inr (Or.inr (Or.inl ⟨symbol, rfl⟩))
  | drainErrors =>
      exact Or.inr (Or.inr (Or.inr rfl))
  | gotBars syms sym needName todo bars lastError _ =>
      exact Or.inr (Or.inl ⟨.bars sym bars lastError, rfl⟩)
  | gotName syms sym todo name _ =>
      exact Or.inr (Or.inl ⟨.name sym name, rfl⟩)
  | gotQuotes syms fresh lastError _ =>
      exact Or.inr (Or.inl ⟨.quotes fresh lastError, rfl⟩)
  | _ =>
      exact Or.inl rfl

/-- Nothing is ever unwatched. -/
theorem step_symbols
    {p q : StockPoller} {a : StockStep} (h : p.step a = some q) :
    p.feed.symbols ⊆ q.feed.symbols := by
  rcases step_feed_cases h with heq | ⟨u, heq⟩ | ⟨symbol, heq⟩ | heq
  · rw [heq]
    exact List.Subset.refl _
  · rw [heq, StockFeed.update_symbols]
    exact List.Subset.refl _
  · rw [heq, StockFeed.watch]
    split_ifs
    · exact List.Subset.refl _
    · exact List.subset_append_left _ _
  · rw [heq]
    exact List.Subset.refl _

end StockPoller

end ExecutionLayer
