import ExecutionLayer.Library.Pacing
import ExecutionLayer.StockPoller

/-!
# The rate of the stock poller

The budget of the data provider is counted in requests per minute.  The
deadline moves on by at least an interval and never stays behind the clock, so
however late the loop was, it catches up with one poll at most: the requests
are paced (`OnPace`), and a minute has at most 61 of them.

The deadline is moved from itself and not from the clock.  As long as polls
succeed and end within an interval of their deadline, the deadlines are one
interval apart, with no drift (`nextPoll_of_timely`).
-/

namespace ExecutionLayer

open Pacing StepSystem

namespace StockPoller

/-- Every deadline that `schedule_next` may set admits the requests so far. -/
def Settles (p : StockPoller) : Prop :=
  ∀ d, p.nextPoll + kQuoteInterval ≤ d → p.clock ≤ d →
    Admits kQuoteInterval p.starts d

/-- What the deadline and the requests have to do with each other, by where
the loop stands. -/
def InPhase (p : StockPoller) : Prop :=
  match p.phase with
  | .waiting => Admits kQuoteInterval p.starts p.nextPoll
  | .quoting _ => p.Settles
  | .scheduling interval => kQuoteInterval ≤ interval ∧ p.Settles
  | _ => Admits kQuoteInterval p.starts p.nextPoll ∧ p.nextPoll ≤ p.clock

structure OnPace (p : StockPoller) : Prop where
  paced : Paced kQuoteInterval p.starts
  inPhase : p.InPhase

theorem kQuoteInterval_nonneg : 0 ≤ kQuoteInterval := by
  decide

theorem Settles.later
    {p : StockPoller} (h : p.Settles) {clock : Int} (hle : p.clock ≤ clock) :
    Settles { p with clock := clock } := by
  intro d hd hclock
  exact h d hd (hle.trans hclock)

/-- Time may pass anywhere. -/
theorem InPhase.later
    {p : StockPoller} (h : p.InPhase) {clock : Int} (hle : p.clock ≤ clock) :
    InPhase { p with clock := clock } := by
  rcases p with ⟨feed, backfilled, nextPoll, old, phase, starts⟩
  cases phase with
  | waiting =>
      exact h
  | quoting syms =>
      exact Settles.later h hle
  | scheduling interval =>
      exact ⟨h.1, h.2.later hle⟩
  | due =>
      exact ⟨h.1, h.2.trans hle⟩
  | preparing syms todo =>
      exact ⟨h.1, h.2.trans hle⟩
  | backfilling syms sym needName todo =>
      exact ⟨h.1, h.2.trans hle⟩
  | naming syms sym todo =>
      exact ⟨h.1, h.2.trans hle⟩

theorem onPace_start (feed : StockFeed) (now : Int) :
    (start feed now).OnPace :=
  ⟨trivial, trivial⟩

theorem OnPace.step
    {p q : StockPoller} {a : StockStep} (h : p.OnPace)
    (hstep : p.step a = some q) :
    q.OnPace := by
  have hphase := h.inPhase
  cases step_moved hstep with
  | pass duration =>
      exact ⟨h.paced, hphase.later (by omega)⟩
  | watch symbol =>
      exact ⟨h.paced, hphase⟩
  | drainErrors =>
      exact ⟨h.paced, hphase⟩
  | sleep late phase early =>
      refine ⟨h.paced, hphase.later ?_⟩
      have htick : 0 ≤ kTick := by decide
      omega
  | wake phase behind =>
      rw [InPhase, phase] at hphase
      exact ⟨h.paced, hphase, behind⟩
  | idle phase empty =>
      rw [InPhase, phase] at hphase
      refine ⟨h.paced, le_rfl, fun d hd _ => hphase.1.mono ?_⟩
      exact (le_add_of_nonneg_right kQuoteInterval_nonneg).trans hd
  | copied phase watched =>
      rw [InPhase, phase] at hphase
      exact ⟨h.paced, hphase⟩
  | prepared syms sym todo phase =>
      rw [InPhase, phase] at hphase
      rcases p.prepare_cases syms sym todo with ⟨_, _, heq⟩ | heq | heq
      · rw [heq]
        exact ⟨h.paced, hphase⟩
      · rw [heq]
        exact ⟨h.paced, hphase⟩
      · rw [heq]
        exact ⟨h.paced, hphase⟩
  | gotBars syms sym needName todo bars lastError phase =>
      rw [InPhase, phase] at hphase
      refine ⟨h.paced, ?_⟩
      rcases p.storeBars_phase syms sym needName todo bars lastError with
        hnew | hnew
      · rw [InPhase, hnew]
        exact hphase
      · rw [InPhase, hnew]
        exact hphase
  | gotName syms sym todo name phase =>
      rw [InPhase, phase] at hphase
      exact ⟨h.paced, hphase⟩
  | askQuotes syms phase =>
      rw [InPhase, phase] at hphase
      refine ⟨h.paced.concat hphase.1 hphase.2, fun d hd hclock => ?_⟩
      exact hphase.1.concat hd hclock
  | gotQuotes syms fresh lastError phase =>
      rw [InPhase, phase] at hphase
      refine ⟨h.paced, ?_, hphase⟩
      split_ifs
      · decide
      · exact le_rfl
  | schedule interval phase =>
      rw [InPhase, phase] at hphase
      refine ⟨h.paced, hphase.2 _ ?_ (le_max_right _ _)⟩
      exact (add_le_add_right hphase.1 _).trans (le_max_left _ _)

theorem onPace_run
    {feed : StockFeed} {now : Int} {as : List StockStep} {p : StockPoller}
    (hrun : exec step (start feed now) as = some p) :
    p.OnPace :=
  exec_invariant_of_step step (I := OnPace)
    (fun _ _ _ h hstep => h.step hstep) (onPace_start feed now) hrun

/-! ### Deadlines without drift -/

/-- The poll does not fail, and it ends within an interval of its
deadline. -/
structure Timely (p : StockPoller) (a : StockStep) : Prop where
  succeeds : a.fails = false
  inTime : a = .schedule → p.clock ≤ p.nextPoll + kQuoteInterval

instance (p : StockPoller) (a : StockStep) : Decidable (p.Timely a) :=
  decidable_of_iff
    (a.fails = false ∧
      (a = .schedule → p.clock ≤ p.nextPoll + kQuoteInterval))
    ⟨fun h => ⟨h.1, h.2⟩, fun h => ⟨h.succeeds, h.inTime⟩⟩

/-- A deadline that is about to be set is the next one. -/
def NextInterval (p : StockPoller) : Prop :=
  ∀ interval, p.phase = .scheduling interval → interval = kQuoteInterval

theorem Timely.nextInterval
    {p q : StockPoller} {a : StockStep} (htimely : p.Timely a)
    (h : p.NextInterval) (hstep : p.step a = some q) :
    q.NextInterval := by
  cases step_moved hstep with
  | gotQuotes syms fresh lastError phase =>
      intro interval heq
      have hfresh : fresh ≠ [] := List.isEmpty_eq_false_iff.mp
        htimely.succeeds
      simp only [storeQuotes, if_neg hfresh, PollPhase.scheduling.injEq]
        at heq
      exact heq.symm
  | idle phase empty =>
      intro interval heq
      exact (PollPhase.scheduling.inj heq).symm
  | prepared syms sym todo phase =>
      intro interval hnext
      rcases p.prepare_cases syms sym todo with ⟨_, _, heq⟩ | heq | heq
      · rw [heq] at hnext
        cases hnext
      · rw [heq] at hnext
        cases hnext
      · rw [heq] at hnext
        cases hnext
  | gotBars syms sym needName todo bars lastError phase =>
      intro interval hnext
      rcases p.storeBars_phase syms sym needName todo bars lastError with
        hnew | hnew
      · rw [hnew] at hnext
        cases hnext
      · rw [hnew] at hnext
        cases hnext
  | pass duration =>
      exact h
  | watch symbol =>
      exact h
  | drainErrors =>
      exact h
  | sleep late phase early =>
      exact h
  | _ =>
      intro interval heq
      cases heq

/-- A step sets the deadline one interval on, or leaves it. -/
theorem Timely.nextPoll
    {p q : StockPoller} {a : StockStep} (htimely : p.Timely a)
    (h : p.NextInterval) (hstep : p.step a = some q) :
    q.nextPoll = p.nextPoll +
      (if a = .schedule then 1 else 0) * kQuoteInterval := by
  cases step_moved hstep with
  | schedule interval phase =>
      rw [if_pos rfl, one_mul, scheduleNext, h interval phase]
      exact max_eq_left (htimely.inTime rfl)
  | prepared syms sym todo phase =>
      simp [prepare]
  | gotBars syms sym needName todo bars lastError phase =>
      simp [storeBars]
  | gotQuotes syms fresh lastError phase =>
      simp [storeQuotes]
  | _ =>
      simp

theorem nextPoll_of_timely
    {p q : StockPoller} {bs : List StockStep} (h : p.NextInterval)
    (htimely : EverySteps step Timely p bs)
    (hrun : exec step p bs = some q) :
    q.nextPoll = p.nextPoll + bs.count .schedule * kQuoteInterval := by
  induction bs generalizing p with
  | nil =>
      rw [← Option.some.inj hrun, List.count_nil]
      simp
  | cons b bs ih =>
      obtain ⟨r, hstep, hrest⟩ := (exec_cons_eq_some step).mp hrun
      have hnext := htimely.1.nextPoll h hstep
      have hlater := ih (htimely.1.nextInterval h hstep)
        (htimely.2 r hstep) hrest
      rw [hlater, hnext]
      simp only [List.count_cons, beq_iff_eq]
      split_ifs
      · push_cast
        ring
      · push_cast
        ring

/-- **The stock poller neither bursts nor drifts.**  Whatever the requests
take, however late the loop is woken and whenever symbols are watched, each
half-open minute has at most 61 quote requests.  And from a deadline on, as
long as polls succeed and end within an interval of their deadlines, the
`k`-th deadline is `k` intervals later. -/
theorem poller_neither_bursts_nor_drifts
    {feed : StockFeed} {now : Int} {as : List StockStep} {p : StockPoller}
    (hrun : exec step (start feed now) as = some p) :
    (∀ w : Int, (p.starts.filter fun t =>
        w ≤ t ∧ t < w + 60 * 10 ^ 9).length ≤ 61) ∧
      ∀ (bs : List StockStep) (q : StockPoller), p.phase = .waiting →
        EverySteps step Timely p bs → exec step p bs = some q →
          q.nextPoll =
            p.nextPoll + bs.count .schedule * kQuoteInterval := by
  constructor
  · intro w
    exact (onPace_run hrun).paced.length_filter_le kQuoteInterval_nonneg
      w 60
  · intro bs q hphase htimely hbs
    refine nextPoll_of_timely ?_ htimely hbs
    intro interval heq
    rw [hphase] at heq
    cases heq

/-- One round of the loop over one new symbol, which takes `duration` and gets
one quote. -/
def round (duration : Nat) : List StockStep :=
  [.wake, .copySymbols, .nextSymbol, .gotBars [] "", .gotName "",
    .askQuotes, .pass duration, .gotQuotes [("X", {})] "", .schedule]

/-- A round of the loop over a symbol that is known, after a sleep that was
`late` too long. -/
def laterRound (late : Nat) : List StockStep :=
  [.sleep late, .wake, .copySymbols, .nextSymbol, .askQuotes,
    .gotQuotes [("X", {})] "", .schedule]

/-- The second round is nine tenths of an interval late, the third is not. -/
def lateRounds : List StockStep :=
  round 100 ++ laterRound 1850000000 ++ laterRound 60000000

theorem late_rounds_neither_burst_nor_drift :
    ∃ q, exec step (start { symbols := ["X"] } 0) lateRounds = some q ∧
      q.starts = [0, 1900000100, 2010000100] ∧
      (q.starts.filter fun t => 0 ≤ t ∧ t < 0 + 60 * 10 ^ 9).length ≤ 61 ∧
      q.nextPoll = 3 * kQuoteInterval := by
  have hrounds : (exec step (start { symbols := ["X"] } 0)
      lateRounds).map starts = some [0, 1900000100, 2010000100] := by
    decide +kernel
  obtain ⟨q, hq, hstarts⟩ := Option.map_eq_some_iff.mp hrounds
  have hstart : exec step (start { symbols := ["X"] } 0) [] =
      some (start { symbols := ["X"] } 0) := rfl
  have hnext := (poller_neither_bursts_nor_drifts hstart).2 lateRounds q
    rfl (by decide +kernel) hq
  exact ⟨q, hq, hstarts, (poller_neither_bursts_nor_drifts hq).1 0, hnext⟩

end StockPoller

end ExecutionLayer
