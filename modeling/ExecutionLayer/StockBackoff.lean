import ExecutionLayer.StockPoller

/-!
# The backoff of the stock poller

After a failed poll the loop wants to wait for `kErrorBackoff`.  It adds the
backoff to the deadline of the failed poll, as it adds the interval to the
deadline of any other, so the time that the poll itself took is taken off the
wait: a request that runs into its timeout of ten seconds is repeated at once.

The next poll keeps the distance to the failure, up to one tick, exactly when
the failure came at most one tick behind the deadline
(`failed_poll_backs_off_iff`).
-/

namespace ExecutionLayer

open StepSystem

/-- The loop has copied a watch list to poll it. -/
def PollPhase.Busy : PollPhase → Prop
  | .preparing _ _ => True
  | .backfilling _ _ _ _ => True
  | .naming _ _ _ => True
  | .quoting _ => True
  | _ => False

namespace StockPoller

/-- If the poll fails now, the next one does not start before the backoff is
over, up to a tick. -/
def BacksOff (p : StockPoller) (lastError : String) : Prop :=
  ∀ bs q, StockStep.askQuotes ∉ bs →
    exec step p (.gotQuotes [] lastError :: bs) = some q →
      (q.step .askQuotes).isSome →
        p.clock + kErrorBackoff ≤ q.clock + kTick

/-! ### The wait -/

/-- No poll starts before `moment`, by where the loop stands. -/
def Held (moment : Int) (p : StockPoller) : Prop :=
  match p.phase with
  | .waiting => moment ≤ p.nextPoll
  | .quoting _ => False
  | .scheduling interval =>
      moment ≤ p.nextPoll + interval
  | _ => moment ≤ p.nextPoll ∧ p.nextPoll ≤ p.clock

theorem Held.later
    {moment : Int} {p : StockPoller} (h : p.Held moment) {clock : Int}
    (hle : p.clock ≤ clock) :
    Held moment { p with clock := clock } := by
  rcases p with ⟨feed, backfilled, nextPoll, old, phase, starts⟩
  cases phase with
  | waiting =>
      exact h
  | quoting syms =>
      exact h
  | scheduling interval =>
      exact h
  | due =>
      exact ⟨h.1, h.2.trans hle⟩
  | preparing syms todo =>
      exact ⟨h.1, h.2.trans hle⟩
  | backfilling syms sym needName todo =>
      exact ⟨h.1, h.2.trans hle⟩
  | naming syms sym todo =>
      exact ⟨h.1, h.2.trans hle⟩

theorem Held.moved
    {moment : Int} {p q : StockPoller} {a : StockStep}
    (h : p.Held moment) (ha : a ≠ .askQuotes)
    (hstep : p.step a = some q) :
    q.Held moment := by
  have hphase := h
  cases step_moved hstep with
  | pass duration =>
      exact h.later (by omega)
  | watch symbol =>
      exact h
  | drainErrors =>
      exact h
  | sleep late phase early =>
      refine h.later ?_
      have htick : 0 ≤ kTick := by decide
      omega
  | wake phase behind =>
      rw [Held, phase] at hphase
      exact ⟨hphase, behind⟩
  | idle phase empty =>
      rw [Held, phase] at hphase
      have hinterval : 0 ≤ kQuoteInterval := by decide
      exact hphase.1.trans (le_add_of_nonneg_right hinterval)
  | copied phase watched =>
      rw [Held, phase] at hphase
      exact hphase
  | prepared syms sym todo phase =>
      rw [Held, phase] at hphase
      rcases p.prepare_cases syms sym todo with ⟨_, _, heq⟩ | heq | heq
      · rw [heq]
        exact hphase
      · rw [heq]
        exact hphase
      · rw [heq]
        exact hphase
  | gotBars syms sym needName todo bars lastError phase =>
      rw [Held, phase] at hphase
      rcases p.storeBars_phase syms sym needName todo bars lastError with
        hnew | hnew
      · rw [Held, hnew]
        exact hphase
      · rw [Held, hnew]
        exact hphase
  | gotName syms sym todo name phase =>
      rw [Held, phase] at hphase
      exact hphase
  | askQuotes syms phase =>
      exact absurd rfl ha
  | gotQuotes syms fresh lastError phase =>
      rw [Held, phase] at hphase
      exact hphase.elim
  | schedule interval phase =>
      rw [Held, phase] at hphase
      exact hphase.trans (le_max_left _ _)

theorem Held.run
    {moment : Int} {p q : StockPoller} {bs : List StockStep}
    (h : p.Held moment) (hbs : .askQuotes ∉ bs)
    (hrun : exec step p bs = some q) :
    q.Held moment := by
  refine exec_invariant step (I := Held moment)
    (C := fun _ a => a ≠ .askQuotes) ?_ h ?_ hrun
  · intro p a q h ha hstep
    exact h.moved ha hstep
  · refine everySteps_of_forall step ?_ p
    intro a ha _ heq
    exact hbs (heq ▸ ha)

/-- A poll starts at the moment or behind it. -/
theorem Held.le_clock
    {moment : Int} {p : StockPoller} (h : p.Held moment)
    (hask : (p.step .askQuotes).isSome) :
    moment ≤ p.clock := by
  obtain ⟨q, hq⟩ := Option.isSome_iff_exists.mp hask
  cases step_moved hq with
  | askQuotes syms phase =>
      rw [Held, phase] at h
      exact h.1.trans h.2

/-! ### The next poll at its earliest -/

/-- The loop gets from the one state to the other without a poll and in no
time. -/
def Glides (p q : StockPoller) : Prop :=
  q.clock = p.clock ∧ ∃ bs, StockStep.askQuotes ∉ bs ∧
    exec step p bs = some q

theorem Glides.refl (p : StockPoller) : p.Glides p :=
  ⟨rfl, [], List.not_mem_nil, rfl⟩

theorem Glides.trans
    {p q r : StockPoller} (h : p.Glides q) (h' : q.Glides r) :
    p.Glides r := by
  obtain ⟨hclock, bs, hbs, hrun⟩ := h
  obtain ⟨hclock', bs', hbs', hrun'⟩ := h'
  refine ⟨hclock'.trans hclock, bs ++ bs', ?_, ?_⟩
  · rw [List.mem_append, not_or]
    exact ⟨hbs, hbs'⟩
  · rw [exec_append, hrun]
    exact hrun'

theorem glides_of_step
    {p q : StockPoller} {a : StockStep} (hstep : p.step a = some q)
    (ha : a ≠ .askQuotes) (hclock : q.clock = p.clock) :
    p.Glides q := by
  refine ⟨hclock, [a], ?_, ?_⟩
  · rw [List.mem_singleton]
    exact Ne.symm ha
  · rw [exec_cons_eq_some]
    exact ⟨q, hstep, rfl⟩

section OneTimeWork

variable {p : StockPoller} {syms : List String} {sym : String}
variable {todo : List String}

theorem exists_glides_of_naming
    (h : p.phase = .naming syms sym todo) :
    ∃ q, p.Glides q ∧ q.phase = .preparing syms todo := by
  have hstep : p.step (.gotName "") =
      some
        { p with
          feed := p.feed.storeName sym ""
          phase := .preparing syms todo } := by
    simp only [step, h]
  exact ⟨_, glides_of_step hstep (by simp) rfl, rfl⟩

theorem exists_glides_of_backfilling {needName : Bool}
    (h : p.phase = .backfilling syms sym needName todo) :
    ∃ q, p.Glides q ∧ q.phase = .preparing syms todo := by
  have hstep : p.step (.gotBars [] "") =
      some (p.storeBars syms sym needName todo [] "") := by
    simp only [step, h]
  have hbars : p.Glides (p.storeBars syms sym needName todo [] "") :=
    glides_of_step hstep (by simp) rfl
  rcases p.storeBars_phase syms sym needName todo [] "" with hnew | hnew
  · obtain ⟨q, hq, hphase⟩ := exists_glides_of_naming hnew
    exact ⟨q, hbars.trans hq, hphase⟩
  · exact ⟨_, hbars, hnew⟩

theorem exists_glides_of_preparing
    (h : p.phase = .preparing syms (sym :: todo)) :
    ∃ q, p.Glides q ∧ q.phase = .preparing syms todo := by
  have hstep : p.step .nextSymbol = some (p.prepare syms sym todo) := by
    simp only [step, h]
  have hnext : p.Glides (p.prepare syms sym todo) :=
    glides_of_step hstep (by simp) rfl
  rcases p.prepare_cases syms sym todo with ⟨needName, _, heq⟩ | heq | heq
  · rw [heq] at hnext
    obtain ⟨q, hq, hphase⟩ := exists_glides_of_backfilling
      (p := { p with phase := .backfilling syms sym needName todo }) rfl
    exact ⟨q, hnext.trans hq, hphase⟩
  · rw [heq] at hnext
    obtain ⟨q, hq, hphase⟩ := exists_glides_of_naming
      (p := { p with phase := .naming syms sym todo }) rfl
    exact ⟨q, hnext.trans hq, hphase⟩
  · rw [heq] at hnext
    exact ⟨_, hnext, rfl⟩

end OneTimeWork

/-- The one-time work of all symbols may be done in no time. -/
theorem exists_glides_prepared
    {p : StockPoller} {syms todo : List String}
    (h : p.phase = .preparing syms todo) :
    ∃ q, p.Glides q ∧ q.phase = .preparing syms [] := by
  induction todo generalizing p with
  | nil =>
      exact ⟨p, .refl p, h⟩
  | cons sym todo ih =>
      obtain ⟨r, hr, hphase⟩ := exists_glides_of_preparing h
      obtain ⟨q, hq, hdone⟩ := ih hphase
      exact ⟨q, hr.trans hq, hdone⟩

/-- With a symbol to poll, the loop that is about to set its deadline may poll
as soon as the deadline is there. -/
theorem exists_poll_at_deadline
    {p : StockPoller} {interval : Int}
    (h : p.phase = .scheduling interval) (hwatched : p.feed.symbols ≠ []) :
    ∃ bs q, StockStep.askQuotes ∉ bs ∧ exec step p bs = some q ∧
      (q.step .askQuotes).isSome ∧
        q.clock = max (p.nextPoll + interval) p.clock := by
  have hlate : p.clock ≤ max (p.nextPoll + interval) p.clock :=
    le_max_right _ _
  generalize hd : max (p.nextPoll + interval) p.clock = deadline at hlate ⊢
  -- the state in which the watch list has been copied at the deadline
  let r : StockPoller :=
    { p with
      nextPoll := deadline
      clock := deadline
      phase := .preparing p.feed.symbols p.feed.symbols }
  have hr : exec step p
      [.schedule, .pass (deadline - p.clock).toNat, .wake,
        .copySymbols] = some r := by
    have hclock : p.clock + ((deadline - p.clock).toNat : Int) =
        deadline := by
      omega
    simp only [exec, step, h, scheduleNext, hd, hclock, Option.bind_some,
      lt_irrefl, not_false_eq_true, and_self, if_true, if_neg hwatched, r]
  obtain ⟨q, ⟨hclock, bs, hbs, hrun⟩, hphase⟩ :=
    exists_glides_prepared (p := r) rfl
  refine ⟨[.schedule, .pass (deadline - p.clock).toNat, .wake,
    .copySymbols] ++ bs, q, ?_, ?_, ?_, hclock⟩
  · rw [List.mem_append, not_or]
    exact ⟨by simp, hbs⟩
  · rw [exec_append, hr]
    exact hrun
  · simp only [step, hphase, Option.isSome_some]

/-! ### Who is polled is watched -/

/-- A watch list that was copied to be polled is not empty. -/
def Watched (p : StockPoller) : Prop :=
  p.phase.Busy → p.feed.symbols ≠ []

theorem Watched.moved
    {p q : StockPoller} {a : StockStep} (h : p.Watched)
    (hstep : p.step a = some q) :
    q.Watched := by
  have hkept : p.phase.Busy → q.feed.symbols ≠ [] := by
    intro hbusy hempty
    have hsub := step_symbols hstep
    rw [hempty] at hsub
    exact h hbusy (List.subset_nil.mp hsub)
  intro hbusy
  cases step_moved hstep with
  | copied phase watched =>
      exact watched
  | prepared syms sym todo phase =>
      exact hkept (by rw [phase]; trivial)
  | gotBars syms sym needName todo bars lastError phase =>
      exact hkept (by rw [phase]; trivial)
  | gotName syms sym todo name phase =>
      exact hkept (by rw [phase]; trivial)
  | askQuotes syms phase =>
      exact hkept (by rw [phase]; trivial)
  | pass duration =>
      exact hkept hbusy
  | watch symbol =>
      exact hkept hbusy
  | drainErrors =>
      exact hkept hbusy
  | sleep late phase early =>
      exact hkept hbusy
  | _ =>
      exact hbusy.elim

theorem watched_start (feed : StockFeed) (now : Int) :
    (start feed now).Watched := by
  intro hbusy
  exact hbusy.elim

theorem watched_run
    {feed : StockFeed} {now : Int} {as : List StockStep} {p : StockPoller}
    (hrun : exec step (start feed now) as = some p) :
    p.Watched :=
  exec_invariant_of_step step (I := Watched)
    (fun _ _ _ h hstep => h.moved hstep) (watched_start feed now) hrun

/-! ### The failed poll -/

/-- **A failed poll backs off exactly when it failed in time.**  In whatever
run: the next poll keeps away from a failure for the backoff, up to a tick, if
and only if the failure came at most a tick behind the deadline of the poll
that failed. -/
theorem failed_poll_backs_off_iff
    {feed : StockFeed} {now : Int} {as : List StockStep} {p : StockPoller}
    {syms : List String}
    (hrun : exec step (start feed now) as = some p)
    (hphase : p.phase = .quoting syms) (lastError : String) :
    p.BacksOff lastError ↔ p.clock ≤ p.nextPoll + kTick := by
  have hfail : p.step (.gotQuotes [] lastError) =
      some (p.storeQuotes [] lastError) := by
    simp only [step, hphase]
  have hscheduling : (p.storeQuotes [] lastError).phase =
      .scheduling kErrorBackoff := rfl
  constructor
  · intro h
    have hwatched : (p.storeQuotes [] lastError).feed.symbols ≠ [] := by
      have hbusy : p.phase.Busy := by
        rw [hphase]
        trivial
      have hsymbols := StockFeed.update_symbols p.feed
        (.quotes [] lastError)
      exact fun hempty => watched_run hrun hbusy (hsymbols.symm.trans hempty)
    obtain ⟨bs, q, hbs, hexec, hask, hclock⟩ :=
      exists_poll_at_deadline hscheduling hwatched
    have hle := h bs q hbs
      ((exec_cons_eq_some step).mpr ⟨_, hfail, hexec⟩) hask
    have hclock : q.clock =
        max (p.nextPoll + kErrorBackoff) p.clock := hclock
    rw [hclock] at hle
    have hlong : kTick < kErrorBackoff := by decide
    rcases max_choice (p.nextPoll + kErrorBackoff) p.clock with heq | heq
    · omega
    · omega
  · intro hle bs q hbs hexec hask
    obtain ⟨r, hr, hrest⟩ := (exec_cons_eq_some step).mp hexec
    obtain rfl := Option.some.inj (hfail.symm.trans hr)
    have hheld : Held (p.nextPoll + kErrorBackoff)
        (p.storeQuotes [] lastError) := le_rfl
    have hnext := (hheld.run hbs hrest).le_clock hask
    omega

/-- A poll of one new symbol that has been asked for `duration` ago. -/
def asking (duration : Nat) : List StockStep :=
  [.wake, .copySymbols, .nextSymbol, .gotBars [] "", .gotName "",
    .askQuotes, .pass duration]

/-- A request that fails within the tick is not repeated before the backoff is
over. -/
theorem failed_poll_backs_off_within_tick :
    ∃ p, exec step (start { symbols := ["X"] } 0)
        (asking (20 * 10 ^ 6)) = some p ∧
      p.BacksOff "HTTP 429" := by
  have hstate : (exec step (start { symbols := ["X"] } 0)
      (asking (20 * 10 ^ 6))).map (fun p => (p.phase, p.clock, p.nextPoll)) =
        some (.quoting ["X"], 20 * 10 ^ 6, 0) := by
    decide +kernel
  obtain ⟨p, hrun, hp⟩ := Option.map_eq_some_iff.mp hstate
  obtain ⟨hphase, hclock, hnext⟩ : p.phase = .quoting ["X"] ∧
      p.clock = 20 * 10 ^ 6 ∧ p.nextPoll = 0 := by
    simpa only [Prod.mk.injEq] using hp
  refine ⟨p, hrun, (failed_poll_backs_off_iff hrun hphase _).mpr ?_⟩
  rw [hclock, hnext]
  decide

/-- A request that runs into its timeout is repeated at once. -/
theorem timed_out_poll_repeated_at_once :
    ∃ p, exec step (start { symbols := ["X"] } 0)
        (asking (10 * 10 ^ 9)) = some p ∧
      p.phase = .quoting ["X"] ∧
      (exec step p [.gotQuotes [] "timeout", .schedule, .wake,
        .copySymbols, .nextSymbol, .askQuotes]).map starts =
          some [0, 10 * 10 ^ 9] ∧
      ¬ p.BacksOff "timeout" := by
  have hstate : (exec step (start { symbols := ["X"] } 0)
      (asking (10 * 10 ^ 9))).map (fun p => (p.phase, p.clock)) =
        some (.quoting ["X"], 10 * 10 ^ 9) := by
    decide +kernel
  have hrepeated : (exec step (start { symbols := ["X"] } 0)
      (asking (10 * 10 ^ 9) ++ [.gotQuotes [] "timeout", .schedule, .wake,
        .copySymbols, .nextSymbol, .askQuotes])).map starts =
          some [0, 10 * 10 ^ 9] := by
    decide +kernel
  have hnext : (exec step (start { symbols := ["X"] } 0)
      (asking (10 * 10 ^ 9) ++ [.gotQuotes [] "timeout", .schedule, .wake,
        .copySymbols, .nextSymbol])).map
          (fun q => (q.clock, (q.step .askQuotes).isSome)) =
            some (10 * 10 ^ 9, true) := by
    decide +kernel
  obtain ⟨p, hrun, hp⟩ := Option.map_eq_some_iff.mp hstate
  obtain ⟨hphase, hclock⟩ : p.phase = .quoting ["X"] ∧
      p.clock = 10 * 10 ^ 9 := by
    simpa only [Prod.mk.injEq] using hp
  rw [exec_append, hrun, Option.bind_some] at hrepeated hnext
  refine ⟨p, hrun, hphase, hrepeated, fun h => ?_⟩
  obtain ⟨q, hq, hask⟩ := Option.map_eq_some_iff.mp hnext
  obtain ⟨hnow, hsome⟩ : q.clock = 10 * 10 ^ 9 ∧
      (q.step .askQuotes).isSome = true := by
    simpa only [Prod.mk.injEq] using hask
  have hle := h [.schedule, .wake, .copySymbols, .nextSymbol] q
    (by decide) hq hsome
  rw [hclock, hnow] at hle
  exact absurd hle (by decide)

end StockPoller

end ExecutionLayer
