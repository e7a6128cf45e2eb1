import ExecutionLayer.OrderRuns

/-!
# Soundness of the risk gate over runs

The limits are checked on a projected position before an order is routed,
the real position is changed afterwards by the matcher and `onFill`.  The
gate is sound because a fill is exactly the checked quantity of the checked
symbol, which is what `WithinLimits` carries along a run.

Once the kill switch is tripped no order clears the gate.  The account is
then frozen, and a submission only files a rejected order.
-/

namespace ExecutionLayer

open StepSystem

namespace OrderManager

/-- The per-order and per-position limits hold of what was executed. -/
structure WithinLimits (limits : RiskLimits) (oms : OrderManager) :
    Prop where
  limits_eq : oms.risk.limits = limits
  fills_le : ∀ f ∈ oms.fills, f.qty ≤ limits.maxOrderQty
  position_le : ∀ sym,
    |oms.portfolio.netQty sym| ≤ limits.maxPositionQty

theorem withinLimits_funded
    {risk : RiskManager} {capital : ℚ}
    (hmax : 0 ≤ risk.limits.maxPositionQty) :
    WithinLimits risk.limits (funded risk capital) where
  limits_eq := rfl
  fills_le := by
    intro f hf
    simp [funded] at hf
  position_le := by
    intro sym
    have hnet : (funded risk capital).portfolio.netQty sym = 0 := rfl
    rw [hnet, abs_zero]
    exact hmax

theorem WithinLimits.submitted
    {limits : RiskLimits} {oms oms' : OrderManager}
    {sig : Signal} {market : Quote} {id : Option Nat}
    (h : WithinLimits limits oms)
    (hsub : Submitted oms sig market id oms') :
    WithinLimits limits oms' := by
  cases hsub with
  | degenerate _ =>
      exact h
  | rejected reason _ _ _ =>
      exact ⟨h.limits_eq, h.fills_le, h.position_le⟩
  | resting _ _ _ =>
      exact ⟨h.limits_eq, h.fills_le, h.position_le⟩
  | filled _ hgates _ =>
      refine ⟨h.limits_eq, ?_, ?_⟩
      · intro f hf
        rcases List.mem_append.mp hf with hf | hf
        · exact h.fills_le f hf
        · rw [List.mem_singleton.mp hf, fillFor_qty, ← h.limits_eq]
          exact hgates.risk.qty_le
      · intro sym
        have hnet := Portfolio.apply_netQty oms.portfolio
          (oms.fillFor sig market) sym
        rw [fillFor_symbol, fillFor_trade_qty] at hnet
        change |(oms.portfolio.apply _).netQty sym| ≤ _
        rw [hnet]
        split_ifs with hsym
        · subst hsym
          rw [← h.limits_eq]
          exact hgates.risk.position_le
        · rw [add_zero]
          exact h.position_le sym

/-- Two states with the same cash, positions, round trips and fills. -/
structure SameAccount (oms oms' : OrderManager) : Prop where
  cash : oms'.portfolio.cash = oms.portfolio.cash
  positions : oms'.portfolio.positions = oms.portfolio.positions
  closed : oms'.portfolio.closed = oms.portfolio.closed
  fills : oms'.fills = oms.fills

/-- A submission under a tripped kill switch files a rejected order. -/
theorem submit_killed
    {oms : OrderManager} (hk : oms.risk.killed = true)
    {sig : Signal} (market : Quote) (hsig : ¬ Degenerate sig) :
    ∃ reason, reason ≠ "" ∧
      oms.submit sig market =
        (some oms.nextId, oms.stored
          { orderOf oms.nextId sig with
            status := .rejected, rejectReason := reason }) := by
  have hsub := submit_submitted oms sig market
  have hno : ¬ oms.Cleared sig market := by
    intro h
    rw [h.risk.alive] at hk
    exact Bool.false_ne_true hk
  rcases hres : oms.submit sig market with ⟨id, oms'⟩
  rw [hres] at hsub
  cases hsub with
  | degenerate h =>
      exact absurd h hsig
  | rejected reason _ _ hreason =>
      exact ⟨reason, hreason, rfl⟩
  | resting _ hgates _ =>
      exact absurd hgates hno
  | filled _ hgates _ =>
      exact absurd hgates hno

/-- Tripped, with the account of `base`. -/
structure Halted (base oms : OrderManager) : Prop where
  killed : oms.risk.killed = true
  same : SameAccount base oms

theorem Halted.submitted
    {base oms oms' : OrderManager}
    {sig : Signal} {market : Quote} {id : Option Nat}
    (h : Halted base oms)
    (hsub : Submitted oms sig market id oms') :
    Halted base oms' := by
  have hno : ¬ oms.Cleared sig market := by
    intro hgates
    have hk := h.killed
    rw [hgates.risk.alive] at hk
    exact Bool.false_ne_true hk
  cases hsub with
  | degenerate _ =>
      exact h
  | rejected reason _ _ _ =>
      exact ⟨h.killed, h.same.cash, h.same.positions, h.same.closed,
        h.same.fills⟩
  | resting _ hgates _ =>
      exact absurd hgates hno
  | filled _ hgates _ =>
      exact absurd hgates hno

/-- From the kill switch on, no list of calls changes the account. -/
theorem halted_run
    (oms : OrderManager) (reason : String) (calls : List OmsCall) :
    Halted oms (run call (oms.call (.kill reason)) calls) := by
  refine run_invariant_of_submitted (I := Halted oms) ?_ ?_ ?_ calls
  · intro t why h
    exact ⟨rfl, h.same.cash, h.same.positions, h.same.closed,
      h.same.fills⟩
  · intro t sig market id t' h hsub
    exact h.submitted hsub
  · exact ⟨rfl, rfl, rfl, rfl, rfl⟩

/-- **The risk gate is sound over runs.**  Every executed fill is within the
order limit, every position is within the position limit, and a kill freezes
the account: later submissions only file rejected orders. -/
theorem risk_gate_sound
    (risk : RiskManager) (capital : ℚ)
    (hmax : 0 ≤ risk.limits.maxPositionQty)
    (calls : List OmsCall) :
    (∀ f ∈ (reached risk capital calls).fills,
        f.qty ≤ risk.limits.maxOrderQty) ∧
      (∀ sym, |(reached risk capital calls).portfolio.netQty sym| ≤
        risk.limits.maxPositionQty) ∧
      (∀ (reason : String) (later : List OmsCall),
        SameAccount (reached risk capital calls)
            (reached risk capital (calls ++ .kill reason :: later)) ∧
          ∀ (sig : Signal) (market : Quote), ¬ Degenerate sig →
            ∃ why, why ≠ "" ∧
              (reached risk capital
                  (calls ++ .kill reason :: later)).submit sig market =
                (some (reached risk capital
                    (calls ++ .kill reason :: later)).nextId,
                  (reached risk capital
                    (calls ++ .kill reason :: later)).stored
                    { orderOf (reached risk capital
                        (calls ++ .kill reason :: later)).nextId sig with
                      status := .rejected, rejectReason := why })) := by
  have hlim : WithinLimits risk.limits (reached risk capital calls) := by
    refine run_invariant_of_submitted (I := WithinLimits risk.limits)
      ?_ ?_ (withinLimits_funded hmax) calls
    · intro oms reason h
      exact ⟨h.limits_eq, h.fills_le, h.position_le⟩
    · intro oms sig market id oms' h hsub
      exact h.submitted hsub
  refine ⟨hlim.fills_le, hlim.position_le, ?_⟩
  intro reason later
  have hhalt : Halted (reached risk capital calls)
      (reached risk capital (calls ++ .kill reason :: later)) := by
    have h := halted_run (reached risk capital calls) reason later
    rwa [reached, ← run_cons call, ← run_append] at h
  exact ⟨hhalt.same,
    fun sig market hsig => submit_killed hhalt.killed market hsig⟩

/-- The gate on an account that bought one unit within its limits. -/
theorem risk_gate_sound_after_buy :
    (reached {} 100
        [.submit { symbol := "BTC-USD", targetQty := 1 }
          { bid := 9, ask := 10 }]).fills.length = 1 ∧
      (∀ f ∈ (reached {} 100
        [.submit { symbol := "BTC-USD", targetQty := 1 }
          { bid := 9, ask := 10 }]).fills, f.qty ≤ 1) ∧
      |(reached {} 100
        [.submit { symbol := "BTC-USD", targetQty := 1 }
          { bid := 9, ask := 10 }]).portfolio.netQty "BTC-USD"| ≤ 5 := by
  obtain ⟨hfills, hpos, -⟩ := risk_gate_sound {} 100 (by decide +kernel)
    [.submit { symbol := "BTC-USD", targetQty := 1 }
      { bid := 9, ask := 10 }]
  exact ⟨by decide +kernel, hfills, hpos "BTC-USD"⟩

end OrderManager

end ExecutionLayer
