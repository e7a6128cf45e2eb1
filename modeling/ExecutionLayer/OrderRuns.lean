import ExecutionLayer.OrderManager

/-!
# Runs of the order manager

The calls that reach an order manager from outside are `submit`, `flatten`
and the kill switch of its risk manager.  A run is a list of such calls, each
with its own signal and quote, made on a freshly funded account.

`call_invariant` packages the induction: a property that the kill switch and
each of the four outcomes of a submission preserve holds along every run.
-/

namespace ExecutionLayer

open StepSystem

/-- A call made on the order manager. -/
inductive OmsCall where
  | submit (sig : Signal) (market : Quote)
  | flatten (symbol : String) (market : Quote)
  | kill (reason : String)
deriving DecidableEq, Repr

namespace OrderManager

def call (oms : OrderManager) : OmsCall → OrderManager
  | .submit sig market => (oms.submit sig market).2
  | .flatten symbol market => (oms.flatten symbol market).2
  | .kill reason => { oms with risk := oms.risk.kill reason }

/-- A fresh order manager over an account funded with `capital`. -/
def funded (risk : RiskManager) (capital : ℚ) : OrderManager where
  risk := risk
  portfolio := Portfolio.fund {} capital

/-- The state after a list of calls on a freshly funded account. -/
def reached (risk : RiskManager) (capital : ℚ) (calls : List OmsCall) :
    OrderManager :=
  run call (funded risk capital) calls

/-- The signal and quote a call submits, if it submits one. -/
def signalOf (oms : OrderManager) : OmsCall → Option (Signal × Quote)
  | .submit sig market => some (sig, market)
  | .flatten symbol market =>
      if oms.portfolio.netQty symbol ≤ qtyTolerance then none
      else
        some (flattenSignal symbol (oms.portfolio.netQty symbol) market,
          market)
  | .kill _ => none

/-- A call with a signal is the submission of that signal. -/
theorem call_eq_submit
    {oms : OrderManager} {c : OmsCall} {sig : Signal} {market : Quote}
    (hsig : oms.signalOf c = some (sig, market)) :
    oms.call c = (oms.submit sig market).2 := by
  cases c with
  | submit sig' market' =>
      simp only [signalOf, Option.some.injEq, Prod.mk.injEq] at hsig
      obtain ⟨rfl, rfl⟩ := hsig
      rfl
  | flatten symbol market' =>
      by_cases hnet : oms.portfolio.netQty symbol ≤ qtyTolerance
      · simp [signalOf, hnet] at hsig
      · simp only [signalOf, hnet, if_false, Option.some.injEq,
          Prod.mk.injEq] at hsig
        obtain ⟨rfl, rfl⟩ := hsig
        simp [call, flatten, hnet]
  | kill reason =>
      simp [signalOf] at hsig

theorem call_submitted
    {oms : OrderManager} {c : OmsCall} {sig : Signal} {market : Quote}
    (hsig : oms.signalOf c = some (sig, market)) :
    Submitted oms sig market (oms.submit sig market).1 (oms.call c) := by
  rw [call_eq_submit hsig]
  exact submit_submitted oms sig market

/-- A call without a signal trips the kill switch or does nothing. -/
theorem call_of_signalOf_none
    {oms : OrderManager} {c : OmsCall}
    (hsig : oms.signalOf c = none) :
    (∃ reason,
      oms.call c = { oms with risk := oms.risk.kill reason }) ∨
      oms.call c = oms := by
  cases c with
  | submit sig market =>
      simp [signalOf] at hsig
  | flatten symbol market =>
      by_cases hnet : oms.portfolio.netQty symbol ≤ qtyTolerance
      · right
        simp [call, flatten, hnet]
      · simp [signalOf, hnet] at hsig
  | kill reason =>
      exact Or.inl ⟨reason, rfl⟩

section Invariants

variable {I : OrderManager → Prop}
variable {P : OrderManager → Signal → Quote → Prop}

/-- Every signal that a call submits satisfies `P`. -/
def Signals (P : OrderManager → Signal → Quote → Prop)
    (oms : OrderManager) (c : OmsCall) : Prop :=
  ∀ sig market, oms.signalOf c = some (sig, market) → P oms sig market

/-- The step rule: kill switch and submission outcomes. -/
theorem call_invariant_of_signals
    (hkill : ∀ oms reason,
      I oms → I { oms with risk := oms.risk.kill reason })
    (hsubmit : ∀ oms sig market id oms',
      I oms → P oms sig market →
        Submitted oms sig market id oms' → I oms')
    (oms : OrderManager) (c : OmsCall)
    (hI : I oms) (hP : Signals P oms c) :
    I (oms.call c) := by
  cases hsig : oms.signalOf c with
  | none =>
      rcases call_of_signalOf_none hsig with ⟨reason, heq⟩ | heq
      · rw [heq]
        exact hkill oms reason hI
      · rw [heq]
        exact hI
  | some signal =>
      obtain ⟨sig, market⟩ := signal
      exact hsubmit oms sig market _ _ hI (hP sig market hsig)
        (call_submitted hsig)

/-- The run rule, for runs whose submitted signals all satisfy `P`. -/
theorem run_invariant_of_signals
    (hkill : ∀ oms reason,
      I oms → I { oms with risk := oms.risk.kill reason })
    (hsubmit : ∀ oms sig market id oms',
      I oms → P oms sig market →
        Submitted oms sig market id oms' → I oms')
    {oms : OrderManager} {calls : List OmsCall}
    (hI : I oms) (hP : AllSteps call (Signals P) oms calls) :
    I (run call oms calls) :=
  run_invariant_of_allSteps call
    (call_invariant_of_signals hkill hsubmit) hI hP

/-- The run rule for arbitrary calls. -/
theorem run_invariant_of_submitted
    (hkill : ∀ oms reason,
      I oms → I { oms with risk := oms.risk.kill reason })
    (hsubmit : ∀ oms sig market id oms',
      I oms → Submitted oms sig market id oms' → I oms')
    {oms : OrderManager} (hI : I oms) (calls : List OmsCall) :
    I (run call oms calls) := by
  refine run_invariant call ?_ hI calls
  intro oms c hc
  refine call_invariant_of_signals (P := fun _ _ _ => True)
    hkill ?_ oms c hc ?_
  · intro oms sig market id oms' hI _ hsub
    exact hsubmit oms sig market id oms' hI hsub
  · intro sig market _
    trivial

end Invariants

/-! ### Facts of one submission -/

/-- The fill of an executed signal. -/
theorem fillFor_pos
    {oms : OrderManager} {sig : Signal} {market : Quote}
    (h : PaperMatchingEngine.Fills (orderOf oms.nextId sig) market) :
    0 < (oms.fillFor sig market).qty ∧
      0 < (oms.fillFor sig market).price :=
  ⟨h.leaves_pos, h.touch_pos⟩

@[simp] theorem fillFor_qty
    (oms : OrderManager) (sig : Signal) (market : Quote) :
    (oms.fillFor sig market).qty = sig.targetQty :=
  sub_zero _

@[simp] theorem fillFor_price
    (oms : OrderManager) (sig : Signal) (market : Quote) :
    (oms.fillFor sig market).price = market.touch sig.side := by
  rfl

@[simp] theorem fillFor_side
    (oms : OrderManager) (sig : Signal) (market : Quote) :
    (oms.fillFor sig market).side = sig.side := by
  rfl

@[simp] theorem fillFor_symbol
    (oms : OrderManager) (sig : Signal) (market : Quote) :
    (oms.fillFor sig market).symbol = sig.symbol := by
  rfl

@[simp] theorem fillFor_orderId
    (oms : OrderManager) (sig : Signal) (market : Quote) :
    (oms.fillFor sig market).orderId = oms.nextId := by
  rfl

/-- The signed quantity a filled signal adds to the position. -/
theorem fillFor_trade_qty
    (oms : OrderManager) (sig : Signal) (market : Quote) :
    (oms.fillFor sig market).trade.qty =
      signedQty sig.side sig.targetQty := by
  simp [Fill.trade]

end OrderManager

end ExecutionLayer
