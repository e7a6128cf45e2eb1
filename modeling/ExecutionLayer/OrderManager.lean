import ExecutionLayer.Portfolio
import ExecutionLayer.RiskAndMatching

/-!
# Order management system

`OrderManager` of `oms.cpp`: a signal becomes an order, passes the account
rules and the risk limits, is routed to the matching engine, and its fills
are applied to the portfolio.  The three components the class refers to (risk
manager, matcher, portfolio) are fields here, because nothing else writes to
the matcher and the portfolio.  What the class prints on `std::cerr` is kept
in `errLog`.

`Submitted` lists the four ways a submission can end, with everything the
new state then holds.  Every later fact about runs of the order manager is
derived from `submit_submitted`, and no later proof unfolds `submit`.
-/

namespace ExecutionLayer

/-- The literal `1e-12` of the order manager. -/
def qtyTolerance : ℚ := 1 / 10 ^ 12

theorem qtyTolerance_pos : 0 < qtyTolerance := by
  norm_num [qtyTolerance]

/-- Legal transitions of the order state machine. -/
def legal (source target : OrderStatus) : Bool :=
  match source with
  | .new => target == .sent || target == .rejected
  | .sent =>
      target == .partiallyFilled || target == .filled
        || target == .cancelled || target == .rejected
  | .partiallyFilled =>
      target == .partiallyFilled || target == .filled
        || target == .cancelled
  | _ => false

structure OrderManager where
  risk : RiskManager := {}
  matcher : PaperMatchingEngine := {}
  portfolio : Portfolio := {}
  nextId : Nat := 1
  orders : Finmap fun _ : Nat => Order := ∅
  fills : List Fill := []
  errLog : List String := []
deriving DecidableEq

namespace OrderManager

def transition (oms : OrderManager) (o : Order) (target : OrderStatus) :
    Bool × Order × OrderManager :=
  if legal o.status target then (true, { o with status := target }, oms)
  else
    (false, o,
      { oms with
        errLog := oms.errLog ++
          ["[oms] illegal transition " ++ o.status.toString ++ " -> " ++
            target.toString ++ " on order " ++ toString o.id] })

def referencePrice (o : Order) (market : Quote) : ℚ :=
  if o.type = .limit ∧ 0 < o.limitPrice then o.limitPrice
  else market.touch o.side

/-- Book a fill: update its order, then the portfolio and the fill list. -/
def onFill (oms : OrderManager) (f : Fill) : OrderManager :=
  match oms.orders.lookup f.orderId with
  | none =>
      { oms with
        errLog := oms.errLog ++
          ["[oms] fill for unknown order " ++ toString f.orderId] }
  | some o =>
      let newFilled := o.filledQty + f.qty
      let avg :=
        if 0 < newFilled then
          (o.avgFillPrice * o.filledQty + f.price * f.qty) / newFilled
        else o.avgFillPrice
      let o := { o with avgFillPrice := avg, filledQty := newFilled }
      let (_, o, oms) := oms.transition o
        (if o.leaves ≤ qtyTolerance then .filled else .partiallyFilled)
      { oms with
        orders := oms.orders.insert f.orderId o
        portfolio := oms.portfolio.apply f
        fills := oms.fills ++ [f] }

/-- Gate 1, the account rules of a long-only spot account.  The empty string
means that the order passes. -/
def bizReject (oms : OrderManager) (o : Order) (market : Quote) : String :=
  match o.side with
  | .buy =>
      if oms.portfolio.cash < o.qty * referencePrice o market then
        "insufficient buying power"
      else ""
  | .sell =>
      if oms.portfolio.netQty o.symbol < o.qty - qtyTolerance then
        "insufficient position (no shorting)"
      else ""

/-- The rejection that both gates end in. -/
def reject (oms : OrderManager) (o : Order) (reason : String) :
    Option Nat × OrderManager :=
  let (_, o, oms) :=
    oms.transition { o with rejectReason := reason } .rejected
  (some o.id, { oms with orders := oms.orders.insert o.id o })

/-- The order a signal is turned into. -/
def orderOf (id : Nat) (sig : Signal) : Order where
  id := id
  symbol := sig.symbol
  side := sig.side
  type := sig.type
  qty := sig.targetQty
  limitPrice := sig.limitPrice
  strategy := sig.strategy
  tsNs := sig.tsNs
  status := .new

/-- A signal for which no order is created. -/
def Degenerate (sig : Signal) : Prop :=
  ¬ 0 < sig.targetQty ∨ sig.symbol = ""

instance (sig : Signal) : Decidable (Degenerate sig) := by
  unfold Degenerate
  infer_instance

def submit (oms : OrderManager) (sig : Signal) (market : Quote) :
    Option Nat × OrderManager :=
  if Degenerate sig then (none, oms)
  else
    let o := orderOf oms.nextId sig
    let oms := { oms with nextId := (oms.nextId + 1) % 2 ^ 64 }
    let biz := oms.bizReject o market
    if biz ≠ "" then oms.reject o biz
    else
      let dummyPos : Position :=
        { symbol := o.symbol
          netQty := oms.portfolio.netQty o.symbol
          avgPrice := 0
          realizedPnl := 0 }
      let rd := oms.risk.check o dummyPos market
      if ¬ rd.allowed then oms.reject o rd.reason
      else
        let (_, o, oms) := oms.transition o .sent
        let oms := { oms with orders := oms.orders.insert o.id o }
        let (fs, matcher) := oms.matcher.fill o market
        (some o.id, fs.foldl onFill { oms with matcher := matcher })

/-- The market sell that flattens a position of size `net`. -/
def flattenSignal (symbol : String) (net : ℚ) (market : Quote) :
    Signal where
  symbol := symbol
  side := .sell
  targetQty := net
  type := .market
  strategy := "flatten"
  tsNs := market.tsNs

/-- A market sell of the entire long position, no-op if flat. -/
def flatten (oms : OrderManager) (symbol : String) (market : Quote) :
    Option Nat × OrderManager :=
  let net := oms.portfolio.netQty symbol
  if net ≤ qtyTolerance then (none, oms)
  else oms.submit (flattenSignal symbol net market) market

/-! ### What a submission can do -/

/-- The order is stored under the next id and the counter moves on. -/
def stored (oms : OrderManager) (o : Order) : OrderManager :=
  { oms with
    nextId := (oms.nextId + 1) % 2 ^ 64
    orders := oms.orders.insert oms.nextId o }

/-- The order after its one complete fill. -/
def filledOrder (o : Order) (f : Fill) : Order :=
  { o with
    status := .filled
    filledQty := f.qty
    avgFillPrice := f.price }

/-- The fill the matcher answers an order with. -/
def fillFor (oms : OrderManager) (sig : Signal) (market : Quote) : Fill :=
  oms.matcher.fillOf (orderOf oms.nextId sig) market

/-- The order is stored as filled, the portfolio and the fill list have its
fill. -/
def executed (oms : OrderManager) (sig : Signal) (market : Quote) :
    OrderManager where
  risk := oms.risk
  matcher := { seq := oms.matcher.seq + 1 }
  portfolio := oms.portfolio.apply (oms.fillFor sig market)
  nextId := (oms.nextId + 1) % 2 ^ 64
  orders := oms.orders.insert oms.nextId
    (filledOrder (orderOf oms.nextId sig) (oms.fillFor sig market))
  fills := oms.fills ++ [oms.fillFor sig market]
  errLog := oms.errLog

/-- Both gates let the order through. -/
structure Cleared (oms : OrderManager) (sig : Signal) (market : Quote) :
    Prop where
  biz : oms.bizReject (orderOf oms.nextId sig) market = ""
  risk : oms.risk.Clears (orderOf oms.nextId sig)
    (oms.portfolio.netQty sig.symbol) market

/-- The four ways a submission can end. -/
inductive Submitted (oms : OrderManager) (sig : Signal) (market : Quote) :
    Option Nat → OrderManager → Prop
  | degenerate
      (h : Degenerate sig) :
      Submitted oms sig market none oms
  | rejected
      (reason : String)
      (h : ¬ Degenerate sig)
      (hgates : ¬ oms.Cleared sig market)
      (hreason : reason ≠ "") :
      Submitted oms sig market (some oms.nextId)
        (oms.stored
          { orderOf oms.nextId sig with
            status := .rejected, rejectReason := reason })
  | resting
      (h : ¬ Degenerate sig)
      (hgates : oms.Cleared sig market)
      (hrest : ¬ PaperMatchingEngine.Fills (orderOf oms.nextId sig) market) :
      Submitted oms sig market (some oms.nextId)
        (oms.stored { orderOf oms.nextId sig with status := .sent })
  | filled
      (h : ¬ Degenerate sig)
      (hgates : oms.Cleared sig market)
      (hfills : PaperMatchingEngine.Fills (orderOf oms.nextId sig) market) :
      Submitted oms sig market (some oms.nextId) (oms.executed sig market)

theorem bizReject_nextId
    (oms : OrderManager) (n : Nat) (o : Order) (market : Quote) :
    bizReject { oms with nextId := n } o market =
      oms.bizReject o market := by
  rfl

/-- A buy passes the account rules when it can be paid. -/
theorem bizReject_buy_iff
    {oms : OrderManager} {o : Order} {market : Quote}
    (hside : o.side = .buy) :
    oms.bizReject o market = "" ↔
      o.qty * referencePrice o market ≤ oms.portfolio.cash := by
  simp [bizReject, hside]

/-- A sale passes the account rules when it is held. -/
theorem bizReject_sell_iff
    {oms : OrderManager} {o : Order} {market : Quote}
    (hside : o.side = .sell) :
    oms.bizReject o market = "" ↔
      o.qty - qtyTolerance ≤ oms.portfolio.netQty o.symbol := by
  simp [bizReject, hside]

theorem reject_new
    (oms : OrderManager) (o : Order) (reason : String)
    (h : o.status = .new) :
    oms.reject o reason =
      (some o.id,
        { oms with
          orders := oms.orders.insert o.id
            { o with status := .rejected, rejectReason := reason } }) := by
  simp [reject, transition, h, legal]

/-- The fill of a freshly sent order completes it. -/
theorem onFill_sent
    (oms : OrderManager) {o : Order} {f : Fill}
    (hlookup : oms.orders.lookup f.orderId = some o)
    (hstatus : o.status = .sent)
    (hunfilled : o.filledQty = 0)
    (hqty : f.qty = o.qty)
    (hpos : 0 < f.qty) :
    oms.onFill f =
      { oms with
        orders := oms.orders.insert f.orderId (filledOrder o f)
        portfolio := oms.portfolio.apply f
        fills := oms.fills ++ [f] } := by
  have havg : f.price * f.qty / f.qty = f.price :=
    mul_div_cancel_right₀ _ hpos.ne'
  have hleaves : o.qty - f.qty ≤ qtyTolerance := by
    rw [hqty, sub_self]
    exact qtyTolerance_pos.le
  simp [onFill, hlookup, hunfilled, hpos, havg, Order.leaves, hleaves,
    transition, hstatus, legal, filledOrder]

/-- The matcher's answer to a routed order, once booked. -/
theorem onFill_routed
    {oms : OrderManager} {sig : Signal} {market : Quote}
    (hfills :
      PaperMatchingEngine.Fills (orderOf oms.nextId sig) market) :
    onFill
        { oms.stored { orderOf oms.nextId sig with status := .sent } with
          matcher := { seq := oms.matcher.seq + 1 } }
        (oms.fillFor sig market) =
      oms.executed sig market := by
  rw [onFill_sent _ (o := { orderOf oms.nextId sig with status := .sent })
    (Finmap.lookup_insert _) rfl rfl (sub_zero _) hfills.leaves_pos]
  simp only [stored, executed, OrderManager.mk.injEq, true_and, and_true]
  exact Finmap.insert_insert _

/-- The position the risk check is shown. -/
def dummyPos (oms : OrderManager) (sig : Signal) : Position where
  symbol := sig.symbol
  netQty := oms.portfolio.netQty sig.symbol

theorem submit_risk_denied
    {oms : OrderManager} {sig : Signal} {market : Quote}
    (hdeg : ¬ Degenerate sig)
    (hbiz : oms.bizReject (orderOf oms.nextId sig) market = "")
    (hrisk : (oms.risk.check (orderOf oms.nextId sig)
      (oms.dummyPos sig) market).allowed = false) :
    oms.submit sig market =
      (some oms.nextId, oms.stored
        { orderOf oms.nextId sig with
          status := .rejected
          rejectReason :=
            (oms.risk.check (orderOf oms.nextId sig)
              (oms.dummyPos sig) market).reason }) := by
  rw [submit, if_neg hdeg]
  simp only [bizReject_nextId, hbiz, ne_eq, not_true_eq_false, if_false]
  rw [if_pos (by simpa [dummyPos, orderOf] using hrisk),
    reject_new _ _ _ rfl]
  rfl

theorem submit_routed
    {oms : OrderManager} {sig : Signal} {market : Quote}
    (hdeg : ¬ Degenerate sig)
    (hbiz : oms.bizReject (orderOf oms.nextId sig) market = "")
    (hrisk : (oms.risk.check (orderOf oms.nextId sig)
      (oms.dummyPos sig) market).allowed = true) :
    oms.submit sig market =
      (some oms.nextId,
        (oms.matcher.fill (orderOf oms.nextId sig) market).1.foldl onFill
          { oms.stored { orderOf oms.nextId sig with status := .sent } with
            matcher :=
              (oms.matcher.fill (orderOf oms.nextId sig) market).2 }) := by
  rw [submit, if_neg hdeg]
  simp only [bizReject_nextId, hbiz, ne_eq, not_true_eq_false, if_false]
  rw [if_neg (by simpa [dummyPos, orderOf] using hrisk)]
  rfl

theorem submit_past_account_rules
    {oms : OrderManager} {sig : Signal} {market : Quote}
    (hdeg : ¬ Degenerate sig)
    (hbiz : oms.bizReject (orderOf oms.nextId sig) market = "") :
    Submitted oms sig market
      (oms.submit sig market).1 (oms.submit sig market).2 := by
  cases hrisk : (oms.risk.check (orderOf oms.nextId sig)
      (oms.dummyPos sig) market).allowed with
  | false =>
      rw [submit_risk_denied hdeg hbiz hrisk]
      refine .rejected _ hdeg ?_ (RiskManager.check_reason_ne hrisk)
      intro hcleared
      have hallowed := (RiskManager.check_allowed_iff _ _
        (oms.dummyPos sig) _).mpr hcleared.risk
      rw [hrisk] at hallowed
      exact Bool.false_ne_true hallowed
  | true =>
      have hgates : oms.Cleared sig market :=
        ⟨hbiz, (RiskManager.check_allowed_iff _ _ _ _).mp hrisk⟩
      rw [submit_routed hdeg hbiz hrisk]
      by_cases hfills :
          PaperMatchingEngine.Fills (orderOf oms.nextId sig) market
      · have hdone := Submitted.filled hdeg hgates hfills
        rw [← onFill_routed hfills] at hdone
        rw [PaperMatchingEngine.fill_of_fills hfills]
        exact hdone
      · rw [PaperMatchingEngine.fill_of_not_fills hfills]
        exact .resting hdeg hgates hfills

/-- **Every submission ends in one of the four ways.** -/
theorem submit_submitted
    (oms : OrderManager) (sig : Signal) (market : Quote) :
    Submitted oms sig market
      (oms.submit sig market).1 (oms.submit sig market).2 := by
  by_cases hdeg : Degenerate sig
  · have heq : oms.submit sig market = (none, oms) := by
      rw [submit, if_pos hdeg]
    rw [heq]
    exact .degenerate hdeg
  · by_cases hbiz : oms.bizReject (orderOf oms.nextId sig) market = ""
    · exact submit_past_account_rules hdeg hbiz
    · have heq : oms.submit sig market =
          (some oms.nextId, oms.stored
            { orderOf oms.nextId sig with
              status := .rejected
              rejectReason :=
                oms.bizReject (orderOf oms.nextId sig) market }) := by
        rw [submit, if_neg hdeg]
        simp only [bizReject_nextId, ne_eq, hbiz, not_false_eq_true,
          if_true]
        rw [reject_new _ _ _ rfl]
        rfl
      rw [heq]
      exact .rejected _ hdeg (fun h => hbiz h.biz) hbiz

end OrderManager

end ExecutionLayer
