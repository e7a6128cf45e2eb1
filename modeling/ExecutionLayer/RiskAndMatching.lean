import ExecutionLayer.Types

/-!
# Pre-trade risk checks and the paper matching engine

`RiskManager.check` is the gate every order passes before it is routed
(`risk.cpp`), `PaperMatchingEngine.fill` is the venue it is routed to
(`matching.cpp`).  Both turn a quote into a price of their own: the risk
check takes the notional at `notionalRef`, the matcher fills at
`Quote.touch`.
-/

namespace ExecutionLayer

structure RiskLimits where
  maxOrderQty : ℚ := 1
  maxPositionQty : ℚ := 5
  maxOrderNotional : ℚ := 1000000
deriving DecidableEq, Repr

structure RiskDecision where
  allowed : Bool := false
  reason : String := ""
deriving DecidableEq, Repr

namespace RiskDecision

def ok : RiskDecision :=
  { allowed := true, reason := "" }

def deny (why : String) : RiskDecision :=
  { allowed := false, reason := why }

end RiskDecision

structure RiskManager where
  limits : RiskLimits := {}
  killed : Bool := false
  killReason : String := ""
deriving DecidableEq, Repr

namespace RiskManager

def kill (risk : RiskManager) (reason : String) : RiskManager :=
  { risk with killed := true, killReason := reason }

/-- Reference price for the notional: the limit price of a limit order, else
the side the order would cross, falling back to the mid. -/
def notionalRef (order : Order) (market : Quote) : ℚ :=
  let ref :=
    if order.type = .limit then order.limitPrice
    else if order.side = .buy then market.ask
    else market.bid
  if 0 < ref then ref else market.mid

def check (risk : RiskManager) (order : Order) (current : Position)
    (market : Quote) : RiskDecision :=
  if risk.killed then
    .deny ("kill switch active: " ++ risk.killReason)
  else if ¬ 0 < order.qty then
    .deny "non-positive order qty"
  else if risk.limits.maxOrderQty < order.qty then
    .deny "order qty exceeds max_order_qty"
  else if risk.limits.maxOrderNotional <
      order.qty * notionalRef order market then
    .deny "order notional exceeds max_order_notional"
  else if risk.limits.maxPositionQty <
      |current.netQty + signedQty order.side order.qty| then
    .deny "projected position exceeds max_position_qty"
  else .ok

/-- What an order that is allowed has been checked for. -/
structure Clears (risk : RiskManager) (order : Order) (netQty : ℚ)
    (market : Quote) : Prop where
  alive : risk.killed = false
  qty_pos : 0 < order.qty
  qty_le : order.qty ≤ risk.limits.maxOrderQty
  notional_le :
    order.qty * notionalRef order market ≤ risk.limits.maxOrderNotional
  position_le :
    |netQty + signedQty order.side order.qty| ≤
      risk.limits.maxPositionQty

theorem check_allowed_iff
    (risk : RiskManager) (order : Order) (current : Position)
    (market : Quote) :
    (risk.check order current market).allowed = true ↔
      risk.Clears order current.netQty market := by
  constructor
  · intro h
    unfold check at h
    split_ifs at h with hk hq hmax hnot hpos
    · simp [RiskDecision.deny] at h
    · simp [RiskDecision.deny] at h
    · simp [RiskDecision.deny] at h
    · simp [RiskDecision.deny] at h
    · exact
        { alive := by simpa using hk
          qty_pos := hq
          qty_le := not_lt.mp hmax
          notional_le := not_lt.mp hnot
          position_le := not_lt.mp hpos }
    · simp [RiskDecision.deny] at h
  · rintro ⟨hk, hq, hmax, hnot, hpos⟩
    simp [check, hk, hq, hmax.not_gt, hnot.not_gt, hpos.not_gt,
      RiskDecision.ok]

/-- Every denial names its reason. -/
theorem check_reason_ne
    {risk : RiskManager} {order : Order} {current : Position}
    {market : Quote}
    (h : (risk.check order current market).allowed = false) :
    (risk.check order current market).reason ≠ "" := by
  unfold check at h ⊢
  split_ifs at h ⊢
  · simp [RiskDecision.deny]
  · simp [RiskDecision.deny]
  · simp [RiskDecision.deny]
  · simp [RiskDecision.deny]
  · simp [RiskDecision.ok] at h
  · simp [RiskDecision.deny]

end RiskManager

structure PaperMatchingEngine where
  seq : Int := 0
deriving DecidableEq, Repr

namespace PaperMatchingEngine

/-- A limit order is marketable when its limit reaches the side it crosses. -/
def Marketable (order : Order) (market : Quote) : Prop :=
  if order.side = .buy then market.ask ≤ order.limitPrice
  else order.limitPrice ≤ market.bid

instance (order : Order) (market : Quote) :
    Decidable (Marketable order market) := by
  unfold Marketable
  infer_instance

/-- Attempt to fill `order` against `market`. -/
def fill (matcher : PaperMatchingEngine) (order : Order) (market : Quote) :
    List Fill × PaperMatchingEngine :=
  let qty := order.leaves
  if ¬ 0 < qty then ([], matcher)
  else
    let touch := market.touch order.side
    if ¬ 0 < touch then ([], matcher)
    else if order.type = .limit ∧ ¬ Marketable order market then
      ([], matcher)
    else
      ([{ orderId := order.id
          symbol := order.symbol
          side := order.side
          qty := qty
          price := touch
          tsNs := market.tsNs + (matcher.seq + 1) }],
        { matcher with seq := matcher.seq + 1 })

/-- The matcher's three conditions for a fill. -/
structure Fills (order : Order) (market : Quote) : Prop where
  leaves_pos : 0 < order.leaves
  touch_pos : 0 < market.touch order.side
  marketable : order.type = .limit → Marketable order market

/-- The one fill of an order that fills: all that is left, at the touch. -/
def fillOf (matcher : PaperMatchingEngine) (order : Order)
    (market : Quote) : Fill where
  orderId := order.id
  symbol := order.symbol
  side := order.side
  qty := order.leaves
  price := market.touch order.side
  tsNs := market.tsNs + (matcher.seq + 1)

theorem fill_of_fills
    {matcher : PaperMatchingEngine} {order : Order} {market : Quote}
    (h : Fills order market) :
    matcher.fill order market =
      ([matcher.fillOf order market],
        { matcher with seq := matcher.seq + 1 }) := by
  have hm : ¬ (order.type = .limit ∧ ¬ Marketable order market) := by
    rintro ⟨hl, hn⟩
    exact hn (h.marketable hl)
  simp only [fill, h.leaves_pos, h.touch_pos, hm, not_true_eq_false,
    if_false, fillOf]

theorem fill_of_not_fills
    {matcher : PaperMatchingEngine} {order : Order} {market : Quote}
    (h : ¬ Fills order market) :
    matcher.fill order market = ([], matcher) := by
  unfold fill
  dsimp only
  split_ifs with hq ht hm
  · rfl
  · exfalso
    refine h ⟨hq, ht, ?_⟩
    intro hl
    by_contra hn
    exact hm ⟨hl, hn⟩
  · rfl
  · rfl

end PaperMatchingEngine

end ExecutionLayer
