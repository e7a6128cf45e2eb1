import ExecutionLayer.Library.AverageCost
import Mathlib.Algebra.Order.Field.Rat

/-!
# Core value types of the execution layer

The plain values that the order manager, the risk manager, the matching
engine and the engine exchange (`types.hpp`).  Prices, quantities and cash
are exact rationals in place of doubles, order ids are naturals (the 64-bit
wrap-around is written out where ids are counted), time stamps are integers,
and a symbol is a string.

`Position.apply` is the only arithmetic of the file.  It is connected to the
abstract average-cost book by `Position.book_apply`.
-/

namespace ExecutionLayer

open AverageCost

inductive Side where
  | buy
  | sell
deriving DecidableEq, Repr

def signedQty (s : Side) (qty : ℚ) : ℚ :=
  match s with
  | .buy => qty
  | .sell => -qty

theorem signedQty_ne_zero
    {s : Side} {qty : ℚ} (h : 0 < qty) :
    signedQty s qty ≠ 0 := by
  cases s with
  | buy =>
      exact h.ne'
  | sell =>
      exact neg_ne_zero.mpr h.ne'

theorem abs_signedQty
    {s : Side} {qty : ℚ} (h : 0 < qty) :
    |signedQty s qty| = qty := by
  cases s with
  | buy =>
      exact abs_of_pos h
  | sell =>
      rw [signedQty, abs_neg, abs_of_pos h]

/-- Which market a symbol belongs to. -/
inductive AssetClass where
  | crypto
  | stock
deriving DecidableEq, Repr

inductive OrderType where
  | market
  | limit
deriving DecidableEq, Repr

/-- Order lifecycle. -/
inductive OrderStatus where
  | new
  | sent
  | partiallyFilled
  | filled
  | cancelled
  | rejected
deriving DecidableEq, Repr

def OrderStatus.toString : OrderStatus → String
  | .new => "NEW"
  | .sent => "SENT"
  | .partiallyFilled => "PARTIAL"
  | .filled => "FILLED"
  | .cancelled => "CANCELLED"
  | .rejected => "REJECTED"

/-- One point on the price chart. -/
structure PricePoint where
  tsNs : Int := 0
  price : ℚ := 0
deriving DecidableEq, Repr

/-- Top-of-book snapshot. -/
structure Quote where
  symbol : String := ""
  bid : ℚ := 0
  ask : ℚ := 0
  bsize : ℚ := 0
  asize : ℚ := 0
  tsNs : Int := 0
deriving DecidableEq, Repr

namespace Quote

def mid (q : Quote) : ℚ :=
  1 / 2 * (q.bid + q.ask)

/-- Best available price for an order on `side`: the side it crosses, else
the other side of the book, else the mid. -/
def touch (q : Quote) (side : Side) : ℚ :=
  let primary := if side = .buy then q.ask else q.bid
  if 0 < primary then primary
  else
    let secondary := if side = .buy then q.bid else q.ask
    if 0 < secondary then secondary else q.mid

end Quote

/-- A trade intention emitted by the order ticket or a strategy. -/
structure Signal where
  symbol : String
  side : Side := .buy
  targetQty : ℚ := 0
  type : OrderType := .market
  limitPrice : ℚ := 0
  strategy : String := ""
  tsNs : Int := 0
deriving DecidableEq, Repr

structure Order where
  id : Nat := 0
  symbol : String := ""
  side : Side := .buy
  type : OrderType := .market
  qty : ℚ := 0
  limitPrice : ℚ := 0
  filledQty : ℚ := 0
  avgFillPrice : ℚ := 0
  status : OrderStatus := .new
  strategy : String := ""
  rejectReason : String := ""
  tsNs : Int := 0
deriving DecidableEq, Repr

def Order.leaves (o : Order) : ℚ :=
  o.qty - o.filledQty

structure Fill where
  orderId : Nat := 0
  symbol : String := ""
  side : Side := .buy
  qty : ℚ := 0
  price : ℚ := 0
  tsNs : Int := 0
deriving DecidableEq, Repr

/-- The fill as a signed trade of the ledger. -/
def Fill.trade (f : Fill) : Trade String ℚ where
  symbol := f.symbol
  qty := signedQty f.side f.qty
  price := f.price

/-- Signed net position with running average cost and realized PnL. -/
structure Position where
  symbol : String := ""
  netQty : ℚ := 0
  avgPrice : ℚ := 0
  realizedPnl : ℚ := 0
deriving DecidableEq, Repr

namespace Position

/-- From flat, or in the direction of the position. -/
def Opens (p : Position) (f : Fill) : Prop :=
  p.netQty = 0 ∨ (0 < p.netQty ↔ 0 < signedQty f.side f.qty)

instance (p : Position) (f : Fill) : Decidable (p.Opens f) :=
  inferInstanceAs (Decidable (_ ∨ _))

/-- Apply a fill: extend the position and re-average its cost, or reduce or
flip it and realize the profit of the closed part. -/
def apply (p : Position) (f : Fill) : Position :=
  let sq := signedQty f.side f.qty
  let newNet := p.netQty + sq
  let p' : Position :=
    if p.Opens f then
      { p with
        avgPrice :=
          (p.avgPrice * |p.netQty| + f.price * |sq|) / |newNet| }
    else
      let closed := min |sq| |p.netQty|
      let dir : ℚ := if 0 < p.netQty then 1 else -1
      { p with
        realizedPnl :=
          p.realizedPnl + (f.price - p.avgPrice) * closed * dir
        avgPrice :=
          if |p.netQty| < |sq| then f.price else p.avgPrice }
  { p' with
    netQty := newNet
    avgPrice := if newNet = 0 then 0 else p'.avgPrice }

/-- Mark-to-market PnL of the open position. -/
def unrealized (p : Position) (mark : ℚ) : ℚ :=
  (mark - p.avgPrice) * p.netQty

/-- The position as an average-cost book. -/
def book (p : Position) : Book ℚ where
  net := p.netQty
  cost := p.avgPrice * p.netQty
  realized := p.realizedPnl

@[simp] theorem book_net (p : Position) :
    p.book.net = p.netQty := by
  rfl

@[simp] theorem book_cost (p : Position) :
    p.book.cost = p.avgPrice * p.netQty := by
  rfl

@[simp] theorem book_realized (p : Position) :
    p.book.realized = p.realizedPnl := by
  rfl

@[simp] theorem apply_netQty (p : Position) (f : Fill) :
    (p.apply f).netQty = p.netQty + signedQty f.side f.qty := by
  rfl

theorem opens_iff
    (p : Position) {f : Fill} (hq : 0 < f.qty) :
    p.Opens f ↔ 0 ≤ p.netQty * signedQty f.side f.qty :=
  opening_iff (signedQty_ne_zero hq)

/-- In the direction of the position: nothing is realized and the cost grows
by what was paid. -/
theorem apply_opening
    {p : Position} {f : Fill}
    (hq : 0 < f.qty)
    (h : 0 ≤ p.netQty * signedQty f.side f.qty) :
    (p.apply f).realizedPnl = p.realizedPnl ∧
      (p.apply f).avgPrice * (p.apply f).netQty =
        p.avgPrice * p.netQty +
          signedQty f.side f.qty * f.price := by
  have hq' := signedQty_ne_zero (s := f.side) hq
  have hopen := (p.opens_iff hq).mpr h
  simp only [apply, hopen, if_true]
  refine ⟨trivial, ?_⟩
  have hnet := add_ne_zero_of_mul_nonneg hq' h
  obtain ⟨hql, hnl⟩ := abs_mul_add_of_mul_nonneg h
  rw [if_neg hnet, div_mul_eq_mul_div,
    div_eq_iff (abs_ne_zero.mpr hnet)]
  linear_combination p.avgPrice * hnl + f.price * hql

/-- Against the position: what is closed is realized at the old average
cost, and only a flip changes the average of what is left. -/
theorem apply_closing
    {p : Position} {f : Fill}
    (hq : 0 < f.qty)
    (h : p.netQty * signedQty f.side f.qty < 0) :
    (p.apply f).realizedPnl =
        p.realizedPnl + (f.price - p.avgPrice) *
          (if |p.netQty| < |signedQty f.side f.qty| then p.netQty
            else -signedQty f.side f.qty) ∧
      (p.apply f).avgPrice =
        if p.netQty + signedQty f.side f.qty = 0 then 0
        else if |p.netQty| < |signedQty f.side f.qty| then f.price
        else p.avgPrice := by
  have hclose : ¬ p.Opens f := by
    rw [p.opens_iff hq]
    exact not_le.mpr h
  simp only [apply, hclose, if_false]
  refine ⟨?_, trivial⟩
  rw [mul_assoc, min_abs_mul_dir h]

theorem apply_reducing
    {p : Position} {f : Fill}
    (hq : 0 < f.qty)
    (h : p.netQty * signedQty f.side f.qty < 0)
    (hle : |signedQty f.side f.qty| ≤ |p.netQty|) :
    (p.apply f).realizedPnl =
        p.realizedPnl +
          (f.price - p.avgPrice) * -signedQty f.side f.qty ∧
      (p.apply f).avgPrice * (p.apply f).netQty =
        p.avgPrice * (p.netQty + signedQty f.side f.qty) := by
  obtain ⟨hreal, havg⟩ := apply_closing hq h
  rw [if_neg (not_lt.mpr hle)] at hreal havg
  refine ⟨hreal, ?_⟩
  rw [havg, apply_netQty]
  split_ifs with h0
  · rw [h0, mul_zero, mul_zero]
  · rfl

theorem apply_flipping
    {p : Position} {f : Fill}
    (hq : 0 < f.qty)
    (h : p.netQty * signedQty f.side f.qty < 0)
    (hlt : |p.netQty| < |signedQty f.side f.qty|) :
    (p.apply f).realizedPnl =
        p.realizedPnl + (f.price - p.avgPrice) * p.netQty ∧
      (p.apply f).avgPrice = f.price := by
  obtain ⟨hreal, havg⟩ := apply_closing hq h
  rw [if_pos hlt] at hreal havg
  rw [if_neg (add_ne_zero_of_abs_lt hlt)] at havg
  exact ⟨hreal, havg⟩

/-- The position update of the code is the average-cost book's. -/
theorem book_apply
    (p : Position) {f : Fill}
    (hq : 0 < f.qty) :
    (p.apply f).book =
      p.book.trade (signedQty f.side f.qty) f.price := by
  by_cases h : 0 ≤ p.netQty * signedQty f.side f.qty
  · obtain ⟨hreal, hcost⟩ := apply_opening hq h
    have hafter := Book.costAfter_opening (p := f.price)
      (show 0 ≤ p.book.net * signedQty f.side f.qty from h)
    ext
    · rfl
    · rw [book_cost, hcost, Book.trade, hafter, book_cost]
    · rw [book_realized, hreal, Book.trade, hafter, book_realized]
      ring
  · have h' := not_le.mp h
    by_cases hlt : |p.netQty| < |signedQty f.side f.qty|
    · obtain ⟨hreal, havg⟩ := apply_flipping hq h' hlt
      have hafter := Book.costAfter_flipping (p := f.price)
        (show p.book.net * signedQty f.side f.qty < 0 from h') hlt
      ext
      · rfl
      · rw [book_cost, havg, apply_netQty, Book.trade, hafter, book_net]
        ring
      · rw [book_realized, hreal, Book.trade, hafter, book_realized,
          book_net, book_cost]
        ring
    · have hle := not_lt.mp hlt
      have hn : p.netQty ≠ 0 := by
        intro h0
        simp [h0] at h'
      obtain ⟨hreal, hcost⟩ := apply_reducing hq h' hle
      have hafter := Book.costAfter_reducing (p := f.price)
        (show p.book.net * signedQty f.side f.qty < 0 from h') hle
      have havg : p.book.cost / p.book.net = p.avgPrice := by
        rw [book_cost, book_net, mul_div_assoc, div_self hn, mul_one]
      rw [havg] at hafter
      ext
      · rfl
      · rw [book_cost, hcost, Book.trade, hafter, book_net]
      · rw [book_realized, hreal, Book.trade, hafter, book_realized,
          book_net, book_cost]
        ring

end Position

end ExecutionLayer
