import ExecutionLayer.Portfolio

/-!
# Fills that come in parts

A venue may report one execution as two.  `Position.apply` has separate
branches for opening, reducing and flipping, and the two parts may go through
branches that the whole does not: a part may end exactly flat, and the next
one then opens a new position.

All these ways lead to one account.  The position is an average-cost book,
and trades in one direction at one price compose there (`Book.trade_trade`).
-/

namespace ExecutionLayer

open AverageCost

/-- The two fills are parts of the first one: of its symbol, side and price,
and of its quantity together. -/
structure Fill.Parts (whole first second : Fill) : Prop where
  symbol_first : first.symbol = whole.symbol
  symbol_second : second.symbol = whole.symbol
  side_first : first.side = whole.side
  side_second : second.side = whole.side
  price_first : first.price = whole.price
  price_second : second.price = whole.price
  qty_first : 0 < first.qty
  qty_second : 0 < second.qty
  qty_whole : whole.qty = first.qty + second.qty

theorem signedQty_add (s : Side) (q r : ℚ) :
    signedQty s (q + r) = signedQty s q + signedQty s r := by
  cases s with
  | buy =>
      rfl
  | sell =>
      exact neg_add q r

theorem signedQty_mul_pos
    (s : Side) {q r : ℚ} (hq : 0 < q) (hr : 0 < r) :
    0 < signedQty s q * signedQty s r := by
  cases s with
  | buy =>
      exact mul_pos hq hr
  | sell =>
      exact mul_pos_of_neg_of_neg (neg_neg_of_pos hq) (neg_neg_of_pos hr)

namespace Position

@[simp] theorem apply_symbol (p : Position) (f : Fill) :
    (p.apply f).symbol = p.symbol := by
  unfold apply
  dsimp only
  split_ifs <;> rfl

/-- A position that a fill leaves flat has no average cost. -/
theorem apply_avgPrice_of_flat
    {p : Position} {f : Fill} (h : (p.apply f).netQty = 0) :
    (p.apply f).avgPrice = 0 :=
  if_pos h

/-- The book and the name say all of a position that has no average cost when
it is flat. -/
theorem eq_of_book
    {p q : Position} (hsymbol : p.symbol = q.symbol)
    (hbook : p.book = q.book)
    (hp : p.netQty = 0 → p.avgPrice = 0)
    (hq : q.netQty = 0 → q.avgPrice = 0) :
    p = q := by
  have hnet : p.netQty = q.netQty := congrArg Book.net hbook
  have hcost : p.avgPrice * p.netQty = q.avgPrice * q.netQty :=
    congrArg Book.cost hbook
  have hrealized : p.realizedPnl = q.realizedPnl :=
    congrArg Book.realized hbook
  have havg : p.avgPrice = q.avgPrice := by
    by_cases hflat : p.netQty = 0
    · rw [hp hflat, hq (hnet ▸ hflat)]
    · rw [hnet] at hcost
      exact mul_right_cancel₀ (hnet ▸ hflat) hcost
  cases p with
  | mk symbol netQty avgPrice realizedPnl =>
      cases q with
      | mk symbol' netQty' avgPrice' realizedPnl' =>
          simp_all

/-- The parts leave the position that the whole leaves. -/
theorem apply_parts
    (p : Position) {f f₁ f₂ : Fill} (h : f.Parts f₁ f₂) :
    (p.apply f₁).apply f₂ = p.apply f := by
  have hpos := add_pos h.qty_first h.qty_second
  have hwhole := book_apply p (f := f) (h.qty_whole ▸ hpos)
  have hparts := book_apply (p.apply f₁) h.qty_second
  rw [book_apply p h.qty_first, h.side_first, h.side_second, h.price_first,
    h.price_second, Book.trade_trade _
      (signedQty_mul_pos f.side h.qty_first h.qty_second),
    ← signedQty_add, ← h.qty_whole, ← hwhole] at hparts
  exact eq_of_book (by simp) hparts apply_avgPrice_of_flat
    apply_avgPrice_of_flat

end Position

namespace Portfolio

/-- After a first fill of a symbol, its entry is found as it was left. -/
theorem entryFor_apply
    (pf : Portfolio) {f g : Fill} (h : g.symbol = f.symbol) :
    (pf.apply f).entryFor g = (pf.entryFor f).apply f := by
  have hat : (pf.apply f).positionAt g.symbol = (pf.entryFor f).apply f := by
    rw [h, apply_positionAt_self]
  rw [entryFor, hat]
  split_ifs with hempty
  · -- only a fill without a name leaves an entry without one
    have hname : f.symbol = "" := by
      have hentry := hempty
      rw [Position.apply_symbol, entryFor] at hentry
      split_ifs at hentry with hnone
      · exact hentry
      · exact absurd hentry hnone
    have hsame : g.symbol = ((pf.entryFor f).apply f).symbol := by
      rw [h, hname, hempty]
    rw [hsame]
  · rfl

/-- **Splitting a fill does not change the account**: cash and positions are
the same, in every state and wherever the fill is cut. -/
theorem split_fill_same_account
    (pf : Portfolio) {f f₁ f₂ : Fill} (h : f.Parts f₁ f₂) :
    ((pf.apply f₁).apply f₂).cash = (pf.apply f).cash ∧
      ((pf.apply f₁).apply f₂).positions = (pf.apply f).positions := by
  have hentry : pf.entryFor f₁ = pf.entryFor f := by
    rw [entryFor, entryFor, h.symbol_first]
  constructor
  · rw [apply_cash, apply_cash, apply_cash]
    simp only [Fill.trade, h.side_first, h.side_second, h.price_first,
      h.price_second, h.qty_whole, signedQty_add]
    ring
  · have hsymbol : f₂.symbol = f₁.symbol :=
      h.symbol_second.trans h.symbol_first.symm
    rw [apply_positions, entryFor_apply pf hsymbol, apply_positions,
      apply_positions, h.symbol_first, h.symbol_second,
      Finmap.insert_insert, hentry, Position.apply_parts _ h]

/-- Two units are held. -/
def heldTwo : Portfolio :=
  (fund {} 100).apply { symbol := "X", qty := 2, price := 10 }

/-- A sale of `qty` units at 12. -/
def sale (qty : ℚ) : Fill :=
  { symbol := "X", side := .sell, qty := qty, price := 12 }

/-- A sale that goes through zero, cut where the position is flat. -/
theorem split_fill_same_account_at_zero :
    ((heldTwo.apply (sale 2)).apply (sale 1)).cash =
        (heldTwo.apply (sale 3)).cash ∧
      ((heldTwo.apply (sale 2)).apply (sale 1)).positions =
        (heldTwo.apply (sale 3)).positions :=
  split_fill_same_account heldTwo
    ⟨rfl, rfl, rfl, rfl, rfl, rfl, two_pos, one_pos, two_add_one_eq_three.symm⟩

end Portfolio

end ExecutionLayer
