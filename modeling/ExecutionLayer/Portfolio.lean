import ExecutionLayer.Library.FiniteMap
import ExecutionLayer.Library.StepSystem
import ExecutionLayer.Types

/-!
# Portfolio: cash, positions and closed round trips

The account of `portfolio.hpp`.  A fill moves cash and updates the position
of its symbol, and a fill that takes a position back to exactly zero appends
a `ClosedPosition`.

Two facts about the account are proved here for every fill of positive
quantity.  Seen as a ledger, cash and quantities are those of the traded
list (`apply_cash`, `apply_netQty`).  Seen as a book, the account stays
balanced: cash plus the cost of what is held is the capital plus what has
been realized (`Balanced.apply`).  The second gives the PnL identity as soon
as every position has a mark.
-/

namespace ExecutionLayer

open AverageCost FiniteMap

/-- Symbol to mark price. -/
abbrev MarkMap := Finmap fun _ : String => ℚ

/-- A closed round trip. -/
structure ClosedPosition where
  symbol : String := ""
  qty : ℚ := 0
  avgEntry : ℚ := 0
  exitPrice : ℚ := 0
  realizedPnl : ℚ := 0
  closedTsNs : Int := 0
deriving DecidableEq, Repr

structure Portfolio where
  initialCapital : ℚ := 0
  cash : ℚ := 0
  positions : Finmap fun _ : String => Position := ∅
  closed : List ClosedPosition := []
deriving DecidableEq

namespace Portfolio

def fund (pf : Portfolio) (capital : ℚ) : Portfolio :=
  { pf with initialCapital := capital, cash := capital }

/-- The entry that `positions_[sym]` reads: a fresh one if absent. -/
def positionAt (pf : Portfolio) (sym : String) : Position :=
  lookupD pf.positions sym {}

def netQty (pf : Portfolio) (sym : String) : ℚ :=
  (pf.positionAt sym).netQty

/-- The entry of the fill's symbol, labelled on first use. -/
def entryFor (pf : Portfolio) (f : Fill) : Position :=
  let p := pf.positionAt f.symbol
  if p.symbol = "" then { p with symbol := f.symbol } else p

/-- Apply a fill: update the position and move cash.  A fill that closes the
position exactly flat records a `ClosedPosition`. -/
def apply (pf : Portfolio) (f : Fill) : Portfolio :=
  let before := pf.entryFor f
  let p := before.apply f
  { pf with
    positions := pf.positions.insert f.symbol p
    cash := pf.cash + (if f.side = .buy then -1 else 1) * f.qty * f.price
    closed :=
      if before.netQty ≠ 0 ∧ p.netQty = 0 then
        pf.closed ++
          [{ symbol := f.symbol
             qty := |before.netQty|
             avgEntry := before.avgPrice
             exitPrice := f.price
             realizedPnl := p.realizedPnl - before.realizedPnl
             closedTsNs := f.tsNs }]
      else pf.closed }

def positionsValue (pf : Portfolio) (marks : MarkMap) : ℚ :=
  total (fun s p =>
    match marks.lookup s with
    | some m => p.netQty * m
    | none => 0) pf.positions

def realized (pf : Portfolio) : ℚ :=
  total (fun _ p => p.realizedPnl) pf.positions

def unrealized (pf : Portfolio) (marks : MarkMap) : ℚ :=
  total (fun s p =>
    match marks.lookup s with
    | some m => p.unrealized m
    | none => 0) pf.positions

def equity (pf : Portfolio) (marks : MarkMap) : ℚ :=
  pf.cash + pf.positionsValue marks

def totalPnl (pf : Portfolio) (marks : MarkMap) : ℚ :=
  pf.equity marks - pf.initialCapital

/-! ### One fill -/

@[simp] theorem entryFor_netQty (pf : Portfolio) (f : Fill) :
    (pf.entryFor f).netQty = pf.netQty f.symbol := by
  simp only [entryFor, netQty]
  split <;> rfl

@[simp] theorem entryFor_realizedPnl (pf : Portfolio) (f : Fill) :
    (pf.entryFor f).realizedPnl =
      (pf.positionAt f.symbol).realizedPnl := by
  simp only [entryFor]
  split <;> rfl

theorem entryFor_book (pf : Portfolio) (f : Fill) :
    (pf.entryFor f).book = (pf.positionAt f.symbol).book := by
  simp only [entryFor]
  split <;> rfl

@[simp] theorem apply_initialCapital (pf : Portfolio) (f : Fill) :
    (pf.apply f).initialCapital = pf.initialCapital := by
  rfl

theorem apply_positions (pf : Portfolio) (f : Fill) :
    (pf.apply f).positions =
      pf.positions.insert f.symbol ((pf.entryFor f).apply f) := by
  rfl

theorem apply_positionAt_self (pf : Portfolio) (f : Fill) :
    (pf.apply f).positionAt f.symbol = (pf.entryFor f).apply f := by
  simp [positionAt, apply_positions]

theorem apply_positionAt_of_ne
    (pf : Portfolio) {f : Fill} {sym : String}
    (h : sym ≠ f.symbol) :
    (pf.apply f).positionAt sym = pf.positionAt sym := by
  simp only [positionAt, apply_positions]
  exact lookupD_insert_of_ne _ _ _ h

/-- A fill moves the quantity of its own symbol only. -/
theorem apply_netQty (pf : Portfolio) (f : Fill) (sym : String) :
    (pf.apply f).netQty sym =
      pf.netQty sym + if f.symbol = sym then f.trade.qty else 0 := by
  by_cases h : f.symbol = sym
  · subst h
    rw [netQty, apply_positionAt_self, Position.apply_netQty,
      entryFor_netQty, if_pos rfl]
    rfl
  · rw [netQty, apply_positionAt_of_ne pf (Ne.symm h), if_neg h, add_zero]
    rfl

/-- Buying spends, selling receives. -/
theorem apply_cash (pf : Portfolio) (f : Fill) :
    (pf.apply f).cash = pf.cash - f.trade.qty * f.trade.price := by
  simp only [apply, Fill.trade]
  cases f.side with
  | buy =>
      simp only [signedQty, if_true]
      ring
  | sell =>
      simp only [signedQty, reduceCtorEq, if_false]
      ring

/-! ### The account as a book -/

/-- What the open positions cost. -/
def costBasis (pf : Portfolio) : ℚ :=
  total (fun _ p => p.book.cost) pf.positions

/-- Cash and cost together account for capital and realized profit. -/
def Balanced (pf : Portfolio) : Prop :=
  pf.cash + pf.costBasis = pf.initialCapital + pf.realized

theorem balanced_fund (capital : ℚ) :
    (fund {} capital).Balanced := by
  simp [Balanced, fund, costBasis, realized]

theorem costBasis_apply (pf : Portfolio) (f : Fill) :
    (pf.apply f).costBasis =
      pf.costBasis + (((pf.entryFor f).apply f).book.cost -
        (pf.entryFor f).book.cost) := by
  rw [costBasis, apply_positions,
    total_insert (fun _ p => Position.book p |>.cost) _ _ _ {} (by simp),
    entryFor_book]
  rfl

theorem realized_apply (pf : Portfolio) (f : Fill) :
    (pf.apply f).realized =
      pf.realized + (((pf.entryFor f).apply f).realizedPnl -
        (pf.entryFor f).realizedPnl) := by
  rw [realized, apply_positions,
    total_insert (fun _ p => Position.realizedPnl p) _ _ _ {} rfl,
    entryFor_realizedPnl]
  rfl

/-- Every fill of positive quantity keeps the account balanced. -/
theorem Balanced.apply
    {pf : Portfolio} (h : pf.Balanced)
    {f : Fill} (hq : 0 < f.qty) :
    (pf.apply f).Balanced := by
  have hbook := Position.book_apply (pf.entryFor f) hq
  have hlaw := Book.realized_sub_cost_trade (pf.entryFor f).book
    (signedQty f.side f.qty) f.price
  rw [← hbook] at hlaw
  have hcash : (pf.apply f).cash =
      pf.cash - signedQty f.side f.qty * f.price :=
    apply_cash pf f
  unfold Balanced at h ⊢
  rw [costBasis_apply, realized_apply, hcash, apply_initialCapital]
  simp only [Position.book_realized] at hlaw
  linear_combination h - hlaw

/-- The marks cover every position that is held. -/
def Marked (pf : Portfolio) (marks : MarkMap) : Prop :=
  ∀ sym ∈ pf.positions, sym ∈ marks

/-- On covering marks no entry is left out of a sum over them. -/
theorem Marked.total_eq
    {pf : Portfolio} {marks : MarkMap} (h : pf.Marked marks)
    (g : Position → ℚ → ℚ) :
    total (fun s p =>
        match marks.lookup s with
        | some m => g p m
        | none => 0) pf.positions =
      total (fun s p => g p (lookupD marks s 0)) pf.positions := by
  refine total_congr fun sym p hp => ?_
  obtain ⟨m, hm⟩ :=
    Finmap.mem_iff.mp (h sym (Finmap.mem_iff.mpr ⟨p, hp⟩))
  simp only [hm, lookupD, Option.getD_some]

/-- On covering marks, value minus cost is the unrealized profit. -/
theorem positionsValue_sub_costBasis
    {pf : Portfolio} {marks : MarkMap}
    (h : pf.Marked marks) :
    pf.positionsValue marks - pf.costBasis = pf.unrealized marks := by
  rw [positionsValue, h.total_eq (fun p m => p.netQty * m), costBasis,
    unrealized, h.total_eq Position.unrealized, ← total_sub]
  refine total_congr fun sym p _ => ?_
  rw [Position.book_cost, Position.unrealized]
  ring

/-- A balanced account with every position marked: the total PnL is what was
realized plus what is unrealized. -/
theorem Balanced.totalPnl_eq
    {pf : Portfolio} (h : pf.Balanced)
    {marks : MarkMap} (hm : pf.Marked marks) :
    pf.totalPnl marks = pf.realized + pf.unrealized marks := by
  rw [← positionsValue_sub_costBasis hm, totalPnl, equity]
  unfold Balanced at h
  linear_combination h

end Portfolio

end ExecutionLayer
