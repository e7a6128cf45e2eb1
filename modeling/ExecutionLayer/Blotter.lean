import ExecutionLayer.OrderRuns
import Mathlib.Logic.Relation

/-!
# The blotter, the fills and the account reconcile

Orders, fills and portfolio are three stores that `submit` updates at
different points.  `Reconciled` says how they fit together after `n` orders:
the order ids are exactly `1..n`, every order is settled with respect to the
fill list, and cash and quantities are those of the ledger of the fills.

The order counter is a 64-bit integer, so the statement is about runs of
fewer than `2 ^ 64` orders.
-/

namespace ExecutionLayer

open AverageCost StepSystem

namespace OrderManager

/-- Number of orders a call creates. -/
def placed (oms : OrderManager) (c : OmsCall) : Nat :=
  match oms.signalOf c with
  | some (sig, _) => if Degenerate sig then 0 else 1
  | none => 0

/-- Number of orders a list of calls creates. -/
def orderCount : OrderManager → List OmsCall → Nat
  | _, [] => 0
  | oms, c :: cs => placed oms c + orderCount (oms.call c) cs

theorem orderCount_append
    (oms : OrderManager) (as bs : List OmsCall) :
    orderCount oms (as ++ bs) =
      orderCount oms as + orderCount (run call oms as) bs := by
  induction as generalizing oms with
  | nil =>
      simp [orderCount]
  | cons c as ih =>
      simp [orderCount, ih, Nat.add_assoc]

/-- The status was reached through legal transitions from `New`. -/
def LegallyReached (status : OrderStatus) : Prop :=
  Relation.ReflTransGen (fun a b => legal a b = true) .new status

theorem legallyReached_rejected : LegallyReached .rejected :=
  .single rfl

theorem legallyReached_sent : LegallyReached .sent :=
  .single rfl

theorem legallyReached_filled : LegallyReached .filled :=
  .tail legallyReached_sent rfl

/-- Rejected with a reason, sent without a fill, or filled exactly once and
in full. -/
inductive Outcome (fills : List Fill) (o : Order) : Prop
  | rejected
      (hstatus : o.status = .rejected)
      (hreason : o.rejectReason ≠ "")
      (hnone : ∀ f ∈ fills, f.orderId ≠ o.id)
  | sent
      (hstatus : o.status = .sent)
      (hnone : ∀ f ∈ fills, f.orderId ≠ o.id)
  | filled
      (hstatus : o.status = .filled)
      (f : Fill)
      (honly : fills.filter (fun g => g.orderId = o.id) = [f])
      (hsymbol : f.symbol = o.symbol)
      (hside : f.side = o.side)
      (hqty : f.qty = o.qty)
      (hfilled : o.filledQty = o.qty)
      (havg : o.avgFillPrice = f.price)

/-- A fill of another order leaves the outcome as it is. -/
theorem Outcome.append
    {fills : List Fill} {o : Order} (h : Outcome fills o)
    {f : Fill} (hf : f.orderId ≠ o.id) :
    Outcome (fills ++ [f]) o := by
  have hnone :
      (∀ g ∈ fills, g.orderId ≠ o.id) →
        ∀ g ∈ fills ++ [f], g.orderId ≠ o.id := by
    intro hall g hg
    rcases List.mem_append.mp hg with hg | hg
    · exact hall g hg
    · rw [List.mem_singleton.mp hg]
      exact hf
  cases h with
  | rejected hstatus hreason hall =>
      exact .rejected hstatus hreason (hnone hall)
  | sent hstatus hall =>
      exact .sent hstatus (hnone hall)
  | filled hstatus g honly hsymbol hside hqty hfilled havg =>
      refine .filled hstatus g ?_ hsymbol hside hqty hfilled havg
      rw [List.filter_append, honly]
      simp [hf]

/-- The three stores after `n` orders on an account of `capital`. -/
structure Reconciled (capital : ℚ) (n : Nat) (oms : OrderManager) :
    Prop where
  nextId_eq : oms.nextId = (n + 1) % 2 ^ 64
  keys : ∀ id, id ∈ oms.orders ↔ 1 ≤ id ∧ id ≤ n
  settled : ∀ id o, oms.orders.lookup id = some o →
    o.id = id ∧ LegallyReached o.status ∧ Outcome oms.fills o
  fills_known : ∀ f ∈ oms.fills, f.orderId ≤ n
  errLog_nil : oms.errLog = []
  cash_eq : oms.portfolio.cash =
    cashAfter capital (oms.fills.map Fill.trade)
  netQty_eq : ∀ sym, oms.portfolio.netQty sym =
    holding sym (oms.fills.map Fill.trade)

theorem reconciled_funded (risk : RiskManager) (capital : ℚ) :
    Reconciled capital 0 (funded risk capital) where
  nextId_eq := rfl
  keys := by
    intro id
    constructor
    · intro h
      exact absurd h (Finmap.notMem_empty)
    · intro h
      omega
  settled := by
    intro id o h
    rw [funded, Finmap.lookup_empty] at h
    cases h
  fills_known := by
    intro f hf
    simp [funded] at hf
  errLog_nil := rfl
  cash_eq := by
    simp [funded, Portfolio.fund]
  netQty_eq := by
    intro sym
    simp only [funded, List.map_nil, holding_nil]
    rfl

section OneOrder

variable {capital : ℚ} {n : Nat} {oms : OrderManager}

/-- The next id is fresh as long as the counter has not wrapped. -/
theorem Reconciled.nextId_fresh
    (h : Reconciled capital n oms) (hn : n + 1 < 2 ^ 64) :
    oms.nextId = n + 1 := by
  rw [h.nextId_eq]
  exact Nat.mod_eq_of_lt hn

theorem Reconciled.nextId_notMem
    (h : Reconciled capital n oms) (hn : n + 1 < 2 ^ 64) :
    oms.nextId ∉ oms.orders := by
  rw [h.keys, h.nextId_fresh hn]
  omega

/-- Filing an order under the next id extends the id range by one. -/
theorem Reconciled.keys_insert
    (h : Reconciled capital n oms) (hn : n + 1 < 2 ^ 64) (o : Order) :
    ∀ id, id ∈ oms.orders.insert oms.nextId o ↔
      1 ≤ id ∧ id ≤ n + 1 := by
  intro id
  rw [Finmap.mem_insert, h.keys, h.nextId_fresh hn]
  omega

/-- An order that does not fill. -/
theorem Reconciled.stored
    (h : Reconciled capital n oms) (hn : n + 1 < 2 ^ 64)
    {o : Order} (hid : o.id = oms.nextId)
    (hlegal : LegallyReached o.status)
    (hout : (∀ f ∈ oms.fills, f.orderId ≠ o.id) →
      Outcome oms.fills o) :
    Reconciled capital (n + 1) (oms.stored o) where
  nextId_eq := by
    simp only [OrderManager.stored, h.nextId_fresh hn]
  keys := h.keys_insert hn o
  settled := by
    intro id p hp
    by_cases hkey : id = oms.nextId
    · subst hkey
      rw [OrderManager.stored, Finmap.lookup_insert,
        Option.some.injEq] at hp
      subst hp
      refine ⟨hid, hlegal, hout ?_⟩
      intro f hf
      have hle := h.fills_known f hf
      rw [hid, h.nextId_fresh hn]
      omega
    · rw [OrderManager.stored,
        Finmap.lookup_insert_of_ne _ hkey] at hp
      exact h.settled id p hp
  fills_known := by
    intro f hf
    have hle := h.fills_known f hf
    omega
  errLog_nil := h.errLog_nil
  cash_eq := h.cash_eq
  netQty_eq := h.netQty_eq

/-- An order that fills: it is settled by its own fill, and the ledger of the
fills grows by one trade. -/
theorem Reconciled.executed
    (h : Reconciled capital n oms) (hn : n + 1 < 2 ^ 64)
    (sig : Signal) (market : Quote) :
    Reconciled capital (n + 1) (oms.executed sig market) where
  nextId_eq := by
    simp only [OrderManager.executed, h.nextId_fresh hn]
  keys := h.keys_insert hn _
  settled := by
    intro id p hp
    by_cases hkey : id = oms.nextId
    · subst hkey
      rw [OrderManager.executed, Finmap.lookup_insert,
        Option.some.injEq] at hp
      subst hp
      refine ⟨rfl, legallyReached_filled, ?_⟩
      refine .filled rfl (oms.fillFor sig market) ?_ rfl rfl
        (fillFor_qty oms sig market) (fillFor_qty oms sig market) rfl
      have hnone :
          oms.fills.filter (fun g => g.orderId = oms.nextId) = [] := by
        rw [List.filter_eq_nil_iff]
        intro f hf
        have hle := h.fills_known f hf
        rw [h.nextId_fresh hn]
        simp only [decide_eq_true_eq]
        omega
      simp only [OrderManager.executed, List.filter_append]
      have hid : (filledOrder (orderOf oms.nextId sig)
          (oms.fillFor sig market)).id = oms.nextId := rfl
      rw [hid, hnone]
      simp
    · rw [OrderManager.executed,
        Finmap.lookup_insert_of_ne _ hkey] at hp
      obtain ⟨hid, hlegal, hout⟩ := h.settled id p hp
      refine ⟨hid, hlegal, hout.append ?_⟩
      rw [fillFor_orderId, hid]
      exact Ne.symm hkey
  fills_known := by
    intro f hf
    rcases List.mem_append.mp hf with hf | hf
    · have hle := h.fills_known f hf
      omega
    · rw [List.mem_singleton.mp hf, fillFor_orderId, h.nextId_fresh hn]
  errLog_nil := h.errLog_nil
  cash_eq := by
    simp only [OrderManager.executed, List.map_append, List.map_cons,
      List.map_nil, cashAfter_snoc]
    rw [Portfolio.apply_cash, h.cash_eq]
  netQty_eq := by
    intro sym
    simp only [OrderManager.executed, List.map_append, List.map_cons,
      List.map_nil, holding_snoc]
    rw [Portfolio.apply_netQty, h.netQty_eq]
    rfl

/-- An order filed under the next id overwrites no stored order. -/
theorem Reconciled.lookup_insert
    (h : Reconciled capital n oms) (hn : n + 1 < 2 ^ 64)
    (p : Order) {o : Order} {key : Nat}
    (hkey : oms.orders.lookup key = some o) :
    (oms.orders.insert oms.nextId p).lookup key = some o := by
  have hne : key ≠ oms.nextId := by
    rintro rfl
    exact h.nextId_notMem hn (Finmap.mem_iff.mpr ⟨o, hkey⟩)
  rw [Finmap.lookup_insert_of_ne _ hne]
  exact hkey

/-- One submission: reconciled again, and no stored order changed. -/
theorem Reconciled.submitted
    (h : Reconciled capital n oms)
    {sig : Signal} {market : Quote} {id : Option Nat}
    {oms' : OrderManager}
    (hsub : Submitted oms sig market id oms')
    (hn : n + (if Degenerate sig then 0 else 1) < 2 ^ 64) :
    Reconciled capital (n + if Degenerate sig then 0 else 1) oms' ∧
      ∀ key o, oms.orders.lookup key = some o →
        oms'.orders.lookup key = some o := by
  cases hsub with
  | degenerate hdeg =>
      rw [if_pos hdeg]
      exact ⟨h, fun _ _ hkey => hkey⟩
  | rejected reason hdeg _ hreason =>
      rw [if_neg hdeg] at hn ⊢
      refine ⟨h.stored hn rfl legallyReached_rejected ?_,
        fun _ _ hkey => h.lookup_insert hn _ hkey⟩
      intro hnone
      exact .rejected rfl hreason hnone
  | resting hdeg _ _ =>
      rw [if_neg hdeg] at hn ⊢
      refine ⟨h.stored hn rfl legallyReached_sent ?_,
        fun _ _ hkey => h.lookup_insert hn _ hkey⟩
      intro hnone
      exact .sent rfl hnone
  | filled hdeg _ _ =>
      rw [if_neg hdeg] at hn ⊢
      exact ⟨h.executed hn sig market,
        fun _ _ hkey => h.lookup_insert hn _ hkey⟩

theorem placed_eq_of_signalOf
    {c : OmsCall} {sig : Signal} {market : Quote}
    (hsig : oms.signalOf c = some (sig, market)) :
    placed oms c = if Degenerate sig then 0 else 1 := by
  simp only [placed, hsig]

/-- One call. -/
theorem Reconciled.call
    (h : Reconciled capital n oms) (c : OmsCall)
    (hn : n + placed oms c < 2 ^ 64) :
    Reconciled capital (n + placed oms c) (oms.call c) ∧
      ∀ key o, oms.orders.lookup key = some o →
        (oms.call c).orders.lookup key = some o := by
  cases hsig : oms.signalOf c with
  | none =>
      have hplaced : placed oms c = 0 := by
        simp only [placed, hsig]
      rw [hplaced, Nat.add_zero]
      rcases call_of_signalOf_none hsig with ⟨reason, heq⟩ | heq
      · rw [heq]
        exact ⟨⟨h.nextId_eq, h.keys, h.settled, h.fills_known,
          h.errLog_nil, h.cash_eq, h.netQty_eq⟩, fun _ _ hkey => hkey⟩
      · rw [heq]
        exact ⟨h, fun _ _ hkey => hkey⟩
  | some signal =>
      obtain ⟨sig, market⟩ := signal
      rw [placed_eq_of_signalOf hsig] at hn ⊢
      exact h.submitted (call_submitted hsig) hn

end OneOrder

/-- A list of calls. -/
theorem Reconciled.run
    {capital : ℚ} {n : Nat} {oms : OrderManager}
    (h : Reconciled capital n oms) (calls : List OmsCall)
    (hn : n + orderCount oms calls < 2 ^ 64) :
    Reconciled capital (n + orderCount oms calls)
        (StepSystem.run OrderManager.call oms calls) ∧
      ∀ key o, oms.orders.lookup key = some o →
        (StepSystem.run OrderManager.call oms calls).orders.lookup key =
          some o := by
  induction calls generalizing n oms with
  | nil =>
      exact ⟨h, fun _ _ hkey => hkey⟩
  | cons c calls ih =>
      simp only [orderCount] at hn ⊢
      obtain ⟨hcall, hkeep⟩ := h.call c (by omega)
      obtain ⟨hrun, hkeeps⟩ := ih hcall (by omega)
      rw [← Nat.add_assoc]
      exact ⟨hrun, fun key o hkey => hkeeps key o (hkeep key o hkey)⟩

/-- A submission whose order does not end filled leaves the portfolio and
the fills as they were. -/
theorem submit_unfilled
    {oms : OrderManager} {sig : Signal} {market : Quote}
    (h : ∀ id o, (oms.submit sig market).1 = some id →
      (oms.submit sig market).2.orders.lookup id = some o →
        o.status ≠ .filled) :
    (oms.submit sig market).2.portfolio = oms.portfolio ∧
      (oms.submit sig market).2.fills = oms.fills := by
  have hsub := submit_submitted oms sig market
  generalize oms.submit sig market = res at h hsub
  obtain ⟨id, oms'⟩ := res
  cases hsub with
  | degenerate _ =>
      exact ⟨rfl, rfl⟩
  | rejected reason _ _ _ =>
      exact ⟨rfl, rfl⟩
  | resting _ _ _ =>
      exact ⟨rfl, rfl⟩
  | filled _ _ _ =>
      exact absurd rfl
        (h oms.nextId _ rfl (Finmap.lookup_insert oms.orders))

end OrderManager

end ExecutionLayer
