import ExecutionLayer.LateFills
import Mathlib.Algebra.BigOperators.Ring.List
import Mathlib.Algebra.Order.BigOperators.Group.List

/-!
# Orders filled in parts

The paper matcher fills an order whole or not at all.  `onFill` is written
for more than that: it moves the order through `partiallyFilled` and folds
each fill into a running average price.

A run is a list of calls and of fills that come in by themselves, each of a
positive quantity.  Along it the blotter and the fill list tell one story:
filled quantity and average price of an order are those of its recorded
fills, taken as a whole and not one after the other, and the account is the
fold of all of them (`fills_average`).  Where the fills of known orders are
ones that their orders admit, the status of an order is told by its recorded
fills alone (`status_tells_fills`).
-/

namespace ExecutionLayer

open StepSystem

/-- The quantity of the fills together. -/
def filledSum (fs : List Fill) : ℚ :=
  (fs.map Fill.qty).sum

/-- What the fills cost together. -/
def notionalSum (fs : List Fill) : ℚ :=
  (fs.map fun f => f.price * f.qty).sum

@[simp] theorem filledSum_nil :
    filledSum [] = 0 := by
  rfl

@[simp] theorem notionalSum_nil :
    notionalSum [] = 0 := by
  rfl

@[simp] theorem filledSum_snoc (fs : List Fill) (f : Fill) :
    filledSum (fs ++ [f]) = filledSum fs + f.qty := by
  simp [filledSum]

@[simp] theorem notionalSum_snoc (fs : List Fill) (f : Fill) :
    notionalSum (fs ++ [f]) = notionalSum fs + f.price * f.qty := by
  simp [notionalSum]

theorem filledSum_nonneg
    {fs : List Fill} (hpos : ∀ f ∈ fs, 0 < f.qty) :
    0 ≤ filledSum fs := by
  refine List.sum_nonneg ?_
  intro q hq
  obtain ⟨f, hf, rfl⟩ := List.mem_map.mp hq
  exact (hpos f hf).le

theorem filledSum_pos_iff
    {fs : List Fill} (hpos : ∀ f ∈ fs, 0 < f.qty) :
    0 < filledSum fs ↔ fs ≠ [] := by
  constructor
  · rintro hsum rfl
    exact absurd hsum (lt_irrefl 0)
  · intro hne
    obtain ⟨init, last, rfl⟩ :=
      List.eq_nil_or_concat fs |>.resolve_left hne
    rw [List.concat_eq_append] at hpos ⊢
    rw [filledSum_snoc]
    have hinit : 0 ≤ filledSum init :=
      filledSum_nonneg fun f hf => hpos f (List.mem_append_left _ hf)
    have hlast : 0 < last.qty := hpos last (by simp)
    exact add_pos_of_nonneg_of_pos hinit hlast

/-- What the fills would cost at one price. -/
theorem mul_filledSum (price : ℚ) (fs : List Fill) :
    price * filledSum fs = (fs.map fun f => price * f.qty).sum := by
  rw [filledSum, List.sum_map_mul_left]

/-- Fills at `low` or above cost at least as much as at `low`. -/
theorem mul_filledSum_le
    {fs : List Fill} {low : ℚ} (hpos : ∀ f ∈ fs, 0 < f.qty)
    (hlow : ∀ f ∈ fs, low ≤ f.price) :
    low * filledSum fs ≤ notionalSum fs := by
  rw [mul_filledSum]
  refine List.sum_le_sum ?_
  intro f hf
  exact mul_le_mul_of_nonneg_right (hlow f hf) (hpos f hf).le

/-- Fills at `high` or below cost at most as much as at `high`. -/
theorem notionalSum_le_mul
    {fs : List Fill} {high : ℚ} (hpos : ∀ f ∈ fs, 0 < f.qty)
    (hhigh : ∀ f ∈ fs, f.price ≤ high) :
    notionalSum fs ≤ high * filledSum fs := by
  rw [mul_filledSum]
  refine List.sum_le_sum ?_
  intro f hf
  exact mul_le_mul_of_nonneg_right (hhigh f hf) (hpos f hf).le

namespace OrderManager

/-- The recorded fills of one order, oldest first. -/
def fillsOf (oms : OrderManager) (id : Nat) : List Fill :=
  oms.fills.filter fun f => f.orderId = id

/-! ### What one order shows of its fills -/

/-- Filled quantity and average price are those of the fills. -/
structure Averages (o : Order) (fs : List Fill) : Prop where
  filled : o.filledQty = filledSum fs
  notional : o.avgFillPrice * o.filledQty = notionalSum fs

/-- The average lies between two prices that bound the fills. -/
theorem Averages.between
    {o : Order} {fs : List Fill} (h : Averages o fs)
    (hpos : ∀ f ∈ fs, 0 < f.qty) (hne : fs ≠ []) {low high : ℚ}
    (hlow : ∀ f ∈ fs, low ≤ f.price)
    (hhigh : ∀ f ∈ fs, f.price ≤ high) :
    low ≤ o.avgFillPrice ∧ o.avgFillPrice ≤ high := by
  have hfilled : 0 < o.filledQty := by
    rw [h.filled]
    exact (filledSum_pos_iff hpos).mpr hne
  constructor
  · refine le_of_mul_le_mul_right ?_ hfilled
    rw [h.notional, h.filled]
    exact mul_filledSum_le hpos hlow
  · refine le_of_mul_le_mul_right ?_ hfilled
    rw [h.notional, h.filled]
    exact notionalSum_le_mul hpos hhigh

/-- The order with the fill folded into quantity and average. -/
def bookedOrder (o : Order) (f : Fill) : Order :=
  { o with
    avgFillPrice :=
      if 0 < o.filledQty + f.qty then
        (o.avgFillPrice * o.filledQty + f.price * f.qty) /
          (o.filledQty + f.qty)
      else o.avgFillPrice
    filledQty := o.filledQty + f.qty }

/-- The status that `onFill` asks for, by what the order has left. -/
def fillTarget (o : Order) : OrderStatus :=
  if o.leaves ≤ qtyTolerance then .filled else .partiallyFilled

/-- The status after the fill: an illegal transition leaves the old one. -/
def statusAfter (o : Order) (f : Fill) : OrderStatus :=
  if legal o.status (fillTarget (bookedOrder o f)) = true then
    fillTarget (bookedOrder o f)
  else o.status

theorem Averages.booked
    {o : Order} {fs : List Fill} {f : Fill} (h : Averages o fs)
    (hpos : ∀ g ∈ fs, 0 < g.qty) (hqty : 0 < f.qty) :
    Averages (bookedOrder o f) (fs ++ [f]) := by
  have hold : 0 ≤ o.filledQty := by
    rw [h.filled]
    exact filledSum_nonneg hpos
  have hnew : 0 < o.filledQty + f.qty := add_pos_of_nonneg_of_pos hold hqty
  constructor
  · rw [filledSum_snoc, ← h.filled]
    rfl
  · rw [notionalSum_snoc, ← h.notional]
    simp only [bookedOrder, if_pos hnew]
    exact div_mul_cancel₀ _ hnew.ne'

/-! ### One fill -/

/-- What a fill of a known order does to the books. -/
structure Takes (oms : OrderManager) (o : Order) (f : Fill)
    (oms' : OrderManager) : Prop where
  orders : oms'.orders = oms.orders.insert f.orderId
    { bookedOrder o f with status := statusAfter o f }
  fills : oms'.fills = oms.fills ++ [f]
  portfolio : oms'.portfolio = oms.portfolio.apply f
  nextId : oms'.nextId = oms.nextId

/-- The order that `transition` hands back. -/
theorem transition_order
    (oms : OrderManager) (o : Order) (target : OrderStatus) :
    (oms.transition o target).2.1 =
        { o with
          status :=
            if legal o.status target = true then target else o.status } ∧
      (oms.transition o target).2.2.nextId = oms.nextId := by
  rw [transition]
  split_ifs
  · exact ⟨rfl, rfl⟩
  · exact ⟨rfl, rfl⟩

theorem onFill_takes
    {oms : OrderManager} {o : Order} {f : Fill}
    (hlook : oms.orders.lookup f.orderId = some o) :
    Takes oms o f (oms.onFill f) := by
  obtain ⟨_, _, hsame⟩ := oms.transition_keeps (bookedOrder o f)
    (fillTarget (bookedOrder o f))
  obtain ⟨horder, hnext⟩ := oms.transition_order (bookedOrder o f)
    (fillTarget (bookedOrder o f))
  have heq : oms.onFill f =
      { (oms.transition (bookedOrder o f)
          (fillTarget (bookedOrder o f))).2.2 with
        orders := (oms.transition (bookedOrder o f)
            (fillTarget (bookedOrder o f))).2.2.orders.insert f.orderId
          (oms.transition (bookedOrder o f)
            (fillTarget (bookedOrder o f))).2.1
        portfolio := (oms.transition (bookedOrder o f)
          (fillTarget (bookedOrder o f))).2.2.portfolio.apply f
        fills := (oms.transition (bookedOrder o f)
          (fillTarget (bookedOrder o f))).2.2.fills ++ [f] } := by
    rw [onFill, hlook]
    rfl
  rw [heq]
  refine ⟨?_, ?_, ?_, hnext⟩
  · dsimp only
    rw [hsame.orders, horder]
    rfl
  · dsimp only
    rw [hsame.fills]
  · dsimp only
    rw [hsame.portfolio]

/-! ### The books along a run -/

/-- Blotter, fill list and account tell one story. -/
structure FillsBooked (capital : ℚ) (oms : OrderManager) : Prop where
  fresh : ∀ id, id ∈ oms.orders → id < oms.nextId
  known : ∀ f ∈ oms.fills, f.orderId ∈ oms.orders
  positive : ∀ f ∈ oms.fills, 0 < f.qty
  averages : ∀ id o, oms.orders.lookup id = some o →
    Averages o (oms.fillsOf id)
  account : oms.portfolio =
    oms.fills.foldl Portfolio.apply (Portfolio.fund {} capital)

theorem fillsBooked_funded (risk : RiskManager) (capital : ℚ) :
    FillsBooked capital (funded risk capital) where
  fresh := by
    intro id hid
    exact absurd hid Finmap.notMem_empty
  known := by
    intro f hf
    simp [funded] at hf
  positive := by
    intro f hf
    simp [funded] at hf
  averages := by
    intro id o ho
    rw [funded, Finmap.lookup_empty] at ho
    cases ho
  account := rfl

section Events

variable {capital : ℚ} {oms : OrderManager}

theorem FillsBooked.fillsOf_positive
    (h : FillsBooked capital oms) (id : Nat) :
    ∀ f ∈ oms.fillsOf id, 0 < f.qty := by
  intro f hf
  exact h.positive f (List.mem_filter.mp hf).1

/-- No fill is recorded of an order that is not there. -/
theorem FillsBooked.fillsOf_eq_nil
    (h : FillsBooked capital oms) {id : Nat} (hid : id ∉ oms.orders) :
    oms.fillsOf id = [] := by
  rw [fillsOf, List.filter_eq_nil_iff]
  intro f hf heq
  rw [decide_eq_true_eq] at heq
  exact hid (heq ▸ h.known f hf)

theorem FillsBooked.nextId_notMem (h : FillsBooked capital oms) :
    oms.nextId ∉ oms.orders := by
  intro hmem
  exact lt_irrefl _ (h.fresh _ hmem)

/-- A fill of a known order. -/
theorem FillsBooked.takes
    (h : FillsBooked capital oms) {o : Order} {f : Fill}
    {oms' : OrderManager}
    (hlook : oms.orders.lookup f.orderId = some o) (hqty : 0 < f.qty)
    (htakes : Takes oms o f oms') :
    FillsBooked capital oms' where
  fresh := by
    intro id hid
    rw [htakes.orders, Finmap.mem_insert] at hid
    rw [htakes.nextId]
    rcases hid with rfl | hid
    · exact h.fresh _ (Finmap.mem_iff.mpr ⟨o, hlook⟩)
    · exact h.fresh id hid
  known := by
    intro g hg
    rw [htakes.orders, Finmap.mem_insert]
    rw [htakes.fills] at hg
    rcases List.mem_append.mp hg with hg | hg
    · exact Or.inr (h.known g hg)
    · rw [List.mem_singleton.mp hg]
      exact Or.inl rfl
  positive := by
    intro g hg
    rw [htakes.fills] at hg
    rcases List.mem_append.mp hg with hg | hg
    · exact h.positive g hg
    · rw [List.mem_singleton.mp hg]
      exact hqty
  averages := by
    intro id p hp
    rw [htakes.orders] at hp
    rw [fillsOf, htakes.fills, List.filter_append]
    by_cases hid : id = f.orderId
    · subst hid
      rw [Finmap.lookup_insert, Option.some.injEq] at hp
      have hbooked := (h.averages _ o hlook).booked
        (h.fillsOf_positive f.orderId) hqty
      rw [← hp]
      simpa [fillsOf] using
        (⟨hbooked.filled, hbooked.notional⟩ : Averages
          { bookedOrder o f with status := statusAfter o f }
          (oms.fillsOf f.orderId ++ [f]))
    · rw [Finmap.lookup_insert_of_ne _ hid] at hp
      have hne : ¬ f.orderId = id := fun heq => hid heq.symm
      simpa [fillsOf, hne] using h.averages id p hp
  account := by
    rw [htakes.portfolio, htakes.fills, List.foldl_append, h.account]
    rfl

/-- An order that is stored without a fill. -/
theorem FillsBooked.stored
    (h : FillsBooked capital oms) (hroom : oms.nextId + 1 < 2 ^ 64)
    {p : Order} (hunfilled : p.filledQty = 0) :
    FillsBooked capital (oms.stored p) where
  fresh := by
    intro id hid
    rw [OrderManager.stored, Finmap.mem_insert] at hid
    rw [OrderManager.stored]
    dsimp only
    rw [Nat.mod_eq_of_lt hroom]
    rcases hid with rfl | hid
    · exact Nat.lt_succ_self _
    · exact Nat.lt_succ_of_lt (h.fresh id hid)
  known := by
    intro f hf
    rw [OrderManager.stored, Finmap.mem_insert]
    exact Or.inr (h.known f hf)
  positive := h.positive
  averages := by
    intro id o ho
    rw [OrderManager.stored] at ho
    dsimp only at ho
    change Averages o (oms.fillsOf id)
    by_cases hid : id = oms.nextId
    · subst hid
      rw [Finmap.lookup_insert, Option.some.injEq] at ho
      rw [h.fillsOf_eq_nil h.nextId_notMem, ← ho]
      constructor
      · simp [hunfilled]
      · simp [hunfilled]
    · rw [Finmap.lookup_insert_of_ne _ hid] at ho
      exact h.averages id o ho
  account := h.account

/-- The matcher's answer is booked like any other fill of the order that
has just been stored. -/
theorem executed_takes
    {sig : Signal} {market : Quote}
    (hfills :
      PaperMatchingEngine.Fills (orderOf oms.nextId sig) market) :
    Takes
      { oms.stored { orderOf oms.nextId sig with status := .sent } with
        matcher := { seq := oms.matcher.seq + 1 } }
      { orderOf oms.nextId sig with status := .sent }
      (oms.fillFor sig market) (oms.executed sig market) := by
  rw [← onFill_routed hfills]
  exact onFill_takes (Finmap.lookup_insert _)

theorem FillsBooked.submitted
    (h : FillsBooked capital oms) (hroom : oms.nextId + 1 < 2 ^ 64)
    {sig : Signal} {market : Quote} {id : Option Nat}
    {oms' : OrderManager} (hsub : Submitted oms sig market id oms') :
    FillsBooked capital oms' := by
  cases hsub with
  | degenerate _ =>
      exact h
  | rejected reason _ _ _ =>
      exact h.stored hroom rfl
  | resting _ _ _ =>
      exact h.stored hroom rfl
  | filled _ _ hfills =>
      have hsent := h.stored hroom
        (p := { orderOf oms.nextId sig with status := .sent }) rfl
      have hrouted : FillsBooked capital
          { oms.stored { orderOf oms.nextId sig with status := .sent } with
            matcher := { seq := oms.matcher.seq + 1 } } :=
        ⟨hsent.fresh, hsent.known, hsent.positive, hsent.averages,
          hsent.account⟩
      exact hrouted.takes (Finmap.lookup_insert _) hfills.leaves_pos
        (executed_takes hfills)

/-- A fill that comes in by itself is of a positive quantity. -/
def Positive : OmsEvent → Prop
  | .call _ => True
  | .onFill f => 0 < f.qty

theorem FillsBooked.event
    (h : FillsBooked capital oms) (hroom : oms.nextId + 1 < 2 ^ 64)
    {e : OmsEvent} (hpos : Positive e) :
    FillsBooked capital (oms.event e) := by
  cases e with
  | call c =>
      refine call_invariant_of_signals (I := FillsBooked capital)
        (P := fun oms _ _ => oms.nextId + 1 < 2 ^ 64) ?_ ?_ oms c h ?_
      · intro oms reason h
        exact ⟨h.fresh, h.known, h.positive, h.averages, h.account⟩
      · intro oms sig market id oms' h hroom hsub
        exact h.submitted hroom hsub
      · intro sig market _
        exact hroom
  | onFill f =>
      cases hlook : oms.orders.lookup f.orderId with
      | none =>
          rw [OrderManager.event, onFill, hlook]
          exact ⟨h.fresh, h.known, h.positive, h.averages, h.account⟩
      | some o =>
          exact h.takes hlook hpos (onFill_takes hlook)

/-- An event hands out one id at most. -/
theorem event_nextId_le (oms : OrderManager) (e : OmsEvent) :
    (oms.event e).nextId ≤ oms.nextId + 1 := by
  cases e with
  | call c =>
      rw [OrderManager.event]
      cases hsig : oms.signalOf c with
      | none =>
          rcases call_of_signalOf_none hsig with ⟨reason, heq⟩ | heq
          · rw [heq]
            exact Nat.le_succ _
          · rw [heq]
            exact Nat.le_succ _
      | some signal =>
          obtain ⟨sig, market⟩ := signal
          have hsub := call_submitted hsig
          generalize oms.call c = oms' at hsub ⊢
          generalize (oms.submit sig market).1 = id at hsub
          cases hsub with
          | degenerate _ =>
              exact Nat.le_succ _
          | rejected _ _ _ _ =>
              exact Nat.mod_le _ _
          | resting _ _ _ =>
              exact Nat.mod_le _ _
          | filled _ _ _ =>
              exact Nat.mod_le _ _
  | onFill f =>
      cases hlook : oms.orders.lookup f.orderId with
      | none =>
          rw [OrderManager.event, onFill, hlook]
          exact Nat.le_succ _
      | some o =>
          rw [OrderManager.event, (onFill_takes hlook).nextId]
          exact Nat.le_succ _

theorem FillsBooked.run
    (h : FillsBooked capital oms) {events : List OmsEvent}
    (hroom : oms.nextId + events.length < 2 ^ 64)
    (hpos : ∀ e ∈ events, Positive e) :
    FillsBooked capital (StepSystem.run OrderManager.event oms events) := by
  induction events generalizing oms with
  | nil =>
      exact h
  | cons e events ih =>
      rw [List.length_cons] at hroom
      have hnext := oms.event_nextId_le e
      refine ih (h.event (by omega) (hpos e List.mem_cons_self))
        (by omega) ?_
      intro e' he'
      exact hpos e' (List.mem_cons_of_mem e he')

end Events

/-- **Blotter, fills and account agree.**  Calls and fills in any order, each
fill of a positive quantity, fewer events than there are ids: of every order
the filled quantity is the sum over its recorded fills, the average price is
their volume weighted average and lies between any prices that bound them,
every recorded fill is of an order in the blotter, and the account is the
fold of the recorded fills. -/
theorem fills_average
    (risk : RiskManager) (capital : ℚ) (events : List OmsEvent)
    (hroom : events.length + 1 < 2 ^ 64)
    (hpos : ∀ e ∈ events, Positive e) :
    let oms := run event (funded risk capital) events
    (∀ id o, oms.orders.lookup id = some o →
      o.filledQty = filledSum (oms.fillsOf id) ∧
        o.avgFillPrice * o.filledQty = notionalSum (oms.fillsOf id) ∧
        (oms.fillsOf id ≠ [] → ∀ low high,
          (∀ f ∈ oms.fillsOf id, low ≤ f.price ∧ f.price ≤ high) →
            low ≤ o.avgFillPrice ∧ o.avgFillPrice ≤ high)) ∧
      (∀ f ∈ oms.fills, f.orderId ∈ oms.orders) ∧
      oms.portfolio =
        oms.fills.foldl Portfolio.apply (Portfolio.fund {} capital) := by
  intro oms
  have hstart : (funded risk capital).nextId + events.length < 2 ^ 64 := by
    rw [Nat.add_comm]
    exact hroom
  have hbooked : FillsBooked capital oms :=
    (fillsBooked_funded risk capital).run hstart hpos
  refine ⟨?_, hbooked.known, hbooked.account⟩
  intro id o ho
  have havg := hbooked.averages id o ho
  refine ⟨havg.filled, havg.notional, ?_⟩
  intro hne low high hbounds
  exact havg.between (hbooked.fillsOf_positive id) hne
    (fun f hf => (hbounds f hf).1) fun f hf => (hbounds f hf).2

/-- The order, a unit at five and a unit at three. -/
def twoParts : List OmsEvent :=
  [restingBuy, .onFill oneUnit, .onFill { oneUnit with price := 3 }]

theorem twoParts_positive : ∀ e ∈ twoParts, Positive e := by
  intro e he
  simp only [twoParts, List.mem_cons, List.not_mem_nil, or_false] at he
  rcases he with rfl | rfl | rfl
  · trivial
  · exact one_pos
  · exact one_pos

/-- The two units cost four on average. -/
theorem fills_average_two_parts :
    (∀ o, (run event (funded { limits := { maxOrderQty := 2 } } 100)
        twoParts).orders.lookup 1 = some o →
      3 ≤ o.avgFillPrice ∧ o.avgFillPrice ≤ 5) ∧
      (((run event (funded { limits := { maxOrderQty := 2 } } 100)
        twoParts).orders.lookup 1).map Order.avgFillPrice) = some 4 := by
  constructor
  · intro o ho
    obtain ⟨_, _, hbetween⟩ :=
      (fills_average { limits := { maxOrderQty := 2 } } 100 twoParts
        (by decide) twoParts_positive).1 1 o ho
    refine hbetween ?_ 3 5 ?_
    · decide +kernel
    · decide +kernel
  · decide +kernel

/-! ### What the status tells -/

/-- The status of an order, told by its filled quantity. -/
def StatusTells (o : Order) : Prop :=
  match o.status with
  | .new => False
  | .sent => o.filledQty = 0
  | .partiallyFilled => 0 < o.filledQty ∧ qtyTolerance < o.leaves
  | .filled => 0 < o.filledQty ∧ o.leaves ≤ qtyTolerance
  | .cancelled => False
  | .rejected => o.filledQty = 0

theorem StatusTells.filledQty_nonneg {o : Order} (h : StatusTells o) :
    0 ≤ o.filledQty := by
  rw [StatusTells] at h
  split at h
  · exact h.elim
  · exact h.ge
  · exact h.1.le
  · exact h.1.le
  · exact h.elim
  · exact h.ge

/-- Both statuses that admit a fill can go to either target. -/
theorem Admits.open_status
    {o : Order} {f : Fill} (hadmits : Admits o f) :
    o.status = .sent ∨ o.status = .partiallyFilled := by
  have hlegal := hadmits.status
  cases hstatus : o.status with
  | sent =>
      exact Or.inl rfl
  | partiallyFilled =>
      exact Or.inr rfl
  | new | filled | cancelled | rejected =>
      rw [hstatus] at hlegal
      revert hlegal
      decide

theorem Admits.statusAfter_eq
    {o : Order} {f : Fill} (hadmits : Admits o f) :
    statusAfter o f = fillTarget (bookedOrder o f) := by
  rw [statusAfter, if_pos]
  rw [fillTarget]
  rcases hadmits.open_status with hstatus | hstatus
  · rw [hstatus]
    split_ifs
    · rfl
    · rfl
  · rw [hstatus]
    split_ifs
    · rfl
    · rfl

/-- A fill that the order admits. -/
theorem StatusTells.booked
    {o : Order} {f : Fill} (h : StatusTells o) (hqty : 0 < f.qty)
    (hadmits : Admits o f) :
    StatusTells { bookedOrder o f with status := statusAfter o f } := by
  have hfilled : 0 < o.filledQty + f.qty :=
    add_pos_of_nonneg_of_pos h.filledQty_nonneg hqty
  rw [hadmits.statusAfter_eq, fillTarget]
  by_cases hleaves : (bookedOrder o f).leaves ≤ qtyTolerance
  · rw [if_pos hleaves]
    exact ⟨hfilled, hleaves⟩
  · rw [if_neg hleaves]
    exact ⟨hfilled, not_le.mp hleaves⟩

/-- Every status in the blotter tells the filled quantity. -/
def StatusesTell (oms : OrderManager) : Prop :=
  ∀ id o, oms.orders.lookup id = some o → StatusTells o

theorem StatusesTell.insert
    {oms oms' : OrderManager} (h : StatusesTell oms) {id : Nat} {o : Order}
    (horders : oms'.orders = oms.orders.insert id o)
    (ho : StatusTells o) :
    StatusesTell oms' := by
  intro id' o' ho'
  rw [horders] at ho'
  by_cases hid : id' = id
  · subst hid
    rw [Finmap.lookup_insert, Option.some.injEq] at ho'
    rw [← ho']
    exact ho
  · rw [Finmap.lookup_insert_of_ne _ hid] at ho'
    exact h id' o' ho'

theorem StatusesTell.submitted
    {oms oms' : OrderManager} (h : StatusesTell oms) {sig : Signal}
    {market : Quote} {id : Option Nat}
    (hsub : Submitted oms sig market id oms') :
    StatusesTell oms' := by
  cases hsub with
  | degenerate _ =>
      exact h
  | rejected reason _ _ _ =>
      exact h.insert rfl rfl
  | resting _ _ _ =>
      exact h.insert rfl rfl
  | filled _ _ hfills =>
      refine h.insert rfl ⟨hfills.leaves_pos, ?_⟩
      change sig.targetQty - (sig.targetQty - 0) ≤ qtyTolerance
      rw [sub_zero, sub_self]
      exact qtyTolerance_pos.le

theorem StatusesTell.event
    {oms : OrderManager} (h : StatusesTell oms) {e : OmsEvent}
    (hpos : Positive e) (hadmits : oms.KnownAdmits e) :
    StatusesTell (oms.event e) := by
  cases e with
  | call c =>
      refine call_invariant_of_signals (I := StatusesTell)
        (P := fun _ _ _ => True) ?_ ?_ oms c h ?_
      · intro oms reason h
        exact h
      · intro oms sig market id oms' h _ hsub
        exact h.submitted hsub
      · intro sig market _
        trivial
  | onFill f =>
      cases hlook : oms.orders.lookup f.orderId with
      | none =>
          intro id o ho
          rw [OrderManager.event, (onFill_of_unknown hlook).orders] at ho
          exact h id o ho
      | some o =>
          exact h.insert (onFill_takes hlook).orders
            ((h _ o hlook).booked hpos (hadmits hpos o hlook))

theorem StatusesTell.run
    {oms : OrderManager} (h : StatusesTell oms) {events : List OmsEvent}
    (hpos : ∀ e ∈ events, Positive e)
    (hadmits : AllSteps OrderManager.event KnownAdmits oms events) :
    StatusesTell (StepSystem.run OrderManager.event oms events) := by
  have hall : AllSteps OrderManager.event (fun _ e => Positive e) oms
      events :=
    allSteps_of_forall OrderManager.event (fun e he _ => hpos e he) oms
  refine run_invariant_of_allSteps OrderManager.event
    (C := fun oms e => Positive e ∧ oms.KnownAdmits e) ?_ h ?_
  · intro oms e h hstep
    exact h.event hstep.1 hstep.2
  · exact (allSteps_and OrderManager.event _ _ oms events).mpr
      ⟨hall, hadmits⟩

/-- **The status is told by the fills.**  Along a run whose fills of known
orders are ones that their orders admit, an order is sent or rejected while
it has no recorded fill, partially filled while its fills leave more than the
tolerance, and filled from then on; no order is left as new. -/
theorem status_tells_fills
    (risk : RiskManager) (capital : ℚ) (events : List OmsEvent)
    (hroom : events.length + 1 < 2 ^ 64)
    (hpos : ∀ e ∈ events, Positive e)
    (hadmits : AllSteps event KnownAdmits (funded risk capital) events) :
    let oms := run event (funded risk capital) events
    ∀ id o, oms.orders.lookup id = some o →
      (o.status = .sent ∨ o.status = .rejected ↔ oms.fillsOf id = []) ∧
        (o.status = .partiallyFilled ↔ oms.fillsOf id ≠ [] ∧
          qtyTolerance < o.qty - filledSum (oms.fillsOf id)) ∧
        (o.status = .filled ↔ oms.fillsOf id ≠ [] ∧
          o.qty - filledSum (oms.fillsOf id) ≤ qtyTolerance) := by
  intro oms id o ho
  have hstart : (funded risk capital).nextId + events.length < 2 ^ 64 := by
    rw [Nat.add_comm]
    exact hroom
  have hbooked : FillsBooked capital oms :=
    (fillsBooked_funded risk capital).run hstart hpos
  have hempty : StatusesTell (funded risk capital) := by
    intro id o ho
    rw [funded, Finmap.lookup_empty] at ho
    cases ho
  have htells : StatusTells o := hempty.run hpos hadmits id o ho
  have hsum := filledSum_pos_iff (hbooked.fillsOf_positive id)
  rw [← (hbooked.averages id o ho).filled] at hsum ⊢
  rw [StatusTells, Order.leaves] at htells
  rw [← hsum, ← not_iff_not (b := oms.fillsOf id = []), ← ne_eq, ← hsum]
  cases hstatus : o.status with
  | new =>
      rw [hstatus] at htells
      exact htells.elim
  | cancelled =>
      rw [hstatus] at htells
      exact htells.elim
  | sent | rejected =>
      rw [hstatus] at htells
      simp [show o.filledQty = 0 from htells]
  | partiallyFilled =>
      rw [hstatus] at htells
      simp [htells.1, htells.2, lt_sub_iff_add_lt.mp htells.2]
  | filled =>
      rw [hstatus] at htells
      simpa [htells.1] using htells.2

/-- One unit of two is filled, and the status tells it. -/
theorem status_tells_fills_one_unit :
    (restingAfter 1).isSome = true ∧
      ∀ o, (run event (funded { limits := { maxOrderQty := 2 } } 100)
          (unitFills 1)).orders.lookup 1 = some o →
        o.status = .partiallyFilled := by
  refine ⟨by decide +kernel, ?_⟩
  intro o ho
  have hpos : ∀ e ∈ unitFills 1, Positive e := by
    intro e he
    simp only [unitFills, List.replicate, List.mem_cons, List.not_mem_nil,
      or_false] at he
    rcases he with rfl | rfl
    · trivial
    · exact one_pos
  have hadmits : AllSteps event KnownAdmits
      (funded { limits := { maxOrderQty := 2 } } 100) (unitFills 1) := by
    refine ⟨trivial, ?_, trivial⟩
    intro _ o ho
    have hstatus : (restingAfter 0).map Order.status = some .sent := by
      decide +kernel
    have hleaves : (restingAfter 0).map Order.leaves = some 2 := by
      decide +kernel
    exact admits_oneUnit ho hstatus hleaves rfl (by norm_num)
  obtain ⟨_, hpart, _⟩ := status_tells_fills
    { limits := { maxOrderQty := 2 } } 100 (unitFills 1) (by decide) hpos
    hadmits 1 o ho
  refine hpart.mpr ⟨by decide +kernel, ?_⟩
  have hsum : filledSum ((run event
      (funded { limits := { maxOrderQty := 2 } } 100)
        (unitFills 1)).fillsOf 1) = 1 := by
    decide +kernel
  have hqty : (restingAfter 1).map Order.qty = some 2 := by
    decide +kernel
  have ho' : restingAfter 1 = some o := ho
  rw [ho', Option.map_some, Option.some.injEq] at hqty
  rw [hsum, hqty]
  norm_num [qtyTolerance]

end OrderManager

end ExecutionLayer
