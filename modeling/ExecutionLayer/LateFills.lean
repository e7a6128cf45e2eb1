import ExecutionLayer.OrderRuns

/-!
# Fills that come late or twice

`onFill` is public: a venue may report a fill of an order that is already
done, or report it again.  The order state machine has no transition for such
a fill.  But `onFill` has changed the quantities before it asks
`transition`, and what `transition` answers is not looked at, so of the
forbidden fills only those of unknown orders are turned away.

A run is a list of calls and of fills that come in by themselves.  The state
machine is respected exactly by the runs in which every such fill is one
that its order admits (`atomic_fills_iff`), and on these runs no order is
filled beyond its quantity.
-/

namespace ExecutionLayer

open StepSystem

/-- A call, or a fill that comes in by itself. -/
inductive OmsEvent where
  | call (c : OmsCall)
  | onFill (f : Fill)

namespace OrderManager

def event (oms : OrderManager) : OmsEvent → OrderManager
  | .call c => oms.call c
  | .onFill f => oms.onFill f

/-- The order can take the fill: its status admits one, and there is room. -/
structure Admits (o : Order) (f : Fill) : Prop where
  status : legal o.status .partiallyFilled = true ∨
    legal o.status .filled = true
  room : o.filledQty + f.qty ≤ o.qty + qtyTolerance

/-- No order is there that can take the fill. -/
def Forbids (oms : OrderManager) (f : Fill) : Prop :=
  ∀ o, oms.orders.lookup f.orderId = some o → ¬ Admits o f

/-- Orders, fills and portfolio are the same. -/
structure SameBooks (oms oms' : OrderManager) : Prop where
  orders : oms'.orders = oms.orders
  fills : oms'.fills = oms.fills
  portfolio : oms'.portfolio = oms.portfolio

/-- What the state machine promises of one event: a forbidden fill changes
nothing. -/
def Atomic (oms : OrderManager) : OmsEvent → Prop
  | .call _ => True
  | .onFill f => 0 < f.qty → oms.Forbids f → SameBooks oms (oms.onFill f)

/-- A fill of a known order is one that the order admits. -/
def KnownAdmits (oms : OrderManager) : OmsEvent → Prop
  | .call _ => True
  | .onFill f => 0 < f.qty →
      ∀ o, oms.orders.lookup f.orderId = some o → Admits o f

/-! ### One fill -/

section OneFill

variable {oms : OrderManager} {f : Fill}

theorem transition_keeps
    (oms : OrderManager) (o : Order) (target : OrderStatus) :
    (oms.transition o target).2.1.qty = o.qty ∧
      (oms.transition o target).2.1.filledQty = o.filledQty ∧
      SameBooks oms (oms.transition o target).2.2 := by
  rw [transition]
  split_ifs
  · exact ⟨rfl, rfl, rfl, rfl, rfl⟩
  · exact ⟨rfl, rfl, rfl, rfl, rfl⟩

theorem onFill_of_unknown (h : oms.orders.lookup f.orderId = none) :
    SameBooks oms (oms.onFill f) := by
  rw [onFill, h]
  exact ⟨rfl, rfl, rfl⟩

/-- Whatever its status is, a known order takes the fill. -/
theorem onFill_of_known
    {o : Order} (h : oms.orders.lookup f.orderId = some o) :
    (∃ o', (oms.onFill f).orders = oms.orders.insert f.orderId o' ∧
        o'.qty = o.qty ∧ o'.filledQty = o.filledQty + f.qty) ∧
      (oms.onFill f).fills = oms.fills ++ [f] := by
  rw [onFill, h]
  dsimp only
  generalize hbooked : ({ o with
    avgFillPrice :=
      if 0 < o.filledQty + f.qty then
        (o.avgFillPrice * o.filledQty + f.price * f.qty) /
          (o.filledQty + f.qty)
      else o.avgFillPrice
    filledQty := o.filledQty + f.qty } : Order) = booked
  generalize (if booked.leaves ≤ qtyTolerance then OrderStatus.filled
    else OrderStatus.partiallyFilled) = target
  obtain ⟨hqty, hfilled, hsame⟩ := oms.transition_keeps booked target
  constructor
  · refine ⟨(oms.transition booked target).2.1, ?_, ?_, ?_⟩
    · rw [hsame.orders]
    · rw [hqty, ← hbooked]
    · rw [hfilled, ← hbooked]
  · rw [hsame.fills]

/-- A forbidden fill is turned away exactly when its order is unknown. -/
theorem atomic_onFill_iff (hqty : 0 < f.qty) :
    oms.Atomic (.onFill f) ↔ oms.KnownAdmits (.onFill f) := by
  cases hlook : oms.orders.lookup f.orderId with
  | none =>
      refine iff_of_true ?_ ?_
      · intro _ _
        exact onFill_of_unknown hlook
      · intro _ o ho
        rw [hlook] at ho
        cases ho
  | some o =>
      constructor
      · intro hatomic _ o' ho'
        by_contra hno
        have hforbids : oms.Forbids f := by
          intro o'' ho''
          rw [ho'] at ho''
          rwa [← Option.some.inj ho'']
        have hfills := (hatomic hqty hforbids).fills
        rw [(onFill_of_known hlook).2] at hfills
        simp at hfills
      · intro hknown _ hforbids
        exact absurd (hknown hqty o hlook) (hforbids o hlook)

end OneFill

theorem atomic_iff (oms : OrderManager) (e : OmsEvent) :
    oms.Atomic e ↔ oms.KnownAdmits e := by
  cases e with
  | call c =>
      rfl
  | onFill f =>
      by_cases hqty : 0 < f.qty
      · exact atomic_onFill_iff hqty
      · exact iff_of_true (fun h => absurd h hqty) fun h => absurd h hqty

/-! ### Runs -/

/-- No order is filled beyond its quantity. -/
def FilledWithin (oms : OrderManager) : Prop :=
  ∀ id o, oms.orders.lookup id = some o →
    o.filledQty ≤ o.qty + qtyTolerance

/-- A new entry that is filled within its quantity. -/
theorem FilledWithin.insert
    {oms oms' : OrderManager} (h : FilledWithin oms) {id : Nat} {o : Order}
    (horders : oms'.orders = oms.orders.insert id o)
    (ho : o.filledQty ≤ o.qty + qtyTolerance) :
    FilledWithin oms' := by
  intro id' o' ho'
  rw [horders] at ho'
  by_cases hid : id' = id
  · subst hid
    rw [Finmap.lookup_insert] at ho'
    rw [← Option.some.inj ho']
    exact ho
  · rw [Finmap.lookup_insert_of_ne _ hid] at ho'
    exact h id' o' ho'

theorem FilledWithin.submitted
    {oms oms' : OrderManager} {sig : Signal} {market : Quote}
    {id : Option Nat} (h : FilledWithin oms)
    (hsub : Submitted oms sig market id oms') :
    FilledWithin oms' := by
  have htol := qtyTolerance_pos
  have hunfilled : ¬ Degenerate sig →
      0 ≤ sig.targetQty + qtyTolerance := by
    intro hdeg
    have hpos : 0 < sig.targetQty := by
      by_contra hno
      exact hdeg (Or.inl hno)
    exact (add_pos hpos htol).le
  cases hsub with
  | degenerate _ =>
      exact h
  | rejected reason hdeg _ _ =>
      exact h.insert rfl (hunfilled hdeg)
  | resting hdeg _ _ =>
      exact h.insert rfl (hunfilled hdeg)
  | filled hdeg _ _ =>
      refine h.insert rfl ?_
      rw [filledOrder, fillFor_qty]
      exact le_add_of_nonneg_right htol.le

theorem FilledWithin.event
    {oms : OrderManager} (h : FilledWithin oms) {e : OmsEvent}
    (hadmits : oms.KnownAdmits e) :
    FilledWithin (oms.event e) := by
  cases e with
  | call c =>
      refine call_invariant_of_signals (I := FilledWithin)
        (P := fun _ _ _ => True) ?_ ?_ oms c h ?_
      · intro oms reason h
        exact h
      · intro oms sig market id oms' h _ hsub
        exact h.submitted hsub
      · intro sig market _
        trivial
  | onFill f =>
      cases hlook : oms.orders.lookup f.orderId with
      | none =>
          have hsame := onFill_of_unknown hlook
          intro id o ho
          rw [OrderManager.event, hsame.orders] at ho
          exact h id o ho
      | some o =>
          obtain ⟨⟨o', horders, hqty, hfilled⟩, _⟩ := onFill_of_known hlook
          refine h.insert horders ?_
          rw [hqty, hfilled]
          by_cases hpos : 0 < f.qty
          · exact (hadmits hpos o hlook).room
          · have hold := h _ o hlook
            linarith

/-- **When forbidden fills change nothing.**  Along a run every forbidden
fill leaves orders, fills and portfolio as they were exactly when every fill
of a known order is one that the order admits; and on such a run no order is
filled beyond its quantity. -/
theorem atomic_fills_iff
    (risk : RiskManager) (capital : ℚ) (events : List OmsEvent) :
    (AllSteps event Atomic (funded risk capital) events ↔
        AllSteps event KnownAdmits (funded risk capital) events) ∧
      (AllSteps event KnownAdmits (funded risk capital) events →
        ∀ id o, (run event (funded risk capital) events).orders.lookup
            id = some o →
          o.filledQty ≤ o.qty + qtyTolerance) := by
  constructor
  · have hall : AllSteps event (fun _ _ => True) (funded risk capital)
        events :=
      allSteps_of_forall event (fun _ _ _ => trivial) _
    exact hall.congr event fun oms e _ => atomic_iff oms e
  · intro hadmits
    have hfresh : FilledWithin (funded risk capital) := by
      intro id o ho
      rw [funded, Finmap.lookup_empty] at ho
      cases ho
    have hwithin : FilledWithin
        (run event (funded risk capital) events) :=
      run_invariant_of_allSteps event
        (fun oms e h hc => h.event hc) hfresh hadmits
    exact hwithin

/-- A limit buy of two units that rests. -/
def restingBuy : OmsEvent :=
  .call (.submit
    { symbol := "X", targetQty := 2, type := .limit, limitPrice := 5 }
    { bid := 9, ask := 10 })

/-- A fill of one unit of the first order. -/
def oneUnit : Fill :=
  { orderId := 1, symbol := "X", qty := 1, price := 5 }

/-- The order, and `n` fills of one unit. -/
def unitFills (n : Nat) : List OmsEvent :=
  restingBuy :: List.replicate n (.onFill oneUnit)

/-- The order after `n` fills of one unit. -/
def restingAfter (n : Nat) : Option Order :=
  (run event (funded { limits := { maxOrderQty := 2 } } 100)
    (unitFills n)).orders.lookup 1

/-- With one unit left, the order takes one unit. -/
theorem admits_oneUnit
    {entry : Option Order} {o : Order} {s : OrderStatus} {left : ℚ}
    (ho : entry = some o) (hstatus : entry.map Order.status = some s)
    (hleaves : entry.map Order.leaves = some left)
    (hlegal : legal s .partiallyFilled = true) (hleft : 1 ≤ left) :
    Admits o oneUnit := by
  rw [ho, Option.map_some, Option.some.injEq] at hstatus hleaves
  refine ⟨Or.inl (by rw [hstatus, hlegal]), ?_⟩
  have htol := qtyTolerance_pos
  rw [Order.leaves] at hleaves
  change o.filledQty + 1 ≤ _
  linarith

/-- Two fills of one unit complete the order. -/
theorem atomic_two_fills :
    AllSteps event Atomic (funded { limits := { maxOrderQty := 2 } } 100)
      (unitFills 2) := by
  refine (atomic_fills_iff { limits := { maxOrderQty := 2 } } 100
    (unitFills 2)).1.mpr ⟨trivial, ?_, ?_, trivial⟩
  · intro _ o ho
    have hstatus : (restingAfter 0).map Order.status = some .sent := by
      decide +kernel
    have hleaves : (restingAfter 0).map Order.leaves = some 2 := by
      decide +kernel
    exact admits_oneUnit ho hstatus hleaves rfl (by norm_num)
  · intro _ o ho
    have hstatus : (restingAfter 1).map Order.status =
        some .partiallyFilled := by
      decide +kernel
    have hleaves : (restingAfter 1).map Order.leaves = some 1 := by
      decide +kernel
    exact admits_oneUnit ho hstatus hleaves rfl le_rfl

/-- The second of them is reported again: the order is filled, takes the fill
all the same, and stands at three units of two. -/
theorem third_fill_taken :
    (restingAfter 2).map Order.status = some .filled ∧
      (restingAfter 3).map Order.filledQty = some 3 ∧
      ¬ AllSteps event Atomic
        (funded { limits := { maxOrderQty := 2 } } 100) (unitFills 3) := by
  have hstatus : (restingAfter 2).map Order.status = some .filled := by
    decide +kernel
  refine ⟨hstatus, by decide +kernel, ?_⟩
  rintro ⟨_, _, _, hatomic, _⟩
  have hforbids : (run event
      (funded { limits := { maxOrderQty := 2 } } 100)
        (unitFills 2)).Forbids oneUnit := by
    intro o ho hadmits
    have ho' : restingAfter 2 = some o := ho
    rw [ho', Option.map_some, Option.some.injEq] at hstatus
    have hlegal := hadmits.status
    rw [hstatus] at hlegal
    revert hlegal
    decide
  have hfills := (hatomic (by decide +kernel) hforbids).fills
  revert hfills
  decide +kernel

end OrderManager

end ExecutionLayer
