import ExecutionLayer.NotionalCap

/-!
# Market orders that are left behind

A market order is filled in full when it is routed, or it is rejected by one
of the gates, and nothing ever comes back to an order that was routed and not
filled.  The matcher has one reason not to fill a market order: the quote has
no price on either side.  Neither gate looks for that: at such a quote the
notional of an order is not positive, and both are content.

So a market order is left behind exactly when both gates let it through at a
quote without a price (`market_orders_end_iff`).
-/

namespace ExecutionLayer

open StepSystem

/-- Filled in full, or rejected with a reason. -/
def Order.Ended (o : Order) : Prop :=
  (o.status = .filled ∧ o.filledQty = o.qty) ∨
    (o.status = .rejected ∧ o.rejectReason ≠ "")

instance (o : Order) : Decidable o.Ended := by
  unfold Order.Ended
  infer_instance

/-- A quote has a price as soon as one of its sides has one. -/
theorem Quote.touch_pos_iff (q : Quote) (side : Side) :
    0 < q.touch side ↔ 0 < q.bid ∨ 0 < q.ask := by
  have hmid : ¬ 0 < q.bid → ¬ 0 < q.ask → ¬ 0 < q.mid := by
    intro hbid hask
    rw [not_lt] at hbid hask ⊢
    exact mul_nonpos_of_nonneg_of_nonpos one_half_pos.le
      (add_nonpos hbid hask)
  cases side with
  | buy =>
      simp only [touch, if_true]
      split_ifs with hask hbid
      · exact iff_of_true hask (Or.inr hask)
      · exact iff_of_true hbid (Or.inl hbid)
      · exact iff_of_false (hmid hbid hask) (not_or.mpr ⟨hbid, hask⟩)
  | sell =>
      simp only [touch, reduceCtorEq, if_false]
      split_ifs with hbid hask
      · exact iff_of_true hbid (Or.inl hbid)
      · exact iff_of_true hask (Or.inr hask)
      · exact iff_of_false (hmid hbid hask) (not_or.mpr ⟨hbid, hask⟩)

namespace OrderManager

/-- Both gates let the signal through at a quote without a price. -/
structure Strands (oms : OrderManager) (sig : Signal) (market : Quote) :
    Prop where
  real : ¬ Degenerate sig
  cleared : oms.Cleared sig market
  bid : ¬ 0 < market.bid
  ask : ¬ 0 < market.ask

/-- The submission returns no id, or the id of an order that has ended. -/
def Ends (oms : OrderManager) (sig : Signal) (market : Quote) : Prop :=
  ∀ id, (oms.submit sig market).1 = some id →
    ∃ o, (oms.submit sig market).2.orders.lookup id = some o ∧ o.Ended

/-- No market order is left between its submission and its end. -/
def NoneLeft (oms : OrderManager) : Prop :=
  ∀ id o, oms.orders.lookup id = some o → o.type = .market → o.Ended

section OneSubmission

variable {oms oms' : OrderManager} {sig : Signal} {market : Quote}

theorem ended_filledOrder :
    (filledOrder (orderOf oms.nextId sig)
      (oms.fillFor sig market)).Ended :=
  Or.inl ⟨rfl, sub_zero _⟩

/-- A routed market order rests exactly at a quote without a price. -/
theorem not_fills_iff
    (htype : sig.type = .market) (hdeg : ¬ Degenerate sig) :
    ¬ PaperMatchingEngine.Fills (orderOf oms.nextId sig) market ↔
      ¬ 0 < market.bid ∧ ¬ 0 < market.ask := by
  have hqty : 0 < sig.targetQty := by
    by_contra hqty
    exact hdeg (Or.inl hqty)
  rw [fills_market_iff hqty htype, Quote.touch_pos_iff, not_or]

/-- A market order has ended when it was submitted, or it is stranded. -/
theorem ends_iff
    (htype : sig.type = .market) :
    oms.Ends sig market ↔ ¬ oms.Strands sig market := by
  have hsub := submit_submitted oms sig market
  unfold Ends
  generalize oms.submit sig market = res at hsub ⊢
  obtain ⟨id, oms'⟩ := res
  cases hsub with
  | degenerate hdeg =>
      refine iff_of_true ?_ fun h => h.real hdeg
      intro id hid
      cases hid
  | rejected reason hdeg hgates hreason =>
      refine iff_of_true ?_ fun h => hgates h.cleared
      intro id hid
      obtain rfl := Option.some.inj hid
      exact ⟨_, Finmap.lookup_insert _, Or.inr ⟨rfl, hreason⟩⟩
  | resting hdeg hgates hrest =>
      obtain ⟨hbid, hask⟩ := (not_fills_iff htype hdeg).mp hrest
      refine iff_of_false ?_ (not_not_intro ⟨hdeg, hgates, hbid, hask⟩)
      intro h
      obtain ⟨o, ho, hended⟩ := h oms.nextId rfl
      have hsent := Option.some.inj ((Finmap.lookup_insert _).symm.trans ho)
      rw [← hsent] at hended
      rcases hended with ⟨hstatus, _⟩ | ⟨hstatus, _⟩
      · cases hstatus
      · cases hstatus
  | filled hdeg hgates hfills =>
      refine iff_of_true ?_ fun h =>
        (not_fills_iff htype hdeg).mpr ⟨h.bid, h.ask⟩ hfills
      intro id hid
      obtain rfl := Option.some.inj hid
      exact ⟨_, Finmap.lookup_insert _, ended_filledOrder⟩

/-- An id that a submission returns is the id of the order it filed. -/
theorem exists_filed {id : Nat}
    (hid : (oms.submit sig market).1 = some id) :
    ∃ o, (oms.submit sig market).2.orders.lookup id = some o ∧
      o.type = sig.type := by
  have hsub := submit_submitted oms sig market
  generalize oms.submit sig market = res at hsub hid ⊢
  obtain ⟨_, oms'⟩ := res
  cases hsub with
  | degenerate _ =>
      cases hid
  | rejected reason _ _ _ =>
      obtain rfl := Option.some.inj hid
      exact ⟨_, Finmap.lookup_insert _, rfl⟩
  | resting _ _ _ =>
      obtain rfl := Option.some.inj hid
      exact ⟨_, Finmap.lookup_insert _, rfl⟩
  | filled _ _ _ =>
      obtain rfl := Option.some.inj hid
      exact ⟨_, Finmap.lookup_insert _, rfl⟩

/-- A market order that was left shows in the state it was left in. -/
theorem ends_of_noneLeft
    (htype : sig.type = .market)
    (h : (oms.submit sig market).2.NoneLeft) :
    oms.Ends sig market := by
  intro id hid
  obtain ⟨o, ho, hsame⟩ := exists_filed hid
  exact ⟨o, ho, h id o ho (hsame.trans htype)⟩

/-- Filing an order keeps `NoneLeft`, when the new order is not a market order
that is left. -/
theorem NoneLeft.filed
    {filed : Order}
    (h : NoneLeft oms)
    (horders : oms'.orders = oms.orders.insert oms.nextId filed)
    (hfiled : filed.type = .market → filed.Ended) :
    NoneLeft oms' := by
  intro id o ho hmarket
  rw [horders] at ho
  by_cases hid : id = oms.nextId
  · subst hid
    obtain rfl := Option.some.inj ((Finmap.lookup_insert _).symm.trans ho)
    exact hfiled hmarket
  · exact h id o ((Finmap.lookup_insert_of_ne _ hid).symm.trans ho) hmarket

theorem NoneLeft.submitted {id : Option Nat}
    (h : NoneLeft oms)
    (hends : sig.type = .market → ¬ oms.Strands sig market)
    (hsub : Submitted oms sig market id oms') :
    NoneLeft oms' := by
  cases hsub with
  | degenerate _ =>
      exact h
  | rejected reason _ _ hreason =>
      exact h.filed rfl fun _ => Or.inr ⟨rfl, hreason⟩
  | resting hdeg hgates hrest =>
      refine h.filed rfl fun hmarket => ?_
      obtain ⟨hbid, hask⟩ := (not_fills_iff hmarket hdeg).mp hrest
      exact absurd ⟨hdeg, hgates, hbid, hask⟩ (hends hmarket)
  | filled _ _ _ =>
      exact h.filed rfl fun _ => ended_filledOrder

end OneSubmission

/-- **Market orders end, unless they are stranded.**  In every reachable state
a market order has ended when it was submitted, exactly when the two gates do
not let it through at a quote without a price.  And no market order is left in
any state of a run exactly when none of its calls, of `flatten` either, is
such a submission. -/
theorem market_orders_end_iff
    (risk : RiskManager) (capital : ℚ) (calls : List OmsCall) :
    (∀ sig market, sig.type = .market →
        ((reached risk capital calls).Ends sig market ↔
          ¬ (reached risk capital calls).Strands sig market)) ∧
      ((∀ before, before <+: calls →
          (reached risk capital before).NoneLeft) ↔
        AllSteps call
          (Signals fun oms sig market =>
            sig.type = .market → ¬ oms.Strands sig market)
          (funded risk capital) calls) := by
  refine ⟨fun sig market htype => ends_iff htype, ?_, ?_⟩
  · intro h
    rw [allSteps_iff_parts]
    intro before c hpre sig market hsig htype
    have hnone := h _ hpre
    rw [reached, run_append] at hnone
    change NoneLeft (call _ c) at hnone
    rw [call_eq_submit hsig] at hnone
    exact (ends_iff htype).mp (ends_of_noneLeft htype hnone)
  · intro hsteps before hpre
    refine run_invariant_of_signals (I := NoneLeft) ?_ ?_ ?_
      (hsteps.part call hpre)
    · intro oms reason h
      exact h
    · intro oms sig market id oms' h hends hsub
      exact h.submitted hends hsub
    · intro id o ho
      cases ho

/-- A market order for one unit. -/
def marketUnit : Signal where
  symbol := "X"
  targetQty := 1

/-- The first order of a funded account, submitted before a quote has arrived,
passes both gates and stays sent. -/
theorem market_order_left_without_quote :
    marketUnit.type = .market ∧
      ((reached {} 100 []).submit marketUnit {}).1 = some 1 ∧
      (((reached {} 100 []).submit marketUnit {}).2.orders.lookup 1).map
        Order.status = some .sent ∧
      ¬ (reached {} 100 []).Ends marketUnit {} ∧
      ¬ (reached {} 100 [.submit marketUnit {}]).NoneLeft := by
  have hid : ((reached {} 100 []).submit marketUnit {}).1 = some 1 := by
    decide +kernel
  have hsent : (((reached {} 100 []).submit marketUnit {}).2.orders.lookup
      1).map Order.status = some .sent := by
    decide +kernel
  have hleft : ¬ (reached {} 100 []).Ends marketUnit {} := by
    intro h
    obtain ⟨o, ho, hended⟩ := h 1 hid
    rw [ho] at hsent
    have hstatus : o.status = .sent := Option.some.inj hsent
    rcases hended with ⟨hfilled, _⟩ | ⟨hrejected, _⟩
    · exact absurd (hstatus.symm.trans hfilled) (by decide)
    · exact absurd (hstatus.symm.trans hrejected) (by decide)
  exact ⟨rfl, hid, hsent, hleft,
    fun h => hleft (ends_of_noneLeft rfl h)⟩

end OrderManager

end ExecutionLayer
