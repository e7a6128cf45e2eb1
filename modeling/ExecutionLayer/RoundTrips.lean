import ExecutionLayer.Portfolio

/-!
# The round-trip ledger

`Portfolio.apply` appends a `ClosedPosition` when a fill takes a position
back to zero.  The record is built from the values around that last fill: its
size is what was still open before the fill, and its profit is what the fill
itself realized.  What earlier partial exits of the same round trip sold and
realized is in no record.

`PartialExit` names those fills.  Over a run without crossings the quantity
sold is what the records hold, plus what partial exits took off, plus what is
held short (`sold_eq`).  So at a moment when a symbol is flat its records
reconcile exactly when none of its fills was a partial exit.
-/

namespace ExecutionLayer

open FiniteMap StepSystem

namespace Portfolio

/-- A fill against the position, larger than it: it goes through zero. -/
def Crossing (pf : Portfolio) (f : Fill) : Prop :=
  pf.netQty f.symbol * signedQty f.side f.qty < 0 ∧
    |pf.netQty f.symbol| < |signedQty f.side f.qty|

/-- A fill against the position, smaller than it. -/
def PartialExit (pf : Portfolio) (f : Fill) : Prop :=
  pf.netQty f.symbol * signedQty f.side f.qty < 0 ∧
    |signedQty f.side f.qty| < |pf.netQty f.symbol|

/-- The condition under which a record is appended. -/
def Closing (pf : Portfolio) (f : Fill) : Prop :=
  pf.netQty f.symbol ≠ 0 ∧
    pf.netQty f.symbol + signedQty f.side f.qty = 0

instance (pf : Portfolio) (f : Fill) : Decidable (pf.Crossing f) := by
  unfold Crossing
  infer_instance

instance (pf : Portfolio) (f : Fill) : Decidable (pf.PartialExit f) := by
  unfold PartialExit
  infer_instance

instance (pf : Portfolio) (f : Fill) : Decidable (pf.Closing f) := by
  unfold Closing
  infer_instance

/-- A fill of positive quantity and price that does not cross zero. -/
structure OrdinaryFill (pf : Portfolio) (f : Fill) : Prop where
  qty_pos : 0 < f.qty
  price_pos : 0 < f.price
  no_crossing : ¬ pf.Crossing f

/-- The account after a list of fills. -/
def account (capital : ℚ) (fills : List Fill) : Portfolio :=
  run apply (fund {} capital) fills

/-- The records of one symbol. -/
def records (pf : Portfolio) (sym : String) : List ClosedPosition :=
  pf.closed.filter fun c => c.symbol = sym

def recordedQty (pf : Portfolio) (sym : String) : ℚ :=
  ((pf.records sym).map ClosedPosition.qty).sum

def recordedPnl (pf : Portfolio) (sym : String) : ℚ :=
  ((pf.records sym).map ClosedPosition.realizedPnl).sum

/-- The lifetime realized profit of a symbol. -/
def lifetimePnl (pf : Portfolio) (sym : String) : ℚ :=
  (pf.positionAt sym).realizedPnl

/-- The quantity of `sym` a fill sells. -/
def soldQty (sym : String) (f : Fill) : ℚ :=
  if f.symbol = sym ∧ f.side = .sell then f.qty else 0

/-- The total quantity of `sym` that a list of fills sold. -/
def sold (sym : String) (fills : List Fill) : ℚ :=
  (fills.map (soldQty sym)).sum

/-- The quantity of `sym` that a partial exit takes off. -/
def exitedQty (sym : String) (pf : Portfolio) (f : Fill) : ℚ :=
  if f.symbol = sym ∧ pf.PartialExit f then f.qty else 0

/-- The quantity that is held short. -/
def shortQty (pf : Portfolio) (sym : String) : ℚ :=
  max (-pf.netQty sym) 0

/-! ### One fill -/

section OneFill

variable {pf : Portfolio} {f : Fill}

/-- An ordinary fill opens, exits in part or closes. -/
theorem OrdinaryFill.cases
    (h : pf.OrdinaryFill f) :
    0 ≤ pf.netQty f.symbol * signedQty f.side f.qty ∨
      pf.PartialExit f ∨ pf.Closing f := by
  rcases le_or_gt 0 (pf.netQty f.symbol * signedQty f.side f.qty)
    with hopen | hagainst
  · exact Or.inl hopen
  · right
    rcases lt_trichotomy |signedQty f.side f.qty| |pf.netQty f.symbol|
      with hlt | heq | hgt
    · exact Or.inl ⟨hagainst, hlt⟩
    · right
      have hn : pf.netQty f.symbol ≠ 0 := by
        intro h0
        simp [h0] at hagainst
      refine ⟨hn, ?_⟩
      rcases abs_eq_abs.mp heq with h' | h'
      · rw [h'] at hagainst
        exact absurd hagainst (not_lt.mpr (mul_self_nonneg _))
      · rw [h', add_neg_cancel]
    · exact absurd ⟨hagainst, hgt⟩ h.no_crossing

theorem not_closing_of_opening
    (hq : 0 < f.qty)
    (h : 0 ≤ pf.netQty f.symbol * signedQty f.side f.qty) :
    ¬ pf.Closing f := by
  rintro ⟨_, h0⟩
  exact AverageCost.add_ne_zero_of_mul_nonneg (signedQty_ne_zero hq) h h0

theorem PartialExit.not_closing
    (h : pf.PartialExit f) :
    ¬ pf.Closing f := by
  rintro ⟨_, h0⟩
  have heq := neg_eq_of_add_eq_zero_right h0
  have hlt := h.2
  rw [← heq, abs_neg] at hlt
  exact lt_irrefl _ hlt

theorem not_partialExit_of_opening
    (h : 0 ≤ pf.netQty f.symbol * signedQty f.side f.qty) :
    ¬ pf.PartialExit f := by
  intro hp
  exact absurd hp.1 (not_lt.mpr h)

/-- The record of a closing fill. -/
def recordOf (pf : Portfolio) (f : Fill) : ClosedPosition where
  symbol := f.symbol
  qty := |(pf.entryFor f).netQty|
  avgEntry := (pf.entryFor f).avgPrice
  exitPrice := f.price
  realizedPnl :=
    ((pf.entryFor f).apply f).realizedPnl - (pf.entryFor f).realizedPnl
  closedTsNs := f.tsNs

theorem apply_closed (pf : Portfolio) (f : Fill) :
    (pf.apply f).closed =
      if pf.Closing f then pf.closed ++ [pf.recordOf f]
      else pf.closed := by
  simp only [apply, Closing, recordOf, entryFor_netQty,
    Position.apply_netQty]

theorem records_apply (pf : Portfolio) (f : Fill) (sym : String) :
    (pf.apply f).records sym =
      if f.symbol = sym ∧ pf.Closing f then
        pf.records sym ++ [pf.recordOf f]
      else pf.records sym := by
  rw [records, apply_closed]
  by_cases hc : pf.Closing f
  · by_cases hs : f.symbol = sym
    · simp [hc, hs, records, recordOf]
    · simp [hc, hs, records, recordOf]
  · simp [hc, records]

theorem recordedQty_apply (pf : Portfolio) (f : Fill) (sym : String) :
    (pf.apply f).recordedQty sym =
      pf.recordedQty sym +
        if f.symbol = sym ∧ pf.Closing f then |pf.netQty f.symbol|
        else 0 := by
  rw [recordedQty, records_apply]
  split_ifs with h
  · simp [recordedQty, recordOf]
  · simp [recordedQty]

theorem lifetimePnl_apply_self (pf : Portfolio) (f : Fill) :
    (pf.apply f).lifetimePnl f.symbol =
      ((pf.entryFor f).apply f).realizedPnl := by
  rw [lifetimePnl, apply_positionAt_self]

theorem lifetimePnl_apply_of_ne
    (pf : Portfolio) {f : Fill} {sym : String}
    (h : f.symbol ≠ sym) :
    (pf.apply f).lifetimePnl sym = pf.lifetimePnl sym := by
  rw [lifetimePnl, apply_positionAt_of_ne pf (Ne.symm h)]
  rfl

/-- Opening realizes nothing. -/
theorem lifetimePnl_opening
    (hq : 0 < f.qty)
    (h : 0 ≤ pf.netQty f.symbol * signedQty f.side f.qty) :
    (pf.apply f).lifetimePnl f.symbol = pf.lifetimePnl f.symbol := by
  rw [← entryFor_netQty] at h
  rw [lifetimePnl_apply_self, (Position.apply_opening hq h).1,
    entryFor_realizedPnl]
  rfl

/-- The record of a closing fill holds what the fill realized. -/
theorem recordedPnl_apply (pf : Portfolio) (f : Fill) (sym : String) :
    (pf.apply f).recordedPnl sym =
      pf.recordedPnl sym +
        if f.symbol = sym ∧ pf.Closing f then
          (pf.apply f).lifetimePnl sym - pf.lifetimePnl sym
        else 0 := by
  rw [recordedPnl, records_apply]
  split_ifs with h
  · obtain ⟨rfl, _⟩ := h
    rw [lifetimePnl_apply_self]
    simp [recordedPnl, recordOf, lifetimePnl]
  · simp [recordedPnl]

theorem shortQty_apply_self (pf : Portfolio) (f : Fill) :
    (pf.apply f).shortQty f.symbol =
      max (-(pf.netQty f.symbol + signedQty f.side f.qty)) 0 := by
  rw [shortQty, apply_netQty, if_pos rfl]
  rfl

theorem shortQty_apply_of_ne
    (pf : Portfolio) {f : Fill} {sym : String}
    (h : f.symbol ≠ sym) :
    (pf.apply f).shortQty sym = pf.shortQty sym := by
  rw [shortQty, apply_netQty, if_neg h, add_zero]
  rfl

/-- Selling in the direction of the position goes short by what is sold. -/
theorem soldQty_opening
    (hq : 0 < f.qty)
    (h : 0 ≤ pf.netQty f.symbol * signedQty f.side f.qty) :
    soldQty f.symbol f =
      (pf.apply f).shortQty f.symbol - pf.shortQty f.symbol := by
  rw [shortQty_apply_self, soldQty, shortQty]
  cases hside : f.side with
  | buy =>
      rw [hside] at h
      have hn : 0 ≤ pf.netQty f.symbol := nonneg_of_mul_nonneg_left h hq
      simp only [signedQty, reduceCtorEq, and_false, if_false]
      rw [max_eq_right (by linarith), max_eq_right (by linarith), sub_zero]
  | sell =>
      rw [hside] at h
      have hn : pf.netQty f.symbol ≤ 0 := by
        by_contra hpos
        have := mul_pos (not_le.mp hpos) hq
        simp only [signedQty] at h
        linarith
      simp only [signedQty, and_self, if_true]
      rw [max_eq_left (by linarith), max_eq_left (by linarith)]
      ring

theorem soldQty_partialExit
    (hq : 0 < f.qty)
    (h : pf.PartialExit f) :
    soldQty f.symbol f =
      f.qty +
        ((pf.apply f).shortQty f.symbol - pf.shortQty f.symbol) := by
  obtain ⟨hagainst, hlt⟩ := h
  rw [abs_signedQty hq] at hlt
  rw [shortQty_apply_self, soldQty, shortQty]
  cases hside : f.side with
  | buy =>
      rw [hside] at hagainst
      have hn : pf.netQty f.symbol < 0 := by
        by_contra hpos
        exact absurd hagainst
          (not_lt.mpr (mul_nonneg (not_lt.mp hpos) hq.le))
      rw [abs_of_neg hn] at hlt
      simp only [signedQty, reduceCtorEq, and_false, if_false]
      rw [max_eq_left (by linarith), max_eq_left (by linarith)]
      ring
  | sell =>
      rw [hside] at hagainst
      have hn : 0 < pf.netQty f.symbol := by
        by_contra hneg
        have := mul_nonneg_of_nonpos_of_nonpos (not_lt.mp hneg)
          (neg_nonpos.mpr hq.le)
        simp only [signedQty] at hagainst
        linarith
      rw [abs_of_pos hn] at hlt
      simp only [signedQty, and_self, if_true]
      rw [max_eq_right (by linarith), max_eq_right (by linarith)]
      ring

theorem soldQty_closing
    (hq : 0 < f.qty)
    (h : pf.Closing f) :
    soldQty f.symbol f =
      |pf.netQty f.symbol| +
        ((pf.apply f).shortQty f.symbol - pf.shortQty f.symbol) := by
  obtain ⟨_, h0⟩ := h
  rw [shortQty_apply_self, soldQty, shortQty, h0, neg_zero, max_self]
  have hn := eq_neg_of_add_eq_zero_left h0
  rw [hn, neg_neg, abs_neg, abs_signedQty hq]
  cases hside : f.side with
  | buy =>
      simp only [signedQty, reduceCtorEq, and_false, if_false]
      rw [max_eq_left hq.le]
      ring
  | sell =>
      simp only [signedQty, and_self, if_true]
      rw [max_eq_right (neg_nonpos.mpr hq.le)]
      ring

/-- What an ordinary fill sells goes to a record, to a partial exit or to
the short position. -/
theorem soldQty_balance
    (hf : pf.OrdinaryFill f) (sym : String) :
    soldQty sym f =
      exitedQty sym pf f +
        (((pf.apply f).recordedQty sym + (pf.apply f).shortQty sym) -
          (pf.recordedQty sym + pf.shortQty sym)) := by
  rw [recordedQty_apply, exitedQty]
  by_cases hsym : f.symbol = sym
  · subst hsym
    simp only [true_and]
    rcases hf.cases with hopen | hpart | hclose
    · rw [if_neg (not_partialExit_of_opening hopen),
        if_neg (not_closing_of_opening hf.qty_pos hopen),
        soldQty_opening hf.qty_pos hopen]
      ring
    · rw [if_pos hpart, if_neg hpart.not_closing,
        soldQty_partialExit hf.qty_pos hpart]
      ring
    · have hpart : ¬ pf.PartialExit f :=
        fun hp => hp.not_closing hclose
      rw [if_neg hpart, if_pos hclose, soldQty_closing hf.qty_pos hclose]
      ring
  · simp [soldQty, hsym, shortQty_apply_of_ne pf hsym]

/-- What an ordinary fill realizes is recorded, unless it is a partial
exit. -/
theorem recordedPnl_step
    (hf : pf.OrdinaryFill f) {sym : String}
    (hpart : f.symbol = sym → ¬ pf.PartialExit f)
    (h : pf.recordedPnl sym = pf.lifetimePnl sym) :
    (pf.apply f).recordedPnl sym = (pf.apply f).lifetimePnl sym := by
  rw [recordedPnl_apply, h]
  by_cases hsym : f.symbol = sym
  · subst hsym
    simp only [true_and]
    rcases hf.cases with hopen | hp | hclose
    · rw [if_neg (not_closing_of_opening hf.qty_pos hopen), add_zero,
        lifetimePnl_opening hf.qty_pos hopen]
    · exact absurd hp (hpart rfl)
    · rw [if_pos hclose]
      ring
  · rw [if_neg (fun hc => hsym hc.1), add_zero,
      lifetimePnl_apply_of_ne pf hsym]

end OneFill

/-! ### Runs of fills -/

section Runs

variable {capital : ℚ} {fills : List Fill}

/-- The total sold is in the records, was taken off by partial exits, or is
held short. -/
theorem sold_eq
    (hord : AllSteps apply OrdinaryFill (fund {} capital) fills)
    (sym : String) :
    sold sym fills =
      accumulate apply (exitedQty sym) (fund {} capital) fills +
        ((account capital fills).recordedQty sym +
          (account capital fills).shortQty sym) := by
  have hbal := accumulate_balance apply
    (fun pf => recordedQty pf sym + shortQty pf sym)
    (fun _ f => soldQty sym f) (exitedQty sym)
    (fun _ _ hf => soldQty_balance hf sym) hord
  have hstart : (fund {} capital).recordedQty sym +
      (fund {} capital).shortQty sym = 0 := by
    change (0 : ℚ) + max (-0) 0 = 0
    simp
  rw [accumulate_of_labels, hstart, sub_zero] at hbal
  exact hbal

theorem exitedQty_nonneg
    {pf : Portfolio} {f : Fill}
    (hf : pf.OrdinaryFill f) (sym : String) :
    0 ≤ exitedQty sym pf f := by
  unfold exitedQty
  split_ifs
  · exact hf.qty_pos.le
  · exact le_rfl

theorem exitedQty_eq_zero_iff
    {pf : Portfolio} {f : Fill}
    (hf : pf.OrdinaryFill f) (sym : String) :
    exitedQty sym pf f = 0 ↔ (f.symbol = sym → ¬ pf.PartialExit f) := by
  unfold exitedQty
  split_ifs with h
  · simp [hf.qty_pos.ne', h.1, h.2]
  · simpa using h

theorem shortQty_of_flat
    {pf : Portfolio} {sym : String} (h : pf.netQty sym = 0) :
    pf.shortQty sym = 0 := by
  simp [shortQty, h]

/-- While no fill of a symbol is a partial exit, its records hold all that
it realized. -/
theorem recordedPnl_eq
    {sym : String}
    (hord : AllSteps apply OrdinaryFill (fund {} capital) fills)
    (hpart : AllSteps apply
      (fun pf f => f.symbol = sym → ¬ pf.PartialExit f)
      (fund {} capital) fills) :
    (account capital fills).recordedPnl sym =
      (account capital fills).lifetimePnl sym := by
  have hboth := (allSteps_and apply _ _ _ _).mpr ⟨hord, hpart⟩
  refine run_invariant_of_allSteps apply
    (I := fun pf => recordedPnl pf sym = lifetimePnl pf sym)
    ?_ rfl hboth
  intro pf f h hstep
  exact recordedPnl_step hstep.1 hstep.2 h

/-- **The ledger of a flat symbol reconciles exactly when no fill of the
symbol was a partial exit.** -/
theorem round_trips_reconcile_iff
    (capital : ℚ) (fills : List Fill)
    (hord : AllSteps apply OrdinaryFill (fund {} capital) fills)
    (sym : String)
    (hflat : (account capital fills).netQty sym = 0) :
    ((account capital fills).recordedPnl sym =
          (account capital fills).lifetimePnl sym ∧
        (account capital fills).recordedQty sym = sold sym fills) ↔
      AllSteps apply
        (fun pf f => f.symbol = sym → ¬ pf.PartialExit f)
        (fund {} capital) fills := by
  have hsold := sold_eq hord sym
  rw [shortQty_of_flat hflat, add_zero] at hsold
  have hzero := accumulate_eq_zero_iff apply
    (fun _ _ hf => exitedQty_nonneg hf sym) hord
  rw [AllSteps.congr apply
    (fun _ _ hf => exitedQty_eq_zero_iff hf sym)
    hord] at hzero
  constructor
  · rintro ⟨_, hqty⟩
    apply hzero.mp
    linarith
  · intro hpart
    refine ⟨recordedPnl_eq hord hpart, ?_⟩
    rw [hzero.mpr hpart, zero_add] at hsold
    exact hsold.symm

/-- Two units bought and sold at once. -/
def singleExit : List Fill :=
  [{ symbol := "BTC-USD", side := .buy, qty := 2, price := 10 },
    { symbol := "BTC-USD", side := .sell, qty := 2, price := 12 }]

/-- Two units bought and sold one by one. -/
def twoExits : List Fill :=
  [{ symbol := "BTC-USD", side := .buy, qty := 2, price := 10 },
    { symbol := "BTC-USD", side := .sell, qty := 1, price := 11 },
    { symbol := "BTC-USD", side := .sell, qty := 1, price := 12 }]

/-- A round trip with a single exit reconciles. -/
theorem round_trips_reconcile_single_exit :
    (account 100 singleExit).recordedPnl "BTC-USD" = 4 ∧
      (account 100 singleExit).recordedQty "BTC-USD" = 2 := by
  have hord : AllSteps apply OrdinaryFill (fund {} 100) singleExit := by
    refine ⟨⟨by norm_num, by norm_num, ?_⟩,
      ⟨by norm_num, by norm_num, ?_⟩, trivial⟩
    · decide +kernel
    · decide +kernel
  have hiff := round_trips_reconcile_iff 100 singleExit hord "BTC-USD"
    (by decide +kernel)
  obtain ⟨hpnl, hqty⟩ := hiff.mpr
    ⟨fun _ => by decide +kernel, fun _ => by decide +kernel, trivial⟩
  refine ⟨?_, ?_⟩
  · rw [hpnl]
    decide +kernel
  · rw [hqty]
    decide +kernel

/-- With two exits the records hold one unit and the profit of the second
sale only, although every fill is ordinary and the symbol is flat again. -/
theorem round_trip_with_two_exits_not_reconciled :
    AllSteps apply OrdinaryFill (fund {} 100) twoExits ∧
      (account 100 twoExits).netQty "BTC-USD" = 0 ∧
      ¬ (account 100 twoExits).recordedPnl "BTC-USD" =
        (account 100 twoExits).lifetimePnl "BTC-USD" ∧
      ¬ (account 100 twoExits).recordedQty "BTC-USD" =
        sold "BTC-USD" twoExits := by
  constructor
  · refine ⟨⟨by norm_num, by norm_num, ?_⟩,
      ⟨by norm_num, by norm_num, ?_⟩,
      ⟨by norm_num, by norm_num, ?_⟩, trivial⟩
    · decide +kernel
    · decide +kernel
    · decide +kernel
  · decide +kernel

end Runs

end Portfolio

end ExecutionLayer
