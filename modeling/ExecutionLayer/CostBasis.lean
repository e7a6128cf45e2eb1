import ExecutionLayer.FillSplitting
import ExecutionLayer.Library.StepSystem

/-!
# The average cost is a cost

The average price of a position is carried through re-averaging, reductions,
flips and resets.  It is bounded by what was paid: by the prices of the fills
that increased the position since it was last flat or last changed sign.

`CostHistory` keeps these prices beside the position.  Its invariant `Costed`
has what the bound needs: a position that is held has such a price below and
one above its average, and every one of them is positive.
-/

namespace ExecutionLayer

open AverageCost StepSystem

namespace Position

/-- What the branch of `apply` that divides divides by is not zero. -/
theorem apply_netQty_ne_zero_of_opens
    {p : Position} {f : Fill} (hq : 0 < f.qty) (h : p.Opens f) :
    |p.netQty + signedQty f.side f.qty| ≠ 0 :=
  abs_ne_zero.mpr (add_ne_zero_of_mul_nonneg (signedQty_ne_zero hq)
    ((p.opens_iff hq).mp h))

end Position

/-- A position and the prices of the fills that increased it since it was
last flat or last changed sign. -/
structure CostHistory where
  position : Position
  prices : List ℚ := []

namespace CostHistory

/-- A fill opens a new list, adds to it, or leaves it; and a flat position has
none. -/
def fill (h : CostHistory) (f : Fill) : CostHistory :=
  let net := h.position.netQty
  let newNet := net + signedQty f.side f.qty
  { position := h.position.apply f
    prices :=
      if newNet = 0 then []
      else if net * newNet ≤ 0 then [f.price]
      else if |net| < |newNet| then h.prices ++ [f.price]
      else h.prices }

/-- The history of a fresh position. -/
def fills (symbol : String) (fs : List Fill) : CostHistory :=
  run fill { position := { symbol := symbol } } fs

/-- The position of the history is the one that the fills leave. -/
theorem fills_position (symbol : String) (fs : List Fill) :
    (fills symbol fs).position =
      run Position.apply { symbol := symbol } fs := by
  have hgen : ∀ h : CostHistory,
      (run fill h fs).position = run Position.apply h.position fs := by
    induction fs with
    | nil =>
        intro h
        rfl
    | cons f fs ih =>
        intro h
        exact ih (h.fill f)
  exact hgen _

/-- The average stands between two of the prices, and is 0 only of a flat
position. -/
structure Costed (h : CostHistory) : Prop where
  flat : h.position.netQty = 0 → h.position.avgPrice = 0
  held : h.position.netQty ≠ 0 →
    ∃ lo ∈ h.prices, ∃ hi ∈ h.prices,
      lo ≤ h.position.avgPrice ∧ h.position.avgPrice ≤ hi
  positive : ∀ p ∈ h.prices, 0 < p

theorem Costed.avgPrice_pos
    {h : CostHistory} (hc : Costed h) (hheld : h.position.netQty ≠ 0) :
    0 < h.position.avgPrice := by
  obtain ⟨lo, hlo, _, _, hle, _⟩ := hc.held hheld
  exact (hc.positive lo hlo).trans_le hle

/-- A fill that opens a position, or flips it. -/
theorem Costed.restart
    {h : CostHistory} {f : Fill} (hp : 0 < f.price)
    (hnet : h.position.netQty + signedQty f.side f.qty ≠ 0)
    (hturn : h.position.netQty *
      (h.position.netQty + signedQty f.side f.qty) ≤ 0)
    (havg : (h.position.apply f).avgPrice = f.price) :
    Costed (h.fill f) := by
  have hprices : (h.fill f).prices = [f.price] := by
    simp only [fill, if_neg hnet, if_pos hturn]
  refine ⟨fun hflat => absurd hflat hnet, fun _ => ?_, ?_⟩
  · rw [hprices]
    exact ⟨f.price, List.mem_singleton_self _, f.price,
      List.mem_singleton_self _, havg.ge, havg.le⟩
  · intro p hmem
    rw [hprices, List.mem_singleton] at hmem
    exact hmem ▸ hp

/-- A fill that adds to a position that is held. -/
theorem Costed.add
    {h : CostHistory} (hc : Costed h) {f : Fill} (hq : 0 < f.qty)
    (hp : 0 < f.price) (hheld : h.position.netQty ≠ 0)
    (hsame : 0 ≤ h.position.netQty * signedQty f.side f.qty) :
    Costed (h.fill f) := by
  have hsq : signedQty f.side f.qty ≠ 0 := signedQty_ne_zero hq
  have hnet := add_ne_zero_of_mul_nonneg hsq hsame
  have hturn : ¬ h.position.netQty *
      (h.position.netQty + signedQty f.side f.qty) ≤ 0 := by
    rw [mul_add, not_le]
    exact add_pos_of_pos_of_nonneg (mul_self_pos.mpr hheld) hsame
  have hmore : |h.position.netQty| <
      |h.position.netQty + signedQty f.side f.qty| := by
    rw [abs_add_of_mul_nonneg hsame]
    exact lt_add_of_pos_right _ (abs_pos.mpr hsq)
  have hprices : (h.fill f).prices = h.prices ++ [f.price] := by
    simp only [fill, if_neg hnet, if_neg hturn, if_pos hmore]
  have hcost := (Position.apply_opening hq hsame).2
  obtain ⟨lo, hlo, hi, hhi, hle, hge⟩ := hc.held hheld
  refine ⟨fun hflat => absurd hflat hnet, fun _ => ?_, ?_⟩
  · rw [hprices]
    have hbounds :
        min lo f.price ≤ (h.position.apply f).avgPrice ∧
          (h.position.apply f).avgPrice ≤ max hi f.price :=
      average_between hsame hnet hcost
        ⟨(min_le_left _ _).trans hle, hge.trans (le_max_left _ _)⟩
        ⟨min_le_right _ _, le_max_right _ _⟩
    refine ⟨min lo f.price, ?_, max hi f.price, ?_, hbounds⟩
    · rcases min_choice lo f.price with heq | heq
      · rw [heq]
        exact List.mem_append_left _ hlo
      · rw [heq]
        exact List.mem_append_right _ (List.mem_singleton_self _)
    · rcases max_choice hi f.price with heq | heq
      · rw [heq]
        exact List.mem_append_left _ hhi
      · rw [heq]
        exact List.mem_append_right _ (List.mem_singleton_self _)
  · intro p hmem
    rw [hprices] at hmem
    rcases List.mem_append.mp hmem with hmem | hmem
    · exact hc.positive p hmem
    · rw [List.mem_singleton.mp hmem]
      exact hp

/-- A fill against the position that does not go through zero. -/
theorem Costed.reduce
    {h : CostHistory} (hc : Costed h) {f : Fill} (hq : 0 < f.qty)
    (hagainst : h.position.netQty * signedQty f.side f.qty < 0)
    (hle : |signedQty f.side f.qty| ≤ |h.position.netQty|) :
    Costed (h.fill f) := by
  have havg := (Position.apply_closing hq hagainst).2
  rw [if_neg (not_lt.mpr hle)] at havg
  have hsq : signedQty f.side f.qty ≠ 0 := signedQty_ne_zero hq
  have hheld : h.position.netQty ≠ 0 := left_ne_zero_of_mul hagainst.ne
  have hless := abs_add_of_mul_neg hagainst hle
  by_cases hflat : h.position.netQty + signedQty f.side f.qty = 0
  · rw [if_pos hflat] at havg
    have hprices : (h.fill f).prices = [] := by
      simp only [fill, if_pos hflat]
    refine ⟨fun _ => havg, fun hne => absurd hflat hne, ?_⟩
    rw [hprices]
    exact fun _ hmem => absurd hmem List.not_mem_nil
  · rw [if_neg hflat] at havg
    have hmore : ¬ |h.position.netQty| <
        |h.position.netQty + signedQty f.side f.qty| := by
      rw [hless, not_lt]
      exact sub_le_self _ (abs_nonneg _)
    have hturn : ¬ h.position.netQty *
        (h.position.netQty + signedQty f.side f.qty) ≤ 0 := by
      have hkept := add_mul_nonpos_of_abs_le (r := -h.position.netQty)
        (by rw [mul_neg]; exact neg_neg_of_pos (mul_self_pos.mpr hheld))
        hle
      intro hle0
      have hzero := mul_ne_zero hheld hflat
      refine hzero (le_antisymm hle0 ?_)
      linarith
    have hprices : (h.fill f).prices = h.prices := by
      simp only [fill, if_neg hflat, if_neg hturn, if_neg hmore]
    refine ⟨fun hne => absurd hne hflat, fun _ => ?_, ?_⟩
    · rw [hprices]
      change ∃ lo ∈ h.prices, ∃ hi ∈ h.prices,
        lo ≤ (h.position.apply f).avgPrice ∧
          (h.position.apply f).avgPrice ≤ hi
      rw [havg]
      exact hc.held hheld
    · rw [hprices]
      exact hc.positive

theorem Costed.fill
    {h : CostHistory} (hc : Costed h) {f : Fill} (hq : 0 < f.qty)
    (hp : 0 < f.price) :
    Costed (h.fill f) := by
  have hsq : signedQty f.side f.qty ≠ 0 := signedQty_ne_zero hq
  rcases le_or_gt 0 (h.position.netQty * signedQty f.side f.qty) with
    hsame | hagainst
  · by_cases hheld : h.position.netQty = 0
    · refine .restart hp ?_ ?_ ?_
      · rw [hheld, zero_add]
        exact hsq
      · rw [hheld, zero_mul]
      · have hcost := (Position.apply_opening hq hsame).2
        rw [Position.apply_netQty, hheld, zero_add, mul_zero, zero_add,
          mul_comm] at hcost
        exact mul_left_cancel₀ hsq hcost
    · exact hc.add hq hp hheld hsame
  · rcases le_or_gt |signedQty f.side f.qty| |h.position.netQty| with
      hle | hlt
    · exact hc.reduce hq hagainst hle
    · refine .restart hp (add_ne_zero_of_abs_lt hlt) ?_
        (Position.apply_flipping hq hagainst hlt).2
      have hflip := add_mul_pos_of_abs_lt (r := -h.position.netQty)
        (by linarith) hlt
      linarith

theorem costed_fills
    (symbol : String) {fs : List Fill}
    (hfs : ∀ f ∈ fs, 0 < f.qty ∧ 0 < f.price) :
    Costed (fills symbol fs) := by
  induction fs using List.reverseRecOn with
  | nil =>
      exact ⟨fun _ => rfl, fun hne => absurd rfl hne,
        fun _ hmem => absurd hmem List.not_mem_nil⟩
  | append_singleton fs f ih =>
      have hf := hfs f (by simp)
      have hstep : fills symbol (fs ++ [f]) = (fills symbol fs).fill f := by
        rw [fills, run_append]
        rfl
      rw [hstep]
      exact (ih fun g hg => hfs g (List.mem_append_left _ hg)).fill hf.1
        hf.2

/-- **The average cost stays a real cost.**  Whatever fills of positive
quantity and price a fresh position has received: the next one does not
divide by zero, the average is 0 exactly when the position is flat, and else
it stands between two of the prices that the position was increased at since
it was last flat or last changed sign. -/
theorem average_cost_is_cost
    (symbol : String) {fs : List Fill}
    (hfs : ∀ f ∈ fs, 0 < f.qty ∧ 0 < f.price) :
    (∀ f, 0 < f.qty → (run Position.apply { symbol := symbol } fs).Opens f →
        |(run Position.apply { symbol := symbol } fs).netQty +
          signedQty f.side f.qty| ≠ 0) ∧
      ((run Position.apply { symbol := symbol } fs).avgPrice = 0 ↔
        (run Position.apply { symbol := symbol } fs).netQty = 0) ∧
      ((run Position.apply { symbol := symbol } fs).netQty ≠ 0 →
        ∃ lo ∈ (fills symbol fs).prices, ∃ hi ∈ (fills symbol fs).prices,
          lo ≤ (run Position.apply { symbol := symbol } fs).avgPrice ∧
            (run Position.apply { symbol := symbol } fs).avgPrice ≤ hi) := by
  have hcosted := costed_fills symbol hfs
  rw [← fills_position]
  refine ⟨fun f hq hopens => ?_, ⟨fun hzero => ?_, hcosted.flat⟩,
    hcosted.held⟩
  · exact Position.apply_netQty_ne_zero_of_opens hq hopens
  · by_contra hheld
    exact (hcosted.avgPrice_pos hheld).ne' hzero

/-- A purchase of `qty` units at `price`. -/
def purchase (qty price : ℚ) : Fill :=
  { symbol := "X", qty := qty, price := price }

/-- Sold out and bought again, then added to: the first price is gone. -/
example :
    (fills "X" [purchase 1 10, { purchase 1 12 with side := .sell },
      purchase 1 14, purchase 3 18]).prices = [14, 18] := by
  decide +kernel

/-- Two purchases: the average is between their prices. -/
theorem average_cost_is_cost_two_purchases :
    ∃ lo ∈ (fills "X" [purchase 1 14, purchase 3 18]).prices,
      ∃ hi ∈ (fills "X" [purchase 1 14, purchase 3 18]).prices,
        lo ≤ (run Position.apply { symbol := "X" }
            [purchase 1 14, purchase 3 18]).avgPrice ∧
          (run Position.apply { symbol := "X" }
            [purchase 1 14, purchase 3 18]).avgPrice ≤ hi := by
  refine (average_cost_is_cost "X" ?_).2.2 (by decide +kernel)
  intro f hf
  rcases List.mem_cons.mp hf with rfl | hf
  · exact ⟨by decide, by decide⟩
  · rw [List.mem_singleton.mp hf]
    exact ⟨by decide, by decide⟩

end CostHistory

end ExecutionLayer
