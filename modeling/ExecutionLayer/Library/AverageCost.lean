import Mathlib.Algebra.Order.Field.Basic
import Mathlib.Algebra.Order.AbsoluteValue.Basic
import Mathlib.Tactic.Common
import Mathlib.Tactic.FieldSimp
import Mathlib.Tactic.LinearCombination
import Mathlib.Tactic.Linarith
import Mathlib.Tactic.Ring

/-!
# Average-cost accounting and trade ledgers

The bookkeeping of one holding over a linearly ordered field, in terms of
what is held, what it cost and what has been realized.  A trade is a signed
quantity and a price.  A trade in the direction of the holding adds to the
cost; a trade against it gives up the cost of the part that is closed, and
what the trade brought in beyond that cost is realized.  A trade larger than
the holding closes it and opens the remainder at the trade price.

The law that connects the book to a cash account is `realized_sub_cost_trade`:
every trade moves `realized - cost` by exactly the cash it brings in.

The second half is the plain ledger of a sequence of trades over many
symbols, cash paid and quantity held, against which an account is reconciled.
-/

namespace AverageCost

universe u v

section Signed

variable {K : Type u} [Field K] [LinearOrder K] [IsStrictOrderedRing K]

/-- A trade opens or adds when it does not point against the holding. -/
theorem opening_iff
    {n q : K} (hq : q ≠ 0) :
    (n = 0 ∨ (0 < n ↔ 0 < q)) ↔ 0 ≤ n * q := by
  rcases lt_trichotomy n 0 with hn | rfl | hn
  · rcases lt_or_gt_of_ne hq with hq | hq
    · have := mul_pos_of_neg_of_neg hn hq
      simp [hn.ne, this.le, hn.not_gt, hq.not_gt]
    · have := mul_neg_of_neg_of_pos hn hq
      simp [hn.ne, hn.not_gt, hq, this.not_ge]
  · simp
  · rcases lt_or_gt_of_ne hq with hq | hq
    · have := mul_neg_of_pos_of_neg hn hq
      simp [hn.ne', hn, hq.not_gt, this.not_ge]
    · have := mul_pos hn hq
      simp [hn, hq, this.le]

/-- Against the holding, the closed size with the sign of the holding. -/
theorem min_abs_mul_dir
    {n q : K} (h : n * q < 0) :
    min |q| |n| * (if 0 < n then 1 else -1) =
      if |n| < |q| then n else -q := by
  rcases mul_neg_iff.mp h with ⟨hn, hq⟩ | ⟨hn, hq⟩
  · rw [if_pos hn, mul_one, abs_of_pos hn, abs_of_neg hq]
    split_ifs with hlt
    · exact min_eq_right hlt.le
    · exact min_eq_left (not_lt.mp hlt)
  · rw [if_neg hn.not_gt, abs_of_neg hn, abs_of_pos hq]
    split_ifs with hlt
    · rw [min_eq_right hlt.le]
      ring
    · rw [min_eq_left (not_lt.mp hlt)]
      ring

theorem abs_add_of_mul_nonneg
    {n q : K} (h : 0 ≤ n * q) :
    |n + q| = |n| + |q| := by
  rcases mul_nonneg_iff.mp h with ⟨hn, hq⟩ | ⟨hn, hq⟩
  · rw [abs_of_nonneg hn, abs_of_nonneg hq,
      abs_of_nonneg (add_nonneg hn hq)]
  · rw [abs_of_nonpos hn, abs_of_nonpos hq,
      abs_of_nonpos (add_nonpos hn hq)]
    ring

/-- In the direction of the holding both parts have the sign of the sum. -/
theorem abs_mul_add_of_mul_nonneg
    {n q : K} (h : 0 ≤ n * q) :
    |q| * (n + q) = q * |n + q| ∧
      |n| * (n + q) = n * |n + q| := by
  rcases mul_nonneg_iff.mp h with ⟨hn, hq⟩ | ⟨hn, hq⟩
  · rw [abs_of_nonneg hn, abs_of_nonneg hq,
      abs_of_nonneg (add_nonneg hn hq)]
    exact ⟨rfl, rfl⟩
  · rw [abs_of_nonpos hn, abs_of_nonpos hq,
      abs_of_nonpos (add_nonpos hn hq)]
    constructor <;> ring

/-- A trade in the direction of the holding leaves a holding. -/
theorem add_ne_zero_of_mul_nonneg
    {n q : K} (hq : q ≠ 0) (h : 0 ≤ n * q) :
    n + q ≠ 0 := by
  intro h0
  have habs := abs_add_of_mul_nonneg h
  rw [h0, abs_zero] at habs
  have hpos := abs_pos.mpr hq
  have hnn := abs_nonneg n
  linarith

/-- A trade larger than the holding leaves a holding. -/
theorem add_ne_zero_of_abs_lt
    {n q : K} (h : |n| < |q|) :
    n + q ≠ 0 := by
  intro h0
  have hq : q = -n := by
    linear_combination h0
  rw [hq, abs_neg] at h
  exact lt_irrefl _ h

/-- Two trades in one direction point the same way against a holding. -/
theorem mul_nonneg_iff_of_same_sign
    {q r : K} (h : 0 < q * r) (n : K) :
    0 ≤ n * q ↔ 0 ≤ n * r := by
  rcases pos_and_pos_or_neg_and_neg_of_mul_pos h with ⟨hq, hr⟩ | ⟨hq, hr⟩
  · rw [mul_nonneg_iff_of_pos_right hq, mul_nonneg_iff_of_pos_right hr]
  · rw [← neg_mul_neg, ← neg_mul_neg n r,
      mul_nonneg_iff_of_pos_right (neg_pos.mpr hq),
      mul_nonneg_iff_of_pos_right (neg_pos.mpr hr)]

/-- Against the holding, and not beyond it, a trade takes off its size. -/
theorem abs_add_of_mul_neg
    {n q : K} (h : n * q < 0) (hle : |q| ≤ |n|) :
    |n + q| = |n| - |q| := by
  rcases mul_neg_iff.mp h with ⟨hn, hq⟩ | ⟨hn, hq⟩
  · rw [abs_of_pos hn, abs_of_neg hq] at hle ⊢
    rw [abs_of_nonneg (by linarith)]
    ring
  · rw [abs_of_neg hn, abs_of_pos hq] at hle ⊢
    rw [abs_of_nonpos (by linarith)]
    ring

/-- A trade within the holding leaves its direction. -/
theorem add_mul_nonpos_of_abs_le
    {n q r : K} (h : n * r < 0) (hle : |q| ≤ |n|) :
    (n + q) * r ≤ 0 := by
  have hq := abs_le.mp hle
  rcases mul_neg_iff.mp h with ⟨hn, hr⟩ | ⟨hn, hr⟩
  · rw [abs_of_pos hn] at hq
    exact mul_nonpos_of_nonneg_of_nonpos (by linarith [hq.1]) hr.le
  · rw [abs_of_neg hn] at hq
    exact mul_nonpos_of_nonpos_of_nonneg (by linarith [hq.2]) hr.le

/-- A trade larger than the holding leaves its own direction. -/
theorem add_mul_pos_of_abs_lt
    {n q r : K} (h : 0 < q * r) (hlt : |n| < |q|) :
    0 < (n + q) * r := by
  have hn := abs_lt.mp hlt
  rcases pos_and_pos_or_neg_and_neg_of_mul_pos h with ⟨hq, hr⟩ | ⟨hq, hr⟩
  · rw [abs_of_pos hq] at hn
    exact mul_pos (by linarith [hn.1]) hr
  · rw [abs_of_neg hq] at hn
    exact mul_pos_of_neg_of_neg (by linarith [hn.2]) hr

/-- The average of two costs, weighted by parts of one direction, stands
between bounds of both. -/
theorem average_between
    {n q a p c lo hi : K} (h : 0 ≤ n * q) (hne : n + q ≠ 0)
    (hc : c * (n + q) = a * n + q * p)
    (ha : lo ≤ a ∧ a ≤ hi) (hp : lo ≤ p ∧ p ≤ hi) :
    lo ≤ c ∧ c ≤ hi := by
  obtain ⟨hla, hah⟩ := ha
  obtain ⟨hlp, hph⟩ := hp
  rcases mul_nonneg_iff.mp h with ⟨hn, hq⟩ | ⟨hn, hq⟩
  · have hpos : 0 < n + q := (add_nonneg hn hq).lt_of_ne' hne
    have hlow : lo * (n + q) ≤ c * (n + q) := by
      have := mul_le_mul_of_nonneg_right hla hn
      have := mul_le_mul_of_nonneg_right hlp hq
      linarith
    have hhigh : c * (n + q) ≤ hi * (n + q) := by
      have := mul_le_mul_of_nonneg_right hah hn
      have := mul_le_mul_of_nonneg_right hph hq
      linarith
    exact ⟨le_of_mul_le_mul_right hlow hpos,
      le_of_mul_le_mul_right hhigh hpos⟩
  · have hneg : n + q < 0 := (add_nonpos hn hq).lt_of_ne hne
    have hlow : c * (n + q) ≤ lo * (n + q) := by
      have := mul_le_mul_of_nonpos_right hla hn
      have := mul_le_mul_of_nonpos_right hlp hq
      linarith
    have hhigh : hi * (n + q) ≤ c * (n + q) := by
      have := mul_le_mul_of_nonpos_right hah hn
      have := mul_le_mul_of_nonpos_right hph hq
      linarith
    exact ⟨(mul_le_mul_right_of_neg hneg).mp hlow,
      (mul_le_mul_right_of_neg hneg).mp hhigh⟩

end Signed

section Book

variable {K : Type u} [Field K] [LinearOrder K]

/-- One holding: signed quantity, total cost, realized profit. -/
@[ext] structure Book (K : Type u) where
  net : K
  cost : K
  realized : K

namespace Book

/-- The cost left in the book after a trade. -/
def costAfter (b : Book K) (q p : K) : K :=
  if 0 ≤ b.net * q then b.cost + q * p
  else if |q| ≤ |b.net| then b.cost / b.net * (b.net + q)
  else (b.net + q) * p

/-- Book one trade of signed quantity `q` at price `p`. -/
def trade (b : Book K) (q p : K) : Book K where
  net := b.net + q
  cost := b.costAfter q p
  realized := b.realized + (b.costAfter q p - b.cost) - q * p

theorem costAfter_opening
    {b : Book K} {q p : K} (h : 0 ≤ b.net * q) :
    b.costAfter q p = b.cost + q * p := by
  rw [costAfter, if_pos h]

theorem costAfter_reducing
    {b : Book K} {q p : K}
    (h : b.net * q < 0) (hle : |q| ≤ |b.net|) :
    b.costAfter q p = b.cost / b.net * (b.net + q) := by
  rw [costAfter, if_neg (not_le.mpr h), if_pos hle]

theorem costAfter_flipping
    {b : Book K} {q p : K}
    (h : b.net * q < 0) (hlt : |b.net| < |q|) :
    b.costAfter q p = (b.net + q) * p := by
  rw [costAfter, if_neg (not_le.mpr h), if_neg (not_le.mpr hlt)]

/-- Every trade moves `realized - cost` by the cash it brings in. -/
theorem realized_sub_cost_trade (b : Book K) (q p : K) :
    (b.trade q p).realized - (b.trade q p).cost =
      b.realized - b.cost - q * p := by
  simp only [trade]
  ring

section Splitting

variable [IsStrictOrderedRing K]

/-- A trade in two parts, of which the first opens. -/
theorem costAfter_split_opening
    {b : Book K} {q r : K} (h : 0 < q * r) (hq : 0 ≤ b.net * q) (p : K) :
    (b.trade q p).costAfter r p = b.costAfter (q + r) p := by
  have hr := (mul_nonneg_iff_of_same_sign h b.net).mp hq
  have hsecond : 0 ≤ (b.trade q p).net * r := by
    rw [trade, add_mul]
    exact add_nonneg hr h.le
  have hwhole : 0 ≤ b.net * (q + r) := by
    rw [mul_add]
    exact add_nonneg hq hr
  rw [costAfter_opening hsecond, costAfter_opening hwhole, trade,
    costAfter_opening hq]
  ring

/-- The whole of a trade whose parts close closes. -/
theorem mul_add_neg_of_same_sign
    {n q r : K} (h : 0 < q * r) (hq : n * q < 0) :
    n * r < 0 ∧ n * (q + r) < 0 := by
  have hr : n * r < 0 := by
    rw [← not_le, ← mul_nonneg_iff_of_same_sign h n]
    exact hq.not_ge
  refine ⟨hr, ?_⟩
  rw [mul_add]
  exact add_neg hq hr

/-- A trade in two parts, of which the first reduces. -/
theorem costAfter_split_reducing
    {b : Book K} {q r : K} (h : 0 < q * r) (hq : b.net * q < 0)
    (hle : |q| ≤ |b.net|) (p : K) :
    (b.trade q p).costAfter r p = b.costAfter (q + r) p := by
  have habs : |q + r| = |q| + |r| := abs_add_of_mul_nonneg h.le
  have hr0 : 0 < |r| := abs_pos.mpr (right_ne_zero_of_mul h.ne')
  obtain ⟨hr, hwhole⟩ := mul_add_neg_of_same_sign h hq
  have hleft := abs_add_of_mul_neg hq hle
  by_cases hflat : b.net + q = 0
  · -- the first part ends exactly flat, the second opens
    have hsecond : 0 ≤ (b.trade q p).net * r := by
      rw [trade, hflat, zero_mul]
    have hlt : |b.net| < |q + r| := by
      rw [hflat, abs_zero] at hleft
      linarith
    rw [costAfter_opening hsecond, costAfter_flipping hwhole hlt,
      trade, costAfter_reducing hq hle, hflat]
    linear_combination -p * hflat
  · have hsecond : (b.trade q p).net * r < 0 := by
      refine lt_of_le_of_ne (add_mul_nonpos_of_abs_le hr hle) ?_
      exact mul_ne_zero hflat (abs_pos.mp hr0)
    by_cases hrest : |r| ≤ |b.net + q|
    · -- both parts reduce
      have hle' : |q + r| ≤ |b.net| := by linarith
      rw [costAfter_reducing hsecond hrest,
        costAfter_reducing hwhole hle', trade,
        costAfter_reducing hq hle, mul_div_assoc, div_self hflat]
      ring
    · -- the second part flips
      have hlt' : |b.net| < |q + r| := by linarith [not_le.mp hrest]
      rw [costAfter_flipping hsecond (not_le.mp hrest),
        costAfter_flipping hwhole hlt', trade]
      ring

/-- A trade in two parts, of which the first flips: the second opens. -/
theorem costAfter_split_flipping
    {b : Book K} {q r : K} (h : 0 < q * r) (hq : b.net * q < 0)
    (hlt : |b.net| < |q|) (p : K) :
    (b.trade q p).costAfter r p = b.costAfter (q + r) p := by
  have habs : |q + r| = |q| + |r| := abs_add_of_mul_nonneg h.le
  have hsecond : 0 ≤ (b.trade q p).net * r :=
    (add_mul_pos_of_abs_lt h hlt).le
  have hlt' : |b.net| < |q + r| := by
    rw [habs]
    exact hlt.trans_le (le_add_of_nonneg_right (abs_nonneg r))
  rw [costAfter_opening hsecond,
    costAfter_flipping (mul_add_neg_of_same_sign h hq).2 hlt', trade,
    costAfter_flipping hq hlt]
  ring

/-- A trade in two parts costs what it costs in one, wherever it is cut. -/
theorem costAfter_split
    (b : Book K) {q r : K} (h : 0 < q * r) (p : K) :
    (b.trade q p).costAfter r p = b.costAfter (q + r) p := by
  rcases le_or_gt 0 (b.net * q) with hq | hq
  · exact costAfter_split_opening h hq p
  · rcases le_or_gt |q| |b.net| with hle | hlt
    · exact costAfter_split_reducing h hq hle p
    · exact costAfter_split_flipping h hq hlt p

/-- **Trades in one direction at one price compose.** -/
theorem trade_trade
    (b : Book K) {q r : K} (h : 0 < q * r) (p : K) :
    (b.trade q p).trade r p = b.trade (q + r) p := by
  have hcost := costAfter_split b h p
  ext
  · simp only [trade]
    ring
  · exact hcost
  · have hrealized : ((b.trade q p).trade r p).realized =
        (b.trade q p).realized +
          ((b.trade q p).costAfter r p - (b.trade q p).cost) - r * p := rfl
    rw [hrealized, hcost]
    simp only [trade]
    ring

end Splitting

end Book

end Book

section Ledger

variable {S : Type v} [DecidableEq S]
variable {K : Type u} [CommRing K]

/-- A signed quantity of a symbol traded at a price. -/
structure Trade (S : Type v) (K : Type u) where
  symbol : S
  qty : K
  price : K

/-- Cash left after a sequence of trades. -/
def cashAfter (cash : K) (ts : List (Trade S K)) : K :=
  cash - (ts.map fun t => t.qty * t.price).sum

/-- Quantity of a symbol held after a sequence of trades. -/
def holding (s : S) (ts : List (Trade S K)) : K :=
  (ts.map fun t => if t.symbol = s then t.qty else 0).sum

omit [DecidableEq S] in
@[simp] theorem cashAfter_nil (cash : K) :
    cashAfter cash ([] : List (Trade S K)) = cash := by
  simp [cashAfter]

@[simp] theorem holding_nil (s : S) :
    holding s ([] : List (Trade S K)) = 0 := by
  simp [holding]

omit [DecidableEq S] in
theorem cashAfter_snoc
    (cash : K) (ts : List (Trade S K)) (t : Trade S K) :
    cashAfter cash (ts ++ [t]) =
      cashAfter cash ts - t.qty * t.price := by
  simp only [cashAfter, List.map_append, List.sum_append,
    List.map_cons, List.map_nil, List.sum_cons, List.sum_nil]
  ring

theorem holding_snoc
    (s : S) (ts : List (Trade S K)) (t : Trade S K) :
    holding s (ts ++ [t]) =
      holding s ts + if t.symbol = s then t.qty else 0 := by
  simp [holding]

end Ledger

end AverageCost
