import Mathlib.Algebra.Order.Ring.Int
import Mathlib.Tactic.Common
import Mathlib.Tactic.SplitIfs

/-!
# Integers of fixed width

Signed integers of 64 and of 32 bits as the integers that they stand for.
An operation on words is the operation on integers followed by the reduction
to the width, `wrapInt64` or `wrapInt32`; on values that fit, a reduction does
nothing (`wrapInt64_of_fits`).

A reduction keeps the pattern of bits and not the order.  What is left of the
order is `fitsInt64_of_wrap_nonpos`: within one turn below zero, the values
that fit are those that are not reduced to a positive one.
-/

namespace MachineInt

/-- The integer fits a signed word of 64 bits. -/
def FitsInt64 (n : Int) : Prop :=
  -2 ^ 63 ≤ n ∧ n < 2 ^ 63

instance (n : Int) : Decidable (FitsInt64 n) := by
  unfold FitsInt64
  infer_instance

/-- The signed word of 64 bits that has the last bits of the integer. -/
def wrapInt64 (n : Int) : Int :=
  n.bmod (2 ^ 64)

/-- The signed word of 32 bits that has the last bits of the integer. -/
def wrapInt32 (n : Int) : Int :=
  n.bmod (2 ^ 32)

/-- The value of 64 bits that is nearest to the integer. -/
def clampInt64 (n : Int) : Int :=
  max (-2 ^ 63) (min n (2 ^ 63 - 1))

theorem fitsInt64_wrap (n : Int) : FitsInt64 (wrapInt64 n) := by
  have hlo := Int.le_bmod (x := n) (m := 2 ^ 64) (by omega)
  have hhi := Int.bmod_lt (x := n) (m := 2 ^ 64) (by omega)
  unfold FitsInt64 wrapInt64
  omega

theorem wrapInt64_of_fits {n : Int} (h : FitsInt64 n) : wrapInt64 n = n := by
  obtain ⟨hlo, hhi⟩ := h
  unfold wrapInt64
  exact Int.bmod_eq_of_le (by omega) (by omega)

theorem wrapInt64_eq_self_iff (n : Int) : wrapInt64 n = n ↔ FitsInt64 n := by
  constructor
  · intro h
    rw [← h]
    exact fitsInt64_wrap n
  · exact wrapInt64_of_fits

theorem fitsInt64_of_wrap_nonpos
    {n : Int} (hlo : -2 ^ 64 < n) (hhi : n ≤ 0) (h : wrapInt64 n ≤ 0) :
    FitsInt64 n := by
  by_contra hno
  have hlt : n < -2 ^ 63 := by
    unfold FitsInt64 at hno
    omega
  have hturn : wrapInt64 n = n + 2 ^ 64 := by
    unfold wrapInt64
    rw [← Int.add_bmod_right]
    exact Int.bmod_eq_of_le (by omega) (by omega)
  omega

theorem wrapInt32_of_fits
    {n : Int} (hlo : -2 ^ 31 ≤ n) (hhi : n < 2 ^ 31) :
    wrapInt32 n = n := by
  unfold wrapInt32
  exact Int.bmod_eq_of_le (by omega) (by omega)

theorem clampInt64_of_fits {n : Int} (h : FitsInt64 n) :
    clampInt64 n = n := by
  unfold FitsInt64 at h
  unfold clampInt64
  omega

end MachineInt
