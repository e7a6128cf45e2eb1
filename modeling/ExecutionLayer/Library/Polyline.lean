import Mathlib.Algebra.Order.Field.Basic
import Mathlib.Algebra.Order.Group.MinMax
import Mathlib.Data.List.Basic
import Mathlib.Data.List.Chain
import Mathlib.Tactic.Common
import Mathlib.Tactic.FieldSimp
import Mathlib.Tactic.Linarith
import Mathlib.Tactic.Ring

/-!
# Polygonal lines and their sign

A list of points with increasing abscissas is the graph of a function that is
linear between two neighbours (`interp`).  To draw the parts of the graph
above and below zero as two lines, put a point where the graph crosses zero
(`cross`), and keep the points that are not below, and those that are not
above.

Without a crossing between two neighbours, the points that are kept draw the
positive part of the function (`interp_upper`), and they reach as far as it is
not negative (`spans_upper`).  The points below zero are those of the mirror
image.  As the crossings lie on the graph (`interp_cross`), the same holds of
the two parts of any line (`interp_upper_cross`, `interp_lower_cross`).
-/

namespace Polyline

universe u

variable {K : Type u}

@[ext]
structure Point (K : Type u) where
  x : K
  y : K
deriving DecidableEq, Repr

section Order

variable [LinearOrder K] {p q : Point K} {ps : List (Point K)} {x : K}

/-- From left to right. -/
def Increasing (ps : List (Point K)) : Prop :=
  ps.Pairwise fun p q => p.x < q.x

/-- Between the first and the last point. -/
def Spans (ps : List (Point K)) (x : K) : Prop :=
  (∃ p ∈ ps, p.x ≤ x) ∧ ∃ p ∈ ps, x ≤ p.x

theorem Spans.mono {qs : List (Point K)} (h : Spans ps x) (hsub : ps ⊆ qs) :
    Spans qs x := by
  obtain ⟨⟨p, hp, hpx⟩, q, hq, hxq⟩ := h
  exact ⟨⟨p, hsub hp, hpx⟩, q, hsub hq, hxq⟩

/-- What a line spans is not to the left of its first point. -/
theorem Spans.le (h : Spans (p :: ps) x) (hinc : Increasing (p :: ps)) :
    p.x ≤ x := by
  obtain ⟨⟨r, hr, hrx⟩, -⟩ := h
  rcases List.mem_cons.mp hr with rfl | hr
  · exact hrx
  · exact (List.rel_of_pairwise_cons hinc hr).le.trans hrx

/-- To the right of its second point a line spans what the rest spans. -/
theorem Spans.behind (h : Spans (p :: q :: ps) x)
    (hinc : Increasing (p :: q :: ps)) (hx : q.x ≤ x) :
    Spans (q :: ps) x := by
  obtain ⟨-, r, hr, hxr⟩ := h
  refine ⟨⟨q, List.mem_cons_self, hx⟩, ?_⟩
  rcases List.mem_cons.mp hr with rfl | hr
  · have hpq := List.rel_of_pairwise_cons hinc List.mem_cons_self
    exact absurd (hxr.trans_lt hpq) hx.not_gt
  · exact ⟨r, hr, hxr⟩

end Order

variable [Field K]

/-- The line through two points. -/
def line (p q : Point K) (x : K) : K :=
  p.y + (x - p.x) * ((q.y - p.y) / (q.x - p.x))

theorem line_left (p q : Point K) : line p q p.x = p.y := by
  rw [line, sub_self, zero_mul, add_zero]

/-- Upside down. -/
def mirror (p : Point K) : Point K where
  x := p.x
  y := -p.y

theorem line_mirror (p q : Point K) (x : K) :
    line (mirror p) (mirror q) x = -line p q x := by
  change -p.y + (x - p.x) * ((-q.y - -p.y) / (q.x - p.x)) =
    -(p.y + (x - p.x) * ((q.y - p.y) / (q.x - p.x)))
  ring

variable [LinearOrder K]

/-- The function that a polygonal line draws. -/
def interp : List (Point K) → K → K
  | [], _ => 0
  | [p], _ => p.y
  | p :: q :: ps, x => if x ≤ q.x then line p q x else interp (q :: ps) x

/-- No two neighbours stand on different sides of zero. -/
def SameSign (ps : List (Point K)) : Prop :=
  ps.IsChain fun p q => 0 ≤ p.y * q.y

/-- The points that are not below zero. -/
def upper (ps : List (Point K)) : List (Point K) :=
  ps.filter fun p => 0 ≤ p.y

/-- The points that are not above zero. -/
def lower (ps : List (Point K)) : List (Point K) :=
  ps.filter fun p => p.y ≤ 0

/-- The value changes its sign between two points. -/
def Crosses (p q : Point K) : Prop :=
  (0 < p.y ∧ q.y < 0) ∨ (p.y < 0 ∧ 0 < q.y)

instance (p q : Point K) : Decidable (Crosses p q) :=
  inferInstanceAs (Decidable (_ ∨ _))

/-- Where the line through two points is zero. -/
def crossing (p q : Point K) : Point K where
  x := p.x + (q.x - p.x) * (p.y / (p.y - q.y))
  y := 0

/-- Put a point at every crossing. -/
def cross : List (Point K) → List (Point K)
  | [] => []
  | [p] => [p]
  | p :: q :: ps =>
      if Crosses p q then p :: crossing p q :: cross (q :: ps)
      else p :: cross (q :: ps)

/-- What stands between a point and the next one. -/
def between (p : Point K) : Option (Point K) → List (Point K)
  | none => []
  | some q => if Crosses p q then [crossing p q] else []

/-! ### Lines -/

section Line

variable [IsStrictOrderedRing K]
variable {p q r : Point K} {x : K}

theorem line_eq (h : p.x < q.x) (x : K) :
    line p q x * (q.x - p.x) =
      p.y * (q.x - x) + q.y * (x - p.x) := by
  have hne : q.x - p.x ≠ 0 := (sub_pos.mpr h).ne'
  unfold line
  field_simp
  ring

theorem line_right (h : p.x < q.x) : line p q q.x = q.y := by
  have hne : q.x - p.x ≠ 0 := (sub_pos.mpr h).ne'
  rw [line, mul_div_cancel₀ _ hne]
  ring

/-- Between two points that are not below zero the line is not. -/
theorem line_nonneg
    (h : p.x < q.x) (hp : 0 ≤ p.y) (hq : 0 ≤ q.y) (hpx : p.x ≤ x)
    (hxq : x ≤ q.x) :
    0 ≤ line p q x := by
  have hpos := sub_pos.mpr h
  have heq := line_eq h x
  have hsum : 0 ≤ p.y * (q.x - x) + q.y * (x - p.x) :=
    add_nonneg (mul_nonneg hp (sub_nonneg.mpr hxq))
      (mul_nonneg hq (sub_nonneg.mpr hpx))
  rw [← heq] at hsum
  exact nonneg_of_mul_nonneg_left hsum hpos

theorem line_nonpos
    (h : p.x < q.x) (hp : p.y ≤ 0) (hq : q.y ≤ 0) (hpx : p.x ≤ x)
    (hxq : x ≤ q.x) :
    line p q x ≤ 0 := by
  have hpos := sub_pos.mpr h
  have heq := line_eq h x
  have hsum : p.y * (q.x - x) + q.y * (x - p.x) ≤ 0 :=
    add_nonpos (mul_nonpos_of_nonpos_of_nonneg hp (sub_nonneg.mpr hxq))
      (mul_nonpos_of_nonpos_of_nonneg hq (sub_nonneg.mpr hpx))
  rw [← heq] at hsum
  exact nonpos_of_mul_nonpos_left hsum hpos

/-- A point of the line leaves it as it is to the left, -/
theorem line_before
    (hpr : p.x < r.x) (hpq : p.x < q.x) (hr : line p q r.x = r.y) (x : K) :
    line p r x = line p q x := by
  have hpos : q.x - p.x ≠ 0 := (sub_pos.mpr hpq).ne'
  have hpos' : r.x - p.x ≠ 0 := (sub_pos.mpr hpr).ne'
  unfold line at hr ⊢
  rw [← hr]
  field_simp
  ring

/-- and to the right. -/
theorem line_behind
    (hrq : r.x < q.x) (hpq : p.x < q.x) (hr : line p q r.x = r.y) (x : K) :
    line r q x = line p q x := by
  have hpos : q.x - p.x ≠ 0 := (sub_pos.mpr hpq).ne'
  have hpos' : q.x - r.x ≠ 0 := (sub_pos.mpr hrq).ne'
  unfold line at hr ⊢
  rw [← hr]
  field_simp
  ring

end Line

section Interp

variable {p q : Point K} {ps : List (Point K)} {x : K}

theorem interp_left (h : Increasing (p :: ps)) :
    interp (p :: ps) p.x = p.y := by
  cases ps with
  | nil =>
      rfl
  | cons q ps =>
      have hpq := List.rel_of_pairwise_cons h List.mem_cons_self
      rw [interp, if_pos hpq.le, line_left]

theorem interp_segment_left (h : x ≤ q.x) :
    interp (p :: q :: ps) x = line p q x := by
  rw [interp, if_pos h]

variable [IsStrictOrderedRing K]

/-- To the right of its second point a line does not see the first. -/
theorem interp_behind
    (h : Increasing (p :: q :: ps)) (hx : q.x ≤ x) :
    interp (p :: q :: ps) x = interp (q :: ps) x := by
  have hpq := List.rel_of_pairwise_cons h List.mem_cons_self
  rcases hx.eq_or_lt with rfl | hlt
  · rw [interp_segment_left le_rfl, line_right hpq,
      interp_left (List.Pairwise.of_cons h)]
  · rw [interp, if_neg hlt.not_ge]

/-- Between two neighbours the function is the line through them. -/
theorem interp_segment
    (before : List (Point K)) (h : Increasing (before ++ p :: q :: ps))
    (hpx : p.x ≤ x) (hxq : x ≤ q.x) :
    interp (before ++ p :: q :: ps) x = line p q x := by
  induction before with
  | nil =>
      exact interp_segment_left hxq
  | cons b before ih =>
      have htail := List.Pairwise.of_cons h
      rw [← ih htail]
      cases before with
      | nil =>
          exact interp_behind h hpx
      | cons c before =>
          refine interp_behind h (le_trans ?_ hpx)
          exact (List.rel_of_pairwise_cons htail
            (List.mem_append_right _ List.mem_cons_self)).le

end Interp

/-! ### Crossings -/

section Cross

variable {p q r : Point K} {ps : List (Point K)} {x : K}

theorem cross_eq_append (p : Point K) (ps : List (Point K)) :
    cross (p :: ps) = p :: between p ps.head? ++ cross ps := by
  cases ps with
  | nil =>
      rfl
  | cons q ps =>
      rw [cross, List.head?_cons, between]
      split
      · rfl
      · rfl

theorem between_y (p : Point K) (next : Option (Point K)) :
    ∀ r ∈ between p next, r.y = 0 := by
  intro r hr
  cases next with
  | none =>
      exact absurd hr List.not_mem_nil
  | some q =>
      rw [between] at hr
      split at hr
      · rw [List.mem_singleton.mp hr]
        rfl
      · exact absurd hr List.not_mem_nil

theorem cross_cons (p : Point K) (ps : List (Point K)) :
    ∃ t, cross (p :: ps) = p :: t := by
  cases ps with
  | nil =>
      exact ⟨[], rfl⟩
  | cons q ps =>
      rw [cross]
      split
      · exact ⟨_, rfl⟩
      · exact ⟨_, rfl⟩

/-- Every point stays. -/
theorem subset_cross (ps : List (Point K)) : ps ⊆ cross ps := by
  induction ps with
  | nil =>
      exact List.Subset.refl _
  | cons p ps ih =>
      rw [cross_eq_append, List.cons_append]
      exact List.cons_subset_cons p
        (List.subset_append_of_subset_right _ ih)

theorem crossing_mem_cross
    (before : List (Point K)) (hc : Crosses p q) :
    crossing p q ∈ cross (before ++ p :: q :: ps) := by
  induction before with
  | nil =>
      rw [List.nil_append, cross, if_pos hc]
      exact List.mem_cons_of_mem _ List.mem_cons_self
  | cons b before ih =>
      rw [List.cons_append, cross_eq_append]
      exact List.mem_append_right _ ih

variable [IsStrictOrderedRing K]

theorem crossing_between (h : p.x < q.x) (hc : Crosses p q) :
    p.x < (crossing p q).x ∧ (crossing p q).x < q.x := by
  have hpos := sub_pos.mpr h
  have hfrac : 0 < p.y / (p.y - q.y) ∧ p.y / (p.y - q.y) < 1 := by
    rcases hc with ⟨hp, hq⟩ | ⟨hp, hq⟩
    · have hd : 0 < p.y - q.y := by linarith
      exact ⟨div_pos hp hd, (div_lt_one hd).mpr (by linarith)⟩
    · have hd : p.y - q.y < 0 := by linarith
      exact ⟨div_pos_of_neg_of_neg hp hd,
        (div_lt_one_of_neg hd).mpr (by linarith)⟩
  have hlow := mul_pos hpos hfrac.1
  have hhigh := mul_lt_of_lt_one_right hpos hfrac.2
  constructor
  · change p.x < p.x + _
    linarith
  · change p.x + _ < q.x
    linarith

theorem line_crossing (h : p.x < q.x) (hc : Crosses p q) :
    line p q (crossing p q).x = (crossing p q).y := by
  have hne : q.x - p.x ≠ 0 := (sub_pos.mpr h).ne'
  have hd : p.y - q.y ≠ 0 := by
    rcases hc with ⟨hp, hq⟩ | ⟨hp, hq⟩
    · exact (by linarith : 0 < p.y - q.y).ne'
    · exact (by linarith : p.y - q.y < 0).ne
  change p.y + (p.x + (q.x - p.x) * (p.y / (p.y - q.y)) - p.x) *
    ((q.y - p.y) / (q.x - p.x)) = 0
  field_simp
  ring

/-- No point stands before the first. -/
theorem le_of_mem_cross
    (h : Increasing (p :: ps)) (hr : r ∈ cross (p :: ps)) :
    p.x ≤ r.x := by
  induction ps generalizing p with
  | nil =>
      rw [List.mem_singleton.mp hr]
  | cons q ps ih =>
      have hpq := List.rel_of_pairwise_cons h List.mem_cons_self
      have hqr := fun hr => hpq.le.trans (ih (List.Pairwise.of_cons h) hr)
      rw [cross] at hr
      split at hr
      next hc =>
        rcases List.mem_cons.mp hr with rfl | hr
        · exact le_rfl
        · rcases List.mem_cons.mp hr with rfl | hr
          · exact (crossing_between hpq hc).1.le
          · exact hqr hr
      next =>
        rcases List.mem_cons.mp hr with rfl | hr
        · exact le_rfl
        · exact hqr hr

theorem increasing_cross (h : Increasing ps) : Increasing (cross ps) := by
  induction ps with
  | nil =>
      exact h
  | cons p ps ih =>
      cases ps with
      | nil =>
          exact h
      | cons q ps =>
          have hpq := List.rel_of_pairwise_cons h List.mem_cons_self
          have htail := List.Pairwise.of_cons h
          rw [cross]
          split
          next hc =>
            obtain ⟨hlow, hhigh⟩ := crossing_between hpq hc
            refine List.pairwise_cons.mpr
              ⟨?_, List.pairwise_cons.mpr ⟨?_, ih htail⟩⟩
            · intro r hr
              rcases List.mem_cons.mp hr with rfl | hr
              · exact hlow
              · exact hpq.trans_le (le_of_mem_cross htail hr)
            · intro r hr
              exact hhigh.trans_le (le_of_mem_cross htail hr)
          next =>
            refine List.pairwise_cons.mpr ⟨?_, ih htail⟩
            intro r hr
            exact hpq.trans_le (le_of_mem_cross htail hr)

/-- Neighbours that do not cross stand on the same side. -/
theorem mul_nonneg_of_not_crosses (h : ¬ Crosses p q) :
    0 ≤ p.y * q.y := by
  by_contra hneg
  rcases mul_neg_iff.mp (not_le.mp hneg) with hside | hside
  · exact h (Or.inl hside)
  · exact h (Or.inr hside)

theorem sameSign_cross (ps : List (Point K)) : SameSign (cross ps) := by
  induction ps with
  | nil =>
      exact List.IsChain.nil
  | cons p ps ih =>
      cases ps with
      | nil =>
          exact List.IsChain.singleton p
      | cons q ps =>
          obtain ⟨t, ht⟩ := cross_cons q ps
          rw [cross, ht]
          rw [ht] at ih
          split
          next =>
            refine List.isChain_cons_cons.mpr ⟨?_,
              List.isChain_cons_cons.mpr ⟨?_, ih⟩⟩
            · exact (mul_zero p.y).ge
            · exact (zero_mul q.y).ge
          next hc =>
            exact List.isChain_cons_cons.mpr
              ⟨mul_nonneg_of_not_crosses hc, ih⟩

/-- The points that are put in lie on the graph. -/
theorem interp_cross (h : Increasing ps) (x : K) :
    interp (cross ps) x = interp ps x := by
  induction ps with
  | nil =>
      rfl
  | cons p ps ih =>
      cases ps with
      | nil =>
          rfl
      | cons q ps =>
          have hpq := List.rel_of_pairwise_cons h List.mem_cons_self
          obtain ⟨t, ht⟩ := cross_cons q ps
          have hrest := ih (List.Pairwise.of_cons h)
          rw [ht] at hrest
          rw [cross, ht]
          split
          next hc =>
            obtain ⟨hlow, hhigh⟩ := crossing_between hpq hc
            have hzero := line_crossing hpq hc
            rw [interp, interp, interp, hrest,
              line_before hlow hpq hzero, line_behind hhigh hpq hzero]
            split
            next hx =>
              rw [if_pos (hx.trans hhigh.le)]
            next =>
              rfl
          next =>
            rw [interp, interp, hrest]

/-- Where the function is zero inside a segment that is not at zero, there is
a point. -/
theorem zero_mem_cross
    (before : List (Point K)) (h : Increasing (before ++ p :: q :: ps))
    (hpx : p.x < x) (hxq : x < q.x)
    (hzero : interp (before ++ p :: q :: ps) x = 0)
    (hflat : ¬ (p.y = 0 ∧ q.y = 0)) :
    ⟨x, 0⟩ ∈ cross (before ++ p :: q :: ps) := by
  have hpq := hpx.trans hxq
  rw [interp_segment before h hpx.le hxq.le] at hzero
  have heq := line_eq hpq x
  rw [hzero, zero_mul] at heq
  have hleft := sub_pos.mpr hpx
  have hright := sub_pos.mpr hxq
  have hc : Crosses p q := by
    rcases lt_trichotomy p.y 0 with hp | hp | hp
    · refine Or.inr ⟨hp, pos_of_mul_pos_left ?_ hleft.le⟩
      linarith [mul_neg_of_neg_of_pos hp hright]
    · refine absurd ⟨hp, ?_⟩ hflat
      rw [hp, zero_mul, zero_add] at heq
      exact (mul_eq_zero.mp heq.symm).resolve_right hleft.ne'
    · refine Or.inl ⟨hp, neg_of_mul_neg_left ?_ hleft.le⟩
      linarith [mul_pos hp hright]
  have hd : p.y - q.y ≠ 0 := by
    rcases hc with ⟨hp, hq⟩ | ⟨hp, hq⟩
    · exact (by linarith : 0 < p.y - q.y).ne'
    · exact (by linarith : p.y - q.y < 0).ne
  have hx : crossing p q = ⟨x, 0⟩ := by
    refine Point.ext ?_ rfl
    change p.x + (q.x - p.x) * (p.y / (p.y - q.y)) = x
    field_simp
    linarith
  rw [← hx]
  exact crossing_mem_cross before hc

end Cross

/-! ### The part above zero -/

section Upper

variable {p q r : Point K} {ps us : List (Point K)} {x : K}

theorem upper_cons_of_nonneg (hp : 0 ≤ p.y) (ps : List (Point K)) :
    upper (p :: ps) = p :: upper ps :=
  List.filter_cons_of_pos (decide_eq_true hp)

theorem upper_cons_of_neg (hp : p.y < 0) (ps : List (Point K)) :
    upper (p :: ps) = upper ps :=
  List.filter_cons_of_neg (by simpa using hp)

theorem upper_append (ps qs : List (Point K)) :
    upper (ps ++ qs) = upper ps ++ upper qs :=
  List.filter_append _ _

theorem upper_between (p : Point K) (next : Option (Point K)) :
    upper (between p next) = between p next := by
  refine List.filter_eq_self.mpr fun r hr => decide_eq_true ?_
  exact (between_y p next r hr).ge

theorem mem_upper : p ∈ upper ps ↔ p ∈ ps ∧ 0 ≤ p.y := by
  rw [upper, List.mem_filter, decide_eq_true_iff]

theorem Increasing.upper (h : Increasing ps) : Increasing (upper ps) :=
  List.Pairwise.filter _ h

/-- What the kept points span is not to the left of the first point. -/
theorem Spans.upper_le
    (hx : Spans (upper (q :: ps)) x) (hinc : Increasing (q :: ps)) :
    q.x ≤ x := by
  obtain ⟨r, hr, hrx⟩ := hx.1
  rcases List.mem_cons.mp (mem_upper.mp hr).1 with rfl | hr
  · exact hrx
  · exact (List.rel_of_pairwise_cons hinc hr).le.trans hrx

variable [IsStrictOrderedRing K]

/-- A line that leaves zero downwards is not above zero until the first point
that is not below, and that one is at zero. -/
theorem upper_gap
    (hq : q.y < 0) (hinc : Increasing (q :: ps))
    (hsign : SameSign (q :: ps)) (hup : upper (q :: ps) = r :: us) :
    r.y = 0 ∧ q.x ≤ r.x ∧
      ∀ x, q.x ≤ x → x ≤ r.x → interp (q :: ps) x ≤ 0 := by
  induction ps generalizing q with
  | nil =>
      rw [upper_cons_of_neg hq] at hup
      exact absurd hup.symm (List.cons_ne_nil r us)
  | cons s ps ih =>
      have hqs := List.rel_of_pairwise_cons hinc List.mem_cons_self
      obtain ⟨hmul, hsign⟩ := List.isChain_cons_cons.mp hsign
      rw [upper_cons_of_neg hq] at hup
      have hs : s.y ≤ 0 := nonpos_of_mul_nonneg_right hmul hq
      rcases hs.lt_or_eq with hs' | hs'
      · obtain ⟨hr, hsr, hrest⟩ :=
          ih hs' (List.Pairwise.of_cons hinc) hsign hup
        refine ⟨hr, hqs.le.trans hsr, fun x hqx hxr => ?_⟩
        rcases le_total x s.x with hxs | hsx
        · rw [interp_segment_left hxs]
          exact line_nonpos hqs hq.le hs hqx hxs
        · rw [interp_behind hinc hsx]
          exact hrest x hsx hxr
      · rw [upper_cons_of_nonneg hs'.ge] at hup
        obtain ⟨rfl, -⟩ := List.cons.inj hup
        refine ⟨hs', hqs.le, fun x hqx hxr => ?_⟩
        rw [interp_segment_left hxr]
        exact line_nonpos hqs hq.le hs hqx hxr

/-- The kept points draw zero from one side of such a gap to the other. -/
theorem interp_gap
    (hinc : Increasing (p :: q :: ps)) (hsign : SameSign (p :: q :: ps))
    (hp : p.y = 0) (hq : q.y < 0) (hrest : upper (q :: ps) = r :: us)
    (hpx : p.x ≤ x) (hxr : x ≤ r.x) :
    interp (p :: r :: us) x = max (interp (p :: q :: ps) x) 0 := by
  obtain ⟨hr, -, hbelow⟩ :=
    upper_gap hq (List.Pairwise.of_cons hinc)
      (List.isChain_cons_cons.mp hsign).2 hrest
  have hline : line p r x = 0 := by
    rw [line, hr, hp, sub_zero, zero_div, mul_zero, add_zero]
  rw [interp_segment_left hxr, hline]
  refine (max_eq_right ?_).symm
  rcases le_total x q.x with hxq | hqx
  · have hpq := List.rel_of_pairwise_cons hinc List.mem_cons_self
    rw [interp_segment_left hxq]
    exact line_nonpos hpq hp.le hq.le hpx hxq
  · rw [interp_behind hinc hqx]
    exact hbelow x hqx hxr

/-- The step at a point at or above zero, with the next one below. -/
theorem interp_upper_downwards
    (hinc : Increasing (p :: q :: ps)) (hsign : SameSign (p :: q :: ps))
    (hp : 0 ≤ p.y) (hq : q.y < 0)
    (hx : Spans (p :: upper (q :: ps)) x)
    (hrest : Spans (upper (q :: ps)) x →
      interp (upper (q :: ps)) x = max (interp (q :: ps) x) 0) :
    interp (p :: upper (q :: ps)) x =
      max (interp (p :: q :: ps) x) 0 := by
  have htail := List.Pairwise.of_cons hinc
  obtain ⟨hmul, hsign'⟩ := List.isChain_cons_cons.mp hsign
  have hp0 : p.y = 0 :=
    le_antisymm (nonpos_of_mul_nonneg_left hmul hq) hp
  have hup := Increasing.upper hinc
  rw [upper_cons_of_nonneg hp] at hup
  have hpx := hx.le hup
  cases hkept : upper (q :: ps) with
  | nil =>
      rw [hkept] at hx
      obtain ⟨-, r, hr, hxr⟩ := hx
      rw [List.mem_singleton.mp hr] at hxr
      rw [le_antisymm hxr hpx, interp_left hinc,
        interp_left (List.pairwise_singleton _ p)]
      exact (max_eq_left hp).symm
  | cons r us =>
      rw [hkept] at hx hup hrest
      obtain ⟨-, hqr, -⟩ := upper_gap hq htail hsign' hkept
      rcases le_total x r.x with hxr | hrx
      · exact interp_gap hinc hsign hp0 hq hkept hpx hxr
      · rw [interp_behind hup hrx, hrest (hx.behind hup hrx),
          interp_behind hinc (hqr.trans hrx)]

/-- The points that are not below zero draw the positive part. -/
theorem interp_upper
    (hinc : Increasing ps) (hsign : SameSign ps)
    (hx : Spans (upper ps) x) :
    interp (upper ps) x = max (interp ps x) 0 := by
  induction ps with
  | nil =>
      obtain ⟨⟨p, hp, -⟩, -⟩ := hx
      exact absurd hp List.not_mem_nil
  | cons p ps ih =>
      have htail := List.Pairwise.of_cons hinc
      rcases lt_or_ge p.y 0 with hp | hp
      · rw [upper_cons_of_neg hp] at hx ⊢
        cases ps with
        | nil =>
            obtain ⟨⟨r, hr, -⟩, -⟩ := hx
            exact absurd hr List.not_mem_nil
        | cons q ps =>
            have hsign' := (List.isChain_cons_cons.mp hsign).2
            rw [ih htail hsign' hx, interp_behind hinc (hx.upper_le htail)]
      · have hup := Increasing.upper hinc
        rw [upper_cons_of_nonneg hp] at hx hup ⊢
        have hpx := hx.le hup
        cases ps with
        | nil =>
            exact (max_eq_left hp).symm
        | cons q ps =>
            have hpq := List.rel_of_pairwise_cons hinc List.mem_cons_self
            have hsign' := (List.isChain_cons_cons.mp hsign).2
            rcases lt_or_ge q.y 0 with hq | hq
            · exact interp_upper_downwards hinc hsign hp hq hx
                (ih htail hsign')
            · rw [upper_cons_of_nonneg hq] at hx hup ih ⊢
              rcases le_total x q.x with hxq | hqx
              · rw [interp_segment_left hxq, interp_segment_left hxq]
                exact (max_eq_left (line_nonneg hpq hp hq hpx hxq)).symm
              · rw [interp_behind hup hqx,
                  ih htail hsign' (hx.behind hup hqx),
                  interp_behind hinc hqx]

/-- Where a line without a crossing is not below zero, one of its ends to
either side is not. -/
theorem spans_segment
    (h : p.x < q.x) (hmul : 0 ≤ p.y * q.y) (hpx : p.x ≤ x) (hxq : x ≤ q.x)
    (hx : 0 ≤ line p q x) :
    Spans (upper [p, q]) x := by
  have hp : p ∈ [p, q] := List.mem_cons_self
  have hq : q ∈ [p, q] := List.mem_cons_of_mem _ List.mem_cons_self
  have hpos := sub_pos.mpr h
  have hsum : 0 ≤ p.y * (q.x - x) + q.y * (x - p.x) := by
    rw [← line_eq h x]
    exact mul_nonneg hx hpos.le
  rcases lt_or_ge p.y 0 with hpy | hpy
  · have hqy : q.y ≤ 0 := nonpos_of_mul_nonneg_right hmul hpy
    have hleft : q.y * (x - p.x) ≤ 0 :=
      mul_nonpos_of_nonpos_of_nonneg hqy (sub_nonneg.mpr hpx)
    have hxeq : x = q.x := by
      refine le_antisymm hxq (le_of_not_gt fun hlt => ?_)
      linarith [mul_neg_of_neg_of_pos hpy (sub_pos.mpr hlt)]
    rw [hxeq, line_right h] at hx
    have hmem := mem_upper.mpr ⟨hq, hx⟩
    exact ⟨⟨q, hmem, hxeq.ge⟩, q, hmem, hxeq.le⟩
  · have hpmem := mem_upper.mpr ⟨hp, hpy⟩
    rcases lt_or_ge q.y 0 with hqy | hqy
    · have hpy0 : p.y ≤ 0 := nonpos_of_mul_nonneg_left hmul hqy
      have hright : p.y * (q.x - x) ≤ 0 :=
        mul_nonpos_of_nonpos_of_nonneg hpy0 (sub_nonneg.mpr hxq)
      have hxp : x ≤ p.x := by
        refine le_of_not_gt fun hlt => ?_
        linarith [mul_neg_of_neg_of_pos hqy (sub_pos.mpr hlt)]
      exact ⟨⟨p, hpmem, hpx⟩, p, hpmem, hxp⟩
    · exact ⟨⟨p, hpmem, hpx⟩, q, mem_upper.mpr ⟨hq, hqy⟩, hxq⟩

/-- The kept points reach as far as the function is not below zero. -/
theorem spans_upper
    (hinc : Increasing ps) (hsign : SameSign ps) (hx : Spans ps x)
    (hpos : 0 ≤ interp ps x) :
    Spans (upper ps) x := by
  induction ps with
  | nil =>
      exact hx
  | cons p ps ih =>
      cases ps with
      | nil =>
          rw [upper_cons_of_nonneg hpos]
          exact hx
      | cons q ps =>
          have hpq := List.rel_of_pairwise_cons hinc List.mem_cons_self
          obtain ⟨hmul, hsign'⟩ := List.isChain_cons_cons.mp hsign
          rcases le_total x q.x with hxq | hqx
          · rw [interp_segment_left hxq] at hpos
            refine (spans_segment hpq hmul (hx.le hinc) hxq hpos).mono ?_
            have hsub : List.Sublist [p, q] (p :: q :: ps) :=
              ((List.nil_sublist ps).cons_cons q).cons_cons p
            exact (hsub.filter _).subset
          · rw [interp_behind hinc hqx] at hpos
            have hrest := ih (List.Pairwise.of_cons hinc) hsign'
              (hx.behind hinc hqx) hpos
            have hsub := List.sublist_cons_self p (q :: ps)
            exact hrest.mono (hsub.filter _).subset

end Upper

/-! ### The part below zero -/

section Lower

variable {p q : Point K} {ps : List (Point K)} {x : K}

theorem lower_append (ps qs : List (Point K)) :
    lower (ps ++ qs) = lower ps ++ lower qs :=
  List.filter_append _ _

theorem lower_between (p : Point K) (next : Option (Point K)) :
    lower (between p next) = between p next := by
  refine List.filter_eq_self.mpr fun r hr => decide_eq_true ?_
  exact (between_y p next r hr).le

theorem mem_lower : p ∈ lower ps ↔ p ∈ ps ∧ p.y ≤ 0 := by
  rw [lower, List.mem_filter, decide_eq_true_iff]

theorem Increasing.lower (h : Increasing ps) : Increasing (lower ps) :=
  List.Pairwise.filter _ h

theorem Increasing.mirror (h : Increasing ps) :
    Increasing (ps.map mirror) :=
  List.Pairwise.map _ (fun _ _ hpq => hpq) h

theorem SameSign.mirror (h : SameSign ps) : SameSign (ps.map mirror) := by
  refine List.isChain_map_of_isChain _ (fun p q hpq => ?_) h
  change 0 ≤ -p.y * -q.y
  rw [neg_mul_neg]
  exact hpq

theorem spans_mirror : Spans (ps.map mirror) x ↔ Spans ps x := by
  simp [Spans, mirror]

theorem interp_mirror (ps : List (Point K)) (x : K) :
    interp (ps.map mirror) x = -interp ps x := by
  induction ps with
  | nil =>
      exact neg_zero.symm
  | cons p ps ih =>
      cases ps with
      | nil =>
          rfl
      | cons q ps =>
          rw [List.map_cons] at ih
          rw [List.map_cons, List.map_cons, interp, interp, line_mirror, ih]
          exact (apply_ite Neg.neg _ _ _).symm

variable [IsStrictOrderedRing K]

theorem upper_mirror (ps : List (Point K)) :
    upper (ps.map mirror) = (lower ps).map mirror := by
  rw [upper, lower, List.filter_map]
  refine congrArg (List.map mirror) (List.filter_congr fun p _ => ?_)
  exact decide_eq_decide.mpr neg_nonneg

/-- The points that are not above zero draw the negative part. -/
theorem interp_lower
    (hinc : Increasing ps) (hsign : SameSign ps)
    (hx : Spans (lower ps) x) :
    interp (lower ps) x = min (interp ps x) 0 := by
  have hspans : Spans (upper (ps.map mirror)) x := by
    rw [upper_mirror]
    exact spans_mirror.mpr hx
  have h := interp_upper hinc.mirror hsign.mirror hspans
  rw [upper_mirror, interp_mirror, interp_mirror] at h
  rw [← neg_inj, h, ← max_neg_neg, neg_zero]

theorem spans_lower
    (hinc : Increasing ps) (hsign : SameSign ps) (hx : Spans ps x)
    (hneg : interp ps x ≤ 0) :
    Spans (lower ps) x := by
  have hpos : 0 ≤ interp (ps.map mirror) x := by
    rw [interp_mirror]
    exact neg_nonneg.mpr hneg
  have h := spans_upper hinc.mirror hsign.mirror
    (spans_mirror.mpr hx) hpos
  rw [upper_mirror] at h
  exact spans_mirror.mp h

end Lower

/-! ### The two parts of any line -/

section Parts

variable [IsStrictOrderedRing K]
variable {ps : List (Point K)} {x : K}

theorem interp_upper_cross
    (h : Increasing ps) (hx : Spans (upper (cross ps)) x) :
    interp (upper (cross ps)) x = max (interp ps x) 0 := by
  rw [interp_upper (increasing_cross h) (sameSign_cross ps) hx,
    interp_cross h]

theorem interp_lower_cross
    (h : Increasing ps) (hx : Spans (lower (cross ps)) x) :
    interp (lower (cross ps)) x = min (interp ps x) 0 := by
  rw [interp_lower (increasing_cross h) (sameSign_cross ps) hx,
    interp_cross h]

theorem spans_upper_cross
    (h : Increasing ps) (hx : Spans ps x) (hpos : 0 ≤ interp ps x) :
    Spans (upper (cross ps)) x := by
  rw [← interp_cross h] at hpos
  exact spans_upper (increasing_cross h) (sameSign_cross ps)
    (hx.mono (subset_cross ps)) hpos

theorem spans_lower_cross
    (h : Increasing ps) (hx : Spans ps x) (hneg : interp ps x ≤ 0) :
    Spans (lower (cross ps)) x := by
  rw [← interp_cross h] at hneg
  exact spans_lower (increasing_cross h) (sameSign_cross ps)
    (hx.mono (subset_cross ps)) hneg

end Parts

end Polyline
