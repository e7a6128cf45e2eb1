import ExecutionLayer.Library.Polyline
import ExecutionLayer.Engine

/-!
# The profit and loss lines

The panel plots the history of the profit as two lines, what is not below zero
in green and what is not above zero in red.  A sample at zero is a point of
both.  Where two neighbours stand on different sides, one pass over the samples
puts the point where the line between them is zero into both.

The pass keeps the two parts of the line through the samples with its
crossings put in (`pnlLines_eq`), so the two lines are the curve: each has
increasing abscissas, one draws the positive part of the curve and the other
the negative part, and each reaches as far as the curve is on its side
(`pnl_lines_draw_curve`).
-/

namespace ExecutionLayer

open Polyline

/-- The four arrays of the panel. -/
structure PnlLines where
  xsUp : List ℚ := []
  ysUp : List ℚ := []
  xsDown : List ℚ := []
  ysDown : List ℚ := []
deriving DecidableEq, Repr

namespace PnlLines

def pushUp (l : PnlLines) (x y : ℚ) : PnlLines :=
  { l with xsUp := l.xsUp ++ [x], ysUp := l.ysUp ++ [y] }

def pushDown (l : PnlLines) (x y : ℚ) : PnlLines :=
  { l with xsDown := l.xsDown ++ [x], ysDown := l.ysDown ++ [y] }

/-- The points plotted as "profit". -/
def up (l : PnlLines) : List (Point ℚ) :=
  List.zipWith Point.mk l.xsUp l.ysUp

/-- The points plotted as "loss". -/
def down (l : PnlLines) : List (Point ℚ) :=
  List.zipWith Point.mk l.xsDown l.ysDown

/-- The arrays of two lists of points. -/
def ofPoints (us ds : List (Point ℚ)) : PnlLines where
  xsUp := us.map Point.x
  ysUp := us.map Point.y
  xsDown := ds.map Point.x
  ysDown := ds.map Point.y

end PnlLines

/-- One sample, and the crossing between it and the next one. -/
def pnlStep (history : List ℚ) (l : PnlLines) (i : ℕ) : PnlLines :=
  let y := history.getD i 0
  let l := if y ≥ 0 then l.pushUp i y else l
  let l := if y ≤ 0 then l.pushDown i y else l
  if i + 1 < history.length then
    let y2 := history.getD (i + 1) 0
    if (y > 0 ∧ y2 < 0) ∨ (y < 0 ∧ y2 > 0) then
      -- fraction where the line hits 0
      let xc := i + y / (y - y2)
      (l.pushUp xc 0).pushDown xc 0
    else l
  else l

def pnlLines (history : List ℚ) : PnlLines :=
  (List.range history.length).foldl (pnlStep history) {}

/-- What the panel plots. -/
structure PnlPanel where
  top : ℚ
  zx : ℚ × ℚ
  zy : ℚ × ℚ
  lines : PnlLines
deriving DecidableEq, Repr

/-- The upper end of the vertical axis; the lower end is its negative. -/
def pnlTop (history : List ℚ) : ℚ :=
  let m := history.foldl (fun m y => max m |y|) 0
  let top := m * 1.25
  if top < 1 then 1 else top

/-- The panel; `none` is "accumulating...". -/
def pnlPanel (v : EngineView) : Option PnlPanel :=
  if 2 ≤ v.pnlHistory.length then
    some
      { top := pnlTop v.pnlHistory
        zx := (0, v.pnlHistory.length - 1)
        zy := (0, 0)
        lines := pnlLines v.pnlHistory }
  else none

/-! ### The curve -/

/-- The samples from index `i` on. -/
def samplesFrom (i : ℕ) : List ℚ → List (Point ℚ)
  | [] => []
  | y :: ys => ⟨i, y⟩ :: samplesFrom (i + 1) ys

/-- The interpolation of the samples over their indices. -/
def pnlCurve (history : List ℚ) : ℚ → ℚ :=
  interp (samplesFrom 0 history)

section Samples

variable {i : ℕ} {ys : List ℚ}

theorem samplesFrom_append (i : ℕ) (xs ys : List ℚ) :
    samplesFrom i (xs ++ ys) =
      samplesFrom i xs ++ samplesFrom (i + xs.length) ys := by
  induction xs generalizing i with
  | nil =>
      rfl
  | cons x xs ih =>
      rw [List.cons_append, samplesFrom, samplesFrom, ih,
        List.cons_append, List.length_cons, Nat.add_right_comm,
        Nat.add_assoc]

theorem le_of_mem_samplesFrom :
    ∀ p ∈ samplesFrom i ys, (i : ℚ) ≤ p.x := by
  induction ys generalizing i with
  | nil =>
      intro p hp
      exact absurd hp List.not_mem_nil
  | cons y ys ih =>
      intro p hp
      rcases List.mem_cons.mp hp with rfl | hp
      · exact le_rfl
      · have h := ih p hp
        rw [Nat.cast_add, Nat.cast_one] at h
        exact (lt_add_one (i : ℚ)).le.trans h

theorem increasing_samplesFrom (i : ℕ) (ys : List ℚ) :
    Increasing (samplesFrom i ys) := by
  induction ys generalizing i with
  | nil =>
      exact List.Pairwise.nil
  | cons y ys ih =>
      refine List.pairwise_cons.mpr ⟨fun p hp => ?_, ih (i + 1)⟩
      have h := le_of_mem_samplesFrom p hp
      rw [Nat.cast_add, Nat.cast_one] at h
      exact (lt_add_one (i : ℚ)).trans_le h

/-- Two neighbouring samples of the history. -/
theorem samples_split {history : List ℚ} (hi : i + 1 < history.length) :
    ∃ before after, samplesFrom 0 history =
      before ++ ⟨i, history[i]⟩ :: ⟨i + 1, history[i + 1]⟩ :: after := by
  have hlen : i < history.length := (Nat.lt_succ_self i).trans hi
  refine ⟨samplesFrom 0 (history.take i),
    samplesFrom (i + 2) (history.drop (i + 2)), ?_⟩
  have hsplit : history = history.take i ++
      history[i] :: history[i + 1] :: history.drop (i + 2) := by
    rw [List.getElem_cons_drop, List.getElem_cons_drop,
      List.take_append_drop]
  conv_lhs => rw [hsplit]
  rw [samplesFrom_append, List.length_take, Nat.min_eq_left hlen.le,
    Nat.zero_add, samplesFrom, samplesFrom, Nat.cast_add, Nat.cast_one]

/-- Between two samples the curve is the line through them. -/
theorem pnlCurve_eq
    {history : List ℚ} {x : ℚ} (hi : i + 1 < history.length)
    (hix : i ≤ x) (hxi : x ≤ i + 1) :
    pnlCurve history x =
      history[i] + (x - i) * (history[i + 1] - history[i]) := by
  obtain ⟨before, after, hsplit⟩ := samples_split hi
  have hinc := increasing_samplesFrom 0 history
  rw [hsplit] at hinc
  rw [pnlCurve, hsplit, interp_segment before hinc hix hxi, line,
    add_sub_cancel_left, div_one]

end Samples

/-! ### The pass keeps the two parts of the curve -/

section Pass

open PnlLines

@[simp] theorem pushUp_ofPoints
    (us ds : List (Point ℚ)) (x y : ℚ) :
    (ofPoints us ds).pushUp x y = ofPoints (us ++ [⟨x, y⟩]) ds := by
  simp [ofPoints, pushUp]

@[simp] theorem pushDown_ofPoints
    (us ds : List (Point ℚ)) (x y : ℚ) :
    (ofPoints us ds).pushDown x y = ofPoints us (ds ++ [⟨x, y⟩]) := by
  simp [ofPoints, pushDown]

theorem zipWith_points (ps : List (Point ℚ)) :
    List.zipWith Point.mk (ps.map Point.x) (ps.map Point.y) = ps := by
  rw [List.zipWith_map, List.zipWith_self]
  exact List.map_id ps

theorem up_ofPoints (us ds : List (Point ℚ)) :
    (ofPoints us ds).up = us :=
  zipWith_points us

theorem down_ofPoints (us ds : List (Point ℚ)) :
    (ofPoints us ds).down = ds :=
  zipWith_points ds

/-- The crossing after sample `i`. -/
theorem crossing_sample (i : ℕ) (y y2 : ℚ) :
    crossing (Point.mk (i : ℚ) y) (Point.mk ((i + 1 : ℕ) : ℚ) y2) =
      ⟨i + y / (y - y2), 0⟩ := by
  refine Point.ext ?_ rfl
  change (i : ℚ) + (((i + 1 : ℕ) : ℚ) - i) * (y / (y - y2)) = _
  rw [Nat.cast_add, Nat.cast_one, add_sub_cancel_left, one_mul]

/-- What the curve has from sample `i` up to the next one. -/
def stretch (i : ℕ) (y : ℚ) (ys : List ℚ) : List (Point ℚ) :=
  let p : Point ℚ := ⟨i, y⟩
  [p] ++ between p (samplesFrom (i + 1) ys).head?

theorem cross_samplesFrom (i : ℕ) (y : ℚ) (ys : List ℚ) :
    cross (samplesFrom i (y :: ys)) =
      stretch i y ys ++ cross (samplesFrom (i + 1) ys) := by
  rw [samplesFrom, cross_eq_append, stretch, List.singleton_append]

/-- A sample goes to the sides it is on. -/
theorem push_sample (us ds : List (Point ℚ)) (x y : ℚ) :
    (let l := ofPoints us ds
     let l := if y ≥ 0 then l.pushUp x y else l
     if y ≤ 0 then l.pushDown x y else l) =
      ofPoints (us ++ upper [⟨x, y⟩]) (ds ++ lower [⟨x, y⟩]) := by
  rcases lt_trichotomy y 0 with hy | hy | hy
  · simp [upper, lower, hy.not_ge, hy.le]
  · simp [upper, lower, hy]
  · simp [upper, lower, hy.not_ge, hy.le]

theorem pnlStep_ofPoints
    (before ys : List ℚ) (y : ℚ) (us ds : List (Point ℚ)) :
    pnlStep (before ++ y :: ys) (ofPoints us ds) before.length =
      ofPoints (us ++ upper (stretch before.length y ys))
        (ds ++ lower (stretch before.length y ys)) := by
  have hy : (before ++ y :: ys).getD before.length 0 = y := by
    simp
  have hsample := push_sample us ds before.length y
  rw [stretch, upper_append, lower_append,
    upper_between, lower_between, ← List.append_assoc,
    ← List.append_assoc, pnlStep, hy]
  dsimp only at hsample ⊢
  rw [hsample]
  cases ys with
  | nil =>
      rw [if_neg (by simp), samplesFrom, List.head?_nil, between,
        List.append_nil, List.append_nil]
  | cons y2 ys =>
      have hy2 :
          (before ++ y :: y2 :: ys).getD (before.length + 1) 0 = y2 := by
        simp
      rw [if_pos (by simp), hy2, samplesFrom, List.head?_cons, between,
        crossing_sample]
      have hcrosses :
          Crosses (Point.mk (before.length : ℚ) y)
            (Point.mk ((before.length + 1 : ℕ) : ℚ) y2) ↔
          (y > 0 ∧ y2 < 0) ∨ (y < 0 ∧ y2 > 0) := Iff.rfl
      by_cases hc : (y > 0 ∧ y2 < 0) ∨ (y < 0 ∧ y2 > 0)
      · rw [if_pos hc, if_pos (hcrosses.mpr hc), pushUp_ofPoints,
          pushDown_ofPoints]
      · rw [if_neg hc, if_neg (mt hcrosses.mp hc), List.append_nil,
          List.append_nil]

theorem foldl_pnlStep (before ys : List ℚ) (us ds : List (Point ℚ)) :
    (List.range' before.length ys.length).foldl
        (pnlStep (before ++ ys)) (ofPoints us ds) =
      ofPoints (us ++ upper (cross (samplesFrom before.length ys)))
        (ds ++ lower (cross (samplesFrom before.length ys))) := by
  induction ys generalizing before us ds with
  | nil =>
      change ofPoints us ds = ofPoints (us ++ []) (ds ++ [])
      rw [List.append_nil, List.append_nil]
  | cons y ys ih =>
      have hnext := ih (before ++ [y])
      rw [List.length_append, List.length_singleton,
        List.append_assoc, List.singleton_append] at hnext
      rw [List.length_cons, List.range'_succ, List.foldl_cons,
        pnlStep_ofPoints, hnext, cross_samplesFrom,
        upper_append, lower_append, List.append_assoc,
        List.append_assoc]

theorem pnlLines_eq (history : List ℚ) :
    pnlLines history =
      ofPoints (upper (cross (samplesFrom 0 history)))
        (lower (cross (samplesFrom 0 history))) := by
  have h := foldl_pnlStep [] history [] []
  rw [List.length_nil, List.nil_append, List.nil_append,
    List.nil_append] at h
  rw [pnlLines, List.range_eq_range']
  exact h

end Pass

/-! ### The two lines are the curve -/

/-- A line has increasing abscissas, and draws `f` as far as it reaches. -/
structure Draws (xs ys : List ℚ) (f : ℚ → ℚ) : Prop where
  lengths : xs.length = ys.length
  increasing : xs.Pairwise (· < ·)
  interp_eq : ∀ x, Spans (List.zipWith Point.mk xs ys) x →
    interp (List.zipWith Point.mk xs ys) x = f x

/-- Every sample is a point of the lines of its sides. -/
def ShowsSamples (history : List ℚ) (l : PnlLines) : Prop :=
  ∀ i (hi : i < history.length),
    (0 ≤ history[i] → ⟨i, history[i]⟩ ∈ l.up) ∧
      (history[i] ≤ 0 → ⟨i, history[i]⟩ ∈ l.down)

/-- Where the curve is zero between two samples that are not both zero, both
lines have a point. -/
def ShowsCrossings (history : List ℚ) (l : PnlLines) : Prop :=
  ∀ i (hi : i + 1 < history.length) x, (i : ℚ) < x → x < i + 1 →
    pnlCurve history x = 0 → ¬ (history[i] = 0 ∧ history[i + 1] = 0) →
      ⟨x, 0⟩ ∈ l.up ∧ ⟨x, 0⟩ ∈ l.down

/-- Each line reaches as far as the curve is on its side. -/
def ShowsAll (history : List ℚ) (l : PnlLines) : Prop :=
  ∀ x, 0 ≤ x → x ≤ (history.length : ℚ) - 1 →
    (0 ≤ pnlCurve history x → Spans l.up x) ∧
      (pnlCurve history x ≤ 0 → Spans l.down x)

section Curve

variable {history : List ℚ}

/-- The arrays of an increasing list of points. -/
theorem Draws.of_points
    {ps : List (Point ℚ)} {f : ℚ → ℚ} (hinc : Increasing ps)
    (h : ∀ x, Spans ps x → interp ps x = f x) :
    Draws (ps.map Point.x) (ps.map Point.y) f where
  lengths := by
    rw [List.length_map, List.length_map]
  increasing := List.Pairwise.map _ (fun _ _ hpq => hpq) hinc
  interp_eq := by
    rw [zipWith_points]
    exact h

theorem mem_samples {i : ℕ} (hi : i < history.length) :
    (⟨i, history[i]⟩ : Point ℚ) ∈ samplesFrom 0 history := by
  have hsplit : history =
      history.take i ++ history[i] :: history.drop (i + 1) := by
    rw [List.getElem_cons_drop, List.take_append_drop]
  have hsamples : samplesFrom 0 history =
      samplesFrom 0 (history.take i) ++
        ⟨i, history[i]⟩ :: samplesFrom (i + 1) (history.drop (i + 1)) := by
    conv_lhs => rw [hsplit]
    rw [samplesFrom_append, List.length_take, Nat.min_eq_left hi.le,
      Nat.zero_add, samplesFrom]
  rw [hsamples]
  exact List.mem_append_right _ List.mem_cons_self

/-- The samples span the whole axis. -/
theorem spans_samples {x : ℚ} (hne : history ≠ []) (h0 : 0 ≤ x)
    (hx : x ≤ (history.length : ℚ) - 1) :
    Spans (samplesFrom 0 history) x := by
  have hlen := List.length_pos_iff.mpr hne
  have hlast : history.length - 1 < history.length :=
    Nat.sub_lt hlen Nat.one_pos
  refine ⟨⟨_, mem_samples hlen, ?_⟩, _, mem_samples hlast, ?_⟩
  · rw [Nat.cast_zero]
    exact h0
  · rw [Nat.cast_sub hlen, Nat.cast_one]
    exact hx

theorem draws_up (history : List ℚ) :
    Draws (pnlLines history).xsUp (pnlLines history).ysUp
      fun x => max (pnlCurve history x) 0 := by
  have hinc := increasing_samplesFrom 0 history
  rw [pnlLines_eq]
  exact Draws.of_points (increasing_cross hinc).upper
    fun x hx => interp_upper_cross hinc hx

theorem draws_down (history : List ℚ) :
    Draws (pnlLines history).xsDown (pnlLines history).ysDown
      fun x => min (pnlCurve history x) 0 := by
  have hinc := increasing_samplesFrom 0 history
  rw [pnlLines_eq]
  exact Draws.of_points (increasing_cross hinc).lower
    fun x hx => interp_lower_cross hinc hx

theorem shows_samples (history : List ℚ) :
    ShowsSamples history (pnlLines history) := by
  intro i hi
  have hmem := subset_cross _ (mem_samples hi)
  rw [pnlLines_eq, up_ofPoints, down_ofPoints]
  exact ⟨fun h => mem_upper.mpr ⟨hmem, h⟩,
    fun h => mem_lower.mpr ⟨hmem, h⟩⟩

theorem shows_crossings (history : List ℚ) :
    ShowsCrossings history (pnlLines history) := by
  intro i hi x hix hxi hzero hflat
  have hinc := increasing_samplesFrom 0 history
  have hmem : (⟨x, 0⟩ : Point ℚ) ∈ cross (samplesFrom 0 history) := by
    obtain ⟨before, after, hsplit⟩ := samples_split hi
    rw [pnlCurve, hsplit] at hzero
    rw [hsplit] at hinc ⊢
    exact zero_mem_cross before hinc hix hxi hzero hflat
  rw [pnlLines_eq, up_ofPoints, down_ofPoints]
  exact ⟨mem_upper.mpr ⟨hmem, le_rfl⟩, mem_lower.mpr ⟨hmem, le_rfl⟩⟩

theorem shows_all (hne : history ≠ []) :
    ShowsAll history (pnlLines history) := by
  intro x h0 hx
  have hinc := increasing_samplesFrom 0 history
  have hspans := spans_samples hne h0 hx
  rw [pnlLines_eq, up_ofPoints, down_ofPoints]
  exact ⟨spans_upper_cross hinc hspans, spans_lower_cross hinc hspans⟩

/-- The lines of the panel are the parts of the curve above and below zero,
and no part of the curve is missing from both. -/
theorem pnl_lines_draw_curve
    (v : EngineView) (hn : 2 ≤ v.pnlHistory.length) :
    ∃ panel, pnlPanel v = some panel ∧
      Draws panel.lines.xsUp panel.lines.ysUp
        (fun x => max (pnlCurve v.pnlHistory x) 0) ∧
      Draws panel.lines.xsDown panel.lines.ysDown
        (fun x => min (pnlCurve v.pnlHistory x) 0) ∧
      ShowsSamples v.pnlHistory panel.lines ∧
      ShowsCrossings v.pnlHistory panel.lines ∧
      ShowsAll v.pnlHistory panel.lines := by
  have hne : v.pnlHistory ≠ [] :=
    List.length_pos_iff.mp (Nat.zero_lt_two.trans_le hn)
  refine ⟨_, if_pos hn, ?_⟩
  exact ⟨draws_up _, draws_down _, shows_samples _, shows_crossings _,
    shows_all hne⟩

/-- A profit that becomes a loss: both lines have the crossing. -/
theorem pnl_lines_draw_curve_one_jump :
    (pnlLines [1, -3]).xsUp = [0, 1 / 4] ∧
      (pnlLines [1, -3]).xsDown = [1 / 4, 1] ∧
      ∃ panel, pnlPanel { pnlHistory := [1, -3] } = some panel ∧
        Draws panel.lines.xsUp panel.lines.ysUp
          (fun x => max (pnlCurve [1, -3] x) 0) ∧
        Draws panel.lines.xsDown panel.lines.ysDown
          (fun x => min (pnlCurve [1, -3] x) 0) ∧
        ShowsSamples [1, -3] panel.lines ∧
        ShowsCrossings [1, -3] panel.lines ∧
        ShowsAll [1, -3] panel.lines :=
  ⟨by decide +kernel, by decide +kernel,
    pnl_lines_draw_curve { pnlHistory := [1, -3] } (by decide)⟩

end Curve

end ExecutionLayer
