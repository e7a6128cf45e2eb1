import ExecutionLayer.ChartOrder

/-!
# The chart is the focused symbol's

The engine caches one series and one focus.  The focus moves in four places,
a symbol changes its class when it is added as a stock, and the series is read
again on a timer of its own, so the cache could outlive the symbol it was read
for.

It does not: whatever moves the focus or the class of the focused symbol
clears the series, and the first focus is taken while there is none.  A series
that is shown was read for the focus of the view, from the source of its
class, and neither has changed since (`chart_shows_focus`).
-/

namespace ExecutionLayer

open StepSystem

/-- The step that reads the chart series when it is due. -/
def DeskStep.readHistory (now : Int) : DeskStep :=
  .engine (.refreshHistory now) trivial

namespace TradingEngine

/-- The series of the focused symbol, from the source of its class. -/
def focusSeries (e : TradingEngine) : List PricePoint :=
  if e.isStock e.focus then e.stocks.history e.focus
  else e.store.history e.focus kChartPoints

/-- The two states have the same focus, in the same class. -/
structure SameChart (e e' : TradingEngine) : Prop where
  focus : e'.focus = e.focus
  isStock : e'.isStock e'.focus = e.isStock e.focus

/-- A read that is due, and one that is not. -/
theorem deskStep_readHistory (e : TradingEngine) (now : Int) :
    SameChart e (e.deskStep (.readHistory now)) ∧
      (((e.focus ≠ "" ∧ e.nextHistory ≤ now) ∧
          (e.deskStep (.readHistory now)).priceHist = e.focusSeries) ∨
        (e.deskStep (.readHistory now)).priceHist = e.priceHist) := by
  change SameChart e (e.refreshHistory now) ∧
    (_ ∧ (e.refreshHistory now).priceHist = _ ∨
      (e.refreshHistory now).priceHist = _)
  rw [refreshHistory]
  by_cases hdue : e.focus ≠ "" ∧ e.nextHistory ≤ now
  · rw [if_pos hdue]
    exact ⟨⟨rfl, rfl⟩, Or.inl ⟨hdue, rfl⟩⟩
  · rw [if_neg hdue]
    exact ⟨⟨rfl, rfl⟩, Or.inr rfl⟩

theorem isStock_publish (e : TradingEngine) (symbol : String) :
    (e.deskStep (.engine .publish trivial)).isStock symbol =
      e.isStock symbol := by
  change e.publish.isStock symbol = e.isStock symbol
  rw [publish, isStock, isStock]

section Runs

variable (symbols : List String) (capital : ℚ) (limits : RiskLimits)
variable (configured : Bool)

/-- The series was read after `before`, when it was due, for a focus that has
had the same symbol and class ever since. -/
structure ReadSince (before : List DeskStep) (now : Int)
    (after : List DeskStep) (series : List PricePoint) : Prop where
  focused : (desk symbols capital limits configured before).focus ≠ ""
  due : (desk symbols capital limits configured before).nextHistory ≤ now
  series_eq : series =
    (desk symbols capital limits configured before).focusSeries
  same : ∀ later, later <+: after →
    SameChart (desk symbols capital limits configured before)
      (desk symbols capital limits configured
        (before ++ .readHistory now :: later))

/-- The run ends with the steps since a read of the series. -/
def LastRead (ds : List DeskStep) (series : List PricePoint) : Prop :=
  ∃ before now after, ds = before ++ .readHistory now :: after ∧
    ReadSince symbols capital limits configured before now after series

variable {symbols capital limits configured}

/-- Steps that keep focus and class keep a series up to date. -/
theorem LastRead.concat
    {ds : List DeskStep} {series : List PricePoint}
    (h : LastRead symbols capital limits configured ds series)
    {d : DeskStep}
    (hsame : SameChart (desk symbols capital limits configured ds)
      ((desk symbols capital limits configured ds).deskStep d)) :
    LastRead symbols capital limits configured (ds ++ [d]) series := by
  obtain ⟨before, now, after, rfl, hread⟩ := h
  refine ⟨before, now, after ++ [d], by simp, hread.focused, hread.due,
    hread.series_eq, ?_⟩
  rw [forall_prefix_concat]
  refine ⟨hread.same, ?_⟩
  have hlast := hread.same after List.prefix_rfl
  rw [← desk_concat, List.append_assoc] at hsame
  exact ⟨hsame.focus.trans hlast.focus, hsame.isStock.trans hlast.isStock⟩

/-- A read that is due starts anew. -/
theorem lastRead_of_due
    {ds : List DeskStep} {now : Int}
    (hdue : (desk symbols capital limits configured ds).focus ≠ "" ∧
      (desk symbols capital limits configured ds).nextHistory ≤ now) :
    LastRead symbols capital limits configured (ds ++ [.readHistory now])
      (desk symbols capital limits configured ds).focusSeries := by
  refine ⟨ds, now, [], rfl, hdue.1, hdue.2, rfl, ?_⟩
  intro later hlater
  rw [List.prefix_nil.mp hlater, desk_concat]
  exact (deskStep_readHistory _ now).1

variable (symbols capital limits configured)

/-- The series is empty, and it is while there is no focus, or it was read
for the focus. -/
structure ChartRead (ds : List DeskStep) : Prop where
  unfocused : (desk symbols capital limits configured ds).focus = "" →
    (desk symbols capital limits configured ds).priceHist = []
  read : (desk symbols capital limits configured ds).priceHist = [] ∨
    LastRead symbols capital limits configured ds
      (desk symbols capital limits configured ds).priceHist

variable {symbols capital limits configured}

theorem ChartRead.of_nil
    {ds : List DeskStep}
    (h : (desk symbols capital limits configured ds).priceHist = []) :
    ChartRead symbols capital limits configured ds :=
  ⟨fun _ => h, Or.inl h⟩

/-- A step that keeps the series, the focus and its class. -/
theorem ChartRead.kept
    {ds : List DeskStep} {d : DeskStep}
    (h : ChartRead symbols capital limits configured ds)
    (hseries : (desk symbols capital limits configured
        (ds ++ [d])).priceHist =
      (desk symbols capital limits configured ds).priceHist)
    (hsame : SameChart (desk symbols capital limits configured ds)
      (desk symbols capital limits configured (ds ++ [d]))) :
    ChartRead symbols capital limits configured (ds ++ [d]) := by
  refine ⟨fun hfocus => ?_, ?_⟩
  · rw [hseries]
    exact h.unfocused (hsame.focus ▸ hfocus)
  · rw [hseries]
    rw [desk_concat] at hsame
    exact h.read.imp_right fun hread => hread.concat hsame

/-- The step that reads the series, when it is due and when it is not. -/
theorem ChartRead.refreshed
    {ds : List DeskStep}
    (h : ChartRead symbols capital limits configured ds) (now : Int) :
    ChartRead symbols capital limits configured
      (ds ++ [.readHistory now]) := by
  obtain ⟨hsame, ⟨hdue, hseries⟩ | hseries⟩ :=
    deskStep_readHistory (desk symbols capital limits configured ds) now
  · have hread := lastRead_of_due hdue
    rw [← hseries] at hread
    rw [← desk_concat] at hsame hread
    refine ⟨fun hfocus => ?_, Or.inr hread⟩
    exact absurd (hsame.focus ▸ hfocus) hdue.1
  · rw [← desk_concat] at hsame hseries
    exact h.kept hseries hsame

variable (symbols capital limits configured)

theorem chartRead_desk (ds : List DeskStep) :
    ChartRead symbols capital limits configured ds := by
  induction ds using List.reverseRecOn with
  | nil =>
      exact .of_nil rfl
  | append_singleton ds d ih =>
      by_cases hd : ∃ now own, d = .engine (.refreshHistory now) own
      · obtain ⟨now, own, rfl⟩ := hd
        exact ih.refreshed now
      · have hstep := unreadStep
          (desk symbols capital limits configured ds)
          fun now own hread => hd ⟨now, own, hread⟩
        rw [← desk_concat] at hstep
        cases hstep with
        | kept series focus stocks =>
            refine ih.kept series ⟨focus, ?_⟩
            rw [focus, isStock, stocks, ← isStock]
        | cleared series focus =>
            exact .of_nil series
        | opened series focus =>
            exact .of_nil (series.trans (ih.unfocused focus))

/-- **The chart never shows another symbol's prices.**  Whatever the threads
of a desk do in whatever order, prices and ages of the view that is published
next are empty, or they are those of a series that was read for the focus of
the view, from the source of its class, and neither focus nor class has
changed since the read. -/
theorem chart_shows_focus (ds : List DeskStep) :
    let shown := (desk symbols capital limits configured
      (ds ++ [.engine .publish trivial])).view
    (shown.priceHistory = [] ∧ shown.priceAgeS = []) ∨
      ∃ before now after series,
        ds = before ++ .readHistory now :: after ∧
          ReadSince symbols capital limits configured before now after
            series ∧
          (desk symbols capital limits configured before).focus =
            shown.focus ∧
          (desk symbols capital limits configured before).isStock
              shown.focus =
            (desk symbols capital limits configured
              (ds ++ [.engine .publish trivial])).isStock shown.focus ∧
          shown.priceHistory = series.map PricePoint.price ∧
          shown.priceAgeS = priceAges series := by
  intro shown
  have hshown : shown =
      (desk symbols capital limits configured ds).buildView := by
    have hpublish := desk_concat symbols capital limits configured ds
      (.engine .publish trivial)
    exact congrArg view hpublish
  rcases (chartRead_desk symbols capital limits configured ds).read with
    hnil | ⟨before, now, after, hds, hread⟩
  · left
    rw [hshown]
    simp only [buildView, hnil, List.map_nil, priceAges, and_self]
  · right
    have hlast := hread.same after List.prefix_rfl
    rw [← hds] at hlast
    have hfocus : (desk symbols capital limits configured before).focus =
        shown.focus := by
      rw [hshown]
      exact hlast.focus.symm
    refine ⟨before, now, after, _, hds, hread, hfocus, ?_, ?_, ?_⟩
    · have hclass := hlast.isStock
      rw [hlast.focus, hfocus] at hclass
      rw [desk_concat, isStock_publish]
      exact hclass.symm
    · rw [hshown]
      rfl
    · rw [hshown]
      rfl

end Runs

end TradingEngine

end ExecutionLayer
