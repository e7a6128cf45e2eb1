import ExecutionLayer.ChartOrder
import ExecutionLayer.VenueMessages

/-!
# Chart backfill

The first time a crypto symbol is charted, the engine asks the feed for
candles, and `_backfill` of `coinbase.py` fetches them and publishes their
closes.  The exchange lists candles newest first, and the rows are whatever
its JSON says.  A close may be too large for a float and is infinite then; the
line that is written of it is no JSON, and the publisher of this model goes on
only with finite closes.

Two things are proved.  What a backfill puts in front of the tape is sorted,
positive and older than the tape, so it leaves a chart in order in order, and
no response costs more than its own symbol (`backfilled_charts`).  And over
the life of an engine the feed is asked for each symbol at most once, for the
symbols that were a crypto focus and no others (`candles_asked_once`), which
is why the products of a batch are distinct.
-/

namespace ExecutionLayer

open FeedServer Framing JsonLib MachineInt MarketStore PyLib StepSystem Window
open PyLib.PyValue (entries cellAt number integer)

namespace Coinbase

/-! ### Fetching -/

section Fetch

variable (py : Python)

/-- The point of a row, if the row makes one; nothing stands for an exception,
here and below. -/
def candle (row : PyValue) : Option (Option (PyFloat × Int)) := do
  let cells ← entries row
  if cells.length < 5 then return none
  else
    let close ← (cellAt row 4).bind py.float
    if ¬ close.positive then return none
    else
      let start ← (cellAt row 0).bind py.int
      return some (close, start * 1000000000)

/-- `out.sort(key=lambda p: p[1])` -/
def byTime (points : List (PyFloat × Int)) : List (PyFloat × Int) :=
  points.insertionSort fun p q => p.2 ≤ q.2

/-- `fetch`, on the body of the response. -/
def fetchCandles (body : List UInt8) : Option (List (PyFloat × Int)) := do
  let rows ← (py.loads body).bind entries
  let out ← rows.mapM (candle py)
  return byTime (out.filterMap id)

/-- `_MAX_BACKFILL_PRODUCTS` -/
def maxBackfillProducts : Nat := 12

/-- The points that are sent, if the closes are finite. -/
def finitePoints (points : List (PyFloat × Int)) : Option (List (ℚ × Int)) :=
  points.mapM fun p => p.1.rat.map fun close => (close, p.2)

/-- The products of a backfill, each with the body of its response unless the
request fails, one after the other.  There is no outcome once a close is not
finite. -/
def backfillLoop :
    List (String × Option (List UInt8)) → Session → Option (Outcome Unit)
  | [], s => some (.ok (), s)
  | (pid, body) :: requests, s =>
      match body.bind (fetchCandles py) with
      | none => backfillLoop requests s
      | some points =>
          match finitePoints points with
          | none => none
          | some points =>
              match FeedPublisher.publishHistory pid points s with
              | (.error e, s) => some (.error e, s)
              | (.ok _, s) => backfillLoop requests s

/-- `_backfill` -/
def backfill (requests : List (String × Option (List UInt8)))
    (s : Session) : Option (Outcome Unit) :=
  backfillLoop py (requests.take maxBackfillProducts) s

/-- The candles of a response, if it brings finite ones. -/
def candlesOfBody (body : Option (List UInt8)) : Option (List (ℚ × Int)) :=
  (body.bind (fetchCandles py)).bind finitePoints

/-- No close of the response is infinite. -/
def FiniteCloses (body : Option (List UInt8)) : Prop :=
  ∀ points, body.bind (fetchCandles py) = some points →
    ∀ p ∈ points, p.1.rat ≠ none

end Fetch

/-! ### What a response makes -/

section Candles

variable {py : Python}

/-- A row makes a point with a positive price, or none. -/
theorem candle_pos
    {row : PyValue} {p : PyFloat × Int} (h : candle py row = some (some p)) :
    p.1.positive := by
  simp only [candle, Option.bind_eq_bind, Option.bind_eq_some_iff] at h
  obtain ⟨cells, _, h⟩ := h
  split_ifs at h with hshort
  · cases h
  · obtain ⟨close, _, h⟩ := Option.bind_eq_some_iff.mp h
    split_ifs at h with hclose
    · obtain ⟨start, _, h⟩ := Option.bind_eq_some_iff.mp h
      cases h
      exact hclose
    · cases h

/-- Whatever the response says, the points are oldest first and have positive
prices. -/
theorem fetchCandles_spec
    {body : List UInt8} {points : List (PyFloat × Int)}
    (h : fetchCandles py body = some points) :
    points.Pairwise (·.2 ≤ ·.2) ∧ ∀ p ∈ points, p.1.positive := by
  simp only [fetchCandles, Option.bind_eq_bind,
    Option.bind_eq_some_iff] at h
  obtain ⟨rows, _, out, hout, h⟩ := h
  cases h
  constructor
  · exact List.pairwise_insertionSort _ _
  · intro p hp
    rw [byTime, List.mem_insertionSort, mem_filterMap_mapM_iff hout] at hp
    obtain ⟨row, _, hrow⟩ := hp
    exact candle_pos hrow

theorem finitePoints_of_finite
    {points : List (PyFloat × Int)} (h : ∀ p ∈ points, p.1.rat ≠ none) :
    ∃ sent, finitePoints points = some sent := by
  induction points with
  | nil =>
      exact ⟨[], rfl⟩
  | cons p points ih =>
      rw [List.forall_mem_cons] at h
      obtain ⟨close, hclose⟩ := Option.ne_none_iff_exists'.mp h.1
      obtain ⟨sent, hsent⟩ := ih h.2
      refine ⟨(close, p.2) :: sent, ?_⟩
      rw [finitePoints] at hsent ⊢
      rw [List.mapM_cons, hsent, hclose]
      rfl

/-- What is sent has the times of the points. -/
theorem finitePoints_times
    {points : List (PyFloat × Int)} {sent : List (ℚ × Int)}
    (h : finitePoints points = some sent) :
    sent.map Prod.snd = points.map Prod.snd := by
  induction points generalizing sent with
  | nil =>
      cases h
      rfl
  | cons p points ih =>
      rw [finitePoints, List.mapM_cons] at h
      simp only [Option.bind_eq_bind, Option.bind_eq_some_iff,
        Option.map_eq_some_iff, Option.pure_def, Option.some.injEq] at h
      obtain ⟨_, ⟨close, _, rfl⟩, rest, hrest, rfl⟩ := h
      rw [List.map_cons, List.map_cons, ih hrest]

/-- The candles of a response are oldest first. -/
theorem candlesOfBody_sorted
    {body : Option (List UInt8)} {sent : List (ℚ × Int)}
    (h : candlesOfBody py body = some sent) :
    sent.Pairwise (·.2 ≤ ·.2) := by
  obtain ⟨points, hpoints, hsent⟩ := Option.bind_eq_some_iff.mp h
  obtain ⟨raw, _, hfetch⟩ := Option.bind_eq_some_iff.mp hpoints
  have htimes := (fetchCandles_spec hfetch).1
  rw [← List.pairwise_map (f := Prod.snd) (R := (· ≤ ·))] at htimes ⊢
  rw [finitePoints_times hsent]
  exact htimes

end Candles

/-! ### What is published -/

/-- What a product's request comes to. -/
def candlesOf (py : Python) (request : String × Option (List UInt8)) :
    Option Publication :=
  (candlesOfBody py request.2).map (.history request.1)

/-- One call after the other. -/
theorem delivers_trans
    {s₁ s₂ s₃ : Session} {msgs₁ msgs₂ : List Json}
    (h : Delivers s₁ msgs₁ s₂) (h' : Delivers s₂ msgs₂ s₃) :
    Delivers s₁ (msgs₁ ++ msgs₂) s₃ where
  steady := h'.steady
  written := by
    rw [h'.written, h.written, List.append_assoc]
  recvs := h'.recvs.trans h.recvs
  rbuf := h'.rbuf.trans h.rbuf

/-- On a steady session, every request that succeeds is published, and a
failed one leaves the others alone. -/
theorem backfillLoop_of_steady
    (py : Python) {requests : List (String × Option (List UInt8))}
    (hfinite : ∀ r ∈ requests, FiniteCloses py r.2) {s : Session}
    (hs : Steady s) :
    ∃ s', backfillLoop py requests s = some (.ok (), s') ∧
      Delivers s
        ((requests.filterMap (candlesOf py)).flatMap Publication.msgs)
        s' := by
  induction requests generalizing s with
  | nil =>
      exact ⟨s, rfl, FeedPublisher.Delivers.nil hs⟩
  | cons request requests ih =>
      obtain ⟨pid, body⟩ := request
      rw [List.forall_mem_cons] at hfinite
      cases hfetch : body.bind (fetchCandles py) with
      | none =>
          obtain ⟨s', hloop, hdel⟩ := ih hfinite.2 hs
          have hnone : candlesOf py (pid, body) = none := by
            rw [candlesOf, candlesOfBody, hfetch]
            rfl
          refine ⟨s', ?_, ?_⟩
          · rw [backfillLoop, hfetch]
            exact hloop
          · rw [List.filterMap_cons_none hnone]
            exact hdel
      | some points =>
          obtain ⟨sent, hsent⟩ :=
            finitePoints_of_finite (hfinite.1 points hfetch)
          obtain ⟨s₁, hpublish, hdel₁⟩ :=
            publish_of_steady (.history pid sent) hs
          obtain ⟨s', hloop, hdel⟩ := ih hfinite.2 hdel₁.steady
          have hpublish' : FeedPublisher.publishHistory pid sent s =
              (.ok (), s₁) := hpublish
          have hsome : candlesOf py (pid, body) =
              some (.history pid sent) := by
            rw [candlesOf, candlesOfBody, hfetch, Option.bind_some, hsent]
            rfl
          refine ⟨s', ?_, ?_⟩
          · rw [backfillLoop, hfetch]
            simp only [hsent, hpublish']
            exact hloop
          · rw [List.filterMap_cons_some hsome, List.flatMap_cons]
            exact delivers_trans hdel₁ hdel

/-! ### What the store makes of it -/

/-- The points that arrive. -/
def arrived (points : List (ℚ × Int)) : List PricePoint :=
  points.map fun p => { tsNs := asTimestampNs p.2, price := p.1 }

theorem arrived_oldestFirst
    {points : List (ℚ × Int)} (hsorted : points.Pairwise (·.2 ≤ ·.2))
    (hfits : ∀ p ∈ points, FitsInt64 p.2) :
    OldestFirst (arrived points) := by
  refine List.pairwise_map.mpr ?_
  refine hsorted.imp_of_mem ?_
  intro p q hp hq hle
  rw [asTimestampNs_of_fits (hfits p hp),
    asTimestampNs_of_fits (hfits q hq)]
  exact hle

/-- What a backfill leaves of the history of a symbol. -/
def extended (points : List (ℚ × Int)) (h : List PricePoint) :
    List PricePoint :=
  (olderPoints h (arrived points) ++ h).rtake kHistoryCap

end Coinbase

/-! ### What the feed is asked for -/

/-- The symbols that a step hands to the feed for backfill. -/
def DeskStep.asked (e : TradingEngine) : DeskStep → List String
  | .takeHistoryRequests => e.store.historyRequests
  | _ => []

/-- The step in which the engine looks whether the focus needs candles. -/
def DeskStep.lookAtFocus : DeskStep :=
  .engine .requestFocusHistory trivial

namespace TradingEngine

theorem historyRequests_applyCall (store : MarketStore) (c : StoreCall) :
    (applyCall store c).historyRequests = store.historyRequests := by
  cases c with
  | onQuote q =>
      rw [applyCall, onQuote]
      split_ifs <;> rfl
  | onTrade symbol price tsNs =>
      rw [applyCall, onTrade]
      split_ifs <;> rfl
  | backfillHistory symbol points =>
      rw [applyCall, backfillHistory]
      split_ifs <;> rfl
  | _ =>
      rfl

/-- What a step does to the requests: the engine asks for the candles of the
focus, the feed takes what was asked for, or nothing happens to them. -/
theorem asked_deskStep (e : TradingEngine) (d : DeskStep) :
    (d = .lookAtFocus ∧ e.focus ≠ "" ∧ e.isStock e.focus = false ∧
        e.focus ∉ e.histRequested ∧ d.asked e = [] ∧
        (e.deskStep d).store = e.store.requestHistory e.focus ∧
        (e.deskStep d).histRequested = insert e.focus e.histRequested) ∨
      (d = .takeHistoryRequests ∧ d.asked e = e.store.historyRequests ∧
        (e.deskStep d).store.historyRequests = [] ∧
        (e.deskStep d).histRequested = e.histRequested) ∨
      (d.asked e = [] ∧
        (e.deskStep d).store.historyRequests =
          e.store.historyRequests ∧
        (e.deskStep d).histRequested = e.histRequested ∧
        (d = .lookAtFocus → e.focus = "" ∨ e.isStock e.focus = true ∨
          e.focus ∈ e.histRequested)) := by
  cases d with
  | takeHistoryRequests =>
      exact Or.inr (Or.inl ⟨rfl, rfl, rfl, rfl⟩)
  | store c =>
      exact Or.inr (Or.inr
        ⟨rfl, historyRequests_applyCall _ c, rfl, by rintro ⟨⟩⟩)
  | attached attached =>
      exact Or.inr (Or.inr ⟨rfl, rfl, rfl, by rintro ⟨⟩⟩)
  | takeRequested =>
      exact Or.inr (Or.inr ⟨rfl, rfl, rfl, by rintro ⟨⟩⟩)
  | stocks u =>
      exact Or.inr (Or.inr ⟨rfl, rfl, rfl, by rintro ⟨⟩⟩)
  | engine a own =>
      cases a with
      | requestFocusHistory =>
          by_cases hask : e.focus ≠ "" ∧ e.isStock e.focus = false ∧
              e.focus ∉ e.histRequested
          · left
            have hstep : e.deskStep .lookAtFocus =
                { e with
                  histRequested := insert e.focus e.histRequested
                  store := e.store.requestHistory e.focus } :=
              if_pos hask
            exact ⟨rfl, hask.1, hask.2.1, hask.2.2, rfl,
              congrArg store hstep, congrArg histRequested hstep⟩
          · right; right
            have hstep : e.deskStep .lookAtFocus = e := if_neg hask
            refine ⟨rfl, congrArg (fun e => e.store.historyRequests) hstep,
              congrArg histRequested hstep, fun _ => ?_⟩
            by_contra hnone
            simp only [not_or, Bool.not_eq_true] at hnone
            exact hask ⟨hnone.1, hnone.2.1, hnone.2.2⟩
      | command c =>
          right; right
          change _ ∧ (e.process c).store.historyRequests = _ ∧
            (e.process c).histRequested = _ ∧ _
          rcases e.process_cases c with
            ⟨_, heq⟩ | ⟨_, heq⟩ | ⟨_, ⟨_, _, heq⟩ | ⟨oms, heq⟩⟩
          · rw [heq, addStock]
            exact ⟨rfl, rfl, rfl, by rintro ⟨⟩⟩
          · rw [heq, addCrypto, addSymbol]
            refine ⟨rfl, ?_, rfl, by rintro ⟨⟩⟩
            split_ifs <;> rfl
          · rw [heq]
            exact ⟨rfl, rfl, rfl, by rintro ⟨⟩⟩
          · rw [heq]
            exact ⟨rfl, rfl, rfl, by rintro ⟨⟩⟩
      | refreshHistory now =>
          right; right
          change _ ∧ (e.refreshHistory now).store.historyRequests = _ ∧
            (e.refreshHistory now).histRequested = _ ∧ _
          rw [refreshHistory]
          split_ifs <;> exact ⟨rfl, rfl, rfl, by rintro ⟨⟩⟩
      | refreshCatalog now =>
          right; right
          change _ ∧ (e.refreshCatalog now).store.historyRequests = _ ∧
            (e.refreshCatalog now).histRequested = _ ∧ _
          rw [refreshCatalog]
          split_ifs <;> exact ⟨rfl, rfl, rfl, by rintro ⟨⟩⟩
      | quote symbol q =>
          exact own.elim
      | feeds store stocks =>
          exact own.elim
      | readCryptoQuotes =>
          exact Or.inr (Or.inr ⟨rfl, rfl, rfl, by rintro ⟨⟩⟩)
      | readStockQuotes =>
          exact Or.inr (Or.inr ⟨rfl, rfl, rfl, by rintro ⟨⟩⟩)
      | drainErrors =>
          exact Or.inr (Or.inr ⟨rfl, rfl, rfl, by rintro ⟨⟩⟩)
      | publish =>
          right; right
          change _ ∧ e.publish.store.historyRequests = _ ∧
            e.publish.histRequested = _ ∧ _
          rw [publish]
          exact ⟨rfl, rfl, rfl, by rintro ⟨⟩⟩

section Runs

variable (symbols : List String) (capital : ℚ) (limits : RiskLimits)
variable (configured : Bool)

/-- All symbols that candles were asked for, handed to the feed or not. -/
def askedFor (ds : List DeskStep) : List String :=
  outputs deskStep (fun e d => d.asked e)
      (start symbols capital limits { configured := configured }) ds ++
    (desk symbols capital limits configured ds).store.historyRequests

/-- The engine looked while `s` was its crypto focus. -/
def LookedAt (ds : List DeskStep) (s : String) : Prop :=
  s ≠ "" ∧ ∃ before, before ++ [.lookAtFocus] <+: ds ∧
    (desk symbols capital limits configured before).focus = s ∧
    (desk symbols capital limits configured before).isStock s = false

/-- The requests are those that the engine remembers, each once, and it
remembers the symbols that it looked at. -/
structure AskedOnce (ds : List DeskStep) : Prop where
  nodup : (askedFor symbols capital limits configured ds).Nodup
  mem_iff : ∀ s, s ∈ askedFor symbols capital limits configured ds ↔
    s ∈ (desk symbols capital limits configured ds).histRequested
  looked : ∀ s,
    s ∈ (desk symbols capital limits configured ds).histRequested ↔
      LookedAt symbols capital limits configured ds s

theorem lookedAt_concat_iff
    (ds : List DeskStep) (d : DeskStep) (s : String) :
    LookedAt symbols capital limits configured (ds ++ [d]) s ↔
      LookedAt symbols capital limits configured ds s ∨
        d = .lookAtFocus ∧ s ≠ "" ∧
          (desk symbols capital limits configured ds).focus = s ∧
          (desk symbols capital limits configured ds).isStock s =
            false := by
  constructor
  · rintro ⟨hs, before, hpre, hfocus, hcrypto⟩
    rcases List.prefix_concat_iff.mp hpre with heq | hpre
    · obtain ⟨rfl, hd⟩ := List.append_singleton_inj.mp heq
      exact Or.inr ⟨hd.symm, hs, hfocus, hcrypto⟩
    · exact Or.inl ⟨hs, before, hpre, hfocus, hcrypto⟩
  · rintro (⟨hs, before, hpre, hfocus, hcrypto⟩ | ⟨rfl, hs, hfocus, hcrypto⟩)
    · exact ⟨hs, before, hpre.trans (List.prefix_append ds [d]), hfocus,
        hcrypto⟩
    · exact ⟨hs, ds, List.prefix_rfl, hfocus, hcrypto⟩

theorem askedFor_concat (ds : List DeskStep) (d : DeskStep) :
    askedFor symbols capital limits configured (ds ++ [d]) =
      outputs deskStep (fun e d => d.asked e)
          (start symbols capital limits { configured := configured }) ds ++
        (d.asked (desk symbols capital limits configured ds) ++
          (desk symbols capital limits configured
            (ds ++ [d])).store.historyRequests) := by
  rw [askedFor, outputs_concat, List.append_assoc]
  rfl

theorem askedOnce_desk (ds : List DeskStep) :
    AskedOnce symbols capital limits configured ds := by
  induction ds using List.reverseRecOn with
  | nil =>
      refine ⟨List.nodup_nil, ?_, ?_⟩
      · intro s
        exact ⟨fun h => absurd h List.not_mem_nil,
          fun h => absurd h (Finset.notMem_empty s)⟩
      · intro s
        constructor
        · exact fun h => absurd h (Finset.notMem_empty s)
        · rintro ⟨_, before, hpre, _⟩
          simp at hpre
  | append_singleton ds d ih =>
      have hasked := askedFor_concat symbols capital limits configured ds d
      have hlooked := lookedAt_concat_iff symbols capital limits configured
        ds d
      have hstep := asked_deskStep
        (desk symbols capital limits configured ds) d
      rw [← desk_concat] at hstep
      rcases hstep with ⟨rfl, hne, hcrypto, hnew, hnone, hstore, hreq⟩ |
        ⟨rfl, htake, hempty, hreq⟩ | ⟨hnone, hsame, hreq, hidle⟩
      · rw [hstore, hnone, requestHistory, if_neg hne] at hasked
        have hpending : (desk symbols capital limits configured ds).focus ∉
            (desk symbols capital limits configured
              ds).store.historyRequests := fun hmem =>
          hnew ((ih.mem_iff _).mp (List.mem_append_right _ hmem))
        rw [if_neg hpending, List.nil_append, ← List.append_assoc,
          ← askedFor] at hasked
        refine ⟨?_, ?_, ?_⟩
        · rw [hasked]
          refine List.nodup_append.mpr
            ⟨ih.nodup, List.nodup_singleton _, ?_⟩
          intro s hs s' hs' heq
          rw [List.mem_singleton.mp hs'] at heq
          exact hnew (heq ▸ (ih.mem_iff s).mp hs)
        · intro s
          rw [hasked, hreq, List.mem_append, List.mem_singleton,
            Finset.mem_insert, ih.mem_iff, or_comm]
        · intro s
          rw [hreq, hlooked, Finset.mem_insert, ih.looked, or_comm]
          refine or_congr_right ⟨?_, ?_⟩
          · rintro rfl
            exact ⟨rfl, hne, rfl, hcrypto⟩
          · rintro ⟨_, _, hfocus, _⟩
            exact hfocus.symm
      · rw [htake, hempty, List.append_nil, ← askedFor] at hasked
        refine ⟨hasked ▸ ih.nodup, ?_, ?_⟩
        · intro s
          rw [hasked, hreq]
          exact ih.mem_iff s
        · intro s
          rw [hreq, hlooked, ih.looked]
          refine ⟨Or.inl, fun h => h.resolve_right ?_⟩
          rintro ⟨hd, _⟩
          cases hd
      · rw [hnone, List.nil_append, hsame, ← askedFor] at hasked
        refine ⟨hasked ▸ ih.nodup, ?_, ?_⟩
        · intro s
          rw [hasked, hreq]
          exact ih.mem_iff s
        · intro s
          rw [hreq, hlooked]
          refine ⟨fun h => Or.inl ((ih.looked s).mp h), ?_⟩
          rintro (h | ⟨hd, hs, rfl, hcrypto⟩)
          · exact (ih.looked s).mpr h
          · rcases hidle hd with hempty | hstock | hknown
            · exact absurd hempty hs
            · rw [hcrypto] at hstock
              cases hstock
            · exact hknown

/-- **Candles are asked for at most once.**  Whatever the threads of a desk do
in whatever order, the symbols that the feed was handed for backfill, followed
by those that are still pending, are the symbols that were the crypto focus
when the engine looked, and none of them occurs twice. -/
theorem candles_asked_once (ds : List DeskStep) :
    (askedFor symbols capital limits configured ds).Nodup ∧
      ∀ s, s ∈ askedFor symbols capital limits configured ds ↔
        LookedAt symbols capital limits configured ds s :=
  let h := askedOnce_desk symbols capital limits configured ds
  ⟨h.nodup, fun s => (h.mem_iff s).trans (h.looked s)⟩

/-- The products of a request are distinct symbols. -/
theorem historyRequests_distinct (ds : List DeskStep) :
    (desk symbols capital limits configured
        ds).store.historyRequests.Nodup ∧
      "" ∉ (desk symbols capital limits configured
        ds).store.historyRequests := by
  have h := askedOnce_desk symbols capital limits configured ds
  refine ⟨(List.nodup_append.mp h.nodup).2.1, fun hmem => ?_⟩
  have hlooked := (h.looked "").mp
    ((h.mem_iff "").mp (List.mem_append_right _ hmem))
  exact hlooked.1 rfl

end Runs

end TradingEngine

/-! ### From the exchange's candles to the chart -/

section Wire

variable {parse : List UInt8 → Option Json} {dumps : Json → List UInt8}

theorem handleLines_allMsgs
    {ps : List Publication}
    (h : ∀ m ∈ ps.flatMap Publication.msgs, ReadsBack parse dumps m)
    (store : MarketStore) :
    handleLines parse ((ps.flatMap Publication.msgs).map dumps) store =
      (.ok [], (ps.flatMap Publication.received).foldl applyCall
        store) := by
  induction ps generalizing store with
  | nil =>
      rfl
  | cons p ps ih =>
      rw [List.flatMap_cons] at h
      have hp : ∀ m ∈ p.msgs, ReadsBack parse dumps m := fun m hm =>
        h m (List.mem_append_left _ hm)
      have hps := ih fun m hm => h m (List.mem_append_right _ hm)
      rw [List.flatMap_cons, List.map_append, handleLines_append,
        handleLines_msgs hp, nil_andThen, hps, List.flatMap_cons,
        List.foldl_append]

/-- What some publications have written, empty batches included, makes the
calls of all of them. -/
theorem serve_allMsgs
    {ps : List Publication} {chunks : List (List UInt8)}
    (h : ∀ m ∈ ps.flatMap Publication.msgs, ReadsBack parse dumps m)
    (hchunks : chunks.flatten =
      join 10 ((ps.flatMap Publication.msgs).map dumps))
    (store : MarketStore) :
    serve parse [] chunks store =
      (.ok [], (ps.flatMap Publication.received).foldl applyCall
        store) := by
  have hlines : ∀ line ∈ (ps.flatMap Publication.msgs).map dumps,
      10 ∉ line := by
    intro line hline
    obtain ⟨m, hm, rfl⟩ := List.mem_map.mp hline
    exact (h m hm).noNewline
  rw [serve_eq, feed_eq_of_join 10 hlines hchunks]
  exact handleLines_allMsgs h store

end Wire

namespace Coinbase

/-- The requests of a backfill, each with its response. -/
def requestsOf (respond : String → Option (List UInt8))
    (pids : List String) : List (String × Option (List UInt8)) :=
  pids.map fun pid => (pid, respond pid)

/-- The candles that a backfill fetches for a symbol. -/
def candlesFor (py : Python) (respond : String → Option (List UInt8))
    (pids : List String) (sym : String) : List (ℚ × Int) :=
  if sym ∈ pids then (candlesOfBody py (respond sym)).getD [] else []

theorem extended_nil
    {h : List PricePoint} (hcap : h.length ≤ kHistoryCap) :
    extended [] h = h := by
  rw [extended, arrived, List.map_nil, olderPoints, List.filter_nil,
    List.nil_append, rtake_of_length_le hcap]

theorem points_backfillHistory_arrived
    (store : MarketStore) {pid : String} (hpid : pid ≠ "")
    (points : List (ℚ × Int)) {sym : String}
    (hcap : (store.points sym).length ≤ kHistoryCap) :
    (store.backfillHistory pid (arrived points)).points sym =
      if sym = pid then extended points (store.points sym)
      else store.points sym := by
  by_cases hnil : arrived points = []
  · obtain rfl : points = [] := List.map_eq_nil_iff.mp hnil
    rw [backfillHistory_of_nothing store (Or.inr hnil), extended_nil hcap,
      ite_self]
  · rw [points_backfillHistory store hpid hnil]
    split_ifs with hsym
    · rw [hsym, extended]
    · rfl

theorem extended_length (points : List (ℚ × Int)) (h : List PricePoint) :
    (extended points h).length ≤ kHistoryCap := by
  rw [extended, length_rtake]
  exact Nat.min_le_left _ _

theorem candlesFor_cons
    (py : Python) (respond : String → Option (List UInt8))
    (pid : String) (pids : List String) (sym : String) :
    candlesFor py respond (pid :: pids) sym =
      if sym = pid then (candlesOfBody py (respond pid)).getD []
      else candlesFor py respond pids sym := by
  unfold candlesFor
  by_cases hsym : sym = pid
  · rw [hsym, if_pos List.mem_cons_self, if_pos rfl]
  · rw [if_neg hsym]
    simp only [List.mem_cons, hsym, false_or]

/-- Every product is extended by its own candles. -/
theorem points_backfilled
    (py : Python) (respond : String → Option (List UInt8))
    {pids : List String} (hdistinct : pids.Nodup) (hpids : "" ∉ pids)
    {store : MarketStore}
    (hcap : ∀ sym, (store.points sym).length ≤ kHistoryCap)
    (sym : String) :
    ((((requestsOf respond pids).filterMap (candlesOf py)).flatMap
        Publication.received).foldl applyCall store).points sym =
      extended (candlesFor py respond pids sym) (store.points sym) := by
  induction pids generalizing store with
  | nil =>
      rw [candlesFor, if_neg List.not_mem_nil, extended_nil (hcap sym)]
      rfl
  | cons pid pids ih =>
      obtain ⟨hnew, hdistinct⟩ := List.nodup_cons.mp hdistinct
      rw [List.mem_cons, not_or] at hpids
      obtain ⟨hne, hpids⟩ := hpids
      rw [candlesFor_cons]
      change (((((pid, respond pid) ::
        requestsOf respond pids).filterMap (candlesOf py)).flatMap
          Publication.received).foldl applyCall store).points sym = _
      cases hfetch : candlesOfBody py (respond pid) with
      | none =>
          rw [List.filterMap_cons_none (by rw [candlesOf, hfetch]; rfl),
            ih hdistinct hpids hcap]
          split_ifs with hsym
          · rw [hsym, candlesFor, if_neg hnew, Option.getD_none]
          · rfl
      | some points =>
          have hone := fun sym => points_backfillHistory_arrived store
            (Ne.symm hne) points (hcap sym)
          have hcap' : ∀ sym,
              ((store.backfillHistory pid (arrived points)).points
                sym).length ≤ kHistoryCap := by
            intro sym
            rw [hone]
            split_ifs
            · exact extended_length _ _
            · exact hcap sym
          rw [List.filterMap_cons_some (by rw [candlesOf, hfetch]; rfl),
            List.flatMap_cons, List.foldl_append]
          have hrest := ih hdistinct hpids hcap'
          rw [hone] at hrest
          refine hrest.trans ?_
          split_ifs with hsym
          · rw [hsym, candlesFor, if_neg hnew, Option.getD_some,
              extended_nil (extended_length _ _)]
          · rfl

/-- **A backfill extends charts backwards.**  The feed fetches candles for the
symbols it was handed, up to twelve of them; each request fails or brings any
body at all whose closes are finite.  When the terminal has read what was
published, in chunks cut anywhere and whatever happened on the desk meanwhile,
the history of every symbol is what it was, preceded by its candles that have
a positive time and are older, as far as there is room; and a history in order
is still in order, if the times of its candles fit 64 bits. -/
theorem backfilled_charts
    (py : Python) {s : Session} (hs : Steady s) (hfresh : s.net.written = [])
    (symbols : List String) (capital : ℚ) (limits : RiskLimits)
    (configured : Bool) (ds later : List DeskStep) {pids : List String}
    (hasked : pids = (TradingEngine.desk symbols capital limits configured
      ds).store.historyRequests)
    (respond : String → Option (List UInt8))
    (hfinite : ∀ pid ∈ pids.take maxBackfillProducts,
      FiniteCloses py (respond pid)) :
    ∃ s', backfill py (requestsOf respond pids) s = some (.ok (), s') ∧
      ∀ (parse : List UInt8 → Option Json) (dumps : Json → List UInt8)
        (chunks : List (List UInt8)),
        (∀ msg ∈ s'.net.written, ReadsBack parse dumps msg) →
        chunks.flatten = join 10 (s'.net.written.map dumps) →
        ∃ store,
          serve parse [] chunks
              (TradingEngine.desk symbols capital limits configured
                (ds ++ later)).store =
            (.ok [], store) ∧
          ∀ sym points before,
            points = candlesFor py respond
              (pids.take maxBackfillProducts) sym →
            before = (TradingEngine.desk symbols capital limits configured
              (ds ++ later)).store.points sym →
            store.points sym =
                (olderPoints before (arrived points) ++ before).rtake
                  kHistoryCap ∧
              ((∀ p ∈ points, FitsInt64 p.2) → OldestFirst before →
                OldestFirst (store.points sym)) := by
  have hfinite' : ∀ r ∈ (requestsOf respond pids).take maxBackfillProducts,
      FiniteCloses py r.2 := by
    intro r hr
    rw [requestsOf, ← List.map_take] at hr
    obtain ⟨pid, hpid, rfl⟩ := List.mem_map.mp hr
    exact hfinite pid hpid
  obtain ⟨s', hbackfill, hdel⟩ := backfillLoop_of_steady py hfinite' hs
  have hwritten := hdel.written
  rw [hfresh, List.nil_append, requestsOf, ← List.map_take,
    ← requestsOf] at hwritten
  refine ⟨s', hbackfill, ?_⟩
  intro parse dumps chunks hread hchunks
  rw [hwritten] at hread hchunks
  refine ⟨_, serve_allMsgs hread hchunks _, ?_⟩
  obtain ⟨hdistinct, hnamed⟩ := TradingEngine.historyRequests_distinct
    symbols capital limits configured ds
  rw [← hasked] at hdistinct hnamed
  have hcap := fun sym => (TradingEngine.tape_desk symbols capital limits
    configured (ds ++ later) sym).length_le
  have hpoints := points_backfilled py respond
    (hdistinct.sublist (List.take_sublist maxBackfillProducts pids))
    (fun hmem => hnamed (List.mem_of_mem_take hmem)) hcap
  intro sym points before hcandles hbefore
  rw [hpoints sym, hcandles, hbefore]
  refine ⟨rfl, fun hfits hsorted => oldestFirst_backfill hsorted ?_⟩
  refine arrived_oldestFirst ?_ hfits
  unfold candlesFor
  split_ifs with hmem
  · cases hfetch : candlesOfBody py (respond sym) with
    | none =>
        exact List.Pairwise.nil
    | some out =>
        exact candlesOfBody_sorted hfetch
  · exact List.Pairwise.nil

/-- Candles at 120 s and 60 s, and a row that is too short. -/
def candleRows : PyValue :=
  .list
    [.list [.int 120, .int 1, .int 3, .int 1, .int 2, .int 7],
      .list [.int 90],
      .list [.int 60, .int 1, .int 1, .int 1, .int 1, .int 7]]

/-- Only one text parses, and it is the candles. -/
def pythonCandles : Python where
  loads := fun raw => if raw = [5] then some candleRows else none
  float := number
  int := integer
  fromisoformat := fun _ => none

theorem finiteCloses_pythonCandles :
    FiniteCloses pythonCandles (some [5]) := by
  intro points hpoints
  have hfetch : fetchCandles pythonCandles [5] =
      some [(.finite 1, 60000000000), (.finite 2, 120000000000)] := by
    decide +kernel
  obtain rfl := Option.some.inj (hfetch.symm.trans hpoints)
  decide

/-- `{"m":"history","sym":"BTC-USD",
"rows":[[1.0,60000000000],[2.0,120000000000]]}` -/
def historyText : List UInt8 :=
  [123, 34, 109, 34, 58, 34, 104, 105, 115, 116, 111, 114, 121, 34,
    44, 34, 115, 121, 109, 34, 58, 34, 66, 84, 67, 45, 85, 83, 68, 34,
    44, 34, 114, 111, 119, 115, 34, 58, 91, 91, 49, 46, 48, 44, 54,
    48, 48, 48, 48, 48, 48, 48, 48, 48, 48, 93, 44, 91, 50, 46, 48,
    44, 49, 50, 48, 48, 48, 48, 48, 48, 48, 48, 48, 48, 93, 93, 125]

def candlesMsg : Json :=
  FeedPublisher.historyMsg "BTC-USD"
    [(1, 60000000000), (2, 120000000000)]

/-- A trade at 90 s comes in while the candles are fetched: the older candle
is put in front of it. -/
theorem backfilled_charts_btc :
    ∃ store,
      serve (fun _ => some candlesMsg) [] [historyText ++ [10]]
          (TradingEngine.desk ["BTC-USD"] 100 {} false
            ([.lookAtFocus] ++
              [.store (.onTrade "BTC-USD" 3 90000000000)])).store =
        (.ok [], store) ∧
      store.points "BTC-USD" =
        [{ tsNs := 60000000000, price := 1 },
          { tsNs := 90000000000, price := 3 }] := by
  obtain ⟨s', hbackfill, hserve⟩ := backfilled_charts pythonCandles
    (s := { pub := { attached := true } }) ⟨rfl, by simp⟩ rfl ["BTC-USD"]
    100 {} false [.lookAtFocus]
    [.store (.onTrade "BTC-USD" 3 90000000000)]
    (show ["BTC-USD"] = (TradingEngine.desk ["BTC-USD"] 100 {} false
      [.lookAtFocus]).store.historyRequests by decide +kernel)
    (fun _ => some [5]) fun _ _ => finiteCloses_pythonCandles
  have hwritten : s'.net.written = [candlesMsg] := by
    rw [← (Prod.mk.inj (Option.some.inj hbackfill)).2]
    rfl
  obtain ⟨store, hread, hpoints⟩ := hserve (fun _ => some candlesMsg)
    (fun _ => historyText) [historyText ++ [10]]
    (by
      intro msg hmsg
      rw [hwritten] at hmsg
      rw [List.mem_singleton.mp hmsg]
      exact ⟨by decide, by decide, _, rfl, .refl _⟩)
    (by rw [hwritten]; decide)
  refine ⟨store, hread, ?_⟩
  rw [(hpoints "BTC-USD" _ _ rfl rfl).1]
  decide +kernel

end Coinbase

end ExecutionLayer
