import ExecutionLayer.FeedServer
import ExecutionLayer.Library.StepSystem
import ExecutionLayer.Library.Window

/-!
# Chart history

The price history of a symbol is a bounded list with two writers: the live
tape appends, and a backfill puts what is older than the oldest point in
front; both trim from the front.

`Tape` says what a run of store calls leaves of a symbol: some backfilled
points, and behind them the last trades in the order of their arrival,
whatever the backfills did (`history_of_calls`).

The history is read as "oldest first".  The backfill path compares time
stamps and keeps that order; the live path appends without looking
(`sorted_onTrade_iff`).
-/

namespace ExecutionLayer

open FeedServer FiniteMap StepSystem Window

namespace MarketStore

/-- The retained points of a symbol. -/
def points (store : MarketStore) (symbol : String) : List PricePoint :=
  lookupD store.histories symbol []

theorem trimHistory_eq (h : List PricePoint) :
    trimHistory h = h.rtake kHistoryCap := by
  rfl

/-! ### One call -/

/-- A trade that the store takes. -/
def Accepts (symbol : String) (price : ℚ) : Prop :=
  symbol ≠ "" ∧ 0 < price

instance (symbol : String) (price : ℚ) : Decidable (Accepts symbol price) := by
  unfold Accepts
  infer_instance

theorem points_onTrade
    (store : MarketStore) {symbol : String} {price : ℚ}
    (h : Accepts symbol price) (tsNs : Int) (s : String) :
    (store.onTrade symbol price tsNs).points s =
      if s = symbol then
        List.rtake
          (store.points symbol ++ [{ tsNs := tsNs, price := price }])
          kHistoryCap
      else store.points s := by
  have hno : ¬ (symbol = "" ∨ ¬ 0 < price) := by
    rintro (hs | hp)
    · exact h.1 hs
    · exact hp h.2
  rw [onTrade, if_neg hno]
  simp only [points, trimHistory_eq]
  split_ifs with hs
  · rw [hs, lookupD_insert_self]
  · rw [lookupD_insert_of_ne _ _ _ hs]

theorem onTrade_of_not_accepts
    (store : MarketStore) {symbol : String} {price : ℚ}
    (h : ¬ Accepts symbol price) (tsNs : Int) :
    store.onTrade symbol price tsNs = store := by
  have hyes : symbol = "" ∨ ¬ 0 < price := by
    by_cases hs : symbol = ""
    · exact Or.inl hs
    · exact Or.inr fun hp => h ⟨hs, hp⟩
  rw [onTrade, if_pos hyes]

/-- The points of a batch that a backfill takes. -/
def olderPoints (h points : List PricePoint) : List PricePoint :=
  points.filter fun p => 0 < p.price ∧ 0 < p.tsNs ∧ p.tsNs < oldestTsNs h

theorem backfillHistory_eq
    (store : MarketStore) {symbol : String} {points : List PricePoint}
    (hsymbol : symbol ≠ "") (hpoints : points ≠ []) :
    store.backfillHistory symbol points =
      { store with
        histories := store.histories.insert symbol
          ((olderPoints (store.points symbol) points ++
            store.points symbol).rtake kHistoryCap) } := by
  have hno : ¬ (symbol = "" ∨ points = []) := by
    rintro (hs | hp)
    · exact hsymbol hs
    · exact hpoints hp
  rw [backfillHistory, if_neg hno]
  rfl

theorem points_backfillHistory
    (store : MarketStore) {symbol : String} {points : List PricePoint}
    (hsymbol : symbol ≠ "") (hpoints : points ≠ []) (s : String) :
    (store.backfillHistory symbol points).points s =
      if s = symbol then
        (olderPoints (store.points symbol) points ++
          store.points symbol).rtake kHistoryCap
      else store.points s := by
  rw [backfillHistory_eq store hsymbol hpoints]
  split_ifs with hs
  · rw [hs, MarketStore.points, lookupD_insert_self]
  · rw [MarketStore.points, lookupD_insert_of_ne _ _ _ hs]
    rfl

theorem backfillHistory_of_nothing
    (store : MarketStore) {symbol : String} {points : List PricePoint}
    (h : symbol = "" ∨ points = []) :
    store.backfillHistory symbol points = store := by
  rw [backfillHistory, if_pos h]

theorem points_onQuote
    (store : MarketStore) (q : Quote) (s : String) :
    (store.onQuote q).points s = store.points s := by
  rw [onQuote]
  split_ifs <;> rfl

/-- A read of the last points. -/
theorem history_eq (store : MarketStore) (symbol : String) (n : Int) :
    store.history symbol n = (store.points symbol).rtake n.toNat := by
  unfold history points lookupD
  cases store.histories.lookup symbol with
  | none =>
      simp
  | some h =>
      simp only [Option.getD_some]
      split_ifs with hn
      · rw [Int.toNat_of_nonpos hn, List.rtake_zero]
      · rw [List.rtake]
        congr 1
        omega

/-! ### The tape of a run -/

/-- The point of a trade of `s` that is accepted. -/
def acceptedPoint (s : String) : StoreCall → Option PricePoint
  | .onTrade symbol price tsNs =>
      if symbol = s ∧ Accepts symbol price then
        some { tsNs := tsNs, price := price }
      else none
  | _ => none

/-- The accepted trades of `s`, in the order of their arrival. -/
def tape (calls : List StoreCall) (s : String) : List PricePoint :=
  calls.filterMap (acceptedPoint s)

/-- The point stands in a batch that was backfilled for `s`. -/
def Backfilled (calls : List StoreCall) (s : String) (p : PricePoint) :
    Prop :=
  ∃ points, .backfillHistory s points ∈ calls ∧ p ∈ points

/-- What is retained of a symbol after some calls. -/
structure Tape (calls : List StoreCall) (s : String)
    (h : List PricePoint) : Prop where
  length_le : h.length ≤ kHistoryCap
  split : ∃ front, h = front ++ (tape calls s).rtake kHistoryCap ∧
    ∀ p ∈ front, Backfilled calls s p

theorem Backfilled.append
    {calls : List StoreCall} {s : String} {p : PricePoint}
    (h : Backfilled calls s p) (c : StoreCall) :
    Backfilled (calls ++ [c]) s p := by
  obtain ⟨points, hmem, hp⟩ := h
  exact ⟨points, List.mem_append_left _ hmem, hp⟩

theorem tape_append (calls : List StoreCall) (c : StoreCall) (s : String) :
    tape (calls ++ [c]) s = tape calls s ++ (acceptedPoint s c).toList := by
  rw [tape, List.filterMap_append]
  cases h : acceptedPoint s c with
  | none =>
      rw [List.filterMap_cons_none h]
      rfl
  | some p =>
      rw [List.filterMap_cons_some h]
      rfl

/-- Another call, which neither takes a trade of `s` nor changes what is
retained. -/
theorem Tape.keep
    {calls : List StoreCall} {s : String} {h : List PricePoint}
    (ht : Tape calls s h) {c : StoreCall}
    (hc : acceptedPoint s c = none) :
    Tape (calls ++ [c]) s h := by
  obtain ⟨front, heq, hfront⟩ := ht.split
  refine ⟨ht.length_le, front, ?_, fun p hp => (hfront p hp).append c⟩
  rw [tape_append, hc]
  simpa using heq

/-- A trade goes behind all that is retained. -/
theorem Tape.trade
    {calls : List StoreCall} {s : String} {h : List PricePoint}
    (ht : Tape calls s h) {c : StoreCall} {p : PricePoint}
    (hc : acceptedPoint s c = some p) :
    Tape (calls ++ [c]) s ((h ++ [p]).rtake kHistoryCap) := by
  obtain ⟨front, rfl, hfront⟩ := ht.split
  refine ⟨?_, ?_⟩
  · rw [length_rtake]
    exact Nat.min_le_left _ _
  · rw [List.append_assoc, rtake_append, rtake_rtake_append, tape_append,
      hc]
    refine ⟨_, rfl, ?_⟩
    intro q hq
    exact (hfront q ((rtake_suffix _ _).subset hq)).append c

/-- A backfill goes in front, and what does not fit goes first. -/
theorem Tape.backfill
    {calls : List StoreCall} {s : String} {h : List PricePoint}
    (ht : Tape calls s h) (points : List PricePoint) :
    Tape (calls ++ [.backfillHistory s points]) s
      ((olderPoints h points ++ h).rtake kHistoryCap) := by
  obtain ⟨front, heq, hfront⟩ := ht.split
  refine ⟨?_, ?_⟩
  · rw [length_rtake]
    exact Nat.min_le_left _ _
  · have hnone : acceptedPoint s (.backfillHistory s points) = none := rfl
    have hsplit : olderPoints h points ++ h =
        (olderPoints h points ++ front) ++
          (tape calls s).rtake kHistoryCap := by
      rw [List.append_assoc, ← heq]
    rw [hsplit, rtake_append, rtake_rtake, Nat.min_self, tape_append,
      hnone, Option.toList_none, List.append_nil]
    refine ⟨_, rfl, ?_⟩
    intro q hq
    rcases List.mem_append.mp ((rtake_suffix _ _).subset hq) with hq | hq
    · exact ⟨points, by simp, (List.mem_filter.mp hq).1⟩
    · exact (hfront q hq).append _

/-- Every call keeps the tape of every symbol. -/
theorem Tape.step
    {calls : List StoreCall} {store : MarketStore} {s : String}
    (ht : Tape calls s (store.points s)) (c : StoreCall) :
    Tape (calls ++ [c]) s ((applyCall store c).points s) := by
  cases c with
  | onTrade symbol price tsNs =>
      by_cases hacc : Accepts symbol price
      · rw [applyCall, points_onTrade store hacc]
        split_ifs with hs
        · subst hs
          exact ht.trade (by simp [acceptedPoint, hacc])
        · exact ht.keep (by simp [acceptedPoint, Ne.symm hs])
      · rw [applyCall, onTrade_of_not_accepts store hacc]
        exact ht.keep (by simp [acceptedPoint, hacc])
  | backfillHistory symbol points =>
      by_cases hnot : symbol = "" ∨ points = []
      · rw [applyCall, backfillHistory_of_nothing store hnot]
        exact ht.keep rfl
      · obtain ⟨hsymbol, hpoints⟩ := not_or.mp hnot
        rw [applyCall, points_backfillHistory store hsymbol hpoints]
        split_ifs with hs
        · subst hs
          exact ht.backfill points
        · exact ht.keep rfl
  | onQuote q =>
      rw [applyCall, points_onQuote]
      exact ht.keep rfl
  | _ =>
      exact ht.keep rfl

/-- The retained points after any calls on an empty store. -/
theorem tape_of_calls (calls : List StoreCall) (s : String) :
    Tape calls s ((calls.foldl applyCall {}).points s) := by
  induction calls using List.reverseRecOn with
  | nil =>
      exact ⟨by simp [points, lookupD], [], by simp [tape, points, lookupD],
        by simp⟩
  | append_singleton calls c ih =>
      rw [List.foldl_append]
      exact ih.step c

/-! ### A batch that comes twice -/

/-- In non-decreasing order of the time stamps. -/
def OldestFirst (h : List PricePoint) : Prop :=
  h.Pairwise fun p q => p.tsNs ≤ q.tsNs

instance (h : List PricePoint) : Decidable (OldestFirst h) := by
  unfold OldestFirst
  infer_instance

theorem oldestTsNs_le
    {h : List PricePoint} (hsorted : OldestFirst h) {p : PricePoint}
    (hp : p ∈ h) :
    oldestTsNs h ≤ p.tsNs := by
  cases h with
  | nil =>
      cases hp
  | cons q h =>
      rcases List.mem_cons.mp hp with rfl | hp
      · exact le_rfl
      · exact List.rel_of_pairwise_cons hsorted hp

theorem mem_olderPoints
    {h points : List PricePoint} {p : PricePoint} :
    p ∈ olderPoints h points ↔
      p ∈ points ∧ 0 < p.price ∧ 0 < p.tsNs ∧ p.tsNs < oldestTsNs h := by
  simp [olderPoints]

/-- After a batch in order has been put in front, none of it is older than
what is retained. -/
theorem olderPoints_again
    {h points : List PricePoint} (hsorted : OldestFirst points)
    (hne : olderPoints h points ≠ []) :
    olderPoints (olderPoints h points ++ h) points = [] := by
  rw [List.eq_nil_iff_forall_not_mem]
  intro q hq
  obtain ⟨hmem, hprice, hpos, hlt⟩ := mem_olderPoints.mp hq
  cases holder : olderPoints h points with
  | nil =>
      exact hne holder
  | cons p rest =>
      rw [holder] at hlt
      have hp : p ∈ olderPoints h points := by
        rw [holder]
        exact List.mem_cons_self
      have hplt := (mem_olderPoints.mp hp).2.2.2
      have hqp : q.tsNs < p.tsNs := hlt
      have hqmem : q ∈ olderPoints h points :=
        mem_olderPoints.mpr ⟨hmem, hprice, hpos, hqp.trans hplt⟩
      have hle := oldestTsNs_le (hsorted.filter _) hqmem
      have hfront : oldestTsNs (olderPoints h points) = p.tsNs := by
        rw [holder]
        rfl
      rw [olderPoints] at hfront
      omega

/-- The second time a batch changes nothing: either none of it is older now,
or there is no room for it. -/
theorem rtake_olderPoints_again
    {h points : List PricePoint} (hlen : h.length ≤ kHistoryCap)
    (hsorted : OldestFirst points) :
    List.rtake
        (olderPoints ((olderPoints h points ++ h).rtake kHistoryCap)
            points ++
          (olderPoints h points ++ h).rtake kHistoryCap) kHistoryCap =
      (olderPoints h points ++ h).rtake kHistoryCap := by
  by_cases hfull :
      kHistoryCap ≤ (olderPoints h points ++ h).length
  · refine rtake_append_of_full _ ?_
    rw [length_rtake, Nat.min_eq_left hfull]
  · have hroom := rtake_of_length_le (not_le.mp hfull).le
    rw [hroom]
    by_cases hnil : olderPoints h points = []
    · rw [hnil, List.nil_append, hnil, List.nil_append,
        rtake_of_length_le hlen]
    · rw [olderPoints_again hsorted hnil, List.nil_append, hroom]

theorem backfillHistory_twice
    {store : MarketStore} {s : String} {points : List PricePoint}
    (hlen : (store.points s).length ≤ kHistoryCap)
    (hsorted : OldestFirst points) :
    (store.backfillHistory s points).backfillHistory s points =
      store.backfillHistory s points := by
  by_cases hnot : s = "" ∨ points = []
  · rw [backfillHistory_of_nothing store hnot,
      backfillHistory_of_nothing store hnot]
  · obtain ⟨hs, hpoints⟩ := not_or.mp hnot
    have hfirst := points_backfillHistory store hs hpoints s
    rw [if_pos rfl] at hfirst
    rw [backfillHistory_eq (store.backfillHistory s points) hs hpoints,
      hfirst, rtake_olderPoints_again hlen hsorted,
      backfillHistory_eq store hs hpoints]
    simp only [Finmap.insert_insert]

/-- **A backfill never costs live tape.**  After any calls on an empty store,
at most `kHistoryCap` points are retained of a symbol: behind some backfilled
points stand the last of its accepted trades, in the order of their arrival;
reads return the last of the retained points; and a batch in order that comes
twice in a row changes nothing the second time. -/
theorem backfill_never_costs_tape (calls : List StoreCall) (s : String) :
    ((calls.foldl applyCall {}).points s).length ≤ kHistoryCap ∧
      (∃ front,
        (calls.foldl applyCall {}).points s =
            front ++ (tape calls s).rtake kHistoryCap ∧
          ∀ p ∈ front, Backfilled calls s p) ∧
      (∀ n, (calls.foldl applyCall {}).history s n =
        ((calls.foldl applyCall {}).points s).rtake n.toNat) ∧
      ∀ points, OldestFirst points →
        ((calls.foldl applyCall {}).backfillHistory s
            points).backfillHistory s points =
          (calls.foldl applyCall {}).backfillHistory s points := by
  have htape := tape_of_calls calls s
  refine ⟨htape.length_le, htape.split, history_eq _ s, ?_⟩
  intro points hsorted
  exact backfillHistory_twice htape.length_le hsorted

/-- A candle and a trade, then the batch of candles comes again, twice. -/
theorem backfill_never_costs_tape_overlap :
    (MarketStore.backfillHistory
        (MarketStore.backfillHistory
          ([StoreCall.backfillHistory "X" [⟨5, 1⟩], .onTrade "X" 2 9].foldl
            applyCall {})
          "X" [⟨3, 1⟩, ⟨5, 1⟩]) "X" [⟨3, 1⟩, ⟨5, 1⟩]) =
      MarketStore.backfillHistory
        ([StoreCall.backfillHistory "X" [⟨5, 1⟩], .onTrade "X" 2 9].foldl
          applyCall {})
        "X" [⟨3, 1⟩, ⟨5, 1⟩] :=
  (backfill_never_costs_tape _ "X").2.2.2 _ (by decide)

/-! ### Oldest first -/

theorem OldestFirst.rtake
    {h : List PricePoint} (hsorted : OldestFirst h) (n : Nat) :
    OldestFirst (h.rtake n) :=
  hsorted.sublist (rtake_suffix n h).sublist

/-- In a list in order, no point is newer than the last one. -/
theorem OldestFirst.le_last
    {h : List PricePoint} (hsorted : OldestFirst h) {p q : PricePoint}
    (hp : p ∈ h) (hq : h.getLast? = some q) :
    p.tsNs ≤ q.tsNs := by
  obtain ⟨init, rfl⟩ := List.getLast?_eq_some_iff.mp hq
  rcases List.mem_append.mp hp with hp | hp
  · exact (List.pairwise_append.mp hsorted).2.2 p hp q (by simp)
  · rw [List.mem_singleton.mp hp]

/-- The live path keeps the order exactly when the trade is not older than
the newest retained point. -/
theorem oldestFirst_trade_iff
    {h : List PricePoint} (hsorted : OldestFirst h) (p : PricePoint) :
    OldestFirst ((h ++ [p]).rtake kHistoryCap) ↔
      ∀ q ∈ h.getLast?, q.tsNs ≤ p.tsNs := by
  constructor
  · intro hafter q hq
    obtain ⟨front, heq⟩ :=
      rtake_concat_of_lt (n := kHistoryCap) (by decide) hq p
    rw [heq] at hafter
    have hpair := (List.pairwise_append.mp hafter).2.1
    exact List.rel_of_pairwise_cons hpair List.mem_cons_self
  · intro hlast
    refine OldestFirst.rtake ?_ _
    refine List.pairwise_append.mpr
      ⟨hsorted, List.pairwise_singleton _ _, ?_⟩
    intro a ha b hb
    rw [List.mem_singleton.mp hb]
    cases hq : h.getLast? with
    | none =>
        rw [List.getLast?_eq_none_iff] at hq
        rw [hq] at ha
        cases ha
    | some q =>
        exact (hsorted.le_last ha hq).trans (hlast q hq)

/-- The backfill path keeps the order of a batch in order. -/
theorem oldestFirst_backfill
    {h points : List PricePoint} (hsorted : OldestFirst h)
    (hpoints : OldestFirst points) :
    OldestFirst ((olderPoints h points ++ h).rtake kHistoryCap) := by
  refine OldestFirst.rtake ?_ _
  refine List.pairwise_append.mpr ⟨hpoints.filter _, hsorted, ?_⟩
  intro a ha b hb
  have hlt := (mem_olderPoints.mp ha).2.2.2
  exact hlt.le.trans (oldestTsNs_le hsorted hb)

/-- Every history is in order. -/
def AllOldestFirst (store : MarketStore) : Prop :=
  ∀ s, OldestFirst (store.points s)

/-- A trade that the store takes is not older than the newest retained point
of its symbol. -/
def InOrder (store : MarketStore) : StoreCall → Prop
  | .onTrade symbol price tsNs =>
      Accepts symbol price →
        ∀ q ∈ (store.points symbol).getLast?, q.tsNs ≤ tsNs
  | _ => True

/-- A batch comes in order. -/
def SortedBatch : StoreCall → Prop
  | .backfillHistory _ points => OldestFirst points
  | _ => True

/-- One call keeps all histories in order exactly when it is in order. -/
theorem allOldestFirst_applyCall_iff
    {store : MarketStore} (h : store.AllOldestFirst) {c : StoreCall}
    (hbatch : SortedBatch c) :
    (applyCall store c).AllOldestFirst ↔ store.InOrder c := by
  cases c with
  | onTrade symbol price tsNs =>
      by_cases hacc : Accepts symbol price
      · have hone := oldestFirst_trade_iff (h symbol)
          { tsNs := tsNs, price := price }
        have hpoints := points_onTrade store hacc tsNs
        rw [applyCall]
        constructor
        · intro hafter _
          have hs := hafter symbol
          rw [hpoints, if_pos rfl] at hs
          exact hone.mp hs
        · intro hin s
          rw [hpoints]
          split_ifs with hs
          · exact hone.mpr (hin hacc)
          · exact h s
      · rw [applyCall, onTrade_of_not_accepts store hacc]
        exact ⟨fun _ hyes => absurd hyes hacc, fun _ => h⟩
  | backfillHistory symbol points =>
      refine ⟨fun _ => trivial, fun _ => ?_⟩
      by_cases hnot : symbol = "" ∨ points = []
      · rw [applyCall, backfillHistory_of_nothing store hnot]
        exact h
      · obtain ⟨hsymbol, hpoints⟩ := not_or.mp hnot
        intro s
        rw [applyCall, points_backfillHistory store hsymbol hpoints]
        split_ifs with hs
        · exact oldestFirst_backfill (h symbol) hbatch
        · exact h s
  | onQuote q =>
      refine ⟨fun _ => trivial, fun _ s => ?_⟩
      rw [applyCall, points_onQuote]
      exact h s
  | _ =>
      exact ⟨fun _ => trivial, fun _ => h⟩

end MarketStore

end ExecutionLayer
