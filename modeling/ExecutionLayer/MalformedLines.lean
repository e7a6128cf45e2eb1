import ExecutionLayer.FeedServer

/-!
# Malformed lines

The comment in front of `handle_line` says that a malformed batch must never
take the terminal down.  The guards in front of the typed accessors check
that a row is long enough, but not what its cells are, and the `"m"` and
`"sym"` members are read with an accessor that throws on anything but a
string.  An exception that escapes ends the feed thread's process.

`Accessible` says that no accessor meets a value of another kind.  On exactly
these messages a call returns and has the intended effect
(`handle_line_iff`), the `send` of a reply being taken to return.
-/

namespace ExecutionLayer

open FiniteMap JsonLib JsonLib.Json

namespace FeedServer

/-! ### Rows that the accessors can read -/

/-- A row that is long enough has cells of the kinds that are read. -/
def TypedRow (kinds : List Kind) (v : Json) : Prop :=
  ∀ cells, v = .array cells →
    kinds.length ≤ cells.length → Fits kinds cells

def TypedRows (kinds : List Kind) (rows : List Json) : Prop :=
  ∀ v ∈ rows, TypedRow kinds v

/-- The decoder reads exactly the rows that fit, as `row` reads them. -/
structure DecodesAs {β : Type} (kinds : List Kind)
    (decode : List Json → Except TypeError β) (row : Json → Option β) :
    Prop where
  short : ∀ cells, cells.length < kinds.length → row (.array cells) = none
  other : ∀ v, (∀ cells, v ≠ .array cells) → row v = none
  fits : ∀ cells, kinds.length ≤ cells.length → Fits kinds cells →
    ∃ b, decode cells = .ok b ∧ row (.array cells) = some b
  unfit : ∀ cells, kinds.length ≤ cells.length → ¬ Fits kinds cells →
    ∃ e, decode cells = .error e

section Rows

variable {σ β : Type} {kinds : List Kind}
variable {decode : List Json → Except TypeError β}
variable {row : Json → Option β}

/-- One row: what is well formed is applied and the rest is skipped, or an
exception ends the loop. -/
theorem forRows_row
    (h : DecodesAs kinds decode row) (act : σ → β → σ)
    (v : Json) (rows : List Json) (st : σ) :
    (TypedRow kinds v ∧
        forRows kinds.length decode act (v :: rows) st =
          forRows kinds.length decode act rows
            ((row v).elim st (act st))) ∨
      (¬ TypedRow kinds v ∧
        ∃ e, forRows kinds.length decode act (v :: rows) st =
          (.error e, st)) := by
  cases v with
  | array cells =>
      by_cases hlen : cells.length < kinds.length
      · left
        refine ⟨?_, by simp [forRows, hlen, h.short cells hlen]⟩
        intro cells' heq hlen'
        obtain rfl := Json.array.inj heq
        omega
      · have hlen := not_lt.mp hlen
        by_cases hfits : Fits kinds cells
        · left
          obtain ⟨b, hb, hrow⟩ := h.fits cells hlen hfits
          refine ⟨?_, by simp [forRows, hlen.not_gt, hb, hrow]⟩
          intro cells' heq _
          obtain rfl := Json.array.inj heq
          exact hfits
        · right
          obtain ⟨e, he⟩ := h.unfit cells hlen hfits
          refine ⟨?_, e, by simp [forRows, hlen.not_gt, he]⟩
          intro ht
          exact hfits (ht cells rfl hlen)
  | _ =>
      left
      refine ⟨?_, ?_⟩
      · intro cells heq
        cases heq
      · rw [h.other _ (fun cells heq => by cases heq)]
        rfl

/-- The loop either applies the well-formed rows in order, or a row that is
long enough does not fit and an exception ends the loop. -/
theorem forRows_cases
    (h : DecodesAs kinds decode row) (act : σ → β → σ)
    (rows : List Json) (st : σ) :
    (TypedRows kinds rows ∧
        forRows kinds.length decode act rows st =
          (.ok (), (rows.filterMap row).foldl act st)) ∨
      (¬ TypedRows kinds rows ∧
        ∃ e st', forRows kinds.length decode act rows st =
          (.error e, st')) := by
  induction rows generalizing st with
  | nil =>
      exact Or.inl ⟨by simp [TypedRows], rfl⟩
  | cons v rows ih =>
      have hcons : TypedRows kinds (v :: rows) ↔
          TypedRow kinds v ∧ TypedRows kinds rows :=
        List.forall_mem_cons
      rw [hcons]
      rcases forRows_row h act v rows st with ⟨hv, heq⟩ | ⟨hv, e, heq⟩
      · rw [heq]
        rcases ih ((row v).elim st (act st)) with
          ⟨hrows, hrest⟩ | ⟨hrows, hrest⟩
        · left
          refine ⟨⟨hv, hrows⟩, ?_⟩
          rw [hrest]
          cases hrow : row v with
          | none =>
              simp [List.filterMap_cons_none hrow]
          | some b =>
              simp [List.filterMap_cons_some hrow]
        · exact Or.inr ⟨fun hall => hrows hall.2, hrest⟩
      · exact Or.inr ⟨fun hall => hv hall.1, e, st, heq⟩

end Rows

/-! ### The three kinds of rows -/

def quoteKinds : List Kind :=
  [.string, .number, .number, .number, .number, .number]

def tradeKinds : List Kind :=
  [.string, .number, .number]

def pointKinds : List Kind :=
  [.number, .number]

/-- A computation that does not succeed throws. -/
theorem exists_error
    {β : Type} {x : Except TypeError β} (h : ¬ ∃ b, x = .ok b) :
    ∃ e, x = .error e := by
  cases x with
  | error e =>
      exact ⟨e, rfl⟩
  | ok b =>
      exact absurd ⟨b, rfl⟩ h

theorem exists_cons
    {α : Type} {n : Nat} {xs : List α} (h : n + 1 ≤ xs.length) :
    ∃ x t, xs = x :: t ∧ n ≤ t.length := by
  cases xs with
  | nil =>
      simp at h
  | cons x t =>
      exact ⟨x, t, rfl, by simpa using h⟩

theorem exists_three
    {α : Type} {n : Nat} {xs : List α} (h : n + 3 ≤ xs.length) :
    ∃ x y z t, xs = x :: y :: z :: t ∧ n ≤ t.length := by
  obtain ⟨x, xs, rfl, h1⟩ := exists_cons h
  obtain ⟨y, xs, rfl, h2⟩ := exists_cons h1
  obtain ⟨z, xs, rfl, h3⟩ := exists_cons h2
  exact ⟨x, y, z, xs, rfl, h3⟩

theorem decodes_quotes : DecodesAs quoteKinds quoteOf quoteRow where
  short := by
    intro cells hlen
    unfold quoteRow
    split
    · rename_i heq
      cases heq
      simp only [quoteKinds, List.length_cons, List.length_nil] at hlen
      omega
    · rfl
  other := by
    intro v h
    cases v with
    | array cells =>
        exact absurd rfl (h cells)
    | _ =>
        rfl
  fits := by
    intro cells hlen hfits
    obtain ⟨a, b, c, cells, rfl, hlater⟩ := exists_three hlen
    obtain ⟨d, e, f, cells, rfl, _⟩ := exists_three hlater
    obtain ⟨ha, hb, hc, hd, he, hf, _⟩ := hfits
    obtain ⟨symbol, rfl⟩ := exists_getString ha
    obtain ⟨bid, hbid, hbid'⟩ := exists_getDouble hb
    obtain ⟨ask, hask, hask'⟩ := exists_getDouble hc
    obtain ⟨bsize, hbsize, hbsize'⟩ := exists_getDouble hd
    obtain ⟨asize, hasize, hasize'⟩ := exists_getDouble he
    obtain ⟨tsNs, hts, hts'⟩ := exists_getInt64 hf
    refine ⟨{ symbol, bid, ask, bsize, asize, tsNs }, ?_, ?_⟩
    · simp only [quoteOf, List.getD_cons_zero, List.getD_cons_succ,
        getString, hbid, hask, hbsize, hasize, hts]
      rfl
    · simp [quoteRow, hbid', hask', hbsize', hasize', hts']
  unfit := by
    intro cells hlen hfits
    apply exists_error
    intro hok
    apply hfits
    obtain ⟨a, b, c, cells, rfl, hlater⟩ := exists_three hlen
    obtain ⟨d, e, f, cells, rfl, _⟩ := exists_three hlater
    exact (bind_ok_iff (getString_ok_iff a) fun _ =>
      bind_ok_iff (getDouble_ok_iff b) fun _ =>
      bind_ok_iff (getDouble_ok_iff c) fun _ =>
      bind_ok_iff (getDouble_ok_iff d) fun _ =>
      bind_ok_iff (getDouble_ok_iff e) fun _ =>
      bind_ok_iff (getInt64_ok_iff f) fun _ =>
        ⟨fun _ => trivial, fun _ => ⟨_, rfl⟩⟩).mp hok

theorem decodes_trades : DecodesAs tradeKinds tradeOf tradeRow where
  short := by
    intro cells hlen
    unfold tradeRow
    split
    · rename_i heq
      cases heq
      simp only [tradeKinds, List.length_cons, List.length_nil] at hlen
      omega
    · rfl
  other := by
    intro v h
    cases v with
    | array cells =>
        exact absurd rfl (h cells)
    | _ =>
        rfl
  fits := by
    intro cells hlen hfits
    obtain ⟨a, b, c, cells, rfl, _⟩ := exists_three hlen
    obtain ⟨ha, hb, hc, _⟩ := hfits
    obtain ⟨symbol, rfl⟩ := exists_getString ha
    obtain ⟨price, hprice, hprice'⟩ := exists_getDouble hb
    obtain ⟨tsNs, hts, hts'⟩ := exists_getInt64 hc
    refine ⟨(symbol, price, tsNs), ?_, ?_⟩
    · simp only [tradeOf, List.getD_cons_zero, List.getD_cons_succ,
        getString, hprice, hts]
      rfl
    · simp [tradeRow, hprice', hts']
  unfit := by
    intro cells hlen hfits
    apply exists_error
    intro hok
    apply hfits
    obtain ⟨a, b, c, cells, rfl, _⟩ := exists_three hlen
    exact (bind_ok_iff (getString_ok_iff a) fun _ =>
      bind_ok_iff (getDouble_ok_iff b) fun _ =>
      bind_ok_iff (getInt64_ok_iff c) fun _ =>
        ⟨fun _ => trivial, fun _ => ⟨_, rfl⟩⟩).mp hok

theorem decodes_points : DecodesAs pointKinds pointOf pointRow where
  short := by
    intro cells hlen
    unfold pointRow
    split
    · rename_i heq
      cases heq
      simp only [pointKinds, List.length_cons, List.length_nil] at hlen
      omega
    · rfl
  other := by
    intro v h
    cases v with
    | array cells =>
        exact absurd rfl (h cells)
    | _ =>
        rfl
  fits := by
    intro cells hlen hfits
    obtain ⟨a, cells, rfl, h1⟩ := exists_cons hlen
    obtain ⟨b, cells, rfl, h2⟩ := exists_cons h1
    obtain ⟨ha, hb, _⟩ := hfits
    obtain ⟨price, hprice, hprice'⟩ := exists_getDouble ha
    obtain ⟨tsNs, hts, hts'⟩ := exists_getInt64 hb
    refine ⟨{ tsNs, price }, ?_, ?_⟩
    · simp only [pointOf, List.getD_cons_zero, List.getD_cons_succ,
        hprice, hts]
      rfl
    · simp [pointRow, hprice', hts']
  unfit := by
    intro cells hlen hfits
    apply exists_error
    intro hok
    apply hfits
    obtain ⟨a, cells, rfl, h1⟩ := exists_cons hlen
    obtain ⟨b, cells, rfl, h2⟩ := exists_cons h1
    -- the time stamp is read before the price
    have hswap := (bind_ok_iff (getInt64_ok_iff b) fun _ =>
      bind_ok_iff (getDouble_ok_iff a) fun _ =>
        ⟨fun _ => trivial, fun _ => ⟨_, rfl⟩⟩).mp hok
    exact ⟨hswap.2.1, hswap.1, hswap.2.2⟩

/-! ### Messages -/

/-- The rows of the message are typed, if it has any. -/
def TypedRowsAt (kinds : List Kind) (msg : Members) : Prop :=
  ∀ rows, arrayAt msg "rows" = some rows → TypedRows kinds rows

/-- The call did what is intended, or an exception escaped where the
condition fails. -/
def Settled (cond : Prop) (actual intended : Handled) : Prop :=
  (cond ∧ actual = intended) ∨ (¬ cond ∧ ∃ e, actual.1 = .error e)

theorem Settled.congr
    {cond cond' : Prop} {actual intended : Handled}
    (h : cond ↔ cond') (hs : Settled cond actual intended) :
    Settled cond' actual intended := by
  rwa [Settled, h] at hs

/-- A call under its condition, or none, is settled. -/
theorem settled_of_eq
    {cond : Prop} {actual intended : Handled}
    (hcond : cond) (heq : actual = intended) :
    Settled cond actual intended :=
  Or.inl ⟨hcond, heq⟩

theorem settled_rows
    {β : Type} {kinds : List Kind}
    {decode : List Json → Except TypeError β} {row : Json → Option β}
    (h : DecodesAs kinds decode row)
    (act : MarketStore → β → MarketStore)
    (msg : Members) (store : MarketStore) :
    Settled (TypedRowsAt kinds msg)
      (handleRows kinds.length decode act msg store)
      (.ok none,
        (((arrayAt msg "rows").getD []).filterMap row).foldl act
          store) := by
  unfold handleRows
  cases hrows : arrayAt msg "rows" with
  | none =>
      refine settled_of_eq ?_ rfl
      intro rows h
      simp [hrows] at h
  | some rows =>
      have hcond : TypedRows kinds rows ↔ TypedRowsAt kinds msg := by
        simp [TypedRowsAt, hrows]
      refine Settled.congr hcond ?_
      rcases forRows_cases h act rows store
        with ⟨htyped, heq⟩ | ⟨htyped, e, st', heq⟩
      · refine settled_of_eq htyped ?_
        simp only [heq, Option.getD_some]
        rfl
      · refine Or.inr ⟨htyped, e, ?_⟩
        simp only [heq]
        rfl

theorem foldl_pushPoint (ps pts : List PricePoint) :
    ps.foldl pushPoint pts = pts ++ ps := by
  induction ps generalizing pts with
  | nil =>
      simp
  | cons p ps ih =>
      simp [ih, pushPoint]

theorem backfillHistory_empty_symbol
    (store : MarketStore) (points : List PricePoint) :
    store.backfillHistory "" points = store := by
  simp [MarketStore.backfillHistory]

/-- What a history message needs of its accessors. -/
def HistoryAccessible (msg : Members) : Prop :=
  ∀ v, find msg "sym" = some v → ∃ sym, v = .string sym ∧
    (sym ≠ "" → TypedRowsAt pointKinds msg)

theorem settled_history (msg : Members) (store : MarketStore) :
    Settled (HistoryAccessible msg) (handleHistory msg store)
      (.ok none, (historyCalls msg).foldl applyCall store) := by
  unfold handleHistory valueString historyCalls
  cases hsym : find msg "sym" with
  | none =>
      refine settled_of_eq ?_ ?_
      · intro v h
        simp [hsym] at h
      · cases arrayAt msg "rows" <;> simp
  | some v =>
      cases v with
      | string sym =>
          have hcond : (sym ≠ "" → TypedRowsAt pointKinds msg) ↔
              HistoryAccessible msg := by
            simp [HistoryAccessible, hsym]
          refine Settled.congr hcond ?_
          cases hrows : arrayAt msg "rows" with
          | none =>
              refine settled_of_eq ?_ rfl
              intro _ rows h
              simp [hrows] at h
          | some rows =>
              simp only [getString]
              by_cases hempty : sym = ""
              · subst hempty
                refine settled_of_eq (fun h => absurd rfl h) ?_
                simp [applyCall, backfillHistory_empty_symbol]
              · have hcond' : TypedRows pointKinds rows ↔
                    (sym ≠ "" → TypedRowsAt pointKinds msg) := by
                  simp [TypedRowsAt, hrows, hempty]
                refine Settled.congr hcond' ?_
                have hcases := forRows_cases decodes_points pushPoint
                  rows []
                change (_ ∧ forRows 2 _ _ _ _ = _) ∨
                  (_ ∧ ∃ _ _, forRows 2 _ _ _ _ = _) at hcases
                rw [if_neg hempty]
                rcases hcases with ⟨htyped, heq⟩ | ⟨htyped, e, st', heq⟩
                · refine settled_of_eq htyped ?_
                  rw [heq, foldl_pushPoint]
                  rfl
                · refine Or.inr ⟨htyped, e, ?_⟩
                  rw [heq]
      | _ =>
          refine Or.inr ⟨?_, _, rfl⟩
          intro h
          obtain ⟨sym, heq, _⟩ := h _ hsym
          cases heq

/-- What a message of kind `m` needs of its accessors. -/
structure AccessibleAs (m : String) (msg : Members) : Prop where
  quotes : m = "quotes" → TypedRowsAt quoteKinds msg
  trades : m = "trades" → TypedRowsAt tradeKinds msg
  history : m = "history" → HistoryAccessible msg

/-- No accessor of the message meets a value of another kind. -/
def Accessible (msg : Members) : Prop :=
  ∀ v, find msg "m" = some v → ∃ m, v = .string m ∧ AccessibleAs m msg

/-- The same of a line: only a JSON object is accessed at all. -/
def AccessibleLine (parse : List UInt8 → Option Json)
    (line : List UInt8) : Prop :=
  line ≠ [] → ∀ msg, parse line = some (.object msg) → Accessible msg

/-- The other kinds of messages have no accessor that can fail. -/
theorem handleMessage_other
    {msg : Members} {m : String} (store : MarketStore)
    (hm : find msg "m" = some (.string m))
    (hq : m ≠ "quotes") (ht : m ≠ "trades") (hh : m ≠ "history") :
    handleMessage msg store = intendedMessage msg store := by
  simp only [handleMessage, valueString, hm, getString, intendedMessage,
    intendedCalls, hq, ht, hh, if_false]
  by_cases hproducts : m = "products"
  · subst hproducts
    simp only [handleSyms, String.reduceEq, if_true, if_false]
    cases arrayAt msg "syms" <;> rfl
  · by_cases huniverse : m = "universe"
    · subst huniverse
      simp only [handleSyms, String.reduceEq, if_true, if_false]
      cases arrayAt msg "syms" <;> rfl
    · by_cases hnames : m = "names"
      · subst hnames
        simp only [handleNames, String.reduceEq, if_true, if_false]
        split <;> rfl
      · by_cases hpoll : m = "poll"
        · subst hpoll
          simp only [String.reduceEq, if_true, if_false]
          rfl
        · simp [hproducts, huniverse, hnames, hpoll]

section Kinds

variable {msg : Members} (store : MarketStore)

theorem settled_quotes_message
    (hm : find msg "m" = some (.string "quotes")) :
    Settled (AccessibleAs "quotes" msg) (handleMessage msg store)
      (intendedMessage msg store) := by
  have hcond : TypedRowsAt quoteKinds msg ↔
      AccessibleAs "quotes" msg := by
    constructor
    · intro h
      exact ⟨fun _ => h, by simp, by simp⟩
    · intro h
      exact h.quotes rfl
  have hactual : handleMessage msg store =
      handleRows 6 quoteOf MarketStore.onQuote msg store := by
    simp [handleMessage, valueString, hm, getString, handleQuotes]
  have hintended : intendedMessage msg store =
      (.ok none,
        (((arrayAt msg "rows").getD []).filterMap quoteRow).foldl
          MarketStore.onQuote store) := by
    simp [intendedMessage, hm, intendedCalls, List.foldl_map, applyCall]
  rw [hactual, hintended]
  exact Settled.congr hcond
    (settled_rows decodes_quotes MarketStore.onQuote msg store)

theorem settled_trades_message
    (hm : find msg "m" = some (.string "trades")) :
    Settled (AccessibleAs "trades" msg) (handleMessage msg store)
      (intendedMessage msg store) := by
  have hcond : TypedRowsAt tradeKinds msg ↔
      AccessibleAs "trades" msg := by
    constructor
    · intro h
      exact ⟨by simp, fun _ => h, by simp⟩
    · intro h
      exact h.trades rfl
  have hactual : handleMessage msg store =
      handleRows 3 tradeOf onTradeRow msg store := by
    simp [handleMessage, valueString, hm, getString, handleTrades]
  have hintended : intendedMessage msg store =
      (.ok none,
        (((arrayAt msg "rows").getD []).filterMap tradeRow).foldl
          onTradeRow store) := by
    simp only [intendedMessage, hm, intendedCalls, String.reduceEq,
      if_true, if_false, List.foldl_map]
    rfl
  rw [hactual, hintended]
  exact Settled.congr hcond
    (settled_rows decodes_trades onTradeRow msg store)

theorem settled_history_message
    (hm : find msg "m" = some (.string "history")) :
    Settled (AccessibleAs "history" msg) (handleMessage msg store)
      (intendedMessage msg store) := by
  have hcond : HistoryAccessible msg ↔ AccessibleAs "history" msg := by
    constructor
    · intro h
      exact ⟨by simp, by simp, fun _ => h⟩
    · intro h
      exact h.history rfl
  have hactual : handleMessage msg store = handleHistory msg store := by
    simp [handleMessage, valueString, hm, getString]
  have hintended : intendedMessage msg store =
      (.ok none, (historyCalls msg).foldl applyCall store) := by
    simp [intendedMessage, hm, intendedCalls]
  rw [hactual, hintended]
  exact Settled.congr hcond (settled_history msg store)

/-- One case per kind of message. -/
theorem settled_kind
    {m : String} (hm : find msg "m" = some (.string m)) :
    Settled (AccessibleAs m msg) (handleMessage msg store)
      (intendedMessage msg store) := by
  by_cases hq : m = "quotes"
  · subst hq
    exact settled_quotes_message store hm
  · by_cases ht : m = "trades"
    · subst ht
      exact settled_trades_message store hm
    · by_cases hh : m = "history"
      · subst hh
        exact settled_history_message store hm
      · refine settled_of_eq ?_ (handleMessage_other store hm hq ht hh)
        exact ⟨fun h => absurd h hq, fun h => absurd h ht,
          fun h => absurd h hh⟩

end Kinds

theorem settled_message (msg : Members) (store : MarketStore) :
    Settled (Accessible msg) (handleMessage msg store)
      (intendedMessage msg store) := by
  cases hm : find msg "m" with
  | none =>
      refine settled_of_eq ?_ ?_
      · intro v h
        simp [hm] at h
      · simp [handleMessage, valueString, hm, intendedMessage]
  | some v =>
      cases v with
      | string m =>
          have hcond : AccessibleAs m msg ↔ Accessible msg := by
            simp [Accessible, hm]
          exact Settled.congr hcond (settled_kind store hm)
      | _ =>
          refine Or.inr ⟨?_, .mustBeString, ?_⟩
          · intro h
            obtain ⟨m, heq, _⟩ := h _ hm
            cases heq
          · simp [handleMessage, valueString, hm, getString]

theorem settled_line
    (parse : List UInt8 → Option Json) (line : List UInt8)
    (store : MarketStore) :
    Settled (AccessibleLine parse line) (handleLine parse line store)
      (intendedLine parse line store) := by
  unfold handleLine intendedLine
  by_cases hline : line = []
  · rw [if_pos hline, if_pos hline]
    exact settled_of_eq (fun h => absurd hline h) rfl
  · rw [if_neg hline, if_neg hline]
    cases hparse : parse line with
    | none =>
        refine settled_of_eq ?_ rfl
        intro _ msg h
        simp [hparse] at h
    | some v =>
        cases v with
        | object msg =>
            have hcond : Accessible msg ↔ AccessibleLine parse line := by
              simp [AccessibleLine, hparse, hline]
            exact Settled.congr hcond (settled_message msg store)
        | _ =>
            refine settled_of_eq ?_ rfl
            intro _ msg h
            simp [hparse] at h

/-- The intended end of a line is never an exception. -/
theorem intendedLine_ok
    (parse : List UInt8 → Option Json) (line : List UInt8)
    (store : MarketStore) :
    ∃ reply, (intendedLine parse line store).1 = .ok reply := by
  unfold intendedLine intendedMessage
  split_ifs
  · exact ⟨_, rfl⟩
  · split
    · split
      · split_ifs <;> exact ⟨_, rfl⟩
      · exact ⟨_, rfl⟩
    · exact ⟨_, rfl⟩

/-- **A line is handled as intended exactly when no typed accessor meets a
value of another kind**; on every other line an exception escapes. -/
theorem handle_line_iff
    (parse : List UInt8 → Option Json) (line : List UInt8)
    (store : MarketStore) :
    handleLine parse line store = intendedLine parse line store ↔
      AccessibleLine parse line := by
  rcases settled_line parse line store with ⟨hcond, heq⟩ | ⟨hcond, e, he⟩
  · exact ⟨fun _ => hcond, fun _ => heq⟩
  · constructor
    · intro heq
      obtain ⟨reply, hok⟩ := intendedLine_ok parse line store
      rw [heq, hok] at he
      cases he
    · intro h
      exact absurd h hcond

/-- A parser that knows the line with the one member `"m"`, the number 5. -/
def parseNumberedMessage (line : List UInt8) : Option Json :=
  if line = [123, 34, 109, 34, 58, 53, 125] then
    some (.object [("m", .numberUnsigned 5)])
  else none

/-- On that line the exception of `value("m", "")` escapes. -/
theorem handle_line_throws_on_numbered_message :
    (handleLine parseNumberedMessage [123, 34, 109, 34, 58, 53, 125]
        {}).1 = .error .mustBeString ∧
      handleLine parseNumberedMessage [123, 34, 109, 34, 58, 53, 125] {} ≠
        intendedLine parseNumberedMessage
          [123, 34, 109, 34, 58, 53, 125] {} := by
  have hthrows : (handleLine parseNumberedMessage
      [123, 34, 109, 34, 58, 53, 125] {}).1 = .error .mustBeString := by
    rfl
  refine ⟨hthrows, ?_⟩
  intro heq
  obtain ⟨reply, hok⟩ := intendedLine_ok parseNumberedMessage
    [123, 34, 109, 34, 58, 53, 125] {}
  rw [heq, hok] at hthrows
  cases hthrows

end FeedServer

end ExecutionLayer
