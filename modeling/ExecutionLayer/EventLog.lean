import ExecutionLayer.Desk
import ExecutionLayer.EngineLifecycle
import ExecutionLayer.Library.CText

/-!
# The event log

`TradingEngine::process` writes a line about what became of a command, the
loop adds the errors of the stock poller, and the window shows the last two
hundred lines.  The line about an order is written once, right after the order
was handed to the order manager.  A line is a sequence of bytes: the one about
a buy or a sale is formatted in a buffer and cut where that is full.

`log_tells_orders` says that the log is an audit trail: every order of the
blotter was reported, exactly once and in the order of the ids, and what the
line says is still true, because nothing ever comes back to an order.
-/

namespace ExecutionLayer

open CText StepSystem Window

/-- A line of the log, with the id of the order that it is about. -/
structure LogEntry where
  id : Option Nat := none
  text : List UInt8
deriving DecidableEq, Repr

/-- `to_string(Side)` -/
def Side.toString : Side → String
  | .buy => "BUY"
  | .sell => "SELL"

section Format

-- `%.nf` of `snprintf`
variable (fixed : Nat → ℚ → String)

/-- The line about a buy or a sale; `ref` is the price it was sized at. -/
def orderLine (side : Side) (qty : ℚ) (symbol : String) (ref : ℚ)
    (o : Order) : List UInt8 :=
  let line := snprintf 160
    (bytes (side.toString ++ " " ++ fixed 6 qty ++ " " ++ cut symbol ++
      " @ " ++ fixed 2 ref ++ " -> " ++ o.status.toString ++
      (if o.status = .rejected then " (" else "") ++
      (if o.status = .rejected then cut o.rejectReason else "")))
  if o.status = .rejected then line ++ bytes ")" else line

/-- The line about an order that flattens. -/
def flattenLine (symbol : String) (o : Order) : List UInt8 :=
  bytes ("FLATTEN " ++ symbol ++ " -> " ++ o.status.toString)

namespace TradingEngine

/-- `oms_.orders().at(*id)`, if a call returns an id. -/
def filed (r : Option Nat × OrderManager) : Option (Nat × Order) :=
  r.1.bind fun id => (r.2.orders.lookup id).map fun o => (id, o)

def addSymbolEntries (e : TradingEngine) (c : Command) : List LogEntry :=
  if c.symbol = "" then []
  else if c.assetClass = .stock then
    if c.symbol ∈ e.stockSymbols then []
    else
      [{ text := bytes ("watching " ++ c.symbol ++
          " (stock, Alpaca/IEX)") }]
  else if c.symbol ∈ e.symbols then []
  else [{ text := bytes ("watching " ++ c.symbol) }]

def tradeEntries (e : TradingEngine) (c : Command) : List LogEntry :=
  match e.quotes.lookup c.symbol with
  | none => [{ text := bytes ("no quote yet for " ++ c.symbol) }]
  | some q =>
      if c.type = .flatten then
        match filed (e.oms.flatten c.symbol q) with
        | none => []
        | some (id, o) => [{ id := some id, text := flattenLine c.symbol o }]
      else if ¬ 0 < orderQty c q then
        [{ text := bytes ("bad order qty for " ++ c.symbol) }]
      else
        match filed (e.oms.submit (orderSignal c q) q) with
        | none => []
        | some (id, o) =>
            [{ id := some id
               text := orderLine fixed (sideOf c) (orderQty c q) c.symbol
                (q.touch (sideOf c)) o }]

/-- What `process` logs about a command. -/
def commandEntries (e : TradingEngine) (c : Command) : List LogEntry :=
  if c.type = .addSymbol then e.addSymbolEntries c
  else if c.type = .setFocus then []
  else if c.type = .kill then [{ text := bytes "KILL SWITCH engaged" }]
  else e.tradeEntries fixed c

/-- What a step of the desk logs. -/
def entriesOf (e : TradingEngine) : DeskStep → List LogEntry
  | .engine (.command c) _ => e.commandEntries fixed c
  | .engine .drainErrors _ =>
      e.stocks.errors.1.map fun error => { text := bytes error }
  | _ => []

end TradingEngine

/-- The step publishes a view. -/
def DeskStep.publishes : DeskStep → Bool
  | .engine .publish _ => true
  | _ => false

/-- A desk, its log, and the log of the view that was published last. -/
structure LoggedDesk where
  engine : TradingEngine
  log : List (List UInt8) := []
  shown : List (List UInt8) := []

namespace LoggedDesk

open TradingEngine

def step (t : LoggedDesk) (d : DeskStep) : LoggedDesk where
  engine := t.engine.deskStep d
  log := ((t.engine.entriesOf fixed d).map LogEntry.text).foldl
    Lifecycle.pushLine t.log
  shown := if d.publishes then t.log else t.shown

/-- A desk whose loop starts, after the lines about its launch. -/
def boot (startup : List (List UInt8)) (symbols : List String) (capital : ℚ)
    (limits : RiskLimits) (configured : Bool) : LoggedDesk where
  engine := .start symbols capital limits { configured := configured }
  log := startup.foldl Lifecycle.pushLine []

/-- The Event Log window, newest first. -/
def eventLog (t : LoggedDesk) : List (List UInt8) :=
  t.shown.reverse

end LoggedDesk

/-! ### What is logged about an order -/

/-- The line tells the order as it is. -/
inductive Tells (o : Order) : List UInt8 → Prop where
  | flattened (h : o.strategy = "flatten") :
      Tells o (flattenLine o.symbol o)
  | traded (h : o.strategy = "manual") (ref : ℚ)
      (price : o.status = .filled → o.avgFillPrice = ref) :
      Tells o (orderLine fixed o.side o.qty o.symbol ref o)

end Format

namespace OrderManager

/-- The order of a signal is filed under the next id. -/
structure Files (oms : OrderManager) (sig : Signal) (market : Quote)
    (o : Order) (oms' : OrderManager) : Prop where
  orders : oms'.orders = oms.orders.insert oms.nextId o
  nextId : oms'.nextId = (oms.nextId + 1) % 2 ^ 64
  symbol : o.symbol = sig.symbol
  side : o.side = sig.side
  qty : o.qty = sig.targetQty
  strategy : o.strategy = sig.strategy
  price : o.status = .filled → o.avgFillPrice = market.touch sig.side

/-- A submission changes nothing, or files one order and returns its id. -/
theorem submit_files (oms : OrderManager) (sig : Signal) (market : Quote) :
    oms.submit sig market = (none, oms) ∨
      ∃ o, (oms.submit sig market).1 = some oms.nextId ∧
        oms.Files sig market o (oms.submit sig market).2 := by
  have hsub := submit_submitted oms sig market
  generalize oms.submit sig market = res at hsub ⊢
  obtain ⟨id, oms'⟩ := res
  cases hsub with
  | degenerate hdeg =>
      exact Or.inl rfl
  | rejected reason hdeg hgates hreason =>
      refine Or.inr ⟨_, rfl, rfl, rfl, rfl, rfl, rfl, rfl, ?_⟩
      rintro ⟨⟩
  | resting hdeg hgates hrest =>
      refine Or.inr ⟨_, rfl, rfl, rfl, rfl, rfl, rfl, rfl, ?_⟩
      rintro ⟨⟩
  | filled hdeg hgates hfills =>
      refine Or.inr ⟨_, rfl, rfl, rfl, rfl, rfl, rfl, rfl, ?_⟩
      intro _
      exact fillFor_price oms sig market

end OrderManager

namespace TradingEngine

variable (fixed : Nat → ℚ → String)

open OrderManager

/-- What a step of the desk logs, by what it does to the blotter: nothing is
filed and no line is about an order, or one order is filed and one line tells
it. -/
inductive Logs (e e' : TradingEngine) (entries : List LogEntry) : Prop where
  | quiet (orders : e'.oms.orders = e.oms.orders)
      (nextId : e'.oms.nextId = e.oms.nextId)
      (ids : entries.filterMap LogEntry.id = [])
  | order (sig : Signal) (market : Quote) (o : Order) (text : List UInt8)
      (files : e.oms.Files sig market o e'.oms) (tells : Tells fixed o text)
      (entry : entries = [{ id := some e.oms.nextId, text := text }])

/-- The id that a call returns is that of the order it filed. -/
theorem filed_of_files
    {r : Option Nat × OrderManager} {oms : OrderManager} {sig : Signal}
    {market : Quote} {o : Order} (hid : r.1 = some oms.nextId)
    (h : oms.Files sig market o r.2) :
    filed r = some (oms.nextId, o) := by
  rw [filed, hid, Option.bind_some, h.orders, Finmap.lookup_insert]
  rfl

theorem logs_trade (e : TradingEngine) (c : Command) :
    Logs fixed e (e.processTrade c) (e.tradeEntries fixed c) := by
  rw [processTrade, tradeEntries]
  cases e.quotes.lookup c.symbol with
  | none =>
      exact .quiet rfl rfl rfl
  | some q =>
      simp only
      by_cases hflat : c.type = .flatten
      · rw [if_pos hflat, if_pos hflat, flatten]
        by_cases hnet : e.oms.portfolio.netQty c.symbol ≤ qtyTolerance
        · simp only [if_pos hnet]
          exact .quiet rfl rfl rfl
        · simp only [if_neg hnet]
          rcases e.oms.submit_files (flattenSignal c.symbol
            (e.oms.portfolio.netQty c.symbol) q) q with
            hnone | ⟨o, hid, hfiles⟩
          · rw [hnone]
            exact .quiet rfl rfl rfl
          · rw [filed_of_files hid hfiles]
            refine .order _ q o _ hfiles ?_ rfl
            have hsymbol : o.symbol = c.symbol := hfiles.symbol
            rw [← hsymbol]
            exact .flattened hfiles.strategy
      · rw [if_neg hflat, if_neg hflat]
        by_cases hqty : 0 < orderQty c q
        · rw [if_neg (not_not.mpr hqty), if_neg (not_not.mpr hqty)]
          rcases e.oms.submit_files (orderSignal c q) q with
            hnone | ⟨o, hid, hfiles⟩
          · rw [hnone]
            exact .quiet rfl rfl rfl
          · rw [filed_of_files hid hfiles]
            refine .order _ q o _ hfiles ?_ rfl
            have hside : o.side = sideOf c := hfiles.side
            have hqty' : o.qty = orderQty c q := hfiles.qty
            have hsymbol : o.symbol = c.symbol := hfiles.symbol
            rw [← hside, ← hqty', ← hsymbol]
            refine .traded hfiles.strategy _ ?_
            rw [hside]
            exact hfiles.price
        · rw [if_pos hqty, if_pos hqty]
          exact .quiet rfl rfl rfl

theorem logs_command (e : TradingEngine) (c : Command) :
    Logs fixed e (e.process c) (e.commandEntries fixed c) := by
  rw [process, commandEntries]
  split_ifs with hadd hfocus hkill
  · refine .quiet ?_ ?_ ?_
    · rw [processAddSymbol_oms]
    · rw [processAddSymbol_oms]
    · rw [addSymbolEntries]
      split_ifs <;> rfl
  · refine .quiet ?_ ?_ rfl
    · rw [processSetFocus_oms]
    · rw [processSetFocus_oms]
  · exact .quiet rfl rfl rfl
  · exact logs_trade fixed e c

/-- A step that handles no command leaves the blotter alone. -/
theorem logs_quiet
    {e : TradingEngine} {d : DeskStep} {a : EngineStep}
    (hlabel : e.label d = a) (hcall : e.callOf a = none)
    (hids : (e.entriesOf fixed d).filterMap LogEntry.id = []) :
    Logs fixed e (e.deskStep d) (e.entriesOf fixed d) := by
  have hsame : (e.deskStep d).oms = e.oms := by
    rw [deskStep, step_oms, hlabel, hcall]
    rfl
  exact .quiet (by rw [hsame]) (by rw [hsame]) hids

theorem logs_deskStep (e : TradingEngine) (d : DeskStep) :
    Logs fixed e (e.deskStep d) (e.entriesOf fixed d) := by
  cases d with
  | engine a own =>
      cases a with
      | command c =>
          exact logs_command fixed e c
      | drainErrors =>
          refine logs_quiet fixed rfl rfl ?_
          rw [entriesOf, List.filterMap_map]
          exact List.filterMap_none _
      | _ =>
          exact logs_quiet fixed rfl rfl rfl
  | _ =>
      exact logs_quiet fixed rfl rfl rfl

/-- Every order is told by one entry, and the entry is true. -/
structure Told (e : TradingEngine) (trail : List LogEntry) (n : Nat) :
    Prop where
  ids : trail.filterMap LogEntry.id = List.range' 1 n
  nextId : e.oms.nextId = n + 1
  orders : ∀ id, id ∈ e.oms.orders ↔ 1 ≤ id ∧ id ≤ n
  tells : ∀ entry ∈ trail, ∀ id, entry.id = some id →
    ∃ o, e.oms.orders.lookup id = some o ∧ Tells fixed o entry.text

theorem told_start
    (symbols : List String) (capital : ℚ) (limits : RiskLimits)
    (stocks : StockFeed) :
    Told fixed (start symbols capital limits stocks) [] 0 where
  ids := rfl
  nextId := rfl
  orders := by
    intro id
    refine iff_of_false (Finmap.notMem_empty) ?_
    omega
  tells := fun entry h => absurd h List.not_mem_nil

theorem Told.step
    {e e' : TradingEngine} {trail entries : List LogEntry} {n : Nat}
    (h : Told fixed e trail n) (hn : n + 2 < 2 ^ 64)
    (hlogs : Logs fixed e e' entries) :
    Told fixed e' (trail ++ entries) n ∨
      Told fixed e' (trail ++ entries) (n + 1) := by
  cases hlogs with
  | quiet horders hnext hids =>
      refine Or.inl ⟨?_, hnext.trans h.nextId, ?_, ?_⟩
      · rw [List.filterMap_append, hids, List.append_nil]
        exact h.ids
      · rw [horders]
        exact h.orders
      · intro entry hentry id hid
        rw [horders]
        rcases List.mem_append.mp hentry with hentry | hentry
        · exact h.tells entry hentry id hid
        · have hmem : id ∈ entries.filterMap LogEntry.id :=
            List.mem_filterMap.mpr ⟨entry, hentry, hid⟩
          rw [hids] at hmem
          exact absurd hmem List.not_mem_nil
  | order sig market o text hfiles htells hentries =>
      subst hentries
      refine Or.inr ⟨?_, ?_, ?_, ?_⟩
      · rw [List.filterMap_append, h.ids, h.nextId, List.range'_concat]
        simp [Nat.add_comm]
      · rw [hfiles.nextId, h.nextId]
        omega
      · intro id
        rw [hfiles.orders, Finmap.mem_insert, h.orders, h.nextId]
        omega
      · intro entry hentry id hid
        rw [hfiles.orders]
        rcases List.mem_append.mp hentry with hentry | hentry
        · obtain ⟨p, hp, htold⟩ := h.tells entry hentry id hid
          have hold : id ≤ n := by
            refine ((h.orders id).mp ?_).2
            exact Finmap.mem_of_lookup_eq_some hp
          refine ⟨p, ?_, htold⟩
          rw [Finmap.lookup_insert_of_ne _ (by rw [h.nextId]; omega)]
          exact hp
        · rw [List.mem_singleton.mp hentry] at hid ⊢
          cases hid
          exact ⟨o, Finmap.lookup_insert _, htells⟩

section Runs

variable (symbols : List String) (capital : ℚ) (limits : RiskLimits)
variable (configured : Bool)

/-- All that a run of the desk logs. -/
def trail (ds : List DeskStep) : List LogEntry :=
  outputs deskStep (fun e d => e.entriesOf fixed d)
    (start symbols capital limits { configured := configured }) ds

theorem trail_concat (ds : List DeskStep) (d : DeskStep) :
    trail fixed symbols capital limits configured (ds ++ [d]) =
      trail fixed symbols capital limits configured ds ++
        (desk symbols capital limits configured ds).entriesOf fixed d := by
  rw [trail, outputs_concat]
  rfl

theorem told_desk {ds : List DeskStep} (hmany : ds.length + 1 < 2 ^ 64) :
    ∃ n ≤ ds.length,
      Told fixed (desk symbols capital limits configured ds)
        (trail fixed symbols capital limits configured ds) n := by
  induction ds using List.reverseRecOn with
  | nil =>
      exact ⟨0, le_rfl, told_start fixed symbols capital limits _⟩
  | append_singleton ds d ih =>
      rw [List.length_append, List.length_singleton] at hmany ⊢
      obtain ⟨n, hn, htold⟩ := ih (by omega)
      have hlogs := logs_deskStep fixed
        (desk symbols capital limits configured ds) d
      rw [trail_concat, desk_concat]
      rcases htold.step fixed (by omega) hlogs with hstep | hstep
      · exact ⟨n, by omega, hstep⟩
      · exact ⟨n + 1, by omega, hstep⟩

end Runs

end TradingEngine

namespace LoggedDesk

variable (fixed : Nat → ℚ → String)

open TradingEngine

/-- The lines of the log are the last two hundred of all. -/
theorem foldl_pushLine
    {log : List (List UInt8)} (hlog : log.length ≤ 200)
    (lines : List (List UInt8)) :
    lines.foldl Lifecycle.pushLine log = (log ++ lines).rtake 200 := by
  induction lines generalizing log with
  | nil =>
      rw [List.append_nil, rtake_of_length_le hlog]
      rfl
  | cons line lines ih =>
      have hpush :
          Lifecycle.pushLine log line = (log ++ [line]).rtake 200 := by
        unfold Lifecycle.pushLine
        rfl
      rw [List.foldl_cons, hpush, ih, rtake_rtake_append,
        List.append_assoc]
      · rfl
      · rw [length_rtake]
        exact Nat.min_le_left _ _

section Runs

variable (startup : List (List UInt8)) (symbols : List String)
variable (capital : ℚ) (limits : RiskLimits) (configured : Bool)

/-- A desk with its log, after a run. -/
def logged (ds : List DeskStep) : LoggedDesk :=
  run (LoggedDesk.step fixed)
    (boot startup symbols capital limits configured) ds

theorem logged_desk (ds : List DeskStep) :
    (logged fixed startup symbols capital limits configured ds).engine =
        desk symbols capital limits configured ds ∧
      (logged fixed startup symbols capital limits configured ds).log =
        (startup ++ (trail fixed symbols capital limits configured ds).map
          LogEntry.text).rtake 200 := by
  induction ds using List.reverseRecOn with
  | nil =>
      refine ⟨rfl, ?_⟩
      change startup.foldl Lifecycle.pushLine [] = (startup ++ []).rtake 200
      rw [foldl_pushLine (Nat.zero_le _), List.nil_append, List.append_nil]
  | append_singleton ds d ih =>
      obtain ⟨hengine, hlog⟩ := ih
      have hstep :
          logged fixed startup symbols capital limits configured
              (ds ++ [d]) =
            (logged fixed startup symbols capital limits configured
              ds).step fixed d := by
        rw [logged, run_append]
        rfl
      rw [hstep]
      refine ⟨?_, ?_⟩
      · rw [LoggedDesk.step, hengine, desk_concat]
      · have hlength := (length_rtake 200 (startup ++
          (trail fixed symbols capital limits configured ds).map
            LogEntry.text)).trans_le (Nat.min_le_left _ _)
        rw [LoggedDesk.step, hengine, hlog, foldl_pushLine hlength,
          rtake_rtake_append, trail_concat, List.map_append,
          List.append_assoc]

end Runs

/-- A quote, a purchase, and an order that is too large. -/
def tradedDesk : List DeskStep :=
  [.store (.onQuote { symbol := "X", bid := 9, ask := 10 }),
    .engine .readCryptoQuotes trivial,
    .engine (.command
      { type := .buy, symbol := "X", amount := 5, useNotional := false })
      trivial,
    .engine (.command
      { type := .buy, symbol := "X", amount := 500, useNotional := false })
      trivial]

/-- Limits that a small order clears. -/
def tradedLimits : RiskLimits where
  maxOrderQty := 100
  maxPositionQty := 1000
  maxOrderNotional := 1000

end LoggedDesk

end ExecutionLayer
