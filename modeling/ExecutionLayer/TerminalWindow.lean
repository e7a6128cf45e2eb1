import ExecutionLayer.EngineLoop
import ExecutionLayer.Library.CText

/-!
# The terminal's window

The frame of `terminal_gui.cpp`, as far as it posts commands: account bar,
Market Watch, Order Ticket, Positions and Ticker Search.  A frame reads one
view, and its clicks are posted after that one by one, while the engine goes
on.  So a command is handled by an engine that is ahead of the view it was
made from.  The list of the ticket has C strings, so it shows a symbol up to
its first NUL; the tables have the symbols themselves.

`App.invariant` is the rule for such a program: what a frame grants to its
commands is theirs when they are handled, if no step of the desk takes it
away.
-/

namespace ExecutionLayer

open CText StepSystem

/-- What can be pressed in a frame. -/
inductive Widget where
  | kill
  | watch
  | addStock
  | marketRow (i : Nat)
  | notionalMode
  | qtyMode
  | buy
  | sell
  | sellAll
  | positionRow (i : Nat)
  | flatten (i : Nat)
  | closedRow (i : Nat)
  | product (i : Nat)
deriving DecidableEq, Repr

/-- What the user does in a frame: the widgets that report a press, the entry
that is picked in the symbol list of the ticket, and the fields that are
edited. -/
structure FrameInput where
  pressed : Widget → Bool
  combo : Option Nat := none
  newsym : Option String := none
  newstock : Option String := none
  filter : Option String := none
  qty : Option ℚ := none
  notional : Option ℚ := none

/-- The state of the window between frames. -/
structure Gui where
  newsym : String := ""
  newstock : String := ""
  orderNotional : ℚ := 1000
  ticketUseQty : Bool := false
  ticketQty : ℚ := 0
  filter : String := ""
deriving DecidableEq, Repr

/-- `toupper` on every character. -/
def upper (s : String) : String :=
  s.map Char.toUpper

namespace Gui

def setFocus (symbol : String) : Command :=
  { type := .setFocus, symbol := symbol, amount := 0, useNotional := false }

def addSymbol (symbol : String) (cls : AssetClass) : Command :=
  { type := .addSymbol, symbol := symbol, amount := 0, useNotional := false,
    assetClass := cls }

def flatten (symbol : String) : Command :=
  { type := .flatten, symbol := symbol, amount := 0, useNotional := false }

/-- The account bar; a halted desk has no kill button. -/
def menuBar (v : EngineView) (input : FrameInput) : List Command :=
  if v.riskKilled then []
  else if input.pressed .kill then
    [{ type := .kill, symbol := "", amount := 0, useNotional := false }]
  else []

/-- The rows of a table whose entries of interest report a press. -/
def pressedRows {α : Type} (rows : List α) (pressed : α → Nat → Bool) :
    List α :=
  (rows.zipIdx.filter fun r => pressed r.1 r.2).map Prod.fst

def marketRows (v : EngineView) (cls : AssetClass) (input : FrameInput) :
    List Command :=
  (pressedRows v.symbols fun s i =>
    s.assetClass = cls && input.pressed (.marketRow i)).map fun s =>
      setFocus s.symbol

def cryptoTab (g : Gui) (v : EngineView) (input : FrameInput) :
    Gui × List Command :=
  let newsym := input.newsym.getD g.newsym
  if input.pressed .watch ∧ newsym ≠ "" then
    ({ g with newsym := "" },
      addSymbol (upper newsym) .crypto :: marketRows v .crypto input)
  else ({ g with newsym := newsym }, marketRows v .crypto input)

def stocksTab (g : Gui) (v : EngineView) (input : FrameInput) :
    Gui × List Command :=
  if v.stocksEnabled then
    let newstock := input.newstock.getD g.newstock
    if input.pressed .addStock ∧ newstock ≠ "" then
      ({ g with newstock := "" },
        addSymbol (upper newstock) .stock :: marketRows v .stock input)
    else ({ g with newstock := newstock }, marketRows v .stock input)
  else (g, [])

/-! ### The order ticket -/

/-- The symbols of the rows. -/
def rowSymbols (v : EngineView) : List String :=
  v.symbols.map SymbolView.symbol

/-- `names`, which are C strings. -/
def names (v : EngineView) : List String :=
  (rowSymbols v).map cut

/-- The list of the ticket shows the symbols of the rows as they are. -/
def PlainRows (v : EngineView) : Prop :=
  ∀ sym ∈ rowSymbols v, NoNul sym

instance (v : EngineView) : Decidable (PlainRows v) := by
  unfold PlainRows
  infer_instance

/-- `sel_sym` before the list is drawn: the focused symbol, else the first. -/
def selSym (v : EngineView) : Nat :=
  ((names v).findIdx? fun name => v.focus = name).getD 0

/-- The entry picked in this frame. -/
def picked (v : EngineView) (input : FrameInput) : Option String :=
  input.combo.bind fun i => (names v)[i]?

/-- `sym`, the symbol the ticket trades. -/
def ticketSymbol (v : EngineView) (input : FrameInput) : String :=
  (picked v input).getD ((names v).getD (selSym v) "")

/-- The row of the focused symbol. -/
def focusView (v : EngineView) : Option SymbolView :=
  v.symbols.find? fun s => s.symbol = v.focus

def hasQuote (v : EngineView) : Bool :=
  (focusView v).any SymbolView.hasQuote

def netQty (v : EngineView) : ℚ :=
  (focusView v).elim 0 SymbolView.netQty

/-- The positions that a sale may be made from. -/
def sellable : ℚ := 1 / 10 ^ 9

/-- The two modes of the ticket and its amount field. -/
def ticketFields (g : Gui) (input : FrameInput) : Gui :=
  let g :=
    if input.pressed .notionalMode then { g with ticketUseQty := false }
    else g
  let g :=
    if input.pressed .qtyMode then { g with ticketUseQty := true } else g
  if g.ticketUseQty then
    let qty := input.qty.getD g.ticketQty
    { g with ticketQty := if qty < 0 then 0 else qty }
  else
    let notional := input.notional.getD g.orderNotional
    { g with orderNotional := if notional < 0 then 0 else notional }

def amount (g : Gui) : ℚ :=
  if g.ticketUseQty then g.ticketQty else g.orderNotional

def canBuy (g : Gui) (v : EngineView) : Bool :=
  hasQuote v && 0 < g.amount && 0 < v.cash

def canSell (g : Gui) (v : EngineView) : Bool :=
  hasQuote v && 0 < g.amount && sellable < netQty v

/-- A button that is drawn enabled or disabled. -/
def button (enabled pressed : Bool) (c : Command) : List Command :=
  if enabled && pressed then [c] else []

def ticketOrder (g : Gui) (type : CommandType) (sym : String) : Command :=
  { type := type, symbol := sym, amount := g.amount,
    useNotional := !g.ticketUseQty }

def orderTicket (g : Gui) (v : EngineView) (input : FrameInput) :
    Gui × List Command :=
  if names v = [] then (g, [])
  else
    let sym := ticketSymbol v input
    let g := g.ticketFields input
    (g,
      (picked v input).toList.map setFocus ++
        button (g.canBuy v) (input.pressed .buy) (g.ticketOrder .buy sym) ++
        button (g.canSell v) (input.pressed .sell)
          (g.ticketOrder .sell sym) ++
        button (sellable < netQty v) (input.pressed .sellAll) (flatten sym))

/-! ### Positions and search -/

/-- One row of the open positions; a click on it sets the ticket up. -/
def positionRow (input : FrameInput) (drawn : Gui × List Command)
    (row : SymbolView × Nat) : Gui × List Command :=
  let s := row.1
  if s.netQty = 0 then drawn
  else
    let drawn :=
      if input.pressed (.positionRow row.2) then
        ({ drawn.1 with ticketUseQty := true, ticketQty := |s.netQty| },
          drawn.2 ++ [setFocus s.symbol])
      else drawn
    if input.pressed (.flatten row.2) then
      (drawn.1, drawn.2 ++ [flatten s.symbol])
    else drawn

def currentTab (g : Gui) (v : EngineView) (input : FrameInput) :
    Gui × List Command :=
  v.symbols.zipIdx.foldl (positionRow input) (g, [])

def previousTab (v : EngineView) (input : FrameInput) : List Command :=
  (pressedRows v.closedPositions fun _ i =>
    input.pressed (.closedRow i)).map fun c => setFocus c.symbol

/-- Products the search draws at most. -/
def kShownProducts : Nat := 500

def shownProducts (v : EngineView) (filter : String) : List String :=
  (v.products.filter fun id =>
    filter = "" ∨ filter.toList <:+: id.toList).take kShownProducts

def search (g : Gui) (v : EngineView) (input : FrameInput) :
    Gui × List Command :=
  let filter := upper (input.filter.getD g.filter)
  ({ g with filter := filter },
    (pressedRows (shownProducts v filter) fun _ i =>
      input.pressed (.product i)).map fun id => addSymbol id .crypto)

/-- A frame: the window after it, and what it posts. -/
def frame (g : Gui) (v : EngineView) (input : FrameInput) :
    Gui × List Command :=
  let (g, crypto) := g.cryptoTab v input
  let (g, stocks) := g.stocksTab v input
  let (g, ticket) := g.orderTicket v input
  let (g, current) := g.currentTab v input
  let (g, search) := g.search v input
  (g,
    menuBar v input ++ crypto ++ stocks ++ ticket ++ current ++
      previousTab v input ++ search)

end Gui

/-! ### The program -/

/-- The window and the engine that it has started.  `outbox` holds what the
frame in work has still to post. -/
structure App where
  loop : EngineLoop
  gui : Gui := {}
  outbox : List Command := []

/-- A frame is drawn, a command of the frame is posted, or something else
happens to the engine. -/
inductive AppStep where
  | frame (input : FrameInput)
  | post
  | run (a : LoopStep) (other : a.posted = none)

namespace App

def step (app : App) : AppStep → Option App
  | .frame input =>
      if app.outbox = [] then
        let (gui, posted) := app.gui.frame app.loop.engine.view input
        some { app with gui := gui, outbox := posted }
      else none
  | .post =>
      match app.outbox with
      | [] => none
      | c :: outbox =>
          (app.loop.step (.post c)).map fun loop =>
            { app with loop := loop, outbox := outbox }
  | .run a _ => (app.loop.step a).map fun loop => { app with loop := loop }

/-- The limits that START DESK sets. -/
def deskLimits (capital : ℚ) : RiskLimits where
  maxOrderQty := 100
  maxPositionQty := 10 ^ 6
  maxOrderNotional := capital

/-- START DESK, with what is in the capital field. -/
def startDesk (capitalInput : ℚ) (configured : Bool) : App where
  loop :=
    let capital := if capitalInput < 0 then 0 else capitalInput
    .boot ["BTC-USD", "ETH-USD"] capital (deskLimits capital) configured

/-- The commands that are made and not handled. -/
def waiting (app : App) : List Command :=
  app.loop.pending ++ app.loop.cmds ++ app.outbox

/-! ### The rule -/

section Rule

variable {E : TradingEngine → Prop} {P : TradingEngine → Command → Prop}
variable {D : TradingEngine → DeskStep → Prop}
variable {F : EngineView → FrameInput → Prop}

/-- What is assumed of a step: `F` of a frame's view and its input, and `D` of
a step of the feeds. -/
def Admits (D : TradingEngine → DeskStep → Prop)
    (F : EngineView → FrameInput → Prop) (app : App) : AppStep → Prop
  | .frame input => F app.loop.engine.view input
  | .run (.thread d _) _ => D app.loop.engine d
  | _ => True

instance (D : TradingEngine → DeskStep → Prop)
    (F : EngineView → FrameInput → Prop) [∀ e d, Decidable (D e d)]
    [∀ v input, Decidable (F v input)] (app : App) (a : AppStep) :
    Decidable (Admits D F app a) := by
  unfold Admits
  split <;> infer_instance

/-- The engine is in order, and so is every command that waits. -/
structure Keeps (E : TradingEngine → Prop)
    (P : TradingEngine → Command → Prop) (app : App) : Prop where
  engine : E app.loop.engine
  waiting : ∀ c ∈ app.waiting, P app.loop.engine c

/-- The engine takes a step of the desk, and no command is new. -/
theorem Keeps.acts
    (hengine : ∀ e d, E e → (∀ c, d.command = some c → P e c) → D e d →
      E (e.deskStep d))
    (hmono : ∀ e d c, E e → D e d → P e c → P (e.deskStep d) c)
    {app app' : App} (h : Keeps E P app) {d : DeskStep}
    (hd : D app.loop.engine d)
    (hcommand : ∀ c, d.command = some c → P app.loop.engine c)
    (hloop : app'.loop.engine = app.loop.engine.deskStep d)
    (hwaiting : app'.waiting ⊆ app.waiting) :
    Keeps E P app' where
  engine := by
    rw [hloop]
    exact hengine _ d h.engine hcommand hd
  waiting := by
    intro c hc
    rw [hloop]
    exact hmono _ d c h.engine hd (h.waiting c (hwaiting hc))

/-- The engine does not move, and no command is new. -/
theorem Keeps.idle
    {app app' : App} (h : Keeps E P app)
    (hloop : app'.loop.engine = app.loop.engine)
    (hwaiting : app'.waiting ⊆ app.waiting) :
    Keeps E P app' where
  engine := by
    rw [hloop]
    exact h.engine
  waiting := by
    intro c hc
    rw [hloop]
    exact h.waiting c (hwaiting hc)

theorem Keeps.ran
    (hengine : ∀ e d, E e → (∀ c, d.command = some c → P e c) → D e d →
      E (e.deskStep d))
    (hmono : ∀ e d c, E e → D e d → P e c → P (e.deskStep d) c)
    (hown : ∀ e a own, D e (.engine a own))
    {app : App} (h : Keeps E P app) {a : LoopStep} {loop : EngineLoop}
    (other : a.posted = none)
    (hadmits : Admits D F app (.run a other))
    (hstep : app.loop.step a = some loop) :
    Keeps E P { app with loop := loop } := by
  cases EngineLoop.moved hstep with
  | posted c =>
      cases other
  | stopped =>
      exact h.idle rfl (List.Subset.refl _)
  | swapped clock hpc hrunning =>
      refine h.idle rfl fun c hc => ?_
      rcases List.mem_append.mp hc with hc | hc
      · rw [List.append_nil] at hc
        exact List.mem_append_left _ (List.mem_append_right _ hc)
      · exact List.mem_append_right _ hc
  | handled clock c pending hpc hpending =>
      have hmem : c ∈ app.waiting := by
        rw [App.waiting, hpending]
        exact List.mem_cons_self
      refine h.acts hengine hmono (hown _ (.command c) trivial) ?_ rfl ?_
      · intro c' hc'
        cases hc'
        exact h.waiting c hmem
      · intro c' hc'
        rw [App.waiting, hpending]
        exact List.mem_cons_of_mem c hc'
  | drained clock hpending =>
      exact h.idle rfl (List.Subset.refl _)
  | clocked clock hpc =>
      exact h.idle rfl (List.Subset.refl _)
  | worked clock a own hcommand pc hpc hnext =>
      refine h.acts hengine hmono (hown _ a own) ?_ rfl
        (List.Subset.refl _)
      intro c hc
      rw [hcommand] at hc
      cases hc
  | threaded d hother =>
      refine h.acts hengine hmono hadmits ?_ rfl (List.Subset.refl _)
      intro c hc
      cases d with
      | engine a own =>
          exact hother.elim
      | _ =>
          cases hc

/-- **The rule of the window.**  `E` is kept by the desk as long as the
commands it handles satisfy `P`, no step of the desk takes `P` from a command,
and in a state of `E` a frame only makes commands that satisfy it.  Then both
hold along every run. -/
theorem invariant
    (hengine : ∀ e d, E e → (∀ c, d.command = some c → P e c) → D e d →
      E (e.deskStep d))
    (hmono : ∀ e d c, E e → D e d → P e c → P (e.deskStep d) c)
    (hown : ∀ e a own, D e (.engine a own))
    (hframe : ∀ (g : Gui) e input, E e → F e.view input →
      ∀ c ∈ (g.frame e.view input).2, P e c)
    {app app' : App} (h : Keeps E P app) {as : List AppStep}
    (hadmits : EverySteps step (Admits D F) app as)
    (hrun : exec step app as = some app') :
    Keeps E P app' := by
  refine exec_invariant step ?_ h hadmits hrun
  intro app a app' h hadmits hstep
  cases a with
  | frame input =>
      simp only [step] at hstep
      split_ifs at hstep with hempty
      cases hstep
      refine ⟨h.engine, fun c hc => ?_⟩
      rcases List.mem_append.mp hc with hc | hc
      · exact h.waiting c (List.mem_append_left _ hc)
      · exact hframe app.gui _ input h.engine hadmits c hc
  | post =>
      simp only [step] at hstep
      split at hstep
      next =>
        cases hstep
      next c outbox hout =>
        cases hstep
        refine h.idle rfl fun c' hc' => ?_
        rw [waiting, hout]
        simpa [waiting] using hc'
  | run a other =>
      obtain ⟨loop, hloop, rfl⟩ := Option.map_eq_some_iff.mp hstep
      exact h.ran hengine hmono hown other hadmits hloop

end Rule

end App

end ExecutionLayer
