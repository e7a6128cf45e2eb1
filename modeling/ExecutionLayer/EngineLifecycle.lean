import ExecutionLayer.FeedProcess
import ExecutionLayer.FeedServerThread
import ExecutionLayer.Library.Window

/-!
# Starting and stopping the desk

`TradingEngine::start` launches the engine's thread, which opens the feed
server and then launches the bundled feedhandler; `stop` waits for the thread
and then ends the feedhandler, the server and the stock poller, in this order.
Neither `FeedProcess` nor `FeedServer` protects itself against calls from two
threads, and `thread_` must not be assigned before it was joined.

`desk_shuts_down` says that these calls never overlap, that there is never a
feedhandler without a server for it to write to, and that nothing is left when
`stop` has returned.
-/

namespace ExecutionLayer

open StepSystem

/-- Where the window is in a call of `TradingEngine::stop`. -/
inductive LifePc where
  | idle
  | joining
  | stoppingProc
  | stoppingFeed
  | joiningStocks
deriving DecidableEq, Repr

/-- Where the engine's thread is: before `feed_.start()`, in it, or in its
loop. -/
inductive EnginePc where
  | none
  | ready
  | startingFeed
  | looping
  | done
deriving DecidableEq, Repr

/-- Where the thread of the stock poller is. -/
inductive StocksPc where
  | none
  | looping
  | done
deriving DecidableEq, Repr

structure Lifecycle where
  port : Int := 5020
  running : Bool := false
  owner : LifePc := .idle
  engine : EnginePc := .none
  feed : ServerSockets := {}
  proc : Supervision := {}
  stocksRunning : Bool := false
  stocks : StocksPc := .none
  log : List String := []

/-- A step of the window, of the engine's thread, of the stock poller's, or
one inside the feed server or around the feedhandler. -/
inductive LifeStep where
  | start
  | stop
  | join
  | stopFeed
  | stopStocks
  | joinStocks
  | startFeed (fd : Option Fd)
  | startProc (env : LaunchEnv) (spawned : Option Pid)
  | turn
  | stocksTurn
  | feed (a : SocketStep)
  | proc (a : SuperviseStep)

/-- A step that goes on inside a call, or that a thread or others take. -/
def SocketStep.inner (port : Int) : SocketStep → Bool
  | .start _ => false
  | .stop => false
  | .bind p _ => p = port
  | _ => true

/-- A step that goes on inside a call, or that the feedhandler or others take.
-/
def SuperviseStep.inner : SuperviseStep → Bool
  | .start _ _ _ => false
  | .stop => false
  | .terminalDies _ => false
  | _ => true

namespace Lifecycle

/-- A line is added, and old ones go once there are more than 200. -/
@[irreducible] def pushLine {α : Type} (log : List α) (s : α) : List α :=
  (log ++ [s]).rtake 200

/-- `TradingEngine::log` -/
def logLine (t : Lifecycle) (s : String) : Lifecycle :=
  { t with log := pushLine t.log s }

/-- `StockFeed::start` -/
def startStocks (t : Lifecycle) : Lifecycle :=
  if t.stocksRunning then t
  else { t with stocksRunning := true, stocks := .looping }

/-- `TradingEngine::start` -/
def start (t : Lifecycle) : Lifecycle :=
  if t.running then t
  else { t.startStocks with running := true, engine := .ready }

/-- The engine's thread after `feed_.start()` has returned. -/
def startProc (t : Lifecycle) (env : LaunchEnv) (spawned : Option Pid) :
    Option Lifecycle :=
  if t.feed.running = false then
    some
      { t.logLine ("feed socket failed: " ++ t.feed.err) with
        engine := .looping }
  else
    let t := t.logLine
      ("listening for feedhandler on 127.0.0.1:" ++ toString t.port)
    (t.proc.step (.start env t.port spawned)).map fun proc =>
      let t := { t with proc := proc, engine := .looping }
      if proc.proc.running then t.logLine "started bundled feedhandler"
      else if proc.proc.err ≠ "not bundled" then
        t.logLine ("feedhandler launch failed: " ++ proc.proc.err)
      else t

/-- The engine's thread can be joined. -/
def Ended (t : Lifecycle) : Prop :=
  t.engine = .none ∨ t.engine = .done

instance (t : Lifecycle) : Decidable t.Ended := by
  unfold Ended
  infer_instance

def step (t : Lifecycle) : LifeStep → Option Lifecycle
  | .start => if t.owner = .idle then some t.start else none
  | .stop =>
      if t.owner = .idle then
        some { t with running := false, owner := .joining }
      else none
  | .join =>
      -- `thread_.join()`, and the call of `feed_proc_.stop()`
      if t.owner = .joining ∧ t.Ended then
        (t.proc.step .stop).map fun proc =>
          { t with engine := .none, proc := proc, owner := .stoppingProc }
      else none
  | .stopFeed =>
      if t.owner = .stoppingProc ∧ t.proc.proc.pc = .idle then
        (t.feed.step .stop).map fun feed =>
          { t with feed := feed, owner := .stoppingFeed }
      else none
  | .stopStocks =>
      if t.owner = .stoppingFeed ∧ t.feed.owner = .idle then
        some { t with stocksRunning := false, owner := .joiningStocks }
      else none
  | .joinStocks =>
      if t.owner = .joiningStocks ∧ t.stocks ≠ .looping then
        some { t with stocks := .none, owner := .idle }
      else none
  | .startFeed fd =>
      if t.engine = .ready then
        (t.feed.step (.start fd)).map fun feed =>
          { t with feed := feed, engine := .startingFeed }
      else none
  | .startProc env spawned =>
      if t.engine = .startingFeed ∧ t.feed.owner = .idle then
        t.startProc env spawned
      else none
  | .turn =>
      if t.engine = .looping then
        some { t with engine := if t.running then .looping else .done }
      else none
  | .stocksTurn =>
      if t.stocks = .looping then
        some
          { t with stocks := if t.stocksRunning then .looping else .done }
      else none
  | .feed a =>
      if a.inner t.port then
        (t.feed.step a).map fun feed => { t with feed := feed }
      else none
  | .proc a =>
      if a.inner then
        (t.proc.step a).map fun proc => { t with proc := proc }
      else none

end Lifecycle

/-! ### What goes on inside a component -/

/-- What a step inside the feed server changes for whoever calls it. -/
inductive ServerSockets.Worked (s s' : ServerSockets) : Prop where
  | kept (owner : s'.owner = s.owner) (running : s'.running = s.running)
  | opened (before : s.owner ≠ .idle) (opening : s.owner.opening ≠ ∅)
      (after : s'.owner = .idle ∨ s'.owner.opening ≠ ∅)
  | ended (before : s.owner = .joining ∨ s.owner = .closing)
      (after : s'.owner = .closing ∨ s'.owner = .idle)
      (running : s'.running = s.running)

theorem ServerSockets.worked
    {s s' : ServerSockets} {port : Int} {a : SocketStep}
    (hinner : a.inner port) (hstep : s.step a = some s') :
    s.Worked s' := by
  by_cases hothers : ServerSockets.OfOthers a
  · obtain ⟨table, room, rfl, _⟩ := ServerSockets.step_others hothers hstep
    exact .kept rfl rfl
  · rw [ServerSockets.step_own (Bool.not_eq_true _ ▸ hothers)] at hstep
    split_ifs at hstep with hthread
    · obtain ⟨howner, hrunning, _⟩ := ServerSockets.threadStep_frame hstep
      exact .kept howner hrunning
    · cases a with
      | start fd =>
          cases hinner
      | stop =>
          cases hinner
      | bind port ok =>
          simp only [ServerSockets.ownerStep] at hstep
          split at hstep
          next fd hbinding =>
            cases hstep
            refine .opened (by rw [hbinding]; rintro ⟨⟩)
              (by rw [hbinding]; exact Finset.singleton_ne_empty fd) ?_
            simp only [ServerSockets.bind]
            split_ifs
            · exact Or.inr (Finset.singleton_ne_empty fd)
            · exact Or.inl rfl
          next =>
            cases hstep
      | listen ok =>
          simp only [ServerSockets.ownerStep] at hstep
          split at hstep
          next fd hlistening =>
            cases hstep
            refine .opened (by rw [hlistening]; rintro ⟨⟩)
              (by rw [hlistening]; exact Finset.singleton_ne_empty fd) ?_
            simp only [ServerSockets.listen]
            split_ifs
            · exact Or.inl rfl
            · exact Or.inl rfl
          next =>
            cases hstep
      | join =>
          simp only [ServerSockets.ownerStep] at hstep
          split_ifs at hstep with hjoin
          cases hstep
          exact .ended (Or.inl hjoin.1) (Or.inl rfl) rfl
      | close =>
          simp only [ServerSockets.ownerStep] at hstep
          split_ifs at hstep with hclosing
          cases hstep
          refine .ended (Or.inr hclosing) (Or.inr rfl) ?_
          simp only [ServerSockets.close]
          split_ifs <;> rfl
      | _ =>
          cases hstep

/-- What a step around the feedhandler changes for whoever calls it. -/
inductive Supervision.Worked (s s' : Supervision) : Prop where
  | kept (proc : s'.proc = s.proc)
  | turned (before : s.proc.pc ≠ .idle)
      (running : s'.proc.running → s.proc.running)
      (stopping : s'.Stopping)

theorem Supervision.worked
    {s s' : Supervision} {a : SuperviseStep}
    (hinner : a.inner) (hstep : s.step a = some s') :
    s.Worked s' ∧ s'.alive = s.alive := by
  cases a with
  | start env port spawned =>
      cases hinner
  | stop =>
      cases hinner
  | terminalDies reaper =>
      cases hinner
  | poll =>
      simp only [Supervision.step] at hstep
      split at hstep
      next i hpc =>
        split_ifs at hstep with halive
        cases hstep
        simp only [Supervision.poll]
        split_ifs
        · exact ⟨.turned (by rw [hpc]; rintro ⟨⟩)
            (fun hnone => by cases hnone) (Or.inr rfl), rfl⟩
        · exact ⟨.turned (by rw [hpc]; rintro ⟨⟩) id
            (Or.inl (by rintro ⟨⟩)), rfl⟩
        · exact ⟨.turned (by rw [hpc]; rintro ⟨⟩) id
            (Or.inl (by rintro ⟨⟩)), rfl⟩
      next =>
        cases hstep
  | wait =>
      simp only [Supervision.step] at hstep
      split_ifs at hstep with hwait
      cases hstep
      exact ⟨.turned (by rw [hwait.2.1]; rintro ⟨⟩)
        (fun hnone => by cases hnone) (Or.inr rfl), rfl⟩
  | childEnds pid =>
      simp only [Supervision.step] at hstep
      split_ifs at hstep
      cases hstep
      exact ⟨.kept (s.childEnds_proc pid), s.childEnds_alive pid⟩
  | watchParent pid =>
      simp only [Supervision.step] at hstep
      split_ifs at hstep
      · cases hstep
        exact ⟨.kept rfl, rfl⟩
      · cases hstep
        exact ⟨.kept (s.childEnds_proc pid), s.childEnds_alive pid⟩
  | foreign f =>
      obtain ⟨table, _, rfl⟩ := Option.map_eq_some_iff.mp hstep
      exact ⟨.kept rfl, rfl⟩

/-! ### What holds when -/

/-- The feed server is not running and no call of it is under way. -/
def ServerSockets.Down (s : ServerSockets) : Prop :=
  s.running = false ∧ s.owner = .idle

/-- There is no feedhandler and no call of `stop` is under way. -/
def Supervision.NoChild (s : Supervision) : Prop :=
  s.proc.running = false ∧ s.proc.pc = .idle

theorem ServerSockets.Worked.idle
    {s s' : ServerSockets} (h : s.Worked s') (hidle : s.owner = .idle) :
    s'.owner = .idle ∧ s'.running = s.running := by
  cases h with
  | kept howner hrunning =>
      exact ⟨howner.trans hidle, hrunning⟩
  | opened hbefore =>
      exact absurd hidle hbefore
  | ended hbefore =>
      rw [hidle] at hbefore
      rcases hbefore with hbefore | hbefore <;> cases hbefore

theorem ServerSockets.Worked.down
    {s s' : ServerSockets} (h : s.Worked s') (hdown : s.Down) :
    s'.Down :=
  ⟨(h.idle hdown.2).2.trans hdown.1, (h.idle hdown.2).1⟩

theorem Supervision.Worked.idle
    {s s' : Supervision} (h : s.Worked s') (hidle : s.proc.pc = .idle) :
    s'.proc = s.proc := by
  cases h with
  | kept hproc =>
      exact hproc
  | turned hbefore =>
      exact absurd hidle hbefore

theorem Supervision.Worked.noChild
    {s s' : Supervision} (h : s.Worked s') (hnone : s.NoChild) :
    s'.NoChild := by
  rw [Supervision.NoChild, h.idle hnone.2]
  exact hnone

namespace Lifecycle

/-- The window is elsewhere, or it waits for the engine's thread. -/
def Waits (running : Bool) (owner : LifePc) : Prop :=
  running = true ∧ owner = .idle ∨ running = false ∧ owner = .joining

/-- The stages of a desk, by where its threads are.  A feedhandler needs a
server that runs. -/
inductive Stage (feed : ServerSockets) (proc : Supervision) :
    Bool → LifePc → EnginePc → Prop where
  | down (hfeed : feed.Down) (hproc : proc.NoChild) :
      Stage feed proc false .idle .none
  | ready {running : Bool} {owner : LifePc} (waits : Waits running owner)
      (hfeed : feed.Down) (hproc : proc.NoChild) :
      Stage feed proc running owner .ready
  | startingFeed {running : Bool} {owner : LifePc}
      (waits : Waits running owner)
      (hfeed : feed.owner = .idle ∨ feed.owner.opening ≠ ∅)
      (hproc : proc.NoChild) :
      Stage feed proc running owner .startingFeed
  | looping {running : Bool} {owner : LifePc}
      (waits : Waits running owner) (hfeed : feed.owner = .idle)
      (hproc : proc.proc.pc = .idle)
      (child : proc.proc.running → feed.running) :
      Stage feed proc running owner .looping
  | done (hfeed : feed.owner = .idle) (hproc : proc.proc.pc = .idle)
      (child : proc.proc.running → feed.running) :
      Stage feed proc false .joining .done
  | unstarted (hfeed : feed.Down) (hproc : proc.NoChild) :
      Stage feed proc false .joining .none
  | stoppingProc (hfeed : feed.owner = .idle) (hproc : proc.Stopping)
      (child : proc.proc.running → feed.running) :
      Stage feed proc false .stoppingProc .none
  | stoppingFeed (hfeed : feed.Stopping) (hproc : proc.NoChild) :
      Stage feed proc false .stoppingFeed .none
  | joiningStocks (hfeed : feed.Down) (hproc : proc.NoChild) :
      Stage feed proc false .joiningStocks .none

namespace Stage

variable {feed feed' : ServerSockets} {proc proc' : Supervision}
variable {running : Bool} {owner : LifePc} {engine : EnginePc}

/-- A feedhandler has a server to write to. -/
theorem child (h : Stage feed proc running owner engine)
    (hchild : proc.proc.running) :
    feed.running := by
  have hnone : ¬ proc.NoChild := by
    rintro ⟨hnone, _⟩
    rw [hchild] at hnone
    cases hnone
  cases h with
  | looping _ _ _ child =>
      exact child hchild
  | done _ _ child =>
      exact child hchild
  | stoppingProc _ _ child =>
      exact child hchild
  | _ =>
      exact absurd ‹proc.NoChild› hnone

theorem feedWorks (h : Stage feed proc running owner engine)
    (hworked : feed.Worked feed') :
    Stage feed' proc running owner engine := by
  cases h with
  | down hfeed hproc =>
      exact .down (hworked.down hfeed) hproc
  | ready waits hfeed hproc =>
      exact .ready waits (hworked.down hfeed) hproc
  | startingFeed waits hfeed hproc =>
      refine .startingFeed waits ?_ hproc
      cases hworked with
      | kept howner =>
          rw [howner]
          exact hfeed
      | opened _ _ hafter =>
          exact hafter
      | ended hbefore =>
          rcases hfeed with hfeed | hfeed
          · rw [hfeed] at hbefore
            rcases hbefore with hbefore | hbefore <;> cases hbefore
          · rcases hbefore with hbefore | hbefore <;>
              exact absurd (by rw [hbefore]; rfl) hfeed
  | looping waits hfeed hproc child =>
      obtain ⟨hidle, hsame⟩ := hworked.idle hfeed
      exact .looping waits hidle hproc (hsame ▸ child)
  | done hfeed hproc child =>
      obtain ⟨hidle, hsame⟩ := hworked.idle hfeed
      exact .done hidle hproc (hsame ▸ child)
  | unstarted hfeed hproc =>
      exact .unstarted (hworked.down hfeed) hproc
  | stoppingProc hfeed hproc child =>
      obtain ⟨hidle, hsame⟩ := hworked.idle hfeed
      exact .stoppingProc hidle hproc (hsame ▸ child)
  | stoppingFeed hfeed hproc =>
      refine .stoppingFeed ?_ hproc
      cases hworked with
      | kept howner hrunning =>
          exact ⟨hrunning.trans hfeed.1, by rw [howner]; exact hfeed.2⟩
      | opened _ hopening =>
          exact absurd hfeed.2 hopening
      | ended _ hafter hrunning =>
          refine ⟨hrunning.trans hfeed.1, ?_⟩
          rcases hafter with hafter | hafter <;> rw [hafter] <;> rfl
  | joiningStocks hfeed hproc =>
      exact .joiningStocks (hworked.down hfeed) hproc

theorem procWorks (h : Stage feed proc running owner engine)
    (hworked : proc.Worked proc') :
    Stage feed proc' running owner engine := by
  cases h with
  | down hfeed hproc =>
      exact .down hfeed (hworked.noChild hproc)
  | ready waits hfeed hproc =>
      exact .ready waits hfeed (hworked.noChild hproc)
  | startingFeed waits hfeed hproc =>
      exact .startingFeed waits hfeed (hworked.noChild hproc)
  | looping waits hfeed hproc child =>
      have hsame := hworked.idle hproc
      exact .looping waits hfeed (hsame ▸ hproc) (hsame ▸ child)
  | done hfeed hproc child =>
      have hsame := hworked.idle hproc
      exact .done hfeed (hsame ▸ hproc) (hsame ▸ child)
  | unstarted hfeed hproc =>
      exact .unstarted hfeed (hworked.noChild hproc)
  | stoppingProc hfeed hproc child =>
      cases hworked with
      | kept hsame =>
          refine .stoppingProc hfeed ?_ (hsame ▸ child)
          rw [Supervision.Stopping, hsame]
          exact hproc
      | turned _ hrunning hstopping =>
          exact .stoppingProc hfeed hstopping fun hchild =>
            child (hrunning hchild)
  | stoppingFeed hfeed hproc =>
      exact .stoppingFeed hfeed (hworked.noChild hproc)
  | joiningStocks hfeed hproc =>
      exact .joiningStocks hfeed (hworked.noChild hproc)

/-- A desk that is not running and not being stopped is down. -/
theorem down_of (h : Stage feed proc running owner engine)
    (hidle : owner = .idle) (hstopped : running = false) :
    engine = .none ∧ feed.Down ∧ proc.NoChild := by
  have hwaits : ¬ Waits running owner := by
    rintro (⟨hrunning, _⟩ | ⟨_, hjoining⟩)
    · rw [hstopped] at hrunning
      cases hrunning
    · rw [hidle] at hjoining
      cases hjoining
  cases h with
  | down hfeed hproc =>
      exact ⟨rfl, hfeed, hproc⟩
  | ready waits =>
      exact absurd waits hwaits
  | startingFeed waits =>
      exact absurd waits hwaits
  | looping waits =>
      exact absurd waits hwaits
  | _ =>
      cases hidle

theorem stop (h : Stage feed proc running owner engine)
    (hidle : owner = .idle) :
    Stage feed proc false .joining engine := by
  have hwaits : Waits false .joining := Or.inr ⟨rfl, rfl⟩
  cases h with
  | down hfeed hproc =>
      exact .unstarted hfeed hproc
  | ready _ hfeed hproc =>
      exact .ready hwaits hfeed hproc
  | startingFeed _ hfeed hproc =>
      exact .startingFeed hwaits hfeed hproc
  | looping _ hfeed hproc child =>
      exact .looping hwaits hfeed hproc child
  | _ =>
      cases hidle

/-- Before the engine's thread is joined, no call is under way. -/
theorem ended_of (h : Stage feed proc running owner engine)
    (hjoining : owner = .joining) (hended : engine = .none ∨ engine = .done) :
    running = false ∧ feed.owner = .idle ∧ proc.proc.pc = .idle := by
  cases h with
  | done hfeed hproc =>
      exact ⟨rfl, hfeed, hproc⟩
  | unstarted hfeed hproc =>
      exact ⟨rfl, hfeed.2, hproc.2⟩
  | down =>
      cases hjoining
  | stoppingProc =>
      cases hjoining
  | stoppingFeed =>
      cases hjoining
  | joiningStocks =>
      cases hjoining
  | _ =>
      rcases hended with hended | hended <;> cases hended

/-- After the join, where the window is in `stop` says what is left. -/
theorem joined_of (h : Stage feed proc running owner engine)
    (hbusy : owner ≠ .idle) (hjoined : owner ≠ .joining) :
    running = false ∧ engine = .none ∧
      (owner = .stoppingProc → feed.owner = .idle ∧ proc.Stopping) ∧
      (owner = .stoppingFeed → feed.Stopping ∧ proc.NoChild) ∧
      (owner = .joiningStocks → feed.Down ∧ proc.NoChild) := by
  have hwaits : ¬ Waits running owner := by
    rintro (⟨_, hidle⟩ | ⟨_, hjoining⟩)
    · exact hbusy hidle
    · exact hjoined hjoining
  cases h with
  | down =>
      exact absurd rfl hbusy
  | ready waits =>
      exact absurd waits hwaits
  | startingFeed waits =>
      exact absurd waits hwaits
  | looping waits =>
      exact absurd waits hwaits
  | done =>
      exact absurd rfl hjoined
  | unstarted =>
      exact absurd rfl hjoined
  | stoppingProc hfeed hproc =>
      refine ⟨rfl, rfl, fun _ => ⟨hfeed, hproc⟩, ?_, ?_⟩ <;> rintro ⟨⟩
  | stoppingFeed hfeed hproc =>
      refine ⟨rfl, rfl, ?_, fun _ => ⟨hfeed, hproc⟩, ?_⟩ <;> rintro ⟨⟩
  | joiningStocks hfeed hproc =>
      refine ⟨rfl, rfl, ?_, ?_, fun _ => ⟨hfeed, hproc⟩⟩ <;> rintro ⟨⟩

/-- What holds where the engine's thread is. -/
theorem engine_of (h : Stage feed proc running owner engine)
    (hstarted : engine ≠ .none) (hruns : engine ≠ .done) :
    Waits running owner ∧
      (engine = .ready → feed.Down ∧ proc.NoChild) ∧
      (engine = .startingFeed →
        (feed.owner = .idle ∨ feed.owner.opening ≠ ∅) ∧ proc.NoChild) ∧
      (engine = .looping → feed.owner = .idle ∧ proc.proc.pc = .idle) := by
  cases h with
  | ready waits hfeed hproc =>
      refine ⟨waits, fun _ => ⟨hfeed, hproc⟩, ?_, ?_⟩ <;> rintro ⟨⟩
  | startingFeed waits hfeed hproc =>
      refine ⟨waits, ?_, fun _ => ⟨hfeed, hproc⟩, ?_⟩ <;> rintro ⟨⟩
  | looping waits hfeed hproc =>
      refine ⟨waits, ?_, ?_, fun _ => ⟨hfeed, hproc⟩⟩ <;> rintro ⟨⟩
  | done =>
      exact absurd rfl hruns
  | _ =>
      exact absurd rfl hstarted

end Stage

structure Ordered (t : Lifecycle) : Prop where
  sockets : t.feed.Accounted
  processes : t.proc.Accounted
  alive : t.proc.alive
  stage : Stage t.feed t.proc t.running t.owner t.engine
  stocks : t.owner = .idle → t.running = false →
    t.stocks = .none ∧ t.stocksRunning = false
  stocksEnd : t.owner = .joiningStocks → t.stocksRunning = false

theorem ordered_boot (port : Int) : Ordered { port := port } where
  sockets := ServerSockets.accounted_boot
  processes := Supervision.accounted_boot 2
  alive := rfl
  stage := .down ⟨rfl, rfl⟩ ⟨rfl, rfl⟩
  stocks := fun _ _ => ⟨rfl, rfl⟩
  stocksEnd := fun h => by cases h

section Steps

variable {t t' : Lifecycle}

theorem Ordered.start (h : t.Ordered) (hidle : t.owner = .idle) :
    t.start.Ordered := by
  rw [Lifecycle.start]
  split_ifs with hrunning
  · exact h
  · have hstopped : t.running = false := Bool.not_eq_true _ ▸ hrunning
    obtain ⟨_, hfeed, hproc⟩ := h.stage.down_of hidle hstopped
    obtain ⟨_, hstocks⟩ := h.stocks hidle hstopped
    rw [startStocks, if_neg (by simp [hstocks])]
    refine ⟨h.sockets, h.processes, h.alive,
      .ready (Or.inl ⟨rfl, hidle⟩) hfeed hproc, ?_, ?_⟩
    · rintro _ ⟨⟩
    · intro hjoining
      rw [hidle] at hjoining
      cases hjoining

theorem Ordered.stop (h : t.Ordered) (hidle : t.owner = .idle) :
    Ordered { t with running := false, owner := .joining } :=
  ⟨h.sockets, h.processes, h.alive, h.stage.stop hidle, by rintro ⟨⟩,
    by rintro ⟨⟩⟩

theorem Ordered.join
    (h : t.Ordered) (hjoining : t.owner = .joining) (hended : t.Ended)
    {proc : Supervision} (hproc : t.proc.step .stop = some proc) :
    Ordered
      { t with engine := .none, proc := proc, owner := .stoppingProc } := by
  obtain ⟨hstopped, hfeed, hidle⟩ := h.stage.ended_of hjoining hended
  have hcalled : proc.Stopping ∧ proc.alive = t.proc.alive ∧
      proc.proc.running = t.proc.proc.running := by
    simp only [Supervision.step, h.alive, hidle, true_and, if_true] at hproc
    cases hproc
    rw [Supervision.stop]
    split_ifs with hnone
    · exact ⟨Or.inr hnone, rfl, rfl⟩
    · exact ⟨Or.inl (by rintro ⟨⟩), rfl, rfl⟩
  obtain ⟨hstopping, halive, hsame⟩ := hcalled
  refine ⟨h.sockets, h.processes.step hproc, halive.trans h.alive, ?_,
    by rintro ⟨⟩, by rintro ⟨⟩⟩
  change Stage t.feed proc t.running .stoppingProc .none
  rw [hstopped]
  exact .stoppingProc hfeed hstopping fun hchild =>
    h.stage.child (hsame ▸ hchild)

theorem Ordered.stopFeed
    (h : t.Ordered) (howner : t.owner = .stoppingProc)
    (hpc : t.proc.proc.pc = .idle)
    {feed : ServerSockets} (hfeed : t.feed.step .stop = some feed) :
    Ordered { t with feed := feed, owner := .stoppingFeed } := by
  obtain ⟨hstopped, hengine, hcalm, _⟩ := h.stage.joined_of
    (by rw [howner]; rintro ⟨⟩) (by rw [howner]; rintro ⟨⟩)
  obtain ⟨_, hstopping⟩ := hcalm howner
  have hnone : t.proc.NoChild :=
    ⟨hstopping.resolve_left (not_not.mpr hpc), hpc⟩
  refine ⟨h.sockets.step hfeed, h.processes, h.alive, ?_, by rintro ⟨⟩,
    by rintro ⟨⟩⟩
  change Stage feed t.proc t.running .stoppingFeed t.engine
  rw [hstopped, hengine]
  exact .stoppingFeed (.of_stop hfeed) hnone

theorem Ordered.stopStocks
    (h : t.Ordered) (howner : t.owner = .stoppingFeed)
    (hidle : t.feed.owner = .idle) :
    Ordered { t with stocksRunning := false, owner := .joiningStocks } := by
  obtain ⟨hstopped, hengine, _, hcalm, _⟩ := h.stage.joined_of
    (by rw [howner]; rintro ⟨⟩) (by rw [howner]; rintro ⟨⟩)
  obtain ⟨hfeed, hnone⟩ := hcalm howner
  refine ⟨h.sockets, h.processes, h.alive, ?_, by rintro ⟨⟩, fun _ => rfl⟩
  change Stage t.feed t.proc t.running .joiningStocks t.engine
  rw [hstopped, hengine]
  exact .joiningStocks ⟨hfeed.1, hidle⟩ hnone

theorem Ordered.joinStocks
    (h : t.Ordered) (howner : t.owner = .joiningStocks) :
    Ordered { t with stocks := .none, owner := .idle } := by
  obtain ⟨hstopped, hengine, _, _, hcalm⟩ := h.stage.joined_of
    (by rw [howner]; rintro ⟨⟩) (by rw [howner]; rintro ⟨⟩)
  obtain ⟨hfeed, hnone⟩ := hcalm howner
  refine ⟨h.sockets, h.processes, h.alive, ?_,
    fun _ _ => ⟨rfl, h.stocksEnd howner⟩, by rintro ⟨⟩⟩
  change Stage t.feed t.proc t.running .idle t.engine
  rw [hstopped, hengine]
  exact .down hfeed hnone

theorem Ordered.startFeed
    (h : t.Ordered) (hready : t.engine = .ready) {fd : Option Fd}
    {feed : ServerSockets} (hfeed : t.feed.step (.start fd) = some feed) :
    Ordered { t with feed := feed, engine := .startingFeed } := by
  obtain ⟨hwaits, hcalm, _⟩ := h.stage.engine_of
    (by rw [hready]; rintro ⟨⟩) (by rw [hready]; rintro ⟨⟩)
  obtain ⟨⟨hstopped, hidle⟩, hnone⟩ := hcalm hready
  have hcalled : feed.owner = .idle ∨ feed.owner.opening ≠ ∅ := by
    rw [ServerSockets.step_owner rfl rfl, ServerSockets.ownerStep,
      if_pos hidle] at hfeed
    simp only [ServerSockets.start, hstopped, Bool.false_eq_true,
      if_false] at hfeed
    cases fd with
    | none =>
        cases hfeed
        exact Or.inl hidle
    | some fd =>
        simp only at hfeed
        split_ifs at hfeed
        cases hfeed
        exact Or.inr (Finset.singleton_ne_empty fd)
  exact ⟨h.sockets.step hfeed, h.processes, h.alive,
    .startingFeed hwaits hcalled hnone, h.stocks, h.stocksEnd⟩

theorem Ordered.logLine (h : t.Ordered) (s : String) :
    (t.logLine s).Ordered :=
  ⟨h.sockets, h.processes, h.alive, h.stage, h.stocks, h.stocksEnd⟩

/-- The engine's thread goes on to its loop. -/
theorem Ordered.loops
    (h : t.Ordered) (hidle : t.feed.owner = .idle)
    (hwaits : Waits t.running t.owner) {proc : Supervision}
    (hproc : proc.Accounted) (halive : proc.alive)
    (hpc : proc.proc.pc = .idle)
    (hchild : proc.proc.running → t.feed.running) :
    Ordered { t with proc := proc, engine := .looping } :=
  ⟨h.sockets, hproc, halive, .looping hwaits hidle hpc hchild, h.stocks,
    h.stocksEnd⟩

theorem Ordered.startProc
    (h : t.Ordered) (hstarting : t.engine = .startingFeed)
    (hidle : t.feed.owner = .idle) {env : LaunchEnv}
    {spawned : Option Pid} (hstep : t.startProc env spawned = some t') :
    t'.Ordered := by
  obtain ⟨hwaits, _, hcalm, _⟩ := h.stage.engine_of
    (by rw [hstarting]; rintro ⟨⟩) (by rw [hstarting]; rintro ⟨⟩)
  obtain ⟨_, hnone, hpc⟩ := hcalm hstarting
  simp only [Lifecycle.startProc] at hstep
  by_cases hfailed : t.feed.running = false
  · rw [if_pos hfailed] at hstep
    cases hstep
    exact (h.logLine _).loops hidle hwaits h.processes h.alive hpc
      fun hchild => h.stage.child hchild
  · rw [if_neg hfailed] at hstep
    obtain ⟨proc, hproc, rfl⟩ := Option.map_eq_some_iff.mp hstep
    have hserver : t.feed.running := by
      simpa using hfailed
    have hproc' : t.proc.step (.start env t.port spawned) = some proc :=
      hproc
    have hcalled : proc.proc.pc = .idle ∧ proc.alive := by
      simp only [Supervision.step, h.alive, hpc, true_and, if_true]
        at hproc'
      obtain ⟨hsame, halive⟩ := Supervision.start_frame hproc'
      exact ⟨hsame.trans hpc, halive.trans h.alive⟩
    have hloops := (h.logLine
      ("listening for feedhandler on 127.0.0.1:" ++ toString t.port)).loops
        hidle hwaits (h.processes.step hproc') hcalled.2 hcalled.1
        fun _ => hserver
    split_ifs
    · exact hloops.logLine _
    · exact hloops.logLine _
    · exact hloops

theorem Ordered.turn (h : t.Ordered) (hlooping : t.engine = .looping) :
    Ordered
      { t with engine := if t.running then .looping else .done } := by
  obtain ⟨hwaits, _, _, hcalm⟩ := h.stage.engine_of
    (by rw [hlooping]; rintro ⟨⟩) (by rw [hlooping]; rintro ⟨⟩)
  obtain ⟨hfeed, hproc⟩ := hcalm hlooping
  refine ⟨h.sockets, h.processes, h.alive, ?_, h.stocks, h.stocksEnd⟩
  change Stage t.feed t.proc t.running t.owner
    (if t.running then .looping else .done)
  have hchild : t.proc.proc.running → t.feed.running := h.stage.child
  rcases hwaits with ⟨hrunning, howner⟩ | ⟨hrunning, howner⟩
  · rw [if_pos hrunning]
    exact .looping (Or.inl ⟨hrunning, howner⟩) hfeed hproc hchild
  · rw [hrunning, howner, if_neg Bool.false_ne_true]
    exact .done hfeed hproc hchild

theorem Ordered.stocksTurn (h : t.Ordered) (hlooping : t.stocks = .looping) :
    Ordered
      { t with
        stocks := if t.stocksRunning then .looping else .done } := by
  refine ⟨h.sockets, h.processes, h.alive, h.stage, ?_, h.stocksEnd⟩
  intro hidle hstopped
  obtain ⟨hnone, _⟩ := h.stocks hidle hstopped
  rw [hlooping] at hnone
  cases hnone

theorem Ordered.step (h : t.Ordered) {a : LifeStep}
    (hstep : t.step a = some t') :
    t'.Ordered := by
  cases a with
  | start =>
      simp only [Lifecycle.step] at hstep
      split_ifs at hstep with hidle
      cases hstep
      exact h.start hidle
  | stop =>
      simp only [Lifecycle.step] at hstep
      split_ifs at hstep with hidle
      cases hstep
      exact h.stop hidle
  | join =>
      simp only [Lifecycle.step] at hstep
      split_ifs at hstep with hjoin
      obtain ⟨proc, hproc, rfl⟩ := Option.map_eq_some_iff.mp hstep
      exact h.join hjoin.1 hjoin.2 hproc
  | stopFeed =>
      simp only [Lifecycle.step] at hstep
      split_ifs at hstep with hcall
      obtain ⟨feed, hfeed, rfl⟩ := Option.map_eq_some_iff.mp hstep
      exact h.stopFeed hcall.1 hcall.2 hfeed
  | stopStocks =>
      simp only [Lifecycle.step] at hstep
      split_ifs at hstep with hcall
      cases hstep
      exact h.stopStocks hcall.1 hcall.2
  | joinStocks =>
      simp only [Lifecycle.step] at hstep
      split_ifs at hstep with hcall
      cases hstep
      exact h.joinStocks hcall.1
  | startFeed fd =>
      simp only [Lifecycle.step] at hstep
      split_ifs at hstep with hready
      obtain ⟨feed, hfeed, rfl⟩ := Option.map_eq_some_iff.mp hstep
      exact h.startFeed hready hfeed
  | startProc env spawned =>
      simp only [Lifecycle.step] at hstep
      split_ifs at hstep with hcall
      exact h.startProc hcall.1 hcall.2 hstep
  | turn =>
      simp only [Lifecycle.step] at hstep
      by_cases hlooping : t.engine = .looping
      · rw [if_pos hlooping] at hstep
        cases hstep
        exact h.turn hlooping
      · rw [if_neg hlooping] at hstep
        cases hstep
  | stocksTurn =>
      simp only [Lifecycle.step] at hstep
      by_cases hlooping : t.stocks = .looping
      · rw [if_pos hlooping] at hstep
        cases hstep
        exact h.stocksTurn hlooping
      · rw [if_neg hlooping] at hstep
        cases hstep
  | feed a =>
      simp only [Lifecycle.step] at hstep
      split_ifs at hstep with hinner
      obtain ⟨feed, hfeed, rfl⟩ := Option.map_eq_some_iff.mp hstep
      exact ⟨h.sockets.step hfeed, h.processes, h.alive,
        h.stage.feedWorks (ServerSockets.worked hinner hfeed), h.stocks,
        h.stocksEnd⟩
  | proc a =>
      simp only [Lifecycle.step] at hstep
      split_ifs at hstep with hinner
      obtain ⟨proc, hproc, rfl⟩ := Option.map_eq_some_iff.mp hstep
      obtain ⟨hworked, halive⟩ := Supervision.worked hinner hproc
      exact ⟨h.sockets, h.processes.step hproc, halive.trans h.alive,
        h.stage.procWorks hworked, h.stocks, h.stocksEnd⟩

end Steps

/-- A call of `feed_` is next. -/
def CallsFeed (t : Lifecycle) : Prop :=
  t.engine = .ready ∨ t.owner = .stoppingProc ∧ t.proc.proc.pc = .idle

/-- A call of `feed_proc_` is next. -/
def CallsProc (t : Lifecycle) : Prop :=
  t.engine = .startingFeed ∧ t.feed.owner = .idle ∨
    t.owner = .joining ∧ t.Ended

/-- Nothing is left of a desk: no thread, no process and no socket. -/
structure Gone (t : Lifecycle) : Prop where
  engine : t.engine = .none
  stocks : t.stocks = .none
  server : t.feed.thread = .none
  processes : t.proc.table.ours = ∅
  sockets : t.feed.table.ours = ∅

theorem Ordered.gone
    {t : Lifecycle} (h : t.Ordered) (hidle : t.owner = .idle)
    (hstopped : t.running = false) :
    t.Gone := by
  obtain ⟨hengine, hfeed, hproc⟩ := h.stage.down_of hidle hstopped
  obtain ⟨hours, _, hthread, _⟩ := h.sockets.down hfeed.2 hfeed.1
  refine ⟨hengine, (h.stocks hidle hstopped).1, hthread, ?_, hours⟩
  rw [h.processes.ours h.alive, Supervision.held_of_not_running hproc.1]

/-- **A desk shuts down in order.**  The window starts and stops the desk as
often as it likes, the threads, the feedhandler and everybody else act in any
order.  No call of the server or of the feedhandler's process is made while
another one is under way, a feedhandler only lives while the server listens,
no signal or socket call reaches somebody else's, and whenever the desk is
stopped nothing of it is left. -/
theorem desk_shuts_down
    {port : Int} {as : List LifeStep} {t : Lifecycle}
    (hrun : exec step { port := port } as = some t) :
    t.proc.table.trespassed = ∅ ∧ t.feed.table.trespassed = ∅ ∧
      (t.proc.table.ours ≠ ∅ →
        t.feed.running ∧ t.feed.listenFd ∈ t.feed.table.ours) ∧
      (t.CallsFeed → t.feed.owner = .idle) ∧
      (t.CallsProc → t.proc.proc.pc = .idle) ∧
      (t.owner = .idle → t.running = false → t.Gone) := by
  have h : t.Ordered :=
    exec_invariant_of_step step (fun t a t' h hstep => h.step hstep)
      (ordered_boot port) hrun
  refine ⟨h.processes.holds.clean, h.sockets.holds.clean, ?_, ?_, ?_,
    h.gone⟩
  · intro hsome
    have hchild : t.proc.proc.running := by
      by_contra hnone
      refine hsome ?_
      rw [h.processes.ours h.alive,
        Supervision.held_of_not_running (Bool.not_eq_true _ ▸ hnone)]
    have hrunning := h.stage.child hchild
    obtain ⟨_, _, hstarted⟩ := h.sockets.phase.up_of hrunning
    refine ⟨hrunning, ?_⟩
    rw [h.sockets.holds.ours, h.sockets.held_eq hstarted]
    exact Finset.mem_insert_self _ _
  · rintro (hready | ⟨howner, _⟩)
    · obtain ⟨_, hcalm, _⟩ := h.stage.engine_of
        (by rw [hready]; rintro ⟨⟩) (by rw [hready]; rintro ⟨⟩)
      exact (hcalm hready).1.2
    · obtain ⟨_, _, hcalm, _⟩ := h.stage.joined_of
        (by rw [howner]; rintro ⟨⟩) (by rw [howner]; rintro ⟨⟩)
      exact (hcalm howner).1
  · rintro (⟨hstarting, _⟩ | ⟨hjoining, hended⟩)
    · obtain ⟨_, _, hcalm, _⟩ := h.stage.engine_of
        (by rw [hstarting]; rintro ⟨⟩) (by rw [hstarting]; rintro ⟨⟩)
      exact (hcalm hstarting).2.2
    · exact (h.stage.ended_of hjoining hended).2.2

/-- The packaged desk runs and is closed while its feedhandler connects. -/
def closedDesk : List LifeStep :=
  [.start, .startFeed (some 3), .feed (.bind 5020 true),
    .feed (.listen true), .startProc Supervision.packaged (some 42),
    .feed .head, .feed (.poll true), .feed (.accept (some 4)), .turn, .stop,
    .turn, .join, .proc (.childEnds 42), .proc .poll, .stopFeed,
    .feed .attach, .feed .serveHead, .feed .detach,
    .feed .closeClient, .feed .head, .feed .join, .feed .close,
    .stopStocks, .stocksTurn, .joinStocks]

theorem desk_shuts_down_closed :
    ∃ t, exec step { port := 5020 } closedDesk = some t ∧
      t.proc.launched ≠ [] ∧ t.Gone := by
  obtain ⟨t, hrun, hlaunched, hidle, hstopped⟩ :
      ∃ t, exec step { port := 5020 } closedDesk = some t ∧
        t.proc.launched ≠ [] ∧ t.owner = .idle ∧ t.running = false :=
    ⟨_, rfl, by decide, rfl, rfl⟩
  obtain ⟨_, _, _, _, _, hgone⟩ := desk_shuts_down hrun
  exact ⟨t, hrun, hlaunched, hgone hidle hstopped⟩

end Lifecycle

end ExecutionLayer
