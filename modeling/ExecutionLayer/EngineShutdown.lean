import ExecutionLayer.EngineLifecycle

/-!
# A desk that is closed ends

`TradingEngine::stop` waits for the engine's thread, for the feedhandler, for
the server's thread and for the stock poller, one after the other.
`desk_stop_ends` says that it does not wait in a circle: wherever the desk was
when it was closed, the one that `stop` waits for can itself go on until
everything is gone, and the turns that are left are bounded.  Two things are
not in the desk's hands: how long the system takes to end a process that was
sent SIGKILL, and a client of the server that asks and does not read.
-/

namespace ExecutionLayer

open StepSystem

namespace Lifecycle

/-! ### Turns that are left -/

/-- The steps of `stop` itself, where it is, and of the one it waits for. -/
def Awaits : LifePc → LifeStep → Bool
  | .joining, .join => true
  | .joining, .startFeed _ => true
  | .joining, .startProc _ _ => true
  | .joining, .turn => true
  | .joining, .feed (.bind _ _) => true
  | .joining, .feed (.listen _) => true
  | .stoppingProc, .stopFeed => true
  | .stoppingProc, .proc a => Supervision.OwnTurn a
  | .stoppingFeed, .stopStocks => true
  | .stoppingFeed, .feed a => ServerSockets.OwnTurn a
  | .joiningStocks, .stocksTurn => true
  | .joiningStocks, .joinStocks => true
  | _, _ => false

/-- How many turns a call of the server's `start` has left at most. -/
def feedLeft (feed : ServerSockets) : Nat :=
  match feed.owner with
  | .binding _ => 2
  | .listening _ => 1
  | _ => 0

/-- How many turns the engine's thread has left at most once it is told to
stop, those inside the server apart. -/
def engineLeft : EnginePc → Nat
  | .ready => 5
  | .startingFeed => 2
  | .looping => 1
  | _ => 0

def stocksLeft : StocksPc → Nat
  | .looping => 1
  | _ => 0

/-- How many turns a call of `stop` has left at most, those of whom it waits
for included.  A call of `FeedProcess::stop` takes 52 turns and one of
`FeedServer::stop` ten, apart from replies. -/
def turnsLeft (t : Lifecycle) : Nat :=
  match t.owner with
  | .joining =>
      67 + engineLeft t.engine + feedLeft t.feed + t.feed.replies
  | .stoppingProc => 14 + t.proc.turnsLeft + t.feed.replies
  | .stoppingFeed => 3 + t.feed.turnsLeft
  | .joiningStocks => 1 + stocksLeft t.stocks
  | .idle => 0

/-- The replies that a step asks the server for. -/
def asked : LifeStep → Nat
  | .feed a => ServerSockets.asked a
  | _ => 0

/-- A call of the window. -/
def IsCall : LifeStep → Bool
  | .start => true
  | .stop => true
  | _ => false

theorem procLeft_idle {proc : Supervision} (h : proc.proc.pc = .idle) :
    proc.turnsLeft = 0 := by
  rw [Supervision.turnsLeft, h]

/-- Inside the server, a turn of the engine's thread is one turn less. -/
theorem feedLeft_step
    {feed feed' : ServerSockets} {port : Int} {a : SocketStep}
    (hinner : a.inner port) (hstep : feed.step a = some feed') :
    (if Awaits .joining (.feed a) then 1 else 0) + feedLeft feed' ≤
      feedLeft feed := by
  by_cases hothers : ServerSockets.OfOthers a
  · obtain ⟨table, room, rfl, _⟩ := ServerSockets.step_others hothers hstep
    have hother : Awaits .joining (.feed a) = false := by
      cases a <;> first | rfl | cases hothers
    rw [hother]
    exact (Nat.zero_add _).le
  · rw [ServerSockets.step_own (Bool.not_eq_true _ ▸ hothers)] at hstep
    split_ifs at hstep with hthread
    · have howner := (ServerSockets.threadStep_frame hstep).1
      have hother : Awaits .joining (.feed a) = false := by
        cases a <;> first | rfl | cases hthread
      rw [hother, feedLeft, feedLeft, howner]
      exact (Nat.zero_add _).le
    · cases a with
      | start fd =>
          cases hinner
      | stop =>
          cases hinner
      | bind p ok =>
          simp only [ServerSockets.ownerStep] at hstep
          split at hstep
          next fd hbinding =>
            cases hstep
            have hbefore : feedLeft feed = 2 := by
              rw [feedLeft, hbinding]
            rw [hbefore]
            cases ok with
            | true =>
                exact le_rfl
            | false =>
                change 1 + 0 ≤ 2
                omega
          next =>
            cases hstep
      | listen ok =>
          simp only [ServerSockets.ownerStep] at hstep
          split at hstep
          next fd hlistening =>
            cases hstep
            have hbefore : feedLeft feed = 1 := by
              rw [feedLeft, hlistening]
            rw [hbefore]
            cases ok with
            | true =>
                exact le_rfl
            | false =>
                exact le_rfl
          next =>
            cases hstep
      | join =>
          simp only [ServerSockets.ownerStep] at hstep
          split_ifs at hstep with hjoin
          cases hstep
          rw [feedLeft, feedLeft, hjoin.1]
          exact le_rfl
      | close =>
          simp only [ServerSockets.ownerStep] at hstep
          split_ifs at hstep with hclosing
          cases hstep
          rw [feedLeft, feedLeft, hclosing, ServerSockets.close_owner]
          exact le_rfl
      | _ =>
          cases hstep

theorem feedLeft_le (feed : ServerSockets) : feedLeft feed ≤ 2 := by
  rw [feedLeft]
  split <;> omega

theorem stocksLeft_le (stocks : StocksPc) : stocksLeft stocks ≤ 1 := by
  cases stocks <;> simp [stocksLeft]

theorem procLeft_stop
    {proc proc' : Supervision} (hidle : proc.proc.pc = .idle)
    (hstep : proc.step .stop = some proc') :
    proc'.turnsLeft ≤ 52 := by
  simp only [Supervision.step] at hstep
  split_ifs at hstep
  cases hstep
  rw [Supervision.stop]
  split_ifs
  · rw [procLeft_idle hidle]
    omega
  · exact le_rfl

section Ends

variable {t t' : Lifecycle}

theorem startProc_frame
    {env : LaunchEnv} {spawned : Option Pid}
    (hstep : t.startProc env spawned = some t') :
    t'.running = t.running ∧ t'.owner = t.owner ∧ t'.feed = t.feed ∧
      t'.engine = .looping ∧
      (t'.proc = t.proc ∨
        t.proc.step (.start env t.port spawned) = some t'.proc) := by
  simp only [Lifecycle.startProc] at hstep
  by_cases hfailed : t.feed.running = false
  · rw [if_pos hfailed] at hstep
    cases hstep
    exact ⟨rfl, rfl, rfl, rfl, Or.inl rfl⟩
  · rw [if_neg hfailed] at hstep
    obtain ⟨proc, hproc, rfl⟩ := Option.map_eq_some_iff.mp hstep
    split_ifs <;> exact ⟨rfl, rfl, rfl, rfl, Or.inr hproc⟩

/-- While the engine's thread runs in a desk that was told to stop, `stop`
waits for it. -/
theorem Ordered.joining
    (h : t.Ordered) (hstopped : t.running = false)
    (hstarted : t.engine ≠ .none) (hruns : t.engine ≠ .done) :
    t.owner = .joining := by
  rcases (h.stage.engine_of hstarted hruns).1 with ⟨hrunning, _⟩ | ⟨_, ho⟩
  · rw [hstopped] at hrunning
    cases hrunning
  · exact ho

/-- A step inside the server takes a turn from whoever waits for it. -/
theorem turnsLeft_feed
    (h : t.Ordered) {a : SocketStep} (hinner : a.inner t.port)
    {feed : ServerSockets} (hfeed : t.feed.step a = some feed) :
    (if Awaits t.owner (.feed a) then 1 else 0) +
        turnsLeft { t with feed := feed } ≤
      t.turnsLeft + asked (.feed a) := by
  have hreplies : feed.replies ≤ t.feed.replies + asked (.feed a) :=
    ServerSockets.replies_step hfeed
  cases howner : t.owner with
  | idle =>
      simp only [turnsLeft, howner]
      exact Nat.zero_le _
  | joining =>
      have hleft := feedLeft_step hinner hfeed
      simp only [turnsLeft, howner]
      omega
  | stoppingProc =>
      simp only [turnsLeft, howner]
      change 0 + _ ≤ _
      omega
  | stoppingFeed =>
      obtain ⟨_, _, _, hcalm, _⟩ := h.stage.joined_of
        (by rw [howner]; rintro ⟨⟩) (by rw [howner]; rintro ⟨⟩)
      have hcall : ServerSockets.IsCall a = false := by
        cases a <;> first | rfl | cases hinner
      have hleft := ((hcalm howner).1.step hcall hfeed).2
      simp only [turnsLeft, howner]
      change (if ServerSockets.OwnTurn a then 1 else 0) + _ ≤
        _ + ServerSockets.asked a
      omega
  | joiningStocks =>
      simp only [turnsLeft, howner]
      change 0 + _ ≤ _
      omega

/-- So does a step around the feedhandler. -/
theorem turnsLeft_proc
    {a : SuperviseStep} (hinner : a.inner) {proc : Supervision}
    (hproc : t.proc.step a = some proc) :
    (if Awaits t.owner (.proc a) then 1 else 0) +
        turnsLeft { t with proc := proc } ≤
      t.turnsLeft := by
  have hleft := Supervision.turnsLeft_step hproc
    (by rintro rfl; cases hinner)
  cases howner : t.owner with
  | stoppingProc =>
      simp only [turnsLeft, howner]
      change (if Supervision.OwnTurn a then 1 else 0) + _ ≤ _
      omega
  | _ =>
      simp only [turnsLeft, howner]
      exact (Nat.zero_add _).le

/-- Once the desk is told to stop, every awaited turn is one turn less. -/
theorem turnsLeft_step
    (h : t.Ordered) (hstopped : t.running = false) {a : LifeStep}
    (hcall : IsCall a = false) (hstep : t.step a = some t') :
    t'.running = false ∧
      (if Awaits t.owner a then 1 else 0) + t'.turnsLeft ≤
        t.turnsLeft + asked a := by
  cases a with
  | start =>
      cases hcall
  | stop =>
      cases hcall
  | join =>
      simp only [Lifecycle.step] at hstep
      split_ifs at hstep with hjoin
      obtain ⟨proc, hproc, rfl⟩ := Option.map_eq_some_iff.mp hstep
      obtain ⟨_, _, hpc⟩ := h.stage.ended_of hjoin.1 hjoin.2
      have hleft := procLeft_stop hpc hproc
      refine ⟨hstopped, ?_⟩
      simp only [turnsLeft, hjoin.1]
      change 1 + (14 + proc.turnsLeft + t.feed.replies) ≤ _
      omega
  | stopFeed =>
      simp only [Lifecycle.step] at hstep
      split_ifs at hstep with hjoin
      obtain ⟨feed, hfeed, rfl⟩ := Option.map_eq_some_iff.mp hstep
      have hleft := feed.turnsLeft_le
      have hreplies := ServerSockets.replies_step hfeed
      change feed.replies ≤ t.feed.replies + 0 at hreplies
      refine ⟨hstopped, ?_⟩
      simp only [turnsLeft, hjoin.1]
      change 1 + (3 + feed.turnsLeft) ≤ _
      omega
  | stopStocks =>
      simp only [Lifecycle.step] at hstep
      split_ifs at hstep with hjoin
      cases hstep
      have hleft := stocksLeft_le t.stocks
      refine ⟨hstopped, ?_⟩
      simp only [turnsLeft, hjoin.1]
      change 1 + (1 + stocksLeft t.stocks) ≤ _
      omega
  | joinStocks =>
      simp only [Lifecycle.step] at hstep
      split_ifs at hstep with hjoin
      cases hstep
      refine ⟨hstopped, ?_⟩
      simp only [turnsLeft, hjoin.1]
      change 1 + 0 ≤ _
      omega
  | startFeed fd =>
      simp only [Lifecycle.step] at hstep
      split_ifs at hstep with hready
      obtain ⟨feed, hfeed, rfl⟩ := Option.map_eq_some_iff.mp hstep
      have howner := h.joining hstopped (by rw [hready]; rintro ⟨⟩)
        (by rw [hready]; rintro ⟨⟩)
      have hleft := feedLeft_le feed
      have hreplies := ServerSockets.replies_step hfeed
      change feed.replies ≤ t.feed.replies + 0 at hreplies
      refine ⟨hstopped, ?_⟩
      simp only [turnsLeft, howner, hready, engineLeft]
      change 1 + _ ≤ _
      omega
  | startProc env spawned =>
      simp only [Lifecycle.step] at hstep
      split_ifs at hstep with hcalls
      have howner := h.joining hstopped (by rw [hcalls.1]; rintro ⟨⟩)
        (by rw [hcalls.1]; rintro ⟨⟩)
      obtain ⟨hsame, howner', hfeed, hengine⟩ := startProc_frame hstep
      refine ⟨hsame.trans hstopped, ?_⟩
      simp only [turnsLeft, howner', howner, hfeed, hengine, hcalls.1,
        engineLeft]
      change 1 + _ ≤ _
      omega
  | turn =>
      simp only [Lifecycle.step] at hstep
      by_cases hlooping : t.engine = .looping
      · rw [if_pos hlooping, if_neg (by simp [hstopped])] at hstep
        cases hstep
        have howner := h.joining hstopped (by rw [hlooping]; rintro ⟨⟩)
          (by rw [hlooping]; rintro ⟨⟩)
        refine ⟨hstopped, ?_⟩
        simp only [turnsLeft, howner, hlooping, engineLeft]
        change 1 + _ ≤ _
        omega
      · rw [if_neg hlooping] at hstep
        cases hstep
  | stocksTurn =>
      simp only [Lifecycle.step] at hstep
      by_cases hlooping : t.stocks = .looping
      · rw [if_pos hlooping] at hstep
        cases hstep
        refine ⟨hstopped, ?_⟩
        cases howner : t.owner with
        | joiningStocks =>
            have hended := h.stocksEnd howner
            simp only [turnsLeft, howner, hlooping, hended]
            exact le_rfl
        | _ =>
            simp only [turnsLeft, howner]
            exact (Nat.zero_add _).le
      · rw [if_neg hlooping] at hstep
        cases hstep
  | feed a =>
      simp only [Lifecycle.step] at hstep
      split_ifs at hstep with hinner
      obtain ⟨feed, hfeed, rfl⟩ := Option.map_eq_some_iff.mp hstep
      exact ⟨hstopped, turnsLeft_feed h hinner hfeed⟩
  | proc a =>
      simp only [Lifecycle.step] at hstep
      split_ifs at hstep with hinner
      obtain ⟨proc, hproc, rfl⟩ := Option.map_eq_some_iff.mp hstep
      exact ⟨hstopped, turnsLeft_proc hinner hproc⟩

/-- Before the join, the engine's thread has five turns left at most. -/
theorem Stage.left_le
    {feed : ServerSockets} {proc : Supervision} {running : Bool}
    {owner : LifePc} {engine : EnginePc}
    (h : Stage feed proc running owner engine) (hjoining : owner = .joining) :
    engineLeft engine + feedLeft feed ≤ 5 := by
  have hidle : feed.owner = .idle → feedLeft feed = 0 := by
    intro howner
    rw [feedLeft, howner]
  cases h with
  | ready _ hfeed =>
      rw [hidle hfeed.2]
      exact le_rfl
  | startingFeed =>
      have hfeed := feedLeft_le feed
      change 2 + feedLeft feed ≤ 5
      omega
  | looping _ hfeed =>
      rw [hidle hfeed]
      change 1 + 0 ≤ 5
      omega
  | done hfeed =>
      rw [hidle hfeed]
      exact Nat.zero_le 5
  | unstarted hfeed =>
      rw [hidle hfeed.2]
      exact Nat.zero_le 5
  | _ =>
      cases hjoining

/-! ### Nobody waits in a circle -/

/-- `stop` itself, or the very one it waits for, can take a step. -/
def CanGoOn (t : Lifecycle) : Prop :=
  ∃ a, Awaits t.owner a ∧ (t.step a).isSome

/-- `stop` waits for a feedhandler that was sent SIGKILL. -/
def AwaitsKilled (t : Lifecycle) : Prop :=
  t.owner = .stoppingProc ∧ t.proc.proc.pc = .waiting ∧
    t.proc.table.ours = {t.proc.proc.pid} ∧ t.proc.proc.pid ∉ t.proc.ended

/-- `stop` waits for the server's thread, and that for a client to read. -/
def AwaitsReader (t : Lifecycle) : Prop :=
  t.owner = .stoppingFeed ∧ t.feed.owner = .joining ∧ t.feed.Blocked

/-- A turn inside the server can be taken. -/
theorem canGoOn_feed
    (a : SocketStep) (hinner : a.inner t.port)
    (hawaited : Awaits t.owner (.feed a)) (hstep : (t.feed.step a).isSome) :
    t.CanGoOn := by
  refine ⟨.feed a, hawaited, ?_⟩
  simp only [Lifecycle.step]
  rw [if_pos hinner, Option.isSome_map]
  exact hstep

/-- The engine's thread never waits for ever. -/
theorem Ordered.engineGoesOn
    (h : t.Ordered) (hjoining : t.owner = .joining) (hruns : ¬ t.Ended) :
    t.CanGoOn := by
  obtain ⟨hstarted, hundone⟩ := not_or.mp hruns
  obtain ⟨_, hready, hstarting, _⟩ := h.stage.engine_of hstarted hundone
  cases hengine : t.engine with
  | none =>
      exact absurd hengine hstarted
  | done =>
      exact absurd hengine hundone
  | ready =>
      obtain ⟨⟨hstopped, hidle⟩, _⟩ := hready hengine
      refine ⟨.startFeed none, by rw [hjoining]; rfl, ?_⟩
      simp only [Lifecycle.step]
      rw [if_pos hengine, Option.isSome_map, ServerSockets.step_owner rfl rfl,
        ServerSockets.ownerStep, if_pos hidle]
      simp only [ServerSockets.start, hstopped, Bool.false_eq_true, if_false,
        Option.isSome_some]
  | startingFeed =>
      obtain ⟨hopening, hnone, hpc⟩ := hstarting hengine
      cases howner : t.feed.owner with
      | idle =>
          refine ⟨.startProc {} none, by rw [hjoining]; rfl, ?_⟩
          simp only [Lifecycle.step]
          rw [if_pos ⟨hengine, howner⟩]
          simp only [Lifecycle.startProc]
          split_ifs
          · rfl
          · rw [Option.isSome_map]
            change (t.proc.step (.start {} t.port none)).isSome
            simp only [Supervision.step, h.alive, hpc, true_and, if_true,
              Supervision.start, hnone, Bool.false_eq_true, if_false,
              Option.isSome_some]
      | binding fd =>
          refine canGoOn_feed (.bind t.port false) ?_
            (by rw [hjoining]; rfl) ?_
          · exact decide_eq_true rfl
          · rw [ServerSockets.step_owner rfl rfl]
            simp only [ServerSockets.ownerStep, howner, Option.isSome_some]
      | listening fd =>
          refine canGoOn_feed (.listen false) rfl (by rw [hjoining]; rfl) ?_
          rw [ServerSockets.step_owner rfl rfl]
          simp only [ServerSockets.ownerStep, howner, Option.isSome_some]
      | joining =>
          rw [howner] at hopening
          rcases hopening with hopening | hopening
          · cases hopening
          · exact absurd rfl hopening
      | closing =>
          rw [howner] at hopening
          rcases hopening with hopening | hopening
          · cases hopening
          · exact absurd rfl hopening
  | looping =>
      refine ⟨.turn, by rw [hjoining]; rfl, ?_⟩
      simp only [Lifecycle.step]
      rw [if_pos hengine]
      rfl

/-- A call of `stop` that has not returned can go on, or the one that it waits
for can, or it waits for a killed process or for a reader. -/
theorem Ordered.goesOn (h : t.Ordered) (hbusy : t.owner ≠ .idle) :
    t.CanGoOn ∨ t.AwaitsKilled ∨ t.AwaitsReader := by
  by_cases hjoining : t.owner = .joining
  · left
    by_cases hended : t.Ended
    · obtain ⟨_, _, hpc⟩ := h.stage.ended_of hjoining hended
      refine ⟨.join, by rw [hjoining]; rfl, ?_⟩
      simp only [Lifecycle.step]
      rw [if_pos ⟨hjoining, hended⟩, Option.isSome_map]
      simp only [Supervision.step, h.alive, hpc, true_and, if_true,
        Option.isSome_some]
    · exact h.engineGoesOn hjoining hended
  · obtain ⟨_, _, hproc, hfeed, _⟩ := h.stage.joined_of hbusy hjoining
    cases howner : t.owner with
    | idle =>
        exact absurd howner hbusy
    | joining =>
        exact absurd howner hjoining
    | stoppingProc =>
        obtain ⟨hidle, _⟩ := hproc howner
        by_cases hpc : t.proc.proc.pc = .idle
        · refine Or.inl ⟨.stopFeed, by rw [howner]; rfl, ?_⟩
          simp only [Lifecycle.step]
          rw [if_pos ⟨howner, hpc⟩, Option.isSome_map,
            ServerSockets.step_owner rfl rfl, ServerSockets.ownerStep,
            if_pos hidle]
          rfl
        · rcases h.processes.goesOn h.alive hpc with
            ⟨a, hturn, hstep⟩ | hwaits
          · refine Or.inl ⟨.proc a, by rw [howner]; exact hturn, ?_⟩
            have hinner : a.inner := by
              cases a <;> first | rfl | cases hturn
            simp only [Lifecycle.step]
            rw [if_pos hinner, Option.isSome_map]
            exact hstep
          · exact Or.inr (Or.inl ⟨howner, hwaits⟩)
    | stoppingFeed =>
        obtain ⟨hstopping, _⟩ := hfeed howner
        by_cases hidle : t.feed.owner = .idle
        · refine Or.inl ⟨.stopStocks, by rw [howner]; rfl, ?_⟩
          simp only [Lifecycle.step]
          rw [if_pos ⟨howner, hidle⟩]
          rfl
        · rcases hstopping.goesOn hidle with ⟨a, hturn, hstep⟩ | hreads
          · refine Or.inl (canGoOn_feed a ?_ ?_ hstep)
            · cases a <;> first | rfl | cases hturn
            · rw [howner]
              exact hturn
          · exact Or.inr (Or.inr ⟨howner, hreads⟩)
    | joiningStocks =>
        left
        by_cases hlooping : t.stocks = .looping
        · refine ⟨.stocksTurn, by rw [howner]; rfl, ?_⟩
          simp only [Lifecycle.step]
          rw [if_pos hlooping]
          rfl
        · refine ⟨.joinStocks, by rw [howner]; rfl, ?_⟩
          simp only [Lifecycle.step]
          rw [if_pos ⟨howner, hlooping⟩]
          rfl

end Ends

/-- **A call of `stop` ends.**  After the window has closed the desk, until
the next call and whatever else happens, `stop` and those it waits for take 72
more turns at most, and one for each reply that the server is asked for.  At
each moment `stop` or the very one it waits for can go on, or a feedhandler
that was sent SIGKILL has not ended yet, or the server sends a reply to a
client that reads nothing, or the call has returned and nothing of the desk is
left. -/
theorem desk_stop_ends
    {port : Int} {as later : List LifeStep} {s t : Lifecycle}
    (hrun : exec step { port := port } as = some s)
    (hcalls : ∀ a ∈ later, IsCall a = false)
    (hexec : exec step s (.stop :: later) = some t) :
    turns step (fun t => Awaits t.owner) s (.stop :: later) ≤
        72 + s.feed.replies + (later.map asked).sum ∧
      (t.CanGoOn ∨ t.AwaitsKilled ∨ t.AwaitsReader ∨
        t.owner = .idle ∧ t.Gone) := by
  obtain ⟨s', hstop, hlater⟩ := (exec_cons_eq_some _).mp hexec
  have hs : s.Ordered :=
    exec_invariant_of_step step (fun t a t' h hstep => h.step hstep)
      (ordered_boot port) hrun
  have hs' : s'.Ordered := hs.step hstop
  have hcalled : s.owner = .idle ∧ s'.running = false ∧
      s'.owner = .joining ∧ s'.feed = s.feed := by
    simp only [step] at hstop
    split_ifs at hstop with hidle
    cases hstop
    exact ⟨hidle, rfl, rfl, rfl⟩
  obtain ⟨hidle, hstopped, hjoining, hfeed⟩ := hcalled
  obtain ⟨⟨ht, htstopped⟩, hturns⟩ :=
    turns_le step (fun t => Awaits t.owner)
      (I := fun t => t.Ordered ∧ t.running = false)
      (C := fun _ a => IsCall a = false) turnsLeft asked
      (fun t a t' h hcall hstep =>
        let hone := turnsLeft_step h.1 h.2 hcall hstep
        ⟨⟨h.1.step hstep, hone.1⟩, hone.2⟩)
      ⟨hs', hstopped⟩
      (everySteps_of_forall step (fun a ha _ => hcalls a ha) s') hlater
  refine ⟨?_, ?_⟩
  · have hleft := hs'.stage.left_le hjoining
    have hall : s'.turnsLeft =
        67 + engineLeft s'.engine + feedLeft s'.feed + s'.feed.replies := by
      rw [turnsLeft, hjoining]
    rw [turns_cons step _ hstop, hidle, ← hfeed]
    change 0 + _ ≤ _
    omega
  · by_cases hend : t.owner = .idle
    · exact Or.inr (Or.inr (Or.inr ⟨hend, ht.gone hend htstopped⟩))
    · rcases ht.goesOn hend with hgoes | hkilled | hreads
      · exact Or.inl hgoes
      · exact Or.inr (Or.inl hkilled)
      · exact Or.inr (Or.inr (Or.inl hreads))

/-- The desk is closed before its server has been opened. -/
theorem desk_stop_ends_early :
    ∃ s t, exec step { port := 5020 } [.start, .startFeed (some 3)] =
        some s ∧
      exec step s [.stop, .feed (.bind 5020 true), .feed (.listen true)] =
        some t ∧
      turns step (fun t => Awaits t.owner) s
        [.stop, .feed (.bind 5020 true), .feed (.listen true)] = 2 ∧
      (t.CanGoOn ∨ t.AwaitsKilled ∨ t.AwaitsReader ∨
        t.owner = .idle ∧ t.Gone) := by
  obtain ⟨s, t, hrun, hexec, hturns⟩ :
      ∃ s t, exec step { port := 5020 } [.start, .startFeed (some 3)] =
          some s ∧
        exec step s
            [.stop, .feed (.bind 5020 true), .feed (.listen true)] =
          some t ∧
        turns step (fun t => Awaits t.owner) s
          [.stop, .feed (.bind 5020 true), .feed (.listen true)] = 2 :=
    ⟨_, _, rfl, rfl, rfl⟩
  obtain ⟨_, hends⟩ := desk_stop_ends hrun (by
    intro a ha
    rcases List.mem_cons.mp ha with rfl | ha
    · rfl
    · rw [List.mem_singleton.mp ha]
      rfl) hexec
  exact ⟨s, t, hrun, hexec, hturns, hends⟩

end Lifecycle

end ExecutionLayer
