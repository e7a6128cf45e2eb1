import ExecutionLayer.WatchLists

/-!
# The loop of the engine and its command queue

`TradingEngine::post` appends to a queue that the engine thread swaps out at
the top of its loop.  The loop then works through the batch, one command at a
time, and goes on to quotes, chart, catalog and view.  Every access to the
queue, to a feed or to the view is a critical section of its own, so other
threads act between any two of them.

A step of the loop is one such section, except that the catalog's two reads of
the store are one step, and so are those of a view.  Whatever the
interleaving, the engine makes a run of the desk whose commands are the posted
ones, in the order in which they were posted, up to those that still wait
(`commands_in_order`).  What is proved of every run of the desk therefore
holds behind the queue.

No command waits for long: the engine thread never blocks, and ten turns
besides one for each command that waits are enough to handle all of them,
whatever is posted meanwhile (`commands_handled_within`).
-/

namespace ExecutionLayer

open StepSystem

/-- Where the engine thread stands in its loop. -/
inductive LoopPc where
  | top
  | draining
  | cryptoQuotes
  | stockQuotes
  | clock
  | requestHistory
  | history
  | errors
  | catalog
  | publishing
deriving DecidableEq, Repr

namespace LoopPc

/-- The turns of the engine thread up to the next swap, the swap included,
when no swapped command waits. -/
def lap : LoopPc → Nat
  | .top => 1
  | .draining => 10
  | .cryptoQuotes => 9
  | .stockQuotes => 8
  | .clock => 7
  | .requestHistory => 6
  | .history => 5
  | .errors => 4
  | .catalog => 3
  | .publishing => 2

theorem lap_le (pc : LoopPc) : pc.lap ≤ 10 := by
  cases pc <;> decide

end LoopPc

/-- The engine, its queue, and the locals of its loop. -/
structure EngineLoop where
  engine : TradingEngine
  cmds : List Command := []
  pending : List Command := []
  pc : LoopPc := .top
  now : Int := 0
  running : Bool := true

/-- The step belongs to a thread of the feeds. -/
def DeskStep.OtherThread : DeskStep → Prop
  | .engine _ _ => False
  | _ => True

instance : DecidablePred DeskStep.OtherThread
  | .engine _ _ => .isFalse id
  | .store _ => .isTrue trivial
  | .attached _ => .isTrue trivial
  | .takeRequested => .isTrue trivial
  | .takeHistoryRequests => .isTrue trivial
  | .stocks _ => .isTrue trivial

/-- The command that a step of the desk handles. -/
def DeskStep.command : DeskStep → Option Command
  | .engine (.command c) _ => some c
  | _ => none

/-- A command is posted, the engine is told to stop, its thread goes on, or a
thread of the feeds does. -/
inductive LoopStep where
  | post (c : Command)
  | stop
  | turn (clock : Int)
  | thread (d : DeskStep) (other : d.OtherThread)

namespace LoopStep

@[simp] def posted : LoopStep → Option Command
  | .post c => some c
  | _ => none

@[simp] def threadStep : LoopStep → Option DeskStep
  | .thread d _ => some d
  | _ => none

/-- The engine thread goes on. -/
@[simp] def isTurn : LoopStep → Bool
  | .turn _ => true
  | _ => false

end LoopStep

namespace EngineLoop

/-- The thread takes a step of the engine and goes on to `pc`. -/
def works (t : EngineLoop) (a : EngineStep) (pc : LoopPc) : EngineLoop :=
  { t with engine := t.engine.step a, pc := pc }

/-- The next critical section of `TradingEngine::run`.  `clock` is what
`clock::now()` returns if it is read. -/
def turn (t : EngineLoop) (clock : Int) : Option EngineLoop :=
  match t.pc with
  | .top =>
      if t.running then
        some { t with cmds := [], pending := t.cmds, pc := .draining }
      else none
  | .draining =>
      match t.pending with
      | [] => some { t with pc := .cryptoQuotes }
      | c :: pending =>
          some { t with engine := t.engine.process c, pending := pending }
  | .cryptoQuotes => some (t.works .readCryptoQuotes .stockQuotes)
  | .stockQuotes => some (t.works .readStockQuotes .clock)
  | .clock => some { t with now := clock, pc := .requestHistory }
  | .requestHistory => some (t.works .requestFocusHistory .history)
  | .history => some (t.works (.refreshHistory t.now) .errors)
  | .errors => some (t.works .drainErrors .catalog)
  | .catalog => some (t.works (.refreshCatalog t.now) .publishing)
  | .publishing => some (t.works .publish .top)

def step (t : EngineLoop) : LoopStep → Option EngineLoop
  | .post c => some { t with cmds := t.cmds ++ [c] }
  | .stop => some { t with running := false }
  | .turn clock => t.turn clock
  | .thread d _ => some { t with engine := t.engine.deskStep d }

/-- An engine whose thread has just started. -/
def boot (symbols : List String) (capital : ℚ) (limits : RiskLimits)
    (configured : Bool) : EngineLoop where
  engine := .start symbols capital limits { configured := configured }

/-! ### What a step can do -/

/-- What a step leaves behind. -/
inductive Moved (t : EngineLoop) : LoopStep → EngineLoop → Prop
  | posted (c : Command) :
      Moved t (.post c) { t with cmds := t.cmds ++ [c] }
  | stopped : Moved t .stop { t with running := false }
  | swapped (clock : Int) (hpc : t.pc = .top) (hrunning : t.running) :
      Moved t (.turn clock)
        { t with cmds := [], pending := t.cmds, pc := .draining }
  | handled (clock : Int) (c : Command) (pending : List Command)
      (hpc : t.pc = .draining) (hpending : t.pending = c :: pending) :
      Moved t (.turn clock)
        { t with engine := t.engine.process c, pending := pending }
  | drained (clock : Int) (hpending : t.pending = []) :
      Moved t (.turn clock) { t with pc := .cryptoQuotes }
  | clocked (clock : Int) (hpc : t.pc = .clock) :
      Moved t (.turn clock) { t with now := clock, pc := .requestHistory }
  | worked (clock : Int) (a : EngineStep) (own : a.Own)
      (hcommand : (DeskStep.engine a own).command = none)
      (pc : LoopPc) (hpc : t.pc ≠ .draining) (hnext : pc ≠ .draining) :
      Moved t (.turn clock) (t.works a pc)
  | threaded (d : DeskStep) (other : d.OtherThread) :
      Moved t (.thread d other) { t with engine := t.engine.deskStep d }

theorem turn_moved
    {t t' : EngineLoop} {clock : Int} (h : t.turn clock = some t') :
    Moved t (.turn clock) t' := by
  unfold turn at h
  split at h
  next hpc =>
    split_ifs at h with hrunning
    cases h
    exact .swapped clock hpc hrunning
  next hpc =>
    split at h
    next hpending =>
      cases h
      exact .drained clock hpending
    next c pending hpending =>
      cases h
      exact .handled clock c pending hpc hpending
  next hpc =>
    cases h
    exact .worked clock .readCryptoQuotes trivial rfl _
      (by simp [hpc]) (by simp)
  next hpc =>
    cases h
    exact .worked clock .readStockQuotes trivial rfl _
      (by simp [hpc]) (by simp)
  next hpc =>
    cases h
    exact .clocked clock hpc
  next hpc =>
    cases h
    exact .worked clock .requestFocusHistory trivial rfl _
      (by simp [hpc]) (by simp)
  next hpc =>
    cases h
    exact .worked clock (.refreshHistory t.now) trivial rfl _
      (by simp [hpc]) (by simp)
  next hpc =>
    cases h
    exact .worked clock .drainErrors trivial rfl _
      (by simp [hpc]) (by simp)
  next hpc =>
    cases h
    exact .worked clock (.refreshCatalog t.now) trivial rfl _
      (by simp [hpc]) (by simp)
  next hpc =>
    cases h
    exact .worked clock .publish trivial rfl _
      (by simp [hpc]) (by simp)

theorem moved
    {t t' : EngineLoop} {a : LoopStep} (h : t.step a = some t') :
    Moved t a t' := by
  cases a with
  | post c =>
      cases h
      exact .posted c
  | stop =>
      cases h
      exact .stopped
  | turn clock =>
      exact turn_moved h
  | thread d other =>
      cases h
      exact .threaded d other

/-! ### The queue -/

section Runs

variable (symbols : List String) (capital : ℚ) (limits : RiskLimits)
variable (configured : Bool)

/-- The engine has made the run `ds` of the desk while `posted` was posted and
the feeds took the steps `threads`. -/
structure Refines (t : EngineLoop) (posted : List Command)
    (threads ds : List DeskStep) : Prop where
  engine : t.engine =
    TradingEngine.desk symbols capital limits configured ds
  commands : ds.filterMap DeskStep.command ++ t.pending ++ t.cmds = posted
  threads : ds.filter DeskStep.OtherThread = threads
  drained : t.pc ≠ .draining → t.pending = []

variable {symbols capital limits configured}

theorem Refines.booted :
    Refines symbols capital limits configured
      (boot symbols capital limits configured) [] [] [] where
  engine := rfl
  commands := rfl
  threads := rfl
  drained := fun _ => rfl

/-- A step that leaves the engine alone and keeps the waiting commands, but
for one that is posted. -/
theorem Refines.idle
    {t t' : EngineLoop} {posted : List Command} {threads ds : List DeskStep}
    (h : Refines symbols capital limits configured t posted threads ds)
    {c : Option Command} (hengine : t'.engine = t.engine)
    (hwaiting : t'.pending ++ t'.cmds = t.pending ++ t.cmds ++ c.toList)
    (hdrained : t'.pc ≠ .draining → t'.pending = []) :
    Refines symbols capital limits configured t' (posted ++ c.toList)
      (threads ++ []) (ds ++ []) where
  engine := by
    rw [hengine, List.append_nil, h.engine]
  commands := by
    rw [List.append_nil, List.append_assoc, hwaiting, ← h.commands]
    simp only [List.append_assoc]
  threads := by
    rw [List.append_nil, List.append_nil, h.threads]
  drained := hdrained

/-- A step of the desk that is taken. -/
theorem Refines.acts
    {t t' : EngineLoop} {posted : List Command} {threads ds : List DeskStep}
    (h : Refines symbols capital limits configured t posted threads ds)
    {d : DeskStep} {other : List DeskStep}
    (hengine : t'.engine = t.engine.deskStep d)
    (hwaiting : t.pending ++ t.cmds =
      d.command.toList ++ (t'.pending ++ t'.cmds))
    (hother : [d].filter DeskStep.OtherThread = other)
    (hdrained : t'.pc ≠ .draining → t'.pending = []) :
    Refines symbols capital limits configured t' (posted ++ [])
      (threads ++ other) (ds ++ [d]) where
  engine := by
    rw [TradingEngine.desk_concat, ← h.engine, hengine]
  commands := by
    have hone : [d].filterMap DeskStep.command = d.command.toList := by
      cases hcommand : d.command <;> simp [hcommand]
    rw [← h.commands, List.filterMap_append, hone, List.append_nil,
      List.append_assoc _ t.pending, hwaiting]
    simp only [List.append_assoc]
  threads := by
    rw [List.filter_append, h.threads, hother]
  drained := hdrained

/-- A step of the loop is no step of the desk, or one. -/
theorem Refines.next
    {t t' : EngineLoop} {posted : List Command} {threads ds : List DeskStep}
    (h : Refines symbols capital limits configured t posted threads ds)
    {a : LoopStep} (hstep : t.step a = some t') :
    ∃ more, Refines symbols capital limits configured t'
      (posted ++ a.posted.toList) (threads ++ a.threadStep.toList)
      (ds ++ more) := by
  cases moved hstep with
  | posted c =>
      exact ⟨[], h.idle rfl (by simp) h.drained⟩
  | stopped =>
      exact ⟨[], h.idle rfl (by simp) h.drained⟩
  | swapped clock hpc hrunning =>
      have hempty := h.drained (by simp [hpc])
      exact ⟨[], h.idle rfl (by simp [hempty])
        fun hne => absurd rfl hne⟩
  | handled clock c pending hpc hpending =>
      exact ⟨[.engine (.command c) trivial],
        h.acts rfl (by simp [hpending, DeskStep.command]) rfl
          fun hne => absurd hpc hne⟩
  | drained clock hpending =>
      exact ⟨[], h.idle rfl (by simp) fun _ => hpending⟩
  | clocked clock hpc =>
      exact ⟨[], h.idle rfl (by simp) fun _ => h.drained (by simp [hpc])⟩
  | worked clock a own hcommand pc hpc hnext =>
      exact ⟨[.engine a own],
        h.acts rfl (by rw [hcommand]; rfl) rfl fun _ => h.drained hpc⟩
  | threaded d other =>
      have hcommand : d.command = none := by
        cases d with
        | engine a own =>
            exact other.elim
        | _ =>
            rfl
      exact ⟨[d],
        h.acts rfl (by rw [hcommand]; rfl) (by simp [other]) h.drained⟩

theorem filterMap_cons_toList {β : Type} (f : LoopStep → Option β)
    (a : LoopStep) (as : List LoopStep) :
    (a :: as).filterMap f = (f a).toList ++ as.filterMap f := by
  cases hf : f a <;> simp [hf]

/-- A run of the loop from a state that has made a run of the desk. -/
theorem Refines.ran
    {t t' : EngineLoop} {posted : List Command} {threads ds : List DeskStep}
    (h : Refines symbols capital limits configured t posted threads ds)
    {as : List LoopStep} (hrun : exec step t as = some t') :
    ∃ more, Refines symbols capital limits configured t'
      (posted ++ as.filterMap LoopStep.posted)
      (threads ++ as.filterMap LoopStep.threadStep) (ds ++ more) := by
  induction as generalizing t posted threads ds with
  | nil =>
      simp only [exec_nil, Option.some.injEq] at hrun
      subst hrun
      exact ⟨[], by simpa using h⟩
  | cons a as ih =>
      obtain ⟨t₁, hstep, hrest⟩ := (exec_cons_eq_some step).mp hrun
      obtain ⟨one, hone⟩ := h.next hstep
      obtain ⟨more, hmore⟩ := ih hone hrest
      refine ⟨one ++ more, ?_⟩
      rw [filterMap_cons_toList, filterMap_cons_toList,
        ← List.append_assoc, ← List.append_assoc, ← List.append_assoc]
      exact hmore

/-- **Commands are handled once each, in the order they were posted.**
However posts, the engine's loop and the threads of the feeds interleave, the
engine has made a run of the desk in which the feeds' steps are those that
were taken, and whose commands, followed by those of the batch in work and
those of the queue, are all that were posted.  Outside of the draining of a
batch no swapped command waits. -/
theorem commands_in_order
    {as : List LoopStep} {t : EngineLoop}
    (hrun : exec step (boot symbols capital limits configured) as =
      some t) :
    ∃ ds,
      t.engine =
          TradingEngine.desk symbols capital limits configured ds ∧
        ds.filter DeskStep.OtherThread =
          as.filterMap LoopStep.threadStep ∧
        ds.filterMap DeskStep.command ++ t.pending ++ t.cmds =
          as.filterMap LoopStep.posted ∧
        (t.pc ≠ .draining → t.pending = []) := by
  obtain ⟨ds, h⟩ := Refines.booted.ran hrun
  exact ⟨ds, h.engine, h.threads, h.commands, h.drained⟩

/-- Two commands are posted around the swap: one is handled, one waits. -/
theorem commands_in_order_around_swap :
    ∃ t, exec step (boot ["BTC-USD"] 100 {} false)
        [.post { type := .setFocus, symbol := "ETH-USD" }, .turn 0,
          .post { type := .kill }, .turn 0] = some t ∧
      t.engine.focus = "ETH-USD" ∧ t.cmds = [{ type := .kill }] ∧
      ∃ ds,
        t.engine =
            TradingEngine.desk ["BTC-USD"] 100 {} false ds ∧
          ds.filter DeskStep.OtherThread = [] ∧
          ds.filterMap DeskStep.command ++ t.pending ++ t.cmds =
            [{ type := .setFocus, symbol := "ETH-USD" },
              { type := .kill }] ∧
          (t.pc ≠ .draining → t.pending = []) := by
  obtain ⟨t, hrun, hfocus, hcmds⟩ :
      ∃ t, exec step (boot ["BTC-USD"] 100 {} false)
          [.post { type := .setFocus, symbol := "ETH-USD" }, .turn 0,
            .post { type := .kill }, .turn 0] = some t ∧
        t.engine.focus = "ETH-USD" ∧ t.cmds = [{ type := .kill }] :=
    ⟨_, rfl, by decide, rfl⟩
  exact ⟨t, hrun, hfocus, hcmds, commands_in_order hrun⟩

end Runs

/-! ### How long a command waits -/

/-- The commands that are posted and not handled. -/
def waiting (t : EngineLoop) : Nat :=
  t.pending.length + t.cmds.length

/-- The turns until the first `m` of the waiting commands are handled: those
that are swapped take one each, the others the way to the next swap too. -/
def need (t : EngineLoop) (m : Nat) : Nat :=
  if m ≤ t.pending.length then m else m + t.pc.lap

/-- Outside of the draining of a batch no swapped command waits. -/
def Drained (t : EngineLoop) : Prop :=
  t.pc ≠ .draining → t.pending = []

theorem need_le (t : EngineLoop) (m : Nat) : t.need m ≤ m + 10 := by
  have hlap := t.pc.lap_le
  unfold need
  split_ifs
  · omega
  · omega

theorem need_eq_zero
    (t : EngineLoop) (m : Nat) (h : t.need m = 0) : m = 0 := by
  unfold need at h
  split_ifs at h
  · exact h
  · omega

/-- A turn that works on nothing that is queued. -/
theorem need_of_lap
    {t t' : EngineLoop} (hpending : t.pending = [])
    (hpending' : t'.pending = []) (hlap : t.pc.lap = t'.pc.lap + 1)
    (m : Nat) : t'.need m ≤ t.need m - 1 := by
  unfold need
  rw [hpending, hpending', hlap, List.length_nil]
  split_ifs
  · omega
  · omega

/-- A turn that works on nothing that is queued brings the next swap
nearer. -/
theorem passes
    {t t' : EngineLoop} (hempty : t.pending = [])
    (hpending : t'.pending = t.pending) (hcmds : t'.cmds = t.cmds)
    (hlap : t.pc.lap = t'.pc.lap + 1) :
    t'.Drained ∧ ∃ done, t'.waiting + done = t.waiting ∧
      ∀ m ≤ t.waiting, t'.need (m - done) ≤ t.need m - 1 := by
  rw [hempty] at hpending
  refine ⟨fun _ => hpending, 0, ?_, fun m _ =>
    need_of_lap hempty hpending hlap m⟩
  simp only [waiting, hempty, hpending, hcmds, Nat.add_zero]

theorem works_passes
    {t : EngineLoop} (hempty : t.pending = []) (a : EngineStep)
    {pc : LoopPc} (hlap : t.pc.lap = pc.lap + 1) :
    (t.works a pc).Drained ∧ ∃ done,
      (t.works a pc).waiting + done = t.waiting ∧
        ∀ m ≤ t.waiting, (t.works a pc).need (m - done) ≤ t.need m - 1 :=
  passes hempty rfl rfl hlap

/-- A turn handles a command or brings the next swap nearer. -/
theorem turn_serves
    {t t' : EngineLoop} {clock : Int} (h : t.turn clock = some t')
    (hdrained : t.Drained) :
    t'.Drained ∧ ∃ done, t'.waiting + done = t.waiting ∧
      ∀ m ≤ t.waiting, t'.need (m - done) ≤ t.need m - 1 := by
  unfold turn at h
  cases hpc : t.pc with
  | top =>
      have hempty := hdrained (by simp [hpc])
      rw [hpc] at h
      dsimp only at h
      split_ifs at h
      cases h
      refine ⟨fun hne => absurd rfl hne, 0, ?_, ?_⟩
      · simp [waiting, hempty]
      · intro m hm
        have hall : m ≤ t.cmds.length := by
          simpa [waiting, hempty] using hm
        simp only [need, hempty, hpc, LoopPc.lap, Nat.sub_zero,
          List.length_nil, if_pos hall]
        split_ifs
        · omega
        · omega
  | draining =>
      rw [hpc] at h
      dsimp only at h
      cases hpending : t.pending with
      | nil =>
          rw [hpending] at h
          cases h
          exact passes hpending hpending.symm rfl (by rw [hpc]; rfl)
      | cons c pending =>
          rw [hpending] at h
          cases h
          refine ⟨fun hne => absurd rfl hne, 1, ?_, ?_⟩
          · simp only [waiting, hpending, List.length_cons]
            omega
          · intro m _
            simp only [need, hpending, hpc, List.length_cons]
            split_ifs
            · omega
            · omega
            · omega
            · omega
  | clock =>
      have hempty := hdrained (by simp [hpc])
      rw [hpc] at h
      cases h
      exact passes hempty rfl rfl (by rw [hpc]; rfl)
  | _ =>
      have hempty := hdrained (by simp [hpc])
      rw [hpc] at h
      cases h
      exact works_passes hempty _ (by rw [hpc]; rfl)

/-- No step of another thread delays the engine. -/
theorem step_serves
    {t t' : EngineLoop} {a : LoopStep} (h : t.step a = some t')
    (hdrained : t.Drained) :
    t'.Drained ∧ ∃ done,
      t'.waiting + done = t.waiting + a.posted.toList.length ∧
        ∀ m ≤ t.waiting, t'.need (m - done) ≤ t.need m - a.isTurn.toNat := by
  cases a with
  | turn clock =>
      exact turn_serves h hdrained
  | post c =>
      cases h
      refine ⟨hdrained, 0, ?_, fun m _ => le_rfl⟩
      simp only [waiting, List.length_append, LoopStep.posted,
        Option.toList_some, List.length_singleton]
      omega
  | stop =>
      cases h
      exact ⟨hdrained, 0, rfl, fun m _ => le_rfl⟩
  | thread d other =>
      cases h
      exact ⟨hdrained, 0, rfl, fun m _ => le_rfl⟩

/-- While the engine is not told to stop, its thread can go on. -/
theorem turn_isSome
    {t : EngineLoop} (hrunning : t.running = true) (clock : Int) :
    (t.turn clock).isSome = true := by
  unfold turn
  split
  · rw [if_pos hrunning]
    rfl
  · split
    · rfl
    · rfl
  all_goals rfl

theorem length_filterMap_posted (as : List LoopStep) :
    (as.filterMap LoopStep.posted).length =
      (as.map fun a => a.posted.toList.length).sum := by
  induction as with
  | nil =>
      rfl
  | cons a as ih =>
      rw [filterMap_cons_toList, List.length_append, ih, List.map_cons,
        List.sum_cons]

/-- Ten turns, and one for each command that waits, handle all that had been
posted. -/
theorem Refines.handled
    {symbols : List String} {capital : ℚ} {limits : RiskLimits}
    {configured : Bool} {t t' : EngineLoop} {posted : List Command}
    {threads threads' ds ds' : List DeskStep} {as : List LoopStep}
    (h : Refines symbols capital limits configured t posted threads ds)
    (hrun : exec step t as = some t')
    (hturns : t.pending.length + t.cmds.length + 10 ≤
      as.countP LoopStep.isTurn)
    (h' : Refines symbols capital limits configured t'
      (posted ++ as.filterMap LoopStep.posted) threads' ds') :
    posted <+: ds'.filterMap DeskStep.command := by
  have hserved : t'.waiting + t.waiting ≤
      t.waiting + (as.filterMap LoopStep.posted).length := by
    rw [length_filterMap_posted]
    refine served_within step (I := Drained) ?_ ?_ ?_ h.drained le_rfl
      ((t.need_le _).trans hturns) hrun
    · intro s a r hs hr
      exact (step_serves hr hs).1
    · intro s a r hs hr
      exact (step_serves hr hs).2
    · intro s m _ hzero
      exact s.need_eq_zero m hzero
  -- Handled and waiting commands together are all that were posted, and no
  -- more of them wait than were posted later.
  have hall := h'.commands
  rw [List.append_assoc] at hall
  refine List.prefix_of_prefix_length_le (List.prefix_append _ _)
    (hall ▸ List.prefix_append _ _) ?_
  have hlength := congrArg List.length hall
  simp only [List.length_append] at hlength
  simp only [waiting] at hserved
  omega

/-- **No command waits for long.**  From any state that is reached, once the
engine thread has made ten turns and one for each command that waits there,
every command that had been posted is handled: whatever is posted meanwhile,
and whatever the other threads do between the turns.  And the thread is never
blocked while the engine is not told to stop. -/
theorem commands_handled_within
    {symbols : List String} {capital : ℚ} {limits : RiskLimits}
    {configured : Bool} {before after : List LoopStep}
    {t t' : EngineLoop}
    (hbefore : exec step (boot symbols capital limits configured) before =
      some t)
    (hafter : exec step t after = some t')
    (hturns : t.pending.length + t.cmds.length + 10 ≤
      after.countP LoopStep.isTurn) :
    (∃ ds,
      t'.engine =
          TradingEngine.desk symbols capital limits configured ds ∧
        ds.filter DeskStep.OtherThread =
          (before ++ after).filterMap LoopStep.threadStep ∧
        before.filterMap LoopStep.posted <+:
          ds.filterMap DeskStep.command) ∧
      (t'.running = true → ∀ clock, (t'.turn clock).isSome = true) := by
  refine ⟨?_, fun hrunning clock => turn_isSome hrunning clock⟩
  obtain ⟨ds₀, hhere⟩ := Refines.booted.ran hbefore
  obtain ⟨more, hthere⟩ := hhere.ran hafter
  have hhandled := hhere.handled hafter hturns hthere
  simp only [List.nil_append] at hthere hhandled
  refine ⟨ds₀ ++ more, hthere.engine, ?_, hhandled⟩
  rw [hthere.threads, List.filterMap_append]

/-- One command is posted before the first turn: eleven turns are enough. -/
theorem commands_handled_within_one :
    ∃ t t', exec step (boot ["BTC-USD"] 100 {} false)
        [.post { type := .setFocus, symbol := "ETH-USD" }] = some t ∧
      exec step t (List.replicate 11 (.turn 0)) = some t' ∧
      t'.engine.focus = "ETH-USD" ∧
      (∃ ds,
        t'.engine = TradingEngine.desk ["BTC-USD"] 100 {} false ds ∧
          ds.filter DeskStep.OtherThread = [] ∧
          [({ type := .setFocus, symbol := "ETH-USD" } : Command)] <+:
            ds.filterMap DeskStep.command) ∧
      (t'.running = true → ∀ clock, (t'.turn clock).isSome = true) := by
  obtain ⟨t, t', hbefore, hafter, hfocus, hwaiting⟩ :
      ∃ t t', exec step (boot ["BTC-USD"] 100 {} false)
          [.post { type := .setFocus, symbol := "ETH-USD" }] = some t ∧
        exec step t (List.replicate 11 (.turn 0)) = some t' ∧
        t'.engine.focus = "ETH-USD" ∧
        t.pending.length + t.cmds.length + 10 ≤ 11 :=
    ⟨_, _, rfl, rfl, by decide +kernel, by decide⟩
  exact ⟨t, t', hbefore, hafter, hfocus,
    commands_handled_within hbefore hafter hwaiting⟩

/-! ### A turn that nobody interrupts -/

/-- The batch is worked through in order. -/
theorem exec_draining (t : EngineLoop) (clock : Int) (hpc : t.pc = .draining) :
    exec step t (List.replicate t.pending.length (.turn clock)) =
      some
        { t with
          engine := t.pending.foldl TradingEngine.process t.engine
          pending := [] } := by
  obtain ⟨engine, cmds, pending, pc, now, running⟩ := t
  simp only at hpc
  subst hpc
  induction pending generalizing engine with
  | nil =>
      rfl
  | cons c pending ih =>
      exact ih (engine.process c)

/-- The steps of a turn, taken one after the other, are the cycle. -/
theorem turn_eq_cycle
    (t : EngineLoop) (clock : Int) (hpc : t.pc = .top)
    (hrunning : t.running) :
    exec step t
        (.turn clock ::
          (List.replicate t.cmds.length (.turn clock) ++
            List.replicate 9 (.turn clock))) =
      some
        { t with
          engine := t.engine.cycle t.cmds clock
          cmds := []
          pending := []
          now := clock } := by
  have hswap : t.step (.turn clock) =
      some { t with cmds := [], pending := t.cmds, pc := .draining } := by
    rw [step, turn, hpc]
    exact if_pos hrunning
  have hdrain := exec_draining
    { t with cmds := [], pending := t.cmds, pc := .draining } clock rfl
  rw [exec, hswap, Option.bind_some, exec_append, hdrain, Option.bind_some,
    hpc]
  rfl

end EngineLoop

end ExecutionLayer
