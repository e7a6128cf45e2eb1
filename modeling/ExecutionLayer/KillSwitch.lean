import ExecutionLayer.EngineLoop
import ExecutionLayer.RiskGates

/-!
# The kill switch of the desk

The KILL button posts a command like any other.  It waits in the queue behind
what was posted before it, and orders among these may still fill.  So two
things have to be said of it: for how long trading goes on, and what the desk
may do afterwards.

Ten turns of the engine, and one for each command that waits, are enough for
the switch to be tripped.  From then on, whatever is clicked and whatever the
feeds deliver, cash, positions, round trips and fills stay as they are, every
order that is filed is a rejected one, and every view that is published says
that the desk is halted (`kill_stops_trading`).
-/

namespace ExecutionLayer

open StepSystem

namespace OrderManager

/-- Trading is over: the switch is tripped, the account is that of `base`, and
every order filed since is a rejected one. -/
structure Frozen (base oms : OrderManager) : Prop where
  halted : Halted base oms
  filed : ∀ id o, oms.orders.lookup id = some o →
    base.orders.lookup id = some o ∨ o.status = .rejected

section Frozen

variable {base oms : OrderManager}

theorem Frozen.refl (hkilled : oms.risk.killed = true) : Frozen oms oms where
  halted := ⟨hkilled, rfl, rfl, rfl, rfl⟩
  filed := fun _ _ ho => Or.inl ho

theorem Frozen.submitted
    (h : Frozen base oms) {oms' : OrderManager} {sig : Signal}
    {market : Quote} {id : Option Nat}
    (hsub : Submitted oms sig market id oms') :
    Frozen base oms' where
  halted := h.halted.submitted hsub
  filed := by
    have hclosed : ¬ oms.Cleared sig market := by
      intro hgates
      have hkilled := h.halted.killed
      rw [hgates.risk.alive] at hkilled
      exact Bool.false_ne_true hkilled
    cases hsub with
    | degenerate _ =>
        exact h.filed
    | rejected reason _ _ _ =>
        intro key o ho
        rw [stored] at ho
        by_cases hkey : key = oms.nextId
        · subst hkey
          rw [Finmap.lookup_insert, Option.some.injEq] at ho
          rw [← ho]
          exact Or.inr rfl
        · rw [Finmap.lookup_insert_of_ne _ hkey] at ho
          exact h.filed key o ho
    | resting _ hgates _ =>
        exact absurd hgates hclosed
    | filled _ hgates _ =>
        exact absurd hgates hclosed

theorem Frozen.call (h : Frozen base oms) (c : OmsCall) :
    Frozen base (oms.call c) := by
  refine call_invariant_of_signals (I := Frozen base)
    (P := fun _ _ _ => True) ?_ ?_ oms c h ?_
  · intro oms reason h
    have hsame := h.halted.same
    exact ⟨⟨rfl, hsame.cash, hsame.positions, hsame.closed, hsame.fills⟩,
      h.filed⟩
  · intro oms sig market id oms' h _ hsub
    exact h.submitted hsub
  · intro sig market _
    trivial

end Frozen

end OrderManager

namespace TradingEngine

/-- An order manager that has stopped trading has stopped for good. -/
theorem frozen_run
    {base : OrderManager} {e : TradingEngine} (h : base.Frozen e.oms)
    (ds : List DeskStep) :
    base.Frozen (run deskStep e ds).oms := by
  refine run_invariant deskStep (I := fun e => base.Frozen e.oms) ?_ h ds
  intro e d h
  rw [deskStep, step_oms]
  cases e.callOf (e.label d) with
  | none =>
      exact h
  | some c =>
      exact h.call c

/-- Handling a KILL trips the switch. -/
theorem killed_deskStep
    (e : TradingEngine) {d : DeskStep} {c : Command}
    (hd : d.command = some c) (hkill : c.type = .kill) :
    (e.deskStep d).oms.risk.killed = true := by
  cases d with
  | engine a own =>
      cases a with
      | command c' =>
          have heq : c' = c := Option.some.inj hd
          subst heq
          change (e.process c').oms.risk.killed = true
          rw [process, if_neg (by simp [hkill]), if_neg (by simp [hkill]),
            if_pos hkill]
          rfl
      | _ =>
          cases hd
  | _ =>
      cases hd

/-- A run in which a KILL is handled ends with the switch tripped. -/
theorem killed_run
    {ds : List DeskStep} {c : Command}
    (hc : c ∈ ds.filterMap DeskStep.command) (hkill : c.type = .kill)
    (e : TradingEngine) :
    (run deskStep e ds).oms.risk.killed = true := by
  induction ds generalizing e with
  | nil =>
      cases hc
  | cons d ds ih =>
      rw [run_cons]
      obtain ⟨d', hd', hcommand⟩ := List.mem_filterMap.mp hc
      rcases List.mem_cons.mp hd' with rfl | hrest
      · have hkilled := e.killed_deskStep hcommand hkill
        exact (frozen_run (.refl hkilled) ds).halted.killed
      · exact ih (List.mem_filterMap.mpr ⟨d', hrest, hcommand⟩) _

end TradingEngine

namespace EngineLoop

variable {symbols : List String} {capital : ℚ} {limits : RiskLimits}
variable {configured : Bool}

/-- What the loop does from a state on is a run of the desk from its engine. -/
theorem Refines.ran_from
    {t t' : EngineLoop} {posted : List Command} {threads ds : List DeskStep}
    (h : Refines symbols capital limits configured t posted threads ds)
    {as : List LoopStep} (hrun : exec step t as = some t') :
    ∃ more, t'.engine = run TradingEngine.deskStep t.engine more := by
  obtain ⟨more, hmore⟩ := h.ran hrun
  refine ⟨more, ?_⟩
  rw [hmore.engine, h.engine, TradingEngine.desk, run_append]
  rfl

/-- **A KILL stops trading.**  Once the engine thread has made ten turns, and
one for each command that waits, after a KILL was posted, the switch is
tripped; and from then on, whatever is posted and whatever the threads do, the
account is frozen, orders that are filed are rejected, and every view that is
published shows the halt. -/
theorem kill_stops_trading
    {before after later : List LoopStep} {t t' t'' : EngineLoop}
    {c : Command}
    (hbefore : exec step (boot symbols capital limits configured) before =
      some t)
    (hposted : c ∈ before.filterMap LoopStep.posted)
    (hkill : c.type = .kill)
    (hafter : exec step t after = some t')
    (hturns : t.pending.length + t.cmds.length + 10 ≤
      after.countP LoopStep.isTurn)
    (hlater : exec step t' later = some t'') :
    t''.engine.oms.risk.killed = true ∧
      OrderManager.SameAccount t'.engine.oms t''.engine.oms ∧
      (∀ id o, t''.engine.oms.orders.lookup id = some o →
        t'.engine.oms.orders.lookup id = some o ∨ o.status = .rejected) ∧
      (∀ clock published, t''.pc = .publishing →
        t''.step (.turn clock) = some published →
          published.engine.view.riskKilled = true) := by
  obtain ⟨_, hhere⟩ := Refines.booted.ran hbefore
  obtain ⟨_, hthere⟩ := hhere.ran hafter
  have hhandled := hhere.handled hafter hturns hthere
  rw [List.nil_append] at hhandled
  have hkilled : t'.engine.oms.risk.killed = true := by
    rw [hthere.engine]
    exact TradingEngine.killed_run (hhandled.subset hposted) hkill _
  obtain ⟨more, hmore⟩ := hthere.ran_from hlater
  have hfrozen : OrderManager.Frozen t'.engine.oms t''.engine.oms := by
    rw [hmore]
    exact TradingEngine.frozen_run (.refl hkilled) more
  refine ⟨hfrozen.halted.killed, hfrozen.halted.same, hfrozen.filed, ?_⟩
  intro clock published hpc hstep
  simp only [step, turn, hpc, Option.some.injEq] at hstep
  rw [← hstep]
  exact hfrozen.halted.killed

/-- A quote arrives, and a KILL is posted. -/
def quotedKill : List LoopStep :=
  [.thread (.store (.onQuote { symbol := "BTC-USD", bid := 9, ask := 10 }))
      trivial,
    .post { type := .kill }]

/-- A buy is posted, and the engine handles it and comes to publish. -/
def buyLater : List LoopStep :=
  .post { type := .buy, symbol := "BTC-USD", amount := 1 } ::
    List.replicate 10 (.turn 0)

/-- A buy behind the KILL is filed as rejected, moves nothing, and the view
published next shows the halt. -/
theorem kill_stops_trading_before_buy :
    ∃ t t' t'' published,
      exec step (boot ["BTC-USD"] 100 {} false) quotedKill = some t ∧
      exec step t (List.replicate 11 (.turn 0)) = some t' ∧
      exec step t' buyLater = some t'' ∧
      t''.step (.turn 0) = some published ∧
      (t''.engine.oms.orders.lookup 1).map Order.status =
        some .rejected ∧
      OrderManager.SameAccount t'.engine.oms t''.engine.oms ∧
      published.engine.view.riskKilled = true := by
  obtain ⟨t, t', t'', published, hbefore, hafter, hlater, hpc, hpublish,
      hrejected, hwaiting⟩ :
      ∃ t t' t'' published,
        exec step (boot ["BTC-USD"] 100 {} false) quotedKill = some t ∧
        exec step t (List.replicate 11 (.turn 0)) = some t' ∧
        exec step t' buyLater = some t'' ∧ t''.pc = .publishing ∧
        t''.step (.turn 0) = some published ∧
        (t''.engine.oms.orders.lookup 1).map Order.status =
          some .rejected ∧
        t.pending.length + t.cmds.length + 10 ≤ 11 :=
    ⟨_, _, _, _, rfl, rfl, rfl, rfl, rfl, by decide +kernel, by decide⟩
  obtain ⟨_, hsame, _, hhalts⟩ := kill_stops_trading hbefore
    (List.mem_singleton_self _) rfl hafter hwaiting hlater
  exact ⟨t, t', t'', published, hbefore, hafter, hlater, hpublish,
    hrejected, hsame, hhalts 0 published hpc hpublish⟩

end EngineLoop

end ExecutionLayer
