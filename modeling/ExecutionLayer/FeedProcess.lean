import ExecutionLayer.Library.Handles
import ExecutionLayer.Library.StepSystem
import Mathlib.Data.Finset.Card

/-!
# The bundled feedhandler process

`FeedProcess` (`feed_process.cpp`) launches the feedhandler of the packaged
app and ends it again: SIGTERM, up to fifty looks whether it is gone, then
SIGKILL and a wait.  If the terminal is killed instead, nobody runs `stop`, and
`_watch_parent` of `__main__.py` makes the feedhandler end by itself once
`os.getppid()` is 1.  Which process adopts an orphan is the system's choice:
process 1, unless a subreaper is in between.

The system reuses process ids, so a signal that is sent after the child was
reaped could reach a process of somebody else.  `supervised` says that this
never happens, that there is never a second child, that none is left when
`stop` has returned, and that an orphan ends exactly if process 1 adopted it.
-/

namespace ExecutionLayer

open Handles StepSystem

/-- A process id. -/
abbrev Pid := Int

/-- Where a call of `stop` is, if one is under way. -/
inductive StopPc where
  | idle
  | polling (i : Nat)
  | waiting
deriving DecidableEq, Repr

structure FeedProcess where
  pid : Pid := -1
  err : String := ""
  pc : StopPc := .idle

/-- What `start` finds in its environment. -/
structure LaunchEnv where
  feedhandler : Option String := none
  executable : String → Bool := fun _ => false
  venue : Option String := none

/-- The terminal's processes: its children, those of them that have ended and
are not reaped, the command lines that were launched, the terminal, and what
`os.getppid()` tells the children. -/
structure Supervision where
  table : Table Pid := {}
  ended : Finset Pid := ∅
  launched : List (List String) := []
  alive : Bool := true
  parent : Pid := 2
  proc : FeedProcess := {}

/-- A call of the terminal, the end or a look of a child, the end of the
terminal, whose children then get a new parent, or something of others. -/
inductive SuperviseStep where
  | start (env : LaunchEnv) (port : Int) (spawned : Option Pid)
  | stop
  | poll
  | wait
  | childEnds (pid : Pid)
  | watchParent (pid : Pid)
  | terminalDies (reaper : Pid)
  | foreign (f : Foreign Pid)

namespace FeedProcess

/-- `running()` -/
def running (p : FeedProcess) : Bool :=
  0 < p.pid

/-- The default of `EL_VENUE`. -/
def venueOf (env : LaunchEnv) : String :=
  match env.venue with
  | none => "coinbase"
  | some venue => if venue = "" then "coinbase" else venue

def argv (exe : String) (env : LaunchEnv) (port : Int) : List String :=
  [exe, "--venue", venueOf env, "--feed-port", toString port,
    "--exit-when-orphaned"]

/-- The looks of `stop` before it insists. -/
def kPolls : Nat := 50

end FeedProcess

namespace Supervision

open FeedProcess

/-- `start`; `spawned` is what `posix_spawn` makes, nothing when it fails. -/
def start (s : Supervision) (env : LaunchEnv) (port : Int)
    (spawned : Option Pid) : Option Supervision :=
  if s.proc.running then some s
  else
    match env.feedhandler with
    | none => some { s with proc := { s.proc with err := "not bundled" } }
    | some exe =>
        if exe = "" then
          some { s with proc := { s.proc with err := "not bundled" } }
        else if env.executable exe = false then
          some
            { s with
              proc :=
                { s.proc with
                  err := "feedhandler not executable: " ++ exe } }
        else
          match spawned with
          | none =>
              some
                { s with
                  proc := { s.proc with err := "posix_spawn failed" } }
          | some pid =>
              if s.table.Fresh pid ∧ 0 < pid then
                some
                  { s with
                    table := s.table.acquire pid
                    launched := s.launched ++ [argv exe env port]
                    proc := { s.proc with pid := pid, err := "" } }
              else none

/-- `stop` up to its loop: SIGTERM. -/
def stop (s : Supervision) : Supervision :=
  if s.proc.running = false then s
  else
    { s with
      table := s.table.use s.proc.pid
      proc := { s.proc with pc := .polling 0 } }

/-- The child has been reaped, or there is none to reap. -/
def reaped (s : Supervision) : Supervision :=
  { s with
    table := s.table.revoke s.proc.pid
    ended := s.ended.erase s.proc.pid
    proc := { s.proc with pid := -1, pc := .idle } }

/-- `waitpid` finds a child that is still running. -/
def childRuns (s : Supervision) : Bool :=
  s.proc.pid ∈ s.table.ours ∧ s.proc.pid ∉ s.ended

/-- One turn of the loop of `stop`, and SIGKILL after the last one. -/
def poll (s : Supervision) (i : Nat) : Supervision :=
  if s.childRuns = false then s.reaped
  else if i + 1 < kPolls then
    { s with proc := { s.proc with pc := .polling (i + 1) } }
  else
    { s with
      table := s.table.use s.proc.pid
      proc := { s.proc with pc := .waiting } }

/-- The terminal is gone: its ended children are reaped by the system, and the
others are adopted. -/
def orphan (s : Supervision) (reaper : Pid) : Supervision :=
  { s with
    table := { s.table with ours := s.table.ours \ s.ended }
    ended := ∅
    alive := false
    parent := reaper }

/-- A child ends; of a dead terminal it is reaped at once. -/
def childEnds (s : Supervision) (pid : Pid) : Supervision :=
  if s.alive then { s with ended := insert pid s.ended }
  else { s with table := s.table.revoke pid }

def step (s : Supervision) : SuperviseStep → Option Supervision
  | .start env port spawned =>
      if s.alive ∧ s.proc.pc = .idle then s.start env port spawned
      else none
  | .stop => if s.alive ∧ s.proc.pc = .idle then some s.stop else none
  | .poll =>
      match s.proc.pc with
      | .polling i => if s.alive then some (s.poll i) else none
      | _ => none
  | .wait =>
      -- blocks while the child runs
      if s.alive ∧ s.proc.pc = .waiting ∧ s.childRuns = false then
        some s.reaped
      else none
  | .childEnds pid =>
      if pid ∈ s.table.ours then some (s.childEnds pid) else none
  | .watchParent pid =>
      -- `while os.getppid() > 1`
      if pid ∈ s.table.ours \ s.ended then
        if 1 < s.parent then some s else some (s.childEnds pid)
      else none
  | .terminalDies reaper => if s.alive then some (s.orphan reaper) else none
  | .foreign f =>
      (s.table.foreign f).map fun table => { s with table := table }

/-! ### The invariant -/

/-- The child that the terminal accounts for. -/
def held (s : Supervision) : Finset Pid :=
  if 0 < s.proc.pid then {s.proc.pid} else ∅

/-- The child of a living terminal is the one it accounts for, and `stop` is
under way only while there is one; of a dead terminal there may be that child
left, which is not a zombie. -/
structure Accounted (s : Supervision) : Prop where
  holds : s.table.Holds s.table.ours
  ours : s.alive → s.table.ours = s.held
  ended : s.ended ⊆ s.table.ours
  stopping : s.alive → s.proc.pc ≠ .idle → s.proc.running
  orphaned : s.alive = false → s.table.ours ⊆ s.held ∧ s.ended = ∅
  launched : ∀ line ∈ s.launched, "--exit-when-orphaned" ∈ line

theorem accounted_boot (terminal : Pid) :
    Accounted { parent := terminal } where
  holds := Table.holds_empty
  ours := fun _ => rfl
  ended := Finset.Subset.refl _
  stopping := fun _ h => absurd rfl h
  orphaned := fun h => by cases h
  launched := fun line h => absurd h List.not_mem_nil

theorem held_of_running {s : Supervision} (h : s.proc.running) :
    s.held = {s.proc.pid} := by
  rw [held, if_pos (of_decide_eq_true h)]

theorem held_of_not_running {s : Supervision} (h : s.proc.running = false) :
    s.held = ∅ := by
  rw [held, if_neg (of_decide_eq_false h)]

/-- A signal that is sent while there is a child is sent to the child. -/
theorem Accounted.use_eq
    {s : Supervision} (h : s.Accounted) (halive : s.alive)
    (hrunning : s.proc.running) :
    s.table.use s.proc.pid = s.table := by
  refine h.holds.use_eq ?_
  rw [h.ours halive, held_of_running hrunning]
  exact Finset.mem_singleton_self _

/-- The terminal's bookkeeping changes, and its child does not. -/
theorem Accounted.proc
    {s : Supervision} (h : s.Accounted) (halive : s.alive)
    {proc : FeedProcess} (hpid : proc.pid = s.proc.pid)
    (hpc : proc.pc ≠ .idle → proc.running) :
    Accounted { s with proc := proc } where
  holds := h.holds
  ours := by
    intro _
    change s.table.ours = if 0 < proc.pid then {proc.pid} else ∅
    rw [hpid]
    exact h.ours halive
  ended := h.ended
  stopping := fun _ => hpc
  orphaned := by
    intro hdead
    rw [halive] at hdead
    cases hdead
  launched := h.launched

theorem Accounted.start
    {s s' : Supervision} (h : s.Accounted) (halive : s.alive)
    (hidle : s.proc.pc = .idle) {env : LaunchEnv} {port : Int}
    {spawned : Option Pid} (hstep : s.start env port spawned = some s') :
    s'.Accounted := by
  have hfailed : ∀ err,
      Accounted { s with proc := { s.proc with err := err } } :=
    fun err => h.proc halive rfl fun hpc => absurd hidle hpc
  simp only [Supervision.start] at hstep
  split_ifs at hstep with hrunning
  · cases hstep
    exact h
  · split at hstep
    · cases hstep
      exact hfailed _
    · next exe _ =>
      split_ifs at hstep with hempty hexec
      · cases hstep
        exact hfailed _
      · cases hstep
        exact hfailed _
      · split at hstep
        · cases hstep
          exact hfailed _
        · next pid =>
          split_ifs at hstep with hspawn
          cases hstep
          have hnone : s.table.ours = ∅ := by
            rw [h.ours halive,
              held_of_not_running (Bool.not_eq_true _ ▸ hrunning)]
          refine ⟨h.holds.acquire hspawn.1, fun _ => ?_,
            h.ended.trans (Finset.subset_insert _ _),
            fun _ hpc => absurd hidle hpc, ?_, ?_⟩
          · change insert pid s.table.ours = if 0 < pid then {pid} else ∅
            rw [if_pos hspawn.2, hnone]
            rfl
          · intro hdead
            rw [halive] at hdead
            cases hdead
          · intro line hline
            rcases List.mem_append.mp hline with hline | hline
            · exact h.launched line hline
            · rw [List.mem_singleton.mp hline, argv]
              simp

/-- Once the child is reaped, there is none. -/
theorem Accounted.reaped
    {s : Supervision} (h : s.Accounted) (halive : s.alive)
    (hrunning : s.proc.running) :
    s.reaped.Accounted where
  holds := h.holds.revoke s.proc.pid
  ours := by
    intro _
    have hours : s.table.ours = {s.proc.pid} := by
      rw [h.ours halive, held_of_running hrunning]
    change s.table.ours.erase s.proc.pid = ∅
    rw [hours, Finset.erase_singleton]
  ended := Finset.erase_subset_erase _ h.ended
  stopping := fun _ hpc => absurd rfl hpc
  orphaned := by
    intro hdead
    change s.alive = false at hdead
    rw [halive] at hdead
    cases hdead
  launched := h.launched

theorem Accounted.poll
    {s : Supervision} (h : s.Accounted) (halive : s.alive)
    (hrunning : s.proc.running) (i : Nat) :
    (s.poll i).Accounted := by
  rw [Supervision.poll]
  split_ifs
  · exact h.reaped halive hrunning
  · exact h.proc halive rfl fun _ => hrunning
  · rw [h.use_eq halive hrunning]
    exact h.proc halive rfl fun _ => hrunning

/-- A dead terminal's child is gone. -/
theorem Accounted.revoked
    {s : Supervision} (h : s.Accounted) (hdead : s.alive = false)
    (pid : Pid) :
    Accounted { s with table := s.table.revoke pid } where
  holds := h.holds.revoke pid
  ours := by
    intro halive
    rw [hdead] at halive
    cases halive
  ended := by
    change s.ended ⊆ _
    rw [(h.orphaned hdead).2]
    exact Finset.empty_subset _
  stopping := h.stopping
  orphaned := fun _ =>
    ⟨(Finset.erase_subset _ _).trans (h.orphaned hdead).1,
      (h.orphaned hdead).2⟩
  launched := h.launched

theorem Accounted.childEnds
    {s : Supervision} (h : s.Accounted) {pid : Pid}
    (hmem : pid ∈ s.table.ours) :
    (s.childEnds pid).Accounted := by
  rw [Supervision.childEnds]
  split_ifs with halive
  · refine ⟨h.holds, h.ours, Finset.insert_subset hmem h.ended,
      h.stopping, fun hdead => ?_, h.launched⟩
    change s.alive = false at hdead
    rw [halive] at hdead
    cases hdead
  · exact h.revoked (Bool.not_eq_true _ ▸ halive) pid

theorem Accounted.orphan
    {s : Supervision} (h : s.Accounted) (halive : s.alive)
    (reaper : Pid) :
    (s.orphan reaper).Accounted where
  holds :=
    ⟨rfl, fun pid hpid => h.holds.disjoint pid (Finset.mem_sdiff.mp hpid).1,
      h.holds.clean⟩
  ours := fun hdead => by cases hdead
  ended := Finset.empty_subset _
  stopping := fun hdead => by cases hdead
  orphaned := by
    intro _
    refine ⟨?_, rfl⟩
    change s.table.ours \ s.ended ⊆ s.held
    rw [← h.ours halive]
    exact Finset.sdiff_subset
  launched := h.launched

theorem Accounted.foreign
    {s : Supervision} (h : s.Accounted) {f : Foreign Pid}
    {table : Table Pid} (hf : s.table.foreign f = some table) :
    Accounted { s with table := table } := by
  have hholds := h.holds.foreign hf
  have hours : table.ours = s.table.ours := hholds.ours
  refine ⟨hours ▸ hholds, ?_, ?_, h.stopping, ?_, h.launched⟩
  · intro halive
    exact hours.trans (h.ours halive)
  · change s.ended ⊆ table.ours
    rw [hours]
    exact h.ended
  · intro hdead
    change table.ours ⊆ s.held ∧ _
    rw [hours]
    exact h.orphaned hdead

theorem Accounted.step
    {s s' : Supervision} (h : s.Accounted) {a : SuperviseStep}
    (hstep : s.step a = some s') :
    s'.Accounted := by
  cases a with
  | start env port spawned =>
      simp only [Supervision.step] at hstep
      split_ifs at hstep with hcall
      exact h.start hcall.1 hcall.2 hstep
  | stop =>
      simp only [Supervision.step] at hstep
      split_ifs at hstep with hcall
      cases hstep
      rw [Supervision.stop]
      split_ifs with hnone
      · exact h
      · have hrunning : s.proc.running := by
          simpa using hnone
        rw [h.use_eq hcall.1 hrunning]
        exact h.proc hcall.1 rfl fun _ => hrunning
  | poll =>
      simp only [Supervision.step] at hstep
      split at hstep
      next i hpc =>
        split_ifs at hstep with halive
        cases hstep
        refine h.poll halive (h.stopping halive ?_) i
        rw [hpc]
        exact fun hidle => by cases hidle
      next =>
        cases hstep
  | wait =>
      simp only [Supervision.step] at hstep
      split_ifs at hstep with hwait
      cases hstep
      refine h.reaped hwait.1 (h.stopping hwait.1 ?_)
      rw [hwait.2.1]
      exact fun hidle => by cases hidle
  | childEnds pid =>
      simp only [Supervision.step] at hstep
      split_ifs at hstep with hmem
      cases hstep
      exact h.childEnds hmem
  | watchParent pid =>
      simp only [Supervision.step] at hstep
      split_ifs at hstep with hmem hparent
      · cases hstep
        exact h
      · cases hstep
        exact h.childEnds (Finset.mem_sdiff.mp hmem).1
  | terminalDies reaper =>
      simp only [Supervision.step] at hstep
      split_ifs at hstep with halive
      cases hstep
      exact h.orphan halive reaper
  | foreign f =>
      obtain ⟨table, hf, rfl⟩ := Option.map_eq_some_iff.mp hstep
      exact h.foreign hf

/-- **The feedhandler is supervised.**  Calls of the terminal, the ends of
children, the death of the terminal and whatever other processes do come in
any order.  No signal ever reaches a process that is not the child, there is
at most one child, it was told to leave with the terminal, and none is left
when `stop` has returned.  Once the terminal is dead, a look of the child for
its parent ends it exactly if process 1 adopted it. -/
theorem supervised
    {terminal : Pid} {as : List SuperviseStep} {s : Supervision}
    (hrun : exec step { parent := terminal } as = some s) :
    s.table.trespassed = ∅ ∧
      s.table.ours.card ≤ 1 ∧
      (∀ line ∈ s.launched, "--exit-when-orphaned" ∈ line) ∧
      (s.alive → s.proc.running → s.table.ours = {s.proc.pid}) ∧
      (s.alive → s.proc.running = false →
        s.table.ours = ∅ ∧ s.proc.pc = .idle) ∧
      (s.alive = false → ∀ pid s',
        s.step (.watchParent pid) = some s' →
          (s'.table.ours = ∅ ↔ s.parent ≤ 1)) := by
  have h : s.Accounted :=
    exec_invariant_of_step step (fun s a s' h hstep => h.step hstep)
      (accounted_boot terminal) hrun
  have hheld : s.held.card ≤ 1 := by
    rw [held]
    split_ifs
    · exact le_rfl
    · exact Nat.zero_le 1
  have hcard : s.table.ours.card ≤ 1 := by
    by_cases halive : s.alive
    · rw [h.ours halive]
      exact hheld
    · exact (Finset.card_le_card
        (h.orphaned (Bool.not_eq_true _ ▸ halive)).1).trans hheld
  refine ⟨h.holds.clean, hcard, h.launched, ?_, ?_, ?_⟩
  · intro halive hrunning
    rw [h.ours halive, held_of_running hrunning]
  · intro halive hstopped
    refine ⟨?_, ?_⟩
    · rw [h.ours halive, held_of_not_running hstopped]
    · by_contra hpc
      rw [h.stopping halive hpc] at hstopped
      cases hstopped
  · intro hdead pid s' hstep
    simp only [step] at hstep
    split_ifs at hstep with hmem hparent
    · cases hstep
      have hthere : s.table.ours ≠ ∅ :=
        Finset.ne_empty_of_mem (Finset.mem_sdiff.mp hmem).1
      exact iff_of_false hthere (not_le.mpr hparent)
    · cases hstep
      refine iff_of_true (Finset.card_eq_zero.mp ?_) (not_lt.mp hparent)
      rw [childEnds, if_neg (by simp [hdead])]
      change (s.table.ours.erase pid).card = 0
      rw [Finset.card_erase_of_mem (Finset.mem_sdiff.mp hmem).1]
      omega

/-- The packaged app's environment. -/
def packaged : LaunchEnv where
  feedhandler := some "/app/feedhandler"
  executable := fun _ => true

/-- The child ends by itself after SIGTERM, and another process is given its
number. -/
def stopped : List SuperviseStep :=
  [.start packaged 5020 (some 42), .stop, .poll, .childEnds 42, .poll,
    .foreign (.acquire 42)]

theorem supervised_stopped :
    ∃ s, exec step {} stopped = some s ∧ 42 ∈ s.table.others ∧
      s.table.trespassed = ∅ ∧ s.table.ours = ∅ ∧
      s.proc.pc = .idle := by
  obtain ⟨s, hrun, hreused, halive, hnone⟩ :
      ∃ s, exec step {} stopped = some s ∧ 42 ∈ s.table.others ∧
        s.alive ∧ s.proc.running = false :=
    ⟨_, rfl, by decide, rfl, rfl⟩
  obtain ⟨hclean, _, _, _, hstopped, _⟩ := supervised hrun
  exact ⟨s, hrun, hreused, hclean, hstopped halive hnone⟩

/-- The terminal is killed; under a subreaper the child stays. -/
example :
    [1, 700].map (fun reaper =>
      (exec step {} [.start packaged 5020 (some 42), .terminalDies reaper,
        .watchParent 42]).map fun s => s.table.ours) =
      [some ∅, some {42}] := by
  decide

/-! ### Stopping -/

/-- A turn of a call of `stop`. -/
def OwnTurn : SuperviseStep → Bool
  | .poll => true
  | .wait => true
  | _ => false

/-- How many turns a call of `stop` has left at most. -/
def turnsLeft (s : Supervision) : Nat :=
  match s.proc.pc with
  | .idle => 0
  | .waiting => 1
  | .polling i => kPolls - i + 2

theorem start_frame
    {s s' : Supervision} {env : LaunchEnv} {port : Int}
    {spawned : Option Pid} (hstep : s.start env port spawned = some s') :
    s'.proc.pc = s.proc.pc ∧ s'.alive = s.alive := by
  simp only [start] at hstep
  split_ifs at hstep
  · cases hstep
    exact ⟨rfl, rfl⟩
  · split at hstep
    · cases hstep
      exact ⟨rfl, rfl⟩
    · split_ifs at hstep
      · cases hstep
        exact ⟨rfl, rfl⟩
      · cases hstep
        exact ⟨rfl, rfl⟩
      · split at hstep
        · cases hstep
          exact ⟨rfl, rfl⟩
        · split_ifs at hstep
          cases hstep
          exact ⟨rfl, rfl⟩

@[simp] theorem childEnds_proc (s : Supervision) (pid : Pid) :
    (s.childEnds pid).proc = s.proc := by
  rw [childEnds]
  split_ifs <;> rfl

@[simp] theorem childEnds_alive (s : Supervision) (pid : Pid) :
    (s.childEnds pid).alive = s.alive := by
  rw [childEnds]
  split_ifs <;> rfl

/-- A turn is one turn less, and nothing but a new call adds any. -/
theorem turnsLeft_step
    {s s' : Supervision} {a : SuperviseStep} (hstep : s.step a = some s')
    (hstop : a ≠ .stop) :
    (if OwnTurn a then 1 else 0) + s'.turnsLeft ≤ s.turnsLeft := by
  have hsame : s'.proc.pc = s.proc.pc → s'.turnsLeft = s.turnsLeft := by
    intro hpc
    rw [turnsLeft, turnsLeft, hpc]
  cases a with
  | stop =>
      exact absurd rfl hstop
  | poll =>
      simp only [step] at hstep
      split at hstep
      next i hpc =>
        split_ifs at hstep with halive
        cases hstep
        have hnow : s.turnsLeft = kPolls - i + 2 := by
          rw [turnsLeft, hpc]
        rw [hnow]
        change 1 + (s.poll i).turnsLeft ≤ _
        rw [poll]
        split_ifs with hruns hmore
        · change 1 + 0 ≤ _
          omega
        · change 1 + (kPolls - (i + 1) + 2) ≤ _
          omega
        · change 1 + 1 ≤ _
          omega
      next =>
        cases hstep
  | wait =>
      simp only [step] at hstep
      split_ifs at hstep with hwait
      cases hstep
      have hnow : s.turnsLeft = 1 := by
        rw [turnsLeft, hwait.2.1]
      rw [hnow]
      exact le_rfl
  | start env port spawned =>
      simp only [step] at hstep
      split_ifs at hstep with hcall
      exact ((Nat.zero_add _).trans (hsame (start_frame hstep).1)).le
  | childEnds pid =>
      simp only [step] at hstep
      split_ifs at hstep
      cases hstep
      exact ((Nat.zero_add _).trans (hsame (s.childEnds_proc pid ▸ rfl))).le
  | watchParent pid =>
      simp only [step] at hstep
      split_ifs at hstep
      · cases hstep
        exact (Nat.zero_add _).le
      · cases hstep
        exact ((Nat.zero_add _).trans
          (hsame (s.childEnds_proc pid ▸ rfl))).le
  | terminalDies reaper =>
      simp only [step] at hstep
      split_ifs at hstep
      cases hstep
      exact (Nat.zero_add _).le
  | foreign f =>
      obtain ⟨table, _, rfl⟩ := Option.map_eq_some_iff.mp hstep
      exact (Nat.zero_add _).le

/-- A call of the terminal. -/
def IsCall : SuperviseStep → Bool
  | .start _ _ _ => true
  | .stop => true
  | _ => false

/-- A call of `stop` is under way, or it has left no child behind. -/
def Stopping (s : Supervision) : Prop :=
  s.proc.pc ≠ .idle ∨ s.proc.running = false

theorem Stopping.step
    {s s' : Supervision} (h : s.Stopping) {a : SuperviseStep}
    (hcall : IsCall a = false) (hstep : s.step a = some s') :
    s'.Stopping := by
  cases a with
  | start env port spawned =>
      cases hcall
  | stop =>
      cases hcall
  | poll =>
      simp only [Supervision.step] at hstep
      split at hstep
      next i hpc =>
        split_ifs at hstep
        cases hstep
        rw [poll]
        split_ifs
        · exact Or.inr rfl
        · exact Or.inl fun hidle => by cases hidle
        · exact Or.inl fun hidle => by cases hidle
      next =>
        cases hstep
  | wait =>
      simp only [Supervision.step] at hstep
      split_ifs at hstep
      cases hstep
      exact Or.inr rfl
  | childEnds pid =>
      simp only [Supervision.step] at hstep
      split_ifs at hstep
      cases hstep
      rw [Stopping, s.childEnds_proc pid]
      exact h
  | watchParent pid =>
      simp only [Supervision.step] at hstep
      split_ifs at hstep
      · cases hstep
        exact h
      · cases hstep
        rw [Stopping, s.childEnds_proc pid]
        exact h
  | terminalDies reaper =>
      simp only [Supervision.step] at hstep
      split_ifs at hstep
      cases hstep
      exact h
  | foreign f =>
      obtain ⟨table, _, rfl⟩ := Option.map_eq_some_iff.mp hstep
      exact h

theorem turns_le
    {later : List SuperviseStep} {s t : Supervision}
    (hcalls : ∀ a ∈ later, IsCall a = false)
    (hexec : exec Supervision.step s later = some t) :
    later.countP OwnTurn + t.turnsLeft ≤ s.turnsLeft := by
  have hturns := (countP_le Supervision.step OwnTurn (I := fun _ => True)
    turnsLeft (fun _ => 0) (by
      intro s a s' _ hcall hstep
      refine ⟨trivial, turnsLeft_step hstep ?_⟩
      rintro rfl
      cases hcall) trivial hcalls hexec).2
  rw [List.map_const', List.sum_replicate, nsmul_zero] at hturns
  exact hturns

/-- A call of `stop` can take a turn, or it waits for a child that was sent
SIGKILL. -/
theorem Accounted.goesOn
    {t : Supervision} (ht : t.Accounted) (halive : t.alive)
    (hbusy : t.proc.pc ≠ .idle) :
    (∃ a, OwnTurn a ∧ (t.step a).isSome) ∨
      (t.proc.pc = .waiting ∧ t.table.ours = {t.proc.pid} ∧
        t.proc.pid ∉ t.ended) := by
  have hchild : t.proc.running := ht.stopping halive hbusy
  cases hpc : t.proc.pc with
  | idle =>
      exact absurd hpc hbusy
  | polling i =>
      refine Or.inl ⟨.poll, rfl, ?_⟩
      simp only [Supervision.step, hpc, halive, if_true, Option.isSome_some]
  | waiting =>
      by_cases hruns : t.childRuns = false
      · refine Or.inl ⟨.wait, rfl, ?_⟩
        simp only [Supervision.step]
        rw [if_pos ⟨halive, hpc, hruns⟩]
        rfl
      · rw [childRuns, decide_eq_false_iff_not, not_not] at hruns
        exact Or.inr ⟨rfl,
          (ht.ours halive).trans (held_of_running hchild), hruns.2⟩

/-- **`stop` returns.**  After a call of `stop`, until the next call and
whatever else happens, at most 52 of its turns are taken.  As long as the
terminal lives, either it has returned and no child is left, or it can take
another turn, or it waits for a child that has been sent SIGKILL. -/
theorem stop_returns
    {terminal : Pid} {as later : List SuperviseStep} {s t : Supervision}
    (hrun : exec Supervision.step { parent := terminal } as = some s)
    (hcalls : ∀ a ∈ later, IsCall a = false)
    (hexec : exec Supervision.step s (.stop :: later) = some t) :
    later.countP OwnTurn ≤ 52 ∧
      (t.alive →
        (t.proc.pc = .idle ∧ t.table.ours = ∅) ∨
          (∃ a t', OwnTurn a ∧ t.step a = some t') ∨
          (t.proc.pc = .waiting ∧ t.table.ours = {t.proc.pid} ∧
            t.proc.pid ∉ t.ended)) := by
  obtain ⟨s', hstop, hlater⟩ := (exec_cons_eq_some _).mp hexec
  have hs : s.Accounted :=
    exec_invariant_of_step Supervision.step
      (fun s a s' h hstep => h.step hstep) (accounted_boot terminal) hrun
  have ht : t.Accounted :=
    exec_invariant_of_step Supervision.step
      (fun s a s' h hstep => h.step hstep) hs hexec
  have hcalled : s'.turnsLeft ≤ 52 ∧ s'.Stopping := by
    simp only [Supervision.step] at hstop
    split_ifs at hstop with hcall
    cases hstop
    rw [stop]
    split_ifs with hnone
    · refine ⟨?_, Or.inr hnone⟩
      rw [turnsLeft, hcall.2]
      exact Nat.zero_le _
    · exact ⟨le_rfl, Or.inl fun hidle => by cases hidle⟩
  refine ⟨?_, fun halive => ?_⟩
  · exact (Nat.le_add_right _ _).trans
      ((turns_le hcalls hlater).trans hcalled.1)
  · have hstopping : t.Stopping := by
      refine exec_invariant Supervision.step
        (C := fun _ a => IsCall a = false)
        (fun s a s' h hcall hstep => h.step hcall hstep) hcalled.2
        (everySteps_of_forall _ (fun a ha _ => hcalls a ha) _) hlater
    by_cases hpc : t.proc.pc = .idle
    · have hnone := hstopping.resolve_left (not_not.mpr hpc)
      exact Or.inl ⟨hpc, (ht.ours halive).trans
        (held_of_not_running hnone)⟩
    · rcases ht.goesOn halive hpc with ⟨a, hturn, hstep⟩ | hwaits
      · obtain ⟨t', hstep⟩ := Option.isSome_iff_exists.mp hstep
        exact Or.inr (Or.inl ⟨a, t', hturn, hstep⟩)
      · exact Or.inr (Or.inr hwaits)

/-- One turn after SIGTERM the child is still there. -/
theorem stop_returns_polling :
    ∃ s t, exec Supervision.step {}
        [.start packaged 5020 (some 42)] = some s ∧
      exec Supervision.step s [.stop, .poll] = some t ∧
      [SuperviseStep.poll].countP OwnTurn ≤ 52 ∧
      (t.alive →
        (t.proc.pc = .idle ∧ t.table.ours = ∅) ∨
          (∃ a t', OwnTurn a ∧ t.step a = some t') ∨
          (t.proc.pc = .waiting ∧ t.table.ours = {t.proc.pid} ∧
            t.proc.pid ∉ t.ended)) := by
  obtain ⟨s, hrun⟩ :
      ∃ s, exec Supervision.step {}
          [.start packaged 5020 (some 42)] = some s :=
    ⟨_, rfl⟩
  obtain ⟨t, hexec⟩ :
      ∃ t, exec Supervision.step s [.stop, .poll] = some t := by
    cases hrun
    exact ⟨_, rfl⟩
  exact ⟨s, t, hrun, hexec,
    stop_returns hrun (by decide) hexec⟩

end Supervision

end ExecutionLayer
