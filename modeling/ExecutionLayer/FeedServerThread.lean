import ExecutionLayer.Library.Handles
import ExecutionLayer.Library.StepSystem
import Mathlib.Data.Finset.Card

/-!
# The sockets of the feed server

`start`, `stop` and `run` of `feed_server.cpp`: the engine's side opens and
closes the listening socket, and a thread of its own accepts one feedhandler
after the other, serves it and closes its socket.  The two share `running_`
and `listen_fd_` without a lock.

File descriptors are reused, so a descriptor that is closed twice, or used
after it was closed, could be somebody else's.  `sockets_accounted` says that
neither happens, that the connection shown to the user is one that is being
served, and that nothing stays open after `stop`; `stop_joins` says that
`stop` cannot hang, unless the thread is in the `send` of a reply to a client
that reads nothing: nothing wakes it up there.  A `send` that fails is taken
to return, and so is `handle_line`: SIGPIPE and the lines on which it throws
are left out.
-/

namespace ExecutionLayer

open Handles StepSystem

/-- A file descriptor. -/
abbrev Fd := Int

/-- Where the engine's side is. -/
inductive OwnerPc where
  | idle
  | binding (fd : Fd)
  | listening (fd : Fd)
  | joining
  | closing
deriving DecidableEq, Repr

/-- Where the thread is: at the head of its loop, in `poll`, in `accept`, and
then with a client. -/
inductive ThreadPc where
  | none
  | ready
  | polling
  | accepting
  | accepted (client : Fd)
  | serving (client : Fd)
  | served (client : Fd)
  | closing (client : Fd)
  | done
deriving DecidableEq, Repr

/-- The descriptor that a call of `start` works on. -/
def OwnerPc.opening : OwnerPc → Finset Fd
  | .binding fd => {fd}
  | .listening fd => {fd}
  | _ => ∅

/-- The descriptor of the client. -/
def ThreadPc.client : ThreadPc → Finset Fd
  | .accepted client => {client}
  | .serving client => {client}
  | .served client => {client}
  | .closing client => {client}
  | _ => ∅

/-- A client is being served. -/
def ThreadPc.attached : ThreadPc → Bool
  | .serving _ => true
  | .served _ => true
  | _ => false

/-- What `poll` and `recv` of `serve` meet: a block of lines has so many polls
in it. -/
inductive ServeTurn where
  | quiet
  | lines (polls : Nat)
  | closed
deriving DecidableEq, Repr

structure ServerSockets where
  table : Table Fd := {}
  running : Bool := false
  listenFd : Fd := -1
  err : String := ""
  owner : OwnerPc := .idle
  thread : ThreadPc := .none
  /-- the flag in the store -/
  feedAttached : Bool := false
  /-- `serve` is past its test of `running_` -/
  reading : Bool := false
  /-- of the block in hand, the replies that `send_all` has not sent -/
  replies : Nat := 0
  /-- `send` does not block on the client's socket -/
  room : Bool := true

/-- What the engine's side, the thread and others do; the results of system
calls are part of a step. -/
inductive SocketStep where
  | start (fd : Option Fd)
  | bind (port : Int) (ok : Bool)
  | listen (ok : Bool)
  | stop
  | join
  | close
  | head
  | poll (ready : Bool)
  | accept (client : Option Fd)
  | attach
  | serveHead
  | serve (turn : ServeTurn)
  | reply
  | detach
  | closeClient
  | clientReads (room : Bool)
  | foreign (f : Foreign Fd)
deriving DecidableEq

namespace ServerSockets

/-! ### The engine's side -/

/-- `start`, up to `socket` -/
def start (s : ServerSockets) (fd : Option Fd) : Option ServerSockets :=
  if s.running then some s
  else
    match fd with
    | none => some { s with err := "socket() failed" }
    | some fd =>
        if s.table.Fresh fd ∧ 0 ≤ fd then
          some { s with table := s.table.acquire fd, owner := .binding fd }
        else none

/-- A failed `start` closes what it has opened. -/
def giveUp (s : ServerSockets) (fd : Fd) (err : String) : ServerSockets :=
  { s with table := s.table.release fd, err := err, owner := .idle }

def bind (s : ServerSockets) (fd : Fd) (port : Int) (ok : Bool) :
    ServerSockets :=
  let s := { s with table := s.table.use fd }
  if ok then { s with owner := .listening fd }
  else
    s.giveUp fd
      ("bind() failed on port " ++ toString port ++ " (already running?)")

def listen (s : ServerSockets) (fd : Fd) (ok : Bool) : ServerSockets :=
  let s := { s with table := s.table.use fd }
  if ok then
    { s with
      listenFd := fd, running := true, err := "", owner := .idle
      thread := .ready }
  else s.giveUp fd "listen() failed"

/-- `stop`, up to the join -/
def stop (s : ServerSockets) : ServerSockets :=
  if s.running = false ∧ s.listenFd < 0 then s
  else
    { s with
      running := false
      table := if 0 ≤ s.listenFd then s.table.use s.listenFd else s.table
      owner := .joining }

/-- `stop`, after the join -/
def close (s : ServerSockets) : ServerSockets :=
  let s :=
    if 0 ≤ s.listenFd then
      { s with table := s.table.release s.listenFd, listenFd := -1 }
    else s
  { s with feedAttached := false, owner := .idle }

/-! ### The thread -/

/-- The head of the loop of `serve`. -/
def serveHead (s : ServerSockets) (client : Fd) : ServerSockets :=
  if s.running then { s with reading := true }
  else { s with thread := .served client }

/-- The loop of `serve` behind its head, the replies apart. -/
def serve (s : ServerSockets) (client : Fd) (turn : ServeTurn) :
    ServerSockets :=
  let s := { s with table := s.table.use client, reading := false }
  match turn with
  | .quiet => s
  | .lines polls => { s with replies := polls }
  | .closed => { s with thread := .served client }

/-- A call of `send_all` returns; its verdict is ignored. -/
def reply (s : ServerSockets) (client : Fd) : ServerSockets :=
  { s with table := s.table.use client, replies := s.replies - 1 }

/-- A step of the thread where it stands. -/
def threadStep (s : ServerSockets) : SocketStep → Option ServerSockets
  | .head =>
      if s.thread = .ready then
        some { s with thread := if s.running then .polling else .done }
      else none
  | .poll ready =>
      if s.thread = .polling then
        some
          { s with
            table := s.table.use s.listenFd
            thread := if ready then .accepting else .ready }
      else none
  | .accept client =>
      if s.thread = .accepting then
        let s := { s with table := s.table.use s.listenFd }
        match client with
        | none => some { s with thread := .ready }
        | some fd =>
            if s.table.Fresh fd ∧ 0 ≤ fd then
              some
                { s with
                  table := s.table.acquire fd, thread := .accepted fd }
            else none
      else none
  | .attach =>
      match s.thread with
      | .accepted client =>
          some { s with feedAttached := true, thread := .serving client }
      | _ => none
  | .serveHead =>
      match s.thread with
      | .serving client =>
          if s.replies = 0 ∧ s.reading = false then some (s.serveHead client)
          else none
      | _ => none
  | .serve turn =>
      match s.thread with
      | .serving client =>
          if s.reading then some (s.serve client turn) else none
      | _ => none
  | .reply =>
      match s.thread with
      | .serving client =>
          if 0 < s.replies ∧ s.room then some (s.reply client) else none
      | _ => none
  | .detach =>
      match s.thread with
      | .served client =>
          some { s with feedAttached := false, thread := .closing client }
      | _ => none
  | .closeClient =>
      match s.thread with
      | .closing client =>
          some { s with table := s.table.release client, thread := .ready }
      | _ => none
  | _ => none

/-- A step of the engine's side where it stands. -/
def ownerStep (s : ServerSockets) : SocketStep → Option ServerSockets
  | .start fd => if s.owner = .idle then s.start fd else none
  | .bind port ok =>
      match s.owner with
      | .binding fd => some (s.bind fd port ok)
      | _ => none
  | .listen ok =>
      match s.owner with
      | .listening fd => some (s.listen fd ok)
      | _ => none
  | .stop => if s.owner = .idle then some s.stop else none
  | .join =>
      if s.owner = .joining ∧ (s.thread = .none ∨ s.thread = .done) then
        some { s with thread := .none, owner := .closing }
      else none
  | .close => if s.owner = .closing then some s.close else none
  | _ => none

/-- What the client and other users of sockets do. -/
def OfOthers : SocketStep → Bool
  | .clientReads _ => true
  | .foreign _ => true
  | _ => false

/-- The steps of the thread. -/
def OfThread : SocketStep → Bool
  | .head => true
  | .poll _ => true
  | .accept _ => true
  | .attach => true
  | .serveHead => true
  | .serve _ => true
  | .reply => true
  | .detach => true
  | .closeClient => true
  | _ => false

def step (s : ServerSockets) : SocketStep → Option ServerSockets
  | .clientReads room => some { s with room := room }
  | .foreign f =>
      (s.table.foreign f).map fun table => { s with table := table }
  | a => if OfThread a then s.threadStep a else s.ownerStep a

theorem step_own {s : ServerSockets} {a : SocketStep}
    (hown : OfOthers a = false) :
    s.step a = if OfThread a then s.threadStep a else s.ownerStep a := by
  cases a with
  | clientReads room =>
      cases hown
  | foreign f =>
      cases hown
  | _ =>
      rfl

/-- A step of the engine's side. -/
theorem step_owner {s : ServerSockets} {a : SocketStep}
    (hown : OfOthers a = false) (hthread : OfThread a = false) :
    s.step a = s.ownerStep a := by
  rw [step_own hown, hthread]
  rfl

/-- Others change nothing of the server's own. -/
theorem step_others
    {s s' : ServerSockets} {a : SocketStep} (hothers : OfOthers a)
    (hstep : s.step a = some s') :
    ∃ table room, s' = { s with table := table, room := room } ∧
      ∀ ours, s.table.Holds ours → table.Holds ours := by
  cases a with
  | clientReads room =>
      cases hstep
      exact ⟨s.table, room, rfl, fun _ h => h⟩
  | foreign f =>
      obtain ⟨table, hf, rfl⟩ := Option.map_eq_some_iff.mp hstep
      exact ⟨table, s.room, rfl, fun _ h => h.foreign hf⟩
  | _ =>
      cases hothers

@[simp] theorem close_replies (s : ServerSockets) :
    s.close.replies = s.replies := by
  simp only [close]
  split_ifs <;> rfl

@[simp] theorem close_owner (s : ServerSockets) :
    s.close.owner = .idle := by
  rfl

/-- The replies that a step asks for. -/
def asked : SocketStep → Nat
  | .serve (.lines polls) => polls
  | _ => 0

theorem serve_frame (s : ServerSockets) (client : Fd) (turn : ServeTurn) :
    (s.serve client turn).owner = s.owner ∧
      (s.serve client turn).running = s.running ∧
      (s.serve client turn).replies ≤ s.replies + asked (.serve turn) := by
  cases turn with
  | lines polls =>
      exact ⟨rfl, rfl, Nat.le_add_left _ _⟩
  | _ =>
      exact ⟨rfl, rfl, Nat.le_add_right _ _⟩

/-- The thread touches nothing of the engine's side, and has more to reply to
after a block of lines only. -/
theorem threadStep_frame
    {s s' : ServerSockets} {a : SocketStep}
    (hstep : s.threadStep a = some s') :
    s'.owner = s.owner ∧ s'.running = s.running ∧
      s'.replies ≤ s.replies + asked a := by
  cases a with
  | head =>
      simp only [threadStep] at hstep
      split_ifs at hstep <;> cases hstep <;> exact ⟨rfl, rfl, le_rfl⟩
  | poll ready =>
      simp only [threadStep] at hstep
      split_ifs at hstep <;> cases hstep <;> exact ⟨rfl, rfl, le_rfl⟩
  | accept client =>
      simp only [threadStep] at hstep
      by_cases hthread : s.thread = .accepting
      · rw [if_pos hthread] at hstep
        cases client with
        | none =>
            cases hstep
            exact ⟨rfl, rfl, le_rfl⟩
        | some fd =>
            simp only at hstep
            split_ifs at hstep
            cases hstep
            exact ⟨rfl, rfl, le_rfl⟩
      · rw [if_neg hthread] at hstep
        cases hstep
  | attach =>
      simp only [threadStep] at hstep
      split at hstep <;> cases hstep
      exact ⟨rfl, rfl, le_rfl⟩
  | serveHead =>
      simp only [threadStep] at hstep
      split at hstep
      next client _ =>
        split_ifs at hstep
        cases hstep
        rw [serveHead]
        split_ifs <;> exact ⟨rfl, rfl, le_rfl⟩
      next =>
        cases hstep
  | serve turn =>
      simp only [threadStep] at hstep
      split at hstep
      next client _ =>
        split_ifs at hstep
        cases hstep
        exact s.serve_frame client turn
      next =>
        cases hstep
  | reply =>
      simp only [threadStep] at hstep
      split at hstep
      next client _ =>
        split_ifs at hstep
        cases hstep
        exact ⟨rfl, rfl, Nat.sub_le _ _⟩
      next =>
        cases hstep
  | detach =>
      simp only [threadStep] at hstep
      split at hstep <;> cases hstep
      exact ⟨rfl, rfl, le_rfl⟩
  | closeClient =>
      simp only [threadStep] at hstep
      split at hstep <;> cases hstep
      exact ⟨rfl, rfl, le_rfl⟩
  | _ =>
      cases hstep

/-- What the engine's side does leaves the replies as they are. -/
theorem ownerStep_replies
    {s s' : ServerSockets} {a : SocketStep}
    (hstep : s.ownerStep a = some s') :
    s'.replies = s.replies := by
  cases a with
  | start fd =>
      simp only [ownerStep, start] at hstep
      split_ifs at hstep
      · cases hstep
        rfl
      · cases fd with
        | none =>
            cases hstep
            rfl
        | some fd =>
            simp only at hstep
            split_ifs at hstep
            cases hstep
            rfl
  | bind port ok =>
      simp only [ownerStep] at hstep
      split at hstep <;> cases hstep
      simp only [bind]
      split_ifs <;> rfl
  | listen ok =>
      simp only [ownerStep] at hstep
      split at hstep <;> cases hstep
      simp only [listen]
      split_ifs <;> rfl
  | stop =>
      simp only [ownerStep] at hstep
      split_ifs at hstep
      cases hstep
      rw [stop]
      split_ifs <;> rfl
  | join =>
      simp only [ownerStep] at hstep
      split_ifs at hstep
      cases hstep
      rfl
  | close =>
      simp only [ownerStep] at hstep
      split_ifs at hstep
      cases hstep
      exact s.close_replies
  | _ =>
      cases hstep

/-- Replies are added by a block of lines only. -/
theorem replies_step
    {s s' : ServerSockets} {a : SocketStep} (hstep : s.step a = some s') :
    s'.replies ≤ s.replies + asked a := by
  by_cases hothers : OfOthers a
  · obtain ⟨table, room, rfl, _⟩ := step_others hothers hstep
    exact Nat.le_add_right _ _
  · rw [step_own (Bool.not_eq_true _ ▸ hothers)] at hstep
    split_ifs at hstep
    · exact (threadStep_frame hstep).2.2
    · rw [ownerStep_replies hstep]
      exact Nat.le_add_right _ _

/-! ### Who holds what -/

/-- The phases of a server: down, starting, up, and stopping. -/
inductive Phase : Bool → Fd → OwnerPc → ThreadPc → Prop where
  | down : Phase false (-1) .idle .none
  | binding (fd : Fd) (h : 0 ≤ fd) :
      Phase false (-1) (.binding fd) .none
  | listening (fd : Fd) (h : 0 ≤ fd) :
      Phase false (-1) (.listening fd) .none
  | up {fd : Fd} {thread : ThreadPc} (h : 0 ≤ fd)
      (started : thread ≠ .none) (runs : thread ≠ .done) :
      Phase true fd .idle thread
  | joining {fd : Fd} {thread : ThreadPc} (h : 0 ≤ fd)
      (started : thread ≠ .none) :
      Phase false fd .joining thread
  | closing {fd : Fd} (h : 0 ≤ fd) : Phase false fd .closing .none

namespace Phase

variable {running : Bool} {fd : Fd} {owner : OwnerPc} {thread : ThreadPc}

/-- While the thread lives, the listening socket is open and no `start` is
under way. -/
theorem live (h : Phase running fd owner thread) (hne : thread ≠ .none) :
    0 ≤ fd ∧ owner.opening = ∅ := by
  cases h with
  | down =>
      exact absurd rfl hne
  | binding fd =>
      exact absurd rfl hne
  | listening fd =>
      exact absurd rfl hne
  | up hfd =>
      exact ⟨hfd, rfl⟩
  | joining hfd =>
      exact ⟨hfd, rfl⟩
  | closing =>
      exact absurd rfl hne

/-- A living thread goes on to where it may be. -/
theorem goesOn
    (h : Phase running fd owner thread) (hne : thread ≠ .none)
    {thread' : ThreadPc} (hne' : thread' ≠ .none)
    (hruns : running → thread' ≠ .done) :
    Phase running fd owner thread' := by
  cases h with
  | down =>
      exact absurd rfl hne
  | binding fd =>
      exact absurd rfl hne
  | listening fd =>
      exact absurd rfl hne
  | up hfd =>
      exact .up hfd hne' (hruns rfl)
  | joining hfd =>
      exact .joining hfd hne'
  | closing =>
      exact absurd rfl hne

/-- A server that neither runs nor is being stopped is down. -/
theorem down_of
    (h : Phase running fd owner thread) (hidle : owner = .idle)
    (hstopped : running = false) :
    fd = -1 ∧ thread = .none := by
  cases h with
  | down =>
      exact ⟨rfl, rfl⟩
  | up =>
      cases hstopped
  | _ =>
      cases hidle

/-- A server that runs is up. -/
theorem up_of
    (h : Phase running fd owner thread) (hrunning : running) :
    0 ≤ fd ∧ owner = .idle ∧ thread ≠ .none := by
  cases h with
  | up hfd hstarted =>
      exact ⟨hfd, rfl, hstarted⟩
  | _ =>
      cases hrunning

theorem not_done
    (h : Phase running fd owner thread) (hrunning : running) :
    thread ≠ .done := by
  cases h with
  | up _ _ hruns =>
      exact hruns
  | _ =>
      cases hrunning

/-- During a call of `start` nothing else is there. -/
theorem opening_of
    (h : Phase running fd owner thread) {k : Fd}
    (hopening : owner = .binding k ∨ owner = .listening k) :
    running = false ∧ fd = -1 ∧ 0 ≤ k ∧ thread = .none := by
  cases h with
  | binding k' hk =>
      rcases hopening with hopening | hopening
      · cases hopening
        exact ⟨rfl, rfl, hk, rfl⟩
      · cases hopening
  | listening k' hk =>
      rcases hopening with hopening | hopening
      · cases hopening
      · cases hopening
        exact ⟨rfl, rfl, hk, rfl⟩
  | _ =>
      rcases hopening with hopening | hopening <;> cases hopening

/-- During a call of `stop` the server no longer runs. -/
theorem stopping_of
    (h : Phase running fd owner thread)
    (hstopping : owner = .joining ∨ owner = .closing) :
    running = false ∧ 0 ≤ fd := by
  cases h with
  | joining hfd =>
      exact ⟨rfl, hfd⟩
  | closing hfd =>
      exact ⟨rfl, hfd⟩
  | _ =>
      rcases hstopping with hstopping | hstopping <;> cases hstopping

/-- After the join the thread is gone. -/
theorem closing_of
    (h : Phase running fd owner thread) (hclosing : owner = .closing) :
    thread = .none := by
  cases h with
  | closing =>
      rfl
  | _ =>
      cases hclosing

end Phase

/-- The descriptors that the code accounts for. -/
def held (s : ServerSockets) : Finset Fd :=
  (if 0 ≤ s.listenFd then {s.listenFd} else ∅) ∪ s.owner.opening ∪
    s.thread.client

structure Accounted (s : ServerSockets) : Prop where
  phase : Phase s.running s.listenFd s.owner s.thread
  holds : s.table.Holds s.held
  client : ∀ fd ∈ s.thread.client, fd ≠ s.listenFd
  attached : s.feedAttached = s.thread.attached

theorem accounted_boot : Accounted {} where
  phase := .down
  holds := Table.holds_empty
  client := fun fd h => absurd h (Finset.notMem_empty fd)
  attached := rfl

section Thread

variable {s : ServerSockets}

/-- What is open while the thread lives. -/
theorem Accounted.held_eq (h : s.Accounted) (hne : s.thread ≠ .none) :
    s.held = insert s.listenFd s.thread.client := by
  obtain ⟨hfd, hnone⟩ := h.phase.live hne
  rw [held, if_pos hfd, hnone, Finset.union_empty, Finset.insert_eq]

/-- A listening socket that is open is the server's own. -/
theorem Accounted.use_open (h : s.Accounted) (hfd : 0 ≤ s.listenFd) :
    s.table.use s.listenFd = s.table := by
  refine h.holds.use_eq ?_
  rw [held, if_pos hfd]
  exact Finset.mem_union_left _
    (Finset.mem_union_left _ (Finset.mem_singleton_self _))

theorem Accounted.use_listenFd (h : s.Accounted) (hne : s.thread ≠ .none) :
    s.table.use s.listenFd = s.table :=
  h.use_open (h.phase.live hne).1

/-- The thread goes on with the client it has, if it has one. -/
theorem Accounted.goesOn
    (h : s.Accounted) {before : ThreadPc} (after : ThreadPc)
    (hthread : s.thread = before) (hbefore : before ≠ .none)
    (hafter : after ≠ .none) (hruns : s.running → after ≠ .done)
    (hclient : after.client = before.client) {attached : Bool}
    (hattached : attached = after.attached) :
    Accounted { s with thread := after, feedAttached := attached } where
  phase := h.phase.goesOn (hthread ▸ hbefore) hafter hruns
  holds := by
    have hheld : s.held = held
        { s with thread := after, feedAttached := attached } := by
      rw [held, held]
      simp only [hclient, hthread]
    rw [← hheld]
    exact h.holds
  client := by
    change ∀ fd ∈ after.client, fd ≠ s.listenFd
    rw [hclient, ← hthread]
    exact h.client
  attached := hattached

/-- The thread gets a client. -/
theorem Accounted.accepts
    (h : s.Accounted) (hthread : s.thread = .accepting) {fd : Fd}
    (hfresh : s.table.Fresh fd) :
    Accounted
      { s with table := s.table.acquire fd, thread := .accepted fd } where
  phase := by
    have hphase := h.phase
    rw [hthread] at hphase
    exact hphase.goesOn (fun hnone => by cases hnone)
      (fun hnone => by cases hnone) fun _ hdone => by cases hdone
  holds := by
    have hne : s.thread ≠ .none := by
      rw [hthread]
      rintro ⟨⟩
    obtain ⟨hfd, hnone⟩ := h.phase.live hne
    have hheld : held
        { s with table := s.table.acquire fd, thread := .accepted fd } =
          insert fd s.held := by
      rw [h.held_eq hne, hthread, held, if_pos hfd, hnone]
      exact Finset.pair_comm s.listenFd fd
    rw [hheld]
    exact h.holds.acquire hfresh
  client := by
    intro k hk hlisten
    have hne : s.thread ≠ .none := by
      rw [hthread]
      rintro ⟨⟩
    refine hfresh.1 ?_
    rw [h.holds.ours, h.held_eq hne, ← Finset.mem_singleton.mp hk,
      hlisten]
    exact Finset.mem_insert_self _ _
  attached := by
    have hattached := h.attached
    rw [hthread] at hattached
    exact hattached

/-- The thread closes its client. -/
theorem Accounted.closes
    (h : s.Accounted) {fd : Fd} (hthread : s.thread = .closing fd) :
    Accounted
      { s with table := s.table.release fd, thread := .ready } where
  phase := by
    have hphase := h.phase
    rw [hthread] at hphase
    exact hphase.goesOn (fun hnone => by cases hnone)
      (fun hnone => by cases hnone) fun _ hdone => by cases hdone
  holds := by
    have hne : s.thread ≠ .none := by
      rw [hthread]
      rintro ⟨⟩
    obtain ⟨hfd, hnone⟩ := h.phase.live hne
    have hother : fd ≠ s.listenFd := by
      refine h.client fd ?_
      rw [hthread]
      exact Finset.mem_singleton_self fd
    have hold : s.held = {s.listenFd, fd} := by
      rw [h.held_eq hne, hthread]
      rfl
    have hheld : held
        { s with table := s.table.release fd, thread := .ready } =
          s.held.erase fd := by
      rw [hold, held, if_pos hfd, hnone]
      rw [Finset.pair_comm, Finset.erase_insert
        (fun hmem => hother (Finset.mem_singleton.mp hmem))]
      rfl
    rw [hheld]
    refine h.holds.release ?_
    rw [hold, Finset.pair_comm]
    exact Finset.mem_insert_self _ _
  client := fun fd h => absurd h (Finset.notMem_empty fd)
  attached := by
    have hattached := h.attached
    rw [hthread] at hattached
    exact hattached

/-- The client that is served is the server's own. -/
theorem Accounted.use_client
    (h : s.Accounted) {client : Fd} (hthread : s.thread = .serving client) :
    s.table.use client = s.table := by
  refine h.holds.use_eq ?_
  rw [h.held_eq (by rw [hthread]; rintro ⟨⟩), hthread]
  exact Finset.mem_insert_of_mem (Finset.mem_singleton_self _)

/-- What is read and what is left of it is no matter of descriptors. -/
theorem Accounted.reads (h : s.Accounted) (reading : Bool) (replies : Nat) :
    Accounted { s with reading := reading, replies := replies } :=
  ⟨h.phase, h.holds, h.client, h.attached⟩

/-- The client has been served. -/
theorem Accounted.served
    (h : s.Accounted) {client : Fd} (hthread : s.thread = .serving client) :
    Accounted { s with thread := .served client } := by
  have hattached := h.attached
  rw [hthread] at hattached
  exact h.goesOn (.served client) hthread (by rintro ⟨⟩)
    (by rintro ⟨⟩) (by rintro _ ⟨⟩) rfl hattached

/-- A turn of `serve`. -/
theorem Accounted.serves
    (h : s.Accounted) {client : Fd} (hthread : s.thread = .serving client)
    (turn : ServeTurn) :
    (s.serve client turn).Accounted := by
  unfold serve
  rw [h.use_client hthread]
  cases turn with
  | quiet =>
      exact h.reads false s.replies
  | lines polls =>
      exact h.reads false polls
  | closed =>
      exact (h.served hthread).reads false s.replies

theorem Accounted.threadStep
    {s' : ServerSockets} (h : s.Accounted) {a : SocketStep}
    (hstep : s.threadStep a = some s') :
    s'.Accounted := by
  have hattached := h.attached
  cases a with
  | head =>
      simp only [ServerSockets.threadStep] at hstep
      split_ifs at hstep with hthread hruns
      · cases hstep
        rw [hthread] at hattached
        exact h.goesOn .polling hthread (by rintro ⟨⟩) (by rintro ⟨⟩)
          (by rintro _ ⟨⟩) rfl hattached
      · cases hstep
        rw [hthread] at hattached
        exact h.goesOn .done hthread (by rintro ⟨⟩) (by rintro ⟨⟩)
          (fun hrunning => absurd hrunning hruns) rfl hattached
  | poll ready =>
      simp only [ServerSockets.threadStep] at hstep
      by_cases hthread : s.thread = .polling
      · rw [if_pos hthread,
          h.use_listenFd (by rw [hthread]; rintro ⟨⟩)] at hstep
        rw [hthread] at hattached
        cases hstep
        cases ready with
        | true =>
            exact h.goesOn .accepting hthread (by rintro ⟨⟩)
              (by rintro ⟨⟩) (by rintro _ ⟨⟩) rfl hattached
        | false =>
            exact h.goesOn .ready hthread (by rintro ⟨⟩) (by rintro ⟨⟩)
              (by rintro _ ⟨⟩) rfl hattached
      · rw [if_neg hthread] at hstep
        cases hstep
  | accept client =>
      simp only [ServerSockets.threadStep] at hstep
      by_cases hthread : s.thread = .accepting
      · rw [if_pos hthread,
          h.use_listenFd (by rw [hthread]; rintro ⟨⟩)] at hstep
        cases client with
        | none =>
            cases hstep
            rw [hthread] at hattached
            exact h.goesOn .ready hthread (by rintro ⟨⟩) (by rintro ⟨⟩)
              (by rintro _ ⟨⟩) rfl hattached
        | some fd =>
            simp only at hstep
            split_ifs at hstep with hfresh
            cases hstep
            exact h.accepts hthread hfresh.1
      · rw [if_neg hthread] at hstep
        cases hstep
  | attach =>
      simp only [ServerSockets.threadStep] at hstep
      split at hstep
      next client hthread =>
        cases hstep
        exact h.goesOn (.serving client) hthread (by rintro ⟨⟩)
          (by rintro ⟨⟩) (by rintro _ ⟨⟩) rfl rfl
      next =>
        cases hstep
  | serveHead =>
      simp only [ServerSockets.threadStep] at hstep
      split at hstep
      next client hthread =>
        split_ifs at hstep
        cases hstep
        rw [serveHead]
        split_ifs
        · exact h.reads true s.replies
        · exact h.served hthread
      next =>
        cases hstep
  | serve turn =>
      simp only [ServerSockets.threadStep] at hstep
      split at hstep
      next client hthread =>
        split_ifs at hstep
        cases hstep
        exact h.serves hthread turn
      next =>
        cases hstep
  | reply =>
      simp only [ServerSockets.threadStep] at hstep
      split at hstep
      next client hthread =>
        split_ifs at hstep
        cases hstep
        rw [reply, h.use_client hthread]
        exact h.reads s.reading _
      next =>
        cases hstep
  | detach =>
      simp only [ServerSockets.threadStep] at hstep
      split at hstep
      next client hthread =>
        cases hstep
        exact h.goesOn (.closing client) hthread (by rintro ⟨⟩)
          (by rintro ⟨⟩) (by rintro _ ⟨⟩) rfl rfl
      next =>
        cases hstep
  | closeClient =>
      simp only [ServerSockets.threadStep] at hstep
      split at hstep
      next client hthread =>
        cases hstep
        exact h.closes hthread
      next =>
        cases hstep
  | _ =>
      cases hstep

end Thread

/-! ### The steps of the engine's side -/

section Owner

variable {s s' : ServerSockets}

/-- Without a thread there is no client. -/
theorem held_of_none (hthread : s.thread = .none) :
    s.held =
      (if 0 ≤ s.listenFd then {s.listenFd} else ∅) ∪ s.owner.opening := by
  rw [held, hthread]
  exact Finset.union_empty _

/-- No client, nothing that a client could be wrong about. -/
theorem accounted_of_none
    (hthread : s.thread = .none)
    (hphase : Phase s.running s.listenFd s.owner .none)
    (hholds : s.table.Holds
      ((if 0 ≤ s.listenFd then {s.listenFd} else ∅) ∪ s.owner.opening))
    (hattached : s.feedAttached = false) :
    s.Accounted where
  phase := hthread ▸ hphase
  holds := held_of_none hthread ▸ hholds
  client := by
    rw [hthread]
    exact fun fd hmem => absurd hmem (Finset.notMem_empty fd)
  attached := by
    rw [hthread]
    exact hattached

theorem Accounted.detached (h : s.Accounted) (hthread : s.thread = .none) :
    s.feedAttached = false := by
  rw [h.attached, hthread]
  rfl

theorem Accounted.start
    (h : s.Accounted) (hidle : s.owner = .idle) {fd : Option Fd}
    (hstep : s.start fd = some s') :
    s'.Accounted := by
  simp only [ServerSockets.start] at hstep
  by_cases hrunning : s.running
  · rw [if_pos hrunning] at hstep
    cases hstep
    exact h
  · rw [if_neg hrunning] at hstep
    cases fd with
    | none =>
        cases hstep
        exact ⟨h.phase, h.holds, h.client, h.attached⟩
    | some fd =>
        simp only at hstep
        split_ifs at hstep with hfresh
        cases hstep
        have hstopped : s.running = false := Bool.not_eq_true _ ▸ hrunning
        obtain ⟨hlisten, hthread⟩ := h.phase.down_of hidle hstopped
        have hnothing : s.held = ∅ := by
          rw [held_of_none hthread, hlisten, hidle]
          rfl
        have hholds := (hnothing ▸ h.holds).acquire hfresh.1
        refine accounted_of_none hthread ?_ ?_ (h.detached hthread)
        · change Phase s.running s.listenFd (.binding fd) .none
          rw [hstopped, hlisten]
          exact .binding fd hfresh.2
        · change (s.table.acquire fd).Holds
            ((if 0 ≤ s.listenFd then {s.listenFd} else ∅) ∪ {fd})
          rw [hlisten]
          exact hholds

/-- During a call of `start` the code holds the socket that it opens. -/
theorem Accounted.opening
    (h : s.Accounted) {fd : Fd}
    (hopening : s.owner = .binding fd ∨ s.owner = .listening fd) :
    s.table.Holds {fd} ∧ s.table.use fd = s.table := by
  obtain ⟨_, hlisten, _, hthread⟩ := h.phase.opening_of hopening
  have hone : s.held = {fd} := by
    rw [held_of_none hthread, hlisten]
    rcases hopening with hopening | hopening
    · rw [hopening]
      rfl
    · rw [hopening]
      rfl
  have hholds := hone ▸ h.holds
  exact ⟨hholds, hholds.use_eq (Finset.mem_singleton_self fd)⟩

theorem Accounted.giveUp
    (h : s.Accounted) {fd : Fd}
    (hopening : s.owner = .binding fd ∨ s.owner = .listening fd)
    (err : String) :
    (s.giveUp fd err).Accounted := by
  obtain ⟨hstopped, hlisten, _, hthread⟩ := h.phase.opening_of hopening
  obtain ⟨hholds, _⟩ := h.opening hopening
  have hnone := hholds.release (Finset.mem_singleton_self fd)
  rw [Finset.erase_singleton] at hnone
  refine accounted_of_none hthread ?_ ?_ (h.detached hthread)
  · change Phase s.running s.listenFd .idle .none
    rw [hstopped, hlisten]
    exact .down
  · change (s.table.release fd).Holds
      ((if 0 ≤ s.listenFd then {s.listenFd} else ∅) ∪ ∅)
    rw [hlisten]
    exact hnone

theorem Accounted.bind
    (h : s.Accounted) {fd : Fd} (hbinding : s.owner = .binding fd)
    (port : Int) (ok : Bool) :
    (s.bind fd port ok).Accounted := by
  obtain ⟨hholds, huse⟩ := h.opening (Or.inl hbinding)
  obtain ⟨hstopped, hlisten, hfd, hthread⟩ :=
    h.phase.opening_of (Or.inl hbinding)
  simp only [ServerSockets.bind, huse]
  split_ifs
  · refine accounted_of_none hthread ?_ ?_ (h.detached hthread)
    · change Phase s.running s.listenFd (.listening fd) .none
      rw [hstopped, hlisten]
      exact .listening fd hfd
    · change s.table.Holds
        ((if 0 ≤ s.listenFd then {s.listenFd} else ∅) ∪ {fd})
      rw [hlisten]
      exact hholds
  · exact h.giveUp (Or.inl hbinding) _

theorem Accounted.listen
    (h : s.Accounted) {fd : Fd} (hlistening : s.owner = .listening fd)
    (ok : Bool) :
    (s.listen fd ok).Accounted := by
  obtain ⟨hholds, huse⟩ := h.opening (Or.inr hlistening)
  obtain ⟨_, _, hfd, hthread⟩ := h.phase.opening_of (Or.inr hlistening)
  simp only [ServerSockets.listen, huse]
  split_ifs
  · refine ⟨.up hfd (by rintro ⟨⟩) (by rintro ⟨⟩), ?_,
      fun k hmem => absurd hmem (Finset.notMem_empty k),
      h.detached hthread⟩
    rw [held, if_pos hfd]
    exact hholds
  · exact h.giveUp (Or.inr hlistening) _

theorem Accounted.stop (h : s.Accounted) (hidle : s.owner = .idle) :
    s.stop.Accounted := by
  rw [ServerSockets.stop]
  split_ifs with hdown hfd
  · exact h
  · have hrunning : s.running := by
      by_contra hstopped
      obtain ⟨hlisten, _⟩ :=
        h.phase.down_of hidle (Bool.not_eq_true _ ▸ hstopped)
      rw [hlisten] at hfd
      exact absurd hfd (by decide)
    obtain ⟨_, _, hstarted⟩ := h.phase.up_of hrunning
    rw [h.use_open hfd]
    refine ⟨.joining hfd hstarted, ?_, h.client, h.attached⟩
    have hheld := h.holds
    rw [held, hidle] at hheld
    exact hheld
  · have hrunning : s.running := by
      by_contra hstopped
      exact hdown ⟨Bool.not_eq_true _ ▸ hstopped, not_le.mp hfd⟩
    exact absurd (h.phase.up_of hrunning).1 hfd

theorem Accounted.join
    (h : s.Accounted) (hjoining : s.owner = .joining)
    (hended : s.thread = .none ∨ s.thread = .done) :
    Accounted { s with thread := .none, owner := .closing } := by
  obtain ⟨hstopped, hfd⟩ := h.phase.stopping_of (Or.inl hjoining)
  have hclient : s.thread.client = ∅ := by
    rcases hended with hended | hended <;> rw [hended] <;> rfl
  have hdetached : s.thread.attached = false := by
    rcases hended with hended | hended <;> rw [hended] <;> rfl
  refine accounted_of_none rfl ?_ ?_ (h.attached.trans hdetached)
  · change Phase s.running s.listenFd .closing .none
    rw [hstopped]
    exact .closing hfd
  · have hheld := h.holds
    rw [held, hjoining, hclient, Finset.union_empty] at hheld
    exact hheld

theorem Accounted.close
    (h : s.Accounted) (hclosing : s.owner = .closing) :
    s.close.Accounted := by
  obtain ⟨hstopped, hfd⟩ := h.phase.stopping_of (Or.inr hclosing)
  have hthread := h.phase.closing_of hclosing
  have hone : s.held = {s.listenFd} := by
    rw [held_of_none hthread, if_pos hfd, hclosing]
    exact Finset.union_empty _
  have hnone := (hone ▸ h.holds).release
    (Finset.mem_singleton_self s.listenFd)
  rw [Finset.erase_singleton] at hnone
  simp only [ServerSockets.close, if_pos hfd]
  refine accounted_of_none hthread ?_ hnone rfl
  change Phase s.running (-1) .idle .none
  rw [hstopped]
  exact .down

theorem Accounted.ownerStep
    (h : s.Accounted) {a : SocketStep} (hstep : s.ownerStep a = some s') :
    s'.Accounted := by
  cases a with
  | start fd =>
      simp only [ServerSockets.ownerStep] at hstep
      split_ifs at hstep with hidle
      exact h.start hidle hstep
  | bind port ok =>
      simp only [ServerSockets.ownerStep] at hstep
      split at hstep
      next fd hbinding =>
        cases hstep
        exact h.bind hbinding port ok
      next =>
        cases hstep
  | listen ok =>
      simp only [ServerSockets.ownerStep] at hstep
      split at hstep
      next fd hlistening =>
        cases hstep
        exact h.listen hlistening ok
      next =>
        cases hstep
  | stop =>
      simp only [ServerSockets.ownerStep] at hstep
      split_ifs at hstep with hidle
      cases hstep
      exact h.stop hidle
  | join =>
      simp only [ServerSockets.ownerStep] at hstep
      split_ifs at hstep with hjoin
      cases hstep
      exact h.join hjoin.1 hjoin.2
  | close =>
      simp only [ServerSockets.ownerStep] at hstep
      split_ifs at hstep with hclosing
      cases hstep
      exact h.close hclosing
  | _ =>
      cases hstep

theorem Accounted.step
    (h : s.Accounted) {a : SocketStep} (hstep : s.step a = some s') :
    s'.Accounted := by
  by_cases hothers : OfOthers a
  · obtain ⟨table, room, rfl, hholds⟩ := step_others hothers hstep
    exact ⟨h.phase, hholds _ h.holds, h.client, h.attached⟩
  · rw [step_own (Bool.not_eq_true _ ▸ hothers)] at hstep
    split_ifs at hstep
    · exact h.threadStep hstep
    · exact h.ownerStep hstep

end Owner

/-- A server that is down has nothing open. -/
theorem Accounted.down
    {s : ServerSockets} (h : s.Accounted) (hidle : s.owner = .idle)
    (hstopped : s.running = false) :
    s.table.ours = ∅ ∧ s.listenFd = -1 ∧ s.thread = .none ∧
      s.feedAttached = false := by
  obtain ⟨hlisten, hthread⟩ := h.phase.down_of hidle hstopped
  refine ⟨?_, hlisten, hthread, h.detached hthread⟩
  rw [h.holds.ours, held_of_none hthread, hlisten, hidle]
  rfl

theorem card_opening (owner : OwnerPc) : owner.opening.card ≤ 1 := by
  cases owner with
  | binding fd =>
      exact (Finset.card_singleton fd).le
  | listening fd =>
      exact (Finset.card_singleton fd).le
  | _ =>
      exact Nat.zero_le 1

theorem card_client (thread : ThreadPc) : thread.client.card ≤ 1 := by
  cases thread with
  | accepted fd =>
      exact (Finset.card_singleton fd).le
  | serving fd =>
      exact (Finset.card_singleton fd).le
  | served fd =>
      exact (Finset.card_singleton fd).le
  | closing fd =>
      exact (Finset.card_singleton fd).le
  | _ =>
      exact Nat.zero_le 1

/-- Never more than the listening socket and one other are open. -/
theorem Accounted.card_held {s : ServerSockets} (h : s.Accounted) :
    s.held.card ≤ 2 := by
  by_cases hthread : s.thread = .none
  · rw [held_of_none hthread]
    have hlisten :
        (if 0 ≤ s.listenFd then {s.listenFd} else ∅ : Finset Fd).card ≤
          1 := by
      split_ifs
      · exact (Finset.card_singleton s.listenFd).le
      · exact Nat.zero_le 1
    have hopening := card_opening s.owner
    exact (Finset.card_union_le _ _).trans (Nat.add_le_add hlisten hopening)
  · rw [h.held_eq hthread]
    have hclient := card_client s.thread
    have hinsert := Finset.card_insert_le s.listenFd s.thread.client
    omega

/-- **The sockets are accounted for.**  Calls of the engine's side, steps of
the thread and whatever others open and close come in any order.  No call is
ever made on a descriptor that somebody else holds, at most two are open, the
user is shown a connection exactly while one is served, and when the server is
not running nothing is open and the thread is gone. -/
theorem sockets_accounted
    {as : List SocketStep} {s : ServerSockets}
    (hrun : exec step {} as = some s) :
    s.table.trespassed = ∅ ∧
      s.table.ours.card ≤ 2 ∧
      (s.feedAttached ↔
        ∃ client ∈ s.table.ours, client ≠ s.listenFd ∧
          (s.thread = .serving client ∨ s.thread = .served client)) ∧
      (s.running →
        s.listenFd ∈ s.table.ours ∧ s.thread ≠ .none ∧ s.thread ≠ .done) ∧
      (s.owner = .idle → s.running = false →
        s.table.ours = ∅ ∧ s.listenFd = -1 ∧ s.thread = .none ∧
          s.feedAttached = false) := by
  have h : s.Accounted :=
    exec_invariant_of_step step (fun s a s' h hstep => h.step hstep)
      accounted_boot hrun
  have hours : s.table.ours = s.held := h.holds.ours
  refine ⟨h.holds.clean, ?_, ?_, ?_, ?_⟩
  · rw [hours]
    exact h.card_held
  · rw [hours, h.attached]
    constructor
    · intro hattached
      cases hthread : s.thread with
      | serving client =>
          have hmem : client ∈ s.thread.client := by
            rw [hthread]
            exact Finset.mem_singleton_self client
          exact ⟨client, Finset.mem_union_right _ hmem,
            h.client client hmem, Or.inl rfl⟩
      | served client =>
          have hmem : client ∈ s.thread.client := by
            rw [hthread]
            exact Finset.mem_singleton_self client
          exact ⟨client, Finset.mem_union_right _ hmem,
            h.client client hmem, Or.inr rfl⟩
      | _ =>
          rw [hthread] at hattached
          cases hattached
    · rintro ⟨client, _, _, hthread | hthread⟩
      · rw [hthread]
        rfl
      · rw [hthread]
        rfl
  · intro hrunning
    obtain ⟨hfd, _, hstarted⟩ := h.phase.up_of hrunning
    refine ⟨?_, hstarted, h.phase.not_done hrunning⟩
    rw [hours, h.held_eq hstarted]
    exact Finset.mem_insert_self _ _
  · exact h.down

/-- A feedhandler is served and shown, and `stop` is called meanwhile. -/
def servedThenStopped : List SocketStep :=
  [.start (some 3), .bind 5020 true, .listen true, .head, .poll true,
    .foreign (.acquire 4), .accept (some 5), .attach, .serveHead,
    .serve (.lines 1), .stop]

theorem sockets_accounted_served :
    ∃ s, exec step {} servedThenStopped = some s ∧
      s.thread = .serving 5 ∧ s.owner = .joining ∧
      s.table.trespassed = ∅ ∧ s.table.ours.card ≤ 2 := by
  obtain ⟨s, hrun, hthread, hjoining⟩ :
      ∃ s, exec step {} servedThenStopped = some s ∧
        s.thread = .serving 5 ∧ s.owner = .joining :=
    ⟨_, rfl, rfl, rfl⟩
  obtain ⟨hclean, hcard, _⟩ := sockets_accounted hrun
  exact ⟨s, hrun, hthread, hjoining, hclean, hcard⟩

/-! ### Stopping -/

/-- How many steps the thread takes at most once it is told to stop. -/
def stepsLeft : ThreadPc → Nat
  | .none => 0
  | .done => 0
  | .ready => 1
  | .closing _ => 2
  | .served _ => 3
  | .serving _ => 4
  | .accepted _ => 5
  | .accepting => 6
  | .polling => 7

/-- The steps and the replies that the thread has left, besides those of a
block that it still reads. -/
def threadLeft (s : ServerSockets) : Nat :=
  stepsLeft s.thread + s.replies + if s.reading then 1 else 0

/-- How many turns a call of `stop` has left at most, the thread's included.
-/
def turnsLeft (s : ServerSockets) : Nat :=
  s.threadLeft +
    match s.owner with
    | .joining => 2
    | .closing => 1
    | _ => 0

/-- A turn of a call of `stop`, or of the thread it waits for. -/
def OwnTurn : SocketStep → Bool
  | .join => true
  | .close => true
  | a => OfThread a

/-- A call of the engine's side. -/
def IsCall : SocketStep → Bool
  | .start _ => true
  | .stop => true
  | _ => false

/-- The thread is in the `send` of a reply, and the client reads nothing. -/
def Blocked (s : ServerSockets) : Prop :=
  (∃ client, s.thread = .serving client) ∧ 0 < s.replies ∧ s.room = false

/-- The thread has been told to stop, and `start` is not under way. -/
def Stopping (s : ServerSockets) : Prop :=
  s.running = false ∧ s.owner.opening = ∅

section Stop

variable {s s' : ServerSockets}

/-- The thread goes on to where it has fewer steps left. -/
theorem threadLeft_moved
    {n : Nat} (hreplies : s'.replies = s.replies)
    (hreading : s'.reading = s.reading)
    (hless : stepsLeft s'.thread < stepsLeft s.thread) :
    s'.threadLeft + 1 ≤ s.threadLeft + n := by
  rw [threadLeft, threadLeft, hreplies, hreading]
  omega

/-- Once it is told to stop, every step of the thread brings its end nearer,
but for what it is asked in a block that it was reading. -/
theorem threadStep_stopped
    (hstopped : s.running = false) {a : SocketStep}
    (hstep : s.threadStep a = some s') :
    s'.threadLeft + 1 ≤ s.threadLeft + asked a := by
  cases a with
  | head =>
      simp only [ServerSockets.threadStep] at hstep
      by_cases hthread : s.thread = .ready
      · rw [if_pos hthread, if_neg (by simp [hstopped])] at hstep
        cases hstep
        exact threadLeft_moved rfl rfl (by simp [hthread, stepsLeft])
      · rw [if_neg hthread] at hstep
        cases hstep
  | poll ready =>
      simp only [ServerSockets.threadStep] at hstep
      by_cases hthread : s.thread = .polling
      · rw [if_pos hthread] at hstep
        cases hstep
        refine threadLeft_moved rfl rfl ?_
        cases ready <;> simp [hthread, stepsLeft]
      · rw [if_neg hthread] at hstep
        cases hstep
  | accept client =>
      simp only [ServerSockets.threadStep] at hstep
      by_cases hthread : s.thread = .accepting
      · rw [if_pos hthread] at hstep
        cases client with
        | none =>
            cases hstep
            exact threadLeft_moved rfl rfl (by simp [hthread, stepsLeft])
        | some fd =>
            simp only at hstep
            split_ifs at hstep
            cases hstep
            exact threadLeft_moved rfl rfl (by simp [hthread, stepsLeft])
      · rw [if_neg hthread] at hstep
        cases hstep
  | attach =>
      simp only [ServerSockets.threadStep] at hstep
      split at hstep
      next client hthread =>
        cases hstep
        exact threadLeft_moved rfl rfl (by simp [hthread, stepsLeft])
      next =>
        cases hstep
  | serveHead =>
      simp only [ServerSockets.threadStep] at hstep
      split at hstep
      next client hthread =>
        split_ifs at hstep
        cases hstep
        rw [serveHead, if_neg (by simp [hstopped])]
        exact threadLeft_moved rfl rfl (by simp [hthread, stepsLeft])
      next =>
        cases hstep
  | serve turn =>
      simp only [ServerSockets.threadStep] at hstep
      split at hstep
      next client hthread =>
        split_ifs at hstep with hreading
        cases hstep
        rw [threadLeft, threadLeft, hthread, if_pos hreading]
        cases turn with
        | quiet =>
            change stepsLeft s.thread + s.replies + 0 + 1 ≤ _
            rw [hthread]
            exact Nat.le_add_right _ _
        | lines polls =>
            change stepsLeft s.thread + polls + 0 + 1 ≤ _ + polls
            rw [hthread]
            omega
        | closed =>
            change 3 + s.replies + 0 + 1 ≤ 4 + s.replies + 1 + 0
            omega
      next =>
        cases hstep
  | reply =>
      simp only [ServerSockets.threadStep] at hstep
      split at hstep
      next client hthread =>
        split_ifs at hstep with hsends
        cases hstep
        rw [threadLeft, threadLeft]
        change stepsLeft s.thread + (s.replies - 1) +
          (if s.reading then 1 else 0) + 1 ≤ _
        have hleft := hsends.1
        omega
      next =>
        cases hstep
  | detach =>
      simp only [ServerSockets.threadStep] at hstep
      split at hstep
      next client hthread =>
        cases hstep
        exact threadLeft_moved rfl rfl (by simp [hthread, stepsLeft])
      next =>
        cases hstep
  | closeClient =>
      simp only [ServerSockets.threadStep] at hstep
      split at hstep
      next client hthread =>
        cases hstep
        exact threadLeft_moved rfl rfl (by simp [hthread, stepsLeft])
      next =>
        cases hstep
  | _ =>
      cases hstep

/-- A thread that has not ended and is not in a `send` can take a step. -/
theorem exists_threadStep
    (hstarted : s.thread ≠ .none) (hruns : s.thread ≠ .done)
    (hfree : ¬ s.Blocked) :
    ∃ a, OfThread a ∧ (s.step a).isSome := by
  cases hthread : s.thread with
  | none =>
      exact absurd hthread hstarted
  | ready =>
      exact ⟨.head, rfl, by simp [step, OfThread, threadStep, hthread]⟩
  | polling =>
      exact ⟨.poll true, rfl, by simp [step, OfThread, threadStep, hthread]⟩
  | accepting =>
      exact ⟨.accept none, rfl, by simp [step, OfThread, threadStep, hthread]⟩
  | accepted client =>
      exact ⟨.attach, rfl, by simp [step, OfThread, threadStep, hthread]⟩
  | serving client =>
      by_cases hnone : s.replies = 0
      · by_cases hreading : s.reading
        · exact ⟨.serve .quiet, rfl, by
            simp [step, OfThread, threadStep, hthread, hreading]⟩
        · exact ⟨.serveHead, rfl, by
            simp [step, OfThread, threadStep, hthread, hnone, hreading]⟩
      · have hsome : 0 < s.replies := Nat.pos_of_ne_zero hnone
        have hroom : s.room := by
          by_contra hfull
          exact hfree
            ⟨⟨client, hthread⟩, hsome, Bool.not_eq_true _ ▸ hfull⟩
        exact ⟨.reply, rfl, by
          simp [step, OfThread, threadStep, hthread, hsome, hroom]⟩
  | served client =>
      exact ⟨.detach, rfl, by simp [step, OfThread, threadStep, hthread]⟩
  | closing client =>
      exact ⟨.closeClient, rfl, by simp [step, OfThread, threadStep, hthread]⟩
  | done =>
      exact absurd hthread hruns

theorem Stopping.step
    (h : s.Stopping) {a : SocketStep} (hcall : IsCall a = false)
    (hstep : s.step a = some s') :
    s'.Stopping ∧
      (if OwnTurn a then 1 else 0) + s'.turnsLeft ≤
        s.turnsLeft + asked a := by
  obtain ⟨hstopped, hopening⟩ := h
  by_cases hothers : OfOthers a
  · obtain ⟨table, room, rfl, _⟩ := step_others hothers hstep
    have hother : OwnTurn a = false := by
      cases a <;> first | rfl | cases hothers
    rw [hother]
    exact ⟨⟨hstopped, hopening⟩,
      (Nat.zero_add _).le.trans (Nat.le_add_right _ _)⟩
  · rw [step_own (Bool.not_eq_true _ ▸ hothers)] at hstep
    split_ifs at hstep with hthread
    · obtain ⟨howner, hrunning, _⟩ := threadStep_frame hstep
      have hleft := threadStep_stopped hstopped hstep
      refine ⟨⟨hrunning.trans hstopped, by rw [howner]; exact hopening⟩,
        ?_⟩
      rw [turnsLeft, turnsLeft, howner]
      split_ifs <;> omega
    · cases a with
      | start fd =>
          cases hcall
      | stop =>
          cases hcall
      | bind port ok =>
          simp only [ServerSockets.ownerStep] at hstep
          split at hstep
          next fd hbinding =>
            rw [hbinding] at hopening
            exact absurd hopening (Finset.singleton_ne_empty fd)
          next =>
            cases hstep
      | listen ok =>
          simp only [ServerSockets.ownerStep] at hstep
          split at hstep
          next fd hlistening =>
            rw [hlistening] at hopening
            exact absurd hopening (Finset.singleton_ne_empty fd)
          next =>
            cases hstep
      | join =>
          simp only [ServerSockets.ownerStep] at hstep
          split_ifs at hstep with hjoin
          cases hstep
          refine ⟨⟨hstopped, rfl⟩, ?_⟩
          rw [turnsLeft, turnsLeft, hjoin.1, threadLeft, threadLeft]
          change 1 + (0 + s.replies + (if s.reading then 1 else 0) + 1) ≤
            stepsLeft s.thread + s.replies +
              (if s.reading then 1 else 0) + 2
          omega
      | close =>
          simp only [ServerSockets.ownerStep] at hstep
          split_ifs at hstep with hclosing
          cases hstep
          have hclose : s.close.running = s.running ∧
              s.close.threadLeft = s.threadLeft := by
            by_cases hfd : 0 ≤ s.listenFd
            · simp only [ServerSockets.close, threadLeft, if_pos hfd,
                and_self]
            · simp only [ServerSockets.close, threadLeft, if_neg hfd,
                and_self]
          refine ⟨⟨hclose.1.trans hstopped, rfl⟩, ?_⟩
          rw [turnsLeft, turnsLeft, hclosing, hclose.2, s.close_owner]
          change 1 + (s.threadLeft + 0) ≤ s.threadLeft + 1
          omega
      | _ =>
          cases hstep

theorem Stopping.of_stop (hstep : s.step .stop = some s') :
    s'.Stopping := by
  rw [step_owner rfl rfl, ServerSockets.ownerStep] at hstep
  split_ifs at hstep with hidle
  cases hstep
  rw [ServerSockets.stop]
  by_cases hdown : s.running = false ∧ s.listenFd < 0
  · rw [if_pos hdown]
    exact ⟨hdown.1, by rw [hidle]; rfl⟩
  · rw [if_neg hdown]
    exact ⟨rfl, rfl⟩

theorem Stopping.run
    {later : List SocketStep} {t : ServerSockets} (h : s.Stopping)
    (hcalls : ∀ a ∈ later, IsCall a = false)
    (hexec : exec ServerSockets.step s later = some t) :
    t.Stopping ∧ later.countP OwnTurn + t.turnsLeft ≤
      s.turnsLeft + (later.map asked).sum :=
  countP_le ServerSockets.step OwnTurn turnsLeft asked
    (fun _ _ _ h hcall hstep => h.step hcall hstep) h hcalls hexec

theorem turnsLeft_le (s : ServerSockets) :
    s.turnsLeft ≤ 10 + s.replies := by
  have hthread : stepsLeft s.thread ≤ 7 := by
    cases s.thread <;> simp [stepsLeft]
  rw [turnsLeft, threadLeft]
  split_ifs <;> split <;> omega

/-- A call of `stop` that has not returned can go on, or the thread that it
waits for can, or the thread is in a `send`. -/
theorem Stopping.goesOn (h : s.Stopping) (hbusy : s.owner ≠ .idle) :
    (∃ a, OwnTurn a ∧ (s.step a).isSome) ∨
      s.owner = .joining ∧ s.Blocked := by
  have hopening := h.2
  cases howner : s.owner with
  | idle =>
      exact absurd howner hbusy
  | binding fd =>
      rw [howner] at hopening
      exact absurd hopening (Finset.singleton_ne_empty fd)
  | listening fd =>
      rw [howner] at hopening
      exact absurd hopening (Finset.singleton_ne_empty fd)
  | joining =>
      by_cases hended : s.thread = .none ∨ s.thread = .done
      · refine Or.inl ⟨.join, rfl, ?_⟩
        rw [step_owner rfl rfl, ServerSockets.ownerStep,
          if_pos ⟨howner, hended⟩]
        rfl
      · obtain ⟨hstarted, hruns⟩ := not_or.mp hended
        by_cases hblocked : s.Blocked
        · exact Or.inr ⟨rfl, hblocked⟩
        · obtain ⟨a, hthread, hstep⟩ :=
            exists_threadStep hstarted hruns hblocked
          refine Or.inl ⟨a, ?_, hstep⟩
          cases a with
          | join =>
              rfl
          | close =>
              rfl
          | _ =>
              exact hthread
  | closing =>
      refine Or.inl ⟨.close, rfl, ?_⟩
      rw [step_owner rfl rfl, ServerSockets.ownerStep, if_pos howner]
      rfl

/-- **`stop` hangs on a client only.**  After a call of `stop`, until the next
call and whatever else happens, the thread and `stop` itself take ten more
turns together at most, wherever the thread was, and one for each reply that
is left of the block in hand or asked for in one that is still read.  Either
one of them can take a turn, or `stop` waits for the thread while it sends a
reply to a client that reads nothing, or `stop` has returned, the thread is
gone and nothing is open. -/
theorem stop_joins
    {as later : List SocketStep} {t : ServerSockets}
    (hrun : exec ServerSockets.step {} as = some s)
    (hcalls : ∀ a ∈ later, IsCall a = false)
    (hexec : exec ServerSockets.step s (.stop :: later) = some t) :
    later.countP OwnTurn ≤ 10 + s.replies + (later.map asked).sum ∧
      ((∃ a t', OwnTurn a ∧ t.step a = some t') ∨
        (t.owner = .joining ∧ t.Blocked) ∨
        (t.owner = .idle ∧ t.table.ours = ∅ ∧ t.thread = .none ∧
          t.feedAttached = false)) := by
  obtain ⟨s', hstop, hlater⟩ := (exec_cons_eq_some _).mp hexec
  have hs : s.Accounted :=
    exec_invariant_of_step ServerSockets.step
      (fun s a s' h hstep => h.step hstep) accounted_boot hrun
  have ht : t.Accounted :=
    exec_invariant_of_step ServerSockets.step
      (fun s a s' h hstep => h.step hstep) hs hexec
  obtain ⟨hnow, hturns⟩ := (Stopping.of_stop hstop).run hcalls hlater
  have hleft := s'.turnsLeft_le
  have hreplies : s'.replies ≤ s.replies := replies_step hstop
  refine ⟨by omega, ?_⟩
  by_cases hidle : t.owner = .idle
  · obtain ⟨hours, _, hthread, hdetached⟩ := ht.down hidle hnow.1
    exact Or.inr (Or.inr ⟨hidle, hours, hthread, hdetached⟩)
  · rcases hnow.goesOn hidle with ⟨a, hturn, hstep⟩ | hblocked
    · obtain ⟨t', hstep⟩ := Option.isSome_iff_exists.mp hstep
      exact Or.inl ⟨a, t', hturn, hstep⟩
    · exact Or.inr (Or.inl hblocked)

/-- `stop` is called while the thread reads; the block asks for two replies,
and the client stops reading after the first one. -/
theorem stop_joins_replying :
    ∃ s t, exec ServerSockets.step {} [.start (some 3), .bind 5020 true,
        .listen true, .head, .poll true, .accept (some 5), .attach,
        .serveHead] = some s ∧
      exec ServerSockets.step s [.stop, .serve (.lines 2), .reply,
        .clientReads false] = some t ∧
      t.Blocked ∧
      [SocketStep.serve (.lines 2), .reply, .clientReads false].countP
          OwnTurn ≤ 10 + s.replies +
        ([SocketStep.serve (.lines 2), .reply, .clientReads false].map
          asked).sum ∧
      ((∃ a t', OwnTurn a ∧ t.step a = some t') ∨
        (t.owner = .joining ∧ t.Blocked) ∨
        (t.owner = .idle ∧ t.table.ours = ∅ ∧ t.thread = .none ∧
          t.feedAttached = false)) := by
  obtain ⟨s, t, hrun, hexec, hblocked⟩ :
      ∃ s t, exec ServerSockets.step {} [.start (some 3), .bind 5020 true,
          .listen true, .head, .poll true, .accept (some 5), .attach,
          .serveHead] = some s ∧
        exec ServerSockets.step s [.stop, .serve (.lines 2), .reply,
          .clientReads false] = some t ∧ t.Blocked :=
    ⟨_, _, rfl, rfl, ⟨5, rfl⟩, Nat.zero_lt_one, rfl⟩
  exact ⟨s, t, hrun, hexec, hblocked,
    stop_joins hrun (by decide) hexec⟩

end Stop

end ServerSockets

end ExecutionLayer
