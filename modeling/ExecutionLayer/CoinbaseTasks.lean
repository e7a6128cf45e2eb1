import ExecutionLayer.Library.StepSystem
import Mathlib.Data.List.Sort
import Mathlib.Data.String.Basic

/-!
# The tasks of the Coinbase handler

`CoinbaseFeedHandler._run` reads the exchange stream and reconnects on every
error; `BaseFeedHandler._control_loop` polls the terminal and subscribes to
what it asks for.  Both run on one event loop, which switches between them
only where a task awaits.  The state below says at which await each task
stands, and a step takes one task from one await to the next.

`_run` computes its product list before it awaits the connection, and keeps
`_ws` set while it sleeps after an error.  The control loop adds symbols to
`_subscribed` after an awaited send, or at once when there is no socket.
`Timely` excludes the additions that come after the product list of a
connection that does not carry them.
-/

namespace ExecutionLayer

open StepSystem

/-- Where `_run` awaits. -/
inductive RunTask where
  /-- `await self._publish_catalog(ssl_ctx)` -/
  | boot
  /-- entering `websockets.connect`, with `prods` computed -/
  | connecting (prods : List String)
  /-- `await ws.send(...)`, the message not yet on the wire -/
  | sending (w : Nat) (prods : List String)
  /-- the same await, the message on the wire -/
  | sent (w : Nat) (prods : List String)
  /-- `async for raw in ws` -/
  | receiving (w : Nat)
  /-- leaving `websockets.connect`, after an exception or not -/
  | closing (w : Nat) (failed : Bool)
  /-- `await asyncio.sleep(...)` after an exception -/
  | sleeping
deriving DecidableEq, Repr

/-- Where `_control_loop` awaits. -/
inductive ControlTask where
  | idle
  | sending (w : Nat) (new hist : List String)
  | sent (w : Nat) (new hist : List String)
  | backfilling
deriving DecidableEq, Repr

/-- The handler's shared state, and every subscribe message that went out,
with the socket that it went out on. -/
structure CoinbaseHandler where
  subscribed : List String := []
  ws : Option Nat := none
  nextWs : Nat := 0
  sentLog : List (Nat × List String) := []
  run : RunTask := .boot
  control : ControlTask := .idle
deriving DecidableEq, Repr

/-- A task going on from its await. -/
inductive TaskStep where
  | catalogFetched (ids : List String)
  | catalogFailed
  | connected
  | connectFailed
  | runWire
  | runSubscribed
  | received
  | streamEnded
  | runRaised
  | closed
  | woke
  | poll (requested hist : List String)
  | controlWire
  | controlSubscribed
  | controlRaised
  | backfilled
deriving DecidableEq, Repr

namespace CoinbaseHandler

/-- `sorted(self._subscribed)` -/
def sortedProducts (subscribed : List String) : List String :=
  subscribed.insertionSort (· ≤ ·)

/-- `self._subscribed.update(new)` -/
def update (subscribed new : List String) : List String :=
  subscribed ++ new.filter fun s => s ∉ subscribed

/-- The head of the loop of `_run`, after its `finally`. -/
def reconnect (h : CoinbaseHandler) : CoinbaseHandler :=
  { h with
    ws := none
    run := .connecting (sortedProducts h.subscribed) }

/-- The await that follows the subscribe part of the control loop. -/
def afterSubscribe (hist : List String) : ControlTask :=
  if hist = [] then .idle else .backfilling

/-- `[s for s in requested if s and s not in self._subscribed]` -/
def newSymbols (h : CoinbaseHandler) (requested : List String) :
    List String :=
  requested.filter fun s => s ≠ "" ∧ s ∉ h.subscribed

/-- The control loop from its poll to its next await. -/
def polled (h : CoinbaseHandler) (requested hist : List String) :
    CoinbaseHandler :=
  let new := h.newSymbols requested
  if new = [] then { h with control := afterSubscribe hist }
  else
    match h.ws with
    | none =>
        { h with
          subscribed := update h.subscribed new
          control := afterSubscribe hist }
    | some w => { h with control := .sending w new hist }

/-- The boot symbols that are in the catalog. -/
def bootSymbols (ids subscribed : List String) : List String :=
  if ids = [] then subscribed else subscribed.filter fun s => s ∈ ids

/-- The step of `_run`, if it stands at the await of the label. -/
def stepRun (h : CoinbaseHandler) : TaskStep → Option CoinbaseHandler
  | .catalogFetched ids =>
      if h.run = .boot then
        some (reconnect
          { h with subscribed := bootSymbols ids h.subscribed })
      else none
  | .catalogFailed => if h.run = .boot then some h.reconnect else none
  | .connected =>
      match h.run with
      | .connecting prods =>
          some
            { h with
              ws := some h.nextWs
              nextWs := h.nextWs + 1
              run := .sending h.nextWs prods }
      | _ => none
  | .connectFailed =>
      match h.run with
      | .connecting _ => some { h with run := .sleeping }
      | _ => none
  | .runWire =>
      match h.run with
      | .sending w prods =>
          some
            { h with
              sentLog := h.sentLog ++ [(w, prods)]
              run := .sent w prods }
      | _ => none
  | .runSubscribed =>
      match h.run with
      | .sent w _ => some { h with run := .receiving w }
      | _ => none
  | .received =>
      match h.run with
      | .receiving _ => some h
      | _ => none
  | .streamEnded =>
      match h.run with
      | .receiving w => some { h with run := .closing w false }
      | _ => none
  | .runRaised =>
      match h.run with
      | .sending w _ => some { h with run := .closing w true }
      | .sent w _ => some { h with run := .closing w true }
      | .receiving w => some { h with run := .closing w true }
      | _ => none
  | .closed =>
      match h.run with
      | .closing _ true => some { h with run := .sleeping }
      | .closing _ false => some h.reconnect
      | _ => none
  | .woke => if h.run = .sleeping then some h.reconnect else none
  | _ => none

/-- The step of `_control_loop`, if it stands at the await of the label.  An
exception of the send or of `set_universe` is caught and drops the batch. -/
def stepControl (h : CoinbaseHandler) : TaskStep → Option CoinbaseHandler
  | .poll requested hist =>
      if h.control = .idle then some (h.polled requested hist) else none
  | .controlWire =>
      match h.control with
      | .sending w new hist =>
          some
            { h with
              sentLog := h.sentLog ++ [(w, new)]
              control := .sent w new hist }
      | _ => none
  | .controlSubscribed =>
      match h.control with
      | .sent _ new hist =>
          some
            { h with
              subscribed := update h.subscribed new
              control := afterSubscribe hist }
      | _ => none
  | .controlRaised =>
      match h.control with
      | .sending _ _ hist => some { h with control := afterSubscribe hist }
      | .sent _ _ hist => some { h with control := afterSubscribe hist }
      | _ => none
  | .backfilled =>
      if h.control = .backfilling then some { h with control := .idle }
      else none
  | _ => none

def step (h : CoinbaseHandler) (a : TaskStep) : Option CoinbaseHandler :=
  (h.stepRun a).orElse fun _ => h.stepControl a

/-- A handler before its tasks have started. -/
def booting (symbols : List String) : CoinbaseHandler where
  subscribed := symbols

/-! ### What a step can do -/

/-- What a step of `_run` leaves behind. -/
inductive RunMoved (h : CoinbaseHandler) :
    TaskStep → CoinbaseHandler → Prop
  | filtered (ids : List String) :
      RunMoved h (.catalogFetched ids)
        (reconnect { h with subscribed := bootSymbols ids h.subscribed })
  | reconnected (a : TaskStep) : RunMoved h a h.reconnect
  | opened (prods : List String) (hrun : h.run = .connecting prods) :
      RunMoved h .connected
        { h with
          ws := some h.nextWs
          nextWs := h.nextWs + 1
          run := .sending h.nextWs prods }
  | wired (w : Nat) (prods : List String) (hrun : h.run = .sending w prods) :
      RunMoved h .runWire
        { h with
          sentLog := h.sentLog ++ [(w, prods)]
          run := .sent w prods }
  | subscribed (w : Nat) (prods : List String)
      (hrun : h.run = .sent w prods) :
      RunMoved h .runSubscribed { h with run := .receiving w }
  | received : RunMoved h .received h
  | left (a : TaskStep) (w : Nat) (failed : Bool) :
      RunMoved h a { h with run := .closing w failed }
  | slept (a : TaskStep) : RunMoved h a { h with run := .sleeping }

theorem runMoved
    {h h' : CoinbaseHandler} {a : TaskStep}
    (hstep : h.stepRun a = some h') : RunMoved h a h' := by
  cases a with
  | catalogFetched ids =>
      simp only [stepRun] at hstep
      split_ifs at hstep
      cases hstep
      exact .filtered ids
  | catalogFailed =>
      simp only [stepRun] at hstep
      split_ifs at hstep
      cases hstep
      exact .reconnected _
  | connected =>
      simp only [stepRun] at hstep
      split at hstep
      · cases hstep
        exact .opened _ ‹_›
      · cases hstep
  | connectFailed =>
      simp only [stepRun] at hstep
      split at hstep
      · cases hstep
        exact .slept _
      · cases hstep
  | runWire =>
      simp only [stepRun] at hstep
      split at hstep
      · cases hstep
        exact .wired _ _ ‹_›
      · cases hstep
  | runSubscribed =>
      simp only [stepRun] at hstep
      split at hstep
      · cases hstep
        exact .subscribed _ _ ‹_›
      · cases hstep
  | received =>
      simp only [stepRun] at hstep
      split at hstep
      · cases hstep
        exact .received
      · cases hstep
  | streamEnded =>
      simp only [stepRun] at hstep
      split at hstep
      · cases hstep
        exact .left _ _ _
      · cases hstep
  | runRaised =>
      simp only [stepRun] at hstep
      split at hstep
      · cases hstep
        exact .left _ _ _
      · cases hstep
        exact .left _ _ _
      · cases hstep
        exact .left _ _ _
      · cases hstep
  | closed =>
      simp only [stepRun] at hstep
      split at hstep
      · cases hstep
        exact .slept _
      · cases hstep
        exact .reconnected _
      · cases hstep
  | woke =>
      simp only [stepRun] at hstep
      split_ifs at hstep
      cases hstep
      exact .reconnected _
  | _ =>
      cases hstep

/-- What a step of the control loop leaves behind. -/
inductive ControlMoved (h : CoinbaseHandler) :
    TaskStep → CoinbaseHandler → Prop
  | polled (requested hist : List String) (hidle : h.control = .idle) :
      ControlMoved h (.poll requested hist) (h.polled requested hist)
  | wired (w : Nat) (new hist : List String)
      (hctl : h.control = .sending w new hist) :
      ControlMoved h .controlWire
        { h with
          sentLog := h.sentLog ++ [(w, new)]
          control := .sent w new hist }
  | subscribed (w : Nat) (new hist : List String)
      (hctl : h.control = .sent w new hist) :
      ControlMoved h .controlSubscribed
        { h with
          subscribed := update h.subscribed new
          control := afterSubscribe hist }
  | raised (hist : List String) :
      ControlMoved h .controlRaised
        { h with control := afterSubscribe hist }
  | backfilled (hback : h.control = .backfilling) :
      ControlMoved h .backfilled { h with control := .idle }

theorem controlMoved
    {h h' : CoinbaseHandler} {a : TaskStep}
    (hstep : h.stepControl a = some h') : ControlMoved h a h' := by
  cases a with
  | poll requested hist =>
      simp only [stepControl] at hstep
      split_ifs at hstep with hidle
      cases hstep
      exact .polled requested hist hidle
  | controlWire =>
      simp only [stepControl] at hstep
      split at hstep
      · cases hstep
        exact .wired _ _ _ ‹_›
      · cases hstep
  | controlSubscribed =>
      simp only [stepControl] at hstep
      split at hstep
      · cases hstep
        exact .subscribed _ _ _ ‹_›
      · cases hstep
  | controlRaised =>
      simp only [stepControl] at hstep
      split at hstep
      · cases hstep
        exact .raised _
      · cases hstep
        exact .raised _
      · cases hstep
  | backfilled =>
      simp only [stepControl] at hstep
      split_ifs at hstep with hback
      cases hstep
      exact .backfilled hback
  | _ =>
      cases hstep

/-- A step is one task's. -/
theorem step_cases
    {h h' : CoinbaseHandler} {a : TaskStep}
    (hstep : h.step a = some h') :
    RunMoved h a h' ∨ ControlMoved h a h' := by
  unfold step at hstep
  cases hrun : h.stepRun a with
  | some r =>
      rw [hrun] at hstep
      obtain rfl := Option.some.inj hstep
      exact Or.inl (runMoved hrun)
  | none =>
      rw [hrun] at hstep
      exact Or.inr (controlMoved hstep)

/-! ### Which symbols a socket streams -/

/-- The symbol was named in a subscribe message sent on socket `w`. -/
def Named (h : CoinbaseHandler) (w : Nat) (s : String) : Prop :=
  ∃ ids, (w, ids) ∈ h.sentLog ∧ s ∈ ids

/-- The control loop is in the middle of a subscribe. -/
def Subscribing : ControlTask → Prop
  | .sending _ _ _ => True
  | .sent _ _ _ => True
  | _ => False

/-- In the receive loop, with no subscribe going on, every subscribed symbol
was named on the socket. -/
def Streaming (h : CoinbaseHandler) : Prop :=
  ∀ w, h.run = .receiving w → ¬ Subscribing h.control →
    ∀ s ∈ h.subscribed, h.Named w s

/-- What `_run` is going to subscribe to agrees with a batch that went out on
`sentOn`: it has no product list yet, or works on that very socket. -/
def Agrees (run : RunTask) (sentOn : Option Nat) : Prop :=
  match run with
  | .connecting _ => False
  | .sending w _ => sentOn = some w
  | .sent w _ => sentOn = some w
  | .receiving w => sentOn = some w
  | .boot => True
  | .closing _ _ => True
  | .sleeping => True

instance (run : RunTask) (sentOn : Option Nat) :
    Decidable (Agrees run sentOn) := by
  unfold Agrees
  cases run <;> infer_instance

/-- The step adds no symbol to `_subscribed` behind a product list that does
not have it. -/
def Timely (h : CoinbaseHandler) : TaskStep → Prop
  | .poll requested _ =>
      h.ws = none → h.newSymbols requested ≠ [] → Agrees h.run none
  | .controlSubscribed =>
      match h.control with
      | .sent w _ _ => Agrees h.run (some w)
      | _ => True
  | _ => True

instance (h : CoinbaseHandler) (a : TaskStep) : Decidable (h.Timely a) := by
  unfold Timely
  cases a with
  | poll requested hist =>
      infer_instance
  | controlSubscribed =>
      cases h.control <;> infer_instance
  | _ =>
      infer_instance

/-! ### The invariant -/

/-- What `_run` has subscribed to, or is about to subscribe to, covers the
subscribed set. -/
def Covers (h : CoinbaseHandler) : Prop :=
  match h.run with
  | .connecting prods => ∀ s ∈ h.subscribed, s ∈ prods
  | .sending w prods => ∀ s ∈ h.subscribed, s ∈ prods ∨ h.Named w s
  | .sent w _ => ∀ s ∈ h.subscribed, h.Named w s
  | .receiving w => ∀ s ∈ h.subscribed, h.Named w s
  | _ => True

/-- A batch whose send is under way and on the wire is in the log. -/
def BatchLogged (h : CoinbaseHandler) : Prop :=
  ∀ w new hist, h.control = .sent w new hist → (w, new) ∈ h.sentLog

structure Matched (h : CoinbaseHandler) : Prop where
  covers : h.Covers
  batch : h.BatchLogged

theorem mem_update {subscribed new : List String} {s : String} :
    s ∈ update subscribed new ↔ s ∈ subscribed ∨ s ∈ new := by
  by_cases h : s ∈ subscribed
  · simp [update, h]
  · simp [update, h]

theorem reconnect_covers (h : CoinbaseHandler) : h.reconnect.Covers := by
  intro s hs
  exact (List.mem_insertionSort _).mpr hs

/-- A longer log names more. -/
theorem Named.append
    {h h' : CoinbaseHandler} {w : Nat} {s : String}
    {entry : Nat × List String}
    (hlog : h'.sentLog = h.sentLog ++ [entry])
    (hn : h.Named w s) : h'.Named w s := by
  obtain ⟨ids, hmem, hs⟩ := hn
  refine ⟨ids, ?_, hs⟩
  rw [hlog]
  exact List.mem_append_left _ hmem

/-- Going on with the same subscribed set and the same or a longer log. -/
theorem Covers.append
    {h h' : CoinbaseHandler} {entry : Nat × List String}
    (hrun : h'.run = h.run) (hsub : h'.subscribed = h.subscribed)
    (hlog : h'.sentLog = h.sentLog ++ [entry])
    (hc : h.Covers) : h'.Covers := by
  unfold Covers at hc ⊢
  rw [hrun, hsub]
  cases hr : h.run with
  | connecting prods =>
      rw [hr] at hc
      exact hc
  | sending w prods =>
      rw [hr] at hc
      intro s hs
      rcases hc s hs with hp | hn
      · exact Or.inl hp
      · exact Or.inr (hn.append hlog)
  | sent w prods =>
      rw [hr] at hc
      intro s hs
      exact (hc s hs).append hlog
  | receiving w =>
      rw [hr] at hc
      intro s hs
      exact (hc s hs).append hlog
  | _ =>
      trivial

/-- Adding a batch that agrees with what `_run` works on. -/
theorem Covers.update
    {h h' : CoinbaseHandler} {new : List String} {sentOn : Option Nat}
    (hrun : h'.run = h.run) (hlog : h'.sentLog = h.sentLog)
    (hsub : h'.subscribed = CoinbaseHandler.update h.subscribed new)
    (hagrees : Agrees h.run sentOn)
    (hbatch : ∀ w, sentOn = some w → ∀ s ∈ new, h.Named w s)
    (hc : h.Covers) : h'.Covers := by
  have hnamed : ∀ w s, h.Named w s → h'.Named w s := by
    rintro w s ⟨ids, hmem, hs⟩
    exact ⟨ids, hlog ▸ hmem, hs⟩
  unfold Covers at hc ⊢
  rw [hrun, hsub]
  cases hr : h.run with
  | connecting prods =>
      rw [hr] at hagrees
      exact hagrees.elim
  | sending w prods =>
      rw [hr] at hc hagrees
      intro s hs
      rcases mem_update.mp hs with hs | hs
      · rcases hc s hs with hp | hn
        · exact Or.inl hp
        · exact Or.inr (hnamed w s hn)
      · exact Or.inr (hnamed w s (hbatch w hagrees s hs))
  | sent w prods =>
      rw [hr] at hc hagrees
      intro s hs
      rcases mem_update.mp hs with hs | hs
      · exact hnamed w s (hc s hs)
      · exact hnamed w s (hbatch w hagrees s hs)
  | receiving w =>
      rw [hr] at hc hagrees
      intro s hs
      rcases mem_update.mp hs with hs | hs
      · exact hnamed w s (hc s hs)
      · exact hnamed w s (hbatch w hagrees s hs)
  | _ =>
      trivial

/-! ### Every timely step keeps the invariant -/

/-- The steps of `_run` keep the invariant. -/
theorem Matched.runMoved
    {h h' : CoinbaseHandler} {a : TaskStep}
    (hm : h.Matched) (hmoved : RunMoved h a h') :
    h'.Matched := by
  obtain ⟨hc, hb⟩ := hm
  cases hmoved with
  | filtered ids =>
      exact ⟨reconnect_covers _, hb⟩
  | reconnected =>
      exact ⟨reconnect_covers _, hb⟩
  | opened prods hrun =>
      refine ⟨?_, hb⟩
      simp only [Covers, hrun] at hc ⊢
      intro s hs
      exact Or.inl (hc s hs)
  | wired w prods hrun =>
      simp only [Covers, hrun] at hc
      refine ⟨?_, ?_⟩
      · intro s hs
        rcases hc s hs with hp | hn
        · exact ⟨prods, by simp, hp⟩
        · exact hn.append rfl
      · intro w' new hist hctl
        exact List.mem_append_left _ (hb w' new hist hctl)
  | subscribed w prods hrun =>
      refine ⟨?_, hb⟩
      simp only [Covers, hrun] at hc ⊢
      exact hc
  | received =>
      exact ⟨hc, hb⟩
  | left =>
      exact ⟨trivial, hb⟩
  | slept =>
      exact ⟨trivial, hb⟩

theorem afterSubscribe_ne_sent
    (hist : List String) (w : Nat) (new hist' : List String) :
    afterSubscribe hist ≠ .sent w new hist' := by
  unfold afterSubscribe
  split_ifs <;> simp

/-- The timely steps of the control loop keep the invariant. -/
theorem Matched.controlMoved
    {h h' : CoinbaseHandler} {a : TaskStep}
    (hm : h.Matched) (ht : h.Timely a) (hmoved : ControlMoved h a h') :
    h'.Matched := by
  obtain ⟨hc, hb⟩ := hm
  cases hmoved with
  | polled requested hist hidle =>
      unfold polled
      by_cases hnew : h.newSymbols requested = []
      · simp only [hnew, if_true]
        refine ⟨hc, ?_⟩
        intro w new hist' hctl
        exact absurd hctl (afterSubscribe_ne_sent _ _ _ _)
      · simp only [hnew, if_false]
        cases hws : h.ws with
        | none =>
            refine ⟨?_, ?_⟩
            · exact Covers.update (h := h) rfl rfl rfl (ht hws hnew)
                (fun w hw => by cases hw) hc
            · intro w new hist' hctl
              exact absurd hctl (afterSubscribe_ne_sent _ _ _ _)
        | some w =>
            refine ⟨hc, ?_⟩
            intro w' new hist' hctl
            cases hctl
  | wired w new hist hctl =>
      refine ⟨Covers.append (h := h) rfl rfl rfl hc, ?_⟩
      intro w' new' hist' heq
      cases heq
      simp
  | subscribed w new hist hctl =>
      refine ⟨?_, ?_⟩
      · simp only [Timely, hctl] at ht
        refine Covers.update (h := h) rfl rfl rfl ht ?_ hc
        intro w' hw s hs
        obtain rfl := Option.some.inj hw
        exact ⟨new, hb w new hist hctl, hs⟩
      · intro w' new' hist' heq
        exact absurd heq (afterSubscribe_ne_sent _ _ _ _)
  | raised hist =>
      refine ⟨hc, ?_⟩
      intro w new hist' heq
      exact absurd heq (afterSubscribe_ne_sent _ _ _ _)
  | backfilled hback =>
      refine ⟨hc, ?_⟩
      intro w new hist heq
      cases heq

theorem Matched.step
    {h h' : CoinbaseHandler} {a : TaskStep}
    (hm : h.Matched) (ht : h.Timely a) (hstep : h.step a = some h') :
    h'.Matched := by
  rcases step_cases hstep with hrun | hcontrol
  · exact hm.runMoved hrun
  · exact hm.controlMoved ht hcontrol

/-- The receive loop is reached only after the whole list was named. -/
theorem Matched.streaming
    {h : CoinbaseHandler} (hm : h.Matched) : h.Streaming := by
  intro w hrun _ s hs
  have hc := hm.covers
  rw [Covers, hrun] at hc
  exact hc s hs

/-- **In every run whose additions to `_subscribed` are timely, the live
subscription matches the subscribed set.** -/
theorem streaming_of_timely
    (symbols : List String) (steps : List TaskStep)
    {h : CoinbaseHandler}
    (hrun : exec step (booting symbols) steps = some h)
    (htimely : EverySteps step Timely (booting symbols) steps) :
    h.Streaming := by
  have hm : h.Matched := by
    refine exec_invariant step (I := Matched) (C := Timely) ?_ ?_
      htimely hrun
    · intro h a h' hm ht hstep
      exact hm.step ht hstep
    · refine ⟨trivial, ?_⟩
      intro w new hist hctl
      cases hctl
  exact hm.streaming

/-- A symbol is requested and subscribed to on the live socket. -/
theorem streaming_of_timely_live_request :
    ∃ h, exec step (booting ["BTC-USD"])
        [.catalogFailed, .connected, .runWire, .runSubscribed,
          .poll ["SOL-USD"] [], .controlWire, .controlSubscribed] = some h ∧
      h.subscribed = ["BTC-USD", "SOL-USD"] ∧ h.Streaming := by
  have hrun : exec step (booting ["BTC-USD"])
      [.catalogFailed, .connected, .runWire, .runSubscribed,
        .poll ["SOL-USD"] [], .controlWire, .controlSubscribed] =
      some
        { subscribed := ["BTC-USD", "SOL-USD"]
          ws := some 0
          nextWs := 1
          sentLog := [(0, ["BTC-USD"]), (0, ["SOL-USD"])]
          run := .receiving 0
          control := .idle } := by
    decide +kernel
  exact ⟨_, hrun, rfl,
    streaming_of_timely ["BTC-USD"] _ hrun (by decide +kernel)⟩

/-- A request that is accepted while the connection is awaited is in the
subscribed set, and in no message on the socket. -/
theorem not_streaming_after_request_while_connecting :
    ∃ h, exec step (booting [])
        [.catalogFailed, .poll ["SOL-USD"] [], .connected, .runWire,
          .runSubscribed] = some h ∧
      ¬ h.Streaming := by
  have hrun : exec step (booting [])
      [.catalogFailed, .poll ["SOL-USD"] [], .connected, .runWire,
        .runSubscribed] =
      some
        { subscribed := ["SOL-USD"]
          ws := some 0
          nextWs := 1
          sentLog := [(0, [])]
          run := .receiving 0
          control := .idle } := by
    decide +kernel
  refine ⟨_, hrun, ?_⟩
  intro hstream
  obtain ⟨ids, hmem, hs⟩ := hstream 0 rfl (fun h => h) "SOL-USD"
    (List.mem_singleton.mpr rfl)
  obtain ⟨_, rfl⟩ := Prod.mk.inj (List.mem_singleton.mp hmem)
  cases hs

end CoinbaseHandler

end ExecutionLayer
