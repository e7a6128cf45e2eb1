import ExecutionLayer.FeedLink

/-!
# The handoff of a request

The law of the way from the watch list to the exchange: a symbol stays held
until a step loses it (`held_of_not_lost`).

Each party is described once.  The server leaves the request list alone
except for a poll, which it answers with the whole list.  The feedhandler
reads that list out of the reply, and wants what it read until it drops it.
From these, every step of the link keeps what it does not lose
(`Held.step`), and a run follows by induction.
-/

namespace ExecutionLayer

open JsonLib JsonLib.Json StepSystem

/-! ### What the server hands out -/

namespace FeedServer

/-- What the action keeps, the loop over the rows keeps. -/
theorem forRows_keeps
    {σ β : Type} {P : σ → Prop} {act : σ → β → σ}
    (hact : ∀ st b, P st → P (act st b))
    (width : Nat) (decode : List Json → Except TypeError β)
    (rows : List Json) {st : σ} (h : P st) :
    P (forRows width decode act rows st).2 := by
  induction rows generalizing st with
  | nil =>
      exact h
  | cons row rows ih =>
      cases row with
      | array cells =>
          rw [forRows]
          by_cases hshort : cells.length < width
          · rw [if_pos hshort]
            exact ih h
          · rw [if_neg hshort]
            cases decode cells with
            | error e =>
                exact h
            | ok b =>
                exact ih (hact st b h)
      | _ =>
          exact ih h

/-- The line gets no reply, and the request list stays. -/
def Silent (store : MarketStore) (r : Handled) : Prop :=
  r.2.requested = store.requested ∧ ∀ reply, r.1 = .ok reply → reply = none

theorem silent_ok
    {store st : MarketStore} (h : st.requested = store.requested) :
    Silent store (.ok none, st) := by
  refine ⟨h, ?_⟩
  intro reply hreply
  exact (Except.ok.inj hreply).symm

theorem silent_error
    {store st : MarketStore} (h : st.requested = store.requested)
    (e : TypeError) :
    Silent store (.error e, st) := by
  refine ⟨h, ?_⟩
  intro reply hreply
  cases hreply

theorem silent_rows
    {β : Type} {act : MarketStore → β → MarketStore}
    (hact : ∀ st b, (act st b).requested = st.requested)
    (width : Nat) (decode : List Json → Except TypeError β)
    (msg : Members) (store : MarketStore) :
    Silent store (handleRows width decode act msg store) := by
  unfold handleRows
  cases arrayAt msg "rows" with
  | none =>
      exact silent_ok rfl
  | some rows =>
      have hkeeps := forRows_keeps
        (P := fun st => st.requested = store.requested)
        (fun st b h => (hact st b).trans h) width decode rows rfl
      dsimp only
      cases (forRows width decode act rows store).1 with
      | error e =>
          exact silent_error hkeeps e
      | ok u =>
          exact silent_ok hkeeps

theorem silent_history (msg : Members) (store : MarketStore) :
    Silent store (handleHistory msg store) := by
  unfold handleHistory
  cases valueString msg "sym" "" with
  | error e =>
      exact silent_error rfl e
  | ok sym =>
      cases arrayAt msg "rows" with
      | none =>
          exact silent_ok rfl
      | some rows =>
          dsimp only
          split_ifs
          · exact silent_ok rfl
          · split
            · exact silent_error rfl _
            · exact silent_ok (store.backfillHistory_requested _ _)

theorem silent_syms
    (set : MarketStore → List String → MarketStore)
    (hset : ∀ st l, (set st l).requested = st.requested)
    (msg : Members) (store : MarketStore) :
    Silent store (handleSyms set msg store) := by
  unfold handleSyms
  cases arrayAt msg "syms" with
  | none =>
      exact silent_ok rfl
  | some cells =>
      exact silent_ok (hset store _)

theorem silent_names (msg : Members) (store : MarketStore) :
    Silent store (handleNames msg store) := by
  unfold handleNames
  split
  · exact silent_ok rfl
  · exact silent_ok rfl

theorem silent_message
    {msg : Members} (h : isPoll (.object msg) = false)
    (store : MarketStore) :
    Silent store (handleMessage msg store) := by
  unfold handleMessage valueString
  cases hm : find msg "m" with
  | none =>
      exact silent_ok rfl
  | some v =>
      cases v with
      | string m =>
          have hpoll : ¬ m = "poll" := by simpa [isPoll, hm] using h
          simp only [getString]
          split_ifs
          · exact silent_rows MarketStore.onQuote_requested _ _ _ _
          · exact silent_rows
              (fun st row => st.onTrade_requested _ _ _) _ _ _ _
          · exact silent_history msg store
          · exact silent_syms MarketStore.setProducts
              (fun _ _ => rfl) msg store
          · exact silent_syms MarketStore.setUniverse
              (fun _ _ => rfl) msg store
          · exact silent_names msg store
          · exact silent_ok rfl
      | _ =>
          exact silent_error rfl _

/-- Only a poll drains the request list, and only a poll is answered. -/
theorem silent_of_not_poll
    {line : Json} (h : isPoll line = false) (store : MarketStore) :
    Silent store (handleParsed (some line) store) := by
  cases line with
  | object msg =>
      exact silent_message h store
  | _ =>
      exact silent_ok rfl

/-- A poll is answered with the whole list. -/
theorem handleParsed_poll
    {line : Json} (h : isPoll line = true) (store : MarketStore) :
    (handleParsed (some line) store).1 =
      .ok (some
        (requestedReply store.requested store.historyRequests)) := by
  cases line with
  | object msg =>
      cases hm : find msg "m" with
      | none =>
          simp [isPoll, hm] at h
      | some v =>
          cases v with
          | string m =>
              obtain rfl : m = "poll" := by simpa [isPoll, hm] using h
              simp [handleParsed, handleMessage, valueString, hm, getString,
                handlePoll, MarketStore.takeRequested,
                MarketStore.takeHistoryRequests]
          | _ =>
              simp [isPoll, hm] at h
  | _ =>
      simp [isPoll] at h

end FeedServer

/-! ### What the feedhandler takes over -/

/-- The reply to a poll names what was drained. -/
theorem repliedSyms_requestedReply
    (str : Json → String) (syms hist : List String) :
    repliedSyms str (FeedServer.requestedReply syms hist) = syms := by
  have hstrings : ∀ l : List String,
      FeedPublisher.strings str (.array (l.map .string)) = .ok l := by
    intro l
    simp [FeedPublisher.strings, Function.comp_def]
  have hreply : FeedPublisher.repliedLists str
      (some (FeedServer.requestedReply syms hist)) = .ok (syms, hist) := by
    simp [FeedPublisher.repliedLists, FeedServer.requestedReply,
      FeedPublisher.stringsAt, find, List.lookup_cons, hstrings]
    rfl
  simp [repliedSyms, hreply]

namespace CoinbaseHandler

/-- What was subscribed before a poll is so afterwards. -/
theorem mem_subscribed_polled
    {h : CoinbaseHandler} {s : String} (hmem : s ∈ h.subscribed)
    (requested hist : List String) :
    s ∈ (h.polled requested hist).subscribed := by
  unfold polled
  by_cases hnew : h.newSymbols requested = []
  · simp only [hnew, if_true]
    exact hmem
  · simp only [hnew, if_false]
    cases h.ws with
    | none =>
        exact mem_update.mpr (Or.inl hmem)
    | some w =>
        exact hmem

/-- What a poll asks for is wanted afterwards. -/
theorem wants_polled
    {h : CoinbaseHandler} {requested : List String} {s : String}
    (hs : s ≠ "") (hmem : s ∈ requested) (hist : List String) :
    (h.polled requested hist).Wants s := by
  by_cases hsub : s ∈ h.subscribed
  · exact Or.inr (mem_subscribed_polled hsub requested hist)
  · have hin : s ∈ h.newSymbols requested := by
      simp [newSymbols, hmem, hs, hsub]
    have hnew : ¬ h.newSymbols requested = [] := List.ne_nil_of_mem hin
    unfold polled
    simp only [hnew, if_false]
    cases h.ws with
    | none =>
        exact Or.inr (mem_update.mpr (Or.inr hin))
    | some w =>
        exact Or.inl hin

/-- `_run` leaves the control loop alone, and `_subscribed` too except for
the filter at boot. -/
theorem wants_runMoved
    {h h' : CoinbaseHandler} {a : TaskStep} {s : String}
    (hw : h.Wants s) (hnot : s ∉ h.dropped a)
    (hmoved : RunMoved h a h') :
    h'.Wants s := by
  cases hmoved with
  | filtered ids =>
      refine hw.imp id ?_
      intro hin
      show s ∈ bootSymbols ids h.subscribed
      by_contra hout
      exact hnot (List.mem_filter.mpr ⟨hin, by simpa using hout⟩)
  | _ =>
      exact hw

theorem wants_controlMoved
    {h h' : CoinbaseHandler} {a : TaskStep} {s : String}
    (hw : h.Wants s) (hnot : s ∉ h.dropped a)
    (hmoved : ControlMoved h a h') :
    h'.Wants s := by
  cases hmoved with
  | polled requested hist hidle =>
      rcases hw with hbatch | hsub
      · rw [hidle] at hbatch
        cases hbatch
      · exact Or.inr (mem_subscribed_polled hsub requested hist)
  | wired w new hist hctl =>
      rwa [Wants, hctl] at hw
  | subscribed w new hist hctl =>
      rw [Wants, hctl] at hw
      exact Or.inr (mem_update.mpr hw.symm)
  | raised hist =>
      exact Or.inr (hw.resolve_left hnot)
  | backfilled hback =>
      rwa [Wants, hback] at hw

theorem step_poll
    {h h' : CoinbaseHandler} {requested hist : List String}
    (hstep : h.step (.poll requested hist) = some h') :
    h' = h.polled requested hist := by
  have hcontrol : h.stepControl (.poll requested hist) = some h' := hstep
  simp only [stepControl] at hcontrol
  split_ifs at hcontrol
  exact (Option.some.inj hcontrol).symm

/-- What the handler does not drop it keeps. -/
theorem wants_step
    {h h' : CoinbaseHandler} {a : TaskStep} {s : String}
    (hw : h.Wants s) (hnot : s ∉ h.dropped a)
    (hstep : h.step a = some h') :
    h'.Wants s := by
  rcases step_cases hstep with hrun | hcontrol
  · exact wants_runMoved hw hnot hrun
  · exact wants_controlMoved hw hnot hcontrol

end CoinbaseHandler

/-! ### Every step hands a request on -/

/-- An entry with a property survives a change that keeps the property. -/
theorem exists_mem_modify
    {α : Type} {P : α → Prop} {l : List α} {k : Nat} {f : α → α}
    (h : ∃ a ∈ l, P a)
    (hk : ∀ a, l[k]? = some a → P a → P (f a)) :
    ∃ a ∈ l.modify k f, P a := by
  obtain ⟨a, hmem, ha⟩ := h
  obtain ⟨i, hi⟩ := List.mem_iff_getElem?.mp hmem
  by_cases hik : k = i
  · subst hik
    refine ⟨f a, List.mem_iff_getElem?.mpr ⟨k, ?_⟩, hk a hi ha⟩
    simp [hi]
  · refine ⟨a, List.mem_iff_getElem?.mpr ⟨i, ?_⟩, ha⟩
    rw [List.getElem?_modify_ne f l hik]
    exact hi

theorem mem_modify
    {α : Type} {a : α} {l : List α} {k : Nat} (h : l[k]? = some a)
    (f : α → α) : f a ∈ l.modify k f := by
  rw [List.mem_iff_getElem?]
  exact ⟨k, by simp [h]⟩

theorem Conn.Carries.answer
    {str : Json → String} {conn : Conn} {s : String}
    (h : conn.Carries str s) (reply : Option Json) :
    (conn.answer reply).Carries str s := by
  obtain ⟨hlive, old, hmem, hin⟩ := h
  refine ⟨hlive, old, ?_, hin⟩
  simp only [Conn.answer, hlive, if_true]
  exact List.mem_append_left _ hmem

namespace FeedLink

variable {str : Json → String} {L L' : FeedLink} {s : String}

theorem Held.engine
    {a : EngineStep} (hheld : L.Held str s)
    (hstep : L.stepEngine a = some L') :
    L'.Held str s := by
  have hown : ∀ store stocks, a ≠ .feeds store stocks := by
    rintro store stocks rfl
    cases hstep
  have heq : some { L with engine := L.engine.step a } = some L' := by
    cases a with
    | feeds store stocks =>
        exact absurd rfl (hown store stocks)
    | _ =>
        exact hstep
  obtain rfl := Option.some.inj heq
  exact hheld.imp (fun hreq => L.engine.step_requested hown hreq) id

theorem Held.connect
    (hheld : L.Held str s) (hstep : L.connect = some L') :
    L'.Held str s := by
  simp only [FeedLink.connect, Option.bind_eq_bind,
    Option.bind_eq_some_iff] at hstep
  obtain ⟨_, _, hstep⟩ := hstep
  obtain rfl := Option.some.inj hstep
  rcases hheld with hreq | ⟨conn, hmem, hcarries⟩ | hwants
  · exact Or.inl hreq
  · exact Or.inr (Or.inl ⟨conn, List.mem_append_left _ hmem, hcarries⟩)
  · exact Or.inr (Or.inr hwants)

/-- Writing to a connection leaves its replies alone. -/
theorem Held.write
    (hheld : L.Held str s) (k : Nat) (msg : Json) :
    (L.write k msg).Held str s := by
  rcases hheld with hreq | hfly | hwants
  · exact Or.inl hreq
  · exact Or.inr (Or.inl (exists_mem_modify hfly fun _ _ h => h))
  · exact Or.inr (Or.inr hwants)

/-- Closing a connection loses what it carries and nothing else. -/
theorem Held.close
    {k : Nat} (hheld : L.Held str s) (hnot : ¬ L.CarriedOn str k s) :
    (L.close k).Held str s := by
  rcases hheld with hreq | hfly | hwants
  · exact Or.inl hreq
  · refine Or.inr (Or.inl (exists_mem_modify hfly ?_))
    intro conn hk hcarries
    exact absurd ⟨conn, hk, hcarries⟩ hnot
  · exact Or.inr (Or.inr hwants)

theorem Held.publish
    {p : Publication} (hheld : L.Held str s)
    (hstep : L.publish p = some L') :
    L'.Held str s := by
  simp only [FeedLink.publish, Option.bind_eq_bind,
    Option.bind_eq_some_iff] at hstep
  obtain ⟨k, _, _, _, hstep⟩ := hstep
  obtain rfl := Option.some.inj hstep
  exact hheld.write k p.msg

theorem Held.drop
    (hheld : L.Held str s)
    (hnot : ¬ ∃ k ∈ L.client, L.CarriedOn str k s)
    (hstep : L.drop = some L') :
    L'.Held str s := by
  simp only [FeedLink.drop, Option.bind_eq_bind,
    Option.bind_eq_some_iff] at hstep
  obtain ⟨k, hk, _, _, hstep⟩ := hstep
  obtain rfl := Option.some.inj hstep
  exact hheld.close fun hcarried => hnot ⟨k, hk, hcarried⟩

theorem Held.sendPoll
    (hheld : L.Held str s) (hstep : L.sendPoll = some L') :
    L'.Held str s := by
  simp only [FeedLink.sendPoll, Option.bind_eq_bind,
    Option.bind_eq_some_iff] at hstep
  obtain ⟨k, _, _, _, hstep⟩ := hstep
  obtain rfl := Option.some.inj hstep
  exact hheld.write k FeedPublisher.pollMsg

/-- The head of the replies goes to the control loop, the others wait. -/
theorem Held.recvReply
    (hs : s ≠ "") (hheld : L.Held str s)
    (hstep : L.recvReply str = some L') :
    L'.Held str s := by
  simp only [FeedLink.recvReply, Option.bind_eq_bind,
    Option.bind_eq_some_iff] at hstep
  obtain ⟨k, _, conn, hconn, reply, hreply, ⟨syms, hist⟩, hlists,
    handler, hpoll, hstep⟩ := hstep
  obtain rfl := Option.some.inj hstep
  obtain rfl := CoinbaseHandler.step_poll hpoll
  have hsyms : repliedSyms str reply = syms := by
    unfold repliedSyms
    cases hr : FeedPublisher.repliedLists str (some reply) with
    | error e =>
        simp [hr, Except.toOption] at hlists
    | ok lists =>
        simp only [hr, Except.toOption, Option.some.injEq] at hlists
        simp [hlists]
  by_cases hmem : s ∈ syms
  · exact Or.inr (Or.inr (CoinbaseHandler.wants_polled hs hmem hist))
  rcases hheld with hreq | hfly | hwants
  · exact Or.inl hreq
  · refine Or.inr (Or.inl (exists_mem_modify hfly ?_))
    rintro conn' hconn' ⟨hlive, reply', hmem', hin⟩
    obtain rfl := Option.some.inj (hconn.symm.trans hconn')
    refine ⟨hlive, reply', ?_, hin⟩
    obtain ⟨rest, hdown⟩ := List.head?_eq_some_iff.mp hreply
    rw [hdown] at hmem' ⊢
    rcases List.mem_cons.mp hmem' with rfl | hrest
    · exact absurd (hsyms ▸ hin) hmem
    · exact hrest
  · exact Or.inr (Or.inr
      (CoinbaseHandler.wants_step hwants List.not_mem_nil hpoll))

theorem Held.recvFailed
    (hheld : L.Held str s)
    (hnot : ¬ ∃ k ∈ L.waiting, L.CarriedOn str k s)
    (hstep : L.recvFailed = some L') :
    L'.Held str s := by
  simp only [FeedLink.recvFailed, Option.bind_eq_bind,
    Option.bind_eq_some_iff] at hstep
  obtain ⟨k, hk, handler, hpoll, hstep⟩ := hstep
  obtain rfl := Option.some.inj hstep
  have hclosed := hheld.close fun hcarried => hnot ⟨k, hk, hcarried⟩
  rcases hclosed with hreq | hfly | hwants
  · exact Or.inl hreq
  · exact Or.inr (Or.inl hfly)
  · exact Or.inr (Or.inr
      (CoinbaseHandler.wants_step hwants List.not_mem_nil hpoll))

theorem Held.task
    {a : TaskStep} (hheld : L.Held str s)
    (hnot : ¬ Loses str s L (.task a))
    (hstep : L.stepTask a = some L') :
    L'.Held str s := by
  obtain ⟨handler, hhandler, rfl⟩ : ∃ handler,
      L.handler.step a = some handler ∧
        L' = { L with handler := handler } := by
    cases a with
    | poll requested hist =>
        cases hstep
    | _ =>
        simp only [FeedLink.stepTask, Option.bind_eq_bind,
          Option.bind_eq_some_iff] at hstep
        obtain ⟨_, _, handler, hhandler, hstep⟩ := hstep
        exact ⟨handler, hhandler, (Option.some.inj hstep).symm⟩
  rcases hheld with hreq | hfly | hwants
  · exact Or.inl hreq
  · exact Or.inr (Or.inl hfly)
  · exact Or.inr (Or.inr
      (CoinbaseHandler.wants_step hwants hnot hhandler))

theorem Held.accept
    (hheld : L.Held str s) (hstep : L.accept = some L') :
    L'.Held str s := by
  simp only [FeedLink.accept, Option.bind_eq_bind,
    Option.bind_eq_some_iff] at hstep
  obtain ⟨_, _, k, _, hstep⟩ := hstep
  obtain rfl := Option.some.inj hstep
  exact hheld

theorem Held.served
    (hheld : L.Held str s) (hstep : L.served = some L') :
    L'.Held str s := by
  simp only [FeedLink.served, Option.bind_eq_bind,
    Option.bind_eq_some_iff] at hstep
  obtain ⟨k, _, hstep⟩ := hstep
  obtain rfl := Option.some.inj hstep
  exact hheld

/-- What handling a line does: a poll drains the list into its reply, and
any other line leaves it. -/
theorem handleLine_cases (hstep : L.handleLine = some L') :
    ∃ k conn line reply,
      L.serving = some k ∧ L.conns[k]? = some conn ∧
        conn.up.head? = some line ∧ L'.handler = L.handler ∧
        L'.conns = L.conns.modify k (Conn.answer reply) ∧
        ((isPoll line = true ∧
            reply = some (FeedServer.requestedReply
              L.engine.store.requested L.engine.store.historyRequests)) ∨
          L'.engine.store.requested = L.engine.store.requested) := by
  simp only [FeedLink.handleLine, Option.bind_eq_bind,
    Option.bind_eq_some_iff] at hstep
  obtain ⟨k, hk, conn, hconn, line, hline, hstep⟩ := hstep
  cases hparsed : FeedServer.handleParsed (some line) L.engine.store with
  | mk result store =>
      rw [hparsed] at hstep
      cases result with
      | error e =>
          cases hstep
      | ok reply =>
          obtain rfl := Option.some.inj hstep
          refine ⟨k, conn, line, reply, hk, hconn, hline, rfl, rfl, ?_⟩
          cases hpoll : isPoll line with
          | false =>
              have hsilent :=
                FeedServer.silent_of_not_poll hpoll L.engine.store
              rw [hparsed] at hsilent
              exact Or.inr hsilent.1
          | true =>
              have hreply :=
                FeedServer.handleParsed_poll hpoll L.engine.store
              rw [hparsed] at hreply
              exact Or.inl ⟨rfl, Except.ok.inj hreply⟩

/-- The list that a poll drains is in the reply, unless the connection is
down. -/
theorem Held.handleLine
    (hheld : L.Held str s)
    (hnot : ¬ Loses str s L .handleLine)
    (hstep : L.handleLine = some L') :
    L'.Held str s := by
  obtain ⟨k, conn, line, reply, hk, hconn, hline, hhandler, hconns,
    hpoll⟩ := handleLine_cases hstep
  rw [Held, hhandler, hconns]
  rcases hheld with hreq | hfly | hwants
  · rcases hpoll with ⟨hpoll, rfl⟩ | hsame
    · have hlive : conn.live = true := by
        by_contra hdead
        exact hnot ⟨k, hk, conn, hconn, line, hline,
          by simpa using hdead, hpoll, hreq⟩
      refine Or.inr (Or.inl ⟨_, mem_modify hconn _, hlive, ?_⟩)
      refine ⟨FeedServer.requestedReply L.engine.store.requested
        L.engine.store.historyRequests, ?_, ?_⟩
      · simp [Conn.answer, hlive]
      · rw [repliedSyms_requestedReply]
        exact hreq
    · exact Or.inl (hsame ▸ hreq)
  · exact Or.inr (Or.inl
      (exists_mem_modify hfly fun _ _ h => h.answer reply))
  · exact Or.inr (Or.inr hwants)

/-- A step that does not lose a request keeps it held. -/
theorem Held.step
    {a : LinkStep} (hs : s ≠ "") (hheld : L.Held str s)
    (hnot : ¬ L.Loses str s a) (hstep : L.step str a = some L') :
    L'.Held str s := by
  cases a with
  | engine a =>
      exact hheld.engine hstep
  | connect =>
      exact hheld.connect hstep
  | publish p =>
      exact hheld.publish hstep
  | drop =>
      exact hheld.drop hnot hstep
  | sendPoll =>
      exact hheld.sendPoll hstep
  | recvReply =>
      exact hheld.recvReply hs hstep
  | recvFailed =>
      exact hheld.recvFailed hnot hstep
  | task a =>
      exact hheld.task hnot hstep
  | broken k =>
      obtain rfl := Option.some.inj hstep
      exact hheld.close hnot
  | accept =>
      exact hheld.accept hstep
  | handleLine =>
      exact hheld.handleLine hnot hstep
  | served =>
      exact hheld.served hstep

/-- **A symbol whose addition the engine has processed stays held**, until a
step loses it. -/
theorem held_of_not_lost
    {c : Command} {M : FeedLink} {steps : List LinkStep}
    (htype : c.type = .addSymbol) (hclass : c.assetClass = .crypto)
    (hsym : c.symbol ≠ "") (hnew : c.symbol ∉ L.engine.symbols)
    (hadd : L.step str (.engine (.command c)) = some L')
    (hrun : exec (FeedLink.step str) L' steps = some M)
    (hkept : EverySteps (FeedLink.step str)
      (fun L a => ¬ L.Loses str c.symbol a) L' steps) :
    M.Held str c.symbol := by
  have hadded : L'.Held str c.symbol := by
    obtain rfl := Option.some.inj hadd
    exact Or.inl (TradingEngine.requested_process_addSymbol htype hclass
      hsym hnew)
  refine exec_invariant (FeedLink.step str)
    (I := fun L => L.Held str c.symbol) ?_ hadded hkept hrun
  intro L a L' hheld hnot hstep
  exact hheld.step hsym hnot hstep

/-- `str` on strings. -/
def strOfString : Json → String
  | .string s => s
  | _ => ""

def addSol : Command where
  type := .addSymbol
  symbol := "SOL-USD"

/-- A request that goes all the way to `_subscribed`. -/
theorem held_of_not_lost_polled :
    ∃ L' M, FeedLink.step strOfString (start ["BTC-USD"] 1000 {} {} [])
          (.engine (.command addSol)) = some L' ∧
        exec (FeedLink.step strOfString) L'
          [.connect, .accept, .sendPoll, .handleLine, .recvReply] =
            some M ∧
        M.Held strOfString "SOL-USD" := by
  obtain ⟨M, hrun⟩ := Option.isSome_iff_exists.mp (show
    (exec (FeedLink.step strOfString)
      { start ["BTC-USD"] 1000 {} {} [] with
        engine :=
          (TradingEngine.start ["BTC-USD"] 1000 {} {}).process addSol }
      [.connect, .accept, .sendPoll, .handleLine, .recvReply]).isSome = true
    by decide +kernel)
  exact ⟨_, M, rfl, hrun, held_of_not_lost
    (L := start ["BTC-USD"] 1000 {} {} []) (c := addSol)
    rfl rfl (by decide) (by decide) rfl hrun (by decide +kernel)⟩

/-- A request that is drained for a poll that times out is held nowhere. -/
theorem not_held_after_timeout :
    ∃ M ∈ exec (FeedLink.step strOfString)
        (start ["BTC-USD"] 1000 {} {} [])
        [.engine (.command addSol), .connect, .accept, .sendPoll,
          .handleLine, .recvFailed],
      ¬ M.Held strOfString "SOL-USD" := by
  decide +kernel

end FeedLink

end ExecutionLayer
