import ExecutionLayer.PollInvariant

/-!
# Every reply is read for its own poll

Each step of the poll channel keeps its invariant (`inv_step`), so every run
does (`inv_run`).  From this: the lists that `query_requested` returns contain
no symbol twice and follow the order of the adds, and a pair that is returned
was drained for that very poll, or is the empty pair of a poll that failed
(`replies_never_cross`).

A poll that fails may have been drained all the same (`drained_in_vain`): its
lists are then returned to nobody.
-/

namespace ExecutionLayer

open FeedServer FeedPublisher JsonLib StepSystem

namespace PollChannel

/-! ### The steps -/

/-- A change to a connection that keeps its polls, loses at most bytes and
adds only lines that are read back. -/
theorem Inv.modify
    {C : Codecs} {L : PollChannel} (h : Inv C L) {k : Nat}
    {f : Wire → Wire}
    (hpolls : ∀ w, L.conns[k]? = some w → (f w).polls = w.polls)
    (hdown : ∀ w, (f w).down <+: w.down)
    (hread : ∀ w, ∀ line ∈ (f w).up,
      line ∈ w.up ∨ ReadsBack C.parse C.dumps line.msg) :
    Inv C { L with conns := L.conns.modify k f } where
  asked := h.asked
  numbered := h.numbered.modify_same hpolls le_rfl
  phase := h.phase.modify fun w _ hw => ⟨hpolls w hw, hdown w⟩
  readable := h.readable.modify fun w _ => hread w

theorem inv_connect
    {C : Codecs} {L L' : PollChannel} (h : Inv C L)
    (hstep : L.connect = some L') :
    Inv C L' := by
  simp only [connect, Option.bind_eq_bind, Option.bind_eq_some_iff,
    Option.guard_eq_some', Option.pure_def, Option.some.injEq] at hstep
  obtain ⟨_, ⟨hclient, hwaiting⟩, rfl⟩ := hstep
  refine ⟨h.asked, ?_, ?_, ?_⟩
  · have hsame : (L.conns ++ [({} : Wire)]).flatMap Wire.polls =
        L.conns.flatMap Wire.polls := by
      rw [List.flatMap_append]
      exact List.append_nil _
    constructor
    · rw [hsame]
      exact h.numbered.once
    · rw [hsame]
      exact h.numbered.old
  · exact .quiet L.conns.length ({} : Wire) rfl hwaiting (by simp) rfl rfl rfl
      h.phase.replies_sublist
  · intro w hw line hline
    rcases List.mem_append.mp hw with hw | hw
    · exact h.readable w hw line hline
    · rw [List.mem_singleton.mp hw] at hline
      exact absurd hline List.not_mem_nil

theorem inv_publish
    {C : Codecs} {L L' : PollChannel} (h : Inv C L) {p : Publication}
    (hp : ReadsBack C.parse C.dumps p.msg)
    (hstep : L.publish p = some L') :
    Inv C L' := by
  simp only [publish, Option.bind_eq_bind, Option.bind_eq_some_iff,
    Option.guard_eq_some', Option.pure_def, Option.some.injEq] at hstep
  obtain ⟨k, _, _, _, rfl⟩ := hstep
  refine h.modify ?_ (fun _ => List.prefix_rfl) ?_
  · intro w _
    simp [Wire.polls, Wire.write, UpLine.pollNo]
  · intro w line hline
    rcases List.mem_append.mp hline with hold | hnew
    · exact Or.inl hold
    · rw [List.mem_singleton.mp hnew]
      exact Or.inr hp

/-- After `_drop` nothing is in the buffer, and nothing that comes in on the
old connection gets there. -/
theorem inv_dropped
    {C : Codecs} {L : PollChannel} (h : Inv C L) (k : Nat)
    {returned : List Returned} (hreplies : replies returned =
      replies L.returned) {polls : Nat} (hle : L.polls ≤ polls) :
    Inv C { L.dropped k with
      waiting := none, returned := returned, polls := polls } where
  asked := h.asked
  numbered := h.numbered.modify_same (fun _ _ => rfl) hle
  phase := .detached rfl rfl (hreplies ▸ h.phase.replies_sublist)
  readable := h.readable.modify fun _ _ _ hline => Or.inl hline

theorem inv_drop
    {C : Codecs} {L L' : PollChannel} (h : Inv C L)
    (hstep : L.drop = some L') :
    Inv C L' := by
  simp only [drop, Option.bind_eq_bind, Option.bind_eq_some_iff,
    Option.guard_eq_some', Option.pure_def, Option.some.injEq] at hstep
  obtain ⟨k, _, _, hwaiting, rfl⟩ := hstep
  have hdropped := inv_dropped h k rfl le_rfl
  rw [← hwaiting] at hdropped
  exact hdropped

theorem inv_sendPoll
    {C : Codecs} {L L' : PollChannel} (h : Inv C L)
    (hpoll : ReadsBack C.parse C.dumps pollMsg)
    (hstep : L.sendPoll = some L') :
    Inv C L' := by
  simp only [sendPoll, Option.bind_eq_bind, Option.bind_eq_some_iff,
    Option.guard_eq_some', Option.pure_def, Option.some.injEq] at hstep
  obtain ⟨k, hclient, _, hwaiting, rfl⟩ := hstep
  have hread : Readable C (L.write k (.poll L.polls)).conns := by
    refine h.readable.modify fun w _ line hline => ?_
    rcases List.mem_append.mp hline with hold | hnew
    · exact Or.inl hold
    · rw [List.mem_singleton.mp hnew]
      exact Or.inr hpoll
  obtain ⟨w, hconn, hpolls, hdown, hrbuf⟩ :=
    h.phase.exists_quiet hclient hwaiting
  have hafter : (w.write (.poll L.polls)).polls = [L.polls] := by
    have hempty : w.up.filterMap UpLine.pollNo = [] := hpolls
    simp [Wire.polls, Wire.write, UpLine.pollNo, hempty]
  refine ⟨h.asked, ?_, ?_, hread⟩
  · refine h.numbered.modify hconn [L.polls] ?_
      (List.nodup_singleton _) (by simp) (by simp) (Nat.le_succ _)
    rw [hafter, hpolls, List.append_nil]
    exact List.perm_append_comm
  · refine .asking k (w.write (.poll L.polls)) L.polls hclient rfl ?_
      hafter hdown hrbuf h.phase.replies_sublist
    simp [write, hconn]

theorem inv_unsent
    {C : Codecs} {L L' : PollChannel} (h : Inv C L)
    (hstep : L.unsent = some L') :
    Inv C L' := by
  simp only [unsent, Option.bind_eq_bind, Option.bind_eq_some_iff,
    Option.guard_eq_some', Option.pure_def, Option.some.injEq] at hstep
  obtain ⟨_, hwaiting, rfl⟩ := hstep
  have hreplies : replies (L.returned ++ [.failed L.polls]) =
      replies L.returned := by
    simp [replies, Returned.fromReply]
  cases hclient : L.client with
  | none =>
      refine ⟨h.asked, ⟨h.numbered.once, fun n hn => ?_⟩, ?_, h.readable⟩
      · exact (h.numbered.old n hn).trans_le (Nat.le_succ _)
      · exact .detached hclient hwaiting
          (hreplies ▸ h.phase.replies_sublist)
  | some k =>
      have hdropped := inv_dropped h k hreplies (Nat.le_succ L.polls)
      rw [← hwaiting] at hdropped
      exact hdropped

theorem inv_restart
    {C : Codecs} {L : PollChannel} (h : Inv C L) :
    Inv C L.restart := by
  unfold restart
  cases hclient : L.client with
  | none =>
      exact ⟨h.asked, h.numbered,
        .detached hclient rfl h.phase.replies_sublist, h.readable⟩
  | some k =>
      exact inv_dropped h k rfl le_rfl

theorem inv_recvFailed
    {C : Codecs} {L L' : PollChannel} (h : Inv C L)
    (hstep : L.recvFailed = some L') :
    Inv C L' := by
  simp only [recvFailed, Option.bind_eq_bind, Option.bind_eq_some_iff,
    Option.guard_eq_some', Option.pure_def, Option.some.injEq] at hstep
  obtain ⟨n, _, k, _, _, _, rfl⟩ := hstep
  refine inv_dropped h k ?_ le_rfl
  simp [replies, Returned.fromReply]

theorem inv_recv
    {C : Codecs} {L L' : PollChannel} (h : Inv C L) {m : Nat}
    (hstep : L.recv m = some L') :
    Inv C L' := by
  simp only [recv, Option.bind_eq_bind, Option.bind_eq_some_iff,
    Option.guard_eq_some', Option.pure_def, Option.some.injEq] at hstep
  obtain ⟨n, hwaiting, k, hclient, w, hconn, _, ⟨_, _, hdown⟩, rfl⟩ :=
    hstep
  have hbytes : ∀ k' w', L.client = some k' → L.conns[k']? = some w' →
      L.rbuf ++ w'.down ≠ [] := by
    intro k' w' hclient' hconn'
    obtain rfl := Option.some.inj (hclient.symm.trans hclient')
    obtain rfl := Option.some.inj (hconn.symm.trans hconn')
    simp [hdown]
  obtain ⟨k', w', d, before, after, hclient', hconn', hd, hpolls,
    hdrained, hreplies, hprefix⟩ := h.phase.exists_answered hwaiting hbytes
  obtain rfl := Option.some.inj (hclient.symm.trans hclient')
  obtain rfl := Option.some.inj (hconn.symm.trans hconn')
  refine ⟨h.asked, h.numbered.modify_same (fun _ _ => rfl) le_rfl, ?_,
    h.readable.modify fun _ _ _ hline => Or.inl hline⟩
  refine .answered k { w with down := w.down.drop m } d before after
    hclient (hwaiting.trans (congrArg some hd)) (by simp [hconn]) hpolls
    hdrained hreplies ?_
  rw [List.append_assoc, List.take_append_drop]
  exact hprefix

/-- The line that is taken out of the buffer is the reply to this poll, and
nothing is left behind. -/
theorem inv_finish
    {C : Codecs} {L L' : PollChannel} (h : Inv C L)
    (hreads : ∀ d ∈ L.drained,
      ReadsBack C.py.loads C.dump (requestedReply d.syms d.hist))
    (hstep : L.finish C = some L') :
    Inv C L' := by
  simp only [finish, Option.bind_eq_bind, Option.bind_eq_some_iff,
    Option.pure_def, Option.some.injEq] at hstep
  obtain ⟨n, hwaiting, ⟨line, rest⟩, hsplit, rfl⟩ := hstep
  have hnewline : 10 ∈ L.rbuf := by
    by_contra hno
    rw [splitLine_of_notMem hno] at hsplit
    exact absurd hsplit (by simp)
  obtain ⟨k, w, d, before, after, hclient, hconn, rfl, hpolls, hdrained,
    hreplies, hprefix⟩ := h.phase.exists_answered hwaiting
      fun _ _ _ _ hnil => absurd hnewline
        (by simp [(List.append_eq_nil_iff.mp hnil).1])
  have hread := hreads d (by simp [hdrained])
  have hrbuf : L.rbuf = C.dump (requestedReply d.syms d.hist) ++ [10] :=
    Framing.eq_frame_of_sep_mem 10
      ((List.prefix_append _ _).trans hprefix) hread.noNewline hnewline
  have hdown : w.down = [] := by
    rw [replyLine, ← hrbuf] at hprefix
    have hnil : L.rbuf ++ w.down <+: L.rbuf ++ [] := by
      rwa [List.append_nil]
    exact List.prefix_nil.mp ((List.prefix_append_right_inj _).mp hnil)
  rw [hrbuf, splitLine_line hread.noNewline] at hsplit
  obtain ⟨rfl, rfl⟩ := Prod.mk.inj (Option.some.inj hsplit)
  obtain ⟨v, hloads, hsame⟩ := hread.parsed
  have hdecode : decodeReply C.py
      (C.dump (requestedReply d.syms d.hist)) = .ok (d.syms, d.hist) := by
    rw [decodeReply, hloads]
    exact repliedLists_requestedReply C.py.str hsame
  refine ⟨h.asked, h.numbered, ?_, h.readable⟩
  simp only [hdecode]
  refine .quiet k w hclient rfl hconn hpolls hdown rfl ?_
  have hreturned : replies (L.returned ++ [.reply d]) =
      replies L.returned ++ [d] := by
    simp [replies, Returned.fromReply]
  rw [hreturned, hdrained]
  exact hreplies.append (by simp)

/-! ### The server -/

/-- The server handles a publication, or answers a poll. -/
theorem handleLine_cases
    {C : Codecs} {L L' : PollChannel} {between : List DeskStep}
    (hread : Readable C L.conns)
    (hstep : L.handleLine C between = some L') :
    ∃ k w, L.conns[k]? = some w ∧
      ((∃ p rest, w.up = .publication p :: rest ∧
          L' = { L.setStore (p.received.foldl applyCall L.engine.store) with
            conns := L.conns.modify k (Wire.answer []) }) ∨
        ∃ n rest, w.up = .poll n :: rest ∧
          L' = L.answerPoll C k (.poll n) between) := by
  simp only [handleLine, Option.bind_eq_bind,
    Option.bind_eq_some_iff] at hstep
  obtain ⟨k, _, w, hconn, line, hhead, hstep⟩ := hstep
  obtain ⟨rest, hup⟩ := List.head?_eq_some_iff.mp hhead
  have hline := hread w (List.mem_of_getElem? hconn) line (by simp [hup])
  refine ⟨k, w, hconn, ?_⟩
  cases line with
  | publication p =>
      rw [UpLine.msg] at hstep hline
      rw [handleLine_publication hline] at hstep
      simp only [Option.bind_eq_some_iff, Option.guard_eq_some',
        Option.pure_def, Option.some.injEq] at hstep
      obtain ⟨_, _, rfl⟩ := hstep
      exact Or.inl ⟨p, rest, hup, rfl⟩
  | poll n =>
      rw [UpLine.msg] at hstep hline
      rw [handleLine_poll hline] at hstep
      exact Or.inr ⟨n, rest, hup, (Option.some.inj hstep).symm⟩

/-- A publication changes nothing that the invariant is about. -/
theorem inv_handlePublication
    {C : Codecs} {L : PollChannel} (h : Inv C L) {k : Nat} {w : Wire}
    (hconn : L.conns[k]? = some w) {p : Publication} {rest : List UpLine}
    (hup : w.up = .publication p :: rest) (calls : List StoreCall) :
    Inv C { L.setStore (calls.foldl applyCall L.engine.store) with
      conns := L.conns.modify k (Wire.answer []) } := by
  have hasked : Asked L.drained
      (calls.foldl applyCall L.engine.store).requested L.added
      L.engine.symbols := by
    rw [applyCalls_requested]
    exact h.asked
  have hmodify : Inv C { L with
      conns := L.conns.modify k (Wire.answer []) } := by
    refine h.modify ?_ ?_ ?_
    · intro w' hconn'
      obtain rfl := Option.some.inj (hconn.symm.trans hconn')
      rw [Wire.polls, Wire.polls, Wire.answer, hup]
      rfl
    · intro w'
      simp [Wire.answer]
    · intro w' line hline
      exact Or.inl (List.mem_of_mem_tail hline)
  exact ⟨hasked, hmodify.numbered, hmodify.phase, hmodify.readable⟩

/-- The lists go out under the number of the poll at hand, on its own
connection. -/
theorem inv_answerPoll
    {C : Codecs} {L : PollChannel} (h : Inv C L) {k n : Nat} {w : Wire}
    (hconn : L.conns[k]? = some w) {rest : List UpLine}
    (hup : w.up = .poll n :: rest) {between : List DeskStep}
    (other : ∀ d ∈ between, d.NotServer) :
    Inv C (L.answerPoll C k (.poll n) between) := by
  let hist := ((L.setStore L.engine.store.takeRequested.2).runDesk
    between).engine.store.takeHistoryRequests.1
  have hdrained : (L.answerPoll C k (.poll n) between).drained =
      L.drained ++ [⟨n, L.engine.store.requested, hist⟩] := by
    rfl
  have hpolls : w.polls = n :: rest.filterMap UpLine.pollNo := by
    rw [Wire.polls, hup]
    rfl
  have hafter : ∀ bytes, (w.answer bytes).polls =
      rest.filterMap UpLine.pollNo := by
    intro bytes
    rw [Wire.polls, Wire.answer, hup]
    rfl
  refine ⟨?_, ?_, ?_, h.readable.modify fun w' _ line hline =>
    Or.inl (List.mem_of_mem_tail hline)⟩
  · -- what is drained first is handed out, whatever is added in between
    have htaken : ∀ hist, Asked
        (L.drained ++ [⟨n, L.engine.store.requested, hist⟩]) [] L.added
        L.engine.symbols := by
      intro hist
      refine ⟨?_, h.asked.once, h.asked.watched⟩
      have hhanded :
          handed (L.drained ++ [⟨n, L.engine.store.requested, hist⟩]) ++
            [] = handed L.drained ++ L.engine.store.requested := by
        simp [handed]
      exact hhanded ▸ h.asked.order
    exact Asked.runDesk
      (e := { L.engine with store := L.engine.store.takeRequested.2 })
      (htaken _) other
  · refine h.numbered.modify hconn [] ?_ List.nodup_nil
      (by simp) (by simp) le_rfl
    rw [hafter, hpolls, hdrained, List.map_append, List.append_assoc]
    rfl
  · by_cases hclient : L.client = some k
    · exact h.phase.answerPoll (d := ⟨n, L.engine.store.requested, hist⟩)
        hclient hconn hup
    · refine (h.phase.concat _).modify fun w' hother _ => ?_
      exact absurd hother hclient

/-- A publication that the step writes is read back by the terminal. -/
def PublishesReadable (C : Codecs) : PollStep → Prop
  | .publish p => ReadsBack C.parse C.dumps p.msg
  | _ => True

theorem inv_step
    {C : Codecs} {L L' : PollChannel} (h : Inv C L) {a : PollStep}
    (hpoll : ReadsBack C.parse C.dumps pollMsg)
    (ha : PublishesReadable C a)
    (hreads : ∀ d ∈ L.drained,
      ReadsBack C.py.loads C.dump (requestedReply d.syms d.hist))
    (hstep : L.step C a = some L') :
    Inv C L' := by
  cases a with
  | desk d other =>
      obtain rfl := Option.some.inj hstep
      exact ⟨h.asked.deskStep other, h.numbered, h.phase, h.readable⟩
  | connect =>
      exact inv_connect h hstep
  | publish p =>
      exact inv_publish h ha hstep
  | drop =>
      exact inv_drop h hstep
  | sendPoll =>
      exact inv_sendPoll h hpoll hstep
  | unsent =>
      exact inv_unsent h hstep
  | recv m =>
      exact inv_recv h hstep
  | finish =>
      exact inv_finish h hreads hstep
  | recvFailed =>
      exact inv_recvFailed h hstep
  | restart =>
      obtain rfl := Option.some.inj hstep
      exact inv_restart h
  | broken k m =>
      obtain rfl := Option.some.inj hstep
      exact h.modify (fun _ _ => rfl) (fun w => List.take_prefix m w.down)
        fun _ _ hline => Or.inl hline
  | accept =>
      simp only [step, accept, Option.bind_eq_bind,
        Option.bind_eq_some_iff, Option.guard_eq_some', Option.pure_def,
        Option.some.injEq] at hstep
      obtain ⟨_, _, k, _, rfl⟩ := hstep
      exact ⟨h.asked, h.numbered, h.phase, h.readable⟩
  | handleLine between other =>
      obtain ⟨k, w, hconn, ⟨p, rest, hup, rfl⟩ | ⟨n, rest, hup, rfl⟩⟩ :=
        handleLine_cases h.readable hstep
      · exact inv_handlePublication h hconn hup p.received
      · exact inv_answerPoll h hconn hup other
  | served =>
      simp only [step, served, Option.bind_eq_bind,
        Option.bind_eq_some_iff, Option.pure_def,
        Option.some.injEq] at hstep
      obtain ⟨k, _, rfl⟩ := hstep
      exact ⟨h.asked, h.numbered, h.phase, h.readable⟩

/-- What was drained stays on record. -/
theorem drained_subset_step
    {C : Codecs} {L L' : PollChannel} {a : PollStep}
    (hstep : L.step C a = some L') :
    L.drained ⊆ L'.drained := by
  cases a with
  | handleLine between other =>
      simp only [step, handleLine, Option.bind_eq_bind,
        Option.bind_eq_some_iff] at hstep
      obtain ⟨k, _, w, _, line, _, hstep⟩ := hstep
      split at hstep
      · exact absurd hstep (by simp)
      · simp only [Option.bind_eq_some_iff, Option.pure_def,
          Option.some.injEq] at hstep
        obtain ⟨_, _, rfl⟩ := hstep
        exact List.Subset.refl _
      · obtain rfl := Option.some.inj hstep
        exact List.subset_append_left _ _
  | desk d other =>
      obtain rfl := Option.some.inj hstep
      exact List.Subset.refl _
  | restart =>
      obtain rfl := Option.some.inj hstep
      unfold restart
      cases L.client with
      | none =>
          exact List.Subset.refl _
      | some k =>
          exact List.Subset.refl _
  | unsent =>
      simp only [step, unsent, Option.bind_eq_bind,
        Option.bind_eq_some_iff, Option.pure_def,
        Option.some.injEq] at hstep
      obtain ⟨_, _, rfl⟩ := hstep
      cases L.client with
      | none =>
          exact List.Subset.refl _
      | some k =>
          exact List.Subset.refl _
  | broken k m =>
      obtain rfl := Option.some.inj hstep
      exact List.Subset.refl _
  | _ =>
      simp only [step, connect, publish, drop, sendPoll, recv, finish,
        recvFailed, accept, served, Option.bind_eq_bind,
        Option.bind_eq_some_iff, Option.pure_def,
        Option.some.injEq] at hstep
      grind [dropped, write, setStore]

/-! ### Runs -/

theorem inv_run
    {C : Codecs} {symbols : List String} {capital : ℚ}
    {limits : RiskLimits} {configured : Bool} {steps : List PollStep}
    {L : PollChannel}
    (hpoll : ReadsBack C.parse C.dumps pollMsg)
    (hfeed : ∀ p, .publish p ∈ steps → ReadsBack C.parse C.dumps p.msg)
    (hreads : ∀ d ∈ L.drained,
      ReadsBack C.py.loads C.dump (requestedReply d.syms d.hist))
    (hrun : exec (step C) (start symbols capital limits configured)
      steps = some L) :
    Inv C L := by
  have hall : EverySteps (step C) (fun _ a => PublishesReadable C a)
      (start symbols capital limits configured) steps := by
    refine everySteps_of_forall (step C) (fun a ha _ => ?_) _
    cases a with
    | publish p =>
        exact hfeed p ha
    | _ =>
        trivial
  refine exec_invariant (step C)
    (I := fun L => (∀ d ∈ L.drained, ReadsBack C.py.loads C.dump
      (requestedReply d.syms d.hist)) → Inv C L)
    ?_ (fun _ => inv_start C symbols capital limits configured) hall hrun
    hreads
  intro L a L' ih ha hstep hreads
  have hbefore : ∀ d ∈ L.drained, ReadsBack C.py.loads C.dump
      (requestedReply d.syms d.hist) := fun d hd =>
    hreads d (drained_subset_step hstep hd)
  exact inv_step (ih hbefore) hpoll ha hbefore hstep

/-- The subscribe lists that `query_requested` has returned, one after the
other. -/
def subscribed (L : PollChannel) : List String :=
  L.returned.flatMap fun r => r.lists.1

/-- The returned pair is the one that was drained for its poll. -/
def OwnLists (drained : List PollLists) (r : Returned) : Prop :=
  ∃ d ∈ drained, d.poll = r.poll ∧ r.lists = (d.syms, d.hist)

instance (drained : List PollLists) (r : Returned) :
    Decidable (OwnLists drained r) := by
  unfold OwnLists
  infer_instance

/-- Failed polls return nothing. -/
theorem subscribed_eq (L : PollChannel) :
    L.subscribed = handed (replies L.returned) := by
  unfold subscribed handed replies
  induction L.returned with
  | nil =>
      rfl
  | cons r returned ih =>
      cases r with
      | reply d =>
          rw [List.flatMap_cons, ih]
          rfl
      | failed n =>
          rw [List.flatMap_cons, ih]
          rfl

/-- **A symbol is handed out at most once, and replies do not cross.**  The
subscribe lists together have no symbol twice and follow the adds.  A pair
that is returned was drained for that poll, which happens once, or it is the
empty pair of a poll that failed. -/
theorem replies_never_cross
    {C : Codecs} {symbols : List String} {capital : ℚ}
    {limits : RiskLimits} {configured : Bool} {steps : List PollStep}
    {L : PollChannel}
    (hpoll : ReadsBack C.parse C.dumps pollMsg)
    (hfeed : ∀ p, .publish p ∈ steps → ReadsBack C.parse C.dumps p.msg)
    (hreads : ∀ d ∈ L.drained,
      ReadsBack C.py.loads C.dump (requestedReply d.syms d.hist))
    (hrun : exec (step C) (start symbols capital limits configured)
      steps = some L) :
    L.subscribed.Nodup ∧ L.subscribed.Sublist L.added ∧
      (∀ r ∈ L.returned, OwnLists L.drained r ∨
        ∃ n, r = .failed n ∧ r.lists = ([], [])) ∧
      (L.drained.map PollLists.poll).Nodup := by
  have hinv := inv_run hpoll hfeed hreads hrun
  have hreplies := hinv.phase.replies_sublist
  have horder : L.subscribed.Sublist L.added := by
    rw [subscribed_eq]
    refine .trans ?_ hinv.asked.order
    exact (hreplies.flatMap PollLists.syms).trans
      (List.sublist_append_left _ _)
  refine ⟨horder.nodup hinv.asked.once, horder, ?_,
    (List.nodup_append.mp hinv.numbered.once).1⟩
  intro r hr
  cases r with
  | reply d =>
      have hd : d ∈ replies L.returned :=
        List.mem_filterMap.mpr ⟨.reply d, hr, rfl⟩
      exact Or.inl ⟨d, hreplies.subset hd, rfl, rfl⟩
  | failed n =>
      exact Or.inr ⟨n, rfl, rfl⟩

/-! ### Two runs -/

/-- The texts of the poll and of its reply. -/
def textCodecs : Codecs where
  parse := parseText
  dump := fun _ => replyText
  py := replyPy
  dumps := dumpText

def add (symbol : String) : DeskStep :=
  .engine (.command { type := .addSymbol, symbol := symbol }) trivial

/-- X and Y are added, and a poll for them is answered.  Candles of X are
asked for and Z is added between the two drains. -/
def polledOnce : List PollStep :=
  [.desk (add "X") trivial, .desk (add "Y") trivial,
    .desk (add "X") trivial, .connect, .publish tradesX, .accept,
    .handleLine [] (by simp), .sendPoll,
    .handleLine
      [.engine (.command { type := .setFocus, symbol := "X" }) trivial,
        .engine .requestFocusHistory trivial, add "Z"]
      (by simp [add, DeskStep.NotServer])]

/-- The reply comes in two pieces. -/
def polledInPieces : List PollStep :=
  polledOnce ++ [.recv 9, .recv 8192, .finish]

/-- A piece comes in, and then nothing before the timeout. -/
def polledInVain : List PollStep :=
  polledOnce ++ [.recv 9, .recvFailed]

theorem replies_never_cross_pieces :
    ∃ L, exec (step textCodecs) (start ["BTC-USD"] 100 {} true)
        polledInPieces = some L ∧
      L.returned = [.reply ⟨0, ["X", "Y"], ["X"]⟩] ∧
      L.subscribed.Nodup ∧ L.subscribed.Sublist L.added ∧
      (∀ r ∈ L.returned, OwnLists L.drained r ∨
        ∃ n, r = .failed n ∧ r.lists = ([], [])) ∧
      (L.drained.map PollLists.poll).Nodup := by
  obtain ⟨L, hrun, hdrained, hreturned⟩ :
      ∃ L ∈ exec (step textCodecs) (start ["BTC-USD"] 100 {} true)
          polledInPieces,
        L.drained = [⟨0, ["X", "Y"], ["X"]⟩] ∧
          L.returned = [.reply ⟨0, ["X", "Y"], ["X"]⟩] := by
    decide +kernel
  refine ⟨L, hrun, hreturned,
    replies_never_cross readsBack_poll ?_ ?_ hrun⟩
  · intro p hp
    obtain rfl : p = tradesX := by
      simpa [polledInPieces, polledOnce, add] using hp
    exact readsBack_trades
  · intro d hd
    rw [hdrained, List.mem_singleton] at hd
    rw [hd]
    exact readsBack_reply

/-- The lists that were drained for a poll that times out are not returned. -/
theorem drained_in_vain :
    ∃ L, exec (step textCodecs) (start ["BTC-USD"] 100 {} true)
        polledInVain = some L ∧
      L.drained = [⟨0, ["X", "Y"], ["X"]⟩] ∧
      L.returned = [.failed 0] ∧
      ¬ ∀ r ∈ L.returned, OwnLists L.drained r := by
  obtain ⟨L, hrun, hdrained, hreturned⟩ :
      ∃ L ∈ exec (step textCodecs) (start ["BTC-USD"] 100 {} true)
          polledInVain,
        L.drained = [⟨0, ["X", "Y"], ["X"]⟩] ∧
          L.returned = [.failed 0] := by
    decide +kernel
  refine ⟨L, hrun, hdrained, hreturned, ?_⟩
  rw [hdrained, hreturned]
  decide

end PollChannel

end ExecutionLayer
