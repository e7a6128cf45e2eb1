import ExecutionLayer.PollChannel
import ExecutionLayer.WatchLists

/-!
# The invariant of the poll channel

It has four parts.  What was handed out and what is still requested are
distinct symbols in the order in which the user added them (`Asked`).  No
poll is handled twice (`Numbered`).  Every line is one that the terminal
reads back (`Readable`).  And the client's connection and buffer are in one
of four phases (`Phase`): between polls there is nothing in flight and nothing
in the buffer, and while a poll waits, what is in the buffer and in flight is
part of the one reply to it.

Each part has a lemma for each way in which a step can touch it.
-/

namespace ExecutionLayer

open FeedServer FeedPublisher JsonLib StepSystem

/-- One element of a family of lists, and the others. -/
theorem exists_rest_flatMap
    {β γ : Type} (g : β → List γ) {l : List β} {k : Nat} {b : β}
    (h : l[k]? = some b) :
    ∃ rest, (l.flatMap g).Perm (g b ++ rest) ∧
      ∀ f : β → β, ((l.modify k f).flatMap g).Perm (g (f b) ++ rest) := by
  induction l generalizing k with
  | nil =>
      simp at h
  | cons a l ih =>
      cases k with
      | zero =>
          obtain rfl : a = b := by simpa using h
          exact ⟨l.flatMap g, by simp, fun f => by simp⟩
      | succ k =>
          obtain ⟨rest, hbefore, hafter⟩ := ih (by simpa using h)
          refine ⟨g a ++ rest, ?_, fun f => ?_⟩
          · rw [List.flatMap_cons]
            exact (hbefore.append_left (g a)).trans
              (List.perm_append_comm_assoc _ _ _)
          · rw [List.modify_succ_cons, List.flatMap_cons]
            exact ((hafter f).append_left (g a)).trans
              (List.perm_append_comm_assoc _ _ _)

namespace PollChannel

/-! ### The parts of the invariant -/

/-- The symbols that were handed out for the polls of a record. -/
def handed (drained : List PollLists) : List String :=
  drained.flatMap PollLists.syms

/-- The replies among the returned pairs. -/
def replies (returned : List Returned) : List PollLists :=
  returned.filterMap Returned.fromReply

/-- What is handed out and what is requested, in the order of the adds. -/
structure Asked (drained : List PollLists) (requested added symbols :
    List String) : Prop where
  order : (handed drained ++ requested).Sublist added
  once : added.Nodup
  watched : added ⊆ symbols

/-- No poll is handled twice. -/
structure Numbered (drained : List PollLists) (conns : List Wire)
    (polls : Nat) : Prop where
  once : (drained.map PollLists.poll ++ conns.flatMap Wire.polls).Nodup
  old : ∀ n ∈ drained.map PollLists.poll ++ conns.flatMap Wire.polls,
    n < polls

/-- The one line that answers a poll. -/
def replyLine (C : Codecs) (d : PollLists) : List UInt8 :=
  C.dump (requestedReply d.syms d.hist) ++ [10]

/-- The client is detached, between polls, waits for a poll that is not
handled yet, or waits for the reply, of which some is in the buffer and some
in flight. -/
inductive Phase (C : Codecs) (client waiting : Option Nat)
    (conns : List Wire) (rbuf : List UInt8) (drained : List PollLists)
    (returned : List Returned) : Prop where
  | detached
      (hclient : client = none) (hwaiting : waiting = none)
      (hreplies : (replies returned).Sublist drained)
  | quiet (k : Nat) (w : Wire)
      (hclient : client = some k) (hwaiting : waiting = none)
      (hconn : conns[k]? = some w) (hpolls : w.polls = [])
      (hdown : w.down = []) (hrbuf : rbuf = [])
      (hreplies : (replies returned).Sublist drained)
  | asking (k : Nat) (w : Wire) (n : Nat)
      (hclient : client = some k) (hwaiting : waiting = some n)
      (hconn : conns[k]? = some w) (hpolls : w.polls = [n])
      (hdown : w.down = []) (hrbuf : rbuf = [])
      (hreplies : (replies returned).Sublist drained)
  | answered (k : Nat) (w : Wire) (d : PollLists)
      (before after : List PollLists)
      (hclient : client = some k) (hwaiting : waiting = some d.poll)
      (hconn : conns[k]? = some w) (hpolls : w.polls = [])
      (hdrained : drained = before ++ d :: after)
      (hreplies : (replies returned).Sublist before)
      (hbytes : rbuf ++ w.down <+: replyLine C d)

/-- Every line that is under way is read back by the terminal. -/
def Readable (C : Codecs) (conns : List Wire) : Prop :=
  ∀ w ∈ conns, ∀ line ∈ w.up, ReadsBack C.parse C.dumps line.msg

structure Inv (C : Codecs) (L : PollChannel) : Prop where
  asked : Asked L.drained L.engine.store.requested L.added L.engine.symbols
  numbered : Numbered L.drained L.conns L.polls
  phase : Phase C L.client L.waiting L.conns L.rbuf L.drained L.returned
  readable : Readable C L.conns

theorem inv_start (C : Codecs) (symbols : List String) (capital : ℚ)
    (limits : RiskLimits) (configured : Bool) :
    Inv C (start symbols capital limits configured) where
  asked := ⟨List.nil_sublist _, List.nodup_nil, List.nil_subset _⟩
  numbered := ⟨List.nodup_nil, fun _ hn => absurd hn List.not_mem_nil⟩
  phase := .detached rfl rfl (List.nil_sublist _)
  readable := fun _ hw => absurd hw List.not_mem_nil

/-! ### Requests -/

/-- An add is noted at the end, once, or nothing is. -/
theorem noteAdded_cases (added : List String) (d : DeskStep) :
    noteAdded added d = added ∨
      ∃ c own, d = .engine (.command c) own ∧ c.type = .addSymbol ∧
        c.assetClass = .crypto ∧ c.symbol ≠ "" ∧ c.symbol ∉ added ∧
        noteAdded added d = added ++ [c.symbol] := by
  cases d with
  | engine a own =>
      cases a with
      | command c =>
          rw [noteAdded]
          split_ifs with hadd
          · obtain ⟨htype, hclass, hsymbol, hnew⟩ := hadd
            exact Or.inr
              ⟨c, own, rfl, htype, hclass, hsymbol, hnew, rfl⟩
          · exact Or.inl rfl
      | _ =>
          exact Or.inl rfl
  | _ =>
      exact Or.inl rfl

/-- A crypto symbol that the user adds is on the watch list. -/
theorem mem_symbols_process
    (e : TradingEngine) {c : Command} (htype : c.type = .addSymbol)
    (hclass : c.assetClass = .crypto) (hsymbol : c.symbol ≠ "") :
    c.symbol ∈ (e.process c).symbols := by
  rw [TradingEngine.process, if_pos htype,
    TradingEngine.processAddSymbol, if_neg hsymbol,
    if_neg (by simp [hclass])]
  split_ifs with hmem
  · exact hmem
  · simp

/-- What a step of the other threads asks for. -/
theorem requested_deskStep
    (e : TradingEngine) {d : DeskStep} (other : d.NotServer) :
    (e.deskStep d).store.requested = e.store.requested ∨
      ∃ c own, d = .engine (.command c) own ∧ e.Adds .crypto c ∧
        (e.deskStep d).store = e.store.addSymbol c.symbol := by
  cases d with
  | engine a own =>
      rcases e.step_store_cases own with
        hstore | ⟨c, rfl, hadds, hstore⟩ | hstore
      · exact Or.inl (congrArg MarketStore.requested hstore)
      · exact Or.inr ⟨c, own, rfl, hadds, hstore⟩
      · refine Or.inl ((congrArg MarketStore.requested hstore).trans ?_)
        exact e.store.requestHistory_requested e.focus
  | stocks u =>
      exact Or.inl rfl
  | _ =>
      exact other.elim

/-- A symbol is asked for when it is added, and in that order. -/
theorem Asked.deskStep
    {drained : List PollLists} {e : TradingEngine} {added : List String}
    (h : Asked drained e.store.requested added e.symbols)
    {d : DeskStep} (other : d.NotServer) :
    Asked drained (e.deskStep d).store.requested (noteAdded added d)
      (e.deskStep d).symbols := by
  have hgrow : e.symbols ⊆ (e.deskStep d).symbols :=
    e.subset_watchList_deskStep d .crypto
  refine ⟨?_, ?_, ?_⟩
  · have hkeeps : added.Sublist (noteAdded added d) := by
      rcases noteAdded_cases added d with
        hsame | ⟨c, own, _, _, _, _, _, hnote⟩
      · rw [hsame]
      · rw [hnote]
        exact List.sublist_append_left _ _
    rcases requested_deskStep e other with
      hstore | ⟨c, own, rfl, hadds, hstore⟩
    · rw [hstore]
      exact h.order.trans hkeeps
    · have hnew : c.symbol ∉ added := fun hmem =>
        hadds.symbol_new (h.watched hmem)
      have hasked : c.symbol ∉ e.store.requested := fun hmem =>
        hnew (h.order.subset (List.mem_append_right _ hmem))
      have hnote : noteAdded added (.engine (.command c) own) =
          added ++ [c.symbol] :=
        if_pos ⟨hadds.type_eq, hadds.class_eq, hadds.symbol_ne, hnew⟩
      rw [hstore, hnote, MarketStore.addSymbol, if_neg hadds.symbol_ne,
        if_neg hasked, ← List.append_assoc]
      exact h.order.append (List.Sublist.refl _)
  · rcases noteAdded_cases added d with
      hsame | ⟨c, own, _, _, _, _, hnew, hnote⟩
    · rw [hsame]
      exact h.once
    · rw [hnote, List.nodup_append_comm]
      exact List.nodup_cons.mpr ⟨hnew, h.once⟩
  · rcases noteAdded_cases added d with
      hsame | ⟨c, own, rfl, htype, hclass, hsymbol, _, hnote⟩
    · rw [hsame]
      exact List.Subset.trans h.watched hgrow
    · rw [hnote]
      refine List.append_subset.mpr
        ⟨List.Subset.trans h.watched hgrow, ?_⟩
      intro s hs
      rw [List.mem_singleton.mp hs]
      exact mem_symbols_process e htype hclass hsymbol

theorem Asked.runDesk
    {drained : List PollLists} {e : TradingEngine} {added : List String}
    (h : Asked drained e.store.requested added e.symbols)
    {ds : List DeskStep} (other : ∀ d ∈ ds, d.NotServer) :
    Asked drained
      (run TradingEngine.deskStep e ds).store.requested
      (ds.foldl noteAdded added)
      (run TradingEngine.deskStep e ds).symbols := by
  induction ds generalizing e added with
  | nil =>
      exact h
  | cons d ds ih =>
      rw [run_cons, List.foldl_cons]
      exact ih (h.deskStep (other d List.mem_cons_self))
        fun d' hd' => other d' (List.mem_cons_of_mem d hd')

/-- What the server writes, it does not ask for. -/
theorem applyCalls_requested (calls : List StoreCall)
    (store : MarketStore) :
    (calls.foldl applyCall store).requested = store.requested := by
  induction calls generalizing store with
  | nil =>
      rfl
  | cons c calls ih =>
      rw [List.foldl_cons, ih]
      cases c with
      | onQuote q =>
          exact store.onQuote_requested q
      | onTrade symbol price tsNs =>
          exact store.onTrade_requested symbol price tsNs
      | backfillHistory symbol points =>
          exact store.backfillHistory_requested symbol points
      | setProducts products =>
          rfl
      | setUniverse syms =>
          rfl
      | setNames names =>
          rfl

/-! ### Connections -/

/-- The polls under way, after a change to one connection. -/
theorem Numbered.modify
    {drained drained' : List PollLists} {conns : List Wire}
    {polls polls' k : Nat} {w : Wire} {f : Wire → Wire}
    (h : Numbered drained conns polls) (hw : conns[k]? = some w)
    (new : List Nat)
    (hperm : (drained'.map PollLists.poll ++ (f w).polls).Perm
      (new ++ (drained.map PollLists.poll ++ w.polls)))
    (hnew : new.Nodup) (hlow : ∀ n ∈ new, polls ≤ n)
    (hhigh : ∀ n ∈ new, n < polls') (hle : polls ≤ polls') :
    Numbered drained' (conns.modify k f) polls' := by
  obtain ⟨rest, hbefore, hafter⟩ := exists_rest_flatMap Wire.polls hw
  have hall : (drained'.map PollLists.poll ++
      (conns.modify k f).flatMap Wire.polls).Perm
      (new ++ (drained.map PollLists.poll ++
        conns.flatMap Wire.polls)) := by
    refine ((hafter f).append_left _).trans ?_
    refine .trans ?_ ((hbefore.symm.append_left _).append_left _)
    rw [← List.append_assoc, ← List.append_assoc (drained.map _),
      ← List.append_assoc new]
    exact hperm.append_right rest
  constructor
  · rw [hall.nodup_iff, List.nodup_append]
    refine ⟨hnew, h.once, ?_⟩
    rintro n hn _ hm rfl
    exact absurd (h.old n hm) (not_lt.mpr (hlow n hn))
  · intro n hn
    rcases List.mem_append.mp (hall.mem_iff.mp hn) with hn | hn
    · exact hhigh n hn
    · exact (h.old n hn).trans_le hle

theorem Numbered.modify_same
    {drained : List PollLists} {conns : List Wire} {polls polls' k : Nat}
    {f : Wire → Wire} (h : Numbered drained conns polls)
    (hf : ∀ w, conns[k]? = some w → (f w).polls = w.polls)
    (hle : polls ≤ polls') :
    Numbered drained (conns.modify k f) polls' := by
  cases hw : conns[k]? with
  | none =>
      rw [List.modify_eq_self (List.getElem?_eq_none_iff.mp hw)]
      exact ⟨h.once, fun n hn => (h.old n hn).trans_le hle⟩
  | some w =>
      refine h.modify hw [] ?_ List.nodup_nil
        (by simp) (by simp) hle
      rw [hf w hw, List.nil_append]

section Phases

variable {C : Codecs} {client waiting : Option Nat} {conns : List Wire}
variable {rbuf : List UInt8} {drained : List PollLists}
variable {returned : List Returned}

/-- A change to a connection that no phase looks at, or that leaves the polls
and at most loses bytes. -/
theorem Phase.modify
    (h : Phase C client waiting conns rbuf drained returned)
    {j : Nat} {f : Wire → Wire}
    (hf : ∀ w, client = some j → conns[j]? = some w →
      (f w).polls = w.polls ∧ (f w).down <+: w.down) :
    Phase C client waiting (conns.modify j f) rbuf drained returned := by
  have hconns : ∀ k w, client = some k → conns[k]? = some w →
      ∃ w', (conns.modify j f)[k]? = some w' ∧
        w'.polls = w.polls ∧ w'.down <+: w.down := by
    intro k w hclient hconn
    rw [List.getElem?_modify, hconn]
    by_cases hj : j = k
    · subst hj
      obtain ⟨hpolls, hdown⟩ := hf w hclient hconn
      exact ⟨f w, by simp, hpolls, hdown⟩
    · exact ⟨w, by simp [hj], rfl, List.prefix_rfl⟩
  cases h with
  | detached hclient hwaiting hreplies =>
      exact .detached hclient hwaiting hreplies
  | quiet k w hclient hwaiting hconn hpolls hdown hrbuf hreplies =>
      obtain ⟨w', hconn', hpolls', hdown'⟩ := hconns k w hclient hconn
      rw [hdown, List.prefix_nil] at hdown'
      exact .quiet k w' hclient hwaiting hconn' (hpolls'.trans hpolls)
        hdown' hrbuf hreplies
  | asking k w n hclient hwaiting hconn hpolls hdown hrbuf hreplies =>
      obtain ⟨w', hconn', hpolls', hdown'⟩ := hconns k w hclient hconn
      rw [hdown, List.prefix_nil] at hdown'
      exact .asking k w' n hclient hwaiting hconn'
        (hpolls'.trans hpolls) hdown' hrbuf hreplies
  | answered k w d before after hclient hwaiting hconn hpolls hdrained
      hreplies hbytes =>
      obtain ⟨w', hconn', hpolls', hdown'⟩ := hconns k w hclient hconn
      exact .answered k w' d before after hclient hwaiting hconn'
        (hpolls'.trans hpolls) hdrained hreplies
        (((List.prefix_append_right_inj rbuf).mpr hdown').trans hbytes)

/-- Between polls the connection is quiet. -/
theorem Phase.exists_quiet
    (h : Phase C client waiting conns rbuf drained returned) {k : Nat}
    (hk : client = some k) (hnone : waiting = none) :
    ∃ w, conns[k]? = some w ∧ w.polls = [] ∧ w.down = [] ∧
      rbuf = [] := by
  cases h with
  | detached hclient hwaiting hreplies =>
      exact absurd (hclient.symm.trans hk) (by simp)
  | quiet k' w hclient hwaiting hconn hpolls hdown hrbuf hreplies =>
      obtain rfl := Option.some.inj (hclient.symm.trans hk)
      exact ⟨w, hconn, hpolls, hdown, hrbuf⟩
  | asking k' w n hclient hwaiting hconn hpolls hdown hrbuf hreplies =>
      exact absurd (hwaiting.symm.trans hnone) (by simp)
  | answered k' w d before after hclient hwaiting hconn hpolls hdrained
      hreplies hbytes =>
      exact absurd (hwaiting.symm.trans hnone) (by simp)

/-- Bytes that have come in for a poll are part of its reply. -/
theorem Phase.exists_answered
    (h : Phase C client waiting conns rbuf drained returned) {n : Nat}
    (hn : waiting = some n)
    (hbytes : ∀ k w, client = some k → conns[k]? = some w →
      rbuf ++ w.down ≠ []) :
    ∃ k w d before after, client = some k ∧ conns[k]? = some w ∧
      n = d.poll ∧ w.polls = [] ∧ drained = before ++ d :: after ∧
      (replies returned).Sublist before ∧
      rbuf ++ w.down <+: replyLine C d := by
  cases h with
  | detached hclient hwaiting hreplies =>
      exact absurd (hwaiting.symm.trans hn) (by simp)
  | quiet k w hclient hwaiting hconn hpolls hdown hrbuf hreplies =>
      exact absurd (hwaiting.symm.trans hn) (by simp)
  | asking k w n' hclient hwaiting hconn hpolls hdown hrbuf hreplies =>
      exact absurd (by rw [hrbuf, hdown, List.nil_append])
        (hbytes k w hclient hconn)
  | answered k w d before after hclient hwaiting hconn hpolls hdrained
      hreplies hprefix =>
      obtain rfl := Option.some.inj (hwaiting.symm.trans hn)
      exact ⟨k, w, d, before, after, hclient, hconn, rfl, hpolls, hdrained,
        hreplies, hprefix⟩

/-- Every reply that was returned is one of the drained pairs. -/
theorem Phase.replies_sublist
    (h : Phase C client waiting conns rbuf drained returned) :
    (replies returned).Sublist drained := by
  cases h with
  | detached hclient hwaiting hreplies =>
      exact hreplies
  | quiet k w hclient hwaiting hconn hpolls hdown hrbuf hreplies =>
      exact hreplies
  | asking k w n hclient hwaiting hconn hpolls hdown hrbuf hreplies =>
      exact hreplies
  | answered k w d before after hclient hwaiting hconn hpolls hdrained
      hreplies hbytes =>
      rw [hdrained]
      exact hreplies.trans (List.sublist_append_left _ _)

/-- A poll that nobody waits for is drained. -/
theorem Phase.concat
    (h : Phase C client waiting conns rbuf drained returned)
    (d : PollLists) :
    Phase C client waiting conns rbuf (drained ++ [d]) returned := by
  have hmore : drained.Sublist (drained ++ [d]) :=
    List.sublist_append_left _ _
  cases h with
  | detached hclient hwaiting hreplies =>
      exact .detached hclient hwaiting (hreplies.trans hmore)
  | quiet k w hclient hwaiting hconn hpolls hdown hrbuf hreplies =>
      exact .quiet k w hclient hwaiting hconn hpolls hdown hrbuf
        (hreplies.trans hmore)
  | asking k w n hclient hwaiting hconn hpolls hdown hrbuf hreplies =>
      exact .asking k w n hclient hwaiting hconn hpolls hdown hrbuf
        (hreplies.trans hmore)
  | answered k w d' before after hclient hwaiting hconn hpolls hdrained
      hreplies hbytes =>
      refine .answered k w d' before (after ++ [d]) hclient hwaiting hconn
        hpolls ?_ hreplies hbytes
      rw [hdrained, List.append_assoc, List.cons_append]

/-- The poll on the client's connection is the one that it waits for. -/
theorem Phase.answerPoll
    (h : Phase C client waiting conns rbuf drained returned) {k : Nat}
    (hk : client = some k) {w : Wire} (hw : conns[k]? = some w)
    {d : PollLists} {rest : List UpLine}
    (hup : w.up = .poll d.poll :: rest) :
    Phase C client waiting
      (conns.modify k (Wire.answer (replyLine C d))) rbuf (drained ++ [d])
      returned := by
  have hahead : w.polls = d.poll :: rest.filterMap UpLine.pollNo := by
    rw [Wire.polls, hup]
    rfl
  cases h with
  | detached hclient hwaiting hreplies =>
      exact absurd (hclient.symm.trans hk) (by simp)
  | quiet k' w' hclient hwaiting hconn hpolls hdown hrbuf hreplies =>
      obtain rfl := Option.some.inj (hclient.symm.trans hk)
      obtain rfl := Option.some.inj (hconn.symm.trans hw)
      exact absurd (hpolls.symm.trans hahead) (by simp)
  | asking k' w' n hclient hwaiting hconn hpolls hdown hrbuf hreplies =>
      obtain rfl := Option.some.inj (hclient.symm.trans hk)
      obtain rfl := Option.some.inj (hconn.symm.trans hw)
      obtain ⟨rfl, hrest⟩ := List.cons.inj (hpolls.symm.trans hahead)
      refine .answered k' (w'.answer (replyLine C d)) d drained [] hclient
        hwaiting (by simp [hconn]) ?_ rfl hreplies ?_
      · rw [Wire.polls, Wire.answer, hup]
        exact hrest.symm
      · rw [hrbuf, List.nil_append, Wire.answer, hdown]
        split_ifs
        · exact List.prefix_rfl
        · exact List.nil_prefix
  | answered k' w' d' before after hclient hwaiting hconn hpolls hdrained
      hreplies hbytes =>
      obtain rfl := Option.some.inj (hclient.symm.trans hk)
      obtain rfl := Option.some.inj (hconn.symm.trans hw)
      exact absurd (hpolls.symm.trans hahead) (by simp)

end Phases

theorem Readable.modify
    {C : Codecs} {conns : List Wire} (h : Readable C conns) {k : Nat}
    {f : Wire → Wire}
    (hf : ∀ w, conns[k]? = some w → ∀ line ∈ (f w).up,
      line ∈ w.up ∨ ReadsBack C.parse C.dumps line.msg) :
    Readable C (conns.modify k f) := by
  intro w' hw' line hline
  obtain ⟨i, hi⟩ := List.mem_iff_getElem?.mp hw'
  rw [List.getElem?_modify] at hi
  obtain ⟨w, hw, rfl⟩ := Option.map_eq_some_iff.mp hi
  by_cases hk : k = i
  · subst hk
    rw [if_pos rfl] at hline
    rcases hf w hw line hline with hold | hnew
    · exact h w (List.mem_of_getElem? hw) line hold
    · exact hnew
  · rw [if_neg hk] at hline
    exact h w (List.mem_of_getElem? hw) line hline

end PollChannel

end ExecutionLayer
