import ExecutionLayer.WireFormat

/-!
# Resync

The catalog, the universe, the names and the last quote of every symbol are
state: the publisher caches them and writes all of them again whenever it
attaches.  The question is what a terminal knows that has restarted empty, or
has kept an old store, after the connection broke at any of the writes.

`FeedChannel` is the publisher, the lines in flight, and the terminal's store.
The lines of the standing connection are kept apart from those of earlier
ones, which arrive first but may be lost.  The invariant `InSync` says that
the lines of the standing connection, or the store alone when nothing older is
in flight, bring the terminal up to the caches.
-/

namespace ExecutionLayer

open FiniteMap JsonLib JsonLib.Json StepSystem

/-! ### The newest row -/

/-- The last row for a symbol. -/
def lastRow (rows : List FeedQuote) (symbol : String) :
    Option FeedQuote :=
  (rows.filter fun q => q.symbol = symbol).getLast?

theorem lastRow_append
    (rows rows' : List FeedQuote) (symbol : String) :
    lastRow (rows ++ rows') symbol =
      (lastRow rows' symbol).or (lastRow rows symbol) := by
  rw [lastRow, List.filter_append, List.getLast?_append]
  rfl

theorem lastRow_singleton (q : FeedQuote) (symbol : String) :
    lastRow [q] symbol = if q.symbol = symbol then some q else none := by
  unfold lastRow
  split_ifs with h
  · simp [h]
  · simp [h]

/-- A published row as the quote that arrives. -/
def FeedQuote.toQuote (q : FeedQuote) : Quote where
  symbol := q.symbol
  bid := q.bid
  ask := q.ask
  bsize := q.bsize
  asize := q.asize
  tsNs := asTimestampNs q.eventTimeNs

namespace FeedPublisher

theorem lookup_replaced_of_ne
    {β : Type} (d : List (String × β)) {key k : String} (value : β)
    (h : k ≠ key) :
    (d.map fun e => if e.1 = key then (key, value) else e).lookup k =
      d.lookup k := by
  induction d with
  | nil =>
      rfl
  | cons e d ih =>
      obtain ⟨k', v⟩ := e
      rw [List.map_cons]
      by_cases hk' : k' = key
      · subst hk'
        rw [if_pos rfl, lookup_cons_of_ne h, lookup_cons_of_ne h, ih]
      · rw [if_neg hk']
        by_cases hk : k = k'
        · subst hk
          rw [lookup_cons_self, lookup_cons_self]
        · rw [lookup_cons_of_ne hk, lookup_cons_of_ne hk, ih]

theorem lookup_replaced_self
    {β : Type} (d : List (String × β)) {key : String} (value : β)
    (hmem : key ∈ d.map Prod.fst) :
    (d.map fun e => if e.1 = key then (key, value) else e).lookup key =
      some value := by
  induction d with
  | nil =>
      simp at hmem
  | cons e d ih =>
      obtain ⟨k', v⟩ := e
      rw [List.map_cons]
      by_cases hk' : k' = key
      · rw [if_pos hk', lookup_cons_self]
      · have hmem' : key ∈ d.map Prod.fst := by
          simpa [Ne.symm hk'] using hmem
        rw [if_neg hk', lookup_cons_of_ne (Ne.symm hk'), ih hmem']

/-- What an assignment leaves under each key. -/
theorem lookup_setKey
    {β : Type} (d : List (String × β)) (key : String) (value : β)
    (k : String) :
    (setKey d key value).lookup k =
      if k = key then some value else d.lookup k := by
  unfold setKey
  split_ifs with hmem hk hk
  · rw [hk, lookup_replaced_self d value hmem]
  · exact lookup_replaced_of_ne d value hk
  · rw [hk, List.lookup_append, lookup_eq_none_of_notMem hmem,
      lookup_cons_self]
    rfl
  · rw [List.lookup_append, lookup_cons_of_ne hk]
    simp

/-- Every row of the cache stands under its own symbol, once. -/
structure Keyed (d : List (String × FeedQuote)) : Prop where
  nodup : (d.map Prod.fst).Nodup
  symbol : ∀ e ∈ d, e.2.symbol = e.1

theorem Keyed.nil : Keyed [] :=
  ⟨List.nodup_nil, by simp⟩

theorem map_fst_replaced
    {β : Type} (d : List (String × β)) (key : String) (value : β) :
    (d.map fun e => if e.1 = key then (key, value) else e).map Prod.fst =
      d.map Prod.fst := by
  rw [List.map_map]
  refine List.map_congr_left fun e _ => ?_
  rw [Function.comp_apply]
  split_ifs with h
  · exact h.symm
  · rfl

theorem Keyed.setKey
    {d : List (String × FeedQuote)} (h : Keyed d) (q : FeedQuote) :
    Keyed (setKey d q.symbol q) := by
  unfold FeedPublisher.setKey
  split_ifs with hmem
  · refine ⟨by rw [map_fst_replaced]; exact h.nodup, ?_⟩
    intro e he
    obtain ⟨e', he', rfl⟩ := List.mem_map.mp he
    split_ifs
    · rfl
    · exact h.symbol e' he'
  · refine ⟨?_, ?_⟩
    · rw [List.map_append, List.nodup_append]
      refine ⟨h.nodup, by simp, ?_⟩
      rintro k hk k' hk' rfl
      obtain rfl : k = q.symbol := by simpa using hk'
      exact hmem hk
    · intro e he
      rcases List.mem_append.mp he with he | he
      · exact h.symbol e he
      · rw [List.mem_singleton.mp he]

/-- The cache after a batch: the last row of the batch, else what was
cached. -/
theorem foldl_setKey
    {d : List (String × FeedQuote)} (h : Keyed d) (rows : List FeedQuote) :
    Keyed (rows.foldl (fun d q => FeedPublisher.setKey d q.symbol q) d) ∧
      ∀ symbol,
        (rows.foldl (fun d q => FeedPublisher.setKey d q.symbol q)
            d).lookup symbol =
          (lastRow rows symbol).or (d.lookup symbol) := by
  induction rows using List.reverseRecOn with
  | nil =>
      exact ⟨h, fun symbol => rfl⟩
  | append_singleton rows q ih =>
      rw [List.foldl_append]
      refine ⟨ih.1.setKey q, ?_⟩
      intro symbol
      rw [List.foldl_cons, List.foldl_nil, lookup_setKey, ih.2 symbol,
        lastRow_append, lastRow_singleton]
      by_cases hs : symbol = q.symbol
      · simp [hs]
      · simp [hs, Ne.symm hs]

/-- The cached row of a symbol is the last one for it among the cached
rows. -/
theorem Keyed.lastRow_values
    {d : List (String × FeedQuote)} (h : Keyed d) (symbol : String) :
    lastRow (d.map Prod.snd) symbol = d.lookup symbol := by
  induction d with
  | nil =>
      rfl
  | cons e d ih =>
      obtain ⟨k, q⟩ := e
      have hnodup := h.nodup
      rw [List.map_cons, List.nodup_cons] at hnodup
      have hd : Keyed d :=
        ⟨hnodup.2, fun e he => h.symbol e (List.mem_cons_of_mem _ he)⟩
      have hq : q.symbol = k := h.symbol (k, q) List.mem_cons_self
      have happ := lastRow_append [q] (d.map Prod.snd) symbol
      rw [List.singleton_append, ih hd, lastRow_singleton, hq] at happ
      rw [List.map_cons, happ]
      by_cases hk : symbol = k
      · subst hk
        rw [lookup_eq_none_of_notMem hnodup.1, lookup_cons_self,
          if_pos rfl]
        rfl
      · rw [lookup_cons_of_ne hk, if_neg (Ne.symm hk), Option.or_none]

/-! ### Caches -/

/-- The caches after a publish path has put its values in. -/
def caches (pub : FeedPublisher) : Publication → FeedPublisher
  | .trades _ => pub
  | .history _ _ => pub
  | .quotes rows => pub.cacheQuotes rows
  | .products ids => { pub with lastProducts := ids }
  | .universeSyms ids => { pub with lastUniverse := ids }
  | .names map => { pub with lastNames := map }

/-- A publish path caches, and sends unless its batch is empty. -/
theorem publish_eq (p : Publication) (s : Session) :
    p.publish s =
      if p.msgs = [] then (.ok (), s)
      else sendOnly p.msg { s with pub := s.pub.caches p } := by
  cases p with
  | trades rows =>
      cases rows with
      | nil =>
          rfl
      | cons t rows =>
          rfl
  | history symbol points =>
      cases points with
      | nil =>
          rfl
      | cons p points =>
          rfl
  | quotes rows =>
      cases rows with
      | nil =>
          rfl
      | cons q rows =>
          rfl
  | products ids =>
      rfl
  | universeSyms ids =>
      rfl
  | names map =>
      rfl

theorem caches_of_msgs_nil
    {p : Publication} (h : p.msgs = []) (pub : FeedPublisher) :
    pub.caches p = pub := by
  cases p with
  | trades rows =>
      rfl
  | history symbol points =>
      rfl
  | quotes rows =>
      cases rows with
      | nil =>
          rfl
      | cons q rows =>
          simp [Publication.msgs] at h
  | products ids =>
      simp [Publication.msgs] at h
  | universeSyms ids =>
      simp [Publication.msgs] at h
  | names map =>
      simp [Publication.msgs] at h

theorem Keyed.caches
    {pub : FeedPublisher} (h : Keyed pub.lastQuotes) (p : Publication) :
    Keyed (pub.caches p).lastQuotes := by
  cases p with
  | quotes rows =>
      exact (foldl_setKey h rows).1
  | _ =>
      exact h

end FeedPublisher

/-! ### What the terminal holds -/

/-- The terminal handles a line. -/
def consumeLine (store : MarketStore) (line : Json) : MarketStore :=
  (FeedServer.handleParsed (some line) store).2

theorem consumeLine_publication (p : Publication) (store : MarketStore) :
    consumeLine store p.msg =
      p.received.foldl FeedServer.applyCall store := by
  rw [consumeLine, FeedServer.handleParsed_publication p (.refl _)]

/-- The store holds what the publisher has cached.  An empty list is not
resent, and a row without a symbol is not taken. -/
structure Synced (store : MarketStore) (pub : FeedPublisher) : Prop where
  quotes : ∀ symbol q, symbol ≠ "" →
    pub.lastQuotes.lookup symbol = some q →
      store.lastQuote.lookup symbol = some q.toQuote
  products : pub.lastProducts ≠ [] → store.products = pub.lastProducts
  universeSyms : pub.lastUniverse ≠ [] →
    store.universeSyms = pub.lastUniverse
  names : pub.lastNames ≠ [] → store.names = dictOf pub.lastNames

/-- The catalog, the universe and the names. -/
def catalog (store : MarketStore) :
    List String × List String × Finmap fun _ : String => String :=
  (store.products, store.universeSyms, store.names)

theorem onTrade_board
    (store : MarketStore) (symbol : String) (price : ℚ) (tsNs : Int) :
    (store.onTrade symbol price tsNs).lastQuote = store.lastQuote ∧
      catalog (store.onTrade symbol price tsNs) = catalog store := by
  unfold MarketStore.onTrade
  split_ifs
  · exact ⟨rfl, rfl⟩
  · exact ⟨rfl, rfl⟩

theorem backfillHistory_board
    (store : MarketStore) (symbol : String) (points : List PricePoint) :
    (store.backfillHistory symbol points).lastQuote = store.lastQuote ∧
      catalog (store.backfillHistory symbol points) = catalog store := by
  unfold MarketStore.backfillHistory
  split_ifs
  · exact ⟨rfl, rfl⟩
  · exact ⟨rfl, rfl⟩

theorem onQuote_board
    (store : MarketStore) (q : Quote) {symbol : String} (h : symbol ≠ "") :
    (store.onQuote q).lastQuote.lookup symbol =
        (if q.symbol = symbol then some q
          else store.lastQuote.lookup symbol) ∧
      catalog (store.onQuote q) = catalog store := by
  unfold MarketStore.onQuote
  split_ifs with hempty hs hs
  · exact absurd (hs.symm.trans hempty) h
  · exact ⟨rfl, rfl⟩
  · subst hs
    exact ⟨Finmap.lookup_insert _, rfl⟩
  · exact ⟨Finmap.lookup_insert_of_ne _ (Ne.symm hs), rfl⟩

/-- A batch of quotes leaves the last row of each symbol. -/
theorem consume_quotes
    (store : MarketStore) (rows : List FeedQuote)
    {symbol : String} (h : symbol ≠ "") :
    (consumeLine store (FeedPublisher.quotesMsg rows)).lastQuote.lookup
          symbol =
        ((lastRow rows symbol).map FeedQuote.toQuote).or
          (store.lastQuote.lookup symbol) ∧
      catalog (consumeLine store (FeedPublisher.quotesMsg rows)) =
        catalog store := by
  have hfold := consumeLine_publication (.quotes rows) store
  rw [Publication.msg] at hfold
  rw [hfold, Publication.received, Publication.callsWith]
  clear hfold
  induction rows using List.reverseRecOn with
  | nil =>
      exact ⟨rfl, rfl⟩
  | append_singleton rows q ih =>
      rw [List.map_append, List.foldl_append]
      generalize (List.foldl _ store _) = st at ih ⊢
      have hq := onQuote_board st q.toQuote h
      rw [ih.1, ih.2] at hq
      refine ⟨?_, hq.2⟩
      rw [lastRow_append, lastRow_singleton]
      refine hq.1.trans ?_
      by_cases hs : q.symbol = symbol
      · simp [hs, FeedQuote.toQuote]
      · simp [hs, FeedQuote.toQuote]

theorem catalog_consume_quotes
    (store : MarketStore) (rows : List FeedQuote) :
    catalog (consumeLine store (FeedPublisher.quotesMsg rows)) =
      catalog store :=
  (consume_quotes store rows (show "X" ≠ "" by decide)).2

theorem consume_trades
    (store : MarketStore) (rows : List FeedTrade) :
    (consumeLine store (FeedPublisher.tradesMsg rows)).lastQuote =
        store.lastQuote ∧
      catalog (consumeLine store (FeedPublisher.tradesMsg rows)) =
        catalog store := by
  have hfold := consumeLine_publication (.trades rows) store
  rw [Publication.msg] at hfold
  rw [hfold, Publication.received, Publication.callsWith]
  clear hfold
  induction rows generalizing store with
  | nil =>
      exact ⟨rfl, rfl⟩
  | cons t rows ih =>
      have ht := onTrade_board store t.symbol t.price
        (asTimestampNs t.eventTimeNs)
      have hrest := ih (store.onTrade t.symbol t.price
        (asTimestampNs t.eventTimeNs))
      exact ⟨hrest.1.trans ht.1, hrest.2.trans ht.2⟩

theorem consume_history
    (store : MarketStore) (symbol : String) (points : List (ℚ × Int)) :
    (consumeLine store
          (FeedPublisher.historyMsg symbol points)).lastQuote =
        store.lastQuote ∧
      catalog (consumeLine store
          (FeedPublisher.historyMsg symbol points)) =
        catalog store := by
  have hfold := consumeLine_publication (.history symbol points) store
  rw [Publication.msg] at hfold
  rw [hfold]
  exact backfillHistory_board store symbol _

theorem consume_products (store : MarketStore) (ids : List String) :
    consumeLine store (FeedPublisher.productsMsg ids) =
      store.setProducts ids :=
  consumeLine_publication (.products ids) store

theorem consume_universe (store : MarketStore) (ids : List String) :
    consumeLine store (FeedPublisher.universeMsg ids) =
      store.setUniverse ids :=
  consumeLine_publication (.universeSyms ids) store

theorem consume_names
    (store : MarketStore) (map : List (String × String)) :
    consumeLine store (FeedPublisher.namesMsg map) =
      store.setNames (dictOf map) :=
  consumeLine_publication (.names map) store

/-! ### Getting in sync -/

namespace Synced

open FeedPublisher

/-- Another store with the same board. -/
theorem of_board
    {store store' : MarketStore} {pub : FeedPublisher}
    (h : Synced store pub)
    (hquotes : ∀ symbol q, symbol ≠ "" →
      pub.lastQuotes.lookup symbol = some q →
        store'.lastQuote.lookup symbol = store.lastQuote.lookup symbol)
    (hcatalog : catalog store' = catalog store) :
    Synced store' pub := by
  obtain ⟨hproducts, huniv, hnames⟩ :
      store'.products = store.products ∧
        store'.universeSyms = store.universeSyms ∧
          store'.names = store.names := by
    simpa [catalog] using hcatalog
  refine ⟨?_, ?_, ?_, ?_⟩
  · intro symbol q hsymbol hq
    rw [hquotes symbol q hsymbol hq]
    exact h.quotes symbol q hsymbol hq
  · intro hne
    rw [hproducts]
    exact h.products hne
  · intro hne
    rw [huniv]
    exact h.universeSyms hne
  · intro hne
    rw [hnames]
    exact h.names hne

/-- A terminal in sync stays so with the line that goes with a change of the
caches. -/
theorem consume
    {store : MarketStore} {pub : FeedPublisher}
    (hkeyed : Keyed pub.lastQuotes) (h : Synced store pub)
    (p : Publication) :
    Synced (consumeLine store p.msg) (pub.caches p) := by
  cases p with
  | trades rows =>
      have hboard := consume_trades store rows
      exact h.of_board (fun symbol q _ _ => by rw [Publication.msg, hboard.1])
        hboard.2
  | history symbol points =>
      have hboard := consume_history store symbol points
      exact h.of_board (fun symbol q _ _ => by rw [Publication.msg, hboard.1])
        hboard.2
  | quotes rows =>
      have hlookup := (foldl_setKey hkeyed rows).2
      have hwithout : Synced store { pub with lastQuotes := [] } :=
        ⟨by simp, h.products, h.universeSyms, h.names⟩
      have hother : Synced (consumeLine store (quotesMsg rows))
          { pub with lastQuotes := [] } :=
        hwithout.of_board (by simp) (catalog_consume_quotes store rows)
      refine ⟨?_, hother.products, hother.universeSyms, hother.names⟩
      intro symbol q hsymbol hq
      have hq' : (lastRow rows symbol).or
          (pub.lastQuotes.lookup symbol) = some q :=
        (hlookup symbol).symm.trans hq
      rw [Publication.msg, (consume_quotes store rows hsymbol).1]
      cases hrow : lastRow rows symbol with
      | none =>
          rw [hrow] at hq'
          exact h.quotes symbol q hsymbol hq'
      | some r =>
          rw [hrow] at hq'
          obtain rfl := Option.some.inj hq'
          rfl
  | products ids =>
      rw [Publication.msg, consume_products]
      exact ⟨h.quotes, fun _ => rfl, h.universeSyms, h.names⟩
  | universeSyms ids =>
      rw [Publication.msg, consume_universe]
      exact ⟨h.quotes, h.products, fun _ => rfl, h.names⟩
  | names map =>
      rw [Publication.msg, consume_names]
      exact ⟨h.quotes, h.products, h.universeSyms, fun _ => rfl⟩

/-- So does a terminal that is ahead, because a resync has sent the change
already. -/
theorem consume_again
    {store : MarketStore} {pub : FeedPublisher} {p : Publication}
    (hkeyed : Keyed pub.lastQuotes) (h : Synced store (pub.caches p)) :
    Synced (consumeLine store p.msg) (pub.caches p) := by
  have hagain := h.consume (hkeyed.caches p) p
  cases p with
  | quotes rows =>
      refine ⟨?_, hagain.products, hagain.universeSyms, hagain.names⟩
      intro symbol q hsymbol hq
      refine hagain.quotes symbol q hsymbol ?_
      have hfirst := foldl_setKey hkeyed rows
      have hsecond := (foldl_setKey hfirst.1 rows).2 symbol
      have hq' : (lastRow rows symbol).or
          (pub.lastQuotes.lookup symbol) = some q :=
        (hfirst.2 symbol).symm.trans hq
      refine hsecond.trans ?_
      rw [hfirst.2 symbol, ← hq']
      cases lastRow rows symbol <;> rfl
  | trades rows =>
      exact hagain
  | history symbol points =>
      exact hagain
  | products ids =>
      exact hagain
  | universeSyms ids =>
      exact hagain
  | names map =>
      exact hagain

end Synced

/-- A part of the store that a cached message leaves alone. -/
theorem foldl_cachedMsg_keep
    {β : Type} (part : MarketStore → β) {msg : Json}
    (h : ∀ store, part (consumeLine store msg) = part store)
    (ready : Bool) (store : MarketStore) :
    part ((FeedPublisher.cachedMsg ready msg).foldl consumeLine store) =
      part store := by
  cases ready with
  | false =>
      rfl
  | true =>
      exact h store

theorem isEmpty_eq_false
    {β : Type} {l : List β} (h : l ≠ []) :
    (!l.isEmpty) = true := by
  cases l with
  | nil =>
      exact absurd rfl h
  | cons a l =>
      rfl

open FeedPublisher in
/-- **A resync brings any terminal up to the caches.** -/
theorem synced_resync
    {pub : FeedPublisher} (hkeyed : Keyed pub.lastQuotes)
    (store : MarketStore) :
    Synced ((cachedMsgs pub).foldl consumeLine store) pub := by
  have hquotes := fun st =>
    catalog_consume_quotes st (pub.lastQuotes.map Prod.snd)
  simp only [cachedMsgs, List.foldl_append]
  refine ⟨?_, ?_, ?_, ?_⟩
  · intro symbol q hsymbol hq
    have hne : pub.lastQuotes ≠ [] := by
      intro hnil
      simp [hnil] at hq
    rw [isEmpty_eq_false hne]
    refine (consume_quotes _ _ hsymbol).1.trans ?_
    rw [hkeyed.lastRow_values, hq]
    rfl
  · intro hne
    have h₁ := foldl_cachedMsg_keep MarketStore.products
      (fun st => congrArg Prod.fst (hquotes st))
    have h₂ := foldl_cachedMsg_keep MarketStore.products
      (fun st => by rw [consume_names st pub.lastNames]; rfl)
    have h₃ := foldl_cachedMsg_keep MarketStore.products
      (fun st => by rw [consume_universe st pub.lastUniverse]; rfl)
    rw [h₁, h₂, h₃, isEmpty_eq_false hne]
    exact congrArg MarketStore.products (consume_products store _)
  · intro hne
    have h₁ := foldl_cachedMsg_keep MarketStore.universeSyms
      (fun st => congrArg (fun c => c.2.1) (hquotes st))
    have h₂ := foldl_cachedMsg_keep MarketStore.universeSyms
      (fun st => by rw [consume_names st pub.lastNames]; rfl)
    rw [h₁, h₂, isEmpty_eq_false hne]
    exact congrArg MarketStore.universeSyms (consume_universe _ _)
  · intro hne
    have h₁ := foldl_cachedMsg_keep MarketStore.names
      (fun st => congrArg (fun c => c.2.2) (hquotes st))
    rw [h₁, isEmpty_eq_false hne]
    exact congrArg MarketStore.names (consume_names _ _)

/-! ### What a call writes -/

/-- The same caches. -/
structure SameCaches (pub pub' : FeedPublisher) : Prop where
  lastProducts : pub'.lastProducts = pub.lastProducts
  lastUniverse : pub'.lastUniverse = pub.lastUniverse
  lastQuotes : pub'.lastQuotes = pub.lastQuotes
  lastNames : pub'.lastNames = pub.lastNames

theorem SameCaches.refl (pub : FeedPublisher) :
    SameCaches pub pub :=
  ⟨rfl, rfl, rfl, rfl⟩

theorem SameCaches.trans
    {pub pub' pub'' : FeedPublisher}
    (h : SameCaches pub pub') (h' : SameCaches pub' pub'') :
    SameCaches pub pub'' :=
  ⟨h'.lastProducts.trans h.lastProducts,
    h'.lastUniverse.trans h.lastUniverse,
    h'.lastQuotes.trans h.lastQuotes, h'.lastNames.trans h.lastNames⟩

theorem SameCaches.synced
    {pub pub' : FeedPublisher} (h : SameCaches pub pub')
    {store : MarketStore} (hsynced : Synced store pub) :
    Synced store pub' := by
  refine ⟨?_, ?_, ?_, ?_⟩
  · rw [h.lastQuotes]
    exact hsynced.quotes
  · rw [h.lastProducts]
    exact hsynced.products
  · rw [h.lastUniverse]
    exact hsynced.universeSyms
  · rw [h.lastNames]
    exact hsynced.names

namespace FeedPublisher

theorem SameBut.sameCaches
    {s s' : Session} (h : SameBut s s') :
    SameCaches s.pub s'.pub :=
  ⟨h.lastProducts, h.lastUniverse, h.lastQuotes, h.lastNames⟩

theorem wrote_written
    {s : Session} {msg : Json}
    (h : (wrote msg s).pub.attached = true) :
    (wrote msg s).net.written = s.net.written ++ [msg] := by
  unfold wrote at h ⊢
  cases hs : s.net.sends with
  | nil =>
      rfl
  | cons b rest =>
      cases b with
      | false =>
          rw [hs] at h
          cases h
      | true =>
          rfl

/-- Messages that all go through are written in order. -/
theorem writeAll_written
    {ms : List Json} {s : Session}
    (h : (writeAll ms s).pub.attached = true) :
    (writeAll ms s).net.written = s.net.written ++ ms := by
  induction ms generalizing s with
  | nil =>
      exact (List.append_nil _).symm
  | cons m ms ih =>
      by_cases hs : s.pub.attached = true
      · have heq : writeAll (m :: ms) s = writeAll ms (wrote m s) := by
          simp [writeAll, hs]
        rw [heq] at h ⊢
        have hmid : (wrote m s).pub.attached = true := by
          by_contra hno
          rw [writeAll_of_detached (by simpa using hno)] at h
          exact hno h
        rw [ih h, wrote_written hmid, List.append_assoc]
        rfl
      · rw [writeAll_of_detached (by simpa using hs)] at h
        exact absurd h hs

/-- What a call has written that leaves the publisher attached: nothing but
`msgs` on a connection that stood, or the caches ahead of them on one that it
has opened. -/
def Writes (s : Session) (msgs : List Json) (s' : Session) : Prop :=
  s'.pub.attached = true →
    (s.pub.attached = true ∧
        (msgs ≠ [] → s.net.sends.head? ≠ some false) ∧
        s'.net.written = s.net.written ++ msgs) ∨
      (s.pub.attached = false ∧
        s'.net.written = s.net.written ++ (cachedMsgs s.pub ++ msgs))

theorem writes_nothing (s : Session) :
    Writes s [] s := by
  intro hatt
  exact Or.inl ⟨hatt, fun h => absurd rfl h, (List.append_nil _).symm⟩

/-- A call of `connect` that does not open a connection writes nothing. -/
theorem connect_keeps_caches
    {s : Session} (h : ¬ Opens s) :
    SameCaches s.pub (connect s).2.pub := by
  by_cases htries : Tries s
  · have hconn : ¬ s.net.connects = true := fun hconn =>
      h ⟨htries.1, htries.2, hconn⟩
    rw [connect, if_neg (not_not.mpr htries), if_neg hconn]
    exact ⟨rfl, rfl, rfl, rfl⟩
  · rw [connect, if_pos htries]
    exact SameCaches.refl _

theorem connect_writes (s : Session) :
    SameCaches s.pub (connect s).2.pub ∧ Writes s [] (connect s).2 := by
  by_cases hopens : Opens s
  · rw [connect_of_opens hopens]
    have hsame := (writeAll_same (cachedMsgs s.pub) (opened s)).sameCaches
    refine ⟨⟨hsame.lastProducts, hsame.lastUniverse, hsame.lastQuotes,
      hsame.lastNames⟩, ?_⟩
    intro hatt
    refine Or.inr ⟨hopens.1, ?_⟩
    rw [List.append_nil]
    exact writeAll_written hatt
  · refine ⟨connect_keeps_caches hopens, ?_⟩
    obtain ⟨s', hconn, hatt', _, hnet⟩ := connect_of_not_opens hopens
    intro hatt
    rw [hconn] at hatt ⊢
    refine Or.inl ⟨hatt'.symm.trans hatt, fun h => absurd rfl h, ?_⟩
    rw [hnet, List.append_nil]

/-- A send goes on from where `connect` leaves the session: it writes if
there is a socket. -/
theorem sendOnly_eq (msg : Json) (s : Session) :
    ((connect s).2.pub.attached = true ∧
        (sendOnly msg s).2 = wrote msg (connect s).2) ∨
      ((connect s).2.pub.attached = false ∧
        (sendOnly msg s).2 = (connect s).2) := by
  have hconn : ∃ ok s', connect s = (.ok ok, s') ∧
      (ok = false → s'.pub.attached = false) := by
    by_cases hopens : Opens s
    · exact ⟨_, _, connect_of_opens hopens, by simp⟩
    · obtain ⟨s', hconn, hatt, _⟩ := connect_of_not_opens hopens
      exact ⟨_, s', hconn, fun h => hatt.trans h⟩
  obtain ⟨ok, s', hconn, hfalse⟩ := hconn
  rw [sendOnly, send, hconn]
  cases ok with
  | false =>
      exact Or.inr ⟨hfalse rfl, rfl⟩
  | true =>
      simp only [Outcome.andThen, if_true]
      by_cases hatt : s'.pub.attached = true
      · rw [write_of_attached hatt]
        exact Or.inl ⟨hatt, rfl⟩
      · have hd : s'.pub.attached = false := by simpa using hatt
        rw [write_of_detached hd]
        exact Or.inr ⟨hd, rfl⟩

theorem sendOnly_writes (msg : Json) (s : Session) :
    SameCaches s.pub (sendOnly msg s).2.pub ∧
      Writes s [msg] (sendOnly msg s).2 := by
  obtain ⟨hcaches, hwrites⟩ := connect_writes s
  rcases sendOnly_eq msg s with ⟨hmid, heq⟩ | ⟨hmid, heq⟩
  · have hsame := (wrote_same msg (connect s).2).sameCaches
    refine ⟨by rw [heq]; exact hcaches.trans hsame, ?_⟩
    intro hatt
    rw [heq] at hatt ⊢
    have hwritten := wrote_written hatt
    rcases hwrites hmid with ⟨hs, _, hnone⟩ | ⟨hs, hresync⟩
    · refine Or.inl ⟨hs, ?_, ?_⟩
      · intro _ hfail
        have hhead := wrote_attached hmid msg
        rw [hatt, connect_of_attached hs] at hhead
        rw [List.headD_eq_head?_getD, hfail] at hhead
        cases hhead
      · rw [hwritten, hnone, List.append_nil]
    · refine Or.inr ⟨hs, ?_⟩
      rw [hwritten, hresync, List.append_nil, List.append_assoc]
  · refine ⟨by rw [heq]; exact hcaches, ?_⟩
    intro hatt
    rw [heq, hmid] at hatt
    cases hatt

end FeedPublisher

/-! ### Publisher, channel and terminal -/

/-- The publisher's end, the lines in flight on its connection and on earlier
ones, and the terminal's store.  `linked` says that the publisher's socket
leads to the terminal that is there now. -/
structure FeedChannel where
  pub : FeedPublisher := {}
  linked : Bool := false
  stale : List Json := []
  current : List Json := []
  store : MarketStore := {}
  published : List Publication := []

inductive ChannelStep where
  /-- a call of `connect` -/
  | connect (net : Net)
  /-- a call of a publish path -/
  | publish (p : Publication) (net : Net)
  /-- the terminal handles the next line -/
  | consume
  /-- a line on a broken connection is lost -/
  | lose (i : Nat)
  /-- the connection breaks, and the terminal keeps its store -/
  | hangUp
  /-- the terminal restarts -/
  | restart

namespace FeedChannel

/-- The session in which a call is made. -/
def session (L : FeedChannel) (net : Net) : Session where
  pub := L.pub
  net := { net with written := [] }

/-- A write to a broken connection fails. -/
def Permits (L : FeedChannel) (net : Net) : Prop :=
  L.pub.attached = true → L.linked = false →
    net.sends.head? = some false

instance (L : FeedChannel) (net : Net) : Decidable (L.Permits net) := by
  unfold Permits
  infer_instance

/-- Where a call leaves the channel.  A call that finds a socket uses it, and
any other writes to the connection that it opens. -/
def after (L : FeedChannel) (ps : List Publication) (s : Session) :
    FeedChannel :=
  if s.pub.attached = false then
    { L with
      pub := s.pub
      linked := false
      stale := L.stale ++ (L.current ++ s.net.written)
      current := []
      published := ps }
  else if L.pub.attached = true then
    { L with
      pub := s.pub
      current := L.current ++ s.net.written
      published := ps }
  else
    { L with
      pub := s.pub
      linked := true
      stale := L.stale ++ L.current
      current := s.net.written
      published := ps }

def connect (L : FeedChannel) (net : Net) : Option FeedChannel := do
  guard (L.Permits net)
  return L.after L.published (FeedPublisher.connect (L.session net)).2

def publish (L : FeedChannel) (p : Publication) (net : Net) :
    Option FeedChannel := do
  guard (L.Permits net)
  return L.after (L.published ++ [p]) (p.publish (L.session net)).2

/-- Earlier connections are read to their end first. -/
def consume (L : FeedChannel) : Option FeedChannel :=
  match L.stale, L.current with
  | line :: stale, _ =>
      some { L with store := consumeLine L.store line, stale := stale }
  | [], line :: current =>
      some { L with store := consumeLine L.store line, current := current }
  | [], [] => none

def lose (L : FeedChannel) (i : Nat) : FeedChannel :=
  { L with stale := L.stale.eraseIdx i }

/-- What is in flight on the connection becomes stale. -/
def hangUp (L : FeedChannel) : FeedChannel :=
  { L with
    linked := false
    stale := L.stale ++ L.current
    current := [] }

def restart (L : FeedChannel) : FeedChannel :=
  { L with linked := false, stale := [], current := [], store := {} }

def step (L : FeedChannel) : ChannelStep → Option FeedChannel
  | .connect net => L.connect net
  | .publish p net => L.publish p net
  | .consume => L.consume
  | .lose i => some (L.lose i)
  | .hangUp => some L.hangUp
  | .restart => some L.restart

end FeedChannel

/-! ### What was published -/

/-- The rows of a batch of quotes. -/
def Publication.rows : Publication → List FeedQuote
  | .quotes rows => rows
  | _ => []

def Publication.products? : Publication → Option (List String)
  | .products ids => some ids
  | _ => none

def Publication.universe? : Publication → Option (List String)
  | .universeSyms ids => some ids
  | _ => none

def Publication.names? : Publication → Option (List (String × String))
  | .names map => some map
  | _ => none

/-- The newest row published for a symbol. -/
def newestRow (ps : List Publication) (symbol : String) :
    Option FeedQuote :=
  lastRow (ps.flatMap Publication.rows) symbol

/-- The latest value set by the publications that `value?` selects. -/
def latest {β : Type} (value? : Publication → Option β)
    (ps : List Publication) : Option β :=
  (ps.filterMap value?).getLast?

theorem newestRow_append
    (ps : List Publication) (p : Publication) (symbol : String) :
    newestRow (ps ++ [p]) symbol =
      (lastRow p.rows symbol).or (newestRow ps symbol) := by
  rw [newestRow, List.flatMap_append, lastRow_append,
    List.flatMap_singleton]
  rfl

theorem latest_append
    {β : Type} (value? : Publication → Option β)
    (ps : List Publication) (p : Publication) :
    latest value? (ps ++ [p]) = (value? p).or (latest value? ps) := by
  rw [latest, List.filterMap_append, List.getLast?_append]
  cases h : value? p with
  | none =>
      simp [h, latest]
  | some b =>
      simp [h]

/-- The caches hold what was published last. -/
structure Recorded (pub : FeedPublisher) (ps : List Publication) :
    Prop where
  keyed : FeedPublisher.Keyed pub.lastQuotes
  quotes : ∀ symbol, pub.lastQuotes.lookup symbol = newestRow ps symbol
  products : pub.lastProducts =
    (latest Publication.products? ps).getD []
  universeSyms : pub.lastUniverse =
    (latest Publication.universe? ps).getD []
  names : pub.lastNames = (latest Publication.names? ps).getD []

theorem SameCaches.recorded
    {pub pub' : FeedPublisher} (h : SameCaches pub pub')
    {ps : List Publication} (hrec : Recorded pub ps) :
    Recorded pub' ps := by
  refine ⟨?_, ?_, ?_, ?_, ?_⟩
  · rw [h.lastQuotes]
    exact hrec.keyed
  · rw [h.lastQuotes]
    exact hrec.quotes
  · rw [h.lastProducts]
    exact hrec.products
  · rw [h.lastUniverse]
    exact hrec.universeSyms
  · rw [h.lastNames]
    exact hrec.names

theorem Recorded.caches
    {pub : FeedPublisher} {ps : List Publication}
    (h : Recorded pub ps) (p : Publication) :
    Recorded (pub.caches p) (ps ++ [p]) := by
  refine ⟨h.keyed.caches p, ?_, ?_, ?_, ?_⟩
  · intro symbol
    rw [newestRow_append, ← h.quotes symbol]
    cases p with
    | quotes rows =>
        exact (FeedPublisher.foldl_setKey h.keyed rows).2 symbol
    | _ =>
        rfl
  · rw [latest_append]
    cases p with
    | products ids =>
        rfl
    | _ =>
        exact h.products
  · rw [latest_append]
    cases p with
    | universeSyms ids =>
        rfl
    | _ =>
        exact h.universeSyms
  · rw [latest_append]
    cases p with
    | names map =>
        rfl
    | _ =>
        exact h.names

/-! ### The invariant -/

namespace FeedChannel

/-- Over a standing connection, the lines on it bring any store up to the
caches, or nothing older is in flight and they bring this store there. -/
structure InSync (L : FeedChannel) : Prop where
  recorded : Recorded L.pub L.published
  synced : L.pub.attached = true → L.linked = true →
    (∀ store, Synced (L.current.foldl consumeLine store) L.pub) ∨
      (L.stale = [] ∧ Synced (L.current.foldl consumeLine L.store) L.pub)

/-- Lines behind those in flight, and caches that go with them. -/
theorem InSync.extend
    {L : FeedChannel} (h : L.InSync)
    (hatt : L.pub.attached = true) (hlinked : L.linked = true)
    {pub : FeedPublisher} {lines : List Json}
    (hlines : ∀ store, Synced store L.pub →
      Synced (lines.foldl consumeLine store) pub) :
    (∀ store,
        Synced ((L.current ++ lines).foldl consumeLine store) pub) ∨
      (L.stale = [] ∧
        Synced ((L.current ++ lines).foldl consumeLine L.store) pub) := by
  simp only [List.foldl_append]
  rcases h.synced hatt hlinked with hany | ⟨hstale, hthis⟩
  · exact Or.inl fun store => hlines _ (hany store)
  · exact Or.inr ⟨hstale, hlines _ hthis⟩

/-- A call that is made with the caches `pub` keeps the channel in sync, when
the lines that it writes go with them. -/
theorem InSync.after
    {L : FeedChannel} (h : L.InSync) {net : Net}
    {pub : FeedPublisher} {lines : List Json} {ps : List Publication}
    {s' : Session}
    (hatt : pub.attached = L.pub.attached)
    (hrec : Recorded pub ps)
    (hcaches : SameCaches pub s'.pub)
    (hwrites : FeedPublisher.Writes
      { pub := pub, net := { net with written := [] } } lines s')
    (hlines : ∀ store, Synced store L.pub →
      Synced (lines.foldl consumeLine store) pub)
    (hagain : ∀ store, Synced store pub →
      Synced (lines.foldl consumeLine store) pub) :
    InSync (L.after ps s') := by
  have hpub : (L.after ps s').pub = s'.pub := by
    unfold FeedChannel.after
    split_ifs <;> rfl
  have hpublished : (L.after ps s').published = ps := by
    unfold FeedChannel.after
    split_ifs <;> rfl
  refine ⟨by rw [hpub, hpublished]; exact hcaches.recorded hrec, ?_⟩
  intro hatt' hlinked'
  rw [hpub] at hatt' ⊢
  have hno : ¬ s'.pub.attached = false := by simp [hatt']
  rcases hwrites hatt' with ⟨hold, _, hwritten⟩ | ⟨hnew, hwritten⟩
  · have hL : L.pub.attached = true := hatt.symm.trans hold
    have hwritten' : s'.net.written = lines := hwritten
    simp only [FeedChannel.after, if_neg hno, if_pos hL, hwritten']
      at hlinked' ⊢
    rcases h.extend hL hlinked' hlines with hany | ⟨hstale, hthis⟩
    · exact Or.inl fun store => hcaches.synced (hany store)
    · exact Or.inr ⟨hstale, hcaches.synced hthis⟩
  · have hL : ¬ L.pub.attached = true := by
      rw [← hatt, hnew]
      simp
    have hwritten' :
        s'.net.written = FeedPublisher.cachedMsgs pub ++ lines := hwritten
    simp only [FeedChannel.after, if_neg hno, if_neg hL, hwritten']
    left
    intro store
    rw [List.foldl_append]
    exact hcaches.synced (hagain _ (synced_resync hrec.keyed store))

theorem InSync.connect
    {L M : FeedChannel} (h : L.InSync) {net : Net}
    (hstep : L.connect net = some M) :
    M.InSync := by
  simp only [FeedChannel.connect, Option.bind_eq_bind,
    Option.bind_eq_some_iff, Option.pure_def, Option.some.injEq] at hstep
  obtain ⟨_, _, rfl⟩ := hstep
  obtain ⟨hcaches, hwrites⟩ :=
    FeedPublisher.connect_writes (L.session net)
  exact h.after rfl h.recorded hcaches hwrites (fun _ hs => hs)
    (fun _ hs => hs)

theorem InSync.publish
    {L M : FeedChannel} (h : L.InSync) {p : Publication} {net : Net}
    (hstep : L.publish p net = some M) :
    M.InSync := by
  simp only [FeedChannel.publish, Option.bind_eq_bind,
    Option.bind_eq_some_iff, Option.pure_def, Option.some.injEq] at hstep
  obtain ⟨_, _, rfl⟩ := hstep
  have hrec := h.recorded.caches p
  rw [FeedPublisher.publish_eq]
  split_ifs with hmsgs
  · rw [FeedPublisher.caches_of_msgs_nil hmsgs] at hrec
    exact h.after rfl hrec (SameCaches.refl _)
      (FeedPublisher.writes_nothing (L.session net)) (fun _ hs => hs)
      (fun _ hs => hs)
  · have hpub : (L.pub.caches p).attached = L.pub.attached := by
      cases p <;> rfl
    obtain ⟨hcaches, hwrites⟩ := FeedPublisher.sendOnly_writes p.msg
      { L.session net with pub := (L.session net).pub.caches p }
    exact h.after hpub hrec hcaches hwrites
      (fun _ hs => hs.consume h.recorded.keyed p)
      (fun _ hs => hs.consume_again h.recorded.keyed)

theorem InSync.consume
    {L M : FeedChannel} (h : L.InSync) (hstep : L.consume = some M) :
    M.InSync := by
  unfold FeedChannel.consume at hstep
  split at hstep
  next line stale _ hstale =>
      obtain rfl := Option.some.inj hstep
      refine ⟨h.recorded, ?_⟩
      intro hatt hlinked
      rcases h.synced hatt hlinked with hany | ⟨hnil, _⟩
      · exact Or.inl hany
      · rw [hstale] at hnil
        cases hnil
  next line current hstale hcurrent =>
      obtain rfl := Option.some.inj hstep
      refine ⟨h.recorded, ?_⟩
      intro hatt hlinked
      refine Or.inr ⟨hstale, ?_⟩
      have hthis : Synced (L.current.foldl consumeLine L.store) L.pub := by
        rcases h.synced hatt hlinked with hany | ⟨_, hthis⟩
        · exact hany L.store
        · exact hthis
      rwa [hcurrent] at hthis
  next =>
      cases hstep

theorem InSync.lose
    {L : FeedChannel} (h : L.InSync) (i : Nat) :
    (L.lose i).InSync := by
  refine ⟨h.recorded, ?_⟩
  intro hatt hlinked
  rcases h.synced hatt hlinked with hany | ⟨hstale, hthis⟩
  · exact Or.inl hany
  · refine Or.inr ⟨?_, hthis⟩
    rw [FeedChannel.lose, hstale]
    rfl

theorem InSync.of_unlinked
    {L M : FeedChannel} (h : L.InSync) (hpub : M.pub = L.pub)
    (hpublished : M.published = L.published) (hlinked : M.linked = false) :
    M.InSync := by
  refine ⟨by rw [hpub, hpublished]; exact h.recorded, ?_⟩
  intro _ hlinked'
  rw [hlinked] at hlinked'
  cases hlinked'

theorem InSync.step
    {L M : FeedChannel} (h : L.InSync) {a : ChannelStep}
    (hstep : L.step a = some M) :
    M.InSync := by
  cases a with
  | connect net =>
      exact h.connect hstep
  | publish p net =>
      exact h.publish hstep
  | consume =>
      exact h.consume hstep
  | lose i =>
      obtain rfl := Option.some.inj hstep
      exact h.lose i
  | hangUp =>
      obtain rfl := Option.some.inj hstep
      exact h.of_unlinked rfl rfl rfl
  | restart =>
      obtain rfl := Option.some.inj hstep
      exact h.of_unlinked rfl rfl rfl

/-- A publisher that has just been made, and an empty terminal. -/
theorem inSync_start : InSync {} := by
  refine ⟨⟨FeedPublisher.Keyed.nil, fun _ => rfl, rfl, rfl, rfl⟩, ?_⟩
  intro hatt
  cases hatt

/-- The store holds what was published last. -/
structure UpToDate (L : FeedChannel) : Prop where
  quotes : ∀ symbol q, symbol ≠ "" →
    newestRow L.published symbol = some q →
      L.store.lastQuote.lookup symbol = some q.toQuote
  products : ∀ ids,
    latest Publication.products? L.published = some ids → ids ≠ [] →
      L.store.products = ids
  universeSyms : ∀ ids,
    latest Publication.universe? L.published = some ids → ids ≠ [] →
      L.store.universeSyms = ids
  names : ∀ map,
    latest Publication.names? L.published = some map → map ≠ [] →
      L.store.names = dictOf map

/-- With nothing in flight, the store itself is up to the caches. -/
theorem InSync.upToDate
    {L : FeedChannel} (h : L.InSync)
    (hatt : L.pub.attached = true) (hlinked : L.linked = true)
    (hcurrent : L.current = []) :
    L.UpToDate := by
  have hsynced : Synced L.store L.pub := by
    rcases h.synced hatt hlinked with hany | ⟨_, hthis⟩
    · have hthis := hany L.store
      rwa [hcurrent] at hthis
    · rwa [hcurrent] at hthis
  refine ⟨?_, ?_, ?_, ?_⟩
  · intro symbol q hsymbol hq
    exact hsynced.quotes symbol q hsymbol
      ((h.recorded.quotes symbol).trans hq)
  · intro ids hids hne
    have heq : L.pub.lastProducts = ids := by
      rw [h.recorded.products, hids]
      rfl
    rw [hsynced.products (by rwa [heq]), heq]
  · intro ids hids hne
    have heq : L.pub.lastUniverse = ids := by
      rw [h.recorded.universeSyms, hids]
      rfl
    rw [hsynced.universeSyms (by rwa [heq]), heq]
  · intro map hmap hne
    have heq : L.pub.lastNames = map := by
      rw [h.recorded.names, hmap]
      rfl
    rw [hsynced.names (by rwa [heq]), heq]

/-- A publish path that has written and finds itself attached has written to
a terminal that is there. -/
theorem linked_of_publish
    {L M : FeedChannel} {p : Publication} {net : Net}
    (hstep : L.publish p net = some M) (hmsgs : p.msgs ≠ [])
    (hatt : M.pub.attached = true) :
    M.linked = true := by
  simp only [FeedChannel.publish, Option.bind_eq_bind,
    Option.bind_eq_some_iff, Option.pure_def, Option.some.injEq] at hstep
  obtain ⟨_, hguard, rfl⟩ := hstep
  have hpermits : L.Permits net := by
    by_contra hno
    simp [guard, hno] at hguard
  rw [FeedPublisher.publish_eq, if_neg hmsgs] at hatt ⊢
  have hpub : (L.pub.caches p).attached = L.pub.attached := by
    cases p <;> rfl
  obtain ⟨_, hwrites⟩ := FeedPublisher.sendOnly_writes p.msg
    { L.session net with pub := (L.session net).pub.caches p }
  generalize (FeedPublisher.sendOnly p.msg _).2 = s' at hatt hwrites ⊢
  unfold FeedChannel.after at hatt ⊢
  split_ifs at hatt ⊢ with hdown hold
  · have hdown' : s'.pub.attached = true := hatt
    rw [hdown] at hdown'
    cases hdown'
  · have hhead : net.sends.head? ≠ some false := by
      rcases hwrites hatt with ⟨_, hhead, _⟩ | ⟨hnew, _⟩
      · exact hhead (by simp)
      · have hnew' : (L.pub.caches p).attached = false := hnew
        rw [hpub, hold] at hnew'
        cases hnew'
    by_contra hlinked
    exact hhead (hpermits hold (by simpa using hlinked))
  · rfl

/-- **Resync brings a terminal up to date.**  Whenever the publisher is
attached to the terminal and nothing is in flight, the store holds the newest
row of every symbol and the latest catalog, universe and names; and a publish
path that returns from a write attached is attached to the terminal. -/
theorem resync_up_to_date
    {as : List ChannelStep} {L : FeedChannel}
    (hrun : exec step {} as = some L) :
    (L.pub.attached = true → L.linked = true →
        L.stale = [] → L.current = [] → L.UpToDate) ∧
      ∀ p net M, L.publish p net = some M → p.msgs ≠ [] →
        M.pub.attached = true → M.linked = true := by
  have hsync := exec_invariant_of_step step
    (fun _ _ _ h hstep => InSync.step h hstep) inSync_start hrun
  refine ⟨?_, ?_⟩
  · intro hatt hlinked _ hcurrent
    exact hsync.upToDate hatt hlinked hcurrent
  · intro p net M hstep hmsgs hatt
    exact linked_of_publish hstep hmsgs hatt

/-- A row of a batch, sizes of one. -/
def unitRow (symbol : String) (bid ask : ℚ) (eventTimeNs : Int) :
    FeedQuote where
  symbol := symbol
  bid := bid
  ask := ask
  bsize := 1
  asize := 1
  eventTimeNs := eventTimeNs

/-- The catalog is set while nothing listens, a batch of quotes breaks off in
the resync, the terminal restarts, and the next batch of quotes brings all of
it. -/
def restartSteps : List ChannelStep :=
  [.publish (.products ["X", "Y"]) { connects := false },
    .publish (.quotes [unitRow "X" 1 2 5])
      { now := 1, sends := [true, false] },
    .consume, .restart,
    .publish (.quotes [unitRow "Y" 3 4 6]) { now := 2 },
    .consume, .consume, .consume]

theorem resync_up_to_date_after_restart :
    ∃ L ∈ exec step {} restartSteps, L.UpToDate := by
  obtain ⟨L, hrun, hatt, hlinked, hstale, hcurrent⟩ :
      ∃ L ∈ exec step {} restartSteps,
        L.pub.attached = true ∧ L.linked = true ∧ L.stale = [] ∧
          L.current = [] := by
    decide +kernel
  exact ⟨L, hrun,
    (resync_up_to_date hrun).1 hatt hlinked hstale hcurrent⟩

/-- A row without a symbol is cached and resent, but never taken. -/
theorem resync_ignores_empty_symbol :
    ∃ L ∈ exec step {}
        [.publish (.quotes [unitRow "" 1 2 5]) {}, .consume, .consume],
      L.pub.attached = true ∧ L.linked = true ∧ L.stale = [] ∧
        L.current = [] ∧
        newestRow L.published "" = some (unitRow "" 1 2 5) ∧
        L.store.lastQuote.lookup "" = none := by
  decide +kernel

end FeedChannel

end ExecutionLayer
