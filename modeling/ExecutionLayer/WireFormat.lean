import ExecutionLayer.FeedLink
import ExecutionLayer.Library.Framing
import ExecutionLayer.MalformedLines
import ExecutionLayer.PublisherSurvival

/-!
# The wire format

Both halves of the feed protocol are written by hand, in two languages, and
most messages are positional.  The reading half is put behind the writing
half here: a line that `FeedPublisher` writes makes `handle_line` perform the
calls that the publication stands for (`handleLine_publication`), and the
reply line that `handle_line` writes makes `query_requested` return the two
drained lists (`queryRequested_reply`).

What is assumed of the two JSON libraries is `ReadsBack`: the parser undoes
the dump of the message at hand, up to the order of object members, and the
dump is not empty and has no raw newline.

Python integers have no bound and `TimestampNs` has 64 bits.  `asTimestampNs`
is what `get<TimestampNs>` makes of a time stamp, and it is the time stamp
itself when that fits (`asTimestampNs_of_fits`).
-/

namespace ExecutionLayer

open FiniteMap Framing JsonLib JsonLib.Json MachineInt

/-! ### Time stamps -/

/-- A Python integer as `get<TimestampNs>` reads it off the line. -/
def asTimestampNs (n : Int) : Int :=
  wrapInt64 n

theorem asTimestampNs_of_fits
    {n : Int} (h : FitsInt64 n) :
    asTimestampNs n = n :=
  wrapInt64_of_fits h

theorem getInt64_jsonInt (n : Int) :
    (FeedPublisher.jsonInt n).getInt64 = .ok (asTimestampNs n) := by
  unfold FeedPublisher.jsonInt asTimestampNs
  split_ifs with h
  · rw [getInt64, Int.toNat_of_nonneg h]
  · rfl

/-! ### What a publication says -/

/-- A dictionary as a map. -/
def dictOf {β : Type} (entries : List (String × β)) :
    Finmap fun _ : String => β :=
  entries.foldl (fun names e => names.insert e.1 e.2) ∅

open FeedServer in
/-- The calls that a publication stands for, its time stamps read by `ts`. -/
def Publication.callsWith (ts : Int → Int) :
    Publication → List StoreCall
  | .trades rows => rows.map fun t =>
      .onTrade t.symbol t.price (ts t.eventTimeNs)
  | .history symbol points =>
      [.backfillHistory symbol (points.map fun p =>
        { tsNs := ts p.2, price := p.1 })]
  | .quotes rows => rows.map fun q =>
      .onQuote
        { symbol := q.symbol, bid := q.bid, ask := q.ask,
          bsize := q.bsize, asize := q.asize, tsNs := ts q.eventTimeNs }
  | .products ids => [.setProducts ids]
  | .universeSyms ids => [.setUniverse ids]
  | .names map => [.setNames (dictOf map)]

/-- The calls with the values that were published. -/
def Publication.calls (p : Publication) : List FeedServer.StoreCall :=
  p.callsWith fun n => n

/-- The calls with the values that arrive. -/
def Publication.received (p : Publication) : List FeedServer.StoreCall :=
  p.callsWith asTimestampNs

def Publication.timestamps : Publication → List Int
  | .trades rows => rows.map FeedTrade.eventTimeNs
  | .history _ points => points.map Prod.snd
  | .quotes rows => rows.map FeedQuote.eventTimeNs
  | .products _ => []
  | .universeSyms _ => []
  | .names _ => []

/-- What arrives is what was published, for time stamps that fit. -/
theorem received_eq_calls
    {p : Publication} (h : ∀ n ∈ p.timestamps, FitsInt64 n) :
    p.received = p.calls := by
  unfold Publication.received Publication.calls
  cases p with
  | trades rows =>
      refine List.map_congr_left fun t ht => ?_
      rw [asTimestampNs_of_fits (h _ (List.mem_map_of_mem ht))]
  | history symbol points =>
      refine congrArg
        (fun points => [FeedServer.StoreCall.backfillHistory symbol points])
        (List.map_congr_left fun p hp => ?_)
      rw [asTimestampNs_of_fits (h _ (List.mem_map_of_mem hp))]
  | quotes rows =>
      refine List.map_congr_left fun q hq => ?_
      rw [asTimestampNs_of_fits (h _ (List.mem_map_of_mem hq))]
  | products ids =>
      rfl
  | universeSyms ids =>
      rfl
  | names map =>
      rfl

/-! ### From the terminal's side -/

namespace FeedServer

section Rows

variable {σ β γ : Type} {width : Nat}
variable {decode : List Json → Except TypeError β}
variable {cells : γ → List Json} {value : γ → β}

/-- The loop over rows that were encoded cell by cell. -/
theorem forRows_encoded
    (hlen : ∀ x, width ≤ (cells x).length)
    (hdecode : ∀ x, decode (cells x) = .ok (value x))
    (act : σ → β → σ) (xs : List γ) (st : σ) :
    forRows width decode act (xs.map fun x => .array (cells x)) st =
      (.ok (), (xs.map value).foldl act st) := by
  induction xs generalizing st with
  | nil =>
      rfl
  | cons x xs ih =>
      rw [List.map_cons, forRows, if_neg (not_lt.mpr (hlen x)),
        hdecode x]
      exact ih (act st (value x))

theorem handleRows_encoded
    (hlen : ∀ x, width ≤ (cells x).length)
    (hdecode : ∀ x, decode (cells x) = .ok (value x))
    (act : MarketStore → β → MarketStore)
    {msg : Members} {xs : List γ}
    (hrows : find msg "rows" =
      some (.array (xs.map fun x => .array (cells x))))
    (store : MarketStore) :
    handleRows width decode act msg store =
      (.ok none, (xs.map value).foldl act store) := by
  have hat : arrayAt msg "rows" =
      some (xs.map fun x => .array (cells x)) := by
    simp only [arrayAt, hrows]
  unfold handleRows
  rw [hat]
  simp only [forRows_encoded hlen hdecode]
  rfl

end Rows

theorem quoteOf_cells (q : FeedQuote) :
    quoteOf
        [.string q.symbol, .numberFloat q.bid, .numberFloat q.ask,
          .numberFloat q.bsize, .numberFloat q.asize,
          FeedPublisher.jsonInt q.eventTimeNs] =
      .ok
        { symbol := q.symbol, bid := q.bid, ask := q.ask,
          bsize := q.bsize, asize := q.asize,
          tsNs := asTimestampNs q.eventTimeNs } := by
  simp only [quoteOf, List.getD_cons_zero, List.getD_cons_succ,
    getInt64_jsonInt]
  rfl

theorem tradeOf_cells (t : FeedTrade) :
    tradeOf
        [.string t.symbol, .numberFloat t.price,
          FeedPublisher.jsonInt t.eventTimeNs] =
      .ok (t.symbol, t.price, asTimestampNs t.eventTimeNs) := by
  simp only [tradeOf, List.getD_cons_zero, List.getD_cons_succ,
    getInt64_jsonInt]
  rfl

theorem pointOf_cells (p : ℚ × Int) :
    pointOf [.numberFloat p.1, FeedPublisher.jsonInt p.2] =
      .ok { tsNs := asTimestampNs p.2, price := p.1 } := by
  simp only [pointOf, List.getD_cons_zero, List.getD_cons_succ,
    getInt64_jsonInt]
  rfl

theorem strings_map_string (ids : List String) :
    JsonLib.Json.strings (ids.map .string) = ids := by
  induction ids with
  | nil =>
      rfl
  | cons s ids ih =>
      rw [JsonLib.Json.strings] at ih ⊢
      simp

/-! ### Name maps -/

/-- The string under a key. -/
def nameAt (map : Members) (key : String) : Option String :=
  match find map key with
  | some (.string s) => some s
  | _ => none

/-- One step of reading a name map. -/
def addName (names : Finmap fun _ : String => String)
    (member : String × Json) : Finmap fun _ : String => String :=
  match member.2 with
  | .string s => names.insert member.1 s
  | _ => names

theorem namesOf_eq (map : Members) :
    namesOf map = map.foldl addName ∅ := by
  rfl

/-- A later member with the key decides, else what was there. -/
theorem lookup_foldl_addName
    {map : Members} (hkeys : (map.map Prod.fst).Nodup)
    (names : Finmap fun _ : String => String) (key : String) :
    (map.foldl addName names).lookup key =
      (nameAt map key).or (names.lookup key) := by
  induction map generalizing names with
  | nil =>
      rfl
  | cons member map ih =>
      obtain ⟨k, v⟩ := member
      rw [List.map_cons, List.nodup_cons] at hkeys
      rw [List.foldl_cons, ih hkeys.2]
      by_cases hk : key = k
      · subst hk
        have hnone : find map key = none :=
          lookup_eq_none_of_notMem hkeys.1
        have hself : find ((key, v) :: map) key = some v :=
          lookup_cons_self key v map
        cases v with
        | string s =>
            simp [nameAt, addName, hnone, hself]
        | _ =>
            simp [nameAt, addName, hnone, hself]
      · have hrest : find ((k, v) :: map) key = find map key :=
          lookup_cons_of_ne hk v map
        cases v with
        | string s =>
            simp [nameAt, addName, hrest, Finmap.lookup_insert_of_ne _ hk]
        | _ =>
            simp [nameAt, addName, hrest]

theorem lookup_namesOf
    {map : Members} (hkeys : (map.map Prod.fst).Nodup) (key : String) :
    (namesOf map).lookup key = nameAt map key := by
  rw [namesOf_eq, lookup_foldl_addName hkeys, Finmap.lookup_empty,
    Option.or_none]

/-- The order of a name map does not matter. -/
theorem namesOf_of_sameMembers
    {map map' : Members}
    (h : SameMembers (.object map) (.object map')) :
    namesOf map' = namesOf map := by
  generalize hv : Json.object map = v at h
  generalize hw : Json.object map' = w at h
  cases h with
  | refl =>
      rw [← hv] at hw
      rw [Json.object.inj hw]
  | object hms hns hrel =>
      obtain rfl := Json.object.inj hv
      obtain rfl := Json.object.inj hw
      refine Finmap.ext_lookup fun key => ?_
      rw [lookup_namesOf hms, lookup_namesOf hns, nameAt, nameAt]
      have hkey := hrel key
      revert hkey
      generalize find map key = a
      generalize find map' key = b
      intro hkey
      cases hkey with
      | none =>
          rfl
      | some hsame =>
          cases hsame with
          | refl =>
              rfl
          | object =>
              rfl

theorem namesOf_map_string (map : List (String × String)) :
    namesOf (map.map fun e => (e.1, .string e.2)) = dictOf map := by
  rw [namesOf, List.foldl_map]
  rfl

/-! ### Publications -/

theorem handleMessage_of_kind
    {msg : Members} {m : String}
    (hm : find msg "m" = some (.string m)) (store : MarketStore) :
    handleMessage msg store =
      if m = "quotes" then handleQuotes msg store
      else if m = "trades" then handleTrades msg store
      else if m = "history" then handleHistory msg store
      else if m = "products" then
        handleSyms MarketStore.setProducts msg store
      else if m = "universe" then
        handleSyms MarketStore.setUniverse msg store
      else if m = "names" then handleNames msg store
      else if m = "poll" then handlePoll store
      else (.ok none, store) := by
  simp only [handleMessage, valueString, hm, getString]

theorem handleSyms_encoded
    (set : MarketStore → List String → MarketStore)
    {msg : Members} {ids : List String}
    (hsyms : find msg "syms" = some (.array (ids.map .string)))
    (store : MarketStore) :
    handleSyms set msg store = (.ok none, set store ids) := by
  simp only [handleSyms, arrayAt, hsyms, strings_map_string]

theorem handleHistory_encoded
    {msg : Members} {symbol : String} {points : List (ℚ × Int)}
    (hsym : find msg "sym" = some (.string symbol))
    (hrows : find msg "rows" = some (.array (points.map fun p =>
      .array [.numberFloat p.1, FeedPublisher.jsonInt p.2])))
    (store : MarketStore) :
    handleHistory msg store =
      (.ok none, store.backfillHistory symbol (points.map fun p =>
        { tsNs := asTimestampNs p.2, price := p.1 })) := by
  have hloop := forRows_encoded (fun _ => le_refl 2)
    pointOf_cells pushPoint points []
  simp only [handleHistory, valueString, hsym, getString, arrayAt, hrows]
  split_ifs with hempty
  · rw [hempty, backfillHistory_empty_symbol]
  · rw [hloop, foldl_pushPoint]
    rfl

/-- A publication, its members in any order, is handled as the calls it
stands for. -/
theorem handleParsed_publication
    (p : Publication) {w : Json} (h : SameMembers p.msg w)
    (store : MarketStore) :
    handleParsed (some w) store =
      (.ok none, p.received.foldl applyCall store) := by
  cases p with
  | trades rows =>
      obtain ⟨ns, rfl, hns⟩ := h.exists_members
      have hm := hns.find_eq "m" rfl (by simp)
      have hrows := hns.find_eq "rows" rfl (by simp)
      have hloop := handleRows_encoded (fun _ => le_refl 3)
        tradeOf_cells onTradeRow hrows store
      rw [handleParsed, handleMessage_of_kind hm]
      simp only [String.reduceEq, if_false, if_true, handleTrades, hloop,
        Publication.received, Publication.callsWith, List.foldl_map,
        onTradeRow, applyCall]
  | history symbol points =>
      obtain ⟨ns, rfl, hns⟩ := h.exists_members
      have hm := hns.find_eq "m" rfl (by simp)
      have hsym := hns.find_eq "sym" rfl (by simp)
      have hrows := hns.find_eq "rows" rfl (by simp)
      rw [handleParsed, handleMessage_of_kind hm]
      simp only [String.reduceEq, if_false, if_true,
        handleHistory_encoded hsym hrows]
      rfl
  | quotes rows =>
      obtain ⟨ns, rfl, hns⟩ := h.exists_members
      have hm := hns.find_eq "m" rfl (by simp)
      have hrows := hns.find_eq "rows" rfl (by simp)
      have hloop := handleRows_encoded (fun _ => le_refl 6)
        quoteOf_cells MarketStore.onQuote hrows store
      rw [handleParsed, handleMessage_of_kind hm]
      simp only [if_true, handleQuotes, hloop,
        Publication.received, Publication.callsWith, List.foldl_map,
        applyCall]
  | products ids =>
      obtain ⟨ns, rfl, hns⟩ := h.exists_members
      have hm := hns.find_eq "m" rfl (by simp)
      have hsyms := hns.find_eq "syms" rfl (by simp)
      rw [handleParsed, handleMessage_of_kind hm]
      simp only [String.reduceEq, if_false, if_true,
        handleSyms_encoded MarketStore.setProducts hsyms]
      rfl
  | universeSyms ids =>
      obtain ⟨ns, rfl, hns⟩ := h.exists_members
      have hm := hns.find_eq "m" rfl (by simp)
      have hsyms := hns.find_eq "syms" rfl (by simp)
      rw [handleParsed, handleMessage_of_kind hm]
      simp only [String.reduceEq, if_false, if_true,
        handleSyms_encoded MarketStore.setUniverse hsyms]
      rfl
  | names map =>
      obtain ⟨ns, rfl, hns⟩ := h.exists_members
      have hm := hns.find_eq "m" rfl (by simp)
      obtain ⟨v, hmap, hsame⟩ := hns "map" _ rfl
      obtain ⟨map', rfl, _⟩ := hsame.exists_members
      rw [handleParsed, handleMessage_of_kind hm]
      simp only [String.reduceEq, if_false, if_true, handleNames, hmap,
        namesOf_of_sameMembers hsame, namesOf_map_string]
      rfl

/-! ### Lines -/

end FeedServer

/-- The parser undoes the dump of this message, which is one line. -/
structure ReadsBack (parse : List UInt8 → Option Json)
    (dump : Json → List UInt8) (msg : Json) : Prop where
  nonempty : dump msg ≠ []
  noNewline : 10 ∉ dump msg
  parsed : ∃ v, parse (dump msg) = some v ∧ SameMembers msg v

namespace FeedServer

variable {parse : List UInt8 → Option Json}
variable {dumps : Json → List UInt8}

theorem handleLine_publication
    {p : Publication} (h : ReadsBack parse dumps p.msg)
    (store : MarketStore) :
    handleLine parse (dumps p.msg) store =
      (.ok none, p.received.foldl applyCall store) := by
  obtain ⟨w, hparse, hsame⟩ := h.parsed
  rw [handleLine, if_neg h.nonempty, hparse]
  exact handleParsed_publication p hsame store

/-- A poll is answered with the drained lists. -/
theorem handleLine_poll
    (h : ReadsBack parse dumps FeedPublisher.pollMsg)
    (store : MarketStore) :
    handleLine parse (dumps FeedPublisher.pollMsg) store =
      (.ok (some (requestedReply store.requested store.historyRequests)),
        { store with requested := [], historyRequests := [] }) := by
  obtain ⟨w, hparse, hsame⟩ := h.parsed
  obtain ⟨ns, rfl, hns⟩ := hsame.exists_members
  have hm := hns.find_eq "m" rfl (by simp)
  rw [handleLine, if_neg h.nonempty, hparse, handleParsed,
    handleMessage_of_kind hm]
  simp only [String.reduceEq, if_false, if_true]
  rfl

/-- The lines of some publications make the calls of all of them. -/
theorem handleLines_publications
    {ps : List Publication}
    (h : ∀ p ∈ ps, ReadsBack parse dumps p.msg)
    (store : MarketStore) :
    handleLines parse (ps.map fun p => dumps p.msg) store =
      (.ok [], (ps.flatMap Publication.received).foldl applyCall
        store) := by
  induction ps generalizing store with
  | nil =>
      rfl
  | cons p ps ih =>
      have hp := h p List.mem_cons_self
      have hps := ih fun q hq => h q (List.mem_cons_of_mem p hq)
      rw [List.map_cons, handleLines, handleLine_publication hp]
      simp only [Prod.map, id, Served.andThen, hps, List.flatMap_cons,
        List.foldl_append]
      rfl

theorem andThen_assoc
    (r : Served) (f g : MarketStore → Served) :
    (r.andThen f).andThen g = r.andThen fun store => (f store).andThen g := by
  obtain ⟨e | now, store⟩ := r
  · rfl
  · dsimp only [Served.andThen]
    obtain ⟨e | later, store'⟩ := f store
    · rfl
    · dsimp only [Except.map]
      obtain ⟨e | last, store''⟩ := g store'
      · rfl
      · simp

theorem nil_andThen (store : MarketStore) (f : MarketStore → Served) :
    Served.andThen (.ok [], store) f = f store := by
  simp only [Served.andThen, List.nil_append]
  obtain ⟨e | later, store'⟩ := f store
  · rfl
  · rfl

theorem handleLines_append
    (lines lines' : List (List UInt8)) (store : MarketStore) :
    handleLines parse (lines ++ lines') store =
      (handleLines parse lines store).andThen
        (handleLines parse lines') := by
  induction lines generalizing store with
  | nil =>
      rw [List.nil_append, handleLines, nil_andThen]
  | cons line lines ih =>
      rw [List.cons_append, handleLines, handleLines, andThen_assoc]
      congr 1
      funext store'
      exact ih store'

/-- The thread handles the lines of the stream, whatever its chunks are. -/
theorem serve_eq
    (buf : List UInt8) (chunks : List (List UInt8)) (store : MarketStore) :
    serve parse buf chunks store =
      handleLines parse (feed 10 buf chunks).1 store := by
  induction chunks generalizing buf store with
  | nil =>
      rfl
  | cons chunk chunks ih =>
      have hrest : serve parse (frames 10 (buf ++ chunk)).2 chunks =
          handleLines parse
            (feed 10 (frames 10 (buf ++ chunk)).2 chunks).1 := by
        funext store'
        exact ih _ store'
      rw [feed, handleLines_append, ← hrest]
      rfl

/-- **The publications on a stream make their calls, in order.** -/
theorem serve_publications
    {ps : List Publication} {chunks : List (List UInt8)}
    (h : ∀ p ∈ ps, ReadsBack parse dumps p.msg)
    (hchunks : chunks.flatten =
      join 10 (ps.map fun p => dumps p.msg))
    (store : MarketStore) :
    serve parse [] chunks store =
      (.ok [], (ps.flatMap Publication.received).foldl applyCall
        store) := by
  have hlines : ∀ line ∈ ps.map fun p => dumps p.msg, 10 ∉ line := by
    intro line hline
    obtain ⟨p, hp, rfl⟩ := List.mem_map.mp hline
    exact (h p hp).noNewline
  rw [serve_eq, feed_eq_of_join 10 hlines hchunks]
  exact handleLines_publications h store

end FeedServer

/-! ### From the feedhandler's side -/

/-- The publish path of a publication. -/
def Publication.publish : Publication → Session → Outcome Unit
  | .trades rows => FeedPublisher.publishTrades rows
  | .history symbol points => FeedPublisher.publishHistory symbol points
  | .quotes rows => FeedPublisher.publishQuotes rows
  | .products ids => FeedPublisher.setProducts ids
  | .universeSyms ids => FeedPublisher.setUniverse ids
  | .names map => FeedPublisher.setNames map

/-- The messages of a publication; an empty batch is not sent. -/
def Publication.msgs (p : Publication) : List Json :=
  match p with
  | .trades [] => []
  | .history _ [] => []
  | .quotes [] => []
  | p => [p.msg]

/-- The publisher is attached, and no write of the call fails. -/
structure Steady (s : Session) : Prop where
  attached : s.pub.attached = true
  sends : ∀ b ∈ s.net.sends, b = true

/-- What a call on a steady session leaves behind. -/
structure Delivers (s : Session) (msgs : List Json) (s' : Session) :
    Prop where
  steady : Steady s'
  written : s'.net.written = s.net.written ++ msgs
  recvs : s'.net.recvs = s.net.recvs
  rbuf : s'.pub.rbuf = s.pub.rbuf

namespace FeedPublisher

theorem Delivers.nil
    {s : Session} (h : Steady s) :
    Delivers s [] s := by
  exact ⟨h, (List.append_nil _).symm, rfl, rfl⟩

theorem wrote_of_steady
    {s : Session} (h : Steady s) (msg : Json) :
    wrote msg s =
      { s with
        net :=
          { s.net with
            sends := s.net.sends.tail
            written := s.net.written ++ [msg] } } := by
  unfold wrote
  cases hs : s.net.sends with
  | nil =>
      rfl
  | cons b rest =>
      obtain rfl := h.sends b (by simp [hs])
      rfl

theorem send_of_steady
    {s : Session} (h : Steady s) (msg : Json) :
    ∃ s', send msg s = (.ok true, s') ∧ Delivers s [msg] s' := by
  have hconn := connect_of_attached h.attached
  have hsteady : Steady (wrote msg s) := by
    rw [wrote_of_steady h]
    exact ⟨h.attached, fun b hb => h.sends b (List.mem_of_mem_tail hb)⟩
  refine ⟨wrote msg s, ?_, hsteady, ?_, ?_, ?_⟩
  · rw [send, hconn]
    simp only [Outcome.andThen, if_true]
    rw [write_of_attached h.attached, hsteady.attached]
  · rw [wrote_of_steady h]
  · rw [wrote_of_steady h]
  · rw [wrote_of_steady h]

theorem sendOnly_of_steady
    {s : Session} (h : Steady s) (msg : Json) :
    ∃ s', sendOnly msg s = (.ok (), s') ∧ Delivers s [msg] s' := by
  obtain ⟨s', hsend, hdel⟩ := send_of_steady h msg
  exact ⟨s', by rw [sendOnly, hsend]; rfl, hdel⟩

end FeedPublisher

open FeedPublisher in
/-- On a steady session a publication is written as its messages. -/
theorem publish_of_steady
    (p : Publication) {s : Session} (h : Steady s) :
    ∃ s', p.publish s = (.ok (), s') ∧ Delivers s p.msgs s' := by
  cases p with
  | trades rows =>
      cases rows with
      | nil =>
          exact ⟨s, rfl, Delivers.nil h⟩
      | cons t rows =>
          exact sendOnly_of_steady h _
  | history symbol points =>
      cases points with
      | nil =>
          exact ⟨s, rfl, Delivers.nil h⟩
      | cons p points =>
          exact sendOnly_of_steady h _
  | quotes rows =>
      cases rows with
      | nil =>
          exact ⟨s, rfl, Delivers.nil h⟩
      | cons q rows =>
          have hs : Steady { s with pub := s.pub.cacheQuotes (q :: rows) } :=
            ⟨h.attached, h.sends⟩
          obtain ⟨s', hsend, hdel⟩ :=
            sendOnly_of_steady hs (quotesMsg (q :: rows))
          exact ⟨s', hsend, hdel.steady, hdel.written, hdel.recvs,
            hdel.rbuf⟩
  | products ids =>
      have hs : Steady { s with
          pub := { s.pub with lastProducts := ids } } :=
        ⟨h.attached, h.sends⟩
      obtain ⟨s', hsend, hdel⟩ := sendOnly_of_steady hs (productsMsg ids)
      exact ⟨s', hsend, hdel.steady, hdel.written, hdel.recvs, hdel.rbuf⟩
  | universeSyms ids =>
      have hs : Steady { s with
          pub := { s.pub with lastUniverse := ids } } :=
        ⟨h.attached, h.sends⟩
      obtain ⟨s', hsend, hdel⟩ := sendOnly_of_steady hs (universeMsg ids)
      exact ⟨s', hsend, hdel.steady, hdel.written, hdel.recvs, hdel.rbuf⟩
  | names map =>
      have hs : Steady { s with
          pub := { s.pub with lastNames := map } } :=
        ⟨h.attached, h.sends⟩
      obtain ⟨s', hsend, hdel⟩ := sendOnly_of_steady hs (namesMsg map)
      exact ⟨s', hsend, hdel.steady, hdel.written, hdel.recvs, hdel.rbuf⟩

/-! ### Replies -/

namespace FeedPublisher

theorem splitLine_line
    {line : List UInt8} (h : 10 ∉ line) (rest : List UInt8) :
    splitLine (line ++ 10 :: rest) = some (line, rest) := by
  have hall : ∀ b ∈ line, decide (b ≠ 10) = true := by
    intro b hb
    simp only [ne_eq, decide_eq_true_eq]
    rintro rfl
    exact h hb
  have htake : (line ++ 10 :: rest).takeWhile (· ≠ 10) = line := by
    rw [List.takeWhile_append_of_pos hall]
    simp
  have hdrop : (line ++ 10 :: rest).dropWhile (· ≠ 10) = 10 :: rest := by
    rw [List.dropWhile_append_of_pos hall]
    simp
  rw [splitLine, if_pos (by simp), htake, hdrop]
  rfl

theorem splitLine_of_notMem
    {rbuf : List UInt8} (h : 10 ∉ rbuf) :
    splitLine rbuf = none := by
  rw [splitLine, if_neg h]

theorem recvLine_of_split
    {rbuf line rest : List UInt8}
    (h : splitLine rbuf = some (line, rest)) (recvs : List Recv) :
    recvLine rbuf recvs = .line line rest := by
  unfold recvLine
  simp only [h]

theorem recvLine_chunk
    {rbuf : List UInt8} (h : splitLine rbuf = none)
    (b : UInt8) (bytes : List UInt8) (recvs : List Recv) :
    recvLine rbuf (.chunk (b :: bytes) :: recvs) =
      recvLine (rbuf ++ b :: bytes) recvs := by
  conv_lhs => unfold recvLine
  rw [h]

/-- The reply is read whatever the chunks are that it arrives in. -/
theorem recvLine_of_flatten
    {line : List UInt8} (hline : 10 ∉ line)
    {chunks : List (List UInt8)} (hchunks : [] ∉ chunks)
    {rbuf : List UInt8} (h : rbuf ++ chunks.flatten = line ++ [10]) :
    recvLine rbuf (chunks.map .chunk) = .line line [] := by
  induction chunks generalizing rbuf with
  | nil =>
      rw [List.flatten_nil, List.append_nil] at h
      have hsplit := splitLine_line hline []
      rw [← h] at hsplit
      exact recvLine_of_split hsplit []
  | cons chunk chunks ih =>
      obtain ⟨hne, hrest⟩ := not_or.mp (List.mem_cons.not.mp hchunks)
      cases chunk with
      | nil =>
          exact absurd rfl hne
      | cons b bytes =>
          have hrbuf : 10 ∉ rbuf := by
            intro hmem
            have hdrop := congrArg List.dropLast h
            rw [List.dropLast_concat,
              List.dropLast_append_of_ne_nil (by simp)] at hdrop
            exact hline (hdrop ▸ List.mem_append_left _ hmem)
          have hsplit := splitLine_of_notMem hrbuf
          rw [List.map_cons, recvLine_chunk hsplit]
          refine ih hrest ?_
          simpa using h

theorem strings_array_string (str : Json → String) (ids : List String) :
    strings str (.array (ids.map .string)) = .ok ids := by
  rw [strings, List.map_map]
  exact congrArg Except.ok (List.map_id ids)

theorem stringsAt_encoded
    (str : Json → String) {members : List (String × Json)} {key : String}
    {ids : List String}
    (h : find members key = some (.array (ids.map .string))) :
    stringsAt str members key = .ok ids := by
  simp only [stringsAt, h, strings_array_string]

/-- The reply, its members in any order, gives the two lists. -/
theorem repliedLists_requestedReply
    (str : Json → String) {syms hist : List String} {v : Json}
    (h : SameMembers (FeedServer.requestedReply syms hist) v) :
    repliedLists str (some v) = .ok (syms, hist) := by
  obtain ⟨ns, rfl, hns⟩ := h.exists_members
  have hm := hns.find_eq "m" rfl (by simp)
  have hsyms := hns.find_eq "syms" rfl (by simp)
  have hhist := hns.find_eq "hist" rfl (by simp)
  simp only [repliedLists, hm, stringsAt_encoded str hsyms,
    stringsAt_encoded str hhist]
  rfl

/-- A poll returns the lists of the reply that comes in for it. -/
theorem queryRequested_reply
    {py : PyJson} {dump : Json → List UInt8} {syms hist : List String}
    {s : Session} {chunks : List (List UInt8)}
    (hs : Steady s) (hrbuf : s.pub.rbuf = [])
    (hread :
      ReadsBack py.loads dump (FeedServer.requestedReply syms hist))
    (hrecvs : s.net.recvs = chunks.map .chunk) (hchunks : [] ∉ chunks)
    (hreply : chunks.flatten =
      dump (FeedServer.requestedReply syms hist) ++ [10]) :
    ∃ s', queryRequested py s = (.ok (syms, hist), s') ∧
      s'.net.written = s.net.written ++ [pollMsg] ∧ s'.pub.rbuf = [] := by
  obtain ⟨s₁, hsend, hdel⟩ := send_of_steady hs pollMsg
  obtain ⟨v, hloads, hsame⟩ := hread.parsed
  have hline : recvLine s₁.pub.rbuf s₁.net.recvs =
      .line (dump (FeedServer.requestedReply syms hist)) [] := by
    rw [hdel.rbuf, hrbuf, hdel.recvs, hrecvs]
    exact recvLine_of_flatten hread.noNewline hchunks hreply
  have hno : ¬ s₁.pub.attached = false := by
    simp [hdel.steady.attached]
  refine ⟨{ s₁ with pub := { s₁.pub with rbuf := [] } }, ?_,
    hdel.written, rfl⟩
  rw [queryRequested, hsend]
  simp only [Outcome.andThen, Bool.true_eq_false, if_false, if_neg hno,
    hline, decodeReply, hloads, repliedLists_requestedReply py.str hsame]

end FeedPublisher

/-! ### The protocol -/

section RoundTrip

open FeedServer FeedPublisher

variable {parse : List UInt8 → Option Json} {py : PyJson}
variable {dumps dump : Json → List UInt8}

/-- What is written for a publication makes the calls that it stands for. -/
theorem handleLines_msgs
    {p : Publication} (h : ∀ m ∈ p.msgs, ReadsBack parse dumps m)
    (store : MarketStore) :
    handleLines parse (p.msgs.map dumps) store =
      (.ok [], p.received.foldl applyCall store) := by
  have hone : p.msgs = [p.msg] →
      handleLines parse (p.msgs.map dumps) store =
        (.ok [], p.received.foldl applyCall store) := by
    intro hmsgs
    have hp : ReadsBack parse dumps p.msg := h p.msg (by simp [hmsgs])
    have hall : ∀ q ∈ [p], ReadsBack parse dumps q.msg := by
      simpa using hp
    have hlines := handleLines_publications hall store
    rw [hmsgs]
    simpa using hlines
  cases p with
  | trades rows =>
      cases rows with
      | nil =>
          rfl
      | cons t rows =>
          exact hone rfl
  | history symbol points =>
      cases points with
      | nil =>
          have hcall : store.backfillHistory symbol [] = store := by
            simp [MarketStore.backfillHistory]
          simp [Publication.msgs, handleLines, Publication.received,
            Publication.callsWith, applyCall, hcall]
      | cons p points =>
          exact hone rfl
  | quotes rows =>
      cases rows with
      | nil =>
          rfl
      | cons q rows =>
          exact hone rfl
  | products ids =>
      exact hone rfl
  | universeSyms ids =>
      exact hone rfl
  | names map =>
      exact hone rfl

/-- **The reading halves recover what the writing halves were given**: a
publication, for time stamps that fit 64 bits, and the two lists that a poll
drains. -/
theorem feed_round_trip
    {p : Publication} {s q : Session} {store : MarketStore}
    {chunks : List (List UInt8)}
    (hs : Steady s)
    (hfeed : ∀ m ∈ p.msgs, ReadsBack parse dumps m)
    (hfits : ∀ n ∈ p.timestamps, FitsInt64 n)
    (hpoll : ReadsBack parse dumps pollMsg)
    (hreply : ReadsBack py.loads dump
      (requestedReply store.requested store.historyRequests))
    (hq : Steady q) (hrbuf : q.pub.rbuf = [])
    (hrecvs : q.net.recvs = chunks.map .chunk) (hchunks : [] ∉ chunks)
    (harrives : chunks.flatten =
      dump (requestedReply store.requested store.historyRequests) ++
        [10]) :
    (∃ s', p.publish s = (.ok (), s') ∧
        s'.net.written = s.net.written ++ p.msgs) ∧
      handleLines parse (p.msgs.map dumps) store =
        (.ok [], p.calls.foldl applyCall store) ∧
      handleLine parse (dumps pollMsg) store =
        (.ok (some
            (requestedReply store.requested store.historyRequests)),
          { store with requested := [], historyRequests := [] }) ∧
      ∃ q', queryRequested py q =
          (.ok (store.requested, store.historyRequests), q') ∧
        q'.net.written = q.net.written ++ [pollMsg] := by
  obtain ⟨s', hpub, hdel⟩ := publish_of_steady p hs
  obtain ⟨q', hquery, hwritten, _⟩ :=
    queryRequested_reply hq hrbuf hreply hrecvs hchunks harrives
  refine ⟨⟨s', hpub, hdel.written⟩, ?_, handleLine_poll hpoll store,
    q', hquery, hwritten⟩
  rw [handleLines_msgs hfeed, received_eq_calls hfits]

end RoundTrip

/-! ### Texts of the protocol -/

section Texts

open FeedServer FeedPublisher

/-- `{"m":"poll"}` -/
def pollText : List UInt8 :=
  [123, 34, 109, 34, 58, 34, 112, 111, 108, 108, 34, 125]

/-- `{"m":"trades","rows":[["X",2.0,1700]]}` -/
def tradesText : List UInt8 :=
  [123, 34, 109, 34, 58, 34, 116, 114, 97, 100, 101, 115, 34, 44, 34, 114,
    111, 119, 115, 34, 58, 91, 91, 34, 88, 34, 44, 50, 46, 48, 44, 49, 55,
    48, 48, 93, 93, 125]

/-- `{"hist":["X"],"m":"requested","syms":["X","Y"]}` -/
def replyText : List UInt8 :=
  [123, 34, 104, 105, 115, 116, 34, 58, 91, 34, 88, 34, 93, 44, 34, 109,
    34, 58, 34, 114, 101, 113, 117, 101, 115, 116, 101, 100, 34, 44, 34,
    115, 121, 109, 115, 34, 58, 91, 34, 88, 34, 44, 34, 89, 34, 93, 125]

def tradesX : Publication :=
  .trades [{ symbol := "X", price := 2, eventTimeNs := 1700 }]

/-- A dump of the messages that have a text here. -/
def dumpText (v : Json) : List UInt8 :=
  if isPoll v then pollText else tradesText

def parseText (line : List UInt8) : Option Json :=
  if line = pollText then some pollMsg
  else if line = tradesText then some tradesX.msg
  else none

def replyPy : PyJson where
  loads := fun line =>
    if line = replyText then some (requestedReply ["X", "Y"] ["X"])
    else none
  str := fun _ => ""

theorem readsBack_poll : ReadsBack parseText dumpText pollMsg :=
  ⟨by decide, by decide, pollMsg, rfl, .refl _⟩

theorem readsBack_trades : ReadsBack parseText dumpText tradesX.msg :=
  ⟨by decide, by decide, tradesX.msg, rfl, .refl _⟩

theorem readsBack_reply :
    ReadsBack replyPy.loads (fun _ => replyText)
      (requestedReply ["X", "Y"] ["X"]) :=
  ⟨by decide, by decide, _, rfl, .refl _⟩

/-- A trade is published, and the reply to a poll comes in two chunks. -/
theorem feed_round_trip_texts :
    (∃ s', tradesX.publish
          { pub := { attached := true } } = (.ok (), s') ∧
        s'.net.written = [] ++ tradesX.msgs) ∧
      handleLines parseText (tradesX.msgs.map dumpText)
          { requested := ["X", "Y"], historyRequests := ["X"] } =
        (.ok [], tradesX.calls.foldl applyCall
          { requested := ["X", "Y"], historyRequests := ["X"] }) ∧
      handleLine parseText (dumpText pollMsg)
          { requested := ["X", "Y"], historyRequests := ["X"] } =
        (.ok (some (requestedReply ["X", "Y"] ["X"])), {}) ∧
      ∃ q', queryRequested replyPy
          { pub := { attached := true }
            net :=
              { recvs :=
                  [.chunk (replyText.take 9),
                    .chunk (replyText.drop 9 ++ [10])] } } =
          (.ok (["X", "Y"], ["X"]), q') ∧
        q'.net.written = [] ++ [pollMsg] := by
  have hsteady : ∀ net : Net, net.sends = [] →
      Steady { pub := { attached := true }, net := net } := by
    intro net hnet
    exact ⟨rfl, by simp [hnet]⟩
  have hmsgs : ∀ m ∈ tradesX.msgs, ReadsBack parseText dumpText m := by
    intro m hm
    rw [List.mem_singleton.mp hm]
    exact readsBack_trades
  have hchunks : [] ∉ [replyText.take 9, replyText.drop 9 ++ [10]] := by
    decide
  have harrives :
      [replyText.take 9, replyText.drop 9 ++ [10]].flatten =
        (fun _ => replyText) (requestedReply ["X", "Y"] ["X"]) ++
          [10] := by
    decide
  exact feed_round_trip (hsteady {} rfl) hmsgs (by decide) readsBack_poll
    readsBack_reply (hsteady _ rfl) rfl rfl hchunks harrives

/-- A trade that is stamped with the first number past 64 signed bits. -/
def tradesLate : Publication :=
  .trades [{ symbol := "X", price := 2, eventTimeNs := 2 ^ 63 }]

/-- `{"m":"trades","rows":[["X",2.0,9223372036854775808]]}` -/
def lateText : List UInt8 :=
  [123, 34, 109, 34, 58, 34, 116, 114, 97, 100, 101, 115, 34, 44, 34, 114,
    111, 119, 115, 34, 58, 91, 91, 34, 88, 34, 44, 50, 46, 48, 44, 57, 50,
    50, 51, 51, 55, 50, 48, 51, 54, 56, 53, 52, 55, 55, 53, 56, 48, 56, 93,
    93, 125]

def parseLate (line : List UInt8) : Option Json :=
  if line = lateText then some tradesLate.msg else none

/-- The stamp of that trade arrives as a negative one. -/
theorem trade_stamp_wraps :
    ReadsBack parseLate (fun _ => lateText) tradesLate.msg ∧
      handleLines parseLate (tradesLate.msgs.map fun _ => lateText) {} ≠
        (.ok [], tradesLate.calls.foldl applyCall {}) := by
  have hread : ReadsBack parseLate (fun _ => lateText) tradesLate.msg :=
    ⟨by decide, by decide, tradesLate.msg, rfl, .refl _⟩
  refine ⟨hread, ?_⟩
  have hmsgs : ∀ m ∈ tradesLate.msgs,
      ReadsBack parseLate (fun _ => lateText) m := by
    intro m hm
    rw [List.mem_singleton.mp hm]
    exact hread
  rw [handleLines_msgs hmsgs]
  intro h
  have hhist := congrArg (fun r : Served => r.2.histories.lookup "X") h
  revert hhist
  decide +kernel

end Texts

end ExecutionLayer
