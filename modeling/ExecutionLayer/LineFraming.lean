import ExecutionLayer.Library.StepSystem
import ExecutionLayer.MalformedLines
import ExecutionLayer.WireFormat

/-!
# Lines and chunks

`FeedServer::serve` appends what it receives to a buffer, scans the buffer
for newlines from an offset that it moves, hands every line to `handle_line`
and erases what it has scanned.  Here the loop is written as it stands, and
`Reading` records the calls that it makes.

The calls depend on the stream alone, and `serve` is this loop without its
buffer (`serve_eq_received`).  They are the lines of the stream exactly when
no line lets an exception escape from `handle_line`: such a line ends the
loop, and the process with it (`framing_iff`).  The `send` of a reply is taken
to return, as in `FeedServer`.
-/

namespace ExecutionLayer

open Framing JsonLib StepSystem

namespace FeedServer

def newline : UInt8 := 10

/-- The calls of `handle_line`, what they sent and left, and the exception
that escaped from the last one. -/
structure Reading where
  calls : List (List UInt8) := []
  replies : List Json := []
  store : MarketStore := {}
  raised : Option TypeError := none

section Loop

variable (parse : List UInt8 → Option Json)

/-- One call of `handle_line`.  After an exception there is none. -/
def Reading.handle (r : Reading) (line : List UInt8) : Reading :=
  if r.raised.isSome then r
  else
    match handleLine parse line r.store with
    | (.ok reply, store) =>
        { r with
          calls := r.calls ++ [line]
          replies := r.replies ++ reply.toList
          store := store }
    | (.error e, store) =>
        { r with
          calls := r.calls ++ [line]
          store := store
          raised := some e }

/-- The loop over the newlines of the buffer, and the offset it ends at. -/
def scanLines (buf : List UInt8) (start : Nat) (r : Reading) :
    Reading × Nat :=
  match h : findFrom newline buf start with
  | none => (r, start)
  | some nl =>
      let r' := r.handle parse (slice buf start (nl - start))
      if r'.raised.isSome then (r', start) else scanLines buf (nl + 1) r'
termination_by buf.length - start
decreasing_by
  have hbounds := findFrom_bounds newline h
  omega

/-- The buffer of `serve`, and what it has read. -/
structure Connection where
  buf : List UInt8 := []
  read : Reading

/-- A chunk arrives.  An exception leaves the buffer as it is. -/
def Connection.receive (c : Connection) (chunk : List UInt8) : Connection :=
  if c.read.raised.isSome then c
  else
    let buf := c.buf ++ chunk
    let (r, start) := scanLines parse buf 0 c.read
    { buf := if r.raised.isSome then buf else buf.drop start
      read := r }

/-- The connection after the chunks that have arrived on it. -/
def received (store : MarketStore) (chunks : List (List UInt8)) :
    Connection :=
  run (Connection.receive parse) { read := { store := store } } chunks

end Loop

section Facts

variable {parse : List UInt8 → Option Json} {r : Reading}

theorem Reading.handle_raised
    (h : r.raised.isSome) (line : List UInt8) :
    r.handle parse line = r := by
  rw [handle, if_pos h]

/-- An exception ends the calls. -/
theorem Reading.run_raised
    (h : r.raised.isSome) (lines : List (List UInt8)) :
    run (handle parse) r lines = r := by
  induction lines with
  | nil =>
      rfl
  | cons line lines ih =>
      rw [run_cons, handle_raised h, ih]

/-- A call that returns. -/
theorem Reading.handle_ok
    (h : r.raised = none) {line : List UInt8} {reply : Option Json}
    {store : MarketStore}
    (hline : handleLine parse line r.store = (.ok reply, store)) :
    r.handle parse line =
      { calls := r.calls ++ [line]
        replies := r.replies ++ reply.toList
        store := store } := by
  rw [handle, h, hline]
  rfl

/-- A call that an exception escapes from. -/
theorem Reading.handle_error
    (h : r.raised = none) {line : List UInt8} {e : TypeError}
    {store : MarketStore}
    (hline : handleLine parse line r.store = (.error e, store)) :
    r.handle parse line =
      { calls := r.calls ++ [line]
        replies := r.replies
        store := store
        raised := some e } := by
  rw [handle, h, hline]
  rfl

/-- The accessors of a line decide which of the two it is. -/
theorem Reading.handle_cases
    (h : r.raised = none) (line : List UInt8) :
    (AccessibleLine parse line ∧
        (r.handle parse line).raised = none ∧
        (r.handle parse line).calls = r.calls ++ [line]) ∨
      (¬ AccessibleLine parse line ∧
        (r.handle parse line).raised.isSome) := by
  rcases hres : handleLine parse line r.store with ⟨res, store⟩
  rcases settled_line parse line r.store with ⟨hline, heq⟩ | ⟨hline, e, he⟩
  · obtain ⟨reply, hreply⟩ := intendedLine_ok parse line r.store
    rw [← heq, hres] at hreply
    obtain rfl : res = .ok reply := hreply
    rw [handle_ok h hres]
    exact Or.inl ⟨hline, rfl, rfl⟩
  · rw [hres] at he
    obtain rfl : res = .error e := he
    rw [handle_error h hres]
    exact Or.inr ⟨hline, rfl⟩

variable (parse) in
/-- All lines are called, unless one lets an exception escape. -/
theorem Reading.run_handle
    (h : r.raised = none) (lines : List (List UInt8)) :
    ((∀ line ∈ lines, AccessibleLine parse line) ∧
        (run (handle parse) r lines).raised = none ∧
        (run (handle parse) r lines).calls = r.calls ++ lines) ∨
      ((¬ ∀ line ∈ lines, AccessibleLine parse line) ∧
        (run (handle parse) r lines).raised.isSome) := by
  induction lines generalizing r with
  | nil =>
      refine Or.inl ⟨fun _ hline => absurd hline List.not_mem_nil, h, ?_⟩
      rw [run_nil, List.append_nil]
  | cons line lines ih =>
      rw [List.forall_mem_cons, run_cons]
      rcases handle_cases h line with
        ⟨hline, hnone, hcalls⟩ | ⟨hline, hraised⟩
      · rcases ih hnone with ⟨hall, hraised, hlater⟩ | ⟨hsome, hraised⟩
        · left
          rw [hcalls, List.append_assoc] at hlater
          exact ⟨⟨hline, hall⟩, hraised, hlater⟩
        · exact Or.inr ⟨fun hall => hsome hall.2, hraised⟩
      · right
        rw [run_raised hraised]
        exact ⟨fun hall => hline hall.1, hraised⟩

theorem scanLines_none
    {buf : List UInt8} {start : Nat}
    (hfind : findFrom newline buf start = none) :
    scanLines parse buf start r = (r, start) := by
  rw [scanLines]
  split
  · rfl
  · rename_i nl hnl
    rw [hfind] at hnl
    cases hnl

theorem scanLines_some
    {buf : List UInt8} {start nl : Nat}
    (hfind : findFrom newline buf start = some nl) :
    scanLines parse buf start r =
      if (r.handle parse (slice buf start (nl - start))).raised.isSome then
        (r.handle parse (slice buf start (nl - start)), start)
      else
        scanLines parse buf (nl + 1)
          (r.handle parse (slice buf start (nl - start))) := by
  rw [scanLines]
  split
  · rename_i hnl
    rw [hfind] at hnl
    cases hnl
  · rename_i nl' hnl
    obtain rfl := Option.some.inj (hfind.symm.trans hnl)
    rfl

variable (parse) in
/-- The scan from an offset calls the lines that end behind it, and ends at
the rest unless an exception ended it. -/
theorem scanLines_eq (buf : List UInt8) (start : Nat) (r : Reading) :
    (scanLines parse buf start r).1 =
        run (Reading.handle parse) r (frames newline (buf.drop start)).1 ∧
      ((scanLines parse buf start r).1.raised = none →
        buf.drop (scanLines parse buf start r).2 =
          (frames newline (buf.drop start)).2) := by
  induction start, r using scanLines.induct parse buf with
  | case1 start r hfind =>
      rw [scanLines_none hfind, findFrom_none newline hfind]
      exact ⟨rfl, fun _ => rfl⟩
  | case2 start r nl hfind r' hraised =>
      rw [scanLines_some hfind, if_pos hraised,
        findFrom_some newline hfind, run_cons,
        Reading.run_raised hraised]
      refine ⟨rfl, fun hnone => ?_⟩
      rw [hnone] at hraised
      cases hraised
  | case3 start r nl hfind r' hraised ih =>
      rw [scanLines_some hfind, if_neg hraised,
        findFrom_some newline hfind, run_cons]
      exact ih

theorem Connection.receive_raised
    {c : Connection} (h : c.read.raised.isSome) (chunk : List UInt8) :
    c.receive parse chunk = c := by
  rw [receive, if_pos h]

theorem Connection.receive_eq
    {c : Connection} (h : ¬ c.read.raised.isSome) (chunk : List UInt8) :
    c.receive parse chunk =
      { buf :=
          if (scanLines parse (c.buf ++ chunk) 0 c.read).1.raised.isSome
          then c.buf ++ chunk
          else (c.buf ++ chunk).drop
            (scanLines parse (c.buf ++ chunk) 0 c.read).2
        read := (scanLines parse (c.buf ++ chunk) 0 c.read).1 } := by
  rw [receive, if_neg h]

/-- What has been read of a stream: its lines.  The rest is in the buffer, or
the line that an exception escaped from still is. -/
structure ReadOf (parse : List UInt8 → Option Json) (store : MarketStore)
    (stream : List UInt8) (c : Connection) : Prop where
  read : c.read = run (Reading.handle parse) { store := store }
    (frames newline stream).1
  rest : c.read.raised = none → c.buf = (frames newline stream).2
  unread : c.read.raised.isSome → newline ∈ c.buf

/-- One chunk extends the stream. -/
theorem ReadOf.receive
    {store : MarketStore} {stream : List UInt8} {c : Connection}
    (h : ReadOf parse store stream c) (chunk : List UInt8) :
    ReadOf parse store (stream ++ chunk) (c.receive parse chunk) := by
  have hframes := frames_append newline stream chunk
  by_cases hraised : c.read.raised.isSome
  · rw [c.receive_raised hraised]
    refine ⟨?_, fun hnone => ?_, h.unread⟩
    · rw [hframes, run_append, ← h.read, Reading.run_raised hraised]
    · rw [hnone] at hraised
      cases hraised
  · have hnone : c.read.raised = none := by
      simpa using hraised
    have hscan := scanLines_eq parse (c.buf ++ chunk) 0 c.read
    rw [c.receive_eq hraised]
    generalize scanLines parse (c.buf ++ chunk) 0 c.read = res at hscan ⊢
    obtain ⟨hread, hrest⟩ := hscan
    rw [List.drop_zero] at hread hrest
    rw [← h.rest hnone] at hframes
    refine ⟨?_, fun hok => ?_, fun hsome => ?_⟩
    · rw [hframes, run_append, ← h.read]
      exact hread
    · have hno : ¬ res.1.raised.isSome := by
        simpa using hok
      rw [hframes]
      exact (if_neg hno).trans (hrest hok)
    · rw [if_pos hsome]
      -- without a newline there is no call
      by_contra hmem
      rw [frames_of_notMem newline hmem] at hread
      rw [hread] at hsome
      exact hraised hsome

variable (parse) in
theorem readOf_received
    (store : MarketStore) (chunks : List (List UInt8)) :
    ReadOf parse store chunks.flatten (received parse store chunks) := by
  induction chunks using List.reverseRecOn with
  | nil =>
      exact ⟨rfl, fun _ => rfl, fun hsome => by cases hsome⟩
  | append_singleton chunks chunk ih =>
      have hstep : received parse store (chunks ++ [chunk]) =
          (received parse store chunks).receive parse chunk := by
        rw [received, run_append]
        rfl
      rw [hstep, List.flatten_append, List.flatten_singleton]
      exact ih.receive chunk

/-- What the thread has sent and left. -/
def Reading.outcome (r : Reading) : Served :=
  match r.raised with
  | none => (.ok r.replies, r.store)
  | some e => (.error e, r.store)

theorem Reading.outcome_run
    (h : r.raised = none) (lines : List (List UInt8)) :
    (run (handle parse) r lines).outcome =
      Served.andThen (.ok r.replies, r.store)
        (handleLines parse lines) := by
  induction lines generalizing r with
  | nil =>
      simp only [run_nil, outcome, h, Served.andThen, handleLines,
        Except.map, List.append_nil]
  | cons line lines ih =>
      rw [run_cons]
      rcases hres : handleLine parse line r.store with ⟨res, store⟩
      cases res with
      | error e =>
          rw [handle_error h hres, run_raised (by rfl)]
          simp only [outcome, handleLines, hres, Served.andThen, Prod.map,
            Except.map, id]
      | ok reply =>
          rw [handle_ok h hres, ih rfl]
          simp only [handleLines, hres, Served.andThen, Prod.map,
            Except.map, id]
          cases (handleLines parse lines store).1 with
          | error e =>
              rfl
          | ok later =>
              simp only [List.append_assoc]

/-- The decoder of a connection is the loop. -/
theorem serve_eq_received
    (store : MarketStore) (chunks : List (List UInt8)) :
    serve parse [] chunks store =
      (received parse store chunks).read.outcome := by
  rw [serve_eq, feed_eq_frames 10 [] chunks List.not_mem_nil,
    List.nil_append, (readOf_received parse store chunks).read,
    Reading.outcome_run rfl]
  exact (nil_andThen store _).symm

end Facts

/-- The calls are the lines of the stream, in order and each without its
newline, and the buffer holds what stands behind the last newline. -/
structure Framed (stream : List UInt8) (c : Connection) : Prop where
  stream_eq : stream = join newline c.read.calls ++ c.buf
  lines : ∀ line ∈ c.read.calls, newline ∉ line
  rest : newline ∉ c.buf

theorem framed_iff (stream : List UInt8) (c : Connection) :
    Framed stream c ↔
      frames newline stream = (c.read.calls, c.buf) := by
  rw [frames_eq_iff]
  exact ⟨fun h => ⟨h.stream_eq, h.lines, h.rest⟩,
    fun h => ⟨h.1, h.2.1, h.2.2⟩⟩

/-- **Line framing and packet boundaries.**  The calls, replies and the store
depend on the stream and not on its chunks.  The calls are the lines of the
stream, and the buffer holds the rest, exactly when no line has a value that a
typed accessor of `handle_line` throws on. -/
theorem framing_iff
    (parse : List UInt8 → Option Json) (store : MarketStore)
    (chunks : List (List UInt8)) :
    (Framed chunks.flatten (received parse store chunks) ↔
        ∀ line ∈ (frames newline chunks.flatten).1,
          AccessibleLine parse line) ∧
      ∀ chunks' : List (List UInt8), chunks'.flatten = chunks.flatten →
        (received parse store chunks').read =
          (received parse store chunks).read := by
  have hread := readOf_received parse store chunks
  refine ⟨?_, ?_⟩
  · rw [framed_iff]
    rcases Reading.run_handle parse
        (r := { store := store }) rfl (frames newline chunks.flatten).1 with
      ⟨hall, hnone, hcalls⟩ | ⟨hsome, hraised⟩
    · rw [← hread.read] at hnone hcalls
      refine iff_of_true (Prod.ext ?_ (hread.rest hnone).symm) hall
      exact hcalls.symm
    · rw [← hread.read] at hraised
      refine iff_of_false (fun hframed => ?_) hsome
      have hrest := notMem_frames_rest newline chunks.flatten
      rw [hframed] at hrest
      exact hrest (hread.unread hraised)
  · intro chunks' hsame
    rw [hread.read, (readOf_received parse store chunks').read, hsame]

/-- The message without a kind, and a poll behind it. -/
def numberedThenPoll : List UInt8 :=
  [123, 34, 109, 34, 58, 53, 125, 10,
    123, 34, 109, 34, 58, 34, 112, 111, 108, 108, 34, 125, 10]

/-- The first line throws, and the second one is never handled. -/
theorem poll_behind_numbered_message_unhandled :
    (frames newline numberedThenPoll).1.length = 2 ∧
      (received parseNumberedMessage {} [numberedThenPoll]).read.calls =
        [[123, 34, 109, 34, 58, 53, 125]] ∧
      ¬ Framed [numberedThenPoll].flatten
        (received parseNumberedMessage {} [numberedThenPoll]) := by
  have hcalls :
      (received parseNumberedMessage {} [numberedThenPoll]).read.calls =
        [[123, 34, 109, 34, 58, 53, 125]] := by
    rw [(readOf_received _ {} [numberedThenPoll]).read]
    rfl
  have hlines : (frames newline numberedThenPoll).1.length = 2 := by
    decide
  refine ⟨hlines, hcalls, ?_⟩
  intro h
  have hframes := (framed_iff _ _).mp h
  rw [List.flatten_singleton, hcalls] at hframes
  rw [hframes] at hlines
  exact absurd hlines (by decide)

end FeedServer

end ExecutionLayer
