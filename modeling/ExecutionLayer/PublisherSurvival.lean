import ExecutionLayer.Library.StepSystem
import ExecutionLayer.Publisher

/-!
# The publisher under socket failures

Every write of the publisher may fail.  `_write` catches the `OSError` and
drops the socket, so a failure is harmless wherever the caller looks at the
result.  `connect` does not look at the results of its resync writes: when
one of them fails it returns `True` without a socket, and the write that
`_send` makes next raises on `None`.

`resync_eq` says what a resync does: it writes the cached messages until one
write fails.  From it follows when a call survives: exactly when a connection
that it opens takes all of the cached messages (`publisher_survives_iff`).
-/

namespace ExecutionLayer

open JsonLib JsonLib.Json StepSystem

namespace FeedPublisher

/-! ### One write -/

/-- The session after a write to a socket. -/
def wrote (msg : Json) (s : Session) : Session :=
  match s.net.sends with
  | false :: rest =>
      { pub := s.pub.drop, net := { s.net with sends := rest } }
  | sends =>
      { s with
        net :=
          { s.net with
            sends := sends.tail
            written := s.net.written ++ [msg] } }

/-- With a socket, a write returns whether it went through. -/
theorem write_of_attached
    {s : Session} (h : s.pub.attached = true) (msg : Json) :
    write msg s = (.ok (wrote msg s).pub.attached, wrote msg s) := by
  have hno : ¬ s.pub.attached = false := by simp [h]
  rw [write, if_neg hno, wrote]
  cases s.net.sends with
  | nil =>
      simp [h]
  | cons b rest =>
      cases b with
      | false =>
          rfl
      | true =>
          simp [h]

theorem write_of_detached
    {s : Session} (h : s.pub.attached = false) (msg : Json) :
    write msg s = (.error .attributeError, s) := by
  rw [write, if_pos h]

theorem wrote_attached
    {s : Session} (h : s.pub.attached = true) (msg : Json) :
    (wrote msg s).pub.attached = s.net.sends.headD true := by
  unfold wrote
  cases s.net.sends with
  | nil =>
      exact h
  | cons b rest =>
      cases b with
      | false =>
          rfl
      | true =>
          exact h

theorem wrote_sends (msg : Json) (s : Session) :
    (wrote msg s).net.sends = s.net.sends.tail := by
  unfold wrote
  cases s.net.sends with
  | nil =>
      rfl
  | cons b rest =>
      cases b <;> rfl

/-- What a write never touches. -/
structure SameBut (s s' : Session) : Prop where
  lastProducts : s'.pub.lastProducts = s.pub.lastProducts
  lastUniverse : s'.pub.lastUniverse = s.pub.lastUniverse
  lastQuotes : s'.pub.lastQuotes = s.pub.lastQuotes
  lastNames : s'.pub.lastNames = s.pub.lastNames
  recvs : s'.net.recvs = s.net.recvs
  rbuf : s'.pub.attached = true → s'.pub.rbuf = s.pub.rbuf

theorem SameBut.refl (s : Session) : SameBut s s :=
  ⟨rfl, rfl, rfl, rfl, rfl, fun _ => rfl⟩

theorem wrote_same (msg : Json) (s : Session) :
    SameBut s (wrote msg s) := by
  unfold wrote
  cases s.net.sends with
  | nil =>
      exact ⟨rfl, rfl, rfl, rfl, rfl, fun _ => rfl⟩
  | cons b rest =>
      cases b with
      | false =>
          refine ⟨rfl, rfl, rfl, rfl, rfl, ?_⟩
          intro h
          cases h
      | true =>
          exact ⟨rfl, rfl, rfl, rfl, rfl, fun _ => rfl⟩

/-! ### The resync -/

/-- Write messages until the socket is lost. -/
def writeAll : List Json → Session → Session
  | [], s => s
  | m :: ms, s =>
      if s.pub.attached = true then writeAll ms (wrote m s) else s

theorem writeAll_of_detached
    {s : Session} (h : s.pub.attached = false) (ms : List Json) :
    writeAll ms s = s := by
  cases ms with
  | nil =>
      rfl
  | cons m ms =>
      simp [writeAll, h]

theorem writeAll_append (ms ns : List Json) (s : Session) :
    writeAll (ms ++ ns) s = writeAll ns (writeAll ms s) := by
  induction ms generalizing s with
  | nil =>
      rfl
  | cons m ms ih =>
      by_cases h : s.pub.attached = true
      · simp [writeAll, h, ih]
      · have hd : s.pub.attached = false := by simpa using h
        rw [writeAll_of_detached hd, writeAll_of_detached hd,
          writeAll_of_detached hd]

theorem writeAll_same (ms : List Json) (s : Session) :
    SameBut s (writeAll ms s) := by
  induction ms generalizing s with
  | nil =>
      exact SameBut.refl s
  | cons m ms ih =>
      by_cases h : s.pub.attached = true
      · have hw := wrote_same m s
        have hrest := ih (wrote m s)
        have heq : writeAll (m :: ms) s = writeAll ms (wrote m s) := by
          simp [writeAll, h]
        rw [heq]
        refine ⟨hrest.lastProducts.trans hw.lastProducts,
          hrest.lastUniverse.trans hw.lastUniverse,
          hrest.lastQuotes.trans hw.lastQuotes,
          hrest.lastNames.trans hw.lastNames,
          hrest.recvs.trans hw.recvs, ?_⟩
        intro hatt
        have hmid : (wrote m s).pub.attached = true := by
          by_contra hno
          rw [writeAll_of_detached (by simpa using hno)] at hatt
          exact hno hatt
        exact (hrest.rbuf hatt).trans (hw.rbuf hmid)
      · have hd : s.pub.attached = false := by simpa using h
        rw [writeAll_of_detached hd]
        exact SameBut.refl s

/-- All messages go through exactly when no send of theirs fails. -/
theorem writeAll_attached_iff
    (ms : List Json) {s : Session} (h : s.pub.attached = true) :
    (writeAll ms s).pub.attached = true ↔
      ∀ b ∈ s.net.sends.take ms.length, b = true := by
  induction ms generalizing s with
  | nil =>
      simp [writeAll, h]
  | cons m ms ih =>
      have heq : writeAll (m :: ms) s = writeAll ms (wrote m s) := by
        simp [writeAll, h]
      have hatt := wrote_attached h m
      have hsends := wrote_sends m s
      rw [heq]
      cases hs : s.net.sends with
      | nil =>
          rw [hs] at hatt hsends
          rw [ih hatt, hsends]
          simp
      | cons b rest =>
          rw [hs] at hatt hsends
          cases b with
          | false =>
              have hd : (wrote m s).pub.attached = false := hatt
              rw [writeAll_of_detached hd, hd]
              simp
          | true =>
              rw [ih hatt, hsends]
              simp

/-- A cached message, if there is anything in the cache. -/
def cachedMsg (ready : Bool) (msg : Json) : List Json :=
  if ready then [msg] else []

/-- The messages of a resync, in order. -/
def cachedMsgs (pub : FeedPublisher) : List Json :=
  cachedMsg (!pub.lastProducts.isEmpty) (productsMsg pub.lastProducts) ++
    (cachedMsg (!pub.lastUniverse.isEmpty) (universeMsg pub.lastUniverse) ++
      (cachedMsg (!pub.lastNames.isEmpty) (namesMsg pub.lastNames) ++
        cachedMsg (!pub.lastQuotes.isEmpty)
          (quotesMsg (pub.lastQuotes.map Prod.snd))))

/-- A guarded write of the resync. -/
theorem writeWhen_guarded (ready : Bool) (msg : Json) (s : Session) :
    writeWhen (ready && s.pub.attached) msg s =
      (.ok (), writeAll (cachedMsg ready msg) s) := by
  unfold writeWhen cachedMsg
  cases ready with
  | false =>
      simp [writeAll]
  | true =>
      by_cases h : s.pub.attached = true
      · simp [h, write_of_attached h, Outcome.andThen, writeAll]
      · simp [h, writeAll]

theorem writeWhen_first
    {s : Session} (h : s.pub.attached = true) (ready : Bool) (msg : Json) :
    writeWhen ready msg s =
      (.ok (), writeAll (cachedMsg ready msg) s) := by
  rw [← writeWhen_guarded, h, Bool.and_true]

/-- A resync writes the cached messages until one write fails. -/
theorem resync_eq
    {s : Session} (h : s.pub.attached = true) :
    resync s = (.ok (), writeAll (cachedMsgs s.pub) s) := by
  have hsame₁ := writeAll_same
    (cachedMsg (!s.pub.lastProducts.isEmpty)
      (productsMsg s.pub.lastProducts)) s
  unfold resync cachedMsgs
  rw [writeWhen_first h, writeAll_append]
  generalize writeAll _ s = s₁ at hsame₁ ⊢
  simp only [Outcome.andThen]
  have hsame₂ := writeAll_same
    (cachedMsg (!s₁.pub.lastUniverse.isEmpty)
      (universeMsg s₁.pub.lastUniverse)) s₁
  rw [writeWhen_guarded, ← hsame₁.lastUniverse, ← hsame₁.lastNames,
    ← hsame₁.lastQuotes, writeAll_append]
  generalize writeAll _ s₁ = s₂ at hsame₂ ⊢
  simp only
  have hsame₃ := writeAll_same
    (cachedMsg (!s₂.pub.lastNames.isEmpty)
      (namesMsg s₂.pub.lastNames)) s₂
  rw [writeWhen_guarded, ← hsame₂.lastNames, ← hsame₂.lastQuotes,
    writeAll_append]
  generalize writeAll _ s₂ = s₃ at hsame₃ ⊢
  simp only
  rw [writeWhen_guarded, ← hsame₃.lastQuotes]

/-! ### Connecting -/

/-- A call of `connect` opens a connection. -/
def Opens (s : Session) : Prop :=
  s.pub.attached = false ∧ s.pub.nextRetry ≤ s.net.now ∧
    s.net.connects = true

instance (s : Session) : Decidable (Opens s) := by
  unfold Opens
  infer_instance

/-- A connection that is opened takes all of the cached messages. -/
def ResyncCompletes (s : Session) : Prop :=
  Opens s →
    ∀ b ∈ s.net.sends.take (cachedMsgs s.pub).length, b = true

instance (s : Session) : Decidable (ResyncCompletes s) := by
  unfold ResyncCompletes
  infer_instance

theorem connect_of_opens
    {s : Session} (h : Opens s) :
    connect s =
      (.ok true, writeAll (cachedMsgs s.pub) (opened s)) := by
  obtain ⟨hatt, hnow, hconn⟩ := h
  have hresync := resync_eq (s := opened s) rfl
  have htries : Tries s := ⟨hatt, hnow⟩
  rw [connect, if_neg (not_not.mpr htries), if_pos hconn, hresync]
  rfl

theorem connect_of_attached
    {s : Session} (h : s.pub.attached = true) :
    connect s = (.ok true, s) := by
  have hno : ¬ Tries s := fun htries => by simp [htries.1] at h
  rw [connect, if_pos hno, h]

/-- Without a new connection, `connect` says whether there is an old one. -/
theorem connect_of_not_opens
    {s : Session} (h : ¬ Opens s) :
    ∃ s', connect s = (.ok s.pub.attached, s') ∧
      s'.pub.attached = s.pub.attached ∧
      s'.pub.rbuf = s.pub.rbuf ∧ s'.net = s.net := by
  by_cases htries : Tries s
  · have hconn : ¬ s.net.connects = true := fun hconn =>
      h ⟨htries.1, htries.2, hconn⟩
    rw [connect, if_neg (not_not.mpr htries), if_neg hconn, htries.1]
    exact ⟨_, rfl, htries.1, rfl, rfl⟩
  · rw [connect, if_pos htries]
    exact ⟨s, rfl, rfl, rfl, rfl⟩

/-- The buffer that a poll starts reading with. -/
def pollBuffer (pub : FeedPublisher) : List UInt8 :=
  if pub.attached then pub.rbuf else []

/-- What `connect` promises. -/
structure Attaches (s : Session) (ok : Bool) (s' : Session) : Prop where
  attached : s'.pub.attached = ok
  recvs : s'.net.recvs = s.net.recvs
  rbuf : ok = true → s'.pub.rbuf = pollBuffer s.pub

/-- When the resync goes through, `connect` keeps its promise. -/
theorem connect_attaches
    {s : Session} (h : ResyncCompletes s) :
    ∃ ok s', connect s = (.ok ok, s') ∧ Attaches s ok s' := by
  by_cases hopens : Opens s
  · have hsame := writeAll_same (cachedMsgs s.pub) (opened s)
    have hall := (writeAll_attached_iff (cachedMsgs s.pub)
      (s := opened s) rfl).mpr (h hopens)
    refine ⟨true, _, connect_of_opens hopens, hall, hsame.recvs, ?_⟩
    intro _
    rw [hsame.rbuf hall, pollBuffer, hopens.1]
    rfl
  · obtain ⟨s', hconn, hatt, hrbuf, hnet⟩ := connect_of_not_opens hopens
    refine ⟨s.pub.attached, s', hconn, hatt, by rw [hnet], ?_⟩
    intro hok
    rw [hrbuf, pollBuffer, hok]
    rfl

/-- When it does not, `connect` returns `True` without a socket. -/
theorem connect_detached
    {s : Session} (h : ¬ ResyncCompletes s) :
    ∃ s', connect s = (.ok true, s') ∧ s'.pub.attached = false := by
  unfold ResyncCompletes at h
  rw [Classical.not_imp] at h
  obtain ⟨hopens, hfail⟩ := h
  refine ⟨_, connect_of_opens hopens, ?_⟩
  have hiff := writeAll_attached_iff (cachedMsgs s.pub)
    (s := opened s) rfl
  by_contra hatt
  exact hfail (hiff.mp (by simpa using hatt))

/-! ### Sending -/

theorem send_attaches
    {s : Session} (h : ResyncCompletes s) (msg : Json) :
    ∃ ok s', send msg s = (.ok ok, s') ∧ Attaches s ok s' := by
  obtain ⟨ok, s', hconn, hatt⟩ := connect_attaches h
  cases ok with
  | false =>
      exact ⟨false, s', by simp [send, hconn, Outcome.andThen], hatt⟩
  | true =>
      have hsame := wrote_same msg s'
      refine ⟨(wrote msg s').pub.attached, wrote msg s', ?_, rfl,
        hsame.recvs.trans hatt.recvs, ?_⟩
      · simp [send, hconn, Outcome.andThen,
          write_of_attached hatt.attached]
      · intro hok
        exact (hsame.rbuf hok).trans (hatt.rbuf rfl)

theorem send_raises
    {s : Session} (h : ¬ ResyncCompletes s) (msg : Json) :
    ∃ s', send msg s = (.error .attributeError, s') := by
  obtain ⟨s', hconn, hatt⟩ := connect_detached h
  refine ⟨s', ?_⟩
  simp [send, hconn, Outcome.andThen, write_of_detached hatt]

/-- The call returns a value. -/
def Returns {α : Type} (r : Outcome α) : Prop :=
  ∃ a s', r = (.ok a, s')

/-- A send returns exactly when a resync that it makes goes through. -/
theorem sendOnly_returns_iff (msg : Json) (s : Session) :
    Returns (sendOnly msg s) ↔ ResyncCompletes s := by
  constructor
  · rintro ⟨a, s', hret⟩
    by_contra h
    obtain ⟨s'', hraise⟩ := send_raises h msg
    simp [sendOnly, hraise, Outcome.andThen] at hret
  · intro h
    obtain ⟨ok, s', hsend, _⟩ := send_attaches h msg
    exact ⟨(), s', by simp [sendOnly, hsend, Outcome.andThen]⟩

/-! ### Polling -/

/-- A reply as the terminal writes it: a dictionary whose lists, if present,
are lists. -/
def ReplyShape (v : Json) : Prop :=
  ∃ members, v = .object members ∧
    (∀ w, find members "syms" = some w → ∃ cells, w = .array cells) ∧
    (∀ w, find members "hist" = some w → ∃ cells, w = .array cells)

/-- The terminal's reply has that shape. -/
theorem replyShape_requestedReply (syms hist : List String) :
    ReplyShape (FeedServer.requestedReply syms hist) := by
  refine ⟨_, rfl, ?_, ?_⟩
  · intro w h
    exact ⟨_, (Option.some.inj h).symm⟩
  · intro w h
    exact ⟨_, (Option.some.inj h).symm⟩

/-- Whatever line a poll reads, it is a reply or no JSON. -/
def PeerReplies (py : PyJson) (s : Session) : Prop :=
  ∀ line rest,
    recvLine (pollBuffer s.pub) s.net.recvs = .line line rest →
      ∀ v, py.loads line = some v → ReplyShape v

theorem stringsAt_ok
    (str : Json → String) {members : List (String × Json)} {key : String}
    (h : ∀ w, find members key = some w → ∃ cells, w = .array cells) :
    ∃ l, stringsAt str members key = .ok l := by
  unfold stringsAt
  cases hfind : find members key with
  | none =>
      exact ⟨[], rfl⟩
  | some w =>
      obtain ⟨cells, rfl⟩ := h w hfind
      exact ⟨_, rfl⟩

theorem decodeReply_ok
    {py : PyJson} {line : List UInt8}
    (h : ∀ v, py.loads line = some v → ReplyShape v) :
    ∃ r, decodeReply py line = .ok r := by
  unfold decodeReply repliedLists
  cases hloads : py.loads line with
  | none =>
      exact ⟨_, rfl⟩
  | some v =>
      obtain ⟨members, rfl, hsyms, hhist⟩ := h v hloads
      obtain ⟨syms, hs⟩ := stringsAt_ok py.str hsyms
      obtain ⟨hist, hh⟩ := stringsAt_ok py.str hhist
      simp only
      split
      · exact ⟨(syms, hist), by rw [hs, hh]; rfl⟩
      · exact ⟨_, rfl⟩

/-- A poll of a well-behaved terminal returns under the same condition. -/
theorem queryRequested_returns_iff
    {py : PyJson} {s : Session} (hpeer : PeerReplies py s) :
    Returns (queryRequested py s) ↔ ResyncCompletes s := by
  constructor
  · rintro ⟨a, s', hret⟩
    by_contra h
    obtain ⟨s'', hraise⟩ := send_raises h pollMsg
    simp [queryRequested, hraise, Outcome.andThen] at hret
  · intro h
    obtain ⟨ok, s', hsend, hatt⟩ := send_attaches h pollMsg
    unfold queryRequested
    rw [hsend]
    simp only [Outcome.andThen]
    cases ok with
    | false =>
        exact ⟨_, _, rfl⟩
    | true =>
        have hno : ¬ s'.pub.attached = false := by simp [hatt.attached]
        rw [if_neg (by simp), if_neg hno]
        cases hline : recvLine s'.pub.rbuf s'.net.recvs with
        | line line rest =>
            rw [hatt.rbuf rfl, hatt.recvs] at hline
            obtain ⟨r, hr⟩ := decodeReply_ok (hpeer line rest hline)
            simp only [hr]
            exact ⟨r, _, rfl⟩
        | closed =>
            exact ⟨_, _, rfl⟩
        | osError =>
            exact ⟨_, _, rfl⟩

end FeedPublisher

/-! ### Runs of calls -/

/-- A call on the publisher. -/
inductive PublisherCall where
  | publishTrades (trades : List FeedTrade)
  | publishQuotes (quotes : List FeedQuote)
  | publishHistory (symbol : String) (points : List (ℚ × Int))
  | setProducts (ids : List String)
  | setUniverse (ids : List String)
  | setNames (names : List (String × String))
  | queryRequested
  | connect

namespace FeedPublisher

/-- The session in which a call comes to `connect`, if it does. -/
def atConnect (s : Session) : PublisherCall → Option Session
  | .publishTrades trades => if trades = [] then none else some s
  | .publishQuotes quotes =>
      if quotes = [] then none
      else some { s with pub := s.pub.cacheQuotes quotes }
  | .publishHistory _ points => if points = [] then none else some s
  | .setProducts ids =>
      some { s with pub := { s.pub with lastProducts := ids } }
  | .setUniverse ids =>
      some { s with pub := { s.pub with lastUniverse := ids } }
  | .setNames names =>
      some { s with pub := { s.pub with lastNames := names } }
  | .queryRequested => some s
  | .connect => some s

/-- The publisher after a call, whether it returned or raised. -/
def perform (py : PyJson) (s : Session) : PublisherCall → FeedPublisher
  | .publishTrades trades => (publishTrades trades s).2.pub
  | .publishQuotes quotes => (publishQuotes quotes s).2.pub
  | .publishHistory symbol points =>
      (publishHistory symbol points s).2.pub
  | .setProducts ids => (setProducts ids s).2.pub
  | .setUniverse ids => (setUniverse ids s).2.pub
  | .setNames names => (setNames names s).2.pub
  | .queryRequested => (queryRequested py s).2.pub
  | .connect => (connect s).2.pub

/-- The call does not raise, and a `connect` that returns `True` leaves the
publisher attached. -/
def Survives (py : PyJson) (s : Session) : PublisherCall → Prop
  | .publishTrades trades => Returns (publishTrades trades s)
  | .publishQuotes quotes => Returns (publishQuotes quotes s)
  | .publishHistory symbol points =>
      Returns (publishHistory symbol points s)
  | .setProducts ids => Returns (setProducts ids s)
  | .setUniverse ids => Returns (setUniverse ids s)
  | .setNames names => Returns (setNames names s)
  | .queryRequested => Returns (queryRequested py s)
  | .connect =>
      ∃ ok s', connect s = (.ok ok, s') ∧
        (ok = true → s'.pub.attached = true)

/-- Where the call connects, the resync goes through. -/
def ResyncsCleanly (s : Session) (c : PublisherCall) : Prop :=
  ∀ s', atConnect s c = some s' → ResyncCompletes s'

/-- Only a poll reads. -/
def HearsReplies (py : PyJson) (s : Session) : PublisherCall → Prop
  | .queryRequested => PeerReplies py s
  | _ => True

theorem connect_survives_iff (py : PyJson) (s : Session) :
    Survives py s .connect ↔ ResyncCompletes s := by
  constructor
  · rintro ⟨ok, s', hconn, hatt⟩
    by_contra h
    obtain ⟨s'', hconn', hdet⟩ := connect_detached h
    rw [hconn'] at hconn
    cases hconn
    rw [hatt rfl] at hdet
    cases hdet
  · intro h
    obtain ⟨ok, s', hconn, hatt⟩ := connect_attaches h
    refine ⟨ok, s', hconn, ?_⟩
    intro hok
    rw [hatt.attached, hok]

/-- One call survives exactly when its resync goes through. -/
theorem survives_iff
    {py : PyJson} {s : Session} {c : PublisherCall}
    (hpeer : HearsReplies py s c) :
    Survives py s c ↔ ResyncsCleanly s c := by
  cases c with
  | publishTrades trades =>
      by_cases h : trades = []
      · simp [Survives, ResyncsCleanly, atConnect, publishTrades, h,
          Returns]
      · simp [Survives, ResyncsCleanly, atConnect, publishTrades, h,
          sendOnly_returns_iff]
  | publishQuotes quotes =>
      by_cases h : quotes = []
      · simp [Survives, ResyncsCleanly, atConnect, publishQuotes, h,
          Returns]
      · simp [Survives, ResyncsCleanly, atConnect, publishQuotes, h,
          sendOnly_returns_iff]
  | publishHistory symbol points =>
      by_cases h : points = []
      · simp [Survives, ResyncsCleanly, atConnect, publishHistory, h,
          Returns]
      · simp [Survives, ResyncsCleanly, atConnect, publishHistory, h,
          sendOnly_returns_iff]
  | setProducts ids =>
      simp [Survives, ResyncsCleanly, atConnect, setProducts,
        sendOnly_returns_iff]
  | setUniverse ids =>
      simp [Survives, ResyncsCleanly, atConnect, setUniverse,
        sendOnly_returns_iff]
  | setNames names =>
      simp [Survives, ResyncsCleanly, atConnect, setNames,
        sendOnly_returns_iff]
  | queryRequested =>
      simp [Survives, ResyncsCleanly, atConnect,
        queryRequested_returns_iff hpeer]
  | connect =>
      simp [ResyncsCleanly, atConnect, connect_survives_iff]

/-- A call with the network it meets. -/
abbrev Scripted := PublisherCall × Net

def stepCall (py : PyJson) (pub : FeedPublisher) (c : Scripted) :
    FeedPublisher :=
  perform py { pub := pub, net := c.2 } c.1

/-- **A publisher survives a run of calls exactly when every connection that
the run opens takes all of the cached messages.** -/
theorem publisher_survives_iff
    (py : PyJson) (pub : FeedPublisher) (calls : List Scripted)
    (hpeer : AllSteps (stepCall py)
      (fun pub c => HearsReplies py { pub := pub, net := c.2 } c.1)
      pub calls) :
    AllSteps (stepCall py)
        (fun pub c => Survives py { pub := pub, net := c.2 } c.1)
        pub calls ↔
      AllSteps (stepCall py)
        (fun pub c => ResyncsCleanly { pub := pub, net := c.2 } c.1)
        pub calls :=
  AllSteps.congr (stepCall py) (fun _ _ h => survives_iff h) hpeer

/-- A parser that reads no JSON. -/
def silentPy : PyJson where
  loads := fun _ => none
  str := fun _ => ""

/-- The catalog is set while nothing listens, the next call connects and
resends it, and the poll that follows is cut off. -/
theorem publisher_survives_late_connect :
    AllSteps (stepCall silentPy)
      (fun pub c => Survives silentPy { pub := pub, net := c.2 } c.1) {}
      [(.setProducts ["BTC-USD"], { connects := false }),
        (.setUniverse ["BTC-USD"], { now := 1 }),
        (.queryRequested, { now := 2, recvs := [.chunk []] })] := by
  refine (publisher_survives_iff silentPy {} _ ?_).mpr ?_
  · refine ⟨trivial, trivial, ?_, trivial⟩
    intro line rest _ v hloads
    cases hloads
  · refine ⟨?_, ?_, ?_, trivial⟩
    · intro s' h
      obtain rfl := Option.some.inj h
      decide +kernel
    · intro s' h
      obtain rfl := Option.some.inj h
      decide +kernel
    · intro s' h
      obtain rfl := Option.some.inj h
      decide +kernel

/-- The catalog is cached, the next connection is made, and the write that
resends the catalog fails: the call raises on the missing socket. -/
theorem publisher_raises_on_broken_resync :
    ¬ AllSteps (stepCall silentPy)
      (fun pub c => Survives silentPy { pub := pub, net := c.2 } c.1) {}
      [(.setProducts ["BTC-USD"], { connects := false }),
        (.setUniverse ["BTC-USD"], { now := 1, sends := [false] })] := by
  rintro ⟨_, hsecond, _⟩
  have hclean := (survives_iff (c := .setUniverse ["BTC-USD"])
    trivial).mp hsecond _ rfl
  revert hclean
  decide +kernel

end FeedPublisher

end ExecutionLayer
