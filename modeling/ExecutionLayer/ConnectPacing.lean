import ExecutionLayer.Library.Pacing
import ExecutionLayer.Resync

/-!
# How often the publisher connects

While the terminal is not up, the publisher meets a closed port.  `connect`
may be reached from every publish path, from the poll and by itself, ten
times a second and more, and sets a deadline in front of its next attempt.

Whatever the calls are, and however they end, two attempts are at least
`retryIntervalS` apart.  And no attempt is put off for longer than that: the
first call behind the deadline that comes to `connect` without a socket makes
one (`connects_paced`).
-/

namespace ExecutionLayer

open JsonLib StepSystem Pacing

namespace FeedPublisher

/-- When a call makes an attempt, if it does. -/
def triesAt (pub : FeedPublisher) (c : Scripted) : List ℚ :=
  match atConnect { pub := pub, net := c.2 } c.1 with
  | none => []
  | some s => if Tries s then [c.2.now] else []

/-- The moments of the attempts that a run of calls makes. -/
def attempts (py : PyJson) (pub : FeedPublisher) (calls : List Scripted) :
    List ℚ :=
  outputs (stepCall py) triesAt pub calls

/-! ### Only an attempt moves the deadline -/

theorem wrote_nextRetry (msg : Json) (s : Session) :
    (wrote msg s).pub.nextRetry = s.pub.nextRetry := by
  unfold wrote
  split
  · rfl
  · rfl

theorem writeAll_nextRetry (ms : List Json) (s : Session) :
    (writeAll ms s).pub.nextRetry = s.pub.nextRetry := by
  induction ms generalizing s with
  | nil =>
      rfl
  | cons m ms ih =>
      rw [writeAll]
      split_ifs
      · rw [ih, wrote_nextRetry]
      · rfl

theorem connect_nextRetry (s : Session) :
    (connect s).2.pub.nextRetry =
      if Tries s then s.net.now + retryIntervalS
      else s.pub.nextRetry := by
  by_cases hopens : Opens s
  · have htries : Tries s := ⟨hopens.1, hopens.2.1⟩
    rw [connect_of_opens hopens, if_pos htries]
    exact writeAll_nextRetry _ _
  · by_cases htries : Tries s
    · have hconn : ¬ s.net.connects = true := fun hconn =>
        hopens ⟨htries.1, htries.2, hconn⟩
      rw [connect, if_neg (not_not.mpr htries), if_neg hconn, if_pos htries]
    · rw [connect, if_pos htries, if_neg htries]

theorem sendOnly_nextRetry (msg : Json) (s : Session) :
    (sendOnly msg s).2.pub.nextRetry = (connect s).2.pub.nextRetry := by
  rcases sendOnly_eq msg s with ⟨_, heq⟩ | ⟨_, heq⟩
  · rw [heq, wrote_nextRetry]
  · rw [heq]

/-- A poll moves the deadline no further than the send it begins with. -/
theorem queryRequested_nextRetry (py : PyJson) (s : Session) :
    (queryRequested py s).2.pub.nextRetry =
      (connect s).2.pub.nextRetry := by
  rw [← sendOnly_nextRetry pollMsg s, queryRequested, sendOnly]
  rcases send pollMsg s with ⟨_ | ok, s'⟩
  · rfl
  · simp only [Outcome.andThen]
    split_ifs
    · rfl
    · rfl
    · split
      · rfl
      · rfl
      · rfl

/-- Where a call comes to `connect`, it has not touched what that reads. -/
theorem atConnect_keeps
    {s s' : Session} {c : PublisherCall} (h : atConnect s c = some s') :
    s'.pub.attached = s.pub.attached ∧
      s'.pub.nextRetry = s.pub.nextRetry ∧ s'.net = s.net := by
  cases c with
  | publishTrades _ | publishQuotes _ | publishHistory _ _ =>
      rw [atConnect] at h
      split_ifs at h
      cases h
      exact ⟨rfl, rfl, rfl⟩
  | setProducts _ | setUniverse _ | setNames _ | queryRequested | connect =>
      cases h
      exact ⟨rfl, rfl, rfl⟩

theorem perform_nextRetry (py : PyJson) (s : Session) (c : PublisherCall) :
    (perform py s c).nextRetry =
      ((atConnect s c).map fun s' =>
        (connect s').2.pub.nextRetry).getD s.pub.nextRetry := by
  cases c with
  | publishTrades trades =>
      by_cases h : trades = []
      · simp [perform, publishTrades, atConnect, h]
      · simp [perform, publishTrades, atConnect, h, sendOnly_nextRetry]
  | publishQuotes quotes =>
      by_cases h : quotes = []
      · simp [perform, publishQuotes, atConnect, h]
      · simp [perform, publishQuotes, atConnect, h, sendOnly_nextRetry]
  | publishHistory symbol points =>
      by_cases h : points = []
      · simp [perform, publishHistory, atConnect, h]
      · simp [perform, publishHistory, atConnect, h, sendOnly_nextRetry]
  | setProducts ids =>
      exact sendOnly_nextRetry _ _
  | setUniverse ids =>
      exact sendOnly_nextRetry _ _
  | setNames names =>
      exact sendOnly_nextRetry _ _
  | queryRequested =>
      exact queryRequested_nextRetry py s
  | connect =>
      rfl

/-- **One call**: it makes an attempt and sets the deadline behind it, or
makes none and leaves the deadline. -/
theorem stepCall_cases (py : PyJson) (pub : FeedPublisher) (c : Scripted) :
    (triesAt pub c = [c.2.now] ∧ pub.nextRetry ≤ c.2.now ∧
        (stepCall py pub c).nextRetry = c.2.now + retryIntervalS) ∨
      (triesAt pub c = [] ∧
        (stepCall py pub c).nextRetry = pub.nextRetry) := by
  rw [stepCall, perform_nextRetry, triesAt]
  cases hat : atConnect { pub := pub, net := c.2 } c.1 with
  | none =>
      exact Or.inr ⟨rfl, rfl⟩
  | some s =>
      obtain ⟨_, hretry, hnet⟩ := atConnect_keeps hat
      dsimp only
      rw [Option.map_some, Option.getD_some, connect_nextRetry, hretry,
        hnet]
      by_cases htries : Tries s
      · have hdue := htries.2
        rw [hretry, hnet] at hdue
        rw [if_pos htries, if_pos htries]
        exact Or.inl ⟨rfl, hdue, rfl⟩
      · rw [if_neg htries, if_neg htries]
        exact Or.inr ⟨rfl, rfl⟩

/-! ### Runs of calls -/

theorem retryIntervalS_pos : 0 < retryIntervalS := by
  norm_num [retryIntervalS]

/-- The deadline that stands after the attempts `ts`. -/
def deadlineAfter (start : ℚ) (ts : List ℚ) : ℚ :=
  (ts.getLast?.map fun t => t + retryIntervalS).getD start

/-- The attempts are spaced, and the deadline stands an interval behind the
last of them. -/
structure AttemptsSpaced (start : ℚ) (ts : List ℚ) (pub : FeedPublisher) :
    Prop where
  spaced : Spaced retryIntervalS ts
  behind : ∀ t ∈ ts, t + retryIntervalS ≤ pub.nextRetry
  deadline : pub.nextRetry = deadlineAfter start ts

section Runs

variable {py : PyJson} {start : ℚ}

theorem AttemptsSpaced.call
    {ts : List ℚ} {pub : FeedPublisher}
    (h : AttemptsSpaced start ts pub) (c : Scripted) :
    AttemptsSpaced start (ts ++ triesAt pub c) (stepCall py pub c) := by
  rcases stepCall_cases py pub c with
    ⟨htries, hdue, hretry⟩ | ⟨htries, hretry⟩
  · rw [htries]
    refine ⟨h.spaced.concat fun t ht => (h.behind t ht).trans hdue, ?_, ?_⟩
    · intro t ht
      rw [hretry]
      rcases List.mem_append.mp ht with ht | ht
      · have hbehind := (h.behind t ht).trans hdue
        exact hbehind.trans (le_add_of_nonneg_right retryIntervalS_pos.le)
      · rw [List.mem_singleton.mp ht]
    · rw [hretry, deadlineAfter, List.getLast?_concat]
      rfl
  · rw [htries, List.append_nil]
    refine ⟨h.spaced, ?_, ?_⟩
    · rw [hretry]
      exact h.behind
    · rw [hretry]
      exact h.deadline

theorem AttemptsSpaced.run
    {ts : List ℚ} {pub : FeedPublisher}
    (h : AttemptsSpaced start ts pub) (calls : List Scripted) :
    AttemptsSpaced start (ts ++ attempts py pub calls)
      (StepSystem.run (stepCall py) pub calls) := by
  induction calls generalizing ts pub with
  | nil =>
      rw [attempts, outputs, List.append_nil]
      exact h
  | cons c calls ih =>
      have hone : AttemptsSpaced start (ts ++ triesAt pub c)
          (stepCall py pub c) := h.call c
      have hrest := ih hone
      rw [attempts, outputs, ← List.append_assoc]
      exact hrest

theorem attemptsSpaced_run
    (py : PyJson) (pub : FeedPublisher) (calls : List Scripted) :
    AttemptsSpaced pub.nextRetry (attempts py pub calls)
      (StepSystem.run (stepCall py) pub calls) := by
  have hfresh : AttemptsSpaced pub.nextRetry [] pub :=
    ⟨List.Pairwise.nil, fun t ht => absurd ht List.not_mem_nil, rfl⟩
  exact hfresh.run calls

end Runs

/-- **Attempts to connect are paced.**  Whatever is called and however the
network answers, any two attempts are at least `retryIntervalS` apart, and a
window of `n` such intervals has at most `n` of them.  A call that comes to
`connect` without a socket, no sooner than that after the last attempt, makes
the next one. -/
theorem connects_paced
    (py : PyJson) (pub : FeedPublisher) (calls : List Scripted) :
    (attempts py pub calls).Pairwise (fun t u => t + retryIntervalS ≤ u) ∧
      (∀ w n, ((attempts py pub calls).filter fun t =>
        w ≤ t ∧ t < w + n • retryIntervalS).length ≤ n) ∧
      ∀ before c, before ++ [c] <+: calls →
        ∀ s, atConnect { pub := run (stepCall py) pub before, net := c.2 }
            c.1 = some s →
          s.pub.attached = false →
            deadlineAfter pub.nextRetry (attempts py pub before) ≤
                c.2.now →
              attempts py pub (before ++ [c]) =
                attempts py pub before ++ [c.2.now] := by
  have hspaced := (attemptsSpaced_run py pub calls).spaced
  refine ⟨hspaced, hspaced.length_filter_le, ?_⟩
  intro before c _ s hat hdetached hdue
  obtain ⟨_, hretry, hnet⟩ := atConnect_keeps hat
  have htries : Tries s := by
    refine ⟨hdetached, ?_⟩
    rw [hretry, hnet, (attemptsSpaced_run py pub before).deadline]
    exact hdue
  rw [attempts, outputs_concat, triesAt, hat]
  dsimp only
  rw [if_pos htries]
  rfl

/-- A closed port and calls every tenth of a second: each third one knocks. -/
example :
    attempts silentPy {}
        ((List.range 7).map fun k =>
          (.connect, { now := (k : ℚ) / 10, connects := false })) =
      [0, 3 / 10, 6 / 10] := by
  decide +kernel

end FeedPublisher

end ExecutionLayer
