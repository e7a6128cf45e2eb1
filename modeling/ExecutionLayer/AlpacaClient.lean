import ExecutionLayer.Library.Json
import ExecutionLayer.MarketStore

/-!
# The client of the stock data provider

`recent_minute_bars` and `latest_quotes` of `alpaca_client.cpp`.  A response
is what `json::parse` made of the body, or nothing when the request failed or
the body does not parse.  The typed accessors throw, and the handler at the
end of either function turns an exception into an empty answer.

The bars come newest first and are turned round.  The time of a bar is read by
`iso_to_ns`, which gives 0 for a text that it cannot read; the C library's
`timegm` is a parameter.  Nanoseconds have 64 bits, which is enough for the
years 1678 to 2261: what `iso_to_ns` returns is the time of a bar (`barNs`)
reduced to that width.
-/

namespace ExecutionLayer

open JsonLib JsonLib.Json MachineInt

/-- The fields of `struct tm` that are set. -/
structure Tm where
  year : Int
  mon : Int
  mday : Int
  hour : Int
  min : Int
  sec : Int
deriving DecidableEq, Repr

namespace AlpacaClient

/-! ### `sscanf(s, "%d-%d-%dT%d:%d:%d", ...)` -/

/-- `isspace` -/
def isSpace (c : Char) : Bool :=
  c.toNat = 32 ∨ (9 ≤ c.toNat ∧ c.toNat ≤ 13)

/-- The digits in front, as a number behind `acc`. -/
def scanDigits : Nat → List Char → Nat × List Char
  | acc, [] => (acc, [])
  | acc, c :: cs =>
      if c.isDigit then scanDigits (10 * acc + (c.toNat - 48)) cs
      else (acc, c :: cs)

def scanSign : List Char → Int × List Char
  | '-' :: cs => (-1, cs)
  | '+' :: cs => (1, cs)
  | cs => (1, cs)

/-- `%d`: blanks, a sign, and at least one digit.  The number is read as a
`long`, the nearest one if it does not fit, and stored as an `int`. -/
def scanInt (cs : List Char) : Option (Int × List Char) :=
  let (sign, cs) := scanSign (cs.dropWhile isSpace)
  match cs with
  | [] => none
  | c :: _ =>
      if c.isDigit then
        let (n, rest) := scanDigits 0 cs
        some (wrapInt32 (clampInt64 (sign * n)), rest)
      else none

/-- A character of the format stands for itself. -/
def scanChar (literal : Char) : List Char → Option (List Char)
  | [] => none
  | c :: cs => if c = literal then some cs else none

/-- The six numbers; what stands behind them is not read. -/
def scanDate (s : String) : Option Tm := do
  let (year, cs) ← scanInt s.toList
  let cs ← scanChar '-' cs
  let (mon, cs) ← scanInt cs
  let cs ← scanChar '-' cs
  let (day, cs) ← scanInt cs
  let cs ← scanChar 'T' cs
  let (hour, cs) ← scanInt cs
  let cs ← scanChar ':' cs
  let (min, cs) ← scanInt cs
  let cs ← scanChar ':' cs
  let (sec, _) ← scanInt cs
  return {
    year := wrapInt32 (year - 1900), mon := wrapInt32 (mon - 1), mday := day
    hour := hour, min := min, sec := sec }

section Bars

variable (timegm : Tm → Int)

/-- The time of a bar in nanoseconds, or 0. -/
def barNs (s : String) : Int :=
  match scanDate s with
  | none => 0
  | some tm =>
      let t := timegm tm
      if t = -1 then 0 else t * 1000000000

/-- `iso_to_ns`: the product is one of 64 bits. -/
def isoToNs (s : String) : Int :=
  match scanDate s with
  | none => 0
  | some tm =>
      let t := timegm tm
      if t = -1 then 0 else wrapInt64 (t * 1000000000)

/-- The text is a time. -/
def Parses (s : String) : Prop :=
  ∃ tm, scanDate s = some tm ∧ timegm tm ≠ -1

/-- The loop over the bars; nothing when an accessor throws. -/
def readBars : List Json → List PricePoint → Option (List PricePoint)
  | [], out => some out
  | .object bar :: bars, out => do
      let close ← (valueDouble bar "c" 0).toOption
      if ¬ 0 < close then readBars bars out
      else
        let t ← (valueString bar "t" "").toOption
        readBars bars
          (out ++ [{ tsNs := isoToNs timegm t, price := close }])
  | _ :: _, _ => none

/-- The array `"bars"` of a response. -/
def barsOf : Option Json → Option (List Json)
  | some (.object doc) =>
      match find doc "bars" with
      | some (.array bars) => some bars
      | _ => none
  | _ => none

def recentMinuteBars (n : Int) (response : Option Json) :
    List PricePoint :=
  if n ≤ 0 then []
  else
    match barsOf response with
    | none => []
    | some bars => ((readBars timegm bars []).getD []).reverse

end Bars

/-- The loop over the quotes, which are all stamped with the time of their
receipt. -/
def readQuotes (recv : Int) :
    List (String × Json) → Option (List (String × Quote))
  | [] => some []
  | (symbol, .object quote) :: quotes => do
      let bid ← (valueDouble quote "bp" 0).toOption
      let ask ← (valueDouble quote "ap" 0).toOption
      let bsize ← (valueDouble quote "bs" 0).toOption
      let asize ← (valueDouble quote "as" 0).toOption
      let later ← readQuotes recv quotes
      return (symbol, { symbol, bid, ask, bsize, asize, tsNs := recv }) ::
        later
  | _ :: quotes => readQuotes recv quotes

def latestQuotes (recv : Int) (symbols : List String)
    (response : Option Json) : List (String × Quote) :=
  if symbols = [] then []
  else
    match response with
    | some (.object doc) =>
        match find doc "quotes" with
        | some (.object quotes) => (readQuotes recv quotes).getD []
        | _ => []
    | _ => []

/-! ### What is returned -/

/-- The text and the price of a bar. -/
structure Bar where
  time : String
  close : ℚ
deriving DecidableEq, Repr

/-- The point of a bar. -/
def Bar.point (timegm : Tm → Int) (b : Bar) : PricePoint where
  tsNs := isoToNs timegm b.time
  price := b.close

/-- What an element of the array returns: a bar if its price is positive, and
nothing else unless an accessor throws. -/
def readBar : Json → Option (List Bar)
  | .object bar => do
      let close ← (valueDouble bar "c" 0).toOption
      if ¬ 0 < close then return []
      else
        let t ← (valueString bar "t" "").toOption
        return [{ time := t, close := close }]
  | _ => none

def readAll : List Json → Option (List Bar)
  | [] => some []
  | v :: vs => do
      let now ← readBar v
      let later ← readAll vs
      return now ++ later

/-- The bars that a response returns, newest first as they came. -/
def returnedBars (response : Option Json) : List Bar :=
  ((barsOf response).bind readAll).getD []

theorem readBars_eq
    (timegm : Tm → Int) (vs : List Json) (out : List PricePoint) :
    readBars timegm vs out =
      (readAll vs).map fun bars => out ++ bars.map (Bar.point timegm) := by
  induction vs generalizing out with
  | nil =>
      simp [readBars, readAll]
  | cons v vs ih =>
      cases v with
      | object bar =>
          rw [readBars, readAll, readBar]
          cases (valueDouble bar "c" 0).toOption with
          | none =>
              rfl
          | some close =>
              simp only [Option.bind_eq_bind, Option.bind_some]
              split_ifs with hclose
              · cases (valueString bar "t" "").toOption with
                | none =>
                    rfl
                | some t =>
                    rw [Option.bind_some, ih]
                    cases readAll vs with
                    | none =>
                        rfl
                    | some bars =>
                        simp [Bar.point]
              · rw [ih]
                cases readAll vs with
                | none =>
                    rfl
                | some bars =>
                    rfl
      | _ =>
          rfl

/-- What is returned are the points of these bars, oldest first. -/
theorem recentMinuteBars_eq
    (timegm : Tm → Int) {n : Int} (hn : 0 < n) (response : Option Json) :
    recentMinuteBars timegm n response =
      ((returnedBars response).map (Bar.point timegm)).reverse := by
  rw [recentMinuteBars, if_neg (not_le.mpr hn), returnedBars]
  cases barsOf response with
  | none =>
      rfl
  | some vs =>
      simp only [Option.bind_some, readBars_eq]
      cases readAll vs with
      | none =>
          rfl
      | some bars =>
          rfl

/-- A text that is no time gives 0. -/
theorem barNs_of_not_parses
    {timegm : Tm → Int} {s : String} (h : ¬ Parses timegm s) :
    barNs timegm s = 0 := by
  unfold barNs
  cases hs : scanDate s with
  | none =>
      rfl
  | some tm =>
      have ht : timegm tm = -1 := by
        by_contra hne
        exact h ⟨tm, hs, hne⟩
      simp only [ht, if_true]

theorem isoToNs_eq (timegm : Tm → Int) (s : String) :
    isoToNs timegm s = wrapInt64 (barNs timegm s) := by
  unfold isoToNs barNs
  cases scanDate s with
  | none =>
      rfl
  | some tm =>
      simp only
      split_ifs
      · rfl
      · rfl

/-- The stamp of a bar is its time exactly when the time fits. -/
theorem isoToNs_eq_barNs_iff (timegm : Tm → Int) (s : String) :
    isoToNs timegm s = barNs timegm s ↔ FitsInt64 (barNs timegm s) := by
  rw [isoToNs_eq]
  exact wrapInt64_eq_self_iff _

theorem readQuotes_tsNs
    {recv : Int} {quotes : List (String × Json)}
    {fresh : List (String × Quote)}
    (h : readQuotes recv quotes = some fresh) :
    ∀ e ∈ fresh, e.2.tsNs = recv := by
  induction quotes generalizing fresh with
  | nil =>
      obtain rfl := Option.some.inj h
      exact fun e he => absurd he List.not_mem_nil
  | cons entry quotes ih =>
      obtain ⟨symbol, v⟩ := entry
      cases v with
      | object quote =>
          simp only [readQuotes, Option.bind_eq_bind,
            Option.bind_eq_some_iff] at h
          obtain ⟨bid, _, ask, _, bsize, _, asize, _, later, hlater, h⟩ := h
          obtain rfl := Option.some.inj h
          intro e he
          rcases List.mem_cons.mp he with rfl | he
          · rfl
          · exact ih hlater e he
      | _ =>
          exact ih h

/-- The quotes of one answer are stamped alike. -/
theorem latestQuotes_tsNs
    (recv : Int) (symbols : List String) (response : Option Json) :
    ∀ e ∈ latestQuotes recv symbols response, e.2.tsNs = recv := by
  unfold latestQuotes
  split_ifs
  · exact fun e he => absurd he List.not_mem_nil
  · split
    · split
      · rename_i quotes _
        cases hread : readQuotes recv quotes with
        | none =>
            exact fun e he => absurd he List.not_mem_nil
        | some fresh =>
            exact readQuotes_tsNs hread
      · exact fun e he => absurd he List.not_mem_nil
    · exact fun e he => absurd he List.not_mem_nil

end AlpacaClient

end ExecutionLayer
