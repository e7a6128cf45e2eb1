import ExecutionLayer.Library.Calendar
import ExecutionLayer.StockHistory

/-!
# The clocks of the two feeds

Chart points of both feeds carry a time, so that the two kinds of series can
share an axis.  Crypto times are read by `_iso_to_ns` of `coinbase.py`, stock
times by `iso_to_ns` of `alpaca_client.cpp`, in different languages and with
different libraries.

On the texts that the two providers send they agree: each maps a text to the
nanoseconds of the moment it names, the second without the fraction of a
second.  So points of the two feeds stand in the order of their clocks
(`feeds_share_clock`), in the years whose nanoseconds fit 64 bits.  The one
second whose C time is -1 is excepted; the client takes it for a failure.

`datetime.fromisoformat` is a parameter.
-/

namespace ExecutionLayer

open Calendar MachineInt StockPoller

/-! ### Texts of moments -/

/-- The last decimal digit of a number. -/
def digit (n : Nat) : Char :=
  Char.ofNat (48 + n % 10)

def pad2 (n : Nat) : List Char :=
  [digit (n / 10), digit n]

def pad4 (n : Nat) : List Char :=
  pad2 (n / 100) ++ pad2 n

/-- `YYYY-MM-DDTHH:MM:SS` -/
def isoText (t : Moment) : List Char :=
  pad4 t.year.toNat ++
    '-' :: (pad2 t.month.toNat ++
    '-' :: (pad2 t.day.toNat ++
    'T' :: (pad2 t.hour.toNat ++
    ':' :: (pad2 t.minute.toNat ++
    ':' :: pad2 t.second.toNat))))

/-- The time of a bar, to the second or with a fraction. -/
def zulu (t : Moment) (fraction : List Char) : String :=
  String.ofList (isoText t ++ (fraction ++ ['Z']))

/-- The fraction of a second, in microseconds. -/
def microText (us : Nat) : List Char :=
  '.' :: (pad2 (us / 10000) ++ pad4 us)

/-! ### The stock client -/

namespace AlpacaClient

theorem digit_spec (n : Nat) :
    (digit n).isDigit ∧ isSpace (digit n) = false ∧ digit n ≠ '-' ∧
      digit n ≠ '+' ∧ (digit n).toNat - 48 = n % 10 := by
  have hlt := Nat.mod_lt n (Nat.succ_pos 9)
  unfold digit
  generalize n % 10 = k at hlt
  interval_cases k <;> decide

/-- Nothing of what follows is read as a digit. -/
def Ends (rest : List Char) : Prop :=
  ∀ c ∈ rest.head?, c.isDigit = false

theorem scanDigits_ends {rest : List Char} (h : Ends rest) (acc : Nat) :
    scanDigits acc rest = (acc, rest) := by
  cases rest with
  | nil =>
      rfl
  | cons c rest =>
      have hc : c.isDigit = false := h c rfl
      rw [scanDigits, hc]
      rfl

theorem scanDigits_digit (acc n : Nat) (rest : List Char) :
    scanDigits acc (digit n :: rest) =
      scanDigits (10 * acc + n % 10) rest := by
  obtain ⟨hdigit, _, _, _, hvalue⟩ := digit_spec n
  rw [scanDigits, if_pos hdigit, hvalue]

/-- A number that begins with a digit has no blanks and no sign. -/
theorem scanInt_digit (n : Nat) (rest : List Char) :
    scanInt (digit n :: rest) =
      some (wrapInt32 (clampInt64 (scanDigits 0 (digit n :: rest)).1),
        (scanDigits 0 (digit n :: rest)).2) := by
  obtain ⟨hdigit, hspace, hminus, hplus, _⟩ := digit_spec n
  have hsign : scanSign (digit n :: rest) = (1, digit n :: rest) := by
    unfold scanSign
    split
    next heq =>
      exact absurd (List.cons.inj heq).1 hminus
    next heq =>
      exact absurd (List.cons.inj heq).1 hplus
    next =>
      rfl
  rw [scanInt, List.dropWhile_cons_of_neg (by simp [hspace]), hsign]
  simp only [hdigit, if_true, one_mul]

/-- A small number is stored as it is. -/
theorem wrapInt32_clampInt64
    {n : Nat} (h : n < 2 ^ 31) : wrapInt32 (clampInt64 n) = n := by
  have hfits : FitsInt64 n := by
    unfold FitsInt64
    omega
  rw [clampInt64_of_fits hfits]
  exact wrapInt32_of_fits (by omega) (by omega)

theorem scanInt_pad2
    {n : Nat} (hn : n < 100) {rest : List Char} (h : Ends rest) :
    scanInt (pad2 n ++ rest) = some ((n : Int), rest) := by
  rw [pad2, List.cons_append, scanInt_digit, scanDigits_digit,
    List.cons_append, scanDigits_digit, List.nil_append,
    scanDigits_ends h]
  have hvalue : 10 * (10 * 0 + n / 10 % 10) + n % 10 = n := by omega
  rw [hvalue, wrapInt32_clampInt64 (by omega)]

theorem scanInt_pad4
    {n : Nat} (hn : n < 10000) {rest : List Char} (h : Ends rest) :
    scanInt (pad4 n ++ rest) = some ((n : Int), rest) := by
  simp only [pad4, pad2, List.cons_append, List.nil_append]
  rw [scanInt_digit, scanDigits_digit, scanDigits_digit, scanDigits_digit,
    scanDigits_digit, scanDigits_ends h]
  have hvalue : 10 * (10 * (10 * (10 * 0 + n / 100 / 10 % 10) +
      n / 100 % 10) + n / 10 % 10) + n % 10 = n := by omega
  rw [hvalue, wrapInt32_clampInt64 (by omega)]

theorem ends_cons {c : Char} (h : c.isDigit = false) (rest : List Char) :
    Ends (c :: rest) := by
  intro c' hc'
  cases hc'
  exact h

/-- The `struct tm` of a moment. -/
def tmOf (t : Moment) : Tm where
  year := t.year - 1900
  mon := t.month - 1
  mday := t.day
  hour := t.hour
  min := t.minute
  sec := t.second

/-- The scanner reads the moment that a text names. -/
theorem scanDate_zulu
    (t : Moment) (h0 : 0 ≤ t.year) (h1 : t.year ≤ 9999)
    {fraction : List Char} (hends : Ends (fraction ++ ['Z'])) :
    scanDate (zulu t fraction) = some (tmOf t) := by
  have hmonth := t.one_le_month
  have hmonth' := t.month_le
  have hday := t.one_le_day
  have hday' : t.day < 100 := by
    have hle := t.day_le
    unfold daysInMonth at hle
    split_ifs at hle <;> omega
  have hhour := t.hour_nonneg
  have hhour' := t.hour_lt
  have hminute := t.minute_nonneg
  have hminute' := t.minute_lt
  have hsecond := t.second_nonneg
  have hsecond' := t.second_lt
  simp only [scanDate, zulu, String.toList_ofList, isoText,
    List.append_assoc, List.cons_append]
  rw [scanInt_pad4 (by omega) (ends_cons rfl _)]
  simp only [Option.bind_eq_bind, Option.bind_some, scanChar, if_true]
  rw [scanInt_pad2 (by omega) (ends_cons rfl _)]
  simp only [Option.bind_some, if_true]
  rw [scanInt_pad2 (by omega) (ends_cons rfl _)]
  simp only [Option.bind_some, if_true]
  rw [scanInt_pad2 (by omega) (ends_cons rfl _)]
  simp only [Option.bind_some, if_true]
  rw [scanInt_pad2 (by omega) (ends_cons rfl _)]
  simp only [Option.bind_some, if_true]
  rw [scanInt_pad2 (by omega) hends]
  rw [wrapInt32_of_fits (by omega) (by omega),
    wrapInt32_of_fits (by omega) (by omega)]
  simp only [Option.bind_some, Option.pure_def, Option.some.injEq, tmOf,
    Tm.mk.injEq]
  omega

theorem utcSeconds_tmOf (t : Moment) : utcSeconds (tmOf t) = t.seconds := by
  simp only [utcSeconds, tmOf, Moment.seconds, Date.days,
    sub_add_cancel]

/-- The years of which 64 bits hold every nanosecond. -/
def InRange (t : Moment) : Prop :=
  1678 ≤ t.year ∧ t.year ≤ 2261

theorem InRange.fits
    {t : Moment} (h : InRange t) {ns : Int} (h0 : 0 ≤ ns)
    (h1 : ns < 1000000000) :
    FitsInt64 (t.seconds * 1000000000 + ns) := by
  obtain ⟨hfirst, hlast⟩ := Date.days_of_years t.toDate h.1 h.2
  have hyear1678 : (Date.firstDay 1678).days = -106650 := by
    decide
  have hyear2262 : (Date.firstDay (2261 + 1)).days = 106651 := by
    decide
  have hhour := t.hour_nonneg
  have hhour' := t.hour_lt
  have hminute := t.minute_nonneg
  have hminute' := t.minute_lt
  have hsecond := t.second_nonneg
  have hsecond' := t.second_lt
  unfold FitsInt64 Moment.seconds
  omega

/-- The time of a bar, on the text of a moment. -/
theorem isoToNs_zulu
    (t : Moment) (h : InRange t)
    {fraction : List Char} (hends : Ends (fraction ++ ['Z'])) :
    isoToNs utcSeconds (zulu t fraction) =
      if t.seconds = -1 then 0 else t.seconds * 1000000000 := by
  have hfits := h.fits le_rfl (show (0 : Int) < 1000000000 by decide)
  rw [add_zero] at hfits
  obtain ⟨hfirst, hlast⟩ := h
  rw [isoToNs, scanDate_zulu t (by omega) (by omega) hends]
  simp only [utcSeconds_tmOf, wrapInt64_of_fits hfits]

end AlpacaClient

/-! ### The crypto feed -/

/-- A `datetime` of Python: a moment on the clock of its time zone, and the
zone's offset in microseconds unless it is naive. -/
structure Datetime where
  moment : Moment
  microsecond : Int
  utcoffset : Option Int

/-- `_iso_to_ns`; nothing when `fromisoformat` raises. -/
def coinbaseIsoToNs (fromisoformat : String → Option Datetime)
    (ts : String) : Option Int :=
  (fromisoformat ts).map fun dt =>
    -- a naive time is taken for UTC
    let offset := dt.utcoffset.getD 0
    let delta := dt.moment.seconds * 1000000 + dt.microsecond - offset
    let days := delta / 86400000000
    let seconds := delta % 86400000000 / 1000000
    let microseconds := delta % 1000000
    (days * 86400 + seconds) * 1000000000 + microseconds * 1000

/-- The parts of the difference make up the difference. -/
theorem coinbaseIsoToNs_eq
    {fromisoformat : String → Option Datetime} {ts : String}
    {dt : Datetime} (h : fromisoformat ts = some dt) :
    coinbaseIsoToNs fromisoformat ts =
      some ((dt.moment.seconds * 1000000 + dt.microsecond -
        dt.utcoffset.getD 0) * 1000) := by
  simp only [coinbaseIsoToNs, h, Option.map_some, Option.some.injEq]
  omega

/-- **The two feeds share a clock.**  A stock bar at `t`, with any fraction of
a second, and a crypto tick at `u`, read to the microsecond, in the years 1678
to 2261: their chart times fit `TimestampNs`, and they are in the order of the
calendar and the clock, down to the second of the bar, and equal exactly for a
tick on that second. -/
theorem feeds_share_clock
    {fromisoformat : String → Option Datetime}
    (t u : Moment) (us : Nat) {fraction : List Char}
    (ht : AlpacaClient.InRange t) (hu : AlpacaClient.InRange u)
    (hends : AlpacaClient.Ends (fraction ++ ['Z']))
    (hne : t.seconds ≠ -1)
    (hus : us < 1000000)
    (hiso : fromisoformat (zulu u (microText us)) =
      some { moment := u, microsecond := us, utcoffset := some 0 }) :
    ∃ stock crypto,
      AlpacaClient.isoToNs utcSeconds (zulu t fraction) = stock ∧
        coinbaseIsoToNs fromisoformat (zulu u (microText us)) =
          some crypto ∧
        (FitsInt64 stock ∧ FitsInt64 crypto) ∧
        (stock < crypto ↔
          t.Earlier u ∨ t.seconds = u.seconds ∧ 0 < us) ∧
        (crypto < stock ↔ u.Earlier t) ∧
        (stock = crypto ↔ t.seconds = u.seconds ∧ us = 0) := by
  have hstock := ht.fits le_rfl (show (0 : Int) < 1000000000 by decide)
  have hcrypto := hu.fits (show (0 : Int) ≤ us * 1000 by omega) (by omega)
  refine ⟨t.seconds * 1000000000, u.seconds * 1000000000 + us * 1000, ?_, ?_,
    ⟨by rwa [add_zero] at hstock, hcrypto⟩, ?_⟩
  · rw [AlpacaClient.isoToNs_zulu t ht hends, if_neg hne]
  · rw [coinbaseIsoToNs_eq hiso, Option.getD_some, Option.some.injEq]
    simp only
    omega
  · rw [Moment.earlier_iff, Moment.earlier_iff]
    omega

/-- The beginning of 2000. -/
def newYear2000 : Moment where
  toDate := Date.firstDay 2000
  hour := 0
  minute := 0
  second := 0
  hour_nonneg := by decide
  hour_lt := by decide
  minute_nonneg := by decide
  minute_lt := by decide
  second_nonneg := by decide
  second_lt := by decide

/-- A bar and a tick half a second after it. -/
theorem feeds_share_clock_2000 :
    ∃ stock crypto,
      AlpacaClient.isoToNs utcSeconds (zulu newYear2000 []) = stock ∧
        coinbaseIsoToNs
            (fun _ => some
              { moment := newYear2000, microsecond := 500000,
                utcoffset := some 0 })
            (zulu newYear2000 (microText 500000)) =
          some crypto ∧
        (FitsInt64 stock ∧ FitsInt64 crypto) ∧
        (stock < crypto ↔
          newYear2000.Earlier newYear2000 ∨
            newYear2000.seconds = newYear2000.seconds ∧ 0 < 500000) ∧
        (crypto < stock ↔ newYear2000.Earlier newYear2000) ∧
        (stock = crypto ↔
          newYear2000.seconds = newYear2000.seconds ∧ 500000 = 0) :=
  feeds_share_clock newYear2000 newYear2000 500000 ⟨by decide, by decide⟩
    ⟨by decide, by decide⟩ (AlpacaClient.ends_cons rfl []) (by decide)
    (by decide) rfl

/-- The texts are those of the two providers. -/
example :
    zulu newYear2000 [] = "2000-01-01T00:00:00Z" ∧
      zulu newYear2000 (microText 28459) =
        "2000-01-01T00:00:00.028459Z" := by
  decide +kernel

end ExecutionLayer
