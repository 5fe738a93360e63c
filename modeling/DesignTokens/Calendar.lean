/-!
Instants as dates of the proleptic Gregorian calendar in UTC.
-/

namespace DesignTokens

/-- Milliseconds since the beginning of 1970. -/
structure Instant where
  milliseconds : Int
  deriving DecidableEq

namespace Calendar

/-- A day of the calendar. -/
structure Date where
  year : Int
  month : Nat
  day : Nat
  deriving DecidableEq

/-- The date of a day, counted from the first of January 1970. Years are taken to begin in March, so that the day
that leap years add comes last in them; 400 years have 146097 days. -/
def Date.ofDay (n : Int) : Date :=
  let shifted := n + 719468
  let era := shifted / 146097
  let inEra := (shifted % 146097).toNat
  let yearInEra := (inEra - inEra / 1460 + inEra / 36524 - inEra / 146096) / 365
  let inYear := inEra - (365 * yearInEra + yearInEra / 4 - yearInEra / 100)
  let fromMarch := (5 * inYear + 2) / 153
  let month := if fromMarch < 10 then fromMarch + 3 else fromMarch - 9
  ⟨yearInEra + era * 400 + if month ≤ 2 then 1 else 0, month, inYear - (153 * fromMarch + 2) / 5 + 1⟩

/-- A number with zeros in front up to a width. -/
def padded (width n : Nat) : String :=
  let digits := Nat.toDigits 10 n
  .ofList (List.replicate (width - digits.length) '0' ++ digits)

/-- A year has four digits; outside of those it has a sign and at least four. -/
def yearText (year : Int) : String :=
  if year < 0 then "-" ++ padded 4 year.natAbs
  else if 9999 < year then "+" ++ padded 4 year.natAbs
  else padded 4 year.natAbs

end Calendar

/-- Date and time with milliseconds, in UTC. -/
def Instant.text (t : Instant) : String :=
  let day := t.milliseconds / 86400000
  let ms := (t.milliseconds % 86400000).toNat
  let date := Calendar.Date.ofDay day
  Calendar.yearText date.year ++ "-" ++ Calendar.padded 2 date.month ++ "-" ++ Calendar.padded 2 date.day ++ "T" ++
    Calendar.padded 2 (ms / 3600000) ++ ":" ++ Calendar.padded 2 (ms / 60000 % 60) ++ ":" ++
    Calendar.padded 2 (ms / 1000 % 60) ++ "." ++ Calendar.padded 3 (ms % 1000) ++ "Z"

end DesignTokens
