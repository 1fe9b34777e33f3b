import SparseWeights.Decimal.Rounded

/-!
Moments of time: a day, a time of day, or both, the latter with or without an offset from universal
time. A moment has a plain text, and a notation that spells out its parts; in the notation a time leaves
out seconds and fractions that are zero.
-/

namespace SparseWeights

structure Day where
  year : Nat
  month : Nat
  day : Nat
  deriving DecidableEq, Repr

structure TimeOfDay where
  hour : Nat
  minute : Nat
  second : Nat
  microsecond : Nat
  deriving DecidableEq, Repr

inductive Moment where
  | date (day : Day)
  | time (time : TimeOfDay)
  /-- The offset is in minutes; without one the time is local. -/
  | datetime (day : Day) (time : TimeOfDay) (offset : Option Int)
  deriving DecidableEq, Repr

def isLeapYear (year : Nat) : Bool := year % 4 == 0 && (year % 100 != 0 || year % 400 == 0)

def daysIn (year month : Nat) : Nat :=
  if month = 2 then (if isLeapYear year then 29 else 28)
  else if month = 4 ∨ month = 6 ∨ month = 9 ∨ month = 11 then 30
  else 31

/-- Whether a day is in the calendar, whose first year is one. -/
def Day.isInCalendar (d : Day) : Bool :=
  1 ≤ d.year && 1 ≤ d.month && d.month ≤ 12 && 1 ≤ d.day && d.day ≤ daysIn d.year d.month

namespace Moment

def padded (width n : Nat) : String := String.ofList (Decimal.zeroPadded width n)

def dayText (d : Day) : String :=
  padded 4 d.year ++ "-" ++ padded 2 d.month ++ "-" ++ padded 2 d.day

def timeText (t : TimeOfDay) : String :=
  padded 2 t.hour ++ ":" ++ padded 2 t.minute ++ ":" ++ padded 2 t.second ++
    if t.microsecond = 0 then "" else "." ++ padded 6 t.microsecond

def offsetText (offset : Int) : String :=
  (if offset < 0 then "-" else "+") ++ padded 2 (offset.natAbs / 60) ++ ":" ++
    padded 2 (offset.natAbs % 60)

def text : Moment → String
  | .date d => dayText d
  | .time t => timeText t
  | .datetime d t offset => dayText d ++ " " ++ timeText t ++ offset.elim "" offsetText

def call (name : String) (arguments : List String) : String :=
  "datetime." ++ name ++ "(" ++ ", ".intercalate arguments ++ ")"

def dayParts (d : Day) : List Nat := [d.year, d.month, d.day]

/-- The parts of a time, without seconds and fractions that are zero. -/
def timeParts (t : TimeOfDay) : List Nat :=
  [t.hour, t.minute] ++
    if t.microsecond ≠ 0 then [t.second, t.microsecond]
    else if t.second ≠ 0 then [t.second]
    else []

/-- An offset as whole days and the seconds that are left, which are not negative. -/
def offsetLiteral (offset : Int) : String :=
  if offset = 0 then "datetime.timezone.utc"
  else
    let days := if offset < 0 then ["days=-1"] else []
    let seconds := offset * 60 % 86400
    call "timezone" [call "timedelta" (days ++ ["seconds=" ++ Decimal.intText seconds])]

def literal : Moment → String
  | .date d => call "date" ((dayParts d).map Decimal.natText)
  | .time t => call "time" ((timeParts t).map Decimal.natText)
  | .datetime d t offset => call "datetime" ((dayParts d ++ timeParts t).map Decimal.natText ++
      (offset.map fun minutes => "tzinfo=" ++ offsetLiteral minutes).toList)

end Moment

end SparseWeights
