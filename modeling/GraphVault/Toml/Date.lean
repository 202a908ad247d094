/-!
# Dates and times of day

How TOML writes moments: a day of the calendar, a time of day, or both with `T` or a space between
them, behind which may stand how far the clock is from the universal one. Seconds may be left out.
-/

namespace GraphVault.Toml.Date

/-- The number that digits write. -/
def number (digits : List Char) : Nat :=
  digits.foldl (fun n c => 10 * n + (c.toNat - '0'.toNat)) 0

/-- The number at the front of a text that has exactly the given count of digits. -/
def digits? (count : Nat) (cs : List Char) : Option (Nat × List Char) :=
  let run := cs.takeWhile Char.isDigit
  if run.length = count then some (number run, cs.dropWhile Char.isDigit) else none

/-- The text behind a mark. -/
def behind? (mark : Char) : List Char → Option (List Char)
  | c :: rest => if c = mark then some rest else none
  | [] => none

/-- Whether February has a 29th day. -/
def isLeapYear (year : Nat) : Bool := year % 4 = 0 && (year % 100 ≠ 0 || year % 400 = 0)

/-- The number of days of a month. -/
def daysInMonth (year month : Nat) : Nat :=
  if month = 2 then if isLeapYear year then 29 else 28
  else if month ∈ [4, 6, 9, 11] then 30
  else 31

/-- The text behind a day of the calendar. -/
def day? (cs : List Char) : Option (List Char) := do
  let (year, rest) ← digits? 4 cs
  let (month, rest) ← digits? 2 (← behind? '-' rest)
  let (day, rest) ← digits? 2 (← behind? '-' rest)
  guard (1 ≤ month ∧ month ≤ 12 ∧ 1 ≤ day ∧ day ≤ daysInMonth year month)
  return rest

/-- The text behind an hour and a minute, and the minutes that they come to. -/
def clock? (cs : List Char) : Option (Nat × List Char) := do
  let (hour, rest) ← digits? 2 cs
  let (minute, rest) ← digits? 2 (← behind? ':' rest)
  guard (hour ≤ 23 ∧ minute ≤ 59)
  return (60 * hour + minute, rest)

/-- The text behind the fraction of a second, if there is one. -/
def skipFraction? : List Char → Option (List Char)
  | '.' :: rest =>
    if (rest.takeWhile Char.isDigit).isEmpty then none else some (rest.dropWhile Char.isDigit)
  | cs => some cs

/-- The text behind a time of day; a minute may have a leap second. -/
def time? (cs : List Char) : Option (List Char) := do
  match ← clock? cs with
  | (_, ':' :: rest) =>
    let (second, rest) ← digits? 2 rest
    guard (second ≤ 60)
    skipFraction? rest
  | (_, rest) => return rest

/-- Whether a text is the distance of a clock from the universal one, or nothing. -/
def isOffset : List Char → Bool
  | [] => true
  | mark :: rest =>
    if mark = 'Z' || mark = 'z' then rest.isEmpty
    else (mark = '+' || mark = '-') && (clock? rest).any (·.2.isEmpty)

/-- Whether a character stands between a day and a time. -/
def isDivider (c : Char) : Bool := c = 'T' || c = 't' || c = ' '

/-- Whether a text writes a moment. -/
def isMoment (cs : List Char) : Bool :=
  match day? cs with
  | none => (time? cs).any (·.isEmpty)
  | some [] => true
  | some (divider :: rest) => isDivider divider && (time? rest).any isOffset

end GraphVault.Toml.Date
