/-! Dates and times of TOML documents: a date, a time of day, or both, and then an offset may
follow. Seconds may be left out, and of the digits after their point the first nine count. The
display of a moment is its spelling in full, without zeros at the end of the fraction. -/

namespace SchemaModels.Toml
set_option autoImplicit false

/-! ## Digits -/

/-- The number that decimal digits denote. -/
def decimal (digits : List Char) : Nat :=
  digits.foldl (fun n c => 10 * n + (c.toNat - '0'.toNat)) 0

/-- A number in decimal digits, with zeros before it up to a width. -/
def padded (width n : Nat) : List Char :=
  let digits := Nat.toDigits 10 n
  List.replicate (width - digits.length) '0' ++ digits

/-- Reads a number of so many digits. -/
def fixed? (width : Nat) (cs : List Char) : Option (Nat × List Char) :=
  let digits := cs.take width
  if digits.length = width ∧ digits.all Char.isDigit then some (decimal digits, cs.drop width)
  else none

/-- Reads a mark and a number of two digits. -/
def afterMark? (mark : Char) : List Char → Option (Nat × List Char)
  | [] => none
  | c :: cs => if c = mark then fixed? 2 cs else none

/-! ## Dates -/

structure Date where
  year : Nat
  month : Nat
  day : Nat
deriving DecidableEq, Repr

namespace Date

def isLeapYear (year : Nat) : Bool :=
  year % 4 = 0 && (year % 100 ≠ 0 || year % 400 = 0)

def daysInMonth (year month : Nat) : Nat :=
  if month = 2 then if isLeapYear year then 29 else 28
  else if month = 4 ∨ month = 6 ∨ month = 9 ∨ month = 11 then 30
  else 31

/-- Whether a date is one of the calendar. -/
def isValid (date : Date) : Bool :=
  1 ≤ date.month && date.month ≤ 12 && 1 ≤ date.day && date.day ≤ daysInMonth date.year date.month

def read? (cs : List Char) : Option (Date × List Char) := do
  let (year, cs) ← fixed? 4 cs
  let (month, cs) ← afterMark? '-' cs
  let (day, cs) ← afterMark? '-' cs
  let date : Date := ⟨year, month, day⟩
  if date.isValid then some (date, cs) else none

def display (date : Date) : List Char :=
  padded 4 date.year ++ '-' :: padded 2 date.month ++ '-' :: padded 2 date.day

end Date

/-! ## Times -/

structure Time where
  hour : Nat
  minute : Nat
  second : Nat
  nanosecond : Nat
deriving DecidableEq, Repr

namespace Time

/-- Whether a time is one of a day. A minute may have a leap second. -/
def isValid (time : Time) : Bool :=
  time.hour ≤ 23 && time.minute ≤ 59 && time.second ≤ 60

/-- Reads a point and digits as nanoseconds; zero if there are none. -/
def nanoseconds : List Char → Nat × List Char
  | '.' :: cs =>
    match cs.takeWhile Char.isDigit with
    | [] => (0, '.' :: cs)
    | digits => (decimal ((digits ++ List.replicate 9 '0').take 9), cs.dropWhile Char.isDigit)
  | cs => (0, cs)

def read? (cs : List Char) : Option (Time × List Char) := do
  let (hour, cs) ← fixed? 2 cs
  let (minute, cs) ← afterMark? ':' cs
  let (second, nanosecond, cs) :=
    match afterMark? ':' cs with
    | some (second, cs) => (second, nanoseconds cs)
    | none => (0, 0, cs)
  let time : Time := ⟨hour, minute, second, nanosecond⟩
  if time.isValid then some (time, cs) else none

/-- The digits after the point, and the point, if there are any. -/
def displayFraction (nanosecond : Nat) : List Char :=
  if nanosecond = 0 then []
  else '.' :: ((padded 9 nanosecond).reverse.dropWhile (· = '0')).reverse

def display (time : Time) : List Char :=
  padded 2 time.hour ++ ':' :: padded 2 time.minute ++ ':' :: padded 2 time.second ++
    displayFraction time.nanosecond

end Time

/-! ## Offsets -/

/-- How far a time is ahead of that of the zero meridian. -/
inductive Offset where
  | zero
  | minutes (ahead : Int)
deriving DecidableEq, Repr

namespace Offset

/-- Reads hours and minutes. -/
def span? (cs : List Char) : Option (Nat × List Char) := do
  let (hour, cs) ← fixed? 2 cs
  let (minute, cs) ← afterMark? ':' cs
  if hour ≤ 23 ∧ minute ≤ 59 then some (60 * hour + minute, cs) else none

def read? : List Char → Option (Offset × List Char)
  | [] => none
  | c :: cs =>
    if c = 'Z' ∨ c = 'z' then some (zero, cs)
    else if c = '+' then (span? cs).map fun r => (minutes r.1, r.2)
    else if c = '-' then (span? cs).map fun r => (minutes (-r.1), r.2)
    else none

def display : Offset → List Char
  | zero => ['Z']
  | minutes ahead =>
    (if ahead < 0 then '-' else '+') :: padded 2 (ahead.natAbs / 60) ++
      ':' :: padded 2 (ahead.natAbs % 60)

end Offset

/-! ## Moments -/

inductive Moment where
  | date (date : Date)
  | time (time : Time)
  | dateTime (date : Date) (time : Time) (offset : Option Offset)
deriving DecidableEq, Repr

namespace Moment

/-- Drops the mark between a date and a time. -/
def dropDelimiter? : List Char → Option (List Char)
  | [] => none
  | c :: cs => if c = 'T' ∨ c = 't' ∨ c = ' ' then some cs else none

/-- Reads a date with a time. -/
def readDateTime? (cs : List Char) : Option (Moment × List Char) := do
  let (d, cs) ← Date.read? cs
  let (t, cs) ← Time.read? (← dropDelimiter? cs)
  match Offset.read? cs with
  | some (offset, cs) => return (dateTime d t (some offset), cs)
  | none => return (dateTime d t none, cs)

/-- Reads a moment that has a time. -/
def readTimed? (cs : List Char) : Option (Moment × List Char) :=
  readDateTime? cs <|> (Time.read? cs).map fun r => (time r.1, r.2)

/-- The date that a text is. -/
def ofDate? (text : List Char) : Option Moment :=
  match Date.read? text with
  | some (d, []) => some (date d)
  | _ => none

def display : Moment → String
  | date d => String.ofList d.display
  | time t => String.ofList t.display
  | dateTime d t offset =>
    String.ofList (d.display ++ 'T' :: t.display ++ (offset.map Offset.display).getD [])

end Moment

end SchemaModels.Toml
