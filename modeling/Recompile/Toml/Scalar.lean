import Recompile.Text.Classes
import Recompile.Toml.Basic

/-!
Numbers, dates and times of TOML.

Integers have 64 bits. A float whose value rounds to positive infinity is refused. Dates have to
exist in the calendar.
-/

namespace Recompile.Toml

open Text (isAsciiDigit)

def digitValue (c : Char) : Nat := c.toNat - 48

def decimalValue (cs : List Char) : Nat := cs.foldl (fun acc c => acc * 10 + digitValue c) 0

/-- Reads digits that single underscores may divide. The digits come without underscores. -/
def digits? (isDigit : Char → Bool) : List Char → Option (List Char × List Char)
  | [] => none
  | [c] => if isDigit c then some ([c], []) else none
  | c :: '_' :: rest =>
      if isDigit c then (digits? isDigit rest).map fun r => (c :: r.1, r.2) else none
  | c :: d :: rest =>
      if isDigit c then
        if isDigit d then (digits? isDigit (d :: rest)).map fun r => (c :: r.1, r.2)
        else some ([c], d :: rest)
      else none

def sign : List Char → Bool × List Char
  | '-' :: rest => (true, rest)
  | '+' :: rest => (false, rest)
  | cs => (false, cs)

/-- The whole part of a number: zero, or digits that start with another one. -/
def wholeDigits? : List Char → Option (List Char × List Char)
  | '0' :: rest => some (['0'], rest)
  | cs => digits? isAsciiDigit cs

def isHexDigit (c : Char) : Bool :=
  isAsciiDigit c || ('a' ≤ c && c ≤ 'f') || ('A' ≤ c && c ≤ 'F')

def hexDigitValue (c : Char) : Nat :=
  if isAsciiDigit c then c.toNat - 48
  else if 'a' ≤ c ∧ c ≤ 'f' then c.toNat - 87
  else c.toNat - 55

def integerBound : Nat := 9223372036854775808

def based? (base : Nat) (isDigit : Char → Bool) (cs : List Char) : Option (Node × List Char) := do
  let (ds, rest) ← digits? isDigit cs
  let n := ds.foldl (fun acc c => acc * base + hexDigitValue c) 0
  if n < integerBound then return (.integer n, rest) else none

def integer? : List Char → Option (Node × List Char)
  | '0' :: 'x' :: rest => based? 16 isHexDigit rest
  | '0' :: 'o' :: rest => based? 8 (fun c => '0' ≤ c && c ≤ '7') rest
  | '0' :: 'b' :: rest => based? 2 (fun c => c = '0' || c = '1') rest
  | cs => do
      let (negative, rest) := sign cs
      let (ds, rest) ← wholeDigits? rest
      let n := decimalValue ds
      if negative then
        if n ≤ integerBound then return (.integer (-n), rest) else none
      else if n < integerBound then return (.integer n, rest) else none

/-- Whether a decimal rounds to infinity in double precision: it lies at or beyond the middle
between the largest double and the next power of two. -/
def overflows (mantissa : Nat) (exponent : Int) : Bool :=
  let magnitude : Int := (Nat.toDigits 10 mantissa).length + exponent
  if mantissa = 0 ∨ magnitude < 300 then false
  else if 400 < magnitude then true
  else
    let bound := Nat.pow 2 1024 - Nat.pow 2 970
    if 0 ≤ exponent then bound ≤ mantissa * Nat.pow 10 exponent.toNat
    else bound * Nat.pow 10 (-exponent).toNat ≤ mantissa

def exponent? : List Char → Option (Int × List Char)
  | e :: rest =>
      if e = 'e' ∨ e = 'E' then do
        let (negative, rest) := sign rest
        let (ds, rest) ← digits? isAsciiDigit rest
        let n : Int := decimalValue ds
        return (if negative then -n else n, rest)
      else none
  | [] => none

def decimalFloat? (cs : List Char) : Option (Node × List Char) := do
  let (negative, rest) := sign cs
  let (whole, rest) ← wholeDigits? rest
  let (fraction, rest) ← match rest with
    | '.' :: after => digits? isAsciiDigit after
    | _ => if (exponent? rest).isSome then some ([], rest) else none
  let (exponent, rest) := (exponent? rest).getD (0, rest)
  let mantissa := decimalValue (whole ++ fraction)
  if !negative && overflows mantissa (exponent - fraction.length) then none
  return (.float (String.ofList (cs.take (cs.length - rest.length))), rest)

def specialFloat? (cs : List Char) : Option (Node × List Char) :=
  match (sign cs).2 with
  | 'i' :: 'n' :: 'f' :: rest => some (.float "inf", rest)
  | 'n' :: 'a' :: 'n' :: rest => some (.float "nan", rest)
  | _ => none

def field? (count low high : Nat) (cs : List Char) : Option (Nat × List Char) :=
  let ds := cs.take count
  if ds.length = count ∧ ds.all isAsciiDigit ∧ low ≤ decimalValue ds ∧ decimalValue ds ≤ high then
    some (decimalValue ds, cs.drop count)
  else none

def expect? (c : Char) : List Char → Option (List Char)
  | d :: rest => if c = d then some rest else none
  | [] => none

def isLeapYear (y : Nat) : Bool := y % 4 = 0 && (y % 100 != 0 || y % 400 = 0)

def daysInMonth (y m : Nat) : Nat :=
  if m = 2 then if isLeapYear y then 29 else 28
  else if m = 4 ∨ m = 6 ∨ m = 9 ∨ m = 11 then 30
  else 31

def date? (cs : List Char) : Option (List Char) := do
  let (y, rest) ← field? 4 0 9999 cs
  let rest ← expect? '-' rest
  let (m, rest) ← field? 2 1 12 rest
  let rest ← expect? '-' rest
  let (_, rest) ← field? 2 1 (daysInMonth y m) rest
  return rest

def secondFraction? : List Char → Option (List Char)
  | '.' :: rest =>
      match rest.takeWhile isAsciiDigit with
      | [] => none
      | _ => some (rest.dropWhile isAsciiDigit)
  | cs => some cs

def time? (cs : List Char) : Option (List Char) := do
  let (_, rest) ← field? 2 0 23 cs
  let rest ← expect? ':' rest
  let (_, rest) ← field? 2 0 59 rest
  let rest ← expect? ':' rest
  let (_, rest) ← field? 2 0 60 rest
  secondFraction? rest

def timeOffset? : List Char → Option (List Char)
  | [] => some []
  | c :: rest =>
      if c = 'Z' ∨ c = 'z' then some rest
      else if c = '+' ∨ c = '-' then do
        let (_, rest) ← field? 2 0 23 rest
        let rest ← expect? ':' rest
        let (_, rest) ← field? 2 0 59 rest
        return rest
      else some (c :: rest)

/-- Passes over a time after a date, if there is one. A blank that no time follows is not part of
the value. -/
def timeOfDay? : List Char → Option (List Char)
  | c :: rest =>
      if c = 'T' ∨ c = 't' ∨ c = ' ' then
        match field? 2 0 23 rest with
        | some (_, ':' :: _) => (time? rest).bind timeOffset?
        | _ => some (c :: rest)
      else some (c :: rest)
  | [] => some []

def datetime? (cs : List Char) : Option (Node × List Char) := do
  let rest ← match date? cs with
    | some rest => timeOfDay? rest
    | none => time? cs
  return (.datetime (String.ofList (cs.take (cs.length - rest.length))), rest)

def number? (cs : List Char) : Option (Node × List Char) :=
  match datetime? cs with
  | some found => some found
  | none =>
      match decimalFloat? cs with
      | some found => some found
      | none => (specialFloat? cs).orElse fun _ => integer? cs

end Recompile.Toml
