import BlockSieve.Toml.Lexeme

/-!
Numbers, truth values, dates and times of a TOML document. Whole numbers have
to fit 64 bits, a positive decimal number must not be too large for a double,
and a date has to be in the calendar.
-/

namespace BlockSieve.Toml

/-- Digits of a kind with single underscores between them. -/
def grouped? (isDigit : Char → Bool) : Text → Taken Text
  | [] => none
  | c :: rest =>
    if isDigit c then
      match rest with
      | '_' :: more => (grouped? isDigit more).cons c
      | d :: more =>
        if isDigit d then (grouped? isDigit (d :: more)).cons c else some ([c], d :: more)
      | [] => some ([c], [])
    else none

/-- The value of digits in a base. -/
def valueIn (base : Nat) (digits : Text) : Nat :=
  digits.foldl (fun n c => n * base + (Text.hexDigit? c).getD 0) 0

/-- A sign, if there is one. -/
def sign (t : Text) : Bool × Text :=
  match t with
  | '-' :: rest => (true, rest)
  | '+' :: rest => (false, rest)
  | _ => (false, t)

/-- The digits of a whole number: a zero alone, or digits that do not begin with one. -/
def wholeDigits? (t : Text) : Taken Text :=
  match t with
  | '0' :: rest => some (['0'], rest)
  | _ => grouped? Char.isDigit t

/-- The number after the greatest whole number. -/
def wholeLimit : Nat := 0x8000000000000000

/-- A whole number in base sixteen, eight, two or ten. -/
def integer? (t : Text) : Option Text :=
  let based (base : Nat) (isDigit : Char → Bool) (rest : Text) : Option Text :=
    match grouped? isDigit rest with
    | none => none
    | some (digits, rest) => if valueIn base digits < wholeLimit then some rest else none
  match t with
  | '0' :: 'x' :: rest => based 16 (fun c => (Text.hexDigit? c).isSome) rest
  | '0' :: 'o' :: rest => based 8 (fun c => '0' ≤ c && c ≤ '7') rest
  | '0' :: 'b' :: rest => based 2 (fun c => c == '0' || c == '1') rest
  | _ =>
    let (negative, t) := sign t
    match wholeDigits? t with
    | none => none
    | some (digits, rest) =>
      let n := valueIn 10 digits
      if n < wholeLimit ∨ (negative ∧ n = wholeLimit) then some rest else none

/-- Whether `m * 10 ^ e` is rounded to infinity as a double: it reaches the middle between the
greatest double and the next power of two. -/
def overflows (m : Nat) (e : Int) : Bool :=
  let bound := Nat.pow 2 1024 - Nat.pow 2 970
  let digits := (Nat.toDigits 10 m).length
  if m = 0 then false
  else if (digits : Int) + e > 400 then true
  else if (digits : Int) + e < 200 then false
  else decide (bound * Nat.pow 10 (-e).toNat ≤ m * Nat.pow 10 e.toNat)

/-- The exponent of a decimal number. -/
def exponent? (t : Text) : Taken Int :=
  match t with
  | c :: rest =>
    if c = 'e' ∨ c = 'E' then
      let (negative, rest) := sign rest
      match grouped? Char.isDigit rest with
      | none => none
      | some (digits, rest) =>
        let n : Int := valueIn 10 digits
        some (if negative then -n else n, rest)
    else none
  | [] => none

/-- A decimal number: it has places or an exponent, or is infinite or no number. -/
def float? (t : Text) : Option Text :=
  let (negative, t) := sign t
  match Text.after? "inf".toList t, Text.after? "nan".toList t with
  | some rest, _ => some rest
  | none, some rest => some rest
  | none, none =>
    match wholeDigits? t with
    | none => none
    | some (whole, rest) =>
      let checked (places : Text) (e : Int) (rest : Text) : Option Text :=
        if !negative && overflows (valueIn 10 (whole ++ places)) (e - places.length) then none
        else some rest
      match rest with
      | '.' :: more =>
        match grouped? Char.isDigit more with
        | none => none
        | some (places, rest) =>
          match exponent? rest with
          | some (e, rest) => checked places e rest
          | none => checked places 0 rest
      | _ =>
        match exponent? rest with
        | some (e, rest) => checked [] e rest
        | none => none

/-- A number of so many digits. -/
def fixedDigits? (count : Nat) (t : Text) : Taken Nat :=
  let digits := t.take count
  if digits.length = count ∧ digits.all Char.isDigit then some (valueIn 10 digits, t.drop count)
  else none

/-- The days of a month. -/
def daysIn (year month : Nat) : Nat :=
  if month = 2 then
    if year % 4 = 0 ∧ (year % 100 ≠ 0 ∨ year % 400 = 0) then 29 else 28
  else if month = 4 ∨ month = 6 ∨ month = 9 ∨ month = 11 then 30
  else 31

/-- A date in the calendar. -/
def date? (t : Text) : Option Text := do
  let (year, t) ← fixedDigits? 4 t
  let t ← Text.after? ['-'] t
  let (month, t) ← fixedDigits? 2 t
  let t ← Text.after? ['-'] t
  let (day, t) ← fixedDigits? 2 t
  if 1 ≤ month ∧ month ≤ 12 ∧ 1 ≤ day ∧ day ≤ daysIn year month then some t else none

/-- Hours and minutes. -/
def hourMinute? (t : Text) : Option Text := do
  let (hour, t) ← fixedDigits? 2 t
  let t ← Text.after? [':'] t
  let (minute, t) ← fixedDigits? 2 t
  if hour ≤ 23 ∧ minute ≤ 59 then some t else none

/-- A time of day, where a leap second may be named and fractions of a second may follow. -/
def time? (t : Text) : Option Text := do
  let t ← hourMinute? t
  let t ← Text.after? [':'] t
  let (second, t) ← fixedDigits? 2 t
  if second ≤ 60 then
    match t with
    | '.' :: d :: rest => some (if d.isDigit then rest.dropWhile Char.isDigit else t)
    | _ => some t
  else none

/-- A text without the offset from universal time it begins with, if it begins with one. -/
def skipOffset (t : Text) : Text :=
  match t with
  | c :: rest =>
    if c = 'Z' ∨ c = 'z' then rest
    else if c = '+' ∨ c = '-' then (hourMinute? rest).getD t
    else t
  | [] => []

/-- A date, a time, or both with an offset. -/
def dateTime? (t : Text) : Option Text :=
  match date? t with
  | none => time? t
  | some rest =>
    match rest with
    | c :: more =>
      if c = 'T' ∨ c = 't' ∨ c = ' ' then
        match time? more with
        | some rest => some (skipOffset rest)
        | none => some rest
      else some rest
    | [] => some []

/-- What follows a number, a truth value, a date or a time. -/
def scalar? (t : Text) : Option Text :=
  match t with
  | [] => none
  | c :: rest =>
    if c = '+' ∨ c = '-' ∨ c.isDigit then
      match dateTime? t with
      | some rest => some rest
      | none =>
        match float? t with
        | some rest => some rest
        | none => integer? t
    else if c = 't' then Text.after? "rue".toList rest
    else if c = 'f' then Text.after? "alse".toList rest
    else if c = 'i' then Text.after? "nf".toList rest
    else if c = 'n' then Text.after? "an".toList rest
    else none

end BlockSieve.Toml
