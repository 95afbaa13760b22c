namespace PartialHorn

namespace Duration

/-- The digits of a number, filled up with zeros on the left to a width. -/
def padded (width n : Nat) : List Char :=
  let digits := Nat.toDigits 10 n
  List.replicate (width - digits.length) '0' ++ digits

/-- The decimal places of a fraction with a fixed number of digits, without trailing zeros. -/
def places (width fraction : Nat) : List Char :=
  ((padded width fraction).reverse.dropWhile (· == '0')).reverse

def microsecond : Nat := 1000

def millisecond : Nat := 1000000

def second : Nat := 1000000000

/-- A number of units written as a decimal, where `width` digits make up one unit. -/
def inUnit (unit width : Nat) (name : String) (nanos : Nat) : String :=
  let whole := toString (nanos / unit)
  let digits := places width (nanos % unit)
  if digits.isEmpty then whole ++ name else whole ++ "." ++ String.ofList digits ++ name

/-- A length of time, given in nanoseconds, in the largest unit of which it has a whole one. -/
def text (nanos : Nat) : String :=
  if second ≤ nanos then inUnit second 9 "s" nanos
  else if millisecond ≤ nanos then inUnit millisecond 6 "ms" nanos
  else if microsecond ≤ nanos then inUnit microsecond 3 "µs" nanos
  else toString nanos ++ "ns"

end Duration

end PartialHorn
