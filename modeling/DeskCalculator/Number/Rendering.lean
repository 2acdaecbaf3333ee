import DeskCalculator.Number.Decimal
/-!
How a number is written on the display: the shortest decimal that is read back, positional from a
millionth up to below `10 ^ 21` and with an exponent outside that range.
-/
namespace DeskCalculator.Number

def leastOrder : Int := -5

def greatestOrder : Int := 21

def positional (digits : List Char) (order : Int) : List Char :=
  if order ≤ 0 then '0' :: '.' :: (List.replicate (-order).toNat '0' ++ digits)
  else if digits.length ≤ order.toNat then
    digits ++ List.replicate (order.toNat - digits.length) '0'
  else digits.take order.toNat ++ '.' :: digits.drop order.toNat

/-- One digit, the others after a point, and the signed exponent of the leading digit. -/
def exponential (digits : List Char) (order : Int) : List Char :=
  let exponent := order - 1
  digits.take 1
    ++ (if digits.length ≤ 1 then [] else '.' :: digits.drop 1)
    ++ 'e' :: (if exponent < 0 then '-' else '+') :: Nat.toDigits 10 exponent.natAbs

def renderDecimal (d : Decimal) : List Char :=
  if leastOrder ≤ d.order && d.order ≤ greatestOrder then positional d.digits d.order
  else exponential d.digits d.order

def renderCode (code : Nat) : List Char :=
  if code = 0 then ['0']
  else if code < Binary64.infinityCode then renderDecimal (Decimal.shortest code)
  else if code = Binary64.infinityCode then ['i', 'n', 'f']
  else ['N', 'a', 'N']

/-- The written form of a number: a minus sign before a negative one, but none before zero or before a
number that is none. -/
def render (x : Float) : String :=
  let code := Binary64.code x
  let signed := Binary64.isNegative x && 0 < code && code ≤ Binary64.infinityCode
  String.ofList (if signed then '-' :: renderCode code else renderCode code)

example : render (Float.ofBits 0x3FB999999999999A) = "0.1" := by decide +kernel

/-- Two decimals of 17 digits are equally near to this power of two; the greater one is written. -/
example : render (Float.ofBits 0x3E60000000000000) = "2.9802322387695313e-8" := by decide +kernel

example : render (Float.ofBits 0x444B1AE4D6E2EF50) = "1e+21" := by decide +kernel

end DeskCalculator.Number
