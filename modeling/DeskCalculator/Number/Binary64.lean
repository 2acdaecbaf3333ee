/-!
Binary64 numbers as naturals. The bits of a number without the sign are its code. Codes are ordered as
the magnitudes they stand for, and the finite magnitudes are the multiples `units c` of `2 ^ -1074`, so
that rounding a quotient of naturals to the nearest binary64 number needs no other arithmetic.
-/
namespace DeskCalculator.Binary64

/-- The integer nearest to `num / den`; a half goes to the even neighbour. -/
def roundQuotient (num den : Nat) : Nat :=
  let floor := num / den
  let rest := num % den
  if 2 * rest < den then floor
  else if den < 2 * rest then floor + 1
  else floor + floor % 2

def signBit : Nat := 0x8000000000000000

/-- The code of infinity; all smaller codes are finite, all greater ones are no numbers. -/
def infinityCode : Nat := 0x7FF0000000000000

def nanCode : Nat := 0x7FF8000000000000

def unitPlaces : Nat := 1074

def binade (code : Nat) : Nat := (code >>> 52) - 1

/-- The magnitude that a finite code stands for, in units of `2 ^ -1074`. -/
def units (code : Nat) : Nat := (code - (binade code <<< 52)) <<< binade code

/-- The code nearest to `num / den`, a half going to the even code; infinity from the point that is
half a unit above the greatest finite magnitude. -/
def codeOfQuotient (num den : Nat) : Nat :=
  let scaled := num <<< unitPlaces
  let shift := (scaled / den).log2 - 52
  let code := (shift <<< 52) + roundQuotient scaled (den <<< shift)
  if code < infinityCode then code else infinityCode

def wholePart (code : Nat) : Nat := units code >>> unitPlaces

def code (x : Float) : Nat := x.toBits.toNat % signBit

/-- Does a number carry a minus sign? Minus zero does. -/
def isNegative (x : Float) : Bool := signBit ≤ x.toBits.toNat

def ofCode (negative : Bool) (code : Nat) : Float :=
  Float.ofBits (UInt64.ofNat (if negative then signBit + code else code))

def nan : Float := ofCode false nanCode

end DeskCalculator.Binary64
