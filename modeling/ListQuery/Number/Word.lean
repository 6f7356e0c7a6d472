/-!
The bounds of whole numbers that fit words of 32, 64 and 128 bits.
-/

namespace ListQuery.Number.Word

/-- The largest unsigned number of 32 bits. -/
def maxNat32 : Nat := 4294967295

/-- The largest unsigned number of 64 bits. -/
def maxNat64 : Nat := 18446744073709551615

def minInt32 : Int := -2147483648

def maxInt32 : Int := 2147483647

def minInt64 : Int := -9223372036854775808

def maxInt64 : Int := 9223372036854775807

/-- The largest signed number of 128 bits. -/
def maxInt128 : Nat := 170141183460469231731687303715884105727

end ListQuery.Number.Word
