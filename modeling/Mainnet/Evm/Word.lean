import Mathlib.Data.Int.Bitwise
import Mainnet.Lib.BigEndian
import Mainnet.Types.Basic

namespace Mainnet.Evm

open Types Lib

/-! The `big.Int` methods that the machine uses, on integers of any size and sign. -/

def bitLen (x : ℤ) : ℕ := x.natAbs.size

def isUint64 (x : ℤ) : Bool := decide (0 ≤ x ∧ x < 2 ^ 64)

def uint64 (x : ℤ) : ℕ := x.natAbs % 2 ^ 64

def isInt64 (x : ℤ) : Bool := decide (-2 ^ 63 ≤ x ∧ x < 2 ^ 63)

def wrapInt64 (x : ℤ) : ℤ := (x + 2 ^ 63) % 2 ^ 64 - 2 ^ 63

def int64 (x : ℤ) : ℤ := wrapInt64 x

def bytes (x : ℤ) : Bytes := BigEndian.toBytes x.natAbs

def setBytes (b : Bytes) : ℤ := BigEndian.ofBytes b

def bigToHash (x : ℤ) : Hash := bytesToHash (bytes x)

def bigToAddress (x : ℤ) : Address := bytesToAddress (bytes x)

/-- `And` with `2 ^ 256 - 1` is the residue, for negative numbers too. -/
def toU256 (x : ℤ) : ℤ := if x < 0 ∨ bitLen x > 256 then x % 2 ^ 256 else x

def to256 (x : ℤ) : ℤ := if bitLen x > 255 then x - 2 ^ 256 else x

def ofBool (b : Bool) : ℤ := if b then 1 else 0

/-! The instructions on two operands `a` (popped) and `b` (the new top). The first component is
what is left in the slot of `a`, which several of them use as scratch. -/

namespace Word

def add (a b : ℤ) : ℤ × ℤ := (a, toU256 (a + b))

def mul (a b : ℤ) : ℤ × ℤ := (a, toU256 (a * b))

def sub (a b : ℤ) : ℤ × ℤ := (a, toU256 (a - b))

def div (a b : ℤ) : ℤ × ℤ := (a, if b = 0 then 0 else toU256 (a / b))

def sdiv (a b : ℤ) : ℤ × ℤ :=
  let a := to256 a
  let b := to256 b
  if b = 0 then (a, 0)
  else
    let q := |a| / |b|
    (|a|, toU256 (if a.sign ≠ b.sign then -q else q))

def mod (a b : ℤ) : ℤ × ℤ := (a, if b = 0 then 0 else toU256 (a % b))

def smod (a b : ℤ) : ℤ × ℤ :=
  let a := to256 a
  let b := to256 b
  if b = 0 then (a, 0)
  else
    let r := |a| % |b|
    (|a|, toU256 (if a < 0 then -r else r))

def and (a b : ℤ) : ℤ × ℤ := (a, Int.land a b)

def or (a b : ℤ) : ℤ × ℤ := (a, Int.lor a b)

def xor (a b : ℤ) : ℤ × ℤ := (a, Int.xor a b)

def byte (x y : ℤ) : ℤ × ℤ :=
  let indx := int64 x
  if indx > 31 then (x, 0)
  else
    let sh := wrapInt64 (wrapInt64 (31 - indx) * 8)
    (x, Int.land (y >>> (sh % 2 ^ 64).toNat) 255)

def eq (a b : ℤ) : ℤ × ℤ := (a, ofBool (a == b))

def lt (a b : ℤ) : ℤ × ℤ := (a, ofBool (a < b))

def gt (a b : ℤ) : ℤ × ℤ := (a, ofBool (a > b))

def slt (a b : ℤ) : ℤ × ℤ := (to256 a, ofBool (to256 a < to256 b))

def sgt (a b : ℤ) : ℤ × ℤ := (to256 a, ofBool (to256 a > to256 b))

def equalOrOverflowsUint256 (b : ℤ) : Bool := decide (bitLen b > 8)

def shl (shift value : ℤ) : ℤ × ℤ :=
  (shift, if equalOrOverflowsUint256 shift then 0 else toU256 (value <<< uint64 shift))

def shr (shift value : ℤ) : ℤ × ℤ :=
  (shift, if equalOrOverflowsUint256 shift then 0 else toU256 (value >>> uint64 shift))

def sar (shift value : ℤ) : ℤ × ℤ :=
  let value := to256 value
  (shift,
    if equalOrOverflowsUint256 shift then if value ≥ 0 then 0 else 2 ^ 256 - 1
    else toU256 (value >>> uint64 shift))

/-- The exponentiation loop over the 64-bit words of `y`: the result and the last square. -/
def expLoop : ℕ → ℕ → ℤ → ℤ → ℤ × ℤ
  | 0, _, x, z => (x, z)
  | n + 1, y, x, z =>
    let z := if y % 2 = 1 then toU256 (z * x) else z
    expLoop n (y / 2) (toU256 (x * x)) z

def exp (x y : ℤ) : ℤ × ℤ := expLoop (64 * ((bitLen y + 63) / 64)) y.natAbs x 1

def not (a : ℤ) : ℤ := toU256 (Int.lnot a)

def isZero (a : ℤ) : ℤ := ofBool (a == 0)

def signExtend (bit : ℕ) (x : ℤ) : ℤ :=
  let mask : ℤ := 2 ^ bit - 1
  toU256 (if x.testBit bit then Int.lor x (Int.lnot mask) else Int.land x mask)

def addMod (a b z : ℤ) : ℤ × ℤ := if z = 0 then (a, 0) else (a + b, toU256 ((a + b) % z))

def mulMod (a b z : ℤ) : ℤ × ℤ := if z = 0 then (a, 0) else (a * b, toU256 (a * b % z))

end Word

end Mainnet.Evm
