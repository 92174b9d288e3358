/-!
# The curve secp256k1

The points of `y ^ 2 = x ^ 3 + 7` over the integers modulo the prime `p = 2 ^ 256 - 2 ^ 32 - 977`,
with coordinates below `p`.  Since `p` leaves the remainder 3 modulo 4, a square `a` has the root
`a ^ ((p + 1) / 4)`; `sqrt?` checks its candidate, so it gives a root or nothing.  `lift?` finds
the point with a given `x` and a given parity of `y`.
-/

namespace CoinLedger.Secp256k1

/-- The prime of the field, `2 ^ 256 - 2 ^ 32 - 977`. -/
def p : Nat := 0xFFFFFFFFFFFFFFFFFFFFFFFFFFFFFFFFFFFFFFFFFFFFFFFFFFFFFFFEFFFFFC2F

/-- The remainder modulo `p` of `base ^ exponent`, for an exponent of at most `bits` bits. -/
def power : (bits base exponent : Nat) → Nat
  | 0, _, _ => 1
  | bits + 1, base, exponent =>
    let root := power bits (base * base % p) (exponent / 2)
    if exponent % 2 = 1 then base * root % p else root

/-- A square root of `a` modulo `p`, if there is one. -/
def sqrt? (a : Nat) : Option Nat :=
  let y := power 256 (a % p) ((p + 1) / 4)
  if y * y % p = a % p then some y else none

/-- The right-hand side of the equation of the curve. -/
def cubic (x : Nat) : Nat := (x * x * x + 7) % p

/-- Whether `(x, y)` is a point: both coordinates are below `p` and satisfy the equation. -/
def isPoint (x y : Nat) : Bool := x < p && y < p && y * y % p == cubic x

/-- The `y` of the point with the given `x` and parity of `y`, if there is one. -/
def lift? (x : Nat) (odd : Bool) : Option Nat :=
  if x < p then
    match sqrt? (cubic x) with
    | some y =>
      if decide (y % 2 = 1) = odd then some y
      else if y = 0 then none
      else some (p - y)
    | none => none
  else none

end CoinLedger.Secp256k1
