import CoinLedger.Error

/-!
# Amount codes

Most amounts are round numbers, so an amount is stored as a code that counts its trailing zeros.
Zero has the code 0.  Otherwise take out up to nine factors of ten; let `e` be their number and
`n` the quotient.  If `e < 9`, the last digit `d` of `n` is not zero and the code is
`1 + 10 * (9 * (n / 10) + d - 1) + e`; if `e = 9` it is `1 + 10 * (n - 1) + 9`.

Codes of 64-bit amounts take up to 68 bits and are carried in 128.
-/

namespace CoinLedger.Amount

/-- Takes up to `limit` factors of ten out of `n`: the quotient and their number. -/
def stripZeros : Nat → Nat → Nat × Nat
  | 0, n => (n, 0)
  | limit + 1, n =>
    if n % 10 = 0 then
      let (quotient, e) := stripZeros limit (n / 10)
      (quotient, e + 1)
    else (n, 0)

/-- The code of an amount. -/
def compress (amount : UInt64) : Nat :=
  if amount.toNat = 0 then 0
  else
    let (n, e) := stripZeros 9 amount.toNat
    if e < 9 then 1 + (n / 10 * 9 + n % 10 - 1) * 10 + e else 1 + (n - 1) * 10 + 9

/-- Puts `e` factors of ten into `n`. -/
def addZeros : (e n : Nat) → Nat
  | 0, n => n
  | e + 1, n => addZeros e (n * 10)

/-- The number that a code stands for, of any size. -/
def expand (code : Nat) : Nat :=
  if code = 0 then 0
  else
    let e := (code - 1) % 10
    let x := (code - 1) / 10
    addZeros e (if e < 9 then x / 9 * 10 + (x % 9 + 1) else x + 1)

/-- The amount that a code stands for; a code for more than 64 bits is refused. -/
def decompress (code : Nat) : Except Error UInt64 :=
  if expand code < UInt64.size then .ok (UInt64.ofNat (expand code))
  else .error ⟨.amountTooLarge code, 0⟩

end CoinLedger.Amount
