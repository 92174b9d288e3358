import Mathlib
import CoinLedger.Secp256k1

/-!
# The modulus of secp256k1 is prime

`prime_p`.  The proof is a tree of witnesses: a number `n` is prime if some `a` has order `n - 1`
modulo `n`, and for that it is enough to know the prime factors of `n - 1`.  `IsWitness` is this
condition on `n`, `a` and the factors as a computation, and `prime_of_isWitness` its use.  The
factors that are too large for trial division get witnesses of their own.

The powers are computed by squaring (`powMod`), as the model computes its roots: `power_eq` says
what that computation gives.
-/

namespace CoinLedger.Secp256k1

/-! ## Powers -/

/-- The remainder modulo `n` of `base ^ exponent`, for an exponent of at most `bits` bits. -/
def powMod (n : ℕ) : (bits base exponent : ℕ) → ℕ
  | 0, _, _ => 1 % n
  | bits + 1, base, exponent =>
    let root := powMod n bits (base * base % n) (exponent / 2)
    if exponent % 2 = 1 then base * root % n else root

/-- Repeated squaring computes the power. -/
lemma powMod_eq (n : ℕ) {bits exponent : ℕ} (h : exponent < 2 ^ bits) (base : ℕ) :
    powMod n bits base exponent = base ^ exponent % n := by
  induction bits generalizing base exponent with
  | zero =>
    obtain rfl : exponent = 0 := by simpa using h
    rw [powMod, pow_zero]
  | succ bits ih =>
    have hhalf : exponent / 2 < 2 ^ bits := by
      rw [pow_succ] at h
      omega
    have hsquare : (base * base % n) ^ (exponent / 2) % n = base ^ (2 * (exponent / 2)) % n := by
      rw [← Nat.pow_mod, pow_mul, sq]
    rw [powMod, ih hhalf, hsquare]
    split
    next hodd =>
      have hexp : exponent = 2 * (exponent / 2) + 1 := by omega
      rw [Nat.mul_mod_mod, mul_comm, ← pow_succ, ← hexp]
    next heven =>
      have hexp : 2 * (exponent / 2) = exponent := by omega
      rw [hexp]

/-- The powers by which roots are found are those modulo `p`. -/
lemma power_eq {bits exponent : ℕ} (h : exponent < 2 ^ bits) (base : ℕ) :
    power bits base exponent = base ^ exponent % p := by
  rw [← powMod_eq p h]
  clear h
  induction bits generalizing base exponent with
  | zero => rfl
  | succ bits ih => rw [power, powMod, ih]

/-! ## Witnesses -/

/-- Whether `a` has order `n - 1` modulo `n`, given the prime factors of `n - 1`: its power to
`n - 1` is one, and no power to `n - 1` without a prime factor is. -/
def IsWitness (n a : ℕ) (factors : List ℕ) : Bool :=
  1 < n && n < 2 ^ 256 && factors.prod == n - 1 && powMod n 256 a (n - 1) == 1 &&
    factors.all (fun q => powMod n 256 a ((n - 1) / q) != 1)

lemma natCast_eq_one_iff {n : ℕ} (hn : 1 < n) (k : ℕ) : (k : ZMod n) = 1 ↔ k % n = 1 := by
  rw [← Nat.cast_one, ZMod.natCast_eq_natCast_iff', Nat.mod_eq_of_lt hn]

/-- A number with a witness is prime. -/
lemma prime_of_isWitness {n : ℕ} (a : ℕ) (factors : List ℕ) (hprime : ∀ q ∈ factors, q.Prime)
    (h : IsWitness n a factors = true) : n.Prime := by
  simp only [IsWitness, Bool.and_eq_true, decide_eq_true_eq, beq_iff_eq, List.all_eq_true,
    bne_iff_ne] at h
  obtain ⟨⟨⟨⟨hone, hbits⟩, hprod⟩, hpow⟩, hne⟩ := h
  have hlt : ∀ e ≤ n - 1, e < 2 ^ 256 := fun e he => by omega
  refine lucas_primality n (a : ZMod n) ?_ ?_
  · rw [← Nat.cast_pow, natCast_eq_one_iff hone, ← powMod_eq n (hlt _ le_rfl)]
    exact hpow
  · intro q hq hdvd
    rw [← hprod] at hdvd
    obtain ⟨r, hr, hqr⟩ := (Prime.dvd_prod_iff hq.prime).mp hdvd
    obtain rfl : q = r := (Nat.prime_dvd_prime_iff_eq hq (hprime r hr)).mp hqr
    rw [← Nat.cast_pow, Ne, natCast_eq_one_iff hone, ← powMod_eq n (hlt _ (Nat.div_le_self _ _))]
    exact hne q hr

/-! ## The tree of witnesses -/

/-- A prime factor of the number below the next one. -/
lemma prime_173378833005251801 : Nat.Prime 173378833005251801 :=
  prime_of_isWitness 6 [2, 2, 2, 5, 5, 2621, 24809, 13331831] (by norm_num) (by decide +kernel)

/-- A prime factor of the number below the next one. -/
lemma prime_22149492674086928081353 : Nat.Prime 22149492674086928081353 := by
  refine prime_of_isWitness 5 [2, 2, 2, 3, 5323, 173378833005251801] ?_ (by decide +kernel)
  simp only [List.forall_mem_cons, prime_173378833005251801]
  norm_num

/-- The smaller of the two large prime factors of the number below `largestFactor`. -/
lemma prime_132896956044521568488119 : Nat.Prime 132896956044521568488119 := by
  refine prime_of_isWitness 6 [2, 3, 22149492674086928081353] ?_ (by decide +kernel)
  simp only [List.forall_mem_cons, prime_22149492674086928081353]
  norm_num

/-- The larger of the two large prime factors of the number below `largestFactor`. -/
lemma prime_255515944373312847190720520512484175977 :
    Nat.Prime 255515944373312847190720520512484175977 :=
  prime_of_isWitness 3 [2, 2, 2, 7, 7, 11, 1627, 2657, 4423, 41201, 96557, 7240687, 107590001]
    (by norm_num) (by decide +kernel)

/-- The largest prime factor of `p - 1`. -/
def largestFactor : ℕ := 205115282021455665897114700593932402728804164701536103180137503955397371

/-- The largest prime factor of `p - 1` is prime. -/
lemma prime_largestFactor : largestFactor.Prime := by
  refine prime_of_isWitness 10
    [2, 3, 5, 29, 29, 31, 7723, 132896956044521568488119, 255515944373312847190720520512484175977]
    ?_ (by decide +kernel)
  simp only [List.forall_mem_cons, prime_132896956044521568488119,
    prime_255515944373312847190720520512484175977]
  norm_num

/-- The modulus is prime. -/
theorem prime_p : p.Prime := by
  refine prime_of_isWitness 3 [2, 3, 7, 13441, largestFactor] ?_ (by decide +kernel)
  simp only [List.forall_mem_cons, prime_largestFactor]
  norm_num

instance : Fact p.Prime := ⟨prime_p⟩

end CoinLedger.Secp256k1
