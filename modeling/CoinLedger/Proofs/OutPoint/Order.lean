import Mathlib
import CoinLedger.OutPoint
import CoinLedger.Proofs.Hash.Cells

/-!
# The order of outpoints

Outpoints are ordered by their hashes first and by their indices among the outputs of one transaction.
Both orders are total, and so is theirs.

`texts_and_orders_exact` collects the texts of hashes, their order and that of outpoints.
-/

namespace CoinLedger

open Text (ofString)

namespace OutPoint

/-! ## Outpoints -/

/-- The hash decides before the index. -/
lemma compare_eq_then (o p : OutPoint) :
    compare o p = (Hash.compare o.txid p.txid).then (Ord.compare o.index.toNat p.index.toNat) := by
  simp only [compare, Nat.compare_eq_ite_lt, UInt32.lt_iff_toNat_lt]
  cases Hash.compare o.txid p.txid <;> rfl

lemma compare_eq_compareLex :
    compare = compareLex (compareOn OutPoint.txid) (compareOn fun o => o.index.toNat) :=
  funext₂ compare_eq_then

instance : Std.TransCmp OutPoint.compare := by
  rw [compare_eq_compareLex]
  infer_instance

instance : Std.LawfulEqCmp OutPoint.compare where
  compare_self := by
    intro o
    rw [compare_eq_then, Ordering.then_eq_eq]
    exact ⟨(Hash.compare_eq_eq_iff _ _).mpr rfl, Nat.compare_eq_eq.mpr rfl⟩
  eq_of_compare := by
    intro o p h
    rw [compare_eq_then, Ordering.then_eq_eq, Nat.compare_eq_eq] at h
    obtain ⟨htxid, hindex⟩ := h
    exact congrArg₂ OutPoint.mk (Std.LawfulEqOrd.eq_of_compare htxid) (UInt32.toNat_inj.mp hindex)

end OutPoint

/-! ## Exactness -/

/-- A hash is read back from its text.  What is read is 64 digits behind at most one marker, and these
digits in lower case are the text of the hash.  Hashes are ordered as their numbers of 256 bits and as their
texts, equal only with the same bytes; outpoints are ordered by their hashes and then by their indices,
which is a total order.  Going through the cells of hashes by index has the same outcomes. -/
theorem texts_and_orders_exact :
    (∀ h : Hash, Hash.ofText h.toText = .ok h) ∧
    (∀ t, (∃ h, Hash.ofText t = .ok h) ↔ ∃ digits, Hash.DigitsOf t digits) ∧
    (∀ t h digits, Hash.ofText t = .ok h → Hash.DigitsOf t digits →
      h.toText = digits.map Text.lower) ∧
    (∀ a b : Hash, a.value < 2 ^ 256 ∧ a.compare b = Ord.compare a.value b.value ∧
      a.compare b = List.compareLex Ord.compare a.toText b.toText ∧
      (a.compare b = .eq ↔ a.bytes = b.bytes)) ∧
    (∀ o p : OutPoint,
      o.compare p = (o.txid.compare p.txid).then (Ord.compare o.index.toNat p.index.toNat)) ∧
    Std.TransCmp OutPoint.compare ∧ Std.LawfulEqCmp OutPoint.compare ∧
    (∀ t, Hash.readCells t = (Hash.ofText t).map Hash.bytes) ∧
    (∀ h : Hash, Hash.textBelow h.bytes 32 [] = h.toText) ∧
    ∀ a b : Hash, Hash.compareBelow a.bytes b.bytes 32 = a.compare b := by
  refine ⟨Hash.ofText_toText, ?_, ?_, ?_, ?_, inferInstance, inferInstance, Hash.readCells_eq,
    Hash.textBelow_bytes, Hash.compareBelow_bytes⟩
  · intro t
    constructor
    · rintro ⟨h, hread⟩
      exact ⟨_, Hash.digitsOf_of_ofText hread⟩
    · rintro ⟨digits, hdigits⟩
      exact ⟨_, Hash.ofText_of_digitsOf hdigits⟩
  · intro t h digits hread hdigits
    rw [Hash.ofText_of_digitsOf hdigits] at hread
    cases hread
    exact Hash.toText_ofDigits hdigits.length hdigits.digits
  · intro a b
    exact ⟨a.value_lt, Hash.compare_eq_compare_value a b, Hash.compare_eq_compareLex_toText a b,
      Hash.compare_eq_eq_iff a b⟩
  · intro o p
    exact OutPoint.compare_eq_then o p

/-- The hash with the given first and last byte in storage order, and zeros between them. -/
def sparseHash (first last : UInt8) : Hash :=
  ⟨first :: List.replicate 30 0 ++ [last], rfl⟩

/-- A text in mixed case behind a marker is read, and its last two digits are the first byte of the hash.
A hash that is smaller in its first byte only is smaller, one that is larger in its last byte is larger
whatever the others are, and an outpoint is smaller by its hash whatever the indices are. -/
theorem texts_and_orders_sparseHashes :
    (∃ h, Hash.ofText (ofString "0XaB" ++ List.replicate 60 48 ++ ofString "Cd") = .ok h) ∧
    (sparseHash 0xCD 0xAB).toText = ofString "ab" ++ List.replicate 60 48 ++ ofString "cd" ∧
    (sparseHash 1 7).compare (sparseHash 2 7) = .lt ∧ (sparseHash 0 7).compare (sparseHash 9 6) = .gt ∧
    OutPoint.compare ⟨sparseHash 1 7, 5⟩ ⟨sparseHash 2 7, 4⟩ = .lt := by
  obtain ⟨-, hread, hlower, horder, houtpoint, -⟩ := texts_and_orders_exact
  have hdigits : Hash.DigitsOf (ofString "0XaB" ++ List.replicate 60 48 ++ ofString "Cd")
      (ofString "aB" ++ List.replicate 60 48 ++ ofString "Cd") :=
    ⟨Or.inr (Or.inr (by decide +kernel)), by decide +kernel, by decide +kernel⟩
  have hhash : Hash.ofText (ofString "0XaB" ++ List.replicate 60 48 ++ ofString "Cd") =
      .ok (sparseHash 0xCD 0xAB) := by decide +kernel
  refine ⟨(hread _).mpr ⟨_, hdigits⟩, ?_, ?_, ?_, ?_⟩
  · exact (hlower _ _ _ hhash hdigits).trans (by decide +kernel)
  · exact (horder _ _).2.1.trans (by decide +kernel)
  · exact (horder _ _).2.1.trans (by decide +kernel)
  · exact (houtpoint _ _).trans (by decide +kernel)

end CoinLedger
