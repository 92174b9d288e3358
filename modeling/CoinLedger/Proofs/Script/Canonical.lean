import Mathlib
import CoinLedger.Proofs.Script.Denotes

/-!
# Stored scripts that are written back unchanged

More bytes are read as scripts than are written for scripts.  `compress_eq_take_iff` says which of them are
written again when the script that they stand for is compressed: hashes, full keys, short keys that belong
to a point, and raw scripts that follow no template.

The bytes that denote a script are of five shapes, and the script of each is compressed by itself: a
template whose key is valid is recognised again (`compress_toScript`), a short key that is not valid is
taken for a raw script of another length (`length_compress_invalidKey`), and a template that was stored raw
becomes shorter.
-/

namespace CoinLedger.Script

open PublicKey (toNat)
open Secp256k1 (OnCurve)

/-! ## The shapes -/

/-- A payment to a short key that is not valid is stored raw, behind its length. -/
lemma length_compress_invalidKey {key : Bytes} (hlength : key.length = 33)
    (hvalid : ¬ PublicKey.isValid key = true) : (compress (payToShortKey key)).length = 36 := by
  have hscript : (payToShortKey key).length = 35 := by simp [payToShortKey, hlength]
  have hother : ∀ {head tail : Bytes} {count : ℕ}, head.length + count + tail.length ≠ 35 →
      between? head count tail (payToShortKey key) = none := by
    intro head tail count hne
    exact between?_eq_none_of_length (by rw [hscript]; exact hne.symm)
  have hshort : between? [push33] 33 [checkSig] (payToShortKey key) = some key :=
    between?_append hlength
  have hform : form (payToShortKey key) = .raw (payToShortKey key) := by
    rw [form, hother (by decide), hother (by decide), hshort, Option.filter_some, if_neg hvalid,
      hother (by decide)]
    rfl
  rw [compress, hform, Form.encode, List.length_append, Vlq.length_encode, hscript,
    Vlq.size_of_le (by decide)]

lemma tag_eq_of_decode {n tag k : ℕ} {data : Bytes} (hn : n ≤ 127)
    (h : Vlq.decode 64 (UInt8.ofNat n :: data) = .ok ⟨tag, k⟩) : tag = n := by
  rw [Vlq.decode_ofNat_cons (by omega) hn] at h
  cases h
  rfl

/-- Behind the tags 2 and 3 a key is valid exactly if `x` belongs to a point: one of the two has the parity
of the tag. -/
lemma isValid_tag_iff {n : ℕ} (hn : n = 2 ∨ n = 3) {x : Bytes} (hx : x.length = 32) :
    PublicKey.isValid (UInt8.ofNat n :: x) = true ↔ ∃ y, OnCurve (toNat x) y ∧ y % 2 = n % 2 := by
  have hlead : ∀ y, UInt8.ofNat n = UInt8.ofNat (2 + y % 2) ↔ y % 2 = n % 2 := by
    intro y
    rcases hn with rfl | rfl <;> rcases Nat.mod_two_eq_zero_or_one y with h | h <;> rw [h] <;> decide
  rw [PublicKey.isValid_short_iff hx]
  simp only [hlead]

/-- The bytes that denote a script are written for it exactly if they hold a hash, a full key, a short key
that belongs to a point, or a script that is no template. -/
lemma Denotes.compress_eq_iff {stored script : Bytes} (h : Denotes stored script)
    (hsize : stored.length < UInt64.size) {rest : Bytes} {tag k : ℕ}
    (htag : Vlq.decode 64 (stored ++ rest) = .ok ⟨tag, k⟩) :
    compress script = stored ↔ (tag = 0 ∨ tag = 1 ∨ tag = 4 ∨ tag = 5) ∨
      ((tag = 2 ∨ tag = 3) ∧
        ∃ y, OnCurve (toNat (((stored ++ rest).drop 1).take 32)) y ∧ y % 2 = tag % 2) ∨
      (6 ≤ tag ∧ ¬ IsTemplate script) := by
  cases h with
  | keyHash hash hlength =>
    have hzero : tag = 0 := tag_eq_of_decode (by omega) htag
    exact iff_of_true (compress_toScript (f := .keyHash hash) hlength nofun) (Or.inl (by omega))
  | scriptHash hash hlength =>
    have hone : tag = 1 := tag_eq_of_decode (by omega) htag
    exact iff_of_true (compress_toScript (f := .scriptHash hash) hlength nofun) (Or.inl (by omega))
  | shortKey lead x hlead hx =>
    obtain ⟨n, hn, rfl⟩ : ∃ n, (n = 2 ∨ n = 3) ∧ lead = UInt8.ofNat n := by
      rcases hlead with rfl | rfl
      · exact ⟨2, Or.inl rfl, rfl⟩
      · exact ⟨3, Or.inr rfl, rfl⟩
    obtain rfl : tag = n := tag_eq_of_decode (by omega) htag
    have hpayload : ((UInt8.ofNat tag :: x ++ rest).drop 1).take 32 = x := List.take_left' hx
    have hlength : (UInt8.ofNat tag :: x).length = 33 := by rw [List.length_cons, hx]
    rw [hpayload, ← isValid_tag_iff hn hx]
    constructor
    · intro hsame
      refine Or.inr (Or.inl ⟨hn, ?_⟩)
      by_contra hvalid
      have hraw := length_compress_invalidKey hlength hvalid
      have hstored := congrArg List.length hsame
      rw [hlength] at hstored
      exact absurd (hraw.symm.trans hstored) (by decide)
    · rintro (hother | ⟨-, hvalid⟩ | ⟨hother, -⟩)
      · omega
      · exact compress_toScript (f := .shortKey (UInt8.ofNat tag :: x)) ⟨hlength, hvalid⟩ nofun
      · omega
  | fullKey x y hx hy hpoint =>
    have hparity : tag = 4 + toNat y % 2 := tag_eq_of_decode (by omega) htag
    exact iff_of_true (compress_fullKey hx hy hpoint) (Or.inl (by omega))
  | raw script =>
    rw [List.length_append, Vlq.length_encode] at hsize
    have hcode : script.length + 6 < 2 ^ 64 := Vlq.lt_of_size_add_lt (by decide) hsize
    rw [List.append_assoc, Vlq.decode_encode_append_of_lt (by omega) hcode] at htag
    cases htag
    constructor
    · intro hsame
      refine Or.inr (Or.inr ⟨by omega, ?_⟩)
      intro htemplate
      have hlt := Script.length_compress_lt htemplate
      rw [hsame, List.length_append] at hlt
      omega
    · rintro (hother | ⟨hother, -⟩ | ⟨-, htemplate⟩)
      · omega
      · omega
      · exact compress_of_not_isTemplate htemplate

/-! ## Canonical bytes -/

/-- From bytes that are read as a script, and whose length is found, the same bytes are written again
exactly if the tag stands for a hash or a full key, or for a short key and the 32 bytes behind it belong to
a point of the curve, or for a raw script that is none of the templates. -/
theorem compress_eq_take_iff {data script : Bytes} {size : ℕ} (hread : decompress data = .ok script)
    (hsize : readSize data = .ok size) :
    ∃ tag k, Vlq.decode 64 data = .ok ⟨tag, k⟩ ∧
      (compress script = data.take size ↔ (tag = 0 ∨ tag = 1 ∨ tag = 4 ∨ tag = 5) ∨
        ((tag = 2 ∨ tag = 3) ∧
          ∃ y, OnCurve (toNat ((data.drop 1).take 32)) y ∧ y % 2 = tag % 2) ∨
        (6 ≤ tag ∧ ¬ IsTemplate script)) := by
  obtain ⟨⟨tag, k⟩, htag⟩ := exists_tag_of_readSize hsize
  obtain ⟨stored, rest, rfl, rfl, hdenotes⟩ := exists_denotes_of_decompress hsize hread
  refine ⟨tag, k, htag, ?_⟩
  rw [List.take_left]
  exact hdenotes.compress_eq_iff (readSize_lt hsize) htag

/-- Behind the tag 3 the `x` of the base point is written again, and behind the tag 2 a number that is no
coordinate is not. -/
theorem compress_eq_take_iff_shortKeys :
    decompress (3 :: (baseX ++ [0xee])) = .ok ([0x21, 3] ++ baseX ++ [0xac]) ∧
    compress ([0x21, 3] ++ baseX ++ [0xac]) = 3 :: baseX ∧
    decompress (2 :: (List.replicate 32 0xff ++ [0xee])) =
      .ok ([0x21, 2] ++ List.replicate 32 0xff ++ [0xac]) ∧
    compress ([0x21, 2] ++ List.replicate 32 0xff ++ [0xac]) ≠ 2 :: List.replicate 32 0xff := by
  have hpoint : OnCurve (toNat baseX) (toNat oddBaseY) :=
    Secp256k1.isPoint_iff_onCurve.mp (by decide +kernel)
  have hodd : toNat oddBaseY % 2 = 1 := by decide +kernel
  have hvalid : decompress (3 :: (baseX ++ [0xee])) = .ok ([0x21, 3] ++ baseX ++ [0xac]) := by decide
  have hinvalid : decompress (2 :: (List.replicate 32 0xff ++ [0xee])) =
      .ok ([0x21, 2] ++ List.replicate 32 0xff ++ [0xac]) := by decide
  have hsize : readSize (3 :: (baseX ++ [0xee])) = .ok 33 := by decide
  have hsize' : readSize (2 :: (List.replicate 32 0xff ++ [0xee])) = .ok 33 := by decide
  obtain ⟨tag, k, htag, hiff⟩ := compress_eq_take_iff hvalid hsize
  obtain ⟨tag', k', htag', hiff'⟩ := compress_eq_take_iff hinvalid hsize'
  obtain rfl : tag = 3 := tag_eq_of_decode (by omega) htag
  obtain rfl : tag' = 2 := tag_eq_of_decode (by omega) htag'
  refine ⟨hvalid, ?_, hinvalid, ?_⟩
  · exact hiff.mpr (Or.inr (Or.inl ⟨Or.inr rfl, toNat oddBaseY, hpoint, hodd⟩))
  · intro hsame
    rcases hiff'.mp hsame with hother | ⟨-, y, hy, -⟩ | ⟨hother, -⟩
    · omega
    · have hlarge : Secp256k1.p ≤ toNat (List.replicate 32 0xff) := by decide +kernel
      exact absurd hy.1 (not_lt.mpr hlarge)
    · omega

end CoinLedger.Script
