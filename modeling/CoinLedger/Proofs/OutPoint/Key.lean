import Mathlib
import CoinLedger.Proofs.OutPoint
import CoinLedger.Proofs.Record.Bounds

/-!
# Keys that name an outpoint

A byte string is the key of an outpoint exactly if it is read as one (`ofKey_eq_ok_iff`): the hash takes
the first 32 bytes, and an index has one written form, which shows its own end.  So the keys are in
bijection with the outpoints, and none is the beginning of another (`ofKey_exact`).

The index is read at 64 bits and compared with 32 bits afterwards.  An index that does not even fit
64 bits never comes to that comparison: the reader of integers refuses it, and refuses it as an
internal error and not as malformed input (`ofKey_ok_or_malformed_iff`).
-/

namespace CoinLedger.OutPoint

open Vlq (terminator? value Overflows)

/-! ## A key taken apart -/

/-- Bytes that hold no more than a hash are too short. -/
lemma ofKey_of_length_le {key : Bytes} (h : key.length ≤ 32) :
    ofKey key = .error ⟨.outPointKeyShort, key.length⟩ := by
  rw [ofKey, Hash.ofBytes?]
  split
  next => rfl
  next txid hhash =>
    split at hhash
    next htake =>
      have hlength : key.length = 32 := by
        rw [List.length_take] at htake
        omega
      rw [if_pos hlength]
    next => cases hhash

/-- Bytes hold no more than a hash, or they are a hash and something behind it. -/
lemma short_or_hash_append (key : Bytes) :
    key.length ≤ 32 ∨ ∃ (txid : Hash) (code : Bytes), code ≠ [] ∧ key = txid.bytes ++ code := by
  by_cases h : key.length ≤ 32
  · exact Or.inl h
  · have htake : (key.take 32).length = 32 := by
      rw [List.length_take]
      omega
    have hdrop : key.drop 32 ≠ [] := by
      rw [Ne, List.drop_eq_nil_iff]
      exact h
    exact Or.inr ⟨⟨key.take 32, htake⟩, key.drop 32, hdrop, (List.take_append_drop 32 key).symm⟩

lemma drop_hash_append (txid : Hash) (code : Bytes) : (txid.bytes ++ code).drop 32 = code :=
  List.drop_left' txid.length_bytes

lemma length_hash_append (txid : Hash) (code : Bytes) :
    (txid.bytes ++ code).length = 32 + code.length := by
  rw [List.length_append, txid.length_bytes]

/-- What is done with the bytes behind a hash. -/
lemma ofKey_hash_append (txid : Hash) {code : Bytes} (hcode : code ≠ []) :
    ofKey (txid.bytes ++ code) =
      match Vlq.decode 64 code with
      | .error e => .error (e.after 32)
      | .ok index =>
        if UInt32.size ≤ index.value then .error ⟨.outPointIndexTooLarge, 32 + index.bytesRead⟩
        else if index.bytesRead = code.length then .ok ⟨txid, UInt32.ofNat index.value⟩
        else .error ⟨.outPointKeyTrailing, 32 + index.bytesRead⟩ := by
  have hhash : Hash.ofBytes? ((txid.bytes ++ code).take 32) = some txid := by
    rw [List.take_left' txid.length_bytes, Hash.ofBytes?, dif_pos txid.length_bytes]
  have hlong : 32 + code.length ≠ 32 := by
    have hpos : 0 < code.length := List.length_pos_of_ne_nil hcode
    omega
  rw [ofKey, hhash, drop_hash_append, length_hash_append]
  dsimp only
  rw [if_neg hlong]
  cases Vlq.decode 64 code with
  | error e => rfl
  | ok index => simp only [Nat.add_left_cancel_iff]

/-- An index is read back in front of any bytes. -/
lemma decode_encode_index_append (index : UInt32) (rest : Bytes) :
    Vlq.decode 64 (Vlq.encode index.toNat ++ rest) =
      .ok ⟨index.toNat, (Vlq.encode index.toNat).length⟩ := by
  have hfits : index.toNat < 2 ^ 64 := index.toNat_lt_size.trans (by decide)
  exact Vlq.decode_encode_append_of_lt (by omega) hfits rest

/-! ## Keys and outpoints -/

/-- A key is read as an outpoint exactly if it is the key of that outpoint. -/
lemma ofKey_eq_ok_iff {key : Bytes} {o : OutPoint} : ofKey key = .ok o ↔ key = o.key := by
  constructor
  · intro h
    rcases short_or_hash_append key with hshort | ⟨txid, code, hcode, rfl⟩
    · rw [ofKey_of_length_le hshort] at h
      cases h
    · rw [ofKey_hash_append txid hcode] at h
      cases hdecode : Vlq.decode 64 code with
      | error e =>
        rw [hdecode] at h
        cases h
      | ok index =>
        rw [hdecode] at h
        dsimp only at h
        obtain ⟨-, hread, rest, hfront⟩ := (Vlq.decode_eq_ok_iff_encode (by omega)).mp hdecode
        split at h
        next => cases h
        next hfits =>
          split at h
          next hall =>
            have hrest : rest = [] := by
              have hlength := congrArg List.length hfront
              rw [List.length_append, Vlq.length_encode] at hlength
              exact List.length_eq_zero_iff.mp (by omega)
            cases h
            rw [hash_append_eq_key_iff, UInt32.toNat_ofNat_of_lt' (by omega), hfront, hrest,
              List.append_nil]
            exact ⟨rfl, rfl⟩
          next => cases h
  · rintro rfl
    have hindex : o.index.toNat < UInt32.size := o.index.toNat_lt_size
    have hread := decode_encode_index_append o.index []
    rw [List.append_nil] at hread
    rw [key, ofKey_hash_append _ (Vlq.encode_ne_nil _), hread]
    dsimp only
    rw [if_neg (by omega), if_pos rfl, UInt32.ofNat_toNat]

/-- A key is refused exactly if no outpoint has it. -/
lemma exists_ofKey_error_iff {key : Bytes} :
    (∃ e, ofKey key = .error e) ↔ ∀ o : OutPoint, key ≠ o.key := by
  constructor
  · rintro ⟨e, herror⟩ o hkey
    rw [ofKey_eq_ok_iff.mpr hkey] at herror
    cases herror
  · intro hno
    cases hread : ofKey key with
    | error e => exact ⟨e, rfl⟩
    | ok o => exact absurd (ofKey_eq_ok_iff.mp hread) (hno o)

/-- The bytes behind the hash in a key end where the index ends, and denote a number of 32 bits. -/
lemma exists_terminator?_of_hash_append_eq_key {txid : Hash} {code : Bytes} {o : OutPoint}
    (h : txid.bytes ++ code = o.key) :
    ∃ i, terminator? code = some i ∧ code.length = i + 1 ∧
      value (code.take (i + 1)) < UInt32.size := by
  obtain ⟨-, rfl⟩ := hash_append_eq_key_iff.mp h
  obtain ⟨i, hlength, hend⟩ := Vlq.exists_terminator?_encode o.index.toNat
  have hhere := hend []
  rw [List.append_nil] at hhere
  refine ⟨i, hhere, hlength, ?_⟩
  rw [← hlength, List.take_length, Vlq.value_encode]
  exact o.index.toNat_lt_size

/-- No key is the beginning of the key of another outpoint. -/
lemma eq_of_key_prefix_key {o o' : OutPoint} (h : o.key <+: o'.key) : o = o' := by
  obtain ⟨rest, hrest⟩ := h
  have hcode : Vlq.encode o.index.toNat ++ rest = Vlq.encode o'.index.toNat := by
    rw [key, List.append_assoc] at hrest
    exact (hash_append_eq_key_iff.mp hrest).2
  -- the same index is read from both keys, with or without what follows the shorter one
  have hread := decode_encode_index_append o.index rest
  have hread' := decode_encode_index_append o'.index []
  rw [List.append_nil, ← hcode, hread] at hread'
  have hindex : o.index.toNat = o'.index.toNat :=
    congrArg Decoded.value (Except.ok.inj hread')
  rw [hindex, List.append_right_eq_self] at hcode
  rw [hcode, List.append_nil] at hrest
  exact key_injective hrest

/-- Keys and outpoints correspond.

A byte string is read as an outpoint exactly if it is the key of that outpoint, so that different
outpoints have different keys; no key is the beginning of another one.  Refused is what holds no more
than a hash, and a hash behind which stands an index that does not end, that is larger than 32 bits,
or that is not the last thing. -/
theorem ofKey_exact :
    (∀ key o, ofKey key = .ok o ↔ key = OutPoint.key o) ∧
    Function.Injective OutPoint.key ∧
    (∀ o o' : OutPoint, o.key <+: o'.key → o = o') ∧
    (∀ key : Bytes, key.length ≤ 32 → ∃ e, ofKey key = .error e) ∧
    ∀ (txid : Hash) (code : Bytes),
      (terminator? code = none → ∃ e, ofKey (txid.bytes ++ code) = .error e) ∧
      ∀ i, terminator? code = some i →
        2 ^ 32 ≤ value (code.take (i + 1)) ∨ i + 1 < code.length →
          ∃ e, ofKey (txid.bytes ++ code) = .error e := by
  refine ⟨?_, key_injective, ?_, ?_, ?_⟩
  · intro key o
    exact ofKey_eq_ok_iff
  · intro o o' h
    exact eq_of_key_prefix_key h
  · intro key hshort
    exact ⟨_, ofKey_of_length_le hshort⟩
  · intro txid code
    constructor
    · intro hopen
      rw [exists_ofKey_error_iff]
      intro o hkey
      obtain ⟨i, hend, -⟩ := exists_terminator?_of_hash_append_eq_key hkey
      rw [hopen] at hend
      cases hend
    · intro i hend hbad
      rw [exists_ofKey_error_iff]
      intro o hkey
      obtain ⟨i', hend', hlength, hfits⟩ := exists_terminator?_of_hash_append_eq_key hkey
      obtain rfl : i = i' := Option.some_inj.mp (hend.symm.trans hend')
      have hsize : UInt32.size = 2 ^ 32 := rfl
      omega

/-- What is read as the largest index is its key.  Refused are the same bytes without the last one, the
next number, the same bytes with one more behind them, and the hash alone. -/
theorem ofKey_largest_index :
    Hash.zero.bytes ++ [0x8E, 0xFE, 0xFE, 0xFE, 0x7F] = key ⟨Hash.zero, 0xFFFFFFFF⟩ ∧
    (∃ e, ofKey (Hash.zero.bytes ++ [0x8E, 0xFE, 0xFE, 0xFE]) = .error e) ∧
    (∃ e, ofKey (Hash.zero.bytes ++ [0x8E, 0xFE, 0xFE, 0xFF, 0x00]) = .error e) ∧
    (∃ e, ofKey (Hash.zero.bytes ++ [0x8E, 0xFE, 0xFE, 0xFE, 0x7F, 0x00]) = .error e) ∧
    ∃ e, ofKey Hash.zero.bytes = .error e := by
  obtain ⟨hiff, -, -, hshort, hbehind⟩ := ofKey_exact
  refine ⟨(hiff _ _).mp (by rfl), ?_, ?_, ?_, ?_⟩
  · exact (hbehind Hash.zero _).1 (by decide)
  · exact (hbehind Hash.zero _).2 4 (by decide) (Or.inl (by decide))
  · exact (hbehind Hash.zero _).2 4 (by decide) (Or.inr (by decide))
  · exact hshort _ (by decide)

/-! ## How a key is refused -/

/-- What the reader of integers says of the bytes behind the hash is what is said of the key. -/
lemma ofKey_of_decode_error {key : Bytes} (hlength : 32 < key.length) {cause : Error}
    (h : Vlq.decode 64 (key.drop 32) = .error cause) : ofKey key = .error (cause.after 32) := by
  rcases short_or_hash_append key with hshort | ⟨txid, code, hcode, rfl⟩
  · omega
  · rw [drop_hash_append] at h
    rw [ofKey_hash_append txid hcode, h]

/-- A key is refused as the integer behind the hash is, or as malformed within its own bytes. -/
lemma exists_cause_or_malformed_of_ofKey {key : Bytes} {e : Error} (h : ofKey key = .error e) :
    (∃ cause, Vlq.decode 64 (key.drop 32) = .error cause ∧ 32 < key.length ∧ e = cause.after 32) ∨
      e.kind = .malformed ∧ e.bytesRead ≤ key.length := by
  rcases short_or_hash_append key with hshort | ⟨txid, code, hcode, rfl⟩
  · rw [ofKey_of_length_le hshort] at h
    cases h
    exact Or.inr ⟨rfl, le_refl _⟩
  · rw [ofKey_hash_append txid hcode] at h
    rw [drop_hash_append, length_hash_append]
    cases hdecode : Vlq.decode 64 code with
    | error cause =>
      rw [hdecode] at h
      cases h
      have hpos : 0 < code.length := List.length_pos_of_ne_nil hcode
      exact Or.inl ⟨cause, rfl, by omega, rfl⟩
    | ok index =>
      have hread : 32 + index.bytesRead ≤ 32 + code.length :=
        Nat.add_le_add_left ((Vlq.selfDelimiting (by omega)).take_eq code index hdecode).1 32
      rw [hdecode] at h
      dsimp only at h
      split at h
      next =>
        cases h
        exact Or.inr ⟨rfl, hread⟩
      next =>
        split at h
        next => cases h
        next =>
          cases h
          exact Or.inr ⟨rfl, hread⟩

/-- A key that is refused counts no more bytes than it has. -/
lemma failsWithin_ofKey (key : Bytes) : FailsWithin key.length (ofKey key) := by
  intro e h
  rcases exists_cause_or_malformed_of_ofKey h with ⟨cause, hdecode, hlength, rfl⟩ | ⟨-, hread⟩
  · have hbound := (Vlq.failsWithin_decode 64 _).after hdecode 32
    rw [List.length_drop] at hbound
    omega
  · exact hread

/-- A key that is refused is refused as malformed, unless the bytes behind the hash outgrow 64 bits. -/
lemma malformed_or_overflows_of_ofKey {key : Bytes} {e : Error} (h : ofKey key = .error e) :
    e.kind = .malformed ∨ Overflows 64 (key.drop 32) := by
  rcases exists_cause_or_malformed_of_ofKey h with ⟨⟨fault, k⟩, hdecode, -, rfl⟩ | ⟨hkind, -⟩
  · rcases Vlq.tooWide_or_short_of_decode (by omega) hdecode with hwide | ⟨hshort, -⟩
    · obtain rfl : fault = .integerTooWide 64 := hwide
      exact Or.inr ((Vlq.decode_tooWide_iff (by omega)).mp ⟨k, hdecode⟩)
    · exact Or.inl (congrArg ErrorCode.kind hshort)
  · exact Or.inl hkind

/-- A key in which the bytes behind the hash outgrow 64 bits is refused as an internal error. -/
lemma exists_tooWide_of_overflows {key : Bytes} (h : Overflows 64 (key.drop 32)) :
    ∃ e, ofKey key = .error e ∧ e.fault = .integerTooWide 64 ∧ e.kind = .internal := by
  have hlength : 32 < key.length := by
    have hne := h.ne_nil
    rw [Ne, List.drop_eq_nil_iff] at hne
    exact not_le.mp hne
  obtain ⟨k, hdecode⟩ := (Vlq.decode_tooWide_iff (by omega)).mpr h
  exact ⟨_, ofKey_of_decode_error hlength hdecode, rfl, rfl⟩

/-- A key is read or refused as malformed input as long as the bytes behind the hash do not outgrow 64
bits; if they do, it is refused as an internal error.  No refusal counts more bytes than the key has. -/
theorem ofKey_ok_or_malformed_iff (key : Bytes) :
    (((∃ o, ofKey key = .ok o) ∨ ∃ e, ofKey key = .error e ∧ e.kind = .malformed) ↔
      ¬ Overflows 64 (key.drop 32)) ∧
    ((∃ e, ofKey key = .error e ∧ e.fault = .integerTooWide 64 ∧ e.kind = .internal) ↔
      Overflows 64 (key.drop 32)) ∧
    ∀ e, ofKey key = .error e → e.bytesRead ≤ key.length := by
  refine ⟨⟨?_, ?_⟩, ⟨?_, exists_tooWide_of_overflows⟩, failsWithin_ofKey key⟩
  · intro h hover
    obtain ⟨e, he, -, hinternal⟩ := exists_tooWide_of_overflows hover
    rcases h with ⟨o, ho⟩ | ⟨e', he', hmalformed⟩
    · rw [ho] at he
      cases he
    · rw [he'] at he
      cases he
      rw [hmalformed] at hinternal
      cases hinternal
  · intro hnot
    cases hread : ofKey key with
    | ok o => exact Or.inl ⟨o, rfl⟩
    | error e =>
      rcases malformed_or_overflows_of_ofKey hread with hmalformed | hover
      · exact Or.inr ⟨e, rfl, hmalformed⟩
      · exact absurd hover hnot
  · rintro ⟨e, he, -, hinternal⟩
    rcases malformed_or_overflows_of_ofKey he with hmalformed | hover
    · rw [hmalformed] at hinternal
      cases hinternal
    · exact hover

/-- A hash, and behind it the written form of 2 ^ 64. -/
def wideIndexKey : Bytes :=
  List.replicate 32 0xAB ++ [0x80, 0xFE, 0xFE, 0xFE, 0xFE, 0xFE, 0xFE, 0xFE, 0xFF, 0x00]

/-- The index 2 ^ 32 is refused as malformed and does not outgrow 64 bits, the index 2 ^ 64 does. -/
theorem ofKey_wide_indices :
    (∃ e, ofKey (Hash.zero.bytes ++ [0x8E, 0xFE, 0xFE, 0xFF, 0x00]) = .error e ∧
      e.kind = .malformed ∧ e.bytesRead ≤ 37) ∧
    ¬ Overflows 64 [0x8E, 0xFE, 0xFE, 0xFF, 0x00] ∧
    Overflows 64 (wideIndexKey.drop 32) := by
  obtain ⟨hnarrow, -, hwithin⟩ :=
    ofKey_ok_or_malformed_iff (Hash.zero.bytes ++ [0x8E, 0xFE, 0xFE, 0xFF, 0x00])
  obtain ⟨-, hwide, -⟩ := ofKey_ok_or_malformed_iff wideIndexKey
  have hread : ofKey (Hash.zero.bytes ++ [0x8E, 0xFE, 0xFE, 0xFF, 0x00]) =
      .error ⟨.outPointIndexTooLarge, 37⟩ := by rfl
  refine ⟨⟨_, hread, rfl, hwithin _ hread⟩, ?_, hwide.mp ⟨⟨.integerTooWide 64, 41⟩, ?_⟩⟩
  · exact hnarrow.mp (Or.inr ⟨_, hread, rfl⟩)
  · exact ⟨by rfl, rfl, rfl⟩

/-- An index of 65 bits is neither read nor refused as malformed. -/
theorem ofKey_wideIndexKey :
    ofKey wideIndexKey = .error ⟨.integerTooWide 64, 41⟩ ∧
    ¬ ((∃ o, ofKey wideIndexKey = .ok o) ∨
      ∃ e, ofKey wideIndexKey = .error e ∧ e.kind = .malformed ∧
        e.bytesRead ≤ wideIndexKey.length) := by
  have hread : ofKey wideIndexKey = .error ⟨.integerTooWide 64, 41⟩ := by rfl
  refine ⟨hread, ?_⟩
  rintro (⟨o, ho⟩ | ⟨e, he, hkind, -⟩)
  · rw [hread] at ho
    cases ho
  · rw [hread] at he
    cases he
    exact absurd hkind (by decide)

end CoinLedger.OutPoint
