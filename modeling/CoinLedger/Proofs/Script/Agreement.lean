import Mathlib
import CoinLedger.Proofs.PublicKey.Expand
import CoinLedger.Proofs.Script

/-!
# The length of a script and the script itself

The length of a compressed script is found from its tag alone, and the script is read by another look at
the same tag.  `readSize_decompress_agree` says that the two belong together: a script is read from the
bytes that its length counts, it is cut short exactly if these are not all there or too many to be counted,
and where all of them are there only a key that is not on the curve is refused.

Both readers are brought to one form.  A tag asks for a number of bytes behind it (`bodySize`), and what it
makes of them does not depend on what follows (`ofBody`).
-/

namespace CoinLedger.Script

open PublicKey (toNat)
open Secp256k1 (OnCurve)

/-! ## Tags and what they ask for -/

/-- The number of bytes for which a tag asks. -/
def bodySize (tag : ℕ) : ℕ := if tag < templateTags then payloadSize tag else tag - templateTags

/-- The script of a tag and the bytes for which it asks. -/
def ofBody (tag : ℕ) (body : Bytes) : Except Error Bytes :=
  if tag < templateTags then ofTemplate tag body 1 else .ok body

/-- The complaint that fewer bytes are there than those for which a tag asks. -/
def shortage (tag available : ℕ) : Fault :=
  if tag < templateTags then .scriptPayloadTruncated
  else .rawScriptTruncated (tag - templateTags) available

lemma code_shortage (tag available : ℕ) : (shortage tag available).code = .parseUnderflow := by
  rw [shortage]
  split <;> rfl

lemma size_of_lt_templateTags {tag : ℕ} (h : tag < templateTags) : Vlq.size tag = 1 :=
  Vlq.size_of_le (le_of_lt_templateTags h)

/-- The length is that of the tag and of the bytes for which it asks, if it can be counted. -/
lemma readSize_tag_append {tag : ℕ} (htag : tag < 2 ^ 64) (rest : Bytes) :
    readSize (Vlq.encode tag ++ rest) =
      if Vlq.size tag + bodySize tag < UInt64.size then .ok (Vlq.size tag + bodySize tag)
      else .error ⟨.scriptSizeOverflow, Vlq.size tag⟩ := by
  rw [readSize, Vlq.decode_encode_append_of_lt (by omega) htag, Vlq.length_encode, bodySize]
  dsimp only
  split
  next htemplate =>
    have hword : 1 + payloadSize tag < UInt64.size := by
      rw [payloadSize]
      split <;> decide
    rw [size_of_lt_templateTags htemplate, if_pos hword]
  next => rw [Nat.add_comm]

/-- A script is made of the tag and the bytes for which it asks, or is cut short. -/
lemma decompress_tag_append {tag : ℕ} (htag : tag < 2 ^ 64) (rest : Bytes) :
    decompress (Vlq.encode tag ++ rest) =
      if rest.length < bodySize tag then
        .error ⟨shortage tag rest.length, (Vlq.encode tag ++ rest).length⟩
      else ofBody tag (rest.take (bodySize tag)) := by
  have hdrop : (Vlq.encode tag ++ rest).drop (Vlq.size tag) = rest :=
    List.drop_left' (Vlq.length_encode tag)
  rw [decompress, Vlq.decode_encode_append_of_lt (by omega) htag, Vlq.length_encode]
  dsimp only
  rw [hdrop, ofBody, shortage, bodySize]
  split
  next htemplate => rw [size_of_lt_templateTags htemplate]
  next => rfl

/-- A tag refuses the bytes for which it asks exactly if it stands for a full key and they are the `x` of
no point. -/
lemma ofBody_eq_error_iff {tag : ℕ} {body : Bytes} {e : Error} :
    ofBody tag body = .error e ↔
      (tag = 4 ∨ tag = 5) ∧ (¬ ∃ y, OnCurve (toNat body) y) ∧ e = ⟨.scriptKeyInvalid, 1⟩ := by
  by_cases hkey : tag = 4 ∨ tag = 5
  · have hlead : UInt8.ofNat (tag - 2) = 2 ∨ UInt8.ofNat (tag - 2) = 3 := by
      rcases hkey with rfl | rfl <;> decide
    have hexpand : (∃ key, PublicKey.expand (UInt8.ofNat (tag - 2)) body = .ok key) ↔
        ∃ y, OnCurve (toNat body) y := by
      rw [PublicKey.exists_expand_iff, and_iff_right hlead]
    have htemplate : tag < templateTags := by
      rw [templateTags]
      omega
    rw [and_iff_right hkey, ← hexpand, ofBody, if_pos htemplate, ofTemplate]
    · cases PublicKey.expand (UInt8.ofNat (tag - 2)) body with
      | ok key => simp
      | error e' => simp [eq_comm]
    all_goals omega
  · refine iff_of_false ?_ (fun h => hkey h.1)
    intro herror
    rw [ofBody] at herror
    split at herror
    next htemplate =>
      rw [templateTags] at htemplate
      have hother : tag = 0 ∨ tag = 1 ∨ tag = 2 ∨ tag = 3 := by omega
      rcases hother with rfl | rfl | rfl | rfl <;> cases herror
    next => cases herror

/-! ## Lengths and scripts -/

/-- Whether the data begin with a tag for a full key and 32 bytes that are the `x` of no point. -/
def KeyOffCurve (data : Bytes) : Prop :=
  ∃ tag, Vlq.decode 64 data = .ok ⟨tag, 1⟩ ∧ (tag = 4 ∨ tag = 5) ∧
    ¬ ∃ y, OnCurve (toNat ((data.drop 1).take 32)) y

/-- Whether the data begin with the tag of a raw script that has, with the tag, more bytes than a word
counts. -/
def SizeOverflows (data : Bytes) : Prop :=
  ∃ tag k, Vlq.decode 64 data = .ok ⟨tag, k⟩ ∧ templateTags ≤ tag ∧ 2 ^ 64 ≤ tag - templateTags + k

/-- Where a length is found, it counts a tag and the bytes for which this tag asks. -/
lemma exists_tag_append_of_readSize {data : Bytes} {size : ℕ} (h : readSize data = .ok size) :
    ∃ tag rest, tag < 2 ^ 64 ∧ data = Vlq.encode tag ++ rest ∧ size = Vlq.size tag + bodySize tag := by
  obtain ⟨⟨tag, k⟩, htag⟩ := exists_tag_of_readSize h
  obtain ⟨hword, -, rest, rfl⟩ := (Vlq.decode_eq_ok_iff_encode (by omega)).mp htag
  rw [readSize_tag_append hword] at h
  split at h
  next =>
    cases h
    exact ⟨tag, rest, hword, rfl, rfl⟩
  next => cases h

/-- A length that a word does not count is that of the tag and of the bytes for which it asks. -/
lemma sizeOverflows_iff {data : Bytes} :
    SizeOverflows data ↔ ∃ tag rest, tag < 2 ^ 64 ∧ data = Vlq.encode tag ++ rest ∧
      2 ^ 64 ≤ Vlq.size tag + bodySize tag := by
  constructor
  · rintro ⟨tag, k, htag, hraw, hwide⟩
    obtain ⟨hword, hk, rest, rfl⟩ := (Vlq.decode_eq_ok_iff_encode (by omega)).mp htag
    obtain rfl : k = Vlq.size tag := hk
    refine ⟨tag, rest, hword, rfl, ?_⟩
    rw [bodySize, if_neg (by omega)]
    omega
  · rintro ⟨tag, rest, hword, rfl, hwide⟩
    have hraw : templateTags ≤ tag := by
      by_contra hlt
      have htemplate : tag < templateTags := not_le.mp hlt
      rw [size_of_lt_templateTags htemplate, bodySize, if_pos htemplate, payloadSize] at hwide
      split at hwide <;> omega
    rw [bodySize, if_neg (by omega)] at hwide
    refine ⟨tag, Vlq.size tag, ?_, hraw, by omega⟩
    rw [Vlq.decode_encode_append_of_lt (by omega) hword, Vlq.length_encode]

/-- No length is found for the reason that a word does not count it. -/
lemma readSize_overflow_iff {data : Bytes} :
    (∃ k, readSize data = .error ⟨.scriptSizeOverflow, k⟩) ↔ SizeOverflows data := by
  constructor
  · rintro ⟨k, h⟩
    cases htag : Vlq.decode 64 data with
    | error e =>
      rw [readSize, htag] at h
      cases h
      rcases Vlq.tooWide_or_short_of_decode (by omega) htag with hfault | ⟨hcode, -⟩
      · cases hfault
      · have hcode : ErrorCode.parseOverflow = .parseUnderflow := hcode
        exact absurd hcode (by decide)
    | ok d =>
      obtain ⟨hword, -, rest, rfl⟩ := (Vlq.decode_eq_ok_iff_encode (by omega)).mp htag
      rw [readSize_tag_append hword] at h
      split at h
      next => cases h
      next hwide => exact sizeOverflows_iff.mpr ⟨_, rest, hword, rfl, not_lt.mp hwide⟩
  · intro h
    obtain ⟨tag, rest, hword, rfl, hwide⟩ := sizeOverflows_iff.mp h
    exact ⟨_, (readSize_tag_append hword rest).trans (if_neg (not_lt.mpr hwide))⟩

/-- A key is not on the curve if its tag asks for bytes that are the `x` of no point. -/
lemma keyOffCurve_tag_append {tag : ℕ} (hword : tag < 2 ^ 64) (rest : Bytes) :
    KeyOffCurve (Vlq.encode tag ++ rest) ↔
      (tag = 4 ∨ tag = 5) ∧ ¬ ∃ y, OnCurve (toNat (rest.take (bodySize tag))) y := by
  have hdecode : Vlq.decode 64 (Vlq.encode tag ++ rest) = .ok ⟨tag, (Vlq.encode tag).length⟩ :=
    Vlq.decode_encode_append_of_lt (by omega) hword rest
  have hbytes : tag = 4 ∨ tag = 5 → (Vlq.encode tag).length = 1 ∧
      ((Vlq.encode tag ++ rest).drop 1).take 32 = rest.take (bodySize tag) := by
    intro hkey
    have hone : (Vlq.encode tag).length = 1 := by
      rw [Vlq.length_encode, Vlq.size_of_le (by omega)]
    have hbody : bodySize tag = 32 := by rcases hkey with rfl | rfl <;> rfl
    rw [List.drop_left' hone, hbody]
    exact ⟨hone, rfl⟩
  constructor
  · rintro ⟨tag', htag, hkey, hoff⟩
    rw [hdecode] at htag
    obtain rfl : tag = tag' := congrArg Decoded.value (Except.ok.inj htag)
    rw [(hbytes hkey).2] at hoff
    exact ⟨hkey, hoff⟩
  · rintro ⟨hkey, hoff⟩
    obtain ⟨hone, htake⟩ := hbytes hkey
    rw [hone] at hdecode
    rw [← htake] at hoff
    exact ⟨tag, hdecode, hkey, hoff⟩

/-- A script is read from the bytes that its length counts. -/
lemma decompress_take {data : Bytes} {size : ℕ} (h : readSize data = .ok size)
    (hfits : size ≤ data.length) : decompress (data.take size) = decompress data := by
  obtain ⟨tag, rest, hword, rfl, rfl⟩ := exists_tag_append_of_readSize h
  rw [List.length_append, Vlq.length_encode] at hfits
  have htake : (Vlq.encode tag ++ rest).take (Vlq.size tag + bodySize tag) =
      Vlq.encode tag ++ rest.take (bodySize tag) := by
    rw [← Vlq.length_encode tag, List.take_length_add_append]
  rw [htake, decompress_tag_append hword, decompress_tag_append hword, List.take_take, min_self,
    List.length_take_of_le (by omega), if_neg (lt_irrefl _), if_neg (by omega)]

/-- Where all bytes are there that the length counts, only a key is refused. -/
lemma decompress_eq_error_iff {data : Bytes} {size : ℕ} (h : readSize data = .ok size)
    (hfits : size ≤ data.length) {e : Error} :
    decompress data = .error e ↔ KeyOffCurve data ∧ e = ⟨.scriptKeyInvalid, 1⟩ := by
  obtain ⟨tag, rest, hword, rfl, rfl⟩ := exists_tag_append_of_readSize h
  rw [List.length_append, Vlq.length_encode] at hfits
  rw [decompress_tag_append hword, if_neg (by omega), ofBody_eq_error_iff, ← and_assoc,
    keyOffCurve_tag_append hword]

/-- Where bytes are missing that the length counts, or they are too many to be counted, the script is
cut short. -/
lemma exists_shortage {data : Bytes} (hlength : data.length < 2 ^ 64)
    (h : (∃ size, readSize data = .ok size ∧ data.length < size) ∨ SizeOverflows data) :
    ∃ e, decompress data = .error e ∧ e.code = .parseUnderflow ∧ e.bytesRead = data.length := by
  have hshort : ∃ tag rest, tag < 2 ^ 64 ∧ data = Vlq.encode tag ++ rest ∧
      rest.length < bodySize tag := by
    rcases h with ⟨size, hsize, hlt⟩ | hover
    · obtain ⟨tag, rest, hword, rfl, rfl⟩ := exists_tag_append_of_readSize hsize
      rw [List.length_append, Vlq.length_encode] at hlt
      exact ⟨tag, rest, hword, rfl, by omega⟩
    · obtain ⟨tag, rest, hword, rfl, hwide⟩ := sizeOverflows_iff.mp hover
      rw [List.length_append, Vlq.length_encode] at hlength
      exact ⟨tag, rest, hword, rfl, by omega⟩
  obtain ⟨tag, rest, hword, rfl, hlt⟩ := hshort
  rw [decompress_tag_append hword, if_pos hlt]
  exact ⟨_, rfl, code_shortage tag rest.length, rfl⟩

/-- The length that is found from the tag and the script agree.  If all bytes are there that the length
counts, the script is read from them alone, and it is refused exactly if it is a full key whose `x` belongs
to no point, behind the tag.  If there are fewer, or a word does not count them, the script is cut short.
If the tag is not read, the length and the script are refused for the same reason at the same place. -/
theorem readSize_decompress_agree {data : Bytes} (hlength : data.length < 2 ^ 64) :
    (∀ size, readSize data = .ok size → size ≤ data.length →
      decompress data = decompress (data.take size) ∧
      ((∃ e, decompress data = .error e) ↔ KeyOffCurve data) ∧
      ∀ e, decompress data = .error e → e.code = .parseBadFormat ∧ e.bytesRead = 1) ∧
    ((∃ k, readSize data = .error ⟨.scriptSizeOverflow, k⟩) ↔ SizeOverflows data) ∧
    ((∃ size, readSize data = .ok size ∧ data.length < size) ∨ SizeOverflows data →
      ∃ e, decompress data = .error e ∧ e.code = .parseUnderflow ∧ e.bytesRead = data.length) ∧
    ∀ e, Vlq.decode 64 data = .error e → readSize data = .error e ∧ decompress data = .error e := by
  refine ⟨?_, readSize_overflow_iff, exists_shortage hlength, ?_⟩
  · intro size hsize hfits
    have herror : ∀ e, decompress data = .error e ↔ KeyOffCurve data ∧ e = ⟨.scriptKeyInvalid, 1⟩ :=
      fun e => decompress_eq_error_iff hsize hfits
    refine ⟨(decompress_take hsize hfits).symm, ?_, ?_⟩
    · constructor
      · rintro ⟨e, h⟩
        exact ((herror e).mp h).1
      · intro hoff
        exact ⟨_, (herror _).mpr ⟨hoff, rfl⟩⟩
    · intro e h
      obtain ⟨-, rfl⟩ := (herror e).mp h
      exact ⟨rfl, rfl⟩
  · intro e htag
    rw [readSize, decompress, htag]
    exact ⟨rfl, rfl⟩

/-- Behind the tag 4 the number 5 is the `x` of no point, whatever follows it; a raw script whose tag is the
largest word is not counted with that tag, and a tag of one byte that goes on is not read. -/
theorem readSize_decompress_agree_extremes :
    decompress (4 :: (PublicKey.ofNat 32 5 ++ [0xee])) = decompress (4 :: PublicKey.ofNat 32 5) ∧
    KeyOffCurve (4 :: (PublicKey.ofNat 32 5 ++ [0xee])) ∧
    SizeOverflows [0x80, 0xfe, 0xfe, 0xfe, 0xfe, 0xfe, 0xfe, 0xfe, 0xfe, 0x7f] ∧
    (∃ e, decompress [0x80, 0xfe, 0xfe, 0xfe, 0xfe, 0xfe, 0xfe, 0xfe, 0xfe, 0x7f] = .error e ∧
      e.code = .parseUnderflow ∧ e.bytesRead = 10) ∧
    (∃ e, decompress [41, 1, 2] = .error e ∧ e.code = .parseUnderflow ∧ e.bytesRead = 3) ∧
    decompress [0x80] = .error ⟨.integerUnterminated, 1⟩ := by
  have hsize : readSize (4 :: (PublicKey.ofNat 32 5 ++ [0xee])) = .ok 33 := by decide
  obtain ⟨hkey, -⟩ :=
    @readSize_decompress_agree (4 :: (PublicKey.ofNat 32 5 ++ [0xee])) (by decide)
  obtain ⟨hread, hrefused, -⟩ := hkey 33 hsize (by decide)
  obtain ⟨-, hwide, hshort, -⟩ :=
    @readSize_decompress_agree [0x80, 0xfe, 0xfe, 0xfe, 0xfe, 0xfe, 0xfe, 0xfe, 0xfe, 0x7f] (by decide)
  have hover := hwide.mp ⟨10, by decide⟩
  obtain ⟨-, -, hcut, -⟩ := @readSize_decompress_agree [41, 1, 2] (by decide)
  obtain ⟨-, -, -, hopen⟩ := @readSize_decompress_agree [0x80] (by decide)
  refine ⟨hread, hrefused.mp ⟨⟨.scriptKeyInvalid, 1⟩, by decide +kernel⟩, hover, hshort (Or.inr hover),
    hcut (Or.inl ⟨36, by decide, by decide⟩), (hopen _ (by decide)).2⟩

end CoinLedger.Script
