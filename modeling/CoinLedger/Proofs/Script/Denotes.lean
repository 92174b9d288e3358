import Mathlib
import CoinLedger.Proofs.Script.Template

/-!
# What may stand for a script

`Denotes` lists the byte strings from which a script is given back: a template tag with a payload of
the right length, or the length of the script, plus the number of tags, in front of the script.  More
of them are read than are written.  Behind the tags 2 and 3 any 32 bytes will do, whether they belong
to a point or not, and a script that follows a template may be stored raw all the same.

`denotes_iff`: these are the byte strings whose length is found from their tag and from which a
script is given back.  A script that they denote can be stored again (`Denotes.length_compress_lt`).
-/

namespace CoinLedger.Script

open PublicKey (toNat)
open Secp256k1 (OnCurve)

/-- The bytes that may be stored for a script. -/
inductive Denotes : Bytes → Bytes → Prop
  /-- payment to the hash of a key -/
  | keyHash (hash : Bytes) (hlength : hash.length = 20) :
    Denotes (0 :: hash) ([0x76, 0xa9, 0x14] ++ hash ++ [0x88, 0xac])
  /-- payment to the hash of a script -/
  | scriptHash (hash : Bytes) (hlength : hash.length = 20) :
    Denotes (1 :: hash) ([0xa9, 0x14] ++ hash ++ [0x87])
  /-- payment to a key in short form, which need not be valid -/
  | shortKey (tag : UInt8) (x : Bytes) (htag : tag = 2 ∨ tag = 3) (hx : x.length = 32) :
    Denotes (tag :: x) ([0x21, tag] ++ x ++ [0xac])
  /-- payment to a key given by `x` and the parity of `y` -/
  | fullKey (x y : Bytes) (hx : x.length = 32) (hy : y.length = 32)
    (hpoint : OnCurve (toNat x) (toNat y)) :
    Denotes (UInt8.ofNat (4 + toNat y % 2) :: x) ([0x41, 4] ++ (x ++ y) ++ [0xac])
  /-- any script behind its length -/
  | raw (script : Bytes) : Denotes (Vlq.encode (script.length + 6) ++ script) script

/-! ## Templates -/

/-- What is made of a template tag and its payload is denoted by the two. -/
lemma denotes_of_ofTemplate {tag : ℕ} {payload script : Bytes} (htag : tag < templateTags)
    (hpayload : payload.length = payloadSize tag) (h : ofTemplate tag payload 1 = .ok script) :
    Denotes (UInt8.ofNat tag :: payload) script := by
  rw [templateTags] at htag
  by_cases hfull : 4 ≤ tag
  · -- the tags 4 and 5 stand for a point, whose `y` has the parity of the tag
    have hexpand : ∃ key, PublicKey.expand (UInt8.ofNat (tag - 2)) payload = .ok key ∧
        script = payToFullKey key := by
      rw [ofTemplate] at h
      · cases hkey : PublicKey.expand (UInt8.ofNat (tag - 2)) payload with
        | error e =>
          rw [hkey] at h
          cases h
        | ok key =>
          rw [hkey] at h
          cases h
          exact ⟨key, rfl, rfl⟩
      all_goals omega
    obtain ⟨key, hkey, rfl⟩ := hexpand
    obtain ⟨y, hy, hpoint, hlead, rfl⟩ := PublicKey.expand_eq_ok_iff.mp hkey
    have hx : payload.length = 32 := by rw [hpayload, payloadSize, if_neg (by omega)]
    have hbyte : ∀ n < 4, (UInt8.ofNat n).toNat = n := by decide
    have htagY : tag = 4 + toNat y % 2 := by
      have hsame := congrArg UInt8.toNat hlead
      rw [hbyte _ (by omega), hbyte _ (by omega)] at hsame
      omega
    rw [htagY]
    exact .fullKey payload y hx hy hpoint
  · interval_cases tag <;> cases h
    · exact .keyHash payload hpayload
    · exact .scriptHash payload hpayload
    · exact .shortKey 2 payload (Or.inl rfl) hpayload
    · exact .shortKey 3 payload (Or.inr rfl) hpayload

/-- A template tag and its payload are read as what is made of them. -/
lemma read_of_ofTemplate (tag : ℕ) {payload script : Bytes} (htag : tag < templateTags)
    (hpayload : payload.length = payloadSize tag) (h : ofTemplate tag payload 1 = .ok script) :
    readSize (UInt8.ofNat tag :: payload) = .ok (UInt8.ofNat tag :: payload).length ∧
      decompress (UInt8.ofNat tag :: payload) = .ok script := by
  constructor
  · rw [readSize_template htag, List.length_cons, hpayload, Nat.add_comm]
  · have hread := decompress_template htag hpayload []
    rwa [List.append_nil, h] at hread

/-! ## All of them -/

lemma readSize_lt {data : Bytes} {size : ℕ} (h : readSize data = .ok size) : size < UInt64.size := by
  rw [readSize] at h
  cases htag : Vlq.decode 64 data with
  | error e =>
    rw [htag] at h
    cases h
  | ok tag =>
    rw [htag] at h
    dsimp only at h
    split at h
    next =>
      cases h
      rw [payloadSize]
      split <;> decide
    next =>
      split at h
      next hlt =>
        cases h
        exact hlt
      next => cases h

/-- A script is read from the bytes at the front that denote it, and these are counted. -/
lemma exists_denotes_of_decompress {data script : Bytes} {size : ℕ} (hsize : readSize data = .ok size)
    (hread : decompress data = .ok script) :
    ∃ stored rest, data = stored ++ rest ∧ size = stored.length ∧ Denotes stored script := by
  obtain ⟨⟨tag, k⟩, htag⟩ := exists_tag_of_readSize hsize
  obtain ⟨-, hbytes, payload, rfl⟩ := (Vlq.decode_eq_ok_iff_encode (by omega)).mp htag
  obtain rfl : k = Vlq.size tag := hbytes
  have hdrop : (Vlq.encode tag ++ payload).drop (Vlq.size tag) = payload :=
    List.drop_left' (Vlq.length_encode tag)
  rw [readSize, htag] at hsize
  rw [decompress, htag] at hread
  dsimp only at hsize hread
  rw [hdrop] at hread
  by_cases htemplate : tag < templateTags
  · -- a tag of one byte, and as much of the payload as the template takes
    rw [if_pos htemplate] at hsize hread
    have hsmall := le_of_lt_templateTags htemplate
    split at hread
    next => cases hread
    next hfits =>
      have hpayload : (payload.take (payloadSize tag)).length = payloadSize tag :=
        List.length_take_of_le (not_lt.mp hfits)
      rw [Vlq.size_of_le hsmall] at hread
      refine ⟨UInt8.ofNat tag :: payload.take (payloadSize tag), payload.drop (payloadSize tag), ?_, ?_,
        denotes_of_ofTemplate htemplate hpayload hread⟩
      · rw [Vlq.encode_of_le hsmall, List.singleton_append, List.cons_append, List.take_append_drop]
      · rw [List.length_cons, hpayload, Nat.add_comm]
        exact (Except.ok.inj hsize).symm
  · -- the tag counts the bytes of the script, with the tags of the templates on top
    rw [if_neg htemplate] at hsize hread
    split at hread
    next => cases hread
    next hfits =>
      split at hsize
      next =>
        cases hread
        have hlength : (payload.take (tag - templateTags)).length = tag - templateTags :=
          List.length_take_of_le (not_lt.mp hfits)
        have hcode : tag = (payload.take (tag - templateTags)).length + 6 := by
          rw [hlength]
          rw [templateTags] at htemplate ⊢
          omega
        refine ⟨Vlq.encode tag ++ payload.take (tag - templateTags),
          payload.drop (tag - templateTags), ?_, ?_, ?_⟩
        · rw [List.append_assoc, List.take_append_drop]
        · rw [List.length_append, hlength, Vlq.length_encode, Nat.add_comm]
          exact (Except.ok.inj hsize).symm
        · nth_rewrite 1 [hcode]
          exact .raw _
      next => cases hsize

/-- What is read from all of some bytes is denoted by them. -/
lemma denotes_of_read {stored script : Bytes} (hsize : readSize stored = .ok stored.length)
    (hread : decompress stored = .ok script) : Denotes stored script := by
  obtain ⟨front, rest, rfl, hlength, hdenotes⟩ := exists_denotes_of_decompress hsize hread
  have hrest : rest = [] := by
    rw [List.length_append] at hlength
    exact List.eq_nil_of_length_eq_zero (by omega)
  rwa [hrest, List.append_nil]

/-- The byte strings that denote a script are those whose length is found from their tag and from which
the script is given back. -/
theorem denotes_iff {stored script : Bytes} (hsize : stored.length < UInt64.size) :
    Denotes stored script ↔
      readSize stored = .ok stored.length ∧ decompress stored = .ok script := by
  constructor
  · intro h
    cases h with
    | keyHash hash hlength => exact read_of_ofTemplate 0 (by decide) hlength rfl
    | scriptHash hash hlength => exact read_of_ofTemplate 1 (by decide) hlength rfl
    | shortKey tag x htag hx =>
      rcases htag with rfl | rfl
      · exact read_of_ofTemplate 2 (by decide) hx rfl
      · exact read_of_ofTemplate 3 (by decide) hx rfl
    | fullKey x y hx hy hpoint =>
      have htag : 4 + toNat y % 2 < templateTags := by
        rw [templateTags]
        omega
      have hpayload : x.length = payloadSize (4 + toNat y % 2) := by
        rw [payloadSize, if_neg (by omega), hx]
      exact read_of_ofTemplate _ htag hpayload (Form.ofTemplate_fullKey hy hpoint 1)
    | raw script =>
      have hlength : Vlq.size (script.length + templateTags) + script.length < UInt64.size := by
        rwa [List.length_append, Vlq.length_encode] at hsize
      have hword := Vlq.lt_of_size_add_lt (by decide) hlength
      have hread := readSize_raw hlength []
      have hback := decompress_raw hword []
      rw [List.append_nil] at hread hback
      rw [List.length_append, Vlq.length_encode]
      exact ⟨hread, hback⟩
  · rintro ⟨hread, hback⟩
    exact denotes_of_read hread hback

/-! ## Storing again -/

/-- A script takes at most as many bytes as when it is stored raw. -/
lemma length_compress_le (script : Bytes) :
    (compress script).length ≤ Vlq.size (script.length + 6) + script.length := by
  by_cases htemplate : IsTemplate script
  · exact (length_compress_lt htemplate).le.trans (Nat.le_add_left _ _)
  · rw [compress_of_not_isTemplate htemplate, List.length_append, Vlq.length_encode]

/-- Of a script that is denoted by stored bytes the compressed form has a length of 64 bits again. -/
lemma Denotes.length_compress_lt {stored script : Bytes} (h : Denotes stored script)
    (hsize : stored.length < UInt64.size) : (compress script).length < UInt64.size := by
  refine (length_compress_le script).trans_lt ?_
  by_cases hshort : script.length ≤ 67
  · have hone : Vlq.size (script.length + 6) = 1 := Vlq.size_of_le (by omega)
    have hword : 68 < UInt64.size := by decide
    omega
  · cases h with
    | raw script => rwa [List.length_append, Vlq.length_encode] at hsize
    | keyHash hash hlength => simp [hlength] at hshort
    | scriptHash hash hlength => simp [hlength] at hshort
    | shortKey tag x htag hx => simp [hx] at hshort
    | fullKey x y hx hy hpoint => simp [hx, hy] at hshort

end CoinLedger.Script
