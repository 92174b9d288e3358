import Mathlib
import CoinLedger.Proofs.Script

/-!
# The scripts that have a form of their own

`IsTemplate` lists, byte by byte, the scripts that are stored by a tag and the part that varies.  Key
templates are among them only with the coordinates of a point of the curve.

A form is recognised again in its script (`form_toScript`), since the templates differ in length.  So
a script is stored raw exactly if it is none of them (`form_eq_raw_iff`), and a template is stored in
fewer bytes than it has (`length_compress_lt`).  `restored_and_raw_unless_template` joins this with
the way back, which leaves every script as it was.
-/

namespace CoinLedger.Script

open PublicKey (toNat)
open Secp256k1 (OnCurve)

/-- The scripts that have a compressed form of their own. -/
inductive IsTemplate : Bytes → Prop
  /-- payment to the hash of a key -/
  | keyHash (hash : Bytes) (hlength : hash.length = 20) :
    IsTemplate ([0x76, 0xa9, 0x14] ++ hash ++ [0x88, 0xac])
  /-- payment to the hash of a script -/
  | scriptHash (hash : Bytes) (hlength : hash.length = 20) :
    IsTemplate ([0xa9, 0x14] ++ hash ++ [0x87])
  /-- payment to a key given by `x` and the parity of `y` -/
  | shortKey (x : Bytes) (y : ℕ) (hx : x.length = 32) (hpoint : OnCurve (toNat x) y) :
    IsTemplate ([0x21, UInt8.ofNat (2 + y % 2)] ++ x ++ [0xac])
  /-- payment to a key given by `x` and `y` -/
  | fullKey (x y : Bytes) (hx : x.length = 32) (hy : y.length = 32)
    (hpoint : OnCurve (toNat x) (toNat y)) : IsTemplate ([0x41, 4] ++ (x ++ y) ++ [0xac])

/-! ## Forms and their scripts -/

lemma between?_eq_none_of_length {head tail script : Bytes} {count : ℕ}
    (h : script.length ≠ head.length + count + tail.length) :
    between? head count tail script = none := by
  cases hbetween : between? head count tail script with
  | none => rfl
  | some middle =>
    obtain ⟨hmiddle, rfl⟩ := between?_eq_some_iff.mp hbetween
    refine absurd ?_ h
    rw [List.length_append, List.length_append, hmiddle]

/-- What stands between head and tail of a template is found again. -/
lemma between?_append {head tail middle : Bytes} {count : ℕ} (h : middle.length = count) :
    between? head count tail (head ++ middle ++ tail) = some middle :=
  between?_eq_some_iff.mpr ⟨h, rfl⟩

/-- A template is recognised in its own script: the templates before it are of other lengths. -/
lemma form_toScript {f : Form} (hf : f.WellFormed) (hraw : ∀ script, f ≠ .raw script) :
    form f.toScript = f := by
  cases f with
  | keyHash hash =>
    have hlength : hash.length = 20 := hf
    simp only [form, Form.toScript, payToKeyHash, between?_append hlength]
  | scriptHash hash =>
    have hlength : hash.length = 20 := hf
    rw [form, Form.toScript, between?_eq_none_of_length (by simp [payToScriptHash, hlength]),
      payToScriptHash, between?_append hlength]
  | shortKey key =>
    obtain ⟨hlength, hvalid⟩ := hf
    rw [form, Form.toScript, between?_eq_none_of_length (by simp [payToShortKey, hlength]),
      between?_eq_none_of_length (by simp [payToShortKey, hlength]), payToShortKey,
      between?_append hlength, Option.filter_some, if_pos hvalid]
  | fullKey key =>
    obtain ⟨hlength, hvalid⟩ := hf
    rw [form, Form.toScript, between?_eq_none_of_length (by simp [payToFullKey, hlength]),
      between?_eq_none_of_length (by simp [payToFullKey, hlength]),
      between?_eq_none_of_length (by simp [payToFullKey, hlength]), payToFullKey,
      between?_append hlength, Option.filter_some, if_pos hvalid]
    rfl
  | raw script => exact absurd rfl (hraw script)

/-- A template is stored in its own form. -/
lemma compress_toScript {f : Form} (hf : f.WellFormed) (hraw : ∀ script, f ≠ .raw script) :
    compress f.toScript = f.encode := by
  rw [compress, form_toScript hf hraw]

/-- The script of a form other than raw bytes is a template. -/
lemma isTemplate_toScript {f : Form} (hf : f.WellFormed) (hraw : ∀ script, f ≠ .raw script) :
    IsTemplate f.toScript := by
  cases f with
  | keyHash hash => exact .keyHash hash hf
  | scriptHash hash => exact .scriptHash hash hf
  | shortKey key =>
    obtain ⟨x, y, rfl, hx, hpoint⟩ := PublicKey.exists_of_isValid_short hf.1 hf.2
    exact .shortKey x y hx hpoint
  | fullKey key =>
    obtain ⟨x, y, rfl, hx, hy, hpoint⟩ := PublicKey.exists_of_isValid_full hf.1 hf.2
    exact .fullKey x y hx hy hpoint
  | raw script => exact absurd rfl (hraw script)

/-- A template is the script of a form other than raw bytes. -/
lemma exists_form_of_isTemplate {script : Bytes} (h : IsTemplate script) :
    ∃ f : Form, f.WellFormed ∧ (∀ bytes, f ≠ .raw bytes) ∧ f.toScript = script := by
  cases h with
  | keyHash hash hlength => exact ⟨.keyHash hash, hlength, nofun, rfl⟩
  | scriptHash hash hlength => exact ⟨.scriptHash hash, hlength, nofun, rfl⟩
  | shortKey x y hx hpoint =>
    refine ⟨.shortKey (UInt8.ofNat (2 + y % 2) :: x), ⟨?_, ?_⟩, nofun, rfl⟩
    · rw [List.length_cons, hx]
    · exact (PublicKey.isValid_short_iff hx).mpr ⟨y, hpoint, rfl⟩
  | fullKey x y hx hy hpoint =>
    refine ⟨.fullKey (4 :: (x ++ y)), ⟨?_, ?_⟩, nofun, rfl⟩
    · rw [List.length_cons, List.length_append, hx, hy]
    · exact (PublicKey.isValid_full_iff hx hy).mpr hpoint

/-! ## What is stored raw -/

/-- A script is taken as raw bytes exactly if it is no template. -/
theorem form_eq_raw_iff {script : Bytes} : form script = .raw script ↔ ¬ IsTemplate script := by
  constructor
  · intro hform htemplate
    obtain ⟨f, hf, hraw, rfl⟩ := exists_form_of_isTemplate htemplate
    rw [form_toScript hf hraw] at hform
    exact hraw _ hform
  · intro htemplate
    by_cases hraw : ∃ bytes, form script = .raw bytes
    · obtain ⟨bytes, hform⟩ := hraw
      have hscript := toScript_form script
      rw [hform] at hscript
      rw [hform, ← hscript]
      rfl
    · refine absurd ?_ htemplate
      rw [← toScript_form script]
      exact isTemplate_toScript (wellFormed_form script) (fun bytes hform => hraw ⟨bytes, hform⟩)

lemma compress_of_not_isTemplate {script : Bytes} (h : ¬ IsTemplate script) :
    compress script = Vlq.encode (script.length + 6) ++ script := by
  rw [compress, form_eq_raw_iff.mpr h]
  rfl

/-- A template is stored in fewer bytes than it has. -/
lemma length_compress_lt {script : Bytes} (h : IsTemplate script) :
    (compress script).length < script.length := by
  obtain ⟨f, hf, hraw, rfl⟩ := exists_form_of_isTemplate h
  rw [compress_toScript hf hraw]
  cases f with
  | keyHash hash =>
    have hlength : hash.length = 20 := hf
    simp [Form.encode, Form.toScript, payToKeyHash, hlength]
  | scriptHash hash =>
    have hlength : hash.length = 20 := hf
    simp [Form.encode, Form.toScript, payToScriptHash, hlength]
  | shortKey key => simp [Form.encode, Form.toScript, payToShortKey]
  | fullKey key =>
    obtain ⟨hlength, -⟩ := hf
    simp [Form.encode, Form.toScript, payToFullKey, hlength]
  | raw script => exact absurd rfl (hraw script)

/-! ## The way back -/

/-- Of a payment to a full key only `x` and the parity of `y` are stored. -/
lemma compress_fullKey {x y : Bytes} (hx : x.length = 32) (hy : y.length = 32)
    (hpoint : OnCurve (toNat x) (toNat y)) :
    compress ([0x41, 4] ++ (x ++ y) ++ [0xac]) = UInt8.ofNat (4 + toNat y % 2) :: x := by
  have hlength : (4 :: (x ++ y)).length = 65 := by
    rw [List.length_cons, List.length_append, hx, hy]
  have hvalid : PublicKey.isValid (4 :: (x ++ y)) = true :=
    (PublicKey.isValid_full_iff hx hy).mpr hpoint
  have hstored : compress ([0x41, 4] ++ (x ++ y) ++ [0xac]) = (Form.fullKey (4 :: (x ++ y))).encode :=
    compress_toScript (f := .fullKey (4 :: (x ++ y))) ⟨hlength, hvalid⟩ nofun
  rw [hstored, Form.encode_fullKey hx hy]

/-- Every script is given back from what is stored for it, at the front of any bytes, and the length
of what is stored is found there.  A payment to a full key is given back from `x` and the parity of
`y`, which belong to no other point; and what is stored is the script itself behind its length
exactly if the script is none of the templates, however close it comes to one. -/
theorem restored_and_raw_unless_template :
    (∀ script, (compress script).length < UInt64.size → ∀ rest,
      decompress (compress script ++ rest) = .ok script ∧
        readSize (compress script ++ rest) = .ok (compress script).length) ∧
    (∀ x y : Bytes, x.length = 32 → y.length = 32 → OnCurve (toNat x) (toNat y) →
      compress ([0x41, 4] ++ (x ++ y) ++ [0xac]) = UInt8.ofNat (4 + toNat y % 2) :: x ∧
        (∀ rest, decompress (UInt8.ofNat (4 + toNat y % 2) :: (x ++ rest)) =
          .ok ([0x41, 4] ++ (x ++ y) ++ [0xac])) ∧
        ∀ z, OnCurve (toNat x) z → z % 2 = toNat y % 2 → z = toNat y) ∧
    ∀ script, compress script = Vlq.encode (script.length + 6) ++ script ↔
      ¬ IsTemplate script := by
  refine ⟨?_, ?_, ?_⟩
  · intro script hsize rest
    exact ⟨decompress_compress_append hsize rest, readSize_compress_append hsize rest⟩
  · intro x y hx hy hpoint
    have hstored := compress_fullKey hx hy hpoint
    refine ⟨hstored, ?_, ?_⟩
    · intro rest
      have hsize : (compress ([0x41, 4] ++ (x ++ y) ++ [0xac])).length < UInt64.size := by
        rw [hstored, List.length_cons, hx]
        decide
      have hback := decompress_compress_append hsize rest
      rwa [hstored] at hback
    · intro z hz hparity
      exact hz.eq_of_mod_two hpoint hparity
  · intro script
    constructor
    · intro hraw htemplate
      have hlt := length_compress_lt htemplate
      rw [hraw, List.length_append] at hlt
      omega
    · exact compress_of_not_isTemplate

/-- The `x` of the base point. -/
def baseX : Bytes :=
  PublicKey.ofNat 32 0x79BE667EF9DCBBAC55A06295CE870B07029BFCDB2DCE28D959F2815B16F81798

/-- The odd `y` that belongs to it. -/
def oddBaseY : Bytes :=
  PublicKey.ofNat 32 0xB7C52588D95C3B9AA25B0403F1EEF75702E84BB7597AABE663B82F6F04EF2777

/-- A payment to the key with these coordinates is given back from `x` and the tag 5; with `x` in the
place of `y` it is stored as it is. -/
theorem restored_baseKey_and_nearMiss :
    OnCurve (toNat baseX) (toNat oddBaseY) ∧
    compress ([0x41, 4] ++ (baseX ++ oddBaseY) ++ [0xac]) = 5 :: baseX ∧
    decompress (5 :: (baseX ++ [0xee])) = .ok ([0x41, 4] ++ (baseX ++ oddBaseY) ++ [0xac]) ∧
    ¬ IsTemplate ([0x41, 4] ++ (baseX ++ baseX) ++ [0xac]) ∧
    decompress (73 :: ([0x41, 4] ++ (baseX ++ baseX) ++ [0xac] ++ [0xee])) =
      .ok ([0x41, 4] ++ (baseX ++ baseX) ++ [0xac]) := by
  obtain ⟨hback, hkey, hraw⟩ := restored_and_raw_unless_template
  have hpoint : OnCurve (toNat baseX) (toNat oddBaseY) :=
    Secp256k1.isPoint_iff_onCurve.mp (by decide +kernel)
  obtain ⟨hstored, hrestored, -⟩ := hkey baseX oddBaseY (by decide) (by decide) hpoint
  have hodd : toNat oddBaseY % 2 = 1 := by decide +kernel
  rw [hodd] at hstored hrestored
  have hmiss : compress ([0x41, 4] ++ (baseX ++ baseX) ++ [0xac]) =
      73 :: ([0x41, 4] ++ (baseX ++ baseX) ++ [0xac]) := by decide +kernel
  have hsize : (compress ([0x41, 4] ++ (baseX ++ baseX) ++ [0xac])).length < UInt64.size := by
    decide +kernel
  obtain ⟨hread, -⟩ := hback _ hsize [0xee]
  rw [hmiss] at hread
  refine ⟨hpoint, hstored, hrestored [0xee], ?_, hread⟩
  exact (hraw _).mp (by decide +kernel)

end CoinLedger.Script
