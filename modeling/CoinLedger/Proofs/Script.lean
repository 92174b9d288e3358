import Mathlib
import CoinLedger.Proofs.PublicKey
import CoinLedger.Proofs.Vlq
import CoinLedger.Script

/-!
# Scripts survive their compression

`decompress_compress_append` and `readSize_compress_append`: at the front of any byte string a
compressed script is given back, and its length is found.

A script is the one that its form describes (`toScript_form`), and the part of it that varies is of
the right length, and a valid key where a key is wanted (`wellFormed_form`).  So it is enough to
follow the five forms, which differ in how much of the script their tag stands for.
-/

namespace CoinLedger.Script

/-! ## Forms -/

namespace Form

/-- The script of a form. -/
def toScript : Form → Bytes
  | keyHash hash => payToKeyHash hash
  | scriptHash hash => payToScriptHash hash
  | shortKey key => payToShortKey key
  | fullKey key => payToFullKey key
  | raw script => script

/-- What the part that varies has to be. -/
def WellFormed : Form → Prop
  | keyHash hash => hash.length = 20
  | scriptHash hash => hash.length = 20
  | shortKey key => key.length = 33 ∧ PublicKey.isValid key = true
  | fullKey key => key.length = 65 ∧ PublicKey.isValid key = true
  | raw _ => True

end Form

/-- What is found between head and tail of a template, and passes a test, makes up the script. -/
lemma of_filter_between?_eq_some {head tail script middle : Bytes} {count : ℕ}
    {test : Bytes → Bool} (h : (between? head count tail script).filter test = some middle) :
    middle.length = count ∧ script = head ++ middle ++ tail ∧ test middle = true := by
  obtain ⟨hbetween, htest⟩ := Option.filter_eq_some_iff.mp h
  obtain ⟨hlength, hscript⟩ := between?_eq_some_iff.mp hbetween
  exact ⟨hlength, hscript, htest⟩

/-- The form of a script is well-formed and describes it. -/
lemma wellFormed_and_toScript_form (script : Bytes) :
    (form script).WellFormed ∧ (form script).toScript = script := by
  rw [form]
  split
  next hash h =>
    obtain ⟨hlength, hscript⟩ := between?_eq_some_iff.mp h
    exact ⟨hlength, hscript.symm⟩
  next =>
    split
    next hash h =>
      obtain ⟨hlength, hscript⟩ := between?_eq_some_iff.mp h
      exact ⟨hlength, hscript.symm⟩
    next =>
      split
      next key h =>
        obtain ⟨hlength, hscript, hvalid⟩ := of_filter_between?_eq_some h
        exact ⟨⟨hlength, hvalid⟩, hscript.symm⟩
      next =>
        split
        next key h =>
          obtain ⟨hlength, hscript, hvalid⟩ := of_filter_between?_eq_some h
          exact ⟨⟨hlength, hvalid⟩, hscript.symm⟩
        next => exact ⟨trivial, rfl⟩

lemma wellFormed_form (script : Bytes) : (form script).WellFormed :=
  (wellFormed_and_toScript_form script).1

lemma toScript_form (script : Bytes) : (form script).toScript = script :=
  (wellFormed_and_toScript_form script).2

/-! ## Templates -/

/-- The tag of a template takes one byte. -/
lemma le_of_lt_templateTags {tag : ℕ} (h : tag < templateTags) : tag ≤ 127 := by
  rw [templateTags] at h
  omega

/-- Behind a template tag its payload is put into the template. -/
lemma decompress_template {tag : ℕ} (htag : tag < templateTags) {payload : Bytes}
    (hpayload : payload.length = payloadSize tag) (rest : Bytes) :
    decompress (UInt8.ofNat tag :: (payload ++ rest)) = ofTemplate tag payload 1 := by
  have hsmall := le_of_lt_templateTags htag
  have htaken : (payload ++ rest).take (payloadSize tag) = payload := by
    rw [← hpayload, List.take_left]
  rw [decompress, Vlq.decode_ofNat_cons (by omega) hsmall]
  simp only [htag, if_true, List.drop_succ_cons, List.drop_zero, htaken]
  rw [if_neg]
  rw [List.length_append, hpayload]
  omega

/-- The length of a compressed template is that of its tag and its payload. -/
lemma readSize_template {tag : ℕ} (htag : tag < templateTags) (rest : Bytes) :
    readSize (UInt8.ofNat tag :: rest) = .ok (1 + payloadSize tag) := by
  have hsmall := le_of_lt_templateTags htag
  rw [readSize, Vlq.decode_ofNat_cons (by omega) hsmall]
  exact if_pos htag

/-- Where the length of a script is found, its tag is read. -/
lemma exists_tag_of_readSize {data : Bytes} {size : ℕ} (h : readSize data = .ok size) :
    ∃ tag, Vlq.decode 64 data = .ok tag := by
  cases htag : Vlq.decode 64 data with
  | error e =>
    rw [readSize, htag] at h
    cases h
  | ok tag => exact ⟨tag, rfl⟩

/-- Raw bytes behind their length are given back. -/
lemma decompress_raw {script : Bytes} (hsize : script.length + templateTags < UInt64.size)
    (rest : Bytes) :
    decompress (Vlq.encode (script.length + templateTags) ++ script ++ rest) = .ok script := by
  have hdrop : (Vlq.encode (script.length + templateTags) ++ (script ++ rest)).drop
      (Vlq.size (script.length + templateTags)) = script ++ rest :=
    List.drop_left' (Vlq.length_encode _)
  rw [List.append_assoc, decompress,
    Vlq.decode_encode_append (by omega) (Vlq.le_largest_of_lt hsize)]
  simp only [hdrop, Nat.add_sub_cancel, List.take_left]
  rw [if_neg (by omega), if_neg]
  rw [List.length_append]
  omega

/-- The length of raw bytes behind their length is the length of both. -/
lemma readSize_raw {script : Bytes}
    (hsize : Vlq.size (script.length + templateTags) + script.length < UInt64.size)
    (rest : Bytes) :
    readSize (Vlq.encode (script.length + templateTags) ++ script ++ rest) =
      .ok (Vlq.size (script.length + templateTags) + script.length) := by
  have hword : script.length + templateTags < UInt64.size :=
    Vlq.lt_of_size_add_lt (by decide) hsize
  rw [List.append_assoc, readSize,
    Vlq.decode_encode_append (by omega) (Vlq.le_largest_of_lt hword)]
  simp only [Nat.add_sub_cancel]
  rw [if_neg (by omega), if_pos (by omega), Nat.add_comm]

/-! ## Compressed scripts -/

namespace Form

/-- Of a full key `x` is stored, behind the tag for the parity of `y`. -/
lemma encode_fullKey {x y : Bytes} (hx : x.length = 32) (hy : y.length = 32) :
    (fullKey (4 :: (x ++ y))).encode = UInt8.ofNat (4 + PublicKey.toNat y % 2) :: x := by
  have hne : y ≠ [] := List.ne_nil_of_length_pos (by omega)
  have hparity : fullKeyParity (4 :: (x ++ y)) = PublicKey.toNat y % 2 := by
    rw [fullKeyParity, PublicKey.toNat_mod_two, ← List.cons_append,
      List.getLast?_append_of_ne_nil _ hne]
  have hpayload : ((4 :: (x ++ y)).drop 1).take 32 = x := by
    rw [List.drop_succ_cons, List.drop_zero, List.take_left' hx]
  rw [encode, hparity, hpayload]

/-- From the `x` of a point and the tag for the parity of its `y` the full key is made again. -/
lemma ofTemplate_fullKey {x y : Bytes} (hy : y.length = 32)
    (hpoint : Secp256k1.OnCurve (PublicKey.toNat x) (PublicKey.toNat y)) (tagLength : ℕ) :
    ofTemplate (4 + PublicKey.toNat y % 2) x tagLength = .ok (payToFullKey (4 :: (x ++ y))) := by
  have hexpand := PublicKey.expand_of_onCurve hy hpoint
  have htag : 4 + PublicKey.toNat y % 2 - 2 = 2 + PublicKey.toNat y % 2 := by omega
  rw [← htag] at hexpand
  rcases Nat.mod_two_eq_zero_or_one (PublicKey.toNat y) with h | h <;> rw [h] at hexpand ⊢ <;>
    simp only [ofTemplate, hexpand]

/-- A form that is not raw is stored as a tag and a payload from which the template is made. -/
lemma template_or_raw {f : Form} (hf : f.WellFormed) :
    (∃ tag payload, tag < templateTags ∧ payload.length = payloadSize tag ∧
      f.encode = UInt8.ofNat tag :: payload ∧ ofTemplate tag payload 1 = .ok f.toScript) ∨
    ∃ script, f = raw script := by
  cases f with
  | keyHash hash => exact Or.inl ⟨0, hash, by decide, hf, rfl, rfl⟩
  | scriptHash hash => exact Or.inl ⟨1, hash, by decide, hf, rfl, rfl⟩
  | shortKey key =>
    obtain ⟨x, y, rfl, hx, -⟩ := PublicKey.exists_of_isValid_short hf.1 hf.2
    rcases Nat.mod_two_eq_zero_or_one y with h | h <;> rw [h]
    · exact Or.inl ⟨2, x, by decide, hx, rfl, rfl⟩
    · exact Or.inl ⟨3, x, by decide, hx, rfl, rfl⟩
  | fullKey key =>
    obtain ⟨x, y, rfl, hx, hy, hpoint⟩ := PublicKey.exists_of_isValid_full hf.1 hf.2
    refine Or.inl ⟨4 + PublicKey.toNat y % 2, x, ?_, ?_, encode_fullKey hx hy,
      ofTemplate_fullKey hy hpoint 1⟩
    · rw [templateTags]
      omega
    · rw [payloadSize, if_neg (by omega), hx]
  | raw script => exact Or.inr ⟨script, rfl⟩

/-- The length of a compressed form is found at the front of any byte string. -/
lemma readSize_encode_append {f : Form} (hf : f.WellFormed) (hsize : f.encode.length < UInt64.size)
    (rest : Bytes) : readSize (f.encode ++ rest) = .ok f.encode.length := by
  rcases template_or_raw hf with ⟨tag, payload, htag, hpayload, hencode, -⟩ | ⟨script, rfl⟩
  · rw [hencode, List.cons_append, readSize_template htag, List.length_cons, hpayload, Nat.add_comm]
  · rw [encode, List.length_append, Vlq.length_encode] at hsize ⊢
    exact readSize_raw hsize rest

/-- A compressed form gives its script back. -/
lemma decompress_encode_append {f : Form} (hf : f.WellFormed)
    (hsize : f.encode.length < UInt64.size) (rest : Bytes) :
    decompress (f.encode ++ rest) = .ok f.toScript := by
  rcases template_or_raw hf with ⟨tag, payload, htag, hpayload, hencode, hscript⟩ | ⟨script, rfl⟩
  · rw [hencode, List.cons_append, decompress_template htag hpayload, hscript]
  · rw [encode, List.length_append, Vlq.length_encode] at hsize
    exact decompress_raw (Vlq.lt_of_size_add_lt (by decide) hsize) rest

lemma encode_ne_nil {f : Form} (hf : f.WellFormed) : f.encode ≠ [] := by
  rcases template_or_raw hf with ⟨tag, payload, -, -, hencode, -⟩ | ⟨script, rfl⟩
  · rw [hencode]
    exact List.cons_ne_nil _ _
  · exact List.append_ne_nil_of_left_ne_nil (Vlq.encode_ne_nil _) _

end Form

lemma compress_ne_nil (script : Bytes) : compress script ≠ [] :=
  Form.encode_ne_nil (wellFormed_form script)

/-- The length of a compressed script is found at the front of any byte string. -/
theorem readSize_compress_append {script : Bytes}
    (hsize : (compress script).length < UInt64.size) (rest : Bytes) :
    readSize (compress script ++ rest) = .ok (compress script).length :=
  Form.readSize_encode_append (wellFormed_form script) hsize rest

/-- A compressed script at the front of any byte string is given back. -/
theorem decompress_compress_append {script : Bytes}
    (hsize : (compress script).length < UInt64.size) (rest : Bytes) :
    decompress (compress script ++ rest) = .ok script := by
  rw [compress, Form.decompress_encode_append (wellFormed_form script) hsize, toScript_form]

end CoinLedger.Script
