import Mathlib
import CoinLedger.Proofs.Script
import CoinLedger.Proofs.Vlq.Buffer

/-!
# Scripts told apart by tests on their bytes

A program that sizes a script and one that writes it test the bytes of the script each on its own.
`sizeByTests` puts the templates in pairs of one size, and `write` takes them one after the other and puts
what it finds behind other bytes.

The tests find the form of a script (`form_eq_tests`), so the one counts `compressedSize` and the other
writes `compress` (`sizeByTests_eq`, `write_eq`).
-/

namespace CoinLedger.Script

/-! ## Tests -/

/-- Whether a script has the length of a template, begins with its head and ends with its tail. -/
def framed (head : Bytes) (count : ℕ) (tail script : Bytes) : Bool :=
  script.length == head.length + count + tail.length && script.take head.length == head &&
    script.drop (head.length + count) == tail

/-- Whether a script is a template around a key whose first byte is one of `leads` and that is valid. -/
def framesKey (push : UInt8) (leads : List UInt8) (count : ℕ) (script : Bytes) : Bool :=
  framed [push] count [checkSig] script && leads.contains (script.getD 1 0) &&
    PublicKey.isValid ((script.drop 1).take count)

/-- Whether a script pays to the hash of a key. -/
def isKeyHash (script : Bytes) : Bool := framed [dup, hash160, push20] 20 [equalVerify, checkSig] script

/-- Whether a script pays to the hash of a script. -/
def isScriptHash (script : Bytes) : Bool := framed [hash160, push20] 20 [equal] script

/-- Whether a script pays to a key in short form. -/
def isShortKey (script : Bytes) : Bool := framesKey push33 [2, 3] 33 script

/-- Whether a script pays to a key in full form. -/
def isFullKey (script : Bytes) : Bool := framesKey push65 [4] 65 script

lemma framed_append {head middle tail : Bytes} {count : ℕ} (h : middle.length = count) :
    framed head count tail (head ++ middle ++ tail) = true := by
  have hdrop : (head ++ middle ++ tail).drop (head.length + count) = tail :=
    List.drop_left' (by rw [List.length_append, h])
  have htake : (head ++ middle ++ tail).take head.length = head := by
    rw [List.append_assoc, List.take_left]
  rw [framed, hdrop, htake]
  simp [h, Nat.add_assoc]

lemma exists_of_framed {head tail script : Bytes} {count : ℕ}
    (h : framed head count tail script = true) :
    ∃ middle, middle.length = count ∧ script = head ++ middle ++ tail := by
  simp only [framed, Bool.and_eq_true, beq_iff_eq] at h
  obtain ⟨⟨hlength, hhead⟩, htail⟩ := h
  refine ⟨(script.drop head.length).take count, ?_, ?_⟩
  · rw [List.length_take, List.length_drop]
    omega
  · have hrest : (script.drop head.length).take count ++ tail = script.drop head.length := by
      rw [← htail, ← List.drop_drop, List.take_append_drop]
    calc script = script.take head.length ++ script.drop head.length :=
          (List.take_append_drop _ _).symm
      _ = head ++ (script.drop head.length).take count ++ tail := by
          rw [hhead, List.append_assoc, hrest]

/-- What stands between head and tail is found exactly if the test succeeds. -/
lemma between?_eq_ite (head : Bytes) (count : ℕ) (tail script : Bytes) :
    between? head count tail script =
      if framed head count tail script then some ((script.drop head.length).take count) else none := by
  split
  next h =>
    obtain ⟨middle, hlength, rfl⟩ := exists_of_framed h
    have hmiddle : ((head ++ middle ++ tail).drop head.length).take count = middle := by
      rw [List.append_assoc, List.drop_left, ← hlength, List.take_left]
    rw [hmiddle]
    exact between?_eq_some_iff.mpr ⟨hlength, rfl⟩
  next h =>
    cases hbetween : between? head count tail script with
    | none => rfl
    | some middle =>
      obtain ⟨hlength, rfl⟩ := between?_eq_some_iff.mp hbetween
      exact absurd (framed_append hlength) h

/-- A key is found exactly if the test succeeds, which looks at the first byte once more. -/
lemma filter_between?_eq_ite (push : UInt8) {leads : List UInt8} {count : ℕ}
    (hleads : ∀ lead rest, (lead :: rest : Bytes).length = count →
      PublicKey.isValid (lead :: rest) = true → lead ∈ leads)
    (hcount : 0 < count) (script : Bytes) :
    (between? [push] count [checkSig] script).filter PublicKey.isValid =
      if framesKey push leads count script then some ((script.drop 1).take count) else none := by
  rw [between?_eq_ite, List.length_singleton, framesKey]
  by_cases hframed : framed [push] count [checkSig] script = true
  · obtain ⟨key, hlength, rfl⟩ := exists_of_framed hframed
    cases key with
    | nil => exact absurd hlength hcount.ne
    | cons lead rest =>
      have hkey : (([push] ++ (lead :: rest) ++ [checkSig]).drop 1).take count = lead :: rest :=
        List.take_left' hlength
      rw [if_pos hframed, hframed, hkey]
      by_cases hvalid : PublicKey.isValid (lead :: rest) = true
      · have hlead := hleads lead rest hlength hvalid
        simp [hvalid, hlead]
      · simp [hvalid]
  · simp [hframed]

lemma lead_of_isValid_short {lead : UInt8} {rest : Bytes} (hlength : (lead :: rest).length = 33)
    (hvalid : PublicKey.isValid (lead :: rest) = true) : lead ∈ [2, 3] := by
  obtain ⟨x, y, hkey, -, -⟩ := PublicKey.exists_of_isValid_short hlength hvalid
  rw [(List.cons.inj hkey).1]
  rcases Nat.mod_two_eq_zero_or_one y with h | h <;> rw [h] <;> decide

lemma lead_of_isValid_full {lead : UInt8} {rest : Bytes} (hlength : (lead :: rest).length = 65)
    (hvalid : PublicKey.isValid (lead :: rest) = true) : lead ∈ [4] := by
  obtain ⟨x, y, hkey, -, -, -⟩ := PublicKey.exists_of_isValid_full hlength hvalid
  rw [(List.cons.inj hkey).1]
  exact List.mem_singleton_self 4

/-- The form of a script is the one whose test succeeds first. -/
lemma form_eq_tests (script : Bytes) :
    form script =
      if isKeyHash script then .keyHash ((script.drop 3).take 20)
      else if isScriptHash script then .scriptHash ((script.drop 2).take 20)
      else if isShortKey script then .shortKey ((script.drop 1).take 33)
      else if isFullKey script then .fullKey ((script.drop 1).take 65)
      else .raw script := by
  have hshort := filter_between?_eq_ite push33 (fun _ _ => lead_of_isValid_short) (by omega) script
  have hfull := filter_between?_eq_ite push65 (fun _ _ => lead_of_isValid_full) (by omega) script
  rw [form, hshort, hfull, between?_eq_ite, between?_eq_ite]
  unfold isKeyHash isScriptHash isShortKey isFullKey
  split_ifs <;> rfl

/-! ## Sizing and writing -/

/-- The size of a compressed script, found by two tests for hashes and two tests for keys. -/
def sizeByTests (script : Bytes) : ℕ :=
  if isKeyHash script || isScriptHash script then 1 + 20
  else if isShortKey script || isFullKey script then 1 + 32
  else Vlq.size (script.length + templateTags) + script.length

/-- Appends a compressed script to `out`, by four tests one after the other. -/
def write (out script : Bytes) : Bytes :=
  if isKeyHash script then out ++ 0 :: (script.drop 3).take 20
  else if isScriptHash script then out ++ 1 :: (script.drop 2).take 20
  else if isShortKey script then out ++ script.getD 1 0 :: (script.drop 2).take 32
  else if isFullKey script then out ++ (4 ||| (script.getD 65 0 &&& 1)) :: (script.drop 2).take 32
  else Vlq.append 64 out (script.length + templateTags) ++ script

/-- The tests in pairs find the size that the form has. -/
theorem sizeByTests_eq (script : Bytes) : sizeByTests script = compressedSize script := by
  rw [sizeByTests, compressedSize, form_eq_tests]
  cases isKeyHash script <;> cases isScriptHash script <;> cases isShortKey script <;>
    cases isFullKey script <;> rfl

/-- The parity of a byte is put behind the tag bit. -/
lemma four_or_and_one (b : UInt8) : 4 ||| (b &&& 1) = UInt8.ofNat (4 + b.toNat % 2) := by
  have hand : b &&& 1 = UInt8.ofNat (b.toNat % 2) := by
    apply UInt8.toNat_inj.mp
    rw [UInt8.toNat_and]
    change b.toNat &&& 1 = _
    rw [Nat.and_one_is_mod]
    rcases Nat.mod_two_eq_zero_or_one b.toNat with h | h <;> rw [h] <;> rfl
  rw [hand]
  rcases Nat.mod_two_eq_zero_or_one b.toNat with h | h <;> rw [h] <;> rfl

/-- Of a key in short form everything is written, its first byte as the tag. -/
lemma encode_of_isShortKey {script : Bytes} (h : isShortKey script = true) :
    (Form.shortKey ((script.drop 1).take 33)).encode = script.getD 1 0 :: (script.drop 2).take 32 := by
  rw [isShortKey, framesKey, Bool.and_eq_true, Bool.and_eq_true] at h
  obtain ⟨key, hlength, rfl⟩ := exists_of_framed h.1.1
  cases key with
  | nil => cases hlength
  | cons lead rest => rfl

/-- Of a key in full form 32 bytes are written, behind the tag for the last bit. -/
lemma encode_of_isFullKey {script : Bytes} (h : isFullKey script = true) :
    (Form.fullKey ((script.drop 1).take 65)).encode =
      (4 ||| (script.getD 65 0 &&& 1)) :: (script.drop 2).take 32 := by
  rw [isFullKey, framesKey, Bool.and_eq_true, Bool.and_eq_true] at h
  obtain ⟨key, hlength, rfl⟩ := exists_of_framed h.1.1
  have hkey : (([push65] ++ key ++ [checkSig]).drop 1).take 65 = key := List.take_left' hlength
  have hpayload : (([push65] ++ key ++ [checkSig]).drop 2).take 32 = (key.drop 1).take 32 := by
    have hdrop : ([push65] ++ key ++ [checkSig]).drop 2 = (key ++ [checkSig]).drop 1 := rfl
    rw [hdrop, List.drop_append_of_le_length (by omega),
      List.take_append_of_le_length (by rw [List.length_drop]; omega)]
  have hlast : ([push65] ++ key ++ [checkSig]).getD 65 0 = key.getLast?.getD 0 := by
    have hbehind : ([push65] ++ key ++ [checkSig])[65]? = (key ++ [checkSig])[64]? := rfl
    rw [List.getD_eq_getElem?_getD, hbehind, List.getElem?_append_left (by omega),
      List.getLast?_eq_getElem?, hlength]
  rw [hkey, hpayload, hlast, Form.encode, four_or_and_one, fullKeyParity]

/-- The tests one after the other write the bytes of the form, if the length of the script has 64 bits
together with the number of tags. -/
theorem write_eq {script : Bytes} (hsize : script.length + templateTags < 2 ^ 64) (out : Bytes) :
    write out script = out ++ compress script := by
  rw [write, compress, form_eq_tests]
  split_ifs with _ _ hshort hfull
  · rfl
  · rfl
  · rw [encode_of_isShortKey hshort]
  · rw [encode_of_isFullKey hfull]
  · rw [Vlq.append_eq (by omega) hsize, List.append_assoc]
    rfl

end CoinLedger.Script
