import Mathlib
import CoinLedger.Proofs.Hex

/-!
# Digits in tables

Computers look digits up: the one to write in a row of sixteen, by the half of a byte, and the value of one
that was read in a table of 256 entries, by the byte itself.  `encodeByTable`, `decodeByTable` and
`isHexByTable` do so byte after byte and are `encode`, `decode` and `isHex`.

`coding_exact` collects what is written, what is read and what is refused.
-/

namespace CoinLedger.Hex

/-! ## Entries -/

/-- The digits that are written, in the order of their values. -/
def written : Text := Text.ofString "0123456789abcdef"

/-- Sets `count` entries, from that of `first` on, to the values from `value` on. -/
def setRun (first : Char) (value count : ℕ) (table : List UInt8) : List UInt8 :=
  (List.range count).foldl
    (fun table i => table.set (first.toNat + i) (UInt8.ofNat (value + i))) table

/-- The entry of a byte that is no digit. -/
def blank : UInt8 := 0xFF

/-- The values of the digits, with an entry for every byte. -/
def table : List UInt8 :=
  setRun 'A' 10 6 (setRun 'a' 10 6 (setRun '0' 0 10 (List.replicate 256 blank)))

/-- The entry of a byte. -/
def entry (b : UInt8) : UInt8 := table.getD b.toNat blank

lemma table_eq : table = (List.range 256).map fun n =>
    ((digitValue? (UInt8.ofNat n)).map UInt8.ofNat).getD blank := by
  decide +kernel

/-- Every byte has an entry, and only digits have a value there. -/
lemma entry_eq (b : UInt8) : entry b = ((digitValue? b).map UInt8.ofNat).getD blank := by
  have hb : b.toNat < (List.range 256).length := by
    rw [List.length_range]
    exact b.toNat_lt
  rw [entry, table_eq, List.getD_eq_getElem _ _ (by rwa [List.length_map]), List.getElem_map,
    List.getElem_range, UInt8.ofNat_toNat]

lemma entry_of_digitValue? {b : UInt8} {v : ℕ} (h : digitValue? b = some v) :
    entry b = UInt8.ofNat v := by
  rw [entry_eq, h]
  rfl

lemma entry_eq_blank_iff (b : UInt8) : entry b = blank ↔ b ∉ alphabet := by
  rw [← isDigit_iff, isDigit]
  cases hv : digitValue? b with
  | none =>
    rw [entry_eq, hv]
    decide
  | some v =>
    obtain ⟨hlt, -⟩ := digit_of_digitValue? hv
    have hne : ∀ v < 16, UInt8.ofNat v ≠ blank := by decide
    simp [entry_of_digitValue? hv, hne v hlt]

/-- Two entries make up a byte. -/
lemma entry_or_entry {hi lo : UInt8} (hhi : hi ∈ alphabet) (hlo : lo ∈ alphabet) :
    entry hi <<< 4 ||| entry lo = byte hi lo := by
  obtain ⟨v, hv⟩ := exists_digitValue? hhi
  obtain ⟨u, hu⟩ := exists_digitValue? hlo
  have hhalves : ∀ v < 16, ∀ u < 16,
      UInt8.ofNat v <<< 4 ||| UInt8.ofNat u = UInt8.ofNat (v * 16 + u) := by
    decide +kernel
  rw [byte, hv, hu, entry_of_digitValue? hv, entry_of_digitValue? hu]
  exact hhalves v (digit_of_digitValue? hv).1 u (digit_of_digitValue? hu).1

/-- The two digits of a byte are found by its halves. -/
lemma written_halves (b : UInt8) :
    [written.getD (b >>> 4).toNat 0, written.getD (b &&& 0x0F).toNat 0] = digits b := by
  have hwritten : ∀ d < 16, written.getD d 0 = digit d := by decide +kernel
  have hb := b.toNat_lt
  have hhigh : (b >>> 4).toNat = b.toNat / 16 := by
    rw [UInt8.toNat_shiftRight]
    exact Nat.shiftRight_eq_div_pow _ 4
  have hlow : (b &&& 0x0F).toNat = b.toNat % 16 := by
    rw [UInt8.toNat_and]
    exact Nat.and_two_pow_sub_one_eq_mod _ 4
  rw [digits, hhigh, hlow, hwritten _ (by omega), hwritten _ (by omega)]

/-! ## Byte after byte -/

/-- Puts the digits of a byte string behind `out`. -/
def encodeByTable (out : Text) : Bytes → Text
  | [] => out
  | b :: rest =>
    encodeByTable (out ++ [written.getD (b >>> 4).toNat 0] ++ [written.getD (b &&& 0x0F).toNat 0]) rest

/-- The index of the first byte without an entry, where `i` is the index of the first byte of all. -/
def firstBlank (i : ℕ) : Text → Option ℕ
  | [] => none
  | b :: rest => if entry b = blank then some i else firstBlank (i + 1) rest

/-- Puts a byte for every two digits behind `out`. -/
def packByTable (out : Bytes) : Text → Bytes
  | hi :: lo :: rest => packByTable (out ++ [entry hi <<< 4 ||| entry lo]) rest
  | [] | [_] => out

/-- The bytes that a text denotes: first all bytes are checked, then the length. -/
def decodeByTable (t : Text) : Except Error Bytes :=
  match firstBlank 0 t with
  | some i => .error ⟨.hexDigit, i⟩
  | none => if t.length % 2 ≠ 0 then .error ⟨.hexOddLength, t.length⟩ else .ok (packByTable [] t)

/-- Whether a text is accepted: here the length is checked first. -/
def isHexByTable (t : Text) : Bool := if t.length % 2 ≠ 0 then false else (firstBlank 0 t).isNone

lemma encodeByTable_eq (out : Text) (data : Bytes) : encodeByTable out data = out ++ encode data := by
  induction data generalizing out with
  | nil => exact (List.append_nil out).symm
  | cons b data ih =>
    rw [encodeByTable, ih, List.append_assoc out, List.append_assoc]
    exact congrArg (fun pair => out ++ (pair ++ encode data)) (written_halves b)

lemma firstBlank_eq (i : ℕ) (t : Text) :
    firstBlank i t = (t.findIdx? (fun b => !isDigit b)).map (· + i) := by
  induction t generalizing i with
  | nil => rfl
  | cons b t ih =>
    have hblank : entry b = blank ↔ (!isDigit b) = true := by
      rw [entry_eq_blank_iff, ← isDigit_iff, Bool.not_eq_true', Bool.not_eq_true]
    rw [firstBlank, List.findIdx?_cons, ih]
    simp only [hblank]
    split
    next => rw [Option.map_some, Nat.zero_add]
    next =>
      have hshift : (fun j => j + (i + 1)) = (fun j => j + i) ∘ fun j => j + 1 := by
        funext j
        exact (Nat.add_right_comm j 1 i).symm
      rw [Option.map_map, hshift]

lemma packByTable_eq (out : Bytes) {t : Text} (h : ∀ b ∈ t, b ∈ alphabet) :
    packByTable out t = out ++ pack t := by
  induction t using pack.induct generalizing out with
  | case1 => exact (List.append_nil out).symm
  | case2 b => exact (List.append_nil out).symm
  | case3 hi lo rest ih =>
    obtain ⟨hhi, hrest⟩ := List.forall_mem_cons.mp h
    obtain ⟨hlo, hrest⟩ := List.forall_mem_cons.mp hrest
    rw [packByTable, ih _ hrest, entry_or_entry hhi hlo, List.append_assoc]
    rfl

theorem decodeByTable_eq (t : Text) : decodeByTable t = decode t := by
  rw [decodeByTable, decode, firstBlank_eq]
  cases hfind : t.findIdx? (fun b => !isDigit b) with
  | some i => rfl
  | none =>
    rw [packByTable_eq [] (findIdx?_eq_none_iff.mp hfind), ite_not]
    rfl

theorem isHexByTable_eq (t : Text) : isHexByTable t = isHex t := by
  rw [Bool.eq_iff_iff, isHex_iff, isHexByTable, firstBlank_eq, Option.isNone_map, ite_not,
    ← findIdx?_eq_none_iff]
  split
  next heven => simp [heven]
  next hodd => simp [hodd]

/-! ## Exactness -/

/-- A byte string is read back from its text.  What is read from a text is written as that text in lower
case, and a text is read exactly if it is accepted, which takes an even number of digits; every other text
is refused as malformed, at its first byte that is no digit or else at its end.  Looking digits up in tables
makes no difference, also for bytes that are no ASCII. -/
theorem coding_exact :
    (∀ data, decode (encode data) = .ok data) ∧
    (∀ t, (∃ data, decode t = .ok data) ↔ isHex t = true) ∧
    (∀ t data, decode t = .ok data → encode data = t.map Text.lower) ∧
    (∀ t, isHex t = true ↔ t.length % 2 = 0 ∧ ∀ b ∈ t, b ∈ alphabet) ∧
    (∀ t e, decode t = .error e → Refusal t e ∧ e.code = .parseBadFormat) ∧
    (∀ data, encodeByTable [] data = encode data) ∧
    (∀ t, decodeByTable t = decode t) ∧ ∀ t, isHexByTable t = isHex t := by
  refine ⟨decode_encode, ?_, ?_, fun t => isHex_iff, ?_, encodeByTable_eq [], decodeByTable_eq,
    isHexByTable_eq⟩
  · intro t
    constructor
    · rintro ⟨data, hread⟩
      exact (decode_eq_ok_iff.mp hread).1
    · intro hhex
      exact ⟨_, decode_of_isHex hhex⟩
  · intro t data hread
    obtain ⟨hhex, rfl⟩ := decode_eq_ok_iff.mp hread
    obtain ⟨heven, hdigits⟩ := isHex_iff.mp hhex
    exact encode_pack heven hdigits
  · intro t e herror
    have hrefusal := refusal_of_decode herror
    refine ⟨hrefusal, ?_⟩
    cases hrefusal <;> rfl

/-- Digits in mixed case are read and written in lower case.  A text with a byte that is no ASCII, and an odd
number of bytes besides, is refused at that byte. -/
theorem coding_mixedTexts :
    (decode (Text.ofString "0aFf") = .ok [0x0A, 0xFF] ∧ encode [0x0A, 0xFF] = Text.ofString "0aff") ∧
    decode [48, 0xE9, 97] = .error ⟨.hexDigit, 1⟩ ∧ Refusal [48, 0xE9, 97] ⟨.hexDigit, 1⟩ ∧
    decodeByTable [48, 0xE9, 97] = .error ⟨.hexDigit, 1⟩ := by
  obtain ⟨-, -, hlower, -, hrefused, -, htable, -⟩ := coding_exact
  have hread : decode (Text.ofString "0aFf") = .ok [0x0A, 0xFF] := by decide +kernel
  have herror : decode [48, 0xE9, 97] = .error ⟨.hexDigit, 1⟩ := by decide +kernel
  refine ⟨⟨hread, ?_⟩, herror, (hrefused _ _ herror).1, (htable _).trans herror⟩
  exact (hlower _ _ hread).trans (by decide +kernel)

end CoinLedger.Hex
