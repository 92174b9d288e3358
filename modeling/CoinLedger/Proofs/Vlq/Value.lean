import Mathlib
import CoinLedger.Vlq

/-!
# The number that a byte string denotes

`value` is the number that a byte string denotes, as a sum of weighted groups and with no bound on
its size.  A written form ends at the first byte without bit 7 (`terminator?`), and written forms
and numbers correspond: `value_encode`, `encode_value`.

The reader carries two tests on fixed width.  `decodeFrom_cons` turns them into comparisons of
unbounded numbers, and by them the reader accepts a written form exactly if its number fits
(`decodeFrom_terminated`).  On bytes that do not end it reports where they stop, unless what it has
read is too large already; whatever it reports other than missing bytes does not change when bytes
are added (`decodeFrom_append_of_settled`).

Too wide is what it calls an integer exactly if it comes to a byte at which the number has outgrown the
width (`Overflows`, `decode_tooWide_iff`).
-/

namespace CoinLedger.Vlq

/-- The number that the groups of a byte string denote.  Each group weighs 128 times the next one,
and each but the last stands for one more than it says. -/
def value : Bytes → ℕ
  | [] => 0
  | [b] => b.toNat % 128
  | b :: c :: rest => (b.toNat % 128 + 1) * 128 ^ (rest.length + 1) + value (c :: rest)

/-- The position of the first byte without bit 7. -/
def terminator? (data : Bytes) : Option ℕ := data.findIdx? (fun b => b.toNat < 128)

/-! ## Numbers and their written forms -/

lemma value_cons {groups : Bytes} (h : groups ≠ []) (b : UInt8) :
    value (b :: groups) = (b.toNat % 128 + 1) * 128 ^ groups.length + value groups := by
  cases groups with
  | nil => contradiction
  | cons c rest => rfl

/-- One more group at the end moves the others up by one place. -/
lemma value_append_singleton {groups : Bytes} (h : groups ≠ []) (b : UInt8) :
    value (groups ++ [b]) = (value groups + 1) * 128 + b.toNat % 128 := by
  induction groups with
  | nil => contradiction
  | cons a groups ih =>
    cases groups with
    | nil => simp [value]
    | cons c rest =>
      have hne : c :: rest ≠ [] := List.cons_ne_nil c rest
      rw [List.cons_append, value_cons (by simp), value_cons hne, ih hne, List.length_append,
        List.length_singleton, pow_succ]
      ring

/-- A group that is read goes into what has been read before, one place further up. -/
lemma mul_pow_add_value_cons (acc : ℕ) (b : UInt8) (groups : Bytes) (last : UInt8) :
    acc * 128 ^ ((b :: groups).length + 1) + value (b :: groups ++ [last]) =
      (acc * 128 + b.toNat % 128 + 1) * 128 ^ (groups.length + 1) + value (groups ++ [last]) := by
  rw [List.cons_append, value_cons (by simp), List.length_append, List.length_singleton,
    List.length_cons]
  ring

/-- A byte with bit 7 is its group with that bit set. -/
lemma ofNat_mod_add {b : UInt8} (h : 128 ≤ b.toNat) : UInt8.ofNat (b.toNat % 128 + 128) = b := by
  have hb : b.toNat < 256 := b.toNat_lt
  have heq : b.toNat % 128 + 128 = b.toNat := by omega
  rw [heq, UInt8.ofNat_toNat]

lemma toNat_ofNat_mod (n : ℕ) : (UInt8.ofNat n).toNat % 128 = n % 128 := by
  have hbyte : (UInt8.ofNat n).toNat = n % 256 := UInt8.toNat_ofNat'
  omega

lemma leading_ne_nil (n : ℕ) : leading n ≠ [] := by
  rw [leading]
  split <;> simp

lemma value_leading (n : ℕ) : value (leading n) = n := by
  induction n using leading.induct with
  | case1 n h =>
    rw [leading, if_pos h, value, toNat_ofNat_mod]
    omega
  | case2 n h ih =>
    rw [leading, if_neg h, value_append_singleton (leading_ne_nil _), ih, toNat_ofNat_mod]
    omega

/-- The written form of a number denotes that number. -/
@[simp] lemma value_encode (n : ℕ) : value (encode n) = n := by
  rw [encode]
  split
  next h =>
    rw [value, toNat_ofNat_mod]
    omega
  next h =>
    rw [value_append_singleton (leading_ne_nil _), value_leading, toNat_ofNat_mod]
    omega

lemma bit_of_mem_leading {n : ℕ} {b : UInt8} (h : b ∈ leading n) : 128 ≤ b.toNat := by
  have hmark : ∀ m < 128, 128 ≤ (UInt8.ofNat (m + 128)).toNat := by
    intro m hm
    have hbyte : (UInt8.ofNat (m + 128)).toNat = (m + 128) % 256 := UInt8.toNat_ofNat'
    omega
  induction n using leading.induct with
  | case1 n hn =>
    rw [leading, if_pos hn, List.mem_singleton] at h
    exact h ▸ hmark n (by omega)
  | case2 n hn ih =>
    rw [leading, if_neg hn, List.mem_append, List.mem_singleton] at h
    rcases h with hprev | rfl
    · exact ih hprev
    · exact hmark _ (Nat.mod_lt n (by omega))

/-- A written form is groups with bit 7 set and one without it. -/
lemma exists_of_encode (n : ℕ) :
    ∃ groups last, encode n = groups ++ [last] ∧ (∀ b ∈ groups, 128 ≤ b.toNat) ∧
      last.toNat < 128 := by
  have hlow : ∀ m < 128, (UInt8.ofNat m).toNat < 128 := by
    intro m hm
    have hbyte : (UInt8.ofNat m).toNat = m % 256 := UInt8.toNat_ofNat'
    omega
  rw [encode]
  split
  next h => exact ⟨[], UInt8.ofNat n, rfl, by simp, hlow n (by omega)⟩
  next h =>
    exact ⟨leading (n / 128 - 1), UInt8.ofNat (n % 128), rfl, fun b hb => bit_of_mem_leading hb,
      hlow _ (Nat.mod_lt n (by omega))⟩

/-- Groups with bit 7 set are the leading groups of their number. -/
lemma leading_value {groups : Bytes} (hne : groups ≠ []) (hbit : ∀ b ∈ groups, 128 ≤ b.toNat) :
    leading (value groups) = groups := by
  induction groups using List.reverseRecOn with
  | nil => contradiction
  | append_singleton groups b ih =>
    have hb : 128 ≤ b.toNat := hbit b (by simp)
    by_cases hinit : groups = []
    · rw [hinit, List.nil_append, value, leading, if_pos (by omega), ofNat_mod_add hb]
    · have hprev := ih hinit (fun a ha => hbit a (List.mem_append_left _ ha))
      have hquot : ((value groups + 1) * 128 + b.toNat % 128) / 128 - 1 = value groups := by omega
      have hrem : ((value groups + 1) * 128 + b.toNat % 128) % 128 = b.toNat % 128 := by omega
      rw [value_append_singleton hinit, leading, if_neg (by omega), hquot, hrem, hprev,
        ofNat_mod_add hb]

/-- Groups with bit 7 set and one without it are the written form of their number. -/
lemma encode_value {groups : Bytes} {last : UInt8} (hbit : ∀ b ∈ groups, 128 ≤ b.toNat)
    (hlast : last.toNat < 128) : encode (value (groups ++ [last])) = groups ++ [last] := by
  have hmod : last.toNat % 128 = last.toNat := Nat.mod_eq_of_lt hlast
  by_cases hne : groups = []
  · rw [hne, List.nil_append, value, hmod, encode, if_pos (by omega), UInt8.ofNat_toNat]
  · have hquot : ((value groups + 1) * 128 + last.toNat) / 128 - 1 = value groups := by omega
    have hrem : ((value groups + 1) * 128 + last.toNat) % 128 = last.toNat := by omega
    rw [value_append_singleton hne, hmod, encode, if_neg (by omega), hquot, hrem,
      leading_value hne hbit, UInt8.ofNat_toNat]

/-! ## Where a written form ends -/

/-- Bytes that end are groups with bit 7 set, one without it, and what follows. -/
lemma exists_of_terminator?_eq_some {data : Bytes} {i : ℕ} (h : terminator? data = some i) :
    ∃ groups last rest, data = groups ++ last :: rest ∧ groups.length = i ∧
      (∀ b ∈ groups, 128 ≤ b.toNat) ∧ last.toNat < 128 := by
  obtain ⟨hi, hlast, hbit⟩ := List.findIdx?_eq_some_iff_getElem.mp h
  refine ⟨data.take i, data[i], data.drop (i + 1), ?_, ?_, ?_, by simpa using hlast⟩
  · rw [List.getElem_cons_drop, List.take_append_drop]
  · rw [List.length_take, min_eq_left hi.le]
  · intro b hb
    obtain ⟨j, hj, rfl⟩ := List.mem_iff_getElem.mp hb
    have hji : j < i := by
      rw [List.length_take] at hj
      omega
    simpa using hbit j hji

lemma terminator?_append_cons {groups : Bytes} {last : UInt8}
    (hbit : ∀ b ∈ groups, 128 ≤ b.toNat) (hlast : last.toNat < 128) (rest : Bytes) :
    terminator? (groups ++ last :: rest) = some groups.length := by
  induction groups with
  | nil => simp [terminator?, List.findIdx?_cons, hlast]
  | cons b groups ih =>
    have hb : ¬ b.toNat < 128 := by
      have := hbit b (by simp)
      omega
    have htail := ih (fun a ha => hbit a (List.mem_cons_of_mem _ ha))
    rw [terminator?] at htail ⊢
    simp [List.findIdx?_cons, hb, htail]

/-- A written form ends with its last byte, whatever follows it. -/
lemma exists_terminator?_encode (n : ℕ) :
    ∃ i, (encode n).length = i + 1 ∧ ∀ rest, terminator? (encode n ++ rest) = some i := by
  obtain ⟨groups, last, hform, hbit, hlast⟩ := exists_of_encode n
  refine ⟨groups.length, ?_, ?_⟩
  · rw [hform, List.length_append, List.length_singleton]
  · intro rest
    rw [hform, List.append_assoc, List.singleton_append]
    exact terminator?_append_cons hbit hlast rest

lemma bit_of_terminator?_eq_none {data : Bytes} (h : terminator? data = none) :
    ∀ b ∈ data, 128 ≤ b.toNat := by
  intro b hb
  have hall := List.findIdx?_eq_none_iff.mp h b hb
  simpa using hall

/-! ## Reading -/

/-- The test before a byte asks whether the number has outgrown its width one group further on. -/
lemma shiftRight_ne_zero_iff {bits acc : ℕ} (hbits : 7 ≤ bits) :
    acc >>> (bits - 7) ≠ 0 ↔ 2 ^ bits ≤ acc * 128 := by
  have hsplit : 2 ^ bits = 2 ^ (bits - 7) * 128 := by
    rw [← Nat.sub_add_cancel hbits, pow_add, Nat.add_sub_cancel]
    rfl
  rw [Nat.shiftRight_eq_div_pow, ← Nat.pos_iff_ne_zero, Nat.div_pos_iff, hsplit]
  have hpos : 0 < 2 ^ (bits - 7) := Nat.two_pow_pos _
  omega

/-- What is done with one byte, said in unbounded numbers. -/
lemma decodeFrom_cons {bits : ℕ} (hbits : 7 ≤ bits) (b : UInt8) (rest : Bytes) (read acc : ℕ) :
    decodeFrom bits (b :: rest) read acc =
      if 2 ^ bits ≤ acc * 128 then .error ⟨.integerTooWide bits, read⟩
      else if b.toNat < 128 then .ok ⟨acc * 128 + b.toNat % 128, read + 1⟩
      else if 2 ^ bits ≤ acc * 128 + b.toNat % 128 + 1 then
        .error ⟨.integerTooWide bits, read + 1⟩
      else decodeFrom bits rest (read + 1) (acc * 128 + b.toNat % 128 + 1) := by
  have hbefore : acc >>> (bits - 7) ≠ 0 ↔ 2 ^ bits ≤ acc * 128 := shiftRight_ne_zero_iff hbits
  rw [decodeFrom]
  by_cases hwide : 2 ^ bits ≤ acc * 128
  · rw [if_pos hwide, if_pos (hbefore.mpr hwide)]
  · -- the width is a multiple of a group, so there is room for the whole of the next one
    have hroom : acc * 128 + b.toNat % 128 < 2 ^ bits := by
      have hdvd : 128 ∣ 2 ^ bits := pow_dvd_pow 2 hbits
      omega
    have hafter : acc * 128 + b.toNat % 128 = largest bits ↔
        2 ^ bits ≤ acc * 128 + b.toNat % 128 + 1 := by
      rw [largest, Nat.shiftLeft_eq, one_mul]
      omega
    rw [if_neg hwide, if_neg (fun h => hwide (hbefore.mp h))]
    simp only [hafter]

/-- A written form behind what has been read gives its number if the whole fits, and is refused
otherwise. -/
lemma decodeFrom_terminated {bits : ℕ} (hbits : 7 ≤ bits) {groups : Bytes} {last : UInt8}
    (hbit : ∀ b ∈ groups, 128 ≤ b.toNat) (hlast : last.toNat < 128) (rest : Bytes)
    (read acc : ℕ) :
    (acc * 128 ^ (groups.length + 1) + value (groups ++ [last]) < 2 ^ bits ∧
      decodeFrom bits (groups ++ last :: rest) read acc =
        .ok ⟨acc * 128 ^ (groups.length + 1) + value (groups ++ [last]),
          read + (groups.length + 1)⟩) ∨
    (2 ^ bits ≤ acc * 128 ^ (groups.length + 1) + value (groups ++ [last]) ∧
      ∃ k, decodeFrom bits (groups ++ last :: rest) read acc =
        .error ⟨.integerTooWide bits, k⟩) := by
  induction groups generalizing read acc with
  | nil =>
    have hdvd : 128 ∣ 2 ^ bits := pow_dvd_pow 2 hbits
    simp only [List.nil_append, List.length_nil, Nat.zero_add, pow_one, value]
    rw [decodeFrom_cons hbits]
    by_cases hwide : 2 ^ bits ≤ acc * 128
    · exact Or.inr ⟨by omega, read, by rw [if_pos hwide]⟩
    · exact Or.inl ⟨by omega, by rw [if_neg hwide, if_pos hlast]⟩
  | cons b groups ih =>
    have hb : 128 ≤ b.toNat := hbit b (by simp)
    have hgrow : acc * 128 + b.toNat % 128 + 1 ≤
        (acc * 128 + b.toNat % 128 + 1) * 128 ^ (groups.length + 1) :=
      Nat.le_mul_of_pos_right _ (Nat.pow_pos (by omega))
    rw [mul_pow_add_value_cons, List.cons_append, decodeFrom_cons hbits]
    by_cases hwide : 2 ^ bits ≤ acc * 128
    · exact Or.inr ⟨by omega, read, by rw [if_pos hwide]⟩
    · rw [if_neg hwide, if_neg (by omega)]
      by_cases hfull : 2 ^ bits ≤ acc * 128 + b.toNat % 128 + 1
      · exact Or.inr ⟨by omega, read + 1, by rw [if_pos hfull]⟩
      · have hread : read + ((b :: groups).length + 1) = read + 1 + (groups.length + 1) := by
          rw [List.length_cons]
          omega
        rw [if_neg hfull, hread]
        exact ih (fun a ha => hbit a (List.mem_cons_of_mem _ ha)) (read + 1) _

/-- Bytes that do not end are reported as such at their end, unless the number is too large. -/
lemma decodeFrom_unterminated {bits : ℕ} (hbits : 7 ≤ bits) {data : Bytes}
    (hbit : ∀ b ∈ data, 128 ≤ b.toNat) (read acc : ℕ) :
    (∃ fault, decodeFrom bits data read acc = .error ⟨fault, read + data.length⟩ ∧
      fault.code = .parseUnderflow) ∨
    ∃ k, decodeFrom bits data read acc = .error ⟨.integerTooWide bits, k⟩ := by
  induction data generalizing read acc with
  | nil =>
    refine Or.inl ⟨_, rfl, ?_⟩
    split <;> rfl
  | cons b data ih =>
    have hb : 128 ≤ b.toNat := hbit b (by simp)
    rw [decodeFrom_cons hbits, if_neg (by omega : ¬ b.toNat < 128)]
    split
    next => exact Or.inr ⟨read, rfl⟩
    next =>
      split
      next => exact Or.inr ⟨read + 1, rfl⟩
      next =>
        have hread : read + (b :: data).length = read + 1 + data.length := by
          rw [List.length_cons]
          omega
        rw [hread]
        exact ih (fun a ha => hbit a (List.mem_cons_of_mem _ ha)) (read + 1) _

/-- An outcome other than missing bytes stays when bytes are added. -/
lemma decodeFrom_append_of_settled {bits : ℕ} (data rest : Bytes) (read acc : ℕ)
    (h : ∀ e, decodeFrom bits data read acc = .error e → e.code ≠ .parseUnderflow) :
    decodeFrom bits (data ++ rest) read acc = decodeFrom bits data read acc := by
  induction data generalizing read acc with
  | nil =>
    refine absurd ?_ (h _ rfl)
    rw [Error.code]
    dsimp only
    split <;> rfl
  | cons b data ih =>
    rw [List.cons_append, decodeFrom]
    rw [decodeFrom] at h ⊢
    split
    next => rfl
    next hroom =>
      rw [if_neg hroom] at h
      dsimp only at h ⊢
      split
      next => rfl
      next hmore =>
        rw [if_neg hmore] at h
        split
        next => rfl
        next hfits =>
          rw [if_neg hfits] at h
          exact ih _ _ h

/-! ## What is accepted and what is refused -/

lemma take_terminated (groups : Bytes) (last : UInt8) (rest : Bytes) :
    (groups ++ last :: rest).take (groups.length + 1) = groups ++ [last] := by
  rw [List.append_cons]
  exact List.take_left' (by simp)

/-- Bytes that end are read to the number that they denote if it fits, and refused otherwise. -/
lemma decode_of_terminator?_eq_some {bits : ℕ} (hbits : 7 ≤ bits) {data : Bytes} {i : ℕ}
    (h : terminator? data = some i) :
    (value (data.take (i + 1)) < 2 ^ bits ∧
      decode bits data = .ok ⟨value (data.take (i + 1)), i + 1⟩) ∨
    (2 ^ bits ≤ value (data.take (i + 1)) ∧
      ∃ k, decode bits data = .error ⟨.integerTooWide bits, k⟩) := by
  obtain ⟨groups, last, rest, rfl, rfl, hbit, hlast⟩ := exists_of_terminator?_eq_some h
  have hread := decodeFrom_terminated hbits hbit hlast rest 0 0
  simp only [Nat.zero_mul, Nat.zero_add] at hread
  rw [take_terminated]
  exact hread

/-- A number is read exactly from bytes that end and denote it, if it fits. -/
theorem decode_eq_ok_iff {bits : ℕ} (hbits : 7 ≤ bits) {data : Bytes} {v k : ℕ} :
    decode bits data = .ok ⟨v, k⟩ ↔
      ∃ i, terminator? data = some i ∧ k = i + 1 ∧ value (data.take k) = v ∧ v < 2 ^ bits := by
  constructor
  · intro h
    cases hend : terminator? data with
    | none =>
      have hopen := decodeFrom_unterminated hbits (bit_of_terminator?_eq_none hend) 0 0
      rw [decode] at h
      rcases hopen with ⟨fault, herror, -⟩ | ⟨k, herror⟩ <;> rw [herror] at h <;> cases h
    | some i =>
      rcases decode_of_terminator?_eq_some hbits hend with ⟨hfits, hok⟩ | ⟨-, k', herror⟩
      · rw [hok] at h
        cases h
        exact ⟨i, rfl, rfl, rfl, hfits⟩
      · rw [herror] at h
        cases h
  · rintro ⟨i, hend, rfl, rfl, hfits⟩
    rcases decode_of_terminator?_eq_some hbits hend with ⟨-, hok⟩ | ⟨hwide, -⟩
    · exact hok
    · omega

/-- The written form of a number that fits is read back in front of any bytes. -/
lemma decode_encode_append_of_lt {bits n : ℕ} (hbits : 7 ≤ bits) (hn : n < 2 ^ bits)
    (rest : Bytes) : decode bits (encode n ++ rest) = .ok ⟨n, (encode n).length⟩ := by
  obtain ⟨i, hlength, hend⟩ := exists_terminator?_encode n
  refine (decode_eq_ok_iff hbits).mpr ⟨i, hend rest, hlength, ?_, hn⟩
  rw [List.take_left, value_encode]

/-- The bytes from which a number is read are its written form. -/
theorem encode_eq_take_of_decode {bits : ℕ} (hbits : 7 ≤ bits) {data : Bytes} {v k : ℕ}
    (h : decode bits data = .ok ⟨v, k⟩) : encode v = data.take k := by
  obtain ⟨i, hend, rfl, rfl, -⟩ := (decode_eq_ok_iff hbits).mp h
  obtain ⟨groups, last, rest, rfl, rfl, hbit, hlast⟩ := exists_of_terminator?_eq_some hend
  rw [take_terminated]
  exact encode_value hbit hlast

/-- Bytes that end and denote a number that does not fit are refused. -/
lemma exists_error_of_le_value {bits : ℕ} (hbits : 7 ≤ bits) {data : Bytes} {i : ℕ}
    (hend : terminator? data = some i) (hwide : 2 ^ bits ≤ value (data.take (i + 1))) :
    ∃ e, decode bits data = .error e ∧ e.code = .internalError := by
  rcases decode_of_terminator?_eq_some hbits hend with ⟨hfits, -⟩ | ⟨-, k, herror⟩
  · omega
  · exact ⟨_, herror, rfl⟩

/-- A number that is refused before its end does not fit, whatever its end is. -/
lemma le_value_of_decode_tooWide {bits k : ℕ} (hbits : 7 ≤ bits) {data : Bytes}
    (h : decode bits data = .error ⟨.integerTooWide bits, k⟩) (rest : Bytes) {i : ℕ}
    (hend : terminator? (data ++ rest) = some i) :
    2 ^ bits ≤ value ((data ++ rest).take (i + 1)) := by
  have hsettled : ∀ e, decodeFrom bits data 0 0 = .error e → e.code ≠ .parseUnderflow := by
    intro e he
    rw [decode, he] at h
    cases h
    exact (by decide : ErrorCode.internalError ≠ .parseUnderflow)
  have hmore : decode bits (data ++ rest) = .error ⟨.integerTooWide bits, k⟩ := by
    rw [decode, decodeFrom_append_of_settled data rest 0 0 hsettled]
    exact h
  rcases decode_of_terminator?_eq_some hbits hend with ⟨-, hok⟩ | ⟨hwide, -⟩
  · rw [hok] at hmore
    cases hmore
  · exact hwide

/-- Bytes that do not end are reported as cut short, with all of them read, or as a number that
does not fit; the latter only if no end could make it fit. -/
lemma exists_error_of_terminator?_eq_none {bits : ℕ} (hbits : 7 ≤ bits) {data : Bytes}
    (hend : terminator? data = none) :
    ∃ e, decode bits data = .error e ∧
      (e.code = .parseUnderflow ∧ e.bytesRead = data.length ∨
        e.code = .internalError ∧ ∀ rest i, terminator? (data ++ rest) = some i →
          2 ^ bits ≤ value ((data ++ rest).take (i + 1))) := by
  rcases decodeFrom_unterminated hbits (bit_of_terminator?_eq_none hend) 0 0 with
    ⟨fault, herror, hcode⟩ | ⟨k, herror⟩
  · exact ⟨_, herror, Or.inl ⟨hcode, Nat.zero_add _⟩⟩
  · refine ⟨_, herror, Or.inr ⟨rfl, ?_⟩⟩
    intro rest i hmore
    exact le_value_of_decode_tooWide hbits herror rest hmore

/-! ## Numbers that outgrow their width -/

/-- Whether a number outgrows `bits` bits at some byte of the data: with the groups up to there, and
with the one that is added if a further group has to follow. -/
def Overflows (bits : ℕ) (data : Bytes) : Prop :=
  ∃ groups b rest, data = groups ++ b :: rest ∧ (∀ g ∈ groups, 128 ≤ g.toNat) ∧
    2 ^ bits ≤ value (groups ++ [b]) + b.toNat / 128

/-- The same behind groups that stand for `acc`. -/
def OverflowsFrom (bits acc : ℕ) (data : Bytes) : Prop :=
  ∃ groups b rest, data = groups ++ b :: rest ∧ (∀ g ∈ groups, 128 ≤ g.toNat) ∧
    2 ^ bits ≤ acc * 128 ^ (groups.length + 1) + value (groups ++ [b]) + b.toNat / 128

lemma overflowsFrom_zero_iff {bits : ℕ} {data : Bytes} :
    OverflowsFrom bits 0 data ↔ Overflows bits data := by
  simp only [OverflowsFrom, Overflows, Nat.zero_mul, Nat.zero_add]

lemma not_overflowsFrom_nil (bits acc : ℕ) : ¬ OverflowsFrom bits acc [] := by
  rintro ⟨groups, b, rest, hdata, -⟩
  exact List.append_ne_nil_of_right_ne_nil _ (List.cons_ne_nil b rest) hdata.symm

lemma Overflows.ne_nil {bits : ℕ} {data : Bytes} (h : Overflows bits data) : data ≠ [] := by
  rintro rfl
  exact not_overflowsFrom_nil bits 0 (overflowsFrom_zero_iff.mpr h)

/-- A number outgrows its width at the first byte, or behind it if it goes on. -/
lemma overflowsFrom_cons_iff {bits acc : ℕ} {b : UInt8} {data : Bytes} :
    OverflowsFrom bits acc (b :: data) ↔
      2 ^ bits ≤ acc * 128 + b.toNat % 128 + b.toNat / 128 ∨
        128 ≤ b.toNat ∧ OverflowsFrom bits (acc * 128 + b.toNat % 128 + 1) data := by
  constructor
  · rintro ⟨groups, c, rest, hdata, hbit, hwide⟩
    cases groups with
    | nil =>
      cases hdata
      rw [List.length_nil, Nat.zero_add, pow_one, List.nil_append, value] at hwide
      exact Or.inl hwide
    | cons g groups =>
      cases hdata
      rw [mul_pow_add_value_cons] at hwide
      obtain ⟨hg, hbit⟩ := List.forall_mem_cons.mp hbit
      exact Or.inr ⟨hg, groups, c, rest, rfl, hbit, hwide⟩
  · rintro (hhere | ⟨hb, groups, c, rest, rfl, hbit, hwide⟩)
    · refine ⟨[], b, data, rfl, by simp, ?_⟩
      rwa [List.length_nil, Nat.zero_add, pow_one, List.nil_append, value]
    · exact ⟨b :: groups, c, rest, rfl, List.forall_mem_cons.mpr ⟨hb, hbit⟩,
        by rwa [mul_pow_add_value_cons]⟩

/-- The reader complains about the width exactly if it comes to a byte at which the number has
outgrown it. -/
lemma decodeFrom_tooWide_iff {bits : ℕ} (hbits : 7 ≤ bits) (data : Bytes) (read acc : ℕ) :
    (∃ k, decodeFrom bits data read acc = .error ⟨.integerTooWide bits, k⟩) ↔
      OverflowsFrom bits acc data := by
  induction data generalizing read acc with
  | nil =>
    refine iff_of_false ?_ (not_overflowsFrom_nil bits acc)
    rintro ⟨k, h⟩
    rw [decodeFrom] at h
    split at h <;> cases h
  | cons b data ih =>
    have hbyte : b.toNat < 256 := b.toNat_lt
    have hdvd : 128 ∣ 2 ^ bits := pow_dvd_pow 2 hbits
    rw [decodeFrom_cons hbits, overflowsFrom_cons_iff]
    by_cases hwide : 2 ^ bits ≤ acc * 128
    · rw [if_pos hwide]
      exact iff_of_true ⟨read, rfl⟩ (Or.inl (by omega))
    · rw [if_neg hwide]
      by_cases hlast : b.toNat < 128
      · -- the last group fits into the room that the width leaves, which is a multiple of a group
        rw [if_pos hlast]
        exact iff_of_false (by simp) (by omega)
      · rw [if_neg hlast]
        by_cases hfull : 2 ^ bits ≤ acc * 128 + b.toNat % 128 + 1
        · rw [if_pos hfull]
          exact iff_of_true ⟨read + 1, rfl⟩ (Or.inl (by omega))
        · rw [if_neg hfull, ih, or_iff_right (by omega), and_iff_right (by omega)]

/-- An integer is refused as too wide exactly if it outgrows its width in the data. -/
theorem decode_tooWide_iff {bits : ℕ} (hbits : 7 ≤ bits) {data : Bytes} :
    (∃ k, decode bits data = .error ⟨.integerTooWide bits, k⟩) ↔ Overflows bits data := by
  rw [decode, decodeFrom_tooWide_iff hbits, overflowsFrom_zero_iff]

/-- Bytes that end overflow exactly if the number that they denote does not fit. -/
lemma overflows_iff_le_value {bits : ℕ} (hbits : 7 ≤ bits) {data : Bytes} {i : ℕ}
    (hend : terminator? data = some i) :
    Overflows bits data ↔ 2 ^ bits ≤ value (data.take (i + 1)) := by
  rw [← decode_tooWide_iff hbits]
  rcases decode_of_terminator?_eq_some hbits hend with ⟨hfits, hok⟩ | ⟨hwide, herror⟩
  · rw [hok]
    exact iff_of_false (by simp) (by omega)
  · exact iff_of_true herror hwide

/-- An integer is refused for nothing but its width or missing bytes, and the latter where the data
end. -/
lemma tooWide_or_short_of_decode {bits : ℕ} (hbits : 7 ≤ bits) {data : Bytes} {e : Error}
    (h : decode bits data = .error e) :
    e.fault = .integerTooWide bits ∨ e.code = .parseUnderflow ∧ e.bytesRead = data.length := by
  cases hend : terminator? data with
  | none =>
    rw [decode] at h
    rcases decodeFrom_unterminated hbits (bit_of_terminator?_eq_none hend) 0 0 with
      ⟨fault, herror, hcode⟩ | ⟨k, herror⟩ <;> rw [herror] at h <;> cases h
    · exact Or.inr ⟨hcode, Nat.zero_add _⟩
    · exact Or.inl rfl
  | some i =>
    rcases decode_of_terminator?_eq_some hbits hend with ⟨-, hok⟩ | ⟨-, k, herror⟩
    · rw [hok] at h
      cases h
    · rw [herror] at h
      cases h
      exact Or.inl rfl

end CoinLedger.Vlq
