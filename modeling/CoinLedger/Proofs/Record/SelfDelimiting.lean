import Mathlib
import CoinLedger.Proofs.Record

/-!
# Records say where they end

A decoder is `SelfDelimiting` if missing bytes are the only complaint that more bytes can answer: any
other outcome stays as it is, a record that is read is read from its own bytes alone, and of these
not one may be missing.

It is enough to find the bytes at the front from which a record is read, whatever stands behind them,
and to see that the other complaints stay (`SelfDelimiting.of_front`).  Integers, outputs and spent
outputs are shown to be of this kind in turn, each from the fields that it begins with
(`Vlq.selfDelimiting`, `TxOut.selfDelimiting`, `SpentOutput.selfDelimiting_decodeAfter`).

Coins and spent outputs differ in what stands in front of the output.  A reader of that part need only
be a `ReadsHeader`, and what it reads together with the output behind it says where it ends
(`SpentOutput.selfDelimiting_decodeBehind`).
-/

namespace CoinLedger

/-! ## Missing bytes -/

/-- Whether an outcome is the complaint that bytes are missing. -/
def Short {α : Type} (outcome : Except Error α) : Prop :=
  ∃ e, outcome = .error e ∧ e.code = .parseUnderflow

lemma not_short_ok {α : Type} (a : α) : ¬ Short (.ok a : Except Error α) := by
  rintro ⟨e, h, -⟩
  cases h

lemma short_error_iff {α : Type} {e : Error} :
    Short (.error e : Except Error α) ↔ e.code = .parseUnderflow := by
  constructor
  · rintro ⟨e', h, hcode⟩
    cases h
    exact hcode
  · intro hcode
    exact ⟨e, rfl, hcode⟩

/-- A decoder that answers for the record at the front of its input: no answer but the complaint about
missing bytes changes with more bytes, and a record is read from all of its own bytes and no others. -/
structure SelfDelimiting {α : Type} (decode : Bytes → Except Error (Decoded α)) : Prop where
  /-- An outcome other than missing bytes stays when bytes are added. -/
  append_eq : ∀ data rest, ¬ Short (decode data) → decode (data ++ rest) = decode data
  /-- The bytes that are counted as read are there, and the record is read from them alone. -/
  take_eq : ∀ data d, decode data = .ok d →
    d.bytesRead ≤ data.length ∧ decode (data.take d.bytesRead) = .ok d
  /-- Without the last of these bytes some are missing. -/
  short_of_lt : ∀ data d, decode data = .ok d → ∀ n < d.bytesRead, Short (decode (data.take n))

namespace SelfDelimiting

variable {α : Type} {decode : Bytes → Except Error (Decoded α)}

/-- A decoder is self-delimiting if it reads a record from the bytes at the front, whatever stands
behind them, and if its other complaints stay. -/
lemma of_front
    (hfront : ∀ data d, decode data = .ok d → ∃ front rest, data = front ++ rest ∧
      front.length = d.bytesRead ∧ ∀ rest', decode (front ++ rest') = .ok d)
    (hsettled : ∀ data e, decode data = .error e → e.code ≠ .parseUnderflow →
      ∀ rest, decode (data ++ rest) = .error e) : SelfDelimiting decode := by
  have happend : ∀ data rest, ¬ Short (decode data) → decode (data ++ rest) = decode data := by
    intro data rest hnot
    cases hdecode : decode data with
    | ok d =>
      obtain ⟨front, behind, rfl, -, hread⟩ := hfront data d hdecode
      rw [List.append_assoc, hread]
    | error e =>
      rw [hdecode, short_error_iff] at hnot
      exact hsettled data e hdecode hnot rest
  refine ⟨happend, ?_, ?_⟩
  · intro data d hdecode
    obtain ⟨front, rest, rfl, hlength, hread⟩ := hfront data d hdecode
    refine ⟨?_, ?_⟩
    · rw [List.length_append]
      omega
    · have hwhole := hread []
      rwa [List.append_nil, ← List.take_left' hlength] at hwhole
  · intro data d hdecode n hn
    by_contra hnot
    -- with fewer bytes the same record would be read, and more bytes counted than there are
    have hsame := happend (data.take n) (data.drop n) hnot
    rw [List.take_append_drop, hdecode] at hsame
    obtain ⟨front, rest, hdata, hlength, -⟩ := hfront (data.take n) d hsame.symm
    have hcount := congrArg List.length hdata
    rw [List.length_take, List.length_append] at hcount
    omega

/-- A record is read from the bytes at the front, whatever stands behind them. -/
lemma exists_front (h : SelfDelimiting decode) {data : Bytes} {d : Decoded α}
    (hdecode : decode data = .ok d) :
    ∃ front rest, data = front ++ rest ∧ front.length = d.bytesRead ∧
      ∀ rest', decode (front ++ rest') = .ok d := by
  obtain ⟨hle, hwhole⟩ := h.take_eq data d hdecode
  refine ⟨data.take d.bytesRead, data.drop d.bytesRead, (List.take_append_drop _ _).symm,
    List.length_take_of_le hle, ?_⟩
  intro rest'
  rw [h.append_eq _ _ (by rw [hwhole]; exact not_short_ok d), hwhole]

/-- A complaint other than missing bytes stays when bytes are added. -/
lemma error_append (h : SelfDelimiting decode) {data : Bytes} {e : Error}
    (hdecode : decode data = .error e) (hcode : e.code ≠ .parseUnderflow) (rest : Bytes) :
    decode (data ++ rest) = .error e := by
  rw [h.append_eq _ _ (by rwa [hdecode, short_error_iff]), hdecode]

/-- A field at a cursor is read from the bytes at the front, whatever stands behind them. -/
lemma exists_front_of_read (h : SelfDelimiting decode) {pos : ℕ} {data : Bytes} {a : α}
    {cursor : Cursor} (hread : Cursor.read decode ⟨pos, data⟩ = .ok (a, cursor)) :
    ∃ front rest, data = front ++ rest ∧ cursor = ⟨pos + front.length, rest⟩ ∧
      ∀ rest', Cursor.read decode ⟨pos, front ++ rest'⟩ = .ok (a, ⟨pos + front.length, rest'⟩) := by
  cases hdecode : decode data with
  | error e =>
    rw [Cursor.read] at hread
    dsimp only at hread
    rw [hdecode] at hread
    cases hread
  | ok d =>
    obtain ⟨front, rest, rfl, hlength, hall⟩ := h.exists_front hdecode
    have hfield : ∀ rest', Cursor.read decode ⟨pos, front ++ rest'⟩ =
        .ok (d.value, ⟨pos + front.length, rest'⟩) := by
      intro rest'
      exact Cursor.read_append (by rw [hall, hlength]) pos
    rw [hfield] at hread
    cases hread
    exact ⟨front, rest, rfl, rfl, hfield⟩

/-- A complaint about a field at a cursor, other than missing bytes, stays when bytes are added. -/
lemma read_error_append (h : SelfDelimiting decode) {pos : ℕ} {data : Bytes} {e : Error}
    (hread : Cursor.read decode ⟨pos, data⟩ = .error e) (hcode : e.code ≠ .parseUnderflow)
    (rest : Bytes) : Cursor.read decode ⟨pos, data ++ rest⟩ = .error e := by
  rw [Cursor.read] at hread ⊢
  dsimp only at hread ⊢
  cases hdecode : decode data with
  | ok d =>
    rw [hdecode] at hread
    cases hread
  | error e' =>
    rw [hdecode] at hread
    cases hread
    rw [h.error_append hdecode hcode]

end SelfDelimiting

/-! ## Integers -/

namespace Vlq

/-- An integer that is read occupies as many bytes as are written for it. -/
lemma bytesRead_eq_size {bits : ℕ} (hbits : 7 ≤ bits) {data : Bytes} {d : Decoded ℕ}
    (h : decode bits data = .ok d) : d.bytesRead = size d.value :=
  ((decode_eq_ok_iff_encode hbits).mp h).2.1

/-- At every width an integer says where it ends. -/
lemma selfDelimiting {bits : ℕ} (hbits : 7 ≤ bits) : SelfDelimiting (decode bits) := by
  apply SelfDelimiting.of_front
  · intro data d hdecode
    obtain ⟨hv, hk, rest, rfl⟩ := (decode_eq_ok_iff_encode hbits).mp hdecode
    refine ⟨encode d.value, rest, rfl, ?_, ?_⟩
    · rw [length_encode, hk]
    · intro rest'
      exact (decode_eq_ok_iff_encode hbits).mpr ⟨hv, hk, rest', rfl⟩
  · intro data e hdecode hcode rest
    rw [decode, decodeFrom_append_of_settled data rest 0 0, ← decode, hdecode]
    intro e' he'
    rw [← decode, hdecode] at he'
    cases he'
    exact hcode

lemma bytesRead_pos {bits : ℕ} (hbits : 7 ≤ bits) {data : Bytes} {d : Decoded ℕ}
    (h : decode bits data = .ok d) : 0 < d.bytesRead := by
  rw [bytesRead_eq_size hbits h]
  exact size_pos d.value

end Vlq

/-! ## Outputs -/

namespace Script

/-- The length of a compressed script, other than missing bytes, is settled by its tag. -/
lemma readSize_append {data : Bytes} (h : ¬ Short (readSize data)) (rest : Bytes) :
    readSize (data ++ rest) = readSize data := by
  have htag : ¬ Short (Vlq.decode 64 data) := by
    rintro ⟨e, hdecode, hcode⟩
    exact h ⟨e, by rw [readSize, hdecode], hcode⟩
  rw [readSize, readSize, (Vlq.selfDelimiting (by omega)).append_eq data rest htag]

/-- The length of a compressed script counts its tag. -/
lemma bytesRead_le_of_readSize {data : Bytes} {tag : Decoded ℕ} {size : ℕ}
    (htag : Vlq.decode 64 data = .ok tag) (h : readSize data = .ok size) : tag.bytesRead ≤ size := by
  rw [readSize, htag] at h
  dsimp only at h
  split at h
  next hsmall =>
    cases h
    rw [Vlq.bytesRead_eq_size (by omega) htag, Vlq.size_of_le (le_of_lt_templateTags hsmall)]
    omega
  next =>
    split at h
    next =>
      cases h
      omega
    next => cases h

/-- The length of a compressed script is found in the bytes that it counts. -/
lemma readSize_take {data : Bytes} {size : ℕ} (h : readSize data = .ok size) :
    0 < size ∧ readSize (data.take size) = .ok size := by
  cases htag : Vlq.decode 64 data with
  | error e =>
    rw [readSize, htag] at h
    cases h
  | ok tag =>
    have hle := bytesRead_le_of_readSize htag h
    have hpos := Vlq.bytesRead_pos (by omega) htag
    obtain ⟨front, rest, rfl, hlength, hread⟩ := (Vlq.selfDelimiting (by omega)).exists_front htag
    refine ⟨by omega, ?_⟩
    have hsplit : (front ++ rest).take size = front ++ rest.take (size - front.length) := by
      rw [List.take_append, List.take_of_length_le (by omega)]
    rw [readSize, htag] at h
    rw [hsplit, readSize, hread]
    exact h

end Script

namespace TxOut

/-- What is read behind an amount code: a script that is all there, and an amount that fits. -/
lemma decodeScript_eq_ok_iff {code offset : ℕ} {data : Bytes} {d : Decoded TxOut} :
    decodeScript code offset data = .ok d ↔ ∃ size amount script,
      Script.readSize data = .ok size ∧ size ≤ data.length ∧ Amount.decompress code = .ok amount ∧
        Script.decompress (data.take size) = .ok script ∧ d = ⟨⟨amount, script⟩, offset + size⟩ := by
  rw [decodeScript]
  constructor
  · intro h
    cases hsize : Script.readSize data with
    | error e =>
      rw [hsize] at h
      dsimp only at h
      split at h <;> cases h
    | ok size =>
      rw [hsize] at h
      dsimp only at h
      split at h
      next => cases h
      next hfits =>
        cases hamount : Amount.decompress code with
        | error e =>
          rw [hamount] at h
          cases h
        | ok amount =>
          rw [hamount] at h
          cases hscript : Script.decompress (data.take size) with
          | error e =>
            rw [hscript] at h
            cases h
          | ok script =>
            rw [hscript] at h
            cases h
            exact ⟨size, amount, script, rfl, by omega, rfl, hscript, rfl⟩
  · rintro ⟨size, amount, script, hsize, hfits, hamount, hscript, rfl⟩
    rw [hsize]
    dsimp only
    rw [if_neg (by omega), hamount, hscript]

/-- What is read as an output: an amount code, and a script behind it. -/
lemma decode_eq_ok_iff {data : Bytes} {d : Decoded TxOut} :
    decode data = .ok d ↔ ∃ code, Vlq.decode 128 data = .ok code ∧ code.bytesRead < data.length ∧
      decodeScript code.value code.bytesRead (data.drop code.bytesRead) = .ok d := by
  rw [decode]
  constructor
  · intro h
    cases hcode : Vlq.decode 128 data with
    | error e =>
      rw [hcode] at h
      dsimp only at h
      split at h <;> cases h
    | ok code =>
      rw [hcode] at h
      dsimp only at h
      split at h
      next => cases h
      next hmore => exact ⟨code, rfl, by omega, h⟩
  · rintro ⟨code, hcode, hmore, h⟩
    rw [hcode]
    dsimp only
    rw [if_neg (by omega), h]

/-- What follows an amount code is settled once the whole script is there. -/
lemma decodeScript_append {code offset : ℕ} {data : Bytes}
    (h : ¬ Short (decodeScript code offset data)) (rest : Bytes) :
    decodeScript code offset (data ++ rest) = decodeScript code offset data := by
  have hsize : ¬ Short (Script.readSize data) := by
    rintro ⟨e, hread, hcode⟩
    have hkind : e.kind = .malformed := by
      rw [Error.kind, hcode]
      decide
    refine h ⟨⟨.endsAfterScriptSize, offset⟩, ?_, rfl⟩
    rw [decodeScript, hread]
    exact if_pos hkind
  rw [decodeScript, decodeScript, Script.readSize_append hsize]
  rw [decodeScript] at h
  cases hread : Script.readSize data with
  | error e => rfl
  | ok size =>
    rw [hread] at h
    dsimp only at h ⊢
    split at h
    next hlt => exact absurd ⟨_, rfl, rfl⟩ h
    next hge =>
      rw [if_neg hge, if_neg (by rw [List.length_append]; omega),
        List.take_append_of_le_length (by omega)]

/-- An output is read from the bytes of its script alone. -/
lemma decodeScript_take {code offset : ℕ} {data : Bytes} {d : Decoded TxOut}
    (h : decodeScript code offset data = .ok d) :
    ∃ size, d.bytesRead = offset + size ∧ 0 < size ∧ size ≤ data.length ∧
      decodeScript code offset (data.take size) = .ok d := by
  obtain ⟨size, amount, script, hsize, hfits, hamount, hscript, rfl⟩ := decodeScript_eq_ok_iff.mp h
  obtain ⟨hpos, htake⟩ := Script.readSize_take hsize
  refine ⟨size, rfl, hpos, hfits, ?_⟩
  refine decodeScript_eq_ok_iff.mpr ⟨size, amount, script, htake, ?_, hamount, ?_, rfl⟩
  · rw [List.length_take_of_le hfits]
  · rw [List.take_take, min_self, hscript]

/-- An output is read from the bytes at the front, whatever stands behind them. -/
lemma exists_front_of_decode {data : Bytes} {d : Decoded TxOut} (h : decode data = .ok d) :
    ∃ front rest, data = front ++ rest ∧ front.length = d.bytesRead ∧
      ∀ rest', decode (front ++ rest') = .ok d := by
  obtain ⟨code, hcode, -, hscript⟩ := decode_eq_ok_iff.mp h
  obtain ⟨front, rest, rfl, hlength, hread⟩ :=
    (Vlq.selfDelimiting (by omega)).exists_front hcode
  rw [List.drop_left' hlength] at hscript
  obtain ⟨size, hbytes, hpos, hle, htake⟩ := decodeScript_take hscript
  have hsettled : ¬ Short (decodeScript code.value code.bytesRead (rest.take size)) := by
    rw [htake]
    exact not_short_ok d
  refine ⟨front ++ rest.take size, rest.drop size, ?_, ?_, ?_⟩
  · rw [List.append_assoc, List.take_append_drop]
  · rw [List.length_append, List.length_take_of_le hle, hlength, hbytes]
  · intro rest'
    rw [List.append_assoc]
    refine decode_eq_ok_iff.mpr ⟨code, hread _, ?_, ?_⟩
    · rw [List.length_append, List.length_append, List.length_take_of_le hle]
      omega
    · rw [List.drop_left' hlength, decodeScript_append hsettled, htake]

/-- A complaint about an output, other than missing bytes, stays when bytes are added. -/
lemma decode_error_append {data : Bytes} {e : Error} (h : decode data = .error e)
    (hcode : e.code ≠ .parseUnderflow) (rest : Bytes) : decode (data ++ rest) = .error e := by
  have hint : SelfDelimiting (Vlq.decode 128) := Vlq.selfDelimiting (by omega)
  rw [decode] at h
  cases hread : Vlq.decode 128 data with
  | error e' =>
    rw [hread] at h
    dsimp only at h
    split at h
    next =>
      cases h
      exact absurd rfl hcode
    next hkind =>
      cases h
      rw [decode, hint.error_append hread hcode]
      exact if_neg hkind
  | ok code =>
    rw [hread] at h
    dsimp only at h
    split at h
    next =>
      cases h
      exact absurd rfl hcode
    next hmore =>
      obtain ⟨front, behind, rfl, hlength, hall⟩ := hint.exists_front hread
      have hlonger : ¬ (front ++ (behind ++ rest)).length ≤ code.bytesRead := by
        rw [List.length_append] at hmore ⊢
        rw [List.length_append]
        omega
      rw [List.drop_left' hlength] at h
      rw [List.append_assoc, decode, hall]
      dsimp only
      rw [if_neg hlonger, List.drop_left' hlength,
        decodeScript_append (by rwa [h, short_error_iff]), h]

/-- An output says where it ends. -/
lemma selfDelimiting : SelfDelimiting decode := by
  apply SelfDelimiting.of_front
  · intro data d h
    exact exists_front_of_decode h
  · intro data e h hcode rest
    exact decode_error_append h hcode rest

end TxOut

/-! ## Fields with something behind them -/

namespace Cursor

/-- Reads an integer at the cursor, behind which the data must not end. -/
def readInner (ends : Fault) (cursor : Cursor) : Except Error (ℕ × Cursor) :=
  match cursor.read (Vlq.decode 64) with
  | .error e => .error e
  | .ok (n, cursor) => if cursor.atEnd then .error ⟨ends, cursor.pos⟩ else .ok (n, cursor)

lemma atEnd_iff {pos : ℕ} {rest : Bytes} : (⟨pos, rest⟩ : Cursor).atEnd = true ↔ rest = [] :=
  List.isEmpty_iff

/-- Such a field is an integer in its written form with something behind it. -/
lemma readInner_eq_ok_iff {ends : Fault} {pos n : ℕ} {data : Bytes} {cursor : Cursor} :
    readInner ends ⟨pos, data⟩ = .ok (n, cursor) ↔
      n < 2 ^ 64 ∧ ∃ rest, rest ≠ [] ∧ data = Vlq.encode n ++ rest ∧
        cursor = ⟨pos + (Vlq.encode n).length, rest⟩ := by
  constructor
  · intro h
    rw [readInner] at h
    cases hdecode : Vlq.decode 64 data with
    | error e =>
      rw [Cursor.read] at h
      dsimp only at h
      rw [hdecode] at h
      cases h
    | ok d =>
      obtain ⟨hv, -, rest, rfl⟩ := (Vlq.decode_eq_ok_iff_encode (by omega)).mp hdecode
      rw [read_append (Vlq.decode_encode_append_of_lt (by omega) hv rest)] at h
      simp only [atEnd_iff] at h
      split at h
      next => cases h
      next hne =>
        cases h
        exact ⟨hv, rest, hne, rfl, rfl⟩
  · rintro ⟨hn, rest, hne, rfl, rfl⟩
    rw [readInner, read_append (Vlq.decode_encode_append_of_lt (by omega) hn rest)]
    simp only [atEnd_iff, hne, if_false]

/-- Such a field is read from the bytes at the front, whatever stands behind them. -/
lemma exists_front_of_readInner {ends : Fault} {pos n : ℕ} {data : Bytes} {cursor : Cursor}
    (h : readInner ends ⟨pos, data⟩ = .ok (n, cursor)) :
    ∃ front rest, data = front ++ rest ∧ rest ≠ [] ∧ cursor = ⟨pos + front.length, rest⟩ ∧
      ∀ rest', rest' ≠ [] →
        readInner ends ⟨pos, front ++ rest'⟩ = .ok (n, ⟨pos + front.length, rest'⟩) := by
  obtain ⟨hn, rest, hne, rfl, rfl⟩ := readInner_eq_ok_iff.mp h
  refine ⟨Vlq.encode n, rest, rfl, hne, rfl, ?_⟩
  intro rest' hne'
  exact readInner_eq_ok_iff.mpr ⟨hn, rest', hne', rfl, rfl⟩

/-- A complaint about such a field, other than missing bytes, stays when bytes are added. -/
lemma readInner_error_append {ends : Fault} (hends : ends.code = .parseUnderflow) {pos : ℕ}
    {data : Bytes} {e : Error} (h : readInner ends ⟨pos, data⟩ = .error e)
    (hcode : e.code ≠ .parseUnderflow) (rest : Bytes) :
    readInner ends ⟨pos, data ++ rest⟩ = .error e := by
  rw [readInner] at h
  cases hread : Cursor.read (Vlq.decode 64) ⟨pos, data⟩ with
  | error e' =>
    rw [hread] at h
    cases h
    rw [readInner, (Vlq.selfDelimiting (by omega)).read_error_append hread hcode]
  | ok field =>
    rw [hread] at h
    dsimp only at h
    split at h
    next =>
      cases h
      exact absurd hends hcode
    next => cases h

/-- Reads the first integer of a record, behind which the record must not end. -/
def readFirst (data : Bytes) : Except Error (ℕ × Cursor) :=
  if data = [] then .error ⟨.recordMissing, 0⟩ else (Cursor.start data).readInner .endsAfterHeader

lemma readFirst_eq_ok_iff {data : Bytes} {n : ℕ} {cursor : Cursor} :
    readFirst data = .ok (n, cursor) ↔
      n < 2 ^ 64 ∧ ∃ rest, rest ≠ [] ∧ data = Vlq.encode n ++ rest ∧
        cursor = ⟨(Vlq.encode n).length, rest⟩ := by
  rw [readFirst]
  constructor
  · intro h
    split at h
    next => cases h
    next =>
      obtain ⟨hn, rest, hne, hdata, hcursor⟩ := readInner_eq_ok_iff.mp h
      rw [Nat.zero_add] at hcursor
      exact ⟨hn, rest, hne, hdata, hcursor⟩
  · rintro ⟨hn, rest, hne, rfl, rfl⟩
    rw [if_neg (List.append_ne_nil_of_right_ne_nil _ hne)]
    refine readInner_eq_ok_iff.mpr ⟨hn, rest, hne, rfl, ?_⟩
    rw [Nat.zero_add]

lemma readFirst_append {n : ℕ} {rest : Bytes} (hn : n < 2 ^ 64) (hrest : rest ≠ []) :
    readFirst (Vlq.encode n ++ rest) = .ok (n, ⟨(Vlq.encode n).length, rest⟩) :=
  readFirst_eq_ok_iff.mpr ⟨hn, rest, hrest, rfl, rfl⟩

end Cursor

/-! ## Header codes in front of an output -/

/-- A reader of a header code with something behind it, which says where the header code ends. -/
structure ReadsHeader (readHeader : Bytes → Except Error (ℕ × Cursor)) : Prop where
  /-- A header code is read from the bytes at the front, whatever stands behind them. -/
  exists_front : ∀ {data : Bytes} {code : ℕ} {cursor : Cursor},
    readHeader data = .ok (code, cursor) → ∃ front rest, data = front ++ rest ∧ rest ≠ [] ∧
      cursor = ⟨front.length, rest⟩ ∧
        ∀ rest', rest' ≠ [] → readHeader (front ++ rest') = .ok (code, ⟨front.length, rest'⟩)
  /-- A complaint other than missing bytes stays when bytes are added. -/
  error_append : ∀ {data : Bytes} {e : Error}, readHeader data = .error e →
    e.code ≠ .parseUnderflow → ∀ rest, readHeader (data ++ rest) = .error e

/-- The first integer of a record says where it ends. -/
lemma Cursor.readsHeader_readFirst : ReadsHeader Cursor.readFirst := by
  refine ⟨?_, ?_⟩
  · intro data code cursor h
    obtain ⟨hcode, rest, hne, rfl, rfl⟩ := readFirst_eq_ok_iff.mp h
    refine ⟨Vlq.encode code, rest, rfl, hne, rfl, ?_⟩
    intro rest' hne'
    exact readFirst_append hcode hne'
  · intro data e h hcode rest
    rw [readFirst] at h ⊢
    split at h
    next =>
      cases h
      exact absurd rfl hcode
    next hne =>
      rw [if_neg (List.append_ne_nil_of_left_ne_nil hne _)]
      exact readInner_error_append rfl h hcode rest

namespace SpentOutput

lemma hasReserved_iff {code : ℕ} : hasReserved code = true ↔ 0 < code / 2 := decide_eq_true_iff

/-- An entry begins with its header code, and with a reserved number if the code has one. -/
lemma decodeHeader_eq_readFirst (data : Bytes) :
    decodeHeader data =
      match Cursor.readFirst data with
      | .error e => .error e
      | .ok (code, cursor) =>
        if hasReserved code then
          match cursor.readInner .endsAfterReserved with
          | .error e => .error e
          | .ok (_, cursor) => .ok (code, cursor)
        else .ok (code, cursor) := by
  rw [decodeHeader, Cursor.readFirst, Cursor.readInner]
  split
  next => rfl
  next =>
    cases hcode : (Cursor.start data).read (Vlq.decode 64) with
    | error e => rfl
    | ok field =>
      obtain ⟨code, cursor⟩ := field
      dsimp only
      split
      next => rfl
      next =>
        dsimp only
        split
        next =>
          rw [Cursor.readInner]
          cases hreserved : cursor.read (Vlq.decode 64) with
          | error e => rfl
          | ok field =>
            dsimp only
            split <;> rfl
        next => rfl

/-- What is read in front of an output: a header code, and a reserved number if the code has one. -/
lemma decodeHeader_eq_ok_iff {data : Bytes} {code : ℕ} {cursor : Cursor} :
    decodeHeader data = .ok (code, cursor) ↔ ∃ inner,
      Cursor.readFirst data = .ok (code, inner) ∧
        if hasReserved code then ∃ n, inner.readInner .endsAfterReserved = .ok (n, cursor)
        else inner = cursor := by
  rw [decodeHeader_eq_readFirst]
  constructor
  · intro h
    cases hcode : Cursor.readFirst data with
    | error e =>
      rw [hcode] at h
      cases h
    | ok field =>
      obtain ⟨code', inner⟩ := field
      rw [hcode] at h
      dsimp only at h
      split at h
      next hhas =>
        cases hreserved : inner.readInner .endsAfterReserved with
        | error e =>
          rw [hreserved] at h
          cases h
        | ok field =>
          rw [hreserved] at h
          cases h
          refine ⟨inner, rfl, ?_⟩
          rw [if_pos hhas]
          exact ⟨field.1, hreserved⟩
      next hhas =>
        cases h
        refine ⟨cursor, rfl, ?_⟩
        rw [if_neg hhas]
  · rintro ⟨inner, hcode, hreserved⟩
    rw [hcode]
    dsimp only
    split at hreserved
    next hhas =>
      obtain ⟨n, hread⟩ := hreserved
      rw [if_pos hhas, hread]
    next hhas => rw [if_neg hhas, hreserved]

/-- What stands in front of the output of an entry says where it ends. -/
lemma readsHeader_decodeHeader : ReadsHeader decodeHeader := by
  refine ⟨?_, ?_⟩
  · intro data code cursor h
    obtain ⟨inner, hcode, hreserved⟩ := decodeHeader_eq_ok_iff.mp h
    obtain ⟨front, rest, rfl, hne, rfl, hall⟩ := Cursor.readsHeader_readFirst.exists_front hcode
    split at hreserved
    next hhas =>
      obtain ⟨n, hread⟩ := hreserved
      obtain ⟨second, rest, rfl, hne', rfl, hall'⟩ := Cursor.exists_front_of_readInner hread
      rw [← List.length_append] at hall' ⊢
      refine ⟨front ++ second, rest, (List.append_assoc _ _ _).symm, hne', rfl, ?_⟩
      intro rest' hrest'
      rw [List.append_assoc]
      refine decodeHeader_eq_ok_iff.mpr
        ⟨_, hall _ (List.append_ne_nil_of_right_ne_nil _ hrest'), ?_⟩
      rw [if_pos hhas]
      exact ⟨n, hall' _ hrest'⟩
    next hhas =>
      rw [← hreserved]
      refine ⟨front, rest, rfl, hne, rfl, ?_⟩
      intro rest' hrest'
      refine decodeHeader_eq_ok_iff.mpr ⟨_, hall _ hrest', ?_⟩
      rw [if_neg hhas]
  · intro data e h hcode rest
    rw [decodeHeader_eq_readFirst] at h ⊢
    cases hread : Cursor.readFirst data with
    | error e' =>
      rw [hread] at h
      cases h
      rw [Cursor.readsHeader_readFirst.error_append hread hcode]
    | ok field =>
      obtain ⟨code, cursor⟩ := field
      rw [hread] at h
      obtain ⟨front, behind, rfl, hbehind, rfl, hall⟩ :=
        Cursor.readsHeader_readFirst.exists_front hread
      rw [List.append_assoc, hall _ (List.append_ne_nil_of_left_ne_nil hbehind _)]
      dsimp only at h ⊢
      split at h
      next hhas =>
        rw [if_pos hhas]
        cases hreserved : Cursor.readInner .endsAfterReserved ⟨front.length, behind⟩ with
        | error e' =>
          rw [hreserved] at h
          cases h
          rw [Cursor.readInner_error_append rfl hreserved hcode]
        | ok field =>
          rw [hreserved] at h
          cases h
      next => cases h

/-! ## Spent outputs -/

/-- What is read behind a header code: the header with that code and the output that follows. -/
lemma decodeOutput_eq_ok_iff {code pos : ℕ} {data : Bytes} {d : Decoded SpentOutput} :
    decodeOutput code ⟨pos, data⟩ = .ok d ↔ ∃ header out, code = Header.code header ∧
      TxOut.decode data = .ok out ∧ d = ⟨⟨header, out.value⟩, pos + out.bytesRead⟩ := by
  rw [decodeOutput]
  constructor
  · intro h
    cases hheader : Header.ofCode code pos with
    | error e =>
      rw [hheader] at h
      cases h
    | ok header =>
      rw [hheader, Cursor.read] at h
      dsimp only at h
      cases hread : TxOut.decode data with
      | error e =>
        rw [hread] at h
        cases h
      | ok out =>
        have hle := (TxOut.selfDelimiting.take_eq data out hread).1
        rw [hread] at h
        simp only [Cursor.advance, Cursor.remaining, min_eq_left hle] at h
        cases h
        exact ⟨header, out, Header.ofCode_eq_ok_iff.mp hheader, rfl, rfl⟩
  · rintro ⟨header, out, rfl, hread, rfl⟩
    have hle := (TxOut.selfDelimiting.take_eq data out hread).1
    rw [Header.ofCode_code, Cursor.read]
    simp only [hread, Cursor.advance, Cursor.remaining, min_eq_left hle]

/-- An output behind a header code is read from the bytes at the front, whatever follows them. -/
lemma exists_front_of_decodeOutput {code pos : ℕ} {data : Bytes} {d : Decoded SpentOutput}
    (h : decodeOutput code ⟨pos, data⟩ = .ok d) :
    ∃ front rest, data = front ++ rest ∧ front ≠ [] ∧ d.bytesRead = pos + front.length ∧
      ∀ rest', decodeOutput code ⟨pos, front ++ rest'⟩ = .ok d := by
  obtain ⟨header, out, hheader, hread, rfl⟩ := decodeOutput_eq_ok_iff.mp h
  obtain ⟨front, rest, rfl, hlength, hall⟩ := TxOut.selfDelimiting.exists_front hread
  refine ⟨front, rest, rfl, ?_, ?_, ?_⟩
  · rintro rfl
    cases hall []
  · rw [hlength]
  · intro rest'
    exact decodeOutput_eq_ok_iff.mpr ⟨header, out, hheader, hall rest', rfl⟩

/-- A complaint about an output behind a header code, other than missing bytes, stays when bytes are
added. -/
lemma decodeOutput_error_append {code pos : ℕ} {data : Bytes} {e : Error}
    (h : decodeOutput code ⟨pos, data⟩ = .error e) (hcode : e.code ≠ .parseUnderflow) (rest : Bytes) :
    decodeOutput code ⟨pos, data ++ rest⟩ = .error e := by
  rw [decodeOutput] at h ⊢
  cases hheader : Header.ofCode code pos with
  | error e' =>
    rw [hheader] at h
    cases h
    rfl
  | ok header =>
    rw [hheader] at h
    dsimp only at h ⊢
    cases hread : Cursor.read TxOut.decode ⟨pos, data⟩ with
    | error e' =>
      rw [hread] at h
      cases h
      rw [TxOut.selfDelimiting.read_error_append hread hcode]
    | ok field =>
      rw [hread] at h
      cases h

/-- Reads an output behind the header code that `readHeader` reads, under the header code that `meant`
makes of it. -/
def decodeBehind (readHeader : Bytes → Except Error (ℕ × Cursor)) (meant : ℕ → ℕ) (data : Bytes) :
    Except Error (Decoded SpentOutput) :=
  match readHeader data with
  | .error e => .error e
  | .ok (code, cursor) => decodeOutput (meant code) cursor

lemma decodeBehind_eq_ok_iff {readHeader : Bytes → Except Error (ℕ × Cursor)} {meant : ℕ → ℕ}
    {data : Bytes} {d : Decoded SpentOutput} :
    decodeBehind readHeader meant data = .ok d ↔ ∃ code cursor,
      readHeader data = .ok (code, cursor) ∧ decodeOutput (meant code) cursor = .ok d := by
  rw [decodeBehind]
  constructor
  · intro h
    cases hheader : readHeader data with
    | error e =>
      rw [hheader] at h
      cases h
    | ok field =>
      rw [hheader] at h
      exact ⟨field.1, field.2, rfl, h⟩
  · rintro ⟨code, cursor, hheader, hout⟩
    rw [hheader]
    exact hout

/-- An output behind a header code says where it ends if the header code does. -/
lemma selfDelimiting_decodeBehind {readHeader : Bytes → Except Error (ℕ × Cursor)}
    (hreads : ReadsHeader readHeader) (meant : ℕ → ℕ) :
    SelfDelimiting (decodeBehind readHeader meant) := by
  apply SelfDelimiting.of_front
  · intro data d hdecode
    obtain ⟨code, cursor, hheader, hout⟩ := decodeBehind_eq_ok_iff.mp hdecode
    obtain ⟨front, behind, rfl, -, rfl, hall⟩ := hreads.exists_front hheader
    obtain ⟨second, rest, rfl, hsecond, hbytes, hall'⟩ := exists_front_of_decodeOutput hout
    refine ⟨front ++ second, rest, (List.append_assoc _ _ _).symm, ?_, ?_⟩
    · rw [List.length_append, hbytes]
    · intro rest'
      rw [List.append_assoc]
      exact decodeBehind_eq_ok_iff.mpr
        ⟨code, _, hall _ (List.append_ne_nil_of_left_ne_nil hsecond _), hall' rest'⟩
  · intro data e hdecode hcode rest
    rw [decodeBehind] at hdecode ⊢
    cases hheader : readHeader data with
    | error e' =>
      rw [hheader] at hdecode
      cases hdecode
      rw [hreads.error_append hheader hcode]
    | ok field =>
      obtain ⟨code, cursor⟩ := field
      rw [hheader] at hdecode
      obtain ⟨front, behind, rfl, hne, rfl, hall⟩ := hreads.exists_front hheader
      rw [List.append_assoc, hall _ (List.append_ne_nil_of_left_ne_nil hne _)]
      exact decodeOutput_error_append hdecode hcode rest

/-- An entry is an output behind its header code, or behind the one that is remembered. -/
lemma decodeAfter_fst (remembered : Option ℕ) (data : Bytes) :
    (decodeAfter remembered data).1 = decodeBehind decodeHeader (repeated remembered) data := by
  rw [decodeAfter, decodeBehind]
  cases decodeHeader data <;> rfl

/-- An entry says where it ends, whatever header code is remembered in front of it. -/
lemma selfDelimiting_decodeAfter (remembered : Option ℕ) :
    SelfDelimiting (fun data => (decodeAfter remembered data).1) := by
  simp only [decodeAfter_fst]
  exact selfDelimiting_decodeBehind readsHeader_decodeHeader (repeated remembered)

end SpentOutput

/-! ## The formats -/

/-- Integers of every width, outputs and spent outputs say where they end: only the complaint that
bytes are missing changes with more bytes, and of the bytes of a record not one may be missing. -/
theorem records_selfDelimiting :
    (∀ bits, 8 ≤ bits → SelfDelimiting (Vlq.decode bits)) ∧ SelfDelimiting TxOut.decode ∧
      SelfDelimiting SpentOutput.decode := by
  refine ⟨?_, TxOut.selfDelimiting, SpentOutput.selfDelimiting_decodeAfter none⟩
  intro bits hbits
  exact Vlq.selfDelimiting (by omega)

/-- The entry of a payment to the hash of a script at height 0. -/
def lowestEntry : Bytes := [1, 0, 1] ++ List.replicate 20 7

/-- A number of eight bits that is too large stays so in front of other bytes; that entry is read in
front of other bytes, and without its last byte it is cut short. -/
theorem records_selfDelimiting_lowestEntry :
    Vlq.decode 8 ([0x81, 0x00] ++ [0xee]) = Vlq.decode 8 [0x81, 0x00] ∧
    SpentOutput.decode lowestEntry = .ok ⟨lowestOutput, 23⟩ ∧
    SpentOutput.decode (lowestEntry ++ [0xee]) = .ok ⟨lowestOutput, 23⟩ ∧
    Short (SpentOutput.decode (lowestEntry.take 22)) := by
  obtain ⟨hint, -, hspent⟩ := records_selfDelimiting
  have hwide : Vlq.decode 8 [0x81, 0x00] = .error ⟨.integerTooWide 8, 1⟩ := by decide
  have hread : SpentOutput.decode lowestEntry = .ok ⟨lowestOutput, 23⟩ := by decide
  have hsettled : ¬ Short (Vlq.decode 8 [0x81, 0x00]) := by
    rw [hwide, short_error_iff]
    decide
  refine ⟨(hint 8 le_rfl).append_eq _ _ hsettled, hread, ?_, ?_⟩
  · rw [hspent.append_eq _ _ (by rw [hread]; exact not_short_ok _), hread]
  · exact hspent.short_of_lt _ _ hread 22 (by decide)

end CoinLedger
