import Mathlib
import CoinLedger.Proofs.Record.SelfDelimiting

/-!
# Failures count no more bytes than there are

`FailsWithin n` says of an outcome that a failure counts at most `n` bytes as read.  Every decoder
fails within the length of its input, and a field at a cursor within the bytes before the cursor and
behind it.
-/

namespace CoinLedger

/-- Whether an outcome counts at most `n` bytes when it is a failure. -/
def FailsWithin {α : Type} (n : ℕ) (outcome : Except Error α) : Prop :=
  ∀ e, outcome = .error e → e.bytesRead ≤ n

lemma failsWithin_ok {α : Type} (n : ℕ) (a : α) : FailsWithin n (.ok a : Except Error α) := by
  intro e h
  cases h

lemma failsWithin_error {α : Type} {n : ℕ} {e : Error} (h : e.bytesRead ≤ n) :
    FailsWithin n (.error e : Except Error α) := by
  intro e' h'
  cases h'
  exact h

/-- A failure that is seen by a reader which had read `start` bytes before. -/
lemma FailsWithin.after {α : Type} {n : ℕ} {outcome : Except Error α} {e : Error}
    (h : FailsWithin n outcome) (houtcome : outcome = .error e) (start : ℕ) :
    (e.after start).bytesRead ≤ start + n :=
  Nat.add_le_add_left (h e houtcome) start

/-- A field at a cursor fails within the data around the cursor. -/
lemma Cursor.failsWithin_read {α : Type} {decode : Bytes → Except Error (Decoded α)}
    (h : ∀ data, FailsWithin data.length (decode data)) (pos : ℕ) (rest : Bytes) :
    FailsWithin (pos + rest.length) (Cursor.read decode ⟨pos, rest⟩) := by
  rw [Cursor.read]
  dsimp only
  cases hdecode : decode rest with
  | ok d => exact failsWithin_ok _ _
  | error e => exact failsWithin_error ((h rest).after hdecode pos)

/-! ## Integers and scripts -/

lemma Vlq.failsWithin_decodeFrom (bits : ℕ) (data : Bytes) (read acc : ℕ) :
    FailsWithin (read + data.length) (decodeFrom bits data read acc) := by
  induction data generalizing read acc with
  | nil => exact failsWithin_error (Nat.le_add_right _ _)
  | cons b data ih =>
    have hlength : read + (b :: data).length = read + 1 + data.length := by
      rw [List.length_cons]
      omega
    rw [hlength, decodeFrom]
    split
    next => exact failsWithin_error (by dsimp only; omega)
    next =>
      dsimp only
      split
      next => exact failsWithin_ok _ _
      next =>
        split
        next => exact failsWithin_error (Nat.le_add_right _ _)
        next => exact ih (read + 1) _

lemma Vlq.failsWithin_decode (bits : ℕ) (data : Bytes) :
    FailsWithin data.length (decode bits data) := by
  have h := failsWithin_decodeFrom bits data 0 0
  rwa [Nat.zero_add] at h

/-- An integer at a cursor with something behind it fails within the data around the cursor. -/
lemma Cursor.failsWithin_readInner (ends : Fault) (pos : ℕ) (rest : Bytes) :
    FailsWithin (pos + rest.length) (Cursor.readInner ends ⟨pos, rest⟩) := by
  rw [Cursor.readInner]
  cases hread : Cursor.read (Vlq.decode 64) ⟨pos, rest⟩ with
  | error e =>
    exact failsWithin_error (Cursor.failsWithin_read (Vlq.failsWithin_decode 64) pos rest e hread)
  | ok field =>
    obtain ⟨n, cursor⟩ := field
    obtain ⟨front, behind, rfl, rfl, -⟩ :=
      (Vlq.selfDelimiting (by omega)).exists_front_of_read hread
    dsimp only
    split
    next =>
      refine failsWithin_error ?_
      rw [List.length_append]
      dsimp only
      omega
    next => exact failsWithin_ok _ _

/-- The first integer of a record fails within the record. -/
lemma Cursor.failsWithin_readFirst (data : Bytes) : FailsWithin data.length (readFirst data) := by
  rw [readFirst]
  split
  next => exact failsWithin_error (Nat.zero_le _)
  next =>
    have hinner := failsWithin_readInner .endsAfterHeader 0 data
    rwa [Nat.zero_add] at hinner

namespace Script

/-- The tag of a compressed script lies inside the data. -/
lemma bytesRead_le_of_tag {data : Bytes} {tag : Decoded ℕ} (h : Vlq.decode 64 data = .ok tag) :
    tag.bytesRead ≤ data.length :=
  ((Vlq.selfDelimiting (by omega)).take_eq data tag h).1

lemma failsWithin_readSize (data : Bytes) : FailsWithin data.length (readSize data) := by
  rw [readSize]
  cases htag : Vlq.decode 64 data with
  | error e => exact failsWithin_error (Vlq.failsWithin_decode 64 data e htag)
  | ok tag =>
    dsimp only
    split
    next => exact failsWithin_ok _ _
    next =>
      split
      next => exact failsWithin_ok _ _
      next => exact failsWithin_error (bytesRead_le_of_tag htag)

/-- The script of a template fails behind its tag. -/
lemma failsWithin_ofTemplate (tag : ℕ) (payload : Bytes) (tagLength : ℕ) :
    FailsWithin tagLength (ofTemplate tag payload tagLength) := by
  unfold ofTemplate
  split
  · exact failsWithin_ok _ _
  · exact failsWithin_ok _ _
  · exact failsWithin_ok _ _
  · exact failsWithin_ok _ _
  · split
    · exact failsWithin_ok _ _
    · exact failsWithin_error le_rfl

lemma failsWithin_decompress (data : Bytes) : FailsWithin data.length (decompress data) := by
  rw [decompress]
  cases htag : Vlq.decode 64 data with
  | error e => exact failsWithin_error (Vlq.failsWithin_decode 64 data e htag)
  | ok tag =>
    dsimp only
    split
    next =>
      split
      next => exact failsWithin_error le_rfl
      next =>
        intro e h
        exact (failsWithin_ofTemplate _ _ _ e h).trans (bytesRead_le_of_tag htag)
    next =>
      split
      next => exact failsWithin_error le_rfl
      next => exact failsWithin_ok _ _

end Script

/-! ## Outputs and spent outputs -/

/-- An amount code fails before any byte behind it. -/
lemma Amount.failsWithin_decompress (code : ℕ) : FailsWithin 0 (decompress code) := by
  rw [decompress]
  split
  next => exact failsWithin_ok _ _
  next => exact failsWithin_error le_rfl

namespace TxOut

lemma failsWithin_decodeScript (code offset : ℕ) (rest : Bytes) :
    FailsWithin (offset + rest.length) (decodeScript code offset rest) := by
  rw [decodeScript]
  cases hsize : Script.readSize rest with
  | error e =>
    dsimp only
    split
    next => exact failsWithin_error (Nat.le_add_right _ _)
    next => exact failsWithin_error ((Script.failsWithin_readSize rest).after hsize offset)
  | ok size =>
    dsimp only
    split
    next => exact failsWithin_error (Nat.le_add_right _ _)
    next hfits =>
      cases hamount : Amount.decompress code with
      | error e =>
        have hle := (Amount.failsWithin_decompress code).after hamount offset
        exact failsWithin_error (hle.trans (Nat.le_add_right _ _))
      | ok amount =>
        dsimp only
        cases hscript : Script.decompress (rest.take size) with
        | error e =>
          have hle := (Script.failsWithin_decompress (rest.take size)).after hscript offset
          rw [List.length_take_of_le (by omega)] at hle
          exact failsWithin_error (hle.trans (by omega))
        | ok script => exact failsWithin_ok _ _

/-- An output fails within its input. -/
lemma failsWithin_decode (data : Bytes) : FailsWithin data.length (decode data) := by
  rw [decode]
  cases hcode : Vlq.decode 128 data with
  | error e =>
    dsimp only
    split
    next => exact failsWithin_error le_rfl
    next => exact failsWithin_error (Vlq.failsWithin_decode 128 data e hcode)
  | ok code =>
    have hle := ((Vlq.selfDelimiting (by omega)).take_eq data code hcode).1
    dsimp only
    split
    next => exact failsWithin_error hle
    next =>
      have hscript := failsWithin_decodeScript code.value code.bytesRead (data.drop code.bytesRead)
      rwa [List.length_drop, Nat.add_sub_cancel' hle] at hscript

end TxOut

namespace SpentOutput

lemma failsWithin_decodeHeader (data : Bytes) : FailsWithin data.length (decodeHeader data) := by
  rw [decodeHeader_eq_readFirst]
  cases hcode : Cursor.readFirst data with
  | error e => exact failsWithin_error (Cursor.failsWithin_readFirst data e hcode)
  | ok field =>
    obtain ⟨code, cursor⟩ := field
    obtain ⟨front, rest, rfl, -, rfl, -⟩ := Cursor.readsHeader_readFirst.exists_front hcode
    dsimp only
    split
    next =>
      cases hreserved : Cursor.readInner .endsAfterReserved ⟨front.length, rest⟩ with
      | error e =>
        have hle := Cursor.failsWithin_readInner _ front.length rest e hreserved
        rw [← List.length_append] at hle
        exact failsWithin_error hle
      | ok field => exact failsWithin_ok _ _
    next => exact failsWithin_ok _ _

lemma failsWithin_decodeOutput (code pos : ℕ) (rest : Bytes) :
    FailsWithin (pos + rest.length) (decodeOutput code ⟨pos, rest⟩) := by
  rw [decodeOutput]
  cases hheader : Header.ofCode code pos with
  | error e =>
    rw [Header.ofCode, Header.heightOfCode] at hheader
    split at hheader
    next e' hheight =>
      split at hheight <;> cases hheight
      cases hheader
      exact failsWithin_error (Nat.le_add_right _ _)
    next => cases hheader
  | ok header =>
    dsimp only
    cases hread : Cursor.read TxOut.decode ⟨pos, rest⟩ with
    | error e =>
      exact failsWithin_error (Cursor.failsWithin_read TxOut.failsWithin_decode pos rest e hread)
    | ok field => exact failsWithin_ok _ _

/-- An output behind a header code fails within the input if the header code does. -/
lemma failsWithin_decodeBehind {readHeader : Bytes → Except Error (ℕ × Cursor)}
    (hreads : ReadsHeader readHeader) (hfails : ∀ data, FailsWithin data.length (readHeader data))
    (meant : ℕ → ℕ) (data : Bytes) :
    FailsWithin data.length (decodeBehind readHeader meant data) := by
  rw [decodeBehind]
  cases hheader : readHeader data with
  | error e => exact failsWithin_error (hfails data e hheader)
  | ok field =>
    obtain ⟨code, cursor⟩ := field
    obtain ⟨front, rest, rfl, -, rfl, -⟩ := hreads.exists_front hheader
    rw [List.length_append]
    exact failsWithin_decodeOutput _ front.length rest

/-- An entry fails within its input, whatever header code is remembered in front of it. -/
lemma failsWithin_decodeAfter (remembered : Option ℕ) (data : Bytes) :
    FailsWithin data.length (decodeAfter remembered data).1 := by
  rw [decodeAfter_fst]
  exact failsWithin_decodeBehind readsHeader_decodeHeader failsWithin_decodeHeader _ data

end SpentOutput

end CoinLedger
