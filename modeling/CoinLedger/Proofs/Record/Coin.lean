import Mathlib
import CoinLedger.Proofs.Record.Bounds

/-!
# Records of coins that are cut or continued

The record of a coin has to fill its bytes.  `Coin.decodeFront` reads a coin from the front of any
bytes, as an output behind a header code without a reserved number.  So it says where it ends
(`Coin.selfDelimiting_decodeFront`), and reading a whole record is reading the coin at its front and
looking for bytes behind it (`Coin.decode_eq_decodeFront`).

`Coin.decode_of_cut_or_trailing`: of a record that is read, whether or not it was written here, no
byte may be missing and none may follow, and no record is the beginning of another one.
-/

namespace CoinLedger.Coin

/-- Reads a coin from the front of the data and leaves the bytes behind it alone. -/
def decodeFront (data : Bytes) : Except Error (Decoded SpentOutput) :=
  SpentOutput.decodeBehind Cursor.readFirst id data

/-- A coin at the front says where it ends. -/
lemma selfDelimiting_decodeFront : SelfDelimiting decodeFront :=
  SpentOutput.selfDelimiting_decodeBehind Cursor.readsHeader_readFirst id

/-- A coin at the front fails within its input. -/
lemma failsWithin_decodeFront (data : Bytes) : FailsWithin data.length (decodeFront data) :=
  SpentOutput.failsWithin_decodeBehind Cursor.readsHeader_readFirst Cursor.failsWithin_readFirst id
    data

/-- Reading a whole record is reading the coin at its front and looking for bytes behind it. -/
lemma decode_eq_decodeFront (data : Bytes) :
    decode data =
      match decodeFront data with
      | .error e => .error e
      | .ok d =>
        if d.bytesRead = data.length then .ok d.value.toCoin
        else .error ⟨.coinTrailing (data.length - d.bytesRead), d.bytesRead⟩ := by
  rw [decode, decodeFront, SpentOutput.decodeBehind, Cursor.readFirst, Cursor.readInner]
  split
  next => rfl
  next =>
    cases hcode : (Cursor.start data).read (Vlq.decode 64) with
    | error e => rfl
    | ok field =>
      obtain ⟨code, cursor⟩ := field
      rw [Cursor.start] at hcode
      obtain ⟨front, behind, rfl, rfl, -⟩ :=
        (Vlq.selfDelimiting (by omega)).exists_front_of_read hcode
      dsimp only
      split
      next => rfl
      next =>
        dsimp only [id]
        rw [SpentOutput.decodeOutput]
        cases hheader : Header.ofCode code (0 + front.length) with
        | error e => rfl
        | ok header =>
          dsimp only
          cases hread : Cursor.read TxOut.decode ⟨0 + front.length, behind⟩ with
          | error e => rfl
          | ok field =>
            obtain ⟨out, cursor⟩ := field
            obtain ⟨second, rest, rfl, rfl, -⟩ := TxOut.selfDelimiting.exists_front_of_read hread
            simp only [Cursor.atEnd_iff, Cursor.remaining, List.length_append, Nat.zero_add]
            by_cases hrest : rest = []
            · rw [if_pos hrest, if_pos (by rw [hrest, List.length_nil, Nat.add_zero])]
              rfl
            · have hpos : 0 < rest.length := List.length_pos_iff.mpr hrest
              rw [if_neg hrest, if_neg (by omega)]
              congr 3
              omega

/-- A whole record fails within its bytes. -/
lemma failsWithin_decode (data : Bytes) : FailsWithin data.length (decode data) := by
  rw [decode_eq_decodeFront]
  cases hread : decodeFront data with
  | error e => exact failsWithin_error (failsWithin_decodeFront data e hread)
  | ok d =>
    dsimp only
    split
    next => exact failsWithin_ok _ _
    next => exact failsWithin_error (selfDelimiting_decodeFront.take_eq data d hread).1

/-- A record is read exactly if the coin at its front fills it. -/
lemma decode_eq_ok_iff_front {data : Bytes} {c : Coin} :
    decode data = .ok c ↔ decodeFront data = .ok ⟨SpentOutput.ofCoin c, data.length⟩ := by
  rw [decode_eq_decodeFront]
  constructor
  · intro h
    cases hread : decodeFront data with
    | error e =>
      rw [hread] at h
      cases h
    | ok d =>
      rw [hread] at h
      dsimp only at h
      split at h
      next hlength =>
        cases h
        rw [← hlength]
        rfl
      next => cases h
  · intro h
    rw [h]
    exact if_pos rfl

/-- Of the record of a coin that is read, and that need not have been written by `encode`, no byte may
be missing and none may follow; so no record is the beginning of another one. -/
theorem decode_of_cut_or_trailing {data : Bytes} {c : Coin} (h : decode data = .ok c) :
    (∀ part, part <+: data → part ≠ data → ∃ e, decode part = .error e ∧
      e.code = .parseUnderflow ∧ e.bytesRead ≤ part.length) ∧
    (∀ rest, rest ≠ [] → ∃ e, decode (data ++ rest) = .error e ∧
      e.code = .parseBadFormat ∧ e.bytesRead = data.length) ∧
    ∀ other c', decode other = .ok c' → data <+: other → other = data := by
  have hfront := decode_eq_ok_iff_front.mp h
  have htrailing : ∀ rest, rest ≠ [] → ∃ e, decode (data ++ rest) = .error e ∧
      e.code = .parseBadFormat ∧ e.bytesRead = data.length := by
    intro rest hrest
    have hpos : 0 < rest.length := List.length_pos_iff.mpr hrest
    have hsame := selfDelimiting_decodeFront.append_eq data rest
      (by rw [hfront]; exact not_short_ok _)
    rw [decode_eq_decodeFront, hsame, hfront]
    dsimp only
    rw [if_neg (by rw [List.length_append]; omega)]
    exact ⟨_, rfl, rfl, rfl⟩
  refine ⟨?_, htrailing, ?_⟩
  · intro part hpart hne
    have hlt : part.length < data.length :=
      lt_of_le_of_ne hpart.length_le (fun heq => hne (hpart.eq_of_length heq))
    have hshort := selfDelimiting_decodeFront.short_of_lt data _ hfront part.length hlt
    rw [← List.prefix_iff_eq_take.mp hpart] at hshort
    obtain ⟨e, hread, hcode⟩ := hshort
    refine ⟨e, ?_, hcode, failsWithin_decodeFront part e hread⟩
    rw [decode_eq_decodeFront, hread]
  · rintro other c' hother ⟨rest, rfl⟩
    by_contra hne
    have hrest : rest ≠ [] := by
      rintro rfl
      exact hne (List.append_nil data)
    obtain ⟨e, herror, -, -⟩ := htrailing rest hrest
    rw [hother] at herror
    cases herror

/-- A record in which a payment to the hash of a key is stored raw, as `encode` never stores it. -/
def foreignRecord : Bytes := [15, 101, 31] ++ Script.payToKeyHash (List.replicate 20 7)

/-- That record is read, but not without its last byte and not with a byte behind it. -/
theorem decode_of_cut_or_trailing_foreignRecord :
    (∃ c, decode foreignRecord = .ok c ∧ c.encode ≠ foreignRecord) ∧
    (∃ e, decode (foreignRecord.take 27) = .error e ∧ e.code = .parseUnderflow ∧
      e.bytesRead ≤ 27) ∧
    ∃ e, decode (foreignRecord ++ [0]) = .error e ∧ e.code = .parseBadFormat ∧ e.bytesRead = 28 := by
  have hread : decode foreignRecord =
      .ok ⟨⟨7, true⟩, 12, Script.payToKeyHash (List.replicate 20 7)⟩ := by decide
  have hwritten : encode ⟨⟨7, true⟩, 12, Script.payToKeyHash (List.replicate 20 7)⟩ =
      [15, 101, 0] ++ List.replicate 20 7 := by cbv
  obtain ⟨hcut, htrailing, -⟩ := decode_of_cut_or_trailing hread
  refine ⟨⟨_, hread, by rw [hwritten]; decide⟩, ?_, htrailing [0] (by decide)⟩
  exact hcut (foreignRecord.take 27) (List.take_prefix _ _) (by decide)

end CoinLedger.Coin
