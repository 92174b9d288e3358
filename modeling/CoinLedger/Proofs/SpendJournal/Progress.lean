import Mathlib
import CoinLedger.Proofs.Record.Place
import CoinLedger.Proofs.SpendJournal.Failure

/-!
# Readers move on and stay in the journal

A read that succeeds takes at least three bytes, and no more than are left (`Reader.exists_move_of_read`);
one that fails takes none.  So every reader that a session comes to stands in the journal
(`Reader.in_run`), and a journal that is read has at least three bytes for each output that the block
spends (`three_mul_spentOutputs_le`).

`PlaceReader` reads a journal at places, with an index and counts of 64 bits.  It has a result whatever the
calls of a session are (`Reader.run_placed`), so no read moves too far and no sum wraps.
-/

namespace CoinLedger.SpendJournal

/-! ## Moves -/

namespace Reader

variable {data : Bytes} {r r' : Reader}

/-- A read that succeeds moves on by the bytes that are counted, which are three at least and no more than
are left. -/
lemma exists_move_of_read {s : SpentOutput} (h : r.read = (.ok s, r')) :
    ∃ d, (SpentOutput.decodeAfter r.remembered r.cursor.rest).1 = .ok d ∧ 3 ≤ d.bytesRead ∧
      r.cursor.Moves d.bytesRead r'.cursor := by
  rw [Reader.read] at h
  cases hdecode : SpentOutput.decodeAfter r.remembered r.cursor.rest with
  | mk outcome memory =>
    rw [hdecode] at h
    cases outcome with
    | error e => cases h
    | ok d =>
      cases h
      obtain ⟨hleast, hmost⟩ := SpentOutput.bytesRead_of_decodeAfter (congrArg Prod.fst hdecode)
      exact ⟨d, rfl, hleast, Cursor.moves_advance hmost⟩

/-- A read leaves the reader in the journal, whether it succeeds or not. -/
lemma in_read (hr : r.cursor.In data) : r.read.2.cursor.In data := by
  cases hread : r.read.1 with
  | error e => rwa [(read_snd_of_error hread).1]
  | ok s =>
    obtain ⟨d, -, -, hmost, hcursor⟩ := exists_move_of_read (Prod.ext hread rfl)
    rw [hcursor, ← (Cursor.moves_advance hmost).2]
    exact hr.advance hmost

/-- Whatever the calls of a session are, its reader stays in the journal. -/
lemma in_run (hr : r.cursor.In data) (calls : List Call) : (r.run calls).2.cursor.In data := by
  induction calls generalizing r with
  | nil => exact hr
  | cons c calls ih =>
    cases c with
    | nextTransaction => exact ih (r := r.nextTransaction) hr
    | read => exact ih (in_read hr)

/-- The entries of a transaction take three bytes each, or more. -/
lemma move_of_readEntries {wanted count : ℕ} {found found' : List SpentOutput}
    (hr : r.cursor.In data) (h : readEntries wanted count r found = .ok (r', found')) :
    r.pos + 3 * count ≤ r'.pos ∧ r'.cursor.In data := by
  induction count generalizing r found with
  | zero =>
    cases h
    exact ⟨le_rfl, hr⟩
  | succ count ih =>
    obtain ⟨s, r₁, -, hread, hrest⟩ := readEntries_succ_eq_ok_iff.mp h
    obtain ⟨d, -, hleast, -, hcursor⟩ := exists_move_of_read hread
    have hr₁ := in_read hr
    rw [hread] at hr₁
    obtain ⟨hmove, hin⟩ := ih hr₁ hrest
    have hpos : r₁.pos = r.pos + d.bytesRead := congrArg Cursor.pos hcursor
    dsimp only at hmove
    exact ⟨by omega, hin⟩

/-- The entries of the transactions of a block take three bytes each, or more. -/
lemma move_of_readTransactions {wanted : ℕ} {counts : List ℕ} {found found' : List SpentOutput}
    (hr : r.cursor.In data) (h : readTransactions wanted counts r found = .ok (r', found')) :
    r.pos + 3 * counts.sum ≤ r'.pos ∧ r'.cursor.In data := by
  induction counts generalizing r found with
  | nil =>
    cases h
    exact ⟨le_rfl, hr⟩
  | cons count counts ih =>
    obtain ⟨r₁, found₁, hread, hrest⟩ := readTransactions_cons_eq_ok_iff.mp h
    obtain ⟨hfirst, hr₁⟩ := move_of_readEntries (r := r.nextTransaction) hr hread
    obtain ⟨hmove, hin⟩ := ih hr₁ hrest
    have hpos : r.nextTransaction.pos = r.pos := rfl
    rw [List.sum_cons]
    exact ⟨by omega, hin⟩

end Reader

/-- A journal that is read has at least three bytes for each output that the block spends. -/
lemma three_mul_spentOutputs_le {data : Bytes} {txs : List Transaction} {journal : SpendJournal}
    (h : decode data txs = .ok journal) : 3 * Transaction.spentOutputs txs ≤ data.length := by
  rcases exists_readTransactions_of_decode h with ⟨hnone, -⟩ | ⟨r, hread⟩
  · rw [hnone]
    exact Nat.zero_le _
  · obtain ⟨hmove, hin⟩ := Reader.move_of_readTransactions (Cursor.in_start data) hread
    have hstart : (Reader.start data).pos = 0 := rfl
    have hend : r.pos + r.cursor.remaining = data.length := hin.pos_add_remaining
    rw [sum_reverse_spendCounts] at hmove
    omega

/-! ## Reading at places -/

/-- A journal being read at places. -/
structure PlaceReader where
  /-- The place in the journal. -/
  place : Place
  /-- The header code to which a 0 refers. -/
  remembered : Option ℕ
  deriving DecidableEq

namespace PlaceReader

/-- The reader of a journal. -/
def start (data : Bytes) : PlaceReader := ⟨Place.start data, none⟩

/-- Forgets the remembered header code at the start of a transaction. -/
def nextTransaction (r : PlaceReader) : PlaceReader := { r with remembered := none }

/-- Reads the next entry. -/
def read (r : PlaceReader) : Option (Except Error SpentOutput × PlaceReader) :=
  match SpentOutput.decodeAfterWord r.remembered r.place.rest with
  | none => none
  | some (.error e, remembered) => some (.error (e.offsetBy r.place.pos), ⟨r.place, remembered⟩)
  | some (.ok d, remembered) =>
    (r.place.advance (BitVec.ofNat 64 d.bytesRead)).map fun next =>
      (.ok d.value, ⟨next, remembered⟩)

/-- Carries out calls one after the other: what is read and the reader behind them. -/
def run (r : PlaceReader) : List Reader.Call → Option (List (Except Error SpentOutput) × PlaceReader)
  | [] => some ([], r)
  | .nextTransaction :: calls => r.nextTransaction.run calls
  | .read :: calls =>
    match r.read with
    | none => none
    | some (outcome, next) => (next.run calls).map fun (outcomes, last) => (outcome :: outcomes, last)

end PlaceReader

namespace Reader

variable {data : Bytes} {r : Reader} (hsize : data.length < UInt64.size) (hr : r.cursor.In data)

/-- The reader at the place of a reader in a journal. -/
def placed (data : Bytes) (r : Reader) : PlaceReader := ⟨r.cursor.place data, r.remembered⟩

include hsize hr

lemma read_placed : (r.placed data).read = some (r.read.1, r.read.2.placed data) := by
  rw [PlaceReader.read, placed, hr.place_rest hsize,
    SpentOutput.decodeAfterWord_eq _ (hr.remaining_le.trans_lt hsize), Reader.read]
  cases hdecode : SpentOutput.decodeAfter r.remembered r.cursor.rest with
  | mk outcome memory =>
    have houtcome := congrArg Prod.fst hdecode
    cases outcome with
    | error e =>
      have hfails := SpentOutput.failsWithin_decodeAfter _ _ e houtcome
      dsimp only
      rw [hr.offsetBy_place_pos hsize hfails]
      rfl
    | ok d =>
      dsimp only
      rw [hr.place_advance hsize (SpentOutput.bytesRead_of_decodeAfter houtcome).2]
      rfl

/-- Whatever the calls of a session are, reading at places gives what reading with cursors gives. -/
lemma run_placed (calls : List Call) :
    (r.placed data).run calls = some ((r.run calls).1, (r.run calls).2.placed data) := by
  induction calls generalizing r with
  | nil => rfl
  | cons c calls ih =>
    cases c with
    | nextTransaction => exact ih (r := r.nextTransaction) hr
    | read =>
      rw [PlaceReader.run, read_placed hsize hr]
      dsimp only
      rw [ih (in_read hr)]
      rfl

end Reader

/-- Decoders stay within their bounds and always move on.

An output takes between two bytes and all there are, a spent output between three and all.  A cursor that
starts in the data moves by the bytes that each field counts and stays in the data, so the bytes before it
and behind it always add up to all there are; a read of a journal, in any session, takes between three
bytes and all that are left, or fails and takes none.  At places a move that is too long, a difference
below zero and a sum that wraps have no result, and yet on data of less than `2 ^ 64` bytes outputs, coins,
entries and journals are read there as they are with cursors.  A journal that is read for `n` spent outputs
has at least `3 * n` bytes. -/
theorem decoders_advance_within_bounds (data : Bytes) :
    (∀ d, TxOut.decode data = .ok d → 2 ≤ d.bytesRead ∧ d.bytesRead ≤ data.length) ∧
    (∀ d, SpentOutput.decode data = .ok d → 3 ≤ d.bytesRead ∧ d.bytesRead ≤ data.length) ∧
    ((Cursor.start data).In data ∧ ∀ c : Cursor, c.In data →
      (∀ n next, c.read (Vlq.decode 64) = .ok (n, next) → ∃ d, Vlq.decode 64 c.rest = .ok d ∧
        1 ≤ d.bytesRead ∧ c.Moves d.bytesRead next ∧ next.In data) ∧
      ∀ out next, c.read TxOut.decode = .ok (out, next) → ∃ d, TxOut.decode c.rest = .ok d ∧
        2 ≤ d.bytesRead ∧ c.Moves d.bytesRead next ∧ next.In data) ∧
    (∀ calls r, ((Reader.start data).run calls).2 = r → r.cursor.In data ∧
      (∀ s r', r.read = (.ok s, r') →
        ∃ d, (SpentOutput.decodeAfter r.remembered r.cursor.rest).1 = .ok d ∧ 3 ≤ d.bytesRead ∧
          r.cursor.Moves d.bytesRead r'.cursor) ∧
      ∀ e r', r.read = (.error e, r') → r'.cursor = r.cursor) ∧
    (data.length < UInt64.size →
      TxOut.decodeWord data = some (TxOut.decode data) ∧
      Coin.decodeWord data = some (Coin.decode data) ∧
      (∀ remembered, SpentOutput.decodeAfterWord remembered data =
        some (SpentOutput.decodeAfter remembered data)) ∧
      ∀ calls, (PlaceReader.start data).run calls =
        some (((Reader.start data).run calls).1,
          ((Reader.start data).run calls).2.placed data)) ∧
    ∀ txs journal, decode data txs = .ok journal →
      journal.spent.length = Transaction.spentOutputs txs ∧
        3 * Transaction.spentOutputs txs ≤ data.length := by
  refine ⟨?_, ?_, ⟨Cursor.in_start data, ?_⟩, ?_, ?_, ?_⟩
  · intro d h
    exact TxOut.bytesRead_of_decode h
  · intro d h
    exact SpentOutput.bytesRead_of_decodeAfter h
  · intro c hc
    refine ⟨?_, ?_⟩
    · intro n next h
      obtain ⟨d, hdecode, hmove, hnext⟩ := Vlq.countsIn.exists_move_of_read hc h
      exact ⟨d, hdecode, Vlq.bytesRead_pos (by omega) hdecode, hmove, hnext⟩
    · intro out next h
      obtain ⟨d, hdecode, hmove, hnext⟩ := TxOut.countsIn.exists_move_of_read hc h
      exact ⟨d, hdecode, (TxOut.bytesRead_of_decode hdecode).1, hmove, hnext⟩
  · rintro calls r rfl
    refine ⟨Reader.in_run (r := Reader.start data) (Cursor.in_start data) calls, ?_, ?_⟩
    · intro s r' h
      exact Reader.exists_move_of_read h
    · intro e r' h
      have hstay := (Reader.read_snd_of_error (congrArg Prod.fst h)).1
      rwa [h] at hstay
  · intro hsize
    refine ⟨TxOut.decodeWord_eq hsize, Coin.decodeWord_eq hsize, ?_, ?_⟩
    · intro remembered
      exact SpentOutput.decodeAfterWord_eq remembered hsize
    · intro calls
      exact Reader.run_placed (r := Reader.start data) hsize (Cursor.in_start data) calls
  · intro txs journal h
    exact ⟨(entries_of_decode h).1.symm, three_mul_spentOutputs_le h⟩

/-- An entry with a raw script that should take `2 ^ 64 - 1` bytes with its tag, behind which nothing
follows. -/
def wideScriptEntry : Bytes := [0, 0] ++ Vlq.encode (2 ^ 64 - 5)

/-- An output of two bytes and an entry of three are read in front of another byte; an entry whose script has
a length to which nothing could be added is refused, and no sum wraps; and foreign data have three bytes
for each of their five entries, and more. -/
theorem decoders_advance_within_bounds_wideScript :
    (TxOut.decode [0, 6, 0xee] = .ok ⟨⟨0, []⟩, 2⟩ ∧ 2 ≤ [0, 6, 0xee].length) ∧
    (SpentOutput.decode [0, 0, 6, 0xee] = .ok ⟨⟨⟨0, false⟩, 0, []⟩, 3⟩ ∧
      3 ≤ [0, 0, 6, 0xee].length) ∧
    (∃ d, (SpentOutput.decodeAfter none [0, 0, 6, 0xee]).1 = .ok d ∧ 3 ≤ d.bytesRead ∧
      (Cursor.start [0, 0, 6, 0xee]).Moves d.bytesRead ⟨3, [0xee]⟩) ∧
    (Script.readSize (wideScriptEntry.drop 2) = .ok (2 ^ 64 - 1) ∧
      wideScriptEntry.length < UInt64.size ∧
      SpentOutput.decodeAfterWord none wideScriptEntry =
        some (.error ⟨.endsAfterScriptSize, 2⟩, none) ∧
      (PlaceReader.start wideScriptEntry).run [.read, .nextTransaction, .read] =
        some ([.error ⟨.endsAfterScriptSize, 2⟩, .error ⟨.endsAfterScriptSize, 2⟩],
          PlaceReader.start wideScriptEntry)) ∧
    decode foreignData mixedBlock = .ok foreignJournal ∧
      Transaction.spentOutputs mixedBlock = 5 ∧ 3 * 5 ≤ foreignData.length := by
  have hout : TxOut.decode [0, 6, 0xee] = .ok ⟨⟨0, []⟩, 2⟩ := by decide
  have hentry : SpentOutput.decode [0, 0, 6, 0xee] = .ok ⟨⟨⟨0, false⟩, 0, []⟩, 3⟩ := by decide
  have hread : (Reader.start [0, 0, 6, 0xee]).read =
      (.ok ⟨⟨0, false⟩, 0, []⟩, ⟨⟨3, [0xee]⟩, none⟩) := by decide
  have hwide : wideScriptEntry.length < UInt64.size := by cbv
  have hrefused : SpentOutput.decodeAfter none wideScriptEntry =
      (.error ⟨.endsAfterScriptSize, 2⟩, none) := by cbv
  have hrun : (Reader.start wideScriptEntry).run [.read, .nextTransaction, .read] =
      ([.error ⟨.endsAfterScriptSize, 2⟩, .error ⟨.endsAfterScriptSize, 2⟩],
        Reader.start wideScriptEntry) := by cbv
  have hjournal : decode foreignData mixedBlock = .ok foreignJournal := by decide
  have hcount : Transaction.spentOutputs mixedBlock = 5 := by decide
  obtain ⟨hleastOut, -, -, -, -, -⟩ := decoders_advance_within_bounds [0, 6, 0xee]
  obtain ⟨-, hleastEntry, -, hsession, -, -⟩ := decoders_advance_within_bounds [0, 0, 6, 0xee]
  obtain ⟨-, -, -, -, hplaces, -⟩ := decoders_advance_within_bounds wideScriptEntry
  obtain ⟨-, -, -, -, -, hbytes⟩ := decoders_advance_within_bounds foreignData
  obtain ⟨-, -, hafter, hcalls⟩ := hplaces hwide
  obtain ⟨-, hmove, -⟩ := hsession [] _ rfl
  refine ⟨⟨hout, (hleastOut _ hout).2⟩, ⟨hentry, (hleastEntry _ hentry).2⟩, hmove _ _ hread,
    ⟨?_, hwide, ?_, ?_⟩, hjournal, hcount, ?_⟩
  · cbv
  · rw [hafter none, hrefused]
  · rw [hcalls, hrun]
    rfl
  · have hjournalBytes := (hbytes _ _ hjournal).2
    rwa [hcount] at hjournalBytes

end CoinLedger.SpendJournal
