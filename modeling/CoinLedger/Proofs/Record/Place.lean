import Mathlib
import CoinLedger.Proofs.Record.Bounds
import CoinLedger.Proofs.Script.Denotes
import CoinLedger.Proofs.Vlq.Word
import CoinLedger.Proofs.Word

/-!
# Records at a place in a buffer

A `Cursor` carries the bytes behind it, and a move that is too long ends where the bytes end.  Computers
keep a buffer and an index of 64 bits in its place, and count in words that wrap.  A `Place` is such an
index, and it has no result where a move is too long, where a difference falls below zero or where a sum
wraps.

No decoder counts more bytes than there are, whether it succeeds or fails (`CountsIn`), so on data of less
than `2 ^ 64` bytes what is read at a place follows what is read at a cursor (`CountsIn.follows_read`).  The
decoders that go by places are put together from such reads, and so they have a result, which is that of
the decoders that go by cursors (`Coin.decodeWord_eq`, `SpentOutput.decodeAfterWord_eq`).  The sums that
could wrap are those with the length of a raw script, and this is compared with what is left before it is
added to anything (`TxOut.decodeScriptWord_eq`).

An output takes two bytes at least, and a spent output three.
-/

namespace CoinLedger

/-! ## Least and most bytes -/

/-- An output takes at least two bytes, and no more than there are. -/
lemma TxOut.bytesRead_of_decode {data : Bytes} {d : Decoded TxOut} (h : decode data = .ok d) :
    2 ≤ d.bytesRead ∧ d.bytesRead ≤ data.length := by
  obtain ⟨code, hcode, -, hscript⟩ := decode_eq_ok_iff.mp h
  obtain ⟨size, hread, hpos, hfits, -⟩ := decodeScript_take hscript
  have hfirst := Vlq.bytesRead_pos (by omega) hcode
  rw [List.length_drop] at hfits
  omega

namespace SpentOutput

/-- What stands in front of the output of an entry is at least one byte. -/
lemma pos_of_decodeHeader {data : Bytes} {code : ℕ} {cursor : Cursor}
    (h : decodeHeader data = .ok (code, cursor)) : 1 ≤ cursor.pos := by
  obtain ⟨inner, hfirst, hreserved⟩ := decodeHeader_eq_ok_iff.mp h
  obtain ⟨-, rest, -, -, rfl⟩ := Cursor.readFirst_eq_ok_iff.mp hfirst
  have hcode : 1 ≤ (Vlq.encode code).length := by
    rw [Vlq.length_encode]
    exact Vlq.size_pos code
  split at hreserved
  next =>
    obtain ⟨n, hinner⟩ := hreserved
    obtain ⟨-, behind, -, -, rfl⟩ := Cursor.readInner_eq_ok_iff.mp hinner
    exact hcode.trans (Nat.le_add_right _ _)
  next =>
    subst hreserved
    exact hcode

/-- An entry takes at least three bytes, and no more than there are, whatever is remembered in front of
it. -/
lemma bytesRead_of_decodeAfter {remembered : Option ℕ} {data : Bytes} {d : Decoded SpentOutput}
    (h : (decodeAfter remembered data).1 = .ok d) : 3 ≤ d.bytesRead ∧ d.bytesRead ≤ data.length := by
  have hmost := ((selfDelimiting_decodeAfter remembered).take_eq data d h).1
  rw [decodeAfter_fst] at h
  obtain ⟨code, cursor, hheader, hout⟩ := decodeBehind_eq_ok_iff.mp h
  obtain ⟨header, out, -, hread, rfl⟩ := decodeOutput_eq_ok_iff.mp hout
  have hfront := pos_of_decodeHeader hheader
  have hbehind := (TxOut.bytesRead_of_decode hread).1
  exact ⟨Nat.add_le_add hfront hbehind, hmost⟩

end SpentOutput

/-! ## Cursors in a byte string -/

/-- Whether a cursor stands in a byte string: the bytes before it and behind it are all there are. -/
structure Cursor.In (data : Bytes) (c : Cursor) : Prop where
  /-- The bytes before the cursor and behind it add up. -/
  pos_add_remaining : c.pos + c.remaining = data.length
  /-- The bytes behind the cursor are those from its position on. -/
  rest_eq : c.rest = data.drop c.pos

namespace Cursor

variable {data : Bytes} {c : Cursor}

lemma in_start (data : Bytes) : (start data).In data := ⟨Nat.zero_add _, rfl⟩

/-- Whether a cursor moves to another one by `n` bytes: there are so many, and none is cut off. -/
def Moves (c : Cursor) (n : ℕ) (next : Cursor) : Prop :=
  n ≤ c.remaining ∧ next = ⟨c.pos + n, c.rest.drop n⟩

/-- A move that is not too long is as long as it should be. -/
lemma moves_advance {n : ℕ} (h : n ≤ c.remaining) : c.Moves n (c.advance n) := by
  refine ⟨h, ?_⟩
  rw [advance, min_eq_left h]

lemma In.remaining_le (hc : c.In data) : c.remaining ≤ data.length :=
  Nat.le.intro ((Nat.add_comm _ _).trans hc.pos_add_remaining)

lemma In.advance (hc : c.In data) {n : ℕ} (h : n ≤ c.remaining) : (c.advance n).In data := by
  refine ⟨?_, ?_⟩
  · rw [pos_add_remaining_advance, hc.pos_add_remaining]
  · rw [(moves_advance h).2, hc.rest_eq, List.drop_drop]

end Cursor

/-! ## Places -/

/-- A place in a buffer. -/
structure Place where
  /-- The whole buffer. -/
  buffer : Bytes
  /-- The number of bytes before the place. -/
  index : BitVec 64
  deriving DecidableEq

namespace Place

/-- The place at the start of a buffer. -/
def start (data : Bytes) : Place := ⟨data, 0⟩

/-- The number of bytes before the place. -/
def pos (p : Place) : ℕ := p.index.toNat

/-- The bytes from the place on. -/
def rest (p : Place) : Bytes := p.buffer.drop p.pos

/-- The length of the buffer. -/
def size (p : Place) : BitVec 64 := BitVec.ofNat 64 p.buffer.length

/-- The number of bytes behind the place, unless the place is behind the end. -/
def remaining (p : Place) : Option (BitVec 64) := Word.checkedSub p.size p.index

/-- Whether the place is at the end. -/
def atEnd (p : Place) : Bool := decide (p.size.toNat ≤ p.pos)

/-- Moves forward by `n` bytes, unless there are fewer. -/
def advance (p : Place) (n : BitVec 64) : Option Place :=
  match p.remaining with
  | none => none
  | some left =>
    if left.toNat < n.toNat then none else (Word.checkedAdd p.index n).map (Place.mk p.buffer)

/-- Reads a value at the place and moves behind it. -/
def read {α : Type} (decode : Bytes → Option (Except Error (Decoded α))) (p : Place) :
    Option (Except Error (α × Place)) :=
  match decode p.rest with
  | none => none
  | some (.error e) => some (.error (e.offsetBy p.pos))
  | some (.ok d) =>
    match p.advance (BitVec.ofNat 64 d.bytesRead) with
    | none => none
    | some next => some (.ok (d.value, next))

end Place

/-- Whether a decoder counts no more bytes than there are, and `decodeWord` gives what it gives on all data
of less than `2 ^ 64` bytes. -/
structure CountsIn {α : Type} (decode : Bytes → Except Error (Decoded α))
    (decodeWord : Bytes → Option (Except Error (Decoded α))) : Prop where
  /-- A value that is read is among the data. -/
  bytesRead_le : ∀ data d, decode data = .ok d → d.bytesRead ≤ data.length
  /-- A failure is seen among the data. -/
  failsWithin : ∀ data, FailsWithin data.length (decode data)
  /-- The decoder in words has a result, and the same one. -/
  decodeWord_eq : ∀ data, data.length < UInt64.size → decodeWord data = some (decode data)

/-- In 64 bits, a failure is seen from further in front as it should be, as long as its count has 64 bits. -/
lemma Error.offsetBy_eq_after {e : Error} {base : ℕ} (h : base + e.bytesRead < UInt64.size) :
    e.offsetBy base = e.after base := by
  rw [offsetBy, after, Nat.add_comm, Nat.mod_eq_of_lt h]

namespace Cursor

/-- The place of a cursor in a byte string. -/
def place (data : Bytes) (c : Cursor) : Place := ⟨data, BitVec.ofNat 64 c.pos⟩

/-- Whether an outcome at a place is that at a cursor: a failure is the same, and a value comes with the
place of a cursor in the byte string. -/
inductive Follows {α : Type} (data : Bytes) :
    Except Error (α × Cursor) → Option (Except Error (α × Place)) → Prop
  | error (e : Error) : Follows data (.error e) (some (.error e))
  | ok (a : α) {c : Cursor} (hc : c.In data) :
    Follows data (.ok (a, c)) (some (.ok (a, c.place data)))

variable {data : Bytes} {c : Cursor} (hsize : data.length < UInt64.size) (hc : c.In data)

include hsize hc

lemma In.place_pos : (c.place data).pos = c.pos := by
  have hle : c.pos ≤ data.length := Nat.le.intro hc.pos_add_remaining
  exact Word.toNat_ofNat_of_lt (hle.trans_lt hsize)

lemma In.place_rest : (c.place data).rest = c.rest := by
  rw [Place.rest, hc.place_pos hsize, hc.rest_eq]
  rfl

lemma In.place_remaining : (c.place data).remaining = some (BitVec.ofNat 64 c.remaining) := by
  have hall := hc.pos_add_remaining
  have hleft : data.length - c.pos = c.remaining := by omega
  have hword : data.length < 2 ^ 64 := hsize
  have hsub := Word.checkedSub_ofNat hword (Nat.le.intro hall)
  rwa [hleft] at hsub

lemma In.place_atEnd : (c.place data).atEnd = c.atEnd := by
  have hall := hc.pos_add_remaining
  have hlength : (c.place data).size.toNat = data.length := Word.toNat_ofNat_of_lt hsize
  rw [remaining] at hall
  rw [Place.atEnd, atEnd, hlength, hc.place_pos hsize, Bool.eq_iff_iff, decide_eq_true_iff,
    List.isEmpty_iff, ← List.length_eq_zero_iff]
  omega

/-- A failure behind the cursor is seen from the start of the buffer as it should be: its count does not
wrap. -/
lemma In.offsetBy_place_pos {e : Error} (he : e.bytesRead ≤ c.remaining) :
    e.offsetBy (c.place data).pos = e.after c.pos := by
  have hcount : c.pos + e.bytesRead ≤ data.length := by
    rw [← hc.pos_add_remaining]
    exact Nat.add_le_add_left he _
  rw [hc.place_pos hsize, Error.offsetBy_eq_after (hcount.trans_lt hsize)]

/-- A move that is not too long has a result in words. -/
lemma In.place_advance {n : ℕ} (h : n ≤ c.remaining) :
    (c.place data).advance (BitVec.ofNat 64 n) = some ((c.advance n).place data) := by
  have hall := hc.pos_add_remaining
  have hsum : c.pos + n < 2 ^ 64 := lt_of_le_of_lt (by omega) hsize
  have hleft : c.remaining < 2 ^ 64 := hc.remaining_le.trans_lt hsize
  have hadd : Word.checkedAdd (c.place data).index (BitVec.ofNat 64 n) =
      some (BitVec.ofNat 64 (c.pos + n)) := Word.checkedAdd_ofNat hsum
  rw [Place.advance, hc.place_remaining hsize]
  dsimp only
  rw [Word.toNat_ofNat_of_lt hleft, Word.toNat_ofNat_of_lt (h.trans_lt hleft), if_neg h.not_gt, hadd,
    (moves_advance h).2]
  rfl

end Cursor

namespace CountsIn

variable {α : Type} {decode : Bytes → Except Error (Decoded α)}
  {decodeWord : Bytes → Option (Except Error (Decoded α))} (h : CountsIn decode decodeWord)
  {data : Bytes} {c : Cursor}

include h

/-- What is read moves the cursor by the bytes that are counted, and leaves it in the byte string. -/
lemma exists_move_of_read (hc : c.In data) {a : α} {next : Cursor}
    (hread : c.read decode = .ok (a, next)) :
    ∃ d, decode c.rest = .ok d ∧ c.Moves d.bytesRead next ∧ next.In data := by
  rw [Cursor.read] at hread
  cases hdecode : decode c.rest with
  | error e =>
    rw [hdecode] at hread
    cases hread
  | ok d =>
    rw [hdecode] at hread
    cases hread
    have hle := h.bytesRead_le _ d hdecode
    exact ⟨d, rfl, Cursor.moves_advance hle, hc.advance hle⟩

/-- What is read at a cursor is read at its place: neither is the move behind it too long nor does a sum
wrap. -/
lemma follows_read (hc : c.In data) (hsize : data.length < UInt64.size) :
    Cursor.Follows data (c.read decode) ((c.place data).read decodeWord) := by
  rw [Place.read, hc.place_rest hsize, h.decodeWord_eq _ (hc.remaining_le.trans_lt hsize),
    Cursor.read]
  cases hdecode : decode c.rest with
  | error e =>
    dsimp only
    rw [hc.offsetBy_place_pos hsize (h.failsWithin _ e hdecode)]
    exact .error _
  | ok d =>
    have hle := h.bytesRead_le _ d hdecode
    dsimp only
    rw [hc.place_advance hsize hle]
    exact .ok _ (hc.advance hle)

end CountsIn

/-! ## Integers and scripts -/

/-- The reader of integers of 64 bits, in words. -/
def Vlq.decode64 (data : Bytes) : Option (Except Error (Decoded ℕ)) := some (decodeWord 64 data)

lemma Vlq.countsIn : CountsIn (decode 64) decode64 := by
  refine ⟨?_, failsWithin_decode 64, ?_⟩
  · intro data d h
    exact ((selfDelimiting (by omega)).take_eq data d h).1
  · intro data _
    rw [decode64, decodeWord_eq (by omega)]

namespace Script

/-- Reads the length of a compressed script in words. -/
def readSizeWord (data : Bytes) : Option (Except Error (BitVec 64)) :=
  match Vlq.decodeWord 64 data with
  | .error e => some (.error e)
  | .ok tag =>
    if tag.value < templateTags then some (.ok (BitVec.ofNat 64 (1 + payloadSize tag.value)))
    else
      match Word.checkedSub (BitVec.ofNat 64 tag.value) (BitVec.ofNat 64 templateTags),
        Word.checkedSub (BitVec.allOnes 64) (BitVec.ofNat 64 tag.bytesRead) with
      | some length, some room =>
        if room.toNat < length.toNat then some (.error ⟨.scriptSizeOverflow, tag.bytesRead⟩)
        else (Word.checkedAdd length (BitVec.ofNat 64 tag.bytesRead)).map .ok
      | _, _ => none

/-- The length of a script is read in words as it is, and where it has more than 64 bits it is refused
before it is summed. -/
lemma readSizeWord_eq {data : Bytes} (hsize : data.length < UInt64.size) :
    readSizeWord data = some ((readSize data).map (BitVec.ofNat 64)) := by
  rw [readSizeWord, readSize, Vlq.decodeWord_eq (by omega)]
  cases htag : Vlq.decode 64 data with
  | error e => rfl
  | ok tag =>
    dsimp only
    split
    next => rfl
    next hraw =>
      have hvalue : tag.value < 2 ^ 64 := ((Vlq.decode_eq_ok_iff_encode (by omega)).mp htag).1
      have hcount : tag.bytesRead < 2 ^ 64 := (bytesRead_le_of_tag htag).trans_lt hsize
      have hones : BitVec.allOnes 64 = BitVec.ofNat 64 (2 ^ 64 - 1) := rfl
      rw [hones, Word.checkedSub_ofNat hvalue (by omega),
        Word.checkedSub_ofNat (by omega) (by omega)]
      dsimp only
      rw [Word.toNat_ofNat_of_lt (by omega), Word.toNat_ofNat_of_lt (by omega)]
      have hwide : UInt64.size = 2 ^ 64 := rfl
      split
      next hover =>
        rw [if_neg (by omega)]
        rfl
      next hfits =>
        rw [if_pos (by omega), Word.checkedAdd_ofNat (by omega)]
        rfl

end Script

/-! ## Outputs -/

namespace TxOut

/-- Reads the rest of an output in words. -/
def decodeScriptWord (code : ℕ) (offset : BitVec 64) (rest : Bytes) :
    Option (Except Error (Decoded TxOut)) :=
  match Script.readSizeWord rest with
  | none => none
  | some (.error e) =>
    if e.kind = .malformed then some (.error ⟨.endsAfterScriptSize, offset.toNat⟩)
    else some (.error (e.offsetBy offset.toNat))
  | some (.ok size) =>
    if rest.length < size.toNat then some (.error ⟨.endsAfterScriptSize, offset.toNat⟩)
    else
      match Amount.decompress code with
      | .error e => some (.error (e.offsetBy offset.toNat))
      | .ok amount =>
        match Script.decompress (rest.take size.toNat) with
        | .error e => some (.error (e.offsetBy offset.toNat))
        | .ok script =>
          (Word.checkedAdd offset size).map fun last => .ok ⟨⟨amount, script⟩, last.toNat⟩

/-- Reads an output from the front of the data in words. -/
def decodeWord (data : Bytes) : Option (Except Error (Decoded TxOut)) :=
  match Vlq.decodeWord 128 data with
  | .error e =>
    if e.kind = .malformed then some (.error ⟨.endsAfterAmount, data.length⟩) else some (.error e)
  | .ok code =>
    if data.length ≤ code.bytesRead then some (.error ⟨.endsAfterAmount, code.bytesRead⟩)
    else decodeScriptWord code.value (BitVec.ofNat 64 code.bytesRead) (data.drop code.bytesRead)

lemma decodeScriptWord_eq {code offset : ℕ} {rest : Bytes}
    (hsize : offset + rest.length < UInt64.size) :
    decodeScriptWord code (BitVec.ofNat 64 offset) rest = some (decodeScript code offset rest) := by
  have hoffset : (BitVec.ofNat 64 offset).toNat = offset :=
    Word.toNat_ofNat_of_lt ((Nat.le_add_right _ _).trans_lt hsize)
  have hrest : rest.length < UInt64.size := (Nat.le_add_left _ _).trans_lt hsize
  -- no failure behind the amount code counts more bytes than there are
  have hfails {e : Error} {n : ℕ} (he : e.bytesRead ≤ n) (hn : n ≤ rest.length) :
      e.offsetBy offset = e.after offset :=
    Error.offsetBy_eq_after ((Nat.add_le_add_left (he.trans hn) offset).trans_lt hsize)
  rw [decodeScriptWord, decodeScript, Script.readSizeWord_eq hrest, hoffset]
  cases hread : Script.readSize rest with
  | error e =>
    dsimp only [Except.map]
    rw [hfails (Script.failsWithin_readSize rest e hread) le_rfl]
    split <;> rfl
  | ok size =>
    have hlength : (BitVec.ofNat 64 size).toNat = size :=
      Word.toNat_ofNat_of_lt (Script.readSize_lt hread)
    dsimp only [Except.map]
    rw [hlength]
    split
    next => rfl
    next hfits =>
      cases hamount : Amount.decompress code with
      | error e =>
        dsimp only
        rw [hfails (Amount.failsWithin_decompress code e hamount) (Nat.zero_le _)]
      | ok amount =>
        dsimp only
        cases hscript : Script.decompress (rest.take size) with
        | error e =>
          dsimp only
          rw [hfails (Script.failsWithin_decompress _ e hscript) (List.length_take_le' _ _)]
        | ok script =>
          -- the script lies in what is left, so the sum is no more than all there is
          have hsum : offset + size < UInt64.size := by omega
          dsimp only
          rw [Word.checkedAdd_ofNat hsum, Option.map_some, Word.toNat_ofNat_of_lt hsum]

/-- An output is read in words as it is. -/
lemma decodeWord_eq {data : Bytes} (hsize : data.length < UInt64.size) :
    decodeWord data = some (decode data) := by
  rw [decodeWord, decode, Vlq.decodeWord_eq (by omega)]
  cases hcode : Vlq.decode 128 data with
  | error e =>
    dsimp only
    split <;> rfl
  | ok code =>
    dsimp only
    split
    next => rfl
    next hmore =>
      rw [decodeScriptWord_eq]
      rw [List.length_drop]
      omega

lemma countsIn : CountsIn decode decodeWord :=
  ⟨fun _ _ h => (bytesRead_of_decode h).2, failsWithin_decode, fun _ => decodeWord_eq⟩

end TxOut

/-! ## Integers with something behind them -/

namespace Place

/-- Reads an integer at the place, behind which the buffer must not end. -/
def readInner (ends : Fault) (p : Place) : Option (Except Error (ℕ × Place)) :=
  match p.read Vlq.decode64 with
  | none => none
  | some (.error e) => some (.error e)
  | some (.ok (n, next)) =>
    if next.atEnd then some (.error ⟨ends, next.pos⟩) else some (.ok (n, next))

/-- Reads the first integer of a record, behind which the record must not end. -/
def readFirst (data : Bytes) : Option (Except Error (ℕ × Place)) :=
  if data = [] then some (.error ⟨.recordMissing, 0⟩)
  else (Place.start data).readInner .endsAfterHeader

end Place

namespace Cursor

variable {data : Bytes} {c : Cursor} (hsize : data.length < UInt64.size)

include hsize

lemma In.follows_readInner (hc : c.In data) (ends : Fault) :
    Follows data (c.readInner ends) ((c.place data).readInner ends) := by
  have hread := Vlq.countsIn.follows_read hc hsize
  rw [readInner, Place.readInner]
  -- nothing but that one outcome follows the other is needed of the integer
  generalize c.read (Vlq.decode 64) = outcome,
    (c.place data).read Vlq.decode64 = atPlace at hread ⊢
  cases hread with
  | error e => exact .error e
  | ok n hnext =>
    dsimp only
    rw [hnext.place_atEnd hsize, hnext.place_pos hsize]
    split
    next => exact .error _
    next => exact .ok n hnext

lemma follows_readFirst : Follows data (readFirst data) (Place.readFirst data) := by
  rw [readFirst, Place.readFirst]
  split
  next => exact .error _
  next => exact (in_start data).follows_readInner hsize _

end Cursor

/-! ## Outputs behind a header code -/

/-- Reads an output behind its header code. -/
def Cursor.readOutput (code : ℕ) (c : Cursor) : Except Error (SpentOutput × Cursor) :=
  match Header.ofCode code c.pos with
  | .error e => .error e
  | .ok header =>
    match c.read TxOut.decode with
    | .error e => .error e
    | .ok (out, next) => .ok (⟨header, out⟩, next)

/-- Reads an output behind its header code, at a place. -/
def Place.readOutput (code : ℕ) (p : Place) : Option (Except Error (SpentOutput × Place)) :=
  match Header.ofCode code p.pos with
  | .error e => some (.error e)
  | .ok header =>
    match p.read TxOut.decodeWord with
    | none => none
    | some (.error e) => some (.error e)
    | some (.ok (out, next)) => some (.ok (⟨header, out⟩, next))

lemma Cursor.In.follows_readOutput {data : Bytes} {c : Cursor} (hsize : data.length < UInt64.size)
    (hc : c.In data) (code : ℕ) :
    Follows data (c.readOutput code) ((c.place data).readOutput code) := by
  have hread := TxOut.countsIn.follows_read hc hsize
  rw [readOutput, Place.readOutput, hc.place_pos hsize]
  cases Header.ofCode code c.pos with
  | error e => exact .error e
  | ok header =>
    dsimp only
    generalize c.read TxOut.decode = outcome,
      (c.place data).read TxOut.decodeWord = atPlace at hread ⊢
    cases hread with
    | error e => exact .error e
    | ok out hnext => exact .ok _ hnext

/-! ## Coins -/

namespace Coin

/-- A record is a header code and an output, with nothing behind them. -/
lemma decode_eq_readOutput (data : Bytes) :
    decode data =
      match Cursor.readFirst data with
      | .error e => .error e
      | .ok (code, cursor) =>
        match cursor.readOutput code with
        | .error e => .error e
        | .ok (s, last) =>
          if last.atEnd then .ok s.toCoin else .error ⟨.coinTrailing last.remaining, last.pos⟩ := by
  rw [decode, Cursor.readFirst, Cursor.readInner]
  split
  next => rfl
  next =>
    cases (Cursor.start data).read (Vlq.decode 64) with
    | error e => rfl
    | ok field =>
      obtain ⟨code, cursor⟩ := field
      dsimp only
      split
      next => rfl
      next =>
        dsimp only
        rw [Cursor.readOutput]
        cases Header.ofCode code cursor.pos with
        | error e => rfl
        | ok header =>
          cases cursor.read TxOut.decode with
          | error e => rfl
          | ok field => rfl

/-- Reads a coin from a record that fills the data, at places. -/
def decodeWord (data : Bytes) : Option (Except Error Coin) :=
  match Place.readFirst data with
  | none => none
  | some (.error e) => some (.error e)
  | some (.ok (code, p)) =>
    match p.readOutput code with
    | none => none
    | some (.error e) => some (.error e)
    | some (.ok (s, last)) =>
      if last.atEnd then some (.ok s.toCoin)
      else last.remaining.map fun left => .error ⟨.coinTrailing left.toNat, last.pos⟩

/-- A coin is read at places as it is with cursors, so no move is too long. -/
lemma decodeWord_eq {data : Bytes} (hsize : data.length < UInt64.size) :
    decodeWord data = some (decode data) := by
  have hfirst := Cursor.follows_readFirst hsize
  rw [decodeWord, decode_eq_readOutput]
  generalize Cursor.readFirst data = outcome, Place.readFirst data = atPlace at hfirst ⊢
  cases hfirst with
  | error e => rfl
  | @ok code c hc =>
    have hread := hc.follows_readOutput hsize code
    dsimp only
    generalize c.readOutput code = outcome, (c.place data).readOutput code = atPlace at hread ⊢
    cases hread with
    | error e => rfl
    | @ok s last hlast =>
      have hleft : last.remaining < 2 ^ 64 := hlast.remaining_le.trans_lt hsize
      dsimp only
      rw [hlast.place_atEnd hsize, hlast.place_remaining hsize, hlast.place_pos hsize,
        Option.map_some, Word.toNat_ofNat_of_lt hleft]
      split <;> rfl

end Coin

/-! ## Spent outputs -/

namespace SpentOutput

/-- Reads a header code and the reserved number that it brings, at places. -/
def decodeHeaderWord (data : Bytes) : Option (Except Error (ℕ × Place)) :=
  match Place.readFirst data with
  | none => none
  | some (.error e) => some (.error e)
  | some (.ok (code, p)) =>
    if hasReserved code then
      match p.readInner .endsAfterReserved with
      | none => none
      | some (.error e) => some (.error e)
      | some (.ok (_, next)) => some (.ok (code, next))
    else some (.ok (code, p))

lemma follows_decodeHeader {data : Bytes} (hsize : data.length < UInt64.size) :
    Cursor.Follows data (decodeHeader data) (decodeHeaderWord data) := by
  have hfirst := Cursor.follows_readFirst hsize
  rw [decodeHeader_eq_readFirst, decodeHeaderWord]
  generalize Cursor.readFirst data = outcome, Place.readFirst data = atPlace at hfirst ⊢
  cases hfirst with
  | error e => exact .error e
  | @ok code c hc =>
    have hread := hc.follows_readInner hsize .endsAfterReserved
    dsimp only
    split
    next =>
      generalize c.readInner .endsAfterReserved = outcome,
        (c.place data).readInner .endsAfterReserved = atPlace at hread ⊢
      cases hread with
      | error e => exact .error e
      | ok n hnext => exact .ok code hnext
    next => exact .ok code hc

/-- Reads an entry behind the header code `remembered`, at places. -/
def decodeAfterWord (remembered : Option ℕ) (data : Bytes) :
    Option (Except Error (Decoded SpentOutput) × Option ℕ) :=
  match decodeHeaderWord data with
  | none => none
  | some (.error e) => some (.error e, remembered)
  | some (.ok (code, p)) =>
    match p.readOutput (repeated remembered code) with
    | none => none
    | some (.error e) => some (.error e, remember remembered code)
    | some (.ok (s, last)) => some (.ok ⟨s, last.pos⟩, remember remembered code)

lemma decodeOutput_eq_readOutput (code : ℕ) (c : Cursor) :
    decodeOutput code c = (c.readOutput code).map fun field => ⟨field.1, field.2.pos⟩ := by
  rw [decodeOutput, Cursor.readOutput]
  cases Header.ofCode code c.pos with
  | error e => rfl
  | ok header =>
    cases c.read TxOut.decode with
    | error e => rfl
    | ok field => rfl

/-- An entry is read at places as it is with cursors, so no move is too long. -/
lemma decodeAfterWord_eq (remembered : Option ℕ) {data : Bytes} (hsize : data.length < UInt64.size) :
    decodeAfterWord remembered data = some (decodeAfter remembered data) := by
  have hheader := follows_decodeHeader hsize
  rw [decodeAfterWord, decodeAfter]
  generalize decodeHeader data = outcome, decodeHeaderWord data = atPlace at hheader ⊢
  cases hheader with
  | error e => rfl
  | @ok code c hc =>
    have hread := hc.follows_readOutput hsize (repeated remembered code)
    dsimp only
    rw [decodeOutput_eq_readOutput]
    generalize c.readOutput (repeated remembered code) = outcome,
      (c.place data).readOutput (repeated remembered code) = atPlace at hread ⊢
    cases hread with
    | error e => rfl
    | @ok s last hlast =>
      dsimp only
      rw [hlast.place_pos hsize]
      rfl

end SpentOutput

end CoinLedger
