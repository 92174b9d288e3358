import Mathlib
import CoinLedger.Proofs.Record.Bounds
import CoinLedger.Proofs.Record.Coin

/-!
# Why a record is refused

A record is refused for an integer that outgrows its width, or for a fault of the input.  The former is
an error of the kind `internal` and the latter of the kind `malformed` (`Fault.Rejects`), and which of
the two it is can be said of the bytes alone.

`TxOut.Reaches`, `Coin.Reaches` and `SpentOutput.Reaches` list the integers to which reading comes, by the
written forms that stand in front of them.  `Classifies` says of an outcome that it complains about an
integer exactly if one overflows there, and that its other complaints are faults of the input.  It is
shown for one decoder after the other: an integer that overflows hides what stands behind it, and what is
in front of it has been read (`Classifies.bind`).

`failures_classified` is the statement for coins and spent outputs.
-/

namespace CoinLedger

/-! ## Faults of the input -/

/-- The faults for which a record is refused although every integer in it has room. -/
inductive Fault.Rejects : Fault → Prop
  /-- bytes are missing -/
  | missing {fault : Fault} (h : fault.code = .parseUnderflow) : Rejects fault
  /-- the header code carries a height of more than 32 bits -/
  | heightTooLarge {height : ℕ} (h : 2 ^ 32 ≤ height) : Rejects (.heightTooLarge height)
  /-- the amount code stands for more than 64 bits -/
  | amountTooLarge {code : ℕ} (h : 2 ^ 64 ≤ Amount.expand code) : Rejects (.amountTooLarge code)
  /-- the key of the script is not on the curve -/
  | scriptKeyInvalid : Rejects .scriptKeyInvalid
  /-- bytes follow the record of a coin -/
  | coinTrailing {count : ℕ} (h : 0 < count) : Rejects (.coinTrailing count)

lemma Fault.Rejects.kind_eq {fault : Fault} (h : fault.Rejects) : fault.kind = .malformed := by
  cases h with
  | missing h =>
    rw [Fault.kind, h]
    rfl
  | heightTooLarge => rfl
  | amountTooLarge => rfl
  | scriptKeyInvalid => rfl
  | coinTrailing => rfl

lemma Fault.kind_integerTooWide (bits : ℕ) : (Fault.integerTooWide bits).kind = .internal := rfl

lemma Fault.not_rejects_integerTooWide (bits : ℕ) : ¬ (Fault.integerTooWide bits).Rejects := by
  intro h
  have hkind := h.kind_eq
  rw [Fault.kind_integerTooWide] at hkind
  cases hkind

/-! ## Outcomes -/

/-- Whether an outcome complains about an integer exactly if one of that width overflows, and about
nothing else than faults of the input. -/
structure Classifies {α : Type} (overflows : ℕ → Prop) (outcome : Except Error α) : Prop where
  /-- The width of an integer is complained about exactly if the integer outgrows it. -/
  tooWide_iff : ∀ bits, (∃ k, outcome = .error ⟨.integerTooWide bits, k⟩) ↔ overflows bits
  /-- Any other complaint is about a fault of the input. -/
  rejects : ∀ e, outcome = .error e → (∃ bits, e.fault = .integerTooWide bits) ∨ e.fault.Rejects

namespace Classifies

variable {α β : Type} {overflows others : ℕ → Prop}

lemma congr {outcome : Except Error α} (h : Classifies overflows outcome)
    (hiff : ∀ bits, overflows bits ↔ others bits) : Classifies others outcome :=
  ⟨fun bits => (h.tooWide_iff bits).trans (hiff bits), h.rejects⟩

lemma of_ok (hnone : ∀ bits, ¬ overflows bits) (a : α) :
    Classifies overflows (.ok a : Except Error α) :=
  ⟨fun bits => iff_of_false (by simp) (hnone bits), nofun⟩

/-- A failure is classified by its fault. -/
lemma error_iff {e : Error} :
    Classifies overflows (.error e : Except Error α) ↔
      (∀ bits, e.fault = .integerTooWide bits ↔ overflows bits) ∧
        ((∃ bits, e.fault = .integerTooWide bits) ∨ e.fault.Rejects) := by
  have hfault : ∀ bits, (∃ k, (.error e : Except Error α) = .error ⟨.integerTooWide bits, k⟩) ↔
      e.fault = .integerTooWide bits := by
    intro bits
    obtain ⟨fault, k⟩ := e
    simp
  constructor
  · intro h
    refine ⟨?_, h.rejects e rfl⟩
    intro bits
    rw [← hfault, h.tooWide_iff]
  · rintro ⟨hwide, hrejects⟩
    refine ⟨fun bits => (hfault bits).trans (hwide bits), ?_⟩
    intro e' he
    cases he
    exact hrejects

lemma of_rejects (hnone : ∀ bits, ¬ overflows bits) {e : Error} (h : e.fault.Rejects) :
    Classifies overflows (.error e : Except Error α) := by
  refine error_iff.mpr ⟨fun bits => iff_of_false ?_ (hnone bits), Or.inr h⟩
  intro hfault
  rw [hfault] at h
  exact Fault.not_rejects_integerTooWide bits h

/-- It does not matter where a fault is found and what was wanted there. -/
lemma error_of_fault_eq {e e' : Error} (h : Classifies overflows (.error e : Except Error α))
    (hfault : e'.fault = e.fault) : Classifies overflows (.error e' : Except Error β) := by
  rw [error_iff] at h ⊢
  rwa [hfault]

/-- Where a value is read nothing overflows. -/
lemma not_overflows {outcome : Except Error α} {a : α} (h : Classifies overflows outcome)
    (hok : outcome = .ok a) (bits : ℕ) : ¬ overflows bits := by
  rw [← h.tooWide_iff, hok]
  simp

/-- A reader may report a fault of the input as missing bytes, as long as it passes on what is said of
an integer that overflows. -/
lemma ite_malformed {e passed short : Error} (h : Classifies overflows (.error e : Except Error α))
    (hpassed : passed.fault = e.fault) (hshort : short.code = .parseUnderflow) :
    Classifies overflows
      (if e.kind = .malformed then .error short else .error passed : Except Error β) := by
  split
  next hkind =>
    obtain ⟨hwide, -⟩ := error_iff.mp h
    refine .of_rejects ?_ (.missing hshort)
    intro bits hover
    have hfault : e.fault.kind = .malformed := hkind
    rw [(hwide bits).mpr hover, Fault.kind_integerTooWide] at hfault
    cases hfault
  next => exact h.error_of_fault_eq hpassed

/-- It does not matter what is made of a value. -/
lemma map {outcome : Except Error α} (h : Classifies overflows outcome) (f : α → β) :
    Classifies overflows (outcome.map f) := by
  cases outcome with
  | error e => exact h.error_of_fault_eq rfl
  | ok a => exact .of_ok (h.not_overflows rfl) (f a)

/-- What overflows in two steps overflows in the first, or in the second one behind what the first one
has read. -/
lemma bind {first : Except Error α} {second : α → Except Error β} {behind : α → ℕ → Prop}
    (hfirst : Classifies overflows first)
    (hsecond : ∀ a, first = .ok a → Classifies (behind a) (second a)) :
    Classifies (fun bits => overflows bits ∨ ∃ a, first = .ok a ∧ behind a bits)
      (first.bind second) := by
  cases first with
  | error e =>
    refine (hfirst.error_of_fault_eq rfl).congr ?_
    simp
  | ok a =>
    refine (hsecond a rfl).congr ?_
    intro bits
    rw [or_iff_right (hfirst.not_overflows rfl bits)]
    simp

end Classifies

/-- A field at a cursor is classified as its decoder does. -/
lemma Cursor.classifies_read {α : Type} {decode : Bytes → Except Error (Decoded α)}
    {overflows : ℕ → Prop} {cursor : Cursor} (h : Classifies overflows (decode cursor.rest)) :
    Classifies overflows (Cursor.read decode cursor) := by
  rw [Cursor.read]
  cases hdecode : decode cursor.rest with
  | error e =>
    rw [hdecode] at h
    exact h.error_of_fault_eq rfl
  | ok d => exact .of_ok (h.not_overflows hdecode) _

/-! ## Integers -/

namespace Vlq

/-- An integer is complained about if it overflows or if bytes are missing. -/
lemma classifies_decode {bits : ℕ} (hbits : 7 ≤ bits) (data : Bytes) :
    Classifies (fun width => width = bits ∧ Overflows bits data) (decode bits data) := by
  refine ⟨?_, ?_⟩
  · intro width
    constructor
    · rintro ⟨k, herror⟩
      rcases tooWide_or_short_of_decode hbits herror with hfault | ⟨hcode, -⟩
      · cases hfault
        exact ⟨rfl, (decode_tooWide_iff hbits).mp ⟨k, herror⟩⟩
      · have hcode : ErrorCode.internalError = .parseUnderflow := hcode
        exact absurd hcode (by decide)
    · rintro ⟨rfl, hover⟩
      exact (decode_tooWide_iff hbits).mpr hover
  · intro e herror
    rcases tooWide_or_short_of_decode hbits herror with hfault | ⟨hcode, -⟩
    · exact Or.inl ⟨bits, hfault⟩
    · exact Or.inr (.missing hcode)

end Vlq

namespace Cursor

/-- An integer with something behind it is complained about if it overflows or if nothing follows. -/
lemma classifies_readInner (ends : Fault) (hends : ends.code = .parseUnderflow) (cursor : Cursor) :
    Classifies (fun width => width = 64 ∧ Vlq.Overflows 64 cursor.rest)
      (readInner ends cursor) := by
  have hread := classifies_read (Vlq.classifies_decode (show 7 ≤ 64 by omega) cursor.rest)
  rw [readInner]
  cases hdecode : cursor.read (Vlq.decode 64) with
  | error e =>
    rw [hdecode] at hread
    exact hread.error_of_fault_eq rfl
  | ok field =>
    dsimp only
    split
    next => exact .of_rejects (hread.not_overflows hdecode) (.missing hends)
    next => exact .of_ok (hread.not_overflows hdecode) _

lemma classifies_readFirst (data : Bytes) :
    Classifies (fun width => width = 64 ∧ Vlq.Overflows 64 data) (readFirst data) := by
  rw [readFirst]
  split
  next hempty =>
    refine .of_rejects ?_ (.missing rfl)
    rintro width ⟨-, hover⟩
    exact hover.ne_nil hempty
  next => exact classifies_readInner .endsAfterHeader rfl (start data)

end Cursor

/-! ## The integers that are reached -/

/-- The integers of a record. -/
inductive IntegerField where
  /-- the header code -/
  | header
  /-- the reserved number of an entry -/
  | reserved
  /-- the amount code of an output -/
  | amount
  /-- the tag of a script -/
  | scriptTag
  deriving DecidableEq

/-- The width of an integer of a record. -/
def IntegerField.bits : IntegerField → ℕ
  | header => 64
  | reserved => 64
  | amount => 128
  | scriptTag => 64

/-- The integers to which reading an output comes, each with the bytes from there on. -/
inductive TxOut.Reaches : Bytes → IntegerField → Bytes → Prop
  /-- the amount code stands in front -/
  | amount (data : Bytes) : Reaches data .amount data
  /-- the tag of the script stands behind an amount code, whether or not the amount fits -/
  | scriptTag (code : ℕ) (rest : Bytes) (hcode : code < 2 ^ 128) (hrest : rest ≠ []) :
    Reaches (Vlq.encode code ++ rest) .scriptTag rest

/-- The integers to which reading a coin comes, each with the bytes from there on. -/
inductive Coin.Reaches : Bytes → IntegerField → Bytes → Prop
  /-- the header code stands in front -/
  | header (data : Bytes) (hdata : data ≠ []) : Reaches data .header data
  /-- the integers of the output stand behind a header code, if it carries a height -/
  | output (code : ℕ) (body : Bytes) (field : IntegerField) (rest : Bytes)
    (hheight : code / 2 < 2 ^ 32) (hbody : body ≠ []) (h : TxOut.Reaches body field rest) :
    Reaches (Vlq.encode code ++ body) field rest

/-- The integers to which reading a spent output comes, each with the bytes from there on. -/
inductive SpentOutput.Reaches : Bytes → IntegerField → Bytes → Prop
  /-- the header code stands in front -/
  | header (data : Bytes) (hdata : data ≠ []) : Reaches data .header data
  /-- the reserved number stands behind a header code for a height above 0, however large -/
  | reserved (code : ℕ) (rest : Bytes) (hcode : code < 2 ^ 64) (hheight : 0 < code / 2)
    (hrest : rest ≠ []) : Reaches (Vlq.encode code ++ rest) .reserved rest
  /-- at height 0 the integers of the output stand behind the header code -/
  | lowOutput (code : ℕ) (body : Bytes) (field : IntegerField) (rest : Bytes)
    (hheight : code / 2 = 0) (hbody : body ≠ []) (h : TxOut.Reaches body field rest) :
    Reaches (Vlq.encode code ++ body) field rest
  /-- above it they stand behind the reserved number, if the header code carries a height -/
  | output (code n : ℕ) (body : Bytes) (field : IntegerField) (rest : Bytes)
    (hlow : 0 < code / 2) (hheight : code / 2 < 2 ^ 32) (hn : n < 2 ^ 64) (hbody : body ≠ [])
    (h : TxOut.Reaches body field rest) :
    Reaches (Vlq.encode code ++ (Vlq.encode n ++ body)) field rest

/-- Whether an integer of a given width overflows among those that are reached. -/
def ReachesOverflow (reaches : IntegerField → Bytes → Prop) (bits : ℕ) : Prop :=
  ∃ field rest, reaches field rest ∧ field.bits = bits ∧ Vlq.Overflows bits rest

/-! ## Outputs -/

namespace Script

/-- The length of a script is not found if its tag is not read, or if it is too large. -/
lemma error_cases_of_readSize {data : Bytes} {e : Error} (h : readSize data = .error e) :
    Vlq.decode 64 data = .error e ∨
      ∃ tag, Vlq.decode 64 data = .ok tag ∧ e.kind = .malformed := by
  rw [readSize] at h
  cases htag : Vlq.decode 64 data with
  | error e' =>
    rw [htag] at h
    cases h
    exact Or.inl rfl
  | ok tag =>
    rw [htag] at h
    dsimp only at h
    split at h
    next => cases h
    next =>
      split at h <;> cases h
      exact Or.inr ⟨tag, rfl, rfl⟩

/-- Behind a tag that is read, a script is refused for missing bytes or for its key. -/
lemma rejects_of_decompress {data : Bytes} {tag : Decoded ℕ} {e : Error}
    (htag : Vlq.decode 64 data = .ok tag) (h : decompress data = .error e) : e.fault.Rejects := by
  rw [decompress, htag] at h
  dsimp only at h
  split at h
  next =>
    split at h
    next =>
      cases h
      exact .missing rfl
    next =>
      unfold ofTemplate at h
      split at h <;> try cases h
      split at h <;> cases h
      exact .scriptKeyInvalid
  next =>
    split at h <;> cases h
    exact .missing rfl

end Script

namespace TxOut

/-- Behind an amount code the tag of the script is complained about if it overflows. -/
lemma classifies_decodeScript (code offset : ℕ) (rest : Bytes) :
    Classifies (fun width => width = 64 ∧ Vlq.Overflows 64 rest)
      (decodeScript code offset rest) := by
  have htag := Vlq.classifies_decode (show 7 ≤ 64 by omega) rest
  rw [decodeScript]
  cases hsize : Script.readSize rest with
  | error e =>
    rcases Script.error_cases_of_readSize hsize with hdecode | ⟨tag, hdecode, hkind⟩
    · rw [hdecode] at htag
      exact htag.ite_malformed rfl rfl
    · dsimp only
      rw [if_pos hkind]
      exact .of_rejects (htag.not_overflows hdecode) (.missing rfl)
  | ok size =>
    obtain ⟨tag, hdecode⟩ := Script.exists_tag_of_readSize hsize
    obtain ⟨inner, hinner⟩ := Script.exists_tag_of_readSize (Script.readSize_take hsize).2
    have hnone := htag.not_overflows hdecode
    dsimp only
    split
    next => exact .of_rejects hnone (.missing rfl)
    next =>
      cases hamount : Amount.decompress code with
      | error e =>
        rw [Amount.decompress] at hamount
        split at hamount <;> cases hamount
        next hlarge => exact .of_rejects hnone (.amountTooLarge (not_lt.mp hlarge))
      | ok amount =>
        dsimp only
        cases hscript : Script.decompress (rest.take size) with
        | error e =>
          have hrejects := Script.rejects_of_decompress hinner hscript
          exact .of_rejects hnone hrejects
        | ok script => exact .of_ok hnone _

/-- What overflows in an output: the amount code, or behind one that is read the tag of the script. -/
lemma reachesOverflow_iff {data : Bytes} {bits : ℕ} :
    ReachesOverflow (Reaches data) bits ↔ (bits = 128 ∧ Vlq.Overflows 128 data) ∨
      ∃ code, Vlq.decode 128 data = .ok code ∧
        code.bytesRead < data.length ∧ bits = 64 ∧ Vlq.Overflows 64 (data.drop code.bytesRead) := by
  constructor
  · rintro ⟨field, rest, hreaches, rfl, hover⟩
    cases hreaches with
    | amount => exact Or.inl ⟨rfl, hover⟩
    | scriptTag code _ hcode hrest =>
      refine Or.inr ⟨_, Vlq.decode_encode_append_of_lt (by omega) hcode rest, ?_, rfl, ?_⟩
      · rw [List.length_append]
        exact Nat.lt_add_of_pos_right (List.length_pos_iff.mpr hrest)
      · rwa [List.drop_left]
  · rintro (⟨rfl, hover⟩ | ⟨⟨code, k⟩, hdecode, hmore, rfl, hover⟩)
    · exact ⟨.amount, data, .amount data, rfl, hover⟩
    · obtain ⟨hcode, hk, rest, rfl⟩ := (Vlq.decode_eq_ok_iff_encode (by omega)).mp hdecode
      rw [hk, List.drop_left' (Vlq.length_encode code)] at hover
      exact ⟨.scriptTag, rest, .scriptTag code rest hcode hover.ne_nil, rfl, hover⟩

/-- An output is refused for an integer in it that overflows, or for a fault of the input. -/
lemma classifies_decode (data : Bytes) :
    Classifies (ReachesOverflow (Reaches data)) (decode data) := by
  have hamount := Vlq.classifies_decode (show 7 ≤ 128 by omega) data
  refine Classifies.congr ?_ (fun bits => reachesOverflow_iff.symm)
  rw [decode]
  cases hdecode : Vlq.decode 128 data with
  | error e =>
    rw [hdecode] at hamount
    refine (hamount.ite_malformed rfl rfl).congr ?_
    simp
  | ok code =>
    have hnone := hamount.not_overflows hdecode
    dsimp only
    split
    next hended =>
      refine .of_rejects ?_ (.missing rfl)
      rintro width (hover | ⟨code', hcode', hmore, -⟩)
      · exact hnone width hover
      · cases hcode'
        omega
    next hmore =>
      refine (classifies_decodeScript code.value code.bytesRead (data.drop code.bytesRead)).congr ?_
      intro width
      rw [or_iff_right (hnone width)]
      simp [not_le.mp hmore]

end TxOut

/-! ## Outputs behind a header code -/

namespace SpentOutput

/-- Behind a header code the integers of the output are reached if the code carries a height. -/
lemma classifies_decodeOutput (code : ℕ) (cursor : Cursor) :
    Classifies (fun width => code / 2 < 2 ^ 32 ∧
      ReachesOverflow (TxOut.Reaches cursor.rest) width) (decodeOutput code cursor) := by
  rw [decodeOutput, Header.ofCode, Header.heightOfCode]
  by_cases hheight : code / 2 < UInt32.size
  · have hout := Cursor.classifies_read (TxOut.classifies_decode cursor.rest)
    refine Classifies.congr ?_ (fun width => (and_iff_right hheight).symm)
    rw [if_pos hheight]
    dsimp only
    cases hread : cursor.read TxOut.decode with
    | error e =>
      rw [hread] at hout
      exact hout.error_of_fault_eq rfl
    | ok field => exact .of_ok (hout.not_overflows hread) _
  · rw [if_neg hheight]
    refine .of_rejects ?_ (.heightTooLarge (not_lt.mp hheight))
    rintro width ⟨hlow, -⟩
    exact hheight hlow

/-- What overflows behind a header code is an integer in front of the output, or one of the output if the
header code that is meant carries a height. -/
lemma classifies_decodeBehind {readHeader : Bytes → Except Error (ℕ × Cursor)}
    {overflows : ℕ → Prop} {data : Bytes} (h : Classifies overflows (readHeader data))
    (meant : ℕ → ℕ) :
    Classifies (fun width => overflows width ∨ ∃ field, readHeader data = .ok field ∧
      meant field.1 / 2 < 2 ^ 32 ∧ ReachesOverflow (TxOut.Reaches field.2.rest) width)
      (decodeBehind readHeader meant data) := by
  have heq : decodeBehind readHeader meant data =
      (readHeader data).bind (fun field => decodeOutput (meant field.1) field.2) := by
    rw [decodeBehind]
    cases readHeader data <;> rfl
  rw [heq]
  exact h.bind (fun field _ => classifies_decodeOutput _ _)

/-- In front of the output of an entry its header code may overflow, and behind the header code the
reserved number. -/
lemma classifies_decodeHeader (data : Bytes) :
    Classifies (fun width => (width = 64 ∧ Vlq.Overflows 64 data) ∨
      ∃ field, Cursor.readFirst data = .ok field ∧
        hasReserved field.1 = true ∧ width = 64 ∧ Vlq.Overflows 64 field.2.rest)
      (decodeHeader data) := by
  have heq : decodeHeader data = (Cursor.readFirst data).bind (fun field =>
      if hasReserved field.1 then
        (field.2.readInner .endsAfterReserved).map (fun inner => (field.1, inner.2))
      else .ok field) := by
    rw [decodeHeader_eq_readFirst]
    cases Cursor.readFirst data with
    | error e => rfl
    | ok field =>
      simp only [Except.bind]
      cases field.2.readInner .endsAfterReserved <;> rfl
  rw [heq]
  refine (Cursor.classifies_readFirst data).bind ?_
  rintro ⟨code, cursor⟩ -
  split
  next hhas =>
    have hinner := Cursor.classifies_readInner .endsAfterReserved rfl cursor
    exact (hinner.map _).congr (fun width => (and_iff_right hhas).symm)
  next hhas => exact .of_ok (fun width h => hhas h.1) _

lemma decodeHeader_append_of_low {code : ℕ} {body : Bytes} (hheight : code / 2 = 0)
    (hbody : body ≠ []) :
    decodeHeader (Vlq.encode code ++ body) = .ok (code, ⟨(Vlq.encode code).length, body⟩) := by
  have hfirst := Cursor.readFirst_append (by omega : code < 2 ^ 64) hbody
  have hhas : ¬ hasReserved code = true := by
    rw [hasReserved_iff]
    omega
  refine decodeHeader_eq_ok_iff.mpr ⟨_, hfirst, ?_⟩
  rw [if_neg hhas]

lemma decodeHeader_append_of_pos {code n : ℕ} {body : Bytes} (hcode : code < 2 ^ 64)
    (hheight : 0 < code / 2) (hn : n < 2 ^ 64) (hbody : body ≠ []) :
    decodeHeader (Vlq.encode code ++ (Vlq.encode n ++ body)) =
      .ok (code, ⟨(Vlq.encode code).length + (Vlq.encode n).length, body⟩) := by
  have hfirst := Cursor.readFirst_append hcode
    (List.append_ne_nil_of_right_ne_nil (Vlq.encode n) hbody)
  refine decodeHeader_eq_ok_iff.mpr ⟨_, hfirst, ?_⟩
  rw [if_pos (hasReserved_iff.mpr hheight)]
  exact ⟨n, Cursor.readInner_eq_ok_iff.mpr ⟨hn, body, hbody, rfl, rfl⟩⟩

/-- The integers that overflow in an entry are those that are found in front of its output and in it. -/
lemma reachesOverflow_iff {data : Bytes} {bits : ℕ} :
    ReachesOverflow (Reaches data) bits ↔
      ((bits = 64 ∧ Vlq.Overflows 64 data) ∨ ∃ field, Cursor.readFirst data = .ok field ∧
        hasReserved field.1 = true ∧ bits = 64 ∧ Vlq.Overflows 64 field.2.rest) ∨
      ∃ field, decodeHeader data = .ok field ∧ repeated none field.1 / 2 < 2 ^ 32 ∧
        ReachesOverflow (TxOut.Reaches field.2.rest) bits := by
  constructor
  · rintro ⟨field, rest, hreaches, rfl, hover⟩
    cases hreaches with
    | header => exact Or.inl (Or.inl ⟨rfl, hover⟩)
    | reserved code _ hcode hheight hrest =>
      exact Or.inl (Or.inr ⟨_, Cursor.readFirst_append hcode hrest, hasReserved_iff.mpr hheight, rfl,
        hover⟩)
    | lowOutput code body _ _ hheight hbody h =>
      refine Or.inr ⟨_, decodeHeader_append_of_low hheight hbody, ?_, field, rest, h, rfl, hover⟩
      rw [repeated_none]
      omega
    | output code n body _ _ hlow hheight hn hbody h =>
      refine Or.inr ⟨_, decodeHeader_append_of_pos (by omega) hlow hn hbody, ?_, field, rest, h, rfl,
        hover⟩
      rwa [repeated_none]
  · rintro ((⟨rfl, hover⟩ | ⟨⟨code, cursor⟩, hfirst, hhas, rfl, hover⟩) |
      ⟨⟨code, cursor⟩, hheader, hheight, field, rest, h, rfl, hover⟩)
    · exact ⟨.header, data, .header data hover.ne_nil, rfl, hover⟩
    · obtain ⟨hcode, rest, hrest, rfl, rfl⟩ := Cursor.readFirst_eq_ok_iff.mp hfirst
      exact ⟨.reserved, rest, .reserved code rest hcode (hasReserved_iff.mp hhas) hrest, rfl, hover⟩
    · obtain ⟨inner, hfirst, hreserved⟩ := decodeHeader_eq_ok_iff.mp hheader
      obtain ⟨hcode, behind, hbehind, rfl, rfl⟩ := Cursor.readFirst_eq_ok_iff.mp hfirst
      rw [repeated_none] at hheight
      split at hreserved
      next hhas =>
        obtain ⟨n, hread⟩ := hreserved
        obtain ⟨hn, body, hbody, rfl, rfl⟩ := Cursor.readInner_eq_ok_iff.mp hread
        exact ⟨field, rest, .output code n body field rest (hasReserved_iff.mp hhas) hheight hn hbody h,
          rfl, hover⟩
      next hhas =>
        subst hreserved
        rw [hasReserved_iff, Nat.pos_iff_ne_zero, not_not] at hhas
        exact ⟨field, rest, .lowOutput code behind field rest hhas hbehind h, rfl, hover⟩

/-- An entry on its own is refused for an integer in it that overflows, or for a fault of the input. -/
lemma classifies_decode (data : Bytes) :
    Classifies (ReachesOverflow (Reaches data)) (decode data) := by
  rw [decode, decodeAfter_fst]
  exact (classifies_decodeBehind (classifies_decodeHeader data) (repeated none)).congr
    (fun bits => reachesOverflow_iff.symm)

end SpentOutput

/-! ## Coins -/

namespace Coin

/-- What overflows in the record of a coin: its header code, or behind it an integer of the output. -/
lemma reachesOverflow_iff {data : Bytes} {bits : ℕ} :
    ReachesOverflow (Reaches data) bits ↔ (bits = 64 ∧ Vlq.Overflows 64 data) ∨
      ∃ field, Cursor.readFirst data = .ok field ∧ id field.1 / 2 < 2 ^ 32 ∧
        ReachesOverflow (TxOut.Reaches field.2.rest) bits := by
  constructor
  · rintro ⟨field, rest, hreaches, rfl, hover⟩
    cases hreaches with
    | header => exact Or.inl ⟨rfl, hover⟩
    | output code body _ _ hheight hbody h =>
      have hfirst := Cursor.readFirst_append (by omega : code < 2 ^ 64) hbody
      exact Or.inr ⟨_, hfirst, hheight, field, rest, h, rfl, hover⟩
  · rintro (⟨rfl, hover⟩ | ⟨⟨code, cursor⟩, hfirst, hheight, field, rest, h, rfl, hover⟩)
    · exact ⟨.header, data, .header data hover.ne_nil, rfl, hover⟩
    · obtain ⟨-, body, hbody, rfl, rfl⟩ := Cursor.readFirst_eq_ok_iff.mp hfirst
      exact ⟨field, rest, .output code body field rest hheight hbody h, rfl, hover⟩

/-- The record of a coin is refused for an integer in it that overflows, or for a fault of the input. -/
lemma classifies_decode (data : Bytes) :
    Classifies (ReachesOverflow (Reaches data)) (decode data) := by
  have hfront : Classifies (ReachesOverflow (Reaches data)) (decodeFront data) :=
    (SpentOutput.classifies_decodeBehind (Cursor.classifies_readFirst data) id).congr
      (fun bits => reachesOverflow_iff.symm)
  rw [decode_eq_decodeFront]
  cases hread : decodeFront data with
  | error e =>
    rw [hread] at hfront
    exact hfront.error_of_fault_eq rfl
  | ok d =>
    have hnone := hfront.not_overflows hread
    have hle := (selfDelimiting_decodeFront.take_eq data d hread).1
    dsimp only
    split
    next => exact .of_ok hnone _
    next => exact .of_rejects hnone (.coinTrailing (by omega))

end Coin

/-! ## The two kinds of failures -/

/-- What is to be known of the failures of a decoder that comes to the integers `reaches`. -/
structure ClassifiesFailures {α : Type} (decode : Bytes → Except Error α)
    (reaches : Bytes → IntegerField → Bytes → Prop) : Prop where
  /-- A failure counts no more bytes than there are. -/
  bytesRead_le : ∀ data e, decode data = .error e → e.bytesRead ≤ data.length
  /-- There are two kinds of failures. -/
  kind_eq : ∀ data e, decode data = .error e → e.kind = .malformed ∨ e.kind = .internal
  /-- Decoding fails internally exactly if it comes to an integer that overflows its width. -/
  internal_iff : ∀ data, (∃ e, decode data = .error e ∧ e.kind = .internal) ↔
    ∃ field rest, reaches data field rest ∧ Vlq.Overflows field.bits rest
  /-- Such a failure names the width of the integer. -/
  fault_of_internal : ∀ data e, decode data = .error e → e.kind = .internal →
    ∃ field rest, reaches data field rest ∧ Vlq.Overflows field.bits rest ∧
      e.fault = .integerTooWide field.bits
  /-- All other rejections are the malformed ones. -/
  malformed_iff : ∀ data e, decode data = .error e → (e.kind = .malformed ↔ e.fault.Rejects)

/-- A failure is internal if it names a width, and malformed otherwise. -/
lemma Classifies.internal_iff {α : Type} {overflows : ℕ → Prop} {outcome : Except Error α} {e : Error}
    (h : Classifies overflows outcome) (herror : outcome = .error e) :
    e.kind = .internal ↔ ∃ bits, e.fault = .integerTooWide bits := by
  constructor
  · intro hkind
    rcases h.rejects e herror with hwide | hrejects
    · exact hwide
    · have hmalformed : e.kind = .malformed := hrejects.kind_eq
      rw [hmalformed] at hkind
      cases hkind
  · rintro ⟨bits, hfault⟩
    have hkind : e.kind = e.fault.kind := rfl
    rw [hkind, hfault, Fault.kind_integerTooWide]

lemma Classifies.malformed_iff {α : Type} {overflows : ℕ → Prop} {outcome : Except Error α}
    {e : Error} (h : Classifies overflows outcome) (herror : outcome = .error e) :
    e.kind = .malformed ↔ e.fault.Rejects := by
  refine ⟨?_, Fault.Rejects.kind_eq⟩
  intro hkind
  refine (h.rejects e herror).resolve_left ?_
  intro hwide
  rw [(h.internal_iff herror).mpr hwide] at hkind
  cases hkind

/-- A decoder classifies its failures if each of its outcomes is classified by the integers that are
reached, and if it fails within its input. -/
lemma classifiesFailures_of_classifies {α : Type} {decode : Bytes → Except Error α}
    {reaches : Bytes → IntegerField → Bytes → Prop}
    (hwithin : ∀ data, FailsWithin data.length (decode data))
    (h : ∀ data, Classifies (ReachesOverflow (reaches data)) (decode data)) :
    ClassifiesFailures decode reaches := by
  have hnamed : ∀ data e, decode data = .error e → e.kind = .internal →
      ∃ field rest, reaches data field rest ∧ Vlq.Overflows field.bits rest ∧
        e.fault = .integerTooWide field.bits := by
    intro data e herror hkind
    obtain ⟨bits, hfault⟩ := ((h data).internal_iff herror).mp hkind
    obtain ⟨fault, k⟩ := e
    obtain rfl : fault = .integerTooWide bits := hfault
    obtain ⟨field, rest, hreaches, rfl, hover⟩ := ((h data).tooWide_iff bits).mp ⟨k, herror⟩
    exact ⟨field, rest, hreaches, hover, rfl⟩
  refine ⟨hwithin, ?_, ?_, hnamed, fun data e herror => (h data).malformed_iff herror⟩
  · intro data e herror
    rcases (h data).rejects e herror with hwide | hrejects
    · exact Or.inr (((h data).internal_iff herror).mpr hwide)
    · exact Or.inl (((h data).malformed_iff herror).mpr hrejects)
  · intro data
    constructor
    · rintro ⟨e, herror, hkind⟩
      obtain ⟨field, rest, hreaches, hover, -⟩ := hnamed data e herror hkind
      exact ⟨field, rest, hreaches, hover⟩
    · rintro ⟨field, rest, hreaches, hover⟩
      obtain ⟨k, herror⟩ := ((h data).tooWide_iff field.bits).mpr ⟨field, rest, hreaches, rfl, hover⟩
      exact ⟨_, herror, rfl⟩

/-- The failures of reading coins and spent outputs are internal exactly if an integer to which reading
comes overflows its width, and malformed for missing bytes, a height or an amount that is too large, a
key that is not on the curve, or bytes behind the record. -/
theorem failures_classified :
    ClassifiesFailures Coin.decode Coin.Reaches ∧
      ClassifiesFailures SpentOutput.decode SpentOutput.Reaches :=
  ⟨classifiesFailures_of_classifies Coin.failsWithin_decode Coin.classifies_decode,
    classifiesFailures_of_classifies (SpentOutput.failsWithin_decodeAfter none)
      SpentOutput.classifies_decode⟩

/-- A header code for height 1, a number of 77 bits, and a single byte. -/
def wideReserved : Bytes := [2] ++ List.replicate 10 0xff ++ [0x7f, 0]

/-- In an entry that number is the reserved one and overflows; in the record of a coin it is the amount
code and has room, and what is missing is the hash behind the tag 0. -/
theorem failures_classified_wideReserved :
    (∃ e, SpentOutput.decode wideReserved = .error e ∧ e.kind = .internal ∧ e.bytesRead ≤ 13) ∧
    Coin.decode wideReserved = .error ⟨.endsAfterScriptSize, 12⟩ ∧
    (⟨.endsAfterScriptSize, 12⟩ : Error).kind = .malformed ∧
    ¬ ∃ field rest, Coin.Reaches wideReserved field rest ∧ Vlq.Overflows field.bits rest := by
  obtain ⟨hcoin, hspent⟩ := failures_classified
  have hreaches : SpentOutput.Reaches wideReserved .reserved (wideReserved.drop 1) :=
    .reserved 2 (wideReserved.drop 1) (by decide) (by decide) (by decide)
  have hover : Vlq.Overflows 64 (wideReserved.drop 1) :=
    (Vlq.overflows_iff_le_value (i := 10) (by omega) (by decide)).mpr (by decide)
  have hread : Coin.decode wideReserved = .error ⟨.endsAfterScriptSize, 12⟩ := by decide
  obtain ⟨e, herror, hkind⟩ := (hspent.internal_iff _).mpr ⟨_, _, hreaches, hover⟩
  have hmalformed : (⟨.endsAfterScriptSize, 12⟩ : Error).kind = .malformed :=
    (hcoin.malformed_iff _ _ hread).mpr (.missing rfl)
  refine ⟨⟨e, herror, hkind, hspent.bytesRead_le _ e herror⟩, hread, hmalformed, ?_⟩
  intro hoverflow
  obtain ⟨e', herror', hkind'⟩ := (hcoin.internal_iff _).mpr hoverflow
  rw [hread] at herror'
  cases herror'
  cases hmalformed.symm.trans hkind'

end CoinLedger
