import Mathlib
import CoinLedger.Proofs.Ledger.Operations
import CoinLedger.Proofs.Record.Complaints
import CoinLedger.Proofs.TipSet.Prefix

/-!
# Reading a damaged store

A store may hold any bytes in any slot.  `FaithfulRead` is what a read of a record owes to the bytes in
its slot: the value that they decode to, or that there is none, or that they are damaged where they are
malformed, or the decoder's own failure where they break a bound.  Every store is read in this way for
coins and spend journals, and for tips in the way of `FaithfulTips` (`reads_faithful`).

The four cases exclude each other because a decoder never says that a record is absent or damaged
(`FailsOnInput`), and they are all the cases, so no read ever says that its input is malformed.
-/

namespace CoinLedger

/-! ## Kinds of codes -/

lemma Error.kind_eq_of_code {e : Error} {c : ErrorCode} (h : e.code = c) : e.kind = c.kind :=
  congrArg ErrorCode.kind h

namespace Ledger

open Log (Traced)

/-! ## What a read owes to the stored bytes -/

section Faithful

variable {α : Type}

/-- The outcome of reading a record is faithful to the bytes in its slot, where `absent` is what is
read for a slot without a value, if anything is. -/
structure FaithfulRead (s : Store) (slot : Slot) (what : Text) (absent : Option α)
    (decode : Bytes → Except Error α) (outcome : Except Error α) : Prop where
  /-- What is read is what the bytes decode to, or what stands for their absence. -/
  ok_iff : ∀ a, outcome = .ok a ↔
    (∃ data, s.find? slot = some data ∧ decode data = .ok a) ∨
      (s.find? slot = none ∧ absent = some a)
  /-- A record is not found if there are no bytes and nothing stands for their absence. -/
  notFound_iff : ∀ e, (outcome = .error e ∧ e.code = .storageNotFound) ↔
    (s.find? slot = none ∧ absent = none) ∧ e = ⟨.noEntry slot.bucket, 0⟩
  /-- A record is damaged if the bytes are malformed, and counts what the decoder had read. -/
  corrupt_iff : ∀ e, (outcome = .error e ∧ e.code = .storageCorrupt) ↔
    ∃ data cause, s.find? slot = some data ∧ decode data = .error cause ∧
      cause.kind = .malformed ∧ e = ⟨.damaged what cause.fault, cause.bytesRead⟩
  /-- Any other failure of the decoder is an internal error and stays as it is. -/
  internal_iff : ∀ e, (outcome = .error e ∧ e.code = .internalError) ↔
    ∃ data, s.find? slot = some data ∧ decode data = .error e ∧ e.kind ≠ .malformed
  /-- There are no other failures. -/
  code_of_error : ∀ e, outcome = .error e →
    e.code = .storageNotFound ∨ e.code = .storageCorrupt ∨ e.code = .internalError

/-- A faithful read never says that its input is malformed. -/
lemma FaithfulRead.kind_ne_malformed {s : Store} {slot : Slot} {what : Text} {absent : Option α}
    {decode : Bytes → Except Error α} {outcome : Except Error α}
    (h : FaithfulRead s slot what absent decode outcome) {e : Error} (herror : outcome = .error e) :
    e.kind ≠ .malformed := by
  rcases h.code_of_error e herror with hcode | hcode | hcode
  all_goals
    rw [Error.kind_eq_of_code hcode]
    decide

variable {s : Store} {slot : Slot} {decode : Bytes → Except Error α}

/-- Of a failure with a known code. -/
lemma error_and_code_iff {e₀ : Error} {c₀ : ErrorCode} (h : e₀.code = c₀) (e : Error)
    (c : ErrorCode) : ((.error e₀ : Except Error α) = .error e ∧ e.code = c) ↔ e = e₀ ∧ c₀ = c := by
  rw [Except.error.injEq]
  constructor
  · rintro ⟨rfl, rfl⟩
    exact ⟨rfl, h.symm⟩
  · rintro ⟨rfl, rfl⟩
    exact ⟨rfl, h⟩

/-- A slot without a value is read faithfully. -/
lemma faithfulRead_of_none (hfind : s.find? slot = none) (what : Text) (absent : Option α) :
    FaithfulRead s slot what absent decode
      (absent.elim (.error ⟨.noEntry slot.bucket, 0⟩) .ok) := by
  cases absent with
  | some a => constructor <;> simp [hfind, eq_comm]
  | none =>
    have hcode : (⟨.noEntry slot.bucket, 0⟩ : Error).code = .storageNotFound := rfl
    have hcorrupt : ErrorCode.storageNotFound ≠ .storageCorrupt := by decide
    have hinternal : ErrorCode.storageNotFound ≠ .internalError := by decide
    rw [Option.elim_none]
    constructor
    · simp [hfind]
    · intro e
      rw [error_and_code_iff hcode]
      simp [hfind]
    · intro e
      rw [error_and_code_iff hcode]
      simp [hfind, hcorrupt]
    · intro e
      rw [error_and_code_iff hcode]
      simp [hfind, hinternal]
    · rintro e ⟨⟩
      exact Or.inl hcode

/-- Malformed bytes are read faithfully if they are reported as damage. -/
lemma faithfulRead_of_malformed {data : Bytes} (hfind : s.find? slot = some data) {cause : Error}
    (hdecode : decode data = .error cause) (hkind : cause.kind = .malformed) (what : Text)
    (absent : Option α) :
    FaithfulRead s slot what absent decode (.error ⟨.damaged what cause.fault, cause.bytesRead⟩) := by
  have hcode : (⟨.damaged what cause.fault, cause.bytesRead⟩ : Error).code = .storageCorrupt := rfl
  have hnotFound : ErrorCode.storageCorrupt ≠ .storageNotFound := by decide
  have hinternal : ErrorCode.storageCorrupt ≠ .internalError := by decide
  constructor
  · simp [hfind, hdecode]
  · intro e
    rw [error_and_code_iff hcode]
    simp [hfind, hnotFound]
  · intro e
    rw [error_and_code_iff hcode]
    simp [hfind, hdecode, hkind]
  · intro e
    rw [error_and_code_iff hcode]
    simp only [hfind, hinternal, and_false, false_iff, not_exists, Option.some.injEq]
    rintro data' ⟨rfl, hsame, hother⟩
    rw [hdecode] at hsame
    cases hsame
    exact hother hkind
  · rintro e ⟨⟩
    exact Or.inr (Or.inl hcode)

/-- Bytes that break a bound are read faithfully if the failure stays as it is. -/
lemma faithfulRead_of_internalError {data : Bytes} (hfind : s.find? slot = some data) {cause : Error}
    (hdecode : decode data = .error cause) (hcode : cause.code = .internalError) (what : Text)
    (absent : Option α) : FaithfulRead s slot what absent decode (.error cause) := by
  have hkind : cause.kind ≠ .malformed := by
    rw [Error.kind_eq_of_code hcode]
    decide
  have hnotFound : ErrorCode.internalError ≠ .storageNotFound := by decide
  have hcorrupt : ErrorCode.internalError ≠ .storageCorrupt := by decide
  constructor
  · simp [hfind, hdecode]
  · intro e
    rw [error_and_code_iff hcode]
    simp [hfind, hnotFound]
  · intro e
    rw [error_and_code_iff hcode]
    simp [hfind, hdecode, hkind, hcorrupt]
  · intro e
    rw [error_and_code_iff hcode]
    simp only [hfind, and_true, Option.some.injEq]
    constructor
    · rintro rfl
      exact ⟨data, rfl, hdecode, hkind⟩
    · rintro ⟨data', rfl, hsame, -⟩
      rw [hdecode] at hsame
      exact (Except.error.inj hsame).symm
  · rintro e ⟨⟩
    exact Or.inr (Or.inr hcode)

/-- Bytes are read faithfully if a complaint of their decoder about the input is reported. -/
lemma faithfulRead_of_some {data : Bytes} (hfind : s.find? slot = some data)
    (hfails : FailsOnInput (decode data)) {t : Traced α} (ht : t.outcome = decode data) (what : Text)
    (absent : Option α) :
    FaithfulRead s slot what absent decode (reportDamage what t).outcome := by
  cases hdecode : decode data with
  | ok a =>
    rw [outcome_reportDamage_of_ok (ht.trans hdecode)]
    constructor <;> simp [hfind, hdecode]
  | error cause =>
    have houtcome : (reportDamage what t).outcome = .error (damage what cause) := by
      unfold reportDamage
      rw [ht, hdecode]
    rw [houtcome]
    rcases hfails cause hdecode with hkind | hcode
    · rw [damage, if_pos hkind]
      exact faithfulRead_of_malformed hfind hdecode hkind what absent
    · have hkind : cause.kind ≠ .malformed := by
        rw [Error.kind_eq_of_code hcode]
        decide
      rw [damage, if_neg hkind]
      exact faithfulRead_of_internalError hfind hdecode hcode what absent

end Faithful

/-! ## The reads of the ledger -/

variable (s : Store)

lemma faithfulRead_getCoin (o : OutPoint) :
    FaithfulRead s (coinSlot o) (coinName o) none Coin.decode (getCoin s o).outcome := by
  unfold getCoin
  cases hfind : s.find? (coinSlot o) with
  | none =>
    rw [get_of_none hfind]
    exact faithfulRead_of_none hfind (coinName o) none
  | some data =>
    rw [get_of_some hfind]
    refine faithfulRead_of_some hfind (Coin.failsOnInput_decode data) ?_ (coinName o) none
    rw [Log.decodeCoin, Traced.outcome_onError, Traced.outcome_ofOutcome]

/-- The journal that stands for the absence of a record: the empty one, for a block that spends
nothing. -/
def absentJournal (txs : List Transaction) : Option SpendJournal :=
  if Transaction.spentOutputs txs = 0 then some ⟨[]⟩ else none

lemma faithfulRead_getJournal (block : Hash) (txs : List Transaction) :
    FaithfulRead s (journalSlot block) (journalName block) (absentJournal txs)
      (fun data => SpendJournal.decode data txs) (getJournal s block txs).outcome := by
  cases hfind : s.find? (journalSlot block) with
  | none =>
    have habsent : (getJournal s block txs).outcome =
        (absentJournal txs).elim (.error ⟨.noEntry (journalSlot block).bucket, 0⟩) .ok := by
      rw [outcome_getJournal_of_none hfind, absentJournal]
      split <;> rfl
    rw [habsent]
    exact faithfulRead_of_none hfind (journalName block) (absentJournal txs)
  | some data =>
    unfold getJournal
    rw [get_of_some hfind]
    refine faithfulRead_of_some hfind (SpendJournal.failsOnInput_decode data txs) ?_
      (journalName block) (absentJournal txs)
    rw [Log.decodeJournal, Traced.outcome_onError, Traced.outcome_ofOutcome]

lemma outcome_getTips_eq :
    (getTips s).outcome = (s.find? tipSlot).elim (.error ⟨.noEntry stateBucket, 0⟩) TipSet.parse := by
  cases hfind : s.find? tipSlot with
  | none => exact outcome_getTips_of_none hfind
  | some data =>
    unfold getTips
    rw [get_of_some hfind]
    dsimp only
    rw [Traced.outcome_onError, Log.parseTips, Traced.outcome_onError, Traced.outcome_ofOutcome]
    rfl

/-- A set of tips is read as it is parsed: a text that is no such set is damaged already. -/
structure FaithfulTips (s : Store) (outcome : Except Error (List Hash)) : Prop where
  /-- What is read is what the text says. -/
  ok_iff : ∀ tips, outcome = .ok tips ↔
    ∃ data, s.find? tipSlot = some data ∧ TipSet.parse data = .ok tips
  /-- Tips are not found if there is no text. -/
  notFound_iff : ∀ e, (outcome = .error e ∧ e.code = .storageNotFound) ↔
    s.find? tipSlot = none ∧ e = ⟨.noEntry stateBucket, 0⟩
  /-- Tips are damaged if the text is refused, and the complaint stays as it is. -/
  corrupt_iff : ∀ e, (outcome = .error e ∧ e.code = .storageCorrupt) ↔
    ∃ data, s.find? tipSlot = some data ∧ TipSet.parse data = .error e
  /-- There are no other failures. -/
  code_of_error : ∀ e, outcome = .error e → e.code = .storageNotFound ∨ e.code = .storageCorrupt

lemma faithfulTips_getTips : FaithfulTips s (getTips s).outcome := by
  rw [outcome_getTips_eq]
  cases hfind : s.find? tipSlot with
  | none =>
    have hcode : (⟨.noEntry stateBucket, 0⟩ : Error).code = .storageNotFound := rfl
    have hcorrupt : ErrorCode.storageNotFound ≠ .storageCorrupt := by decide
    rw [Option.elim_none]
    constructor
    · simp [hfind]
    · intro e
      rw [error_and_code_iff hcode]
      simp [hfind]
    · intro e
      rw [error_and_code_iff hcode]
      simp [hfind, hcorrupt]
    · rintro e ⟨⟩
      exact Or.inl hcode
  | some data =>
    rw [Option.elim_some]
    constructor
    · simp [hfind]
    · intro e
      simp only [hfind, reduceCtorEq, false_and, iff_false, not_and]
      intro herror hcode
      rw [TipSet.code_of_parse herror] at hcode
      cases hcode
    · intro e
      simp only [hfind, Option.some.injEq, exists_eq_left', and_iff_left_iff_imp]
      exact TipSet.code_of_parse
    · intro e herror
      exact Or.inr (TipSet.code_of_parse herror)

/-- Whatever bytes a store holds, coins and journals are read faithfully to them, and tips too; and no
read says that its input is malformed. -/
theorem reads_faithful :
    (∀ o, FaithfulRead s (coinSlot o) (coinName o) none Coin.decode (getCoin s o).outcome) ∧
    (∀ block txs, FaithfulRead s (journalSlot block) (journalName block) (absentJournal txs)
      (fun data => SpendJournal.decode data txs) (getJournal s block txs).outcome) ∧
    FaithfulTips s (getTips s).outcome ∧
    ∀ e, ((∃ o, (getCoin s o).outcome = .error e) ∨
      (∃ block txs, (getJournal s block txs).outcome = .error e) ∨ (getTips s).outcome = .error e) →
        e.kind ≠ .malformed := by
  refine ⟨faithfulRead_getCoin s, faithfulRead_getJournal s, faithfulTips_getTips s, ?_⟩
  rintro e (⟨o, herror⟩ | ⟨block, txs, herror⟩ | herror)
  · exact (faithfulRead_getCoin s o).kind_ne_malformed herror
  · exact (faithfulRead_getJournal s block txs).kind_ne_malformed herror
  · rcases (faithfulTips_getTips s).code_of_error e herror with hcode | hcode
    all_goals
      rw [Error.kind_eq_of_code hcode]
      decide

/-- A store with a coin that is cut, one whose header code is too wide, a journal that is cut, and tips
that are cut. -/
def damagedStore : Store :=
  (((Store.empty.insert (coinSlot ⟨Hash.zero, 0⟩) [15]).insert (coinSlot ⟨Hash.zero, 1⟩)
    (List.replicate 11 0xff)).insert (journalSlot Hash.zero) [0, 0]).insert tipSlot
      (Text.ofString "[[1,")

/-- Each of these records is reported, and so is the absence of others. -/
theorem reads_faithful_damagedStore :
    (getCoin damagedStore ⟨Hash.zero, 0⟩).outcome =
      .error ⟨.damaged (coinName ⟨Hash.zero, 0⟩) .endsAfterHeader, 1⟩ ∧
    (getCoin damagedStore ⟨Hash.zero, 1⟩).outcome = .error ⟨.integerTooWide 64, 9⟩ ∧
    (getCoin damagedStore ⟨Hash.zero, 2⟩).outcome = .error ⟨.noEntry coinBucket, 0⟩ ∧
    (getJournal damagedStore Hash.zero [.withInputs 1]).outcome =
      .error ⟨.damaged (journalName Hash.zero) .endsAfterAmount, 2⟩ ∧
    (getJournal Store.empty Hash.zero [.coinbase]).outcome = .ok ⟨[]⟩ ∧
    (getTips damagedStore).outcome = .error ⟨.tipSet .endExpectedByte, 4⟩ := by
  obtain ⟨hcoin, hjournal, htips, -⟩ := reads_faithful damagedStore
  obtain ⟨-, hempty, -⟩ := reads_faithful Store.empty
  have hcut : damagedStore.find? (coinSlot ⟨Hash.zero, 0⟩) = some [15] := by decide
  have hwide : damagedStore.find? (coinSlot ⟨Hash.zero, 1⟩) = some (List.replicate 11 0xff) := by
    decide
  have hspent : damagedStore.find? (journalSlot Hash.zero) = some [0, 0] := by decide
  have htext : damagedStore.find? tipSlot = some (Text.ofString "[[1,") := by decide
  refine ⟨?_, ?_, ?_, ?_, ?_, ?_⟩
  · exact (((hcoin _).corrupt_iff _).mpr
      ⟨_, ⟨.endsAfterHeader, 1⟩, hcut, by decide, by decide, rfl⟩).1
  · exact (((hcoin _).internal_iff _).mpr ⟨_, hwide, by decide, by decide⟩).1
  · exact (((hcoin _).notFound_iff _).mpr ⟨⟨by decide, rfl⟩, rfl⟩).1
  · exact (((hjournal Hash.zero [.withInputs 1]).corrupt_iff _).mpr
      ⟨_, ⟨.endsAfterAmount, 2⟩, hspent, by decide, by decide, rfl⟩).1
  · exact ((hempty _ _).ok_iff _).mpr (Or.inr ⟨rfl, rfl⟩)
  · exact ((htips.corrupt_iff _).mpr ⟨_, htext, by decide⟩).1

end Ledger

end CoinLedger
