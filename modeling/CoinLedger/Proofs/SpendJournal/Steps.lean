import Mathlib
import CoinLedger.SpendJournal

/-!
# Steps of a writer and of a reader

An entry that is offered to a writer is written under one of two header codes or refused
(`Writer.offer_cases`), and one that is refused leaves the writer as it is (`Writer.offer_of_error`).

Several entries are written if the first one is and then the others are, and it is the same with the
transactions of a block, and with reading.  Each of the other lemmas takes such a success apart into the step
in front and the rest.
-/

namespace CoinLedger.SpendJournal

namespace Writer

variable {w w' : Writer}

/-- An entry that is offered is written as a repeat of the header that is remembered, or in full, or it is
refused: its header code is 0 and another one is remembered. -/
lemma offer_cases (w : Writer) (s : SpentOutput) :
    (w.remembered = some s.header.code ∧
      w.offer s = (.ok (), ⟨w.bytes ++ s.encodeAs 0, some s.header.code⟩)) ∨
    (w.remembered ≠ some s.header.code ∧ (s.header.code = 0 → w.remembered = none) ∧
      w.offer s = (.ok (), ⟨w.bytes ++ s.encodeAs s.header.code, some s.header.code⟩)) ∨
    ∃ last, w.remembered = some last ∧ last ≠ 0 ∧ s.header.code = 0 ∧
      w.offer s = (.error ⟨.headerAmbiguous last, 0⟩, w) := by
  obtain ⟨bytes, memory⟩ := w
  unfold offer
  cases memory with
  | none => exact Or.inr (Or.inl ⟨nofun, fun _ => rfl, rfl⟩)
  | some last =>
    dsimp only
    by_cases hsame : last = s.header.code
    · exact Or.inl ⟨congrArg some hsame, by rw [if_pos hsame, hsame]⟩
    · have hdiffers : some last ≠ some s.header.code := fun heq => hsame (Option.some.inj heq)
      rw [if_neg hsame]
      by_cases hzero : s.header.code = 0
      · exact Or.inr (Or.inr ⟨last, rfl, fun hlast => hsame (hlast.trans hzero.symm), hzero, if_pos hzero⟩)
      · exact Or.inr (Or.inl ⟨hdiffers, fun h => absurd h hzero, if_neg hzero⟩)

/-- A refusal leaves the writer as it is. -/
lemma offer_of_error {s : SpentOutput} {e : Error} (h : (w.offer s).1 = .error e) :
    w.offer s = (.error e, w) := by
  rcases w.offer_cases s with ⟨-, hoffer⟩ | ⟨-, -, hoffer⟩ | ⟨last, -, -, -, hoffer⟩
  · rw [hoffer] at h
    cases h
  · rw [hoffer] at h
    cases h
  · rw [hoffer] at h ⊢
    rw [← h]

/-- An entry is written if it is not refused. -/
lemma write_eq_ok_iff {s : SpentOutput} : w.write s = .ok w' ↔ w.offer s = (.ok (), w') := by
  rw [write]
  rcases w.offer s with ⟨outcome, next⟩
  cases outcome with
  | error e => simp
  | ok u => simp

/-- An entry is not written if it is refused. -/
lemma write_eq_error_iff {s : SpentOutput} {e : Error} :
    w.write s = .error e ↔ (w.offer s).1 = .error e := by
  rw [write]
  rcases w.offer s with ⟨outcome, next⟩
  cases outcome with
  | error e' => simp
  | ok u => simp

/-- Entries are written if the first one is and then the others are. -/
lemma writeAll_cons_eq_ok_iff {s : SpentOutput} {entries : List SpentOutput} :
    w.writeAll (s :: entries) = .ok w' ↔
      ∃ w₁, w.write s = .ok w₁ ∧ w₁.writeAll entries = .ok w' := by
  rw [writeAll]
  cases w.write s with
  | error e => simp
  | ok w₁ => simp

/-- Transactions are written if the entries of the first one are and then the others are. -/
lemma writeTransactions_cons_eq_ok_iff {count : ℕ} {counts : List ℕ} {entries : List SpentOutput} :
    w.writeTransactions (count :: counts) entries = .ok w' ↔
      ∃ w₁, w.nextTransaction.writeAll (entries.take count) = .ok w₁ ∧
        w₁.writeTransactions counts (entries.drop count) = .ok w' := by
  rw [writeTransactions]
  cases w.nextTransaction.writeAll (entries.take count) with
  | error e => simp
  | ok w₁ => simp

end Writer

namespace Reader

variable {wanted count : ℕ} {r r' : Reader} {found found' : List SpentOutput}

/-- Entries are read if the data go on, the first one is read and then the others are. -/
lemma readEntries_succ_eq_ok_iff :
    readEntries wanted (count + 1) r found = .ok (r', found') ↔
      ∃ s r₁, r.atEnd = false ∧ r.read = (.ok s, r₁) ∧
        readEntries wanted count r₁ (s :: found) = .ok (r', found') := by
  rw [readEntries]
  cases r.atEnd with
  | true => simp
  | false =>
    rcases r.read with ⟨outcome, r₁⟩
    cases outcome with
    | error e => simp
    | ok s => simp

/-- Transactions are read if the entries of the first one are and then the others are. -/
lemma readTransactions_cons_eq_ok_iff {counts : List ℕ} :
    readTransactions wanted (count :: counts) r found = .ok (r', found') ↔
      ∃ r₁ found₁, readEntries wanted count r.nextTransaction found = .ok (r₁, found₁) ∧
        readTransactions wanted counts r₁ found₁ = .ok (r', found') := by
  rw [readTransactions]
  cases readEntries wanted count r.nextTransaction found with
  | error e => simp
  | ok state => simp [Prod.ext_iff]

end Reader

end CoinLedger.SpendJournal
