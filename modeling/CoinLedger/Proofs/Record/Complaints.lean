import Mathlib
import CoinLedger.Proofs.Record.Rejection
import CoinLedger.SpendJournal

/-!
# What decoders complain about

`FailsOnInput` says of an outcome that a failure is a complaint about the input: either the input is
malformed, or it is an integer that breaks the bound of its width, or a journal that does not fit its
block.  A record that is refused is refused in this way (`Classifies.failsOnInput`), and so is a journal.
So no decoder ever says that a record is absent or that a store is damaged.
-/

namespace CoinLedger

/-- The error says that the input is malformed or that an invariant is broken. -/
def Error.OnInput (e : Error) : Prop := e.kind = .malformed ∨ e.code = .internalError

/-- Whether an outcome is a complaint about the input when it is a failure. -/
def FailsOnInput {α : Type} (outcome : Except Error α) : Prop := ∀ e, outcome = .error e → e.OnInput

section Outcomes

variable {α : Type}

lemma failsOnInput_ok (a : α) : FailsOnInput (.ok a : Except Error α) := by
  intro e h
  cases h

lemma failsOnInput_error {e : Error} (h : e.OnInput) : FailsOnInput (.error e : Except Error α) := by
  intro e' h'
  cases h'
  exact h

/-- What is classified is a complaint about the input when it is a failure. -/
lemma Classifies.failsOnInput {overflows : ℕ → Prop} {outcome : Except Error α}
    (h : Classifies overflows outcome) : FailsOnInput outcome := by
  intro e herror
  rcases h.rejects e herror with ⟨bits, hfault⟩ | hrejects
  · right
    rw [Error.code, hfault]
    rfl
  · exact Or.inl hrejects.kind_eq

end Outcomes

/-! ## Records -/

/-- The failure of reading an entry is a complaint about the input. -/
lemma SpentOutput.failsOnInput_decodeAfter (remembered : Option ℕ) (data : Bytes) :
    FailsOnInput (decodeAfter remembered data).1 := by
  rw [decodeAfter_fst]
  exact (classifies_decodeBehind (classifies_decodeHeader data) _).failsOnInput

/-- The failure of reading a coin is a complaint about the input. -/
lemma Coin.failsOnInput_decode (data : Bytes) : FailsOnInput (decode data) :=
  (classifies_decode data).failsOnInput

/-! ## Journals -/

namespace SpendJournal

lemma Reader.failsOnInput_read (r : Reader) : FailsOnInput r.read.1 := by
  have hentry := SpentOutput.failsOnInput_decodeAfter r.remembered r.cursor.rest
  unfold read
  cases hdecode : SpentOutput.decodeAfter r.remembered r.cursor.rest with
  | mk outcome memory =>
    rw [hdecode] at hentry
    cases outcome with
    | ok d => exact failsOnInput_ok _
    | error e => exact failsOnInput_error (hentry e rfl)

lemma Reader.failsOnInput_readEntries (wanted count : ℕ) (r : Reader) (found : List SpentOutput) :
    FailsOnInput (readEntries wanted count r found) := by
  induction count generalizing r found with
  | zero => exact failsOnInput_ok _
  | succ count ih =>
    unfold readEntries
    split
    next => exact failsOnInput_error (Or.inr rfl)
    next =>
      split
      next e _ herror =>
        exact failsOnInput_error (r.failsOnInput_read e (congrArg Prod.fst herror))
      next => exact ih _ _

lemma Reader.failsOnInput_readTransactions (wanted : ℕ) (counts : List ℕ) (r : Reader)
    (found : List SpentOutput) : FailsOnInput (readTransactions wanted counts r found) := by
  induction counts generalizing r found with
  | nil => exact failsOnInput_ok _
  | cons count counts ih =>
    unfold readTransactions
    split
    next e herror =>
      exact failsOnInput_error (failsOnInput_readEntries wanted count r.nextTransaction found e herror)
    next => exact ih _ _

/-- The failure of reading a journal is a complaint about the input. -/
lemma failsOnInput_decode (data : Bytes) (txs : List Transaction) :
    FailsOnInput (decode data txs) := by
  unfold decode
  dsimp only
  split
  next =>
    split
    next => exact failsOnInput_ok _
    next => exact failsOnInput_error (Or.inr rfl)
  next =>
    split
    next e herror =>
      exact failsOnInput_error (Reader.failsOnInput_readTransactions _ _ _ _ e herror)
    next =>
      split
      next => exact failsOnInput_ok _
      next => exact failsOnInput_error (Or.inr rfl)

end SpendJournal

end CoinLedger
