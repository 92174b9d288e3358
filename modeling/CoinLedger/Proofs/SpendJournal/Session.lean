import Mathlib
import CoinLedger.Proofs.SpendJournal.RoundTrip

/-!
# Sessions of a writer and of a reader

A writer is driven by calls that start a transaction or write an entry, and an entry may be refused;
a reader is driven by calls that start a transaction or read an entry.  `Writer.run` and `Reader.run`
carry out any sequence of calls, and `Writer.accepted` keeps those that a writer does not refuse.

`run_accepted_eq_and_refused_inert`: the reader of what a session has written, driven by the accepted
calls of that session, gives the accepted entries in their order and ends where the bytes end; and a
refused call leaves no trace, neither in the bytes nor in anything that comes after it.
-/

namespace CoinLedger.SpendJournal

/-! ## Calls to a writer -/

namespace Writer

/-- A call to a writer. -/
inductive Call where
  /-- starts a transaction -/
  | nextTransaction
  /-- writes an entry -/
  | write (s : SpentOutput)
  deriving DecidableEq

/-- Carries out a call: its outcome and the writer behind it. -/
def call (w : Writer) : Call → Except Error Unit × Writer
  | .nextTransaction => (.ok (), w.nextTransaction)
  | .write s => w.offer s

/-- Carries out calls one after the other: their results and the writer behind them. -/
def run (w : Writer) : List Call → List (Except Error Unit) × Writer
  | [] => ([], w)
  | c :: calls => ((w.call c).1 :: ((w.call c).2.run calls).1, ((w.call c).2.run calls).2)

/-- The calls that are not refused. -/
def accepted (w : Writer) : List Call → List Call
  | [] => []
  | c :: calls =>
    match w.call c with
    | (.ok (), next) => c :: next.accepted calls
    | (.error _, next) => next.accepted calls

/-- The entry that a call writes. -/
def Call.entry? : Call → Option SpentOutput
  | nextTransaction => none
  | write s => some s

/-- Calls are carried out in two parts as in one. -/
lemma run_append (w : Writer) (first second : List Call) :
    w.run (first ++ second) =
      ((w.run first).1 ++ ((w.run first).2.run second).1, ((w.run first).2.run second).2) := by
  induction first generalizing w with
  | nil => rfl
  | cons c first ih =>
    rw [List.cons_append, run, ih]
    rfl

/-- A refused call leaves the writer as it is. -/
lemma call_of_error {w : Writer} {c : Call} {e : Error} (h : (w.call c).1 = .error e) :
    w.call c = (.error e, w) := by
  cases c with
  | nextTransaction => cases h
  | write s => exact offer_of_error h

end Writer

/-! ## Calls to a reader -/

namespace Reader

/-- A call to a reader. -/
inductive Call where
  /-- starts a transaction -/
  | nextTransaction
  /-- reads an entry -/
  | read
  deriving DecidableEq

/-- Carries out calls one after the other: what is read and the reader behind them. -/
def run (r : Reader) : List Call → List (Except Error SpentOutput) × Reader
  | [] => ([], r)
  | .nextTransaction :: calls => r.nextTransaction.run calls
  | .read :: calls => (r.read.1 :: (r.read.2.run calls).1, (r.read.2.run calls).2)

/-- Calls are carried out in two parts as in one. -/
lemma run_append (r : Reader) (first second : List Call) :
    r.run (first ++ second) =
      ((r.run first).1 ++ ((r.run first).2.run second).1, ((r.run first).2.run second).2) := by
  induction first generalizing r with
  | nil => rfl
  | cons c first ih =>
    cases c with
    | nextTransaction => exact ih r.nextTransaction
    | read =>
      rw [List.cons_append, run, ih]
      rfl

end Reader

/-- The call to a reader in the place of a call to a writer. -/
def Writer.Call.reading : Writer.Call → Reader.Call
  | nextTransaction => .nextTransaction
  | write _ => .read

/-! ## Sessions in step -/

/-- What a session writes is read back by the reader in step, driven by the accepted calls, and the
two end in step. -/
lemma Writer.exists_tail_of_run (calls : List Writer.Call) (w : Writer) :
    ∃ tail, (w.run calls).2.bytes = w.bytes ++ tail ∧
      (tail.length < UInt64.size → ∀ pos rest,
        (w.reader pos (tail ++ rest)).run ((w.accepted calls).map Call.reading) =
          (((w.accepted calls).filterMap Call.entry?).map .ok,
            (w.run calls).2.reader (pos + tail.length) rest)) := by
  induction calls generalizing w with
  | nil =>
    refine ⟨[], (List.append_nil _).symm, ?_⟩
    intro _ pos rest
    rfl
  | cons c calls ih =>
    cases c with
    | nextTransaction =>
      obtain ⟨tail, htail, hread⟩ := ih w.nextTransaction
      refine ⟨tail, htail, ?_⟩
      intro hsize pos rest
      exact hread hsize pos rest
    | write s =>
      cases hoffer : w.write s with
      | error e =>
        -- the writer stays, and the reader gets no call in the place of the refused one
        have hrefused : w.call (.write s) = (.error e, w) := call_of_error (write_eq_error_iff.mp hoffer)
        obtain ⟨tail, htail, hread⟩ := ih w
        rw [run, accepted, hrefused]
        exact ⟨tail, htail, hread⟩
      | ok next =>
        have haccepted : w.call (.write s) = (.ok (), next) := write_eq_ok_iff.mp hoffer
        obtain ⟨entry, -, hentry, hfits, hfirst⟩ := exists_entry_of_write hoffer
        obtain ⟨tail, htail, hread⟩ := ih next
        rw [run, accepted, haccepted]
        refine ⟨entry ++ tail, ?_, ?_⟩
        · rw [← List.append_assoc, ← hentry]
          exact htail
        · intro hsize pos rest
          rw [List.length_append] at hsize ⊢
          rw [List.append_assoc, List.map_cons, Call.reading, Reader.run,
            hfirst (hfits (by omega)) pos (tail ++ rest)]
          dsimp only
          rw [hread (by omega), Nat.add_assoc]
          rfl

/-- The reader of what a session has written, driven by the accepted calls, gives the accepted entries
in their order and ends where the bytes end.  A call that is refused leaves the writer as it is, whatever
has been written: a refused entry adds no byte, and the session goes on as if it had never been offered. -/
theorem run_accepted_eq_and_refused_inert (calls : List Writer.Call) :
    ((Writer.empty.run calls).2.bytes.length < UInt64.size →
      ∃ r, (Reader.start (Writer.empty.run calls).2.bytes).run
          ((Writer.empty.accepted calls).map Writer.Call.reading) =
        (((Writer.empty.accepted calls).filterMap Writer.Call.entry?).map .ok, r) ∧
        r.atEnd = true) ∧
    (∀ (w : Writer) c e, (w.call c).1 = .error e → (w.call c).2 = w) ∧
    ∀ before s after e, calls = before ++ .write s :: after →
      ((Writer.empty.run before).2.call (.write s)).1 = .error e →
      (Writer.empty.run (before ++ [.write s])).2.bytes = (Writer.empty.run before).2.bytes ∧
      ∃ later w, Writer.empty.run (before ++ after) = ((Writer.empty.run before).1 ++ later, w) ∧
        Writer.empty.run calls = ((Writer.empty.run before).1 ++ .error e :: later, w) := by
  refine ⟨?_, ?_, ?_⟩
  · intro hsize
    obtain ⟨tail, htail, hread⟩ := Writer.exists_tail_of_run calls Writer.empty
    have hbytes : (Writer.empty.run calls).2.bytes = tail := htail
    rw [hbytes] at hsize ⊢
    have hall := hread hsize 0 []
    rw [List.append_nil] at hall
    exact ⟨_, hall, rfl⟩
  · intro w c e hrefused
    rw [Writer.call_of_error hrefused]
  · rintro before s after e rfl hrefused
    refine ⟨?_, ((Writer.empty.run before).2.run after).1, ((Writer.empty.run before).2.run after).2,
      Writer.run_append _ _ _, ?_⟩
    · rw [Writer.run_append, Writer.run, Writer.call_of_error hrefused]
      rfl
    · rw [Writer.run_append, Writer.run, Writer.call_of_error hrefused]

/-- An entry whose header code is 0. -/
def genesisEntry : SpentOutput := ⟨⟨0, false⟩, 0, [0x51]⟩

/-- An entry of a coinbase. -/
def coinbaseEntry : SpentOutput := ⟨⟨7, true⟩, 5, [0x6a]⟩

/-- A session in which an entry is refused between two with the same header, and another one at the
end. -/
def sessionWithRefusals : List Writer.Call :=
  [.write coinbaseEntry, .write genesisEntry, .write coinbaseEntry, .nextTransaction,
    .write genesisEntry, .write genesisEntry, .write coinbaseEntry, .write genesisEntry]

/-- What that session has written is read back, and its first refusal leaves no trace. -/
theorem run_sessionWithRefusals :
    (Writer.empty.run sessionWithRefusals).2.bytes.length < UInt64.size ∧
    ((Writer.empty.run [.write coinbaseEntry]).2.call (.write genesisEntry)).1 =
      .error ⟨.headerAmbiguous 15, 0⟩ ∧
    (∃ r, (Reader.start (Writer.empty.run sessionWithRefusals).2.bytes).run
        [.read, .read, .nextTransaction, .read, .read, .read] =
      ([.ok coinbaseEntry, .ok coinbaseEntry, .ok genesisEntry, .ok genesisEntry,
        .ok coinbaseEntry], r) ∧ r.atEnd = true) ∧
    (Writer.empty.run [.write coinbaseEntry, .write genesisEntry]).2.bytes =
      (Writer.empty.run [.write coinbaseEntry]).2.bytes := by
  have hsize : (Writer.empty.run sessionWithRefusals).2.bytes.length < UInt64.size := by decide
  have hrefused : ((Writer.empty.run [.write coinbaseEntry]).2.call (.write genesisEntry)).1 =
      .error ⟨.headerAmbiguous 15, 0⟩ := by decide
  obtain ⟨hread, -, hinert⟩ := run_accepted_eq_and_refused_inert sessionWithRefusals
  exact ⟨hsize, hrefused, hread hsize,
    (hinert [.write coinbaseEntry] genesisEntry _ _ rfl hrefused).1⟩

end CoinLedger.SpendJournal
