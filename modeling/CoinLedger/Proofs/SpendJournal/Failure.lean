import Mathlib
import CoinLedger.Proofs.SpendJournal.Rewrite
import CoinLedger.Proofs.SpendJournal.Session

/-!
# What comes after a failed read

A reader remembers a full header code as soon as it has read it, so a read that fails further on, or
that finds the height too large, leaves a header code behind which belongs to no entry.  Nothing of it
is ever seen: the reader is still in front of the same full header code, and this is read in the same
way whatever is remembered (`IgnoresMemory`).

What is remembered anywhere else is the header code of an entry (`Carries`), and where a header code 0
stands behind it, a failure does not depend on which header code it is
(`decodeAfter_error_of_carries`).  So each reader that a session comes to is `Steady`, and of a steady
reader neither a failed read nor the start of a transaction changes the failure
(`Reader.read_again_of_error`, `Reader.read_nextTransaction_of_error`).

`run_of_read_eq_error`: after a failed read, every later read of the session fails in the same way and
the reader stays where it is.
-/

namespace CoinLedger.SpendJournal

open SpentOutput (decodeAfter decodeHeader decodeOutput repeated remember)

/-! ## Entries and what is remembered in front of them -/

/-- Whether what is remembered, if anything, carries a height. -/
def Carries (remembered : Option ℕ) : Prop := ∀ last, remembered = some last → last / 2 < UInt32.size

/-- Whether the entry at the front of the data is read in the same way whatever is remembered. -/
def IgnoresMemory (data : Bytes) : Prop :=
  ∀ remembered memory, (decodeAfter remembered data).1 = (decodeAfter memory data).1

lemma carries_none : Carries none := by
  intro last h
  cases h

lemma carries_code (h : Header) : Carries (some h.code) := by
  intro last hlast
  cases hlast
  rw [h.code_div_two]
  exact h.height.toNat_lt_size

lemma repeated_div_two_lt {remembered : Option ℕ} (h : Carries remembered) :
    repeated remembered 0 / 2 < UInt32.size := by
  cases remembered with
  | none => decide
  | some last => exact h last rfl

/-- A full header code takes the place of what is remembered. -/
lemma ignoresMemory_of_code_ne_zero {data : Bytes} {code : ℕ} {cursor : Cursor}
    (h : decodeHeader data = .ok (code, cursor)) (hcode : code ≠ 0) : IgnoresMemory data := by
  intro remembered memory
  simp only [decodeAfter, h, repeated, if_neg hcode]

/-- An output is refused for the same reason behind any two header codes that carry a height. -/
lemma decodeOutput_error_of_div_two_lt {code other : ℕ} {cursor : Cursor} {e : Error}
    (hcode : code / 2 < UInt32.size) (hother : other / 2 < UInt32.size)
    (h : decodeOutput code cursor = .error e) : decodeOutput other cursor = .error e := by
  simp only [decodeOutput, Header.ofCode, Header.heightOfCode, hcode, if_true] at h
  simp only [decodeOutput, Header.ofCode, Header.heightOfCode, hother, if_true]
  cases hread : Cursor.read TxOut.decode cursor with
  | error e' =>
    rw [hread] at h
    cases h
    rfl
  | ok field =>
    rw [hread] at h
    cases h

/-- An entry is refused for the same reason whichever header code is remembered in front of it, as long
as it carries a height. -/
lemma decodeAfter_error_of_carries {remembered memory : Option ℕ} {data : Bytes} {e : Error}
    (hremembered : Carries remembered) (hmemory : Carries memory)
    (h : (decodeAfter remembered data).1 = .error e) : (decodeAfter memory data).1 = .error e := by
  cases hheader : decodeHeader data with
  | error e' =>
    simp only [decodeAfter, hheader] at h ⊢
    exact h
  | ok field =>
    obtain ⟨code, cursor⟩ := field
    by_cases hcode : code = 0
    · subst hcode
      simp only [decodeAfter, hheader] at h ⊢
      exact decodeOutput_error_of_div_two_lt (repeated_div_two_lt hremembered)
        (repeated_div_two_lt hmemory) h
    · rw [ignoresMemory_of_code_ne_zero hheader hcode memory remembered, h]

/-- Behind an entry that is read, what is remembered carries a height, whatever was remembered in front
of it. -/
lemma carries_of_decodeAfter_eq_ok {remembered memory : Option ℕ} {data : Bytes}
    {d : Decoded SpentOutput} (h : decodeAfter remembered data = (.ok d, memory)) :
    Carries memory := by
  obtain ⟨code, hheader, rfl, -⟩ := exists_code_of_decodeAfter h
  rw [repeated] at hheader
  rw [remember]
  split at hheader
  next hzero =>
    rw [if_pos hzero]
    cases remembered with
    | none => exact carries_none
    | some last =>
      rw [Option.getD_some] at hheader
      rw [← hheader]
      exact carries_code d.value.header
  next hzero =>
    rw [if_neg hzero, ← hheader]
    exact carries_code d.value.header

/-- An entry that is refused leaves behind what was remembered, or what does not matter to it. -/
lemma memory_of_decodeAfter_eq_error {remembered memory : Option ℕ} {data : Bytes} {e : Error}
    (h : decodeAfter remembered data = (.error e, memory)) :
    memory = remembered ∨ IgnoresMemory data := by
  cases hheader : decodeHeader data with
  | error e' =>
    simp only [decodeAfter, hheader] at h
    exact Or.inl (Prod.mk.inj h).2.symm
  | ok field =>
    obtain ⟨code, cursor⟩ := field
    by_cases hcode : code = 0
    · simp only [decodeAfter, hheader, remember, if_pos hcode] at h
      exact Or.inl (Prod.mk.inj h).2.symm
    · exact Or.inr (ignoresMemory_of_code_ne_zero hheader hcode)

/-! ## Readers -/

namespace Reader

/-- Whether what a reader remembers can change nothing about a failure: it carries a height, or it does
not matter to the next entry. -/
def Steady (r : Reader) : Prop := Carries r.remembered ∨ IgnoresMemory r.cursor.rest

lemma steady_start (data : Bytes) : (start data).Steady := Or.inl carries_none

lemma steady_nextTransaction (r : Reader) : r.nextTransaction.Steady := Or.inl carries_none

lemma read_fst_eq_error_iff {r : Reader} {e : Error} :
    r.read.1 = .error e ↔ ∃ inner, (decodeAfter r.remembered r.cursor.rest).1 = .error inner ∧
      e = inner.after r.pos := by
  rw [Reader.read]
  rcases decodeAfter r.remembered r.cursor.rest with ⟨outcome, memory⟩
  cases outcome with
  | ok d => simp
  | error inner => simp [eq_comm]

/-- A failed read leaves the reader where it is, with what was remembered or what does not matter
there. -/
lemma read_snd_of_error {r : Reader} {e : Error} (h : r.read.1 = .error e) :
    r.read.2.cursor = r.cursor ∧
      (r.read.2.remembered = r.remembered ∨ IgnoresMemory r.cursor.rest) := by
  rw [Reader.read] at h ⊢
  cases hdecode : decodeAfter r.remembered r.cursor.rest with
  | mk outcome memory =>
    rw [hdecode] at h
    cases outcome with
    | ok d => cases h
    | error inner => exact ⟨rfl, memory_of_decodeAfter_eq_error hdecode⟩

/-- Every read, whether it fails or not, leaves a steady reader behind. -/
lemma Steady.read {r : Reader} (h : r.Steady) : r.read.2.Steady := by
  cases hread : r.read.1 with
  | error e =>
    obtain ⟨hcursor, hsame | hignores⟩ := read_snd_of_error hread
    · rwa [Steady, hcursor, hsame]
    · rw [Steady, hcursor]
      exact Or.inr hignores
  | ok s =>
    rw [Reader.read] at hread ⊢
    cases hdecode : decodeAfter r.remembered r.cursor.rest with
    | mk outcome memory =>
      rw [hdecode] at hread
      cases outcome with
      | ok d => exact Or.inl (carries_of_decodeAfter_eq_ok hdecode)
      | error inner => cases hread

/-- Whatever the calls of a session are, its reader is steady in the end. -/
lemma Steady.run {r : Reader} (h : r.Steady) (calls : List Call) : (r.run calls).2.Steady := by
  induction calls generalizing r with
  | nil => exact h
  | cons c calls ih =>
    cases c with
    | nextTransaction => exact ih r.steady_nextTransaction
    | read => exact ih h.read

/-! ## Failures -/

/-- A read that fails fails again. -/
lemma read_again_of_error {r : Reader} {e : Error} (h : r.read.1 = .error e) :
    r.read.2.read.1 = .error e := by
  obtain ⟨hcursor, hmemory⟩ := read_snd_of_error h
  obtain ⟨inner, hdecode, rfl⟩ := read_fst_eq_error_iff.mp h
  refine read_fst_eq_error_iff.mpr ⟨inner, ?_, by rw [pos, pos, hcursor]⟩
  rw [hcursor]
  rcases hmemory with hsame | hignores
  · rw [hsame, hdecode]
  · rw [hignores _ r.remembered, hdecode]

/-- Starting a transaction in front of an entry that is refused does not help. -/
lemma read_nextTransaction_of_error {r : Reader} {e : Error} (hr : r.Steady)
    (h : r.read.1 = .error e) : r.nextTransaction.read.1 = .error e := by
  obtain ⟨inner, hdecode, rfl⟩ := read_fst_eq_error_iff.mp h
  refine read_fst_eq_error_iff.mpr ⟨inner, ?_, rfl⟩
  rcases hr with hcarries | hignores
  · exact decodeAfter_error_of_carries hcarries carries_none hdecode
  · exact (hignores none r.remembered).trans hdecode

/-- In front of an entry that is refused, every read of a session fails and the reader stays. -/
lemma run_of_error {r : Reader} {e : Error} (hr : r.Steady) (h : r.read.1 = .error e)
    (calls : List Call) :
    (r.run calls).1 = List.replicate (calls.count .read) (.error e) ∧
      (r.run calls).2.cursor = r.cursor := by
  induction calls generalizing r with
  | nil => exact ⟨rfl, rfl⟩
  | cons c calls ih =>
    cases c with
    | nextTransaction =>
      rw [List.count_cons_of_ne (by decide)]
      exact ih r.steady_nextTransaction (read_nextTransaction_of_error hr h)
    | read =>
      obtain ⟨hresults, hcursor⟩ := ih hr.read (read_again_of_error h)
      rw [List.count_cons_self, List.replicate_succ]
      refine ⟨?_, hcursor.trans (read_snd_of_error h).1⟩
      rw [run, hresults, h]

end Reader

/-- After a read that fails, all further reads of the session fail with the same error, however often a
transaction is started in between, and the reader stays where it was when it failed first. -/
theorem run_of_read_eq_error {data : Bytes} {before : List Reader.Call} {e : Error}
    (h : ((Reader.start data).run before).2.read.1 = .error e) (after : List Reader.Call) :
    ((Reader.start data).run (before ++ .read :: after)).1 =
        ((Reader.start data).run before).1 ++
          List.replicate (after.count .read + 1) (.error e) ∧
      ((Reader.start data).run (before ++ .read :: after)).2.pos =
        ((Reader.start data).run before).2.pos := by
  obtain ⟨hresults, hcursor⟩ :=
    Reader.run_of_error ((Reader.steady_start data).run before) h (.read :: after)
  rw [List.count_cons_self] at hresults
  rw [Reader.run_append, hresults]
  exact ⟨rfl, congrArg Cursor.pos hcursor⟩

/-- An entry, and behind it a header code of the height `2 ^ 32`. -/
def entryBeforeTallHeader : Bytes :=
  [15, 0, 101, 7, 0x6a] ++ Vlq.encode (2 ^ 33) ++ [0, 101, 7, 0x6a]

/-- The entry is read, and what stands behind it is refused again and again, also at the start of a
transaction, although the reader remembers the header code that it refuses. -/
theorem run_entryBeforeTallHeader :
    (Reader.start entryBeforeTallHeader).run [.read] =
      ([.ok ⟨⟨7, true⟩, 12, [0x6a]⟩], ⟨⟨5, entryBeforeTallHeader.drop 5⟩, some 15⟩) ∧
    ((Reader.start entryBeforeTallHeader).run [.read]).2.read.1 =
      .error ⟨.heightTooLarge (2 ^ 32), 11⟩ ∧
    ((Reader.start entryBeforeTallHeader).run [.read]).2.read.2.remembered = some (2 ^ 33) ∧
    ((Reader.start entryBeforeTallHeader).run
        [.read, .read, .read, .nextTransaction, .read, .nextTransaction, .read]).1 =
      .ok ⟨⟨7, true⟩, 12, [0x6a]⟩ :: List.replicate 4 (.error ⟨.heightTooLarge (2 ^ 32), 11⟩) := by
  have hread : (Reader.start entryBeforeTallHeader).run [.read] =
      ([.ok ⟨⟨7, true⟩, 12, [0x6a]⟩], ⟨⟨5, entryBeforeTallHeader.drop 5⟩, some 15⟩) := by cbv
  have hfailed : ((Reader.start entryBeforeTallHeader).run [.read]).2.read.1 =
      .error ⟨.heightTooLarge (2 ^ 32), 11⟩ := by cbv
  have hmemory : ((Reader.start entryBeforeTallHeader).run [.read]).2.read.2.remembered =
      some (2 ^ 33) := by cbv
  obtain ⟨hresults, -⟩ :=
    run_of_read_eq_error hfailed [.read, .nextTransaction, .read, .nextTransaction, .read]
  rw [hread] at hresults
  exact ⟨hread, hfailed, hmemory, hresults⟩

end CoinLedger.SpendJournal
