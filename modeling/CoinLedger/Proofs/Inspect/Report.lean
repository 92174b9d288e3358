import Mathlib
import CoinLedger.Inspect
import CoinLedger.Proofs.Hash
import CoinLedger.Proofs.SpendJournal.ReadOrder

/-!
# What a report shows

A report is a list of lines, each with its line break (`printed`).  `fieldLines` are the lines for an output
and `entryLines` those for the entries of a spend journal, each behind the label of its transaction and its
input: the entry stands behind those of the transactions in front and those of the inputs in front, and
there is an entry for every label (`journalText_eq_printed`).

A report shows all of a value.  Its lines are found again, since nothing in a line is a line break
(`eq_of_line_append_eq`), and the numbers, bytes and hashes in them are, so two values with the same
report are the same (`coinText_injective`, `spentText_injective`, `eq_of_journalText_eq`,
`tipsText_injective`).
-/

namespace CoinLedger.Inspect

open SpendJournal (entryAt)
open Text (ofString decimal)

/-! ## The entries of a journal -/

/-- The reports of the first entries belong to the inputs of one transaction. -/
lemma transactionText_take {tx count : ℕ} {entries : List SpentOutput} (h : count ≤ entries.length) :
    transactionText tx (entries.take count) = (List.finRange count).flatMap fun input : Fin count =>
      entryText tx input (entries.get ⟨input, input.isLt.trans_le h⟩) := by
  rw [transactionText, List.flatMap_def, List.flatMap_def]
  congr 1
  apply List.ext_getElem
  · simp [h]
  · intro i hi hi'
    simp

/-- Each entry stands behind the label of its transaction and its input. -/
theorem transactionsText_eq {counts : List ℕ} {entries : List SpentOutput}
    (h : entries.length = counts.sum) (first : ℕ) :
    transactionsText first counts entries =
      (List.finRange counts.length).flatMap fun tx =>
        (List.finRange (counts.get tx)).flatMap fun input : Fin (counts.get tx) =>
          entryText (first + tx) input (entryAt h tx input) := by
  induction counts generalizing first entries with
  | nil => rfl
  | cons count counts ih =>
    have hcount : count ≤ entries.length := by
      rw [h, List.sum_cons]
      exact Nat.le_add_right _ _
    have hrest : (entries.drop count).length = counts.sum := by
      rw [List.length_drop, h, List.sum_cons, Nat.add_sub_cancel_left]
    rw [transactionsText, transactionText_take hcount, ih hrest]
    simp only [List.length_cons, List.finRange_succ, List.flatMap_cons, List.flatMap_map]
    congr 1
    · simp only [entryAt, Fin.val_zero, List.take_zero, List.sum_nil, Nat.zero_add, Nat.add_zero]
      rfl
    · apply List.flatMap_congr
      intro tx _
      simp only [entryAt, Fin.val_succ, List.take_succ_cons, List.sum_cons, List.get_eq_getElem,
        List.getElem_drop, Nat.add_assoc, Nat.add_comm 1]
      rfl

/-! ## Lines of reports -/

/-- Lines as they are printed, each with its line break. -/
def printed (lines : List Text) : Text := lines.flatMap fun t => t ++ ofString "\n"

/-- The lines for an output. -/
def fieldLines (indent : Text) (header : Header) (out : TxOut) : List Text :=
  [indent ++ ofString "height:   " ++ decimal header.height.toNat,
    indent ++ ofString "coinbase: " ++ ofString (if header.coinbase then "yes" else "no"),
    indent ++ ofString "amount:   " ++ decimal out.amount.toNat,
    indent ++ ofString "script:   " ++ Hex.encode out.script]

/-- The lines for the entries of transactions, each behind the label of its transaction and its input. -/
def entryLines {counts : List ℕ} (entry : (tx : Fin counts.length) → Fin (counts.get tx) → SpentOutput) :
    List Text :=
  (List.finRange counts.length).flatMap fun tx =>
    (List.finRange (counts.get tx)).flatMap fun input : Fin (counts.get tx) =>
      (ofString "  tx " ++ decimal tx ++ ofString " input " ++ decimal input) ::
        fieldLines (ofString "    ") (entry tx input).header (entry tx input).out

lemma printed_cons (t : Text) (lines : List Text) : printed (t :: lines) = line t ++ printed lines := by
  rw [printed, List.flatMap_cons, Text.ofString_newline]
  rfl

/-- What is printed for each of several things is printed for all of them. -/
lemma printed_flatMap {α : Type} (as : List α) (lines : α → List Text) :
    printed (as.flatMap lines) = as.flatMap fun a => printed (lines a) :=
  List.flatMap_assoc

lemma outputText_eq_printed (indent : Text) (header : Header) (out : TxOut) :
    outputText indent header out = printed (fieldLines indent header out) := by
  have hnone : printed [] = [] := rfl
  simp only [outputText, fieldLines, printed_cons, hnone, List.append_assoc, List.append_nil]

lemma coinText_eq_printed (size : ℕ) (c : Coin) :
    coinText size c =
      printed ((ofString "unspent output (" ++ decimal size ++ ofString " bytes)") ::
        fieldLines (ofString "  ") c.header c.out) := by
  rw [coinText, outputText_eq_printed, printed_cons]

lemma spentText_eq_printed (size : ℕ) (d : Decoded SpentOutput) :
    spentText size d =
      printed ((ofString "spent output (" ++ decimal d.bytesRead ++ ofString " of " ++ decimal size ++
        ofString " bytes)") :: fieldLines (ofString "  ") d.value.header d.value.out) := by
  rw [spentText, outputText_eq_printed, printed_cons]

/-- The report of a journal with an entry for every input. -/
lemma journalText_eq_printed {counts : List ℕ} {journal : SpendJournal}
    (h : journal.spent.length = counts.sum) :
    journalText counts journal =
      printed ((ofString "spend journal (" ++ decimal counts.sum ++ ofString " spent outputs)") ::
        entryLines (entryAt h)) := by
  have hentry : ∀ (tx : Fin counts.length) (input : Fin (counts.get tx)),
      entryText (0 + tx) input (entryAt h tx input) =
        printed ((ofString "  tx " ++ decimal tx ++ ofString " input " ++ decimal input) ::
          fieldLines (ofString "    ") (entryAt h tx input).header (entryAt h tx input).out) := by
    intro tx input
    rw [entryText, Nat.zero_add, outputText_eq_printed, printed_cons]
  rw [journalText, transactionsText_eq h, h, printed_cons, entryLines, printed_flatMap]
  simp only [hentry, printed_flatMap]

lemma tipsText_eq_printed (tips : List Hash) :
    tipsText tips =
      printed ((ofString "tip set (" ++ decimal tips.length ++ ofString " hashes)") ::
        tips.map fun hash => ofString "  " ++ hash.toText) := by
  rw [tipsText, printed_cons, printed, List.flatMap_map]
  rfl

/-! ## What can be read off a line -/

lemma newline_notMem_decimal (n : ℕ) : Text.newline ∉ decimal n := by
  intro h
  exact absurd (Text.isDigit_of_mem_decimal h) (by decide)

lemma newline_notMem_encode (data : Bytes) : Text.newline ∉ Hex.encode data := by
  intro h
  exact absurd (Hex.spaceless_encode data _ h) (by decide)

/-- A line ends at its line break, and behind its label stands its content. -/
lemma eq_of_line_append_eq {label t t' rest rest' : Text} (ht : Text.newline ∉ t)
    (ht' : Text.newline ∉ t') (h : line (label ++ t) ++ rest = line (label ++ t') ++ rest') :
    t = t' ∧ rest = rest' := by
  simp only [line, List.append_assoc, List.singleton_append, List.append_cancel_left_eq] at h
  exact Text.eq_of_append_cons_eq ht ht' h

/-- The lines of an output show all of it. -/
lemma eq_of_outputText_append_eq {indent rest rest' : Text} {header header' : Header}
    {out out' : TxOut}
    (h : outputText indent header out ++ rest = outputText indent header' out' ++ rest') :
    header = header' ∧ out = out' ∧ rest = rest' := by
  obtain ⟨height, coinbase⟩ := header
  obtain ⟨height', coinbase'⟩ := header'
  obtain ⟨amount, script⟩ := out
  obtain ⟨amount', script'⟩ := out'
  have hword : ∀ flag : Bool, Text.newline ∉ ofString (if flag then "yes" else "no") := by decide
  have hflag : ∀ flag flag' : Bool, ofString (if flag then "yes" else "no") =
      ofString (if flag' then "yes" else "no") → flag = flag' := by decide
  simp only [outputText, List.append_assoc (line _)] at h
  obtain ⟨hheight, h⟩ := eq_of_line_append_eq (newline_notMem_decimal _) (newline_notMem_decimal _) h
  obtain ⟨hcoinbase, h⟩ := eq_of_line_append_eq (hword _) (hword _) h
  obtain ⟨hamount, h⟩ := eq_of_line_append_eq (newline_notMem_decimal _) (newline_notMem_decimal _) h
  obtain ⟨hscript, hrest⟩ :=
    eq_of_line_append_eq (newline_notMem_encode _) (newline_notMem_encode _) h
  obtain rfl : height = height' := UInt32.toNat_inj.mp (Text.decimal_injective hheight)
  obtain rfl : coinbase = coinbase' := hflag _ _ hcoinbase
  obtain rfl : amount = amount' := UInt64.toNat_inj.mp (Text.decimal_injective hamount)
  obtain rfl : script = script' := Hex.encode_injective hscript
  exact ⟨rfl, rfl, hrest⟩

lemma eq_of_outputText_eq {indent : Text} {header header' : Header} {out out' : TxOut}
    (h : outputText indent header out = outputText indent header' out') :
    header = header' ∧ out = out' := by
  have hnil : outputText indent header out ++ [] = outputText indent header' out' ++ [] := by
    rw [h]
  obtain ⟨hheader, hout, -⟩ := eq_of_outputText_append_eq hnil
  exact ⟨hheader, hout⟩

lemma eq_of_entryText_append_eq {tx input : ℕ} {s s' : SpentOutput} {rest rest' : Text}
    (h : entryText tx input s ++ rest = entryText tx input s' ++ rest') : s = s' ∧ rest = rest' := by
  obtain ⟨header, out⟩ := s
  obtain ⟨header', out'⟩ := s'
  simp only [entryText, List.append_assoc, List.append_cancel_left_eq] at h
  obtain ⟨rfl, rfl, hrest⟩ := eq_of_outputText_append_eq h
  exact ⟨rfl, hrest⟩

/-- The reports of entries of a transaction show all of them. -/
lemma eq_of_entriesText_append_eq {tx input : ℕ} {entries entries' : List SpentOutput}
    {rest rest' : Text} (hlength : entries.length = entries'.length)
    (h : ((entries.zipIdx input).flatMap fun (s, input) => entryText tx input s) ++ rest =
      ((entries'.zipIdx input).flatMap fun (s, input) => entryText tx input s) ++ rest') :
    entries = entries' ∧ rest = rest' := by
  induction entries generalizing entries' input with
  | nil =>
    obtain rfl : entries' = [] := List.length_eq_zero_iff.mp hlength.symm
    exact ⟨rfl, h⟩
  | cons s entries ih =>
    obtain ⟨s', entries', rfl⟩ := List.exists_cons_of_length_eq_add_one hlength.symm
    simp only [List.zipIdx_cons, List.flatMap_cons, List.append_assoc] at h
    obtain ⟨rfl, hothers⟩ := eq_of_entryText_append_eq h
    obtain ⟨rfl, hrest⟩ := ih (Nat.succ.inj hlength) hothers
    exact ⟨rfl, hrest⟩

/-- The reports of transactions show all of their entries. -/
lemma eq_of_transactionsText_eq {counts : List ℕ} {first : ℕ} {entries entries' : List SpentOutput}
    (hlength : entries.length = counts.sum) (hlength' : entries'.length = counts.sum)
    (h : transactionsText first counts entries = transactionsText first counts entries') :
    entries = entries' := by
  induction counts generalizing first entries entries' with
  | nil => rw [List.length_eq_zero_iff.mp hlength, List.length_eq_zero_iff.mp hlength']
  | cons count counts ih =>
    rw [List.sum_cons] at hlength hlength'
    obtain ⟨htake, hrest⟩ := eq_of_entriesText_append_eq
      (by rw [List.length_take, List.length_take, hlength, hlength']) h
    have hdrop : entries.drop count = entries'.drop count :=
      ih (by rw [List.length_drop]; omega) (by rw [List.length_drop]; omega) hrest
    rw [← List.take_append_drop count entries, htake, hdrop, List.take_append_drop]

/-! ## Values -/

/-- The report of a coin shows all of it. -/
lemma coinText_injective (size : ℕ) : Function.Injective (coinText size) := by
  rintro ⟨header, out⟩ ⟨header', out'⟩ h
  obtain ⟨rfl, rfl⟩ := eq_of_outputText_eq (List.append_cancel_left h)
  rfl

/-- The report of a spent output shows all of it, and the number of bytes that it takes. -/
lemma spentText_injective (size : ℕ) : Function.Injective (spentText size) := by
  rintro ⟨⟨header, out⟩, read⟩ ⟨⟨header', out'⟩, read'⟩ h
  have hnotMem : ∀ n, Text.newline ∉
      decimal n ++ (ofString " of " ++ (decimal size ++ ofString " bytes)")) := by
    intro n
    simp only [List.mem_append, newline_notMem_decimal, false_or]
    decide
  simp only [spentText, List.append_assoc (ofString "spent output ("),
    List.append_assoc (decimal _), List.append_assoc (ofString " of ")] at h
  obtain ⟨hread, hout⟩ := eq_of_line_append_eq (hnotMem _) (hnotMem _) h
  obtain rfl : read = read' := Text.decimal_injective (List.append_cancel_right hread)
  obtain ⟨rfl, rfl⟩ := eq_of_outputText_eq hout
  rfl

/-- The report of a journal shows all of its entries. -/
lemma eq_of_journalText_eq {counts : List ℕ} {journal journal' : SpendJournal}
    (hlength : journal.spent.length = counts.sum) (hlength' : journal'.spent.length = counts.sum)
    (h : journalText counts journal = journalText counts journal') : journal = journal' := by
  rw [journalText, journalText, hlength, hlength'] at h
  obtain ⟨spent⟩ := journal
  obtain ⟨spent'⟩ := journal'
  exact congrArg SpendJournal.mk
    (eq_of_transactionsText_eq hlength hlength' (List.append_cancel_left h))

/-- The report of a tip set shows all of its hashes, in their order. -/
lemma tipsText_injective : Function.Injective tipsText := by
  intro tips tips' h
  have hnotMem : ∀ n, Text.newline ∉ decimal n ++ ofString " hashes)" := by
    intro n
    simp only [List.mem_append, newline_notMem_decimal, false_or]
    decide
  simp only [tipsText, List.append_assoc (ofString "tip set (")] at h
  obtain ⟨hcount, hlines⟩ := eq_of_line_append_eq (hnotMem _) (hnotMem _) h
  have hlength : tips.length = tips'.length :=
    Text.decimal_injective (List.append_cancel_right hcount)
  clear h hcount
  induction tips generalizing tips' with
  | nil => exact (List.length_eq_zero_iff.mp hlength.symm).symm
  | cons hash tips ih =>
    obtain ⟨hash', tips', rfl⟩ := List.exists_cons_of_length_eq_add_one hlength.symm
    obtain ⟨hhash, hrest⟩ :=
      eq_of_line_append_eq (newline_notMem_encode _) (newline_notMem_encode _) hlines
    rw [Hash.toText_injective hhash, ih hrest (Nat.succ.inj hlength)]

end CoinLedger.Inspect
