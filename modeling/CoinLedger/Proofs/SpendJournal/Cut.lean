import Mathlib
import CoinLedger.Proofs.Record.Bounds
import CoinLedger.Proofs.SpendJournal.RoundTrip

/-!
# Journals that are cut or continued

A journal is made of pieces, one for each entry (`pieces`), and `entryEnds` lists the numbers of bytes
behind which a piece ends.  `decode_of_cut_or_continued`: a journal that is cut where a piece ends is a
journal that does not fit its block, and reading counts all of it; cut inside a piece it is short of
bytes; and with bytes behind its last piece it does not fit its block either.

The reader in step with the writer (`Writer.reader`) is followed up to the cut, through the entries
of a transaction (`readEntries_cut`) and through the transactions of a block
(`readTransactions_cut`).  Inside a piece the complaint is that of a decoder which is self-delimiting.
-/

namespace CoinLedger.SpendJournal

open SpentOutput (encodeAs)

/-! ## Pieces -/

/-- The header code under which an entry is written behind an entry with the header code `previous`. -/
def writtenCode (previous : Option ℕ) (s : SpentOutput) : ℕ :=
  if previous = some s.header.code then 0 else s.header.code

/-- The pieces of the entries of one transaction, in the order in which they are written. -/
def entryPieces (previous : Option ℕ) : List SpentOutput → List Bytes
  | [] => []
  | s :: entries =>
    encodeAs (writtenCode previous s) s :: entryPieces (some s.header.code) entries

/-- The pieces of one transaction after the other: `counts` says how many of the entries belong to
each. -/
def transactionPieces : List ℕ → List SpentOutput → List Bytes
  | [], _ => []
  | count :: counts, entries =>
    entryPieces none (entries.take count) ++ transactionPieces counts (entries.drop count)

/-- The pieces of the journal of a block. -/
def pieces (journal : SpendJournal) (txs : List Transaction) : List Bytes :=
  transactionPieces (Transaction.spendCounts txs).reverse journal.spent.reverse

/-- The numbers of bytes behind which some of the pieces, from the first on, are complete. -/
def entryEnds (pieces : List Bytes) : List ℕ := pieces.inits.map (fun front => front.flatten.length)

lemma mem_entryEnds {pieces : List Bytes} {n : ℕ} :
    n ∈ entryEnds pieces ↔ ∃ front, front <+: pieces ∧ front.flatten.length = n := by
  simp only [entryEnds, List.mem_map, List.mem_inits]

lemma zero_mem_entryEnds (pieces : List Bytes) : 0 ∈ entryEnds pieces :=
  mem_entryEnds.mpr ⟨[], List.nil_prefix, rfl⟩

/-- Before the end of the first pieces the further ones do not matter. -/
lemma mem_entryEnds_append_of_lt {first rest : List Bytes} {n : ℕ} (h : n < first.flatten.length) :
    n ∈ entryEnds (first ++ rest) ↔ n ∈ entryEnds first := by
  rw [mem_entryEnds, mem_entryEnds]
  constructor
  · rintro ⟨front, hfront, rfl⟩
    rcases List.prefix_or_prefix_of_prefix hfront (List.prefix_append first rest) with
      hinside | ⟨more, rfl⟩
    · exact ⟨front, hinside, rfl⟩
    · rw [List.flatten_append, List.length_append] at h
      omega
  · rintro ⟨front, hfront, hn⟩
    exact ⟨front, hfront.trans (List.prefix_append _ _), hn⟩

/-- Behind the first pieces the further ones end where they end on their own. -/
lemma mem_entryEnds_append_add {first rest : List Bytes} {n : ℕ} :
    first.flatten.length + n ∈ entryEnds (first ++ rest) ↔ n ∈ entryEnds rest := by
  constructor
  · intro h
    obtain ⟨front, hfront, hlength⟩ := mem_entryEnds.mp h
    rcases List.prefix_or_prefix_of_prefix hfront (List.prefix_append first rest) with
      ⟨more, rfl⟩ | ⟨more, rfl⟩
    · -- pieces of the first ones cannot be longer than all of them
      rw [List.flatten_append, List.length_append] at hlength
      have hzero : n = 0 := by omega
      rw [hzero]
      exact zero_mem_entryEnds rest
    · rw [List.flatten_append, List.length_append] at hlength
      exact mem_entryEnds.mpr ⟨more, (List.prefix_append_right_inj first).mp hfront, by omega⟩
  · intro h
    obtain ⟨front, hfront, rfl⟩ := mem_entryEnds.mp h
    refine mem_entryEnds.mpr ⟨first ++ front, (List.prefix_append_right_inj first).mpr hfront, ?_⟩
    rw [List.flatten_append, List.length_append]

/-- Inside a piece no piece ends. -/
lemma notMem_entryEnds_cons {piece : Bytes} {rest : List Bytes} {n : ℕ} (hpos : 0 < n)
    (h : n < piece.length) : n ∉ entryEnds (piece :: rest) := by
  intro hmem
  obtain ⟨front, hfront, hlength⟩ := mem_entryEnds.mp hmem
  cases front with
  | nil =>
    rw [List.flatten_nil, List.length_nil] at hlength
    omega
  | cons c front =>
    obtain ⟨rfl, -⟩ := List.cons_prefix_cons.mp hfront
    rw [List.flatten_cons, List.length_append] at hlength
    omega

/-! ## What is written -/

namespace Writer

/-- A write adds the piece of its entry, and the header code of the entry is remembered. -/
lemma bytes_of_write {w w' : Writer} {s : SpentOutput} (h : w.write s = .ok w') :
    w'.bytes = w.bytes ++ encodeAs (writtenCode w.remembered s) s ∧
      w'.remembered = some s.header.code := by
  rw [write_eq_ok_iff] at h
  rcases w.offer_cases s with ⟨hsame, hoffer⟩ | ⟨hdiffers, -, hoffer⟩ | ⟨last, -, -, -, hoffer⟩
  · rw [hoffer] at h
    cases h
    rw [writtenCode, if_pos hsame]
    exact ⟨rfl, rfl⟩
  · rw [hoffer] at h
    cases h
    rw [writtenCode, if_neg hdiffers]
    exact ⟨rfl, rfl⟩
  · rw [hoffer] at h
    cases h

/-- Writing entries adds their pieces. -/
lemma bytes_of_writeAll {entries : List SpentOutput} {w w' : Writer}
    (h : w.writeAll entries = .ok w') :
    w'.bytes = w.bytes ++ (entryPieces w.remembered entries).flatten := by
  induction entries generalizing w with
  | nil =>
    cases h
    exact (List.append_nil _).symm
  | cons s entries ih =>
    obtain ⟨w₁, hwrite, hrest⟩ := writeAll_cons_eq_ok_iff.mp h
    obtain ⟨hbytes, hmemory⟩ := bytes_of_write hwrite
    rw [ih hrest, hbytes, hmemory, entryPieces, List.flatten_cons, List.append_assoc]

/-- Writing transactions adds the pieces of their entries. -/
lemma bytes_of_writeTransactions {counts : List ℕ} {entries : List SpentOutput} {w w' : Writer}
    (h : w.writeTransactions counts entries = .ok w') :
    w'.bytes = w.bytes ++ (transactionPieces counts entries).flatten := by
  induction counts generalizing w entries with
  | nil =>
    cases h
    exact (List.append_nil _).symm
  | cons count counts ih =>
    obtain ⟨w₁, hwrite, hrest⟩ := writeTransactions_cons_eq_ok_iff.mp h
    rw [ih hrest, bytes_of_writeAll hwrite, transactionPieces, List.flatten_append, List.append_assoc]
    rfl

end Writer

lemma length_entryPieces (previous : Option ℕ) (entries : List SpentOutput) :
    (entryPieces previous entries).length = entries.length := by
  induction entries generalizing previous with
  | nil => rfl
  | cons s entries ih => rw [entryPieces, List.length_cons, List.length_cons, ih]

/-- There is one piece for each entry. -/
lemma length_transactionPieces {counts : List ℕ} {entries : List SpentOutput}
    (hcount : entries.length = counts.sum) :
    (transactionPieces counts entries).length = entries.length := by
  induction counts generalizing entries with
  | nil =>
    rw [transactionPieces, hcount]
    rfl
  | cons count counts ih =>
    rw [List.sum_cons] at hcount
    rw [transactionPieces, List.length_append, length_entryPieces, ih, ← List.length_append,
      List.take_append_drop]
    rw [List.length_drop]
    omega

/-! ## Complaints about a cut -/

/-- The complaint about pieces that are cut `cut` bytes behind the first `read` bytes of a journal:
where a piece ends all of them have been read and the journal does not fit its block; elsewhere bytes
are missing. -/
def CutError (pieces : List Bytes) (read cut : ℕ) (e : Error) : Prop :=
  (cut ∈ entryEnds pieces → e.code = .internalError ∧ e.bytesRead = read + cut) ∧
    (cut ∉ entryEnds pieces → e.code = .parseUnderflow ∧ e.bytesRead ≤ read + cut)

namespace CutError

variable {first rest : List Bytes} {read cut : ℕ} {e : Error}

/-- A cut in the first pieces. -/
lemma append_of_lt (h : CutError first read cut e) (hlt : cut < first.flatten.length) :
    CutError (first ++ rest) read cut e := by
  rw [CutError, mem_entryEnds_append_of_lt hlt]
  exact h

/-- A cut behind the first pieces. -/
lemma append_add (h : CutError rest (read + first.flatten.length) cut e) :
    CutError (first ++ rest) read (first.flatten.length + cut) e := by
  rw [CutError, mem_entryEnds_append_add, ← Nat.add_assoc]
  exact h

/-- A cut behind the first piece. -/
lemma cons_add {piece : Bytes} (h : CutError rest (read + piece.length) cut e) :
    CutError (piece :: rest) read (piece.length + cut) e := by
  have happend : CutError ([piece] ++ rest) read ([piece].flatten.length + cut) e := by
    apply append_add
    rwa [List.flatten_singleton]
  rwa [List.flatten_singleton] at happend

/-- A cut in front of the first piece. -/
lemma of_atEnd (hcode : e.code = .internalError) (hread : e.bytesRead = read) :
    CutError rest read 0 e :=
  ⟨fun _ => ⟨hcode, hread⟩, fun hnot => absurd (zero_mem_entryEnds rest) hnot⟩

/-- A cut inside the first piece. -/
lemma of_inside {piece : Bytes} (hpos : 0 < cut) (hlt : cut < piece.length)
    (hcode : e.code = .parseUnderflow) (hread : e.bytesRead ≤ read + cut) :
    CutError (piece :: rest) read cut e :=
  ⟨fun hmem => absurd hmem (notMem_entryEnds_cons hpos hlt), fun _ => ⟨hcode, hread⟩⟩

end CutError

/-- A part of two byte strings ends inside the first or continues it. -/
lemma prefix_append_cases {part first rest : Bytes} (h : part <+: first ++ rest) :
    (part <+: first ∧ part.length < first.length) ∨ ∃ more, part = first ++ more ∧ more <+: rest := by
  by_cases hlt : part.length < first.length
  · exact Or.inl ⟨List.prefix_of_prefix_length_le h (List.prefix_append _ _) hlt.le, hlt⟩
  · obtain ⟨more, rfl⟩ := List.prefix_of_prefix_length_le (List.prefix_append _ _) h (by omega)
    exact Or.inr ⟨more, rfl, (List.prefix_append_right_inj _).mp h⟩

/-! ## Reading up to the cut -/

lemma Reader.exists_read_of_error {r : Reader} {e : Error}
    (h : (SpentOutput.decodeAfter r.remembered r.cursor.rest).1 = .error e) :
    ∃ r', r.read = (.error (e.after r.pos), r') := by
  rw [Reader.read]
  cases hdecode : SpentOutput.decodeAfter r.remembered r.cursor.rest with
  | mk outcome remembered =>
    rw [hdecode] at h
    cases h
    exact ⟨_, rfl⟩

namespace Writer

/-- Of an entry that has been written no byte may be missing. -/
lemma exists_error_of_read_cut {w w' : Writer} {s : SpentOutput} (h : w.write s = .ok w')
    {part : Bytes} (hpart : part <+: encodeAs (writtenCode w.remembered s) s)
    (hlt : part.length < (encodeAs (writtenCode w.remembered s) s).length)
    (hsize : (encodeAs (writtenCode w.remembered s) s).length < UInt64.size) (pos : ℕ) :
    ∃ e r, (w.reader pos part).read = (.error e, r) ∧ e.code = .parseUnderflow ∧
      e.bytesRead ≤ pos + part.length := by
  obtain ⟨code, hcode, hbytes, hheader, -⟩ := exists_code_of_write h
  have hsame : encodeAs code s = encodeAs (writtenCode w.remembered s) s :=
    List.append_cancel_left (hbytes.symm.trans (bytes_of_write h).1)
  rw [← hsame] at hpart hlt hsize
  have hwhole := SpentOutput.decodeAfter_encodeAs_append hcode hheader
    (SpentOutput.storable_of_length_encodeAs_lt hsize) []
  rw [List.append_nil] at hwhole
  have hshort := (SpentOutput.selfDelimiting_decodeAfter (readerMemory w.remembered)).short_of_lt
    (encodeAs code s) _ (congrArg Prod.fst hwhole) part.length hlt
  rw [← List.prefix_iff_eq_take.mp hpart] at hshort
  obtain ⟨e, hdecode, hunderflow⟩ := hshort
  have hle := (SpentOutput.failsWithin_decodeAfter _ part).after hdecode pos
  obtain ⟨r, hread⟩ := Reader.exists_read_of_error (r := w.reader pos part) hdecode
  exact ⟨e.after pos, r, hread, hunderflow, hle⟩

/-- Entries that have been written are read up to the cut. -/
lemma readEntries_cut {entries : List SpentOutput} {w w' : Writer}
    (h : w.writeAll entries = .ok w') {part : Bytes}
    (hpart : part <+: (entryPieces w.remembered entries).flatten)
    (hlt : part.length < (entryPieces w.remembered entries).flatten.length)
    (hsize : (entryPieces w.remembered entries).flatten.length < UInt64.size)
    (wanted pos : ℕ) (found : List SpentOutput) :
    ∃ e, Reader.readEntries wanted entries.length (w.reader pos part) found = .error e ∧
      CutError (entryPieces w.remembered entries) pos part.length e := by
  induction entries generalizing w part pos found with
  | nil =>
    rw [entryPieces, List.flatten_nil, List.length_nil] at hlt
    omega
  | cons s entries ih =>
    obtain ⟨w₁, hwrite, hrest⟩ := writeAll_cons_eq_ok_iff.mp h
    obtain ⟨hbytes, hmemory⟩ := bytes_of_write hwrite
    rw [entryPieces, ← hmemory] at hpart hlt hsize ⊢
    rw [List.flatten_cons] at hpart hlt hsize
    rw [List.length_append] at hlt hsize
    rw [List.length_cons, Reader.readEntries]
    by_cases hempty : part = []
    · subst hempty
      exact ⟨⟨.journalEnded found.length wanted, pos⟩, rfl, CutError.of_atEnd rfl rfl⟩
    · have hstart : (w.reader pos part).atEnd = false := List.isEmpty_eq_false_iff.mpr hempty
      rw [hstart]
      simp only [Bool.false_eq_true, if_false]
      rcases prefix_append_cases hpart with ⟨hinside, hshort⟩ | ⟨more, rfl, hmore⟩
      · obtain ⟨e, r, hread, hcode, hle⟩ :=
          exists_error_of_read_cut hwrite hinside hshort (by omega) pos
        rw [hread]
        exact ⟨e, rfl, CutError.of_inside (List.length_pos_iff.mpr hempty) hshort hcode hle⟩
      · obtain ⟨piece, -, hpiece, hfits, hread⟩ := exists_entry_of_write hwrite
        obtain rfl := List.append_cancel_left (hbytes.symm.trans hpiece)
        rw [List.length_append] at hlt
        rw [hread (hfits (by omega)), List.length_append]
        obtain ⟨e, herror, hcut⟩ := ih hrest hmore (by omega) (by omega)
          (pos + (encodeAs (writtenCode w.remembered s) s).length) (s :: found)
        exact ⟨e, herror, hcut.cons_add⟩

/-- Transactions that have been written are read up to the cut, if the entries are as many as the
transactions spend. -/
lemma readTransactions_cut {counts : List ℕ} {entries : List SpentOutput} {w w' : Writer}
    (h : w.writeTransactions counts entries = .ok w') (hcount : entries.length = counts.sum)
    {part : Bytes} (hpart : part <+: (transactionPieces counts entries).flatten)
    (hlt : part.length < (transactionPieces counts entries).flatten.length)
    (hsize : (transactionPieces counts entries).flatten.length < UInt64.size)
    (wanted pos : ℕ) (found : List SpentOutput) :
    ∃ e, Reader.readTransactions wanted counts (w.reader pos part) found = .error e ∧
      CutError (transactionPieces counts entries) pos part.length e := by
  induction counts generalizing w entries part pos found with
  | nil =>
    rw [transactionPieces, List.flatten_nil, List.length_nil] at hlt
    omega
  | cons count counts ih =>
    rw [List.sum_cons] at hcount
    have htake : (entries.take count).length = count := List.length_take_of_le (by omega)
    obtain ⟨w₁, hwrite, hrest⟩ := writeTransactions_cons_eq_ok_iff.mp h
    have hbytes : w₁.bytes = w.nextTransaction.bytes ++
        (entryPieces none (entries.take count)).flatten := bytes_of_writeAll hwrite
    rw [transactionPieces] at hpart hlt hsize ⊢
    rw [List.flatten_append] at hpart hlt hsize
    rw [List.length_append] at hlt hsize
    rw [Reader.readTransactions, nextTransaction_reader]
    rcases prefix_append_cases hpart with ⟨hinside, hshort⟩ | ⟨more, rfl, hmore⟩
    · obtain ⟨e, hread, hcut⟩ :=
        readEntries_cut hwrite hinside hshort ((Nat.le_add_right _ _).trans_lt hsize) wanted pos found
      rw [htake] at hread
      rw [hread]
      exact ⟨e, rfl, hcut.append_of_lt hshort⟩
    · obtain ⟨first, hfirst, -, hfits, hread⟩ := exists_tail_of_writeAll hwrite
      obtain rfl := List.append_cancel_left (hbytes.symm.trans hfirst)
      rw [htake] at hread
      rw [List.length_append] at hlt
      rw [hread (hfits (by omega)), List.length_append]
      obtain ⟨e, herror, hcut⟩ := ih hrest (by rw [List.length_drop]; omega) hmore (by omega) (by omega)
        (pos + (entryPieces none (entries.take count)).flatten.length)
        ((entries.take count).reverse ++ found)
      exact ⟨e, herror, hcut.append_add⟩

end Writer

/-! ## Journals -/

/-- What the writer does with a journal that is written for a block: it is made of one piece for each
entry. -/
lemma exists_writer_of_encode {journal : SpendJournal} {txs : List Transaction} {data : Bytes}
    (h : journal.encode txs = .ok data) :
    ∃ w, Writer.empty.writeTransactions (Transaction.spendCounts txs).reverse
        journal.spent.reverse = .ok w ∧
      journal.spent.reverse.length = (Transaction.spendCounts txs).reverse.sum ∧
      w.bytes = data ∧ (journal.pieces txs).flatten = data := by
  obtain ⟨hcount, w, hwrite, rfl⟩ := encode_eq_ok_iff.mp h
  refine ⟨w, hwrite, ?_, rfl, (Writer.bytes_of_writeTransactions hwrite).symm⟩
  rw [List.length_reverse, sum_reverse_spendCounts, hcount]

lemma length_pieces {journal : SpendJournal} {txs : List Transaction} {data : Bytes}
    (h : journal.encode txs = .ok data) : (journal.pieces txs).length = journal.spent.length := by
  obtain ⟨w, -, hcount, -, -⟩ := exists_writer_of_encode h
  rw [pieces, length_transactionPieces hcount, List.length_reverse]

/-- A block that spends nothing has the empty journal. -/
lemma spentOutputs_ne_zero {journal : SpendJournal} {txs : List Transaction} {data : Bytes}
    (h : journal.encode txs = .ok data) (hdata : data ≠ []) : Transaction.spentOutputs txs ≠ 0 := by
  intro hzero
  have hcount := (encode_eq_ok_iff.mp h).1
  obtain ⟨-, -, -, -, hflatten⟩ := exists_writer_of_encode h
  have hnone : journal.pieces txs = [] := by
    apply List.eq_nil_of_length_eq_zero
    rw [length_pieces h, ← hcount, hzero]
  rw [hnone] at hflatten
  exact hdata hflatten.symm

/-- A journal that is cut is refused: where a piece ends it does not fit its block, and elsewhere bytes
are missing. -/
lemma decode_cut {journal : SpendJournal} {txs : List Transaction} {data part : Bytes}
    (h : journal.encode txs = .ok data) (hsize : data.length < UInt64.size)
    (hpart : part <+: data) (hlt : part.length < data.length) :
    ∃ e, decode part txs = .error e ∧ CutError (journal.pieces txs) 0 part.length e := by
  obtain ⟨w, hwrite, hcount, -, hdata⟩ := exists_writer_of_encode h
  rw [decode]
  split
  next hempty =>
    have hne : data ≠ [] := List.ne_nil_of_length_pos (Nat.zero_lt_of_lt hlt)
    rw [if_neg (spentOutputs_ne_zero h hne), hempty]
    exact ⟨_, rfl, CutError.of_atEnd rfl rfl⟩
  next =>
    rw [← hdata] at hpart hlt hsize
    obtain ⟨e, hread, hcut⟩ := Writer.readTransactions_cut hwrite hcount hpart hlt hsize
      (Transaction.spentOutputs txs) 0 []
    have hstart : Reader.start part = Writer.empty.reader 0 part := rfl
    rw [hstart, hread]
    exact ⟨e, rfl, hcut⟩

/-- A journal with bytes behind it does not fit its block, and reading counts the journal. -/
lemma decode_append {journal : SpendJournal} {txs : List Transaction} {data rest : Bytes}
    (h : journal.encode txs = .ok data) (hsize : data.length < UInt64.size) (hrest : rest ≠ []) :
    ∃ e, decode (data ++ rest) txs = .error e ∧ e.code = .internalError ∧
      e.bytesRead = data.length := by
  obtain ⟨w, hwrite, hcount, hbytes, -⟩ := exists_writer_of_encode h
  obtain ⟨tail, htail, -, hfits, hread⟩ := Writer.exists_tail_of_writeTransactions hwrite hcount
  obtain rfl : data = tail := hbytes.symm.trans htail
  have hmore : (w.reader (0 + data.length) rest).atEnd = false := List.isEmpty_eq_false_iff.mpr hrest
  have hstart : Reader.start (data ++ rest) = Writer.empty.reader 0 (data ++ rest) := rfl
  rw [decode, if_neg (List.append_ne_nil_of_right_ne_nil _ hrest), hstart, hread (hfits hsize)]
  dsimp only
  rw [hmore]
  exact ⟨_, rfl, rfl, Nat.zero_add _⟩

/-- A journal is made of one piece for each entry.  Cut where a piece ends, it does not fit its block
and reading counts all of it; cut inside a piece, it is short of bytes; and with bytes behind it, it
does not fit its block and reading counts the journal. -/
theorem decode_of_cut_or_continued {journal : SpendJournal} {txs : List Transaction} {data : Bytes}
    (h : journal.encode txs = .ok data) (hsize : data.length < UInt64.size) :
    ((journal.pieces txs).length = journal.spent.length ∧ (journal.pieces txs).flatten = data) ∧
    (∀ part, part <+: data → part ≠ data → ∃ e, decode part txs = .error e ∧
      (part.length ∈ entryEnds (journal.pieces txs) →
        e.code = .internalError ∧ e.bytesRead = part.length) ∧
      (part.length ∉ entryEnds (journal.pieces txs) →
        e.code = .parseUnderflow ∧ e.bytesRead ≤ part.length)) ∧
    ∀ rest, rest ≠ [] → ∃ e, decode (data ++ rest) txs = .error e ∧ e.code = .internalError ∧
      e.bytesRead = data.length := by
  obtain ⟨-, -, -, -, hdata⟩ := exists_writer_of_encode h
  refine ⟨⟨length_pieces h, hdata⟩, ?_, ?_⟩
  · intro part hpart hne
    have hlt : part.length < data.length :=
      lt_of_le_of_ne hpart.length_le (fun heq => hne (hpart.eq_of_length heq))
    obtain ⟨e, hread, hcut⟩ := decode_cut h hsize hpart hlt
    rw [CutError, Nat.zero_add] at hcut
    exact ⟨e, hread, hcut⟩
  · intro rest hrest
    exact decode_append h hsize hrest

/-- The journal of mixed entries, cut behind its second entry, cut inside its third one, and with a
byte behind it. -/
theorem decode_of_cut_or_continued_mixedData :
    mixedJournal.encode mixedBlock = .ok mixedData ∧ mixedData.length < UInt64.size ∧
    (∃ e, decode (mixedData.take 29) mixedBlock = .error e ∧ e.code = .internalError ∧
      e.bytesRead = 29) ∧
    (∃ e, decode (mixedData.take 30) mixedBlock = .error e ∧ e.code = .parseUnderflow ∧
      e.bytesRead ≤ 30) ∧
    ∃ e, decode (mixedData ++ [0]) mixedBlock = .error e ∧ e.code = .internalError ∧
      e.bytesRead = 41 := by
  have h : mixedJournal.encode mixedBlock = .ok mixedData := by cbv
  have hsize : mixedData.length < UInt64.size := by decide
  have hends : entryEnds (mixedJournal.pieces mixedBlock) = [0, 23, 29, 33, 38, 41] := by cbv
  obtain ⟨-, hcut, hcontinued⟩ := decode_of_cut_or_continued h hsize
  obtain ⟨e, hread, hatEnd, -⟩ := hcut (mixedData.take 29) (List.take_prefix _ _) (by decide)
  obtain ⟨e', hread', -, hinside⟩ := hcut (mixedData.take 30) (List.take_prefix _ _) (by decide)
  rw [hends] at hatEnd hinside
  exact ⟨h, hsize, ⟨e, hread, hatEnd (by decide)⟩, ⟨e', hread', hinside (by decide)⟩,
    hcontinued [0] (by decide)⟩

end CoinLedger.SpendJournal
