import Mathlib
import CoinLedger.Proofs.Inspect.Report
import CoinLedger.Proofs.Inspect.Request
import CoinLedger.Proofs.Log
import CoinLedger.Proofs.Record.Complaints
import CoinLedger.Proofs.SpendJournal.InputCounts
import CoinLedger.Proofs.SpendJournal.ReadOrder
import CoinLedger.Proofs.TipSet.Prefix

/-!
# A run of the inspector shows what the decoder returns

Unless a setting says otherwise, the log shows warnings and failures only.  What the decoders leave in
it is neither, so a run that is given a `Request` prints its report and nothing else (`run_given`).

`run_shows_decoded`: the run prints the lines for the value that the decoder returns (`Request.Reports`), or
the line for its error.
-/

namespace CoinLedger.Inspect

open Request (countsText)
open Text (ofString decimal)
open Log (Session Traced Level)

/-! ## What is shown -/

/-- The session once the log shows warnings and failures only. -/
def quiet (s : Session) : Session := (s.setLevel .warn).setConsole true

/-- Ends with the outcome of a decoder. -/
def shown {α : Type} (s : Session) (text : α → Text) : Except Error α → Finished
  | .ok a => (s.print (text a), exitOk)
  | .error e => (s.print (failureText e), exitDecode)

/-- An entry for finding faults is not shown. -/
lemma log_quiet {s : Session} {e : Log.Entry} (h : e.level = .debug) : (quiet s).log e = quiet s := by
  apply Session.log_of_rank_lt
  rw [h]
  exact (by decide : Level.debug.rank < Level.warn.rank)

/-- What a decoder leaves in the log is not shown. -/
lemma report_quiet {α : Type} (s : Session) (outcome : Except Error α) (category : Log.Categories)
    (decoder : String) (text : α → Text) :
    report (quiet s) ((Traced.ofOutcome outcome).onError (Log.decoderEntry category decoder)) text =
      shown (quiet s) text outcome := by
  have hentries : (quiet s).logAll
      ((Traced.ofOutcome outcome).onError (Log.decoderEntry category decoder)).entries = quiet s := by
    apply Session.logAll_of_rank_lt
    intro e he
    rw [Log.debugOnly_decoder outcome category decoder e he]
    exact (by decide : Level.debug.rank < Level.warn.rank)
  rw [report, hentries, Traced.outcome_onError, Traced.outcome_ofOutcome]
  cases outcome with
  | ok a => rfl
  | error e =>
    have hnews : Level.info.rank < ((quiet s).print (failureText e)).logger.level.rank :=
      (by decide : Level.info.rank < Level.warn.rank)
    dsimp only
    rw [Session.log_of_rank_lt hnews]
    rfl

/-! ## What a run does -/

section Run

variable {s : Session} {request : Request} {data : Bytes} {settings : List (Text × Text)}

lemma configureLog_given (h : settings.Perm (request.settings data)) :
    (given settings).configureLog s = (quiet s, .ok ()) := by
  have hlevel : (given settings).getD Settings.levelKey (ofString "info") = ofString "warn" := by
    rw [Settings.getD, get?_given_levelKey h]
    rfl
  have hword : Level.ofWord? (ofString "warn") = some .warn := by decide +kernel
  have hcategories : (given settings).list Settings.categoriesKey = [] := by
    rw [← List.head?_eq_none_iff, ← Settings.get?_eq_head?_list]
    exact get?_given_of_notMem h (by decide +kernel)
  have hconsole : (given settings).getBool Settings.consoleKey true = true := by
    rw [Settings.getBool, get?_given_of_notMem h (by decide +kernel)]
  have hfile : (given settings).get? Settings.logFileKey = none :=
    get?_given_of_notMem h (by decide +kernel)
  rw [Settings.configureLog, hlevel, hword]
  dsimp only
  rw [Settings.configureCategories, if_pos hcategories, hconsole, Settings.configureFile, hfile]
  rfl

lemma showJournal_given {counts : List ℕ} (hrequest : (Request.journal counts).WellFormed)
    (h : settings.Perm ((Request.journal counts).settings data)) :
    showJournal (quiet s) (given settings) data =
      shown (quiet s) (journalText counts) (SpendJournal.decode data (blockOfCounts counts)) := by
  obtain ⟨hne, hcounts⟩ := hrequest counts rfl
  rw [showJournal, get?_given_inputsKey h rfl]
  dsimp only
  rw [readCounts_countsText hne hcounts]
  exact report_quiet s _ _ _ _

/-- The decoder of the request is chosen, and its outcome is shown. -/
lemma showRecord_given (hrequest : request.WellFormed) (h : settings.Perm (request.settings data)) :
    showRecord (quiet s) (given settings) request.word data =
      shown (quiet s) (request.text data.length) (request.decode data) := by
  have hundo : ofString "undo" ≠ ofString "coin" ∧ ofString "undo" ≠ ofString "stxo" := by decide
  have htips : ofString "tips" ≠ ofString "coin" ∧ ofString "tips" ≠ ofString "stxo" ∧
    ofString "tips" ≠ ofString "undo" := by decide
  have hstxo : ofString "stxo" ≠ ofString "coin" := by decide
  cases request with
  | coin =>
    rw [Request.word, showRecord, if_pos rfl]
    exact report_quiet s _ _ _ _
  | spentOutput =>
    rw [Request.word, showRecord, if_neg hstxo, if_pos rfl]
    exact report_quiet s _ _ _ _
  | journal counts =>
    rw [Request.word, showRecord, if_neg hundo.1, if_neg hundo.2, if_pos rfl]
    exact showJournal_given hrequest h
  | tips =>
    rw [Request.word, showRecord, if_neg htips.1, if_neg htips.2.1, if_neg htips.2.2, if_pos rfl]
    exact report_quiet s _ _ _ _

lemma perform_given (hrequest : request.WellFormed) (h : settings.Perm (request.settings data)) :
    perform (quiet s) (given settings) =
      shown (quiet s) (request.text data.length) (request.decode data) := by
  have hamount : (given settings).getNumber amountKey = .ok none := by
    rw [Settings.getNumber, get?_given_of_notMem h (by decide +kernel)]
  have hkind : (given settings).getD recordKey [] = request.word := by
    rw [Settings.getD, get?_given_recordKey h]
    rfl
  have hword : request.word ≠ [] := by
    cases request <;> exact List.cons_ne_nil _ _
  rw [perform, hamount]
  dsimp only
  rw [hkind, get?_given_hexKey h]
  dsimp only
  rw [if_neg hword, Hex.decode_encode]
  dsimp only
  rw [log_quiet rfl, showRecord_given hrequest h]

/-- A run whose arguments ask for a record shows the outcome of the decoder. -/
theorem run_given (hrequest : request.WellFormed) (h : settings.Perm (request.settings data)) :
    run s (settings.map Settings.argument) =
      shown (quiet s) (request.text data.length) (request.decode data) := by
  have hplain : ∀ setting ∈ settings, Settings.Plain setting :=
    fun setting hsetting => Request.plain_of_mem_settings (h.mem_iff.mp hsetting)
  have hgiven : (Settings.empty.setDefault Settings.levelKey (ofString "warn")).readArguments
      (settings.map Settings.argument) = (given settings, .ok ()) :=
    Settings.readArguments_map_argument _ hplain
  rw [run, hgiven]
  dsimp only
  rw [loadFile, get?_given_of_notMem h (by decide +kernel)]
  dsimp only
  rw [configure, configureLog_given h]
  exact perform_given hrequest h

end Run

/-! ## Reports and values -/

/-- The lines that show a value which has been read from `size` bytes.  A journal that is shown has an entry
for every input of its transactions. -/
def Request.Reports (size : ℕ) : (request : Request) → request.Value → List Text → Prop
  | coin, c, lines =>
    lines = (ofString "unspent output (" ++ decimal size ++ ofString " bytes)") ::
      fieldLines (ofString "  ") c.header c.out
  | spentOutput, d, lines =>
    lines = (ofString "spent output (" ++ decimal d.bytesRead ++ ofString " of " ++ decimal size ++
      ofString " bytes)") :: fieldLines (ofString "  ") d.value.header d.value.out
  | journal counts, spendJournal, lines =>
    ∃ h : spendJournal.spent.length = counts.sum,
      lines = (ofString "spend journal (" ++ decimal counts.sum ++ ofString " spent outputs)") ::
        entryLines (SpendJournal.entryAt h)
  | tips, hashes, lines =>
    lines = (ofString "tip set (" ++ decimal hashes.length ++ ofString " hashes)") ::
      hashes.map fun hash => ofString "  " ++ hash.toText

/-- A journal has as many entries as the transactions have inputs. -/
lemma length_spent_of_decode {data : Bytes} {txs : List Transaction} {journal : SpendJournal}
    {counts : List ℕ} (h : SpendJournal.decode data txs = .ok journal)
    (hcounts : Transaction.spendCounts txs = counts) : journal.spent.length = counts.sum := by
  rw [← (SpendJournal.entries_of_decode h).1, ← SpendJournal.sum_reverse_spendCounts, hcounts,
    List.sum_reverse]

/-- Lines that show a value are printed as its report. -/
lemma Request.Reports.text_eq {size : ℕ} {request : Request} {value : request.Value} {lines : List Text}
    (h : request.Reports size value lines) : request.text size value = printed lines := by
  cases request with
  | coin =>
    rw [show lines = _ from h]
    exact coinText_eq_printed size value
  | spentOutput =>
    rw [show lines = _ from h]
    exact spentText_eq_printed size value
  | journal counts =>
    obtain ⟨hlength, rfl⟩ := h
    exact journalText_eq_printed hlength
  | tips =>
    rw [show lines = _ from h]
    exact tipsText_eq_printed value

/-- There are lines for every value that has been decoded. -/
lemma exists_reports_of_decode {request : Request} {data : Bytes} {value : request.Value}
    (h : request.decode data = .ok value) (size : ℕ) : ∃ lines, request.Reports size value lines := by
  cases request with
  | coin => exact ⟨_, rfl⟩
  | spentOutput => exact ⟨_, rfl⟩
  | journal counts =>
    exact ⟨_, length_spent_of_decode h (spendCounts_blockOfCounts counts), rfl⟩
  | tips => exact ⟨_, rfl⟩

/-- Lines that are printed alike show the same value. -/
lemma Request.Reports.value_eq {size : ℕ} {request : Request} {value value' : request.Value}
    {lines lines' : List Text} (h : request.Reports size value lines)
    (h' : request.Reports size value' lines') (hprinted : printed lines = printed lines') :
    value = value' := by
  have htext : request.text size value = request.text size value' := by
    rw [h.text_eq, h'.text_eq, hprinted]
  cases request with
  | coin => exact coinText_injective size htext
  | spentOutput => exact spentText_injective size htext
  | journal counts =>
    obtain ⟨hlength, -⟩ := h
    obtain ⟨hlength', -⟩ := h'
    exact eq_of_journalText_eq hlength hlength' htext
  | tips => exact tipsText_injective htext

/-! ## Errors -/

/-- The kinds of error that decoders report, with the words for them. -/
def kindWords : List (ErrorKind × String) :=
  [(.malformed, "malformed"), (.corruption, "corruption"), (.internal, "internal")]

/-- A kind has one word only. -/
lemma eq_name_of_mem_kindWords {kind : ErrorKind} {word : String} (h : (kind, word) ∈ kindWords) :
    word = kind.name := by
  simp only [kindWords, List.mem_cons, Prod.mk.injEq, List.not_mem_nil, or_false] at h
  rcases h with ⟨rfl, rfl⟩ | ⟨rfl, rfl⟩ | ⟨rfl, rfl⟩ <;> rfl

/-- A complaint about the input has a word for its kind. -/
lemma mem_kindWords_of_onInput {e : Error} (h : e.OnInput) : (e.kind, e.kind.name) ∈ kindWords := by
  rcases h with hmalformed | hinternal
  · rw [hmalformed]
    decide
  · rw [Error.kind, hinternal]
    decide

/-- There is a word for the kind of every error that a decoder reports. -/
lemma mem_kindWords_of_decode {request : Request} {data : Bytes} {e : Error}
    (h : request.decode data = .error e) : (e.kind, e.kind.name) ∈ kindWords := by
  cases request with
  | coin => exact mem_kindWords_of_onInput (Coin.failsOnInput_decode data e h)
  | spentOutput => exact mem_kindWords_of_onInput (SpentOutput.failsOnInput_decodeAfter none data e h)
  | journal counts => exact mem_kindWords_of_onInput (SpendJournal.failsOnInput_decode data _ e h)
  | tips =>
    rw [Error.kind, TipSet.code_of_parse h]
    decide

/-- The line for an error. -/
lemma failureText_eq (e : Error) :
    failureText e =
      ofString "decode failed: " ++ ofString e.kind.name ++ ofString " after " ++
        decimal e.bytesRead ++ ofString " bytes: " ++ e.message ++ ofString "\n" := by
  rw [Text.ofString_newline]
  rfl

/-! ## What a run prints -/

/-- A run whose arguments ask for a record prints the value that its decoder returns, all of it, and ends
with success; or it prints the kind, the offset and the message of the decoder's error, and says so by its
status.  For a spend journal the decoder is that for any block with the given input counts, and behind the
label of an input of a transaction stands the entry that the reader reads when it comes to this input. -/
theorem run_shows_decoded (s : Session) (request : Request) (data : Bytes)
    (hrequest : request.WellFormed) {settings : List (Text × Text)}
    (hsettings : settings.Perm (request.settings data)) :
    (∀ value, request.decode data = .ok value →
      ∃ lines, request.Reports data.length value lines ∧
        run s (settings.map Settings.argument) =
          ({ quiet s with output := s.output ++ printed lines }, 0)) ∧
    (∀ e, request.decode data = .error e →
      ∃ word, (e.kind, word) ∈ kindWords ∧
        run s (settings.map Settings.argument) =
          ({ quiet s with output := s.output ++ (ofString "decode failed: " ++ ofString word ++
              ofString " after " ++ decimal e.bytesRead ++ ofString " bytes: " ++ e.message ++
              ofString "\n") }, 1)) ∧
    (∀ size value value' lines lines', request.Reports size value lines →
      request.Reports size value' lines' → printed lines = printed lines' → value = value') ∧
    ∀ counts txs, Transaction.spendCounts txs = counts →
      SpendJournal.decode data (blockOfCounts counts) = SpendJournal.decode data txs ∧
      ∀ journal, SpendJournal.decode data txs = .ok journal →
        ∃ h : journal.spent.length = counts.sum,
          ∀ tx input, SpendJournal.ReadAt data counts tx input (SpendJournal.entryAt h tx input) := by
  refine ⟨?_, ?_, ?_, ?_⟩
  · intro value h
    obtain ⟨lines, hlines⟩ := exists_reports_of_decode h data.length
    refine ⟨lines, hlines, ?_⟩
    rw [run_given hrequest hsettings, h, ← hlines.text_eq]
    rfl
  · intro e h
    refine ⟨e.kind.name, mem_kindWords_of_decode h, ?_⟩
    rw [run_given hrequest hsettings, h, ← failureText_eq]
    rfl
  · intro size value value' lines lines' h h' hprinted
    exact h.value_eq h' hprinted
  · intro counts txs hcounts
    refine ⟨?_, ?_⟩
    · apply SpendJournal.decode_congr
      rw [Transaction.inputCounts_eq_filter, Transaction.inputCounts_eq_filter,
        spendCounts_blockOfCounts, hcounts]
    · intro journal h
      have hlength := length_spent_of_decode h hcounts
      exact ⟨hlength, SpendJournal.readAt_of_decode h hcounts hlength⟩

/-- The report of the journal of mixed transactions. -/
def mixedReport : String :=
  "spend journal (5 spent outputs)\n" ++
    "  tx 0 input 0\n    height:   0\n    coinbase: no\n    amount:   0\n    script:   \n" ++
    "  tx 2 input 0\n    height:   7\n    coinbase: yes\n    amount:   12\n    script:   6a\n" ++
    "  tx 2 input 1\n    height:   9\n    coinbase: no\n    amount:   12\n    script:   6a\n" ++
    "  tx 2 input 2\n    height:   9\n    coinbase: no\n    amount:   50000\n    script:   51ac\n" ++
    "  tx 2 input 3\n    height:   0\n    coinbase: no\n    amount:   1\n" ++
    "    script:   76a914030303030303030303030303030303030303030388ac\n"

/-- What is printed for the journal of mixed transactions, asked for with the record last, and for its first
bytes. -/
theorem run_shows_mixedJournal :
    (run (Session.start .empty [])
        ([(inputsKey, ofString "1,0,4"), (hexKey, Hex.encode SpendJournal.mixedData),
          (recordKey, ofString "undo")].map Settings.argument)).1.output = ofString mixedReport ∧
    (run (Session.start .empty [])
        ([(inputsKey, ofString "1,0,4"), (recordKey, ofString "undo"),
          (hexKey, Hex.encode (SpendJournal.mixedData.take 29))].map Settings.argument)).1.output =
      ofString ("decode failed: internal after 29 bytes: " ++
        "spend journal ended after 2 of 5 spent outputs\n") ∧
    (run (Session.start .empty [])
        ([(inputsKey, ofString "1,0,4"), (recordKey, ofString "undo"),
          (hexKey, Hex.encode (SpendJournal.mixedData.take 29))].map Settings.argument)).2 = 1 := by
  have hrequest : (Request.journal [1, 0, 4]).WellFormed := by
    rintro counts ⟨⟩
    decide
  have hread : (Request.journal [1, 0, 4]).decode SpendJournal.mixedData =
      .ok SpendJournal.mixedJournal := by
    unfold Request.decode
    cbv
  have hcut : (Request.journal [1, 0, 4]).decode (SpendJournal.mixedData.take 29) =
      .error ⟨.journalEnded 2 5, 29⟩ := by
    unfold Request.decode
    cbv
  have hsettings : ∀ data, (Request.journal [1, 0, 4]).settings data =
      [(recordKey, ofString "undo"), (hexKey, Hex.encode data), (inputsKey, ofString "1,0,4")] := by
    have hcounts : countsText [1, 0, 4] = ofString "1,0,4" := by decide +kernel
    intro data
    rw [← hcounts]
    rfl
  have hlast : [(inputsKey, ofString "1,0,4"), (hexKey, Hex.encode SpendJournal.mixedData),
      (recordKey, ofString "undo")].Perm
        ((Request.journal [1, 0, 4]).settings SpendJournal.mixedData) := by
    rw [hsettings]
    exact List.reverse_perm [_, _, _]
  have hmiddle : [(inputsKey, ofString "1,0,4"), (recordKey, ofString "undo"),
      (hexKey, Hex.encode (SpendJournal.mixedData.take 29))].Perm
        ((Request.journal [1, 0, 4]).settings (SpendJournal.mixedData.take 29)) := by
    rw [hsettings]
    exact (List.perm_append_comm : ([_] ++ [_, _]).Perm ([_, _] ++ [_]))
  obtain ⟨lines, ⟨hlength, hlines⟩, hrun⟩ :=
    (run_shows_decoded (.start .empty []) _ SpendJournal.mixedData hrequest hlast).1 _ hread
  obtain ⟨word, hword, hcutRun⟩ :=
    (run_shows_decoded (.start .empty []) _ (SpendJournal.mixedData.take 29) hrequest hmiddle).2.1 _ hcut
  have hinternal : word = "internal" := eq_name_of_mem_kindWords hword
  have hreport : ∀ h : SpendJournal.mixedJournal.spent.length = [1, 0, 4].sum,
      printed ((ofString "spend journal (" ++ decimal [1, 0, 4].sum ++ ofString " spent outputs)") ::
        entryLines (SpendJournal.entryAt h)) = ofString mixedReport := by
    decide +kernel
  rw [hrun, hcutRun, hlines, hinternal]
  exact ⟨hreport hlength, by decide +kernel, rfl⟩

end CoinLedger.Inspect
