import Mathlib
import CoinLedger.Proofs.Ledger.Damage
import CoinLedger.Proofs.Log.Run
import CoinLedger.Proofs.SpendJournal.BlockOrder

/-!
# What the ledger reports

A failure of the ledger is reported once and at one place: whatever the decoders beneath it leave in the
log is there for finding faults only, and the ledger adds one entry of the level `error` if a record is
damaged or an invariant is broken (`Reports`).  A command that succeeds and one that finds no record add
none.

`reports_of_run` says this of what a command writes to the sinks of a session.
-/

namespace CoinLedger.Ledger

open Log (Traced Entry Session Level)
open Text (ofString)

/-- The entries of the level `error`. -/
def errorsIn (entries : List Entry) : List Entry := entries.filter fun entry => entry.level = .error

/-- Whether an error says that a record is damaged or that an invariant is broken. -/
def Grave (e : Error) : Prop := e.kind = .corruption ∨ e.kind = .internal

/-- A success leaves no error in the log.  A failure is either grave, and then it is the one error there,
under the name `what`, or it says that there is no such record, and then there is none. -/
structure Reports {α : Type} (what : Text) (t : Traced α) : Prop where
  /-- A success leaves no error. -/
  ok : ∀ a, t.outcome = .ok a → errorsIn t.entries = []
  /-- A failure is reported once if it is grave, and else it is the absence of a record. -/
  error : ∀ e, t.outcome = .error e →
    (Grave e ∧ errorsIn t.entries = [errorEntry what e]) ∨
      (e.code = .storageNotFound ∧ errorsIn t.entries = [])

variable {α : Type} {what : Text}

/-! ## Outcomes -/

/-- Entries for finding faults are no errors. -/
lemma errorsIn_of_debugOnly {t : Traced α} (h : t.DebugOnly) : errorsIn t.entries = [] := by
  unfold errorsIn
  rw [List.filter_eq_nil_iff]
  intro entry hentry
  simp [h entry hentry, Level.debug, Level.error]

/-- The report of a failure is an error, and behind entries that are none it is the only one. -/
lemma errorsIn_append_errorEntry {entries : List Entry} (h : errorsIn entries = []) (what : Text)
    (e : Error) : errorsIn (entries ++ [errorEntry what e]) = [errorEntry what e] := by
  have hreport : errorsIn [errorEntry what e] = [errorEntry what e] := rfl
  unfold errorsIn at h hreport ⊢
  rw [List.filter_append, h, hreport, List.nil_append]

/-- Whatever becomes of the value of a success, what is reported stays. -/
lemma Reports.of_entries_eq {β : Type} {t : Traced α} {t' : Traced β} (h : Reports what t)
    (hentries : t'.entries = t.entries) (hok : ∀ b, t'.outcome = .ok b → ∃ a, t.outcome = .ok a)
    (herror : ∀ e, t'.outcome = .error e → t.outcome = .error e) : Reports what t' := by
  constructor
  · intro b hb
    obtain ⟨a, ha⟩ := hok b hb
    rw [hentries, h.ok a ha]
  · intro e he
    rw [hentries]
    exact h.error e (herror e he)

lemma reports_of_ok {t : Traced α} {a : α} (h : t.outcome = .ok a) (hentries : errorsIn t.entries = []) :
    Reports what t :=
  ⟨fun _ _ => hentries, by simp [h]⟩

lemma reports_of_grave {t : Traced α} {e : Error} (h : t.outcome = .error e) (hgrave : Grave e)
    (hentries : errorsIn t.entries = [errorEntry what e]) : Reports what t := by
  refine ⟨by simp [h], ?_⟩
  intro e' he
  rw [h, Except.error.injEq] at he
  rw [← he]
  exact Or.inl ⟨hgrave, hentries⟩

lemma reports_silent_ok (a : α) : Reports what (.silent (.ok a)) := reports_of_ok rfl rfl

/-- The absence of a record is not reported. -/
lemma reports_silent_noEntry (bucket : Text) (k : ℕ) :
    Reports what (.silent (.error ⟨.noEntry bucket, k⟩) : Traced α) := by
  refine ⟨nofun, ?_⟩
  rintro e ⟨⟩
  exact Or.inr ⟨rfl, rfl⟩

/-- A complaint about the input is grave once it is said of a stored record. -/
lemma grave_damage {e : Error} (h : e.OnInput) (what : Text) : Grave (damage what e) := by
  unfold damage
  rcases h with hmalformed | hinternal
  · rw [if_pos hmalformed]
    exact Or.inl rfl
  · have hkind : e.kind = .internal := Error.kind_eq_of_code hinternal
    rw [if_neg (by rw [hkind]; decide)]
    exact Or.inr hkind

/-- What a decoder complains about is reported once. -/
lemma reports_reportDamage {outcome : Except Error α} (h : FailsOnInput outcome)
    (category : Log.Categories) (decoder : String) (what : Text) :
    Reports what
      (reportDamage what ((Traced.ofOutcome outcome).onError (Log.decoderEntry category decoder))) := by
  have hentries := errorsIn_of_debugOnly (Log.debugOnly_decoder outcome category decoder)
  unfold reportDamage
  split
  next a hok => exact reports_of_ok hok hentries
  next e herror =>
    rw [Traced.outcome_onError, Traced.outcome_ofOutcome] at herror
    exact reports_of_grave rfl (grave_damage (h e herror) what)
      (errorsIn_append_errorEntry hentries what _)

/-! ## Operations -/

section Operations

variable (s : Store)

lemma reports_getCoin (o : OutPoint) : Reports (coinName o) (getCoin s o) := by
  unfold getCoin Store.get
  cases s.find? (coinSlot o) with
  | none => exact reports_silent_noEntry _ _
  | some data => exact reports_reportDamage (Coin.failsOnInput_decode data) _ _ _

lemma reports_insertJournal (block : Hash) (journal : SpendJournal) (txs : List Transaction) :
    Reports (journalName block) (insertJournal s block journal txs) := by
  unfold insertJournal
  split
  next e herror =>
    have hgrave : Grave e := Or.inr (Error.kind_eq_of_code (SpendJournal.code_of_encode herror))
    exact reports_of_grave rfl hgrave rfl
  next => exact reports_silent_ok _

lemma reports_getJournal (block : Hash) (txs : List Transaction) :
    Reports (journalName block) (getJournal s block txs) := by
  unfold getJournal Store.get
  cases s.find? (journalSlot block) with
  | none =>
    dsimp only
    split
    next => exact reports_silent_ok _
    next => exact reports_silent_noEntry _ _
  | some data => exact reports_reportDamage (SpendJournal.failsOnInput_decode data txs) _ _ _

/-- The entry for stored tips is there for finding faults. -/
lemma reports_setTips (tips : List Hash) : Reports what (setTips s tips) := reports_of_ok rfl rfl

/-- Tips that are refused say that they are damaged, and that is reported as it is. -/
lemma reports_getTips : Reports (ofString "tip set") (getTips s) := by
  unfold getTips Store.get
  cases s.find? tipSlot with
  | none => exact reports_silent_noEntry _ _
  | some data =>
    have hentries := errorsIn_of_debugOnly
      (Log.debugOnly_decoder (TipSet.parse data) .tips "deserialize_tip_hashes")
    dsimp only
    unfold Traced.onError
    split
    next a hok => exact reports_of_ok hok hentries
    next e herror =>
      refine reports_of_grave herror ?_ (errorsIn_append_errorEntry hentries (ofString "tip set") e)
      rw [Log.parseTips, Traced.outcome_onError, Traced.outcome_ofOutcome] at herror
      exact Or.inl (Error.kind_eq_of_code (TipSet.code_of_parse herror))

end Operations

/-! ## Commands -/

namespace Command

/-- The name under which a command reports a failure. -/
def record : Command → Text
  | .insertCoin o _ | .getCoin o | .eraseCoin o => coinName o
  | .insertJournal block _ _ | .getJournal block _ | .eraseJournal block => journalName block
  | _ => ofString "tip set"

lemma reports_reading {t : Traced α} (h : Reports what t) (s : Store) (answer : α → Answer) :
    Reports what (reading s answer t).1 := by
  refine h.of_entries_eq rfl ?_ ?_
  · intro b hb
    cases houtcome : t.outcome with
    | ok a => exact ⟨a, rfl⟩
    | error e => simp [reading, houtcome, Except.map] at hb
  · intro e he
    cases houtcome : t.outcome with
    | ok a => simp [reading, houtcome, Except.map] at he
    | error e' => simpa [reading, houtcome, Except.map] using he

lemma reports_writing {s : Store} {t : Traced Store} (h : Reports what t) :
    Reports what (writing s t).1 := by
  unfold writing
  split
  next a hok => exact h.of_entries_eq rfl (fun _ _ => ⟨a, hok⟩) nofun
  next e herror => exact h.of_entries_eq rfl nofun (by rintro e' ⟨⟩; exact herror)

/-- Every command reports its failure once if it is grave, and no other one. -/
lemma reports_run (s : Store) (c : Command) : Reports c.record (run s c).1 := by
  cases c with
  | insertCoin o c => exact reports_writing (reports_silent_ok _)
  | getCoin o => exact reports_reading (reports_getCoin s o) s .coin
  | eraseCoin o => exact reports_writing (reports_silent_ok _)
  | insertJournal block journal txs => exact reports_writing (reports_insertJournal s block journal txs)
  | getJournal block txs => exact reports_reading (reports_getJournal s block txs) s .journal
  | eraseJournal block => exact reports_writing (reports_silent_ok _)
  | setTips tips => exact reports_writing (reports_setTips s tips)
  | getTips => exact reports_reading (reports_getTips s) s .tips
  | write slot value => exact reports_writing (reports_silent_ok _)
  | read slot =>
    refine reports_reading ?_ s .value
    unfold Store.get
    cases s.find? slot with
    | none => exact reports_silent_noEntry _ _
    | some value => exact reports_silent_ok _
  | erase slot => exact reports_writing (reports_silent_ok _)
  | contains slot => exact reports_reading (reports_silent_ok _) s .verdict
  | size bucket => exact reports_reading (reports_silent_ok _) s .count

end Command

/-! ## What is written -/

/-- Where errors of the ledger are let through, the errors that are written are those that are reported. -/
lemma Reports.errorsIn_filter {t : Traced α} (h : Reports what t) {w : Log.Switches}
    (hlets : w.LetsThrough ⟨.error, .db, []⟩) :
    errorsIn (t.entries.filter fun entry => w.LetsThrough entry) = errorsIn t.entries := by
  have hreport : ∀ entry ∈ errorsIn t.entries, ∃ e, entry = errorEntry what e := by
    intro entry hentry
    cases houtcome : t.outcome with
    | ok a => simp [h.ok a houtcome] at hentry
    | error e =>
      rcases h.error e houtcome with ⟨-, hone⟩ | ⟨-, hnone⟩
      · exact ⟨e, List.mem_singleton.mp (hone ▸ hentry)⟩
      · simp [hnone] at hentry
  unfold errorsIn at hreport ⊢
  rw [List.filter_comm, List.filter_eq_self]
  intro entry hentry
  obtain ⟨e, rfl⟩ := hreport entry hentry
  exact decide_eq_true hlets

/-- A line has the time, the level, the category and the message of its entry. -/
lemma line_eq (s : Session) (entry : Entry) :
    s.line entry =
      ofString "[" ++ s.clock ++ ofString "] [" ++ ofString entry.level.name ++ ofString "] [" ++
        ofString entry.category.name ++ ofString "] " ++ entry.message ++ ofString "\n" := by
  have hopen : ofString "] [" = ofString "] " ++ ofString "[" := by decide
  rw [Session.line, Entry.line, Text.ofString_newline, hopen]
  simp only [List.append_assoc]

/-- The line of an error of the ledger. -/
lemma line_error_db (s : Session) (message : Text) :
    s.line ⟨.error, .db, message⟩ =
      ofString "[" ++ s.clock ++ ofString "] [ERROR] [DB] " ++ message ++ ofString "\n" := by
  have hlabels : ofString "] [ERROR] [DB] " =
      ofString "] [" ++ ofString Level.error.name ++ ofString "] [" ++
        ofString Log.Categories.db.name ++ ofString "] " := by decide +kernel
  rw [line_eq, hlabels]
  simp only [List.append_assoc]

/-- Whatever bytes a store holds, and whatever calls have been made to the logger of a session that lets
errors of the ledger through: a command writes the entries that are let through, each as one line, to every
sink that is on, and some sink is.  If it says that a record is damaged or that an invariant is broken, one
of these entries is an error, which says so; if it succeeds or finds no record, none is.  It fails in no
other way. -/
theorem reports_of_run (store : Store) (c : Command) (d : Directory) (clock : Text)
    (calls : List Log.Call)
    (hadmits : ((Session.start d clock).run calls).logger.admits .error .db = true) :
    let s := (Session.start d clock).run calls
    let reply := (c.run store).1
    let shown := reply.entries.filter fun entry => s.switches.LetsThrough entry
    (s.logAll reply.entries).errors =
      s.errors ++ (if s.switches.console then shown.flatMap s.line else []) ∧
    (∀ name, (s.logAll reply.entries).text name =
      s.text name ++ if s.switches.file = some name then shown.flatMap s.line else []) ∧
    (s.switches.console = true ∨ s.switches.file.isSome) ∧
    (∀ e, reply.outcome = .error e → e.kind = .corruption ∨ e.kind = .internal →
      errorsIn shown = [⟨.error, .db, c.record ++ ofString ": " ++ e.format⟩] ∧
      s.line ⟨.error, .db, c.record ++ ofString ": " ++ e.format⟩ =
        ofString "[" ++ s.clock ++ ofString "] [ERROR] [DB] " ++ (c.record ++ ofString ": " ++ e.format) ++
          ofString "\n") ∧
    ((∃ answer, reply.outcome = .ok answer) ∨
      (∃ e, reply.outcome = .error e ∧ e.code = .storageNotFound) → errorsIn shown = []) ∧
    (∀ e, reply.outcome = .error e →
      e.kind = .corruption ∨ e.kind = .internal ∨ e.code = .storageNotFound) ∧
    ∀ entry, s.line entry =
      ofString "[" ++ s.clock ++ ofString "] [" ++ ofString entry.level.name ++ ofString "] [" ++
        ofString entry.category.name ++ ofString "] " ++ entry.message ++ ofString "\n" := by
  intro s reply shown
  have htracks : Session.Tracks d _ s := (Session.tracks_start d clock).run calls
  have hreports : Reports c.record reply := Command.reports_run store c
  have hlets : s.switches.LetsThrough ⟨.error, .db, []⟩ :=
    (Session.admits_iff htracks.sound ⟨.error, .db, []⟩).mp hadmits
  have habsent : ∀ e : Error, e.code = .storageNotFound → ¬ Grave e := by
    intro e hcode
    have hkind : e.kind = .notFound := Error.kind_eq_of_code hcode
    simp [Grave, hkind]
  have hshown : errorsIn shown = errorsIn reply.entries := hreports.errorsIn_filter hlets
  rw [hshown]
  refine ⟨?_, ?_, hlets.2.2, ?_, ?_, ?_, line_eq s⟩
  · rw [Session.errors_logAll htracks, ← htracks.switches_eq]
  · intro name
    rw [Session.text_logAll htracks, ← htracks.switches_eq]
  · intro e houtcome hgrave
    rcases hreports.error e houtcome with ⟨-, hone⟩ | ⟨hcode, -⟩
    · exact ⟨hone, line_error_db s _⟩
    · exact absurd hgrave (habsent e hcode)
  · rintro (⟨answer, hok⟩ | ⟨e, herror, hcode⟩)
    · exact hreports.ok answer hok
    · rcases hreports.error e herror with ⟨hgrave, -⟩ | ⟨-, hnone⟩
      · exact absurd hgrave (habsent e hcode)
      · exact hnone
  · intro e houtcome
    rcases hreports.error e houtcome with ⟨hgrave, -⟩ | ⟨hcode, -⟩
    · exact or_assoc.mp (Or.inl hgrave)
    · exact Or.inr (Or.inr hcode)

/-- The log of a session shows everything, in a file and on the error output. -/
def chattyCalls : List Log.Call := [.setLevel .trace, .setLogFile (ofString "ledger.log")]

/-- What is written for a coin that is cut. -/
def cutCoinLines : String :=
  "[t] [DEBUG] [COINS] Coin::deserialize: PARSE_UNDERFLOW(102): " ++
    "unexpected end of data after header (bytes read: 1)\n" ++
    "[t] [ERROR] [DB] unspent output " ++
    "0000000000000000000000000000000000000000000000000000000000000000:0: STORAGE_CORRUPT(502): " ++
    "unspent output 0000000000000000000000000000000000000000000000000000000000000000:0: " ++
    "unexpected end of data after header (bytes read: 1)\n"

/-- A coin that is cut is reported once, beside what its decoder leaves in the log, and one that is not
there is not reported. -/
theorem reports_of_cutCoin :
    ((Session.start .empty (ofString "t")).run chattyCalls).logger.admits .error .db = true ∧
    (Command.run damagedStore (.getCoin ⟨Hash.zero, 0⟩)).1.entries.length = 2 ∧
    (((Session.start .empty (ofString "t")).run chattyCalls).logAll
      (Command.run damagedStore (.getCoin ⟨Hash.zero, 0⟩)).1.entries).text (ofString "ledger.log") =
        ofString cutCoinLines ∧
    errorsIn ((Command.run damagedStore (.getCoin ⟨Hash.zero, 0⟩)).1.entries.filter fun entry =>
      ((Session.start .empty (ofString "t")).run chattyCalls).switches.LetsThrough entry) =
        [⟨.error, .db, coinName ⟨Hash.zero, 0⟩ ++ ofString ": " ++
          (⟨.damaged (coinName ⟨Hash.zero, 0⟩) .endsAfterHeader, 1⟩ : Error).format⟩] ∧
    errorsIn ((Command.run damagedStore (.getCoin ⟨Hash.zero, 2⟩)).1.entries.filter fun entry =>
      ((Session.start .empty (ofString "t")).run chattyCalls).switches.LetsThrough entry) = [] := by
  have hadmits : ((Session.start .empty (ofString "t")).run chattyCalls).logger.admits .error .db =
      true := by decide +kernel
  have hcut : (Command.run damagedStore (.getCoin ⟨Hash.zero, 0⟩)).1.outcome =
      .error ⟨.damaged (coinName ⟨Hash.zero, 0⟩) .endsAfterHeader, 1⟩ := by decide +kernel
  have hnone : (Command.run damagedStore (.getCoin ⟨Hash.zero, 2⟩)).1.outcome =
      .error ⟨.noEntry coinBucket, 0⟩ := by decide +kernel
  obtain ⟨-, htext, -, hone, -, -, -⟩ := reports_of_run damagedStore (.getCoin ⟨Hash.zero, 0⟩) .empty
    (ofString "t") chattyCalls hadmits
  obtain ⟨-, -, -, -, habsent, -, -⟩ := reports_of_run damagedStore (.getCoin ⟨Hash.zero, 2⟩) .empty
    (ofString "t") chattyCalls hadmits
  refine ⟨hadmits, by decide +kernel, ?_, (hone _ hcut (Or.inl rfl)).1, habsent (Or.inr ⟨_, hnone, rfl⟩)⟩
  rw [htext]
  decide +kernel

end CoinLedger.Ledger
