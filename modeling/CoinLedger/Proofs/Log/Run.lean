import Mathlib
import CoinLedger.Proofs.Log.Sinks

/-!
# Where the lines of a log go

The calls to a logger alone say what is set at any time (`Switches.after`): the filter, whether lines go to
the error output, and which file is the log file.  So they say which lines are written, and with what set
(`written`), without a look at what waits where.

`sinks_of_run`: after any calls, each file holds its initial text and behind it the lines that were written
while it was the log file, in their order, and the error output holds those written while it was a sink.  No
line is lost, repeated or sent elsewhere when files are changed, closed and opened again.
-/

namespace CoinLedger.Log

open Text (ofString)

/-! ## Calls -/

/-- A call to the logger of a session, or the passing of time between two calls. -/
inductive Call where
  /-- sets the lowest level that is let through -/
  | setLevel (level : Level)
  /-- sets the categories that are let through -/
  | setCategories (categories : Categories)
  /-- switches the error output as a sink on or off -/
  | setConsole (on : Bool)
  /-- changes the log file; the empty path closes it -/
  | setLogFile (path : Text)
  /-- passes on to the log file the lines that wait for it -/
  | flush
  /-- writes an entry, whatever its level and category -/
  | write (e : Entry)
  /-- writes an entry if it is let through -/
  | log (e : Entry)
  /-- lets time go by, up to what the clock shows then -/
  | wait (clock : Text)

namespace Session

/-- Carries out a call. -/
def call (s : Session) : Call → Session
  | .setLevel level => s.setLevel level
  | .setCategories categories => s.setCategories categories
  | .setConsole on => s.setConsole on
  | .setLogFile path => s.setLogFile path
  | .flush => s.flush
  | .write e => s.write e
  | .log e => s.log e
  | .wait clock => { s with clock := clock }

/-- Carries out calls one after the other. -/
def run (s : Session) (calls : List Call) : Session := calls.foldl call s

end Session

/-! ## What the calls alone say -/

namespace Switches

/-- What is set behind a call, in a directory in which the log files are looked up. -/
def after (d : Directory) (w : Switches) : Call → Switches
  | .setLevel level => { w with level := level }
  | .setCategories categories => { w with categories := categories }
  | .setConsole on => { w with console := on }
  | .setLogFile path => { w with file := Session.opens? d path }
  | .wait clock => { w with clock := clock }
  | .flush | .write _ | .log _ => w

/-- The line of an entry. -/
def line (w : Switches) (e : Entry) : Text :=
  ofString "[" ++ w.clock ++ ofString "] " ++ e.line ++ [Text.newline]

/-- The line that a call writes, if it writes one, with what is set then. -/
def lines (w : Switches) : Call → List (Switches × Text)
  | .write e => [(w, w.line e)]
  | .log e => if w.LetsThrough e then [(w, w.line e)] else []
  | _ => []

end Switches

/-- The lines that calls write, in their order, each with what was set when it was written. -/
def written (d : Directory) (w : Switches) : List Call → List (Switches × Text)
  | [] => []
  | c :: calls => w.lines c ++ written d (w.after d c) calls

/-- The lines that were written while the error output was a sink. -/
def consoleText (lines : List (Switches × Text)) : Text :=
  (lines.filter fun line => line.1.console).flatMap Prod.snd

/-- The lines that were written while a file was the log file. -/
def fileText (name : Text) (lines : List (Switches × Text)) : Text :=
  (lines.filter fun line => line.1.file = some name).flatMap Prod.snd

lemma consoleText_append (lines more : List (Switches × Text)) :
    consoleText (lines ++ more) = consoleText lines ++ consoleText more := by
  simp [consoleText]

lemma fileText_append (name : Text) (lines more : List (Switches × Text)) :
    fileText name (lines ++ more) = fileText name lines ++ fileText name more := by
  simp [fileText]

lemma consoleText_singleton (w : Switches) (t : Text) :
    consoleText [(w, t)] = if w.console then t else [] := by
  unfold consoleText
  by_cases h : w.console <;> simp [h]

lemma fileText_singleton (name : Text) (w : Switches) (t : Text) :
    fileText name [(w, t)] = if w.file = some name then t else [] := by
  unfold fileText
  by_cases h : w.file = some name <;> simp [h]

/-! ## One call -/

namespace Session

/-- The session is sound, is set as `w` says, and the paths that can be opened are those of `d`. -/
structure Tracks (d : Directory) (w : Switches) (s : Session) : Prop where
  /-- The session is sound. -/
  sound : s.Sound
  /-- It is set as is said. -/
  switches_eq : s.switches = w
  /-- The paths that can be opened are the same ones. -/
  writable?_eq : ∀ path, s.directory.writable? path = d.writable? path

variable {d : Directory} {w : Switches} {s : Session}

lemma tracks_start (d : Directory) (clock : Text) : Tracks d (start d clock).switches (start d clock) :=
  ⟨⟨rfl, nofun⟩, rfl, fun _ => rfl⟩

lemma Tracks.opens?_eq (h : Tracks d w s) (path : Text) : opens? s.directory path = opens? d path := by
  unfold opens?
  rw [h.writable?_eq]

lemma Tracks.of_setAlike (h : Tracks d w s) {s' : Session} (halike : SetAlike s s') : Tracks d w s' :=
  ⟨halike.sound h.sound, halike.switches_eq.trans h.switches_eq,
    fun path => (halike.files.writable?_eq path).trans (h.writable?_eq path)⟩

lemma Tracks.line_eq (h : Tracks d w s) (e : Entry) : s.line e = w.line e := by
  rw [Session.line_eq, h.switches_eq, Switches.line]

lemma Tracks.log_eq (h : Tracks d w s) (e : Entry) :
    s.log e = if w.LetsThrough e then s.write e else s := by
  rw [Session.log_eq h.sound, h.switches_eq]

/-- Behind each call the session is set as the calls say. -/
lemma Tracks.call (h : Tracks d w s) (c : Call) : Tracks d (w.after d c) (s.call c) := by
  obtain ⟨hsound, rfl, hwritable⟩ := h
  have hset : ∀ s' : Session, s'.logger.file = s.logger.file → s'.logger.toFile = s.logger.toFile →
      s'.directory = s.directory → Tracks d s'.switches s' := by
    intro s' hfile htoFile hdirectory
    refine ⟨⟨?_, ?_⟩, rfl, ?_⟩
    · rw [htoFile, hfile, hsound.toFile_eq]
    · rw [hfile, hdirectory]
      exact hsound.isSome_find?
    · rw [hdirectory]
      exact hwritable
  have hkept : Tracks d s.switches s := ⟨hsound, rfl, hwritable⟩
  cases c with
  | setLevel level => exact hset (s.setLevel level) rfl rfl rfl
  | setCategories categories => exact hset (s.setCategories categories) rfl rfl rfl
  | setConsole on => exact hset (s.setConsole on) rfl rfl rfl
  | wait clock => exact hset { s with clock := clock } rfl rfl rfl
  | setLogFile path =>
    refine ⟨sound_setLogFile path hsound, ?_, ?_⟩
    · rw [Session.call, switches_setLogFile path hsound, hkept.opens?_eq, Switches.after]
    · intro other
      rw [Session.call, writable?_setLogFile path hsound, hwritable]
  | flush => exact hkept.of_setAlike (setAlike_flush hsound)
  | write e => exact hkept.of_setAlike (setAlike_write e hsound)
  | log e =>
    rw [Session.call, hkept.log_eq]
    split
    next => exact hkept.of_setAlike (setAlike_write e hsound)
    next => exact hkept

/-- From the first session to the second nothing is written. -/
structure Silent (s s' : Session) : Prop where
  /-- The files are the same ones. -/
  files : s.directory.SameFiles s'.directory
  /-- The files have the same texts, with what waits for them. -/
  text_eq : ∀ name, s'.text name = s.text name
  /-- The error output is the same one. -/
  errors_eq : s'.errors = s.errors

/-- A call changes the log file, writes one entry or writes nothing. -/
lemma call_cases (h : Tracks d w s) (c : Call) :
    (∃ path, c = .setLogFile path ∧ s.call c = s.setLogFile path ∧ w.lines c = []) ∨
    (∀ path, c ≠ .setLogFile path) ∧
      ((∃ e, s.call c = s.write e ∧ w.lines c = [(w, w.line e)]) ∨
        (Silent s (s.call c) ∧ w.lines c = [])) := by
  have hkept : Silent s s := ⟨.refl _, fun _ => rfl, rfl⟩
  have hflush : Silent s s.flush := ⟨(setAlike_flush h.sound).files, text_flush s, errors_flush s⟩
  cases c with
  | setLevel level => exact Or.inr ⟨nofun, Or.inr ⟨⟨.refl _, fun _ => rfl, rfl⟩, rfl⟩⟩
  | setCategories categories => exact Or.inr ⟨nofun, Or.inr ⟨⟨.refl _, fun _ => rfl, rfl⟩, rfl⟩⟩
  | setConsole on => exact Or.inr ⟨nofun, Or.inr ⟨⟨.refl _, fun _ => rfl, rfl⟩, rfl⟩⟩
  | wait clock => exact Or.inr ⟨nofun, Or.inr ⟨⟨.refl _, fun _ => rfl, rfl⟩, rfl⟩⟩
  | setLogFile path => exact Or.inl ⟨path, rfl, rfl, rfl⟩
  | flush => exact Or.inr ⟨nofun, Or.inr ⟨hflush, rfl⟩⟩
  | write e => exact Or.inr ⟨nofun, Or.inl ⟨e, rfl, rfl⟩⟩
  | log e =>
    refine Or.inr ⟨nofun, ?_⟩
    rw [Session.call, h.log_eq, Switches.lines]
    split
    next => exact Or.inl ⟨e, rfl, rfl⟩
    next => exact Or.inr ⟨hkept, rfl⟩

/-- A call adds to each file the line that it writes, if that is the log file. -/
lemma text_call (h : Tracks d w s) (c : Call) (name : Text) :
    (s.call c).text name = s.text name ++ fileText name (w.lines c) := by
  have hnone : fileText name [] = [] := rfl
  rcases call_cases h c with ⟨path, -, hcall, hlines⟩ | ⟨-, ⟨e, hcall, hlines⟩ | ⟨hsilent, hlines⟩⟩
  · rw [hcall, hlines, hnone, List.append_nil, text_setLogFile path h.sound]
  · rw [hcall, hlines, text_write e h.sound, fileText_singleton, h.switches_eq, h.line_eq]
  · rw [hlines, hnone, List.append_nil, hsilent.text_eq]

/-- A call adds to the error output the line that it writes, if that is a sink.  Only a path that cannot
be opened is complained about there in any case. -/
lemma errors_call (h : Tracks d w s) (c : Call)
    (hopen : ∀ path, c = .setLogFile path → path = [] ∨ (d.writable? path).isSome) :
    (s.call c).errors = s.errors ++ consoleText (w.lines c) := by
  have hnone : consoleText [] = [] := rfl
  rcases call_cases h c with ⟨path, hc, hcall, hlines⟩ | ⟨-, ⟨e, hcall, hlines⟩ | ⟨hsilent, hlines⟩⟩
  · have hcomplaint : complaint s.directory path = [] := by
      rw [complaint, h.writable?_eq, if_pos (hopen path hc)]
    rw [hcall, hlines, hnone, errors_setLogFile path h.sound, hcomplaint]
  · rw [hcall, hlines, errors_write, consoleText_singleton, h.switches_eq, h.line_eq]
  · rw [hlines, hnone, List.append_nil, hsilent.errors_eq]

/-- A file is there behind a call if it was there or has been opened by it. -/
lemma isSome_find?_call (h : Tracks d w s) (c : Call) (name : Text) :
    ((s.call c).directory.find? name).isSome ↔
      (s.directory.find? name).isSome ∨ ∃ path, c = .setLogFile path ∧ opens? d path = some name := by
  rcases call_cases h c with ⟨path, hc, hcall, -⟩ | ⟨hne, ⟨e, hcall, -⟩ | ⟨hsilent, -⟩⟩
  · rw [hcall, isSome_find?_setLogFile path h.sound, h.opens?_eq]
    simp [hc]
  · rw [hcall, (setAlike_write e h.sound).files.isSome_find?]
    simp [hne]
  · rw [hsilent.files.isSome_find?]
    simp [hne]

/-! ## All calls -/

lemma run_cons (s : Session) (c : Call) (calls : List Call) :
    s.run (c :: calls) = (s.call c).run calls := rfl

lemma Tracks.run (h : Tracks d w s) (calls : List Call) :
    Tracks d (calls.foldl (Switches.after d) w) (s.run calls) := by
  induction calls generalizing s w with
  | nil => exact h
  | cons c calls ih => exact ih (h.call c)

lemma text_run (h : Tracks d w s) (calls : List Call) (name : Text) :
    (s.run calls).text name = s.text name ++ fileText name (written d w calls) := by
  induction calls generalizing s w with
  | nil => exact (List.append_nil _).symm
  | cons c calls ih =>
    rw [run_cons, ih (h.call c), text_call h, written, fileText_append, List.append_assoc]

lemma errors_run (h : Tracks d w s) (calls : List Call)
    (hopen : ∀ path, .setLogFile path ∈ calls → path = [] ∨ (d.writable? path).isSome) :
    (s.run calls).errors = s.errors ++ consoleText (written d w calls) := by
  induction calls generalizing s w with
  | nil => exact (List.append_nil _).symm
  | cons c calls ih =>
    have hfirst : ∀ path, c = .setLogFile path → path = [] ∨ (d.writable? path).isSome :=
      fun path hc => hopen path (hc ▸ List.mem_cons_self)
    have hothers := ih (h.call c) fun path hpath => hopen path (List.mem_cons_of_mem c hpath)
    rw [run_cons, hothers, errors_call h c hfirst, written, consoleText_append, List.append_assoc]

lemma isSome_find?_run (h : Tracks d w s) (calls : List Call) (name : Text) :
    ((s.run calls).directory.find? name).isSome ↔
      (s.directory.find? name).isSome ∨
        ∃ path, .setLogFile path ∈ calls ∧ opens? d path = some name := by
  induction calls generalizing s w with
  | nil => simp [run]
  | cons c calls ih =>
    rw [run_cons, ih (h.call c), isSome_find?_call h, or_assoc, ← exists_or]
    simp only [List.mem_cons, or_and_right, @eq_comm _ c]

/-! ## Entries logged one after the other -/

lemma logAll_eq_run (s : Session) (entries : List Entry) : s.logAll entries = s.run (entries.map .log) := by
  rw [logAll, run, List.foldl_map]
  rfl

/-- Of the entries that are logged those that are let through are written. -/
lemma written_map_log (d : Directory) (w : Switches) (entries : List Entry) :
    written d w (entries.map .log) =
      (entries.filter fun e => w.LetsThrough e).map fun e => (w, w.line e) := by
  induction entries with
  | nil => rfl
  | cons e entries ih =>
    rw [List.map_cons, written, Switches.after, ih, Switches.lines]
    by_cases h : w.LetsThrough e <;> simp [h]

/-- The entries that are let through add their lines to the error output, if that is a sink. -/
lemma errors_logAll (h : Tracks d w s) (entries : List Entry) :
    (s.logAll entries).errors =
      s.errors ++ if w.console then (entries.filter fun e => w.LetsThrough e).flatMap s.line else [] := by
  have hline : s.line = w.line := funext h.line_eq
  rw [logAll_eq_run, errors_run h _ (by simp), written_map_log, hline]
  unfold consoleText
  by_cases hconsole : w.console <;> simp [List.flatMap_map, List.filter_map, hconsole]

/-- The entries that are let through add their lines to the open log file and to no other. -/
lemma text_logAll (h : Tracks d w s) (entries : List Entry) (name : Text) :
    (s.logAll entries).text name =
      s.text name ++ if w.file = some name then (entries.filter fun e => w.LetsThrough e).flatMap s.line
        else [] := by
  have hline : s.line = w.line := funext h.line_eq
  rw [logAll_eq_run, text_run h, written_map_log, hline]
  unfold fileText
  by_cases hfile : w.file = some name <;> simp [List.flatMap_map, List.filter_map, hfile]

/-! ## The sinks -/

/-- After any calls to the logger of a session: a file holds its initial text and behind it, in their
order, the lines that were written while it was the log file, and it is there if it was or has been opened.
The error output holds the lines that were written while it was a sink, if every path could be opened.
Lines go to a file exactly while one is open, and all is set as the calls say.  An entry is written if its
level reaches the threshold, its category is none or enabled, and a sink is on; so each entry that is
let through reaches a sink. -/
theorem sinks_of_run (d : Directory) (clock : Text) (calls : List Call) :
    let s := (start d clock).run calls
    let lines := written d (start d clock).switches calls
    (∀ name, (s.flush.directory.find? name).getD [] = (d.find? name).getD [] ++ fileText name lines) ∧
    (∀ name, (s.flush.directory.find? name).isSome ↔
      (d.find? name).isSome ∨ ∃ path, .setLogFile path ∈ calls ∧ opens? d path = some name) ∧
    ((∀ path, .setLogFile path ∈ calls → path = [] ∨ (d.writable? path).isSome) →
      s.errors = consoleText lines) ∧
    s.logger.toFile = s.logger.file.isSome ∧
    s.switches = calls.foldl (Switches.after d) (start d clock).switches ∧
    ∀ e, (s.logger.admits e.level e.category = true ↔ s.switches.LetsThrough e) ∧
      s.log e = (if s.switches.LetsThrough e then s.write e else s) ∧
      (s.logger.admits e.level e.category = true →
        (s.log e).errors = s.errors ++ s.line e ∨
          ∃ name, s.switches.file = some name ∧ (s.log e).text name = s.text name ++ s.line e) := by
  intro s lines
  have hstart := tracks_start d clock
  have htracks : Tracks d _ s := hstart.run calls
  refine ⟨?_, ?_, ?_, htracks.sound.toFile_eq, htracks.switches_eq, ?_⟩
  · intro name
    rw [getD_find?_flush, text_run hstart]
    rfl
  · intro name
    rw [(setAlike_flush htracks.sound).files.isSome_find?, isSome_find?_run hstart]
    rfl
  · intro hopen
    rw [errors_run hstart calls hopen]
    rfl
  · intro e
    refine ⟨admits_iff htracks.sound e, log_eq htracks.sound e, ?_⟩
    intro hadmits
    have hlets := (admits_iff htracks.sound e).mp hadmits
    rw [log_eq htracks.sound, if_pos hlets]
    rcases hlets.2.2 with hconsole | hfile
    · exact Or.inl (by rw [errors_write, if_pos hconsole])
    · obtain ⟨name, hname⟩ := Option.isSome_iff_exists.mp hfile
      exact Or.inr ⟨name, hname, by rw [text_write e htracks.sound, if_pos hname]⟩

/-- A directory with a folder and a log file from an earlier run. -/
def earlierLog : Directory :=
  { Directory.empty with
    folders := [Directory.empty.home ++ [ofString "logs"]]
    files := [(ofString "a.log", ofString "old\n")] }

/-- Calls that leave a log file for another one and come back to it by another path, with entries that are dropped, an
entry that goes nowhere, and one that is written whatever its level. -/
def changingFiles : List Call :=
  [.setLogFile (ofString "a.log"), .log ⟨.info, .db, ofString "first"⟩, .setConsole false,
    .log ⟨.debug, .db, ofString "dropped"⟩, .setLogFile (ofString "logs/../b.log"),
    .write ⟨.debug, .tips, ofString "second"⟩, .setLogFile [], .write ⟨.fatal, .db, ofString "nowhere"⟩,
    .wait (ofString "t'"), .setLogFile (ofString ".//a.log"), .setCategories .undo,
    .log ⟨.error, .db, ofString "dropped"⟩, .log ⟨.info, .none, ofString "third"⟩]

/-- What these calls leave in the files and on the error output. -/
theorem sinks_of_changingFiles :
    ((((start earlierLog (ofString "t")).run changingFiles).flush.directory.find?
      (ofString "a.log")).getD [] =
        ofString "old\n[t] [INFO] [DB] first\n[t'] [INFO] [NONE] third\n") ∧
    ((((start earlierLog (ofString "t")).run changingFiles).flush.directory.find?
      (ofString "b.log")).getD [] = ofString "[t] [DEBUG] [TIPS] second\n") ∧
    ((start earlierLog (ofString "t")).run changingFiles).errors =
      ofString "[t] [INFO] [DB] first\n" := by
  obtain ⟨htext, -, herrors, -⟩ := sinks_of_run earlierLog (ofString "t") changingFiles
  have hopen : ∀ path, .setLogFile path ∈ changingFiles →
      path = [] ∨ (earlierLog.writable? path).isSome := by
    intro path hpath
    simp only [changingFiles, List.mem_cons, List.not_mem_nil, reduceCtorEq, or_false, false_or,
      Call.setLogFile.injEq] at hpath
    rcases hpath with rfl | rfl | rfl | rfl
    all_goals decide +kernel
  rw [htext, htext, herrors hopen]
  decide +kernel

end Session

end CoinLedger.Log
