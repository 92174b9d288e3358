import Mathlib
import CoinLedger.Log.Session
import CoinLedger.Proofs.Directory

/-!
# The sinks of a log

`Session.text` is what a file holds once everything that waits for it has been passed on.  Passing on,
closing and opening change no such text (`text_flush`, `text_closeLogFile`, `text_setLogFile`), and an entry
that is written adds its line to the open log file and to nothing else (`text_write`), however long the line
waits there.

A session is `Sound` if lines go to a file exactly while one is open, and the open file is there.  Whatever
is done to a sound session leaves it sound.
-/

namespace CoinLedger.Log

open Text (ofString)

/-- What is set in a session: the filter, the sinks and the time. -/
structure Switches where
  /-- The lowest level that is let through. -/
  level : Level
  /-- The categories that are let through. -/
  categories : Categories
  /-- Whether lines go to the error output. -/
  console : Bool
  /-- The name of the open log file. -/
  file : Option Text
  /-- The time that the lines of the log show. -/
  clock : Text
  deriving DecidableEq

namespace Session

/-- What is set in a session. -/
def switches (s : Session) : Switches :=
  ⟨s.logger.level, s.logger.categories, s.logger.console, s.logger.file.map Appender.name, s.clock⟩

/-- The text of a file, with what waits for it. -/
def text (s : Session) (name : Text) : Text :=
  match s.logger.file with
  | some file => file.text s.directory name
  | none => (s.directory.find? name).getD []

/-- Lines go to a file exactly while one is open, and the open file is there. -/
structure Sound (s : Session) : Prop where
  /-- Lines go to a file exactly while one is open. -/
  toFile_eq : s.logger.toFile = s.logger.file.isSome
  /-- The open file is there. -/
  isSome_find? : ∀ file, s.logger.file = some file → (s.directory.find? file.name).isSome

/-- Two sessions are set alike and have the same files. -/
structure SetAlike (s s' : Session) : Prop where
  /-- They are set alike. -/
  switches_eq : s'.switches = s.switches
  /-- Lines go to the log file in both or in none. -/
  toFile_eq : s'.logger.toFile = s.logger.toFile
  /-- The files are the same ones. -/
  files : s.directory.SameFiles s'.directory

lemma SetAlike.refl (s : Session) : SetAlike s s := ⟨rfl, rfl, .refl _⟩

lemma SetAlike.trans {s s' s'' : Session} (h : SetAlike s s') (h' : SetAlike s' s'') : SetAlike s s'' :=
  ⟨h'.switches_eq.trans h.switches_eq, h'.toFile_eq.trans h.toFile_eq, h.files.trans h'.files⟩

lemma isSome_file (s : Session) : s.logger.file.isSome = s.switches.file.isSome := by
  simp [switches]

/-- A session that is set like a sound one is sound. -/
lemma SetAlike.sound {s s' : Session} (h : SetAlike s s') (hs : s.Sound) : s'.Sound := by
  constructor
  · rw [h.toFile_eq, hs.toFile_eq, isSome_file, isSome_file, h.switches_eq]
  · intro file' hfile'
    have hname : s.logger.file.map Appender.name = some file'.name := by
      have hsame := congrArg Switches.file h.switches_eq
      simpa [switches, hfile'] using hsame.symm
    obtain ⟨file, hfile, hsame⟩ := Option.map_eq_some_iff.mp hname
    rw [h.files.isSome_find?, ← hsame]
    exact hs.isSome_find? file hfile

variable {s : Session}

/-! ## Passing on what waits -/

section File

variable {file : Appender}

lemma text_of_file_eq_some (h : s.logger.file = some file) (name : Text) :
    s.text name = file.text s.directory name := by
  simp [text, h]

/-- The log file goes on in another state that shows the same path. -/
lemma setAlike_withLogFile (h : s.logger.file = some file) {next : Appender × Directory}
    (hname : next.1.name = file.name) (hfiles : s.directory.SameFiles next.2) :
    SetAlike s (s.withLogFile next) := by
  refine ⟨?_, rfl, hfiles⟩
  simp [switches, withLogFile, h, hname]

end File

lemma setAlike_flush (h : s.Sound) : SetAlike s s.flush := by
  unfold flush
  split
  next file hfile =>
    exact setAlike_withLogFile hfile (Appender.name_flush _ _)
      (Appender.sameFiles_flush (h.isSome_find? file hfile))
  next => exact .refl s

lemma errors_flush (s : Session) : s.flush.errors = s.errors := by
  unfold flush
  split <;> rfl

/-- What waits for a file is a part of its text already. -/
lemma text_flush (s : Session) (name : Text) : s.flush.text name = s.text name := by
  unfold flush
  split
  next file hfile =>
    rw [text_of_file_eq_some hfile]
    exact Appender.text_flush file s.directory name
  next => rfl

/-- What has been passed on stands in the file. -/
lemma getD_find?_flush (s : Session) (name : Text) :
    (s.flush.directory.find? name).getD [] = s.text name := by
  rw [← text_flush]
  unfold flush
  split
  next file hfile => simp [text, withLogFile, Appender.flush, Appender.text]
  next hfile => simp [text, hfile]

/-! ## Closing and opening -/

lemma sameFiles_closeLogFile (h : s.Sound) : s.directory.SameFiles s.closeLogFile.directory :=
  (setAlike_flush h).files

lemma text_closeLogFile (s : Session) (name : Text) : s.closeLogFile.text name = s.text name :=
  getD_find?_flush s name

lemma errors_closeLogFile (s : Session) : s.closeLogFile.errors = s.errors := errors_flush s

lemma switches_closeLogFile (h : s.Sound) :
    s.closeLogFile.switches = { s.switches with file := none } := by
  have hclock : s.flush.clock = s.clock := congrArg Switches.clock (setAlike_flush h).switches_eq
  simp [switches, closeLogFile, hclock]

lemma switches_useLogFile (s : Session) (file : Appender × Directory) :
    (s.useLogFile file).switches = { s.switches with file := some file.1.name } := rfl

/-- The name of the file that a path opens; the empty path opens none. -/
def opens? (d : Directory) (path : Text) : Option Text := if path = [] then none else d.writable? path

/-- The complaint about a path that cannot be opened. -/
def complaint (d : Directory) (path : Text) : Text :=
  if path = [] ∨ (d.writable? path).isSome then []
  else ofString "Logger: failed to open log file: " ++ Text.quoted path ++ [Text.newline]

lemma opens?_eq_some_iff {d : Directory} {path name : Text} :
    opens? d path = some name ↔ path ≠ [] ∧ d.writable? path = some name := by
  simp [opens?]

section SetLogFile

variable {path : Text}

/-- A path that opens no file leaves the log without one. -/
lemma setLogFile_of_opens?_eq_none (h : s.Sound) (hopens : opens? s.directory path = none) :
    s.setLogFile path = s.closeLogFile.printError (complaint s.directory path) := by
  unfold opens? at hopens
  unfold setLogFile complaint
  by_cases hpath : path = []
  · simp [hpath, printError]
  · rw [if_neg hpath] at hopens
    simp [hpath, hopens, Appender.open?, (sameFiles_closeLogFile h).writable?_eq path]

/-- A path that opens a file makes it the log file. -/
lemma setLogFile_of_opens?_eq_some (h : s.Sound) {name : Text}
    (hopens : opens? s.directory path = some name) :
    s.setLogFile path =
      s.closeLogFile.useLogFile (⟨name, []⟩, s.closeLogFile.directory.append name []) := by
  obtain ⟨hpath, hwritable⟩ := opens?_eq_some_iff.mp hopens
  unfold setLogFile
  simp [hpath, hwritable, Appender.open?, (sameFiles_closeLogFile h).writable?_eq path]

lemma complaint_of_opens?_eq_some {d : Directory} {name : Text} (h : opens? d path = some name) :
    complaint d path = [] := by
  unfold complaint
  simp [(opens?_eq_some_iff.mp h).2]

variable (path)

lemma switches_setLogFile (h : s.Sound) :
    (s.setLogFile path).switches = { s.switches with file := opens? s.directory path } := by
  have hclosed := switches_closeLogFile h
  cases hopens : opens? s.directory path with
  | none =>
    rw [setLogFile_of_opens?_eq_none h hopens]
    exact hclosed
  | some name =>
    rw [setLogFile_of_opens?_eq_some h hopens, switches_useLogFile, hclosed]

lemma errors_setLogFile (h : s.Sound) :
    (s.setLogFile path).errors = s.errors ++ complaint s.directory path := by
  cases hopens : opens? s.directory path with
  | none => rw [setLogFile_of_opens?_eq_none h hopens, printError, errors_closeLogFile]
  | some name =>
    rw [setLogFile_of_opens?_eq_some h hopens, complaint_of_opens?_eq_some hopens, List.append_nil]
    exact errors_closeLogFile s

/-- The file that is opened is there afterwards, and else the files are the same ones. -/
lemma isSome_find?_setLogFile (h : s.Sound) (name : Text) :
    ((s.setLogFile path).directory.find? name).isSome ↔
      (s.directory.find? name).isSome ∨ opens? s.directory path = some name := by
  rw [← (sameFiles_closeLogFile h).isSome_find?]
  cases hopens : opens? s.directory path with
  | none =>
    rw [setLogFile_of_opens?_eq_none h hopens]
    simp [printError]
  | some opened =>
    rw [setLogFile_of_opens?_eq_some h hopens]
    simp only [useLogFile, Directory.isSome_find?_append, Option.some.injEq]
    tauto

lemma writable?_setLogFile (h : s.Sound) (other : Text) :
    (s.setLogFile path).directory.writable? other = s.directory.writable? other := by
  have hsame := sameFiles_closeLogFile h
  cases hopens : opens? s.directory path with
  | none =>
    rw [setLogFile_of_opens?_eq_none h hopens]
    exact hsame.writable?_eq other
  | some name =>
    rw [setLogFile_of_opens?_eq_some h hopens, useLogFile, Directory.writable?, Directory.resolve?_append,
      ← Directory.writable?, hsame.writable?_eq]

lemma sound_setLogFile (h : s.Sound) : (s.setLogFile path).Sound := by
  cases hopens : opens? s.directory path with
  | none =>
    rw [setLogFile_of_opens?_eq_none h hopens]
    exact ⟨rfl, nofun⟩
  | some name =>
    rw [setLogFile_of_opens?_eq_some h hopens]
    refine ⟨rfl, ?_⟩
    rintro file ⟨⟩
    exact (Directory.isSome_find?_append _ _ _ _).mpr (Or.inl rfl)

/-- Changing the log file changes no text. -/
lemma text_setLogFile (h : s.Sound) (name : Text) : (s.setLogFile path).text name = s.text name := by
  have hclosed := text_closeLogFile s name
  cases hopens : opens? s.directory path with
  | none =>
    rw [setLogFile_of_opens?_eq_none h hopens]
    exact hclosed
  | some opened =>
    rw [setLogFile_of_opens?_eq_some h hopens, text_of_file_eq_some rfl]
    exact (Appender.text_append_nil _ _ _).trans hclosed

end SetLogFile

/-! ## Writing -/

section Write

variable (e : Entry)

lemma line_eq (s : Session) :
    s.line e = ofString "[" ++ s.switches.clock ++ ofString "] " ++ e.line ++ [Text.newline] := rfl

lemma writeToConsole_eq (s : Session) :
    s.writeToConsole e = s.printError (if s.switches.console then s.line e else []) := by
  unfold writeToConsole
  split
  next h => simp [switches, h]
  next h => simp [switches, h, printError]

lemma setAlike_printError (s : Session) (t : Text) : SetAlike s (s.printError t) := ⟨rfl, rfl, .refl _⟩

lemma setAlike_writeToFile (h : s.Sound) : SetAlike s (s.writeToFile e) := by
  unfold writeToFile
  split
  next file hfile =>
    have hwritten : SetAlike s (s.withLogFile (file.write (s.line e) s.directory)) :=
      setAlike_withLogFile hfile (Appender.name_write _ _ _)
        (Appender.sameFiles_write (h.isSome_find? file hfile) _)
    split
    next =>
      dsimp only
      split
      next => exact hwritten.trans (setAlike_flush (hwritten.sound h))
      next => exact hwritten
    next => exact .refl s
  next => exact .refl s

lemma errors_writeToFile (s : Session) : (s.writeToFile e).errors = s.errors := by
  unfold writeToFile
  split
  next file hfile =>
    split
    next =>
      dsimp only
      split
      next => exact errors_flush _
      next => rfl
    next => rfl
  next => rfl

/-- The line goes to the open log file and to no other, and it does not matter whether it waits. -/
lemma text_writeToFile (h : s.Sound) (name : Text) :
    (s.writeToFile e).text name =
      s.text name ++ if s.switches.file = some name then s.line e else [] := by
  unfold writeToFile
  split
  next file hfile =>
    have hon : s.logger.toFile = true := by rw [h.toFile_eq, hfile, Option.isSome_some]
    have hwritten : (s.withLogFile (file.write (s.line e) s.directory)).text name =
        s.text name ++ if s.switches.file = some name then s.line e else [] := by
      rw [text_of_file_eq_some rfl, text_of_file_eq_some hfile]
      simpa [switches, hfile, withLogFile] using Appender.text_write file (s.line e) s.directory name
    rw [if_pos hon]
    dsimp only
    split
    next => rw [text_flush, hwritten]
    next => exact hwritten
  next hfile => simp [switches, hfile]

lemma setAlike_write (h : s.Sound) : SetAlike s (s.write e) := by
  have hconsole : SetAlike s (s.writeToConsole e) := by
    rw [writeToConsole_eq]
    exact setAlike_printError s _
  exact hconsole.trans (setAlike_writeToFile e (hconsole.sound h))

/-- An entry that is written adds its line to the error output if that is a sink. -/
lemma errors_write (s : Session) :
    (s.write e).errors = s.errors ++ if s.switches.console then s.line e else [] := by
  rw [write, errors_writeToFile, writeToConsole_eq, printError]

/-- An entry that is written adds its line to the open log file and to no other. -/
lemma text_write (h : s.Sound) (name : Text) :
    (s.write e).text name =
      s.text name ++ if s.switches.file = some name then s.line e else [] := by
  rw [write, writeToConsole_eq]
  exact text_writeToFile e ((setAlike_printError s _).sound h) name

/-- Nothing waits for a file that is not the log file. -/
lemma text_of_file_ne {name : Text} (h : s.switches.file ≠ some name) :
    s.text name = (s.directory.find? name).getD [] := by
  unfold text
  split
  next file hfile =>
    have hname : file.name ≠ name := by simpa [switches, hfile] using h
    simp [Appender.text, hname]
  next => rfl

/-- A file that is not the log file is not changed by an entry. -/
lemma find?_write (h : s.Sound) {name : Text} (hname : s.switches.file ≠ some name) :
    (s.write e).directory.find? name = s.directory.find? name := by
  have halike := setAlike_write e h
  have hname' : (s.write e).switches.file ≠ some name := by rwa [halike.switches_eq]
  have htext := text_write e h name
  rw [if_neg hname, List.append_nil, text_of_file_ne hname, text_of_file_ne hname'] at htext
  have hthere := halike.files.isSome_find? name
  cases hbefore : s.directory.find? name with
  | none => simpa [hbefore] using hthere
  | some content =>
    rw [hbefore] at hthere htext
    obtain ⟨content', hafter⟩ := Option.isSome_iff_exists.mp (hthere.mpr rfl)
    rw [hafter] at htext ⊢
    exact congrArg some htext

end Write

end Session

/-! ## The filter -/

/-- Whether an entry is let through: its level reaches the threshold, its category is none or one of the
enabled ones, and a sink is on. -/
def Switches.LetsThrough (w : Switches) (e : Entry) : Prop :=
  w.level.rank ≤ e.level.rank ∧
    (e.category = .none ∨ w.categories.mask &&& e.category.mask ≠ 0) ∧
    (w.console = true ∨ w.file.isSome)

instance (w : Switches) (e : Entry) : Decidable (w.LetsThrough e) :=
  inferInstanceAs (Decidable (_ ∧ _ ∧ _))

namespace Session

variable {s : Session}

/-- In a sound session the logger lets an entry through by what is set. -/
lemma admits_iff (h : s.Sound) (e : Entry) :
    s.logger.admits e.level e.category = true ↔ s.switches.LetsThrough e := by
  have hsink : s.logger.hasSink = (s.switches.console || s.switches.file.isSome) := by
    rw [Logger.hasSink, h.toFile_eq, isSome_file]
    rfl
  simp [Logger.admits, Switches.LetsThrough, hsink, Categories.meets, switches, and_assoc]

lemma log_eq (h : s.Sound) (e : Entry) :
    s.log e = if s.switches.LetsThrough e then s.write e else s := by
  unfold log
  simp only [admits_iff h]

end Session

end CoinLedger.Log
