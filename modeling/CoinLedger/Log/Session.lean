import CoinLedger.Directory.Appender
import CoinLedger.Log.Entry

/-!
# Loggers and sessions

A `Logger` lets an entry through if its level reaches the threshold, its category is none or
meets the enabled ones, and a sink is switched on.  A `Session` is what a run of the
program has before it and leaves behind: the logger, the files, the two output texts and the
time.  Lines of the log file wait there together until one is a warning or worse, the session is
flushed, or the file is closed.
-/

namespace CoinLedger.Log

open Text (ofString)

/-- The settings of a log. -/
structure Logger where
  /-- The lowest level that is let through. -/
  level : Level
  /-- The categories that are let through. -/
  categories : Categories
  /-- Whether lines go to the error output. -/
  console : Bool
  /-- Whether lines go to the log file. -/
  toFile : Bool
  /-- The open log file. -/
  file : Option Appender
  deriving DecidableEq

namespace Logger

/-- The logger at the start of a run. -/
def initial : Logger := ⟨.info, .all, true, false, none⟩

/-- Whether a sink is switched on. -/
def hasSink (l : Logger) : Bool := l.console || l.toFile

/-- Whether an entry of the given level and category is let through. -/
def admits (l : Logger) (level : Level) (category : Categories) : Bool :=
  decide (l.level.rank ≤ level.rank) && (category == .none || l.categories.meets category) &&
    l.hasSink

end Logger

/-- A run of the program. -/
structure Session where
  /-- The log. -/
  logger : Logger
  /-- The working directory. -/
  directory : Directory
  /-- What has been printed. -/
  output : Text
  /-- What has been printed to the error output. -/
  errors : Text
  /-- The time that the lines of the log show. -/
  clock : Text
  deriving DecidableEq

namespace Session

/-- The session at the start of a run in a directory, at the time that the clock shows. -/
def start (directory : Directory) (clock : Text) : Session := ⟨.initial, directory, [], [], clock⟩

/-- Prints to the output. -/
def print (s : Session) (t : Text) : Session := { s with output := s.output ++ t }

/-- Prints to the error output. -/
def printError (s : Session) (t : Text) : Session := { s with errors := s.errors ++ t }

/-- Sets the lowest level that is let through. -/
def setLevel (s : Session) (level : Level) : Session :=
  { s with logger := { s.logger with level := level } }

/-- Sets the categories that are let through. -/
def setCategories (s : Session) (categories : Categories) : Session :=
  { s with logger := { s.logger with categories := categories } }

/-- Switches the error output as a sink on or off. -/
def setConsole (s : Session) (on : Bool) : Session :=
  { s with logger := { s.logger with console := on } }

/-- Goes on with another state of the log file and the directory. -/
def withLogFile (s : Session) (file : Appender × Directory) : Session :=
  { s with logger := { s.logger with file := some file.1 }, directory := file.2 }

/-- Passes on to the log file the lines that wait for it. -/
def flush (s : Session) : Session :=
  match s.logger.file with
  | some file => s.withLogFile (file.flush s.directory)
  | none => s

/-- Closes the log file; lines do not go there any more. -/
def closeLogFile (s : Session) : Session :=
  { s.flush with logger := { s.logger with toFile := false, file := none } }

/-- Sends the lines to a log file that has just been opened. -/
def useLogFile (s : Session) (file : Appender × Directory) : Session :=
  { s with logger := { s.logger with toFile := true, file := some file.1 }, directory := file.2 }

/-- Closes the log file and opens another one; the empty path opens none.  A file that cannot be
opened is reported on the error output even if that is no sink. -/
def setLogFile (s : Session) (path : Text) : Session :=
  let closed := s.closeLogFile
  if path = [] then closed
  else
    match Appender.open? closed.directory path with
    | some file => closed.useLogFile file
    | none =>
      closed.printError (ofString "Logger: failed to open log file: " ++ Text.quoted path ++
        [Text.newline])

/-- The line of an entry with the time in front. -/
def line (s : Session) (e : Entry) : Text :=
  ofString "[" ++ s.clock ++ ofString "] " ++ e.line ++ [Text.newline]

/-- Writes an entry to the error output if that is a sink. -/
def writeToConsole (s : Session) (e : Entry) : Session :=
  if s.logger.console then s.printError (s.line e) else s

/-- Writes an entry to the log file if that is a sink and open; warnings and worse do not wait. -/
def writeToFile (s : Session) (e : Entry) : Session :=
  match s.logger.file with
  | some file =>
    if s.logger.toFile then
      let written := s.withLogFile (file.write (s.line e) s.directory)
      if Level.warn.rank ≤ e.level.rank then written.flush else written
    else s
  | none => s

/-- Writes an entry to every sink, whatever its level and category. -/
def write (s : Session) (e : Entry) : Session := (s.writeToConsole e).writeToFile e

/-- Writes an entry if the logger lets it through. -/
def log (s : Session) (e : Entry) : Session :=
  if s.logger.admits e.level e.category then s.write e else s

/-- Logs entries one after the other. -/
def logAll (s : Session) (entries : List Entry) : Session := entries.foldl log s

end Session

end CoinLedger.Log
