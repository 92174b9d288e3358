import CoinLedger.Inspect
import Std.Time.Format

/-!
# The command line

Runs the inspector on the arguments of the process.  The settings file that the arguments name
is read before the run; the lines of the log file are appended to it afterwards.
-/

namespace CoinLedger.CommandLine

open Log (Session)

/-- The path that a text denotes on this system. -/
def pathOf (t : Text) : String := (String.fromUTF8? ⟨t.toArray⟩).getD ""

/-- The time in UTC, to the millisecond. -/
def readClock : IO Text := do
  let now ← Std.Time.Timestamp.now
  let shown := (Std.Time.DateTime.ofTimestampWithZone now .UTC).toPlainDateTime
  return Text.ofString (shown.format "uuuu-MM-dd HH:mm:ss.SSS")

/-- The settings that the arguments and the settings file give. -/
def settingsOf (directory : Directory) (arguments : List Text) : Settings :=
  let settings := (Settings.empty.readArguments arguments).1
  match settings.get? Settings.fileKey with
  | some path => (settings.load (Session.start directory []) path).2.1
  | none => settings

/-- Whether there is a folder at a place of this system. -/
def isFolder (place : Location) : IO Bool := do
  ((← IO.currentDir) / pathOf ([Directory.slash] ++ Directory.join place)).isDir

/-- The folders of this system through which components lead from a place. -/
def foldersOn (place : Location) : List Text → IO (List Location)
  | [] => return []
  | component :: rest => do
    if Directory.staysInPlace component then foldersOn place rest
    else if Directory.leadsUp component then foldersOn place.dropLast rest
    else
      let next := place ++ [component]
      if ← isFolder next then return next :: (← foldersOn next rest) else return []

/-- The directory with the folders of this system through which a path goes. -/
def withFolders (directory : Directory) (path : Text) : IO Directory := do
  let folders ← foldersOn (directory.startOf path) (Directory.components path)
  return { directory with folders := directory.folders ++ folders }

/-- The names that a path has between its slashes. -/
def namesOf (path : Text) : List Text :=
  (Directory.components path).filter (fun part => !Directory.staysInPlace part)

/-- The directory with the settings file to which a path leads. -/
def withSettingsFile (directory : Directory) (path : Text) : IO Directory := do
  let directory ← withFolders directory path
  match directory.writable? path with
  | none => return directory
  | some name =>
    try
      let content ← IO.FS.readBinFile (pathOf path)
      return directory.write name content.data.toList
    catch _ => return directory

/-- The working directory of the process, with the settings file that the arguments name and the
folders on the way to the log file. -/
def openDirectory (arguments : List Text) : IO Directory := do
  let home := namesOf (Text.ofString (← IO.currentDir).toString)
  let named := (Settings.empty.readArguments arguments).1.get? Settings.fileKey
  let directory ← (named.toList).foldlM withSettingsFile ⟨home, [], []⟩
  let log := (settingsOf directory arguments).get? Settings.logFileKey
  (log.toList).foldlM withFolders directory

/-- The directory with a folder in the place of a file, so that the file cannot be opened. -/
def withoutFile (directory : Directory) (name : Text) : Directory :=
  { directory with folders := (directory.startOf name ++ namesOf name) :: directory.folders }

/-- Appends what a run added to its log file; the name of the file if that is not possible. -/
def saveLog (before : Directory) (session : Session) : IO (Option Text) := do
  match session.logger.file with
  | none => return none
  | some log =>
    let saved := (session.flush.directory.find? log.name).getD []
    let added := saved.drop ((before.find? log.name).getD []).length
    try
      let file ← IO.FS.Handle.mk (pathOf log.name) .append
      file.write ⟨added.toArray⟩
      return none
    catch _ => return some log.name

/-- Prints what a run has printed. -/
def printAll (session : Session) : IO Unit := do
  (← IO.getStdout).write ⟨session.output.toArray⟩
  (← IO.getStderr).write ⟨session.errors.toArray⟩

/-- Runs the inspector; if the log file cannot be written, runs it again without one. -/
def runInspector (arguments : List Text) : IO UInt32 := do
  let clock ← readClock
  let directory ← openDirectory arguments
  let (session, status) := Inspect.run (Session.start directory clock) arguments
  match ← saveLog directory session with
  | none =>
    printAll session
    return status
  | some name =>
    let (session, status) := Inspect.run (Session.start (withoutFile directory name) clock) arguments
    printAll session
    return status

end CoinLedger.CommandLine

/-- The inspector as a program. -/
def main (arguments : List String) : IO UInt32 :=
  CoinLedger.CommandLine.runInspector (arguments.map CoinLedger.Text.ofString)
