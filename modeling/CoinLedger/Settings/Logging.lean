import CoinLedger.Log.Session
import CoinLedger.Settings

/-!
# Settings files and the settings of the log

A settings file is read from the working directory of a session.  Four settings configure the
log: the level by name, the categories for finding faults, whether lines go to the error output,
and the log file.
-/

namespace CoinLedger.Settings

open Text (ofString)
open Log (Session Level Categories)

/-- The key of the name of a settings file. -/
def fileKey : Text := ofString "conf"

/-- The key of the level of the log. -/
def levelKey : Text := ofString "loglevel"

/-- The key of the categories of the log. -/
def categoriesKey : Text := ofString "debug"

/-- The key of the log file. -/
def logFileKey : Text := ofString "logfile"

/-- The key that switches the error output as a sink. -/
def consoleKey : Text := ofString "printtoconsole"

/-- The entry for a settings file that has been opened. -/
def loadingEntry (path : Text) : Log.Entry :=
  ⟨.debug, .tool, ofString "Config: loading configuration from '" ++ path ++ ofString "'"⟩

/-- Records the settings of the file that a path denotes.  The entry is logged first: it can fill
the capacity of the log file, and that may be the very file. -/
def load (settings : Settings) (session : Session) (path : Text) :
    Session × Settings × Except Error Unit :=
  match session.directory.read? path with
  | none => (session, settings, .error ⟨.settingsUnreadable path, 0⟩)
  | some _ =>
    let session := session.log (loadingEntry path)
    let content := (session.directory.read? path).getD []
    (session, settings.readLines path 1 (Text.lines content))

/-- The categories that all values for them name together. -/
def categories (settings : Settings) : Categories :=
  (settings.list categoriesKey).foldl (fun c words => c.union (Categories.ofWords words)) .none

/-- Sets the categories if there is a value for them; then the level is at least `debug`. -/
def configureCategories (settings : Settings) (session : Session) (level : Level) : Session :=
  if settings.list categoriesKey = [] then session
  else
    let session := session.setCategories settings.categories
    if Level.debug.rank < level.rank then session.setLevel .debug else session

/-- Opens the log file if there is a value for it that is not empty. -/
def configureFile (settings : Settings) (session : Session) : Session :=
  match settings.get? logFileKey with
  | none => session
  | some path => if path = [] then session else session.setLogFile path

/-- Configures the log.  A level that has no such name is refused and changes nothing. -/
def configureLog (settings : Settings) (session : Session) : Session × Except Error Unit :=
  let word := settings.getD levelKey (ofString "info")
  match Level.ofWord? word with
  | none => (session, .error ⟨.logLevelUnknown word, 0⟩)
  | some level =>
    let session := settings.configureCategories (session.setLevel level) level
    let session := session.setConsole (settings.getBool consoleKey true)
    (settings.configureFile session, .ok ())

end CoinLedger.Settings
