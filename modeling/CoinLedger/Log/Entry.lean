import CoinLedger.Text

/-!
# Log entries

An entry has a level, a category and a message.  Levels are ordered by rank; categories are bits
of a 32-bit mask, and the same type stands for the category of an entry and for the set of
categories that a logger lets through.
-/

namespace CoinLedger.Log

open Text (ofString)

/-- The severity of an entry.  Any rank is a level; those from 0 to 6 have names. -/
structure Level where
  /-- The rank: entries below the rank of the logger are dropped. -/
  rank : Int
  deriving DecidableEq

namespace Level

/-- Details of every step. -/
def trace : Level := ⟨0⟩

/-- Details for finding faults. -/
def debug : Level := ⟨1⟩

/-- News. -/
def info : Level := ⟨2⟩

/-- Warnings. -/
def warn : Level := ⟨3⟩

/-- Failures. -/
def error : Level := ⟨4⟩

/-- Failures that end the program. -/
def fatal : Level := ⟨5⟩

/-- As a threshold, nothing passes that has a name below it. -/
def off : Level := ⟨6⟩

/-- The named levels. -/
def registry : List (Level × String) :=
  [(trace, "TRACE"), (debug, "DEBUG"), (info, "INFO"), (warn, "WARN"), (error, "ERROR"),
   (fatal, "FATAL"), (off, "OFF")]

/-- The name of a level. -/
def name (l : Level) : String := (registry.lookup l).getD "UNKNOWN"

/-- The words by which settings name a level; a warning has two. -/
def words : List (String × Level) :=
  [("trace", trace), ("debug", debug), ("info", info), ("warn", warn), ("warning", warn),
   ("error", error), ("fatal", fatal), ("off", off)]

/-- The level that a word names, in any letter case and with white space around it. -/
def ofWord? (word : Text) : Option Level :=
  (words.find? (fun entry => Text.equalsIgnoringCase (Text.trim word) (ofString entry.1))).map
    Prod.snd

end Level

/-- A set of categories. -/
structure Categories where
  /-- One bit for each category. -/
  mask : UInt32
  deriving DecidableEq

namespace Categories

/-- No category; entries with it pass every filter on categories. -/
def none : Categories := ⟨0⟩

/-- Amounts and scripts. -/
def chain : Categories := ⟨0x01⟩

/-- Coins. -/
def coins : Categories := ⟨0x02⟩

/-- Spend journals. -/
def undo : Categories := ⟨0x04⟩

/-- Tip sets. -/
def tips : Categories := ⟨0x08⟩

/-- The ledger. -/
def db : Categories := ⟨0x10⟩

/-- Keys. -/
def crypto : Categories := ⟨0x20⟩

/-- The command line and settings. -/
def tool : Categories := ⟨0x40⟩

/-- Every category. -/
def all : Categories := ⟨0xFFFFFFFF⟩

/-- The named categories. -/
def registry : List (Categories × String) :=
  [(chain, "CHAIN"), (coins, "COINS"), (undo, "UNDO"), (tips, "TIPS"), (db, "DB"),
   (crypto, "CRYPTO"), (tool, "TOOL")]

/-- The union of two sets. -/
def union (a b : Categories) : Categories := ⟨a.mask ||| b.mask⟩

/-- Whether two sets have a category in common. -/
def meets (a b : Categories) : Bool := a.mask &&& b.mask != 0

/-- The set that holds the lowest category of a set. -/
def lowest (c : Categories) : Categories := ⟨c.mask &&& (~~~c.mask + 1)⟩

/-- The name of a set is that of its lowest category, but the empty and the full set have names
of their own. -/
def name (c : Categories) : String :=
  if c = none then "NONE" else if c = all then "ALL"
  else (registry.lookup c.lowest).getD "UNKNOWN"

/-- The categories that one word names: a single one, all of them, or none if the word is not
known. -/
def ofWord (word : Text) : Categories :=
  if Text.equalsIgnoringCase word (ofString "all") || word == ofString "1" then all
  else
    match registry.find? (fun entry => Text.equalsIgnoringCase word (ofString entry.2)) with
    | some entry => entry.1
    | Option.none => none

/-- The categories that a list of words between commas names. -/
def ofWords (list : Text) : Categories :=
  (Text.fields Text.comma list).foldl (fun c word => c.union (ofWord (Text.trim word))) none

end Categories

/-- A message for the log. -/
structure Entry where
  /-- Its severity. -/
  level : Level
  /-- What it is about. -/
  category : Categories
  /-- Its text. -/
  message : Text
  deriving DecidableEq

namespace Entry

/-- The line of an entry, without the line break. -/
def line (e : Entry) : Text :=
  ofString "[" ++ ofString e.level.name ++ ofString "] [" ++ ofString e.category.name ++
    ofString "] " ++ e.message

end Entry

end CoinLedger.Log
