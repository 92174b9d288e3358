import CoinLedger.Error

/-!
# Settings

Settings come from three sources, and an earlier one overrides a later one: the arguments of the
command line, a file, and defaults.  Within the first two, a key may be given several times; the
first value counts where one value is wanted, and `list` gives all of them.
-/

namespace CoinLedger

open Text (ofString)

/-- Keys with their values in the order in which they were given. -/
structure Settings where
  /-- From the command line. -/
  arguments : List (Text × Text)
  /-- From settings files. -/
  file : List (Text × Text)
  /-- Preset; at most one value for each key. -/
  defaults : List (Text × Text)
  deriving DecidableEq

namespace Settings

/-- No settings. -/
def empty : Settings := ⟨[], [], []⟩

/-- The sources, strongest first. -/
def sources (s : Settings) : List (List (Text × Text)) := [s.arguments, s.file, s.defaults]

/-- The values of a key in one source. -/
def valuesIn (source : List (Text × Text)) (key : Text) : List Text :=
  (source.filter (fun setting => setting.1 == key)).map Prod.snd

/-- The value of a key: the first one of the strongest source that has the key. -/
def get? (s : Settings) (key : Text) : Option Text :=
  s.sources.findSome? (fun source => source.lookup key)

/-- The value of a key, or another one if the key has none. -/
def getD (s : Settings) (key other : Text) : Text := (s.get? key).getD other

/-- Whether some source has the key. -/
def has (s : Settings) (key : Text) : Bool :=
  s.sources.any (fun source => source.any (fun setting => setting.1 == key))

/-- All values of a key, the strongest source first. -/
def list (s : Settings) (key : Text) : List Text :=
  s.sources.flatMap (fun source => valuesIn source key)

/-- The words for yes. -/
def trueWords : List String := ["1", "true", "yes", "on"]

/-- The words for no. -/
def falseWords : List String := ["0", "false", "no", "off"]

/-- Reads a yes or no in any letter case; any other text stands for `other`. -/
def readBool (other : Bool) (value : Text) : Bool :=
  if trueWords.any (fun word => Text.equalsIgnoringCase value (ofString word)) then true
  else if falseWords.any (fun word => Text.equalsIgnoringCase value (ofString word)) then false
  else other

/-- The value of a key as yes or no. -/
def getBool (s : Settings) (key : Text) (other : Bool) : Bool :=
  match s.get? key with
  | some value => readBool other value
  | none => other

/-- The value of a key as an unsigned 64-bit number, if it has a value. -/
def getNumber (s : Settings) (key : Text) : Except Error (Option Nat) :=
  match s.get? key with
  | none => .ok none
  | some value =>
    match Text.readDecimal? UInt64.size value with
    | some n => .ok (some n)
    | none => .error ⟨.settingNotNumber value key, 0⟩

/-- Presets a value, in the place of an earlier one. -/
def setDefault (s : Settings) (key value : Text) : Settings :=
  { s with defaults := (key, value) :: s.defaults.filter (fun setting => setting.1 ≠ key) }

/-- The byte between a key and its value. -/
def equalsSign : UInt8 := 61

/-- The byte in front of the keys of arguments. -/
def dash : UInt8 := 45

/-- The byte at the start of a comment. -/
def hashSign : UInt8 := 35

/-- A key and its value around the first equals sign, without white space around either.  A key
without a value is switched on. -/
def split (t : Text) : Text × Text :=
  match Text.cut? equalsSign t with
  | some (key, value) => (Text.trim key, Text.trim value)
  | none => (Text.trim t, ofString "1")

/-- A text without one or two leading dashes. -/
def dropDashes : Text → Text
  | [] => []
  | a :: rest =>
    if a = dash then
      match rest with
      | [] => []
      | b :: more => if b = dash then more else rest
    else a :: rest

/-- The setting in an argument; an empty argument has none. -/
def ofArgument (argument : Text) : Except Error (Option (Text × Text)) :=
  if argument = [] then .ok none
  else if argument.head? = some dash then .ok (some (split (dropDashes argument)))
  else .error ⟨.positionalArgument argument, 0⟩

/-- The setting in a line of the file `path`; an empty line and a comment have none. -/
def ofLine (path : Text) (number : Nat) (line : Text) : Except Error (Option (Text × Text)) :=
  let t := Text.trim line
  if t = [] ∨ t.head? = some hashSign then .ok none
  else if (split t).1 = [] then .error ⟨.settingsKeyEmpty number path, 0⟩
  else .ok (some (split t))

/-- Records the settings of arguments, up to the first that is none. -/
def readArguments (s : Settings) : List Text → Settings × Except Error Unit
  | [] => (s, .ok ())
  | argument :: rest =>
    match ofArgument argument with
    | .error e => (s, .error e)
    | .ok setting => readArguments { s with arguments := s.arguments ++ setting.toList } rest

/-- Records the settings of the lines of the file `path` from line `number` on, up to the first
that is none. -/
def readLines (s : Settings) (path : Text) (number : Nat) :
    List Text → Settings × Except Error Unit
  | [] => (s, .ok ())
  | line :: rest =>
    match ofLine path number line with
    | .error e => (s, .error e)
    | .ok setting =>
      readLines { s with file := s.file ++ setting.toList } path (number + 1) rest

end Settings

end CoinLedger
