import Mathlib
import CoinLedger.Proofs.Settings.ValueLists

/-!
# The layers of settings

Settings are given by calls that preset a value, read arguments or read a file, in any order and any
number, and some of them stop midway.  A call that stops has recorded what stood in front of the item at
which it stops (`stopsAt_of_failure`); a call that does not has recorded everything.

`layers_of_run`: whatever the order of the calls, the values of a key are those from arguments, then those
from files, then the last preset one, and the first of them is the value of the key.  Arguments and files
gather values (`arguments_run`, `file_run`), while a preset value takes the place of the one
before it (`valuesIn_defaults_run`).  Sources that keep a list of values for each key, none of which is ever
empty, answer in the same way (`Layers.Shows.run`).
-/

namespace CoinLedger.Settings

open Log (Session)
open Text (ofString)

/-! ## Calls that read settings -/

/-- The settings among the outcomes of items, in front of the first failure. -/
def recorded : List (Except Error (Option (Text × Text))) → List (Text × Text)
  | .ok setting :: rest => setting.toList ++ recorded rest
  | _ => []

/-- The first failure among the outcomes of items. -/
def failure : List (Except Error (Option (Text × Text))) → Except Error Unit
  | [] => .ok ()
  | .error e :: _ => .error e
  | .ok _ :: rest => failure rest

/-- The item that fails with `e` is the first to do so, and the settings in front of it are `found`. -/
def StopsAt (e : Error) (outcomes : List (Except Error (Option (Text × Text))))
    (found : List (Text × Text)) : Prop :=
  ∃ (settings : List (Option (Text × Text))) (after : List (Except Error (Option (Text × Text)))),
    outcomes = settings.map .ok ++ .error e :: after ∧ found = settings.reduceOption

/-- Where there is a failure, the settings in front of it are recorded. -/
lemma stopsAt_of_failure {outcomes : List (Except Error (Option (Text × Text)))} {e : Error}
    (h : failure outcomes = .error e) : StopsAt e outcomes (recorded outcomes) := by
  induction outcomes with
  | nil => cases h
  | cons outcome rest ih =>
    cases outcome with
    | error e' =>
      cases h
      exact ⟨[], rest, rfl, rfl⟩
    | ok setting =>
      obtain ⟨settings, after, houtcomes, hrecorded⟩ := ih h
      refine ⟨setting :: settings, after, by rw [houtcomes]; rfl, ?_⟩
      rw [recorded, hrecorded]
      cases setting <;> rfl

lemma readArguments_eq (s : Settings) (arguments : List Text) :
    s.readArguments arguments =
      ({ s with arguments := s.arguments ++ recorded (arguments.map ofArgument) },
        failure (arguments.map ofArgument)) := by
  induction arguments generalizing s with
  | nil => simp only [readArguments, List.map_nil, recorded, failure, List.append_nil]
  | cons argument arguments ih =>
    rw [readArguments, List.map_cons]
    cases ofArgument argument with
    | error e => simp only [recorded, failure, List.append_nil]
    | ok setting => simp only [ih, recorded, failure, List.append_assoc]

/-- What the lines of a file give, the first of which has the number `number`. -/
def lineOutcomes (path : Text) (number : ℕ) (lines : List Text) :
    List (Except Error (Option (Text × Text))) :=
  (lines.zipIdx number).map fun line => ofLine path line.2 line.1

lemma readLines_eq (s : Settings) (path : Text) (number : ℕ) (lines : List Text) :
    s.readLines path number lines =
      ({ s with file := s.file ++ recorded (lineOutcomes path number lines) },
        failure (lineOutcomes path number lines)) := by
  induction lines generalizing s number with
  | nil => simp only [readLines, lineOutcomes, List.zipIdx_nil, List.map_nil, recorded, failure,
      List.append_nil]
  | cons line lines ih =>
    have hcons : lineOutcomes path number (line :: lines) =
        ofLine path number line :: lineOutcomes path (number + 1) lines := by
      rw [lineOutcomes, List.zipIdx_cons, List.map_cons]
      rfl
    rw [readLines, hcons]
    cases ofLine path number line with
    | error e => simp only [recorded, failure, List.append_nil]
    | ok setting => simp only [ih, recorded, failure, List.append_assoc]

/-- What the lines of the file that a path leads to give, once the log has an entry for it. -/
def fileOutcomes (session : Session) (path : Text) : List (Except Error (Option (Text × Text))) :=
  lineOutcomes path 1
    (Text.lines (((session.log (loadingEntry path)).directory.read? path).getD []))

lemma load_of_none {session : Session} {path : Text} (h : session.directory.read? path = none)
    (s : Settings) : s.load session path = (session, s, .error ⟨.settingsUnreadable path, 0⟩) := by
  rw [load, h]

lemma load_of_some {session : Session} {path content : Text}
    (h : session.directory.read? path = some content) (s : Settings) :
    (s.load session path).2 = ({ s with file := s.file ++ recorded (fileOutcomes session path) },
      failure (fileOutcomes session path)) := by
  rw [load, h]
  exact readLines_eq _ _ _ _

/-! ## Runs of calls -/

/-- A call that gives settings. -/
inductive Call where
  /-- presets a value -/
  | setDefault (key value : Text)
  /-- reads arguments -/
  | readArguments (arguments : List Text)
  /-- reads a file, with the files and the log of the session -/
  | load (session : Session) (path : Text)

namespace Call

/-- The settings that a call records from arguments. -/
def fromArguments : Call → List (Text × Text)
  | readArguments arguments => recorded (arguments.map ofArgument)
  | setDefault _ _ | load _ _ => []

/-- The settings that a call records from a file; without the file there are none. -/
def fromFile : Call → List (Text × Text)
  | load session path =>
    if session.directory.read? path = none then [] else recorded (fileOutcomes session path)
  | setDefault _ _ | readArguments _ => []

/-- The value that a call presets for a key. -/
def preset? (key : Text) : Call → Option Text
  | setDefault k value => if k = key then some value else none
  | readArguments _ | load _ _ => none

end Call

/-- Carries out a call. -/
def call (s : Settings) : Call → Settings
  | .setDefault key value => s.setDefault key value
  | .readArguments arguments => (s.readArguments arguments).1
  | .load session path => (s.load session path).2.1

/-- Carries out calls one after the other. -/
def run (s : Settings) (calls : List Call) : Settings := calls.foldl call s

/-- The values that calls give to a key by arguments. -/
def argumentValues (calls : List Call) (key : Text) : List Text :=
  valuesIn (calls.flatMap Call.fromArguments) key

/-- The values that calls give to a key by files. -/
def fileValues (calls : List Call) (key : Text) : List Text :=
  valuesIn (calls.flatMap Call.fromFile) key

/-- The value that was preset last for a key. -/
def lastDefault? (calls : List Call) (key : Text) : Option Text :=
  (calls.filterMap (Call.preset? key)).getLast?

namespace Layers

/-- Carries out a call. -/
def call (l : Layers) : Call → Layers
  | .setDefault key value => l.setDefault key value
  | .readArguments arguments => (l.readArguments arguments).1
  | .load session path => (l.load session path).1

/-- Carries out calls one after the other. -/
def run (l : Layers) (calls : List Call) : Layers := calls.foldl call l

/-- Layers go on as settings do. -/
lemma Shows.call {l : Layers} {s : Settings} (h : l.Shows s) (c : Call) : (l.call c).Shows (s.call c) := by
  cases c with
  | setDefault key value => exact h.setDefault key value
  | readArguments arguments => exact (h.readArguments arguments).1
  | load session path => exact (h.load session path).1

/-- Layers that have been given the same as settings show them. -/
lemma Shows.run {l : Layers} {s : Settings} (h : l.Shows s) (calls : List Call) :
    (l.run calls).Shows (s.run calls) := by
  induction calls generalizing l s with
  | nil => exact h
  | cons c calls ih => exact ih (h.call c)

end Layers

/-! ### One call -/

lemma arguments_call (s : Settings) (c : Call) :
    (s.call c).arguments = s.arguments ++ c.fromArguments := by
  cases c with
  | setDefault key value => exact (List.append_nil _).symm
  | readArguments arguments => rw [call, readArguments_eq, Call.fromArguments]
  | load session path =>
    rw [call, Call.fromArguments, List.append_nil]
    cases h : session.directory.read? path with
    | none => rw [load_of_none h]
    | some content => rw [load_of_some h]

lemma file_call (s : Settings) (c : Call) : (s.call c).file = s.file ++ c.fromFile := by
  cases c with
  | setDefault key value => exact (List.append_nil _).symm
  | readArguments arguments => rw [call, readArguments_eq, Call.fromFile, List.append_nil]
  | load session path =>
    rw [call, Call.fromFile]
    cases h : session.directory.read? path with
    | none => rw [load_of_none h, if_pos rfl, List.append_nil]
    | some content => rw [load_of_some h, if_neg (Option.some_ne_none _)]

lemma valuesIn_defaults_call (s : Settings) (c : Call) (key : Text) :
    valuesIn (s.call c).defaults key =
      (c.preset? key).elim (valuesIn s.defaults key) fun value => [value] := by
  cases c with
  | setDefault k value =>
    rw [call, valuesIn_setDefault, Call.preset?]
    split <;> rfl
  | readArguments arguments =>
    rw [call, readArguments_eq]
    rfl
  | load session path =>
    rw [call]
    cases h : session.directory.read? path with
    | none =>
      rw [load_of_none h]
      rfl
    | some content =>
      rw [load_of_some h]
      rfl

/-! ### All calls -/

lemma arguments_run (s : Settings) (calls : List Call) :
    (s.run calls).arguments = s.arguments ++ calls.flatMap Call.fromArguments := by
  induction calls generalizing s with
  | nil => exact (List.append_nil _).symm
  | cons c calls ih => rw [run, List.foldl_cons, ← run, ih, arguments_call, List.flatMap_cons,
      List.append_assoc]

lemma file_run (s : Settings) (calls : List Call) :
    (s.run calls).file = s.file ++ calls.flatMap Call.fromFile := by
  induction calls generalizing s with
  | nil => exact (List.append_nil _).symm
  | cons c calls ih => rw [run, List.foldl_cons, ← run, ih, file_call, List.flatMap_cons,
      List.append_assoc]

lemma run_append_singleton (s : Settings) (calls : List Call) (c : Call) :
    s.run (calls ++ [c]) = (s.run calls).call c := by
  rw [run, List.foldl_append]
  rfl

/-- A call that presets a value takes the place of those before it. -/
lemma lastDefault?_append_singleton (calls : List Call) (c : Call) (key : Text) :
    lastDefault? (calls ++ [c]) key = (c.preset? key).or (lastDefault? calls key) := by
  have hone : ([c].filterMap (Call.preset? key)).getLast? = c.preset? key := by
    rw [List.filterMap_cons]
    cases c.preset? key <;> rfl
  rw [lastDefault?, List.filterMap_append, List.getLast?_append, hone]
  rfl

/-- Of the preset values of a key the last one stays. -/
lemma valuesIn_defaults_run (calls : List Call) (key : Text) :
    valuesIn (empty.run calls).defaults key = (lastDefault? calls key).toList := by
  induction calls using List.reverseRecOn with
  | nil => rfl
  | append_singleton calls c ih =>
    rw [run_append_singleton, valuesIn_defaults_call, ih, lastDefault?_append_singleton]
    cases c.preset? key <;> rfl

/-- Whatever the order of the calls, the value of a key is the first that an argument gives, else the
first that a file gives, else the one preset last; all its values are those from arguments, those from
files and the last preset one; and a key is there if it has a value.  A call that fails at an argument or
at a line has recorded what stands in front of it, and one without a file nothing.  Layers that have been
given the same by the same calls hold no list without a value, give the same answers, and read arguments and
files with the same outcome. -/
theorem layers_of_run (calls : List Call) (key : Text) :
    (empty.run calls).get? key =
      (argumentValues calls key).head?.or
        ((fileValues calls key).head?.or (lastDefault? calls key)) ∧
    (empty.run calls).list key =
      argumentValues calls key ++ fileValues calls key ++ (lastDefault? calls key).toList ∧
    ((empty.run calls).has key = true ↔ (empty.run calls).list key ≠ []) ∧
    (empty.run calls).get? key = ((empty.run calls).list key).head? ∧
    (∀ s arguments e, (readArguments s arguments).2 = .error e →
      ∃ found, StopsAt e (arguments.map ofArgument) found ∧
        (readArguments s arguments).1 = { s with arguments := s.arguments ++ found }) ∧
    (∀ s session path e, (load s session path).2.2 = .error e →
      (session.directory.read? path = none ∧ (load s session path).2.1 = s) ∨
      ∃ found, StopsAt e (fileOutcomes session path) found ∧
        (load s session path).2.1 = { s with file := s.file ++ found }) ∧
    (∀ m ∈ (Layers.empty.run calls).sources, ∀ k values, m.lookup k = some values → values ≠ []) ∧
    (Layers.empty.run calls).get? key = (empty.run calls).get? key ∧
    (Layers.empty.run calls).list key = (empty.run calls).list key ∧
    (Layers.empty.run calls).has key = (empty.run calls).has key ∧
    (∀ arguments, ((Layers.empty.run calls).readArguments arguments).2 =
      ((empty.run calls).readArguments arguments).2) ∧
    ∀ session path, ((Layers.empty.run calls).load session path).2 =
      ((empty.run calls).load session path).2.2 := by
  have hlist : (empty.run calls).list key =
      argumentValues calls key ++ fileValues calls key ++ (lastDefault? calls key).toList := by
    rw [list_eq_append, arguments_run, file_run, valuesIn_defaults_run]
    rfl
  have hshows : (Layers.empty.run calls).Shows (empty.run calls) := Layers.shows_empty.run calls
  refine ⟨?_, hlist, has_iff_list_ne_nil _ _, get?_eq_head?_list _ _, ?_, ?_,
    fun m hm k values => hshows.ne_nil hm, hshows.get?_eq key, hshows.list_eq key, hshows.has_eq key,
    fun arguments => (hshows.readArguments arguments).2, fun session path => (hshows.load session path).2⟩
  · rw [get?_eq_head?_list, hlist, List.head?_append, List.head?_append, Option.or_assoc,
      Option.head?_toList]
  · intro s arguments e h
    rw [readArguments_eq] at h ⊢
    exact ⟨_, stopsAt_of_failure h, rfl⟩
  · intro s session path e h
    cases hread : session.directory.read? path with
    | none => exact Or.inl ⟨rfl, by rw [load_of_none hread]⟩
    | some content =>
      rw [load_of_some hread] at h ⊢
      exact Or.inr ⟨_, stopsAt_of_failure h, rfl⟩

/-- A working directory with a settings file whose second line has no key. -/
def stoppingFile : Session :=
  Session.start (Directory.empty.put (ofString "rc") (ofString "level = 2\n = \nlevel = 8\n")) []

/-- Calls with all three sources, two of which stop midway, and the strongest one is read first and
last. -/
def mixedCalls : List Call :=
  [.readArguments [ofString "-level=1", ofString "level=9", ofString "-level=7"],
    .setDefault (ofString "level") (ofString "3"), .load stoppingFile (ofString "rc"),
    .setDefault (ofString "level") (ofString "4"), .load stoppingFile (ofString "none"),
    .readArguments [ofString "--level"]]

/-- The values that these calls leave for a key. -/
theorem layers_of_mixedCalls :
    (empty.run mixedCalls).get? (ofString "level") = some (ofString "1") ∧
    (Layers.empty.run mixedCalls).get? (ofString "level") = some (ofString "1") ∧
    (empty.run mixedCalls).list (ofString "level") =
      [ofString "1", ofString "1", ofString "2", ofString "4"] ∧
    (load empty stoppingFile (ofString "rc")).2 =
      (⟨[], [(ofString "level", ofString "2")], []⟩,
        .error ⟨.settingsKeyEmpty 2 (ofString "rc"), 0⟩) := by
  have harguments : argumentValues mixedCalls (ofString "level") = [ofString "1", ofString "1"] := by
    decide
  have hfile : fileValues mixedCalls (ofString "level") = [ofString "2"] := by decide
  have hdefault : lastDefault? mixedCalls (ofString "level") = some (ofString "4") := by decide
  have hload : (load empty stoppingFile (ofString "rc")).2 =
      (⟨[], [(ofString "level", ofString "2")], []⟩,
        .error ⟨.settingsKeyEmpty 2 (ofString "rc"), 0⟩) := by decide
  obtain ⟨hget, hlist, -, -, -, -, -, hsame, -⟩ := layers_of_run mixedCalls (ofString "level")
  rw [harguments, hfile, hdefault] at hget hlist
  exact ⟨hget, hsame.trans hget, hlist, hload⟩

end CoinLedger.Settings
