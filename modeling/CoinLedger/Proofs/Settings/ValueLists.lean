import Mathlib
import CoinLedger.Settings.Logging

/-!
# Lists of values

`Settings` holds the settings of a source one behind the other, in the order in which they were given.  Here
a source is a `ValueMap` instead: it finds a key with all the values that this source has for it, a further
value goes behind them, and a preset value takes their place.  `Layers` are the settings with three such
sources.

Nothing ever empties a list of values, so a key that is found has a value (`ValueMap.Lists.ne_nil`).  Without
that, `Layers.get?` and `Layers.has` would differ: the one asks for a first value and the other for the key
alone.  With it, layers answer as settings that have been given the same (`Layers.Shows`).
-/

namespace CoinLedger.Settings

open Log (Session)

/-! ## Values of a key -/

lemma valuesIn_cons (setting : Text × Text) (source : List (Text × Text)) (key : Text) :
    valuesIn (setting :: source) key =
      if setting.1 = key then setting.2 :: valuesIn source key else valuesIn source key := by
  rw [valuesIn, List.filter_cons]
  simp only [beq_iff_eq]
  split <;> rfl

/-- The value that a lookup finds is the first one. -/
lemma lookup_eq_head?_valuesIn (source : List (Text × Text)) (key : Text) :
    source.lookup key = (valuesIn source key).head? := by
  induction source with
  | nil => rfl
  | cons setting source ih =>
    rw [valuesIn_cons, List.lookup_cons, ih, BEq.comm]
    by_cases h : setting.1 = key
    · rw [if_pos h, beq_iff_eq.mpr h]
      rfl
    · rw [if_neg h, beq_eq_false_iff_ne.mpr h]

/-- The value of a key is the first of its values. -/
theorem get?_eq_head?_list (s : Settings) (key : Text) : s.get? key = (s.list key).head? := by
  rw [get?, list, List.head?_flatMap]
  simp only [lookup_eq_head?_valuesIn]

/-- A key is there exactly if it has a value. -/
theorem has_iff_list_ne_nil (s : Settings) (key : Text) : s.has key = true ↔ s.list key ≠ [] := by
  rw [has, list, ne_eq, List.flatMap_eq_nil_iff, List.any_eq_true]
  simp only [valuesIn, List.map_eq_nil_iff, List.filter_eq_nil_iff, List.any_eq_true]
  push Not
  rfl

lemma list_eq_append (s : Settings) (key : Text) :
    s.list key = valuesIn s.arguments key ++ valuesIn s.file key ++ valuesIn s.defaults key := by
  simp only [list, sources, List.flatMap_cons, List.flatMap_nil, List.append_nil, List.append_assoc]

/-- A further setting gives a further value to its key. -/
lemma valuesIn_append_singleton (source : List (Text × Text)) (setting : Text × Text) (key : Text) :
    valuesIn (source ++ [setting]) key =
      if setting.1 = key then valuesIn source key ++ [setting.2] else valuesIn source key := by
  rw [valuesIn, List.filter_append, List.map_append]
  by_cases h : setting.1 = key <;> simp [valuesIn, h]

/-- A preset value is the only one that its key has among the preset values. -/
lemma valuesIn_setDefault (s : Settings) (k value key : Text) :
    valuesIn (s.setDefault k value).defaults key =
      if k = key then [value] else valuesIn s.defaults key := by
  rw [setDefault, valuesIn_cons, valuesIn, List.filter_filter]
  split
  next h =>
    have hnone : s.defaults.filter (fun setting => setting.1 == key && decide (setting.1 ≠ k)) = [] := by
      rw [List.filter_eq_nil_iff]
      intro setting _
      simp [show k = key from h]
    rw [hnone]
    rfl
  next h =>
    have hall : s.defaults.filter (fun setting => setting.1 == key && decide (setting.1 ≠ k)) =
        s.defaults.filter (fun setting => setting.1 == key) := by
      apply List.filter_congr
      intro setting _
      by_cases hkey : setting.1 = key
      · simp [hkey, show key ≠ k from Ne.symm h]
      · simp [hkey]
    rw [hall]
    rfl

/-! ## One source -/

/-- The keys of a source, each with its values. -/
abbrev ValueMap := AList fun _ : Text => List Text

namespace ValueMap

/-- Adds a value behind those that its key has. -/
def push (m : ValueMap) (setting : Text × Text) : ValueMap :=
  m.insert setting.1 ((m.lookup setting.1).getD [] ++ [setting.2])

/-- A map lists the values of a source: those of every key, and no key without values. -/
structure Lists (m : ValueMap) (source : List (Text × Text)) : Prop where
  /-- A key that is found has a value. -/
  ne_nil : ∀ key values, m.lookup key = some values → values ≠ []
  /-- The values of a key are those that the source has for it. -/
  getD_lookup : ∀ key, (m.lookup key).getD [] = valuesIn source key

variable {m : ValueMap} {source : List (Text × Text)}

lemma lists_empty : Lists ∅ [] := ⟨fun _ _ h => absurd h (by simp), fun _ => rfl⟩

/-- Where the values of one key are replaced by others, the map lists those. -/
lemma Lists.insert (h : m.Lists source) {key : Text} {values : List Text} (hne : values ≠ [])
    {source' : List (Text × Text)} (hkey : valuesIn source' key = values)
    (hothers : ∀ other, other ≠ key → valuesIn source' other = valuesIn source other) :
    Lists (AList.insert key values m) source' := by
  constructor
  · intro other found hfound
    by_cases hother : other = key
    · rw [hother, AList.lookup_insert] at hfound
      exact Option.some.inj hfound ▸ hne
    · rw [AList.lookup_insert_ne hother] at hfound
      exact h.ne_nil other found hfound
  · intro other
    by_cases hother : other = key
    · rw [hother, AList.lookup_insert, hkey]
      rfl
    · rw [AList.lookup_insert_ne hother, h.getD_lookup, hothers other hother]

/-- A further value is listed behind the others. -/
lemma Lists.push (h : m.Lists source) (setting : Text × Text) :
    (m.push setting).Lists (source ++ [setting]) := by
  refine h.insert (List.append_ne_nil_of_right_ne_nil _ (List.cons_ne_nil _ _)) ?_ ?_
  · rw [valuesIn_append_singleton, if_pos rfl, h.getD_lookup]
  · intro other hother
    rw [valuesIn_append_singleton, if_neg (Ne.symm hother)]

/-- What is found under a key. -/
lemma Lists.lookup_eq (h : m.Lists source) (key : Text) :
    m.lookup key = if valuesIn source key = [] then none else some (valuesIn source key) := by
  have hvalues := h.getD_lookup key
  cases hfound : m.lookup key with
  | none =>
    rw [hfound, Option.getD_none] at hvalues
    rw [if_pos hvalues.symm]
  | some values =>
    rw [hfound, Option.getD_some] at hvalues
    rw [← hvalues, if_neg (h.ne_nil key values hfound)]

end ValueMap

/-! ## Three sources -/

/-- Settings whose sources keep lists of values. -/
structure Layers where
  /-- From the command line. -/
  arguments : ValueMap
  /-- From settings files. -/
  file : ValueMap
  /-- Preset. -/
  defaults : ValueMap

namespace Layers

/-- No settings. -/
def empty : Layers := ⟨∅, ∅, ∅⟩

/-- The sources, strongest first. -/
def sources (l : Layers) : List ValueMap := [l.arguments, l.file, l.defaults]

/-- The values of a key in the strongest source that has the key. -/
def lookup? (l : Layers) (key : Text) : Option (List Text) :=
  l.sources.findSome? fun m => m.lookup key

/-- The first of these values. -/
def get? (l : Layers) (key : Text) : Option Text := (l.lookup? key).bind List.head?

/-- Whether some source has the key. -/
def has (l : Layers) (key : Text) : Bool := (l.lookup? key).isSome

/-- All values of a key, the strongest source first. -/
def list (l : Layers) (key : Text) : List Text := l.sources.flatMap fun m => (m.lookup key).getD []

/-- Presets a value, in the place of what was preset for the key. -/
def setDefault (l : Layers) (key value : Text) : Layers :=
  { l with defaults := l.defaults.insert key [value] }

/-- Records the settings of arguments, up to the first that is none. -/
def readArguments (l : Layers) : List Text → Layers × Except Error Unit
  | [] => (l, .ok ())
  | argument :: rest =>
    match ofArgument argument with
    | .error e => (l, .error e)
    | .ok none => l.readArguments rest
    | .ok (some setting) => { l with arguments := l.arguments.push setting }.readArguments rest

/-- Records the settings of the lines of the file `path` from line `number` on, up to the first that is
none. -/
def readLines (l : Layers) (path : Text) (number : ℕ) : List Text → Layers × Except Error Unit
  | [] => (l, .ok ())
  | line :: rest =>
    match ofLine path number line with
    | .error e => (l, .error e)
    | .ok none => l.readLines path (number + 1) rest
    | .ok (some setting) => { l with file := l.file.push setting }.readLines path (number + 1) rest

/-- Records the settings of the file that a path leads to. -/
def load (l : Layers) (session : Session) (path : Text) : Layers × Except Error Unit :=
  match session.directory.read? path with
  | none => (l, .error ⟨.settingsUnreadable path, 0⟩)
  | some _ =>
    let content := ((session.log (loadingEntry path)).directory.read? path).getD []
    l.readLines path 1 (Text.lines content)

/-- The sources of the layers list the values of the sources of settings. -/
structure Shows (l : Layers) (s : Settings) : Prop where
  /-- The values from the command line are the same ones. -/
  arguments : l.arguments.Lists s.arguments
  /-- The values from settings files are the same ones. -/
  file : l.file.Lists s.file
  /-- The preset values are the same ones. -/
  defaults : l.defaults.Lists s.defaults

variable {l : Layers} {s : Settings}

/-! ### What is found -/

/-- A source has no key without a value. -/
lemma Shows.ne_nil (h : l.Shows s) {m : ValueMap} (hm : m ∈ l.sources) {key : Text} {values : List Text}
    (hfound : m.lookup key = some values) : values ≠ [] := by
  rcases List.mem_cons.mp hm with rfl | hm
  · exact h.arguments.ne_nil key values hfound
  rcases List.mem_cons.mp hm with rfl | hm
  · exact h.file.ne_nil key values hfound
  · rw [List.mem_singleton.mp hm] at hfound
    exact h.defaults.ne_nil key values hfound

lemma Shows.list_eq (h : l.Shows s) (key : Text) : l.list key = s.list key := by
  simp only [list, sources, Settings.list, Settings.sources, List.flatMap_cons, List.flatMap_nil,
    h.arguments.getD_lookup, h.file.getD_lookup, h.defaults.getD_lookup]

/-- What is found for a key has a first value, and it stands in front of all that the settings list. -/
lemma Shows.lookup?_cases (h : l.Shows s) (key : Text) :
    (l.lookup? key = none ∧ s.list key = []) ∨
    ∃ value values rest, l.lookup? key = some (value :: values) ∧ s.list key = value :: values ++ rest := by
  rw [list_eq_append, lookup?, sources]
  simp only [List.findSome?_cons, List.findSome?_nil, h.arguments.lookup_eq, h.file.lookup_eq,
    h.defaults.lookup_eq]
  cases valuesIn s.arguments key with
  | cons value values => exact Or.inr ⟨value, values, _, rfl, List.append_assoc _ _ _⟩
  | nil =>
    cases valuesIn s.file key with
    | cons value values => exact Or.inr ⟨value, values, _, rfl, rfl⟩
    | nil =>
      cases valuesIn s.defaults key with
      | cons value values => exact Or.inr ⟨value, values, [], rfl, (List.append_nil _).symm⟩
      | nil => exact Or.inl ⟨rfl, rfl⟩

/-- The first value that is found is the value of the key. -/
lemma Shows.get?_eq (h : l.Shows s) (key : Text) : l.get? key = s.get? key := by
  rw [get?_eq_head?_list, get?]
  rcases h.lookup?_cases key with ⟨hnone, hlist⟩ | ⟨value, values, rest, hfound, hlist⟩
  · rw [hnone, hlist]
    rfl
  · rw [hfound, hlist]
    rfl

/-- A key is found exactly if it has a value. -/
lemma Shows.has_eq (h : l.Shows s) (key : Text) : l.has key = s.has key := by
  rw [Bool.eq_iff_iff, has_iff_list_ne_nil, has]
  rcases h.lookup?_cases key with ⟨hnone, hlist⟩ | ⟨value, values, rest, hfound, hlist⟩
  · simp [hnone, hlist]
  · simp [hfound, hlist]

/-! ### What is recorded -/

lemma shows_empty : empty.Shows Settings.empty :=
  ⟨ValueMap.lists_empty, ValueMap.lists_empty, ValueMap.lists_empty⟩

lemma Shows.setDefault (h : l.Shows s) (key value : Text) :
    (l.setDefault key value).Shows (s.setDefault key value) := by
  refine ⟨h.arguments, h.file, h.defaults.insert (List.cons_ne_nil _ _) ?_ ?_⟩
  · rw [valuesIn_setDefault, if_pos rfl]
  · intro other hother
    rw [valuesIn_setDefault, if_neg (Ne.symm hother)]

/-- Arguments are recorded alike, as far as they are, and with the same outcome. -/
lemma Shows.readArguments (h : l.Shows s) (arguments : List Text) :
    (l.readArguments arguments).1.Shows (s.readArguments arguments).1 ∧
      (l.readArguments arguments).2 = (s.readArguments arguments).2 := by
  induction arguments generalizing l s with
  | nil => exact ⟨h, rfl⟩
  | cons argument arguments ih =>
    rw [Layers.readArguments, Settings.readArguments]
    rcases ofArgument argument with e | (_ | setting)
    · exact ⟨h, rfl⟩
    · simpa using ih h
    · have hnext : Shows { l with arguments := l.arguments.push setting }
          { s with arguments := s.arguments ++ [setting] } :=
        ⟨h.arguments.push setting, h.file, h.defaults⟩
      exact ih hnext

/-- Lines are recorded alike, as far as they are, and with the same outcome. -/
lemma Shows.readLines (h : l.Shows s) (path : Text) (number : ℕ) (lines : List Text) :
    (l.readLines path number lines).1.Shows (s.readLines path number lines).1 ∧
      (l.readLines path number lines).2 = (s.readLines path number lines).2 := by
  induction lines generalizing l s number with
  | nil => exact ⟨h, rfl⟩
  | cons line lines ih =>
    rw [Layers.readLines, Settings.readLines]
    rcases ofLine path number line with e | (_ | setting)
    · exact ⟨h, rfl⟩
    · simpa using ih h (number + 1)
    · have hnext : Shows { l with file := l.file.push setting } { s with file := s.file ++ [setting] } :=
        ⟨h.arguments, h.file.push setting, h.defaults⟩
      exact ih hnext (number + 1)

/-- Files are recorded alike, as far as they are, and with the same outcome. -/
lemma Shows.load (h : l.Shows s) (session : Session) (path : Text) :
    (l.load session path).1.Shows (s.load session path).2.1 ∧
      (l.load session path).2 = (s.load session path).2.2 := by
  rw [Layers.load, Settings.load]
  cases session.directory.read? path with
  | none => exact ⟨h, rfl⟩
  | some content => exact h.readLines path 1 _

end Layers

end CoinLedger.Settings
