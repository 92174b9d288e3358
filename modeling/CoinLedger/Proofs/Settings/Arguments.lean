import Mathlib
import CoinLedger.Proofs.Settings.Layers
import CoinLedger.Proofs.Text

/-!
# Settings given by arguments

A setting whose key and value have no white space is read from its argument as it is
(`ofArgument_argument`), so arguments give the settings that they are made of
(`readArguments_map_argument`).  A key that is given once has the same value whatever the order of the
arguments (`valuesIn_eq_of_perm`).
-/

namespace CoinLedger.Settings

/-- The argument that gives a setting. -/
def argument (setting : Text × Text) : Text := dash :: (setting.1 ++ equalsSign :: setting.2)

/-- A key that an argument can give: nothing in it is taken for another dash or for its end. -/
def PlainKey (key : Text) : Prop := key.head? ≠ some dash ∧ equalsSign ∉ key ∧ Text.Spaceless key

instance (key : Text) : Decidable (PlainKey key) := inferInstanceAs (Decidable (_ ∧ _ ∧ _))

/-- A setting that an argument can give. -/
structure Plain (setting : Text × Text) : Prop where
  /-- The key is read as it is. -/
  key : PlainKey setting.1
  /-- The value is read as it is. -/
  value : Text.Spaceless setting.2

lemma cut?_append_cons {sep : UInt8} {key : Text} (h : sep ∉ key) (value : Text) :
    Text.cut? sep (key ++ sep :: value) = some (key, value) := by
  have hkey : ∀ b ∈ key, decide (b ≠ sep) = true := by
    intro b hb
    exact decide_eq_true fun heq => h (heq ▸ hb)
  rw [Text.cut?, if_pos (List.mem_append_right _ List.mem_cons_self),
    List.takeWhile_append_of_pos hkey, List.dropWhile_append_of_pos hkey,
    List.takeWhile_cons_of_neg (by simp), List.dropWhile_cons_of_neg (by simp), List.append_nil]
  rfl

lemma split_of_plain {setting : Text × Text} (h : Plain setting) :
    split (setting.1 ++ equalsSign :: setting.2) = setting := by
  obtain ⟨-, hequals, hspaceless⟩ := h.key
  rw [split, cut?_append_cons hequals]
  dsimp only
  rw [Text.trim_eq_self hspaceless, Text.trim_eq_self h.value]

lemma dropDashes_dash_cons {t : Text} (h : t.head? ≠ some dash) : dropDashes (dash :: t) = t := by
  cases t with
  | nil => rfl
  | cons b t =>
    have hb : b ≠ dash := fun heq => h (congrArg some heq)
    rw [dropDashes, if_pos rfl]
    exact if_neg hb

/-- An argument gives the setting that it is made of. -/
lemma ofArgument_argument {setting : Text × Text} (h : Plain setting) :
    ofArgument (argument setting) = .ok (some setting) := by
  have hhead : (setting.1 ++ equalsSign :: setting.2).head? ≠ some dash := by
    have hkey := h.key.1
    cases hsetting : setting.1 with
    | nil => exact fun heq => absurd (Option.some.inj heq) (by decide)
    | cons b key =>
      rw [hsetting] at hkey
      exact hkey
  rw [ofArgument, argument, if_neg (List.cons_ne_nil _ _), if_pos List.head?_cons,
    dropDashes_dash_cons hhead, split_of_plain h]

lemma recorded_map_ok (settings : List (Text × Text)) :
    recorded (settings.map fun setting => .ok (some setting)) = settings := by
  induction settings with
  | nil => rfl
  | cons setting settings ih =>
    rw [List.map_cons, recorded, ih]
    rfl

lemma failure_map_ok (settings : List (Text × Text)) :
    failure (settings.map fun setting => .ok (some setting)) = .ok () := by
  induction settings with
  | nil => rfl
  | cons setting settings ih => exact ih

/-- Arguments give the settings that they are made of, in their order. -/
theorem readArguments_map_argument (s : Settings) {settings : List (Text × Text)}
    (h : ∀ setting ∈ settings, Plain setting) :
    s.readArguments (settings.map argument) =
      ({ s with arguments := s.arguments ++ settings }, .ok ()) := by
  have houtcomes : (settings.map argument).map ofArgument =
      settings.map fun setting => .ok (some setting) := by
    rw [List.map_map]
    exact List.map_congr_left fun setting hsetting => ofArgument_argument (h setting hsetting)
  rw [readArguments_eq, houtcomes, recorded_map_ok, failure_map_ok]

/-! ## Settings in any order -/

/-- A key that is given once has one value. -/
lemma valuesIn_eq_toList_lookup {source : List (Text × Text)} (h : (source.map Prod.fst).Nodup)
    (key : Text) : valuesIn source key = (source.lookup key).toList := by
  induction source with
  | nil => rfl
  | cons setting source ih =>
    rw [List.map_cons, List.nodup_cons] at h
    obtain ⟨hfirst, hothers⟩ := h
    rw [valuesIn_cons, List.lookup_cons, ih hothers]
    by_cases hkey : setting.1 = key
    · have hnone : source.lookup key = none := by
        rw [List.lookup_eq_none_iff]
        intro other hother
        rw [bne_iff_ne, ← hkey]
        exact fun heq => hfirst (heq ▸ List.mem_map_of_mem hother)
      rw [if_pos hkey, hnone, hkey, beq_self_eq_true]
      rfl
    · rw [if_neg hkey, beq_eq_false_iff_ne.mpr (Ne.symm hkey)]

/-- The order of settings with different keys does not matter. -/
lemma valuesIn_eq_of_perm {settings settings' : List (Text × Text)} (h : settings.Perm settings')
    (hnodup : (settings'.map Prod.fst).Nodup) (key : Text) :
    valuesIn settings key = (settings'.lookup key).toList := by
  have hperm : (valuesIn settings key).Perm (settings'.lookup key).toList := by
    rw [← valuesIn_eq_toList_lookup hnodup]
    exact (h.filter _).map _
  cases hvalue : settings'.lookup key with
  | none =>
    rw [hvalue] at hperm
    exact List.perm_nil.mp hperm
  | some value =>
    rw [hvalue] at hperm
    exact List.perm_singleton.mp hperm

end CoinLedger.Settings
