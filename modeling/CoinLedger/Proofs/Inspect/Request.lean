import Mathlib
import CoinLedger.Inspect
import CoinLedger.Proofs.Hex
import CoinLedger.Proofs.Settings.Arguments

/-!
# Requests to the inspector

A `Request` is a kind of record, with the settings that ask for it.  Whatever the order in which the
arguments give these settings, the inspector finds the kind, the bytes and the input counts again
(`get?_given`), the numerals between commas are read back as the counts (`readCounts_countsText`), and no
other key has a value (`get?_given_of_notMem`).
-/

namespace CoinLedger.Inspect

open Text (ofString decimal)
open Settings (valuesIn)

/-! ## Requests -/

/-- A kind of record to be decoded. -/
inductive Request where
  /-- a coin -/
  | coin
  /-- a spent output on its own -/
  | spentOutput
  /-- the spend journal of a block whose transactions have the given input counts -/
  | journal (counts : List ℕ)
  /-- a tip set -/
  | tips

namespace Request

/-- What a record of this kind decodes to. -/
def Value : Request → Type
  | coin => Coin
  | spentOutput => Decoded SpentOutput
  | journal _ => SpendJournal
  | tips => List Hash

/-- The decoder of this kind of record. -/
def decode (data : Bytes) : (request : Request) → Except Error request.Value
  | coin => Coin.decode data
  | spentOutput => SpentOutput.decode data
  | journal counts => SpendJournal.decode data (blockOfCounts counts)
  | tips => TipSet.parse data

/-- The report of a value that has been read from `size` bytes. -/
def text (size : ℕ) : (request : Request) → request.Value → Text
  | coin => coinText size
  | spentOutput => spentText size
  | journal counts => journalText counts
  | tips => tipsText

/-- The word for this kind of record. -/
def word : Request → Text
  | coin => ofString "coin"
  | spentOutput => ofString "stxo"
  | journal _ => ofString "undo"
  | tips => ofString "tips"

/-- The input counts, if this kind of record needs any. -/
def counts? : Request → Option (List ℕ)
  | journal counts => some counts
  | coin | spentOutput | tips => none

/-- There are input counts if they are needed, and a word has room for each of them. -/
def WellFormed (request : Request) : Prop :=
  ∀ counts, request.counts? = some counts → counts ≠ [] ∧ ∀ count ∈ counts, count < UInt64.size

/-- The text of input counts: numerals with commas between them. -/
def countsText (counts : List ℕ) : Text := [Text.comma].intercalate (counts.map decimal)

/-- The settings that ask for a record to be decoded. -/
def settings (request : Request) (data : Bytes) : List (Text × Text) :=
  (recordKey, request.word) :: (hexKey, Hex.encode data) ::
    (request.counts?.map fun counts => (inputsKey, countsText counts)).toList

end Request

open Request (countsText)

/-! ## Input counts -/

/-- The numerals of numbers with room in a word are read as these numbers, wherever they stand. -/
lemma readCountFields_map_decimal {counts : List ℕ} (h : ∀ count ∈ counts, count < UInt64.size)
    (start : ℕ) : readCountFields start (counts.map decimal) = .ok counts := by
  induction counts generalizing start with
  | nil => rfl
  | cons count counts ih =>
    obtain ⟨hcount, hcounts⟩ := List.forall_mem_cons.mp h
    rw [List.map_cons, readCountFields, Text.readDecimal?_decimal hcount]
    dsimp only
    rw [ih hcounts]

/-- Input counts are read back. -/
theorem readCounts_countsText {counts : List ℕ} (hne : counts ≠ [])
    (h : ∀ count ∈ counts, count < UInt64.size) : readCounts (countsText counts) = .ok counts := by
  have hcomma : ∀ item ∈ counts.map decimal, Text.comma ∉ item := by
    intro item hitem hmem
    obtain ⟨count, -, rfl⟩ := List.mem_map.mp hitem
    exact absurd (Text.isDigit_of_mem_decimal hmem) (by decide)
  rw [readCounts, countsText, Text.fields_intercalate (List.map_eq_nil_iff.not.mpr hne) hcomma,
    readCountFields_map_decimal h]

lemma spaceless_countsText (counts : List ℕ) : Text.Spaceless (countsText counts) := by
  intro b hb
  rcases Text.eq_or_exists_of_mem_intercalate hb with rfl | ⟨item, hitem, hb⟩
  · rfl
  · obtain ⟨count, -, rfl⟩ := List.mem_map.mp hitem
    exact Text.spaceless_decimal count b hb

/-! ## What the arguments give -/

namespace Request

/-- The keys of all settings that ask for a record to be decoded. -/
def keys : List Text := [recordKey, hexKey, inputsKey]

/-- The keys of the settings that ask for a record of this kind. -/
lemma map_fst_settings (request : Request) (data : Bytes) :
    (request.settings data).map Prod.fst = keys.take (if request.counts?.isSome then 3 else 2) := by
  cases request <;> rfl

lemma fst_mem_keys {request : Request} {data : Bytes} {setting : Text × Text}
    (h : setting ∈ request.settings data) : setting.1 ∈ keys := by
  have hmem := List.mem_map_of_mem (f := Prod.fst) h
  rw [map_fst_settings] at hmem
  exact List.mem_of_mem_take hmem

lemma nodup_keys (request : Request) (data : Bytes) :
    ((request.settings data).map Prod.fst).Nodup := by
  have hkeys : keys.Nodup := by decide
  rw [map_fst_settings]
  exact hkeys.sublist (List.take_sublist _ _)

lemma spaceless_word (request : Request) : Text.Spaceless request.word := by
  have hwords : ∀ name ∈ ["coin", "stxo", "undo", "tips"], Text.Spaceless (ofString name) := by
    decide +kernel
  cases request <;> exact hwords _ (by decide)

/-- The settings that ask for a record can be given by arguments. -/
lemma plain_of_mem_settings {request : Request} {data : Bytes} {setting : Text × Text}
    (h : setting ∈ request.settings data) : Settings.Plain setting := by
  have hkeys : ∀ key ∈ keys, Settings.PlainKey key := by decide +kernel
  refine ⟨hkeys _ (fst_mem_keys h), ?_⟩
  rcases List.mem_cons.mp h with rfl | h
  · exact spaceless_word request
  rcases List.mem_cons.mp h with rfl | h
  · exact Hex.spaceless_encode data
  · obtain ⟨counts, -, rfl⟩ := Option.map_eq_some_iff.mp (Option.mem_toList.mp h)
    exact spaceless_countsText counts

lemma lookup_settings_of_notMem (request : Request) (data : Bytes) {key : Text} (h : key ∉ keys) :
    (request.settings data).lookup key = none := by
  rw [List.lookup_eq_none_iff]
  intro setting hsetting
  rw [bne_iff_ne]
  exact fun heq => h (heq ▸ fst_mem_keys hsetting)

end Request

/-- The settings of a run whose arguments give `settings`. -/
def given (settings : List (Text × Text)) : Settings :=
  { Settings.empty.setDefault Settings.levelKey (ofString "warn") with arguments := settings }

section Given

variable {request : Request} {data : Bytes} {settings : List (Text × Text)}

lemma get?_given (h : settings.Perm (request.settings data)) (key : Text) :
    (given settings).get? key =
      ((request.settings data).lookup key).or ((given settings).defaults.lookup key) := by
  have hlist : (given settings).list key = ((request.settings data).lookup key).toList ++
      valuesIn (given settings).defaults key := by
    rw [Settings.list_eq_append, ← Settings.valuesIn_eq_of_perm h (request.nodup_keys data)]
    exact congrArg (· ++ _) (List.append_nil _)
  rw [Settings.get?_eq_head?_list, hlist, List.head?_append, Option.head?_toList,
    ← Settings.lookup_eq_head?_valuesIn]

/-- No other key has a value. -/
lemma get?_given_of_notMem (h : settings.Perm (request.settings data)) {key : Text}
    (hkey : key ∉ Settings.levelKey :: Request.keys) : (given settings).get? key = none := by
  rw [List.mem_cons, not_or] at hkey
  obtain ⟨hlevel, hkeys⟩ := hkey
  have hdefaults : (given settings).defaults.lookup key = none := by
    rw [List.lookup_eq_none_iff]
    intro setting hsetting
    rw [List.mem_singleton.mp hsetting]
    exact bne_iff_ne.mpr hlevel
  rw [get?_given h, request.lookup_settings_of_notMem data hkeys, hdefaults, Option.none_or]

lemma get?_given_levelKey (h : settings.Perm (request.settings data)) :
    (given settings).get? Settings.levelKey = some (ofString "warn") := by
  rw [get?_given h, request.lookup_settings_of_notMem data (by decide +kernel)]
  rfl

lemma get?_given_recordKey (h : settings.Perm (request.settings data)) :
    (given settings).get? recordKey = some request.word := by
  rw [get?_given h]
  rfl

lemma get?_given_hexKey (h : settings.Perm (request.settings data)) :
    (given settings).get? hexKey = some (Hex.encode data) := by
  rw [get?_given h]
  rfl

lemma get?_given_inputsKey (h : settings.Perm (request.settings data)) {counts : List ℕ}
    (hcounts : request.counts? = some counts) :
    (given settings).get? inputsKey = some (countsText counts) := by
  rw [get?_given h, Request.settings, hcounts]
  rfl

end Given

end CoinLedger.Inspect
