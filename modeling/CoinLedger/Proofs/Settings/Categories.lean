import Mathlib
import CoinLedger.Proofs.Text
import CoinLedger.Settings.Logging

/-!
# Lists of categories

A list names the categories of the words that it mentions, and nothing else about it matters
(`Categories.has_ofWords`): a word may stand anywhere, several times, in any letter case, with white space
around it and other words beside it.  So a list made of two names the categories of both
(`Categories.ofWords_append_comma`), and the log is configured by several values as it is by the one that
has them between commas (`configureLog_of_list_eq`).

A list can be walked by slicing one word after the other off it, and the walk may end at a word for all
categories (`Categories.slicing_eq`).
-/

namespace CoinLedger.Log.Categories

open Text (comma equalsIgnoringCase fields ofString trim)

/-! ## Sets of categories -/

/-- Whether a set has the category of the bit `i`. -/
def has (c : Categories) (i : ℕ) : Prop := c.mask.toBitVec.getLsbD i = true

lemma eq_of_has_iff {c c' : Categories} (h : ∀ i, c.has i ↔ c'.has i) : c = c' := by
  have hmask : c.mask = c'.mask := by
    apply UInt32.toBitVec_inj.mp
    apply BitVec.eq_of_getLsbD_eq
    intro i _
    exact Bool.eq_iff_iff.mpr (h i)
  cases c
  cases c'
  exact congrArg Categories.mk hmask

@[simp] lemma not_has_none (i : ℕ) : ¬ none.has i := by
  simp [has, none]

@[simp] lemma has_union (c c' : Categories) (i : ℕ) : (c.union c').has i ↔ c.has i ∨ c'.has i := by
  simp [has, union]

/-- The full set has every category that some set has. -/
lemma has_all {c : Categories} {i : ℕ} (h : c.has i) : all.has i := by
  have hones : all.mask.toBitVec = BitVec.allOnes 32 := rfl
  rw [has, hones, BitVec.getLsbD_allOnes]
  exact decide_eq_true (BitVec.lt_of_getLsbD h)

/-- A union of several sets has the categories of all of them. -/
lemma has_foldl_union {α : Type} (f : α → Categories) (items : List α) (c : Categories) (i : ℕ) :
    (items.foldl (fun c item => c.union (f item)) c).has i ↔
      c.has i ∨ ∃ item ∈ items, (f item).has i := by
  induction items generalizing c with
  | nil => simp
  | cons item items ih => simp [ih, or_assoc]

/-! ## Words -/

/-- The words with what they name. -/
def words : List (Categories × String) := (all, "all") :: (all, "1") :: registry

/-- The digit has no other letter case. -/
lemma equalsIgnoringCase_one (word : Text) :
    equalsIgnoringCase word (ofString "1") = (word == ofString "1") := by
  have hlower : ∀ b : UInt8, Text.lower b = 49 → b = 49 := by
    intro b hb
    unfold Text.lower at hb
    split at hb
    next hletter =>
      have hsum : (b.toNat + 32) % 256 = 49 := by simpa using congrArg UInt8.toNat hb
      have hbounds : 65 ≤ b.toNat ∧ b.toNat ≤ 90 := hletter
      omega
    next => exact hb
  have hdigit : ofString "1" = [49] := by decide
  rw [equalsIgnoringCase, hdigit, Bool.eq_iff_iff, beq_iff_eq, beq_iff_eq]
  constructor
  · intro h
    obtain ⟨b, rfl, hb⟩ := List.map_eq_singleton_iff.mp h
    rw [hlower b hb]
  · rintro rfl
    rfl

/-- What a word names does not depend on its letter case. -/
lemma ofWord_congr {word word' : Text} (h : equalsIgnoringCase word word' = true) :
    ofWord word = ofWord word' := by
  have hsame : ∀ t, equalsIgnoringCase word t = equalsIgnoringCase word' t := by
    intro t
    rw [equalsIgnoringCase, equalsIgnoringCase, beq_iff_eq.mp h]
  simp only [ofWord, ← equalsIgnoringCase_one, hsame]

lemma ofWord_of_mem_words : ∀ entry ∈ words, ofWord (ofString entry.2) = entry.1 := by decide

/-- An unknown word names nothing. -/
lemma ofWord_eq_none {word : Text}
    (h : ∀ entry ∈ words, equalsIgnoringCase word (ofString entry.2) = false) :
    ofWord word = none := by
  have hregistry : registry.find? (fun entry => equalsIgnoringCase word (ofString entry.2)) =
      Option.none := by
    rw [List.find?_eq_none]
    intro entry hentry
    simp [h entry (List.mem_cons_of_mem _ (List.mem_cons_of_mem _ hentry))]
  have hall := h (all, "all") List.mem_cons_self
  have hone := h (all, "1") (List.mem_cons_of_mem _ List.mem_cons_self)
  rw [equalsIgnoringCase_one] at hone
  simp [ofWord, hall, hone, hregistry]

lemma has_ofWord (word : Text) (i : ℕ) :
    (ofWord word).has i ↔
      ∃ entry ∈ words, equalsIgnoringCase word (ofString entry.2) = true ∧ entry.1.has i := by
  have hknown : ∀ entry ∈ words, equalsIgnoringCase word (ofString entry.2) = true →
      ofWord word = entry.1 := by
    intro entry hentry hword
    rw [ofWord_congr hword, ofWord_of_mem_words entry hentry]
  constructor
  · intro hi
    by_contra hunknown
    have hnone : ofWord word = none := by
      apply ofWord_eq_none
      intro entry hentry
      by_contra hword
      rw [Bool.not_eq_false] at hword
      exact hunknown ⟨entry, hentry, hword, hknown entry hentry hword ▸ hi⟩
    exact not_has_none i (hnone ▸ hi)
  · rintro ⟨entry, hentry, hword, hi⟩
    rwa [hknown entry hentry hword]

/-! ## Lists -/

/-- A list mentions a word, in any letter case and with white space around it. -/
def Mentions (list : Text) (word : String) : Prop :=
  ∃ field ∈ fields comma list, equalsIgnoringCase (trim field) (ofString word) = true

instance (list : Text) (word : String) : Decidable (Mentions list word) :=
  inferInstanceAs (Decidable (∃ field ∈ fields comma list, _))

/-- A list names the categories of the words that it mentions. -/
theorem has_ofWords (list : Text) (i : ℕ) :
    (ofWords list).has i ↔ ∃ entry ∈ words, Mentions list entry.2 ∧ entry.1.has i := by
  unfold ofWords Mentions
  rw [has_foldl_union]
  simp only [not_has_none, false_or, has_ofWord]
  constructor
  · rintro ⟨field, hfield, entry, hentry, hword, hi⟩
    exact ⟨entry, hentry, ⟨field, hfield, hword⟩, hi⟩
  · rintro ⟨entry, hentry, ⟨field, hfield, hword⟩, hi⟩
    exact ⟨field, hfield, entry, hentry, hword, hi⟩

/-- Lists that mention the same known words name the same categories. -/
lemma ofWords_congr {a b : Text} (h : ∀ entry ∈ words, Mentions a entry.2 ↔ Mentions b entry.2) :
    ofWords a = ofWords b := by
  apply eq_of_has_iff
  intro i
  rw [has_ofWords, has_ofWords]
  constructor
  · rintro ⟨entry, hentry, hmentions, hi⟩
    exact ⟨entry, hentry, (h entry hentry).mp hmentions, hi⟩
  · rintro ⟨entry, hentry, hmentions, hi⟩
    exact ⟨entry, hentry, (h entry hentry).mpr hmentions, hi⟩

lemma mentions_append_comma (a b : Text) (word : String) :
    Mentions (a ++ comma :: b) word ↔ Mentions a word ∨ Mentions b word := by
  simp [Mentions, Text.fields_append_cons, or_and_right, exists_or]

/-- A list that is made of two names what one of them names. -/
lemma ofWords_append_comma (a b : Text) :
    ofWords (a ++ comma :: b) = (ofWords a).union (ofWords b) := by
  apply eq_of_has_iff
  intro i
  simp only [has_union, has_ofWords, mentions_append_comma, or_and_right, and_or_left, exists_or]

/-- A list names all categories exactly if it mentions a word for all of them. -/
lemma ofWords_eq_all_iff (list : Text) :
    ofWords list = all ↔ Mentions list "all" ∨ Mentions list "1" := by
  constructor
  · intro hall
    -- The named categories have the bits below this one.
    have hseven : (ofWords list).has 7 := by
      rw [hall]
      rfl
    obtain ⟨entry, hentry, hmentions, hi⟩ := (has_ofWords list 7).mp hseven
    have hword : ∀ entry ∈ words, entry.1.has 7 → entry.2 = "all" ∨ entry.2 = "1" := by
      unfold has
      decide
    rcases hword entry hentry hi with heq | heq
    · exact Or.inl (heq ▸ hmentions)
    · exact Or.inr (heq ▸ hmentions)
  · intro hmentions
    have hentry : ∃ entry ∈ words, Mentions list entry.2 ∧ entry.1 = all := by
      rcases hmentions with hall | hone
      · exact ⟨(all, "all"), by decide, hall, rfl⟩
      · exact ⟨(all, "1"), by decide, hone, rfl⟩
    obtain ⟨entry, hentry, hmentions, hset⟩ := hentry
    apply eq_of_has_iff
    intro i
    constructor
    · exact has_all
    · intro hi
      exact (has_ofWords list i).mpr ⟨entry, hentry, hmentions, hset ▸ hi⟩

/-- The lists between the commas of a list name together what it names. -/
lemma ofWords_intercalate (lists : List Text) :
    ofWords ([comma].intercalate lists) =
      lists.foldl (fun c list => c.union (ofWords list)) none := by
  apply eq_of_has_iff
  intro i
  rw [has_foldl_union]
  simp only [not_has_none, false_or]
  induction lists with
  | nil =>
    have hempty : ofWords ([comma].intercalate []) = none := by decide
    rw [hempty]
    simp
  | cons list lists ih =>
    by_cases hlists : lists = []
    · simp [hlists]
    · rw [List.intercalate_cons_of_ne_nil hlists, List.append_assoc, List.singleton_append,
        ofWords_append_comma, has_union, ih, List.exists_mem_cons_iff]

/-! ## Slicing -/

/-- What a walk over a list finds, together with what it has found before.  As long as something is left, it
slices off what stands in front of the first comma, and the comma.  At a word for all categories it ends,
whatever is left. -/
def slicing (found : Categories) (list : Text) : Categories :=
  if _ : list = [] then found
  else
    let word := trim (list.takeWhile (· ≠ comma))
    if equalsIgnoringCase word (ofString "all") || word == ofString "1" then all
    else
      match registry.find? (fun entry => equalsIgnoringCase word (ofString entry.2)) with
      | some entry => slicing (found.union entry.1) ((list.dropWhile (· ≠ comma)).drop 1)
      | Option.none => slicing found ((list.dropWhile (· ≠ comma)).drop 1)
termination_by list.length
decreasing_by
  all_goals
    have hlist : 0 < list.length := List.length_pos_iff.mpr ‹_›
    have hrest := (List.dropWhile_suffix (l := list) fun b => decide (b ≠ comma)).length_le
    rw [List.length_drop]
    omega

lemma union_none (c : Categories) : c.union none = c := by
  apply eq_of_has_iff
  simp

lemma union_all (c : Categories) : c.union all = all := by
  apply eq_of_has_iff
  intro i
  rw [has_union]
  exact ⟨fun h => h.elim has_all id, Or.inr⟩

lemma union_comm (a b : Categories) : a.union b = b.union a := by
  apply eq_of_has_iff
  simp [or_comm]

lemma union_assoc (a b c : Categories) : (a.union b).union c = a.union (b.union c) := by
  apply eq_of_has_iff
  simp [or_assoc]

/-- A list without a comma is a word. -/
lemma ofWords_of_notMem {list : Text} (h : comma ∉ list) : ofWords list = ofWord (trim list) := by
  apply eq_of_has_iff
  simp [ofWords, Text.fields_of_notMem h]

/-- A list names what its first word names and what is named behind it. -/
lemma ofWords_eq_union (list : Text) :
    ofWords list = (ofWord (trim (list.takeWhile (· ≠ comma)))).union
      (ofWords ((list.dropWhile (· ≠ comma)).drop 1)) := by
  have hempty : ofWords [] = none := by decide
  by_cases hcomma : comma ∈ list
  · obtain ⟨word, rest, rfl, hword⟩ := List.eq_append_cons_of_mem hcomma
    have hkeep : ∀ b ∈ word, decide (b ≠ comma) = true :=
      fun b hb => decide_eq_true fun heq => hword (heq ▸ hb)
    rw [ofWords_append_comma, ofWords_of_notMem hword, List.takeWhile_append_of_pos hkeep,
      List.dropWhile_append_of_pos hkeep]
    simp
  · have hkeep : ∀ b ∈ list, decide (b ≠ comma) = true :=
      fun b hb => decide_eq_true fun heq => hcomma (heq ▸ hb)
    rw [List.takeWhile_eq_self_iff.mpr hkeep, List.dropWhile_eq_nil_iff.mpr hkeep, List.drop_nil, hempty,
      union_none, ofWords_of_notMem hcomma]

/-- The walk finds what the list names, though it looks at no word behind one for all categories. -/
theorem slicing_eq (found : Categories) (list : Text) :
    slicing found list = found.union (ofWords list) := by
  fun_induction slicing found list with
  | case1 found =>
    have hempty : ofWords [] = none := by decide
    rw [hempty, union_none]
  | case2 found list hne word hall =>
    have hword : ofWord word = all := if_pos hall
    rw [ofWords_eq_union, hword, ← union_assoc, union_all, union_comm, union_all]
  | case3 found list hne word hall entry hentry ih =>
    have hword : ofWord word = entry.1 := by
      rw [ofWord, if_neg hall, hentry]
    rw [ih, ofWords_eq_union list, hword, union_assoc]
  | case4 found list hne word hall hnone ih =>
    have hword : ofWord word = none := by
      rw [ofWord, if_neg hall, hnone]
    rw [ih, ofWords_eq_union list, hword, union_comm none, union_none]

end CoinLedger.Log.Categories

namespace CoinLedger.Settings

open Log (Categories Session)
open Log.Categories (Mentions ofWords words)
open Text (comma ofString)

/-! ## Values of the setting -/

/-- Several values name together what one value names that has them between commas. -/
lemma categories_eq (s : Settings) :
    s.categories = ofWords ([comma].intercalate (s.list categoriesKey)) :=
  (Categories.ofWords_intercalate _).symm

lemma categories_configureFile (s : Settings) (session : Session) :
    (s.configureFile session).logger.categories = session.logger.categories := by
  have hset : ∀ path, (session.setLogFile path).logger.categories = session.logger.categories := by
    intro path
    unfold Session.setLogFile
    dsimp only
    split
    next => rfl
    next => split <;> rfl
  unfold configureFile
  split
  next => rfl
  next path _ =>
    split
    next => rfl
    next => exact hset path

/-- The log lets through what the values name, if there are values and the level has a name. -/
lemma categories_configureLog {s : Settings} {session : Session} (hvalues : s.list categoriesKey ≠ [])
    (hok : (s.configureLog session).2 = .ok ()) :
    (s.configureLog session).1.logger.categories = s.categories := by
  unfold configureLog at hok ⊢
  dsimp only at hok ⊢
  split at hok
  next => cases hok
  next level _ =>
    rw [categories_configureFile, Session.setConsole, configureCategories, if_neg hvalues]
    dsimp only
    split <;> rfl

/-- The log is configured by several values as by the one that has them between commas. -/
lemma configureLog_of_list_eq {s joined : Settings} (hvalues : s.list categoriesKey ≠ [])
    (hjoined : joined.list categoriesKey = [[comma].intercalate (s.list categoriesKey)])
    (hothers : ∀ key, key ≠ categoriesKey → joined.get? key = s.get? key) (session : Session) :
    joined.configureLog session = s.configureLog session := by
  have hcategories : joined.categories = s.categories := by
    rw [categories_eq, categories_eq, hjoined, List.intercalate_singleton]
  have hone : joined.list categoriesKey ≠ [] := hjoined ▸ List.cons_ne_nil _ _
  have hconfigure : joined.configureCategories = s.configureCategories := by
    funext session level
    rw [configureCategories, configureCategories, if_neg hone, if_neg hvalues, hcategories]
  have hfile : joined.configureFile = s.configureFile := by
    funext session
    rw [configureFile, configureFile, hothers logFileKey (by decide)]
  rw [configureLog, configureLog, getD, getD, getBool, getBool, hothers levelKey (by decide),
    hothers consoleKey (by decide), hconfigure, hfile]

/-- A list that is made of two names the categories of both, and a list names all categories exactly if it
mentions a word for all of them, wherever it stands.  Lists that mention the same known words name the same
categories: in whatever order and how often, in any letter case, and with white space, empty and unknown
words between them.  A walk that slices off one word after the other finds what a list names, though it ends
at a word for all categories.  The log lets through what all values of the setting name together, and it is
configured by them as by the one value that has them between commas. -/
theorem categories_of_lists :
    (∀ a b, (ofWords (a ++ comma :: b)).mask = (ofWords a).mask ||| (ofWords b).mask) ∧
    (∀ list, ofWords list = .all ↔ Mentions list "all" ∨ Mentions list "1") ∧
    (∀ a b, (∀ entry ∈ words, Mentions a entry.2 ↔ Mentions b entry.2) → ofWords a = ofWords b) ∧
    (∀ list, Categories.slicing .none list = ofWords list) ∧
    (∀ (s : Settings) (session : Session), s.list categoriesKey ≠ [] →
      (s.configureLog session).2 = .ok () →
      (s.configureLog session).1.logger.categories =
        ofWords ([comma].intercalate (s.list categoriesKey))) ∧
    ∀ (s joined : Settings) (session : Session), s.list categoriesKey ≠ [] →
      joined.list categoriesKey = [[comma].intercalate (s.list categoriesKey)] →
      (∀ key, key ≠ categoriesKey → joined.get? key = s.get? key) →
      joined.configureLog session = s.configureLog session := by
  refine ⟨?_, Categories.ofWords_eq_all_iff, fun a b => Categories.ofWords_congr, ?_, ?_, ?_⟩
  · intro a b
    rw [Categories.ofWords_append_comma]
    rfl
  · intro list
    rw [Categories.slicing_eq, Categories.union_comm, Categories.union_none]
  · intro s session hvalues hok
    rw [categories_configureLog hvalues hok, categories_eq]
  · intro s joined session hvalues hjoined hothers
    exact configureLog_of_list_eq hvalues hjoined hothers session

/-- Settings with a value for the categories from an argument and another one from a file. -/
def severalValues : Settings :=
  ⟨[(categoriesKey, ofString "DB,, nothing")], [(categoriesKey, ofString " tips ,db")], []⟩

/-- Settings with these values between commas. -/
def joinedValues : Settings :=
  ⟨[(categoriesKey, ofString "DB,, nothing, tips ,db")], [], []⟩

/-- Both settings let the entries about tip sets and the ledger through, as the two words do in another
order, and a word for all categories ends the walk over a list. -/
theorem categories_of_severalValues :
    ofWords (ofString "DB,, nothing, tips ,db") = ofWords (ofString "tips,db") ∧
    (severalValues.configureLog (.start .empty [])).1.logger.categories =
      ofWords (ofString "DB,, nothing, tips ,db") ∧
    joinedValues.configureLog (.start .empty []) = severalValues.configureLog (.start .empty []) ∧
    Categories.slicing .none (ofString "tips, ALL,db") = .all := by
  obtain ⟨-, hall, hcongr, hslicing, hconfigured, hjoined⟩ := categories_of_lists
  have hvalues : severalValues.list categoriesKey ≠ [] := by decide
  have hmentions : Mentions (ofString "tips, ALL,db") "all" := by decide +kernel
  refine ⟨hcongr _ _ (by decide +kernel), hconfigured severalValues _ hvalues (by decide +kernel), ?_,
    (hslicing _).trans ((hall _).mpr (Or.inl hmentions))⟩
  apply hjoined severalValues joinedValues _ hvalues (by decide +kernel)
  intro key hkey
  have hne : (key == categoriesKey) = false := beq_eq_false_iff_ne.mpr hkey
  simp [get?, sources, severalValues, joinedValues, List.lookup_cons, hne]

end CoinLedger.Settings
