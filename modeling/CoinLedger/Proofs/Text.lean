import Mathlib
import CoinLedger.Text

/-!
# Numerals, fields and lines

A numeral is read back as its number (`readDecimal?_decimal`).  A text is its trimmed form with white space
around it (`exists_eq_append_trim`), and trimming takes nothing else away.  Texts with separators between
them are found again as the fields of the whole (`fields_intercalate`), and a text ends at its first line
break (`eq_of_append_cons_eq`).
-/

namespace CoinLedger.Text

/-! ## Decimal numerals -/

lemma digitValue_digit {d : ℕ} (hd : d < 10) : digitValue (digit d) = d := by
  interval_cases d <;> rfl

lemma isDigit_digit {d : ℕ} (hd : d < 10) : isDigit (digit d) = true := by
  interval_cases d <;> rfl

lemma isDigit_iff (b : UInt8) : isDigit b = true ↔ b ∈ ofString "0123456789" := by
  have hall : ∀ b : UInt8, isDigit b = true ↔ b ∈ ofString "0123456789" := by decide +kernel
  exact hall b

lemma decimal_ne_nil (n : ℕ) : decimal n ≠ [] := by
  rw [decimal]
  split
  · exact List.cons_ne_nil _ _
  · exact List.append_ne_nil_of_right_ne_nil _ (List.cons_ne_nil _ _)

lemma isDigit_of_mem_decimal {n : ℕ} {b : UInt8} (h : b ∈ decimal n) : isDigit b = true := by
  induction n using Nat.strong_induction_on with
  | _ n ih =>
    rw [decimal] at h
    split at h
    next hsmall =>
      rw [List.mem_singleton.mp h]
      exact isDigit_digit hsmall
    next hlarge =>
      rcases List.mem_append.mp h with hfront | hlast
      · exact ih (n / 10) (by omega) hfront
      · rw [List.mem_singleton.mp hlast]
        exact isDigit_digit (Nat.mod_lt n (by omega))

lemma numeralValue_append_singleton (t : Text) (b : UInt8) :
    numeralValue (t ++ [b]) = 10 * numeralValue t + digitValue b := by
  rw [numeralValue, List.foldl_append]
  rfl

/-- The value of a numeral is that of its digits, the last of which counts the ones. -/
lemma numeralValue_eq_ofDigits (t : Text) :
    numeralValue t = Nat.ofDigits 10 (t.reverse.map digitValue) := by
  induction t using List.reverseRecOn with
  | nil => rfl
  | append_singleton t b ih =>
    rw [numeralValue_append_singleton, ih, List.reverse_append, List.reverse_singleton,
      List.singleton_append, List.map_cons, Nat.ofDigits_cons, Nat.add_comm]

lemma numeralValue_decimal (n : ℕ) : numeralValue (decimal n) = n := by
  induction n using Nat.strong_induction_on with
  | _ n ih =>
    rw [decimal]
    split
    next hsmall =>
      rw [← List.nil_append [digit n], numeralValue_append_singleton, digitValue_digit hsmall]
      exact Nat.zero_add n
    next hlarge =>
      rw [numeralValue_append_singleton, ih (n / 10) (by omega),
        digitValue_digit (Nat.mod_lt n (by omega)), Nat.div_add_mod]

/-- A numeral is read back, below every bound that its number meets. -/
theorem readDecimal?_decimal {bound n : ℕ} (h : n < bound) :
    readDecimal? bound (decimal n) = some n := by
  have hdigits : (decimal n).all isDigit = true :=
    List.all_eq_true.mpr fun b hb => isDigit_of_mem_decimal hb
  rw [readDecimal?, numeralValue_decimal, if_pos ⟨decimal_ne_nil n, hdigits, h⟩]

lemma decimal_injective : Function.Injective decimal :=
  Function.LeftInverse.injective numeralValue_decimal

/-! ## White space -/

lemma isSpace_eq_false_of_isDigit {b : UInt8} (h : isDigit b = true) : isSpace b = false := by
  rw [isDigit, Bool.and_eq_true, decide_eq_true_eq, decide_eq_true_eq, UInt8.le_iff_toNat_le,
    UInt8.le_iff_toNat_le] at h
  simp only [isSpace, Bool.or_eq_false_iff, beq_eq_false_iff_ne, ne_eq, ← UInt8.toNat_inj,
    Bool.and_eq_false_iff, decide_eq_false_iff_not, UInt8.le_iff_toNat_le]
  simp only [UInt8.toNat_ofNat] at h ⊢
  omega

/-- No byte of a text is white space. -/
def Spaceless (t : Text) : Prop := ∀ b ∈ t, isSpace b = false

instance (t : Text) : Decidable (Spaceless t) := inferInstanceAs (Decidable (∀ b ∈ t, _))

lemma spaceless_decimal (n : ℕ) : Spaceless (decimal n) :=
  fun _ hb => isSpace_eq_false_of_isDigit (isDigit_of_mem_decimal hb)

/-- Nothing is taken away from a text without white space. -/
lemma trim_eq_self {t : Text} (h : Spaceless t) : trim t = t := by
  have hkeep : ∀ u : Text, Spaceless u → u.dropWhile isSpace = u := by
    intro u hu
    rw [List.dropWhile_eq_self_iff]
    intro hpos
    rw [hu _ (List.getElem_mem hpos)]
    exact Bool.false_ne_true
  rw [trim, hkeep t h, hkeep t.reverse (fun b hb => h b (List.mem_reverse.mp hb)), List.reverse_reverse]

/-- A text that is nothing but white space. -/
def Blank (t : Text) : Prop := ∀ b ∈ t, isSpace b = true

/-- White space in front of a text does not matter. -/
lemma trim_append_of_blank_front {front : Text} (h : Blank front) (t : Text) :
    trim (front ++ t) = trim t := by
  unfold trim
  rw [List.dropWhile_append_of_pos h]

/-- White space behind a text does not matter. -/
lemma trim_append_of_blank_back {back : Text} (h : Blank back) (t : Text) :
    trim (t ++ back) = trim t := by
  have hback : Blank back.reverse := fun b hb => h b (List.mem_reverse.mp hb)
  have hnil : back.dropWhile isSpace = [] := List.dropWhile_eq_nil_iff.mpr h
  unfold trim
  rw [List.dropWhile_append]
  split
  next hblank => simp [hnil, List.isEmpty_iff.mp hblank]
  next => rw [List.reverse_append, List.dropWhile_append_of_pos hback]

/-- A text is its trimmed form with white space around it. -/
lemma exists_eq_append_trim (t : Text) :
    ∃ front back, Blank front ∧ Blank back ∧ t = front ++ trim t ++ back := by
  have hblank : ∀ u : Text, Blank (u.takeWhile isSpace) := fun u b hb => List.mem_takeWhile_imp hb
  refine ⟨t.takeWhile isSpace, ((t.dropWhile isSpace).reverse.takeWhile isSpace).reverse, hblank t, ?_, ?_⟩
  · intro b hb
    exact hblank _ b (List.mem_reverse.mp hb)
  · unfold trim
    rw [List.append_assoc, ← List.reverse_append, List.takeWhile_append_dropWhile, List.reverse_reverse,
      List.takeWhile_append_dropWhile]

lemma trim_trim (t : Text) : trim (trim t) = trim t := by
  obtain ⟨front, back, hfront, hback, ht⟩ := exists_eq_append_trim t
  conv_rhs => rw [ht, trim_append_of_blank_back hback, trim_append_of_blank_front hfront]

/-- Something is left of a text with a byte that is no white space. -/
lemma trim_ne_nil {t : Text} {b : UInt8} (hmem : b ∈ t) (hb : isSpace b = false) : trim t ≠ [] := by
  intro hnil
  obtain ⟨front, back, hfront, hback, ht⟩ := exists_eq_append_trim t
  have hblank : isSpace b = true := by
    rw [ht, hnil, List.append_nil, List.mem_append] at hmem
    exact hmem.elim (hfront b) (hback b)
  exact Bool.false_ne_true (hb.symm.trans hblank)

/-- A trimmed text does not begin with white space. -/
lemma isSpace_of_trim_eq_cons {t rest : Text} {b : UInt8} (h : trim t = b :: rest) :
    isSpace b = false := by
  by_contra hb
  have hblank : Blank [b] := by simpa [Blank] using hb
  have hshort : trim (b :: rest) = trim rest := trim_append_of_blank_front hblank rest
  -- Trimming once more would take the byte away, but it takes nothing away.
  obtain ⟨front, back, -, -, hrest⟩ := exists_eq_append_trim rest
  have hlength : rest.length = front.length + (b :: rest).length + back.length := by
    conv_lhs => rw [hrest, ← hshort, ← h, trim_trim, h]
    rw [List.length_append, List.length_append]
  rw [List.length_cons] at hlength
  omega

/-! ## Fields and lines -/

lemma ofString_newline : ofString "\n" = [newline] := by decide

/-- The fields of a text are its pieces between the separators. -/
lemma fields_eq_splitOn (sep : UInt8) (t : Text) : fields sep t = t.splitOn sep := by
  induction t with
  | nil => rfl
  | cons b t ih =>
    rw [fields, List.splitOn_cons_eq_if_modifyHead, ih]
    simp only [beq_iff_eq]
    split
    next => rfl
    next =>
      cases hrest : t.splitOn sep with
      | nil => exact absurd hrest (List.splitOn_ne_nil sep t)
      | cons f fs => rfl

/-- Texts without the separator are the fields of the text in which it stands between them. -/
lemma fields_intercalate {sep : UInt8} {items : List Text} (hne : items ≠ [])
    (h : ∀ t ∈ items, sep ∉ t) : fields sep ([sep].intercalate items) = items := by
  rw [fields_eq_splitOn, List.splitOn_intercalate sep h hne]

/-- A text without the separator is its only field. -/
lemma fields_of_notMem {sep : UInt8} {t : Text} (h : sep ∉ t) : fields sep t = [t] := by
  rw [fields_eq_splitOn, List.splitOn_eq_singleton h]

/-- A text without a line break is the only line of its file, whether a line break ends it or not. -/
lemma lines_of_notMem {t : Text} (h : newline ∉ t) (hne : t ≠ []) :
    lines t = [t] ∧ lines (t ++ [newline]) = [t] := by
  have hended : fields newline (t ++ [newline]) = [t, []] := by
    rw [fields_append_cons, fields_of_notMem h]
    rfl
  constructor
  · simp [lines, fields_of_notMem h, hne]
  · simp [lines, hended]

/-- A text in which separators stand between others has no bytes but theirs. -/
lemma eq_or_exists_of_mem_intercalate {sep b : UInt8} {items : List Text}
    (h : b ∈ [sep].intercalate items) : b = sep ∨ ∃ t ∈ items, b ∈ t := by
  induction items with
  | nil => exact absurd h List.not_mem_nil
  | cons t items ih =>
    by_cases hitems : items = []
    · rw [hitems, List.intercalate_singleton] at h
      exact Or.inr ⟨t, List.mem_cons_self, h⟩
    · rw [List.intercalate_cons_of_ne_nil hitems, List.append_assoc, List.mem_append,
        List.mem_append, List.mem_singleton] at h
      rcases h with hfirst | rfl | hothers
      · exact Or.inr ⟨t, List.mem_cons_self, hfirst⟩
      · exact Or.inl rfl
      · rcases ih hothers with rfl | ⟨u, hu, hb⟩
        · exact Or.inl rfl
        · exact Or.inr ⟨u, List.mem_cons_of_mem t hu, hb⟩

/-- Texts with separators between them, cut in front of one: those in front have a separator behind each. -/
lemma intercalate_append_cons (sep : UInt8) (front : List Text) (t : Text) (rest : List Text) :
    [sep].intercalate (front ++ t :: rest) =
      front.flatMap (· ++ [sep]) ++ [sep].intercalate (t :: rest) := by
  induction front with
  | nil => rfl
  | cons u front ih =>
    have hne : front ++ t :: rest ≠ [] := List.append_ne_nil_of_right_ne_nil _ (List.cons_ne_nil _ _)
    rw [List.cons_append, List.intercalate_cons_of_ne_nil hne, ih, List.flatMap_cons]
    simp only [List.append_assoc]

/-- Two texts without the byte `b` in front of it are the same if what begins with them is. -/
lemma eq_of_append_cons_eq {t t' rest rest' : Text} {b : UInt8} (ht : b ∉ t) (ht' : b ∉ t')
    (h : t ++ b :: rest = t' ++ b :: rest') : t = t' ∧ rest = rest' := by
  induction t generalizing t' with
  | nil =>
    cases t' with
    | nil => exact ⟨rfl, (List.cons.inj h).2⟩
    | cons c t' => exact absurd ((List.cons.inj h).1 ▸ List.mem_cons_self) ht'
  | cons a t ih =>
    cases t' with
    | nil => exact absurd ((List.cons.inj h).1 ▸ List.mem_cons_self) ht
    | cons c t' =>
      obtain ⟨rfl, hrest⟩ := List.cons.inj h
      obtain ⟨rfl, rfl⟩ := ih (fun hb => ht (List.mem_cons_of_mem a hb))
        (fun hb => ht' (List.mem_cons_of_mem a hb)) hrest
      exact ⟨rfl, rfl⟩

end CoinLedger.Text
