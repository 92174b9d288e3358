import Mathlib
import CoinLedger.Proofs.Inspect.Request

/-!
# Texts of input counts

The text of input counts is cut at its commas, and every piece has to be a row of digits whose value a word
has room for (`IsCount`): the values are the counts, and the first piece that is no count is reported where
it starts (`readCountFields_eq_ok_iff`, `exists_piece_of_readCountFields`).

The tool finds the pieces one after the other, by the index at which the next one starts.  After the last
piece that index lies one behind the end of the text, so a comma at the end still has an empty piece after
it.  `scan` goes that way for a limited number of rounds; one more than there are commas, and a last one in
which the scan ends, are enough for every text (`scan_eq`).
-/

namespace CoinLedger.Inspect

open Text (ofString decimal digitValue readDecimal?)

/-! ## Pieces -/

/-- A piece that denotes `n`: digits, at least one of them, whose value a word has room for. -/
structure IsCount (item : Text) (n : ℕ) : Prop where
  ne_nil : item ≠ []
  digits : ∀ b ∈ item, b ∈ ofString "0123456789"
  value : Nat.ofDigits 10 (item.reverse.map digitValue) = n
  lt : n < 2 ^ 64

/-- What is read as a number of 64 bits is a count. -/
lemma readDecimal?_eq_some_iff {item : Text} {n : ℕ} :
    readDecimal? UInt64.size item = some n ↔ IsCount item n := by
  simp only [readDecimal?, List.all_eq_true, Text.numeralValue_eq_ofDigits, Text.isDigit_iff]
  constructor
  · intro h
    split at h
    next hcount =>
      obtain ⟨hne, hdigits, hlt⟩ := hcount
      cases h
      exact ⟨hne, hdigits, rfl, hlt⟩
    next => cases h
  · rintro ⟨hne, hdigits, rfl, hlt⟩
    exact if_pos ⟨hne, hdigits, hlt⟩

lemma readDecimal?_eq_none_iff {item : Text} :
    readDecimal? UInt64.size item = none ↔ ∀ n, ¬ IsCount item n := by
  rw [Option.eq_none_iff_forall_ne_some]
  exact forall_congr' fun n => not_congr readDecimal?_eq_some_iff

/-! ## All pieces -/

lemma readCountFields_cons_eq_ok_iff {start : ℕ} {item : Text} {items : List Text} {counts : List ℕ} :
    readCountFields start (item :: items) = .ok counts ↔ ∃ n rest, IsCount item n ∧
      readCountFields (start + item.length + 1) items = .ok rest ∧ counts = n :: rest := by
  rw [readCountFields]
  constructor
  · intro h
    split at h
    next => cases h
    next n hitem =>
      split at h
      next => cases h
      next rest hrest =>
        cases h
        exact ⟨n, rest, readDecimal?_eq_some_iff.mp hitem, hrest, rfl⟩
  · rintro ⟨n, rest, hitem, hrest, rfl⟩
    rw [readDecimal?_eq_some_iff.mpr hitem, hrest]

/-- Pieces are refused at the first one or behind it. -/
lemma readCountFields_cons_error {start : ℕ} {item : Text} {items : List Text} {e : Error}
    (h : readCountFields start (item :: items) = .error e) :
    (∀ n, ¬ IsCount item n) ∧ e = ⟨.inputCount item, start⟩ ∨
      (∃ n, IsCount item n) ∧ readCountFields (start + item.length + 1) items = .error e := by
  rw [readCountFields] at h
  split at h
  next hitem =>
    cases h
    exact Or.inl ⟨readDecimal?_eq_none_iff.mp hitem, rfl⟩
  next n hitem =>
    split at h
    next e' hrest =>
      cases h
      exact Or.inr ⟨⟨n, readDecimal?_eq_some_iff.mp hitem⟩, hrest⟩
    next => cases h

/-- Pieces are read exactly if they are counts, one by one. -/
lemma readCountFields_eq_ok_iff {start : ℕ} {items : List Text} {counts : List ℕ} :
    readCountFields start items = .ok counts ↔ List.Forall₂ IsCount items counts := by
  induction items generalizing start counts with
  | nil =>
    rw [readCountFields, List.forall₂_nil_left_iff]
    exact ⟨fun h => (Except.ok.inj h).symm, fun h => h ▸ rfl⟩
  | cons item items ih =>
    simp only [readCountFields_cons_eq_ok_iff, List.forall₂_cons_left_iff, ih]

/-- The first piece that is no count is reported where it starts. -/
lemma exists_piece_of_readCountFields {start : ℕ} {items : List Text} {e : Error}
    (h : readCountFields start items = .error e) :
    ∃ front bad rest, items = front ++ bad :: rest ∧ (∀ item ∈ front, ∃ n, IsCount item n) ∧
      (∀ n, ¬ IsCount bad n) ∧
      e = ⟨.inputCount bad, start + (front.flatMap (· ++ [Text.comma])).length⟩ := by
  induction items generalizing start with
  | nil => cases h
  | cons item items ih =>
    rcases readCountFields_cons_error h with ⟨hitem, rfl⟩ | ⟨hitem, hrest⟩
    · exact ⟨[], item, items, rfl, List.forall_mem_nil _, hitem, rfl⟩
    · obtain ⟨front, bad, rest, rfl, hfront, hbad, rfl⟩ := ih hrest
      refine ⟨item :: front, bad, rest, rfl, List.forall_mem_cons.mpr ⟨hitem, hfront⟩, hbad, ?_⟩
      rw [List.flatMap_cons, List.length_append, List.length_append, List.length_singleton,
        ← Nat.add_assoc, ← Nat.add_assoc]

/-! ## One piece after the other -/

/-- The number at the front of a text, if there is one and a word has room for it, and what follows the
digits. -/
def leadingNumber (t : Text) : Option ℕ × Text :=
  (readDecimal? UInt64.size (t.takeWhile Text.isDigit), t.dropWhile Text.isDigit)

/-- The count that a piece denotes: a number with nothing behind it. -/
def pieceCount? (item : Text) : Option ℕ :=
  if item = [] then none
  else match leadingNumber item with
    | (some n, []) => some n
    | _ => none

/-- The index of the first comma from `start` on, or that of the end of the text. -/
def pieceEnd (t : Text) (start : ℕ) : ℕ :=
  start + (t.drop start).findIdx (· == Text.comma)

/-- Goes on with the piece that starts at the index `start`, after pieces that gave `counts`, for at most
`rounds` rounds: `none` if the scan takes longer. -/
def scan (t : Text) (rounds start : ℕ) (counts : List ℕ) : Option (Except Error (List ℕ)) :=
  match rounds with
  | 0 => none
  | rounds + 1 =>
    if start ≤ t.length then
      let item := (t.drop start).take (pieceEnd t start - start)
      match pieceCount? item with
      | none => some (.error ⟨.inputCount item, start⟩)
      | some n => scan t rounds (pieceEnd t start + 1) (counts ++ [n])
    else some (.ok counts)

/-- A number with nothing behind it is what the whole piece denotes. -/
lemma pieceCount?_eq (item : Text) : pieceCount? item = readDecimal? UInt64.size item := by
  by_cases hitem : item = []
  · subst hitem
    rfl
  · rw [pieceCount?, if_neg hitem, leadingNumber]
    by_cases hdigits : ∀ b ∈ item, Text.isDigit b = true
    · rw [List.takeWhile_eq_self_iff.mpr hdigits, List.dropWhile_eq_nil_iff.mpr hdigits]
      cases readDecimal? UInt64.size item <;> rfl
    · have hbehind : item.dropWhile Text.isDigit ≠ [] := fun h => hdigits (List.dropWhile_eq_nil_iff.mp h)
      have hnone : readDecimal? UInt64.size item = none := by
        rw [readDecimal?, if_neg]
        rintro ⟨-, hall, -⟩
        exact hdigits (List.all_eq_true.mp hall)
      rw [hnone]
      split
      next heq => exact absurd (congrArg Prod.snd heq) hbehind
      next => rfl

lemma findIdx_comma_of_notMem {t : Text} (h : Text.comma ∉ t) :
    t.findIdx (· == Text.comma) = t.length := by
  rw [List.findIdx_eq_length]
  intro b hb
  rw [beq_eq_false_iff_ne]
  exact fun heq => h (heq ▸ hb)

lemma findIdx_comma_append {item : Text} (h : Text.comma ∉ item) (rest : Text) :
    (item ++ Text.comma :: rest).findIdx (· == Text.comma) = item.length := by
  rw [List.findIdx_append, findIdx_comma_of_notMem h, if_neg (lt_irrefl _), List.findIdx_cons,
    beq_self_eq_true, cond_true, Nat.zero_add]

lemma length_le_length_append (front t : Text) : front.length ≤ (front ++ t).length := by
  rw [List.length_append]
  exact Nat.le_add_right _ _

/-- A piece without a comma behind it is the last one, and the round after it ends the scan. -/
lemma scan_last {item : Text} (hitem : Text.comma ∉ item) (front : Text) (counts : List ℕ)
    (rounds : ℕ) :
    scan (front ++ item) (rounds + 2) front.length counts =
      some (match readDecimal? UInt64.size item with
        | none => .error ⟨.inputCount item, front.length⟩
        | some n => .ok (counts ++ [n])) := by
  have hbehind : ¬ front.length + item.length + 1 ≤ (front ++ item).length := by
    rw [List.length_append]
    omega
  rw [scan, if_pos (length_le_length_append front item), pieceEnd, List.drop_left,
    Nat.add_sub_cancel_left, findIdx_comma_of_notMem hitem, List.take_length]
  dsimp only
  rw [pieceCount?_eq]
  cases readDecimal? UInt64.size item with
  | none => rfl
  | some n =>
    dsimp only
    rw [scan, if_neg hbehind]

/-- From a piece with a comma behind it the scan goes on behind the comma. -/
lemma scan_next {item : Text} (hitem : Text.comma ∉ item) (front rest : Text) (counts : List ℕ)
    (rounds : ℕ) :
    scan (front ++ (item ++ Text.comma :: rest)) (rounds + 1) front.length counts =
      match readDecimal? UInt64.size item with
      | none => some (.error ⟨.inputCount item, front.length⟩)
      | some n => scan (front ++ item ++ [Text.comma] ++ rest) rounds
          (front ++ item ++ [Text.comma]).length (counts ++ [n]) := by
  have hnext : (front ++ item ++ [Text.comma]).length = front.length + item.length + 1 := by
    rw [List.length_append, List.length_append, List.length_singleton]
  rw [scan, if_pos (length_le_length_append _ _), pieceEnd, List.drop_left, Nat.add_sub_cancel_left,
    findIdx_comma_append hitem, List.take_left, hnext, List.append_assoc, List.append_assoc,
    List.singleton_append]
  dsimp only
  rw [pieceCount?_eq]

/-- What a scan finds behind `front`, in as many rounds as there are commas and two more, is what the
pieces there are read as. -/
lemma scan_append (front t : Text) (counts : List ℕ) {rounds : ℕ}
    (h : t.count Text.comma + 2 ≤ rounds) :
    scan (front ++ t) rounds front.length counts =
      some ((readCountFields front.length (Text.fields Text.comma t)).map (counts ++ ·)) := by
  -- every round but the last two takes a piece and its comma from `t` to `front`
  induction rounds generalizing front t counts with
  | zero => omega
  | succ rounds ih =>
    by_cases hcomma : Text.comma ∉ t
    · obtain ⟨rounds, rfl⟩ : ∃ r, rounds = r + 1 := Nat.exists_eq_add_one.mpr (by omega)
      rw [scan_last hcomma, Text.fields_of_notMem hcomma, readCountFields]
      cases readDecimal? UInt64.size t <;> rfl
    · obtain ⟨item, rest, rfl, hitem⟩ := List.eq_append_cons_of_mem (not_not.mp hcomma)
      rw [scan_next hitem, Text.fields_append_cons, Text.fields_of_notMem hitem, List.singleton_append,
        readCountFields]
      cases readDecimal? UInt64.size item with
      | none => rfl
      | some n =>
        have hrest : rest.count Text.comma + 2 ≤ rounds := by
          rw [List.count_append, List.count_cons_self] at h
          omega
        have hstart : (front ++ item ++ [Text.comma]).length = front.length + item.length + 1 := by
          rw [List.length_append, List.length_append, List.length_singleton]
        dsimp only
        rw [ih _ rest _ hrest, hstart]
        cases readCountFields (front.length + item.length + 1) (Text.fields Text.comma rest) with
        | error e => rfl
        | ok more => exact congrArg (fun all => some (Except.ok all)) (List.append_assoc _ _ _)

/-- The scan of a text finds what its pieces are read as, in as many rounds as there are commas and two
more. -/
theorem scan_eq {t : Text} {rounds : ℕ} (h : t.count Text.comma + 2 ≤ rounds) :
    scan t rounds 0 [] = some (readCounts t) := by
  have hscan := scan_append [] t [] h
  rw [List.nil_append, List.length_nil] at hscan
  rw [hscan, readCounts]
  cases readCountFields 0 (Text.fields Text.comma t) <;> rfl

/-! ## Exactness -/

/-- A text is read as counts exactly if its pieces between the commas are these counts, so that the
numerals of counts with commas between them are read back.  Every other text is refused as malformed, at
the first piece that is no count.  Scanning the text from piece to piece comes to an end, and to the same
one. -/
theorem readCounts_exact :
    (∀ t counts, readCounts t = .ok counts ↔ List.Forall₂ IsCount (t.splitOn Text.comma) counts) ∧
    (∀ counts, counts ≠ [] → (∀ count ∈ counts, count < 2 ^ 64) →
      readCounts ([Text.comma].intercalate (counts.map decimal)) = .ok counts) ∧
    (∀ t e, readCounts t = .error e → e.code = .parseBadFormat ∧
      ∃ front bad rest, t.splitOn Text.comma = front ++ bad :: rest ∧
        (∀ item ∈ front, ∃ n, IsCount item n) ∧ (∀ n, ¬ IsCount bad n) ∧
        t = front.flatMap (· ++ [Text.comma]) ++ [Text.comma].intercalate (bad :: rest) ∧
        e = ⟨.inputCount bad, (front.flatMap (· ++ [Text.comma])).length⟩) ∧
    ∀ t rounds, t.count Text.comma + 2 ≤ rounds → scan t rounds 0 [] = some (readCounts t) := by
  refine ⟨?_, fun counts hne h => readCounts_countsText hne h, ?_, fun t rounds h => scan_eq h⟩
  · intro t counts
    rw [readCounts, Text.fields_eq_splitOn, readCountFields_eq_ok_iff]
  · intro t e herror
    rw [readCounts, Text.fields_eq_splitOn] at herror
    obtain ⟨front, bad, rest, hsplit, hfront, hbad, rfl⟩ := exists_piece_of_readCountFields herror
    refine ⟨rfl, front, bad, rest, hsplit, hfront, hbad, ?_, by rw [Nat.zero_add]⟩
    rw [← Text.intercalate_append_cons, ← hsplit, List.intercalate_splitOn]

/-- The largest count is read, and so is one with zeros in front.  A number of 65 bits is reported where it
starts, although the piece behind the last comma is empty; without that number the empty piece is reported. -/
theorem readCounts_mixedTexts :
    readCounts (ofString "2,0,18446744073709551615") = .ok [2, 0, 18446744073709551615] ∧
    readCounts (ofString "007") = .ok [7] ∧
    (readCounts (ofString "1,18446744073709551616,") =
        .error ⟨.inputCount (ofString "18446744073709551616"), 2⟩ ∧
      ∃ front bad rest, (ofString "1,18446744073709551616,").splitOn Text.comma = front ++ bad :: rest ∧
        (∀ n, ¬ IsCount bad n) ∧ (front.flatMap (· ++ [Text.comma])).length = 2) ∧
    scan (ofString "1,") 3 0 [] = some (.error ⟨.inputCount [], 2⟩) := by
  obtain ⟨hpieces, hback, hrefused, hscan⟩ := readCounts_exact
  have herror : readCounts (ofString "1,18446744073709551616,") =
      .error ⟨.inputCount (ofString "18446744073709551616"), 2⟩ := by decide +kernel
  refine ⟨?_, ?_, ⟨herror, ?_⟩, ?_⟩
  · have htext : ofString "2,0,18446744073709551615" =
        [Text.comma].intercalate ([2, 0, 18446744073709551615].map decimal) := by cbv
    rw [htext]
    exact hback _ (by decide) (by decide)
  · rw [hpieces]
    have hcount : IsCount (ofString "007") 7 :=
      ⟨by decide, by decide +kernel, by decide +kernel, by decide⟩
    have hsplit : (ofString "007").splitOn Text.comma = [ofString "007"] := by decide +kernel
    rw [hsplit]
    exact .cons hcount .nil
  · obtain ⟨-, front, bad, rest, hsplit, -, hbad, -, he⟩ := hrefused _ _ herror
    exact ⟨front, bad, rest, hsplit, hbad, (congrArg Error.bytesRead he).symm⟩
  · rw [hscan _ 3 (by decide +kernel)]
    decide +kernel

end CoinLedger.Inspect
