import Mathlib
import CoinLedger.Proofs.TipSet

/-!
# What the text of a tip set may begin with

A state of the automaton has kept everything that was read: `State.text` writes it out again, and a
step adds its byte to that text (`text_step`).  So a text that is read to its end is the text of the
set that it gives, and `parse_exact`: texts are accepted exactly if they are written.

A text `Begins` a tip set if it can be continued to the text of one.  Every state that reading leads
to can be continued (`begins_text`), and no byte without a step can (`not_begins_of_step`).
`isGreatest_bytesRead`: a text that is refused has been read exactly as far as it begins a tip set.
-/

namespace CoinLedger.TipSet

open Text (comma)

/-! ## Lists that are not closed yet -/

/-- Members with a comma behind each of them. -/
def ended (members : List Text) : Text := members.flatMap (fun t => t ++ [comma])

lemma ended_append (first second : List Text) : ended (first ++ second) = ended first ++ ended second :=
  List.flatMap_append

lemma ended_singleton (t : Text) : ended [t] = t ++ [comma] := List.flatMap_singleton _ t

/-- In front of further members there is a comma behind each. -/
lemma separated_append (members : List Text) {rest : List Text} (hne : rest ≠ []) :
    separated (members ++ rest) = ended members ++ separated rest := by
  induction members with
  | nil => rfl
  | cons t members ih =>
    rw [List.cons_append, separated_cons t (by simp [hne]), ih, ended, ended, List.flatMap_cons]
    simp only [List.append_assoc, List.cons_append, List.nil_append]

lemma separated_append_singleton (members : List Text) (last : Text) :
    separated (members ++ [last]) = ended members ++ last :=
  separated_append members (List.cons_ne_nil last [])

lemma prefix_separated_cons (t : Text) (members : List Text) : t <+: separated (t :: members) := by
  by_cases hne : members = []
  · rw [hne, separated]
  · rw [separated_cons t hne]
    exact List.prefix_append _ _

/-- With a comma behind its last member a list goes on. -/
lemma separated_append_comma {members : List Text} (hne : members ≠ []) :
    separated members ++ [comma] = ended members := by
  induction members using List.reverseRecOn with
  | nil => exact absurd rfl hne
  | append_singleton members last =>
    rw [separated_append_singleton, ended_append, ended_singleton, List.append_assoc]

/-! ## The text of a state -/

/-- The texts of the values of a hash. -/
def valueTexts (bytes : Bytes) : List Text := bytes.map (fun b => Text.decimal b.toNat)

/-- The digits of a value that have been read. -/
def digits (value : Option ℕ) : Text := value.elim [] Text.decimal

/-- The text that leads to a state. -/
def State.text : State → Text
  | start => []
  | opened => [opening]
  | hashWanted tips => [opening] ++ ended (tips.map formatHash)
  | inHash tips bytes value =>
    [opening] ++ ended (tips.map formatHash) ++ [opening] ++ ended (valueTexts bytes) ++ digits value
  | hashClosed tips => [opening] ++ separated (tips.map formatHash)
  | closed tips => format tips

/-- What holds of the states that reading leads to: a comma has a hash in front of it, a hash is open
until its last value, and every value is a byte. -/
def State.Possible : State → Prop
  | start => True
  | opened => True
  | hashWanted tips => tips ≠ []
  | inHash _ bytes value => bytes.length < 32 ∧ ∀ v ∈ value, v ≤ 255
  | hashClosed tips => tips ≠ []
  | closed _ => True

lemma toNat_ofNat_of_le {v : ℕ} (h : v ≤ 255) : (UInt8.ofNat v).toNat = v :=
  UInt8.toNat_ofNat_of_lt' (lt_of_le_of_lt h (by decide))

lemma exists_digit_of_isDigit {b : UInt8} (h : Text.isDigit b = true) :
    ∃ d < 10, b = Text.digit d ∧ Text.digitValue b = d := by
  rw [Text.isDigit, Bool.and_eq_true, decide_eq_true_eq, decide_eq_true_eq] at h
  have hlow : 48 ≤ b.toNat := UInt8.le_iff_toNat_le.mp h.1
  have hhigh : b.toNat ≤ 57 := UInt8.le_iff_toNat_le.mp h.2
  refine ⟨b.toNat - 48, by omega, ?_, rfl⟩
  rw [Text.digit, Nat.add_sub_cancel' hlow, UInt8.ofNat_toNat]

/-- A digit that a value takes stands behind the digits before it, and the value stays a byte. -/
lemma decimal_of_addDigit {value : Option ℕ} {d v : ℕ} (hd : d < 10)
    (h : addDigit value d = .ok v) :
    Text.decimal v = digits value ++ [Text.digit d] ∧ v ≤ 255 := by
  cases value with
  | none =>
    cases h
    rw [Text.decimal, if_pos hd]
    exact ⟨rfl, by omega⟩
  | some n =>
    cases n with
    | zero => cases h
    | succ n =>
      rw [addDigit] at h
      · split at h
        next hle =>
          cases h
          have hquot : ((n + 1) * 10 + d) / 10 = n + 1 := by omega
          have hrem : ((n + 1) * 10 + d) % 10 = d := by omega
          rw [Text.decimal, if_neg (by omega), hquot, hrem]
          exact ⟨rfl, hle⟩
        next => cases h
      · rintro ⟨⟩

/-- The values of a hash, with the one that has been read last. -/
lemma ended_valueTexts_append (bytes : Bytes) (v : UInt8) :
    ended (valueTexts (bytes ++ [v])) = ended (valueTexts bytes) ++ Text.decimal v.toNat ++ [comma] := by
  rw [valueTexts, List.map_append, ended_append, List.map_singleton, ended_singleton,
    ← List.append_assoc, valueTexts]

/-- The bracket that closes a hash stands behind its last value. -/
lemma text_closeHash {tips : List Hash} {bytes : Bytes} {v : UInt8} {next : State}
    (h : closeHash tips (bytes ++ [v]) = .ok next) :
    next.Possible ∧
      next.text = (State.inHash tips bytes (some v.toNat)).text ++ [closing] := by
  rw [closeHash, Hash.ofBytes?] at h
  split at h
  next hash hhash =>
    cases h
    split at hhash
    next hall =>
      cases hhash
      refine ⟨by simp [State.Possible], ?_⟩
      simp only [State.text, digits, Option.elim_some, valueTexts, List.map_append, List.map_singleton,
        separated_append_singleton, formatHash, bracketed, List.append_assoc]
    next => cases hhash
  next => cases h

/-- A byte that ends a value stands behind it. -/
lemma text_endValue {tips : List Hash} {bytes : Bytes} {v b : UInt8} {next : State}
    (hlength : bytes.length < 32) (h : endValue tips (bytes ++ [v]) b = .ok next) :
    next.Possible ∧ next.text = (State.inHash tips bytes (some v.toNat)).text ++ [b] := by
  rw [endValue] at h
  split at h
  next hclosing =>
    rw [hclosing]
    exact text_closeHash h
  next =>
    split at h
    next hcomma =>
      split at h
      next => cases h
      next hopen =>
        cases h
        rw [List.length_append, List.length_singleton] at hopen
        refine ⟨⟨?_, by simp⟩, ?_⟩
        · rw [List.length_append, List.length_singleton]
          omega
        · simp only [State.text, ended_valueTexts_append, digits, Option.elim_none, Option.elim_some,
            hcomma, List.append_assoc, List.append_nil]
    next => cases h

/-- A byte inside a hash is a digit of a value or ends one. -/
lemma text_step_inHash {tips : List Hash} {bytes : Bytes} {value : Option ℕ} {b : UInt8}
    {next : State} (hs : (State.inHash tips bytes value).Possible)
    (h : step (.inHash tips bytes value) b = .ok next) :
    next.Possible ∧ next.text = (State.inHash tips bytes value).text ++ [b] := by
  obtain ⟨hlength, hvalue⟩ := hs
  unfold step at h
  dsimp only at h
  split at h
  next hdigit =>
    obtain ⟨d, hd, hb, hvalueOf⟩ := exists_digit_of_isDigit hdigit
    rw [hvalueOf] at h
    cases hadd : addDigit value d with
    | error f =>
      rw [hadd] at h
      cases h
    | ok v =>
      rw [hadd] at h
      cases h
      obtain ⟨htext, hle⟩ := decimal_of_addDigit hd hadd
      refine ⟨⟨hlength, by simpa using hle⟩, ?_⟩
      rw [State.text, digits, Option.elim_some, htext, State.text, hb]
      simp only [List.append_assoc]
  next =>
    cases value with
    | none => cases h
    | some v =>
      have hend := text_endValue hlength h
      rwa [toNat_ofNat_of_le (hvalue v rfl)] at hend

/-- A step adds its byte to the text of the state. -/
lemma text_step {s next : State} {b : UInt8} (hs : s.Possible) (h : step s b = .ok next) :
    next.Possible ∧ next.text = s.text ++ [b] := by
  cases s with
  | start =>
    rw [step] at h
    split at h
    next hb =>
      cases h
      exact ⟨trivial, by rw [hb]; rfl⟩
    next => cases h
  | opened =>
    rw [step] at h
    split at h
    next hb =>
      cases h
      exact ⟨trivial, by rw [hb]; rfl⟩
    next =>
      split at h
      next hb =>
        cases h
        exact ⟨⟨by decide, by simp⟩, by rw [hb]; rfl⟩
      next => cases h
  | hashWanted tips =>
    rw [step] at h
    split at h
    next hb =>
      cases h
      refine ⟨⟨by decide, by simp⟩, ?_⟩
      rw [hb, State.text, State.text]
      exact (List.append_nil _).trans (List.append_nil _)
    next => cases h
  | inHash tips bytes value => exact text_step_inHash hs h
  | hashClosed tips =>
    rw [step] at h
    split at h
    next hb =>
      cases h
      refine ⟨hs, ?_⟩
      rw [hb, State.text, State.text, List.append_assoc,
        separated_append_comma (mt List.map_eq_nil_iff.mp hs)]
    next =>
      split at h
      next hb =>
        cases h
        exact ⟨trivial, by rw [hb]; rfl⟩
      next => cases h
  | closed tips => cases h

/-- A walk adds its bytes to the text of the state. -/
lemma text_walk {s last : State} {t : Text} (hs : s.Possible) (h : walk s t = .ok last) :
    last.Possible ∧ last.text = s.text ++ t := by
  induction t generalizing s with
  | nil =>
    cases h
    exact ⟨hs, (List.append_nil _).symm⟩
  | cons b t ih =>
    cases hstep : step s b with
    | error f =>
      rw [walk, List.foldlM_cons, hstep] at h
      cases h
    | ok next =>
      obtain ⟨hnext, htext⟩ := text_step hs hstep
      rw [walk_cons hstep] at h
      obtain ⟨hlast, hall⟩ := ih hnext h
      refine ⟨hlast, ?_⟩
      rw [hall, htext, List.append_assoc, List.singleton_append]

/-! ## Where reading stops -/

/-- A text is walked through to its end, or up to a byte without a step. -/
lemma walk_or_stop (s : State) (t : Text) :
    (∃ last, walk s t = .ok last) ∨
    ∃ front b rest last f, t = front ++ b :: rest ∧ walk s front = .ok last ∧
      step last b = .error f := by
  induction t generalizing s with
  | nil => exact Or.inl ⟨s, rfl⟩
  | cons b t ih =>
    cases hstep : step s b with
    | error f => exact Or.inr ⟨[], b, t, s, f, rfl, rfl, hstep⟩
    | ok next =>
      rcases ih next with ⟨last, hwalk⟩ | ⟨front, c, rest, last, f, rfl, hwalk, hstop⟩
      · exact Or.inl ⟨last, by rw [walk_cons hstep, hwalk]⟩
      · exact Or.inr ⟨b :: front, c, rest, last, f, rfl, by rw [walk_cons hstep, hwalk], hstop⟩

/-- What reading a text gives, by where it stops: at the end in a state that decides, or at a byte
without a step. -/
lemma parse_cases (t : Text) :
    (∃ last, walk .start t = .ok last ∧ parse t = run last t.length []) ∨
    ∃ front b rest last f, t = front ++ b :: rest ∧ walk .start front = .ok last ∧
      step last b = .error f ∧ parse t = .error ⟨.tipSet f, front.length⟩ := by
  rcases walk_or_stop .start t with ⟨last, hwalk⟩ | ⟨front, b, rest, last, f, rfl, hwalk, hstop⟩
  · have hrun := run_append_of_walk hwalk 0 []
    rw [List.append_nil, Nat.zero_add] at hrun
    exact Or.inl ⟨last, hwalk, hrun⟩
  · refine Or.inr ⟨front, b, rest, last, f, rfl, hwalk, hstop, ?_⟩
    rw [parse, run_append_of_walk hwalk, run, hstop, Nat.zero_add]

/-- At the end of a text the set is closed, or the text is refused with all of it read. -/
lemma run_nil (s : State) (read : ℕ) :
    (∃ tips, s = .closed tips ∧ run s read [] = .ok tips) ∨
      ∃ f, run s read [] = .error ⟨.tipSet f, read⟩ := by
  cases s with
  | closed tips => exact Or.inl ⟨tips, rfl, rfl⟩
  | inHash tips bytes value => cases value <;> exact Or.inr ⟨_, rfl⟩
  | start => exact Or.inr ⟨_, rfl⟩
  | opened => exact Or.inr ⟨_, rfl⟩
  | hashWanted tips => exact Or.inr ⟨_, rfl⟩
  | hashClosed tips => exact Or.inr ⟨_, rfl⟩

lemma text_of_walk {t : Text} {last : State} (h : walk .start t = .ok last) :
    last.Possible ∧ last.text = t :=
  text_walk (s := .start) trivial h

/-! ## What is accepted -/

/-- A text that is read as a set is the text of that set. -/
lemma eq_format_of_parse {t : Text} {tips : List Hash} (h : parse t = .ok tips) :
    t = format tips := by
  rcases parse_cases t with ⟨last, hwalk, hparse⟩ | ⟨_, _, _, _, _, _, _, _, hparse⟩
  · rw [hparse] at h
    rcases run_nil last t.length with ⟨tips', rfl, hrun⟩ | ⟨f, hrun⟩
    · rw [hrun] at h
      cases h
      exact (text_of_walk hwalk).2.symm
    · rw [hrun] at h
      cases h
  · rw [hparse] at h
    cases h

/-- Whatever is wrong with a text, it is refused as a damaged record. -/
lemma code_of_parse {t : Text} {e : Error} (h : parse t = .error e) : e.code = .storageCorrupt := by
  rcases parse_cases t with ⟨last, -, hparse⟩ | ⟨_, _, _, _, _, _, _, _, hparse⟩
  · rw [hparse] at h
    rcases run_nil last t.length with ⟨tips, -, hrun⟩ | ⟨f, hrun⟩
    · rw [hrun] at h
      cases h
    · rw [hrun] at h
      cases h
      rfl
  · rw [hparse] at h
    cases h
    rfl

/-- A text is read as a set exactly if it is the text of that set, and a text that is not the text of
any set is refused as a damaged record. -/
theorem parse_exact :
    (∀ t tips, parse t = .ok tips ↔ t = format tips) ∧
    ∀ t, (∀ tips, t ≠ format tips) → ∃ e, parse t = .error e ∧ e.code = .storageCorrupt := by
  constructor
  · intro t tips
    constructor
    · exact eq_format_of_parse
    · rintro rfl
      exact parse_format tips
  · intro t hnone
    cases hparse : parse t with
    | ok tips => exact absurd (eq_format_of_parse hparse) (hnone tips)
    | error e => exact ⟨e, rfl, code_of_parse hparse⟩

/-- A set with a zero byte behind it is not the text of a set. -/
theorem parse_exact_zeroByte :
    parse (format [Hash.zero]) = .ok [Hash.zero] ∧
    (∀ tips, format [Hash.zero] ++ [0] ≠ format tips) ∧
    ∃ e, parse (format [Hash.zero] ++ [0]) = .error e ∧ e.code = .storageCorrupt := by
  obtain ⟨hiff, hrefused⟩ := parse_exact
  have hnone : ∀ tips, format [Hash.zero] ++ [0] ≠ format tips := by
    intro tips htext
    have hparse : parse (format [Hash.zero] ++ [0]) = .error ⟨.tipSet .trailing, 67⟩ := by cbv
    rw [(hiff _ tips).mpr htext] at hparse
    cases hparse
  exact ⟨(hiff _ _).mpr rfl, hnone, hrefused _ hnone⟩

/-! ## How far a text is read -/

/-- Whether a text can be continued to the text of a tip set. -/
def Begins (t : Text) : Prop := ∃ tips, t <+: format tips

lemma Begins.of_prefix {t longer : Text} (h : Begins longer) (ht : t <+: longer) : Begins t := by
  obtain ⟨tips, hlonger⟩ := h
  exact ⟨tips, ht.trans hlonger⟩

/-- A text that a hash begins with can stand behind any closed hashes. -/
lemma begins_of_prefix_formatHash (tips : List Hash) {h : Hash} {t : Text} (ht : t <+: formatHash h) :
    Begins ([opening] ++ ended (tips.map formatHash) ++ t) := by
  refine ⟨tips ++ [h], ?_⟩
  rw [format, bracketed, List.map_append, List.map_singleton, separated_append_singleton,
    ← List.append_assoc]
  exact ((List.prefix_append_right_inj _).mpr ht).trans (List.prefix_append _ _)

/-- Fewer than 32 values and the digits of another one begin a hash. -/
lemma exists_prefix_formatHash {bytes : Bytes} (hlength : bytes.length < 32) (v : UInt8) :
    ∃ h, [opening] ++ ended (valueTexts bytes) ++ Text.decimal v.toNat <+: formatHash h := by
  have hall : (bytes ++ v :: List.replicate (31 - bytes.length) 0).length = 32 := by
    rw [List.length_append, List.length_cons, List.length_replicate]
    omega
  refine ⟨⟨_, hall⟩, ?_⟩
  rw [formatHash, bracketed, List.map_append, List.map_cons, separated_append _ (List.cons_ne_nil _ _),
    ← valueTexts, ← List.append_assoc]
  exact ((List.prefix_append_right_inj _).mpr (prefix_separated_cons _ _)).trans
    (List.prefix_append _ _)

/-- The digits of a value that have been read begin the numeral of a byte. -/
lemma exists_prefix_decimal {value : Option ℕ} (h : ∀ v ∈ value, v ≤ 255) :
    ∃ v : UInt8, digits value <+: Text.decimal v.toNat := by
  cases value with
  | none => exact ⟨0, List.nil_prefix⟩
  | some v =>
    refine ⟨UInt8.ofNat v, ?_⟩
    rw [toNat_ofNat_of_le (h v rfl)]
    exact List.prefix_rfl

/-- From every state that reading leads to a set can be completed. -/
lemma begins_text {s : State} (hs : s.Possible) : Begins s.text := by
  cases s with
  | start => exact ⟨[], List.nil_prefix⟩
  | opened => exact ⟨[], [closing], rfl⟩
  | hashWanted tips =>
    have h := begins_of_prefix_formatHash tips (h := Hash.zero) List.nil_prefix
    rwa [List.append_nil] at h
  | inHash tips bytes value =>
    obtain ⟨hlength, hvalue⟩ := hs
    obtain ⟨v, hdigits⟩ := exists_prefix_decimal hvalue
    obtain ⟨h, hhash⟩ := exists_prefix_formatHash hlength v
    have hvalues := ((List.prefix_append_right_inj _).mpr hdigits).trans hhash
    have hbegins := begins_of_prefix_formatHash tips hvalues
    simp only [← List.append_assoc] at hbegins
    exact hbegins
  | hashClosed tips => exact ⟨tips, [closing], rfl⟩
  | closed tips => exact ⟨tips, List.prefix_rfl⟩

/-- A byte without a step stands in no tip set where it stands. -/
lemma not_begins_of_step {front : Text} {b : UInt8} {s : State} {f : TipFault}
    (hwalk : walk .start front = .ok s) (hstop : step s b = .error f) :
    ¬ Begins (front ++ [b]) := by
  rintro ⟨tips, rest, htext⟩
  have hall := walk_format tips
  rw [← htext, List.append_assoc, walk_append hwalk, walk, List.singleton_append, List.foldlM_cons,
    hstop] at hall
  cases hall

/-- A text that is refused has been read as far as it begins a tip set. -/
lemma longest_of_parse {t : Text} {e : Error} (h : parse t = .error e) :
    Begins (t.take e.bytesRead) ∧ e.bytesRead ≤ t.length ∧
      ∀ front, front <+: t → Begins front → front.length ≤ e.bytesRead := by
  rcases parse_cases t with ⟨last, hwalk, hparse⟩ | ⟨front, b, rest, last, f, rfl, hwalk, hstop, hparse⟩
  · rw [hparse] at h
    rcases run_nil last t.length with ⟨tips, -, hrun⟩ | ⟨f, hrun⟩ <;> rw [hrun] at h <;> cases h
    obtain ⟨hpossible, htext⟩ := text_of_walk hwalk
    have hbegins := begins_text hpossible
    rw [htext] at hbegins
    refine ⟨?_, le_rfl, fun front hfront _ => hfront.length_le⟩
    rwa [List.take_length]
  · rw [hparse] at h
    cases h
    obtain ⟨hpossible, htext⟩ := text_of_walk hwalk
    have hbegins := begins_text hpossible
    rw [htext] at hbegins
    dsimp only
    refine ⟨?_, ?_, ?_⟩
    · rwa [List.take_left]
    · rw [List.length_append]
      omega
    · intro longer hlonger hlongerBegins
      by_contra hlt
      have hshort : front ++ [b] <+: longer := by
        refine List.prefix_of_prefix_length_le ⟨rest, ?_⟩ hlonger ?_
        · rw [List.append_assoc, List.singleton_append]
        · rw [List.length_append, List.length_singleton]
          omega
      exact not_begins_of_step hwalk hstop (hlongerBegins.of_prefix hshort)

/-- A text that is refused has been read exactly as far as it begins a tip set: to its end if it is
cut short, and otherwise up to the first byte that stands in no tip set there. -/
theorem isGreatest_bytesRead {t : Text} {e : Error} (h : parse t = .error e) :
    IsGreatest {n | ∃ front, front <+: t ∧ Begins front ∧ front.length = n} e.bytesRead ∧
      (Begins t → e.bytesRead = t.length) ∧
      (¬ Begins t → ∃ b, t[e.bytesRead]? = some b ∧ Begins (t.take e.bytesRead) ∧
        ¬ Begins (t.take e.bytesRead ++ [b])) := by
  obtain ⟨hbegins, hle, hlongest⟩ := longest_of_parse h
  have hlength : (t.take e.bytesRead).length = e.bytesRead := List.length_take_of_le hle
  refine ⟨⟨⟨t.take e.bytesRead, List.take_prefix _ t, hbegins, hlength⟩, ?_⟩, ?_, ?_⟩
  · rintro n ⟨front, hfront, hfrontBegins, rfl⟩
    exact hlongest front hfront hfrontBegins
  · intro hall
    exact le_antisymm hle (hlongest t List.prefix_rfl hall)
  · intro hnot
    have hlt : e.bytesRead < t.length := by
      refine lt_of_le_of_ne hle fun heq => hnot ?_
      rwa [heq, List.take_length] at hbegins
    refine ⟨t[e.bytesRead], List.getElem?_eq_getElem hlt, hbegins, ?_⟩
    rw [List.take_append_getElem]
    intro hmore
    have hnext := hlongest _ (List.take_prefix _ t) hmore
    rw [List.length_take_of_le hlt] at hnext
    omega

/-- In `[[256` the last digit is refused, and `[[25` in front of it begins a set. -/
theorem isGreatest_bytesRead_byteTooLarge :
    parse [91, 91, 50, 53, 54] = .error ⟨.tipSet .byteTooLarge, 4⟩ ∧
    IsGreatest {n | ∃ front, front <+: [91, 91, 50, 53, 54] ∧ Begins front ∧ front.length = n} 4 ∧
    Begins [91, 91, 50, 53] ∧ ¬ Begins [91, 91, 50, 53, 54] := by
  have hparse : parse [91, 91, 50, 53, 54] = .error ⟨.tipSet .byteTooLarge, 4⟩ := by decide
  obtain ⟨hgreatest, hall, hstop⟩ := isGreatest_bytesRead hparse
  have hnot : ¬ Begins [91, 91, 50, 53, 54] := fun h => absurd (hall h) (by decide)
  obtain ⟨-, -, hbegins, -⟩ := hstop hnot
  exact ⟨hparse, hgreatest, hbegins, hnot⟩

end CoinLedger.TipSet
