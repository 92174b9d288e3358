import Mathlib
import CoinLedger.Proofs.Text
import CoinLedger.TipSet

/-!
# Tip sets are read back

`walk` is the state of the automaton behind some bytes, and reading goes through it
(`run_append_of_walk`).  Each part of a tip set has its walk: a decimal numeral (`walk_decimal`), the
values of a hash (`walk_values`), a hash (`walk_formatHash`) and the hashes of a set (`walk_hashes`).

`parse_format`: the text of a tip set is read back as that set, in its order and with its repeats.
-/

namespace CoinLedger.TipSet

open Text (comma)

/-! ## Walks of the automaton -/

/-- The state of the automaton behind the bytes of a text. -/
def walk (state : State) (t : Text) : Except TipFault State := t.foldlM step state

/-- A walk goes through the state behind its first byte. -/
lemma walk_cons {state next : State} {b : UInt8} (h : step state b = .ok next) (t : Text) :
    walk state (b :: t) = walk next t := by
  rw [walk, List.foldlM_cons, h]
  rfl

/-- A walk goes through the state behind its first part. -/
lemma walk_append {state next : State} {t : Text} (h : walk state t = .ok next) (rest : Text) :
    walk state (t ++ rest) = walk next rest := by
  rw [walk] at h
  rw [walk, List.foldlM_append, h]
  rfl

/-- Reading goes on from the state behind the bytes that are read. -/
lemma run_append_of_walk {state next : State} {t : Text} (h : walk state t = .ok next) (read : ℕ)
    (rest : Text) : run state read (t ++ rest) = run next (read + t.length) rest := by
  induction t generalizing state read with
  | nil =>
    cases h
    rfl
  | cons b t ih =>
    rw [List.cons_append, run]
    cases hstep : step state b with
    | error f =>
      rw [walk, List.foldlM_cons, hstep] at h
      cases h
    | ok middle =>
      rw [walk_cons hstep] at h
      dsimp only
      rw [ih h, List.length_cons]
      congr 1
      omega

/-! ## Decimal numerals -/

/-- A digit behind a value above 0 makes ten times the value and the digit, up to 255. -/
lemma addDigit_some {v d : ℕ} (hv : 0 < v) (h : v * 10 + d ≤ 255) :
    addDigit (some v) d = .ok (v * 10 + d) := by
  obtain ⟨v, rfl⟩ := Nat.exists_eq_succ_of_ne_zero hv.ne'
  rw [addDigit, if_pos h]
  rintro ⟨⟩

/-- The state behind a digit that the value takes. -/
lemma step_digit {value : Option ℕ} {d v : ℕ} (hd : d < 10) (h : addDigit value d = .ok v)
    (tips : List Hash) (bytes : Bytes) :
    step (.inHash tips bytes value) (Text.digit d) = .ok (.inHash tips bytes (some v)) := by
  unfold step
  dsimp only
  rw [if_pos (Text.isDigit_digit hd), Text.digitValue_digit hd, h]

/-- A numeral of a byte is read as its value. -/
lemma walk_decimal {n : ℕ} (hn : n ≤ 255) (tips : List Hash) (bytes : Bytes) :
    walk (.inHash tips bytes none) (Text.decimal n) = .ok (.inHash tips bytes (some n)) := by
  induction n using Nat.strong_induction_on with
  | _ n ih =>
    rw [Text.decimal]
    split
    next hsmall =>
      rw [walk_cons (step_digit hsmall rfl tips bytes)]
      rfl
    next hlarge =>
      -- the digits in front of the last one make up `n / 10`, which is not 0
      have hdigit : n % 10 < 10 := Nat.mod_lt n (by omega)
      have hadd : addDigit (some (n / 10)) (n % 10) = .ok n := by
        rw [addDigit_some (by omega) (by omega), Nat.div_add_mod']
      rw [walk_append (ih (n / 10) (by omega) (by omega)), walk_cons (step_digit hdigit hadd tips bytes)]
      rfl

/-! ## Hashes -/

/-- There is a comma behind a member that is not the last. -/
lemma separated_cons (t : Text) {members : List Text} (hne : members ≠ []) :
    separated (t :: members) = t ++ comma :: separated members := by
  cases members with
  | nil => exact absurd rfl hne
  | cons m members =>
    rw [separated, List.append_assoc, List.singleton_append]
    exact hne

/-- The state behind a byte that ends a value. -/
lemma step_end {b : UInt8} (hb : Text.isDigit b = false) (tips : List Hash) (bytes : Bytes)
    (v : UInt8) :
    step (.inHash tips bytes (some v.toNat)) b = endValue tips (bytes ++ [v]) b := by
  rw [step, if_neg (by rw [hb]; decide), UInt8.ofNat_toNat]

/-- The values of a hash are read up to the bracket behind them. -/
lemma walk_values {values : Bytes} (hne : values ≠ []) (tips : List Hash) {bytes : Bytes}
    {next : State} (hlength : bytes.length + values.length ≤ 32)
    (h : closeHash tips (bytes ++ values) = .ok next) :
    walk (.inHash tips bytes none)
      (separated (values.map (fun b => Text.decimal b.toNat)) ++ [closing]) = .ok next := by
  induction values generalizing bytes with
  | nil => exact absurd rfl hne
  | cons v values ih =>
    have hv : v.toNat ≤ 255 := Nat.le_of_lt_succ v.toNat_lt
    have hfirst := walk_decimal hv tips bytes
    by_cases hvalues : values = []
    · subst hvalues
      have hend : step (.inHash tips bytes (some v.toNat)) closing = .ok next := by
        rw [step_end rfl, endValue, if_pos rfl, h]
      rw [List.map_cons, List.map_nil, separated, walk_append hfirst, walk_cons hend]
      rfl
    · have hpos : 0 < values.length := List.length_pos_iff.mpr hvalues
      rw [List.length_cons] at hlength
      have hend : step (.inHash tips bytes (some v.toNat)) comma =
          .ok (.inHash tips (bytes ++ [v]) none) := by
        rw [step_end rfl, endValue, if_neg (by decide), if_pos rfl, if_neg]
        rw [List.length_append, List.length_singleton]
        omega
      rw [List.map_cons, separated_cons _ (mt List.map_eq_nil_iff.mp hvalues), List.append_assoc,
        walk_append hfirst, List.cons_append, walk_cons hend]
      refine ih hvalues ?_ ?_
      · rw [List.length_append, List.length_singleton]
        omega
      · rwa [List.append_assoc, List.singleton_append]

/-- A hash is closed behind its 32 values. -/
lemma closeHash_bytes (tips : List Hash) (h : Hash) :
    closeHash tips h.bytes = .ok (.hashClosed (tips ++ [h])) := by
  rw [closeHash, Hash.ofBytes?, dif_pos h.length_bytes]

/-- A hash is read wherever a hash may start. -/
lemma walk_formatHash {state : State} {tips : List Hash}
    (hstart : step state opening = .ok (.inHash tips [] none)) (h : Hash) :
    walk state (formatHash h) = .ok (.hashClosed (tips ++ [h])) := by
  have hne : h.bytes ≠ [] := by
    intro hempty
    have hlength := h.length_bytes
    rw [hempty] at hlength
    cases hlength
  rw [formatHash, bracketed, List.append_assoc, List.singleton_append, walk_cons hstart]
  refine walk_values hne tips ?_ (closeHash_bytes tips h)
  rw [List.length_nil, Nat.zero_add, h.length_bytes]

/-! ## Sets of hashes -/

/-- The hashes of a set are read up to the bracket behind them. -/
lemma walk_hashes {hashes : List Hash} (hne : hashes ≠ []) {state : State} {tips : List Hash}
    (hstart : step state opening = .ok (.inHash tips [] none)) :
    walk state (separated (hashes.map formatHash) ++ [closing]) = .ok (.closed (tips ++ hashes)) := by
  induction hashes generalizing state tips with
  | nil => exact absurd rfl hne
  | cons h hashes ih =>
    have hfirst := walk_formatHash hstart h
    by_cases hhashes : hashes = []
    · subst hhashes
      rw [List.map_cons, List.map_nil, separated, walk_append hfirst]
      rfl
    · have hcomma : step (.hashClosed (tips ++ [h])) comma = .ok (.hashWanted (tips ++ [h])) := rfl
      rw [List.map_cons, separated_cons _ (mt List.map_eq_nil_iff.mp hhashes), List.append_assoc,
        walk_append hfirst, List.cons_append, walk_cons hcomma, ih hhashes rfl, List.append_assoc,
        List.singleton_append]

/-- The text of a set leads to the state that holds the set. -/
lemma walk_format (tips : List Hash) : walk .start (format tips) = .ok (.closed tips) := by
  have hopen : step .start opening = .ok .opened := rfl
  rw [format, bracketed, List.append_assoc, List.singleton_append, walk_cons hopen]
  by_cases hne : tips = []
  · rw [hne]
    rfl
  · rw [walk_hashes hne rfl, List.nil_append]

/-- The text of a set is read back as that set. -/
theorem parse_format (tips : List Hash) : parse (format tips) = .ok tips := by
  have hrun := run_append_of_walk (walk_format tips) 0 []
  rw [List.append_nil] at hrun
  rw [parse, hrun]
  rfl

end CoinLedger.TipSet
