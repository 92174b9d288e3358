import Mathlib
import CoinLedger.Proofs.Hash

/-!
# Hashes in cells

Computers keep a hash in 32 cells and go through them by index, from the last cell down when they write its
text or compare it with another hash.  When they read a text they go through the pairs of digits from the
first on and store the byte of each pair in the cell that is as far from the other end.  `textBelow`,
`compareBelow` and `storeFrom` do so; they give what `toText`, `compare` and `ofText` give.
-/

namespace CoinLedger.Hash

/-! ## From the last cell down -/

/-- Puts the digits of the cells below the index `i` behind `out`. -/
def textBelow (cells : Bytes) : ℕ → Text → Text
  | 0, out => out
  | i + 1, out => textBelow cells i (out ++ Hex.digits (cells.getD i 0))

/-- The order of the cells below the index `i`. -/
def compareBelow (cells cells' : Bytes) : ℕ → Ordering
  | 0 => .eq
  | i + 1 =>
    if cells.getD i 0 ≠ cells'.getD i 0 then
      if cells.getD i 0 < cells'.getD i 0 then .lt else .gt
    else compareBelow cells cells' i

/-- The cell at `i` is the first one of those up to it, seen from the other end. -/
lemma reverse_take_succ {cells : Bytes} {i : ℕ} (h : i < cells.length) :
    (cells.take (i + 1)).reverse = cells.getD i 0 :: (cells.take i).reverse := by
  rw [List.take_succ_eq_append_getElem h, List.reverse_append, List.getD_eq_getElem _ _ h]
  rfl

lemma textBelow_eq {cells : Bytes} {i : ℕ} (h : i ≤ cells.length) (out : Text) :
    textBelow cells i out = out ++ Hex.encode (cells.take i).reverse := by
  induction i generalizing out with
  | zero => exact (List.append_nil out).symm
  | succ i ih =>
    rw [textBelow, ih (by omega), reverse_take_succ h, List.append_assoc]
    rfl

lemma compareBelow_eq {cells cells' : Bytes} {i : ℕ} (h : i ≤ cells.length) (h' : i ≤ cells'.length) :
    compareBelow cells cells' i = compareBytes (cells.take i).reverse (cells'.take i).reverse := by
  induction i with
  | zero => rfl
  | succ i ih =>
    rw [compareBelow, reverse_take_succ h, reverse_take_succ h', compareBytes, ih (by omega) (by omega),
      ite_not]
    simp only [UInt8.lt_iff_toNat_lt, ← UInt8.toNat_inj]
    split
    next hsame => rw [if_neg hsame.not_lt, if_neg hsame.not_gt]
    next hdiffer =>
      split
      next => rfl
      next hge => rw [if_pos (by omega)]

/-! ## From the first pair on -/

/-- Stores the bytes of the pairs of digits from the pair `i` on. -/
def storeFrom (digits : Text) (i : ℕ) (cells : Bytes) : Except Error Bytes :=
  if i < 32 then
    let hi := digits.getD (2 * i) 0
    let lo := digits.getD (2 * i + 1) 0
    if Hex.isDigit hi && Hex.isDigit lo then
      storeFrom digits (i + 1) (cells.set (31 - i) (Hex.byte hi lo))
    else .error ⟨.hashDigit, 2 * i⟩
  else .ok cells
termination_by 32 - i

/-- The pair `i` lies in front of those behind it. -/
lemma drop_pair {digits : Text} (hdigits : digits.length = 64) {i : ℕ} (hi : i < 32) :
    digits.drop (2 * i) =
      digits.getD (2 * i) 0 :: digits.getD (2 * i + 1) 0 :: digits.drop (2 * (i + 1)) := by
  rw [List.getD_eq_getElem _ _ (by omega), List.getD_eq_getElem _ _ (by omega), Nat.mul_succ,
    List.getElem_cons_drop, List.getElem_cons_drop]

/-- A cell that is stored lies in front of those behind it. -/
lemma drop_set_cell {cells : Bytes} {k : ℕ} (h : k < cells.length) (b : UInt8) :
    (cells.set k b).drop k = b :: cells.drop (k + 1) := by
  rw [List.set_eq_take_append_cons_drop, if_pos h, List.drop_left' (List.length_take_of_le h.le)]

/-- In a pair of digits no byte is found that is no digit; in another pair one is. -/
lemma findIdx?_pair (hi lo : UInt8) (rest : Text) :
    (hi :: lo :: rest).findIdx? (fun b => !Hex.isDigit b) =
      if Hex.isDigit hi && Hex.isDigit lo then
        (rest.findIdx? (fun b => !Hex.isDigit b)).map (· + 2)
      else some (if Hex.isDigit hi then 1 else 0) := by
  rw [List.findIdx?_cons, List.findIdx?_cons]
  cases Hex.isDigit hi <;> cases Hex.isDigit lo <;> simp [Option.map_map, Function.comp_def]

/-- What is stored from the pair `i` on lies in front of the cells that are stored already. -/
lemma storeFrom_eq {digits : Text} (hdigits : digits.length = 64) {i : ℕ} {cells : Bytes}
    (hcells : cells.length = 32) (hle : i ≤ 32) :
    storeFrom digits i cells =
      match (digits.drop (2 * i)).findIdx? (fun b => !Hex.isDigit b) with
      | some j => .error ⟨.hashDigit, 2 * i + j / 2 * 2⟩
      | none => .ok ((Hex.pack (digits.drop (2 * i))).reverse ++ cells.drop (32 - i)) := by
  induction i, cells using storeFrom.induct digits with
  | case1 i cells hlt hi lo hpair ih =>
    have hcell : 31 - i < cells.length := by omega
    have hrest : 31 - i + 1 = 32 - i := by omega
    have hstored := ih (by rw [List.length_set, hcells]) (by omega)
    have hlast : 32 - (i + 1) = 31 - i := by omega
    -- the pairs behind this one are stored in front of its cell
    rw [storeFrom, if_pos hlt]
    dsimp only
    rw [if_pos hpair, hstored, drop_pair hdigits hlt, findIdx?_pair, if_pos hpair, hlast,
      drop_set_cell hcell, hrest]
    cases (digits.drop (2 * (i + 1))).findIdx? (fun b => !Hex.isDigit b) with
    | none =>
      dsimp only [Option.map_none]
      rw [Hex.pack, List.reverse_cons, List.append_assoc]
      rfl
    | some j =>
      have hindex : 2 * (i + 1) + j / 2 * 2 = 2 * i + (j + 2) / 2 * 2 := by omega
      dsimp only [Option.map_some]
      rw [hindex]
  | case2 i cells hlt hi lo hpair =>
    have hfirst : (if Hex.isDigit hi then 1 else 0) / 2 * 2 = 0 := by split <;> rfl
    rw [storeFrom, if_pos hlt]
    dsimp only
    rw [if_neg hpair, drop_pair hdigits hlt, findIdx?_pair, if_neg hpair]
    dsimp only
    rw [hfirst, Nat.add_zero]
  | case3 i cells hend =>
    obtain rfl : i = 32 := by omega
    rw [storeFrom, if_neg hend, List.drop_of_length_le (by omega)]
    rfl

/-- Reads a text into 32 cells. -/
def readCells (t : Text) : Except Error Bytes :=
  if (dropMarker t).length = 64 then storeFrom (dropMarker t) 0 (List.replicate 32 0)
  else .error ⟨.hashLength (dropMarker t).length, 0⟩

/-! ## The same outcomes -/

theorem textBelow_bytes (h : Hash) : textBelow h.bytes 32 [] = h.toText := by
  rw [textBelow_eq h.length_bytes.ge, List.take_of_length_le h.length_bytes.le]
  rfl

theorem compareBelow_bytes (a b : Hash) : compareBelow a.bytes b.bytes 32 = compare a b := by
  rw [compareBelow_eq a.length_bytes.ge b.length_bytes.ge, List.take_of_length_le a.length_bytes.le,
    List.take_of_length_le b.length_bytes.le]
  rfl

/-- A text is read into cells as the hash that it is read as, and refused where it is refused. -/
theorem readCells_eq (t : Text) : readCells t = (ofText t).map bytes := by
  rw [readCells, ofText]
  split
  next hlength =>
    rw [storeFrom_eq hlength List.length_replicate (Nat.zero_le 32), Nat.mul_zero, List.drop_zero]
    cases (dropMarker t).findIdx? (fun b => !Hex.isDigit b) with
    | none =>
      have hcells : (List.replicate 32 (0 : UInt8)).drop (32 - 0) = [] := rfl
      dsimp only
      rw [hcells, List.append_nil]
      rfl
    | some j =>
      dsimp only
      rw [Nat.zero_add]
      rfl
  next => rfl

end CoinLedger.Hash
