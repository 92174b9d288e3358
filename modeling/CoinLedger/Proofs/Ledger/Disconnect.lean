import Mathlib
import CoinLedger.Proofs.Ledger.View

/-!
# Disconnecting a block

A block that is connected has its spent outputs written into its journal and removed from the coins; a
block that is disconnected has them read from the journal and put back.

What is under the key of an outpoint is characterised behind any number of removals
(`table_runAll_eraseCoin`) and behind any number of restorations (`table_runAll_insertCoin`) by
membership alone, so neither their order nor a repeated outpoint matters.

`restore_of_insertJournal`: the journal of a block is read back when the coins that the block spends
are gone, and putting them back, in any order, makes the bucket of the coins what it was.
-/

namespace CoinLedger

/-- The outpoints that the transactions of a block spend, in block order. -/
def Transaction.spentOutPoints (txs : List Transaction) : List OutPoint :=
  (txs.filter (fun tx => !tx.isCoinbase)).flatMap Transaction.inputs

namespace Ledger

open Store (Table)
open View (IsCoinRecord)

/-! ## Coins that were stored as coins -/

/-- Everything in the bucket of the coins is the record of a coin under the key of an outpoint. -/
def CoinsWritten (s : Store) : Prop :=
  ∀ key value, s.find? ⟨coinBucket, key⟩ = some value →
    ∃ (o : OutPoint) (c : Coin), o.key = key ∧ c.encode = value ∧ value.length < UInt64.size

/-- The coin that is read under an outpoint. -/
def coinAt (s : Store) (o : OutPoint) : Option Coin := (getCoin s o).outcome.toOption

lemma coinAt_eq_some_iff {s : Store} {o : OutPoint} {c : Coin} :
    coinAt s o = some c ↔ (getCoin s o).outcome = .ok c := by
  unfold coinAt
  cases (getCoin s o).outcome with
  | error e => simp only [Except.toOption, reduceCtorEq]
  | ok c' => simp only [Except.toOption, Option.some.injEq, Except.ok.injEq]

/-- The bucket of the coins is a table of the coins that are read from it. -/
lemma CoinsWritten.table {s : Store} (hs : CoinsWritten s) :
    Table s coinBucket OutPoint.key IsCoinRecord (coinAt s) := by
  constructor
  · intro o
    cases hfind : s.find? ⟨coinBucket, o.key⟩ with
    | none =>
      have hcoin : coinAt s o = none := by
        rw [coinAt, outcome_getCoin_of_none hfind]
        rfl
      rw [hcoin]
      exact .none
    | some value =>
      obtain ⟨o', c, hkey, rfl, hsize⟩ := hs o.key value hfind
      have hcoin : coinAt s o = some c :=
        coinAt_eq_some_iff.mpr (outcome_getCoin_of_some hfind (Coin.decode_encode hsize))
      rw [hcoin]
      exact .some ⟨rfl, hsize⟩
  · intro key hkey
    obtain ⟨value, hfind⟩ := Option.isSome_iff_exists.mp hkey
    obtain ⟨o, c, hkey, -⟩ := hs key value hfind
    exact ⟨o, hkey⟩

/-- In a store that represents a view the coins were stored as coins. -/
lemma coinsWritten_of_represents {s : Store} {v : View} (h : View.Represents s v) : CoinsWritten s := by
  intro key value hfind
  obtain ⟨o, rfl⟩ := h.coins.exists_key key (Option.isSome_of_eq_some hfind)
  obtain ⟨c, -, hencode, hsize⟩ := h.coins.exists_of_find? hfind
  exact ⟨o, c, rfl, hencode, hsize⟩

/-! ## Removing and restoring coins -/

/-- The commands that remove coins. -/
def removals (removed : List OutPoint) : List Command := removed.map .eraseCoin

/-- Different outpoints have their coins in different slots. -/
lemma coinSlot_injective : Function.Injective coinSlot :=
  fun _ _ h => OutPoint.key_injective (congrArg Slot.key h)

/-- The commands that put the coins of spent outputs back under their outpoints. -/
def restorations (restored : List (OutPoint × SpentOutput)) : List Command :=
  restored.map fun e => .insertCoin e.1 e.2.toCoin

section Runs

variable {s : Store} {look : OutPoint → Option Coin}

/-- Removed coins are gone, and the others stay. -/
lemma table_runAll_eraseCoin (h : Table s coinBucket OutPoint.key IsCoinRecord look)
    (removed : List OutPoint) :
    Table (Command.runAll s (removals removed)) coinBucket OutPoint.key IsCoinRecord
      (fun o => if o ∈ removed then none else look o) := by
  induction removed generalizing s look with
  | nil =>
    simp only [List.not_mem_nil, if_false]
    exact h
  | cons o removed ih =>
    have hnext := ih (h.erase OutPoint.key_injective o)
    have hlook : (fun o' => if o' ∈ removed then none else Function.update look o none o') =
        fun o' => if o' ∈ o :: removed then none else look o' := by
      funext o'
      by_cases ho : o' = o
      · rw [ho, Function.update_self, ite_self, if_pos List.mem_cons_self]
      · rw [Function.update_of_ne ho]
        simp only [List.mem_cons, ho, false_or]
    rw [hlook] at hnext
    exact hnext

/-- Restored coins are what they were, and the others stay. -/
lemma table_runAll_insertCoin {now : OutPoint → Option Coin}
    (h : Table s coinBucket OutPoint.key IsCoinRecord now) {restored : List (OutPoint × SpentOutput)}
    (hcoin : ∀ e ∈ restored, look e.1 = some e.2.toCoin)
    (hsize : ∀ e ∈ restored, e.2.toCoin.encode.length < UInt64.size) :
    Table (Command.runAll s (restorations restored)) coinBucket OutPoint.key IsCoinRecord
      (fun o => if o ∈ restored.map Prod.fst then look o else now o) := by
  induction restored generalizing s now with
  | nil =>
    simp only [List.map_nil, List.not_mem_nil, if_false]
    exact h
  | cons e restored ih =>
    have hrecord : IsCoinRecord e.2.toCoin e.2.toCoin.encode := ⟨rfl, hsize e List.mem_cons_self⟩
    have hnext := ih (h.insert OutPoint.key_injective e.1 hrecord)
      (fun e' he' => hcoin e' (List.mem_cons_of_mem e he'))
      (fun e' he' => hsize e' (List.mem_cons_of_mem e he'))
    have hlook : (fun o => if o ∈ restored.map Prod.fst then look o
          else Function.update now e.1 (some e.2.toCoin) o) =
        fun o => if o ∈ (e :: restored).map Prod.fst then look o else now o := by
      funext o
      by_cases ho : o = e.1
      -- an outpoint that comes twice gets the same coin again
      · rw [ho, Function.update_self, ← hcoin e List.mem_cons_self, ite_self, List.map_cons,
          if_pos List.mem_cons_self]
      · rw [Function.update_of_ne ho]
        simp only [List.map_cons, List.mem_cons, ho, false_or]
    rw [hlook] at hnext
    exact hnext

/-- Where a removed coin was there is nothing, and whatever else the store holds stays as it is. -/
lemma find?_runAll_eraseCoin (removed : List OutPoint) (s : Store) (slot : Slot) :
    (Command.runAll s (removals removed)).find? slot =
      if slot ∈ removed.map coinSlot then none else s.find? slot := by
  induction removed generalizing s with
  | nil => rfl
  | cons o removed ih =>
    calc (Command.runAll s (removals (o :: removed))).find? slot
        = (Command.runAll (s.erase (coinSlot o)) (removals removed)).find? slot := rfl
      _ = if slot ∈ removed.map coinSlot then none else (s.erase (coinSlot o)).find? slot := ih _
      _ = if slot ∈ (o :: removed).map coinSlot then none else s.find? slot := by
        rw [Store.find?_erase, List.map_cons]
        by_cases hslot : slot = coinSlot o <;> simp [hslot]

end Runs

/-! ## Disconnecting -/

/-- The spent outputs are those that are fetched for the outpoints, in their order. -/
def Fetched (s : Store) (outPoints : List OutPoint) (spent : List SpentOutput) : Prop :=
  List.Forall₂ (fun o e => (getCoin s o).outcome.map SpentOutput.ofCoin = .ok e) outPoints spent

/-- Coins that are present are fetched. -/
lemma exists_fetched {s : Store} (hs : CoinsWritten s) {outPoints : List OutPoint}
    (hpresent : ∀ o ∈ outPoints, (s.find? (coinSlot o)).isSome) :
    ∃ spent, Fetched s outPoints spent := by
  induction outPoints with
  | nil => exact ⟨[], .nil⟩
  | cons o rest ih =>
    have hcoin := (hs.table.isSome_find? o).mp (hpresent o List.mem_cons_self)
    obtain ⟨c, hc⟩ := Option.isSome_iff_exists.mp hcoin
    obtain ⟨spent, hspent⟩ := ih (fun o' ho' => hpresent o' (List.mem_cons_of_mem o ho'))
    refine ⟨.ofCoin c :: spent, .cons ?_ hspent⟩
    rw [coinAt_eq_some_iff.mp hc]
    rfl

/-- There is one way to fetch the spent outputs. -/
lemma Fetched.unique {s : Store} {outPoints : List OutPoint} {spent spent' : List SpentOutput}
    (h : Fetched s outPoints spent) (h' : Fetched s outPoints spent') : spent = spent' := by
  refine List.right_unique_forall₂' ?_ h h'
  intro o e e' he he'
  rw [he] at he'
  exact Except.ok.inj he'

/-- A fetched output stands for the coin that is read under its outpoint. -/
lemma Fetched.coinAt_eq {s : Store} {outPoints : List OutPoint} {spent : List SpentOutput}
    (h : Fetched s outPoints spent) :
    ∀ e ∈ outPoints.zip spent, coinAt s e.1 = some e.2.toCoin := by
  rintro ⟨o, e⟩ he
  have hfetched := (List.forall₂_iff_zip.mp h).2 he
  cases hget : (getCoin s o).outcome with
  | error fault =>
    rw [hget] at hfetched
    cases hfetched
  | ok c =>
    rw [hget] at hfetched
    cases hfetched
    exact coinAt_eq_some_iff.mpr hget

/-- Behind the removal of outpoints and the restoration of what was fetched for them, the coins are what
they were. -/
lemma Fetched.table_restored {s s₁ : Store} {outPoints removed : List OutPoint}
    {spent : List SpentOutput} {restored : List (OutPoint × SpentOutput)}
    (h : Fetched s outPoints spent)
    (htable : Table s₁ coinBucket OutPoint.key IsCoinRecord (coinAt s))
    (hremoved : removed.Perm outPoints) (hrestored : restored.Perm (outPoints.zip spent)) :
    Table (Command.runAll (Command.runAll s₁ (removals removed)) (restorations restored)) coinBucket
      OutPoint.key IsCoinRecord (coinAt s) := by
  have hcoin : ∀ e ∈ restored, coinAt s e.1 = some e.2.toCoin := by
    intro e he
    exact h.coinAt_eq e (hrestored.mem_iff.mp he)
  have hsize : ∀ e ∈ restored, e.2.toCoin.encode.length < UInt64.size := by
    intro e he
    obtain ⟨value, -, rfl, hsize⟩ := htable.find?_of_some (hcoin e he)
    exact hsize
  have hmem : ∀ o, o ∈ removed ↔ o ∈ restored.map Prod.fst := by
    intro o
    have hfst : (outPoints.zip spent).map Prod.fst = outPoints :=
      List.map_fst_zip (List.forall₂_iff_zip.mp h).1.le
    rw [hremoved.mem_iff, (hrestored.map Prod.fst).mem_iff, hfst]
  have hlook : (fun o => if o ∈ restored.map Prod.fst then coinAt s o
      else if o ∈ removed then none else coinAt s o) = coinAt s := by
    funext o
    by_cases ho : o ∈ restored.map Prod.fst
    · rw [if_pos ho]
    · rw [if_neg ho, if_neg (mt (hmem o).mp ho)]
  have hback := table_runAll_insertCoin (table_runAll_eraseCoin htable removed) hcoin hsize
  rw [hlook] at hback
  exact hback

/-- The spent outputs of a block whose outpoints are all present are fetched; and when the journal with
them is stored, then behind the removal of the coins these are gone, the others are there as before and the
journal is read back; and putting the coins back in any order makes their bucket what it was before the
removal. -/
theorem restore_of_insertJournal {s : Store} (hs : CoinsWritten s) {txs : List Transaction}
    (hpresent : ∀ o ∈ Transaction.spentOutPoints txs, (s.find? (coinSlot o)).isSome)
    (block : Hash) :
    ∃ spent, Fetched s (Transaction.spentOutPoints txs) spent ∧
      ∀ s₁, (insertJournal s block ⟨spent⟩ txs).outcome = .ok s₁ →
        (∀ data, (⟨spent⟩ : SpendJournal).encode txs = .ok data → data.length < UInt64.size) →
        ∀ removed : List OutPoint, removed.Perm (Transaction.spentOutPoints txs) →
          (∀ o, (Command.runAll s₁ (removals removed)).find? (coinSlot o) =
            if o ∈ Transaction.spentOutPoints txs then none else s₁.find? (coinSlot o)) ∧
          (getJournal (Command.runAll s₁ (removals removed)) block txs).outcome = .ok ⟨spent⟩ ∧
          ∀ restored : List (OutPoint × SpentOutput),
            restored.Perm ((Transaction.spentOutPoints txs).zip spent) → ∀ key,
            (Command.runAll (Command.runAll s₁ (removals removed))
              (restorations restored)).find? ⟨coinBucket, key⟩ = s₁.find? ⟨coinBucket, key⟩ := by
  obtain ⟨spent, hfetched⟩ := exists_fetched hs hpresent
  refine ⟨spent, hfetched, ?_⟩
  intro s₁ hinsert hshort removed hremoved
  have hbucket : (journalSlot block).bucket ≠ coinBucket := View.coinBucket_ne_journalBucket.symm
  cases hencode : (⟨spent⟩ : SpendJournal).encode txs with
  | error e =>
    rw [outcome_insertJournal_of_error hencode] at hinsert
    cases hinsert
  | ok data =>
    rw [insertJournal_of_ok hencode] at hinsert
    obtain rfl : s.insert (journalSlot block) data = s₁ := Except.ok.inj hinsert
    refine ⟨?_, ?_, ?_⟩
    · intro o
      have hmem : coinSlot o ∈ removed.map coinSlot ↔ o ∈ Transaction.spentOutPoints txs := by
        rw [List.mem_map_of_injective coinSlot_injective, hremoved.mem_iff]
      simp only [find?_runAll_eraseCoin, hmem]
    · have hkept : journalSlot block ∉ removed.map coinSlot := by
        intro hmem
        obtain ⟨o, -, hslot⟩ := List.mem_map.mp hmem
        exact hbucket (congrArg Slot.bucket hslot.symm)
      have hfind : (Command.runAll (s.insert (journalSlot block) data)
          (removals removed)).find? (journalSlot block) = some data := by
        rw [find?_runAll_eraseCoin, if_neg hkept, Store.find?_insert, if_pos rfl]
      exact outcome_getJournal_of_some hfind
        (View.decode_of_isJournalRecord ⟨hencode, hshort data hencode⟩)
    · intro restored hrestored key
      have htable := hs.table.insert_of_ne hbucket data
      refine (hfetched.table_restored htable hremoved hrestored).find?_eq htable ?_ key
      rintro c value value' ⟨rfl, -⟩ ⟨rfl, -⟩
      rfl

/-- A block with a coinbase in which one coin is spent twice. -/
def spendingBlock : List Transaction :=
  [.coinbase, ⟨[⟨Hash.zero, 0⟩, ⟨Hash.zero, 1⟩]⟩, ⟨[⟨Hash.zero, 1⟩]⟩]

/-- The outputs that this block spends. -/
def spendingJournal : SpendJournal :=
  ⟨[.ofCoin View.firstCoin, .ofCoin View.secondCoin, .ofCoin View.secondCoin]⟩

/-- The stored form of this journal. -/
def spendingData : Bytes := [9, 0, 0, 7, 0x6a, 9, 0, 0, 7, 0x6a, 6, 0, 41, 7, 0x51]

/-- The commands that store the coins that this block spends. -/
def spendableCoins : List Command :=
  [.insertCoin ⟨Hash.zero, 0⟩ View.firstCoin, .insertCoin ⟨Hash.zero, 1⟩ View.secondCoin]

/-- The store with these coins and this journal. -/
def journaledStore : Store :=
  (View.storeAfter spendableCoins).insert (journalSlot Hash.zero) spendingData

/-- The store behind the removal of the coins. -/
def connectedStore : Store :=
  Command.runAll journaledStore (removals (Transaction.spentOutPoints spendingBlock))

/-- The coins of this block are gone and its journal is read back, and then the coins are put back last to
first. -/
theorem restore_of_spendingBlock :
    CoinsWritten (View.storeAfter spendableCoins) ∧
    (∀ o ∈ Transaction.spentOutPoints spendingBlock,
      ((View.storeAfter spendableCoins).find? (coinSlot o)).isSome) ∧
    (insertJournal (View.storeAfter spendableCoins) Hash.zero spendingJournal
      spendingBlock).outcome = .ok journaledStore ∧
    journaledStore.find? (coinSlot ⟨Hash.zero, 1⟩) = some View.secondCoin.encode ∧
    connectedStore.find? (coinSlot ⟨Hash.zero, 1⟩) = none ∧
    (getJournal connectedStore Hash.zero spendingBlock).outcome = .ok spendingJournal ∧
    ∀ key, (Command.runAll connectedStore (restorations
      ((Transaction.spentOutPoints spendingBlock).zip spendingJournal.spent).reverse)).find?
        ⟨coinBucket, key⟩ = journaledStore.find? ⟨coinBucket, key⟩ := by
  have hop : ∀ c ∈ spendableCoins, c.isOperation = true := by decide
  have hsize : View.firstCoin.encode.length < UInt64.size ∧
      View.secondCoin.encode.length < UInt64.size := by decide
  have hshort : ∀ c ∈ spendableCoins, c.Short := by
    simp only [spendableCoins, List.forall_mem_cons, Command.Short]
    exact ⟨hsize.1, hsize.2, List.forall_mem_nil _⟩
  have hs : CoinsWritten (View.storeAfter spendableCoins) :=
    coinsWritten_of_represents (View.represents_empty.steps hop hshort)
  have hpresent : ∀ o ∈ Transaction.spentOutPoints spendingBlock,
      ((View.storeAfter spendableCoins).find? (coinSlot o)).isSome := by decide
  have hfetched : Fetched (View.storeAfter spendableCoins)
      (Transaction.spentOutPoints spendingBlock) spendingJournal.spent :=
    .cons (by decide) (.cons (by decide) (.cons (by decide) .nil))
  have hencode : spendingJournal.encode spendingBlock = .ok spendingData := by decide
  have hinsert : (insertJournal (View.storeAfter spendableCoins) Hash.zero spendingJournal
      spendingBlock).outcome = .ok journaledStore := by
    rw [insertJournal_of_ok hencode]
    rfl
  obtain ⟨spent, hspent, hrestore⟩ := restore_of_insertJournal hs hpresent Hash.zero
  obtain rfl := hspent.unique hfetched
  have hlength := View.length_lt_of_encode_eq hencode (by decide)
  obtain ⟨hgone, hread, hback⟩ := hrestore journaledStore hinsert hlength _ (List.Perm.refl _)
  have hsecond : connectedStore.find? (coinSlot ⟨Hash.zero, 1⟩) = none := by
    rw [connectedStore, hgone, if_pos (by decide)]
  exact ⟨hs, hpresent, hinsert, by decide, hsecond, hread, hback _ (List.reverse_perm _)⟩

end Ledger

end CoinLedger
