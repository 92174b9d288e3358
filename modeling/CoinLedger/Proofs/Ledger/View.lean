import Mathlib
import CoinLedger.Proofs.Ledger.Operations
import CoinLedger.Proofs.OutPoint
import CoinLedger.Proofs.Record
import CoinLedger.Proofs.SpendJournal.RoundTrip
import CoinLedger.Proofs.Store
import CoinLedger.Proofs.TipSet

/-!
# What a ledger holds

A `View` is a ledger without its encodings: a finite map from outpoints to coins, a finite map from
blocks to their spend journals, each with the transactions that it was written for, and the tips.
`View.step` is what an operation makes of a view, and `View.Answers` says which outcomes of an operation
a view allows.

The three buckets of a store are tables of the three parts of a view (`View.Represents`), and every
operation keeps it so (`View.Represents.step`).

`View.answers_of_history`: after any history of operations on an empty store, every operation is
answered as the view allows, a failure changes nothing, and each bucket has as many values as its part
of the view.
-/

namespace CoinLedger.Ledger

open Text (ofString)
open Store (Table)

/-! ## Operations -/

namespace Command

/-- Whether a command is an operation of the ledger, and no access to the store beneath it. -/
def isOperation : Command → Bool
  | insertCoin _ _ | getCoin _ | eraseCoin _ => true
  | insertJournal _ _ _ | getJournal _ _ | eraseJournal _ => true
  | setTips _ | getTips => true
  | write _ _ | read _ | erase _ | contains _ | size _ => false

/-- The record that a command writes is so short that its length has 64 bits. -/
def Short : Command → Prop
  | insertCoin _ c => c.encode.length < UInt64.size
  | insertJournal _ journal txs => ∀ data, journal.encode txs = .ok data → data.length < UInt64.size
  | _ => True

end Command

/-! ## Views -/

/-- What a ledger holds. -/
structure View where
  /-- The coins. -/
  coins : Finmap fun _ : OutPoint => Coin
  /-- The spend journals of blocks, with the transactions that they were written for. -/
  journals : Finmap fun _ : Hash => SpendJournal × List Transaction
  /-- The tips, if there are any. -/
  tips : Option (List Hash)

/-- The outcome says that there is no such entry. -/
def NotFound (outcome : Except Error Answer) : Prop :=
  ∃ e, outcome = .error e ∧ e.code = .storageNotFound

namespace View

/-- The view of a ledger that holds nothing. -/
def empty : View := ⟨∅, ∅, none⟩

/-- The view behind an operation.  A journal that cannot be written leaves the view as it is. -/
def step (v : View) : Command → View
  | .insertCoin o c => { v with coins := v.coins.insert o c }
  | .eraseCoin o => { v with coins := v.coins.erase o }
  | .insertJournal block journal txs =>
    match journal.encode txs with
    | .ok _ => { v with journals := v.journals.insert block (journal, txs) }
    | .error _ => v
  | .eraseJournal block => { v with journals := v.journals.erase block }
  | .setTips tips => { v with tips := some tips }
  | _ => v

/-- The view behind operations that are carried out one after the other. -/
def steps (v : View) (history : List Command) : View := history.foldl step v

/-- The outcomes of an operation that a view allows. -/
def Answers (v : View) : Command → Except Error Answer → Prop
  | .getCoin o, outcome =>
    match v.coins.lookup o with
    | some c => outcome = .ok (.coin c)
    | none => NotFound outcome
  | .getJournal block txs, outcome =>
    match v.journals.lookup block with
    | some (journal, written) => txs = written → outcome = .ok (.journal journal)
    | none =>
      if Transaction.spentOutputs txs = 0 then outcome = .ok (.journal ⟨[]⟩) else NotFound outcome
  | .getTips, outcome =>
    match v.tips with
    | some tips => outcome = .ok (.tips tips)
    | none => NotFound outcome
  | .insertJournal _ journal txs, outcome =>
    match journal.encode txs with
    | .ok _ => outcome = .ok .done
    | .error e => outcome = .error e
  | _, outcome => outcome = .ok .done

/-! ## Views and stores -/

/-- The bytes are the record of a coin. -/
def IsCoinRecord (c : Coin) (data : Bytes) : Prop := c.encode = data ∧ data.length < UInt64.size

/-- The bytes are the record of a journal for the given transactions. -/
def IsJournalRecord (entry : SpendJournal × List Transaction) (data : Bytes) : Prop :=
  entry.1.encode entry.2 = .ok data ∧ data.length < UInt64.size

/-- The bytes are the text of the tips. -/
def IsTipRecord (tips : List Hash) (data : Bytes) : Prop := TipSet.format tips = data

/-- The store holds the records of what is in the view, and nothing else in the buckets of the
ledger. -/
structure Represents (s : Store) (v : View) : Prop where
  /-- The bucket of the coins. -/
  coins : Table s coinBucket OutPoint.key IsCoinRecord (fun o => v.coins.lookup o)
  /-- The bucket of the spend journals. -/
  journals : Table s journalBucket Hash.bytes IsJournalRecord (fun block => v.journals.lookup block)
  /-- The bucket of the tips. -/
  tips : Table s stateBucket (fun _ : Unit => ofString "tips") IsTipRecord (fun _ => v.tips)

lemma decode_of_isJournalRecord {journal : SpendJournal} {txs : List Transaction} {data : Bytes}
    (h : IsJournalRecord (journal, txs) data) : SpendJournal.decode data txs = .ok journal := by
  obtain ⟨hencode, hsize⟩ := h
  obtain ⟨hcount, w, hwrite, rfl⟩ := SpendJournal.encode_eq_ok_iff.mp hencode
  exact SpendJournal.decode_of_writeTransactions hcount hwrite hsize

/-- A journal has one stored form, which decides its length. -/
lemma length_lt_of_encode_eq {journal : SpendJournal} {txs : List Transaction} {data : Bytes}
    (h : journal.encode txs = .ok data) (hsize : data.length < UInt64.size) :
    ∀ data', journal.encode txs = .ok data' → data'.length < UInt64.size := by
  intro data' h'
  rw [h] at h'
  cases h'
  exact hsize

lemma represents_empty : Represents Store.empty empty := by
  constructor
  · exact Table.empty
  · exact Table.empty
  · exact Table.empty

lemma lookup_insert_eq_update {κ β : Type} [DecidableEq κ] (m : Finmap fun _ : κ => β) (k : κ)
    (b : β) :
    (fun k' => (m.insert k b).lookup k') = Function.update (fun k' => m.lookup k') k (some b) := by
  funext k'
  by_cases hk : k' = k
  · rw [hk, Finmap.lookup_insert, Function.update_self]
  · rw [Finmap.lookup_insert_of_ne m hk, Function.update_of_ne hk]

lemma lookup_erase_eq_update {κ β : Type} [DecidableEq κ] (m : Finmap fun _ : κ => β) (k : κ) :
    (fun k' => (m.erase k).lookup k') = Function.update (fun k' => m.lookup k') k none := by
  funext k'
  by_cases hk : k' = k
  · rw [hk, Finmap.lookup_erase, Function.update_self]
  · rw [Finmap.lookup_erase_ne hk, Function.update_of_ne hk]

lemma coinBucket_ne_journalBucket : coinBucket ≠ journalBucket := by decide

lemma coinBucket_ne_stateBucket : coinBucket ≠ stateBucket := by decide

lemma journalBucket_ne_stateBucket : journalBucket ≠ stateBucket := by decide

/-! ## The effect of an operation -/

section Step

variable {s : Store} {v : View}

namespace Represents

/-- Storing a coin puts it into the view. -/
lemma insertCoin (h : Represents s v) (o : OutPoint) {c : Coin}
    (hshort : c.encode.length < UInt64.size) :
    Represents (s.insert (coinSlot o) c.encode) { v with coins := v.coins.insert o c } := by
  have hrecord : IsCoinRecord c c.encode := ⟨rfl, hshort⟩
  constructor
  · rw [lookup_insert_eq_update]
    exact h.coins.insert OutPoint.key_injective o hrecord
  · exact h.journals.insert_of_ne coinBucket_ne_journalBucket _
  · exact h.tips.insert_of_ne coinBucket_ne_stateBucket _

/-- Removing a coin takes it out of the view. -/
lemma eraseCoin (h : Represents s v) (o : OutPoint) :
    Represents (s.erase (coinSlot o)) { v with coins := v.coins.erase o } := by
  constructor
  · rw [lookup_erase_eq_update]
    exact h.coins.erase OutPoint.key_injective o
  · exact h.journals.erase_of_ne coinBucket_ne_journalBucket
  · exact h.tips.erase_of_ne coinBucket_ne_stateBucket

/-- Storing a journal puts it into the view. -/
lemma insertJournal (h : Represents s v) (block : Hash) {journal : SpendJournal}
    {txs : List Transaction} {data : Bytes} (hrecord : IsJournalRecord (journal, txs) data) :
    Represents (s.insert (journalSlot block) data)
      { v with journals := v.journals.insert block (journal, txs) } := by
  constructor
  · exact h.coins.insert_of_ne coinBucket_ne_journalBucket.symm _
  · rw [lookup_insert_eq_update]
    exact h.journals.insert Hash.bytes_injective block hrecord
  · exact h.tips.insert_of_ne journalBucket_ne_stateBucket _

/-- Removing a journal takes it out of the view. -/
lemma eraseJournal (h : Represents s v) (block : Hash) :
    Represents (s.erase (journalSlot block)) { v with journals := v.journals.erase block } := by
  constructor
  · exact h.coins.erase_of_ne coinBucket_ne_journalBucket.symm
  · rw [lookup_erase_eq_update]
    exact h.journals.erase Hash.bytes_injective block
  · exact h.tips.erase_of_ne journalBucket_ne_stateBucket

/-- Storing tips puts them into the view. -/
lemma setTips (h : Represents s v) (tips : List Hash) :
    Represents (s.insert tipSlot (TipSet.format tips)) { v with tips := some tips } := by
  have hkey : Function.Injective (fun _ : Unit => ofString "tips") := fun _ _ _ => rfl
  have hupdate : Function.update (fun _ : Unit => v.tips) () (some tips) = fun _ => some tips := by
    funext k
    exact Function.update_self _ _ _
  constructor
  · exact h.coins.insert_of_ne coinBucket_ne_stateBucket.symm _
  · exact h.journals.insert_of_ne journalBucket_ne_stateBucket.symm _
  · have htips := h.tips.insert hkey () (show IsTipRecord tips (TipSet.format tips) from rfl)
    rw [hupdate] at htips
    exact htips

/-- An operation on the store is the same operation on the view. -/
theorem step (h : Represents s v) {c : Command} (hop : c.isOperation = true) (hshort : c.Short) :
    Represents (c.run s).2 (v.step c) := by
  cases c with
  | insertCoin o c => exact h.insertCoin o hshort
  | eraseCoin o => exact h.eraseCoin o
  | insertJournal block journal txs =>
    cases hencode : journal.encode txs with
    | error e =>
      -- a refused journal leaves both the store and the view as they are
      have hrefused := outcome_insertJournal_of_error hencode s block
      have hstore : (Command.run s (.insertJournal block journal txs)).2 = s := by
        rw [Command.run, Command.writing, hrefused]
      have hview : v.step (.insertJournal block journal txs) = v := by
        rw [View.step, hencode]
      rw [hstore, hview]
      exact h
    | ok data =>
      have hview : v.step (.insertJournal block journal txs) =
          { v with journals := v.journals.insert block (journal, txs) } := by
        rw [View.step, hencode]
      rw [Command.run, insertJournal_of_ok hencode, hview]
      exact h.insertJournal block ⟨hencode, hshort data hencode⟩
  | eraseJournal block => exact h.eraseJournal block
  | setTips tips => exact h.setTips tips
  | getCoin o => exact h
  | getJournal block txs => exact h
  | getTips => exact h
  | write slot value => cases hop
  | read slot => cases hop
  | erase slot => cases hop
  | contains slot => cases hop
  | size bucket => cases hop

/-- A history of operations on the store is the same history on the view. -/
theorem steps (h : Represents s v) {history : List Command}
    (hop : ∀ c ∈ history, c.isOperation = true) (hshort : ∀ c ∈ history, c.Short) :
    Represents (Command.runAll s history) (v.steps history) := by
  induction history generalizing s v with
  | nil => exact h
  | cons c history ih =>
    have hnext := h.step (hop c List.mem_cons_self) (hshort c List.mem_cons_self)
    refine ih hnext ?_ ?_
    · intro c' hc'
      exact hop c' (List.mem_cons_of_mem c hc')
    · intro c' hc'
      exact hshort c' (List.mem_cons_of_mem c hc')

/-! ## The answer to an operation -/

lemma answers_getCoin (h : Represents s v) (o : OutPoint) :
    v.Answers (.getCoin o) (Command.run s (.getCoin o)).1.outcome := by
  unfold Answers Command.run Command.reading
  dsimp only
  split
  next c hlook =>
    obtain ⟨data, hfind, rfl, hsize⟩ := h.coins.find?_of_some hlook
    rw [outcome_getCoin_of_some hfind (Coin.decode_encode hsize)]
    rfl
  next hlook =>
    rw [outcome_getCoin_of_none (h.coins.find?_of_none hlook)]
    exact ⟨_, rfl, rfl⟩

lemma answers_getJournal (h : Represents s v) (block : Hash) (txs : List Transaction) :
    v.Answers (.getJournal block txs) (Command.run s (.getJournal block txs)).1.outcome := by
  unfold Answers Command.run Command.reading
  dsimp only
  split
  next journal written hlook =>
    rintro rfl
    obtain ⟨data, hfind, hrecord⟩ := h.journals.find?_of_some hlook
    rw [outcome_getJournal_of_some hfind (decode_of_isJournalRecord hrecord)]
    rfl
  next hlook =>
    rw [outcome_getJournal_of_none (h.journals.find?_of_none hlook)]
    split
    next => rfl
    next => exact ⟨_, rfl, rfl⟩

lemma answers_getTips (h : Represents s v) :
    v.Answers .getTips (Command.run s .getTips).1.outcome := by
  unfold Answers Command.run Command.reading
  dsimp only
  split
  next tips hlook =>
    have htips : (fun _ : Unit => v.tips) () = some tips := hlook
    obtain ⟨data, hfind, hrecord⟩ := h.tips.find?_of_some (k := ()) htips
    have hparse : TipSet.parse data = .ok tips := by
      rw [← hrecord]
      exact TipSet.parse_format tips
    rw [outcome_getTips_of_some hfind hparse]
    rfl
  next hlook =>
    have htips : (fun _ : Unit => v.tips) () = none := hlook
    rw [outcome_getTips_of_none (h.tips.find?_of_none (k := ()) htips)]
    exact ⟨_, rfl, rfl⟩

/-- An operation on the store is answered as the view allows. -/
theorem answers (h : Represents s v) {c : Command} (hop : c.isOperation = true) :
    v.Answers c (c.run s).1.outcome := by
  cases c with
  | getCoin o => exact h.answers_getCoin o
  | getJournal block txs => exact h.answers_getJournal block txs
  | getTips => exact h.answers_getTips
  | insertJournal block journal txs =>
    unfold Answers Command.run Command.writing
    dsimp only
    split
    next data hencode => rw [insertJournal_of_ok hencode]; rfl
    next e hencode => rw [outcome_insertJournal_of_error hencode]
  | insertCoin o c => rfl
  | eraseCoin o => rfl
  | eraseJournal block => rfl
  | setTips tips => rfl
  | write slot value => cases hop
  | read slot => cases hop
  | erase slot => cases hop
  | contains slot => cases hop
  | size bucket => cases hop

/-! ## The sizes of the buckets -/

lemma size_coinBucket (h : Represents s v) : s.size coinBucket = v.coins.keys.card :=
  h.coins.size_eq OutPoint.key_injective
    (fun _ => Finmap.mem_keys.trans Finmap.lookup_isSome.symm)

lemma size_journalBucket (h : Represents s v) : s.size journalBucket = v.journals.keys.card :=
  h.journals.size_eq Hash.bytes_injective
    (fun _ => Finmap.mem_keys.trans Finmap.lookup_isSome.symm)

lemma size_stateBucket (h : Represents s v) :
    s.size stateBucket = if v.tips.isSome then 1 else 0 := by
  have hkey : Function.Injective (fun _ : Unit => ofString "tips") := fun _ _ _ => rfl
  by_cases htips : v.tips.isSome = true
  · rw [if_pos htips, h.tips.size_eq hkey (fun _ => iff_of_true (Finset.mem_univ _) htips)]
    rfl
  · rw [if_neg htips, h.tips.size_eq hkey (fun _ => iff_of_false (Finset.notMem_empty _) htips)]
    rfl

end Represents

end Step

/-! ## Histories -/

/-- The store behind a history of operations that starts with the store without values. -/
def storeAfter (history : List Command) : Store := Command.runAll Store.empty history

/-- The view behind a history of operations that starts with the view that holds nothing. -/
def viewAfter (history : List Command) : View := empty.steps history

/-- After any history, every operation is answered as the view behind the history allows, a failure
changes nothing, and each bucket has as many values as its part of the view. -/
theorem answers_of_history {history : List Command} (hop : ∀ c ∈ history, c.isOperation = true)
    (hshort : ∀ c ∈ history, c.Short) :
    (∀ c : Command, c.isOperation = true →
      (viewAfter history).Answers c (c.run (storeAfter history)).1.outcome ∧
      ((∃ e, (c.run (storeAfter history)).1.outcome = .error e) →
        (c.run (storeAfter history)).2 = storeAfter history)) ∧
    (storeAfter history).size coinBucket = (viewAfter history).coins.keys.card ∧
    (storeAfter history).size journalBucket = (viewAfter history).journals.keys.card ∧
    (storeAfter history).size stateBucket = if (viewAfter history).tips.isSome then 1 else 0 := by
  have h : Represents (storeAfter history) (viewAfter history) :=
    represents_empty.steps hop hshort
  refine ⟨?_, h.size_coinBucket, h.size_journalBucket, h.size_stateBucket⟩
  intro c hc
  refine ⟨h.answers hc, ?_⟩
  rintro ⟨e, herror⟩
  exact Command.run_of_error herror

/-- The coin that an outpoint gets first. -/
def firstCoin : Coin := ⟨⟨3, false⟩, ⟨5, [0x51]⟩⟩

/-- The coin that the outpoint gets in its place. -/
def secondCoin : Coin := ⟨⟨4, true⟩, ⟨0, [0x6a]⟩⟩

/-- The journal of a block that spends one output. -/
def oneJournal : SpendJournal := ⟨[.ofCoin firstCoin]⟩

/-- A history in which a coin is replaced, another one is removed, a journal is refused in the place of
one that is stored, and the tips repeat a hash. -/
def shortHistory : List Command :=
  [.insertCoin ⟨Hash.zero, 0⟩ firstCoin, .insertCoin ⟨Hash.zero, 1⟩ firstCoin,
    .insertCoin ⟨Hash.zero, 0⟩ secondCoin, .eraseCoin ⟨Hash.zero, 1⟩,
    .insertJournal Hash.zero oneJournal [.withInputs 1],
    .insertJournal Hash.zero ⟨[]⟩ [.withInputs 1], .setTips [Hash.zero, Hash.zero]]

/-- What that history has left is found. -/
theorem answers_of_shortHistory :
    (∀ c ∈ shortHistory, c.isOperation = true) ∧ (∀ c ∈ shortHistory, c.Short) ∧
    (Command.run (storeAfter shortHistory) (.getCoin ⟨Hash.zero, 0⟩)).1.outcome =
      .ok (.coin secondCoin) ∧
    NotFound (Command.run (storeAfter shortHistory) (.getCoin ⟨Hash.zero, 1⟩)).1.outcome ∧
    (Command.run (storeAfter shortHistory) (.getJournal Hash.zero [.withInputs 1])).1.outcome =
      .ok (.journal oneJournal) ∧
    (Command.run (storeAfter shortHistory) .getTips).1.outcome =
      .ok (.tips [Hash.zero, Hash.zero]) ∧
    (storeAfter shortHistory).size coinBucket = 1 := by
  have hop : ∀ c ∈ shortHistory, c.isOperation = true := by decide
  have hencode : oneJournal.encode [.withInputs 1] = .ok [6, 0, 41, 7, 0x51] := by decide
  have hstored := length_lt_of_encode_eq hencode (by decide)
  have hrefused : ∀ data, (⟨[]⟩ : SpendJournal).encode [.withInputs 1] = .ok data →
      data.length < UInt64.size := by
    rintro data ⟨⟩
  have hcoin : firstCoin.encode.length < UInt64.size ∧ secondCoin.encode.length < UInt64.size := by
    decide
  have hshort : ∀ c ∈ shortHistory, c.Short := by
    simp only [shortHistory, List.forall_mem_cons, Command.Short]
    exact ⟨hcoin.1, hcoin.1, hcoin.2, trivial, hstored, hrefused, trivial, List.forall_mem_nil _⟩
  obtain ⟨hanswers, hcoins, -⟩ := answers_of_history hop hshort
  exact ⟨hop, hshort, (hanswers (.getCoin ⟨Hash.zero, 0⟩) rfl).1,
    (hanswers (.getCoin ⟨Hash.zero, 1⟩) rfl).1,
    (hanswers (.getJournal Hash.zero [.withInputs 1]) rfl).1 rfl, (hanswers .getTips rfl).1, hcoins⟩

end View

end CoinLedger.Ledger
