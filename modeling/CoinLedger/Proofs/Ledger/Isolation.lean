import Mathlib
import CoinLedger.Proofs.Ledger.View

/-!
# Isolation of writes

A command makes at most one change to the store, at a slot that it names: `Command.change` says which,
and `Command.run_eq_apply` that there is no other.  So what a slot holds after a history of commands is
what was written there last (`Command.find?_runAll_eq_some_iff`), whether it was written by the ledger or
beneath it.

The ledger keeps records of coins, of spend journals and of the tips.  They have different slots
(`Subject.slot_injective`), and reading one of them looks at its slot alone (`Command.reply_congr`).
`isolated_runAll` puts these together: nothing that is done to one record shows when another one is read.
-/

namespace CoinLedger

namespace Store

/-! ## Changes of a store -/

/-- A change of a store at one slot. -/
structure Change where
  /-- The slot that changes. -/
  slot : Slot
  /-- The new value, or `none` if the slot is emptied. -/
  value : Option Bytes

/-- The store behind a change. -/
def apply (s : Store) (change : Change) : Store :=
  match change.value with
  | some value => s.insert change.slot value
  | none => s.erase change.slot

/-- A change is seen in its slot and nowhere else. -/
lemma find?_apply (s : Store) (change : Change) (slot : Slot) :
    (s.apply change).find? slot = if slot = change.slot then change.value else s.find? slot := by
  unfold apply
  split
  next value hvalue => rw [find?_insert, hvalue]
  next hvalue => rw [find?_erase, hvalue]

end Store

namespace Ledger

open Store (Change)

/-! ## What the ledger keeps -/

/-- What the ledger keeps a record of. -/
inductive Subject where
  /-- an unspent output -/
  | coin (o : OutPoint)
  /-- the outputs that a block has spent -/
  | journal (block : Hash)
  /-- the tips -/
  | tips

namespace Subject

/-- Where the record is kept. -/
def slot : Subject → Slot
  | coin o => coinSlot o
  | journal block => journalSlot block
  | tips => tipSlot

/-- No two records share a slot. -/
theorem slot_injective : Function.Injective slot := by
  intro x y h
  have hbucket : x.slot.bucket = y.slot.bucket := congrArg Slot.bucket h
  have hkey : x.slot.key = y.slot.key := congrArg Slot.key h
  -- the bucket tells the kinds of records apart, and the key the records of one kind
  cases x with
  | coin o =>
    cases y with
    | coin o' => exact congrArg coin (OutPoint.key_injective hkey)
    | journal block => exact absurd hbucket View.coinBucket_ne_journalBucket
    | tips => exact absurd hbucket View.coinBucket_ne_stateBucket
  | journal block =>
    cases y with
    | coin o => exact absurd hbucket.symm View.coinBucket_ne_journalBucket
    | journal block' => exact congrArg journal (Hash.bytes_injective hkey)
    | tips => exact absurd hbucket View.journalBucket_ne_stateBucket
  | tips =>
    cases y with
    | coin o => exact absurd hbucket.symm View.coinBucket_ne_stateBucket
    | journal block => exact absurd hbucket.symm View.journalBucket_ne_stateBucket
    | tips => rfl

end Subject

namespace Command

/-! ## The change that a command makes -/

/-- The change that a command makes to the store, if it makes one.  A journal that cannot be written
changes nothing. -/
def change : Command → Option Change
  | insertCoin o c => some ⟨coinSlot o, some c.encode⟩
  | eraseCoin o => some ⟨coinSlot o, none⟩
  | insertJournal block journal txs =>
    match journal.encode txs with
    | .ok data => some ⟨journalSlot block, some data⟩
    | .error _ => none
  | eraseJournal block => some ⟨journalSlot block, none⟩
  | setTips tips => some ⟨tipSlot, some (TipSet.format tips)⟩
  | write slot value => some ⟨slot, some value⟩
  | erase slot => some ⟨slot, none⟩
  | getCoin _ | getJournal _ _ | getTips => none
  | read _ | contains _ | size _ => none

/-- The command writes into the slot or empties it. -/
def Touches (c : Command) (slot : Slot) : Prop := c.change.map Change.slot = some slot

instance (c : Command) (slot : Slot) : Decidable (c.Touches slot) :=
  inferInstanceAs (Decidable (_ = _))

lemma touches_iff {c : Command} {slot : Slot} :
    c.Touches slot ↔ ∃ value, c.change = some ⟨slot, value⟩ := by
  unfold Touches
  rw [Option.map_eq_some_iff]
  constructor
  · rintro ⟨⟨slot, value⟩, hchange, rfl⟩
    exact ⟨value, hchange⟩
  · rintro ⟨value, hchange⟩
    exact ⟨_, hchange, rfl⟩

/-- A command makes its change and no other. -/
lemma run_eq_apply (s : Store) (c : Command) : (run s c).2 = c.change.elim s s.apply := by
  cases c with
  | insertJournal block journal txs =>
    unfold change
    dsimp only
    split
    next data hencode =>
      rw [run, insertJournal_of_ok hencode]
      rfl
    next e hencode =>
      have hrefused := outcome_insertJournal_of_error hencode s block
      rw [run, writing, hrefused]
      rfl
  | insertCoin o c => rfl
  | eraseCoin o => rfl
  | eraseJournal block => rfl
  | setTips tips => rfl
  | write slot value => rfl
  | erase slot => rfl
  | getCoin o => rfl
  | getJournal block txs => rfl
  | getTips => rfl
  | read slot => rfl
  | contains slot => rfl
  | size bucket => rfl

lemma run_of_change_eq_none {c : Command} (h : c.change = none) (s : Store) : (run s c).2 = s := by
  rw [run_eq_apply, h, Option.elim_none]

/-- The value that a command puts into a slot is found there. -/
lemma find?_run_of_change {c : Command} {slot : Slot} {value : Option Bytes}
    (h : c.change = some ⟨slot, value⟩) (s : Store) : (run s c).2.find? slot = value := by
  rw [run_eq_apply, h, Option.elim_some, Store.find?_apply, if_pos rfl]

/-- A slot that a command does not touch keeps its value. -/
lemma find?_run_of_not_touches {c : Command} {slot : Slot} (h : ¬ c.Touches slot) (s : Store) :
    (run s c).2.find? slot = s.find? slot := by
  rw [run_eq_apply]
  cases hchange : c.change with
  | none => rw [Option.elim_none]
  | some change =>
    have hslot : slot ≠ change.slot := by
      rintro rfl
      exact h (touches_iff.mpr ⟨change.value, hchange⟩)
    rw [Option.elim_some, Store.find?_apply, if_neg hslot]

/-! ## Histories -/

/-- The value was put into the slot by a command of the history, or was there before, and no command has
touched the slot since. -/
def Remains (start : Store) (history : List Command) (slot : Slot) (value : Bytes) : Prop :=
  (∃ before c after, history = before ++ c :: after ∧ c.change = some ⟨slot, some value⟩ ∧
    ∀ c' ∈ after, ¬ c'.Touches slot) ∨
  (start.find? slot = some value ∧ ∀ c ∈ history, ¬ c.Touches slot)

/-- A value remains behind one more command if the command puts it there, or leaves it there. -/
lemma remains_concat_iff {start : Store} {history : List Command} {c : Command} {slot : Slot}
    {value : Bytes} :
    Remains start (history ++ [c]) slot value ↔
      c.change = some ⟨slot, some value⟩ ∨ (¬ c.Touches slot ∧ Remains start history slot value) := by
  constructor
  · rintro (⟨before, writer, after, hhistory, hchange, hafter⟩ | ⟨hstart, hhistory⟩)
    -- the writer is the last command, or the last command is one of those behind it
    · rcases List.eq_nil_or_concat after with rfl | ⟨after, last, rfl⟩
      · obtain ⟨-, hlast⟩ := List.append_inj' hhistory rfl
        rw [List.singleton_inj.mp hlast]
        exact Or.inl hchange
      · rw [List.concat_eq_append] at hhistory hafter
        rw [← List.cons_append, ← List.append_assoc] at hhistory
        obtain ⟨hbefore, hlast⟩ := List.append_inj' hhistory rfl
        rw [List.forall_mem_append] at hafter
        rw [List.singleton_inj.mp hlast]
        exact Or.inr ⟨hafter.2 last List.mem_cons_self,
          Or.inl ⟨before, writer, after, hbefore, hchange, hafter.1⟩⟩
    · rw [List.forall_mem_append] at hhistory
      exact Or.inr ⟨hhistory.2 c List.mem_cons_self, Or.inr ⟨hstart, hhistory.1⟩⟩
  · rintro (hchange | ⟨hc, ⟨before, writer, after, rfl, hchange, hafter⟩ | ⟨hstart, hhistory⟩⟩)
    · exact Or.inl ⟨history, c, [], rfl, hchange, List.forall_mem_nil _⟩
    · refine Or.inl ⟨before, writer, after ++ [c], ?_, hchange, ?_⟩
      · rw [List.append_assoc, List.cons_append]
      · rw [List.forall_mem_append, List.forall_mem_singleton]
        exact ⟨hafter, hc⟩
    · refine Or.inr ⟨hstart, ?_⟩
      rw [List.forall_mem_append, List.forall_mem_singleton]
      exact ⟨hhistory, hc⟩

/-- What is found in a slot behind a history is what remains there. -/
theorem find?_runAll_eq_some_iff (start : Store) (history : List Command) (slot : Slot)
    (value : Bytes) :
    (runAll start history).find? slot = some value ↔ Remains start history slot value := by
  induction history using List.reverseRecOn with
  | nil => simp [runAll, Remains]
  | append_singleton history c ih =>
    have hrun : runAll start (history ++ [c]) = (run (runAll start history) c).2 := by
      rw [runAll, List.foldl_append]
      rfl
    rw [hrun, remains_concat_iff]
    -- the newest command decides, unless it leaves the slot alone
    by_cases hc : c.Touches slot
    · obtain ⟨left, hchange⟩ := touches_iff.mp hc
      rw [find?_run_of_change hchange, hchange]
      simp [hc]
    · have hchange : c.change ≠ some ⟨slot, some value⟩ := fun h => hc (touches_iff.mpr ⟨_, h⟩)
      rw [find?_run_of_not_touches hc, ih]
      simp [hc, hchange]

/-- A slot that no command of a history touches keeps its value. -/
theorem find?_runAll_of_not_touches {history : List Command} {slot : Slot}
    (h : ∀ c ∈ history, ¬ c.Touches slot) (start : Store) :
    (runAll start history).find? slot = start.find? slot := by
  induction history generalizing start with
  | nil => rfl
  | cons c history ih =>
    rw [List.forall_mem_cons] at h
    exact (ih h.2 (run start c).2).trans (find?_run_of_not_touches h.1 start)

end Command

/-! ## Reading records -/

section Reading

variable {s t : Store}

/-- Reading a coin looks at the slot of the coin alone. -/
lemma getCoin_congr {o : OutPoint} (h : s.find? (coinSlot o) = t.find? (coinSlot o)) :
    getCoin s o = getCoin t o := by
  rw [getCoin, getCoin, Store.get_congr h]

/-- Reading a journal looks at the slot of the journal alone. -/
lemma getJournal_congr {block : Hash}
    (h : s.find? (journalSlot block) = t.find? (journalSlot block)) (txs : List Transaction) :
    getJournal s block txs = getJournal t block txs := by
  rw [getJournal, getJournal, Store.get_congr h]

/-- Reading the tips looks at the slot of the tips alone. -/
lemma getTips_congr (h : s.find? tipSlot = t.find? tipSlot) : getTips s = getTips t := by
  rw [getTips, getTips, Store.get_congr h]

/-- The record that a command reads. -/
def Command.fetched : Command → Option Subject
  | getCoin o => some (.coin o)
  | getJournal block _ => some (.journal block)
  | getTips => some .tips
  | _ => none

/-- The reply to reading a record, its log entries included, depends on what its slot holds alone. -/
lemma Command.reply_congr {c : Command} {x : Subject} (h : c.fetched = some x)
    (hfind : s.find? x.slot = t.find? x.slot) : (run s c).1 = (run t c).1 := by
  cases c with
  | getCoin o =>
    cases h
    rw [run, run, getCoin_congr hfind]
    rfl
  | getJournal block txs =>
    cases h
    rw [run, run, getJournal_congr hfind]
    rfl
  | getTips =>
    cases h
    rw [run, run, getTips_congr hfind]
    rfl
  | _ => cases h

end Reading

/-! ## Isolation -/

open Command (runAll run)

/-- Commands that do not touch the slot of a record do not show when the record is read. -/
lemma reply_runAll_of_not_touches {x : Subject} {c : Command} (hc : c.fetched = some x)
    {history : List Command} (h : ∀ c' ∈ history, ¬ c'.Touches x.slot) (s : Store) :
    (run (runAll s history) c).1 = (run s c).1 :=
  Command.reply_congr hc (Command.find?_runAll_of_not_touches h s)

/-- Whatever is done to the slot of one record, the slot of another one is not touched. -/
lemma not_touches_of_ne {x y : Subject} (hne : x ≠ y) {damage : List Command}
    (h : ∀ c ∈ damage, ∀ slot, c.Touches slot → slot = x.slot) :
    ∀ c ∈ damage, ¬ c.Touches y.slot := by
  intro c hc htouches
  exact hne (Subject.slot_injective (h c hc y.slot htouches).symm)

/-- The commands of a history on `start`, which has become `s`, are isolated from each other. -/
structure Isolated (start : Store) (history : List Command) (s : Store) : Prop where
  /-- The next command changes no value but the one in the slot that it touches. -/
  find?_run : ∀ c slot, ¬ c.Touches slot → (run s c).2.find? slot = s.find? slot
  /-- A command that reads, and a journal that cannot be written, changes nothing. -/
  run_of_change_eq_none : ∀ c, c.change = none → (run s c).2 = s
  /-- A command that fails changes nothing. -/
  run_of_error : ∀ c e, (run s c).1.outcome = .error e → (run s c).2 = s
  /-- Each slot has the value that was written there last, unless it has been erased since. -/
  get_eq_ok_iff : ∀ slot value, s.get slot = .ok value ↔ Command.Remains start history slot value
  /-- A slot contains a value if reading it succeeds. -/
  contains_iff : ∀ slot, s.contains slot = true ↔ ∃ value, s.get slot = .ok value
  /-- The size of a bucket is the number of keys for which reading succeeds. -/
  size_eq : ∀ bucket, {key | ∃ value, s.get ⟨bucket, key⟩ = .ok value}.encard = s.size bucket
  /-- Commands that do not touch the slot of a record do not change the reply to reading it. -/
  reply_of_not_touches : ∀ (x : Subject) c, c.fetched = some x → ∀ later : List Command,
    (∀ c' ∈ later, ¬ c'.Touches x.slot) → (run (runAll s later) c).1 = (run s c).1
  /-- Damage to one record does not change the reply to reading another one. -/
  reply_of_damage : ∀ x y : Subject, x ≠ y → ∀ c, c.fetched = some y → ∀ damage : List Command,
    (∀ c' ∈ damage, ∀ slot, c'.Touches slot → slot = x.slot) →
      (run (runAll s damage) c).1 = (run s c).1

/-- At each point of a history that mixes operations of the ledger with accesses to the store beneath it,
the commands are isolated from each other. -/
theorem isolated_runAll (start : Store) (history : List Command) :
    Isolated start history (runAll start history) := by
  constructor
  · intro c slot hc
    exact Command.find?_run_of_not_touches hc _
  · intro c hc
    exact Command.run_of_change_eq_none hc _
  · intro c e herror
    exact Command.run_of_error herror
  · intro slot value
    rw [Store.get_eq_ok_iff, Command.find?_runAll_eq_some_iff]
  · intro slot
    rw [Store.contains_eq_isSome, Store.exists_get_eq_ok_iff]
  · intro bucket
    simp only [Store.exists_get_eq_ok_iff]
    exact Store.encard_keys _ bucket
  · intro x c hc later hlater
    exact reply_runAll_of_not_touches hc hlater _
  · intro x y hne c hc damage hdamage
    exact reply_runAll_of_not_touches hc (not_touches_of_ne hne hdamage) _

/-- A coin that is worth nothing. -/
def emptyCoin : Coin := ⟨⟨0, false⟩, ⟨0, []⟩⟩

/-- A history that writes two coins and damages the second one beneath the ledger, is refused a journal,
erases a key that is not there, and replaces the tips. -/
def mixedHistory : List Command :=
  [.insertCoin ⟨Hash.zero, 0⟩ emptyCoin, .insertCoin ⟨Hash.zero, 1⟩ emptyCoin,
    .write (coinSlot ⟨Hash.zero, 1⟩) [15], .insertJournal Hash.zero ⟨[]⟩ [.withInputs 1],
    .erase (coinSlot ⟨Hash.zero, 2⟩), .setTips [], .setTips [Hash.zero]]

/-- The damaged coin has its last value, the refused journal has none, both coins are counted, and the
other coin is read whatever becomes of the damaged one. -/
theorem isolated_mixedHistory :
    (runAll Store.empty mixedHistory).get (coinSlot ⟨Hash.zero, 1⟩) = .ok [15] ∧
    (∀ value, (runAll Store.empty mixedHistory).get (journalSlot Hash.zero) ≠ .ok value) ∧
    {key | ∃ value, (runAll Store.empty mixedHistory).get ⟨coinBucket, key⟩ = .ok value}.encard = 2 ∧
    ∀ value, (run (runAll (runAll Store.empty mixedHistory) [.write (coinSlot ⟨Hash.zero, 1⟩) value])
      (.getCoin ⟨Hash.zero, 0⟩)).1.outcome = .ok (.coin emptyCoin) := by
  have h := isolated_runAll Store.empty mixedHistory
  have hrefused : ∀ c ∈ mixedHistory, ¬ c.Touches (journalSlot Hash.zero) := by decide
  have hsize : (runAll Store.empty mixedHistory).size coinBucket = 2 := by decide
  refine ⟨(h.get_eq_ok_iff _ _).mpr (Or.inl ⟨mixedHistory.take 2, _, mixedHistory.drop 3, rfl, rfl,
    by decide⟩), ?_, ?_, ?_⟩
  · intro value hget
    rcases (h.get_eq_ok_iff _ _).mp hget with ⟨before, c, after, hhistory, hchange, -⟩ | ⟨hstart, -⟩
    · have hc : c ∈ mixedHistory := by
        rw [hhistory]
        exact List.mem_append_right before List.mem_cons_self
      exact hrefused c hc (Command.touches_iff.mpr ⟨_, hchange⟩)
    · cases hstart
  · rw [h.size_eq, hsize]
    rfl
  · intro value
    have hread : (run (runAll Store.empty mixedHistory) (.getCoin ⟨Hash.zero, 0⟩)).1.outcome =
        .ok (.coin emptyCoin) := by
      decide
    rw [h.reply_of_damage (.coin ⟨Hash.zero, 1⟩) (.coin ⟨Hash.zero, 0⟩) (by simp) _ rfl]
    · exact hread
    · intro c hc slot htouches
      rw [List.mem_singleton.mp hc] at htouches
      exact (Option.some.inj htouches).symm

end Ledger

end CoinLedger
