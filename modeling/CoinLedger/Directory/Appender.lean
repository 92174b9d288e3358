import CoinLedger.Directory

/-!
# Files that are open for appending

What is written to an `Appender` gathers there.  It reaches the file when the appender is
flushed, or as soon as it fills the capacity; until then a reader of the file does not see it.
-/

namespace CoinLedger

/-- A file that is open for appending. -/
structure Appender where
  /-- Its name. -/
  name : Text
  /-- What has not reached the file yet. -/
  pending : Text
  deriving DecidableEq

namespace Appender

/-- The length from which on text does not wait any longer. -/
def capacity : Nat := 8191

/-- Opens the file that a path leads to, creating it if need be: the appender and the directory
afterwards. -/
def open? (d : Directory) (path : Text) : Option (Appender × Directory) :=
  (d.writable? path).map (fun name => (⟨name, []⟩, d.append name []))

/-- Passes on to the file what waits for it. -/
def flush (a : Appender) (d : Directory) : Appender × Directory :=
  (⟨a.name, []⟩, d.append a.name a.pending)

/-- Writes a text, which waits unless it fills the capacity together with what waits already. -/
def write (a : Appender) (t : Text) (d : Directory) : Appender × Directory :=
  let next : Appender := ⟨a.name, a.pending ++ t⟩
  if next.pending.length < capacity then (next, d) else next.flush d

/-- The name of the file does not change. -/
@[simp] theorem name_flush (a : Appender) (d : Directory) : (a.flush d).1.name = a.name := rfl

/-- The name of the file does not change. -/
@[simp] theorem name_write (a : Appender) (t : Text) (d : Directory) :
    (a.write t d).1.name = a.name := by
  simp only [write]
  split <;> rfl

end Appender

end CoinLedger
