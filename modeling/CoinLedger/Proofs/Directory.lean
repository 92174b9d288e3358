import Mathlib
import CoinLedger.Directory.Appender

/-!
# Writing to the working directory

What is written to one file is not seen in another one (`find?_append`).  A path is walked through folders
alone, so what it leads to does not depend on the files, and writing to them changes nothing about it
(`resolve?_append`).

`Appender.text` is what a file holds once everything that waits in an appender has been passed on.
Opening an appender and passing on what waits there change no such text, and what is written to it is
added to the text of its file alone (`Appender.text_write`).
-/

namespace CoinLedger

namespace Directory

/-! ## Contents -/

/-- What is written to a file is not seen in another one. -/
lemma find?_write_of_ne {name other : Text} (h : other ≠ name) (d : Directory) (content : Text) :
    (d.write name content).find? other = d.find? other := by
  have hothers : ∀ files : List (Text × Text),
      (files.filter fun file => !decide (file.1 = name)).lookup other = files.lookup other := by
    intro files
    induction files with
    | nil => rfl
    | cons file files ih =>
      obtain ⟨first, kept⟩ := file
      by_cases hfirst : first = name
      · have hother : (other == first) = false := beq_eq_false_iff_ne.mpr (hfirst ▸ h)
        simpa [hfirst, List.lookup_cons, hfirst ▸ hother] using ih
      · simp [hfirst, List.lookup_cons, ih]
  have hname : (other == name) = false := beq_eq_false_iff_ne.mpr h
  simp [find?, write, List.lookup_cons, hname, hothers]

/-- Text that is appended to a file is seen there and nowhere else. -/
lemma find?_append (d : Directory) (name text other : Text) :
    (d.append name text).find? other =
      if other = name then some ((d.find? name).getD [] ++ text) else d.find? other := by
  unfold append
  split
  next h => rw [h, find?_write]
  next h => exact find?_write_of_ne h d _

lemma isSome_find?_append (d : Directory) (name text other : Text) :
    ((d.append name text).find? other).isSome ↔ other = name ∨ (d.find? other).isSome := by
  rw [find?_append]
  split
  next h => simp [h]
  next h => simp [h]

/-! ## Paths -/

/-- The folder to which components lead does not depend on the files. -/
lemma walk?_withFiles (d : Directory) (files : List (Text × Text)) (place : Location) (parts : List Text) :
    { d with files := files }.walk? place parts = d.walk? place parts := by
  induction parts generalizing place with
  | nil => rfl
  | cons component parts ih =>
    rw [walk?, walk?]
    simp only [ih]
    rfl

/-- What a path leads to does not depend on the files. -/
lemma resolve?_withFiles (d : Directory) (files : List (Text × Text)) (path : Text) :
    { d with files := files }.resolve? path = d.resolve? path := by
  rw [resolve?, resolve?]
  simp only [walk?_withFiles]
  rfl

/-- Writing to a file changes nothing about where paths lead. -/
lemma resolve?_append (d : Directory) (name text path : Text) :
    (d.append name text).resolve? path = d.resolve? path :=
  resolve?_withFiles d _ path

lemma writable?_eq_some_iff {d : Directory} {path name : Text} :
    d.writable? path = some name ↔ d.resolve? path = some (.file name) := by
  unfold writable?
  split
  next other h => simp [h]
  next h => simp [h]
  next h => simp [h]

/-- Two directories have the same files, and paths lead to the same in them. -/
structure SameFiles (d d' : Directory) : Prop where
  /-- The files are the same ones. -/
  isSome_find? : ∀ name, (d'.find? name).isSome ↔ (d.find? name).isSome
  /-- Paths lead to the same. -/
  resolve?_eq : ∀ path, d'.resolve? path = d.resolve? path

lemma SameFiles.refl (d : Directory) : SameFiles d d := ⟨fun _ => Iff.rfl, fun _ => rfl⟩

lemma SameFiles.trans {d d' d'' : Directory} (h : SameFiles d d') (h' : SameFiles d' d'') :
    SameFiles d d'' :=
  ⟨fun name => (h'.isSome_find? name).trans (h.isSome_find? name),
    fun path => (h'.resolve?_eq path).trans (h.resolve?_eq path)⟩

/-- The same files can be opened by the same paths. -/
lemma SameFiles.writable?_eq {d d' : Directory} (h : SameFiles d d') (path : Text) :
    d'.writable? path = d.writable? path := by
  rw [writable?, h.resolve?_eq, writable?]

/-- Appending to a file that is there leaves the files the same ones. -/
lemma sameFiles_append {d : Directory} {name : Text} (h : (d.find? name).isSome) (text : Text) :
    SameFiles d (d.append name text) := by
  refine ⟨fun other => ?_, resolve?_append d name text⟩
  rw [isSome_find?_append]
  constructor
  · rintro (rfl | hother)
    · exact h
    · exact hother
  · exact Or.inr

end Directory

namespace Appender

/-! ## Files that are open for appending -/

/-- The text of a file, with what waits for it in an appender. -/
def text (a : Appender) (d : Directory) (name : Text) : Text :=
  (d.find? name).getD [] ++ if a.name = name then a.pending else []

/-- What waits for a file is a part of its text already. -/
lemma text_flush (a : Appender) (d : Directory) (name : Text) :
    (a.flush d).1.text (a.flush d).2 name = a.text d name := by
  simp only [text, flush, Directory.find?_append, @eq_comm _ a.name]
  split
  next h => simp [h]
  next h => simp

/-- What is written is added to the text of the file of the appender, whether it waits or not. -/
lemma text_write (a : Appender) (t : Text) (d : Directory) (name : Text) :
    (a.write t d).1.text (a.write t d).2 name =
      a.text d name ++ if a.name = name then t else [] := by
  have hwaits : (⟨a.name, a.pending ++ t⟩ : Appender).text d name =
      a.text d name ++ if a.name = name then t else [] := by
    unfold text
    split <;> simp
  simp only [write]
  split
  next => exact hwaits
  next => rw [text_flush, hwaits]

/-- Opening a file shows the texts that are there. -/
lemma text_append_nil (d : Directory) (opened name : Text) :
    (⟨opened, []⟩ : Appender).text (d.append opened []) name = (d.find? name).getD [] := by
  unfold text
  rw [Directory.find?_append]
  split
  next h => simp [h]
  next => simp

lemma sameFiles_flush {a : Appender} {d : Directory} (h : (d.find? a.name).isSome) :
    d.SameFiles (a.flush d).2 :=
  Directory.sameFiles_append h _

lemma sameFiles_write {a : Appender} {d : Directory} (h : (d.find? a.name).isSome) (t : Text) :
    d.SameFiles (a.write t d).2 := by
  simp only [write]
  split
  next => exact .refl d
  next => exact Directory.sameFiles_append h _

end Appender

end CoinLedger
