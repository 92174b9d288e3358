import Mathlib
import CoinLedger.Proofs.Log.Sinks
import CoinLedger.Proofs.Settings.Arguments

/-!
# Settings given by lines

A line of a file gives the setting that it is split into.  A text that is split has the key in front of its
first equals sign and the value behind it, both trimmed (`split_append_cons`), so it does not matter whether
the text is trimmed before it is split, as a line is, or only afterwards, as an argument is (`split_trim`).

`argument_and_line_alike`: an argument and the only line of a file give the same setting if they have the
same text.
-/

namespace CoinLedger.Settings

open Log (Session)
open Text (newline ofString trim)

/-! ## Keys and values -/

/-- The key stands in front of the first equals sign and the value behind it. -/
lemma split_append_cons {key : Text} (h : equalsSign ∉ key) (value : Text) :
    split (key ++ equalsSign :: value) = (trim key, trim value) := by
  rw [split, cut?_append_cons h]

/-- A key without an equals sign is switched on. -/
lemma split_of_notMem {t : Text} (h : equalsSign ∉ t) : split t = (trim t, ofString "1") := by
  rw [split, Text.cut?, if_neg h]

lemma equalsSign_notMem_of_blank {t : Text} (h : Text.Blank t) : equalsSign ∉ t :=
  fun hmem => absurd (h equalsSign hmem) (by decide)

/-- White space around a text does not matter to the setting in it. -/
theorem split_trim (t : Text) : split (trim t) = split t := by
  obtain ⟨front, back, hfront, hback, ht⟩ := Text.exists_eq_append_trim t
  by_cases hequals : equalsSign ∈ trim t
  · obtain ⟨key, value, hsplit, hkey⟩ := List.eq_append_cons_of_mem hequals
    have hkey' : equalsSign ∉ front ++ key := by
      rw [List.mem_append]
      exact not_or_intro (equalsSign_notMem_of_blank hfront) hkey
    have ht' : t = (front ++ key) ++ equalsSign :: (value ++ back) := by
      rw [ht, hsplit]
      simp
    rw [hsplit, split_append_cons hkey, ht', split_append_cons hkey',
      Text.trim_append_of_blank_front hfront, Text.trim_append_of_blank_back hback]
  · have hequals' : equalsSign ∉ t := by
      rw [ht, List.mem_append, List.mem_append]
      exact not_or_intro (not_or_intro (equalsSign_notMem_of_blank hfront) hequals)
        (equalsSign_notMem_of_blank hback)
    rw [split_of_notMem hequals, split_of_notMem hequals', Text.trim_trim]

/-- There is a key in a text that has something in front of an equals sign. -/
lemma key_split_ne_nil {t : Text} (hne : trim t ≠ []) (hkey : (trim t).head? ≠ some equalsSign) :
    (split t).1 ≠ [] := by
  obtain ⟨b, rest, ht⟩ := List.exists_cons_of_ne_nil hne
  have hb : Text.isSpace b = false := Text.isSpace_of_trim_eq_cons ht
  rw [← split_trim, ht]
  by_cases hequals : equalsSign ∈ b :: rest
  · obtain ⟨key, value, hsplit, hfree⟩ := List.eq_append_cons_of_mem hequals
    -- The first byte is no equals sign, so it belongs to the key.
    cases key with
    | nil => exact absurd (by rw [ht, hsplit]; rfl) hkey
    | cons c key =>
      obtain ⟨rfl, -⟩ := List.cons.inj hsplit
      rw [hsplit, split_append_cons hfree]
      exact Text.trim_ne_nil List.mem_cons_self hb
  · rw [split_of_notMem hequals]
    exact Text.trim_ne_nil List.mem_cons_self hb

/-! ## One argument, one line -/

lemma readArguments_singleton {argument : Text} (h : argument.head? = some dash) (s : Settings) :
    s.readArguments [argument] =
      ({ s with arguments := s.arguments ++ [split (dropDashes argument)] }, .ok ()) := by
  have hne : argument ≠ [] := by
    rintro rfl
    cases h
  have hargument : ofArgument argument = .ok (some (split (dropDashes argument))) := by
    rw [ofArgument, if_neg hne, if_pos h]
  rw [readArguments, hargument]
  rfl

/-- A line gives its setting unless it is empty, a comment or has no key. -/
lemma ofLine_of_key {line : Text} (hne : trim line ≠ []) (hcomment : (trim line).head? ≠ some hashSign)
    (hkey : (trim line).head? ≠ some equalsSign) (path : Text) (number : ℕ) :
    ofLine path number line = .ok (some (split line)) := by
  rw [ofLine, if_neg (not_or_intro hne hcomment), split_trim, if_neg (key_split_ne_nil hne hkey)]

/-! ## A file with one line -/

/-- The file that a path leads to has one line, whether a line break ends it or not, and still has no other
when it is read, behind the entry for it in the log. -/
def HasOnlyLine (session : Session) (path line : Text) : Prop :=
  ∃ content ∈ [line, line ++ [newline]],
    session.directory.read? path = some content ∧
      (session.log (loadingEntry path)).directory.read? path = some content

/-- What a path leads to is read as before behind the entry for it in the log, unless it is the log
file. -/
lemma read?_log {session : Session} {path : Text} (hsound : session.Sound)
    (hlog : ∀ name, session.directory.writable? path = some name → session.switches.file ≠ some name) :
    (session.log (loadingEntry path)).directory.read? path = session.directory.read? path := by
  rw [Session.log_eq hsound]
  split
  next =>
    have hresolve := (Session.setAlike_write (loadingEntry path) hsound).files.resolve?_eq path
    rw [Directory.read?, Directory.read?, hresolve]
    cases htarget : session.directory.resolve? path with
    | none => rfl
    | some target =>
      cases target with
      | folder => rfl
      | file name =>
        exact Session.find?_write _ hsound (hlog name (Directory.writable?_eq_some_iff.mpr htarget))
  next => rfl

/-- A file with one line still has no other when it is read, unless it is the log file. -/
lemma hasOnlyLine_of_read? {session : Session} {path line content : Text} (hsound : session.Sound)
    (hread : session.directory.read? path = some content)
    (hcontent : content ∈ [line, line ++ [newline]])
    (hlog : ∀ name, session.directory.writable? path = some name → session.switches.file ≠ some name) :
    HasOnlyLine session path line :=
  ⟨content, hcontent, hread, (read?_log hsound hlog).trans hread⟩

/-- The only line of a file gives the setting of the file. -/
lemma load_of_hasOnlyLine {session : Session} {path line : Text} (h : HasOnlyLine session path line)
    (hline : newline ∉ line) (hne : trim line ≠ []) (hcomment : (trim line).head? ≠ some hashSign)
    (hkey : (trim line).head? ≠ some equalsSign) (s : Settings) :
    (s.load session path).2 = ({ s with file := s.file ++ [split line] }, .ok ()) := by
  obtain ⟨content, hcontent, hbefore, hread⟩ := h
  have hnonempty : line ≠ [] := by
    rintro rfl
    exact hne rfl
  have hlines : Text.lines content = [line] := by
    obtain ⟨hopen, hended⟩ := Text.lines_of_notMem hline hnonempty
    rcases List.mem_pair.mp hcontent with rfl | rfl
    · exact hopen
    · exact hended
  have houtcomes : fileOutcomes session path = [.ok (some (split line))] := by
    rw [fileOutcomes, hread, Option.getD_some, hlines, lineOutcomes]
    exact congrArg (fun outcome => [outcome]) (ofLine_of_key hne hcomment hkey path 1)
  rw [load_of_some hbefore, houtcomes]
  rfl

/-- An argument and the only line of a file give the same setting if they have the same text, whatever
white space it has: the key in front of the first equals sign and all that is behind it as the value, both
trimmed, or the trimmed text as a key that is switched on.  The text has a key if it is not blank and does
not begin with an equals sign, apart from white space. -/
theorem argument_and_line_alike {t : Text} (hline : newline ∉ t) (hne : trim t ≠ [])
    (hcomment : (trim t).head? ≠ some hashSign) (hkey : (trim t).head? ≠ some equalsSign) :
    (∀ s : Settings, s.readArguments [dash :: dash :: t] =
      ({ s with arguments := s.arguments ++ [split t] }, .ok ())) ∧
    (t.head? ≠ some dash → ∀ s : Settings, s.readArguments [dash :: t] =
      ({ s with arguments := s.arguments ++ [split t] }, .ok ())) ∧
    (∀ (s : Settings) (session : Session) (path : Text), HasOnlyLine session path t →
      (s.load session path).2 = ({ s with file := s.file ++ [split t] }, .ok ())) ∧
    (∀ key value, t = key ++ equalsSign :: value → equalsSign ∉ key →
      split t = (trim key, trim value)) ∧
    (equalsSign ∉ t → split t = (trim t, ofString "1")) := by
  refine ⟨?_, ?_, ?_, ?_, split_of_notMem⟩
  · intro s
    exact readArguments_singleton rfl s
  · intro hdash s
    rw [readArguments_singleton rfl, dropDashes_dash_cons hdash]
  · intro s session path hfile
    exact load_of_hasOnlyLine hfile hline hne hcomment hkey s
  · rintro key value rfl hfree
    exact split_append_cons hfree value

/-- A setting with white space everywhere and equals signs in its value. -/
def spacedSetting : Text := ofString "  conf = a == b=\t"

/-- A session with a log file, and a file whose only line is this setting. -/
def spacedSession : Session :=
  (Session.start (Directory.empty.put (ofString "rc") (spacedSetting ++ [newline])) []).setLogFile
    (ofString "log")

/-- As an argument and as the line of a file, this setting gives the same value. -/
theorem spacedSetting_alike :
    (empty.readArguments [dash :: dash :: spacedSetting]).1.arguments =
      [(ofString "conf", ofString "a == b=")] ∧
    (empty.readArguments [dash :: spacedSetting]).1.arguments =
      [(ofString "conf", ofString "a == b=")] ∧
    (empty.load spacedSession (ofString "rc")).2.1.file = [(ofString "conf", ofString "a == b=")] := by
  have hread : spacedSession.directory.read? (ofString "rc") = some (spacedSetting ++ [newline]) := by
    decide +kernel
  have hlog : ∀ name, spacedSession.directory.writable? (ofString "rc") = some name →
      spacedSession.switches.file ≠ some name := by
    intro name hname hfile
    have hdiffers : spacedSession.directory.writable? (ofString "rc") ≠ spacedSession.switches.file := by
      decide +kernel
    exact hdiffers (hname.trans hfile.symm)
  have hfile : HasOnlyLine spacedSession (ofString "rc") spacedSetting :=
    hasOnlyLine_of_read? (Session.sound_setLogFile _ ⟨rfl, nofun⟩) hread (by decide) hlog
  have hsetting : split spacedSetting = (ofString "conf", ofString "a == b=") := by decide
  obtain ⟨hlong, hshort, hload, -⟩ := argument_and_line_alike (t := spacedSetting)
    (by decide) (by decide) (by decide) (by decide)
  rw [hlong, hshort (by decide), hload _ _ _ hfile, hsetting]
  exact ⟨rfl, rfl, rfl⟩

end CoinLedger.Settings
