import Mathlib
import CoinLedger.Log.Session
import CoinLedger.Log.Traced

/-!
# Outcomes and the log

What a decoder leaves in the log has no influence on its outcome, and is there for finding faults only
(`debugOnly_decoder`).  An entry below the level of a session changes nothing of the session
(`Session.log_of_rank_lt`).
-/

namespace CoinLedger.Log

/-! ## What a decoder leaves -/

namespace Traced

variable {α : Type}

@[simp] lemma outcome_ofOutcome (outcome : Except Error α) :
    (ofOutcome outcome).outcome = outcome := by
  cases outcome <;> rfl

/-- An entry in the log does not change the outcome. -/
@[simp] lemma outcome_onError (t : Traced α) (entry : Error → Entry) :
    (t.onError entry).outcome = t.outcome := by
  unfold onError
  split <;> rfl

/-- All entries are there for finding faults. -/
def DebugOnly (t : Traced α) : Prop := ∀ entry ∈ t.entries, entry.level = .debug

end Traced

lemma level_of_mem_faultEntries {fault : Fault} {entry : Entry} (h : entry ∈ faultEntries fault) :
    entry.level = .debug := by
  unfold faultEntries at h
  split at h
  · rw [List.mem_singleton.mp h]
    rfl
  · rcases List.mem_cons.mp h with rfl | h
    · rfl
    · rw [List.mem_singleton.mp h]
      rfl
  · exact absurd h List.not_mem_nil

/-- A decoder leaves nothing but entries for finding faults. -/
lemma debugOnly_decoder {α : Type} (outcome : Except Error α) (category : Categories)
    (decoder : String) :
    ((Traced.ofOutcome outcome).onError (decoderEntry category decoder)).DebugOnly := by
  cases outcome with
  | ok a => exact List.forall_mem_nil _
  | error e =>
    intro entry hentry
    rcases List.mem_append.mp hentry with hfault | hdecoder
    · exact level_of_mem_faultEntries hfault
    · rw [List.mem_singleton.mp hdecoder]
      rfl

/-! ## Entries that are dropped -/

namespace Session

/-- An entry below the level of the session is dropped. -/
lemma log_of_rank_lt {s : Session} {e : Entry} (h : e.level.rank < s.logger.level.rank) :
    s.log e = s := by
  have hadmits : s.logger.admits e.level e.category = false := by
    rw [Logger.admits, decide_eq_false (not_le.mpr h), Bool.false_and, Bool.false_and]
  rw [log, hadmits]
  exact if_neg Bool.false_ne_true

lemma logAll_of_rank_lt {s : Session} {entries : List Entry}
    (h : ∀ e ∈ entries, e.level.rank < s.logger.level.rank) : s.logAll entries = s := by
  induction entries with
  | nil => rfl
  | cons e entries ih =>
    obtain ⟨he, hentries⟩ := List.forall_mem_cons.mp h
    rw [logAll, List.foldl_cons, log_of_rank_lt he]
    exact ih hentries

end Session

end CoinLedger.Log
