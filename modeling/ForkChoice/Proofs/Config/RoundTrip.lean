import ForkChoice.Config.Writer
import ForkChoice.Proofs.Config.Reader

/-!
# Writing and reading

What is written of a timing is read back, but for what is left of a second. All that is read is in
whole seconds, so what was read once can be written and read again without a change.

* `readTiming_write`: what is written is read back in whole seconds.
* `read_round_trips`: timings in whole seconds are written and read without a change.
-/

namespace ForkChoice

open Timing (Field)

namespace Timing

/-- The timing without what is left of a second. -/
def whole (timing : Timing) : Timing where
  wall := timing.wall.whole
  sight := timing.sight.whole
  early := timing.early.whole
  expiry := timing.expiry.whole
  freshness := timing.freshness.whole

theorem get_whole (timing : Timing) (f : Field) : timing.whole.get f = (timing.get f).whole := by
  cases f
  all_goals rfl

theorem InSeconds.whole_eq {timing : Timing} (h : timing.InSeconds) : timing.whole = timing :=
  ext_get fun f => (get_whole timing f).trans (Duration.whole_eq (h f))

end Timing

namespace Config

variable {timing found : Timing} {opened fields : List Field} {f : Field} {cs rest : List Char}

/-! ## Reading it -/

theorem skipBlanks_writeField (timing : Timing) (f : Field) (rest : List Char) :
    skipBlanks ((writeField timing f).toList ++ rest) = '"' :: (f.key.toList ++ '"' :: ':' ::
      (Nat.toDigits 10 (timing.get f).seconds ++ rest)) := by
  rw [writeField_append]
  exact skipBlanks_cons rfl

theorem endsInteger_moreEntries (timing : Timing) (fields : List Field) (rest : List Char) :
    EndsInteger (moreEntries timing fields ++ '\x7d' :: rest) := by
  cases fields with
  | nil => exact endsInteger_cons (by decide)
  | cons f fields => exact endsInteger_cons (by decide)

/-- An entry is read as it was written, in whole seconds. -/
theorem readQuote_writeField (hf : f ∈ opened) (hrest : EndsInteger rest) :
    (readQuote ((writeField timing f).toList ++ rest) >>= readEntry opened found) =
      readMoreEntries (opened.erase f) (found.set (timing.get f).whole f) rest := by
  rw [readQuote, skipBlanks_writeField]
  exact readEntry_key hf (skipBlanks_cons rfl) skipBlanks_toDigits (timing.get f).seconds_lt hrest

/-- The entries behind the first one are read in order. -/
theorem readMoreEntries_moreEntries (hnodup : fields.Nodup) (hfields : ∀ f ∈ fields, f ∈ opened) :
    readMoreEntries opened found (moreEntries timing fields ++ '\x7d' :: rest) =
      .ok (fields.foldl (fun found f => found.set (timing.get f).whole f) found, rest) := by
  induction fields generalizing opened found with
  | nil => exact readMoreEntries_close (skipBlanks_cons rfl)
  | cons f fields ih =>
    obtain ⟨hf, hfields⟩ := List.forall_mem_cons.mp hfields
    obtain ⟨hnew, hnodup⟩ := List.nodup_cons.mp hnodup
    have hopened : ∀ g ∈ fields, g ∈ opened.erase f := by
      intro g hg
      have hne : g ≠ f := by
        rintro rfl
        exact hnew hg
      exact (List.mem_erase_of_ne hne).mpr (hfields g hg)
    have hcomma : skipBlanks (moreEntries timing (f :: fields) ++ '\x7d' :: rest) = ',' ::
        ((writeField timing f).toList ++ (moreEntries timing fields ++ '\x7d' :: rest)) := by
      rw [moreEntries, List.flatMap_cons, List.append_assoc]
      exact skipBlanks_cons rfl
    rw [readMoreEntries_comma hcomma,
      readQuote_writeField hf (endsInteger_moreEntries timing fields rest), ih hnodup hopened]
    rfl

/-- What is written of a timing is read back, but for what is left of a second. -/
theorem readTiming_write (timing : Timing) : readTiming (write timing) = .ok timing.whole := by
  have hopen : skipBlanks (write timing).toList = '\x7b' :: ((writeField timing .wall).toList ++
      (moreEntries timing (Field.all.drop 1) ++ ['\x7d'])) := by
    rw [toList_write]
    exact skipBlanks_cons rfl
  have hlater : ∀ f ∈ Field.all.drop 1, f ∈ Field.all.erase .wall := fun _ => id
  rw [readTiming_map hopen, readMap_quote (skipBlanks_writeField timing .wall _),
    readQuote_writeField Field.wall.mem_all (endsInteger_moreEntries timing _ []),
    readMoreEntries_moreEntries (by decide) hlater]
  rfl

theorem read_write (hcheck : timing.check = .ok timing) (h : timing.InSeconds) :
    read (write timing) = .ok timing := by
  rw [read_eq_ok, readTiming_write, h.whole_eq]
  exact ⟨rfl, hcheck⟩

/-- A timing without flaws is written and read without a change, if it is in whole seconds. And what
is read from any text has no flaw, is in whole seconds, and stays the same when it is written and
read again. -/
theorem read_round_trips :
    (∀ timing : Timing, timing.check = .ok timing → timing.InSeconds →
      read (write timing) = .ok timing) ∧
    ∀ text timing, read text = .ok timing →
      timing.check = .ok timing ∧ timing.InSeconds ∧ read (write timing) = .ok timing := by
  refine ⟨fun timing => read_write, fun text timing hread => ?_⟩
  obtain ⟨htiming, hcheck⟩ := read_eq_ok.mp hread
  have hseconds := reads_readTiming text timing htiming
  exact ⟨hcheck, hseconds, read_write hcheck hseconds⟩

/-- A list of two durations becomes a map of five. -/
theorem read_round_trips_list :
    ∃ timing : Timing, timing.wall = .ofSeconds 400 ∧ timing.sight = .ofSeconds 200 ∧
      read " [400, 200] " = .ok timing ∧ timing.check = .ok timing ∧ timing.InSeconds ∧
      read (write timing) = .ok timing := by
  have hread : read " [400, 200] " = .ok { wall := .ofSeconds 400, sight := .ofSeconds 200 } := rfl
  obtain ⟨hcheck, hseconds, -⟩ := read_round_trips.2 _ _ hread
  exact ⟨_, rfl, rfl, hread, hcheck, hseconds, read_round_trips.1 _ hcheck hseconds⟩

end Config

end ForkChoice
