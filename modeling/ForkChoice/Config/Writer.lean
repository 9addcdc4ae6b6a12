import ForkChoice.Timing

/-!
# Writing configurations

* `write`: a timing by name and in order, each duration in whole seconds; what is left of a second
  is dropped.
* `toList_write`: the same, one entry after the other.
-/

namespace ForkChoice.Config

open Timing (Field)

def writeField (timing : Timing) (f : Field) : String :=
  "\"" ++ f.key ++ "\":" ++ toString (timing.get f).seconds

/-- A timing in one line without blanks. -/
def write (timing : Timing) : String :=
  "\x7b" ++ String.intercalate "," (Field.all.map (writeField timing)) ++ "\x7d"

theorem writeField_append (timing : Timing) (f : Field) (rest : List Char) :
    (writeField timing f).toList ++ rest = '"' :: (f.key.toList ++ '"' :: ':' ::
      (Nat.toDigits 10 (timing.get f).seconds ++ rest)) := by
  have hopen : "\"".toList = ['"'] := rfl
  have hclose : "\":".toList = ['"', ':'] := rfl
  simp only [writeField, String.toList_append, Nat.toString_eq_repr, Nat.toList_repr, hopen, hclose,
    List.append_assoc, List.cons_append, List.nil_append]

/-- The entries of a map behind the first one, with a comma in front of each. -/
def moreEntries (timing : Timing) (fields : List Field) : List Char :=
  fields.flatMap fun f => ',' :: (writeField timing f).toList

theorem intercalate_cons {α : Type} (sep x : List α) (xs : List (List α)) :
    sep.intercalate (x :: xs) = x ++ xs.flatMap (sep ++ ·) := by
  induction xs generalizing x with
  | nil => simp
  | cons y ys ih =>
    rw [List.intercalate_cons_cons, ih, List.flatMap_cons, List.append_assoc, List.append_assoc]

/-- A map is written as its first entry and the others with a comma in front of each. -/
theorem toList_write (timing : Timing) : (write timing).toList =
    '\x7b' :: ((writeField timing .wall).toList ++
      (moreEntries timing (Field.all.drop 1) ++ ['\x7d'])) := by
  have hopen : "\x7b".toList = ['\x7b'] := rfl
  have hclose : "\x7d".toList = ['\x7d'] := rfl
  have hcomma : ",".toList = [','] := rfl
  have hall : Field.all.map (writeField timing) =
      writeField timing .wall :: (Field.all.drop 1).map (writeField timing) := rfl
  rw [write, hall]
  simp only [String.toList_append, String.toList_intercalate, hopen, hclose, hcomma, List.map_cons,
    intercalate_cons, moreEntries, List.flatMap_map, List.append_assoc, List.cons_append,
    List.nil_append]

end ForkChoice.Config
