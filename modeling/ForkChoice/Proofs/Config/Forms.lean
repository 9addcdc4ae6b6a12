import ForkChoice.Proofs.Config.Layout

/-!
# The forms of a configuration

* `Timing.assign`: a timing with some durations replaced by numbers of seconds.
* `readQuote_entries`, `readSeconds_values`: what a map and a list give, in any layout.
* `comes_readQuote_entries`: a map with an unknown or repeated key is rejected.
* `read_forms`: all texts with the same numbers for the same fields are read alike.
-/

namespace ForkChoice

open Config (seconds)

namespace Timing

variable {timing : Timing} {entries : List (Field × UInt64)} {f : Field} {n : UInt64}

/-- A timing with some durations replaced by numbers of seconds, one after the other. -/
def setAll (timing : Timing) (entries : List (Field × UInt64)) : Timing :=
  entries.foldl (fun timing e => timing.set (seconds e.2) e.1) timing

/-- A timing, but for the fields that have a number of seconds. -/
def assign (timing : Timing) (value : Field → Option UInt64) : Timing :=
  let duration (f : Field) := ((value f).map seconds).getD (timing.get f)
  { wall := duration .wall
    sight := duration .sight
    early := duration .early
    expiry := duration .expiry
    freshness := duration .freshness }

theorem get_assign (timing : Timing) (value : Field → Option UInt64) (f : Field) :
    (timing.assign value).get f = ((value f).map seconds).getD (timing.get f) := by
  cases f
  all_goals rfl

theorem setAll_cons (e : Field × UInt64) :
    timing.setAll (e :: entries) = (timing.set (seconds e.2) e.1).setAll entries := rfl

theorem get_setAll_of_notMem (h : f ∉ entries.map Prod.fst) :
    (timing.setAll entries).get f = timing.get f := by
  induction entries generalizing timing with
  | nil => rfl
  | cons e entries ih =>
    rw [List.map_cons, List.mem_cons, not_or] at h
    rw [setAll_cons, ih h.2, get_set, if_neg h.1]

theorem get_setAll_of_mem (hnodup : (entries.map Prod.fst).Nodup) (h : (f, n) ∈ entries) :
    (timing.setAll entries).get f = seconds n := by
  induction entries generalizing timing with
  | nil => cases h
  | cons e entries ih =>
    obtain ⟨hnew, hnodup⟩ := List.nodup_cons.mp hnodup
    rw [setAll_cons]
    rcases List.mem_cons.mp h with rfl | h
    · rw [get_setAll_of_notMem hnew, get_set, if_pos rfl]
    · exact ih hnodup h

/-- The order of the entries does not count. -/
theorem setAll_perm {others : List (Field × UInt64)} (hnodup : (entries.map Prod.fst).Nodup)
    (hperm : entries.Perm others) : timing.setAll entries = timing.setAll others := by
  have hothers : (others.map Prod.fst).Nodup := (hperm.map Prod.fst).nodup_iff.mp hnodup
  refine ext_get fun f => ?_
  by_cases hf : f ∈ entries.map Prod.fst
  · obtain ⟨⟨f, n⟩, he, rfl⟩ := List.mem_map.mp hf
    rw [get_setAll_of_mem hnodup he, get_setAll_of_mem hothers (hperm.mem_iff.mp he)]
  · rw [get_setAll_of_notMem hf,
      get_setAll_of_notMem ((hperm.map Prod.fst).mem_iff.not.mp hf)]

/-- What entries assign, if no field has two. -/
theorem setAll_eq_assign {value : Field → Option UInt64} (hnodup : (entries.map Prod.fst).Nodup)
    (hvalue : ∀ f n, (f, n) ∈ entries ↔ value f = some n) :
    timing.setAll entries = timing.assign value := by
  refine ext_get fun f => ?_
  rw [get_assign]
  cases hf : value f with
  | none =>
    refine get_setAll_of_notMem fun hmem => ?_
    obtain ⟨⟨g, n⟩, he, rfl⟩ := List.mem_map.mp hmem
    rw [(hvalue g n).mp he] at hf
    cases hf
  | some n => exact get_setAll_of_mem hnodup ((hvalue f n).mpr hf)

end Timing

namespace Config

open Timing (Field)

variable {α : Type} {rest text : List Char} {opened fields : List Field} {timing : Timing}
  {f : Field} {entries : List (Field × UInt64)} {values : List UInt64} {names : List String}

/-! ## Maps -/

/-- The entries of a map are read in order. -/
theorem readQuote_entries (h : Commas (fun e => Entry e.1.key (Digits e.2)) entries text)
    (hnodup : (entries.map Prod.fst).Nodup) (hopened : ∀ e ∈ entries, e.1 ∈ opened) :
    (readQuote (text ++ '\x7d' :: rest) >>= readEntry opened timing) =
      .ok (timing.setAll entries, rest) := by
  induction h generalizing opened timing with
  | one h =>
    obtain ⟨w, hw, hread⟩ := readQuote_entry (hopened _ List.mem_cons_self) h
      (endsInteger_cons (c := '\x7d') (by decide))
    rw [hread]
    exact readMoreEntries_close (skipBlanks_append_cons hw rfl _)
  | @more e entries text later h hlater ih =>
    obtain ⟨hf, hopened⟩ := List.forall_mem_cons.mp hopened
    obtain ⟨hnew, hnodup⟩ := List.nodup_cons.mp hnodup
    have hstill : ∀ d ∈ entries, d.1 ∈ opened.erase e.1 := by
      intro d hd
      have hne : d.1 ≠ e.1 := fun heq => hnew (heq ▸ List.mem_map_of_mem hd)
      exact (List.mem_erase_of_ne hne).mpr (hopened d hd)
    obtain ⟨w, hw, hread⟩ := readQuote_entry hf h (endsInteger_cons (c := ',') (by decide))
    rw [List.append_assoc, List.cons_append, hread,
      readMoreEntries_comma (skipBlanks_append_cons hw rfl _)]
    exact ih hnodup hstill

/-- The keys of a map are all open and no two the same, or the map is rejected. -/
theorem comes_readQuote_entries (h : Commas (fun name => Entry name Value) names text)
    (hnodup : opened.Nodup) :
    Comes (readQuote (text ++ '\x7d' :: rest) >>= readEntry opened timing) OfText fun _ =>
      names.Nodup ∧ ∀ name ∈ names, ∃ f ∈ opened, f.key = name := by
  induction h generalizing opened timing with
  | one h =>
    refine comes_readQuote_entry h (endsInteger_cons (by decide)) fun f hf hname timing w hw => ?_
    rw [readMoreEntries_close (skipBlanks_append_cons hw rfl _)]
    exact ⟨List.pairwise_singleton _ _, List.forall_mem_singleton.mpr ⟨f, hf, hname⟩⟩
  | @more name names text later h hlater ih =>
    rw [List.append_assoc, List.cons_append]
    refine comes_readQuote_entry h (endsInteger_cons (by decide)) fun f hf hname timing w hw => ?_
    rw [readMoreEntries_comma (skipBlanks_append_cons hw rfl _)]
    refine (ih (hnodup.erase f)).imp fun _ hothers => ?_
    obtain ⟨hdistinct, hothers⟩ := hothers
    refine ⟨List.nodup_cons.mpr ⟨fun hmem => ?_, hdistinct⟩,
      List.forall_mem_cons.mpr ⟨⟨f, hf, hname⟩, fun other hother => ?_⟩⟩
    · -- the key of a field that is no longer open
      obtain ⟨g, hg, hkey⟩ := hothers name hmem
      rw [eq_of_key (hkey.trans hname.symm)] at hg
      exact hnodup.not_mem_erase hg
    · obtain ⟨g, hg, hkey⟩ := hothers other hother
      exact ⟨g, List.mem_of_mem_erase hg, hkey⟩

/-- Blanks only stand behind a map or list. -/
def finish (found : Timing × List Char) : Except Rejection Timing :=
  if (skipBlanks found.2).isEmpty then .ok found.1 else .error (.broken .malformed)

theorem finish_blank {w : List Char} (hw : Blank w) (timing : Timing) :
    finish (timing, w) = .ok timing := by
  have hnone : skipBlanks w = [] := List.dropWhile_eq_nil_iff.mpr hw
  rw [finish, hnone]
  rfl

/-- The text of a map is read by its entries. -/
theorem readTiming_object {text : String} {key : α → String} {Inner : α → List Char → Prop}
    {xs : List α}
    (h : Padded (Enclosed '\x7b' '\x7d' (fun x => Entry (key x) (Inner x)) xs) text.toList) :
    (xs = [] ∧ readTiming text = .ok {}) ∨
      ∃ inner w, Commas (fun x => Entry (key x) (Inner x)) xs inner ∧ Blank w ∧
        readTiming text =
          (readQuote (inner ++ '\x7d' :: w) >>= readEntry Field.all {}) >>= finish := by
  obtain ⟨inner, w, hw, hopen, ⟨rfl, hinner⟩ | hparts⟩ := h.skipBlanks_enclosed rfl
  · have hmap : readMap (inner ++ '\x7d' :: w) = .ok ({}, w) := by
      rw [readMap, skipBlanks_append_cons hinner rfl]
      rfl
    rw [readTiming_map hopen, hmap]
    exact Or.inl ⟨rfl, finish_blank hw {}⟩
  · obtain ⟨_, rest, hquote, rfl⟩ := hparts.exists_front Entry.exists_quote ('\x7d' :: w)
    rw [readTiming_map hopen, readMap_quote hquote]
    exact Or.inr ⟨inner, w, hparts, hw, rfl⟩

/-- A map in any layout gives its fields their numbers of seconds. -/
theorem readTiming_mapOf {text : String} (h : MapOf entries text.toList)
    (hnodup : (entries.map Prod.fst).Nodup) :
    readTiming text = .ok (Timing.setAll {} entries) := by
  rcases readTiming_object h with ⟨rfl, hread⟩ | ⟨inner, w, hparts, hw, hread⟩
  · exact hread
  · rw [hread, readQuote_entries hparts hnodup fun e _ => e.1.mem_all]
    exact finish_blank hw _

/-- A map is rejected unless its keys are those of fields, and no two the same. -/
theorem comes_readTiming_objectOf {text : String} (h : ObjectOf names text.toList) :
    Comes (readTiming text) OfText fun _ =>
      names.Nodup ∧ ∀ name ∈ names, ∃ f ∈ Field.all, f.key = name := by
  rcases readTiming_object h with ⟨rfl, hread⟩ | ⟨inner, w, hparts, hw, hread⟩
  · rw [hread]
    exact ⟨List.nodup_nil, nofun⟩
  · rw [hread]
    refine (comes_readQuote_entries hparts (by decide)).bind fun found hkeys => ?_
    unfold finish
    split
    · exact hkeys
    · exact True.intro

/-! ## Lists -/

theorem readMoreValues_close {cs : List Char} (h : skipBlanks cs = ']' :: rest) :
    readMoreValues timing fields cs = .ok (timing, rest) := by
  cases fields with
  | nil =>
    rw [readMoreValues, readListEnd, h]
    rfl
  | cons f fields =>
    rw [readMoreValues, h]
    rfl

theorem readMoreValues_comma {cs : List Char} {d : Char} {behind : List Char}
    (h : skipBlanks cs = ',' :: rest) (hdigit : skipBlanks rest = d :: behind)
    (hd : d.isDigit = true) :
    readMoreValues timing (f :: fields) cs = readSeconds rest >>= fun found =>
      readMoreValues (timing.set found.1 f) fields found.2 := by
  simp only [readMoreValues, h]
  split
  · rename_i hclose
    rw [hdigit] at hclose
    obtain ⟨rfl, -⟩ := List.cons.inj hclose
    cases hd
  · rw [readSeconds_skipBlanks]

/-- The values of a list are read in order, if there is room for all. -/
theorem readSeconds_values (h : Commas (fun n => Padded (Digits n)) values text)
    (hroom : values.length ≤ fields.length + 1) :
    (readSeconds (text ++ ']' :: rest) >>= fun found =>
        readMoreValues (timing.set found.1 f) fields found.2) =
      .ok (timing.setAll ((f :: fields).zip values), rest) := by
  induction h generalizing timing f fields with
  | one h =>
    obtain ⟨w, hw, hread⟩ := readSeconds_padded h (endsInteger_cons (c := ']') (by decide))
    rw [hread]
    refine (readMoreValues_close (skipBlanks_append_cons hw rfl _)).trans ?_
    rw [List.zip_cons_cons, List.zip_nil_right]
    rfl
  | @more n values text later h hlater ih =>
    cases fields with
    | nil =>
      cases hlater with
      | one h => exact absurd hroom (by simp)
      | more h hlater => exact absurd hroom (by simp)
    | cons g fields =>
      obtain ⟨w, hw, hread⟩ := readSeconds_padded h (endsInteger_cons (c := ',') (by decide))
      obtain ⟨d, behind, hdigit, hd⟩ := hlater.exists_front Padded.exists_digit (']' :: rest)
      rw [List.append_assoc, List.cons_append, hread]
      refine (readMoreValues_comma (skipBlanks_append_cons hw rfl _) hdigit hd).trans ?_
      exact ih (Nat.le_of_succ_le_succ hroom)

/-- A list of at most as many numbers as there are fields gives them to the fields in order. -/
theorem readTiming_listOf {text : String} (h : ListOf values text.toList)
    (hroom : values.length ≤ Field.all.length) :
    readTiming text = .ok (Timing.setAll {} (Field.all.zip values)) := by
  have hlist {cs : List Char} (h : skipBlanks text.toList = '[' :: cs) :
      readTiming text = readList cs >>= finish := by
    rw [readTiming, h]
    rfl
  obtain ⟨inner, w, hw, hopen, ⟨rfl, hinner⟩ | hparts⟩ := h.skipBlanks_enclosed rfl
  · have hempty : readList (inner ++ ']' :: w) = .ok ({}, w) := by
      rw [readList, skipBlanks_append_cons hinner rfl]
      rfl
    rw [hlist hopen, hempty]
    exact finish_blank hw {}
  · obtain ⟨d, ds, hdigit, hd⟩ := hparts.exists_front Padded.exists_digit (']' :: w)
    have hvalues : readList (inner ++ ']' :: w) =
        .ok (Timing.setAll {} (Field.all.zip values), w) := by
      rw [readList]
      split
      · rename_i hclose
        rw [hdigit] at hclose
        obtain ⟨rfl, -⟩ := List.cons.inj hclose
        cases hd
      · rw [readSeconds_skipBlanks]
        exact readSeconds_values hparts hroom
    rw [hlist hopen, hvalues]
    exact finish_blank hw _

/-! ## Whole texts -/

theorem read_of_readTiming {text : String} (h : readTiming text = .ok timing) :
    read text = timing.check.mapError .flawed := by
  rw [read, h]
  dsimp only [bind, Except.bind]
  cases timing.check with
  | error flaw => rfl
  | ok timing => rfl

theorem nodup_keys_zip (h : fields.Nodup) (values : List UInt64) :
    ((fields.zip values).map Prod.fst).Nodup := by
  rw [List.zip_eq_zip_take_min, List.map_fst_zip (by simp)]
  exact h.sublist (List.take_sublist _ _)

/-- A configuration means the same in every form. A map in any order and layout gives the default
timing, but for the fields that it has a number for, if that has no flaw. A map in which a key is
unknown or repeated is rejected for its text, whatever the values. And a list means the same as a
map that has its numbers for the first fields. -/
theorem read_forms :
    (∀ (value : Field → Option UInt64) (entries : List (Field × UInt64)) (text : String),
      (entries.map Prod.fst).Nodup → (∀ f n, (f, n) ∈ entries ↔ value f = some n) →
      MapOf entries text.toList →
      read text = (Timing.assign {} value).check.mapError .flawed) ∧
    (∀ (names : List String) (text : String), ObjectOf names text.toList →
      ((∃ name ∈ names, ∀ f : Field, f.key ≠ name) ∨ ¬ names.Nodup) →
      (∃ how, read text = .error (.broken how)) ∨ ∃ what, read text = .error (.mismatch what)) ∧
    ∀ (values : List UInt64) (entries : List (Field × UInt64)) (list map : String),
      values.length ≤ 5 → ListOf values list.toList →
      entries.Perm (Field.all.zip values) → MapOf entries map.toList → read list = read map := by
  refine ⟨fun value entries text hnodup hvalue h => ?_, fun names text h hkeys => ?_,
    fun values entries list map hroom hlist hperm hmap => ?_⟩
  · rw [read_of_readTiming (readTiming_mapOf h hnodup), Timing.setAll_eq_assign hnodup hvalue]
  · have hcomes := comes_readTiming_objectOf h
    rw [read]
    cases hread : readTiming text with
    | ok timing =>
      obtain ⟨hnodup, hknown⟩ := hcomes.result hread
      rcases hkeys with ⟨name, hname, hunknown⟩ | hrepeated
      · obtain ⟨f, -, hf⟩ := hknown name hname
        exact absurd hf (hunknown f)
      · exact absurd hnodup hrepeated
    | error e =>
      rw [hread] at hcomes
      cases e with
      | broken how => exact Or.inl ⟨how, rfl⟩
      | mismatch what => exact Or.inr ⟨what, rfl⟩
      | flawed flaw => exact hcomes.elim
  · have hall : Field.all.Nodup := by decide
    have hentries : (entries.map Prod.fst).Nodup :=
      (hperm.map Prod.fst).nodup_iff.mpr (nodup_keys_zip hall values)
    rw [read_of_readTiming (readTiming_listOf hlist hroom),
      read_of_readTiming (readTiming_mapOf hmap hentries),
      Timing.setAll_perm hentries hperm]

/-- Two durations by name, not in order and with blanks, are read as in a list. A key is repeated
even if it is spelled in another way. -/
theorem read_forms_spread :
    read "\x7b\t\"validation_current_local\" : 40 ,\n\"validation_current_wall\":60\x7d" =
        .ok { wall := .ofSeconds 60, sight := .ofSeconds 40 } ∧
      read "[60, 40]" =
        read "\x7b\t\"validation_current_local\" : 40 ,\n\"validation_current_wall\":60\x7d" ∧
      ((∃ how, read "\x7b\"validation_freshness\":30,\"\\u0076alidation_freshness\":true\x7d" =
          .error (.broken how)) ∨
        ∃ what, read "\x7b\"validation_freshness\":30,\"\\u0076alidation_freshness\":true\x7d" =
          .error (.mismatch what)) := by
  have hquoted (f : Field) : Quoted f.key ('"' :: (f.key.toList ++ ['"'])) :=
    .mk (spells_plain (plain_key f))
  have hmap : MapOf [(.sight, 40), (.wall, 60)]
      "\x7b\t\"validation_current_local\" : 40 ,\n\"validation_current_wall\":60\x7d".toList := by
    have hsight : Entry Field.sight.key (Digits 40)
        ((['\t'] ++ (('"' :: (Field.sight.key.toList ++ ['"'])) ++ [' '])) ++
          ':' :: ([' '] ++ (['4', '0'] ++ [' ']))) :=
      .mk (.mk (by decide) (hquoted .sight) (by decide)) (.mk (by decide) rfl (by decide))
    have hwall : Entry Field.wall.key (Digits 60)
        ((['\n'] ++ (('"' :: (Field.wall.key.toList ++ ['"'])) ++ [])) ++ ':' :: ['6', '0']) :=
      .mk (.mk (by decide) (hquoted .wall) (by decide)) (.bare rfl)
    have henclosed : Enclosed '\x7b' '\x7d' (fun e : Field × UInt64 => Entry e.1.key (Digits e.2))
      [(.sight, 40), (.wall, 60)] _ := .parts (.more hsight (.one hwall))
    exact .bare henclosed
  have hlist : ListOf [60, 40] "[60, 40]".toList := by
    have hfirst : Padded (Digits 60) ['6', '0'] := .bare rfl
    have hsecond : Padded (Digits 40) ([' '] ++ (['4', '0'] ++ [])) :=
      .mk (by decide) rfl (by decide)
    have henclosed : Enclosed '[' ']' (fun n => Padded (Digits n)) [60, 40] _ :=
      .parts (.more hfirst (.one hsecond))
    exact .bare henclosed
  have hobject : ObjectOf ["validation_freshness", "validation_freshness"]
      "\x7b\"validation_freshness\":30,\"\\u0076alidation_freshness\":true\x7d".toList := by
    have hnumber : NumberText ([] ++ (['3', '0'] ++ [])) :=
      .mk (Or.inl rfl) nofun (List.all_eq_true.mp rfl) nofun
    have hplain : Entry Field.freshness.key Value
        (('"' :: (Field.freshness.key.toList ++ ['"'])) ++ ':' :: ['3', '0']) :=
      .mk (.bare (hquoted .freshness)) (.bare (.number hnumber))
    have hhex : HexText ['0', '0', '7', '6'] 0x76 :=
      HexText.mk (i := 0) (j := 0) (k := 7) (l := 6) rfl rfl rfl rfl
    have hspells : Spells ('\\' :: (['u', '0', '0', '7', '6'] ++ "alidation_freshness".toList))
        ('v' :: "alidation_freshness".toList) :=
      .escaped (.code hhex (by decide))
        (spells_plain fun c hc => plain_key .freshness c (List.mem_cons_of_mem 'v' hc))
    have hescaped : Entry Field.freshness.key Value
        (('"' :: (('\\' :: (['u', '0', '0', '7', '6'] ++ "alidation_freshness".toList)) ++
          ['"'])) ++ ':' :: ['t', 'r', 'u', 'e']) :=
      .mk (.bare (.mk hspells)) (.bare (.other (by decide) (by decide)))
    have henclosed : Enclosed '\x7b' '\x7d' (fun name => Entry name Value)
      [Field.freshness.key, Field.freshness.key] _ := .parts (.more hplain (.one hescaped))
    exact .bare henclosed
  have hvalue : ∀ f n, (f, n) ∈ [(Field.sight, (40 : UInt64)), (.wall, 60)] ↔
      (if f = .sight then some 40 else if f = .wall then some 60 else none) = some n := by
    intro f n
    cases f
    all_goals simp [eq_comm]
  have hread := read_forms.1 _ _ _ (by decide) hvalue hmap
  refine ⟨hread.trans rfl, ?_, read_forms.2.1 _ _ hobject (Or.inr (by decide))⟩
  exact read_forms.2.2 [60, 40] _ _ _ (by decide) hlist (List.Perm.swap _ _ _) hmap

end Config

end ForkChoice
