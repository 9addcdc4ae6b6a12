import ForkChoice.Proofs.Register.Agreement
import ForkChoice.Proofs.Register.Records

/-!
# What happened in a run

A history is a run that was carried out to its end, with the surroundings, the request and the outcome
of every step. What each step preserves holds after a history by induction on the steps.

* `Event`, `Register.History`: one step, and the steps from one register to another.
* `Clocked`: the steady clock never goes back.
* `Register.run_history`: a run that gives a result is a history.
* `Fork.exists_run`, `Fork.exists_history`: a run of a script on a fork, and its history.
-/

namespace ForkChoice

variable {T : Type}

/-- A request that was carried out. -/
structure Event (T : Type) where
  env : Surroundings
  request : Request
  outcome : Outcome T Reply

namespace Event

/-- The steady clock at an event. -/
def time (e : Event T) : Time := e.env.steady

/-- A validation was taken in as the current one of its node. -/
structure Accepts (e : Event T) (node : Nat) (v : Validation) : Prop where
  request : e.request = .receive node v
  answer : e.outcome.answer = .verdict .current

/-- This node was allowed to validate a sequence number itself. -/
structure Clears (e : Event T) (seq : Nat) : Prop where
  request : e.request = .mayValidate seq
  answer : e.outcome.answer = .granted true

end Event

/-- The steady clock never goes back. -/
def Clocked (es : List (Event T)) : Prop := es.Pairwise fun e f => e.time ≤ f.time

theorem clocked_snoc {es : List (Event T)} {e : Event T} :
    Clocked (es ++ [e]) ↔ Clocked es ∧ ∀ f ∈ es, f.time ≤ e.time := by
  simp [Clocked, List.pairwise_append]

namespace Register

variable [VoteTrie T] {r s : Register T} {es : List (Event T)} {env : Surroundings}
  {request : Request} {o : Outcome T Reply}

/-- One register became another by these events. -/
inductive History (r : Register T) : List (Event T) → Register T → Prop
  | nil : History r [] r
  | snoc {past : List (Event T)} {s : Register T} {env : Surroundings} {request : Request}
    {o : Outcome T Reply} (before : History r past s) (carried : s.step env request = pure o) :
    History r (past ++ [⟨env, request, o⟩]) o.register

theorem History.cons (hstep : r.step env request = pure o) (h : History o.register es s) :
    History r (⟨env, request, o⟩ :: es) s := by
  induction h with
  | nil => exact .snoc .nil hstep
  | snoc _ hlast ih => exact .snoc ih hlast

/-- The last event was carried out after all others. -/
theorem History.of_concat (es : List (Event T)) {e : Event T} (h : History r (es ++ [e]) s) :
    ∃ before, History r es before ∧ before.step e.env e.request = pure e.outcome ∧
      s = e.outcome.register := by
  generalize hall : es ++ [e] = all at h
  cases h with
  | nil => exact absurd hall (List.append_ne_nil_of_right_ne_nil _ (List.cons_ne_nil _ _))
  | snoc before hstep =>
    obtain ⟨rfl, hlast⟩ := List.append_inj' hall rfl
    obtain rfl := (List.cons.inj hlast).1
    exact ⟨_, before, hstep, rfl⟩

theorem History.of_nil (h : History r [] s) : s = r := by
  generalize hall : ([] : List (Event T)) = all at h
  cases h with
  | nil => rfl
  | snoc => exact absurd hall.symm (List.append_ne_nil_of_right_ne_nil _ (List.cons_ne_nil _ _))

/-- The first event was carried out before all others. -/
theorem History.of_cons {e : Event T} (h : History r (e :: es) s) :
    r.step e.env e.request = pure e.outcome ∧ History e.outcome.register es s := by
  generalize hall : e :: es = all at h
  induction h generalizing es with
  | nil => cases hall
  | @snoc past s env request o before hstep ih =>
    cases past with
    | nil =>
      cases hall
      exact ⟨before.of_nil ▸ hstep, .nil⟩
    | cons first past =>
      cases hall
      obtain ⟨hfirst, hpast⟩ := ih rfl
      exact ⟨hfirst, .snoc hpast hstep⟩

/-- No request changes the timing. -/
theorem History.timing (h : History r es s) : s.timing = r.timing := by
  induction h with
  | nil => rfl
  | snoc _ hstep ih => exact (step_enters _ _ _ _ hstep).timing.trans ih

/-- The events of a run. -/
def events (requests : List (Surroundings × Request)) (outcomes : List (Outcome T Reply)) :
    List (Event T) :=
  requests.zipWith (fun q o => ⟨q.1, q.2, o⟩) outcomes

omit [VoteTrie T] in
theorem mem_events {requests : List (Surroundings × Request)} {outcomes : List (Outcome T Reply)}
    {e : Event T} (he : e ∈ events requests outcomes) : (e.env, e.request) ∈ requests := by
  rw [events, ← List.map_uncurry_zip_eq_zipWith] at he
  obtain ⟨⟨q, o⟩, hzip, rfl⟩ := List.mem_map.mp he
  exact (List.of_mem_zip hzip).1

omit [VoteTrie T] in
theorem clocked_events (requests : List (Surroundings × Request))
    (outcomes : List (Outcome T Reply))
    (h : requests.Pairwise fun p q => p.1.steady ≤ q.1.steady) :
    Clocked (events requests outcomes) := by
  induction requests generalizing outcomes with
  | nil => exact .nil
  | cons first rest ih =>
    cases outcomes with
    | nil => exact .nil
    | cons o outcomes =>
      obtain ⟨hfirst, hrest⟩ := List.pairwise_cons.mp h
      refine List.pairwise_cons.mpr ⟨fun e he => ?_, ih outcomes hrest⟩
      exact hfirst _ (mem_events he)

/-- A run that gives a result is a history, with an outcome for every request. -/
theorem run_history (requests : List (Surroundings × Request)) (r : Register T) :
    Gives (r.run requests) fun outcomes =>
      outcomes.length = requests.length ∧ ∃ s, History r (events requests outcomes) s := by
  induction requests generalizing r with
  | nil => exact Gives.pure ⟨rfl, r, .nil⟩
  | cons first rest ih =>
    obtain ⟨env, request⟩ := first
    rw [run]
    refine Gives.bind (P := fun o => r.step env request = pure o) (fun _ => id) fun o ho => ?_
    refine (ih o.register).bind fun later hlater => Gives.pure ?_
    obtain ⟨hlength, s, hs⟩ := hlater
    exact ⟨congrArg (· + 1) hlength, s, .cons ho hs⟩

/-- Two requests are carried out one after the other. -/
theorem run_pair {e e' : Surroundings} {q q' : Request} {o p : Outcome T Reply} :
    r.run [(e, q), (e', q')] = pure [o, p] ↔
      r.step e q = pure o ∧ o.register.step e' q' = pure p := by
  constructor
  · intro hrun
    obtain ⟨-, s, hs⟩ := run_history _ _ _ hrun
    obtain ⟨hfirst, hrest⟩ := History.of_cons hs
    exact ⟨hfirst, (History.of_cons hrest).1⟩
  · rintro ⟨hfirst, hsecond⟩
    simp only [run, hfirst, hsecond, pure_bind]

end Register

namespace Fork

/-- So many seconds after the epoch, up to ten thousand. -/
def second (s : Nat) : Time where
  ns := min s 10000 * nanosPerSecond
  lower := by
    simp only [nanosPerSecond]
    omega
  upper := by
    simp only [nanosPerSecond]
    omega

variable {Slot : Type} [DecidableEq Slot] (A : Slots Slot (Cell Slot))

open Register in
/-- The answers to a script over a tree, and what a test finds in the records, are the same over an
arena. -/
theorem exists_run (lines : List Line) (answers : List Reply) (test : List (Register Unit) → Bool)
    (hlines : ∀ line ∈ lines, line.2.2.Apt archive Set.univ)
    (h : yields ((empty {} : Register Trie).run (script lines)) fun outcomes =>
      outcomes.map (·.answer) == answers && test (outcomes.map (·.register.records))) :
    ∃ outcomes : List (Outcome (ArenaTrie A) Reply),
      (empty {} : Register (ArenaTrie A)).run (script lines) = pure outcomes ∧
        outcomes.map (·.answer) = answers ∧ test (outcomes.map (·.register.records)) = true := by
  obtain ⟨outcomes', hrun', hpassed⟩ := exists_of_yields h
  obtain ⟨hanswers, htest⟩ := (Bool.and_eq_true _ _).mp hpassed
  obtain ⟨outcomes, hrun, hagree⟩ := (run_alike archive_reachable.sound
    (orderly_script lines hlines)
    (empty_agree (T := ArenaTrie A) archive_reachable.sound {})).result hrun'
  have hsame : outcomes.map (·.answer) = outcomes'.map (·.answer) ∧
      outcomes.map (·.register.records) = outcomes'.map (·.register.records) := by
    clear hrun hrun' hpassed hanswers htest
    induction hagree with
    | nil => exact ⟨rfl, rfl⟩
    | cons ho _ ih =>
      obtain ⟨hanswer, ⟨-, -, t, hregister, -⟩, -⟩ := ho
      refine ⟨?_, ?_⟩
      · rw [List.map_cons, List.map_cons, hanswer, ih.1]
      · rw [List.map_cons, List.map_cons, hregister, ih.2]
        rfl
  exact ⟨outcomes, hrun, hsame.1.trans (beq_iff_eq.mp hanswers), hsame.2 ▸ htest⟩

open Register in
/-- A script that a tree follows is a history over an arena, with the same answers and records. -/
theorem exists_history (lines : List Line) (answers : List Reply)
    (test : List (Register Unit) → Bool)
    (hlines : ∀ line ∈ lines, line.2.2.Apt archive Set.univ)
    (h : yields ((empty {} : Register Trie).run (script lines)) fun outcomes =>
      outcomes.map (·.answer) == answers && test (outcomes.map (·.register.records))) :
    ∃ (outcomes : List (Outcome (ArenaTrie A) Reply)) (s : Register (ArenaTrie A)),
      History (empty {}) (events (script lines) outcomes) s ∧
        outcomes.map (·.answer) = answers ∧ test (outcomes.map (·.register.records)) = true := by
  obtain ⟨outcomes, hrun, hfound⟩ := exists_run A lines answers test hlines h
  obtain ⟨-, s, hs⟩ := run_history _ _ _ hrun
  exact ⟨outcomes, s, hs, hfound⟩

end Fork

end ForkChoice
