import ForkChoice.Proofs.Register.History

/-!
# Sequence numbers rise

Every sequence number that passes a guard is held back by it until it has expired, whatever the guard
refuses or forgets in between. So what passes later is larger, unless it passes after the expiry.

* `Register.guardOf`, `Event.Passes`: the guards by their owners, and what gets past them.
* `Register.Entered.guard`: what a request does to a guard.
* `Register.History.barred`: what passed is held back.
* `Register.history_rises`: accepted validations of one node, and sequence numbers cleared, rise.
-/

namespace ForkChoice

open SequenceGuard

variable {T : Type} {env : Surroundings} {request : Request}

/-- A sequence number gets past the guard of a node, or past that of this node itself. -/
def Event.Passes (e : Event T) (owner : Option Nat) (seq : Nat) : Prop :=
  match e.request with
  | .receive node v => owner = some node ∧ v.seq = seq ∧ e.outcome.answer = .verdict .current
  | .mayValidate s => owner = none ∧ s = seq ∧ e.outcome.answer = .granted true
  | _ => False

theorem Event.Accepts.passes {e : Event T} {node : Nat} {v : Validation} (h : e.Accepts node v) :
    e.Passes (some node) v.seq := by
  rw [Passes, h.request]
  exact ⟨rfl, rfl, h.answer⟩

theorem Event.Clears.passes {e : Event T} {seq : Nat} (h : e.Clears seq) : e.Passes none seq := by
  rw [Passes, h.request]
  exact ⟨rfl, rfl, h.answer⟩

/-- From an event to a later one sequence numbers rise, or the earlier ones have expired. -/
structure Event.Rises (timing : Timing) (e f : Event T) : Prop where
  accepted : ∀ node v w, e.Accepts node v → f.Accepts node w →
    timing.Expired e.time f.time ∨ v.seq < w.seq
  cleared : ∀ a b, e.Clears a → f.Clears b → timing.Expired e.time f.time ∨ a < b
  /-- No node has two ledgers accepted for one sequence number. -/
  single : ¬ timing.Expired e.time f.time → ∀ node v w, e.Accepts node v → f.Accepts node w →
    v.seq = w.seq → v.ledgerId = w.ledgerId
  /-- This node is not cleared twice for one sequence number. -/
  once : ¬ timing.Expired e.time f.time → ∀ seq, e.Clears seq → ¬ f.Clears seq

namespace Register

variable {r s : Register T} {es : List (Event T)} {owner : Option Nat} {seq : Nat}

/-- The guard of a node, or that of this node itself. -/
def guardOf (r : Register T) : Option Nat → SequenceGuard
  | some node => r.guards.getD node {}
  | none => r.own

theorem guardOf_of_records {t : Register Unit} (h : s.records = t) (hguards : t.guards = r.guards)
    (hown : t.own = r.own) (owner : Option Nat) : s.guardOf owner = r.guardOf owner := by
  subst h
  cases owner with
  | some node => rw [guardOf, guardOf, ← hguards, records]
  | none => exact hown

theorem guardOf_withGuard (node : Nat) (guard : SequenceGuard) (owner : Option Nat) :
    (r.withGuard node guard).guardOf owner =
      if owner = some node then guard else r.guardOf owner := by
  cases owner with
  | none => rfl
  | some n =>
    rw [guardOf, withGuard, Std.ExtTreeMap.getD_insert]
    by_cases hn : n = node
    · subst hn
      rw [if_pos rfl, if_pos (Nat.compare_eq_eq.mpr rfl)]
    · rw [if_neg fun h => hn (Option.some.inj h), if_neg fun h => hn (Nat.compare_eq_eq.mp h).symm]
      rfl

/-- The guard of the node takes the sequence number of a validation that is not stale on arrival. It
lets it pass if the validation becomes the current one. -/
theorem Taken.guard {node : Nat} {v : Validation} {verdict : Verdict}
    (h : Taken env node v r s verdict) :
    (∀ owner, s.guardOf owner = r.guardOf owner) ∧ verdict ≠ .current ∨
      ∃ b guard, Advanced r.timing env.steady v.seq (r.guardOf (some node)) b guard ∧
        (∀ owner, s.guardOf owner = if owner = some node then guard else r.guardOf owner) ∧
        (verdict = .current → b = true) := by
  have hwith {t : Register Unit} {guard : SequenceGuard} (hrecords : s.records = t)
      (hguards : t.guards = r.guards.insert node guard) (hown : t.own = r.own)
      (owner : Option Nat) :
      s.guardOf owner = if owner = some node then guard else r.guardOf owner :=
    (guardOf_of_records (r := r.withGuard node guard) hrecords hguards hown owner).trans
      (guardOf_withGuard node guard owner)
  cases h with
  | ignored _ _ hrecords =>
    exact Or.inl ⟨guardOf_of_records hrecords rfl rfl, fun h => by cases h⟩
  | refused _ _ hadvanced hrecords =>
    refine Or.inr ⟨_, _, hadvanced, hwith hrecords rfl rfl, fun h => ?_⟩
    exact absurd h Verdict.ofRefused_ne_current
  | late _ _ hadvanced _ _ hrecords =>
    exact Or.inr ⟨_, _, hadvanced, hwith hrecords rfl rfl, fun _ => rfl⟩
  | installed _ _ hadvanced _ hrecords =>
    exact Or.inr ⟨_, _, hadvanced, hwith hrecords rfl rfl, fun _ => rfl⟩

/-- A request leaves a guard alone and lets nothing pass it, or the guard takes one more sequence
number and lets pass no other. -/
theorem Entered.guard {o : Outcome T Reply} (h : Entered env r o.register request o.answer)
    (owner : Option Nat) :
    (o.register.guardOf owner = r.guardOf owner ∧ ∀ seq, ¬ Event.Passes ⟨env, request, o⟩ owner seq) ∨
      ∃ seq b, Advanced r.timing env.steady seq (r.guardOf owner) b (o.register.guardOf owner) ∧
        ∀ seq', Event.Passes ⟨env, request, o⟩ owner seq' → seq' = seq ∧ b = true := by
  obtain ⟨answer, s, retired⟩ := o
  cases h with
  | @received node v verdict htaken =>
    rcases htaken.guard with ⟨hsame, hrefused⟩ | ⟨b, guard, hadvanced, hguard, hpassed⟩
    · exact Or.inl ⟨hsame owner, fun seq h => hrefused (Reply.verdict.inj h.2.2)⟩
    · by_cases howner : owner = some node
      · subst howner
        have hguard : s.guardOf (some node) = guard := (hguard _).trans (if_pos rfl)
        exact Or.inr ⟨v.seq, b, hguard.symm ▸ hadvanced,
          fun seq h => ⟨h.2.1.symm, hpassed (Reply.verdict.inj h.2.2)⟩⟩
      · exact Or.inl ⟨(hguard _).trans (if_neg howner), fun seq h => howner h.1⟩
  | @advanced seq granted own hadvanced hrecords =>
    have hguards := guardOf_of_records (r := { r with own }) hrecords rfl rfl owner
    cases owner with
    | some n => exact Or.inl ⟨hguards, fun seq h => by cases h.1⟩
    | none =>
      exact Or.inr ⟨seq, granted, hguards.symm ▸ hadvanced,
        fun seq' h => ⟨h.2.1.symm, Reply.granted.inj h.2.2⟩⟩
  | expired htouched hrecords =>
    obtain ⟨-, -, hguards, hown⟩ := touchKept_others htouched
    exact Or.inl ⟨guardOf_of_records hrecords hguards hown owner, fun _ h => h⟩
  | restamped hrestamped =>
    exact Or.inl ⟨guardOf_of_records hrestamped.records rfl rfl owner, fun _ h => h⟩
  | minor hminor _ _ hrecords =>
    refine Or.inl ⟨guardOf_of_records hrecords rfl rfl owner, fun seq h => ?_⟩
    cases request with
    | receive | mayValidate => exact hminor
    | _ => exact h

/-- What a guard holds back is held back after any request. -/
theorem Entered.bars {o : Outcome T Reply} {since : Time}
    (h : Entered env r o.register request o.answer)
    (hbars : Bars r.timing seq since env.steady (r.guardOf owner)) (hsince : since ≤ env.steady) :
    Bars r.timing seq since env.steady (o.register.guardOf owner) := by
  rcases h.guard owner with ⟨hsame, -⟩ | ⟨_, _, hadvanced, -⟩
  · exact hsame ▸ hbars
  · exact (hbars.advance hsince hadvanced).1

/-! ## Histories -/

/-- Every sequence number that passed is held back by its guard. -/
def Barred (es : List (Event T)) (s : Register T) : Prop :=
  ∀ now, (∀ e ∈ es, e.time ≤ now) → ∀ e ∈ es, ∀ owner seq, e.Passes owner seq →
    Bars s.timing seq e.time now (s.guardOf owner)

variable [VoteTrie T]

/-- One more event keeps what passed held back, and lets pass only what is larger. -/
theorem Barred.step (h : Barred es r) {o : Outcome T Reply} (hstep : r.step env request = pure o)
    (hclock : ∀ e ∈ es, e.time ≤ env.steady) :
    Barred (es ++ [⟨env, request, o⟩]) o.register ∧ ∀ e ∈ es, ∀ owner a b, e.Passes owner a →
      Event.Passes ⟨env, request, o⟩ owner b → r.timing.Expired e.time env.steady ∨ a < b := by
  have hentered := step_enters _ _ _ _ hstep
  have hguard := hentered.guard
  have htiming := hentered.timing
  constructor
  · intro now hnow e he owner seq hpasses
    have hsteady : env.steady ≤ now := hnow _ (List.mem_append_right _ (List.mem_singleton_self _))
    rw [htiming]
    rcases List.mem_append.mp he with he | he
    · have hbars := h _ hclock e he owner seq hpasses
      exact (hentered.bars hbars (hclock e he)).later hsteady
    · obtain rfl := List.mem_singleton.mp he
      rcases hguard owner with ⟨-, hnone⟩ | ⟨seq', b, hadvanced, hpass⟩
      · exact absurd hpasses (hnone seq)
      · obtain ⟨rfl, rfl⟩ := hpass seq hpasses
        exact hadvanced.bars.later hsteady
  · intro e he owner a b ha hb
    rcases hguard owner with ⟨-, hnone⟩ | ⟨seq, passed, hadvanced, hpass⟩
    · exact absurd hb (hnone b)
    · obtain ⟨rfl, rfl⟩ := hpass b hb
      exact ((h _ hclock e he owner a ha).advance (hclock e he) hadvanced).2 rfl

/-- What passes a guard is held back by it from then on, unless it has expired. -/
theorem History.barred (h : History r es s) (hclock : Clocked es) : Barred es s ∧
    es.Pairwise fun e f => ∀ owner a b, e.Passes owner a → f.Passes owner b →
      r.timing.Expired e.time f.time ∨ a < b := by
  induction h with
  | nil => exact ⟨fun _ _ _ he => absurd he List.not_mem_nil, .nil⟩
  | snoc before hstep ih =>
    obtain ⟨hclock, hlast⟩ := clocked_snoc.mp hclock
    obtain ⟨hbarred, hrises⟩ := ih hclock
    obtain ⟨hbarred, hnext⟩ := hbarred.step hstep hlast
    refine ⟨hbarred, List.pairwise_append.mpr ⟨hrises, List.pairwise_singleton _ _, ?_⟩⟩
    intro e he f hf
    obtain rfl := List.mem_singleton.mp hf
    exact before.timing ▸ hnext e he

/-- Along any history in which the steady clock does not go back, the sequence numbers of the accepted
validations of one node rise, and so do those that this node is cleared for, but for what has expired.
So within the expiry no node has validations of two ledgers accepted for one sequence number, and this
node is not cleared for one twice. -/
theorem history_rises (h : History r es s) (hclock : Clocked es) :
    es.Pairwise (Event.Rises r.timing) := by
  refine (h.barred hclock).2.imp fun {e f} hpasses => ?_
  have haccepted (node : Nat) (v w : Validation) (hv : e.Accepts node v) (hw : f.Accepts node w) :
      r.timing.Expired e.time f.time ∨ v.seq < w.seq :=
    hpasses (some node) v.seq w.seq hv.passes hw.passes
  have hcleared (a b : Nat) (ha : e.Clears a) (hb : f.Clears b) :
      r.timing.Expired e.time f.time ∨ a < b := hpasses none a b ha.passes hb.passes
  refine ⟨haccepted, hcleared, fun hrecent node v w hv hw hseq => ?_, fun hrecent seq he hf => ?_⟩
  · exact absurd hseq (Nat.ne_of_lt ((haccepted node v w hv hw).resolve_left hrecent))
  · exact Nat.lt_irrefl seq ((hcleared seq seq he hf).resolve_left hrecent)

/-- A node validates the trunk and then the left side, and this node is cleared for both. -/
def ascent : List Fork.Line :=
  [(Fork.early, [], .receive 1 (Fork.word 1 Fork.trunk Fork.early)),
    (Fork.early, [], .mayValidate 1),
    (Fork.soon, [], .receive 1 (Fork.word 1 Fork.left Fork.soon)),
    (Fork.soon, [], .mayValidate 2)]

/-- Both validations are accepted and both sequence numbers cleared, and they rise. -/
theorem history_rises_fork :
    ∃ (outcomes : List (Outcome (ArenaTrie (Slots.numbered (Cell Nat))) Reply))
      (s : Register (ArenaTrie (Slots.numbered (Cell Nat)))),
      History (empty {}) (events (Fork.script ascent) outcomes) s ∧
        outcomes.map (·.answer) =
          [.verdict .current, .granted true, .verdict .current, .granted true] ∧
        (events (Fork.script ascent) outcomes).Pairwise (Event.Rises {}) := by
  obtain ⟨outcomes, s, hs, hanswers, -⟩ := Fork.exists_history (Slots.numbered (Cell Nat)) ascent
    [.verdict .current, .granted true, .verdict .current, .granted true] (fun _ => true)
    (by simp [ascent, Request.Apt]) (by decide +kernel)
  exact ⟨outcomes, s, hs, hanswers, history_rises hs (clocked_events _ _ (by decide))⟩

end Register

end ForkChoice
