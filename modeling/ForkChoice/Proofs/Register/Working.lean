import ForkChoice.Proofs.Ledger.Path
import ForkChoice.Proofs.Register.Consulting

/-!
# The choice of a ledger to work on

The ledger to work on is found by sequence numbers and ancestors, of the current ledger and of the
ledger that backs the preferred tip. What comes out depends on how the two ledgers lie to each other
alone: the current one is left for a ledger that is neither itself, nor before it on its chain, nor
right after it. So the choice settles at once.

* `Ledger.Near`: the ledgers for which the current one is not left.
* `choose_eq_near`: the choice, by this relation.
* `Register.favored`, `Register.fallback`: the ledger that the votes prefer, and the one to fall back on.
* `Register.preferred_eq`: the answer and the register after it.
* `Register.run_chooses`: the choice after any run, and the choice from there.
-/

namespace ForkChoice

variable {a : Archive} {curr p : Ledger}

namespace Ledger

/-- A ledger is near to the current one if it is the same, or lies before it on its chain, or comes
right after it. -/
def Near (p curr : Ledger) : Prop := p = curr ∨ curr.descendsFrom p = true ∨ p.ChildOf curr

instance (p curr : Ledger) : Decidable (p.Near curr) := inferInstanceAs (Decidable (_ ∨ _ ∨ _))

theorem near_iff : p.Near curr ↔ p.ChildOf curr ∨ curr.leadsTo p = true := by
  rw [Near, leadsTo, Bool.or_eq_true, beq_iff_eq, eq_comm (a := p), ← or_assoc, or_comm]

/-- The preferred ledger seen from itself. -/
def tip (p : Ledger) : Tip := ⟨p.seq, p.id, p⟩

theorem tip_drawn (hp : p ∈ a.ledgers) : p.tip.Drawn a := ⟨hp, Nat.le_refl _, rfl⟩

/-- The identifier one below a ledger is that of a ledger there just when it is its parent. -/
theorem ancestor_eq_id_iff (h : p.seq = curr.seq + 1) :
    (p.ancestor curr.seq).map (· == curr.id) = .ok (decide (p.ChildOf curr)) := by
  have hlt : curr.seq < p.seq := by omega
  have hdescends : p.descendsFrom curr = (p.idAt curr.seq (Nat.le_of_lt hlt) == curr.id) := by
    rw [descendsFrom, dif_pos hlt]
  have hchild : p.ChildOf curr ↔ p.descendsFrom curr = true :=
    ⟨ChildOf.descends, fun hd => ⟨h, hd⟩⟩
  rw [ancestor, dif_pos (Nat.le_of_lt hlt), Except.map, ← hdescends]
  congr 1
  rw [Bool.eq_iff_iff, decide_eq_true_iff, hchild]

/-- The identifier at the place of a ledger is its own just when the history leads to it. -/
theorem ancestor_eq_iff (ha : a.Sound) (hcurr : curr ∈ a.ledgers) (hp : p ∈ a.ledgers)
    (h : p.seq ≤ curr.seq) :
    ∃ id, curr.ancestor p.seq = .ok id ∧ (id = p.id ↔ curr.leadsTo p = true) := by
  refine ⟨_, dif_pos h, ?_⟩
  rw [ha.idAt_eq_id hcurr hp h, leadsTo_iff ha hp hcurr, List.prefix_iff_eq_take, eq_comm, seq]

end Ledger

/-- The choice among a ledger seen from itself and the current one. -/
theorem choose_tip (p curr : Ledger) : Register.choose curr p.tip =
    if p.ChildOf curr then .ok curr.mark
    else if curr.seq < p.seq then .ok p.mark
    else (curr.ancestor p.seq).bind fun id => .ok (if id = p.id then curr.mark else p.mark) := by
  rw [Register.choose]
  split
  · rename_i hseq
    rw [show p.tip.ancestor curr.seq = p.ancestor curr.seq from rfl,
      Ledger.ancestor_eq_id_iff hseq]
    simp only [bind, Except.bind, decide_eq_true_eq]
    rfl
  · rename_i hseq
    rw [if_neg fun h : p.ChildOf curr => hseq h.seq]
    rfl

/-- The current ledger stays when the preferred one is near to it, and else is left for it. -/
theorem choose_eq_near (ha : a.Sound) (hcurr : curr ∈ a.ledgers) (hp : p ∈ a.ledgers)
    {tip : Tip} (htip : tip.Drawn a) (hstands : tip.StandsFor p) :
    Register.choose curr tip = .ok (if p.Near curr then curr.mark else p.mark) := by
  -- no other ledger that could back the tip makes a difference
  rw [Register.choose_eq ha (Ledger.tip_drawn hp) htip hstands.seq hstands.id, choose_tip]
  by_cases hchild : p.ChildOf curr
  · rw [if_pos hchild, if_pos (Ledger.near_iff.mpr (Or.inl hchild))]
  · rw [if_neg hchild]
    have hnear : p.Near curr ↔ curr.leadsTo p = true := by
      rw [Ledger.near_iff, or_iff_right hchild]
    by_cases hlt : curr.seq < p.seq
    · rw [if_pos hlt, if_neg fun h => Ledger.not_leadsTo_of_lt hlt (hnear.mp h)]
    · obtain ⟨id, hid, hiff⟩ := Ledger.ancestor_eq_iff ha hcurr hp (Nat.le_of_not_lt hlt)
      rw [if_neg hlt, hid, Except.bind, if_congr (hiff.trans hnear.symm) rfl rfl]

namespace Register

variable {T : Type} {E : Fault → Prop} {nodes : Set Nat} {env : Surroundings}
  {r : Register T} {mark : Mark}

/-- The ledger that the votes prefer, if there are any. -/
def favored (a : Archive) (r : Register T) : Option Ledger :=
  if ballots r.votes = 0 then none
  else some (a.walk (ballots r.votes) r.own.largest .genesis)

/-- The ledger to work on when there are no votes. -/
def fallback (env : Surroundings) (r : Register T) : Option Mark :=
  (mostAwaited (byRank (fun entry => env.order.marks entry.1) r.awaited.toList)).map (·.1)

/-- The ledger to work on in place of `curr`. -/
def working (a : Archive) (env : Surroundings) (r : Register T) (curr : Ledger) : Option Mark :=
  match r.favored a with
  | none => r.fallback env
  | some p => some (if p.Near curr then curr.mark else p.mark)

theorem favored_eq_none_iff : r.favored a = none ↔ r.votes = ∅ := by
  have hballots : ballots r.votes = 0 ↔ r.votes = ∅ := by
    rw [ballots, Multiset.coe_eq_zero, List.map_eq_nil_iff, Std.ExtTreeMap.toList_eq_nil_iff]
  rw [← hballots, favored]
  split
  · rename_i hempty
    exact iff_of_true rfl hempty
  · rename_i hvotes
    exact iff_of_false (fun h => by cases h) hvotes

theorem favored_mem (ha : a.Sound) (h : r.favored a = some p) : p ∈ a.ledgers := by
  rw [favored] at h
  split at h
  · cases h
  · cases h
    exact Archive.walk_genesis_mem ha

variable [VoteTrie T] [LawfulVoteTrie T]

/-- The tip that the trie prefers stands for the ledger that the votes prefer. -/
theorem Kept.favored (ha : a.Sound) (h : r.Kept a nodes) :
    ∃ answer, VoteTrie.preferred r.trie r.own.largest = pure answer ∧
      (answer = none ↔ r.favored a = none) ∧
      ∀ tip, answer = some tip → tip.Drawn a ∧ ∃ p, r.favored a = some p ∧ tip.StandsFor p := by
  obtain ⟨answer, hanswer, hnone, htip⟩ := LawfulVoteTrie.preferred r.own.largest ha h.holds
  refine ⟨answer, hanswer, ?_, fun tip hsome => ?_⟩
  · rw [hnone, Register.favored, ite_eq_left_iff]
    exact ⟨fun hempty hvotes => absurd hempty hvotes, fun himp => by_contra fun hvotes => by
      cases himp hvotes⟩
  · obtain ⟨hdrawn, hstands⟩ := htip tip hsome
    have hvotes : ballots r.votes ≠ 0 := by
      intro hempty
      cases hsome ▸ hnone.mpr hempty
    exact ⟨hdrawn, _, if_neg hvotes, hstands⟩

/-- What is answered, and the register after it, when the register was brought up to date. Only a
ledger that the votes prefer is compared with the current one. -/
theorem preferred_eq (ha : a.Sound) {fresh : Outcome T Unit} (hfresh : r.refresh env = pure fresh)
    (h : fresh.register.Kept a nodes)
    (hcurr : ∀ p, fresh.register.favored a = some p → curr ∈ a.ledgers) :
    r.preferred env curr =
      pure ⟨fresh.register.working a env curr, fresh.register, fresh.retired⟩ := by
  obtain ⟨answer, hanswer, hnone, htip⟩ := h.favored ha
  rw [preferred, hfresh, pure_bind]
  dsimp only
  rw [hanswer, pure_bind, working]
  cases answer with
  | none =>
    rw [hnone.mp rfl]
    rfl
  | some tip =>
    obtain ⟨hdrawn, p, hp, hstands⟩ := htip tip rfl
    dsimp only
    rw [choose_eq_near ha (hcurr p hp) (favored_mem ha hp) hdrawn hstands, hp]
    rfl

/-! ## The choice settles -/

/-- What the choice of a ledger comes to, when the votes prefer `p`: the current ledger stays just
when that one is near to it, and is left for it otherwise, but never for one of its own ancestors. -/
structure Chosen (a : Archive) (curr p : Ledger) (mark : Mark) : Prop where
  stays : mark = curr.mark ↔ p.Near curr
  moves : ¬ p.Near curr → mark = p.mark
  forward : ∀ m ∈ a.ledgers, curr.descendsFrom m = true → mark.id ≠ m.id

omit [VoteTrie T] [LawfulVoteTrie T] in
theorem chosen_working (ha : a.Sound) (hcurr : curr ∈ a.ledgers) (hp : r.favored a = some p) :
    ∃ mark, r.working a env curr = some mark ∧ Chosen a curr p mark := by
  have hmem := favored_mem ha hp
  refine ⟨_, by rw [working, hp], ?_⟩
  by_cases hnear : p.Near curr
  · rw [if_pos hnear]
    refine ⟨iff_of_true rfl hnear, fun hfar => absurd hnear hfar, fun m hm hbefore hid => ?_⟩
    obtain rfl := ha.eq_of_id hcurr hm hid
    exact curr.not_descendsFrom_self hbefore
  · rw [if_neg hnear]
    refine ⟨iff_of_false (fun hmark => hnear ?_) hnear, fun _ => rfl, fun m hm hbefore hid => ?_⟩
    · apply Or.inl
      exact ha.eq_of_id hmem hcurr (congrArg Mark.id hmark)
    · obtain rfl := ha.eq_of_id hmem hm hid
      exact hnear (Or.inr (Or.inl hbefore))

omit [VoteTrie T] [LawfulVoteTrie T] in
/-- From the chosen ledger the same one is chosen again. -/
theorem working_settles (ha : a.Sound) (hcurr : curr ∈ a.ledgers) {l : Ledger}
    (hl : l ∈ a.ledgers) (h : r.working a env curr = some mark) (hid : mark.id = l.id) :
    r.working a env l = some mark := by
  rw [working] at h ⊢
  cases hp : r.favored a with
  | none => rwa [hp] at h
  | some p =>
    rw [hp] at h
    dsimp only at h ⊢
    obtain rfl := Option.some.inj h
    by_cases hnear : p.Near curr
    · -- the current ledger was chosen, and nothing has changed
      rw [if_pos hnear] at hid
      obtain rfl := ha.eq_of_id hcurr hl hid
      rfl
    · rw [if_neg hnear] at hid ⊢
      obtain rfl := ha.eq_of_id (favored_mem ha hp) hl hid
      rw [ite_self]

/-- After any run the choice of a ledger fails only for a time or a count that is not representable.
When the trie prefers a tip, the current ledger stays just when the preferred one is itself, before
it on its chain or right after it; else the preferred one is chosen. The choice is never an ancestor
of the current ledger then, and from the chosen ledger the same one is chosen again. -/
theorem run_chooses {Slot : Type} [DecidableEq Slot] (A : Slots Slot (Cell Slot))
    (ha : a.Reachable) {requests : List (Surroundings × Request)}
    (h : Orderly a Set.univ requests) (timing : Timing) (henv : env.Honest a)
    (hcurr : curr ∈ a.ledgers) :
    Ends Bounded ((empty timing : Register (ArenaTrie A)).after requests) fun r =>
      Ends Bounded (r.step env (.preferred curr)) fun o =>
        (∃ now, env.now = .ok now ∧ Refreshed env now r o.register) ∧
        ∃ tip answer, o.register.trie.preferred o.register.own.largest = pure tip ∧
          o.answer = .choice answer ∧
          (tip = none ↔ o.register.votes = ∅) ∧
          (∀ t, tip = some t → ∃ p ∈ a.ledgers, t.StandsFor p ∧
            ∃ mark, answer = some mark ∧ Chosen a curr p mark) ∧
          ∀ mark, answer = some mark → ∀ l ∈ a.ledgers, mark.id = l.id →
            ∃ o', o.register.step env (.preferred l) = pure o' ∧ o'.answer = .choice (some mark) := by
  refine ((sound_empty ha.sound timing).after ha.sound (fun _ => Or.inl) (room_bounded _) h).imp
    fun r hr => ?_
  have hrefresh := (refresh_ends ha.sound henv (fun _ => Or.inl) (room_bounded _) hr).self
  rcases hrefresh with ⟨fresh, -, hfresh, hs, now, hnow, hrefreshed⟩ | ⟨fault, hfault, hbounded⟩
  · have hagain := (hrefreshed.upToDate hs.awaited).refresh_eq hnow
    rw [step, preferred_eq ha.sound hfresh hs.kept fun _ _ => hcurr, map_pure]
    refine Ends.pure ⟨⟨now, hnow, hrefreshed⟩, ?_⟩
    obtain ⟨tip, htip, hnone, hsome⟩ := hs.kept.favored ha.sound
    refine ⟨tip, _, htip, rfl, hnone.trans favored_eq_none_iff, fun t ht => ?_,
      fun mark hmark l hl hid => ?_⟩
    · obtain ⟨-, p, hp, hstands⟩ := hsome t ht
      exact ⟨p, favored_mem ha.sound hp, hstands, chosen_working ha.sound hcurr hp⟩
    · refine ⟨_, by rw [step, Outcome.map, preferred_eq ha.sound hagain hs.kept fun _ _ => hl, map_pure], ?_⟩
      exact congrArg Reply.choice (working_settles ha.sound hcurr hl hmark hid)
  · rw [step, preferred, hfault]
    exact Ends.throw hbounded

/-- With a vote for the left side, the right one is left for it, and then it is kept. -/
theorem run_chooses_fork :
    ∃ r o o', (empty {} : Register (ArenaTrie (Slots.numbered (Cell Nat)))).after
        (Fork.script pledge) = pure r ∧
      r.step (Fork.world Fork.soon []) (.preferred Fork.right) = pure o ∧
      o.answer = .choice (some Fork.left.mark) ∧
      o.register.step (Fork.world Fork.soon []) (.preferred Fork.left) = pure o' ∧
      o'.answer = .choice (some Fork.left.mark) := by
  obtain ⟨r, o, s, o', hr, ho, -, ⟨hanswer, -, -⟩, htest⟩ :=
    Fork.exists_step (Slots.numbered (Cell Nat)) pledge (Fork.soon, [], .preferred Fork.right)
      (fun _ o => o.answer == .choice (some Fork.left.mark))
      (by simp [pledge, Request.Apt]) trivial (by decide +kernel)
  have hchoice : o.answer = .choice (some Fork.left.mark) :=
    hanswer.symm.trans (beq_iff_eq.mp htest)
  obtain ⟨-, tip, answer, -, hsame, -, -, hagain⟩ := ((run_chooses (Slots.numbered (Cell Nat))
    Fork.archive_reachable (Fork.orderly_script pledge (by simp [pledge, Request.Apt])) {}
    (Fork.honest Fork.soon []) (show Fork.right ∈ Fork.archive.ledgers by decide)).result hr).result ho
  have hmark : answer = some Fork.left.mark := Reply.choice.inj (hsame.symm.trans hchoice)
  obtain ⟨o'', ho'', hkept⟩ := hagain _ hmark Fork.left (by decide) rfl
  exact ⟨r, o, o'', hr, ho, hchoice, ho'', hkept⟩

end Register

end ForkChoice
