import ForkChoice.Proofs.Register.Assessment

/-!
# The votes after a receipt

When the awaited ledgers are looked through, a node ends up with the last of those at hand that it waits
for, in the order in which they come up. Which one that is depends on the ledgers that it waits for and
on nothing that other nodes wait for. So the votes after a receipt are known node by node.

* `Register.turned_congr`: the vote of a node depends on what it waits for alone.
* `Register.SameWorld`: surroundings that differ at most in the order of tables, where that is no matter.
* `Register.Adopted`: the votes and waits after a receipt.
* `Register.adopt_kept`: a receipt leads to them, as long as there is room for the votes.
-/

namespace ForkChoice

variable {T : Type} {a : Archive} {E : Fault → Prop} {nodes : Set Nat} {env env' : Surroundings}

namespace Register

variable {r s : Register T} {node n : Nat} {mark m : Mark} {v : Validation} {prior : Option Mark}
  {stage : Stage}

/-! ## Votes turned -/

theorem due_congr (h : s.Waits n m ↔ r.Waits n m) : s.due env n m = r.due env n m := by
  rw [Bool.eq_iff_iff, due_iff, due_iff, h]

theorem due_eq (hacquire : env'.acquire = env.acquire) : r.due env' n m = r.due env n m := by
  rw [due, due, hacquire]

theorem due_release : (r.release prior node).due env n m = true ↔
    r.due env n m = true ∧ ¬ (n = node ∧ prior = some m) := by
  rw [due_iff, due_iff, waits_release, and_right_comm]

theorem due_release_of_clear (h : ∀ m, n = node → prior = some m → r.due env n m = false) :
    (r.release prior node).due env n m = r.due env n m := by
  rw [Bool.eq_iff_iff, due_release, and_iff_left_of_imp]
  rintro hdue ⟨hn, hprior⟩
  rw [h m hn hprior] at hdue
  cases hdue

theorem turnedAlong_eq (marks : List Mark) (vote : Option Ledger) :
    r.turnedAlong env n marks vote =
      (marks.filter (r.due env n)).foldl (fun _ mark => env.acquire mark.id) vote := by
  rw [turnedAlong, List.foldl_filter]

/-- The awaited ledgers that come up for a node are those that it waits for and that are at hand. -/
theorem mem_keys_filter : m ∈ r.awaited.keys.filter (r.due env n) ↔ r.due env n m = true := by
  rw [List.mem_filter, and_iff_right_of_imp]
  exact fun h => Std.ExtTreeMap.mem_keys.mpr (due_iff.mp h).1.mem_awaited

/-- A node waits for no more than one ledger at hand. -/
def Undivided (r : Register T) (env : Surroundings) (node : Nat) : Prop :=
  ∀ m m', r.due env node m = true → r.due env node m' = true → m = m'

theorem Undivided.length_le_one (h : r.Undivided env n) :
    (r.awaited.keys.filter (r.due env n)).length ≤ 1 := by
  have hnodup : (r.awaited.keys.filter (r.due env n)).Nodup := Std.ExtTreeMap.nodup_keys.filter _
  match hmarks : r.awaited.keys.filter (r.due env n) with
  | [] => simp
  | [_] => simp
  | x :: y :: rest =>
    rw [hmarks] at hnodup
    have hx : x ∈ r.awaited.keys.filter (r.due env n) := by simp [hmarks]
    have hy : y ∈ r.awaited.keys.filter (r.due env n) := by simp [hmarks]
    have hxy := h x y (mem_keys_filter.mp hx) (mem_keys_filter.mp hy)
    exact absurd hxy (List.ne_of_not_mem_cons (List.nodup_cons.mp hnodup).1)

/-- The vote of a node depends on its old one and on the ledgers at hand that it waits for. The order in
which these come up only matters when there are several. -/
theorem turned_congr (hdue : ∀ m, s.due env' n m = r.due env n m)
    (hvote : s.votes[n]? = r.votes[n]?) (hacquire : env'.acquire = env.acquire)
    (horder : env'.order = env.order ∨ r.Undivided env n) :
    s.turned env' n = r.turned env n := by
  have hkeys : s.awaited.keys.filter (s.due env' n) = r.awaited.keys.filter (r.due env n) := by
    have hantisymm (x y : Mark) (hxy : compare x y = .lt) (hyx : compare y x = .lt) : x = y :=
      absurd hyx (Std.OrientedCmp.not_lt_of_lt hxy)
    refine List.Perm.eq_of_pairwise (fun x y _ _ => hantisymm x y)
      (Std.ExtTreeMap.ordered_keys.filter _) (Std.ExtTreeMap.ordered_keys.filter _) ?_
    refine (List.perm_ext_iff_of_nodup (Std.ExtTreeMap.nodup_keys.filter _)
      (Std.ExtTreeMap.nodup_keys.filter _)).mpr fun m => ?_
    rw [mem_keys_filter, mem_keys_filter, hdue]
  have hranked : byRank env'.order.marks (r.awaited.keys.filter (r.due env n)) =
      byRank env.order.marks (r.awaited.keys.filter (r.due env n)) := by
    rcases horder with horder | hundivided
    · rw [horder]
    · rw [byRank_of_length_le_one _ hundivided.length_le_one,
        byRank_of_length_le_one _ hundivided.length_le_one]
  rw [turned, turned, turnedAlong_eq, turnedAlong_eq, ← byRank_filter, ← byRank_filter, hkeys, hranked,
    hvote, hacquire]

/-- A node keeps its vote when it waits for no ledger at hand. -/
theorem turned_idle (hdue : ∀ m, r.due env n m = false) : r.turned env n = r.votes[n]? := by
  rw [turned, turnedAlong_eq, List.filter_eq_nil_iff.mpr fun m _ => by simp [hdue m]]
  rfl

/-- To give up a wait is no matter to the votes unless the ledger is at hand. -/
theorem turned_release (h : ∀ m, n = node → prior = some m → r.due env n m = false) :
    (r.release prior node).turned env n = r.turned env n :=
  turned_congr (fun _ => due_release_of_clear h) (by rw [votes_release]) rfl (Or.inl rfl)

theorem isSome_turnedAlong {marks : List Mark} {vote : Option Ledger}
    (h : vote.isSome ∨ ∃ m ∈ marks, r.due env n m = true) :
    (r.turnedAlong env n marks vote).isSome := by
  induction marks generalizing vote with
  | nil => exact h.resolve_right fun ⟨m, hm, _⟩ => absurd hm List.not_mem_nil
  | cons mark rest ih =>
    refine ih ?_
    dsimp only
    by_cases hdue : r.due env n mark = true
    · obtain ⟨-, l, hl⟩ := due_iff.mp hdue
      rw [if_pos hdue, hl]
      exact Or.inl rfl
    · rw [if_neg hdue]
      refine h.imp_right fun ⟨m, hm, hmdue⟩ => ⟨m, ?_, hmdue⟩
      exact (List.mem_cons.mp hm).resolve_left fun heq => hdue (heq ▸ hmdue)

/-- A node votes if it did before or waits for a ledger at hand. -/
theorem isSome_turned (h : r.votes[n]?.isSome ∨ ∃ m, r.due env n m = true) :
    (r.turned env n).isSome := by
  refine isSome_turnedAlong (h.imp_right fun ⟨m, hm⟩ => ⟨m, mem_byRank.mpr ?_, hm⟩)
  exact Std.ExtTreeMap.mem_keys.mpr (due_iff.mp hm).1.mem_awaited

/-! ## Surroundings -/

/-- Surroundings are the same for a register, but for the order of the tables if no node waits for
several ledgers at hand. -/
structure SameWorld (r : Register T) (env env' : Surroundings) : Prop where
  now : env'.now = env.now
  steady : env'.steady = env.steady
  acquire : env'.acquire = env.acquire
  order : env'.order = env.order ∨ ∀ n, r.Undivided env n

namespace SameWorld

variable (h : r.SameWorld env env')

include h

theorem honest (henv : env.Honest a) : env'.Honest a := by
  refine ⟨fun hl => ?_, fun hl => ?_, fun fault hfault => henv.clock fault (h.now ▸ hfault)⟩
  · rw [h.acquire] at hl
    exact henv.drawn hl
  · rw [h.acquire] at hl
    exact henv.id_eq hl

/-- Ledgers that are waited for less do not make the order matter. -/
theorem of_due (hdue : ∀ n m, s.due env n m = true → r.due env n m = true) : s.SameWorld env env' where
  now := h.now
  steady := h.steady
  acquire := h.acquire
  order := h.order.imp_right fun hundivided n m m' hm hm' =>
    hundivided n m m' (hdue n m hm) (hdue n m' hm')

theorem turned (n : Nat) : r.turned env' n = r.turned env n :=
  turned_congr (fun _ => due_eq h.acquire) rfl h.acquire (h.order.imp_right fun hundivided => hundivided n)

end SameWorld

/-! ## Receipts -/

/-- The votes and waits after a receipt. If they follow at all, the wait for `prior` is given up, all
awaited ledgers are looked at, and the node votes for its new ledger or waits for it. -/
structure Adopted (env : Surroundings) (node : Nat) (v : Validation) (enrolls : Bool)
    (prior : Option Mark) (r s : Register T) : Prop where
  waits : ∀ n m, s.Waits n m ↔ if enrolls then
      (r.Waits n m ∧ ¬ (n = node ∧ prior = some m)) ∧ env.acquire m.id = none ∨
        (n = node ∧ m = v.mark) ∧ env.acquire v.ledgerId = none
    else r.Waits n m
  votes : ∀ n : Nat, s.votes[n]? = if enrolls then
      if n = node ∧ (env.acquire v.ledgerId).isSome then env.acquire v.ledgerId
      else (r.release prior node).turned env n
    else r.votes[n]?

namespace Adopted

variable {enrolls : Bool}

theorem still (h : Adopted env node v false prior r s) :
    (∀ n m, s.Waits n m ↔ r.Waits n m) ∧ ∀ n : Nat, s.votes[n]? = r.votes[n]? :=
  ⟨h.waits, h.votes⟩

/-- Only the votes and waits before matter. -/
theorem of_still {r' : Register T} (h : Adopted env node v enrolls prior r s)
    (hwaits : ∀ n m, r.Waits n m ↔ r'.Waits n m) (hvotes : ∀ n : Nat, r.votes[n]? = r'.votes[n]?) :
    Adopted env node v enrolls prior r' s := by
  have hturned (n : Nat) : (r.release prior node).turned env n =
      (r'.release prior node).turned env n := by
    refine turned_congr (fun m => due_congr ?_) ?_ rfl (Or.inl rfl)
    · rw [waits_release, waits_release, hwaits]
    · rw [votes_release, votes_release, hvotes]
  refine ⟨fun n m => ?_, fun n => ?_⟩
  · rw [h.waits, hwaits]
  · rw [h.votes, hturned, hvotes]

/-- The votes and waits after a receipt are known. -/
theorem unique {s' : Register T} (h : Adopted env node v enrolls prior r s)
    (h' : Adopted env node v enrolls prior r s') :
    (∀ n m, s'.Waits n m ↔ s.Waits n m) ∧ ∀ n : Nat, s'.votes[n]? = s.votes[n]? :=
  ⟨fun n m => (h'.waits n m).trans (h.waits n m).symm, fun n => (h'.votes n).trans (h.votes n).symm⟩

/-- The votes and waits after a receipt are the same in surroundings that are. -/
theorem of_world (h : Adopted env node v enrolls prior r s) (hworld : r.SameWorld env' env) :
    Adopted env' node v enrolls prior r s := by
  have hreleased : (r.release prior node).SameWorld env' env :=
    hworld.of_due fun n m hdue => (due_release.mp hdue).1
  refine ⟨fun n m => ?_, fun n => ?_⟩
  · rw [h.waits, hworld.acquire]
  · rw [h.votes, hreleased.turned, hworld.acquire]

/-- When votes have followed, no node waits for a ledger at hand. -/
theorem idle (h : Adopted env node v true prior r s) (n : Nat) (m : Mark) :
    s.due env n m = false := by
  refine Bool.eq_false_iff.mpr fun hdue => ?_
  obtain ⟨hwaits, l, hl⟩ := due_iff.mp hdue
  rcases (h.waits n m).mp hwaits with ⟨-, hnone⟩ | ⟨⟨-, rfl⟩, hnone⟩
  · rw [hl] at hnone
    cases hnone
  · have hl : env.acquire v.ledgerId = some l := hl
    rw [hl] at hnone
    cases hnone

/-- Surroundings that were the same are so after a receipt. -/
theorem sameWorld (h : Adopted env node v enrolls prior r s) (hworld : r.SameWorld env env') :
    s.SameWorld env env' := by
  refine hworld.of_due fun n m hdue => ?_
  cases enrolls with
  | false => rwa [due_congr (h.waits n m)] at hdue
  | true =>
    rw [h.idle] at hdue
    cases hdue

/-- No vote is lost. -/
theorem isSome_votes (h : Adopted env node v enrolls prior r s) (hn : r.votes[n]?.isSome) :
    s.votes[n]?.isSome := by
  rw [h.votes]
  split
  · split
    · rename_i hself
      exact hself.2
    · exact isSome_turned (Or.inl (by rwa [votes_release]))
  · exact hn

theorem isSome_self (h : Adopted env node v true prior r s) (hl : (env.acquire v.ledgerId).isSome) :
    s.votes[node]?.isSome := by
  rwa [h.votes, if_pos rfl, if_pos ⟨rfl, hl⟩]

/-- Who waits for a ledger at hand votes, unless the wait is given up. -/
theorem isSome_of_due (h : Adopted env node v true prior r s)
    (hdue : (r.release prior node).due env n m = true) : s.votes[n]?.isSome := by
  rw [h.votes, if_pos rfl]
  split
  · rename_i hself
    exact hself.2
  · exact isSome_turned (Or.inr ⟨m, hdue⟩)

end Adopted

variable [VoteTrie T] [LawfulVoteTrie T]

/-- A receipt is carried out as long as there is room for the votes that follow. -/
theorem adopt_kept (ha : a.Sound) (henv : env.Honest a) (hE : Room E nodes) (h : r.Kept a nodes)
    (hprior : r.current[node]?.map (·.mark) = prior)
    (hdue : stage.enrolls v = true → ∀ n m, (r.release prior node).due env n m = true → n ∈ nodes)
    (hnode : stage.enrolls v = true → (env.acquire v.ledgerId).isSome → node ∈ nodes) :
    Ends E (r.adopt env node v stage) fun s => s.Kept a nodes ∧
      s.records = (r.enter env node v stage).records ∧
      Adopted env node v (stage.enrolls v) prior r s := by
  have hwaits (n : Nat) (m : Mark) : (r.enter env node v stage).Waits n m ↔ r.Waits n m := by
    rw [Waits, awaited_enter, Waits]
  have hkept : (r.enter env node v stage).Kept a nodes :=
    h.of_votes (trie_enter r env node v stage) (votes_enter r env node v stage) fun m hm => by
      obtain ⟨n, hn⟩ := h.awaited m (awaited_enter r env node v stage ▸ hm)
      exact ⟨n, (hwaits n m).mpr hn⟩
  rw [adopt, hprior]
  cases henrolls : stage.enrolls v with
  | false =>
    refine Ends.pure ⟨hkept, rfl, ⟨hwaits, fun n => ?_⟩⟩
    rw [votes_enter]
    rfl
  | true =>
    have hreleased (n : Nat) (m : Mark) : ((r.enter env node v stage).release prior node).due env n m =
        (r.release prior node).due env n m :=
      due_congr (by rw [waits_release, waits_release, hwaits])
    refine (enroll_kept ha henv hE hkept v prior (fun n m hn => ?_) (hnode henrolls)).imp ?_
    · exact hdue henrolls n m (hreleased n m ▸ hn)
    · rintro s ⟨hs, henrolled, hvotes⟩
      refine ⟨hs, henrolled.records, fun n m => ?_, fun n => ?_⟩
      · rw [if_pos rfl, henrolled.waits, hwaits]
      · have hturned := turned_congr (hreleased n)
          (by rw [votes_release, votes_release, votes_enter]) rfl (Or.inl rfl)
        rw [if_pos rfl, hvotes, hturned]

end Register

end ForkChoice
