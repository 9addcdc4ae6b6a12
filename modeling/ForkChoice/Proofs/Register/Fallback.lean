import ForkChoice.Proofs.Register.Working

/-!
# The ledger to fall back on

Without votes the choice falls on a ledger that most nodes wait for, ties going to the larger
identifier. The nodes may give one ledger several sequence numbers, so that it is awaited several
times; the last of these to come up is taken then, and the answer depends on the order in which the
table comes up.

* `mostAwaited_spec`, `mostAwaited_append`: the first ledger of a list, and the part of the list that
  decides.
* `Register.Leads`: an awaited ledger that no other one comes before.
* `Register.Refreshed.reorder`: without votes, the order does not matter when the register is brought
  up to date.
* `Register.run_falls_back`: which answers there are, and when there is one alone.
-/

namespace ForkChoice

variable {a : Archive} {env : Surroundings} {order : Order}

/-- The same surroundings, in which tables come up in another order. -/
def Surroundings.reordered (env : Surroundings) (order : Order) : Surroundings := { env with order }

theorem Surroundings.Honest.reordered (h : env.Honest a) (order : Order) :
    (env.reordered order).Honest a := ⟨h.drawn, h.id_eq, h.clock⟩

/-- A question for a ledger to work on. -/
def Request.Chooses : Request → Prop
  | .preferred _ | .preferredId _ _ | .preferredClosed _ _ _ => True
  | _ => False

/-- The order in which one awaited ledger comes up last. -/
def Order.favoring (mark : Mark) : Order := { marks := fun m => if m = mark then 1 else 0 }

namespace Register

/-! ## The first ledger of a list -/

section List

variable {xs ys zs : List (Mark × NodeSet)} {best : Mark × Nat}

theorem mostAwaited_eq_none_iff : mostAwaited xs = none ↔ xs = [] := by
  cases xs with
  | nil => exact iff_of_true rfl rfl
  | cons e rest =>
    apply iff_of_false _ (List.cons_ne_nil e rest)
    rw [mostAwaited]
    split
    · exact Option.some_ne_none _
    · split <;> exact Option.some_ne_none _

/-- No other ledger has more nodes, or as many and a larger identifier. -/
theorem mostAwaited_spec (h : mostAwaited xs = some best) :
    (∃ nodes : NodeSet, (best.1, nodes) ∈ xs ∧ nodes.size = best.2) ∧
      ∀ e ∈ xs, e.2.size < best.2 ∨ e.2.size = best.2 ∧ e.1.id ≤ best.1.id := by
  induction xs generalizing best with
  | nil => cases h
  | cons e rest ih =>
    obtain ⟨mark, nodes⟩ := e
    rw [mostAwaited] at h
    split at h
    · rename_i hrest
      obtain rfl := Option.some.inj h
      rw [mostAwaited_eq_none_iff] at hrest
      subst hrest
      refine ⟨⟨nodes, List.mem_cons_self, rfl⟩, fun e he => ?_⟩
      obtain rfl := List.mem_singleton.mp he
      exact Or.inr ⟨rfl, Nat.le_refl _⟩
    · rename_i second size hrest
      obtain ⟨⟨others, hmem, hsize⟩, hbest⟩ := ih hrest
      split at h
      · rename_i hwins
        obtain rfl := Option.some.inj h
        refine ⟨⟨nodes, List.mem_cons_self, rfl⟩, fun e he => ?_⟩
        rcases List.mem_cons.mp he with rfl | he
        · exact Or.inr ⟨rfl, Nat.le_refl _⟩
        · have := hbest e he
          dsimp only at this ⊢
          omega
      · rename_i hloses
        obtain rfl := Option.some.inj h
        refine ⟨⟨others, List.mem_cons_of_mem _ hmem, hsize⟩, fun e he => ?_⟩
        rcases List.mem_cons.mp he with rfl | he
        · dsimp only
          omega
        · exact hbest e he

/-- What comes up earlier does not matter when it does not come before the first of the rest. -/
theorem mostAwaited_append (h : mostAwaited zs = some best)
    (hys : ∀ e ∈ ys, e.2.size < best.2 ∨ e.2.size = best.2 ∧ e.1.id ≤ best.1.id) :
    mostAwaited (ys ++ zs) = some best := by
  induction ys with
  | nil => exact h
  | cons e rest ih =>
    obtain ⟨mark, nodes⟩ := e
    have hrest := ih fun e he => hys e (List.mem_cons_of_mem _ he)
    have hloses := hys (mark, nodes) List.mem_cons_self
    rw [List.cons_append, mostAwaited, hrest]
    dsimp only at hloses ⊢
    rw [if_neg (by omega)]

end List

/-! ## The ledgers that lead -/

variable {T : Type} {E : Fault → Prop} {nodes : Set Nat} {r s : Register T} {mark m m' : Mark}
  {now : Time}

/-- The number of nodes that wait for a ledger. -/
def demand (r : Register T) (mark : Mark) : Nat := (r.awaited.getD mark ∅).size

/-- A ledger is awaited, and no other one is awaited by more nodes, or by as many under a larger
identifier. -/
structure Leads (r : Register T) (mark : Mark) : Prop where
  awaited : mark ∈ r.awaited
  most : ∀ m ∈ r.awaited, r.demand m < r.demand mark ∨
    r.demand m = r.demand mark ∧ m.id ≤ mark.id

/-- Only one ledger leads. -/
def Undisputed (r : Register T) : Prop := ∀ m m', r.Leads m → r.Leads m' → m = m'

instance (r : Register T) (mark : Mark) : Decidable (r.Leads mark) :=
  decidable_of_iff (mark ∈ r.awaited.keys ∧ ∀ m ∈ r.awaited.keys, r.demand m < r.demand mark ∨
      r.demand m = r.demand mark ∧ m.id ≤ mark.id) (by
    simp only [Std.ExtTreeMap.mem_keys]
    exact ⟨fun h => ⟨h.1, h.2⟩, fun h => ⟨h.awaited, h.most⟩⟩)

instance (r : Register T) : Decidable r.Undisputed :=
  decidable_of_iff (∀ m ∈ r.awaited.keys, ∀ m' ∈ r.awaited.keys,
      r.Leads m → r.Leads m' → m = m') (by
    simp only [Std.ExtTreeMap.mem_keys]
    exact ⟨fun h m m' hm hm' => h m hm.awaited m' hm'.awaited hm hm', fun h m _ m' _ => h m m'⟩)

/-- All ledgers that lead have one identifier; their sequence numbers may differ. -/
theorem Leads.id_eq (h : r.Leads m) (h' : r.Leads m') : m.id = m'.id := by
  have hm := h'.most m h.awaited
  have hm' := h.most m' h'.awaited
  omega

theorem demand_of_mem {nodes : NodeSet} (h : (m, nodes) ∈ r.awaited.toList) :
    m ∈ r.awaited ∧ r.demand m = nodes.size := by
  rw [Std.ExtTreeMap.mem_toList_iff_getElem?_eq_some] at h
  constructor
  · rw [Std.ExtTreeMap.mem_iff_isSome_getElem?, h]
    rfl
  · rw [demand, Std.ExtTreeMap.getD_eq_getD_getElem?, h]
    rfl

theorem exists_mem_of_awaited (h : m ∈ r.awaited) :
    ∃ nodes : NodeSet, (m, nodes) ∈ r.awaited.toList := by
  rw [Std.ExtTreeMap.mem_iff_isSome_getElem?, Option.isSome_iff_exists] at h
  obtain ⟨nodes, hnodes⟩ := h
  exact ⟨nodes, Std.ExtTreeMap.mem_toList_iff_getElem?_eq_some.mpr hnodes⟩

/-- The ledger to fall back on depends on what is awaited alone. -/
theorem fallback_congr (h : s.awaited = r.awaited) : s.fallback env = r.fallback env := by
  rw [fallback, fallback, h]

theorem fallback_eq_none_iff : r.fallback env = none ↔ r.awaited = ∅ := by
  rw [fallback, Option.map_eq_none_iff, mostAwaited_eq_none_iff,
    ← Std.ExtTreeMap.toList_eq_nil_iff]
  have hperm := byRank_perm (fun entry => env.order.marks entry.1) r.awaited.toList
  constructor
  · intro h
    exact (h ▸ hperm).nil_eq.symm
  · intro h
    rw [h]
    exact (byRank_perm _ []).eq_nil

/-- The ledger to fall back on leads. -/
theorem leads_of_fallback (h : r.fallback env = some mark) : r.Leads mark := by
  obtain ⟨best, hbest, rfl⟩ := Option.map_eq_some_iff.mp h
  obtain ⟨⟨nodes, hmem, hsize⟩, hmost⟩ := mostAwaited_spec hbest
  obtain ⟨hawaited, hdemand⟩ := demand_of_mem (mem_byRank.mp hmem)
  refine ⟨hawaited, fun m hm => ?_⟩
  obtain ⟨others, hothers⟩ := exists_mem_of_awaited hm
  have := hmost (m, others) (mem_byRank.mpr hothers)
  rwa [hdemand, hsize, (demand_of_mem hothers).2]

/-- Every ledger that leads is fallen back on when it comes up last. -/
theorem fallback_favoring (h : r.Leads mark) :
    r.fallback (env.reordered (.favoring mark)) = some mark := by
  obtain ⟨nodes, hmem⟩ := exists_mem_of_awaited h.awaited
  have hrises := byRank_rises (fun e => (Order.favoring mark).marks e.1) r.awaited.toList
  have hlisted : ∀ e, e ∈ byRank (fun e => (Order.favoring mark).marks e.1) r.awaited.toList ↔
      e ∈ r.awaited.toList := fun e => mem_byRank
  rw [fallback, show (env.reordered (.favoring mark)).order = .favoring mark from rfl]
  generalize byRank (fun e => (Order.favoring mark).marks e.1) r.awaited.toList = xs at *
  have hin := (hlisted _).mpr hmem
  rcases xs.eq_nil_or_concat' with rfl | ⟨ys, last, rfl⟩
  · cases hin
  -- no other ledger has the rank of the favored one, so that one comes up last
  have hlast : last.1 = mark := by
    rcases List.mem_append.mp hin with hin | hin
    · have hle := (List.pairwise_append.mp hrises).2.2 _ hin last List.mem_cons_self
      by_contra hne
      simp [Order.favoring, hne] at hle
    · rw [← List.mem_singleton.mp hin]
  have hdemand := (demand_of_mem ((hlisted last).mp (List.mem_append_right _ List.mem_cons_self))).2
  have hbest : mostAwaited (ys ++ [last]) = some (last.1, last.2.size) := by
    refine mostAwaited_append rfl fun e he => ?_
    obtain ⟨hawaited, he'⟩ := demand_of_mem ((hlisted e).mp (List.mem_append_left _ he))
    have := h.most e.1 hawaited
    rwa [he', ← hlast, hdemand] at this
  rw [hbest, Option.map_some, hlast]

/-- When one ledger leads alone, the order does not matter. -/
theorem Undisputed.fallback_eq (h : r.Undisputed) (env env' : Surroundings) :
    r.fallback env = r.fallback env' := by
  cases hmark : r.fallback env with
  | none =>
    symm
    rw [fallback_eq_none_iff] at hmark ⊢
    exact hmark
  | some mark =>
    cases hmark' : r.fallback env' with
    | none =>
      rw [fallback_eq_none_iff] at hmark'
      cases hmark.symm.trans (fallback_eq_none_iff.mpr hmark')
    | some mark' => rw [h mark mark' (leads_of_fallback hmark) (leads_of_fallback hmark')]

/-! ## Another order -/

/-- What a register that was brought up to date has awaited before, and for no stale validation, and
is not at hand. -/
theorem Refreshed.waits (hs : Refreshed env now r s) {n : Nat} : s.Waits n m ↔
    (r.Waits n m ∧ ∀ v, r.Stale now n v → m ≠ v.mark) ∧ env.acquire m.id = none := by
  obtain ⟨swept, hswept, hsettled⟩ := hs
  rw [hsettled.waits n m, hswept.waits n m]
  simp

/-- When the votes of all nodes lapse in one order, they do in every order. -/
theorem Lapses.reordered {n : Nat} (h : Lapses env r now n) (order : Order) :
    Lapses (env.reordered order) r now n := ⟨h.votes, h.waits⟩

variable [VoteTrie T] [LawfulVoteTrie T]

/-- A register is swept when each of its validations can be judged. -/
theorem exists_sweep (ha : a.Sound) (henv : env.Honest a) (h : r.Sound a nodes)
    (hnow : env.now = .ok now)
    (hjudged : ∀ (n : Nat) v, r.current[n]? = some v → r.Fresh now n v ∨ r.Stale now n v) :
    ∃ o, r.sweep env = pure o ∧ o.register.Sound a nodes ∧ Swept now r o.register := by
  have hstale : ∃ stale, staleAmong r.timing now (r.entries env) = .ok stale := by
    refine ⟨_, staleAmong_eq_ok.mpr ⟨fun e he => ?_, rfl⟩⟩
    have hentry := Std.ExtTreeMap.mem_toList_iff_getElem?_eq_some.mp (mem_byRank.mp he)
    rcases hjudged e.1 e.2 hentry with hfresh | hstale
    · exact ⟨true, hfresh.fresh⟩
    · exact ⟨false, hstale.stale⟩
  obtain ⟨stale, hstale⟩ := hstale
  have hsweep : ∃ o, r.sweep env = pure o := by
    rcases retireAll_end (E := fun _ => False) ha stale h with ⟨s, hs, -⟩ | ⟨fault, -, hfault⟩
    · refine ⟨⟨(), s, stale.map (·.2)⟩, ?_⟩
      rw [sweep, hnow, show (liftM (Except.ok now) : Computation Time) = pure now from rfl, pure_bind,
        hstale, show (liftM (Except.ok stale) : Computation _) = pure stale from rfl, pure_bind, hs,
        pure_bind]
    · exact hfault.elim
  obtain ⟨o, ho⟩ := hsweep
  obtain ⟨hs, now', hnow', hswept⟩ := (sweep_ends ha henv (fun _ => id) h).result ho
  obtain rfl : now = now' := Except.ok.inj (hnow.symm.trans hnow')
  exact ⟨o, ho, hs, hswept⟩

/-- When bringing a register up to date leaves no votes, it does so in every order, and leaves the same
ledgers awaited. -/
theorem Refreshed.reorder (ha : a.Sound) (henv : env.Honest a) (h : r.Sound a nodes)
    (hnow : env.now = .ok now) (hs : Refreshed env now r s) (hawaited : s.Awaited)
    (hvotes : s.votes = ∅) (order : Order) :
    ∃ fresh, r.refresh (env.reordered order) = pure fresh ∧ fresh.register.Kept a ∅ ∧
      fresh.register.votes = ∅ ∧ fresh.register.awaited = s.awaited := by
  have hlapses n : Lapses env r now n := by
    apply hs.vote_eq_none_iff.mp
    rw [hvotes]
    exact Std.ExtTreeMap.getElem?_empty
  have hjudged := hs.choose_spec.1.judged
  obtain ⟨o, ho, hsound, hswept⟩ := exists_sweep ha (henv.reordered order) h hnow hjudged
  have hnone : ∀ n : Nat, o.register.votes[n]? = none := fun n =>
    hswept.vote_eq_none_iff.mpr (hlapses n).votes
  have hkept : o.register.Kept a ∅ := by
    refine ⟨hsound.holds, hsound.drawn, hsound.awaited, fun n hn => ?_⟩
    obtain ⟨l, hl, -⟩ := mem_votersIn.mp hn
    rw [hnone n] at hl
    cases hl
  -- nobody waits for a ledger that is at hand, so no vote is made
  have hsettle := settle_kept (E := fun _ => False) ha (henv.reordered order)
    (fun nodes hnodes hcard => ?_) hkept fun n m hdue => ?_
  · rcases hsettle with ⟨s', hs', hkept', hsettled, -⟩ | ⟨fault, -, hfault⟩
    · have hrefreshed : Refreshed (env.reordered order) now r s' := ⟨o.register, hswept, hsettled⟩
      refine ⟨⟨(), s', o.retired⟩, ?_, hkept', Std.ExtTreeMap.ext_getElem? fun n => ?_, ?_⟩
      · rw [refresh, ho, pure_bind, hs', pure_bind]
      · rw [Std.ExtTreeMap.getElem?_empty]
        exact hrefreshed.vote_eq_none_iff.mpr ((hlapses n).reordered order)
      · exact awaited_ext hawaited hkept'.awaited fun n m => hrefreshed.waits.trans hs.waits.symm
    · exact hfault.elim
  · rw [Finset.eq_empty_of_forall_notMem hnodes, Finset.card_empty] at hcard
    exact absurd hcard (Nat.not_lt_zero _)
  · obtain ⟨hwaits, l, hl⟩ := due_iff.mp hdue
    obtain ⟨hwaits, hgone⟩ := (hswept.waits n m).mp hwaits
    obtain ⟨v, hv, hmark⟩ := (hlapses n).waits m hwaits (by rw [Option.isSome_iff_exists]; exact ⟨l, hl⟩)
    exact absurd hmark (hgone v hv)

/-! ## Answers -/

omit [LawfulVoteTrie T] in
/-- Each question for a ledger to work on is answered by the ledger that is preferred. -/
theorem exists_step_eq {request : Request} (h : request.Chooses) :
    ∃ (curr : Ledger) (reply : Option Mark → Reply), ∀ (r : Register T) env,
      r.step env request = (·.map reply) <$> r.preferred env curr := by
  cases request with
  | preferred curr => exact ⟨curr, .choice, fun r env => rfl⟩
  | preferredId curr least =>
    refine ⟨curr, fun answer => .ledger (answer.elim curr.id fun mark =>
      if least ≤ mark.seq then mark.id else curr.id), fun r env => ?_⟩
    rw [step, preferredId, ← map_eq_pure_bind, Functor.map_map]
    refine congrArg (· <$> r.preferred env curr) (funext fun o => ?_)
    obtain ⟨answer, u, retired⟩ := o
    cases answer <;> rfl
  | preferredClosed closed least counts =>
    refine ⟨closed, fun answer => .ledger (answer.elim
      ((mostCounted counts.toList).elim closed.id (·.1)) fun mark =>
        if least ≤ mark.seq then mark.id else closed.id), fun r env => ?_⟩
    rw [step, preferredClosed, ← map_eq_pure_bind, Functor.map_map]
    refine congrArg (· <$> r.preferred env closed) (funext fun o => ?_)
    obtain ⟨answer, u, retired⟩ := o
    cases answer with
    | some mark => rfl
    | none =>
      simp only [Outcome.map, Option.elim_none]
      cases mostCounted counts.toList <;> rfl
  | _ => exact h.elim

/-- Without votes, what is preferred is the ledger to fall back on, in whichever order. -/
theorem Refreshed.preferred_eq (ha : a.Sound) (henv : env.Honest a) (h : r.Sound a nodes)
    (hnow : env.now = .ok now) (hs : Refreshed env now r s) (hawaited : s.Awaited)
    (hvotes : s.votes = ∅) (order : Order) :
    ∃ u : Register T, u.awaited = s.awaited ∧ ∃ retired, ∀ curr,
      r.preferred (env.reordered order) curr =
        pure ⟨s.fallback (env.reordered order), u, retired⟩ := by
  obtain ⟨fresh, hfresh, hkept, hnone, hsame⟩ := hs.reorder ha henv h hnow hawaited hvotes order
  refine ⟨fresh.register, hsame, fresh.retired, fun curr => ?_⟩
  have hfavored : fresh.register.favored a = none := favored_eq_none_iff.mpr hnone
  rw [Register.preferred_eq ha hfresh hkept fun p hp => ?_, working, hfavored]
  · dsimp only
    rw [fallback_congr hsame]
  · rw [hfavored] at hp
    cases hp

/-- A trie is empty just when nobody votes. -/
theorem isEmpty_trie_iff {Slot : Type} [DecidableEq Slot] {A : Slots Slot (Cell Slot)}
    {r : Register (ArenaTrie A)} (h : r.Kept a nodes) :
    r.trie.isEmpty = .ok true ↔ r.votes = ∅ := by
  obtain ⟨S, hshows, hcounts, -⟩ := h.holds
  rw [← favored_eq_none_iff (a := a), Register.favored, ite_eq_left_iff, hshows.isEmpty_eq,
    Except.ok.injEq, hcounts.isEmpty_iff]
  simp

/-- After any run, when the trie holds no votes, the choice falls on an awaited ledger that leads, if
any is awaited. In whichever order the tables come up, the answer is one of those, and each of them
is the answer in some order; they have one identifier, but may differ in sequence number. When one
leads alone, no question for a ledger to work on depends on the order. -/
theorem run_falls_back {Slot : Type} [DecidableEq Slot] (A : Slots Slot (Cell Slot))
    (ha : a.Reachable) {requests : List (Surroundings × Request)}
    (h : Orderly a Set.univ requests) (timing : Timing) (henv : env.Honest a) :
    Ends Bounded ((empty timing : Register (ArenaTrie A)).after requests) fun r =>
      ∀ fresh, r.refresh env = pure fresh → fresh.register.trie.isEmpty = .ok true →
        (∀ order curr, ∃ o answer, r.step (env.reordered order) (.preferred curr) = pure o ∧
          o.answer = .choice answer ∧ o.register.awaited = fresh.register.awaited ∧
          (answer = none ↔ fresh.register.awaited = ∅) ∧
          ∀ mark, answer = some mark → fresh.register.Leads mark) ∧
        (∀ mark curr, fresh.register.Leads mark → ∃ order o,
          r.step (env.reordered order) (.preferred curr) = pure o ∧
            o.answer = .choice (some mark)) ∧
        (∀ m m', fresh.register.Leads m → fresh.register.Leads m' → m.id = m'.id) ∧
        (fresh.register.Undisputed → ∀ request : Request, request.Chooses → ∃ answer,
          ∀ order, ∃ o, r.step (env.reordered order) request = pure o ∧ o.answer = answer) := by
  refine ((sound_empty ha.sound timing).after ha.sound (fun _ => Or.inl) (room_bounded _) h).imp
    fun r hr fresh hfresh hempty => ?_
  obtain ⟨hs, now, hnow, hrefreshed⟩ :=
    (refresh_ends ha.sound henv (fun _ => Or.inl) (room_bounded _) hr).result hfresh
  have hpreferred := hrefreshed.preferred_eq ha.sound henv hr hnow hs.awaited
    ((isEmpty_trie_iff hs.kept).mp hempty)
  refine ⟨fun order curr => ?_, fun mark curr hmark => ?_, fun m m' hm hm' => hm.id_eq hm',
    fun hone request hrequest => ?_⟩
  · obtain ⟨u, hsame, retired, hu⟩ := hpreferred order
    refine ⟨_, _, by rw [step, hu, map_pure], rfl, hsame, fallback_eq_none_iff, ?_⟩
    exact fun mark => leads_of_fallback
  · obtain ⟨u, -, retired, hu⟩ := hpreferred (.favoring mark)
    refine ⟨.favoring mark, _, by rw [step, hu, map_pure], ?_⟩
    exact congrArg Reply.choice (fallback_favoring hmark)
  · obtain ⟨curr, reply, hreply⟩ := exists_step_eq (T := ArenaTrie A) hrequest
    refine ⟨reply (fresh.register.fallback env), fun order => ?_⟩
    obtain ⟨u, -, retired, hu⟩ := hpreferred order
    exact ⟨_, by rw [hreply, hu, map_pure], congrArg reply (hone.fallback_eq _ _)⟩

/-- A register without votes that is up to date falls back on a ledger that is awaited. -/
theorem UpToDate.preferred_eq (ha : a.Sound) (h : r.UpToDate env now) (hnow : env.now = .ok now)
    (hkept : r.Kept a nodes) (hvotes : r.votes = ∅) (order : Order)
    (curr : Ledger) : r.preferred (env.reordered order) curr =
      pure ⟨r.fallback (env.reordered order), r, []⟩ := by
  have hfavored : r.favored a = none := favored_eq_none_iff.mpr hvotes
  have hup : r.UpToDate (env.reordered order) now := ⟨h.fresh, h.away⟩
  rw [Register.preferred_eq ha (hup.refresh_eq hnow) hkept fun p hp => ?_, working, hfavored]
  rw [hfavored] at hp
  cases hp

/-- Two nodes wait for the left side, and a third one for the right side. -/
def uneven : List Fork.Line :=
  [(Fork.early, [], .receive 1 (Fork.word 1 Fork.left Fork.early)),
    (Fork.early, [], .receive 2 (Fork.word 2 Fork.left Fork.early)),
    (Fork.early, [], .receive 3 (Fork.word 3 Fork.right Fork.early))]

/-- The left side is chosen in every order, although the right side has the larger identifier. -/
theorem run_falls_back_fork :
    ∃ r fresh, (empty {} : Register (ArenaTrie (Slots.numbered (Cell Nat)))).after
        (Fork.script uneven) = pure r ∧
      r.refresh (Fork.world Fork.soon []) = pure fresh ∧
      fresh.register.trie.isEmpty = .ok true ∧ fresh.register.Undisputed ∧
      ∀ order, ∃ o, r.step ((Fork.world Fork.soon []).reordered order) (.preferred .genesis) =
        pure o ∧ o.answer = .choice (some Fork.left.mark) := by
  have huneven : ∀ line ∈ uneven, line.2.2.Apt Fork.archive Set.univ := by
    simp [uneven, Request.Apt]
  obtain ⟨r, t, hr, hsound, hup, htest⟩ := Fork.exists_upToDate uneven []
    (fun s => decide (s.votes.isEmpty ∧ s.Undisputed ∧ s.Leads Fork.left.mark)) huneven
    (by decide +kernel)
  obtain ⟨hvotes, hone, hleft⟩ := of_decide_eq_true htest
  have hvotes : r.votes = ∅ := Std.ExtTreeMap.isEmpty_iff.mp hvotes
  have hfresh := hup.refresh_eq (show (Fork.world Fork.soon []).now = .ok Fork.soon from rfl)
  have hempty := (isEmpty_trie_iff hsound.kept).mpr hvotes
  have hone : r.Undisputed := fun m m' hm hm' =>
    hone m m' ⟨hm.awaited, hm.most⟩ ⟨hm'.awaited, hm'.most⟩
  obtain ⟨-, hleads, -, hsame⟩ := (run_falls_back (Slots.numbered (Cell Nat))
    Fork.archive_reachable (Fork.orderly_script uneven huneven) {}
    (Fork.honest Fork.soon [])).result hr _ hfresh hempty
  refine ⟨r, _, hr, hfresh, hempty, hone, fun order => ?_⟩
  obtain ⟨answer, hanswer⟩ := hsame hone (.preferred .genesis) trivial
  obtain ⟨favored, o, ho, hleft⟩ := hleads _ .genesis ⟨hleft.awaited, hleft.most⟩
  obtain ⟨o', ho', hsame'⟩ := hanswer favored
  obtain rfl := pure_inj (ho.symm.trans ho')
  obtain ⟨o'', ho'', hsame''⟩ := hanswer order
  exact ⟨o'', ho'', hsame''.trans (hsame'.symm.trans hleft)⟩

/-- Two nodes wait for the left side, but give it different sequence numbers. -/
def disputed : List Fork.Line :=
  [(Fork.early, [], .receive 1 (Fork.word 1 Fork.left Fork.early)),
    (Fork.early, [], .receive 2 { Fork.word 2 Fork.left Fork.early with seq := 1 })]

/-- Which sequence number is answered depends on the order, and so does the choice of a ledger that is
not to lie before the sequence number 2. -/
theorem run_falls_back_disputed :
    ∃ r, (empty {} : Register (ArenaTrie (Slots.numbered (Cell Nat)))).after
        (Fork.script disputed) = pure r ∧ r.trie.isEmpty = .ok true ∧
      ∃ order order' o o' u u',
        r.step ((Fork.world Fork.soon []).reordered order) (.preferred .genesis) = pure o ∧
        r.step ((Fork.world Fork.soon []).reordered order') (.preferred .genesis) = pure o' ∧
        r.step ((Fork.world Fork.soon []).reordered order) (.preferredId .genesis 2) = pure u ∧
        r.step ((Fork.world Fork.soon []).reordered order') (.preferredId .genesis 2) = pure u' ∧
        o.answer = .choice (some ⟨1, 2⟩) ∧ o'.answer = .choice (some ⟨2, 2⟩) ∧
        u.answer = .ledger 0 ∧ u'.answer = .ledger 2 := by
  obtain ⟨r, t, hr, hsound, hup, htest⟩ := Fork.exists_upToDate disputed []
    (fun s => decide (s.votes.isEmpty ∧ s.Leads ⟨1, 2⟩ ∧ s.Leads ⟨2, 2⟩))
    (by simp [disputed, Request.Apt]) (by decide +kernel)
  obtain ⟨hvotes, hlow, hhigh⟩ := of_decide_eq_true htest
  have hvotes : r.votes = ∅ := Std.ExtTreeMap.isEmpty_iff.mp hvotes
  have hfavoring {mark : Mark} (hmark : r.Leads mark) :
      r.fallback ((Fork.world Fork.soon []).reordered (.favoring mark)) = some mark :=
    fallback_favoring hmark
  have hlow := hfavoring ⟨hlow.awaited, hlow.most⟩
  have hhigh := hfavoring ⟨hhigh.awaited, hhigh.most⟩
  have hpreferred := hup.preferred_eq Fork.archive_reachable.sound rfl hsound.kept hvotes
  refine ⟨r, hr, (isEmpty_trie_iff hsound.kept).mpr hvotes, .favoring ⟨1, 2⟩, .favoring ⟨2, 2⟩, _, _, _, _,
    by rw [step, hpreferred, map_pure], by rw [step, hpreferred, map_pure],
    by rw [step, preferredId, hpreferred, pure_bind, map_pure],
    by rw [step, preferredId, hpreferred, pure_bind, map_pure], ?_, ?_, ?_, ?_⟩
  · exact congrArg Reply.choice hlow
  · exact congrArg Reply.choice hhigh
  · simp only [Outcome.map, hlow]
    rfl
  · simp only [Outcome.map, hhigh]
    rfl

end Register

end ForkChoice
