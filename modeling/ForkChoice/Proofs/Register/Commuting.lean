import ForkChoice.Proofs.Register.History
import ForkChoice.Proofs.Register.Turning
import ForkChoice.Proofs.Trie.Arena.Shape

/-!
# Receipts from two nodes

Of a validation nothing is recorded but under its own node, so what two nodes say is judged and recorded
alike in either order. Of votes this is so but for one case: a node waits for a ledger that has come to
hand, and goes on to a ledger that has not. If it goes on first, the wait is given up and the vote is
never made; if another node comes first, it is made.

* `Register.enter_enter`: what is recorded of two nodes.
* `Register.Overtaken`: the case in which votes differ.
* `Register.Adopted.waits_comm`, `Register.Adopted.votes_comm`: waits and votes after both receipts.
-/

namespace ForkChoice

variable {T : Type} {a : Archive} {nodes : Set Nat} {env env' : Surroundings} {m n k : Nat} {v w : Validation}

namespace Register

variable {r s x y x' y' : Register T} {stage first second : Stage} {mark : Mark}

/-! ## Records -/

/-- What a validation of a node is judged by is the same in two registers. -/
structure SameRecord (node : Nat) (r s : Register T) : Prop where
  timing : s.timing = r.timing
  guard : s.guards.getD node {} = r.guards.getD node {}
  current : s.current[node]? = r.current[node]?
  tracked : ∀ seq, s.bySeq.member? seq node = r.bySeq.member? seq node

theorem SameRecord.assess (h : SameRecord n r s) (hnow : env'.now = env.now)
    (hsteady : env'.steady = env.steady) : s.assess env' n w = r.assess env n w := by
  rw [Register.assess, Register.assess, hnow, hsteady, h.timing, h.guard, h.current]

theorem trackedFor_congr (htiming : s.timing = r.timing)
    (htracked : s.bySeq.member? w.seq n = r.bySeq.member? w.seq n) :
    s.trackedFor n w = r.trackedFor n w := by
  have htracked : (s.bySeq.get? w.seq).bind (·[n]?) = (r.bySeq.get? w.seq).bind (·[n]?) := htracked
  rw [trackedFor, trackedFor, htracked, htiming]

theorem SameRecord.outcome (h : SameRecord n r s) (w : Validation) (stage : Stage)
    (x y : Register T) : (s.outcome n w stage y).answer = (r.outcome n w stage x).answer ∧
      (s.outcome n w stage y).retired = (r.outcome n w stage x).retired := by
  rw [Register.outcome, Register.outcome, trackedFor_congr h.timing (h.tracked w.seq), h.current]
  exact ⟨rfl, rfl⟩

/-- Nothing is recorded but under the node of a validation. -/
theorem sameRecord_enter (hne : m ≠ n) (h : s.records = (r.enter env m v stage).records) :
    SameRecord n r s where
  timing := (congrArg timing h).trans (by cases stage <;> rfl)
  guard := by
    refine (congrArg (fun s => s.guards.getD n {}) h).trans ?_
    cases stage with
    | ignored => rfl
    | refused | late | installed =>
      exact Std.ExtTreeMap.getD_insert.trans (if_neg (Nat.compare_eq_eq.not.mpr hne))
  current := by
    refine (congrArg (fun s => s.current[n]?) h).trans ?_
    cases stage with
    | ignored | refused | late => rfl
    | installed =>
      exact Std.ExtTreeMap.getElem?_insert.trans (if_neg (Nat.compare_eq_eq.not.mpr hne))
  tracked seq := by
    refine (congrArg (fun s => s.bySeq.member? seq n) h).trans ?_
    cases stage with
    | ignored => rfl
    | refused | late | installed =>
      exact (AgedMap.member?_put _ _ _ _ _ _ _).trans (if_neg fun hsame => hne hsame.2)

theorem track_track (hne : m ≠ n) (r : Register T) :
    (r.track env m v).track env n w = (r.track env n w).track env m v := by
  have hother {m n : Nat} {v w : Validation} (hne : m ≠ n) :
      (r.track env m v).trackedFor n w = r.trackedFor n w :=
    trackedFor_congr rfl
      ((AgedMap.member?_put _ _ _ _ _ _ _).trans (if_neg fun hsame => hne hsame.2))
  have hbySeq : ((r.track env m v).track env n w).bySeq = ((r.track env n w).track env m v).bySeq := by
    show (r.bySeq.put env.steady v.seq ∅ (·.insert m (r.trackedFor m v))).put env.steady w.seq ∅
        (·.insert n ((r.track env m v).trackedFor n w)) =
      (r.bySeq.put env.steady w.seq ∅ (·.insert n (r.trackedFor n w))).put env.steady v.seq ∅
        (·.insert m ((r.track env n w).trackedFor m v))
    rw [hother hne, hother (Ne.symm hne)]
    exact AgedMap.put_comm _ _ _ fun _ inner => insert_insert_comm inner hne _ _
  exact congrArg (fun bySeq => { r with bySeq }) hbySeq

theorem file_file (hne : m ≠ n) (r : Register T) :
    (r.file env m v).file env n w = (r.file env n w).file env m v :=
  congrArg (fun byLedger => { r with byLedger })
    (AgedMap.put_comm r.byLedger env.steady ∅ fun _ inner => insert_insert_comm inner hne v w)

/-- What changes the records of one node as their parts are changed is done before or after a validation
is entered. -/
theorem enter_map {f : Register T → Register T}
    (htrack : ∀ r, f (r.track env m v) = (f r).track env m v)
    (hguard : ∀ r guard, f (r.withGuard m guard) = (f r).withGuard m guard)
    (hfile : ∀ r, f (r.file env m v) = (f r).file env m v)
    (hcurrent : ∀ r, f (r.withCurrent m v) = (f r).withCurrent m v) (stage : Stage)
    (r : Register T) : f (r.enter env m v stage) = (f r).enter env m v stage := by
  cases stage <;> simp only [enter, htrack, hguard, hfile, hcurrent]

/-- Validations of two nodes are entered in either order. -/
theorem enter_enter (hne : m ≠ n) (first second : Stage) (r : Register T) :
    (r.enter env m v first).enter env n w second = (r.enter env n w second).enter env m v first := by
  refine enter_map (f := fun r => r.enter env n w second) (fun r => ?_) (fun r guard => ?_)
    (fun r => ?_) (fun r => ?_) first r
  · exact (enter_map (f := fun r => r.track env m v) (fun r => (track_track hne r).symm)
      (fun _ _ => rfl) (fun _ => rfl) (fun _ => rfl) second r).symm
  · refine (enter_map (f := fun r => r.withGuard m guard) (fun _ => rfl) (fun r other => ?_)
      (fun _ => rfl) (fun _ => rfl) second r).symm
    exact congrArg (fun guards => { r with guards })
      (insert_insert_comm r.guards (Ne.symm hne) other guard)
  · exact (enter_map (f := fun r => r.file env m v) (fun _ => rfl) (fun _ _ => rfl)
      (fun r => (file_file hne r).symm) (fun _ => rfl) second r).symm
  · refine (enter_map (f := fun r => r.withCurrent m v) (fun _ => rfl) (fun _ _ => rfl)
      (fun _ => rfl) (fun r => ?_) second r).symm
    exact congrArg (fun current => { r with current })
      (insert_insert_comm r.current (Ne.symm hne) w v)

theorem enter_congr (hsteady : env'.steady = env.steady) :
    r.enter env' m v stage = r.enter env m v stage := by
  cases stage <;> simp only [enter, track, file, hsteady]

/-- Records that are the same stay so when a validation is entered. -/
theorem records_enter (h : s.records = r.records) :
    (s.enter env m v stage).records = (r.enter env m v stage).records := by
  rw [eq_upon_of_records h, ← enter_upon, records_upon]

/-! ## Votes and waits -/

/-- A node waits for the ledger of its current validation, which is at hand, and goes on to a ledger
that is not. -/
def Overtaken (r : Register T) (env : Surroundings) (node : Nat) (v : Validation) : Prop :=
  env.acquire v.ledgerId = none ∧
    ∃ mark, r.current[node]?.map (·.mark) = some mark ∧ r.due env node mark = true

namespace Adopted

variable {b c : Bool} {p q : Option Mark}

/-- If votes follow on one of the validations at most, the order is no matter. -/
theorem comm_of_still (h : b = false ∨ c = false) (hx : Adopted env m v b p r x)
    (hy : Adopted env n w c q x y) (hx' : Adopted env n w c q r x') (hy' : Adopted env m v b p x' y') :
    (∀ k mark, y'.Waits k mark ↔ y.Waits k mark) ∧ ∀ k : Nat, y'.votes[k]? = y.votes[k]? := by
  rcases h with rfl | rfl
  · have hfirst := hx.still
    have hlast := hy'.still
    have hsame := (hy.of_still hfirst.1 hfirst.2).unique hx'
    exact ⟨fun k mark => (hlast.1 k mark).trans (hsame.1 k mark),
      fun k => (hlast.2 k).trans (hsame.2 k)⟩
  · have hfirst := hx'.still
    have hlast := hy.still
    have hsame := hx.unique (hy'.of_still hfirst.1 hfirst.2)
    exact ⟨fun k mark => (hsame.1 k mark).trans (hlast.1 k mark).symm,
      fun k => (hsame.2 k).trans (hlast.2 k).symm⟩

/-- After two receipts those wait who waited before and did not give it up, and the nodes whose new
ledger is not at hand. -/
theorem waits_next (hne : m ≠ n) (hx : Adopted env m v true p r x) (hy : Adopted env n w true q x y)
    (k : Nat) (mark : Mark) : y.Waits k mark ↔
      (r.Waits k mark ∧ ¬ (k = m ∧ p = some mark) ∧ ¬ (k = n ∧ q = some mark)) ∧
          env.acquire mark.id = none ∨
        (k = m ∧ mark = v.mark) ∧ env.acquire v.ledgerId = none ∨
          (k = n ∧ mark = w.mark) ∧ env.acquire w.ledgerId = none := by
  have hfirst := hx.waits k mark
  have hsecond := hy.waits k mark
  rw [if_pos rfl] at hfirst hsecond
  rw [hsecond, hfirst]
  constructor
  · rintro (⟨⟨⟨⟨hwait, hp⟩, -⟩ | hself, hq⟩, hnone⟩ | hself)
    · exact Or.inl ⟨⟨hwait, hp, hq⟩, hnone⟩
    · exact Or.inr (Or.inl hself)
    · exact Or.inr (Or.inr hself)
  · rintro (⟨⟨hwait, hp, hq⟩, hnone⟩ | ⟨⟨rfl, rfl⟩, hnone⟩ | hself)
    · exact Or.inl ⟨⟨Or.inl ⟨⟨hwait, hp⟩, hnone⟩, hq⟩, hnone⟩
    · exact Or.inl ⟨⟨Or.inr ⟨⟨rfl, rfl⟩, hnone⟩, fun hself => hne hself.1⟩, hnone⟩
    · exact Or.inr hself

/-- Who waits after two receipts does so in either order. -/
theorem waits_comm (hne : m ≠ n) (hx : Adopted env m v true p r x) (hy : Adopted env n w true q x y)
    (hx' : Adopted env n w true q r x') (hy' : Adopted env m v true p x' y') (k : Nat) (mark : Mark) :
    y'.Waits k mark ↔ y.Waits k mark := by
  rw [hx.waits_next hne hy, hx'.waits_next (Ne.symm hne) hy',
    or_comm (a := (k = n ∧ mark = w.mark) ∧ env.acquire w.ledgerId = none),
    and_comm (a := ¬ (k = n ∧ q = some mark))]

/-- After two receipts a node votes for its new ledger, or as after the first of them. -/
theorem votes_next (hx : Adopted env m v true p r x) (hy : Adopted env n w true q x y) (k : Nat) :
    y.votes[k]? = if k = n ∧ (env.acquire w.ledgerId).isSome then env.acquire w.ledgerId
      else x.votes[k]? := by
  have hidle : (x.release q n).turned env k = x.votes[k]? := by
    rw [turned_release fun mark _ _ => hx.idle k mark, turned_idle fun mark => hx.idle k mark]
  rw [hy.votes, if_pos rfl, hidle]

/-- A node that is not overtaken votes the same after two receipts in either order. -/
theorem votes_comm (hne : m ≠ n) (hp : r.current[m]?.map (·.mark) = p)
    (hq : r.current[n]?.map (·.mark) = q) (hx : Adopted env m v true p r x)
    (hy : Adopted env n w true q x y) (hx' : Adopted env n w true q r x')
    (hy' : Adopted env m v true p x' y') (hm : k = m → ¬ r.Overtaken env m v)
    (hn : k = n → ¬ r.Overtaken env n w) : y'.votes[k]? = y.votes[k]? := by
  have hclear {node : Nat} {u : Validation} {prior : Option Mark}
      (hprior : r.current[node]?.map (·.mark) = prior) (hnot : k = node → ¬ r.Overtaken env node u)
      (hself : ¬ (k = node ∧ (env.acquire u.ledgerId).isSome)) (mark : Mark) (hk : k = node)
      (hmark : prior = some mark) : r.due env k mark = false := by
    subst hk
    refine Bool.eq_false_iff.mpr fun hdue => hnot rfl ⟨?_, mark, hprior.trans hmark, hdue⟩
    exact Option.not_isSome_iff_eq_none.mp fun hsome => hself ⟨rfl, hsome⟩
  rw [hx'.votes_next hy', hx.votes_next hy, hx.votes, hx'.votes, if_pos rfl, if_pos rfl]
  by_cases hself : k = m ∧ (env.acquire v.ledgerId).isSome
  · rw [if_pos hself, if_neg fun h => hne (hself.1.symm.trans h.1), if_pos hself]
  · rw [if_neg hself, if_neg hself]
    by_cases hother : k = n ∧ (env.acquire w.ledgerId).isSome
    · rw [if_pos hother, if_pos hother]
    · rw [if_neg hother, if_neg hother, turned_release (hclear hp hm hself),
        turned_release (hclear hq hn hother)]

/-- Who votes when the second validation comes first votes after both of them, unless the node of the
first one is overtaken. -/
theorem isSome_of_due_first (hx : Adopted env m v b (r.current[m]?.map (·.mark)) r x)
    (hy : Adopted env n w true q x y) (hnot : b = true → ¬ r.Overtaken env m v)
    (hdue : (r.release q n).due env k mark = true) : y.votes[k]?.isSome := by
  obtain ⟨hdue, hkeeps⟩ := due_release.mp hdue
  cases b with
  | false =>
    refine hy.isSome_of_due (due_release.mpr ⟨?_, hkeeps⟩)
    rwa [due_congr (hx.still.1 k mark)]
  | true =>
    by_cases hgives : k = m ∧ r.current[m]?.map (·.mark) = some mark
    · -- the node gives up a wait for a ledger at hand, so its new ledger is at hand too
      obtain ⟨rfl, hmark⟩ := hgives
      refine hy.isSome_votes (hx.isSome_self (Option.isSome_iff_ne_none.mpr fun hnone => ?_))
      exact hnot rfl ⟨hnone, mark, hmark, hdue⟩
    · exact hy.isSome_votes (hx.isSome_of_due (due_release.mpr ⟨hdue, hgives⟩))

/-- Who votes when the first validation comes second votes after it when it comes first. -/
theorem isSome_of_due_second (hx : Adopted env m v true p r x) (hx' : Adopted env n w c q r x')
    (hdue : (x'.release p m).due env k mark = true) : x.votes[k]?.isSome := by
  obtain ⟨hdue, hkeeps⟩ := due_release.mp hdue
  cases c with
  | false =>
    rw [due_congr (hx'.still.1 k mark)] at hdue
    exact hx.isSome_of_due (due_release.mpr ⟨hdue, hkeeps⟩)
  | true =>
    rw [hx'.idle] at hdue
    cases hdue

end Adopted

section Adoptions

variable [VoteTrie T] [LawfulVoteTrie T] {env₂ env₃ env₄ : Surroundings}

/-- What is known of a receipt in surroundings that are the same for the register. -/
theorem adopt_spec (ha : a.Sound) (henv : env.Honest a) (hworld : r.SameWorld env env')
    (h : r.Kept a Set.univ) (hadopt : r.adopt env' m v stage = pure s) : s.Kept a Set.univ ∧
      s.records = (r.enter env m v stage).records ∧
      Adopted env m v (stage.enrolls v) (r.current[m]?.map (·.mark)) r s := by
  obtain ⟨hkept, hrecords, hadopted⟩ := (adopt_kept (E := fun _ => True) ha (hworld.honest henv)
    (fun _ _ _ => trivial) h rfl (fun _ _ _ _ => trivial) fun _ _ => trivial).result hadopt
  exact ⟨hkept, hrecords.trans (by rw [enter_congr hworld.steady]), hadopted.of_world hworld⟩

/-- Records and waits are the same after two receipts in either order, and so are votes but of nodes that
are overtaken. -/
theorem adopt_adopt (ha : a.Sound) (henv : env.Honest a) (h : r.Kept a Set.univ) (hne : m ≠ n)
    (h₂ : r.SameWorld env env₂) (h₃ : r.SameWorld env env₃) (h₄ : r.SameWorld env env₄)
    (hx : r.adopt env m v first = pure x) (hy : x.adopt env₂ n w second = pure y)
    (hx' : r.adopt env₃ n w second = pure x') (hy' : x'.adopt env₄ m v first = pure y') :
    y'.records = y.records ∧ y'.awaited = y.awaited ∧
      ∀ k, ¬ (first.enrolls v = true ∧ second.enrolls w = true ∧
        (k = m ∧ r.Overtaken env m v ∨ k = n ∧ r.Overtaken env n w)) →
        y'.votes[k]? = y.votes[k]? := by
  obtain ⟨hkept, hrecords, hadopted⟩ := adopt_spec ha henv ⟨rfl, rfl, rfl, Or.inl rfl⟩ h hx
  obtain ⟨hkept', hrecords', hadopted'⟩ := adopt_spec ha henv h₃ h hx'
  obtain ⟨hlast, hlastRecords, hnext⟩ := adopt_spec ha henv (hadopted.sameWorld h₂) hkept hy
  obtain ⟨hlast', hlastRecords', hnext'⟩ := adopt_spec ha henv (hadopted'.sameWorld h₄) hkept' hy'
  rw [(sameRecord_enter hne hrecords).current] at hnext
  rw [(sameRecord_enter (Ne.symm hne) hrecords').current] at hnext'
  have hsame : y'.records = y.records := by
    rw [hlastRecords', hlastRecords, records_enter hrecords', records_enter hrecords,
      enter_enter hne]
  by_cases hboth : first.enrolls v = true ∧ second.enrolls w = true
  · rw [hboth.1] at hadopted hnext'
    rw [hboth.2] at hadopted' hnext
    refine ⟨hsame, awaited_ext hlast.awaited hlast'.awaited
      (hadopted.waits_comm hne hnext hadopted' hnext'), fun k hk => ?_⟩
    exact hadopted.votes_comm hne rfl rfl hnext hadopted' hnext'
      (fun hm hover => hk ⟨hboth.1, hboth.2, Or.inl ⟨hm, hover⟩⟩)
      fun hn hover => hk ⟨hboth.1, hboth.2, Or.inr ⟨hn, hover⟩⟩
  · have hstill : first.enrolls v = false ∨ second.enrolls w = false := by
      rw [not_and_or, Bool.not_eq_true, Bool.not_eq_true] at hboth
      exact hboth
    obtain ⟨hwaits, hvotes⟩ := hadopted.comm_of_still hstill hnext hadopted' hnext'
    exact ⟨hsame, awaited_ext hlast.awaited hlast'.awaited hwaits, fun k _ => hvotes k⟩

/-- The votes of a register leave room for the votes of its voters. -/
theorem Kept.room (h : r.Kept a nodes) (E : Fault → Prop) : Room E {k | r.votes[k]?.isSome} := by
  intro s hs hover
  have hsubset : s ⊆ r.voters fun _ => true := fun k hk =>
    have ⟨l, hl⟩ := Option.isSome_iff_exists.mp (hs k hk)
    mem_votersIn.mpr ⟨l, hl, rfl⟩
  have hcard := Finset.card_le_card hsubset
  have hroom := LawfulVoteTrie.card_le h.holds
  rw [card_ballots] at hroom
  rw [voters] at hcard
  omega

theorem Kept.among {nodes' : Set Nat} (h : r.Kept a nodes)
    (hvotes : ∀ k : Nat, r.votes[k]?.isSome → k ∈ nodes') : r.Kept a nodes' := by
  refine ⟨h.holds, h.drawn, h.awaited, fun k hk => ?_⟩
  obtain ⟨l, hl, -⟩ := mem_votersIn.mp hk
  exact hvotes k (hl ▸ rfl)

/-- If the node of the first validation is not overtaken, the two receipts are carried out in the other
order as well, as there are no more voters. -/
theorem exists_adopt (ha : a.Sound) (henv : env.Honest a) (h : r.Kept a Set.univ) (hne : m ≠ n)
    (h₂ : r.SameWorld env env₂) (h₃ : r.SameWorld env env₃) (h₄ : r.SameWorld env env₄)
    (hx : r.adopt env m v first = pure x) (hy : x.adopt env₂ n w second = pure y)
    (hnot : first.enrolls v = true → second.enrolls w = true → ¬ r.Overtaken env m v) :
    ∃ x' y', r.adopt env₃ n w second = pure x' ∧ x'.adopt env₄ m v first = pure y' := by
  obtain ⟨hkept, hrecords, hadopted⟩ := adopt_spec ha henv ⟨rfl, rfl, rfl, Or.inl rfl⟩ h hx
  obtain ⟨hlast, -, hnext⟩ := adopt_spec ha henv (hadopted.sameWorld h₂) hkept hy
  rw [(sameRecord_enter hne hrecords).current] at hnext
  have hfirst : Ends (fun _ => False) (r.adopt env₃ n w second) fun x' =>
      x'.Kept a {k | y.votes[k]?.isSome} ∧ x'.records = (r.enter env₃ n w second).records ∧
        Adopted env₃ n w (second.enrolls w) (r.current[n]?.map (·.mark)) r x' := by
    refine adopt_kept ha (h₃.honest henv) (hlast.room _)
      (h.among fun k hk => hnext.isSome_votes (hadopted.isSome_votes hk)) rfl
      (fun henrolls k mark hdue => ?_) fun henrolls hl => ?_
    · rw [henrolls] at hnext
      rw [due_eq h₃.acquire] at hdue
      exact hadopted.isSome_of_due_first hnext (fun hfirst => hnot hfirst henrolls) hdue
    · rw [henrolls] at hnext
      rw [h₃.acquire] at hl
      exact hnext.isSome_self hl
  obtain ⟨x', hx', hkept', hrecords', hadopted'⟩ | ⟨_, -, hfalse⟩ := hfirst
  · have hadopted' := hadopted'.of_world h₃
    rw [enter_congr h₃.steady] at hrecords'
    have hcurrent : x'.current[m]?.map (·.mark) = r.current[m]?.map (·.mark) := by
      rw [(sameRecord_enter (Ne.symm hne) hrecords').current]
    have hsecond : Ends (fun _ => False) (x'.adopt env₄ m v first) fun _ => True := by
      refine (adopt_kept ha (h₄.honest henv) (hlast.room _) hkept' hcurrent
        (fun henrolls k mark hdue => ?_) fun henrolls hl => ?_).imp fun _ _ => trivial
      · rw [henrolls] at hadopted
        rw [due_eq h₄.acquire] at hdue
        exact hnext.isSome_votes (hadopted.isSome_of_due_second hadopted' hdue)
      · rw [henrolls] at hadopted
        rw [h₄.acquire] at hl
        exact hnext.isSome_votes (hadopted.isSome_self hl)
    obtain ⟨y', hy', -⟩ | ⟨_, -, hfalse⟩ := hsecond
    · exact ⟨x', y', hx', hy'⟩
    · exact hfalse.elim
  · exact hfalse.elim

end Adoptions

/-! ## Two receipts -/

/-- Votes follow on both validations, and a node is overtaken by its own. -/
def Contested (r : Register T) (env : Surroundings) (m n : Nat) (v w : Validation)
    (o p : Outcome T Reply) (k : Nat) : Prop :=
  (o.answer = .verdict .current ∧ v.trusted = true) ∧
    (p.answer = .verdict .current ∧ w.trusted = true) ∧
    (k = m ∧ r.Overtaken env m v ∨ k = n ∧ r.Overtaken env n w)

/-- What comes of two receipts, `o` and then `p`, and of the same in the other order, `p'` and then `o'`:
the same answers, the same validations turned out, the same records and waits, and the same votes but
of some nodes. -/
structure Commuted (contested : Nat → Prop) (o p p' o' : Outcome T Reply) : Prop where
  first : o'.answer = o.answer ∧ o'.retired = o.retired
  second : p'.answer = p.answer ∧ p'.retired = p.retired
  records : o'.register.records = p.register.records
  awaited : o'.register.awaited = p.register.awaited
  votes : ∀ k, ¬ contested k → o'.register.votes[k]? = p.register.votes[k]?

theorem assess_congr (hnow : env'.now = env.now) (hsteady : env'.steady = env.steady) :
    r.assess env' n w = r.assess env n w :=
  SameRecord.assess ⟨rfl, rfl, rfl, fun _ => rfl⟩ hnow hsteady

section Receipts

variable [VoteTrie T] [LawfulVoteTrie T] {env₂ env₃ env₄ : Surroundings} {o p p' o' : Outcome T Reply}

/-- Two receipts that are carried out in either order come to the same, but for votes of nodes that are
overtaken. -/
theorem receive_comm (ha : a.Sound) (henv : env.Honest a) (h : r.Sound a Set.univ) (hne : m ≠ n)
    (h₂ : r.SameWorld env env₂) (h₃ : r.SameWorld env env₃) (h₄ : r.SameWorld env env₄)
    (ho : r.step env (.receive m v) = pure o) (hp : o.register.step env₂ (.receive n w) = pure p)
    (hp' : r.step env₃ (.receive n w) = pure p')
    (ho' : p'.register.step env₄ (.receive m v) = pure o') :
    Commuted (r.Contested env m n v w o p) o p p' o' := by
  obtain ⟨first, x, hfirst, hx, rfl⟩ := step_receive.mp ho
  obtain ⟨second, y, hsecond, hy, rfl⟩ := step_receive.mp hp
  obtain ⟨second', x', hsecond', hx', rfl⟩ := step_receive.mp hp'
  obtain ⟨first', y', hfirst', hy', rfl⟩ := step_receive.mp ho'
  have hn : SameRecord n r x := sameRecord_enter hne (adopt_records r env m v first x hx)
  have hm : SameRecord m r x' :=
    sameRecord_enter (Ne.symm hne) (adopt_records r env₃ n w second' x' hx')
  obtain rfl : second' = second := by
    rw [assess_congr h₃.now h₃.steady] at hsecond'
    exact Except.ok.inj (hsecond'.symm.trans ((hn.assess h₂.now h₂.steady).symm.trans hsecond))
  obtain rfl : first' = first :=
    Except.ok.inj (hfirst'.symm.trans ((hm.assess h₄.now h₄.steady).trans hfirst))
  obtain ⟨hrecords, hawaited, hvotes⟩ := adopt_adopt ha henv h.kept hne h₂ h₃ h₄ hx hy hx' hy'
  obtain ⟨hanswer, hretired⟩ := hm.outcome v first' x y'
  obtain ⟨hanswer', hretired'⟩ := hn.outcome w second' x' y
  refine ⟨⟨congrArg Reply.verdict hanswer, hretired⟩, ⟨(congrArg Reply.verdict hanswer').symm,
    hretired'.symm⟩, hrecords, hawaited, fun k hk => hvotes k ?_⟩
  rintro ⟨hv, hw, hover⟩
  obtain ⟨hv, hvtrust⟩ := Stage.enrolls_iff.mp hv
  obtain ⟨hw, hwtrust⟩ := Stage.enrolls_iff.mp hw
  exact hk ⟨⟨congrArg Reply.verdict hv, hvtrust⟩, ⟨congrArg Reply.verdict hw, hwtrust⟩, hover⟩

/-- Registers with the same records, waits and votes agree. -/
theorem Commuted.agree (h : Commuted (fun _ => False) o p p' o') (hp : p.register.Sound a Set.univ)
    (ho' : o'.register.Sound a Set.univ) : p.register.Agree a o'.register := by
  have hvotes : o'.register.votes = p.register.votes :=
    Std.ExtTreeMap.ext_getElem? fun k => h.votes k not_false
  refine ⟨hp.drawn, hp.holds, o'.register.trie, ?_, hvotes ▸ ho'.holds⟩
  refine (eq_upon_of_records h.records).trans ?_
  rw [upon, hvotes, h.awaited]
  rfl

theorem receive_sound (ha : a.Sound) (henv : env.Honest a) (h : r.Sound a Set.univ)
    (ho : r.step env (.receive m v) = pure o) : o.register.Sound a Set.univ :=
  have hrequest : (Request.receive m v).Apt a Set.univ := Set.mem_univ m
  ((step_ends (E := fun _ => True) ha henv (fun _ _ => trivial) (fun _ _ _ => trivial) h
    hrequest).result ho).1

/-- If nobody is overtaken, two receipts are carried out in the other order as well, and the registers
after them agree. -/
theorem exists_receive_comm (ha : a.Sound) (henv : env.Honest a) (h : r.Sound a Set.univ)
    (hne : m ≠ n) (h₂ : r.SameWorld env env₂) (h₃ : r.SameWorld env env₃)
    (h₄ : r.SameWorld env env₄) (ho : r.step env (.receive m v) = pure o)
    (hp : o.register.step env₂ (.receive n w) = pure p)
    (hnot : ∀ k, ¬ r.Contested env m n v w o p k) :
    ∃ p' o', r.step env₃ (.receive n w) = pure p' ∧
      p'.register.step env₄ (.receive m v) = pure o' ∧ p.register.Agree a o'.register := by
  obtain ⟨first, x, hfirst, hx, hoeq⟩ := step_receive.mp ho
  subst hoeq
  obtain ⟨second, y, hsecond, hy, hpeq⟩ := step_receive.mp hp
  have hn : SameRecord n r x := sameRecord_enter hne (adopt_records r env m v first x hx)
  obtain ⟨x', y', hx', hy'⟩ := exists_adopt ha henv h.kept hne h₂ h₃ h₄ hx hy fun hv hw hover => by
    obtain ⟨hv, hvtrust⟩ := Stage.enrolls_iff.mp hv
    obtain ⟨hw, hwtrust⟩ := Stage.enrolls_iff.mp hw
    exact hnot m ⟨⟨congrArg Reply.verdict hv, hvtrust⟩,
      ⟨hpeq ▸ congrArg Reply.verdict hw, hwtrust⟩, Or.inl ⟨rfl, hover⟩⟩
  have hm : SameRecord m r x' :=
    sameRecord_enter (Ne.symm hne) (adopt_records r env₃ n w second x' hx')
  have hp' : r.step env₃ (.receive n w) = pure ((r.outcome n w second x').map .verdict) := by
    refine step_receive.mpr ⟨second, x', ?_, hx', rfl⟩
    rw [assess_congr h₃.now h₃.steady, ← hn.assess h₂.now h₂.steady]
    exact hsecond
  have ho' : x'.step env₄ (.receive m v) = pure ((x'.outcome m v first y').map .verdict) :=
    step_receive.mpr ⟨first, y', (hm.assess h₄.now h₄.steady).trans hfirst, hy', rfl⟩
  refine ⟨_, _, hp', ho', ?_⟩
  have hcommuted := receive_comm ha henv h hne h₂ h₃ h₄ ho hp hp' ho'
  refine Commuted.agree ⟨hcommuted.first, hcommuted.second, hcommuted.records, hcommuted.awaited,
    fun k _ => hcommuted.votes k (hnot k)⟩ ?_ ?_
  · exact receive_sound ha (h₂.honest henv) (receive_sound ha henv h ho) hp
  · exact receive_sound ha (h₄.honest henv) (receive_sound ha (h₃.honest henv) h hp') ho'

end Receipts

/-! ## Runs -/

section Runs

variable {Slot : Type} [DecidableEq Slot] {A : Slots Slot (Cell Slot)} {env₂ env₃ env₄ : Surroundings}

/-- The tries of registers that agree have the same nodes. -/
theorem Agree.alike {r s : Register (ArenaTrie A)} (ha : a.Sound) (h : r.Agree a s) :
    r.trie.Alike s.trie := by
  obtain ⟨-, ⟨R, hr, hR, -⟩, t, rfl, ⟨S, ht, hS, -⟩⟩ := h
  exact hr.alike ht (hR.alike ha hS)

/-- Two receipts from different nodes, at any time and in the same surroundings, come to the same in
either order: they are answered the same and turn out the same validations, and the records, the waits
and the votes after them are the same. Only if both validations are trusted and become current can there
be a node whose vote differs, and that one was overtaken: it waited for a ledger that is at hand and goes
on to a ledger that is not. If there is none, the other order is carried out, the tries have the same
nodes, and whatever is asked later is answered the same. -/
theorem receipts_commute (A : Slots Slot (Cell Slot)) (ha : a.Reachable)
    {requests : List (Surroundings × Request)} (hrequests : Orderly a Set.univ requests)
    (timing : Timing) {r : Register (ArenaTrie A)} (hr : (empty timing).after requests = pure r)
    (henv : env.Honest a) (h₂ : r.SameWorld env env₂) (h₃ : r.SameWorld env env₃)
    (h₄ : r.SameWorld env env₄) (hne : m ≠ n) {o p : Outcome (ArenaTrie A) Reply}
    (hrun : r.run [(env, .receive m v), (env₂, .receive n w)] = pure [o, p]) :
    (∀ p' o', r.run [(env₃, .receive n w), (env₄, .receive m v)] = pure [p', o'] →
      Commuted (r.Contested env m n v w o p) o p p' o') ∧
    ((∀ k, ¬ r.Contested env m n v w o p k) →
      ∃ p' o', r.run [(env₃, .receive n w), (env₄, .receive m v)] = pure [p', o'] ∧
        p.register.trie.Alike o'.register.trie ∧
        ∀ later, Orderly a Set.univ later → EndAlike (p.register.run later)
          (o'.register.run later) (List.Forall₂ (Outcome.Agree a))) := by
  have hsound : r.Sound a Set.univ := ((sound_empty ha.sound timing).after (E := fun _ => True)
    ha.sound (fun _ _ => trivial) (fun _ _ _ => trivial) hrequests).result hr
  obtain ⟨ho, hp⟩ := run_pair.mp hrun
  refine ⟨fun p' o' hrun' => ?_, fun hnot => ?_⟩
  · obtain ⟨hp', ho'⟩ := run_pair.mp hrun'
    exact receive_comm ha.sound henv hsound hne h₂ h₃ h₄ ho hp hp' ho'
  · obtain ⟨p', o', hp', ho', hagree⟩ :=
      exists_receive_comm ha.sound henv hsound hne h₂ h₃ h₄ ho hp hnot
    exact ⟨p', o', run_pair.mpr ⟨hp', ho'⟩, hagree.alike ha.sound,
      fun later hlater => run_alike ha.sound hlater hagree⟩

/-- A node that waited for the left side, now at hand, validates it anew while another one validates it
as well. -/
def chorus : List Fork.Line :=
  [(Fork.early, [], .receive 2 (Fork.word 2 Fork.left Fork.early)),
    (Fork.soon, [2], .receive 1 (Fork.word 1 Fork.left Fork.soon)),
    (Fork.soon, [2], .receive 2 { Fork.word 2 Fork.left Fork.soon with seq := 3 })]

/-- Nobody is overtaken. -/
theorem receipts_commute_fork :
    ∃ r o p p' o' : _, (empty {} : Register (ArenaTrie (Slots.numbered (Cell Nat)))).after
        (Fork.script (chorus.take 1)) = pure r ∧
      r.run (Fork.script (chorus.drop 1)) = pure [o, p] ∧ o.answer = .verdict .current ∧
      p.answer = .verdict .current ∧ r.run (Fork.script (chorus.drop 1).reverse) = pure [p', o'] ∧
      o'.answer = .verdict .current ∧ p'.answer = .verdict .current ∧
      p.register.trie.Alike o'.register.trie := by
  obtain ⟨outcomes, s, hs, hanswers, -⟩ := Fork.exists_history (Slots.numbered (Cell Nat)) chorus
    [.verdict .current, .verdict .current, .verdict .current] (fun _ => true)
    (by simp [chorus, Request.Apt]) (by decide +kernel)
  simp only [List.map_eq_cons_iff, List.map_eq_nil_iff] at hanswers
  obtain ⟨q, _, rfl, -, o, _, rfl, ho, p, _, rfl, hp, rfl⟩ := hanswers
  obtain ⟨hfirst, hrest⟩ := History.of_cons hs
  obtain ⟨hsecond, hrest⟩ := History.of_cons hrest
  obtain ⟨hthird, -⟩ := History.of_cons hrest
  have hafter : (empty {} : Register (ArenaTrie (Slots.numbered (Cell Nat)))).after
      (Fork.script (chorus.take 1)) = pure q.register :=
    (bind_pure _).trans ((congrArg _ hfirst).trans (map_pure _ _))
  obtain ⟨hcommutes, hexists⟩ := receipts_commute (m := 1) (n := 2) (Slots.numbered (Cell Nat))
    Fork.archive_reachable (Fork.orderly_script (chorus.take 1) (by simp [chorus, Request.Apt])) {} hafter
    (Fork.honest Fork.soon [2]) ⟨rfl, rfl, rfl, Or.inl rfl⟩ ⟨rfl, rfl, rfl, Or.inl rfl⟩
    ⟨rfl, rfl, rfl, Or.inl rfl⟩ (by decide) (run_pair.mpr ⟨hsecond, hthird⟩)
  obtain ⟨p', o', hrun', halike, -⟩ := hexists (by
    rintro k ⟨-, -, ⟨-, hnone, -⟩ | ⟨-, hnone, -⟩⟩
    all_goals exact absurd hnone (by decide))
  have hcommuted := hcommutes p' o' hrun'
  exact ⟨_, o, p, p', o', hafter, run_pair.mpr ⟨hsecond, hthird⟩, ho, hp, hrun',
    hcommuted.first.1.trans ho, hcommuted.second.1.trans hp, halike⟩

/-- A node waits for the left side. When that is at hand another node validates the trunk, and the node
goes on to a ledger that is not at hand. -/
def passing (reversed : Bool) : List Fork.Line :=
  let trunk : Fork.Line := (Fork.soon, [1, 2], .receive 1 (Fork.word 1 Fork.trunk Fork.soon))
  let beyond : Fork.Line :=
    (Fork.soon, [1, 2], .receive 2 { Fork.word 2 Fork.left Fork.soon with ledgerId := 9, seq := 3 })
  (Fork.early, [], .receive 2 (Fork.word 2 Fork.left Fork.early)) ::
    (if reversed then [beyond, trunk] else [trunk, beyond]) ++
    [(Fork.soon, [1, 2], .nodesAfter Fork.left 1)]

/-- A node that is overtaken votes for the ledger that it waited for if another node comes first, and
not if it comes first itself, and a later question is answered by that. -/
theorem receipts_overtaken :
    ∃ outcomes outcomes' : List (Outcome (ArenaTrie (Slots.numbered (Cell Nat))) Reply),
      (empty {} : Register _).run (Fork.script (passing false)) = pure outcomes ∧
        (empty {} : Register _).run (Fork.script (passing true)) = pure outcomes' ∧
        outcomes.map (·.answer) =
          [.verdict .current, .verdict .current, .verdict .current, .count 1] ∧
        outcomes'.map (·.answer) =
          [.verdict .current, .verdict .current, .verdict .current, .count 0] := by
  obtain ⟨outcomes, hrun, hanswers, -⟩ := Fork.exists_run (Slots.numbered (Cell Nat)) (passing false)
    [.verdict .current, .verdict .current, .verdict .current, .count 1] (fun _ => true)
    (by simp [passing, Request.Apt]; decide) (by decide +kernel)
  obtain ⟨outcomes', hrun', hanswers', -⟩ := Fork.exists_run (Slots.numbered (Cell Nat)) (passing true)
    [.verdict .current, .verdict .current, .verdict .current, .count 0] (fun _ => true)
    (by simp [passing, Request.Apt]; decide) (by decide +kernel)
  exact ⟨outcomes, outcomes', hrun, hrun', hanswers, hanswers'⟩

end Runs

end Register

end ForkChoice
