import ForkChoice.Proofs.Trie.Lookup
import ForkChoice.Trie.Insert

/-!
# Casting votes keeps the trie well-formed

Votes are added at the place where a history leaves the trie. The node there is cut if need be, and
what is left of the history becomes a branch; all other nodes keep their place.

* `Node.Replaces`: one node can stand where another stood.
* `Node.Formed.replaceChild`: a node whose branch is replaced.
* `Node.Formed.split_spec`: the cut of a node holds the same votes.
* `Node.Formed.graft_spec`: votes added where a history leaves the trie.
* `Node.Formed.insert_spec`: votes added at or below a node.
-/

namespace ForkChoice

namespace Node

variable {a : Archive} {l : Ledger} {v : Nat}

/-! ## Replacing nodes -/

/-- A well-formed node with the start and the first ledger of another. -/
structure Replaces (a : Archive) (n n' : Node) : Prop where
  formed : n'.Formed a
  start : n'.segment.start = n.segment.start
  entry : n'.entry = n.entry

theorem Replaces.continues {n n' : Node} {p : List Nat} (h : Replaces a n n')
    (hn : n.Continues p) (hneeded : n'.Needed) : n'.Continues p :=
  ⟨h.start.trans hn.start, hn.prefix_entry.trans (h.entry ▸ n'.entry_prefix_path), hneeded⟩

theorem Replaces.trans {k m n : Node} (h₁ : Replaces a k m) (h₂ : Replaces a m n) :
    Replaces a k n :=
  ⟨h₂.formed, h₂.start.trans h₁.start, h₂.entry.trans h₁.entry⟩

/-- A branch can be replaced by a needed node that starts alike. -/
theorem Formed.replaceChild {n c c' : Node} {before behind : List Node} {branch : Nat}
    (hn : n.Formed a) (hsplit : n.children = before ++ c :: behind) (hc : Replaces a c c')
    (hneeded : c'.Needed)
    (hbranch : branch + c.branchSupport = n.branchSupport + c'.branchSupport) :
    Replaces a n ⟨n.segment, n.tipSupport, branch, before ++ c' :: behind⟩ := by
  have hmem : ∀ d, d ∈ before ++ c' :: behind → d = c' ∨ d ∈ n.children := by
    intro d hd
    rw [hsplit]
    simp only [List.mem_append, List.mem_cons] at hd ⊢
    tauto
  have hcn : c ∈ n.children := by rw [hsplit]; simp
  refine ⟨formed_iff.mpr ⟨⟨hn.fits.backed, ?_, ?_, ?_⟩, ?_⟩, rfl, rfl⟩
  · have := hn.fits.counted
    rw [hsplit, totalSupport_append, totalSupport_cons] at this
    simp only [totalSupport_append, totalSupport_cons]
    omega
  · intro d hd
    rcases hmem d hd with rfl | hd
    · exact hc.continues (hn.fits.continues c hcn) hneeded
    · exact hn.fits.continues d hd
  · have := hn.fits.apart
    rw [hsplit, List.map_append, List.map_cons, ← hc.entry] at this
    rwa [List.map_append, List.map_cons]
  · intro d hd
    rcases hmem d hd with rfl | hd
    · exact hc.formed
    · exact hn.child hd

/-- A node can be given another segment with the same tip. -/
theorem Formed.withSegment {n : Node} (hn : n.Formed a) {g : Segment}
    (hg : g.backing ∈ a.ledgers) (hpath : g.path = n.path) :
    Formed a { n with segment := g } := by
  refine formed_iff.mpr ⟨⟨hg, hn.fits.counted, fun c hc => ?_, hn.fits.apart⟩,
    fun c hc => hn.child hc⟩
  have hcontinues := hn.fits.continues c hc
  rwa [← hpath] at hcontinues

theorem votes_withSegment {n : Node} {g : Segment} (hpath : g.path = n.path) :
    votes { n with segment := g } = n.votes := by
  rw [votes_eq, votes_eq]
  simp only [path, hpath]

/-! ## Leaves -/

theorem formed_leaf {g : Segment} (hg : g.backing ∈ a.ledgers) (v : Nat) :
    (leaf g v).Formed a := by
  refine formed_iff.mpr ⟨⟨hg, ?_, ?_, ?_⟩, ?_⟩ <;> simp [leaf, totalSupport]

theorem votes_leaf (g : Segment) (v : Nat) : (leaf g v).votes = Multiset.replicate v g.path := by
  simp [leaf, votes, votesAll]

theorem needed_leaf (g : Segment) (hv : v ≠ 0) : (leaf g v).Needed := fun h => absurd h hv

/-! ## Cutting a node -/

theorem split_stop (n : Node) : n.split n.segment.stop = n := by
  unfold split
  rw [Segment.after_eq_none (Nat.le_refl _)]
  split <;> simp_all

theorem split_eq {n : Node} {place : Nat} (hstart : n.segment.start < place)
    (hstop : place < n.segment.stop) :
    n.split place = ⟨⟨n.segment.start, place, n.segment.backing, hstart,
        Nat.le_trans hstop.le n.segment.stop_le⟩, 0, n.branchSupport,
      [{ n with segment := ⟨place, n.segment.stop, n.segment.backing, hstop,
        n.segment.stop_le⟩ }]⟩ := by
  unfold split
  rw [Segment.before_eq hstart hstop.le, Segment.after_eq hstart.le hstop]

/-- The cut of a needed node holds the same votes, and its near side ends at the cut. -/
theorem Formed.split_spec {n : Node} (hn : n.Formed a) (hneeded : n.Needed) {place : Nat}
    (hstart : n.segment.start < place) (hstop : place < n.segment.stop) :
    Replaces a n (n.split place) ∧ (n.split place).votes = n.votes ∧
      (n.split place).path = n.path.take (place - 1) ∧
      ∃ far : Node, (n.split place).children = [far] ∧ far.entry = n.path.take place := by
  rw [split_eq hstart hstop]
  set near : Segment := ⟨n.segment.start, place, n.segment.backing, hstart,
    Nat.le_trans hstop.le n.segment.stop_le⟩ with hnear
  set far : Segment := ⟨place, n.segment.stop, n.segment.backing, hstop, n.segment.stop_le⟩
    with hfar
  have hnearPath : near.path = n.path.take (place - 1) := by
    have := Segment.path_of_backing_eq (g := n.segment) (h := near) rfl hstop.le
    rwa [near.length_path] at this
  have hfarPath : far.path = n.path := rfl
  have hfarFormed : Formed a { n with segment := far } :=
    hn.withSegment hn.fits.backed hfarPath
  have hcontinues : Continues near.path { n with segment := far } := by
    refine ⟨?_, ?_, hneeded⟩
    · rw [near.length_path]
      simp only [hnear, hfar]
      omega
    · rw [hnearPath]
      exact List.take_prefix _ _
  refine ⟨⟨formed_iff.mpr ⟨⟨hn.fits.backed, ?_, ?_, ?_⟩, ?_⟩, rfl, ?_⟩, ?_, hnearPath,
    _, rfl, rfl⟩
  · simp [totalSupport]
  · intro c hc
    exact List.mem_singleton.mp hc ▸ hcontinues
  · simp
  · simpa using hfarFormed
  · simp only [Node.entry, Segment.entry_eq, hnear]
  · rw [votes_eq]
    simp [votesAll, votes_withSegment hfarPath]

/-! ## Grafting -/

theorem graft_eq (l : Ledger) (v place : Nat) (n : Node) :
    graft l v place n =
      match (Segment.ofLedger l).after place with
      | some rest => ⟨(n.split place).segment, (n.split place).tipSupport,
          (n.split place).branchSupport + v, (n.split place).children ++ [leaf rest v]⟩
      | none => ⟨(n.split place).segment, (n.split place).tipSupport + v,
          (n.split place).branchSupport + v, (n.split place).children⟩ := by
  rfl

/-- Votes for a ledger whose history leads to a tip and enters none of its branches. -/
theorem Formed.attach_spec {m n : Node} {place : Nat} (hm : m.Formed a) (hl : l ∈ a.ledgers)
    (hv : v ≠ 0) (hsplit : n.split place = m) (hplace : place = m.segment.stop)
    (hpath : m.path <+: l.txs) (hlast : ∀ c ∈ m.children, ¬ c.entry <+: l.txs) :
    Replaces a m (graft l v place n) ∧
      (graft l v place n).votes = m.votes + Multiset.replicate v l.txs ∧
      ((m.tipSupport = 0 → m.children ≠ []) → (graft l v place n).Needed) := by
  have hstop := m.segment.stop_eq
  have hle := hpath.length_le
  rw [graft_eq, hsplit]
  simp only [path] at hpath hle
  by_cases hend : l.txs.length = m.segment.path.length
  · -- the ledger is the tip
    have htip : m.segment.path = l.txs := hpath.eq_of_length hend.symm
    rw [Segment.after_eq_none (by simp only [Segment.ofLedger, Ledger.seq]; omega)]
    refine ⟨⟨formed_iff.mpr ⟨⟨hm.fits.backed, ?_, hm.fits.continues, hm.fits.apart⟩,
      fun c hc => hm.child hc⟩, rfl, rfl⟩, ?_, fun _ htip => ?_⟩
    · have := hm.fits.counted
      simp only
      omega
    · simp only [votes_eq, path, Multiset.replicate_add, htip]
      rw [add_right_comm]
    · simp only at htip
      omega
  · -- the rest of its history becomes a branch
    have hlt : place < (Segment.ofLedger l).stop := by
      simp only [Segment.ofLedger, Ledger.seq]
      omega
    rw [Segment.after_eq (Nat.zero_le _) hlt]
    set rest : Segment := ⟨place, (Segment.ofLedger l).stop, (Segment.ofLedger l).backing, hlt,
      (Segment.ofLedger l).stop_le⟩ with hrest
    have hrestPath : rest.path = l.txs := Segment.path_ofLedger l
    have hrestEntry : (leaf rest v).entry <+: l.txs :=
      hrestPath ▸ (leaf rest v).entry_prefix_path
    have hcontinues : (leaf rest v).Continues m.path := by
      refine ⟨hplace.trans hstop, ?_, needed_leaf rest hv⟩
      change m.segment.path <+: rest.path
      rw [hrestPath]
      exact hpath
    refine ⟨⟨formed_iff.mpr ⟨⟨hm.fits.backed, ?_, ?_, ?_⟩, ?_⟩, rfl, rfl⟩, ?_, fun hbranches => ?_⟩
    · have := hm.fits.counted
      simp only [totalSupport_append, totalSupport_cons]
      simp only [leaf, totalSupport, List.map_nil, List.sum_nil] at *
      omega
    · intro c hc
      rcases List.mem_append.mp hc with hc | hc
      · exact hm.fits.continues c hc
      · exact List.mem_singleton.mp hc ▸ hcontinues
    · simp only [List.map_append, List.map_cons, List.map_nil]
      refine List.Nodup.append hm.fits.apart (List.nodup_singleton _) ?_
      intro e he he'
      obtain ⟨c, hc, rfl⟩ := List.mem_map.mp he
      exact hlast c hc (List.mem_singleton.mp he' ▸ hrestEntry)
    · intro c hc
      rcases List.mem_append.mp hc with hc | hc
      · exact hm.child hc
      · exact List.mem_singleton.mp hc ▸ formed_leaf hl v
    · rw [votes_eq, votesAll_append, votesAll, votesAll, votes_leaf, hrestPath, add_zero,
        ← add_assoc, votes_eq m]
      rfl
    · intro htip
      simp only [List.length_append, List.length_singleton]
      have := List.length_pos_iff.mpr (hbranches htip)
      omega

/-- Votes for a ledger whose history comes to a node and leaves the trie there. -/
theorem Formed.graft_spec (ha : a.Sound) {n : Node} (hn : n.Formed a) (hl : l ∈ a.ledgers)
    (hv : v ≠ 0) (hneeded : n.path ≠ [] → n.Needed) (hentry : n.entry <+: l.txs)
    (hlast : n.path <+: l.txs → ∀ c ∈ n.children, ¬ c.entry <+: l.txs) :
    Replaces a n (graft l v (n.segment.agreement l) n) ∧
      (graft l v (n.segment.agreement l) n).votes = n.votes + Multiset.replicate v l.txs ∧
      (n.Needed → (graft l v (n.segment.agreement l) n).Needed) := by
  have hagree := hn.fits.agreement_eq ha hl hentry
  have hiff := hn.fits.agreement_eq_stop_iff ha hl hentry
  by_cases hpath : n.path <+: l.txs
  · have hstop := hiff.mpr hpath
    rw [hstop]
    obtain ⟨hreplaces, hvotes, hneeded'⟩ :=
      hn.attach_spec hl hv n.split_stop rfl hpath (hlast hpath)
    refine ⟨hreplaces, hvotes, fun hn' => hneeded' fun htip hnil => ?_⟩
    have := hn' htip
    simp [hnil] at this
  · -- the history leaves midway, so the node is cut first
    have hcommon : commonLength n.path l.txs < n.path.length := by
      rw [prefix_iff_length_le] at hpath
      omega
    have hstart : n.segment.start < commonLength n.path l.txs + 1 :=
      Nat.lt_succ_of_le ((take_prefix_iff n.segment.start_le_length).mp hentry)
    have hstop : commonLength n.path l.txs + 1 < n.segment.stop := by
      rw [Segment.stop_eq]
      exact Nat.succ_lt_succ hcommon
    have hne : n.path ≠ [] := fun hnil => by simp [hnil] at hcommon
    obtain ⟨hcut, hcutVotes, hcutPath, far, hcutChildren, hfar⟩ :=
      hn.split_spec (hneeded hne) hstart hstop
    rw [Nat.add_sub_cancel] at hcutPath
    rw [hagree]
    have hcutStop : commonLength n.path l.txs + 1 =
        (n.split (commonLength n.path l.txs + 1)).segment.stop := by
      rw [Segment.stop_eq]
      have hlength := congrArg List.length hcutPath
      rw [List.length_take, Nat.min_eq_left hcommon.le] at hlength
      exact congrArg (· + 1) hlength.symm
    have hcutPrefix : (n.split (commonLength n.path l.txs + 1)).path <+: l.txs := by
      rw [hcutPath, take_commonLength]
      exact List.take_prefix _ _
    have hcutLast : ∀ c ∈ (n.split (commonLength n.path l.txs + 1)).children,
        ¬ c.entry <+: l.txs := by
      intro c hc
      rw [hcutChildren] at hc
      rw [List.mem_singleton.mp hc, hfar, take_prefix_iff hcommon]
      omega
    obtain ⟨hreplaces, hvotes, hneeded'⟩ :=
      hcut.formed.attach_spec hl hv rfl hcutStop hcutPrefix hcutLast
    exact ⟨hcut.trans hreplaces, hvotes.trans (by rw [hcutVotes]),
      fun _ => hneeded' fun _ => by simp [hcutChildren]⟩

/-! ## Along the history -/

theorem insertIn_eq_none {place : Nat} {children : List Node}
    (h : ∀ c ∈ children, ¬ place < c.segment.agreement l) :
    insertIn l v place children = none := by
  induction children with
  | nil => rfl
  | cons child rest ih =>
    rw [insertIn, if_neg (h child List.mem_cons_self),
      ih fun c hc => h c (List.mem_cons_of_mem _ hc)]
    rfl

theorem insertIn_append {place : Nat} {c : Node} {before behind : List Node}
    (hbefore : ∀ d ∈ before, ¬ place < d.segment.agreement l)
    (hc : place < c.segment.agreement l) :
    insertIn l v place (before ++ c :: behind) = some (before ++ c.insert l v :: behind) := by
  induction before with
  | nil => rw [List.nil_append, insertIn, if_pos hc]; rfl
  | cons d before ih =>
    rw [List.cons_append, insertIn, if_neg (hbefore d List.mem_cons_self),
      ih fun d hd => hbefore d (List.mem_cons_of_mem _ hd)]
    rfl

theorem insert_eq (l : Ledger) (v : Nat) (n : Node) :
    n.insert l v =
      if n.segment.agreement l = n.segment.stop then
        match insertIn l v (n.segment.agreement l) n.children with
        | some children => ⟨n.segment, n.tipSupport, n.branchSupport + v, children⟩
        | none => graft l v (n.segment.agreement l) n
      else graft l v (n.segment.agreement l) n := by
  cases n with
  | mk g tip branch children => rfl

theorem segment_graft_stop (n : Node) : (graft l v n.segment.stop n).segment = n.segment := by
  rw [graft_eq, split_stop]
  split <;> rfl

/-- A history that leads on to the tip does not cut the node. -/
theorem Formed.segment_insert (ha : a.Sound) {n : Node} (hn : n.Formed a) (hl : l ∈ a.ledgers)
    (hpath : n.path <+: l.txs) : (n.insert l v).segment = n.segment := by
  have hstop := (hn.fits.agreement_eq_stop_iff ha hl (n.entry_prefix_path.trans hpath)).mpr hpath
  rw [insert_eq, if_pos hstop]
  split
  · rfl
  · rw [hstop, segment_graft_stop]

/-- Adding votes for a ledger that has come to a node adds them to the votes that the node holds,
and keeps all rules. -/
theorem Formed.insert_spec (ha : a.Sound) {n : Node} (hn : n.Formed a) (hl : l ∈ a.ledgers)
    (hv : v ≠ 0) (hneeded : n.path ≠ [] → n.Needed) (hentry : n.entry <+: l.txs) :
    Replaces a n (n.insert l v) ∧ (n.insert l v).votes = n.votes + Multiset.replicate v l.txs ∧
      (n.Needed → (n.insert l v).Needed) := by
  induction n using below_induction with
  | node n ih =>
    have hiff := hn.fits.agreement_eq_stop_iff ha hl hentry
    rw [insert_eq]
    by_cases hstop : n.segment.agreement l = n.segment.stop
    · rw [if_pos hstop]
      have hpath := hiff.mp hstop
      have henters : ∀ c ∈ n.children,
          n.segment.agreement l < c.segment.agreement l ↔ c.entry <+: l.txs := by
        intro c hc
        rw [hstop]
        exact hn.stop_lt_agreement_iff ha hc hl hpath
      by_cases hnone : ∀ c ∈ n.children, ¬ c.entry <+: l.txs
      · rw [insertIn_eq_none fun c hc => (henters c hc).not.mpr (hnone c hc)]
        exact hn.graft_spec ha hl hv hneeded hentry fun _ => hnone
      · push Not at hnone
        obtain ⟨c, hc, hcl⟩ := hnone
        obtain ⟨before, behind, hsplit⟩ := List.append_of_mem hc
        have hbefore : ∀ d ∈ before, ¬ n.segment.agreement l < d.segment.agreement l := by
          intro d hd
          obtain ⟨hdn, hdl⟩ :=
            hn.not_entry_prefix_of_split hsplit hcl d (List.mem_append_left _ hd)
          exact (henters d hdn).not.mpr hdl
        have hchild := hn.child hc
        have hcneeded := (hn.fits.continues c hc).needed
        obtain ⟨hreplaces, hvotes, hneeded'⟩ := ih c hc hchild (fun _ => hcneeded) hcl
        have hbranch : (c.insert l v).branchSupport = c.branchSupport + v := by
          rw [← hreplaces.formed.card_votes, ← hchild.card_votes, hvotes, Multiset.card_add,
            Multiset.card_replicate]
        have hsum : n.branchSupport + v + c.branchSupport =
            n.branchSupport + (c.insert l v).branchSupport := by omega
        have hgoal := hn.replaceChild hsplit hreplaces (hneeded' hcneeded) hsum
        rw [hsplit, insertIn_append hbefore ((henters c hc).mpr hcl)]
        refine ⟨hgoal, ?_, fun hn' htip => ?_⟩
        · rw [votes_of_split rfl, votes_of_split hsplit, hvotes, add_right_comm]
          rfl
        · have := hn' htip
          rw [hsplit] at this
          simpa using this
    · rw [if_neg hstop]
      exact hn.graft_spec ha hl hv hneeded hentry fun hpath => absurd (hiff.mpr hpath) hstop

end Node

end ForkChoice
