import HftSim.HeapPop

/-!
# Commands, and one clock cycle of a heap

The remaining states: the acceptance of a command in `S_IDLE`, `PEEK`, `UPDATE` and `S_DONE`.
`HeapGhost.next` does the book-keeping when a command is accepted; `Inv.step` puts the states of
`heap_fsm` together.
-/

namespace HftSim

open Function BinHeap

/-- The book-keeping of one cycle: a command counts from the cycle in which it is accepted. -/
def HeapGhost.next (g : HeapGhost) (v : HeapView) (i : HeapIn) : HeapGhost :=
  if v.fsm.state = .idle ∧ i.cmdValid = true then
    match i.cmdOp with
    | .push => ⟨i.cmdDataIn ::ₘ g.nodes, none⟩
    | .pop => if v.fsm.size = 0 then ⟨g.nodes, none⟩ else ⟨g.nodes.erase (v.node 0), some (v.node 0)⟩
    | .peek => ⟨g.nodes, none⟩
    | .update =>
      if v.fsm.size ≠ 0 ∧ orderPrice i.cmdDataIn = orderPrice (v.node 0) ∧
          orderTs i.cmdDataIn = orderTs (v.node 0) then
        ⟨i.cmdDataIn ::ₘ g.nodes.erase (v.node 0), none⟩
      else ⟨g.nodes, none⟩
  else g

namespace HeapView

variable {cfg : HeapCfg} {i : HeapIn} {v v' : HeapView} {m : Multiset Node} {g : HeapGhost}

/-- The root of a non-empty heap is one of its nodes. -/
theorem Rest.root_mem (h : v.Rest cfg m) (h0 : v.fsm.size ≠ 0) : v.node 0 ∈ m := by
  rw [← h.cont]; exact mem_contents.2 ⟨0, Nat.pos_of_ne_zero h0, rfl⟩

theorem Rest.root_le (h : v.Rest cfg m) {x : Node} (hx : x ∈ m) :
    cfg.kind.key (v.node 0) ≤ cfg.kind.key x := by
  rw [← h.cont] at hx
  obtain ⟨j, hj, rfl⟩ := mem_contents.1 hx
  exact h.ord.root_le j hj

theorem phase_done (h : v.Phase cfg m) (hs : v.Step cfg i v') (hst : v.fsm.state = .done) :
    v'.Phase cfg m := by
  simp only [Phase, hst] at h
  obtain ⟨hn, hq'⟩ := hs.node_eq (by simp [HeapFsm.memDoWrite, hst]) h.quiet
  obtain ⟨hc, -⟩ := step_regs_eq hs (by simp [HeapFsm.regs, hst])
  have hst' : v'.fsm.state = .idle := by rw [hs.fsm]; simp [HeapFsm.step, HeapFsm.nState, hst]
  simp only [Phase, hst']
  exact h.frame hs hc hn hq'

/-! ### `PEEK` of an empty heap -/

/-- An empty heap puts no demands on slot 0 of the cache. -/
theorem Rest.frame_empty (h : v.Rest cfg m) (h0 : v.fsm.size = 0) (hs : v.Step cfg i v')
    (hn : v'.node = v.node) (hq : v'.Quiet) (hsz : v'.fsm.size = v.fsm.size)
    (hnv : ∀ s, s ≠ 0 → v'.fsm.nodeCacheValid s = v.fsm.nodeCacheValid s) : v'.Rest cfg m := by
  refine ⟨?_, ?_, ?_, ?_, ?_, ?_, hq⟩ <;> rw [hsz]
  · exact h.cap
  · rw [hn]; exact h.ord
  · rw [hn]; exact h.cont
  · exact hs.mapped h.mapped
  · intro s h3 hne hval
    rw [hnv s hne] at hval
    have := (h.cache s h3 hne hval).1
    omega
  · intro hpos; omega

theorem phase_peekRdIssue (h : v.Phase cfg m) (hs : v.Step cfg i v') (hst : v.fsm.state = .peekRdIssue) :
    v'.Phase cfg m := by
  simp only [Phase, hst] at h
  obtain ⟨hr, h0, hmiss⟩ := h
  have hw : v.fsm.memDoWrite = false := by simp [HeapFsm.memDoWrite, hst]
  have hidx : v.fsm.memIdx = 0 := by simp [HeapFsm.memIdx, hst]
  have hcached : v.fsm.memIdxCached = false := by simp [HeapFsm.memIdxCached, hidx, hmiss]
  obtain ⟨hn, hq'⟩ := hs.node_eq hw hr.quiet
  obtain ⟨hc, -⟩ := step_regs_eq hs (by simp [HeapFsm.regs, hst])
  have hsz : v'.fsm.size = v.fsm.size := congrArg HeapFsm.Core.size hc
  have hst' : v'.fsm.state = .peekRdWait := by
    rw [hs.fsm]; simp [HeapFsm.step, HeapFsm.nState, hst, issueTo_eq, hidx, privateNodes]
  simp only [Phase, hst', hsz]
  exact ⟨hr.frame hs hc hn hq', h0, hs.read_issue (by simp [HeapFsm.memDoRead, hst]) hw hcached hidx
    (by unfold maxNodes; omega) hr.quiet (.inl (by unfold privateNodes; omega))⟩

theorem phase_peekRdWait (h : v.Phase cfg m) (hs : v.Step cfg i v') (hst : v.fsm.state = .peekRdWait) :
    v'.Phase cfg m := by
  simp only [Phase, hst] at h
  obtain ⟨hr, h0, hwait⟩ := h
  obtain ⟨hn, hq'⟩ := hs.node_eq (by simp [HeapFsm.memDoWrite, hst]) hr.quiet
  have hd : v.fsm.readDone i = true := by
    have := hwait.2
    rw [if_pos (by unfold privateNodes; omega)] at this
    simp [HeapFsm.readDone, this.1]
  have hst' : v'.fsm.state = .done := by
    rw [hs.fsm]; simp [HeapFsm.step, HeapFsm.nState, hst, hd]
  simp only [Phase, hst']
  refine hr.frame_empty h0 hs hn hq' ?_ fun s hne => ?_ <;> rw [hs.fsm] <;>
    simp only [HeapFsm.step, HeapFsm.regs, hst, hd, if_true]
  rw [update_of_ne hne]

/-! ### `UPDATE` -/

theorem phase_updateWrIssue (h : v.Phase cfg m) (hs : v.Step cfg i v')
    (hst : v.fsm.state = .updateWrIssue) : v'.Phase cfg m := by
  simp only [Phase, hst] at h
  obtain ⟨hu, hq⟩ := h
  have hidx : v.fsm.memIdx = 0 := by simp [HeapFsm.memIdx, hst]
  obtain ⟨hc, -⟩ := step_regs_eq hs (by simp [HeapFsm.regs, hst])
  have hd' : v'.fsm.savedOpData = v.fsm.savedOpData := congrArg HeapFsm.Core.savedOpData hc
  obtain ⟨hoff, hwait⟩ := hs.write_issue (x := v.fsm.savedOpData) (by simp [HeapFsm.memDoWrite, hst])
    hidx (by simp [HeapFsm.memWdata, hst]) (by unfold maxNodes; omega) hq
  rw [if_pos (.inl (by unfold privateNodes; omega))] at hwait
  have hst' : v'.fsm.state = .updateWrWait := by
    rw [hs.fsm]; simp [HeapFsm.step, HeapFsm.nState, hst, issueTo_eq, hidx, privateNodes]
  simp only [Phase, hst', hd']
  exact ⟨hu.frame hs hc hoff, hwait⟩

theorem phase_updateWrWait (h : v.Phase cfg m) (hs : v.Step cfg i v')
    (hst : v.fsm.state = .updateWrWait) : v'.Phase cfg m := by
  simp only [Phase, hst] at h
  obtain ⟨hu, hwait⟩ := h
  unfold WriteWait at hwait
  rw [if_pos (by unfold privateNodes; omega)] at hwait
  obtain ⟨hd1, hx, hq⟩ := hwait
  obtain ⟨hn, hq'⟩ := hs.node_eq (by simp [HeapFsm.memDoWrite, hst]) hq
  have hd : v.fsm.writeDone i = true := by simp [HeapFsm.writeDone, hd1]
  have hst' : v'.fsm.state = .done := by
    rw [hs.fsm]; simp [HeapFsm.step, HeapFsm.nState, hst, hd]
  have hsz : v'.fsm.size = v.fsm.size := by rw [hs.fsm]; simp [HeapFsm.step, HeapFsm.regs, hst, hd]
  have hnc : v'.fsm.nodeCache = update v.fsm.nodeCache 0 v.fsm.savedOpData := by
    rw [hs.fsm]; simp [HeapFsm.step, HeapFsm.regs, hst, hd]
  have hnv : v'.fsm.nodeCacheValid = update v.fsm.nodeCacheValid 0 true := by
    rw [hs.fsm]; simp [HeapFsm.step, HeapFsm.regs, hst, hd]
  have hfill : update v.node 0 v.fsm.savedOpData = v.node := by rw [← hx, update_eq_self]
  simp only [Phase, hst']
  refine ⟨?_, ?_, ?_, ?_, ?_, ?_, hq'⟩ <;> rw [hsz]
  · exact hu.cap
  · rw [hn, ← hfill]; exact hu.ord
  · rw [hn, ← hfill]; exact hu.cont
  · exact hs.mapped hu.mapped
  · intro s h3 hne hval
    rw [hnv, update_of_ne hne] at hval
    rw [hnc, update_of_ne hne, hn]
    exact hu.cache s h3 hne hval
  · intro _
    rw [hnv, hnc, update_self, update_self, hn]
    exact ⟨rfl, hx.symm⟩

/-! ### Accepting a command -/

/-- A cycle of `S_IDLE` keeps the nodes and everything `Rest` looks at. -/
theorem Rest.idle_frame (h : v.Rest cfg m) (hs : v.Step cfg i v') (hst : v.fsm.state = .idle) :
    v'.Rest cfg m ∧ v'.node = v.node ∧ v'.fsm.size = v.fsm.size ∧
      v'.fsm.nodeCache = v.fsm.nodeCache ∧ v'.fsm.nodeCacheValid = v.fsm.nodeCacheValid := by
  obtain ⟨hn, hq'⟩ := hs.node_eq (by simp [HeapFsm.memDoWrite, hst]) h.quiet
  have hregs : v'.fsm.size = v.fsm.size ∧ v'.fsm.nodeCache = v.fsm.nodeCache ∧
      v'.fsm.nodeCacheValid = v.fsm.nodeCacheValid := by
    rw [hs.fsm]
    simp only [HeapFsm.step, HeapFsm.regs, hst]
    by_cases hv : i.cmdValid = true
    · rw [if_pos hv]; cases i.cmdOp <;> exact ⟨rfl, rfl, rfl⟩
    · rw [if_neg hv]; exact ⟨rfl, rfl, rfl⟩
  obtain ⟨hsz, hnc, hnv⟩ := hregs
  refine ⟨⟨?_, ?_, ?_, ?_, ?_, ?_, hq'⟩, hn, hsz, hnc, hnv⟩ <;> rw [hsz]
  · exact h.cap
  · rw [hn]; exact h.ord
  · rw [hn]; exact h.cont
  · exact hs.mapped h.mapped
  · intro s h3 hne hval
    rw [hnv] at hval
    rw [hnc, hn]
    exact h.cache s h3 hne hval
  · rw [hnv, hnc, hn]; exact h.root

variable (hs : v.Step cfg i v') (hst : v.fsm.state = .idle) (hv : i.cmdValid = true)
include hs hst hv

theorem Rest.accept_push (h : v.Rest cfg m) (hop : i.cmdOp = .push) :
    v'.Phase cfg (i.cmdDataIn ::ₘ m) := by
  obtain ⟨hr, hn, hsz, hnc, hnv⟩ := h.idle_frame hs hst
  have hst' : v'.fsm.state = .pushLaunch := by
    rw [hs.fsm]; simp [HeapFsm.step, HeapFsm.nState, hst, hv, hop]
  have ht : v'.fsm.targetIdx = v.fsm.size := by
    rw [hs.fsm]; simp [HeapFsm.step, HeapFsm.regs, hst, hv, hop]
  simp only [Phase, hst', ht, hsz]
  refine ⟨h.push hs hn hsz ht ?_ ?_ hnc hnv, hr.quiet, trivial⟩ <;> rw [hs.fsm] <;>
    simp only [HeapFsm.step, HeapFsm.regs, hst, hv, hop, if_true]

theorem Rest.accept_pop (h : v.Rest cfg m) (hop : i.cmdOp = .pop) :
    v'.Phase cfg (if v.fsm.size = 0 then m else m.erase (v.node 0)) ∧
      (v.fsm.size ≠ 0 → v'.fsm.poppedRoot = v.node 0) := by
  obtain ⟨hr, hn, hsz, hnc, hnv⟩ := h.idle_frame hs hst
  have hst' : v'.fsm.state = .popLaunch := by
    rw [hs.fsm]; simp [HeapFsm.step, HeapFsm.nState, hst, hv, hop]
  simp only [Phase, hst', hsz]
  by_cases h0 : v.fsm.size = 0
  · rw [if_pos h0, if_pos h0]; exact ⟨hr, fun hne => absurd h0 hne⟩
  · rw [if_neg h0, if_neg h0]
    have hroot : v'.fsm.poppedRoot = v.node 0 := by
      have := h.root (Nat.pos_of_ne_zero h0)
      rw [hs.fsm]; simp [HeapFsm.step, HeapFsm.regs, hst, hv, hop, this.1, this.2]
    refine ⟨⟨?_, by rw [hroot, hn]⟩, fun _ => hroot⟩
    rw [hroot, Multiset.cons_erase (h.root_mem h0)]
    exact hr

theorem Rest.accept_peek (h : v.Rest cfg m) (hop : i.cmdOp = .peek) : v'.Phase cfg m := by
  obtain ⟨hr, hn, hsz, hnc, hnv⟩ := h.idle_frame hs hst
  by_cases hval : v.fsm.nodeCacheValid 0 = true
  · have hst' : v'.fsm.state = .done := by
      rw [hs.fsm]; simp [HeapFsm.step, HeapFsm.nState, hst, hv, hop, hval]
    simp only [Phase, hst']; exact hr
  · have hst' : v'.fsm.state = .peekRdIssue := by
      rw [hs.fsm]; simp [HeapFsm.step, HeapFsm.nState, hst, hv, hop, hval]
    have h0 : v.fsm.size = 0 := by
      by_contra hne
      exact hval (h.root (Nat.pos_of_ne_zero hne)).1
    simp only [Phase, hst', hsz, hnv]
    exact ⟨hr, h0, Bool.eq_false_iff.2 hval⟩

theorem Rest.accept_update (h : v.Rest cfg m) (hop : i.cmdOp = .update) :
    v'.Phase cfg (if v.fsm.size ≠ 0 ∧ orderPrice i.cmdDataIn = orderPrice (v.node 0) ∧
      orderTs i.cmdDataIn = orderTs (v.node 0) then i.cmdDataIn ::ₘ m.erase (v.node 0) else m) := by
  obtain ⟨hr, hn, hsz, hnc, hnv⟩ := h.idle_frame hs hst
  by_cases hgo : (v.fsm.nodeCacheValid 0 && v.fsm.updateKeysOk i) = true
  · have hst' : v'.fsm.state = .updateWrIssue := by
      rw [hs.fsm]; simp [HeapFsm.step, HeapFsm.nState, hst, hv, hop, hgo]
    have hd : v'.fsm.savedOpData = i.cmdDataIn := by
      rw [hs.fsm]; simp [HeapFsm.step, HeapFsm.regs, hst, hv, hop]
    simp only [HeapFsm.updateKeysOk, Bool.and_eq_true, decide_eq_true_eq] at hgo
    simp only [Phase, hst']
    refine ⟨⟨hr.cap, ?_, ?_, hr.mapped, hr.cache⟩, hr.quiet⟩ <;> rw [hd, hn, hsz]
    · -- the order survives: the new root has the old root's key, or there is no other node
      by_cases h0 : v.fsm.size = 0
      · rw [h0]; intro j _ hj; omega
      · refine h.ord.update_root (HeapKind.key_congr ?_ ?_)
        exacts [hgo.2.1.trans (by rw [(h.root (Nat.pos_of_ne_zero h0)).2]),
          hgo.2.2.trans (by rw [(h.root (Nat.pos_of_ne_zero h0)).2])]
    · by_cases h0 : v.fsm.size = 0
      · rw [if_neg fun hc => hc.1 h0, ← h.cont, h0]; rfl
      · have hroot := (h.root (Nat.pos_of_ne_zero h0)).2
        rw [hroot] at hgo
        rw [if_pos ⟨h0, hgo.2⟩]
        have hupd := contents_update (f := v.node) (x := i.cmdDataIn) (Nat.pos_of_ne_zero h0)
        rw [h.cont, ← Multiset.cons_erase (h.root_mem h0), Multiset.cons_swap] at hupd
        exact (Multiset.cons_inj_right _).1 hupd
  · have hst' : v'.fsm.state = .done := by
      rw [hs.fsm]; simp [HeapFsm.step, HeapFsm.nState, hst, hv, hop, hgo]
    have hno : ¬ (v.fsm.size ≠ 0 ∧ orderPrice i.cmdDataIn = orderPrice (v.node 0) ∧
        orderTs i.cmdDataIn = orderTs (v.node 0)) := by
      rintro ⟨h0, hp, ht⟩
      obtain ⟨hval, hroot⟩ := h.root (Nat.pos_of_ne_zero h0)
      exact hgo (by simp [hval, HeapFsm.updateKeysOk, hroot, hp, ht])
    simp only [Phase, hst']
    rw [if_neg hno]; exact hr

omit hs hst hv

/-! ### One cycle -/

theorem Phase.step (h : v.Phase cfg m) (hs : v.Step cfg i v') (hne : v.fsm.state ≠ .idle)
    (hcap : v.fsm.state = .pushWrFinalWait → v'.fsm.size ≤ 1024) : v'.Phase cfg m := by
  cases hst : v.fsm.state with
  | idle => exact absurd hst hne
  | pushLaunch => exact phase_pushLaunch h hs hst
  | pushRdParentIssue => exact phase_pushRdParentIssue h hs hst
  | pushRdParentWait => exact phase_pushRdParentWait h hs hst
  | pushDecide => exact phase_pushDecide h hs hst
  | pushWrDownIssue => exact phase_pushWrDownIssue h hs hst
  | pushWrDownWait => exact phase_pushWrDownWait h hs hst
  | pushWrFinalIssue => exact phase_pushWrFinalIssue h hs hst
  | pushWrFinalWait => exact phase_pushWrFinalWait h hs hst (hcap hst)
  | popLaunch => exact phase_popLaunch h hs hst
  | popRdRootIssue | popRdRootWait => simp only [Phase, hst] at h
  | popRdLastIssue => exact phase_popRdLastIssue h hs hst
  | popRdLastWait => exact phase_popRdLastWait h hs hst
  | popSiftRdLeftIssue => exact phase_popSiftRdLeftIssue h hs hst
  | popSiftRdLeftWait => exact phase_popSiftRdLeftWait h hs hst
  | popSiftRdRightIssue => exact phase_popSiftRdRightIssue h hs hst
  | popSiftRdRightWait => exact phase_popSiftRdRightWait h hs hst
  | popSiftDecide => exact phase_popSiftDecide h hs hst
  | popSiftWrUpIssue => exact phase_popSiftWrUpIssue h hs hst
  | popSiftWrUpWait => exact phase_popSiftWrUpWait h hs hst
  | popSiftWrFinalIssue => exact phase_popSiftWrFinalIssue h hs hst
  | popSiftWrFinalWait => exact phase_popSiftWrFinalWait h hs hst
  | peekRdIssue => exact phase_peekRdIssue h hs hst
  | peekRdWait => exact phase_peekRdWait h hs hst
  | updateWrIssue => exact phase_updateWrIssue h hs hst
  | updateWrWait => exact phase_updateWrWait h hs hst
  | done => exact phase_done h hs hst

/-- `saved_op` and `popped_root` are set when a command is accepted and stay. -/
theorem saved_eq (hs : v.Step cfg i v') (hne : v.fsm.state ≠ .idle)
    (hroot : v.fsm.state ≠ .popRdRootWait) :
    v'.fsm.savedOp = v.fsm.savedOp ∧ v'.fsm.poppedRoot = v.fsm.poppedRoot := by
  rw [hs.fsm]
  simp only [HeapFsm.step]
  cases hst : v.fsm.state with
  | idle => exact absurd hst hne
  | popRdRootWait => exact absurd hst hroot
  | pushWrDownWait | pushWrFinalWait | popSiftWrUpWait | popSiftWrFinalWait =>
    simp only [HeapFsm.regs, hst, HeapFsm.cacheTarget, HeapFsm.descendTo]
    split_ifs <;> exact ⟨rfl, rfl⟩
  | _ =>
    simp only [HeapFsm.regs, hst, HeapFsm.takeLast]
    try split_ifs
    all_goals trivial

theorem Phase.idle_step (h : v.Phase cfg g.nodes) (hs : v.Step cfg i v') (hst : v.fsm.state = .idle) :
    v'.Phase cfg (g.next v i).nodes := by
  simp only [Phase, hst] at h
  by_cases hv : i.cmdValid = true
  · simp only [HeapGhost.next, hst, hv, and_self, if_true]
    cases hop : i.cmdOp with
    | push => exact h.accept_push hs hst hv hop
    | pop => have := (h.accept_pop hs hst hv hop).1; split_ifs at this ⊢ <;> exact this
    | peek => exact h.accept_peek hs hst hv hop
    | update => have := h.accept_update hs hst hv hop; split_ifs at this ⊢ <;> exact this
  · have hst' : v'.fsm.state = .idle := by
      rw [hs.fsm]; simp [HeapFsm.step, HeapFsm.nState, hst, hv]
    simp only [HeapGhost.next, hv, and_false, if_false, Phase, hst', Bool.false_eq_true]
    exact (h.idle_frame hs hst).1

/-- One clock cycle keeps the invariant, as long as the heap holds at most 1024 nodes. -/
theorem Inv.step (h : v.Inv cfg g) (hs : v.Step cfg i v') (hcap : v'.fsm.size ≤ 1024) :
    v'.Inv cfg (g.next v i) := by
  by_cases hst : v.fsm.state = .idle
  · refine ⟨h.phase.idle_step hs hst, fun r hr => ?_⟩
    have hrest : v.Rest cfg g.nodes := by simpa only [Phase, hst] using h.phase
    by_cases hv : i.cmdValid = true
    · simp only [HeapGhost.next, hst, hv, and_self, if_true] at hr ⊢
      cases hop : i.cmdOp <;> simp only [hop] at hr ⊢
      case push | peek => cases hr
      case update => split_ifs at hr
      case pop =>
        by_cases h0 : v.fsm.size = 0
        · rw [if_pos h0] at hr; cases hr
        · rw [if_neg h0] at hr ⊢
          cases hr
          refine ⟨(hrest.accept_pop hs hst hv hop).2 h0, ?_, fun x hx => ?_⟩
          · rw [hs.fsm]; simp [HeapFsm.step, HeapFsm.regs, hst, hv, hop]
          · exact hrest.root_le (Multiset.mem_of_mem_erase hx)
    · have hnext : g.next v i = g := by simp [HeapGhost.next, hv]
      have hregs : v.fsm.regs cfg i = v.fsm := by simp [HeapFsm.regs, hst, hv]
      rw [hnext] at hr ⊢
      rw [hs.fsm]
      simpa only [HeapFsm.step, hregs] using h.popped r hr
  · have hnext : g.next v i = g := by simp [HeapGhost.next, hst]
    rw [hnext]
    have hroot : v.fsm.state ≠ .popRdRootWait := fun hc => by simpa only [Phase, hc] using h.phase
    obtain ⟨hop, hp⟩ := saved_eq hs hst hroot
    exact ⟨h.phase.step hs hst fun _ => hcap, by rw [hop, hp]; exact h.popped⟩

/-! ### How many nodes there can be -/

theorem Phase.cap (h : v.Phase cfg m) : v.fsm.size ≤ 1024 := by
  cases hst : v.fsm.state <;> simp only [Phase, hst] at h
  case popLaunch => split at h <;> [exact h.cap; exact h.rest.cap]
  all_goals first
    | exact h.cap
    | exact h.1.cap
    | exact h.1.rest.cap
    | exact Nat.le_of_lt h.1.cap

/-- A heap gets its 1025th node only if the port has taken a write for it. -/
theorem Inv.size_step (h : v.Inv cfg g) (hs : v.Step cfg i v') (hno : ¬ v'.Mapped 1025) :
    v'.fsm.size ≤ 1024 := by
  by_cases hidle : v.fsm.state = .idle
  · exact (h.phase.idle_step hs hidle).cap
  by_cases hst : v.fsm.state = .pushWrFinalWait
  · have hph := h.phase
    simp only [Phase, hst] at hph
    obtain ⟨hp, hwait, -⟩ := hph
    have hcap := hp.cap
    rcases hs.write_wait (by simp [HeapFsm.memDoWrite, hst]) hwait hp.target_max with
      ⟨hd, -, -, hmap⟩ | ⟨hd, -⟩ | ⟨hd, -⟩
    · have hsz : v'.fsm.size = (v.fsm.size + 1) % 2 ^ 11 := by
        rw [hs.fsm]; simp [HeapFsm.step, HeapFsm.regs, hst, hd]
      have hmap' := hp.mapped_succ hs hmap
      have hne : v.fsm.size ≠ 1024 := fun hc => hno (by rw [hc] at hmap'; exact hmap')
      omega
    all_goals
      have hsz : v'.fsm.size = v.fsm.size := by rw [hs.fsm]; simp [HeapFsm.step, HeapFsm.regs, hst, hd]
      omega
  · exact (h.phase.step hs hidle fun hc => absurd hc hst).cap

end HeapView

end HftSim
