import HftSim.HeapPush

/-!
# The `POP` states keep the heap invariant

The root is already in `popped_root`. The last leaf is taken into `cur_node` and travels down from
the root: each round reads the children of the hole and, while one of them beats the travelling
node, writes the better child up into the hole. A child index past the end of the heap is read as
well; nobody waits for that answer.
-/

namespace HftSim

open Function BinHeap

namespace HeapView

variable {cfg : HeapCfg} {i : HeapIn} {v v' : HeapView} {m : Multiset Node}

theorem phase_popLaunch (h : v.Phase cfg m) (hs : v.Step cfg i v') (hst : v.fsm.state = .popLaunch) :
    v'.Phase cfg m := by
  simp only [Phase, hst] at h
  have hw : v.fsm.memDoWrite = false := by simp [HeapFsm.memDoWrite, hst]
  by_cases h0 : v.fsm.size = 0
  · rw [if_pos h0] at h
    obtain ⟨hn, hq'⟩ := hs.node_eq hw h.quiet
    have hst' : v'.fsm.state = .done := by
      rw [hs.fsm]; simp [HeapFsm.step, HeapFsm.nState, hst, h0]
    simp only [Phase, hst']
    refine h.frame hs ?_ hn hq'
    rw [hs.fsm]; simp [HeapFsm.step, HeapFsm.core, HeapFsm.regs, hst, h0]
  · rw [if_neg h0] at h
    obtain ⟨hn, hq'⟩ := hs.node_eq hw h.rest.quiet
    have hval := (h.rest.root (Nat.pos_of_ne_zero h0)).1
    by_cases h1 : v.fsm.size = 1
    · have hst' : v'.fsm.state = .done := by
        rw [hs.fsm]; simp [HeapFsm.step, HeapFsm.nState, hst, h1, hval]
      have hsz : v'.fsm.size = 0 := by
        rw [hs.fsm]; simp [HeapFsm.step, HeapFsm.regs, hst, h1, hval]
      have hnv : v'.fsm.nodeCacheValid = fun _ => false := by
        rw [hs.fsm]; simp [HeapFsm.step, HeapFsm.regs, hst, h1, hval]
      have hm : m = 0 := by
        have := congrArg Multiset.card h.rest.cont
        rw [card_contents, h1, Multiset.card_cons] at this
        exact Multiset.card_eq_zero.1 (by omega)
      simp only [Phase, hst']
      refine ⟨?_, ?_, ?_, ?_, ?_, ?_, hq'⟩ <;> rw [hsz]
      · omega
      · intro j _ hj; omega
      · rw [hm]; rfl
      · intro j hj; omega
      · intro s _ _ hv; rw [hnv] at hv; cases hv
      · intro h; omega
    · have hst' : v'.fsm.state = .popRdLastIssue := by
        rw [hs.fsm]; simp [HeapFsm.step, HeapFsm.nState, hst, h0, h1, hval]
      have hc : v'.fsm.core = v.fsm.core := by
        rw [hs.fsm]; simp [HeapFsm.step, HeapFsm.core, HeapFsm.regs, hst, h1]
      have hsz : v'.fsm.size = v.fsm.size := congrArg HeapFsm.Core.size hc
      simp only [Phase, hst', hsz]
      exact ⟨h.frame hs hc hn hq', by omega⟩

/-- The last leaf has been taken: the hole is at the root. -/
theorem PopHead.takeLast (h : v.PopHead cfg m) (h2 : 2 ≤ v.fsm.size) (hs : v.Step cfg i v')
    (hn : v'.node = v.node)
    (hf : v'.fsm.core = (v.fsm.takeLast (v.node (v.fsm.size - 1))).core) : v'.Sift cfg m := by
  have hcap := h.rest.cap
  have hsz : v'.fsm.size = v.fsm.size - 1 := by
    have := congrArg HeapFsm.Core.size hf
    simp only [HeapFsm.core, HeapFsm.takeLast, HeapFsm.sizeMinusOne] at this
    omega
  have ht : v'.fsm.targetIdx = 0 := by
    simpa only [HeapFsm.core, HeapFsm.takeLast] using congrArg HeapFsm.Core.targetIdx hf
  have hcur : v'.fsm.curNode = v.node (v.fsm.size - 1) := congrArg HeapFsm.Core.curNode hf
  have hnc : v'.fsm.nodeCache = v.fsm.nodeCache := by
    simpa only [HeapFsm.core, HeapFsm.takeLast] using congrArg HeapFsm.Core.nodeCache hf
  have hnv := congrArg HeapFsm.Core.nodeCacheValid hf
  refine ⟨?_, ?_, ?_, ?_, ?_, ?_, ?_, ?_, ?_⟩ <;> simp only [hsz, ht, hcur, hn]
  · omega
  · omega
  · simpa only [HeapFsm.core, HeapFsm.takeLast] using congrArg HeapFsm.Core.leftIdx hf
  · simpa only [HeapFsm.core, HeapFsm.takeLast] using congrArg HeapFsm.Core.rightIdx hf
  · exact h.rest.ord.downHole (Nat.sub_le _ _)
  · have hpop := contents_pop (f := v.node) (show 0 < v.fsm.size - 1 by omega)
    rw [Nat.sub_add_cancel (by omega), h.rest.cont, h.root] at hpop
    exact (Multiset.cons_inj_right _).1 hpop.symm
  · exact hs.mapped fun j hj => h.rest.mapped j (by omega)
  · intro s h3 hne hval
    have hval' : v.fsm.nodeCacheValid s = true ∧ s < v.fsm.size - 1 := by
      rw [show v'.fsm.nodeCacheValid = _ from hnv] at hval
      simp only [HeapFsm.core, HeapFsm.takeLast, hne, if_false] at hval
      split at hval
      · cases hval
      · split at hval
        · cases hval
        · exact ⟨hval, by omega⟩
    rw [hnc, hn]
    exact ⟨hval'.2, (h.rest.cache s h3 hne hval'.1).2⟩
  · intro h0; omega

theorem phase_popRdLastIssue (h : v.Phase cfg m) (hs : v.Step cfg i v')
    (hst : v.fsm.state = .popRdLastIssue) : v'.Phase cfg m := by
  simp only [Phase, hst] at h
  obtain ⟨hp, h2⟩ := h
  have hcap := hp.rest.cap
  have hw : v.fsm.memDoWrite = false := by simp [HeapFsm.memDoWrite, hst]
  have hidx : v.fsm.memIdx = v.fsm.size - 1 := by
    simp only [HeapFsm.memIdx, hst, HeapFsm.sizeMinusOne]; omega
  obtain ⟨hn, hq'⟩ := hs.node_eq hw hp.rest.quiet
  by_cases hhit : v.fsm.memIdxCached = true
  · have hst' : v'.fsm.state = .popSiftRdLeftIssue := by
      rw [hs.fsm]; simp [HeapFsm.step, HeapFsm.nState, hst, hhit]
    simp only [Phase, hst']
    refine ⟨hp.takeLast h2 hs hn ?_, hq'⟩
    rw [← hidx, ← hp.rest.cache.hit (by omega) hhit, hs.fsm]
    simp only [HeapFsm.step, HeapFsm.core, HeapFsm.regs, hst, hhit, if_true]
  · have hmiss := Bool.eq_false_iff.2 hhit
    have hc : v'.fsm.core = v.fsm.core := by
      rw [hs.fsm]; simp [HeapFsm.step, HeapFsm.core, HeapFsm.regs, hst, hmiss]
    have hsz : v'.fsm.size = v.fsm.size := congrArg HeapFsm.Core.size hc
    have hp' := hp.frame hs hc hn hq'
    have hst' : v'.fsm.state =
        if v.fsm.size - 1 < privateNodes ∨ i.virtReqReady = true then .popRdLastWait
        else .popRdLastIssue := by
      rw [hs.fsm]; simp [HeapFsm.step, HeapFsm.nState, hst, hmiss, issueTo_eq, hidx]
    by_cases hgo : v.fsm.size - 1 < privateNodes ∨ i.virtReqReady = true
    · rw [if_pos hgo] at hst'
      simp only [Phase, hst', hsz]
      exact ⟨hp', h2, hs.read_issue (by simp [HeapFsm.memDoRead, hst]) hw hmiss hidx
        (by unfold maxNodes; omega) hp.rest.quiet hgo⟩
    · rw [if_neg hgo] at hst'
      simp only [Phase, hst', hsz]
      exact ⟨hp', h2⟩

theorem phase_popRdLastWait (h : v.Phase cfg m) (hs : v.Step cfg i v')
    (hst : v.fsm.state = .popRdLastWait) : v'.Phase cfg m := by
  simp only [Phase, hst] at h
  obtain ⟨hp, h2, hwait⟩ := h
  have hcap := hp.rest.cap
  have hw : v.fsm.memDoWrite = false := by simp [HeapFsm.memDoWrite, hst]
  obtain ⟨hn, hq'⟩ := hs.node_eq hw hwait.1
  rcases hs.read_wait (by simp [HeapFsm.memDoRead, hst]) hw hwait (by unfold maxNodes; omega)
    (fun j hj => hp.rest.mapped j (by omega)) with ⟨hd, hdata⟩ | ⟨hd, hr⟩ | ⟨hd, hr, hwait'⟩
  · have hst' : v'.fsm.state = .popSiftRdLeftIssue := by
      rw [hs.fsm]; simp [HeapFsm.step, HeapFsm.nState, hst, hd]
    simp only [Phase, hst']
    refine ⟨hp.takeLast h2 hs hn ?_, hq'⟩
    rw [← hdata, hs.fsm]
    simp only [HeapFsm.step, HeapFsm.core, HeapFsm.regs, hst, hd, if_true]
  all_goals
    have hc : v'.fsm.core = v.fsm.core := by
      rw [hs.fsm]; simp [HeapFsm.step, HeapFsm.core, HeapFsm.regs, hst, hd]
    have hsz : v'.fsm.size = v.fsm.size := congrArg HeapFsm.Core.size hc
    have hp' := hp.frame hs hc hn hq'
  · have hst' : v'.fsm.state = .popRdLastIssue := by
      rw [hs.fsm]; simp [HeapFsm.step, HeapFsm.nState, hst, hd, hr]
    simp only [Phase, hst', hsz]
    exact ⟨hp', h2⟩
  · have hst' : v'.fsm.state = .popRdLastWait := by
      rw [hs.fsm]; simp [HeapFsm.step, HeapFsm.nState, hst, hd, hr]
    simp only [Phase, hst', hsz]
    exact ⟨hp', h2, hwait'⟩

/-! ### Sifting down -/

theorem Sift.target_max (h : v.Sift cfg m) : v.fsm.targetIdx < maxNodes := by
  have := h.lt; have := h.cap; unfold maxNodes; omega

/-- The children of the hole are `left_idx` and `right_idx`. -/
theorem Sift.child_iff (h : v.Sift cfg m) {c : Nat} (hc : 0 < c) :
    parent c = v.fsm.targetIdx ↔ c = v.fsm.leftIdx ∨ c = v.fsm.rightIdx := by
  rw [parent_eq_iff hc, h.left, h.right]

theorem phase_popSiftRdLeftIssue (h : v.Phase cfg m) (hs : v.Step cfg i v')
    (hst : v.fsm.state = .popSiftRdLeftIssue) : v'.Phase cfg m := by
  simp only [Phase, hst] at h
  obtain ⟨hp, hq⟩ := h
  have hl := hp.left
  have hr := hp.right
  have hcap := hp.cap
  have hw : v.fsm.memDoWrite = false := by simp [HeapFsm.memDoWrite, hst]
  have hidx : v.fsm.memIdx = v.fsm.leftIdx := by simp [HeapFsm.memIdx, hst]
  obtain ⟨hn, hq'⟩ := hs.node_eq hw hq
  have hc : v'.fsm.core = v.fsm.core := by
    rw [hs.fsm]; simp only [HeapFsm.step, HeapFsm.core, HeapFsm.regs, hst]; split <;> rfl
  have hp' := hp.frame hs hc fun j _ => by rw [hn]
  have hsz : v'.fsm.size = v.fsm.size := congrArg HeapFsm.Core.size hc
  have ht' : v'.fsm.targetIdx = v.fsm.targetIdx := congrArg HeapFsm.Core.targetIdx hc
  have hl' : v'.fsm.leftIdx = v.fsm.leftIdx := congrArg HeapFsm.Core.leftIdx hc
  by_cases hend : v.fsm.size ≤ v.fsm.leftIdx
  · -- no child: `cur_node` goes into the hole, a read that was issued anyway is abandoned
    have hst' : v'.fsm.state = .popSiftWrFinalIssue := by
      rw [hs.fsm]; simp [HeapFsm.step, HeapFsm.nState, hst, hend]
    simp only [Phase, hst']
    refine ⟨hp', hq', fun c hc0 hcn hpc => ?_⟩
    rw [ht'] at hpc
    rcases (hp.child_iff hc0).1 hpc with h1 | h1 <;> omega
  have hlt : v.fsm.leftIdx < v.fsm.size := Nat.not_le.1 hend
  by_cases hhit : v.fsm.memIdxCached = true
  · have hst' : v'.fsm.state = .popSiftRdRightIssue := by
      rw [hs.fsm]; simp [HeapFsm.step, HeapFsm.nState, hst, hend, hhit]
    have hln : v'.fsm.leftNode = v.fsm.memIdxCacheData := by
      rw [hs.fsm]; simp [HeapFsm.step, HeapFsm.regs, hst, hlt, hhit]
    simp only [Phase, hst', hsz, hl', hn, hln]
    exact ⟨hp', hq', hlt, by rw [hp.cache.hit (by omega) hhit, hidx]⟩
  · have hmiss := Bool.eq_false_iff.2 hhit
    have hst' : v'.fsm.state =
        if v.fsm.leftIdx < privateNodes ∨ i.virtReqReady = true then .popSiftRdLeftWait
        else .popSiftRdLeftIssue := by
      rw [hs.fsm]; simp [HeapFsm.step, HeapFsm.nState, hst, hend, hmiss, issueTo_eq, hidx]
    by_cases hgo : v.fsm.leftIdx < privateNodes ∨ i.virtReqReady = true
    · rw [if_pos hgo] at hst'
      simp only [Phase, hst', hsz, hl']
      exact ⟨hp', hs.read_issue (by simp [HeapFsm.memDoRead, hst]) hw hmiss hidx
        (by unfold maxNodes; omega) hq hgo, hlt⟩
    · rw [if_neg hgo] at hst'
      simp only [Phase, hst']
      exact ⟨hp', hq'⟩

theorem phase_popSiftRdLeftWait (h : v.Phase cfg m) (hs : v.Step cfg i v')
    (hst : v.fsm.state = .popSiftRdLeftWait) : v'.Phase cfg m := by
  simp only [Phase, hst] at h
  obtain ⟨hp, hwait, hlt⟩ := h
  have hcap := hp.cap
  have hw : v.fsm.memDoWrite = false := by simp [HeapFsm.memDoWrite, hst]
  obtain ⟨hn, hq'⟩ := hs.node_eq hw hwait.1
  have hc : v'.fsm.core = v.fsm.core := by
    rw [hs.fsm]; simp only [HeapFsm.step, HeapFsm.core, HeapFsm.regs, hst]; split <;> rfl
  have hp' := hp.frame hs hc fun j _ => by rw [hn]
  have hsz : v'.fsm.size = v.fsm.size := congrArg HeapFsm.Core.size hc
  have hl' : v'.fsm.leftIdx = v.fsm.leftIdx := congrArg HeapFsm.Core.leftIdx hc
  rcases hs.read_wait (by simp [HeapFsm.memDoRead, hst]) hw hwait (by unfold maxNodes; omega)
    (fun j hj => hp.mapped j (by omega)) with ⟨hd, hdata⟩ | ⟨hd, hr⟩ | ⟨hd, hr, hwait'⟩
  · have hst' : v'.fsm.state = .popSiftRdRightIssue := by
      rw [hs.fsm]; simp [HeapFsm.step, HeapFsm.nState, hst, hd]
    have hln : v'.fsm.leftNode = v.fsm.readData i := by
      rw [hs.fsm]; simp [HeapFsm.step, HeapFsm.regs, hst, hd]
    simp only [Phase, hst', hsz, hl', hn, hln, hdata]
    exact ⟨hp', hq', hlt, trivial⟩
  · have hst' : v'.fsm.state = .popSiftRdLeftIssue := by
      rw [hs.fsm]; simp [HeapFsm.step, HeapFsm.nState, hst, hd, hr]
    simp only [Phase, hst']
    exact ⟨hp', hq'⟩
  · have hst' : v'.fsm.state = .popSiftRdLeftWait := by
      rw [hs.fsm]; simp [HeapFsm.step, HeapFsm.nState, hst, hd, hr]
    simp only [Phase, hst', hsz, hl']
    exact ⟨hp', hwait', hlt⟩

theorem phase_popSiftRdRightIssue (h : v.Phase cfg m) (hs : v.Step cfg i v')
    (hst : v.fsm.state = .popSiftRdRightIssue) : v'.Phase cfg m := by
  simp only [Phase, hst] at h
  obtain ⟨hp, hq, hlt, hleft⟩ := h
  have hr := hp.right
  have hcap := hp.cap
  have hw : v.fsm.memDoWrite = false := by simp [HeapFsm.memDoWrite, hst]
  have hidx : v.fsm.memIdx = v.fsm.rightIdx := by simp [HeapFsm.memIdx, hst]
  obtain ⟨hn, hq'⟩ := hs.node_eq hw hq
  have hc : v'.fsm.core = v.fsm.core := by
    rw [hs.fsm]; simp only [HeapFsm.step, HeapFsm.core, HeapFsm.regs, hst]
    split
    · rfl
    · split <;> rfl
  have hp' := hp.frame hs hc fun j _ => by rw [hn]
  have hsz : v'.fsm.size = v.fsm.size := congrArg HeapFsm.Core.size hc
  have hl' : v'.fsm.leftIdx = v.fsm.leftIdx := congrArg HeapFsm.Core.leftIdx hc
  have hr' : v'.fsm.rightIdx = v.fsm.rightIdx := congrArg HeapFsm.Core.rightIdx hc
  have hln : v'.fsm.leftNode = v.fsm.leftNode := by
    rw [hs.fsm]; simp only [HeapFsm.step, HeapFsm.regs, hst]
    split
    · rfl
    · split <;> rfl
  by_cases hend : v.fsm.size ≤ v.fsm.rightIdx
  · have hst' : v'.fsm.state = .popSiftDecide := by
      rw [hs.fsm]; simp [HeapFsm.step, HeapFsm.nState, hst, hend]
    have hhas : v'.fsm.hasRight = false := by
      rw [hs.fsm]; simp [HeapFsm.step, HeapFsm.regs, hst, hend]
    simp only [Phase, hst']
    refine ⟨hp', hq', ⟨?_, ?_, ?_, ?_⟩⟩ <;> simp only [hsz, hl', hr', hn, hln, hhas]
    exacts [hlt, hleft, by simp [Nat.not_lt.2 hend], fun h => absurd h (Nat.not_lt.2 hend)]
  have hrlt : v.fsm.rightIdx < v.fsm.size := Nat.not_le.1 hend
  by_cases hhit : v.fsm.memIdxCached = true
  · have hst' : v'.fsm.state = .popSiftDecide := by
      rw [hs.fsm]; simp [HeapFsm.step, HeapFsm.nState, hst, hend, hhit]
    have hrn : v'.fsm.rightNode = v.fsm.memIdxCacheData ∧ v'.fsm.hasRight = true := by
      rw [hs.fsm]; simp [HeapFsm.step, HeapFsm.regs, hst, hend, hhit]
    simp only [Phase, hst']
    refine ⟨hp', hq', ⟨?_, ?_, ?_, ?_⟩⟩ <;> simp only [hsz, hl', hr', hn, hln, hrn]
    exacts [hlt, hleft, by simp [hrlt], fun _ => by rw [hp.cache.hit (by omega) hhit, hidx]]
  · have hmiss := Bool.eq_false_iff.2 hhit
    have hst' : v'.fsm.state =
        if v.fsm.rightIdx < privateNodes ∨ i.virtReqReady = true then .popSiftRdRightWait
        else .popSiftRdRightIssue := by
      rw [hs.fsm]; simp [HeapFsm.step, HeapFsm.nState, hst, hend, hmiss, issueTo_eq, hidx]
    by_cases hgo : v.fsm.rightIdx < privateNodes ∨ i.virtReqReady = true
    · rw [if_pos hgo] at hst'
      simp only [Phase, hst', hsz, hl', hr', hn, hln]
      exact ⟨hp', hs.read_issue (by simp [HeapFsm.memDoRead, hst]) hw hmiss hidx
        (by unfold maxNodes; omega) hq hgo, hlt, hleft, hrlt⟩
    · rw [if_neg hgo] at hst'
      simp only [Phase, hst', hsz, hl', hn, hln]
      exact ⟨hp', hq', hlt, hleft⟩

theorem phase_popSiftRdRightWait (h : v.Phase cfg m) (hs : v.Step cfg i v')
    (hst : v.fsm.state = .popSiftRdRightWait) : v'.Phase cfg m := by
  simp only [Phase, hst] at h
  obtain ⟨hp, hwait, hlt, hleft, hrlt⟩ := h
  have hcap := hp.cap
  have hw : v.fsm.memDoWrite = false := by simp [HeapFsm.memDoWrite, hst]
  obtain ⟨hn, hq'⟩ := hs.node_eq hw hwait.1
  have hc : v'.fsm.core = v.fsm.core := by
    rw [hs.fsm]; simp only [HeapFsm.step, HeapFsm.core, HeapFsm.regs, hst]; split <;> rfl
  have hp' := hp.frame hs hc fun j _ => by rw [hn]
  have hsz : v'.fsm.size = v.fsm.size := congrArg HeapFsm.Core.size hc
  have hl' : v'.fsm.leftIdx = v.fsm.leftIdx := congrArg HeapFsm.Core.leftIdx hc
  have hr' : v'.fsm.rightIdx = v.fsm.rightIdx := congrArg HeapFsm.Core.rightIdx hc
  have hln : v'.fsm.leftNode = v.fsm.leftNode := by
    rw [hs.fsm]; simp only [HeapFsm.step, HeapFsm.regs, hst]; split <;> rfl
  rcases hs.read_wait (by simp [HeapFsm.memDoRead, hst]) hw hwait (by unfold maxNodes; omega)
    (fun j hj => hp.mapped j (by omega)) with ⟨hd, hdata⟩ | ⟨hd, hr⟩ | ⟨hd, hr, hwait'⟩
  · have hst' : v'.fsm.state = .popSiftDecide := by
      rw [hs.fsm]; simp [HeapFsm.step, HeapFsm.nState, hst, hd]
    have hrn : v'.fsm.rightNode = v.fsm.readData i ∧ v'.fsm.hasRight = true := by
      rw [hs.fsm]; simp [HeapFsm.step, HeapFsm.regs, hst, hd]
    simp only [Phase, hst']
    refine ⟨hp', hq', ⟨?_, ?_, ?_, ?_⟩⟩ <;> simp only [hsz, hl', hr', hn, hln, hrn, hdata]
    exacts [hlt, hleft, by simp [hrlt], fun _ => trivial]
  · have hst' : v'.fsm.state = .popSiftRdRightIssue := by
      rw [hs.fsm]; simp [HeapFsm.step, HeapFsm.nState, hst, hd, hr]
    simp only [Phase, hst', hsz, hl', hn, hln]
    exact ⟨hp', hq', hlt, hleft⟩
  · have hst' : v'.fsm.state = .popSiftRdRightWait := by
      rw [hs.fsm]; simp [HeapFsm.step, HeapFsm.nState, hst, hd, hr]
    simp only [Phase, hst', hsz, hl', hr', hn, hln]
    exact ⟨hp', hwait', hlt, hleft, hrlt⟩

/-- What `best` says about the node in the hole and its children. -/
theorem Kids.best_spec (cfg : HeapCfg) (hk : v.Kids) (hsift : v.fsm.inPopSift = true) :
    match v.fsm.best cfg with
    | .cur => cfg.kind.key v.fsm.curNode ≤ cfg.kind.key (v.node v.fsm.leftIdx) ∧
        (v.fsm.rightIdx < v.fsm.size →
          cfg.kind.key v.fsm.curNode ≤ cfg.kind.key (v.node v.fsm.rightIdx))
    | .left => cfg.kind.key (v.node v.fsm.leftIdx) < cfg.kind.key v.fsm.curNode ∧
        (v.fsm.rightIdx < v.fsm.size →
          cfg.kind.key (v.node v.fsm.leftIdx) ≤ cfg.kind.key (v.node v.fsm.rightIdx))
    | .right => v.fsm.rightIdx < v.fsm.size ∧
        cfg.kind.key (v.node v.fsm.rightIdx) < cfg.kind.key v.fsm.curNode ∧
        cfg.kind.key (v.node v.fsm.rightIdx) ≤ cfg.kind.key (v.node v.fsm.leftIdx) := by
  have h0 : v.fsm.cmp0Result cfg = aWins cfg.kind (v.node v.fsm.leftIdx) v.fsm.curNode := by
    simp [HeapFsm.cmp0Result, hsift, hk.left]
  have h1 : v.fsm.rightIdx < v.fsm.size → v.fsm.cmp1Result cfg = aWins cfg.kind (v.node v.fsm.rightIdx)
      (if aWins cfg.kind (v.node v.fsm.leftIdx) v.fsm.curNode then v.node v.fsm.leftIdx
        else v.fsm.curNode) := fun hr => by
    simp only [HeapFsm.cmp1Result, h0, hk.left, hk.right hr]
  unfold HeapFsm.best
  simp only [hk.has, hk.left_lt, decide_true, Bool.true_and, h0]
  by_cases hr : v.fsm.rightIdx < v.fsm.size
  · simp only [hr, decide_true, Bool.true_and, h1 hr, true_implies, true_and]
    by_cases hl : aWins cfg.kind (v.node v.fsm.leftIdx) v.fsm.curNode = true
    · have hl' := (aWins_iff _ _ _).1 hl
      simp only [hl, if_true]
      by_cases hrl : aWins cfg.kind (v.node v.fsm.rightIdx) (v.node v.fsm.leftIdx) = true
      · have := (aWins_iff _ _ _).1 hrl
        simp only [hrl, if_true]; omega
      · have := (aWins_eq_false_iff _ _ _).1 (Bool.eq_false_iff.2 hrl)
        simp only [hrl, Bool.false_eq_true, if_false]; omega
    · have hl' := (aWins_eq_false_iff _ _ _).1 (Bool.eq_false_iff.2 hl)
      simp only [hl, Bool.false_eq_true, if_false]
      by_cases hrc : aWins cfg.kind (v.node v.fsm.rightIdx) v.fsm.curNode = true
      · have := (aWins_iff _ _ _).1 hrc
        simp only [hrc, if_true]; omega
      · have := (aWins_eq_false_iff _ _ _).1 (Bool.eq_false_iff.2 hrc)
        simp only [hrc, Bool.false_eq_true, if_false]; omega
  · simp only [hr, decide_false, Bool.false_and, Bool.false_eq_true, if_false, false_implies, and_true]
    by_cases hl : aWins cfg.kind (v.node v.fsm.leftIdx) v.fsm.curNode = true
    · simp only [hl, if_true]; exact (aWins_iff _ _ _).1 hl
    · simp only [hl, Bool.false_eq_true, if_false]
      exact (aWins_eq_false_iff _ _ _).1 (Bool.eq_false_iff.2 hl)

/-- `best` only looks at registers that stay put while the hole is being filled. -/
theorem best_congr (cfg : HeapCfg) {h h' : HeapFsm} (hsift : h'.inPopSift = h.inPopSift) (hc : h'.core = h.core)
    (hl : h'.leftNode = h.leftNode) (hr : h'.rightNode = h.rightNode) (hp : h'.parentNode = h.parentNode)
    (hh : h'.hasRight = h.hasRight) : h'.best cfg = h.best cfg ∧ h'.bestNode cfg = h.bestNode cfg := by
  have hsz : h'.size = h.size := congrArg HeapFsm.Core.size hc
  have hli : h'.leftIdx = h.leftIdx := congrArg HeapFsm.Core.leftIdx hc
  have hri : h'.rightIdx = h.rightIdx := congrArg HeapFsm.Core.rightIdx hc
  have hcur : h'.curNode = h.curNode := congrArg HeapFsm.Core.curNode hc
  have hb : h'.best cfg = h.best cfg := by
    unfold HeapFsm.best HeapFsm.cmp1Result HeapFsm.cmp0Result
    rw [hsift, hl, hr, hp, hh, hsz, hli, hri, hcur]
  exact ⟨hb, by simp only [HeapFsm.bestNode, hb, hl, hr]⟩

theorem Kids.frame (hk : v.Kids) (hc : v'.fsm.core = v.fsm.core) (hl : v'.fsm.leftNode = v.fsm.leftNode)
    (hr : v'.fsm.rightNode = v.fsm.rightNode) (hh : v'.fsm.hasRight = v.fsm.hasRight)
    (hnl : v'.node v.fsm.leftIdx = v.node v.fsm.leftIdx)
    (hnr : v'.node v.fsm.rightIdx = v.node v.fsm.rightIdx) : v'.Kids := by
  have hsz : v'.fsm.size = v.fsm.size := congrArg HeapFsm.Core.size hc
  have hli : v'.fsm.leftIdx = v.fsm.leftIdx := congrArg HeapFsm.Core.leftIdx hc
  have hri : v'.fsm.rightIdx = v.fsm.rightIdx := congrArg HeapFsm.Core.rightIdx hc
  refine ⟨?_, ?_, ?_, ?_⟩ <;> simp only [hsz, hli, hri, hl, hr, hh, hnl, hnr]
  exacts [hk.left_lt, hk.left, hk.has, hk.right]

/-- The states around `S_POP_SIFT_WR_UP` that leave all working registers alone. -/
theorem step_regs_eq (hs : v.Step cfg i v') (hregs : v.fsm.regs cfg i = v.fsm) :
    v'.fsm.core = v.fsm.core ∧ v'.fsm.leftNode = v.fsm.leftNode ∧
      v'.fsm.rightNode = v.fsm.rightNode ∧ v'.fsm.parentNode = v.fsm.parentNode ∧
      v'.fsm.hasRight = v.fsm.hasRight := by
  rw [hs.fsm]; simp [HeapFsm.step, HeapFsm.core, hregs]

theorem phase_popSiftDecide (h : v.Phase cfg m) (hs : v.Step cfg i v')
    (hst : v.fsm.state = .popSiftDecide) : v'.Phase cfg m := by
  simp only [Phase, hst] at h
  obtain ⟨hp, hq, hk⟩ := h
  obtain ⟨hn, hq'⟩ := hs.node_eq (by simp [HeapFsm.memDoWrite, hst]) hq
  obtain ⟨hc, hl, hr, hpn, hh⟩ := step_regs_eq hs (by simp [HeapFsm.regs, hst])
  have hp' := hp.frame hs hc fun j _ => by rw [hn]
  have hk' := hk.frame hc hl hr hh (by rw [hn]) (by rw [hn])
  have hspec := hk.best_spec cfg (by simp [HeapFsm.inPopSift, hst])
  by_cases hb : v.fsm.best cfg = .cur
  · have hst' : v'.fsm.state = .popSiftWrFinalIssue := by
      rw [hs.fsm]; simp [HeapFsm.step, HeapFsm.nState, hst, hb]
    have hsz : v'.fsm.size = v.fsm.size := congrArg HeapFsm.Core.size hc
    have ht' : v'.fsm.targetIdx = v.fsm.targetIdx := congrArg HeapFsm.Core.targetIdx hc
    have hcur : v'.fsm.curNode = v.fsm.curNode := congrArg HeapFsm.Core.curNode hc
    simp only [hb] at hspec
    simp only [Phase, hst']
    refine ⟨hp', hq', fun c hc0 hcn hpc => ?_⟩
    rw [hsz] at hcn; rw [ht'] at hpc; rw [hcur, hn]
    rcases (hp.child_iff hc0).1 hpc with rfl | rfl
    exacts [hspec.1, hspec.2 hcn]
  · have hst' : v'.fsm.state = .popSiftWrUpIssue := by
      rw [hs.fsm]; simp [HeapFsm.step, HeapFsm.nState, hst, hb]
    have hb' := best_congr cfg (by simp [HeapFsm.inPopSift, hst, hst']) hc hl hr hpn hh
    simp only [Phase, hst', hb'.1]
    exact ⟨hp', hq', hk', hb⟩

theorem phase_popSiftWrUpIssue (h : v.Phase cfg m) (hs : v.Step cfg i v')
    (hst : v.fsm.state = .popSiftWrUpIssue) : v'.Phase cfg m := by
  simp only [Phase, hst] at h
  obtain ⟨hp, hq, hk, hb⟩ := h
  have hl0 := hp.left
  have hr0 := hp.right
  have hidx : v.fsm.memIdx = v.fsm.targetIdx := by simp [HeapFsm.memIdx, hst]
  obtain ⟨hc, hl, hr, hpn, hh⟩ := step_regs_eq hs (by simp [HeapFsm.regs, hst])
  have ht' : v'.fsm.targetIdx = v.fsm.targetIdx := congrArg HeapFsm.Core.targetIdx hc
  obtain ⟨hoff, hwait⟩ := hs.write_issue (x := v.fsm.bestNode cfg)
    (by simp [HeapFsm.memDoWrite, hst]) hidx (by simp [HeapFsm.memWdata, hst]) hp.target_max hq
  have hp' := hp.frame hs hc hoff
  have hk' := hk.frame hc hl hr hh (hoff _ (by omega)) (hoff _ (by omega))
  have hst' : v'.fsm.state =
      if v.fsm.targetIdx < privateNodes ∨ i.virtReqReady = true then .popSiftWrUpWait
      else .popSiftWrUpIssue := by
    rw [hs.fsm]; simp [HeapFsm.step, HeapFsm.nState, hst, issueTo_eq, hidx]
  have hb' := best_congr cfg (h := v.fsm)
    (by simp only [HeapFsm.inPopSift, hst, hst']; split <;> simp_all) hc hl hr hpn hh
  by_cases hgo : v.fsm.targetIdx < privateNodes ∨ i.virtReqReady = true
  · rw [if_pos hgo] at hst' hwait
    simp only [Phase, hst', ht', hb'.1, hb'.2]
    exact ⟨hp', hwait, hk', hb⟩
  · rw [if_neg hgo] at hst' hwait
    simp only [Phase, hst', hb'.1]
    exact ⟨hp', hwait.2, hk', hb⟩

/-- The better child has been written into the hole: the hole moves down to the child `c`. -/
theorem Sift.descend {c : Nat} (h : v.Sift cfg m) (hs : v.Step cfg i v') (hc0 : 0 < c)
    (hcn : c < v.fsm.size) (hpc : parent c = v.fsm.targetIdx)
    (hkey : cfg.kind.key (v.node c) < cfg.kind.key v.fsm.curNode)
    (hbest : ∀ d, 0 < d → d < v.fsm.size → parent d = v.fsm.targetIdx →
      cfg.kind.key (v.node c) ≤ cfg.kind.key (v.node d))
    (hn : v'.node = update v.node v.fsm.targetIdx (v.node c))
    (hf : v'.fsm.core = ((v.fsm.cacheTarget (v.node c)).descendTo c).core) : v'.Sift cfg m := by
  have hcap := h.cap
  have htc : v.fsm.targetIdx < c := hpc ▸ parent_lt hc0
  have hfill : ∀ d, 0 < d → parent d = v.fsm.targetIdx →
      update v.node v.fsm.targetIdx v.fsm.curNode d = v.node d := fun d hd hpd =>
    update_of_ne (Nat.ne_of_gt (hpd ▸ parent_lt hd)) _ _
  have hsz : v'.fsm.size = v.fsm.size := by
    refine (congrArg HeapFsm.Core.size hf).trans ?_
    simp only [HeapFsm.core, HeapFsm.descendTo, HeapFsm.cacheTarget]; split <;> rfl
  have hcur : v'.fsm.curNode = v.fsm.curNode := by
    refine (congrArg HeapFsm.Core.curNode hf).trans ?_
    simp only [HeapFsm.core, HeapFsm.descendTo, HeapFsm.cacheTarget]; split <;> rfl
  have ht : v'.fsm.targetIdx = c := congrArg HeapFsm.Core.targetIdx hf
  have hl : v'.fsm.leftIdx = (2 * c + 1) % 2 ^ 11 := by
    simpa only [HeapFsm.core, HeapFsm.descendTo] using congrArg HeapFsm.Core.leftIdx hf
  have hr : v'.fsm.rightIdx = (2 * c + 2) % 2 ^ 11 := by
    simpa only [HeapFsm.core, HeapFsm.descendTo] using congrArg HeapFsm.Core.rightIdx hf
  have hnc : v'.fsm.nodeCache = (v.fsm.cacheTarget (v.node c)).nodeCache := by
    simpa only [HeapFsm.core, HeapFsm.descendTo] using congrArg HeapFsm.Core.nodeCache hf
  have hnv : v'.fsm.nodeCacheValid = (v.fsm.cacheTarget (v.node c)).nodeCacheValid := by
    simpa only [HeapFsm.core, HeapFsm.descendTo] using congrArg HeapFsm.Core.nodeCacheValid hf
  have hswap : update v'.node c v.fsm.curNode =
      update v.node v.fsm.targetIdx v.fsm.curNode ∘ Equiv.swap v.fsm.targetIdx c := by
    rw [hn]; exact update_update_eq_swap (Nat.ne_of_lt htc)
  refine ⟨?_, ?_, ?_, ?_, ?_, ?_, ?_, ?_, ?_⟩ <;> simp only [hsz, ht, hcur, hswap]
  · exact hcap
  · exact hcn
  · rw [hl]; omega
  · rw [hr]; omega
  · refine h.down.swap hc0 hcn hpc ?_ fun d hd hdn hpd => ?_
    · rw [hfill c hc0 hpc, update_self]; exact le_of_lt hkey
    · rw [hfill c hc0 hpc, hfill d hd hpd]; exact hbest d hd hdn hpd
  · rw [contents_swap h.lt hcn]; exact h.cont
  · exact hs.mapped h.mapped
  · exact fun s h3 _ hval => h.cache.store h.lt hn hnc hnv s h3 hval
  · rw [hnv]; exact fun _ => cacheTarget_valid_zero _ h.root

/-- The child `best` prefers to the node in the hole. -/
theorem Sift.best_child (h : v.Sift cfg m) (hk : v.Kids) (hsift : v.fsm.inPopSift = true)
    (hb : v.fsm.best cfg ≠ .cur) {c : Nat}
    (hc : c = if v.fsm.best cfg = .left then v.fsm.leftIdx else v.fsm.rightIdx) :
    0 < c ∧ c < v.fsm.size ∧ parent c = v.fsm.targetIdx ∧ v.fsm.bestNode cfg = v.node c ∧
      cfg.kind.key (v.node c) < cfg.kind.key v.fsm.curNode ∧
      ∀ d, 0 < d → d < v.fsm.size → parent d = v.fsm.targetIdx →
        cfg.kind.key (v.node c) ≤ cfg.kind.key (v.node d) := by
  have hl := h.left
  have hr := h.right
  have hspec := hk.best_spec cfg hsift
  cases hbest : v.fsm.best cfg with
  | cur => exact absurd hbest hb
  | left =>
    simp only [hbest, if_true] at hc hspec
    subst hc
    refine ⟨by omega, hk.left_lt, by rw [h.child_iff (by omega)]; exact .inl rfl, ?_, hspec.1, ?_⟩
    · simp only [HeapFsm.bestNode, hbest, if_true, hk.left]
    · intro d hd hdn hpd
      rcases (h.child_iff hd).1 hpd with rfl | rfl
      exacts [Nat.le_refl _, hspec.2 hdn]
  | right =>
    simp only [hbest, reduceCtorEq, if_false] at hc hspec
    subst hc
    refine ⟨by omega, hspec.1, by rw [h.child_iff (by omega)]; exact .inr rfl, ?_, hspec.2.1, ?_⟩
    · simp only [HeapFsm.bestNode, hbest, reduceCtorEq, if_false, hk.right hspec.1]
    · intro d hd hdn hpd
      rcases (h.child_iff hd).1 hpd with rfl | rfl
      exacts [hspec.2.2, Nat.le_refl _]

theorem phase_popSiftWrUpWait (h : v.Phase cfg m) (hs : v.Step cfg i v')
    (hst : v.fsm.state = .popSiftWrUpWait) : v'.Phase cfg m := by
  simp only [Phase, hst] at h
  obtain ⟨hp, hwait, hk, hb⟩ := h
  have hsift : v.fsm.inPopSift = true := by simp [HeapFsm.inPopSift, hst]
  rcases hs.write_wait (by simp [HeapFsm.memDoWrite, hst]) hwait hp.target_max with
    ⟨hd, hn, hq', hmap⟩ | ⟨hd, hr, hn, hq'⟩ | ⟨hd, hr, hn, hwait'⟩
  · have hst' : v'.fsm.state = .popSiftRdLeftIssue := by
      rw [hs.fsm]; simp [HeapFsm.step, HeapFsm.nState, hst, hd]
    simp only [Phase, hst']
    obtain ⟨hc0, hcn, hpc, hnode, hkey, hbest⟩ := hp.best_child hk hsift hb rfl
    refine ⟨hp.descend hs hc0 hcn hpc hkey hbest (hnode ▸ hn) ?_, hq'⟩
    rw [← hnode, hs.fsm]
    simp only [HeapFsm.step, HeapFsm.core, HeapFsm.regs, hst, hd, if_true]
  all_goals
    obtain ⟨hc, hl, hrn, hpn, hh⟩ := step_regs_eq hs (by simp [HeapFsm.regs, hst, hd])
    have ht' : v'.fsm.targetIdx = v.fsm.targetIdx := congrArg HeapFsm.Core.targetIdx hc
    have hp' := hp.frame hs hc fun j _ => by rw [hn]
    have hk' := hk.frame hc hl hrn hh (by rw [hn]) (by rw [hn])
  · have hst' : v'.fsm.state = .popSiftWrUpIssue := by
      rw [hs.fsm]; simp [HeapFsm.step, HeapFsm.nState, hst, hd, hr]
    have hb' := best_congr cfg (by simp [HeapFsm.inPopSift, hst, hst']) hc hl hrn hpn hh
    simp only [Phase, hst', hb'.1]
    exact ⟨hp', hq', hk', hb⟩
  · have hst' : v'.fsm.state = .popSiftWrUpWait := by
      rw [hs.fsm]; simp [HeapFsm.step, HeapFsm.nState, hst, hd, hr]
    have hb' := best_congr cfg (by simp [HeapFsm.inPopSift, hst, hst']) hc hl hrn hpn hh
    simp only [Phase, hst', ht', hb'.1, hb'.2]
    exact ⟨hp', hwait', hk', hb⟩

theorem Stop.frame (h : v.Stop cfg) (hc : v'.fsm.core = v.fsm.core)
    (hn : ∀ j, j ≠ v.fsm.targetIdx → v'.node j = v.node j) : v'.Stop cfg := by
  have hsz : v'.fsm.size = v.fsm.size := congrArg HeapFsm.Core.size hc
  have ht : v'.fsm.targetIdx = v.fsm.targetIdx := congrArg HeapFsm.Core.targetIdx hc
  have hcur : v'.fsm.curNode = v.fsm.curNode := congrArg HeapFsm.Core.curNode hc
  intro c hc0 hcn hpc
  rw [hsz] at hcn
  rw [ht] at hpc
  rw [hcur, hn c (Nat.ne_of_gt (hpc ▸ parent_lt hc0))]
  exact h c hc0 hcn hpc

theorem phase_popSiftWrFinalIssue (h : v.Phase cfg m) (hs : v.Step cfg i v')
    (hst : v.fsm.state = .popSiftWrFinalIssue) : v'.Phase cfg m := by
  simp only [Phase, hst] at h
  obtain ⟨hp, hq, hstop⟩ := h
  have hidx : v.fsm.memIdx = v.fsm.targetIdx := by simp [HeapFsm.memIdx, hst]
  obtain ⟨hc, -⟩ := step_regs_eq hs (by simp [HeapFsm.regs, hst])
  have ht' : v'.fsm.targetIdx = v.fsm.targetIdx := congrArg HeapFsm.Core.targetIdx hc
  have hcur' : v'.fsm.curNode = v.fsm.curNode := congrArg HeapFsm.Core.curNode hc
  obtain ⟨hoff, hwait⟩ := hs.write_issue (x := v.fsm.curNode) (by simp [HeapFsm.memDoWrite, hst])
    hidx (by simp [HeapFsm.memWdata, hst]) hp.target_max hq
  have hp' := hp.frame hs hc hoff
  have hstop' := hstop.frame hc hoff
  have hst' : v'.fsm.state =
      if v.fsm.targetIdx < privateNodes ∨ i.virtReqReady = true then .popSiftWrFinalWait
      else .popSiftWrFinalIssue := by
    rw [hs.fsm]; simp [HeapFsm.step, HeapFsm.nState, hst, issueTo_eq, hidx]
  by_cases hgo : v.fsm.targetIdx < privateNodes ∨ i.virtReqReady = true
  · rw [if_pos hgo] at hst' hwait
    simp only [Phase, hst', ht', hcur']
    exact ⟨hp', hwait, hstop'⟩
  · rw [if_neg hgo] at hst' hwait
    simp only [Phase, hst']
    exact ⟨hp', hwait.2, hstop'⟩

/-- `cur_node` has been written into the hole: the heap is in order again. -/
theorem Sift.finish (h : v.Sift cfg m) (hs : v.Step cfg i v') (hq : v'.Quiet) (hstop : v.Stop cfg)
    (hn : v'.node = update v.node v.fsm.targetIdx v.fsm.curNode)
    (hf : v'.fsm.core = (v.fsm.cacheTarget v.fsm.curNode).core) : v'.Rest cfg m := by
  have hcap := h.cap
  have hsz : v'.fsm.size = v.fsm.size := by
    refine (congrArg HeapFsm.Core.size hf).trans ?_
    simp only [HeapFsm.core, HeapFsm.cacheTarget]; split <;> rfl
  have hnc : v'.fsm.nodeCache = (v.fsm.cacheTarget v.fsm.curNode).nodeCache :=
    congrArg HeapFsm.Core.nodeCache hf
  have hnv : v'.fsm.nodeCacheValid = (v.fsm.cacheTarget v.fsm.curNode).nodeCacheValid :=
    congrArg HeapFsm.Core.nodeCacheValid hf
  have hslot := h.cache.store h.lt hn hnc hnv
  have hroot : v'.fsm.nodeCacheValid 0 = true := by
    rw [hnv]; exact cacheTarget_valid_zero _ h.root
  refine ⟨?_, ?_, ?_, ?_, ?_, ?_, hq⟩
  · omega
  · rw [hsz, hn]
    refine h.down.ordered fun c hc0 hcn hpc => ?_
    rw [update_self, update_of_ne (Nat.ne_of_gt (hpc ▸ parent_lt hc0))]
    exact hstop c hc0 hcn hpc
  · rw [hsz, hn]; exact h.cont
  · rw [hsz]; exact hs.mapped h.mapped
  · intro s h3 _ hval
    rw [hsz]; exact hslot s h3 hval
  · exact fun _ => ⟨hroot, (hslot 0 (by omega) hroot).2⟩

theorem phase_popSiftWrFinalWait (h : v.Phase cfg m) (hs : v.Step cfg i v')
    (hst : v.fsm.state = .popSiftWrFinalWait) : v'.Phase cfg m := by
  simp only [Phase, hst] at h
  obtain ⟨hp, hwait, hstop⟩ := h
  rcases hs.write_wait (by simp [HeapFsm.memDoWrite, hst]) hwait hp.target_max with
    ⟨hd, hn, hq', hmap⟩ | ⟨hd, hr, hn, hq'⟩ | ⟨hd, hr, hn, hwait'⟩
  · have hst' : v'.fsm.state = .done := by
      rw [hs.fsm]; simp [HeapFsm.step, HeapFsm.nState, hst, hd]
    simp only [Phase, hst']
    refine hp.finish hs hq' hstop hn ?_
    rw [hs.fsm]
    simp only [HeapFsm.step, HeapFsm.core, HeapFsm.regs, hst, hd, if_true]
  all_goals
    obtain ⟨hc, -⟩ := step_regs_eq hs (by simp [HeapFsm.regs, hst, hd])
    have ht' : v'.fsm.targetIdx = v.fsm.targetIdx := congrArg HeapFsm.Core.targetIdx hc
    have hcur' : v'.fsm.curNode = v.fsm.curNode := congrArg HeapFsm.Core.curNode hc
    have hp' := hp.frame hs hc fun j _ => by rw [hn]
    have hstop' := hstop.frame hc fun j _ => by rw [hn]
  · have hst' : v'.fsm.state = .popSiftWrFinalIssue := by
      rw [hs.fsm]; simp [HeapFsm.step, HeapFsm.nState, hst, hd, hr]
    simp only [Phase, hst']
    exact ⟨hp', hq', hstop'⟩
  · have hst' : v'.fsm.state = .popSiftWrFinalWait := by
      rw [hs.fsm]; simp [HeapFsm.step, HeapFsm.nState, hst, hd, hr]
    simp only [Phase, hst', ht', hcur']
    exact ⟨hp', hwait', hstop'⟩

end HeapView

end HftSim
