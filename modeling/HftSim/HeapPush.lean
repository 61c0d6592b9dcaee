import HftSim.HeapInv

/-!
# The `PUSH` states keep the heap invariant

The new node travels from the new leaf towards the root: each round reads the parent of the hole
and, while the new node beats it, writes the parent down into the hole.
-/

namespace HftSim

open Function BinHeap

namespace HeapView

variable {cfg : HeapCfg} {i : HeapIn} {v v' : HeapView} {m : Multiset Node}

theorem Push.parent_lt (h : v.Push cfg m) (h0 : 0 < v.fsm.targetIdx) :
    v.fsm.parentIdx < v.fsm.targetIdx := by rw [h.par]; exact BinHeap.parent_lt h0

theorem Push.target_max (h : v.Push cfg m) : v.fsm.targetIdx < maxNodes := by
  have := h.le; have := h.cap; unfold maxNodes; omega

theorem CacheOff.hit {t n : Nat} (h : v.CacheOff t n) (hne : v.fsm.memIdx ≠ t)
    (hc : v.fsm.memIdxCached = true) : v.fsm.memIdxCacheData = v.node v.fsm.memIdx := by
  unfold HeapFsm.memIdxCached at hc
  unfold HeapFsm.memIdxCacheData
  split at hc
  · rename_i h3
    rw [if_pos h3]; exact (h _ h3 hne hc).2
  · cases hc

/-- A write to the hole that the cache follows: every valid slot mirrors the stored nodes again. -/
theorem CacheOff.store {n : Nat} {x : Node} (h : v.CacheOff v.fsm.targetIdx n)
    (ht : v.fsm.targetIdx < n) (hn : v'.node = update v.node v.fsm.targetIdx x)
    (hnc : v'.fsm.nodeCache = (v.fsm.cacheTarget x).nodeCache)
    (hnv : v'.fsm.nodeCacheValid = (v.fsm.cacheTarget x).nodeCacheValid) :
    ∀ s, s < 3 → v'.fsm.nodeCacheValid s = true → s < n ∧ v'.fsm.nodeCache s = v'.node s := by
  intro s h3 hval
  rw [hnv] at hval
  rw [hnc, hn]
  unfold HeapFsm.cacheTarget at hval ⊢
  by_cases hst : s = v.fsm.targetIdx
  · subst hst; simp [h3, ht]
  · have hval' : v.fsm.nodeCacheValid s = true := by
      split at hval
      · simpa [hst] using hval
      · exact hval
    have := h s h3 hst hval'
    rw [update_of_ne hst]
    refine ⟨this.1, ?_⟩
    split
    · simp [hst, this.2]
    · exact this.2

/-- After a write to the hole that the cache follows, slot 0 is valid. -/
theorem cacheTarget_valid_zero {h : HeapFsm} (x : Node)
    (h0 : 0 < h.targetIdx → h.nodeCacheValid 0 = true) : (h.cacheTarget x).nodeCacheValid 0 = true := by
  unfold HeapFsm.cacheTarget
  rcases Nat.eq_zero_or_pos h.targetIdx with ht | ht
  · simp [ht]
  · have hne : (0 : Nat) ≠ h.targetIdx := Nat.ne_of_lt ht
    split
    · simp [hne, h0 ht]
    · exact h0 ht

/-- The first write of a `PUSH` goes to the new leaf, so once the hole has been written the leaf is
mapped. -/
theorem Push.mapped_succ (h : v.Push cfg m) (hs : v.Step cfg i v')
    (hw : privateNodes ≤ v.fsm.targetIdx →
      (v'.virt (v.fsm.targetIdx - privateNodes)).isSome = true) : v'.Mapped (v.fsm.size + 1) := by
  intro j hj
  have hle := h.le
  by_cases htl : v.fsm.targetIdx < v.fsm.size
  · exact hs.mapped (h.leaf htl) j hj
  · by_cases hjt : privateNodes + j = v.fsm.targetIdx
    · have := hw (by omega)
      rwa [show v.fsm.targetIdx - privateNodes = j by omega] at this
    · exact hs.mapped h.mapped j (by omega)

/-- The new leaf of a started `PUSH` is the hole. -/
theorem Rest.push {x : Node} (h : v.Rest cfg m) (hs : v.Step cfg i v') (hn : v'.node = v.node)
    (hsz : v'.fsm.size = v.fsm.size) (ht : v'.fsm.targetIdx = v.fsm.size)
    (hp : v'.fsm.parentIdx = if v.fsm.size = 0 then 0 else (v.fsm.size - 1) / 2)
    (hcur : v'.fsm.curNode = x) (hnc : v'.fsm.nodeCache = v.fsm.nodeCache)
    (hnv : v'.fsm.nodeCacheValid = v.fsm.nodeCacheValid) : v'.Push cfg (x ::ₘ m) := by
  have hlow : ∀ j, j < v.fsm.size → update v.node v.fsm.size x j = v.node j :=
    fun j hj => update_of_ne (Nat.ne_of_lt hj) _ _
  refine ⟨?_, ?_, ?_, ?_, ?_, ?_, ?_, ?_, ?_⟩ <;> simp only [hsz, ht, hn, hcur, hnv]
  · exact h.cap
  · exact Nat.le_refl _
  · rw [hp]; unfold parent; split <;> omega
  · exact (h.ord.congr hlow).upHole
  · rw [contents_succ, update_self, contents_congr hlow, h.cont]
  · exact hs.mapped h.mapped
  · exact fun hlt => absurd hlt (Nat.lt_irrefl _)
  · intro s h3 hne hval
    rw [hnv] at hval
    rw [hnc, hn]
    by_cases h0 : s = 0
    · subst h0
      have hpos : 0 < v.fsm.size := Nat.pos_of_ne_zero (Ne.symm hne)
      exact ⟨by omega, (h.root hpos).2⟩
    · have := h.cache s h3 h0 hval
      exact ⟨by omega, this.2⟩
  · exact fun h0 => (h.root h0).1

theorem phase_pushLaunch (h : v.Phase cfg m) (hs : v.Step cfg i v') (hst : v.fsm.state = .pushLaunch) :
    v'.Phase cfg m := by
  simp only [Phase, hst] at h
  obtain ⟨hp, hq, ht⟩ := h
  obtain ⟨hn, hq'⟩ := hs.node_eq (by simp [HeapFsm.memDoWrite, hst]) hq
  have hc : v'.fsm.core = v.fsm.core := by
    rw [hs.fsm]; simp [HeapFsm.step, HeapFsm.core, HeapFsm.regs, hst]
  have ht' : v'.fsm.targetIdx = v.fsm.targetIdx := congrArg HeapFsm.Core.targetIdx hc
  have hp' := hp.frame hs hc fun j _ => by rw [hn]
  by_cases h0 : v.fsm.size = 0
  · have hst' : v'.fsm.state = .pushWrFinalIssue := by
      rw [hs.fsm]; simp [HeapFsm.step, HeapFsm.nState, hst, h0]
    simp only [Phase, hst']
    exact ⟨hp', hq', fun hpos => by omega⟩
  · have hst' : v'.fsm.state = .pushRdParentIssue := by
      rw [hs.fsm]; simp [HeapFsm.step, HeapFsm.nState, hst, h0]
    simp only [Phase, hst']
    exact ⟨hp', hq', by omega⟩


/-- `issueTo` moves on exactly when the access is private or the port is ready. -/
theorem issueTo_eq (h : HeapFsm) (i : HeapIn) (next : HState) :
    h.issueTo i next =
      if h.memIdx < privateNodes ∨ i.virtReqReady = true then next else h.state := by
  unfold HeapFsm.issueTo HeapFsm.memTargetPriv isPrivate
  by_cases h1 : h.memIdx < privateNodes <;> by_cases h2 : i.virtReqReady = true <;> simp [h1, h2]

theorem phase_pushRdParentIssue (h : v.Phase cfg m) (hs : v.Step cfg i v')
    (hst : v.fsm.state = .pushRdParentIssue) : v'.Phase cfg m := by
  simp only [Phase, hst] at h
  obtain ⟨hp, hq, ht⟩ := h
  have hw : v.fsm.memDoWrite = false := by simp [HeapFsm.memDoWrite, hst]
  have hidx : v.fsm.memIdx = v.fsm.parentIdx := by simp [HeapFsm.memIdx, hst]
  have hlt := hp.parent_lt ht
  obtain ⟨hn, hq'⟩ := hs.node_eq hw hq
  have hc : v'.fsm.core = v.fsm.core := by
    rw [hs.fsm]; simp only [HeapFsm.step, HeapFsm.core, HeapFsm.regs, hst]; split <;> rfl
  have hp' := hp.frame hs hc fun j _ => by rw [hn]
  have ht' : v'.fsm.targetIdx = v.fsm.targetIdx := congrArg HeapFsm.Core.targetIdx hc
  have hpi' : v'.fsm.parentIdx = v.fsm.parentIdx := congrArg HeapFsm.Core.parentIdx hc
  by_cases hhit : v.fsm.memIdxCached = true
  · have hst' : v'.fsm.state = .pushDecide := by
      rw [hs.fsm]; simp [HeapFsm.step, HeapFsm.nState, hst, hhit]
    have hpn : v'.fsm.parentNode = v.fsm.memIdxCacheData := by
      rw [hs.fsm]; simp [HeapFsm.step, HeapFsm.regs, hst, hhit]
    simp only [Phase, hst']
    refine ⟨hp', hq', ht'.symm ▸ ht, ?_⟩
    rw [hpn, hp.cache.hit (by omega) hhit, hidx, hpi', hn]
  · have hmiss := Bool.eq_false_iff.2 hhit
    have hst' : v'.fsm.state =
        if v.fsm.parentIdx < privateNodes ∨ i.virtReqReady = true then .pushRdParentWait
        else .pushRdParentIssue := by
      rw [hs.fsm]; simp [HeapFsm.step, HeapFsm.nState, hst, hmiss, issueTo_eq, hidx]
    by_cases hgo : v.fsm.parentIdx < privateNodes ∨ i.virtReqReady = true
    · rw [if_pos hgo] at hst'
      simp only [Phase, hst']
      refine ⟨hp', ?_, ht'.symm ▸ ht⟩
      rw [hpi']
      exact hs.read_issue (by simp [HeapFsm.memDoRead, hst]) hw hmiss hidx
        (Nat.lt_trans hlt hp.target_max) hq hgo
    · rw [if_neg hgo] at hst'
      simp only [Phase, hst']
      exact ⟨hp', hq', ht'.symm ▸ ht⟩

theorem phase_pushRdParentWait (h : v.Phase cfg m) (hs : v.Step cfg i v')
    (hst : v.fsm.state = .pushRdParentWait) : v'.Phase cfg m := by
  simp only [Phase, hst] at h
  obtain ⟨hp, hwait, ht⟩ := h
  have hw : v.fsm.memDoWrite = false := by simp [HeapFsm.memDoWrite, hst]
  have hlt := hp.parent_lt ht
  have hle := hp.le
  obtain ⟨hn, hq'⟩ := hs.node_eq hw hwait.1
  have hc : v'.fsm.core = v.fsm.core := by
    rw [hs.fsm]; simp only [HeapFsm.step, HeapFsm.core, HeapFsm.regs, hst]; split <;> rfl
  have hp' := hp.frame hs hc fun j _ => by rw [hn]
  have ht' : v'.fsm.targetIdx = v.fsm.targetIdx := congrArg HeapFsm.Core.targetIdx hc
  have hpi' : v'.fsm.parentIdx = v.fsm.parentIdx := congrArg HeapFsm.Core.parentIdx hc
  rcases hs.read_wait (by simp [HeapFsm.memDoRead, hst]) hw hwait (Nat.lt_trans hlt hp.target_max)
    (fun j hj => hp.mapped j (by omega)) with ⟨hd, hdata⟩ | ⟨hd, hr⟩ | ⟨hd, hr, hwait'⟩
  · have hst' : v'.fsm.state = .pushDecide := by
      rw [hs.fsm]; simp [HeapFsm.step, HeapFsm.nState, hst, hd]
    have hpn : v'.fsm.parentNode = v.fsm.readData i := by
      rw [hs.fsm]; simp [HeapFsm.step, HeapFsm.regs, hst, hd]
    simp only [Phase, hst']
    refine ⟨hp', hq', ht'.symm ▸ ht, ?_⟩
    rw [hpn, hdata, hpi', hn]
  · have hst' : v'.fsm.state = .pushRdParentIssue := by
      rw [hs.fsm]; simp [HeapFsm.step, HeapFsm.nState, hst, hd, hr]
    simp only [Phase, hst']
    exact ⟨hp', hq', ht'.symm ▸ ht⟩
  · have hst' : v'.fsm.state = .pushRdParentWait := by
      rw [hs.fsm]; simp [HeapFsm.step, HeapFsm.nState, hst, hd, hr]
    simp only [Phase, hst']
    exact ⟨hp', hpi'.symm ▸ hwait', ht'.symm ▸ ht⟩

theorem phase_pushDecide (h : v.Phase cfg m) (hs : v.Step cfg i v') (hst : v.fsm.state = .pushDecide) :
    v'.Phase cfg m := by
  simp only [Phase, hst] at h
  obtain ⟨hp, hq, ht, hpn⟩ := h
  obtain ⟨hn, hq'⟩ := hs.node_eq (by simp [HeapFsm.memDoWrite, hst]) hq
  have hregs : v.fsm.regs cfg i = v.fsm := by simp [HeapFsm.regs, hst]
  have hc : v'.fsm.core = v.fsm.core := by rw [hs.fsm]; simp [HeapFsm.step, HeapFsm.core, hregs]
  have hp' := hp.frame hs hc fun j _ => by rw [hn]
  have ht' : v'.fsm.targetIdx = v.fsm.targetIdx := congrArg HeapFsm.Core.targetIdx hc
  have hpi' : v'.fsm.parentIdx = v.fsm.parentIdx := congrArg HeapFsm.Core.parentIdx hc
  have hcur' : v'.fsm.curNode = v.fsm.curNode := congrArg HeapFsm.Core.curNode hc
  have hpn' : v'.fsm.parentNode = v.fsm.parentNode := by rw [hs.fsm]; simp [HeapFsm.step, hregs]
  have hcmp : v.fsm.cmp0Result cfg = aWins cfg.kind v.fsm.curNode v.fsm.parentNode := by
    simp [HeapFsm.cmp0Result, HeapFsm.inPopSift, hst]
  by_cases hwin : aWins cfg.kind v.fsm.curNode v.fsm.parentNode = true
  · have hst' : v'.fsm.state = .pushWrDownIssue := by
      rw [hs.fsm]; simp [HeapFsm.step, HeapFsm.nState, hst, hcmp, hwin]
    simp only [Phase, hst', ht', hpi', hcur', hpn', hn]
    exact ⟨hp', hq', ht, hpn, (aWins_iff _ _ _).1 hwin⟩
  · have hlose := Bool.eq_false_iff.2 hwin
    have hst' : v'.fsm.state = .pushWrFinalIssue := by
      rw [hs.fsm]; simp [HeapFsm.step, HeapFsm.nState, hst, hcmp, hlose]
    simp only [Phase, hst', hpi', hcur', hn]
    exact ⟨hp', hq', fun _ => hpn ▸ (aWins_eq_false_iff _ _ _).1 hlose⟩

theorem phase_pushWrDownIssue (h : v.Phase cfg m) (hs : v.Step cfg i v')
    (hst : v.fsm.state = .pushWrDownIssue) : v'.Phase cfg m := by
  simp only [Phase, hst] at h
  obtain ⟨hp, hq, ht, hpn, hkey⟩ := h
  have hidx : v.fsm.memIdx = v.fsm.targetIdx := by simp [HeapFsm.memIdx, hst]
  have hlt := hp.parent_lt ht
  have hregs : v.fsm.regs cfg i = v.fsm := by simp [HeapFsm.regs, hst]
  have hc : v'.fsm.core = v.fsm.core := by rw [hs.fsm]; simp [HeapFsm.step, HeapFsm.core, hregs]
  have hpn' : v'.fsm.parentNode = v.fsm.parentNode := by rw [hs.fsm]; simp [HeapFsm.step, hregs]
  have ht' : v'.fsm.targetIdx = v.fsm.targetIdx := congrArg HeapFsm.Core.targetIdx hc
  have hpi' : v'.fsm.parentIdx = v.fsm.parentIdx := congrArg HeapFsm.Core.parentIdx hc
  have hcur' : v'.fsm.curNode = v.fsm.curNode := congrArg HeapFsm.Core.curNode hc
  obtain ⟨hoff, hwait⟩ := hs.write_issue (x := v.fsm.parentNode) (by simp [HeapFsm.memDoWrite, hst])
    hidx (by simp [HeapFsm.memWdata, hst]) hp.target_max hq
  have hp' := hp.frame hs hc hoff
  have hpar : v'.node v.fsm.parentIdx = v.node v.fsm.parentIdx := hoff _ (Nat.ne_of_lt hlt)
  have hst' : v'.fsm.state =
      if v.fsm.targetIdx < privateNodes ∨ i.virtReqReady = true then .pushWrDownWait
      else .pushWrDownIssue := by
    rw [hs.fsm]; simp [HeapFsm.step, HeapFsm.nState, hst, issueTo_eq, hidx]
  by_cases hgo : v.fsm.targetIdx < privateNodes ∨ i.virtReqReady = true
  · rw [if_pos hgo] at hst' hwait
    simp only [Phase, hst', ht', hpi', hcur', hpn', hpar]
    exact ⟨hp', hwait, ht, hpn, hkey⟩
  · rw [if_neg hgo] at hst' hwait
    simp only [Phase, hst', ht', hpi', hcur', hpn', hpar]
    exact ⟨hp', hwait.2, ht, hpn, hkey⟩

/-- The parent has been written into the hole: the hole moves up. -/
theorem Push.ascend (h : v.Push cfg m) (hs : v.Step cfg i v') (ht : 0 < v.fsm.targetIdx)
    (hkey : cfg.kind.key v.fsm.curNode < cfg.kind.key (v.node v.fsm.parentIdx))
    (hn : v'.node = update v.node v.fsm.targetIdx (v.node v.fsm.parentIdx))
    (hmap : v'.Mapped (v.fsm.size + 1)) (hsz : v'.fsm.size = v.fsm.size)
    (ht' : v'.fsm.targetIdx = v.fsm.parentIdx)
    (hp' : v'.fsm.parentIdx = if v.fsm.parentIdx = 0 then 0 else (v.fsm.parentIdx - 1) / 2)
    (hcur : v'.fsm.curNode = v.fsm.curNode)
    (hnc : v'.fsm.nodeCache = (v.fsm.cacheTarget (v.node v.fsm.parentIdx)).nodeCache)
    (hnv : v'.fsm.nodeCacheValid = (v.fsm.cacheTarget (v.node v.fsm.parentIdx)).nodeCacheValid) :
    v'.Push cfg m := by
  have hpt := h.parent_lt ht
  have hle := h.le
  have hkey' : cfg.kind.key (update v.node v.fsm.targetIdx v.fsm.curNode v.fsm.targetIdx) <
      cfg.kind.key (update v.node v.fsm.targetIdx v.fsm.curNode (parent v.fsm.targetIdx)) := by
    rw [update_self, ← h.par, update_of_ne (Nat.ne_of_lt hpt)]; exact hkey
  have hswap : update v'.node v.fsm.parentIdx v.fsm.curNode =
      update v.node v.fsm.targetIdx v.fsm.curNode ∘ Equiv.swap v.fsm.targetIdx (parent v.fsm.targetIdx) := by
    rw [hn, ← h.par]; exact update_update_eq_swap (Nat.ne_of_gt hpt)
  refine ⟨?_, ?_, ?_, ?_, ?_, ?_, ?_, ?_, ?_⟩ <;> simp only [hsz, ht', hcur, hswap]
  · exact h.cap
  · omega
  · rw [hp']; unfold parent; split <;> omega
  · rw [h.par]; exact h.up.swap ht (le_of_lt hkey')
  · rw [contents_swap (by omega) (by rw [← h.par]; omega)]; exact h.cont
  · exact hs.mapped h.mapped
  · exact fun _ => hmap
  · exact fun s h3 _ hval => h.cache.store (Nat.lt_succ_of_le hle) hn hnc hnv s h3 hval
  · rw [hnv]; exact fun _ => cacheTarget_valid_zero _ h.root

theorem phase_pushWrDownWait (h : v.Phase cfg m) (hs : v.Step cfg i v')
    (hst : v.fsm.state = .pushWrDownWait) : v'.Phase cfg m := by
  simp only [Phase, hst] at h
  obtain ⟨hp, hwait, ht, hpn, hkey⟩ := h
  have hpt := hp.parent_lt ht
  have hle := hp.le
  rcases hs.write_wait (by simp [HeapFsm.memDoWrite, hst]) hwait hp.target_max with
    ⟨hd, hn, hq', hmap⟩ | ⟨hd, hr, hn, hq'⟩ | ⟨hd, hr, hn, hwait'⟩
  · have hmap' := hp.mapped_succ hs hmap
    have hp' : v'.Push cfg m := by
      refine hp.ascend hs ht (hpn ▸ hkey) (hpn ▸ hn) hmap' ?_ ?_ ?_ ?_ ?_ ?_ <;> rw [hs.fsm] <;>
        simp only [HeapFsm.step, HeapFsm.regs, hst, hd, if_true, ← hpn]
      · unfold HeapFsm.cacheTarget; split <;> rfl
      · unfold HeapFsm.cacheTarget; split <;> rfl
    have ht' : v'.fsm.targetIdx = v.fsm.parentIdx := by
      rw [hs.fsm]; simp [HeapFsm.step, HeapFsm.regs, hst, hd]
    by_cases h0 : v.fsm.parentIdx = 0
    · have hst' : v'.fsm.state = .pushWrFinalIssue := by
        rw [hs.fsm]; simp [HeapFsm.step, HeapFsm.nState, hst, hd, h0]
      simp only [Phase, hst']
      exact ⟨hp', hq', fun hpos => by omega⟩
    · have hst' : v'.fsm.state = .pushRdParentIssue := by
        rw [hs.fsm]; simp [HeapFsm.step, HeapFsm.nState, hst, hd, h0]
      simp only [Phase, hst']
      exact ⟨hp', hq', by omega⟩
  all_goals
    have hregs : v.fsm.regs cfg i = v.fsm := by simp [HeapFsm.regs, hst, hd]
    have hc : v'.fsm.core = v.fsm.core := by rw [hs.fsm]; simp [HeapFsm.step, HeapFsm.core, hregs]
    have hpn' : v'.fsm.parentNode = v.fsm.parentNode := by rw [hs.fsm]; simp [HeapFsm.step, hregs]
    have ht' : v'.fsm.targetIdx = v.fsm.targetIdx := congrArg HeapFsm.Core.targetIdx hc
    have hpi' : v'.fsm.parentIdx = v.fsm.parentIdx := congrArg HeapFsm.Core.parentIdx hc
    have hcur' : v'.fsm.curNode = v.fsm.curNode := congrArg HeapFsm.Core.curNode hc
    have hp' := hp.frame hs hc fun j _ => by rw [hn]
  · have hst' : v'.fsm.state = .pushWrDownIssue := by
      rw [hs.fsm]; simp [HeapFsm.step, HeapFsm.nState, hst, hd, hr]
    simp only [Phase, hst', ht', hpi', hcur', hpn', hn]
    exact ⟨hp', hq', ht, hpn, hkey⟩
  · have hst' : v'.fsm.state = .pushWrDownWait := by
      rw [hs.fsm]; simp [HeapFsm.step, HeapFsm.nState, hst, hd, hr]
    simp only [Phase, hst', ht', hpi', hcur', hpn', hn]
    exact ⟨hp', hwait', ht, hpn, hkey⟩

theorem phase_pushWrFinalIssue (h : v.Phase cfg m) (hs : v.Step cfg i v')
    (hst : v.fsm.state = .pushWrFinalIssue) : v'.Phase cfg m := by
  simp only [Phase, hst] at h
  obtain ⟨hp, hq, hkey⟩ := h
  have hidx : v.fsm.memIdx = v.fsm.targetIdx := by simp [HeapFsm.memIdx, hst]
  have hregs : v.fsm.regs cfg i = v.fsm := by simp [HeapFsm.regs, hst]
  have hc : v'.fsm.core = v.fsm.core := by rw [hs.fsm]; simp [HeapFsm.step, HeapFsm.core, hregs]
  have ht' : v'.fsm.targetIdx = v.fsm.targetIdx := congrArg HeapFsm.Core.targetIdx hc
  have hpi' : v'.fsm.parentIdx = v.fsm.parentIdx := congrArg HeapFsm.Core.parentIdx hc
  have hcur' : v'.fsm.curNode = v.fsm.curNode := congrArg HeapFsm.Core.curNode hc
  obtain ⟨hoff, hwait⟩ := hs.write_issue (x := v.fsm.curNode) (by simp [HeapFsm.memDoWrite, hst])
    hidx (by simp [HeapFsm.memWdata, hst]) hp.target_max hq
  have hp' := hp.frame hs hc hoff
  have hkey' : 0 < v.fsm.targetIdx →
      cfg.kind.key (v'.node v.fsm.parentIdx) ≤ cfg.kind.key v.fsm.curNode := fun ht => by
    rw [hoff _ (Nat.ne_of_lt (hp.parent_lt ht))]; exact hkey ht
  have hst' : v'.fsm.state =
      if v.fsm.targetIdx < privateNodes ∨ i.virtReqReady = true then .pushWrFinalWait
      else .pushWrFinalIssue := by
    rw [hs.fsm]; simp [HeapFsm.step, HeapFsm.nState, hst, issueTo_eq, hidx]
  by_cases hgo : v.fsm.targetIdx < privateNodes ∨ i.virtReqReady = true
  · rw [if_pos hgo] at hst' hwait
    simp only [Phase, hst', ht', hpi', hcur']
    exact ⟨hp', hwait, hkey'⟩
  · rw [if_neg hgo] at hst' hwait
    simp only [Phase, hst', ht', hpi', hcur']
    exact ⟨hp', hwait.2, hkey'⟩

/-- `cur_node` has been written into the hole: the heap has one node more. -/
theorem Push.finish (h : v.Push cfg m) (hq : v'.Quiet)
    (hkey : 0 < v.fsm.targetIdx → cfg.kind.key (v.node v.fsm.parentIdx) ≤ cfg.kind.key v.fsm.curNode)
    (hn : v'.node = update v.node v.fsm.targetIdx v.fsm.curNode)
    (hmap : v'.Mapped (v.fsm.size + 1)) (hcap : v'.fsm.size ≤ 1024)
    (hsz : v'.fsm.size = v.fsm.size + 1)
    (hnc : v'.fsm.nodeCache = (v.fsm.cacheTarget v.fsm.curNode).nodeCache)
    (hnv : v'.fsm.nodeCacheValid = (v.fsm.cacheTarget v.fsm.curNode).nodeCacheValid) :
    v'.Rest cfg m := by
  have hle := h.le
  have hslot := h.cache.store (Nat.lt_succ_of_le hle) hn hnc hnv
  have hroot : v'.fsm.nodeCacheValid 0 = true := by
    rw [hnv]; exact cacheTarget_valid_zero _ h.root
  refine ⟨hcap, ?_, ?_, ?_, ?_, ?_, hq⟩
  · rw [hsz, hn]
    refine h.up.ordered fun h0 => ?_
    rw [update_self, ← h.par, update_of_ne (Nat.ne_of_lt (h.parent_lt h0))]
    exact hkey h0
  · rw [hsz, hn]; exact h.cont
  · rw [hsz]; exact hmap
  · intro s h3 _ hval
    rw [hsz]; exact hslot s h3 hval
  · exact fun _ => ⟨hroot, (hslot 0 (by omega) hroot).2⟩

theorem phase_pushWrFinalWait (h : v.Phase cfg m) (hs : v.Step cfg i v')
    (hst : v.fsm.state = .pushWrFinalWait) (hcap : v'.fsm.size ≤ 1024) : v'.Phase cfg m := by
  simp only [Phase, hst] at h
  obtain ⟨hp, hwait, hkey⟩ := h
  have hle := hp.le
  have hcap0 := hp.cap
  rcases hs.write_wait (by simp [HeapFsm.memDoWrite, hst]) hwait hp.target_max with
    ⟨hd, hn, hq', hmap⟩ | ⟨hd, hr, hn, hq'⟩ | ⟨hd, hr, hn, hwait'⟩
  · have hmap' := hp.mapped_succ hs hmap
    have hst' : v'.fsm.state = .done := by
      rw [hs.fsm]; simp [HeapFsm.step, HeapFsm.nState, hst, hd]
    simp only [Phase, hst']
    refine hp.finish hq' hkey hn hmap' hcap ?_ ?_ ?_ <;> rw [hs.fsm] <;>
      simp only [HeapFsm.step, HeapFsm.regs, hst, hd, if_true]
    omega
  all_goals
    have hregs : v.fsm.regs cfg i = v.fsm := by simp [HeapFsm.regs, hst, hd]
    have hc : v'.fsm.core = v.fsm.core := by rw [hs.fsm]; simp [HeapFsm.step, HeapFsm.core, hregs]
    have ht' : v'.fsm.targetIdx = v.fsm.targetIdx := congrArg HeapFsm.Core.targetIdx hc
    have hpi' : v'.fsm.parentIdx = v.fsm.parentIdx := congrArg HeapFsm.Core.parentIdx hc
    have hcur' : v'.fsm.curNode = v.fsm.curNode := congrArg HeapFsm.Core.curNode hc
    have hp' := hp.frame hs hc fun j _ => by rw [hn]
  · have hst' : v'.fsm.state = .pushWrFinalIssue := by
      rw [hs.fsm]; simp [HeapFsm.step, HeapFsm.nState, hst, hd, hr]
    simp only [Phase, hst', ht', hpi', hcur', hn]
    exact ⟨hp', hq', hkey⟩
  · have hst' : v'.fsm.state = .pushWrFinalWait := by
      rw [hs.fsm]; simp [HeapFsm.step, HeapFsm.nState, hst, hd, hr]
    simp only [Phase, hst', ht', hpi', hcur', hn]
    exact ⟨hp', hwait', hkey⟩

end HeapView

end HftSim
