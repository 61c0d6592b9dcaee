import HftSim.EngineInv

/-!
# One clock cycle of an engine

The trade controller, state by state. Each round peeks both roots, which are best orders of their sides;
a matching pair is taken out of the heaps by one `POP` and an `UPDATE`, or by two `POP`s, which takes
the heaps one trade further on.
-/

namespace HftSim

open Function BinHeap PriceTime

namespace EngineSys

variable {n : Nat} {s : EngineSys} {c : EngineCycle} {k : HeapKind} {g : HeapKind → HeapGhost}
  {ok : (Bool → Multiset Node) → Node → Prop} {ps : List (Bool → Node)}

theorem kindOf_isBid (k : HeapKind) : kindOf k.isBid = k := by cases k <;> rfl

theorem pool_isBid (g : HeapKind → HeapGhost) (k : HeapKind) : pool g k.isBid = (g k).nodes := by
  unfold pool; rw [kindOf_isBid]

theorem Inv.rest (h : s.Inv n ok ps g) (hst : (s.eng.heap k).state = .idle ∨ (s.eng.heap k).state = .done) :
    (s.view n k).Rest ⟨k, n⟩ (g k).nodes :=
  (h.heap k).phase.rest hst

theorem Inv.root (h : s.Inv n ok ps g) (hst : (s.eng.heap k).state = .idle ∨ (s.eng.heap k).state = .done)
    (h0 : (s.eng.heap k).size ≠ 0) : (s.eng.heap k).nodeCacheValid 0 = true ∧
      (s.view n k).node 0 = (s.eng.heap k).nodeCache 0 ∧
      nodeOps.Best k.isBid (g k).nodes ((s.eng.heap k).nodeCache 0) := by
  have hrest := h.rest hst
  obtain ⟨hval, hroot⟩ := hrest.root (Nat.pos_of_ne_zero h0)
  have hroot' : (s.eng.heap k).nodeCache 0 = (s.view n k).node 0 := hroot
  exact ⟨hval, hroot'.symm, hroot' ▸ hrest.best h0⟩

theorem Inv.empty (h : s.Inv n ok ps g) (hst : (s.eng.heap k).state = .idle ∨ (s.eng.heap k).state = .done)
    (h0 : (s.eng.heap k).size = 0) : (g k).nodes = 0 := by
  have hsz : (s.eng.heap k).size = _ := (h.rest hst).size_eq
  rw [h0] at hsz
  exact Multiset.card_eq_zero.1 hsz.symm

theorem no_match_of_empty (h : (g k).nodes = 0) (p : Bool → Node) : ¬ nodeOps.Match (pool g) p := by
  intro hp
  have := (hp.best k.isBid).1
  rw [pool_isBid, h] at this
  exact Multiset.notMem_zero _ this

/-- The end of a round: another one while both sides have orders, `T_IDLE` otherwise. -/
theorem again_spec (s : EngineSys) : s.eng.again = .peekBidIssue ∧ s.TwoSided ∨
    s.eng.again = .idle ∧ ∃ k, (s.eng.heap k).size = 0 := by
  unfold SymbolEngine.again
  split
  · rename_i hpos
    refine .inl ⟨rfl, fun k => ?_⟩
    cases k
    · exact Nat.ne_of_gt hpos.1
    · exact Nat.ne_of_gt hpos.2
  · rename_i hpos
    refine .inr ⟨rfl, ?_⟩
    by_cases hb : s.eng.bid.size = 0
    · exact ⟨.maxHeap, hb⟩
    · refine ⟨.minHeap, ?_⟩
      show s.eng.ask.size = 0
      omega

theorem ctrl_again {s' : EngineSys} {g' : HeapKind → HeapGhost} {ps' : List (Bool → Node)} (h : s.Inv n ok ps g)
    (hst : ∀ k, (s.eng.heap k).state = .idle ∨ (s.eng.heap k).state = .done)
    (hcore : ∀ k, (s'.eng.heap k).core = (s.eng.heap k).core) (hg : pool g' = pool g)
    (hled : s'.Led ok ps' (pool g))
    (ht : s'.eng.tstate = s.eng.again) : s'.Ctrl ok ps' g' := by
  unfold Ctrl
  rcases again_spec s with ⟨ha, htwo⟩ | ⟨ha, k, h0⟩
  · rw [ht, ha]
    exact ⟨hg ▸ hled, fun k => by rw [(size_of_core (hcore k)).1]; exact htwo k⟩
  · rw [ht, ha]
    exact ⟨hg ▸ hled, hg ▸ no_match_of_empty (h.empty (hst k) h0)⟩

theorem ctrl_idle (h : s.Inv n ok ps g) (hst : s.eng.tstate = .idle)
    (hok : c.orderInValid = true → ok (pool g) (packOrder c.orderInData (symbolOf n) c.nowTs)) :
    (s.step n c).Ctrl ok ps (nextGhost n s c g) := by
  have hc := h.ctrl
  simp only [Ctrl, hst] at hc
  obtain ⟨⟨htrail, hps⟩, hno⟩ := hc
  have hg := pool_eq h.serial (n := n) (c := c) (g := g) (by simp [SymbolEngine.issuesTo, hst])
  have htr : (s.step n c).trades = s.trades := trades_step (by simp [hst])
  by_cases hv : c.orderInValid = true
  · have htake : s.eng.takesOrder (s.engineIn c) = true := by
      simp [SymbolEngine.takesOrder, hst, engineIn, hv]
    have hst' : (s.step n c).eng.tstate = .pushIssue := by
      simp [step, SymbolEngine.step, SymbolEngine.tnState, hst, engineIn, hv]
    have hpend : (s.step n c).eng.pendingOrder = packOrder c.orderInData (symbolOf n) c.nowTs := by
      simp only [step, SymbolEngine.step, htake, if_true]; rfl
    have hask : (s.step n c).eng.pendingIsAsk = !c.orderInData.getLsbD 31 := by
      simp only [step, SymbolEngine.step, htake, if_true]; rfl
    have hord : (s.step n c).orders =
        s.orders ++ [packOrder c.orderInData (symbolOf n) c.nowTs] := by simp [step, htake]
    simp only [Ctrl, hst', hpend, hask, orderType_packOrder, hg, true_and]
    refine ⟨?_, by rw [htr, hps]⟩
    rw [hord]
    exact htrail.order hno (hok hv)
  · have hst' : (s.step n c).eng.tstate = .idle := by
      simp [step, SymbolEngine.step, SymbolEngine.tnState, hst, engineIn, hv]
    have hord : (s.step n c).orders = s.orders := by
      simp [step, SymbolEngine.takesOrder, engineIn, hv]
    simp only [Ctrl, hst', hg]
    exact ⟨⟨by rw [hord]; exact htrail, by rw [htr, hps]⟩, hno⟩

theorem ctrl_pushIssue (h : s.Inv n ok ps g) (hst : s.eng.tstate = .pushIssue) :
    (s.step n c).Ctrl ok ps (nextGhost n s c g) := by
  have hc := h.ctrl
  simp only [Ctrl, hst] at hc
  obtain ⟨hask, hled⟩ := hc
  have hst' : (s.step n c).eng.tstate = .pushWait := by
    simp [step, SymbolEngine.step, SymbolEngine.tnState, hst]
  have hcalm := h.serial.calm (by simp [SymbolEngine.waitsFor, hst])
  -- the heap is the one of the order's side
  have hi : s.eng.issuesTo = some (kindOf (orderType s.eng.pendingOrder)) := by
    simp only [SymbolEngine.issuesTo, hst, hask, kindOf]
    cases orderType s.eng.pendingOrder <;> rfl
  have hcmd : s.eng.cmd (kindOf (orderType s.eng.pendingOrder)) = ⟨true, .push, s.eng.pendingOrder⟩ := by
    cases ho : orderType s.eng.pendingOrder <;> rw [ho] at hask <;>
      simp [SymbolEngine.cmd, kindOf, SymbolEngine.bidCmd, SymbolEngine.askCmd, hst, hask]
  obtain ⟨hv, hop, hd⟩ := SymbolEngine.heapIn_cmd (e := s.eng) (i := s.engineIn c) (kindOf (orderType s.eng.pendingOrder))
  rw [hcmd] at hv hop hd
  have hpush : (nextGhost n s c g (kindOf (orderType s.eng.pendingOrder))).nodes =
      s.eng.pendingOrder ::ₘ (g (kindOf (orderType s.eng.pendingOrder))).nodes := by
    simp [nextGhost, HeapGhost.next, view, hcalm _, hv, hop, hd]
  have hpool : pool (nextGhost n s c g) = nodeOps.put (pool g) s.eng.pendingOrder := by
    funext bid
    unfold Ops.put pool
    by_cases hb : nodeOps.isBid s.eng.pendingOrder = bid
    · rw [if_pos hb, ← hb]; exact hpush
    · rw [if_neg hb, ghost_eq h.serial]
      rw [hi]
      intro hcon
      have := Option.some.inj hcon
      revert this hb
      show orderType s.eng.pendingOrder ≠ bid → _
      cases orderType s.eng.pendingOrder <;> cases bid <;> decide
  simp only [Ctrl, hst', hpool]
  exact hled.step (by simp [hst]) (by simp [hst])

theorem ctrl_pushWait (h : s.Inv n ok ps g) (hst : s.eng.tstate = .pushWait) :
    (s.step n c).Ctrl ok ps (nextGhost n s c g) := by
  have hc := h.ctrl
  simp only [Ctrl, hst] at hc
  have hi : s.eng.issuesTo = none := by simp [SymbolEngine.issuesTo, hst]
  have hg := pool_eq h.serial (n := n) (c := c) (g := g) hi
  have hled := hc.step (n := n) (c := c) (by simp [hst]) (by simp [hst])
  obtain ⟨k, hw⟩ : ∃ k, s.eng.waitsFor = some k := by simp [SymbolEngine.waitsFor, hst]
  have hdone : ((s.eng.pendingIsAsk && s.eng.ask.cmdDone) || (!s.eng.pendingIsAsk && s.eng.bid.cmdDone)) =
      (s.eng.heap k).cmdDone := by
    simp only [SymbolEngine.waitsFor, hst, Option.some.injEq] at hw
    subst hw
    cases s.eng.pendingIsAsk <;> simp [SymbolEngine.heap]
  have hbusy := h.serial.busy hw
  by_cases hd : (s.eng.heap k).cmdDone = true
  · have hst' : (s.eng.heap k).state = .done := by simpa [HeapFsm.cmdDone] using hd
    refine ctrl_again h (fun k' => ?_) (fun k' => ?_) hg hled ?_
    · by_cases hk : k' = k
      · rw [hk]; exact .inr hst'
      · exact .inl (hbusy.2 k' hk)
    · refine core_eq h.serial (by simp [hi]) fun hw' => ?_
      rw [Option.some.inj (hw'.symm.trans hw)]; exact hst'
    · simp only [step, SymbolEngine.step, SymbolEngine.tnState, hst, hdone, hd, if_true]
  · have hst' : (s.step n c).eng.tstate = .pushWait := by
      simp only [step, SymbolEngine.step, SymbolEngine.tnState, hst, hdone, hd, if_false, Bool.false_eq_true]
    simp only [Ctrl, hst', hg]
    exact hled

/-! ### Peeking -/

/-- A non-empty heap answers a `PEEK` in the next cycle and keeps its nodes. -/
theorem Inv.peek (h : s.Inv n ok ps g) (hi : s.eng.issuesTo = some k) (hcmd : s.eng.cmd k = ⟨true, .peek, 0⟩)
    (htwo : s.TwoSided) : (s.step n c).Peeked k ∧ (s.step n c).TwoSided ∧
      pool (nextGhost n s c g) = pool g ∧
      ∀ k', k' ≠ k → ((s.step n c).eng.heap k').core = (s.eng.heap k').core := by
  have hcalm := h.serial.calm (SymbolEngine.waitsFor_of_issuesTo hi)
  obtain ⟨hval, -, -⟩ := h.root (.inl (hcalm k)) (htwo k)
  obtain ⟨hv, hop, hd⟩ := SymbolEngine.heapIn_cmd (e := s.eng) (i := s.engineIn c) k
  rw [hcmd] at hv hop hd
  have hne : ∀ k', k' ≠ k → s.eng.issuesTo ≠ some k' := fun k' hk' hc =>
    hk' (Option.some.inj (hc.symm.trans hi))
  have hcore : ∀ k', k' ≠ k → ((s.step n c).eng.heap k').core = (s.eng.heap k').core := fun k' hk' =>
    core_eq h.serial (hne k' hk') fun hw => by rw [SymbolEngine.waitsFor_of_issuesTo hi] at hw; cases hw
  refine ⟨⟨?_, ?_⟩, fun k' => ?_, ?_, hcore⟩
  · rw [state_step]; simp [HeapFsm.nState, hcalm k, hv, hop, hval]
  · rw [heap_step]; simp [HeapFsm.step, HeapFsm.regs, hcalm k, hv, hop]
  · by_cases hk : k' = k
    · subst hk
      have := htwo k'
      rw [heap_step]
      simpa [HeapFsm.step, HeapFsm.regs, hcalm k', hv, hop] using this
    · rw [(size_of_core (hcore k' hk)).1]; exact htwo k'
  · funext bid
    unfold pool
    by_cases hk : kindOf bid = k
    · rw [hk]
      simp [nextGhost, HeapGhost.next, view, hcalm k, hv, hop]
    · rw [ghost_eq h.serial (hne _ hk)]

/-- The node on `cmd_root_out` at the end of a `PEEK` is the root. -/
theorem Inv.peeked_root (h : s.Inv n ok ps g) (hp : s.Peeked k) (h0 : (s.eng.heap k).size ≠ 0) :
    (s.eng.heap k).cmdRootOut = (s.eng.heap k).nodeCache 0 := by
  simp [HeapFsm.cmdRootOut, hp.2, (h.root (.inr hp.1) h0).1]

theorem ctrl_peekBidIssue (h : s.Inv n ok ps g) (hst : s.eng.tstate = .peekBidIssue) :
    (s.step n c).Ctrl ok ps (nextGhost n s c g) := by
  have hc := h.ctrl
  simp only [Ctrl, hst] at hc
  obtain ⟨hled, htwo⟩ := hc
  have hst' : (s.step n c).eng.tstate = .peekBidWait := by
    simp [step, SymbolEngine.step, SymbolEngine.tnState, hst]
  obtain ⟨hp, htwo', hg, -⟩ := h.peek (c := c) (k := .maxHeap) (by simp [SymbolEngine.issuesTo, hst])
    (by simp [SymbolEngine.cmd, SymbolEngine.bidCmd, hst]) htwo
  simp only [Ctrl, hst', hg]
  exact ⟨hled.step (by simp [hst]) (by simp [hst]), htwo', hp⟩

/-- A `PEEK` has been answered: nothing changes but the snapped root. -/
theorem Inv.peek_wait (h : s.Inv n ok ps g) (hw : s.eng.waitsFor = some k) (hi : s.eng.issuesTo = none)
    (hp : s.Peeked k) (htwo : s.TwoSided) :
    (s.step n c).TwoSided ∧ pool (nextGhost n s c g) = pool g ∧
      ∀ k', ((s.step n c).eng.heap k').core = (s.eng.heap k').core := by
  have hcore : ∀ k', ((s.step n c).eng.heap k').core = (s.eng.heap k').core := fun k' =>
    core_eq h.serial (by simp [hi]) fun hw' => by rw [Option.some.inj (hw'.symm.trans hw)]; exact hp.1
  exact ⟨fun k' => by rw [(size_of_core (hcore k')).1]; exact htwo k', pool_eq h.serial hi, hcore⟩

theorem ctrl_peekBidWait (h : s.Inv n ok ps g) (hst : s.eng.tstate = .peekBidWait) :
    (s.step n c).Ctrl ok ps (nextGhost n s c g) := by
  have hc := h.ctrl
  simp only [Ctrl, hst] at hc
  obtain ⟨hled, htwo, hp⟩ := hc
  have hd : s.eng.bid.cmdDone = true := by
    have := hp.1; simpa [HeapFsm.cmdDone, SymbolEngine.heap] using this
  have hst' : (s.step n c).eng.tstate = .peekAskIssue := by
    simp [step, SymbolEngine.step, SymbolEngine.tnState, hst, hd]
  have hsnap : (s.step n c).snap .maxHeap = s.eng.bid.cmdRootOut := by
    simp [step, snap, SymbolEngine.step, hst, hd]
  obtain ⟨htwo', hg, hcore⟩ := h.peek_wait (c := c) (by simp [SymbolEngine.waitsFor, hst])
    (by simp [SymbolEngine.issuesTo, hst]) hp htwo
  simp only [Ctrl, hst', hg]
  refine ⟨hled.step (by simp [hst]) (by simp [hst]), htwo', htwo' .maxHeap, ?_⟩
  rw [(size_of_core (hcore .maxHeap)).2, hsnap]
  exact (h.peeked_root hp (htwo .maxHeap)).symm

theorem ctrl_peekAskIssue (h : s.Inv n ok ps g) (hst : s.eng.tstate = .peekAskIssue) :
    (s.step n c).Ctrl ok ps (nextGhost n s c g) := by
  have hc := h.ctrl
  simp only [Ctrl, hst] at hc
  obtain ⟨hled, htwo, hshown⟩ := hc
  have hst' : (s.step n c).eng.tstate = .peekAskWait := by
    simp [step, SymbolEngine.step, SymbolEngine.tnState, hst]
  obtain ⟨hp, htwo', hg, hcore⟩ := h.peek (c := c) (k := .minHeap) (by simp [SymbolEngine.issuesTo, hst])
    (by simp [SymbolEngine.cmd, SymbolEngine.askCmd, hst]) htwo
  simp only [Ctrl, hst', hg]
  exact ⟨hled.step (by simp [hst]) (by simp [hst]), htwo',
    hshown.frame (hcore .maxHeap (by decide)) (snap_bid_step (by simp [hst])), hp⟩

theorem ctrl_peekAskWait (h : s.Inv n ok ps g) (hst : s.eng.tstate = .peekAskWait) :
    (s.step n c).Ctrl ok ps (nextGhost n s c g) := by
  have hc := h.ctrl
  simp only [Ctrl, hst] at hc
  obtain ⟨hled, htwo, hshown, hp⟩ := hc
  have hd : s.eng.ask.cmdDone = true := by
    have := hp.1; simpa [HeapFsm.cmdDone, SymbolEngine.heap] using this
  have hst' : (s.step n c).eng.tstate = .decide := by
    simp [step, SymbolEngine.step, SymbolEngine.tnState, hst, hd]
  have hsnap : (s.step n c).snap .minHeap = s.eng.ask.cmdRootOut := by
    simp [step, snap, SymbolEngine.step, hst, hd]
  obtain ⟨htwo', hg, hcore⟩ := h.peek_wait (c := c) (by simp [SymbolEngine.waitsFor, hst])
    (by simp [SymbolEngine.issuesTo, hst]) hp htwo
  simp only [Ctrl, hst', hg]
  refine ⟨hled.step (by simp [hst]) (by simp [hst]), fun k => ?_⟩
  cases k with
  | maxHeap => exact hshown.frame (hcore .maxHeap) (snap_bid_step (by simp [hst]))
  | minHeap =>
    refine ⟨htwo' .minHeap, ?_⟩
    rw [(size_of_core (hcore .minHeap)).2, hsnap]
    exact (h.peeked_root hp (htwo .minHeap)).symm

/-! ### Deciding -/

theorem best_price {bid : Bool} {m : Multiset Node} {x y : Node} (hx : nodeOps.Best bid m x)
    (hy : nodeOps.Best bid m y) : nodeOps.price x = nodeOps.price y := by
  have h1 := (nodeOps.before_eq_false).1 (hx.2 y hy.1)
  have h2 := (nodeOps.before_eq_false).1 (hy.2 x hx.1)
  cases bid
  · exact Nat.le_antisymm h1.1 h2.1
  · exact Nat.le_antisymm h2.1 h1.1

theorem tradeEvent_eq (s : EngineSys) : s.eng.tradeEvent = nodeOps.deal s.snaps := by
  simp only [SymbolEngine.tradeEvent, Ops.deal, nodeOps, snaps, snap, kindOf, if_true, Bool.false_eq_true, if_false]
  congr 1
  split
  · rename_i hlt
    rw [Nat.min_eq_left (Nat.le_of_lt (BitVec.lt_def.1 hlt)), BitVec.ofNat_toNat, BitVec.setWidth_eq]
  · rename_i hlt
    rw [BitVec.lt_def] at hlt
    rw [Nat.min_eq_right (by omega), BitVec.ofNat_toNat, BitVec.setWidth_eq]

/-- The decision is whether the sides have a match, and the roots are one. -/
theorem Inv.decide_spec (h : s.Inv n ok ps g) (hcalm : s.eng.Calm) (hshown : ∀ k, s.Shown k) :
    if s.eng.tradeMatch = true then nodeOps.Match (pool g) s.snaps else ∀ p, ¬ nodeOps.Match (pool g) p := by
  have hbest : ∀ bid, nodeOps.Best bid (pool g bid) (s.snaps bid) := by
    intro bid
    obtain ⟨-, -, hb⟩ := h.root (.inl (hcalm (kindOf bid))) (hshown (kindOf bid)).1
    have hk : (kindOf bid).isBid = bid := by cases bid <;> rfl
    rw [(hshown (kindOf bid)).2, hk] at hb
    exact hb
  have hb : 0 < s.eng.bid.size := Nat.pos_of_ne_zero (hshown .maxHeap).1
  have ha : 0 < s.eng.ask.size := Nat.pos_of_ne_zero (hshown .minHeap).1
  have hmatch : s.eng.tradeMatch = decide (nodeOps.price (s.snaps false) ≤ nodeOps.price (s.snaps true)) := by
    simp only [SymbolEngine.tradeMatch, hb, ha, decide_true, Bool.true_and]; rfl
  rw [hmatch]
  split
  · rename_i hle
    exact ⟨hbest, of_decide_eq_true hle⟩
  · rename_i hle
    intro p hp
    refine hle (decide_eq_true ?_)
    rw [best_price (hbest false) (hp.best false), best_price (hbest true) (hp.best true)]
    exact hp.cross

theorem ctrl_decide (h : s.Inv n ok ps g) (hst : s.eng.tstate = .decide) :
    (s.step n c).Ctrl ok ps (nextGhost n s c g) := by
  have hc := h.ctrl
  simp only [Ctrl, hst] at hc
  obtain ⟨hled, hshown⟩ := hc
  have hi : s.eng.issuesTo = none := by simp [SymbolEngine.issuesTo, hst]
  have hw : s.eng.waitsFor = none := by simp [SymbolEngine.waitsFor, hst]
  have hg : ∀ k, nextGhost n s c g k = g k := fun k => ghost_eq h.serial (by simp [hi])
  have hled' := hled.step (n := n) (c := c) (by simp [hst]) (by simp [hst])
  have hspec := h.decide_spec (h.serial.calm hw) hshown
  have hsnap := snap_step (n := n) (s := s) (c := c) (.inr (.inr hst))
  have hsnaps := snaps_step (n := n) (s := s) (c := c) (.inr (.inr hst))
  by_cases hm : s.eng.tradeMatch = true
  · rw [if_pos hm] at hspec
    have htrades : s.eng.trades = true := by simp [SymbolEngine.trades, hst, hm]
    have hpb : (s.step n c).eng.latchedPartialBid = s.eng.partialBidRemains := by
      simp [step, SymbolEngine.step, htrades]
    have hpb' : s.eng.partialBidRemains =
        decide (nodeOps.amount (s.snap .minHeap) < nodeOps.amount (s.snap .maxHeap)) := by
      simp only [SymbolEngine.partialBidRemains, hm, Bool.true_and]; rfl
    have hpa : (s.step n c).eng.latchedPartialAsk =
        decide (nodeOps.amount (s.snap .maxHeap) < nodeOps.amount (s.snap .minHeap)) := by
      simp only [step, SymbolEngine.step, htrades, if_true, SymbolEngine.partialAskRemains, hm, Bool.true_and]
      rfl
    have hdeal : (s.step n c).Deal ok ps (nextGhost n s c g) (fun _ => false) := by
      refine ⟨⟨pool g, hled', by rw [hsnaps]; exact hspec, fun k => ?_⟩, fun k _ => ?_, ?_, ?_, ?_, ?_⟩
      · rw [hg, pool_isBid]; rfl
      · exact (hshown k).frame (core_eq h.serial (by simp [hi]) (by simp [hw])) (hsnap k)
      · rw [hsnaps, ← tradeEvent_eq]; simp [step, SymbolEngine.step, htrades]
      · simp [step, SymbolEngine.step, htrades]
      · rw [hsnap, hsnap, hpb, hpb']
      · rw [hsnap, hsnap, hpa]
    have hst' : (s.step n c).eng.tstate = if s.eng.partialBidRemains then .popAskIssue else .popBidIssue := by
      simp [step, SymbolEngine.step, SymbolEngine.tnState, hst, hm]
    by_cases hpart : s.eng.partialBidRemains = true
    · rw [if_pos hpart] at hst'
      simp only [Ctrl, hst', hpb, hpart, Bool.not_true, Bool.and_false]
      refine ⟨hdeal, ?_⟩
      rw [hpb'] at hpart
      have := of_decide_eq_true hpart
      rw [hpa]; simp; omega
    · rw [if_neg hpart] at hst'
      simp only [Ctrl, hst', hpb]
      exact ⟨hdeal, Bool.eq_false_iff.2 hpart⟩
  · rw [if_neg hm] at hspec
    have hst' : (s.step n c).eng.tstate = .idle := by
      simp [step, SymbolEngine.step, SymbolEngine.tnState, hst, hm]
    simp only [Ctrl, hst', pool_eq h.serial hi]
    exact ⟨hled', hspec⟩

/-! ### Carrying out a trade -/

def other : HeapKind → HeapKind
  | .maxHeap => .minHeap
  | .minHeap => .maxHeap

theorem after_isBid (m : Bool → Multiset Node) (s : EngineSys) (k : HeapKind) :
    nodeOps.after m s.snaps k.isBid =
      (m k.isBid).erase (s.snap k) + ↑(nodeOps.left (s.snap k) (nodeOps.amount (s.snap (other k)))) := by
  cases k <;> rfl

/-- A `POP` takes the used-up root out. -/
theorem Inv.pop (h : s.Inv n ok ps g) (hi : s.eng.issuesTo = some k) (hcmd : s.eng.cmd k = ⟨true, .pop, 0⟩)
    (hshown : s.Shown k) (hle : nodeOps.amount (s.snap k) ≤ nodeOps.amount (s.snap (other k)))
    {m : Bool → Multiset Node} (hm : (g k).nodes = m k.isBid) :
    (nextGhost n s c g k).nodes = nodeOps.after m s.snaps k.isBid := by
  have hcalm := h.serial.calm (SymbolEngine.waitsFor_of_issuesTo hi)
  obtain ⟨hv, hop, -⟩ := SymbolEngine.heapIn_cmd (e := s.eng) (i := s.engineIn c) k
  rw [hcmd] at hv hop
  obtain ⟨-, hroot, -⟩ := h.root (.inl (hcalm k)) hshown.1
  have hnext : (nextGhost n s c g k).nodes = (g k).nodes.erase (s.snap k) := by
    rw [← hshown.2, ← hroot]
    have hst : (s.view n k).fsm.state = .idle := hcalm k
    have h0 : (s.view n k).fsm.size ≠ 0 := hshown.1
    simp [nextGhost, HeapGhost.next, hst, hv, hop, h0]
  have hleft : nodeOps.left (s.snap k) (nodeOps.amount (s.snap (other k))) = [] := by
    simp [Ops.left, hle]
  rw [hnext, hm, after_isBid, hleft]
  simp

/-- An `UPDATE` leaves the remainder in the root. -/
theorem Inv.update (h : s.Inv n ok ps g) (hi : s.eng.issuesTo = some k) (hshown : s.Shown k)
    (hcmd : s.eng.cmd k = ⟨true, .update, withAmount (s.snap k)
      (orderAmount (s.snap k) - orderAmount (s.snap (other k)))⟩)
    (hlt : nodeOps.amount (s.snap (other k)) < nodeOps.amount (s.snap k))
    {m : Bool → Multiset Node} (hm : (g k).nodes = m k.isBid) :
    (nextGhost n s c g k).nodes = nodeOps.after m s.snaps k.isBid := by
  have hcalm := h.serial.calm (SymbolEngine.waitsFor_of_issuesTo hi)
  obtain ⟨hv, hop, hd⟩ := SymbolEngine.heapIn_cmd (e := s.eng) (i := s.engineIn c) k
  rw [hcmd] at hv hop hd
  obtain ⟨-, hroot, -⟩ := h.root (.inl (hcalm k)) hshown.1
  rw [hshown.2] at hroot
  have hnext : (nextGhost n s c g k).nodes = withAmount (s.snap k)
      (orderAmount (s.snap k) - orderAmount (s.snap (other k))) ::ₘ (g k).nodes.erase (s.snap k) := by
    have hst : (s.view n k).fsm.state = .idle := hcalm k
    have h0 : (s.view n k).fsm.size ≠ 0 := hshown.1
    simp [nextGhost, HeapGhost.next, hst, hv, hop, hd, h0, hroot]
  have hamt : orderAmount (s.snap k) - orderAmount (s.snap (other k)) =
      BitVec.ofNat 16 (nodeOps.amount (s.snap k) - nodeOps.amount (s.snap (other k))) := by
    apply BitVec.eq_of_toNat_eq
    have := (orderAmount (s.snap k)).isLt
    simp only [nodeOps] at hlt
    rw [BitVec.toNat_sub_of_le (Nat.le_of_lt hlt)]
    simp only [BitVec.toNat_ofNat, nodeOps]
    exact (Nat.mod_eq_of_lt (by omega)).symm
  have hleft : nodeOps.left (s.snap k) (nodeOps.amount (s.snap (other k))) =
      [withAmount (s.snap k) (orderAmount (s.snap k) - orderAmount (s.snap (other k)))] := by
    rw [hamt]; simp only [Ops.left, Nat.not_le.2 hlt, if_false]; rfl
  rw [hnext, hm, after_isBid, hleft, Multiset.coe_singleton, Multiset.add_comm, Multiset.singleton_add]

/-- The registers of a deal stay until it is handed over. -/
theorem Deal.regs {d : HeapKind → Bool} (h : s.Deal ok ps g d) (hd : dealing s.eng.tstate = true) :
    (s.step n c).eng.tradeEventData = nodeOps.deal (s.step n c).snaps ∧
      (s.step n c).eng.tradeEventPending = true ∧
      (s.step n c).eng.latchedPartialBid =
        decide (nodeOps.amount ((s.step n c).snap .minHeap) < nodeOps.amount ((s.step n c).snap .maxHeap)) ∧
      (s.step n c).eng.latchedPartialAsk =
        decide (nodeOps.amount ((s.step n c).snap .maxHeap) < nodeOps.amount ((s.step n c).snap .minHeap)) := by
  have h1 : s.eng.tstate ≠ .decide := fun hc => by rw [hc] at hd; cases hd
  have h2 : s.eng.tstate ≠ .emitTrade := fun hc => by rw [hc] at hd; cases hd
  have hnt : s.eng.trades = false := by simp [SymbolEngine.trades, h1]
  rw [snaps_step (.inl hd), snap_step (.inl hd), snap_step (.inl hd), (latched_step h1).1, (latched_step h1).2]
  refine ⟨?_, ?_, h.partialBid, h.partialAsk⟩
  · rw [← h.event]; simp [step, SymbolEngine.step, hnt]
  · rw [← h.pending]; simp [step, SymbolEngine.step, hnt, h2]

theorem Deal.led_step {d : HeapKind → Bool} (h : s.Deal ok ps g d) (hd : dealing s.eng.tstate = true) :
    ∃ m, (s.step n c).Led ok ps m ∧ nodeOps.Match m (s.step n c).snaps ∧
      ∀ k, (g k).nodes = if d k then nodeOps.after m (s.step n c).snaps k.isBid else m k.isBid := by
  obtain ⟨m, hled, hm, hn⟩ := h.led
  rw [snaps_step (.inl hd)]
  exact ⟨m, hled.step (fun hc => by rw [hc] at hd; cases hd) (fun hc => by rw [hc] at hd; cases hd), hm, hn⟩

theorem Deal.wait {d : HeapKind → Bool} (h : s.Deal ok ps g d) (hs : s.eng.Serial) (hd : dealing s.eng.tstate = true)
    (hi : s.eng.issuesTo = none) (hw : ∀ k, d k = false → s.eng.waitsFor ≠ some k) :
    (s.step n c).Deal ok ps (nextGhost n s c g) d := by
  obtain ⟨h1, h2, h3, h4⟩ := h.regs (n := n) (c := c) hd
  obtain ⟨m, hled, hm, hn⟩ := h.led_step (n := n) (c := c) hd
  refine ⟨⟨m, hled, hm, fun k => ?_⟩, fun k hk => ?_, h1, h2, h3, h4⟩
  · rw [ghost_eq hs (by simp [hi])]; exact hn k
  · exact (h.shown k hk).frame (core_eq hs (by simp [hi]) fun hc => absurd hc (hw k hk)) (snap_step (.inl hd) k)

/-- A command takes heap `k` behind the trade. -/
theorem Deal.issue {d d' : HeapKind → Bool} (h : s.Deal ok ps g d) (hs : s.eng.Serial) (hd : dealing s.eng.tstate = true)
    (hi : s.eng.issuesTo = some k)
    (hnext : ∀ m, nodeOps.Match m s.snaps → (g k).nodes = m k.isBid →
      (nextGhost n s c g k).nodes = nodeOps.after m s.snaps k.isBid)
    (hdk : d k = false) (hd' : ∀ k', d' k' = (d k' || decide (k' = k))) :
    (s.step n c).Deal ok ps (nextGhost n s c g) d' := by
  obtain ⟨h1, h2, h3, h4⟩ := h.regs (n := n) (c := c) hd
  obtain ⟨m, hled, hm, hn⟩ := h.led_step (n := n) (c := c) hd
  have hsn := snaps_step (n := n) (s := s) (c := c) (.inl hd)
  have hne : ∀ k', k' ≠ k → s.eng.issuesTo ≠ some k' := fun k' hk' hc =>
    hk' (Option.some.inj (hc.symm.trans hi))
  refine ⟨⟨m, hled, hm, fun k' => ?_⟩, fun k' hk' => ?_, h1, h2, h3, h4⟩
  · by_cases hk : k' = k
    · subst hk
      have hk := hn k'
      rw [hdk] at hk
      rw [hd' k', decide_eq_true rfl, Bool.or_true, if_pos rfl, hsn]
      exact hnext m (hsn ▸ hm) hk
    · rw [hd' k', decide_eq_false hk, Bool.or_false, ghost_eq hs (hne k' hk)]; exact hn k'
  · rw [hd' k'] at hk'
    simp only [Bool.or_eq_false_iff, decide_eq_false_iff_not] at hk'
    refine (h.shown k' hk'.1).frame (core_eq hs (hne k' hk'.2) fun hc => ?_) (snap_step (.inl hd) k')
    rw [SymbolEngine.waitsFor_of_issuesTo hi] at hc; cases hc

theorem ctrl_popBidIssue (h : s.Inv n ok ps g) (hst : s.eng.tstate = .popBidIssue) :
    (s.step n c).Ctrl ok ps (nextGhost n s c g) := by
  have hc := h.ctrl
  simp only [Ctrl, hst] at hc
  obtain ⟨hdeal, hpb⟩ := hc
  have hst' : (s.step n c).eng.tstate = .popBidWait := by
    simp [step, SymbolEngine.step, SymbolEngine.tnState, hst]
  have hi : s.eng.issuesTo = some .maxHeap := by simp [SymbolEngine.issuesTo, hst]
  have hle : nodeOps.amount (s.snap .maxHeap) ≤ nodeOps.amount (s.snap .minHeap) := by
    have := hdeal.partialBid; rw [hpb] at this; simpa using this.symm
  simp only [Ctrl, hst', (latched_step (s := s) (n := n) (c := c) (by simp [hst])).1]
  refine ⟨hdeal.issue h.serial (by simp [dealing, hst]) hi (fun m _ hm => ?_) rfl fun k => ?_, hpb⟩
  · exact h.pop hi (by simp [SymbolEngine.cmd, SymbolEngine.bidCmd, hst]) (hdeal.shown _ rfl) hle hm
  · cases k <;> rfl

theorem ctrl_popBidWait (h : s.Inv n ok ps g) (hst : s.eng.tstate = .popBidWait) :
    (s.step n c).Ctrl ok ps (nextGhost n s c g) := by
  have hc := h.ctrl
  simp only [Ctrl, hst] at hc
  obtain ⟨hdeal, hpb⟩ := hc
  obtain ⟨hlb, hla⟩ := latched_step (s := s) (n := n) (c := c) (by simp [hst])
  have hdeal' := hdeal.wait (n := n) (c := c) h.serial (by simp [dealing, hst]) (by simp [SymbolEngine.issuesTo, hst])
    fun k hk => by cases k <;> simp [HeapKind.isBid, SymbolEngine.waitsFor, hst] at hk ⊢
  by_cases hd : s.eng.bid.cmdDone = true
  · by_cases hpa : s.eng.latchedPartialAsk = true
    · have hst' : (s.step n c).eng.tstate = .updateAskIssue := by
        simp [step, SymbolEngine.step, SymbolEngine.tnState, hst, hd, hpa]
      simp only [Ctrl, hst', hla]
      exact ⟨hdeal', hpa⟩
    · have hst' : (s.step n c).eng.tstate = .popAskIssue := by
        simp [step, SymbolEngine.step, SymbolEngine.tnState, hst, hd, hpa]
      simp only [Ctrl, hst', hla, hlb, hpb, Bool.not_false, Bool.and_true]
      exact ⟨hdeal', Bool.eq_false_iff.2 hpa⟩
  · have hst' : (s.step n c).eng.tstate = .popBidWait := by
      simp [step, SymbolEngine.step, SymbolEngine.tnState, hst, hd]
    simp only [Ctrl, hst', hlb]
    exact ⟨hdeal', hpb⟩

theorem ctrl_popAskIssue (h : s.Inv n ok ps g) (hst : s.eng.tstate = .popAskIssue) :
    (s.step n c).Ctrl ok ps (nextGhost n s c g) := by
  have hc := h.ctrl
  simp only [Ctrl, hst] at hc
  obtain ⟨hdeal, hpa⟩ := hc
  have hst' : (s.step n c).eng.tstate = .popAskWait := by
    simp [step, SymbolEngine.step, SymbolEngine.tnState, hst]
  have hi : s.eng.issuesTo = some .minHeap := by simp [SymbolEngine.issuesTo, hst]
  have hle : nodeOps.amount (s.snap .minHeap) ≤ nodeOps.amount (s.snap .maxHeap) := by
    have := hdeal.partialAsk; rw [hpa] at this; simpa using this.symm
  simp only [Ctrl, hst', (latched_step (s := s) (n := n) (c := c) (by simp [hst])).1]
  refine hdeal.issue h.serial (by simp [dealing, hst]) hi (fun m _ hm => ?_) rfl fun k => ?_
  · exact h.pop hi (by simp [SymbolEngine.cmd, SymbolEngine.askCmd, hst]) (hdeal.shown _ rfl) hle hm
  · cases k <;> simp [HeapKind.isBid]

theorem ctrl_popAskWait (h : s.Inv n ok ps g) (hst : s.eng.tstate = .popAskWait) :
    (s.step n c).Ctrl ok ps (nextGhost n s c g) := by
  have hdeal := h.ctrl
  simp only [Ctrl, hst] at hdeal
  obtain ⟨hlb, -⟩ := latched_step (s := s) (n := n) (c := c) (by simp [hst])
  have hdeal' := hdeal.wait (n := n) (c := c) h.serial (by simp [dealing, hst]) (by simp [SymbolEngine.issuesTo, hst])
    fun k hk => by cases k <;> simp [HeapKind.isBid, SymbolEngine.waitsFor, hst] at hk ⊢
  by_cases hd : s.eng.ask.cmdDone = true
  · by_cases hpb : s.eng.latchedPartialBid = true
    · have hst' : (s.step n c).eng.tstate = .updateBidIssue := by
        simp [step, SymbolEngine.step, SymbolEngine.tnState, hst, hd, hpb]
      simp only [hpb, Bool.not_true, Bool.or_false] at hdeal'
      simp only [Ctrl, hst', hlb]
      exact ⟨hdeal', hpb⟩
    · have hst' : (s.step n c).eng.tstate = .emitTrade := by
        simp [step, SymbolEngine.step, SymbolEngine.tnState, hst, hd, hpb]
      simp only [Bool.eq_false_iff.2 hpb, Bool.not_false, Bool.or_true] at hdeal'
      simp only [Ctrl, hst']
      exact hdeal'
  · have hst' : (s.step n c).eng.tstate = .popAskWait := by
      simp [step, SymbolEngine.step, SymbolEngine.tnState, hst, hd]
    simp only [Ctrl, hst', hlb]
    exact hdeal'

theorem ctrl_updateBidIssue (h : s.Inv n ok ps g) (hst : s.eng.tstate = .updateBidIssue) :
    (s.step n c).Ctrl ok ps (nextGhost n s c g) := by
  have hc := h.ctrl
  simp only [Ctrl, hst] at hc
  obtain ⟨hdeal, hpb⟩ := hc
  have hst' : (s.step n c).eng.tstate = .updateBidWait := by
    simp [step, SymbolEngine.step, SymbolEngine.tnState, hst]
  have hi : s.eng.issuesTo = some .maxHeap := by simp [SymbolEngine.issuesTo, hst]
  have hlt : nodeOps.amount (s.snap .minHeap) < nodeOps.amount (s.snap .maxHeap) := by
    have := hdeal.partialBid; rw [hpb] at this; simpa using this.symm
  simp only [Ctrl, hst']
  refine hdeal.issue h.serial (by simp [dealing, hst]) hi (fun m _ hm => ?_) rfl fun k => ?_
  · exact h.update hi (hdeal.shown _ rfl) (by simp [SymbolEngine.cmd, SymbolEngine.bidCmd, hst, snap, other]) hlt hm
  · cases k <;> rfl

theorem ctrl_updateAskIssue (h : s.Inv n ok ps g) (hst : s.eng.tstate = .updateAskIssue) :
    (s.step n c).Ctrl ok ps (nextGhost n s c g) := by
  have hc := h.ctrl
  simp only [Ctrl, hst] at hc
  obtain ⟨hdeal, hpa⟩ := hc
  have hst' : (s.step n c).eng.tstate = .updateAskWait := by
    simp [step, SymbolEngine.step, SymbolEngine.tnState, hst]
  have hi : s.eng.issuesTo = some .minHeap := by simp [SymbolEngine.issuesTo, hst]
  have hlt : nodeOps.amount (s.snap .maxHeap) < nodeOps.amount (s.snap .minHeap) := by
    have := hdeal.partialAsk; rw [hpa] at this; simpa using this.symm
  simp only [Ctrl, hst']
  refine hdeal.issue h.serial (by simp [dealing, hst]) hi (fun m _ hm => ?_) rfl fun k => ?_
  · exact h.update hi (hdeal.shown _ rfl) (by simp [SymbolEngine.cmd, SymbolEngine.askCmd, hst, snap, other]) hlt hm
  · cases k <;> rfl

theorem ctrl_updateWait (h : s.Inv n ok ps g)
    (hst : s.eng.tstate = .updateBidWait ∧ k = .maxHeap ∨ s.eng.tstate = .updateAskWait ∧ k = .minHeap) :
    (s.step n c).Ctrl ok ps (nextGhost n s c g) := by
  have hdeal : s.Deal ok ps g (fun _ => true) := by
    have hc := h.ctrl
    rcases hst with ⟨hst, rfl⟩ | ⟨hst, rfl⟩ <;> simpa only [Ctrl, hst] using hc
  have hdeal' := hdeal.wait (n := n) (c := c) h.serial
    (by rcases hst with ⟨h, -⟩ | ⟨h, -⟩ <;> simp [dealing, h])
    (by rcases hst with ⟨h, -⟩ | ⟨h, -⟩ <;> simp [SymbolEngine.issuesTo, h]) fun k hk => by cases hk
  have hst' : (s.step n c).eng.tstate =
      if (s.eng.heap k).cmdDone = true then .emitTrade else s.eng.tstate := by
    rcases hst with ⟨hst, rfl⟩ | ⟨hst, rfl⟩ <;>
      simp [step, SymbolEngine.step, SymbolEngine.tnState, hst, SymbolEngine.heap]
  by_cases hd : (s.eng.heap k).cmdDone = true
  · rw [if_pos hd] at hst'
    simp only [Ctrl, hst']
    exact hdeal'
  · rw [if_neg hd] at hst'
    rcases hst with ⟨hst, rfl⟩ | ⟨hst, rfl⟩ <;> rw [hst] at hst' <;> simp only [Ctrl, hst'] <;> exact hdeal'

theorem ctrl_emitTrade (h : s.Inv n ok ps g) (hst : s.eng.tstate = .emitTrade) :
    (s.step n c).Ctrl ok (nextPairs s c ps) (nextGhost n s c g) := by
  have hdeal := h.ctrl
  simp only [Ctrl, hst] at hdeal
  obtain ⟨m, ⟨htrail, hps⟩, hm, hn⟩ := hdeal.led
  have hi : s.eng.issuesTo = none := by simp [SymbolEngine.issuesTo, hst]
  have hw : s.eng.waitsFor = none := by simp [SymbolEngine.waitsFor, hst]
  have hcalm := h.serial.calm hw
  have hord := orders_step (s := s) (n := n) (c := c) (by simp [hst])
  have hg := pool_eq h.serial (n := n) (c := c) (g := g) hi
  by_cases hr : c.tradeOutReady = true
  · have hnext : nextPairs s c ps = ps ++ [s.snaps] := by
      simp [nextPairs, SymbolEngine.tradeOutValid, hst, hdeal.pending, hr]
    have htr : (s.step n c).trades = s.trades ++ [s.eng.tradeEventData] := by
      simp [step, SymbolEngine.tradeOutValid, hst, hdeal.pending, hr, SymbolEngine.tradeOutData]
    have hpool : pool g = nodeOps.after m s.snaps := by
      funext bid
      have hk : (kindOf bid).isBid = bid := by cases bid <;> rfl
      have := hn (kindOf bid)
      rwa [if_pos rfl, hk] at this
    refine ctrl_again h (fun k => .inl (hcalm k)) (fun k => core_eq h.serial (by simp [hi]) (by simp [hw])) hg
      ⟨?_, ?_⟩ ?_
    · rw [hord, hpool, hnext]; exact htrail.trade hm
    · rw [htr, hps, hnext, hdeal.event, List.map_append, List.map_singleton]
    · simp [step, SymbolEngine.step, SymbolEngine.tnState, hst, engineIn, hr]
  · have hst' : (s.step n c).eng.tstate = .emitTrade := by
      simp [step, SymbolEngine.step, SymbolEngine.tnState, hst, engineIn, hr]
    have hnt : s.eng.trades = false := by simp [SymbolEngine.trades, hst]
    have hsn := snaps_step (n := n) (s := s) (c := c) (.inr (.inl hst))
    have hs := snap_step (n := n) (s := s) (c := c) (.inr (.inl hst))
    have hnext : nextPairs s c ps = ps := by simp [nextPairs, hr]
    simp only [Ctrl, hst', hnext]
    refine ⟨⟨m, ⟨by rw [hord]; exact htrail, ?_⟩, by rw [hsn]; exact hm, fun k => ?_⟩, fun k hk => (by cases hk),
      ?_, ?_, ?_, ?_⟩
    · rw [← hps]; simp [step, hr]
    · rw [ghost_eq h.serial (by simp [hi]), hsn]; exact hn k
    · rw [hsn, ← hdeal.event]; simp [step, SymbolEngine.step, hnt]
    · simpa [step, SymbolEngine.step, hnt, engineIn, hr] using hdeal.pending
    · rw [hs, hs, ← hdeal.partialBid]; simp [step, SymbolEngine.step, hnt]
    · rw [hs, hs, ← hdeal.partialAsk]; simp [step, SymbolEngine.step, hnt]

end EngineSys

end HftSim
