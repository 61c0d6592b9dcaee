import HftSim.HeapFsm
import HftSim.Lib.BinHeap

/-!
# A command comes to an end

`HeapFsm.rank` bounds how many accesses and decisions a command still needs: a `PUSH` climbs towards the
root, and a `POP` of a heap of at most 1024 nodes sinks towards the leaves, with the child indices exact
(`HeapFsm.Indexed`). Each cycle lowers it in which the memory takes what the heap issues and answers what
it waits for.
-/

namespace HftSim

open BinHeap

namespace HeapFsm

/-- The index registers in the states that use them. -/
def Indexed (cfg : HeapCfg) (h : HeapFsm) : Prop :=
  match h.state with
  | .pushLaunch => h.targetIdx = h.size ∧ h.parentIdx = parent h.targetIdx
  | .pushRdParentIssue | .pushRdParentWait | .pushDecide | .pushWrDownIssue | .pushWrDownWait =>
    0 < h.targetIdx ∧ h.parentIdx = parent h.targetIdx
  | .popRdRootIssue | .popRdRootWait => 1 ≤ h.size
  | .popRdLastIssue | .popRdLastWait => 2 ≤ h.size
  | .popSiftRdLeftIssue | .popSiftRdLeftWait | .popSiftRdRightIssue | .popSiftRdRightWait | .popSiftDecide =>
    h.size < 1024 ∧ h.targetIdx < h.size ∧ h.leftIdx = 2 * h.targetIdx + 1 ∧ h.rightIdx = 2 * h.targetIdx + 2
  | .popSiftWrUpIssue | .popSiftWrUpWait =>
    h.size < 1024 ∧ h.targetIdx < h.size ∧ h.leftIdx = 2 * h.targetIdx + 1 ∧ h.rightIdx = 2 * h.targetIdx + 2 ∧
      h.best cfg ≠ .cur
  | _ => True

/-- How far a command is from `S_DONE`. -/
def rank (h : HeapFsm) : Nat :=
  match h.state with
  | .idle | .done => 0
  | .pushWrFinalWait | .popSiftWrFinalWait | .peekRdWait | .updateWrWait => 1
  | .pushWrFinalIssue | .popSiftWrFinalIssue | .peekRdIssue | .updateWrIssue => 2
  | .pushWrDownWait => 8 * h.targetIdx + 2
  | .pushWrDownIssue => 8 * h.targetIdx + 3
  | .pushDecide => 8 * h.targetIdx + 4
  | .pushRdParentWait => 8 * h.targetIdx + 5
  | .pushRdParentIssue => 8 * h.targetIdx + 6
  | .pushLaunch => 8 * h.targetIdx + 7
  | .popSiftWrUpWait => 8 * (h.size - h.targetIdx) + 2
  | .popSiftWrUpIssue => 8 * (h.size - h.targetIdx) + 3
  | .popSiftDecide => 8 * (h.size - h.targetIdx) + 4
  | .popSiftRdRightWait => 8 * (h.size - h.targetIdx) + 5
  | .popSiftRdRightIssue => 8 * (h.size - h.targetIdx) + 6
  | .popSiftRdLeftWait => 8 * (h.size - h.targetIdx) + 7
  | .popSiftRdLeftIssue => 8 * (h.size - h.targetIdx) + 8
  | .popRdLastWait => 8 * h.size + 9
  | .popRdLastIssue => 8 * h.size + 10
  | .popRdRootWait => 8 * h.size + 11
  | .popRdRootIssue => 8 * h.size + 12
  | .popLaunch => 8 * h.size + 13

variable {cfg : HeapCfg} {h : HeapFsm} {i : HeapIn}

theorem sizeMinusOne_eq (h0 : 1 ≤ h.size) (h1 : h.size ≤ 1024) : h.sizeMinusOne = h.size - 1 := by
  unfold sizeMinusOne; omega

theorem best_lt (hb : h.best cfg ≠ .cur) :
    (if h.best cfg = .left then h.leftIdx else h.rightIdx) < h.size := by
  unfold best at hb ⊢
  split_ifs at hb ⊢ <;> simp_all

@[simp] theorem cacheTarget_targetIdx (x : Node) : (h.cacheTarget x).targetIdx = h.targetIdx := by
  unfold cacheTarget; split <;> rfl

@[simp] theorem cacheTarget_parentIdx (x : Node) : (h.cacheTarget x).parentIdx = h.parentIdx := by
  unfold cacheTarget; split <;> rfl

@[simp] theorem cacheTarget_size (x : Node) : (h.cacheTarget x).size = h.size := by
  unfold cacheTarget; split <;> rfl

/-- The memory lets the heap wait: it does not take the access the heap issues, or does not answer. -/
def stalled (h : HeapFsm) (i : HeapIn) : Bool :=
  match h.state with
  | .pushRdParentWait | .popRdRootWait | .popRdLastWait | .popSiftRdLeftWait | .popSiftRdRightWait | .peekRdWait =>
    !h.readDone i
  | .pushWrDownWait | .pushWrFinalWait | .popSiftWrUpWait | .popSiftWrFinalWait | .updateWrWait => !h.writeDone i
  | _ => h.virtReqValid && !i.virtReqReady

/-- What the comparators see does not change between the decision and the write. -/
theorem best_step (h1 : h.inPopSift = true) {h' : HeapFsm} (h2 : h'.inPopSift = true) (hs : h'.size = h.size)
    (hl : h'.leftIdx = h.leftIdx) (hr : h'.rightIdx = h.rightIdx) (hc : h'.curNode = h.curNode)
    (hln : h'.leftNode = h.leftNode) (hrn : h'.rightNode = h.rightNode) (hh : h'.hasRight = h.hasRight) :
    h'.best cfg = h.best cfg := by
  have h0 : h'.cmp0Result cfg = h.cmp0Result cfg := by
    unfold cmp0Result
    rw [if_pos h1, if_pos h2, hc, hln]
  unfold best cmp1Result
  rw [h0, hs, hl, hr, hc, hln, hrn, hh]

/-- What one cycle does to the indices and the rank. -/
structure Advances (cfg : HeapCfg) (h : HeapFsm) (i : HeapIn) : Prop where
  indexed : (h.step cfg i).Indexed cfg
  rank_lt : h.stalled i = false → (h.step cfg i).rank < h.rank
  rank_le : i.virtRespReject = false → (h.step cfg i).rank ≤ h.rank

theorem push_advances (hi : h.Indexed cfg) (hst : h.state = .pushLaunch ∨ h.state = .pushRdParentIssue ∨
    h.state = .pushRdParentWait ∨ h.state = .pushDecide ∨ h.state = .pushWrDownIssue ∨ h.state = .pushWrDownWait ∨
    h.state = .pushWrFinalIssue ∨ h.state = .pushWrFinalWait) : h.Advances cfg i := by
  have hp := fun h0 => parent_lt (i := h.targetIdx) h0
  have hpar : ∀ t, (t - 1) / 2 = parent t := fun _ => rfl
  suffices hall : (h.step cfg i).Indexed cfg ∧ (h.stalled i = false → (h.step cfg i).rank < h.rank) ∧
      (i.virtRespReject = false → (h.step cfg i).rank ≤ h.rank) from ⟨hall.1, hall.2.1, hall.2.2⟩
  rcases hst with hst | hst | hst | hst | hst | hst | hst | hst <;>
    simp only [Indexed, hst] at hi <;>
    simp only [step, nState, regs, issueTo, hst] <;> split_ifs <;>
    simp_all [Indexed, rank, stalled, virtReqValid, effectiveRead, memDoRead, memDoWrite] <;>
    omega

theorem takeLast_indices (h0 : 2 ≤ h.size) (hcap : h.size ≤ 1024) (x : Node) :
    (h.takeLast x).size = h.size - 1 ∧ (h.takeLast x).targetIdx = 0 ∧ (h.takeLast x).leftIdx = 1 ∧
      (h.takeLast x).rightIdx = 2 :=
  ⟨sizeMinusOne_eq (by omega) hcap, rfl, rfl, rfl⟩

theorem memTargetPriv_root (hst : h.state = .popRdRootIssue ∨ h.state = .peekRdIssue ∨ h.state = .updateWrIssue) :
    h.memTargetPriv = true := by
  rcases hst with hst | hst | hst <;> simp [memTargetPriv, memIdx, isPrivate, privateNodes, hst]

theorem pop_advances (hi : h.Indexed cfg) (hcap : h.size ≤ 1024) (hst : h.state = .popLaunch ∨ h.state = .popRdRootIssue ∨
    h.state = .popRdRootWait ∨ h.state = .popRdLastIssue ∨ h.state = .popRdLastWait) : h.Advances cfg i := by
  have htake := fun h0 => h.takeLast_indices h0 hcap
  have hroot := h.memTargetPriv_root
  suffices hall : (h.step cfg i).Indexed cfg ∧ (h.stalled i = false → (h.step cfg i).rank < h.rank) ∧
      (i.virtRespReject = false → (h.step cfg i).rank ≤ h.rank) from ⟨hall.1, hall.2.1, hall.2.2⟩
  rcases hst with hst | hst | hst | hst | hst <;>
    simp only [Indexed, hst] at hi <;>
    simp only [step, nState, regs, issueTo, hst] <;> split_ifs <;>
    simp_all [Indexed, rank, stalled, virtReqValid, effectiveRead, memDoRead, memDoWrite] <;>
    omega

/-- The hole moves down to a child, whose own children have exact indices. -/
theorem descend_indices (hcap : h.size < 1024) (hl : h.leftIdx = 2 * h.targetIdx + 1)
    (hr : h.rightIdx = 2 * h.targetIdx + 2) (hb : h.best cfg ≠ .cur) (x : Node) :
    let h' := (h.cacheTarget x).descendTo (if h.best cfg = .left then h.leftIdx else h.rightIdx)
    h'.size = h.size ∧ h.targetIdx < h'.targetIdx ∧ h'.targetIdx < h.size ∧ h'.leftIdx = 2 * h'.targetIdx + 1 ∧
      h'.rightIdx = 2 * h'.targetIdx + 2 := by
  have hlt := best_lt hb
  have hgt : h.targetIdx < (if h.best cfg = .left then h.leftIdx else h.rightIdx) := by split <;> omega
  refine ⟨cacheTarget_size x, hgt, hlt, ?_, ?_⟩
  · exact Nat.mod_eq_of_lt (by omega)
  · exact Nat.mod_eq_of_lt (by omega)

theorem sift_advances (hi : h.Indexed cfg) (hst : h.state = .popSiftRdLeftIssue ∨ h.state = .popSiftRdLeftWait ∨
    h.state = .popSiftRdRightIssue ∨ h.state = .popSiftRdRightWait ∨ h.state = .popSiftWrFinalIssue ∨
    h.state = .popSiftWrFinalWait) : h.Advances cfg i := by
  suffices hall : (h.step cfg i).Indexed cfg ∧ (h.stalled i = false → (h.step cfg i).rank < h.rank) ∧
      (i.virtRespReject = false → (h.step cfg i).rank ≤ h.rank) from ⟨hall.1, hall.2.1, hall.2.2⟩
  rcases hst with hst | hst | hst | hst | hst | hst <;>
    simp only [Indexed, hst] at hi <;>
    simp only [step, nState, regs, issueTo, hst] <;> split_ifs <;>
    simp_all [Indexed, rank, stalled, virtReqValid, effectiveRead, memDoRead, memDoWrite]

/-- From the decision to the write the children and the hole stay. -/
theorem best_of_regs (h1 : h.inPopSift = true) (hr : h.regs cfg i = h) (h2 : (h.step cfg i).inPopSift = true) :
    (h.step cfg i).best cfg = h.best cfg := by
  refine best_step h1 h2 ?_ ?_ ?_ ?_ ?_ ?_ ?_ <;> simp [step, hr]

theorem siftWrite_advances (hi : h.Indexed cfg) (hst : h.state = .popSiftDecide ∨ h.state = .popSiftWrUpIssue ∨
    h.state = .popSiftWrUpWait) : h.Advances cfg i := by
  have hin : h.inPopSift = true := by rcases hst with hst | hst | hst <;> simp [inPopSift, hst]
  have hbest := @best_of_regs cfg h i hin
  suffices hall : (h.step cfg i).Indexed cfg ∧ (h.stalled i = false → (h.step cfg i).rank < h.rank) ∧
      (i.virtRespReject = false → (h.step cfg i).rank ≤ h.rank) from ⟨hall.1, hall.2.1, hall.2.2⟩
  rcases hst with hst | hst | hst <;> simp only [Indexed, hst] at hi
  · simp only [step, nState, regs, hst, inPopSift] at hbest ⊢
    split_ifs <;> simp_all [Indexed, rank]
  · simp only [step, nState, regs, issueTo, hst, inPopSift] at hbest ⊢
    split_ifs <;> simp_all [Indexed, rank, stalled, virtReqValid, effectiveRead, memDoRead, memDoWrite]
  · obtain ⟨hcap, hlt, hl, hr, hb⟩ := hi
    by_cases hd : h.writeDone i = true
    · obtain ⟨h1, h2, h3, h4, h5⟩ := descend_indices hcap hl hr hb (h.bestNode cfg)
      simp only [step, nState, regs, hst, hd, if_true, Indexed, rank, h1, h4, h5, and_true]
      refine ⟨⟨hcap, h3⟩, fun _ => ?_, fun _ => ?_⟩ <;> omega
    · simp only [step, nState, regs, hst, hd, inPopSift] at hbest ⊢
      split_ifs <;> simp_all [Indexed, rank, stalled]

theorem root_advances (hst : h.state = .peekRdIssue ∨ h.state = .peekRdWait ∨ h.state = .updateWrIssue ∨
    h.state = .updateWrWait) : h.Advances cfg i := by
  have hroot := h.memTargetPriv_root
  suffices hall : (h.step cfg i).Indexed cfg ∧ (h.stalled i = false → (h.step cfg i).rank < h.rank) ∧
      (i.virtRespReject = false → (h.step cfg i).rank ≤ h.rank) from ⟨hall.1, hall.2.1, hall.2.2⟩
  rcases hst with hst | hst | hst | hst <;>
    simp only [step, nState, regs, issueTo, hst] <;> split_ifs <;>
    simp_all [Indexed, rank, stalled]

/-- A command in progress keeps its indices and comes nearer to its end. -/
theorem Indexed.advances (hi : h.Indexed cfg) (hcap : h.size ≤ 1024) (h1 : h.state ≠ .idle) (h2 : h.state ≠ .done)
    (i : HeapIn) : h.Advances cfg i := by
  cases hst : h.state <;> first
    | exact absurd hst h1
    | exact absurd hst h2
    | refine push_advances hi ?_; simp [hst]; done
    | refine pop_advances hi hcap ?_; simp [hst]; done
    | refine sift_advances hi ?_; simp [hst]; done
    | refine siftWrite_advances hi ?_; simp [hst]; done
    | refine root_advances ?_; simp [hst]

theorem Indexed.start (h1 : h.state = .idle ∨ h.state = .done) (i : HeapIn) : (h.step cfg i).Indexed cfg := by
  rcases h1 with hst | hst
  · simp only [step, nState, regs, hst]
    by_cases hv : i.cmdValid = true
    · cases hop : i.cmdOp <;> simp only [hv, if_true] <;> try split_ifs
      all_goals simp_all [Indexed, parent]
    · simp only [hv]; trivial
  · simp only [step, nState, hst]; trivial

theorem Indexed.step (hi : h.Indexed cfg) (hcap : h.size ≤ 1024) (i : HeapIn) : (h.step cfg i).Indexed cfg := by
  by_cases h1 : h.state = .idle ∨ h.state = .done
  · exact Indexed.start h1 i
  · exact (hi.advances hcap (fun hc => h1 (.inl hc)) (fun hc => h1 (.inr hc)) i).indexed

end HeapFsm

end HftSim
