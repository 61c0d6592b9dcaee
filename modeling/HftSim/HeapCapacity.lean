import HftSim.HeapTrack
import HftSim.HeapRank
import HftSim.HeapSys

/-!
# A `POP` of a heap of any size

`MAX_NODES` is 1088, and the children of a node from 1023 on have indices that `IDX_WIDTH = 11` bits do
not hold. A `POP` takes the last leaf (`heading`) and sifts it down (`sifting`); with `Coherent`, what the node
cache is worth meanwhile, `Track` goes on to `S_DONE` or to a hole with a wrapped index. On an ideal memory
`effort` decreases in every cycle, so that one of the two is reached.
-/

namespace HftSim

open Function BinHeap

namespace HeapFsm

variable {cfg : HeapCfg} {h : HeapFsm} {i : HeapIn}

/-- A `POP` until it has the last leaf. -/
def heading (h : HeapFsm) : Bool :=
  match h.state with
  | .popLaunch | .popRdRootIssue | .popRdRootWait | .popRdLastIssue | .popRdLastWait => true
  | _ => false

/-- A `POP` on its way down with the last leaf. -/
def sifting (h : HeapFsm) : Bool :=
  h.inPopSift || decide (h.state = .popSiftWrFinalIssue) || decide (h.state = .popSiftWrFinalWait)

/-- The states of a `POP`. -/
theorem pop_cases (hp : h.heading = true ∨ h.sifting = true) :
    h.state = .popLaunch ∨
      (h.state = .popRdRootIssue ∨ h.state = .popRdRootWait ∨ h.state = .popRdLastIssue ∨
        h.state = .popRdLastWait) ∨
      (h.state = .popSiftRdLeftIssue ∨ h.state = .popSiftRdLeftWait ∨ h.state = .popSiftRdRightIssue ∨
        h.state = .popSiftRdRightWait ∨ h.state = .popSiftDecide) ∨
      h.state = .popSiftWrUpIssue ∨ h.state = .popSiftWrUpWait ∨ h.state = .popSiftWrFinalIssue ∨
        h.state = .popSiftWrFinalWait := by
  cases hst : h.state <;> simp [heading, sifting, inPopSift, hst] at hp ⊢

theorem heading_step (hh : h.heading = true) :
    ((h.step cfg i).heading = true ∧ (h.step cfg i).state ≠ .popLaunch) ∨ (h.step cfg i).sifting = true ∨
      (h.step cfg i).state = .done := by
  unfold heading at hh
  cases hst : h.state <;> simp only [hst] at hh <;> try cases hh
  all_goals
    simp only [heading, sifting, inPopSift, step, nState, issueTo, hst]
    split_ifs <;> simp

theorem sifting_step (hh : h.sifting = true) :
    (h.step cfg i).sifting = true ∨ (h.step cfg i).state = .done := by
  cases hst : h.state <;> simp only [sifting, inPopSift, hst] at hh <;> try cases hh
  all_goals
    simp only [sifting, inPopSift, step, nState, issueTo, hst]
    split_ifs <;> simp

/-- One cycle brings a command nearer to its end, unless the memory lets it wait. -/
def Nearer (cfg : HeapCfg) (h : HeapFsm) (i : HeapIn) : Prop :=
  (h.stalled i = false → (h.step cfg i).rank < h.rank) ∧
    (i.virtRespReject = false → (h.step cfg i).rank ≤ h.rank)

theorem nearer_head (hcap : h.size ≤ maxNodes) (h1 : 0 < h.size)
    (h2 : h.state = .popRdLastIssue ∨ h.state = .popRdLastWait → 2 ≤ h.size)
    (hst : h.state = .popRdRootIssue ∨ h.state = .popRdRootWait ∨ h.state = .popRdLastIssue ∨
      h.state = .popRdLastWait) : h.Nearer cfg i := by
  have htake : 2 ≤ h.size → ∀ x, (h.takeLast x).size = h.size - 1 := fun h2 x => by
    unfold maxNodes at hcap
    simp only [takeLast, sizeMinusOne]
    omega
  have hzero : ∀ x, (h.takeLast x).targetIdx = 0 := fun x => rfl
  have hroot := h.memTargetPriv_root
  unfold Nearer
  rcases hst with hst | hst | hst | hst <;>
    simp only [step, nState, regs, issueTo, hst] <;> split_ifs <;>
    simp_all [rank, stalled, virtReqValid, effectiveRead, memDoRead, memDoWrite] <;>
    omega

theorem nearer_read (hst : h.state = .popSiftRdLeftIssue ∨ h.state = .popSiftRdLeftWait ∨
    h.state = .popSiftRdRightIssue ∨ h.state = .popSiftRdRightWait ∨ h.state = .popSiftDecide ∨
    h.state = .popSiftWrUpIssue ∨ h.state = .popSiftWrFinalIssue ∨ h.state = .popSiftWrFinalWait) :
    h.Nearer cfg i := by
  unfold Nearer
  rcases hst with hst | hst | hst | hst | hst | hst | hst | hst <;>
    simp only [step, nState, regs, issueTo, hst] <;> split_ifs <;>
    simp_all [rank, stalled, virtReqValid, effectiveRead, memDoRead, memDoWrite]

theorem nearer_descend (hl : h.leftIdx = 2 * h.targetIdx + 1) (hr : h.rightIdx = 2 * h.targetIdx + 2)
    (hb : h.best cfg ≠ .cur) (hst : h.state = .popSiftWrUpWait) : h.Nearer cfg i := by
  have hlt := best_lt hb
  have hgt : h.targetIdx < (if h.best cfg = .left then h.leftIdx else h.rightIdx) := by split <;> omega
  unfold Nearer
  by_cases hd : h.writeDone i = true
  · simp only [step, nState, regs, hst, hd, if_true, rank, descendTo, cacheTarget_size]
    refine ⟨fun _ => ?_, fun _ => ?_⟩ <;> omega
  · simp only [step, nState, regs, hst, hd, if_false, Bool.false_eq_true]
    split_ifs <;> simp_all [rank, stalled]

end HeapFsm

namespace HeapView

variable {cfg : HeapCfg} {e : Nat} {i : HeapIn} {v v' : HeapView} {T : Shelf}

/-- What the cache holds during a `POP`: nodes as they are stored, but for the hole's. -/
structure Coherent (v : HeapView) : Prop where
  head : v.fsm.heading = true → v.fsm.size ≠ 0 → v.CacheOff 3 v.fsm.size
  root : v.fsm.state = .popRdRootIssue → v.fsm.nodeCacheValid 0 = false
  sift : v.fsm.sifting = true → v.CacheOff v.fsm.targetIdx v.fsm.size

theorem Coherent.sound (h : v.Coherent) (ht : v.Track cfg e T)
    (hp : v.fsm.heading = true ∨ v.fsm.sifting = true) : v.Sound where
  hit hrd hhit := by
    have h3 : v.fsm.memIdx < 3 := by
      by_contra hc
      simp only [HeapFsm.memIdxCached, hc, if_false] at hhit
      cases hhit
    cases hst : v.fsm.state <;> simp only [HeapFsm.memDoRead, hst] at hrd <;>
      simp only [HeapFsm.heading, HeapFsm.sifting, HeapFsm.inPopSift, hst] at hp <;>
      simp only [Track, hst] at ht <;> try cases hrd
    case popRdRootIssue =>
      have h0 := ht.1.pos
      exact (h.head (by simp [HeapFsm.heading, hst]) (by omega)).hit (by omega) hhit
    case popRdLastIssue =>
      exact (h.head (by simp [HeapFsm.heading, hst]) (by omega)).hit (by omega) hhit
    case popSiftRdLeftIssue =>
      refine (h.sift (by simp [HeapFsm.sifting, HeapFsm.inPopSift, hst])).hit ?_ hhit
      simp only [HeapFsm.memIdx, hst, ht.1.left]
      omega
    case popSiftRdRightIssue =>
      refine (h.sift (by simp [HeapFsm.sifting, HeapFsm.inPopSift, hst])).hit ?_ hhit
      simp only [HeapFsm.memIdx, hst, ht.1.right]
      omega
    all_goals simp at hp
  miss hst := by
    rcases hst with hst | hst
    · exact h.root hst
    · simp [HeapFsm.heading, HeapFsm.sifting, HeapFsm.inPopSift, hst] at hp

/-- The hole and the slots stay as they are, and nothing is written but to the hole. -/
theorem CacheOff.hole (h : v.CacheOff v.fsm.targetIdx v.fsm.size) (hc : v'.fsm.core = v.fsm.core)
    (hn : ∀ j, j ≠ v.fsm.targetIdx → v'.node j = v.node j) : v'.CacheOff v'.fsm.targetIdx v'.fsm.size := by
  have ht : v'.fsm.targetIdx = v.fsm.targetIdx := congrArg HeapFsm.Core.targetIdx hc
  have hsz : v'.fsm.size = v.fsm.size := congrArg HeapFsm.Core.size hc
  rw [ht, hsz]
  exact h.frame hc hn

theorem CacheOff.takeLast {x : Node} (h : v.CacheOff 3 v.fsm.size) (h2 : 2 ≤ v.fsm.size)
    (hcap : v.fsm.size ≤ maxNodes) (hn : v'.node = v.node) (hf : v'.fsm.core = (v.fsm.takeLast x).core) :
    v'.CacheOff v'.fsm.targetIdx v'.fsm.size := by
  have ht : v'.fsm.targetIdx = 0 := by
    simpa only [HeapFsm.core, HeapFsm.takeLast] using congrArg HeapFsm.Core.targetIdx hf
  have hsz : v'.fsm.size = v.fsm.size - 1 := by
    refine (congrArg HeapFsm.Core.size hf).trans ?_
    unfold maxNodes at hcap
    simp only [HeapFsm.core, HeapFsm.takeLast, HeapFsm.sizeMinusOne]
    omega
  have hnc : v'.fsm.nodeCache = v.fsm.nodeCache := by
    simpa only [HeapFsm.core, HeapFsm.takeLast] using congrArg HeapFsm.Core.nodeCache hf
  have hnv : v'.fsm.nodeCacheValid = (v.fsm.takeLast x).nodeCacheValid :=
    congrArg HeapFsm.Core.nodeCacheValid hf
  rw [ht, hsz]
  intro s hs3 hs0 hval
  rw [hnv] at hval
  simp only [HeapFsm.takeLast] at hval
  rw [if_neg hs0] at hval
  split_ifs at hval with h1 h2
  obtain ⟨hlt, heq⟩ := h s hs3 (by omega) hval
  exact ⟨by omega, by rw [hnc, hn, heq]⟩

theorem Coherent.of_done (hst : v.fsm.state = .done) : v.Coherent := by
  refine ⟨fun hc => ?_, fun hc => ?_, fun hc => ?_⟩ <;>
    simp [HeapFsm.heading, HeapFsm.sifting, HeapFsm.inPopSift, hst] at hc

theorem Coherent.of_sifting (hsift : v.fsm.sifting = true) (h : v.CacheOff v.fsm.targetIdx v.fsm.size) :
    v.Coherent := by
  refine ⟨fun hc => ?_, fun hc => ?_, fun _ => h⟩
  · cases hst : v.fsm.state <;> simp [HeapFsm.heading, HeapFsm.sifting, HeapFsm.inPopSift, hst] at hc hsift
  · simp [HeapFsm.sifting, HeapFsm.inPopSift, hc] at hsift

theorem Coherent.of_head (hst : v.fsm.state = .popRdRootWait ∨ v.fsm.state = .popRdLastIssue ∨
    v.fsm.state = .popRdLastWait) (h : v.CacheOff 3 v.fsm.size) : v.Coherent := by
  refine ⟨fun _ _ => h, fun hc => ?_, fun hc => ?_⟩
  · rw [hc] at hst
    simp at hst
  · rcases hst with hst | hst | hst <;> simp [HeapFsm.sifting, HeapFsm.inPopSift, hst] at hc

theorem coherent_popLaunch (h : v.Coherent) (ht : v.Track cfg e T) (hs : v.Step cfg i v')
    (hst : v.fsm.state = .popLaunch) : v'.Coherent := by
  simp only [Track, hst] at ht
  obtain ⟨hn, -⟩ := hs.node_eq (by simp [HeapFsm.memDoWrite, hst]) ht.1
  have hst' : v'.fsm.state =
      if v.fsm.size = 0 then .done
      else if v.fsm.nodeCacheValid 0 then (if v.fsm.size = 1 then .done else .popRdLastIssue)
      else .popRdRootIssue := by
    rw [hs.fsm]; simp only [HeapFsm.step, HeapFsm.nState, hst]
  by_cases hend : v.fsm.size = 1 ∧ v.fsm.nodeCacheValid 0 = true
  · rw [if_neg (by omega), if_pos hend.2, if_pos hend.1] at hst'
    exact .of_done hst'
  have hc : v'.fsm.core = v.fsm.core := by
    rw [hs.fsm]; simp only [HeapFsm.step, HeapFsm.core, HeapFsm.regs, hst, if_neg hend]
  have hsz : v'.fsm.size = v.fsm.size := congrArg HeapFsm.Core.size hc
  have hnv : v'.fsm.nodeCacheValid = v.fsm.nodeCacheValid := congrArg HeapFsm.Core.nodeCacheValid hc
  refine ⟨fun _ h0 => ?_, fun hr => ?_, fun hc => ?_⟩
  · rw [hsz] at h0 ⊢
    exact (h.head (by simp [HeapFsm.heading, hst]) h0).frame hc fun j _ => by rw [hn]
  · rw [hnv]
    by_contra hval
    rw [hst', if_pos (Bool.eq_true_of_not_eq_false hval)] at hr
    split_ifs at hr
  · exfalso
    simp only [HeapFsm.sifting, HeapFsm.inPopSift, hst'] at hc
    revert hc
    split_ifs <;> simp

/-- The states in which a `POP` reads the root and the last leaf. -/
theorem coherent_head (h : v.Coherent) (ht : v.Track cfg e T) (hs : v.Step cfg i v')
    (hst : v.fsm.state = .popRdRootIssue ∨ v.fsm.state = .popRdRootWait ∨ v.fsm.state = .popRdLastIssue ∨
      v.fsm.state = .popRdLastWait) : v'.Coherent := by
  have hcap := ht.cap
  have hw : v.fsm.memDoWrite = false := by
    rcases hst with hst | hst | hst | hst <;> simp [HeapFsm.memDoWrite, hst]
  have hhead : v.fsm.heading = true := by
    rcases hst with hst | hst | hst | hst <;> simp [HeapFsm.heading, hst]
  have hfacts : v.Quiet ∧ 0 < v.fsm.size := by
    rcases hst with hst | hst | hst | hst <;> simp only [Track, hst] at ht
    exacts [⟨ht.2, ht.1.pos⟩, ⟨ht.2.1, ht.1.pos⟩, ⟨ht.2.1, ht.1.pos⟩, ⟨ht.2.1.1, ht.1.pos⟩]
  have hoff := h.head hhead (by omega)
  obtain ⟨hn, -⟩ := hs.node_eq hw hfacts.1
  have hkeep : v'.fsm.nodeCache = v.fsm.nodeCache → v'.fsm.nodeCacheValid = v.fsm.nodeCacheValid →
      v'.fsm.size = v.fsm.size → v'.CacheOff 3 v'.fsm.size := fun hnc hnv hsz s hs3 hne hval => by
    rw [hnc, hn, hsz]
    exact hoff s hs3 hne (hnv ▸ hval)
  rcases hst with hst | hst | hst | hst
  · have hst' : v'.fsm.state = .popRdRootWait := by
      rw [hs.fsm]
      simp [HeapFsm.step, HeapFsm.nState, hst, HeapFsm.issueTo, HeapFsm.memTargetPriv, isPrivate,
        HeapFsm.memIdx, privateNodes]
    refine .of_head (.inl hst') (hkeep ?_ ?_ ?_) <;> rw [hs.fsm] <;> simp [HeapFsm.step, HeapFsm.regs, hst]
  · simp only [Track, hst] at ht
    obtain ⟨hd, -⟩ := ht.2.root_done hs
    by_cases h1 : v.fsm.size = 1
    · exact .of_done (by rw [hs.fsm]; simp [HeapFsm.step, HeapFsm.nState, hst, hd, h1])
    · refine .of_head (.inr (.inl ?_)) (hkeep ?_ ?_ ?_) <;> rw [hs.fsm] <;>
        simp [HeapFsm.step, HeapFsm.nState, HeapFsm.regs, hst, hd, h1]
  · simp only [Track, hst] at ht
    by_cases hhit : v.fsm.memIdxCached = true
    · refine .of_sifting ?_ (hoff.takeLast ht.2.2 hcap hn (x := v.fsm.memIdxCacheData) ?_) <;> rw [hs.fsm]
      · simp [HeapFsm.sifting, HeapFsm.inPopSift, HeapFsm.step, HeapFsm.nState, hst, hhit]
      · simp only [HeapFsm.step, HeapFsm.core, HeapFsm.regs, hst, hhit, if_true]
    · refine .of_head (.inr ?_) (hkeep ?_ ?_ ?_) <;> rw [hs.fsm]
      · simp only [HeapFsm.step, HeapFsm.nState, HeapFsm.issueTo, hst, if_neg hhit]
        split_ifs <;> simp
      all_goals simp [HeapFsm.step, HeapFsm.regs, hst, hhit]
  · simp only [Track, hst] at ht
    by_cases hd : v.fsm.readDone i = true
    · refine .of_sifting ?_ (hoff.takeLast ht.2.2 hcap hn (x := v.fsm.readData i) ?_) <;> rw [hs.fsm]
      · simp [HeapFsm.sifting, HeapFsm.inPopSift, HeapFsm.step, HeapFsm.nState, hst, hd]
      · simp only [HeapFsm.step, HeapFsm.core, HeapFsm.regs, hst, hd, if_true]
    · refine .of_head (.inr ?_) (hkeep ?_ ?_ ?_) <;> rw [hs.fsm]
      · simp only [HeapFsm.step, HeapFsm.nState, hst, if_neg hd]
        split_ifs <;> simp
      all_goals simp [HeapFsm.step, HeapFsm.regs, hst, hd]

/-- The states in which the sift reads the children and compares. -/
theorem coherent_read (h : v.Coherent) (ht : v.Track cfg e T) (hs : v.Step cfg i v')
    (hst : v.fsm.state = .popSiftRdLeftIssue ∨ v.fsm.state = .popSiftRdLeftWait ∨
      v.fsm.state = .popSiftRdRightIssue ∨ v.fsm.state = .popSiftRdRightWait ∨ v.fsm.state = .popSiftDecide) :
    v'.Coherent := by
  have hsift : v.fsm.sifting = true := by
    rcases hst with hst | hst | hst | hst | hst <;> simp [HeapFsm.sifting, HeapFsm.inPopSift, hst]
  have hw : v.fsm.memDoWrite = false := by
    rcases hst with hst | hst | hst | hst | hst <;> simp [HeapFsm.memDoWrite, hst]
  have hq : v.Quiet := by
    rcases hst with hst | hst | hst | hst | hst <;> simp only [Track, hst] at ht
    exacts [ht.2, ht.2.1.1, ht.2.1, ht.2.1.1, ht.2.1]
  have hc : v'.fsm.core = v.fsm.core := by
    rw [hs.fsm]
    rcases hst with hst | hst | hst | hst | hst <;> simp only [HeapFsm.step, HeapFsm.core, HeapFsm.regs, hst]
    all_goals split_ifs <;> rfl
  obtain ⟨hn, -⟩ := hs.node_eq hw hq
  have hstep := @HeapFsm.sifting_step cfg _ i hsift
  rw [← hs.fsm] at hstep
  rcases hstep with hsift' | hdone
  · exact .of_sifting hsift' ((h.sift hsift).hole hc fun j _ => by rw [hn])
  · exact .of_done hdone

theorem coherent_write (h : v.Coherent) (ht : v.Track cfg e T) (hs : v.Step cfg i v')
    (hst : v.fsm.state = .popSiftWrUpIssue ∨ v.fsm.state = .popSiftWrUpWait ∨
      v.fsm.state = .popSiftWrFinalIssue ∨ v.fsm.state = .popSiftWrFinalWait) : v'.Coherent := by
  have hsift : v.fsm.sifting = true := by
    rcases hst with hst | hst | hst | hst <;> simp [HeapFsm.sifting, HeapFsm.inPopSift, hst]
  have hoff := h.sift hsift
  have hstep := @HeapFsm.sifting_step cfg _ i hsift
  rw [← hs.fsm] at hstep
  rcases hstep with hsift' | hdone
  swap
  · exact .of_done hdone
  refine .of_sifting hsift' ?_
  rcases hst with hst | hst | hst | hst <;> simp only [Track, hst] at ht
  · obtain ⟨hc, -⟩ := step_regs_eq hs (by simp [HeapFsm.regs, hst])
    obtain ⟨hn, -⟩ := hs.write_issue (x := v.fsm.bestNode cfg) (by simp [HeapFsm.memDoWrite, hst])
      (by simp [HeapFsm.memIdx, hst]) (by simp [HeapFsm.memWdata, hst]) ht.1.target_max ht.2.1
    exact hoff.hole hc hn
  · rcases hs.write_wait (by simp [HeapFsm.memDoWrite, hst]) ht.2.1 ht.1.target_max with
      ⟨hd, hn, -, -⟩ | ⟨hd, -, hn, -⟩ | ⟨hd, -, hn, -⟩
    · -- the slot of the old hole follows the write
      have hf : v'.fsm.core = ((v.fsm.cacheTarget (v.fsm.bestNode cfg)).descendTo
          (if v.fsm.best cfg = .left then v.fsm.leftIdx else v.fsm.rightIdx)).core := by
        rw [hs.fsm]
        simp only [HeapFsm.step, HeapFsm.core, HeapFsm.regs, hst, hd, if_true]
      have hsz : v'.fsm.size = v.fsm.size :=
        (congrArg HeapFsm.Core.size hf).trans (HeapFsm.cacheTarget_size _)
      intro s hs3 _ hval
      rw [hsz]
      exact hoff.store ht.1.lt hn (congrArg HeapFsm.Core.nodeCache hf) (congrArg HeapFsm.Core.nodeCacheValid hf)
        s hs3 hval
    all_goals
      obtain ⟨hc, -⟩ := step_regs_eq hs (by simp [HeapFsm.regs, hst, hd])
      exact hoff.hole hc fun j _ => by rw [hn]
  · obtain ⟨hc, -⟩ := step_regs_eq hs (by simp [HeapFsm.regs, hst])
    obtain ⟨hn, -⟩ := hs.write_issue (x := v.fsm.curNode) (by simp [HeapFsm.memDoWrite, hst])
      (by simp [HeapFsm.memIdx, hst]) (by simp [HeapFsm.memWdata, hst]) ht.1.target_max ht.2.1
    exact hoff.hole hc hn
  · rcases hs.write_wait (by simp [HeapFsm.memDoWrite, hst]) ht.2.1 ht.1.target_max with
      ⟨hd, -, -, -⟩ | ⟨hd, -, hn, -⟩ | ⟨hd, -, hn, -⟩
    · have hst' : v'.fsm.state = .done := by
        rw [hs.fsm]; simp [HeapFsm.step, HeapFsm.nState, hst, hd]
      simp [HeapFsm.sifting, HeapFsm.inPopSift, hst'] at hsift'
    all_goals
      obtain ⟨hc, -⟩ := step_regs_eq hs (by simp [HeapFsm.regs, hst, hd])
      exact hoff.hole hc fun j _ => by rw [hn]

theorem Coherent.step (h : v.Coherent) (ht : v.Track cfg e T) (hs : v.Step cfg i v')
    (hp : v.fsm.heading = true ∨ v.fsm.sifting = true) : v'.Coherent := by
  rcases HeapFsm.pop_cases hp with hst | hst | hst | hst
  · exact coherent_popLaunch h ht hs hst
  · exact coherent_head h ht hs hst
  · exact coherent_read h ht hs hst
  · exact coherent_write h ht hs hst

/-! ### The end of a `POP` -/

/-- A `POP` on its way is one cycle nearer to its end. -/
theorem Track.nearer (ht : v.Track cfg e T) (hp : v.fsm.heading = true ∨ v.fsm.sifting = true) :
    v.fsm.Nearer cfg i := by
  have hcap := ht.cap
  rcases HeapFsm.pop_cases hp with hst | hst | hst | hst | hst | hst | hst
  · simp only [HeapFsm.Nearer, HeapFsm.step, HeapFsm.nState, HeapFsm.regs, hst]
    split_ifs <;> simp_all [HeapFsm.rank]
  · refine HeapFsm.nearer_head hcap ?_ (fun hlast => ?_) hst
    · rcases hst with hst | hst | hst | hst <;> simp only [Track, hst] at ht
      all_goals exact ht.1.pos
    · rcases hlast with hst | hst <;> simp only [Track, hst] at ht
      all_goals exact ht.2.2
  · refine HeapFsm.nearer_read ?_
    rcases hst with hst | hst | hst | hst | hst <;> simp [hst]
  · exact HeapFsm.nearer_read (by simp [hst])
  · simp only [Track, hst] at ht
    exact HeapFsm.nearer_descend ht.1.left ht.1.right ht.2.2.2 hst
  · exact HeapFsm.nearer_read (by simp [hst])
  · exact HeapFsm.nearer_read (by simp [hst])

/-- A memory that takes every request at once lets no `POP` wait. -/
theorem Track.not_stalled (ht : v.Track cfg e T) (hp : v.fsm.heading = true ∨ v.fsm.sifting = true)
    (hrdy : i.virtReqReady = true) (hnone : v.out = none) : v.fsm.stalled i = false := by
  have hread : ∀ idx, v.ReadWait idx → v.fsm.readDone i = true := fun idx hwait => by
    have h2 := hwait.2
    split_ifs at h2
    · simp [HeapFsm.readDone, h2.1]
    · obtain ⟨-, r, hr, -⟩ := h2
      rw [hnone] at hr
      cases hr
  have hwrite : ∀ idx x, v.WriteWait idx x → v.fsm.writeDone i = true := fun idx x hwait => by
    unfold WriteWait at hwait
    split_ifs at hwait
    · simp [HeapFsm.writeDone, hwait.1]
    · obtain ⟨-, r, hr, -⟩ := hwait
      rw [hnone] at hr
      cases hr
  cases hst : v.fsm.state <;> simp only [Track, hst] at ht <;> simp only [HeapFsm.stalled, hst]
  case popRdRootWait => rw [hread _ ht.2]; rfl
  case popRdLastWait => rw [hread _ ht.2.1]; rfl
  case popSiftRdLeftWait => rw [hread _ ht.2.1]; rfl
  case popSiftRdRightWait => rw [hread _ ht.2.1]; rfl
  case popSiftWrUpWait => rw [hwrite _ _ ht.2.1]; rfl
  case popSiftWrFinalWait => rw [hwrite _ _ ht.2.1]; rfl
  all_goals first
    | rw [hrdy, Bool.not_true, Bool.and_false]
    | simp [HeapFsm.heading, HeapFsm.sifting, HeapFsm.inPopSift, hst] at hp

/-- While the sift is on its way its indices are exact. -/
theorem Track.indices (ht : v.Track cfg e T) (hsift : v.fsm.inPopSift = true) :
    v.fsm.leftIdx = 2 * v.fsm.targetIdx + 1 ∧ v.fsm.rightIdx = 2 * v.fsm.targetIdx + 2 := by
  cases hst : v.fsm.state <;> simp only [HeapFsm.inPopSift, hst] at hsift <;> try cases hsift
  all_goals
    simp only [Track, hst] at ht
    exact ⟨ht.1.left, ht.1.right⟩

theorem Track.descends (ht : v.Track cfg e T) (hs : v.Step cfg i v') (hst : v.fsm.state = .popSiftWrUpWait)
    (hst' : v'.fsm.state = .popSiftRdLeftIssue) : v.fsm.targetIdx < v'.fsm.targetIdx := by
  simp only [Track, hst] at ht
  have hl := ht.1.left
  have hr := ht.1.right
  rw [hs.fsm] at hst' ⊢
  by_cases hd : v.fsm.writeDone i = true
  · simp only [HeapFsm.step, HeapFsm.regs, hst, hd, if_true, HeapFsm.descendTo]
    split <;> omega
  · simp only [HeapFsm.step, HeapFsm.nState, hst, if_neg hd] at hst'
    split_ifs at hst'

/-- A leaf that sinks has a heap of two nodes or more to sink in. -/
theorem Headed.deep (h : v.Headed cfg e T) (he : 0 < e) : 2 ≤ v.fsm.size := by
  have hrest := h.rest
  by_contra hc
  rw [siftEnd_stop (by unfold bestChild; rw [if_neg (by omega), if_neg (by omega)])] at hrest
  omega

/-- A `POP` whose leaf has to sink to cell 1023 or deeper does not come to `S_DONE` with exact indices. -/
theorem Track.not_done (ht : v.Track cfg e T) (hs : v.Step cfg i v')
    (hp : v.fsm.heading = true ∨ v.fsm.sifting = true) (h0 : v.fsm.state = .popLaunch → v.fsm.size ≠ 0)
    (he : 1023 ≤ e) : v'.fsm.state ≠ .done := by
  intro hdone
  rw [hs.fsm] at hdone
  rcases HeapFsm.pop_cases hp with hst | (hst | hst | hst | hst) | (hst | hst | hst | hst | hst) | hst | hst |
      hst | hst <;>
    simp only [Track, hst] at ht <;>
    simp only [HeapFsm.step, HeapFsm.nState, HeapFsm.issueTo, hst] at hdone
  · rw [if_neg (h0 hst)] at ht hdone
    have h2 := ht.2.deep (by omega)
    rw [if_neg (by omega : ¬ v.fsm.size = 1)] at hdone
    split_ifs at hdone
  · split_ifs at hdone
  · have h2 := ht.1.deep (by omega)
    rw [if_neg (by omega : ¬ v.fsm.size = 1)] at hdone
    split_ifs at hdone
  all_goals try split_ifs at hdone
  have hrest := ht.1.rest
  have hexact := ht.1.exact
  rw [siftEnd_stop ht.2.2] at hrest
  omega

end HeapView

/-! ### Runs -/

/-- The cycles of a `POP` on an ideal memory, which takes a request whenever it has none to answer, and
answers it in the next cycle. -/
structure IdealPop where
  cycle : Nat → HeapCycle
  valid : (cycle 0).cmdValid = true
  op : (cycle 0).cmdOp = .pop
  ready : ∀ k, (cycle k).port.ready = true
  answer : ∀ k, (cycle k).port.answer = some true

structure RestingHeap (cfg : HeapCfg) where
  sys : HeapSys
  idle : sys.fsm.state = .idle
  cap : sys.fsm.size ≤ maxNodes
  ord : Ordered cfg.kind.key (sys.node cfg) sys.fsm.size
  mapped : (sys.view cfg).Mapped sys.fsm.size
  cache : sys.fsm.size ≠ 0 → (sys.view cfg).CacheOff 3 sys.fsm.size
  quiet : (sys.view cfg).Quiet
  own : sys.OwnAddr cfg

namespace HeapSys

variable {cfg : HeapCfg} {e : Nat} {T : Shelf} {s : HeapSys} {c : HeapCycle}

/-- A `POP` on its way to `T`, its leaf on its way to cell `e`. -/
structure Going (cfg : HeapCfg) (e : Nat) (T : Shelf) (s : HeapSys) : Prop where
  own : s.OwnAddr cfg
  track : (s.view cfg).Track cfg e T
  coherent : (s.view cfg).Coherent
  pop : s.fsm.heading = true ∨ s.fsm.sifting = true
  launch : s.fsm.state = .popLaunch → s.fsm.size = 0 → e = 0

theorem Going.ne_done (h : s.Going cfg e T) : s.fsm.state ≠ .done := by
  intro hst
  have hp := h.pop
  simp [HeapFsm.heading, HeapFsm.sifting, HeapFsm.inPopSift, hst] at hp

theorem Going.step (h : s.Going cfg e T) (c : HeapCycle) :
    (s.step cfg c).Going cfg e T ∨
      ((s.step cfg c).fsm.state = .done ∧ ((s.step cfg c).view cfg).Track cfg e T) ∨
      1023 ≤ e ∧ ((s.step cfg c).view cfg).Wrapped := by
  obtain ⟨hown, ht, hc, hp, -⟩ := h
  have hs := hown.view_step c
  have hne : (s.view cfg).fsm.state ≠ .idle := fun hst => by
    have hst : s.fsm.state = .idle := hst
    simp [HeapFsm.heading, HeapFsm.sifting, HeapFsm.inPopSift, hst] at hp
  have hpk : (s.view cfg).fsm.state = .peekRdWait → (s.view cfg).fsm.savedOp = .update →
      (s.view cfg).fsm.size = 0 := fun hst _ => by
    have hst : s.fsm.state = .peekRdWait := hst
    simp [HeapFsm.heading, HeapFsm.sifting, HeapFsm.inPopSift, hst] at hp
  rcases ht.step hs (hc.sound ht hp) hne hpk with ht' | hw
  swap
  · exact .inr (.inr hw)
  have hnext : ((s.step cfg c).fsm.heading = true ∧ (s.step cfg c).fsm.state ≠ .popLaunch) ∨
      (s.step cfg c).fsm.sifting = true ∨ (s.step cfg c).fsm.state = .done := by
    rcases hp with hp | hp
    · exact HeapFsm.heading_step hp
    · exact .inr (HeapFsm.sifting_step hp)
  rcases hnext with ⟨hp', hlaunch⟩ | hp' | hdone
  · exact .inl ⟨hown.step c, ht', hc.step ht hs hp, .inl hp', fun hst => absurd hst hlaunch⟩
  · refine .inl ⟨hown.step c, ht', hc.step ht hs hp, .inr hp', fun hst => ?_⟩
    simp [HeapFsm.sifting, HeapFsm.inPopSift, hst] at hp'
  · exact .inr (.inl ⟨hdone, ht'⟩)

/-- How many cycles a `POP` may still take. -/
def effort (s : HeapSys) : Nat := 2 * s.fsm.rank + if s.port.out.isSome then 1 else 0

theorem Going.effort_lt (h : s.Going cfg e T) (hrdy : c.port.ready = true) (hans : c.port.answer = some true) :
    (s.step cfg c).effort < s.effort := by
  obtain ⟨hlt, hle⟩ : s.fsm.Nearer cfg (s.heapIn c) := h.track.nearer h.pop
  have hrank : (s.step cfg c).fsm.rank = (s.fsm.step cfg (s.heapIn c)).rank := rfl
  unfold effort
  cases hout : s.port.out with
  | none =>
    have hgo := hlt (h.track.not_stalled h.pop (by simp [heapIn, VirtPort.reqReady, hout, hrdy]) hout)
    rw [hrank]
    split <;> simp <;> omega
  | some r =>
    have hnone : (s.step cfg c).port.out = none := by
      simp only [HeapSys.step, VirtPort.step, hout, hans]
    have hgo := hle (by simp [heapIn, VirtPort.respReject, hans])
    rw [hrank, hnone]
    simp
    omega

end HeapSys

namespace RestingHeap

variable {cfg : HeapCfg} (H : RestingHeap cfg) (p : IdealPop)

/-- The node stored at index `j`. -/
def node (j : Nat) : Node := H.sys.node cfg j

def size : Nat := H.sys.fsm.size

/-- The heap after `k` cycles of the `POP`. -/
def after : Nat → HeapSys
  | 0 => H.sys
  | k + 1 => (after k).step cfg (p.cycle k)

/-- What a `POP` ought to do: the registers hold the indices of the hole's children, the hole goes down, `S_DONE`
is reached and the heap is left without its root, as a heap. No two nodes behind the port share an
address. -/
def PopsExactly : Prop :=
  (∃ n, (H.after p n).fsm.state = .done ∧
    (∀ k, k < n → (H.after p k).fsm.state ≠ .done) ∧
    (∀ k, k ≤ n → (H.after p k).fsm.inPopSift = true →
      (H.after p k).fsm.leftIdx = 2 * (H.after p k).fsm.targetIdx + 1 ∧
      (H.after p k).fsm.rightIdx = 2 * (H.after p k).fsm.targetIdx + 2) ∧
    (∀ k, k < n → (H.after p k).fsm.state = .popSiftWrUpWait →
      (H.after p (k + 1)).fsm.state = .popSiftRdLeftIssue →
      (H.after p k).fsm.targetIdx < (H.after p (k + 1)).fsm.targetIdx) ∧
    (H.after p n).fsm.size = H.size - 1 ∧
    Ordered cfg.kind.key ((H.after p n).node cfg) (H.size - 1) ∧
    (H.size ≠ 0 → H.node 0 ::ₘ contents ((H.after p n).node cfg) (H.size - 1) = contents H.node H.size)) ∧
  ∀ i j, i < maxNodes → j < maxNodes → isPrivate i = false → isPrivate j = false →
    makeVa cfg i = makeVa cfg j → i = j

/-- Whoever goes down from the root, to the better child each time, and past the nodes that rank ahead of the last
leaf only, does not come to index 1023. -/
def Shallow : Prop :=
  ∀ c, BestLine (aWins cfg.kind) H.node (H.size - 1) c →
    aWins cfg.kind (H.node c) (H.node (H.size - 1)) = true → c < 1023

/-- The cell where the last leaf belongs once the root has left. -/
def leafCell : Nat := siftEnd (aWins cfg.kind) H.node (H.node (H.size - 1)) (H.size - 1) 0

/-- The heap as its commands define it. -/
def shelf : Shelf := ⟨H.node, H.size, false, none⟩

variable {H p}

theorem shallow_iff : H.Shallow ↔ H.leafCell < 1023 := by
  have ho : Ordered cfg.kind.key H.node (H.size - 1) := fun j h0 hj =>
    H.ord j h0 (Nat.lt_of_lt_of_le hj (Nat.sub_le _ _))
  have hiff := le_siftEnd_iff (x := H.node (H.size - 1)) (aWins_iff cfg.kind) ho (k := 1023) (by omega)
  constructor
  · intro h
    by_contra hge
    obtain ⟨c, hc, hline, hlose⟩ := hiff.1 (Nat.le_of_not_lt hge)
    have := h c hline hlose
    omega
  · intro h c hline hlose
    by_contra hge
    have hle : 1023 ≤ H.leafCell := hiff.2 ⟨c, Nat.le_of_not_lt hge, hline, hlose⟩
    omega

theorem going_launch {c : HeapCycle} (hv : c.cmdValid = true) (hop : c.cmdOp = .pop) :
    (H.sys.step cfg c).Going cfg H.leafCell (H.shelf.exec cfg.kind (.pop, c.cmdDataIn)) := by
  have hs := H.own.view_step c
  have hidle : (H.sys.view cfg).fsm.state = .idle := H.idle
  have hv : (H.sys.heapIn c).cmdValid = true := hv
  have hop : (H.sys.heapIn c).cmdOp = .pop := hop
  obtain ⟨hn, -⟩ := hs.node_eq (by simp [HeapFsm.memDoWrite, hidle]) H.quiet
  have hstill : (H.sys.view cfg).Still H.shelf := ⟨H.cap, H.mapped, rfl, fun j _ => rfl⟩
  have hst' : ((H.sys.step cfg c).view cfg).fsm.state = .popLaunch := by
    rw [hs.fsm]; simp [HeapFsm.step, HeapFsm.nState, hidle, hv, hop]
  have hregs : ((H.sys.step cfg c).view cfg).fsm.size = (H.sys.view cfg).fsm.size ∧
      ((H.sys.step cfg c).view cfg).fsm.nodeCache = (H.sys.view cfg).fsm.nodeCache ∧
      ((H.sys.step cfg c).view cfg).fsm.nodeCacheValid = (H.sys.view cfg).fsm.nodeCacheValid := by
    rw [hs.fsm]; simp [HeapFsm.step, HeapFsm.regs, hidle, hv, hop]
  obtain ⟨hsz, hnc, hnv⟩ := hregs
  refine ⟨H.own.step c, hstill.accept_pop hs hidle hv H.quiet hop rfl, ⟨fun _ h0 => ?_, fun hc => ?_, fun hc => ?_⟩,
    .inl ?_, fun _ h0 => ?_⟩
  · rw [hsz] at h0 ⊢
    intro t ht3 hne hval
    rw [hn, hnc]
    exact H.cache h0 t ht3 hne (hnv ▸ hval)
  · rw [hst'] at hc
    cases hc
  · simp [HeapFsm.sifting, HeapFsm.inPopSift, hst'] at hc
  · have hst : (H.sys.step cfg c).fsm.state = .popLaunch := hst'
    simp [HeapFsm.heading, hst]
  · have hzero : H.size = 0 := hsz.symm.trans h0
    unfold leafCell
    rw [siftEnd_stop (by unfold bestChild; rw [if_neg (by omega), if_neg (by omega)])]

/-- A `POP` on its way, whose leaf belongs to a cell below 1023, comes to its end. -/
theorem reaches_done {T : Shelf} (he : H.leafCell < 1023) (m : Nat) :
    ∀ k, (H.after p k).effort ≤ m → (H.after p k).Going cfg H.leafCell T →
      ∃ n, k < n ∧ (H.after p n).fsm.state = .done ∧ ((H.after p n).view cfg).Track cfg H.leafCell T ∧
        ∀ j, k ≤ j → j < n → (H.after p j).Going cfg H.leafCell T := by
  induction m with
  | zero =>
    intro k hm hg
    have hlt := hg.effort_lt (p.ready k) (p.answer k)
    omega
  | succ m ih =>
    intro k hm hg
    have hlt := hg.effort_lt (p.ready k) (p.answer k)
    rcases hg.step (p.cycle k) with hg' | ⟨hdone, ht'⟩ | ⟨hge, -⟩
    · obtain ⟨n, hkn, hdone, ht', hall⟩ := ih (k + 1) (by show ((H.after p k).step cfg _).effort ≤ m; omega) hg'
      refine ⟨n, by omega, hdone, ht', fun j hkj hjn => ?_⟩
      rcases Nat.eq_or_lt_of_le hkj with rfl | hlt
      · exact hg
      · exact hall j hlt hjn
    · refine ⟨k + 1, by omega, hdone, ht', fun j hkj hjn => ?_⟩
      rw [show j = k by omega]
      exact hg
    · omega

theorem shelf_pop (d : Node) :
    Ordered cfg.kind.key (H.shelf.exec cfg.kind (.pop, d)).nodes (H.size - 1) ∧
      (H.size ≠ 0 → H.node 0 ::ₘ contents (H.shelf.exec cfg.kind (.pop, d)).nodes (H.size - 1) =
        contents H.node H.size) := by
  rcases hn : H.size with _ | n
  · exact ⟨fun j _ hj => absurd hj (Nat.not_lt_zero j), fun hc => absurd rfl hc⟩
  have hnodes : (H.shelf.exec cfg.kind (.pop, d)).nodes =
      siftDown (aWins cfg.kind) H.node (H.node n) n 0 := by
    simp [Shelf.exec, shelf, hn]
  have hord : Ordered cfg.kind.key H.node (n + 1) := hn ▸ H.ord
  obtain ⟨h1, h2⟩ := siftDown_pop (aWins_iff cfg.kind) hord
  rw [hnodes]
  exact ⟨h1, fun _ => h2⟩

theorem makeVa_inj {i j : Nat} (hi : i < maxNodes) (hj : j < maxNodes) (hpi : isPrivate i = false)
    (hpj : isPrivate j = false) (h : makeVa cfg i = makeVa cfg j) : i = j := by
  have hi' : privateNodes ≤ i := Nat.not_lt.1 (of_decide_eq_false hpi)
  have hj' : privateNodes ≤ j := Nat.not_lt.1 (of_decide_eq_false hpj)
  have h1 := makeVa_mod cfg hi' hi
  rw [h, makeVa_mod cfg hj' hj] at h1
  omega

/-- Below cell 1023 the indices are exact and a `POP` does what it ought to. -/
theorem popsExactly_of_lt (he : H.leafCell < 1023) : H.PopsExactly p := by
  obtain ⟨n, hn, hdone, ht, hall⟩ := reaches_done (p := p) he _ 1 (Nat.le_refl _)
    (going_launch p.valid p.op)
  have hgo : ∀ k, 0 < k → k < n → (H.after p k).Going cfg H.leafCell
      (H.shelf.exec cfg.kind (.pop, (p.cycle 0).cmdDataIn)) := hall
  have hidle : (H.after p 0).fsm.state = .idle := H.idle
  have hdone' : ((H.after p n).view cfg).fsm.state = .done := hdone
  simp only [HeapView.Track, hdone'] at ht
  have hsize : (H.after p n).fsm.size = H.size - 1 := by
    refine ht.1.size.symm.trans ?_
    by_cases h0 : H.size = 0 <;> simp [Shelf.exec, shelf, h0]
  have hcell : ∀ j, j < H.size - 1 → (H.after p n).node cfg j =
      (H.shelf.exec cfg.kind (.pop, (p.cycle 0).cmdDataIn)).nodes j := fun j hj =>
    ht.1.nodes j (hsize.symm ▸ hj)
  obtain ⟨hord, hcont⟩ := H.shelf_pop (p.cycle 0).cmdDataIn
  refine ⟨⟨n, hdone, fun k hk => ?_, fun k hk hsift => ?_, fun k hk hst hst' => ?_, hsize, hord.congr hcell, fun h0 => ?_⟩,
    fun i j => makeVa_inj⟩
  · rcases Nat.eq_zero_or_pos k with rfl | hpos
    · rw [hidle]; decide
    · exact (hgo k hpos hk).ne_done
  · rcases Nat.eq_zero_or_pos k with rfl | hpos
    · simp [HeapFsm.inPopSift, hidle] at hsift
    rcases Nat.eq_or_lt_of_le hk with rfl | hlt
    · simp [HeapFsm.inPopSift, hdone] at hsift
    · exact (hgo k hpos hlt).track.indices hsift
  · rcases Nat.eq_zero_or_pos k with rfl | hpos
    · rw [hidle] at hst; cases hst
    · have hg := hgo k hpos hk
      exact hg.track.descends (hg.own.view_step (p.cycle k)) hst hst'
  · rw [contents_congr hcell]
    exact hcont h0

theorem not_popsExactly_of_le (he : 1023 ≤ H.leafCell) : ¬ H.PopsExactly p := by
  rintro ⟨⟨n, hdone, -, hexact, -⟩, -⟩
  have hidle : (H.after p 0).fsm.state = .idle := H.idle
  have hgo : ∀ k, k < n → (H.after p (k + 1)).Going cfg H.leafCell
      (H.shelf.exec cfg.kind (.pop, (p.cycle 0).cmdDataIn)) := by
    intro k
    induction k with
    | zero => exact fun _ => going_launch p.valid p.op
    | succ k ih =>
      intro hk
      have hg := ih (by omega)
      rcases hg.step (p.cycle (k + 1)) with hg' | ⟨hst, -⟩ | ⟨-, hst, hwrap⟩
      · exact hg'
      · refine absurd hst (hg.track.not_done (hg.own.view_step _) hg.pop (fun hl h0 => ?_) he)
        have := hg.launch hl h0
        omega
      · have hst : (H.after p (k + 2)).fsm.state = .popSiftRdLeftIssue := hst
        exact absurd (hexact (k + 2) hk (by simp [HeapFsm.inPopSift, hst])).2 hwrap
  rcases n with _ | n
  · rw [hidle] at hdone; cases hdone
  · exact (hgo n (by omega)).ne_done hdone

/-- A heap of at most 1024 nodes has no leaf that sinks to index 1023. -/
theorem shallow_of_le (h : H.size ≤ 1024) : H.Shallow := by
  intro c hline _
  cases hline with
  | root => omega
  | left => omega
  | right => omega

/-- A `POP` on an ideal memory is exact if and only if the leaf it moves does not have to sink to index 1023. -/
theorem pop_exact_iff (H : RestingHeap cfg) (p : IdealPop) : H.PopsExactly p ↔ H.Shallow := by
  rw [shallow_iff]
  constructor
  · intro h
    by_contra hge
    exact not_popsExactly_of_le (Nat.le_of_not_lt hge) h
  · exact popsExactly_of_lt

/-! ### A heap of 1026 bids -/

/-- The way from the root down to index 1024. -/
def line : List Nat := [0, 1, 3, 7, 15, 31, 63, 127, 255, 511, 1024]

def linePrice (j : Nat) : Nat := if j ∈ line then 3 else if j = 1025 then 1 else 2

/-- A bid for one share, the best price along `line` and the worst in the last leaf, received in the order of the
indices. -/
def bid (j : Nat) : Node :=
  packOrder (1#1 ++ BitVec.ofNat 16 (linePrice j) ++ 1#15) 0 (BitVec.ofNat 32 j)

theorem line_parent {j : Nat} (h : j ∈ line) : parent j ∈ line := by
  simp only [line, List.mem_cons, List.not_mem_nil, or_false] at h
  rcases h with rfl | rfl | rfl | rfl | rfl | rfl | rfl | rfl | rfl | rfl | rfl <;> decide

theorem linePrice_parent {j : Nat} (h0 : 0 < j) (hj : j < 1026) : linePrice j ≤ linePrice (parent j) := by
  have hp : parent j ≠ 1025 := by have := parent_lt h0; omega
  by_cases hline : j ∈ line
  · simp [linePrice, hline, line_parent hline]
  · unfold linePrice
    split_ifs <;> omega

theorem orderPrice_bid (j : Nat) : (orderPrice (bid j)).toNat = linePrice j := by
  have hprice : linePrice j = 1 ∨ linePrice j = 2 ∨ linePrice j = 3 := by
    unfold linePrice
    split_ifs <;> simp
  rw [bid, orderPrice_packOrder]
  rcases hprice with h | h | h <;> rw [h] <;> decide

theorem key_bid {j : Nat} (hj : j < 2 ^ 32) :
    HeapKind.maxHeap.key (bid j) = (2 ^ 16 - 1 - linePrice j) * 2 ^ 32 + j := by
  have hts : (orderTs (bid j)).toNat = j := by
    rw [bid, orderTs_packOrder, BitVec.toNat_ofNat, Nat.mod_eq_of_lt hj]
  simp only [HeapKind.key, orderPrice_bid, hts]

theorem bid_ordered : Ordered HeapKind.maxHeap.key bid 1026 := by
  intro j h0 hj
  have hprice := linePrice_parent h0 hj
  have hpar := parent_lt h0
  rw [key_bid (by omega), key_bid (by omega)]
  exact Nat.add_le_add (Nat.mul_le_mul_right _ (by omega)) (by omega)

def bidSys : HeapSys where
  fsm := { HeapFsm.reset with size := 1026, nodeCache := bid, nodeCacheValid := fun s => decide (s < 3) }
  bram := ⟨bid, 0⟩
  port := ⟨fun va => some (bid (va + 64)), none⟩

theorem node_bidSys {j : Nat} (hj : j < 1026) : bidSys.node ⟨.maxHeap, 0⟩ j = bid j := by
  simp only [HeapSys.node, HeapSys.view, HeapView.node, bidSys, VirtPort.slice, HeapCfg.base, HeapKind.bit,
    privateNodes, maxNodes]
  by_cases hp : j < 64
  · rw [if_pos hp]
  · rw [if_neg hp, if_pos (by omega), if_pos (by omega), Option.getD_some]
    congr 1
    omega

theorem bidSys_mapped : (bidSys.view ⟨.maxHeap, 0⟩).Mapped bidSys.fsm.size := by
  intro j hj
  have hj : 64 + j < 1026 := hj
  simp only [HeapSys.view, bidSys, VirtPort.slice]
  rw [if_pos (by omega)]
  rfl

theorem bidSys_cache : (bidSys.view ⟨.maxHeap, 0⟩).CacheOff 3 bidSys.fsm.size := by
  intro s hs _ _
  have hlt : s < 1026 := by omega
  exact ⟨hlt, (node_bidSys hlt).symm⟩

def bids : RestingHeap ⟨.maxHeap, 0⟩ where
  sys := bidSys
  idle := rfl
  cap := by decide
  ord := bid_ordered.congr fun j hj => node_bidSys hj
  mapped := bidSys_mapped
  cache _ := bidSys_cache
  quiet r hr := by cases hr
  own r hr := by cases hr

/-- A `POP` on an ideal memory. -/
def idealPop : IdealPop where
  cycle _ := ⟨true, .pop, 0, true, some true, 0⟩
  valid := rfl
  op := rfl
  ready _ := rfl
  answer _ := rfl

/-- The last bid has to sink to index 1024, whose children would be 2049 and 2050. -/
theorem bids_wrap : ¬ bids.PopsExactly idealPop := by
  have hbid : ∀ {j}, j < 1026 → bids.node j = bid j := fun hj => node_bidSys hj
  have hleft : ∀ t, BestLine (aWins .maxHeap) bids.node 1025 t → 2 * t + 2 < 1025 →
      aWins .maxHeap (bid (2 * t + 2)) (bid (2 * t + 1)) = false →
      BestLine (aWins .maxHeap) bids.node 1025 (2 * t + 1) := fun t h ht hb =>
    h.left (by omega) fun _ => by rw [hbid (by omega), hbid (by omega)]; exact hb
  have h7 := hleft 3 (hleft 1 (hleft 0 .root (by decide) (by decide)) (by decide) (by decide)) (by decide) (by decide)
  have h63 := hleft 31 (hleft 15 (hleft 7 h7 (by decide) (by decide)) (by decide) (by decide)) (by decide) (by decide)
  have h511 := hleft 255 (hleft 127 (hleft 63 h63 (by decide) (by decide)) (by decide) (by decide)) (by decide)
    (by decide)
  have h1024 : BestLine (aWins .maxHeap) bids.node 1025 1024 :=
    .right h511 (by omega) (by rw [hbid (by omega), hbid (by omega)]; decide)
  refine not_popsExactly_of_le (Nat.le_of_not_lt fun hlt => ?_)
  have := shallow_iff.2 hlt 1024 h1024 (by rw [hbid (by omega)]; decide)
  omega

end RestingHeap

end HftSim
