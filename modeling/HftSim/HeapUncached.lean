import HftSim.HeapSys
import HftSim.HeapTrack

/-!
# The top-3 node cache changes nothing

`HeapFsm.stepUncached` is the machine without the cache: `node_cache_valid` reads as 0 in every cycle,
so each access goes to memory. A `POP` then reads the root in `S_POP_RD_ROOT`, a `PEEK` in
`S_PEEK_RD`; an `UPDATE`, which `heap_fsm` answers from slot 0, reads the root in the same states
as a `PEEK` and compares the keys there. Both machines are on their way to the same `Shelf` in every state
(`HeapView.Track`), whatever the two memories do, so they agree whenever both have finished the same
commands.

What the cache holds is tied to memory by the heap invariant, slot 0 of an empty heap apart: a
`PEEK` of an empty heap fills it. `Slot0` covers that case.
-/

namespace HftSim

open Function BinHeap

namespace HeapFsm

/-- `node_cache_valid` tied to 0. -/
def blind (h : HeapFsm) : HeapFsm := { h with nodeCacheValid := fun _ => false }

/-- One clock edge of the machine without the cache. -/
def stepUncached (cfg : HeapCfg) (h : HeapFsm) (i : HeapIn) : HeapFsm :=
  match h.state with
  | .idle =>
    if i.cmdValid = true ∧ i.cmdOp = .update then { h.blind.step cfg i with state := .peekRdIssue }
    else h.blind.step cfg i
  | .peekRdWait =>
    if h.savedOp = .update ∧ h.readDone i = true ∧ sameKeys h.savedOpData (h.readData i) = true then
      { h.blind.step cfg i with state := .updateWrIssue }
    else h.blind.step cfg i
  | _ => h.blind.step cfg i

def AtRest (h : HeapFsm) : Prop := h.state = .idle ∨ h.state = .done

/-- Slot `k` is looked at: by the read in progress, or, slot 0, by a command that is accepted or
launched and by `cmd_root_out`. -/
def Consults (h : HeapFsm) (k : Nat) : Prop :=
  h.memDoRead = true ∧ h.memIdx = k ∨ k = 0 ∧ (h.state = .idle ∨ h.state = .popLaunch ∨ h.state = .done)

end HeapFsm

namespace HeapView

/-- The `popped_root` of `T`: in the register, or still at the root that is being read. -/
def Rooted (T : Shelf) (v : HeapView) : Prop :=
  ∀ r, T.popped = some r →
    match v.fsm.state with
    | .popLaunch =>
      if v.fsm.size = 0 ∨ v.fsm.nodeCacheValid 0 = true then v.fsm.poppedRoot = r else v.node 0 = r
    | .popRdRootIssue | .popRdRootWait => v.node 0 = r
    | _ => v.fsm.poppedRoot = r

/-- Slot 0 of the cache while the heap is empty: valid only after a `PEEK`. -/
structure Slot0 (T : Shelf) (v : HeapView) : Prop where
  mirror : v.fsm.state = .idle ∨ v.fsm.state = .done ∨ v.fsm.state = .popLaunch → v.fsm.size = 0 →
    v.fsm.nodeCacheValid 0 = true → v.fsm.nodeCache 0 = v.node 0 ∧ T.peeked = true
  peek : v.fsm.state = .peekRdIssue ∨ v.fsm.state = .peekRdWait → T.peeked = true
  upd : v.fsm.state = .updateWrIssue ∨ v.fsm.state = .updateWrWait → v.fsm.size = 0 → T.peeked = true

variable {cfg : HeapCfg} {e : Nat} {i : HeapIn} {v v' : HeapView} {T : Shelf} {m : Multiset Node}

/-- The heap invariant keeps every consulted slot in step with memory. -/
theorem Phase.consults (h : v.Phase cfg m) (h0 : v.Slot0 T) {k : Nat} (hk : k < 3) (hc : v.fsm.Consults k)
    (hval : v.fsm.nodeCacheValid k = true) : v.fsm.nodeCache k = v.node k := by
  rcases hc with ⟨hrd, hidx⟩ | ⟨rfl, hst⟩
  · cases hst : v.fsm.state <;> simp only [HeapFsm.memDoRead, hst, Bool.false_eq_true] at hrd <;>
      simp only [Phase, hst] at h <;> simp only [HeapFsm.memIdx, hst] at hidx
    case pushRdParentIssue =>
      have := h.1.parent_lt h.2.2
      exact (h.1.cache k hk (by omega) hval).2
    case popRdLastIssue =>
      have := h.1.rest.cap
      have := h.2
      simp only [HeapFsm.sizeMinusOne] at hidx
      exact (h.1.rest.cache k hk (by omega) hval).2
    case popSiftRdLeftIssue =>
      have := h.1.left
      exact (h.1.cache k hk (by omega) hval).2
    case popSiftRdRightIssue =>
      have := h.1.right
      exact (h.1.cache k hk (by omega) hval).2
    case peekRdIssue =>
      rw [← hidx, h.2.2] at hval; cases hval
  · rcases Nat.eq_zero_or_pos v.fsm.size with hz | hpos
    · exact (h0.mirror (by rcases hst with h | h | h <;> simp [h]) hz hval).1
    · rcases hst with hst | hst | hst <;> simp only [Phase, hst] at h
      · exact (h.root hpos).2
      · rw [if_neg (Nat.ne_of_gt hpos)] at h
        exact (h.rest.root hpos).2
      · exact (h.root hpos).2

/-- The cache of `heap_fsm` is sound. -/
theorem Phase.sound (h : v.Phase cfg m) (h0 : v.Slot0 T) : v.Sound where
  hit hrd hc := by
    unfold HeapFsm.memIdxCached at hc
    unfold HeapFsm.memIdxCacheData
    split at hc
    · rename_i h3
      rw [if_pos h3]
      exact h.consults h0 h3 (.inl ⟨hrd, rfl⟩) hc
    · cases hc
  miss hst := by
    rcases hst with hst | hst <;> simp only [Phase, hst] at h
    exact h.2.2

theorem sound_blind (v : HeapView) : HeapView.Sound { v with fsm := v.fsm.blind } where
  hit _ hc := by
    unfold HeapFsm.memIdxCached HeapFsm.blind at hc
    split at hc <;> cases hc
  miss _ := rfl

/-! ### `popped_root` -/

/-- `S_POP_LAUNCH` is entered from `S_IDLE` only. -/
theorem Step.no_launch (hs : v.Step cfg i v') (hne : v.fsm.state ≠ .idle) : v'.fsm.state ≠ .popLaunch := by
  rw [hs.fsm]
  simp only [HeapFsm.step, HeapFsm.nState, HeapFsm.issueTo]
  cases hst : v.fsm.state <;> simp only [] <;> try split_ifs
  all_goals simp_all

theorem Rooted.step (h : v.Rooted T) (ht : v.Track cfg e T) (hs : v.Step cfg i v') (hne : v.fsm.state ≠ .idle) :
    v'.Rooted T := by
  intro r hr
  have hpop := hs.no_launch hne
  have hold := h r hr
  by_cases hl : v.fsm.state = .popLaunch
  · simp only [hl] at hold
    simp only [Track, hl] at ht
    obtain ⟨hn, -⟩ := hs.node_eq (by simp [HeapFsm.memDoWrite, hl]) ht.1
    obtain ⟨-, hp⟩ := saved_eq hs hne (by rw [hl]; decide)
    have hst' : v'.fsm.state = if v.fsm.size = 0 then .done
        else if v.fsm.nodeCacheValid 0 then if v.fsm.size = 1 then .done else .popRdLastIssue
        else .popRdRootIssue := by
      rw [hs.fsm]; simp [HeapFsm.step, HeapFsm.nState, hl]
    rw [hst']
    split_ifs at hold ⊢ <;> simp_all
  by_cases hi : v.fsm.state = .popRdRootIssue
  · simp only [hi] at hold
    simp only [Track, hi] at ht
    obtain ⟨hn, -⟩ := hs.node_eq (by simp [HeapFsm.memDoWrite, hi]) ht.2
    have hst' : v'.fsm.state = .popRdRootWait := by
      rw [hs.fsm]
      simp [HeapFsm.step, HeapFsm.nState, hi, HeapFsm.issueTo, HeapFsm.memTargetPriv, isPrivate, HeapFsm.memIdx,
        privateNodes]
    simpa only [hst', hn] using hold
  by_cases hw : v.fsm.state = .popRdRootWait
  · simp only [hw] at hold
    simp only [Track, hw] at ht
    obtain ⟨hd, hdata⟩ := ht.2.root_done hs
    have hst' : v'.fsm.state = if v.fsm.size = 1 then .done else .popRdLastIssue := by
      rw [hs.fsm]; simp [HeapFsm.step, HeapFsm.nState, hw, hd]
    have hp : v'.fsm.poppedRoot = v.node 0 := by
      rw [hs.fsm, ← hdata]
      simp only [HeapFsm.step, HeapFsm.regs, hw, hd, if_true]
      split <;> rfl
    rw [hst', hp]
    split_ifs <;> exact hold
  · obtain ⟨-, hp⟩ := saved_eq hs hne hw
    have hno : v'.fsm.state ≠ .popRdRootIssue ∧ v'.fsm.state ≠ .popRdRootWait := by
      rw [hs.fsm]
      simp only [HeapFsm.step, HeapFsm.nState, HeapFsm.issueTo]
      cases hst : v.fsm.state <;> simp only [] <;> try split_ifs
      all_goals simp_all
    have hkeep : v.fsm.poppedRoot = r := by cases hst : v.fsm.state <;> simp_all
    rw [hp, hkeep]
    cases hst' : v'.fsm.state <;> simp_all

/-! ### Slot 0 of an empty heap -/

/-- The states `Slot0` speaks about. -/
def Looks (v : HeapView) : Prop :=
  v.fsm.state = .idle ∨ v.fsm.state = .done ∨ v.fsm.state = .popLaunch ∨ v.fsm.state = .peekRdIssue ∨
    v.fsm.state = .peekRdWait ∨ v.fsm.state = .updateWrIssue ∨ v.fsm.state = .updateWrWait

theorem Slot0.of_not_looks (h : ¬ v.Looks) : v.Slot0 T := by
  unfold Looks at h
  constructor
  · rintro (hst | hst | hst) <;> simp [hst] at h
  · rintro (hst | hst) <;> simp [hst] at h
  · rintro (hst | hst) <;> simp [hst] at h

theorem Slot0.of_pos (h : 0 < v.fsm.size) (hst : v.fsm.state ≠ .peekRdIssue ∧ v.fsm.state ≠ .peekRdWait) :
    v.Slot0 T := by
  refine ⟨fun _ hz => by omega, ?_, fun _ hz => by omega⟩
  rintro (hc | hc)
  exacts [absurd hc hst.1, absurd hc hst.2]

theorem Slot0.of_rest (hst : v.fsm.state = .idle ∨ v.fsm.state = .done ∨ v.fsm.state = .popLaunch)
    (h : v.fsm.size = 0 → v.fsm.nodeCacheValid 0 = true → v.fsm.nodeCache 0 = v.node 0 ∧ T.peeked = true) :
    v.Slot0 T := by
  refine ⟨fun _ => h, ?_, ?_⟩
  · rintro (hc | hc) <;> simp [hc] at hst
  · rintro (hc | hc) <;> simp [hc] at hst

theorem Slot0.step (h : v.Slot0 T) (hp : v.Phase cfg m) (ht : v.Track cfg e T) (hs : v.Step cfg i v')
    (hne : v.fsm.state ≠ .idle) : v'.Slot0 T := by
  have hstep : v'.fsm.state = v.fsm.nState cfg i := by rw [hs.fsm]; rfl
  cases hst : v.fsm.state
  case idle => exact absurd hst hne
  case done =>
    simp only [Track, hst] at ht
    obtain ⟨hn, -⟩ := hs.node_eq (by simp [HeapFsm.memDoWrite, hst]) ht.2
    obtain ⟨hc, -⟩ := step_regs_eq hs (by simp [HeapFsm.regs, hst])
    have hsz : v'.fsm.size = v.fsm.size := congrArg HeapFsm.Core.size hc
    have hnc : v'.fsm.nodeCache = v.fsm.nodeCache := congrArg HeapFsm.Core.nodeCache hc
    have hnv : v'.fsm.nodeCacheValid = v.fsm.nodeCacheValid := congrArg HeapFsm.Core.nodeCacheValid hc
    refine .of_rest (.inl (hstep.trans (by simp [HeapFsm.nState, hst]))) ?_
    rw [hsz, hnc, hnv, hn]
    exact h.mirror (.inr (.inl hst))
  case popLaunch =>
    simp only [Track, hst] at ht
    obtain ⟨hn, -⟩ := hs.node_eq (by simp [HeapFsm.memDoWrite, hst]) ht.1
    by_cases h0 : v.fsm.size = 0
    · have hregs : v.fsm.regs cfg i = v.fsm := by simp [HeapFsm.regs, hst, h0]
      refine .of_rest (.inr (.inl (hstep.trans (by simp [HeapFsm.nState, hst, h0])))) ?_
      rw [hn, hs.fsm]
      simp only [HeapFsm.step, hregs]
      exact h.mirror (.inr (.inr hst))
    · by_cases h1 : v.fsm.size = 1 ∧ v.fsm.nodeCacheValid 0 = true
      · refine .of_rest (.inr (.inl (hstep.trans (by simp [HeapFsm.nState, hst, h1])))) fun _ hval => ?_
        rw [hs.fsm] at hval
        simp [HeapFsm.step, HeapFsm.regs, hst, h1] at hval
      · refine .of_pos ?_ ?_
        · rw [hs.fsm]; simp only [HeapFsm.step, HeapFsm.regs, hst, if_neg h1]; omega
        · rw [hstep]; simp only [HeapFsm.nState, hst]; split_ifs <;> simp
  case pushWrFinalWait =>
    simp only [Track, hst] at ht
    have hroom : v.fsm.size < 1088 := ht.1.room
    rcases hd : v.fsm.writeDone i with _ | _
    · refine .of_not_looks ?_
      simp only [Looks, hstep, HeapFsm.nState, hst, hd]
      split_ifs <;> simp_all
    · refine .of_pos ?_ (by rw [hstep]; simp [HeapFsm.nState, hst, hd])
      rw [hs.fsm]
      simp only [HeapFsm.step, HeapFsm.regs, hst, hd, if_true]
      omega
  case popSiftWrFinalWait =>
    simp only [Track, hst] at ht
    have hpos := Nat.zero_lt_of_lt ht.1.lt
    rcases hd : v.fsm.writeDone i with _ | _
    · refine .of_not_looks ?_
      simp only [Looks, hstep, HeapFsm.nState, hst, hd]
      split_ifs <;> simp_all
    · refine .of_pos ?_ (by rw [hstep]; simp [HeapFsm.nState, hst, hd])
      rw [hs.fsm]
      simp only [HeapFsm.step, HeapFsm.regs, hst, hd, if_true, HeapFsm.cacheTarget]
      split <;> exact hpos
  case peekRdIssue =>
    have hst' : v'.fsm.state = .peekRdWait := by
      rw [hstep]
      simp [HeapFsm.nState, hst, HeapFsm.issueTo, HeapFsm.memTargetPriv, isPrivate, HeapFsm.memIdx, privateNodes]
    exact ⟨by simp [hst'], fun _ => h.peek (.inl hst), by simp [hst']⟩
  case peekRdWait =>
    simp only [Track, hst] at ht
    obtain ⟨hn, -⟩ := hs.node_eq (by simp [HeapFsm.memDoWrite, hst]) ht.2.1
    obtain ⟨hd, hdata⟩ := ht.2.root_done hs
    refine .of_rest (.inr (.inl (hstep.trans (by simp [HeapFsm.nState, hst, hd])))) fun _ _ => ⟨?_, h.peek (.inr hst)⟩
    rw [hn, ← hdata, hs.fsm]
    simp [HeapFsm.step, HeapFsm.regs, hst, hd]
  case updateWrIssue =>
    have hst' : v'.fsm.state = .updateWrWait := by
      rw [hstep]
      simp [HeapFsm.nState, hst, HeapFsm.issueTo, HeapFsm.memTargetPriv, isPrivate, HeapFsm.memIdx, privateNodes]
    have hsz : v'.fsm.size = v.fsm.size := by rw [hs.fsm]; simp [HeapFsm.step, HeapFsm.regs, hst]
    exact ⟨by simp [hst'], by simp [hst'], fun _ => hsz ▸ h.upd (.inl hst)⟩
  case updateWrWait =>
    simp only [Track, hst] at ht
    have hwait := ht.2
    unfold WriteWait at hwait
    rw [if_pos (by unfold privateNodes; omega)] at hwait
    obtain ⟨hd1, hx, hq⟩ := hwait
    obtain ⟨hn, -⟩ := hs.node_eq (by simp [HeapFsm.memDoWrite, hst]) hq
    have hd : v.fsm.writeDone i = true := by simp [HeapFsm.writeDone, hd1]
    have hsz : v'.fsm.size = v.fsm.size := by rw [hs.fsm]; simp [HeapFsm.step, HeapFsm.regs, hst, hd]
    refine .of_rest (.inr (.inl (hstep.trans (by simp [HeapFsm.nState, hst, hd])))) fun hz _ =>
      ⟨?_, h.upd (.inr hst) (hsz ▸ hz)⟩
    rw [hn, hx, hs.fsm]
    simp [HeapFsm.step, HeapFsm.regs, hst, hd]
  case popRdRootIssue | popRdRootWait => simp only [Phase, hst] at hp
  all_goals
    refine .of_not_looks ?_
    simp only [Looks, hstep, HeapFsm.nState, HeapFsm.issueTo, hst]
    try split_ifs
    all_goals simp_all

/-! ### Accepting a command -/

variable (hs : v.Step cfg i v') (hst : v.fsm.state = .idle) (hv : i.cmdValid = true)
include hs hst hv

/-- `popped_root` once a command has been accepted. -/
theorem Rooted.accept (h : v.Rooted T) (ht : v.Still T) (hq : v.Quiet)
    (hroot : v.fsm.nodeCacheValid 0 = true → v.fsm.nodeCache 0 = v.node 0 ∧ (v.fsm.size = 0 → T.peeked = true)) :
    v'.Rooted (T.exec cfg.kind (i.cmdOp, i.cmdDataIn)) := by
  intro r hr
  have hold := fun r hr => h r hr
  simp only [hst] at hold
  obtain ⟨hn, -⟩ := hs.node_eq (by simp [HeapFsm.memDoWrite, hst]) hq
  have hsize := ht.size
  have hsz : v'.fsm.size = v.fsm.size := by
    rw [hs.fsm]; simp only [HeapFsm.step, HeapFsm.regs, hst, hv, if_true]; cases i.cmdOp <;> rfl
  have hp : v'.fsm.poppedRoot = if i.cmdOp = .pop ∧ v.fsm.nodeCacheValid 0 = true then v.fsm.nodeCache 0
      else v.fsm.poppedRoot := by
    rw [hs.fsm]; simp only [HeapFsm.step, HeapFsm.regs, hst, hv, if_true]
    cases i.cmdOp <;> simp
  have hnv : v'.fsm.nodeCacheValid = v.fsm.nodeCacheValid := by
    rw [hs.fsm]; simp only [HeapFsm.step, HeapFsm.regs, hst, hv, if_true]; cases i.cmdOp <;> rfl
  have hst' : v'.fsm.state = v.fsm.nState cfg i := by rw [hs.fsm]; rfl
  simp only [HeapFsm.nState, hst, hv, if_true] at hst'
  cases hop : i.cmdOp with
  | pop =>
    simp only [hop] at hst' hr hp
    simp only [hst', hsz, hnv, hn]
    simp only [Shelf.exec, hsize] at hr
    by_cases h0 : v.fsm.size = 0
    · -- nothing is taken: the register stays, as slot 0 is invalid
      simp only [h0, if_true, true_or] at hr ⊢
      rcases hpk : T.peeked with _ | _
      · have hval : ¬ v.fsm.nodeCacheValid 0 = true := fun hc => by
          have := (hroot hc).2 h0
          rw [hpk] at this; cases this
        rw [hp, if_neg fun hc => hval hc.2]
        rw [hpk] at hr
        exact hold r (by simpa using hr)
      · rw [hpk] at hr; cases hr
    · rw [if_neg h0] at hr
      have hr : T.nodes 0 = r := Option.some.inj hr
      rw [← ht.nodes 0 (by omega)] at hr
      by_cases hval : v.fsm.nodeCacheValid 0 = true
      · rw [if_pos (.inr hval), hp, if_pos ⟨trivial, hval⟩, (hroot hval).1, hr]
      · rw [if_neg (by simp [h0, hval]), hr]
  | push | peek | update =>
    have hr' : T.popped = some r := by
      simp only [hop, Shelf.exec] at hr
      exact hr
    have hpr := hold r hr'
    simp only [hop, reduceCtorEq, false_and, if_false] at hp
    simp only [hop] at hst'
    rw [hp]
    try split_ifs at hst'
    all_goals simpa [hst'] using hpr

/-- Slot 0 once a command has been accepted by an empty heap. -/
theorem Slot0.accept (h : v.Slot0 T) (hp : v.Phase cfg m) (ht : v.Still T) :
    v'.Slot0 (T.exec cfg.kind (i.cmdOp, i.cmdDataIn)) := by
  simp only [Phase, hst] at hp
  obtain ⟨hr, hn, hsz, hnc, hnv⟩ := hp.idle_frame hs hst
  have hsize := ht.size
  have hold := h.mirror (.inl hst)
  have hst' : v'.fsm.state = v.fsm.nState cfg i := by rw [hs.fsm]; rfl
  simp only [HeapFsm.nState, hst, hv, if_true] at hst'
  cases hop : i.cmdOp with
  | push => exact .of_not_looks (by simp [Looks, hst', hop])
  | pop =>
    refine .of_rest (by simp [hst', hop]) ?_
    rw [hsz, hnc, hnv, hn]
    intro h0 hval
    obtain ⟨h1, h2⟩ := hold h0 hval
    exact ⟨h1, by simp [Shelf.exec, hsize, h0, h2]⟩
  | peek =>
    simp only [hop] at hst'
    split_ifs at hst' with hval
    · refine .of_rest (.inr (.inl hst')) ?_
      rw [hsz, hnc, hnv, hn]
      intro h0 hval
      obtain ⟨h1, h2⟩ := hold h0 hval
      exact ⟨h1, by simp [Shelf.exec, h2]⟩
    · -- only an empty heap reads its root
      have h0 : v.fsm.size = 0 := by
        by_contra hne
        exact hval (hp.root (Nat.pos_of_ne_zero hne)).1
      exact ⟨by simp [hst'], fun _ => by simp [Shelf.exec, hsize, h0], by simp [hst']⟩
  | update =>
    simp only [hop] at hst'
    split_ifs at hst' with hgo
    · rw [Bool.and_eq_true] at hgo
      exact ⟨by simp [hst'], by simp [hst'], fun _ h0 => (hold (hsz ▸ h0) hgo.1).2⟩
    · refine .of_rest (.inr (.inl hst')) ?_
      rw [hsz, hnc, hnv, hn]
      exact hold

omit hs hst hv

/-! ### Without the cache -/

/-- The heap with `node_cache_valid` tied to 0. -/
def blind (v : HeapView) : HeapView := { v with fsm := v.fsm.blind }

theorem Job.blind {n : Nat} {f : Nat → Node} (h : v.Job T n f) : v.blind.Job T n f :=
  ⟨h.cap, h.mapped, h.size, h.nodes⟩

theorem Track.blind (h : v.Track cfg e T) : v.blind.Track cfg e T := by
  have hst' : v.blind.fsm.state = v.fsm.state := rfl
  have hrise : v.Rising cfg T → v.blind.Rising cfg T := fun h =>
    ⟨h.job.blind, h.le, h.par, h.leaf, h.room⟩
  have hhead : v.Headed cfg e T → v.blind.Headed cfg e T := fun h => ⟨h.job.blind, h.pos, h.rest⟩
  have hsink : v.Sinking cfg e T → v.blind.Sinking cfg e T := fun h =>
    ⟨h.job.blind, h.cap, h.lt, h.exact, h.rest, h.left, h.right⟩
  have hkids : v.Kids → v.blind.Kids := fun h => ⟨h.left_lt, h.left, h.has, h.right⟩
  cases hst : v.fsm.state <;> rw [hst] at hst' <;> simp only [Track, hst] at h <;> simp only [Track, hst']
  case popLaunch =>
    refine ⟨h.1, ?_⟩
    by_cases h0 : v.fsm.size = 0
    · rw [if_pos h0] at h
      rw [if_pos (show v.blind.fsm.size = 0 from h0)]
      exact h.2.blind
    · rw [if_neg h0] at h
      rw [if_neg (show ¬ v.blind.fsm.size = 0 from h0)]
      exact hhead h.2
  case popSiftDecide => exact ⟨hsink h.1, h.2.1, hkids h.2.2⟩
  case popSiftWrUpIssue | popSiftWrUpWait => exact ⟨hsink h.1, h.2.1, hkids h.2.2.1, h.2.2.2⟩
  all_goals first
    | exact ⟨hrise h.1, h.2⟩
    | exact ⟨hhead h.1, h.2⟩
    | exact ⟨hsink h.1, h.2⟩
    | exact ⟨h.1.blind, h.2⟩

theorem Rooted.blind (h : v.Rooted T) (hp : v.fsm.state = .popLaunch → v.fsm.nodeCacheValid 0 = false) :
    v.blind.Rooted T := by
  intro r hr
  have hold := h r hr
  change match v.fsm.state with
    | .popLaunch => if v.fsm.size = 0 ∨ false = true then v.fsm.poppedRoot = r else v.node 0 = r
    | .popRdRootIssue | .popRdRootWait => v.node 0 = r
    | _ => v.fsm.poppedRoot = r
  cases hst : v.fsm.state
  case popLaunch => simpa [hst, hp hst] using hold
  all_goals simpa [hst] using hold

/-- An `UPDATE` that reads the root first. -/
theorem Still.accept_read (h : v.Still T) (hq : v.Quiet) (hs : v.Step cfg i v') (hst : v.fsm.state = .idle)
    (hv : i.cmdValid = true) (hop : i.cmdOp = .update) :
    HeapView.Track cfg e (T.exec cfg.kind (.update, i.cmdDataIn))
      { v' with fsm := { v'.fsm with state := .peekRdIssue } } := by
  obtain ⟨hn, hq'⟩ := hs.node_eq (by simp [HeapFsm.memDoWrite, hst]) hq
  have hregs : v'.fsm.size = v.fsm.size ∧ v'.fsm.savedOp = .update ∧ v'.fsm.savedOpData = i.cmdDataIn := by
    rw [hs.fsm]; simp [HeapFsm.step, HeapFsm.regs, hst, hv, hop]
  obtain ⟨hsz, hsaved, hd⟩ := hregs
  have h' := h.frame hs hsz hn
  refine ⟨⟨h'.cap, h'.mapped, h'.size, fun j hj => ?_⟩, hq'⟩
  have h0 : v'.node 0 = T.nodes 0 := h'.nodes 0 (Nat.zero_lt_of_lt hj)
  change (if v'.fsm.savedOp = .update ∧ sameKeys v'.fsm.savedOpData (v'.node 0) then
    update v'.node 0 v'.fsm.savedOpData else v'.node) j = _
  simp only [hsaved, hd, h0, true_and, Shelf.exec]
  split_ifs
  · exact update_congr_off (fun k hk _ => h'.nodes k hk) hj
  · exact h'.nodes j hj

/-- The root that an `UPDATE` has read: it is replaced if the keys agree. -/
theorem Looking.decide (h : v.Looking T) (hwait : v.ReadWait 0) (hs : v.Step cfg i v')
    (hst : v.fsm.state = .peekRdWait) (hop : v.fsm.savedOp = .update) :
    if sameKeys v.fsm.savedOpData (v.fsm.readData i) = true then
      HeapView.Track cfg e T { v' with fsm := { v'.fsm with state := .updateWrIssue } }
    else v'.Track cfg e T := by
  obtain ⟨hn, hq'⟩ := hs.node_eq (by simp [HeapFsm.memDoWrite, hst]) hwait.1
  obtain ⟨hd, hdata⟩ := hwait.root_done hs
  have hregs : v'.fsm.size = v.fsm.size ∧ v'.fsm.savedOpData = v.fsm.savedOpData ∧ v'.fsm.state = .done := by
    rw [hs.fsm]; simp [HeapFsm.step, HeapFsm.nState, HeapFsm.regs, hst, hd]
  obtain ⟨hsz, hsd, hst'⟩ := hregs
  unfold Looking at h
  rw [hdata]
  by_cases hkeys : sameKeys v.fsm.savedOpData (v.node 0) = true
  · rw [if_pos ⟨hop, hkeys⟩] at h
    rw [if_pos hkeys]
    have hjob : v'.Job T v'.fsm.size (update v'.node 0 v'.fsm.savedOpData) := by
      rw [hsz, hsd, hn]
      exact h.frame hs hsz fun _ _ => rfl
    exact ⟨⟨hjob.cap, hjob.mapped, hjob.size, hjob.nodes⟩, hq'⟩
  · rw [if_neg fun hc => hkeys hc.2] at h
    rw [if_neg hkeys]
    simp only [Track, hst']
    exact ⟨Still.frame h hs hsz hn, hq'⟩

end HeapView

namespace HeapSys

variable {cfg : HeapCfg} {e : Nat} {s : HeapSys} {c : HeapCycle} {b : PrivBram} {T : Shelf}

/-- The system with `node_cache_valid` tied to 0. -/
def blind (s : HeapSys) : HeapSys := { s with fsm := s.fsm.blind }

/-- One cycle of the system without the cache. -/
def stepUncached (cfg : HeapCfg) (s : HeapSys) (c : HeapCycle) : HeapSys :=
  { s.blind.step cfg c with fsm := s.fsm.stepUncached cfg (s.heapIn c) }

/-- The command that the heap takes in a cycle. -/
def takes (s : HeapSys) (c : HeapCycle) : List (Op × Node) :=
  if s.fsm.state = .idle ∧ c.cmdValid = true then [(c.cmdOp, c.cmdDataIn)] else []

/-- A schedule from reset, cycle by cycle with `next`: the system, and the commands it has taken. -/
def trace (next : HeapSys → HeapCycle → HeapSys) (b : PrivBram) (sched : List HeapCycle) :
    HeapSys × List (Op × Node) :=
  sched.foldl (fun p c => (next p.1 c, p.2 ++ p.1.takes c)) (init b, [])

theorem trace_snoc (next : HeapSys → HeapCycle → HeapSys) (sched : List HeapCycle) (c : HeapCycle) :
    trace next b (sched ++ [c]) = (next (trace next b sched).1 c,
      (trace next b sched).2 ++ (trace next b sched).1.takes c) := by
  simp [trace, List.foldl_append]

theorem takes_idle (hst : s.fsm.state = .idle) (hv : c.cmdValid = true) :
    s.takes c = [(c.cmdOp, c.cmdDataIn)] := if_pos ⟨hst, hv⟩

theorem takes_none (h : s.fsm.state ≠ .idle ∨ c.cmdValid = false) : s.takes c = [] :=
  if_neg fun hc => by
    rcases h with h | h
    · exact h hc.1
    · rw [h] at hc; cases hc.2

theorem takes_cases (h : ¬ (s.fsm.state = .idle ∧ c.cmdValid = true)) :
    s.fsm.state ≠ .idle ∨ c.cmdValid = false := by
  rcases not_and_or.1 h with h | h
  exacts [.inl h, .inr (Bool.eq_false_iff.2 h)]

/-- `heap_fsm` on its way to `T`. -/
structure Kept (cfg : HeapCfg) (T : Shelf) (s : HeapSys) : Prop where
  phase : ∃ m, (s.view cfg).Phase cfg m
  own : s.OwnAddr cfg
  track : ∃ e, e < 1023 ∧ (s.view cfg).Track cfg e T
  rooted : (s.view cfg).Rooted T
  slot0 : (s.view cfg).Slot0 T

/-- The machine without the cache on its way to `T`. -/
structure Bare (cfg : HeapCfg) (T : Shelf) (s : HeapSys) : Prop where
  own : s.OwnAddr cfg
  track : ∃ e, e < 1023 ∧ (s.view cfg).Track cfg e T
  rooted : (s.view cfg).blind.Rooted T

theorem Kept.init (cfg : HeapCfg) (b : PrivBram) : (init b).Kept cfg .empty where
  phase := ⟨0, init_inv.phase⟩
  own r hr := by cases hr
  track := ⟨0, by omega, ⟨Nat.zero_le _, fun j hj => absurd hj (Nat.not_lt_zero _), rfl,
    fun j hj => absurd hj (Nat.not_lt_zero _)⟩, fun r hr => by cases hr⟩
  rooted r hr := Option.some.inj hr
  slot0 := .of_rest (.inl rfl) fun _ hval => by cases hval

theorem Bare.init (cfg : HeapCfg) (b : PrivBram) : (init b).Bare cfg .empty where
  own r hr := by cases hr
  track := (Kept.init cfg b).track
  rooted := (Kept.init cfg b).rooted.blind fun h => by cases h

/-- One cycle of `heap_fsm` in which a command is in progress, or none is given. -/
theorem Kept.work (h : s.Kept cfg T) (hT : T.size ≤ 1024) (hno : s.fsm.state ≠ .idle ∨ c.cmdValid = false) :
    (s.step cfg c).Kept cfg T := by
  obtain ⟨⟨m, hp⟩, hown, ⟨e, he, ht⟩, hr, h0⟩ := h
  have hs := hown.view_step c
  by_cases hst : s.fsm.state = .idle
  · have hv : (s.heapIn c).cmdValid = false := hno.resolve_left fun hc => hc hst
    have hrest : (s.view cfg).Rest cfg m := hp.rest (.inl hst)
    obtain ⟨hr', hn, hsz, hnc, hnv⟩ := hrest.idle_frame hs hst
    have hst' : ((s.step cfg c).view cfg).fsm.state = .idle := by
      rw [hs.fsm]; simp [view, HeapFsm.step, HeapFsm.nState, hst, hv]
    have hpr : ((s.step cfg c).view cfg).fsm.poppedRoot = (s.view cfg).fsm.poppedRoot := by
      rw [hs.fsm]; simp [view, HeapFsm.step, HeapFsm.regs, hst, hv]
    have hidle : (s.view cfg).fsm.state = .idle := hst
    simp only [HeapView.Track, hidle] at ht
    refine ⟨⟨m, ?_⟩, hown.step c, ⟨e, he, ht.1.wait ht.2 hs hst hv⟩, fun r hrr => ?_, .of_rest (.inl hst') ?_⟩
    · simpa only [HeapView.Phase, hst'] using hr'
    · have := hr r hrr
      simp only [hidle] at this
      simpa only [hst', hpr] using this
    · rw [hsz, hnc, hnv, hn]
      exact h0.mirror (.inl hst)
  · have hpk : (s.view cfg).fsm.state = .peekRdWait → (s.view cfg).fsm.savedOp = .update →
        (s.view cfg).fsm.size = 0 := fun hc _ => by
      simp only [HeapView.Phase, hc] at hp
      exact hp.2.1
    have ht' := (ht.step hs (hp.sound h0) hst hpk).resolve_right fun hw => by omega
    refine ⟨⟨m, hp.step hs hst fun hc => ?_⟩, hown.step c, ⟨e, he, ht'⟩, hr.step ht hs hst,
      h0.step hp ht hs hst⟩
    simp only [HeapView.Track, hc] at ht
    exact Nat.le_trans (ht.1.size_step hs hc) hT

/-- In a heap of at most 1024 nodes the children of every hole have indices of 11 bits. -/
theorem siftEnd_lt (kind : HeapKind) (hT : T.size ≤ 1024) :
    siftEnd (aWins kind) T.nodes (T.nodes (T.size - 1)) (T.size - 1) 0 < 1023 := by
  by_cases h0 : 0 < T.size - 1
  · have hend := (@siftEnd_range _ (aWins kind) T.nodes (T.nodes (T.size - 1)) (T.size - 1) 0).2 h0
    omega
  · rw [siftEnd_stop (by unfold bestChild; rw [if_neg (by omega), if_neg (by omega)])]
    omega

/-- One cycle of `heap_fsm` that accepts a command. -/
theorem Kept.accept (h : s.Kept cfg T) (hT : T.size ≤ 1024) (hst : s.fsm.state = .idle) (hv : c.cmdValid = true) :
    (s.step cfg c).Kept cfg (T.exec cfg.kind (c.cmdOp, c.cmdDataIn)) := by
  obtain ⟨⟨m, hp⟩, hown, ⟨e, he, ht⟩, hr, h0⟩ := h
  have hs := hown.view_step c
  have hidle : (s.view cfg).fsm.state = .idle := hst
  have hv' : (s.heapIn c).cmdValid = true := hv
  have hrest : (s.view cfg).Rest cfg m := hp.rest (.inl hst)
  simp only [HeapView.Track, hidle] at ht
  refine ⟨⟨_, HeapView.Phase.idle_step (g := ⟨m, none⟩) hp hs hst⟩, hown.step c,
    ⟨_, siftEnd_lt cfg.kind hT, ht.1.accept hs hst hv' ht.2 (by unfold maxNodes; omega) rfl fun _ => hrest.root⟩,
    hr.accept hs hst hv' ht.1 ht.2 fun hval => ⟨?_, fun hz => (h0.mirror (.inl hst) hz hval).2⟩,
    h0.accept hs hst hv' hp ht.1⟩
  exact hp.consults h0 (by omega) (.inr ⟨rfl, .inl hst⟩) hval

theorem trace_kept (sched : List HeapCycle)
    (hcap : ∀ p, p <+: (trace (step cfg) b sched).2 → (Shelf.run cfg.kind p).size ≤ 1024) :
    (trace (step cfg) b sched).1.Kept cfg (Shelf.run cfg.kind (trace (step cfg) b sched).2) := by
  induction sched using List.reverseRecOn with
  | nil => exact Kept.init cfg b
  | append_singleton sched c ih =>
    rw [trace_snoc] at hcap ⊢
    have ih := ih fun p hp => hcap p (hp.trans (List.prefix_append _ _))
    have hnow := hcap _ (List.prefix_append _ _)
    by_cases ha : (trace (step cfg) b sched).1.fsm.state = .idle ∧ c.cmdValid = true
    · rw [takes_idle ha.1 ha.2, Shelf.run_snoc]
      exact ih.accept hnow ha.1 ha.2
    · have hno := takes_cases ha
      rw [takes_none hno, List.append_nil]
      exact ih.work hnow hno

/-- Away from `UPDATE` the machine without the cache is `heap_fsm` with no valid slot. -/
theorem stepUncached_eq (h1 : s.fsm.state = .idle → c.cmdValid = true → c.cmdOp ≠ .update)
    (h2 : s.fsm.state = .peekRdWait → s.fsm.savedOp = .update →
      sameKeys s.fsm.savedOpData (s.fsm.readData (s.heapIn c)) = false) :
    s.stepUncached cfg c = s.blind.step cfg c := by
  have hfsm : s.fsm.stepUncached cfg (s.heapIn c) = s.fsm.blind.step cfg (s.heapIn c) := by
    unfold HeapFsm.stepUncached
    cases hst : s.fsm.state with
    | idle => exact if_neg fun hc => h1 hst hc.1 hc.2
    | peekRdWait =>
      refine if_neg fun hc => ?_
      rw [h2 hst hc.1] at hc
      cases hc.2.2
    | _ => rfl
  unfold stepUncached
  rw [hfsm]
  rfl

theorem Bare.work (h : s.Bare cfg T) (hno : s.fsm.state ≠ .idle ∨ c.cmdValid = false) :
    (s.stepUncached cfg c).Bare cfg T := by
  obtain ⟨hown, ⟨e, he, ht⟩, hr⟩ := h
  have hown' : s.blind.OwnAddr cfg := hown
  have hs : (s.view cfg).blind.Step cfg (s.heapIn c) ((s.blind.step cfg c).view cfg) := hown'.view_step c
  have htb := ht.blind
  by_cases hup : s.fsm.state = .peekRdWait ∧ s.fsm.savedOp = .update
  · -- the root has been read for an `UPDATE`
    obtain ⟨hst, hop⟩ := hup
    have hpk : (s.view cfg).blind.fsm.state = .peekRdWait := hst
    simp only [HeapView.Track, hpk] at htb
    have hdec := HeapView.Looking.decide (e := e) htb.1 htb.2 hs hpk hop
    have hroot := hr.step ht.blind hs (by rw [hpk]; decide)
    obtain ⟨hd, -⟩ := htb.2.root_done hs
    by_cases hkeys : sameKeys s.fsm.savedOpData (s.fsm.readData (s.heapIn c)) = true
    · rw [if_pos (show sameKeys (s.view cfg).blind.fsm.savedOpData ((s.view cfg).blind.fsm.readData (s.heapIn c)) =
        true from hkeys)] at hdec
      have hnext : s.stepUncached cfg c = { s.blind.step cfg c with
          fsm := { (s.blind.step cfg c).fsm with state := .updateWrIssue } } := by
        unfold stepUncached HeapFsm.stepUncached
        rw [hst]
        dsimp only
        rw [if_pos ⟨hop, hd, hkeys⟩]
        rfl
      rw [hnext]
      refine ⟨hown'.step c, ⟨e, he, hdec⟩, fun r hrr => ?_⟩
      have hst' : ((s.blind.step cfg c).view cfg).fsm.state = .done := by
        rw [hs.fsm]; simp [HeapFsm.step, HeapFsm.nState, hpk, hd]
      have := hroot r hrr
      simp only [hst'] at this
      exact this
    · rw [if_neg (show ¬ sameKeys (s.view cfg).blind.fsm.savedOpData
        ((s.view cfg).blind.fsm.readData (s.heapIn c)) = true from hkeys)] at hdec
      rw [stepUncached_eq (fun hc => by rw [hst] at hc; cases hc) fun _ _ => Bool.eq_false_iff.2 hkeys]
      exact ⟨hown'.step c, ⟨e, he, hdec⟩, hroot.blind fun hc => absurd hc (hs.no_launch (by rw [hpk]; decide))⟩
  · rw [stepUncached_eq (fun hst hv => by
        rcases hno with h | h
        · exact absurd hst h
        · rw [hv] at h; cases h) fun hst hop => absurd ⟨hst, hop⟩ hup]
    by_cases hst : s.fsm.state = .idle
    · have hv : (s.heapIn c).cmdValid = false := hno.resolve_left fun hc => hc hst
      have hidle : (s.view cfg).blind.fsm.state = .idle := hst
      simp only [HeapView.Track, hidle] at htb
      have hst' : ((s.blind.step cfg c).view cfg).fsm.state = .idle := by
        rw [hs.fsm]; simp [HeapFsm.step, HeapFsm.nState, hidle, hv]
      have hpr : ((s.blind.step cfg c).view cfg).fsm.poppedRoot = (s.view cfg).blind.fsm.poppedRoot := by
        rw [hs.fsm]; simp [HeapFsm.step, HeapFsm.regs, hidle, hv]
      refine ⟨hown'.step c, ⟨e, he, htb.1.wait htb.2 hs hidle hv⟩, HeapView.Rooted.blind (fun r hrr => ?_) ?_⟩
      · have := hr r hrr
        simp only [hidle] at this
        simpa only [hst', hpr] using this
      · rw [hst']; intro hc; cases hc
    · have hstep := htb.step hs (HeapView.sound_blind _) hst fun hc hop => absurd ⟨hc, hop⟩ hup
      exact ⟨hown'.step c, ⟨e, he, hstep.resolve_right fun hw => by omega⟩,
        (hr.step htb hs hst).blind fun hc => absurd hc (hs.no_launch hst)⟩

theorem Bare.accept (h : s.Bare cfg T) (hT : T.size ≤ 1024) (hst : s.fsm.state = .idle) (hv : c.cmdValid = true) :
    (s.stepUncached cfg c).Bare cfg (T.exec cfg.kind (c.cmdOp, c.cmdDataIn)) := by
  obtain ⟨hown, ⟨e, he, ht⟩, hr⟩ := h
  have hown' : s.blind.OwnAddr cfg := hown
  have hs : (s.view cfg).blind.Step cfg (s.heapIn c) ((s.blind.step cfg c).view cfg) := hown'.view_step c
  have htb := ht.blind
  have hidle : (s.view cfg).blind.fsm.state = .idle := hst
  have hv' : (s.heapIn c).cmdValid = true := hv
  simp only [HeapView.Track, hidle] at htb
  have hroot : ((s.blind.step cfg c).view cfg).Rooted (T.exec cfg.kind (c.cmdOp, c.cmdDataIn)) :=
    hr.accept hs hidle hv' htb.1 htb.2 fun hval => by cases hval
  have hnv : ((s.blind.step cfg c).view cfg).fsm.nodeCacheValid 0 = false := by
    rw [hs.fsm]
    simp only [HeapFsm.step, HeapFsm.regs, hidle, hv', if_true]
    cases (s.heapIn c).cmdOp <;> rfl
  by_cases hop : c.cmdOp = .update
  · have hnext : s.stepUncached cfg c = { s.blind.step cfg c with
        fsm := { (s.blind.step cfg c).fsm with state := .peekRdIssue } } := by
      unfold stepUncached HeapFsm.stepUncached
      rw [hst]
      dsimp only
      rw [if_pos ⟨hv', hop⟩]
      rfl
    rw [hnext]
    rw [hop] at hroot ⊢
    have hread := HeapView.Still.accept_read (e := e) htb.1 htb.2 hs hidle hv' hop
    refine ⟨hown'.step c, ⟨e, he, hread⟩, fun r hrr => ?_⟩
    have hst' : ((s.blind.step cfg c).view cfg).fsm.state = .done := by
      have hop' : (s.heapIn c).cmdOp = .update := hop
      have hval : (s.view cfg).blind.fsm.nodeCacheValid 0 = false := rfl
      rw [hs.fsm]; simp [HeapFsm.step, HeapFsm.nState, hidle, hv', hop', hval]
    have := hroot r hrr
    simp only [hst'] at this
    exact this
  · rw [stepUncached_eq (fun _ _ => hop) fun hc => by rw [hst] at hc; cases hc]
    have hroom : T.size < maxNodes := by unfold maxNodes; omega
    exact ⟨hown'.step c, ⟨_, siftEnd_lt cfg.kind hT,
      htb.1.accept hs hidle hv' htb.2 hroom rfl fun hc => absurd hc hop⟩, hroot.blind fun _ => hnv⟩

theorem trace_bare (sched : List HeapCycle)
    (hcap : ∀ p, p <+: (trace (stepUncached cfg) b sched).2 → (Shelf.run cfg.kind p).size ≤ 1024) :
    (trace (stepUncached cfg) b sched).1.Bare cfg
      (Shelf.run cfg.kind (trace (stepUncached cfg) b sched).2) := by
  induction sched using List.reverseRecOn with
  | nil => exact Bare.init cfg b
  | append_singleton sched c ih =>
    rw [trace_snoc] at hcap ⊢
    have ih := ih fun p hp => hcap p (hp.trans (List.prefix_append _ _))
    have hnow := hcap _ (List.prefix_append _ _)
    by_cases ha : (trace (stepUncached cfg) b sched).1.fsm.state = .idle ∧ c.cmdValid = true
    · rw [takes_idle ha.1 ha.2, Shelf.run_snoc]
      exact ih.accept hnow ha.1 ha.2
    · have hno := takes_cases ha
      rw [takes_none hno, List.append_nil]
      exact ih.work hno

/-- A machine at rest holds the shelf it was on its way to. -/
theorem rest_holds (ht : (s.view cfg).Track cfg e T) (hst : s.fsm.AtRest) :
    s.fsm.size = T.size ∧ ∀ j, j < T.size → s.node cfg j = T.nodes j := by
  have hstill : (s.view cfg).Still T := by
    rcases hst with hst | hst
    all_goals
      have hst : (s.view cfg).fsm.state = _ := hst
      simp only [HeapView.Track, hst] at ht
      exact ht.1
  have hsize : T.size = s.fsm.size := hstill.size
  exact ⟨hsize.symm, fun j hj => hstill.nodes j (hsize ▸ hj)⟩

/-- The root that the shelf says was popped last is in `popped_root`. -/
theorem rest_popped {v : HeapView} (hr : v.Rooted T) (hst : v.fsm.AtRest) {r : Node} (h : T.popped = some r) :
    v.fsm.poppedRoot = r := by
  have hold := hr r h
  rcases hst with hst | hst <;> simpa only [hst] using hold

/-- The node cache is transparent. `heap_fsm` and the machine without the cache, each with its own
memory and schedule, agree whenever both have finished the same commands: on the size, on every
stored node, and on `popped_root` unless the last `POP` met an empty heap that a `PEEK` had looked
at. A cached slot that is consulted mirrors memory, and the root of a heap that is not empty is cached
between commands. -/
theorem cache_transparent (cfg : HeapCfg) (b b' : PrivBram) (sched sched' : List HeapCycle)
    (hcap : ∀ p, p <+: (trace (step cfg) b sched).2 → (Shelf.run cfg.kind p).size ≤ 1024)
    (hcmds : (trace (stepUncached cfg) b' sched').2 = (trace (step cfg) b sched).2) :
    let s := (trace (step cfg) b sched).1
    let u := (trace (stepUncached cfg) b' sched').1
    (s.fsm.AtRest → u.fsm.AtRest →
      s.fsm.size = u.fsm.size ∧ (∀ j, j < s.fsm.size → s.node cfg j = u.node cfg j) ∧
      ((Shelf.run cfg.kind (trace (step cfg) b sched).2).popped ≠ none →
        s.fsm.poppedRoot = u.fsm.poppedRoot)) ∧
    (∀ k, k < 3 → s.fsm.Consults k → s.fsm.nodeCacheValid k = true → s.fsm.nodeCache k = s.node cfg k) ∧
    (s.fsm.state = .idle → 0 < s.fsm.size → s.fsm.nodeCacheValid 0 = true) := by
  intro s u
  have hs : s.Kept cfg (Shelf.run cfg.kind (trace (step cfg) b sched).2) := trace_kept sched hcap
  have hu : u.Bare cfg (Shelf.run cfg.kind (trace (step cfg) b sched).2) := by
    have := trace_bare (b := b') sched' (by rw [hcmds]; exact hcap)
    rwa [hcmds] at this
  obtain ⟨m, hp⟩ := hs.phase
  refine ⟨fun hrs hru => ?_, fun k hk hc hval => hp.consults hs.slot0 hk hc hval, fun hst hpos => ?_⟩
  · obtain ⟨e, -, hts⟩ := hs.track
    obtain ⟨e', -, htu⟩ := hu.track
    obtain ⟨h1, h2⟩ := rest_holds hts hrs
    obtain ⟨h3, h4⟩ := rest_holds htu hru
    refine ⟨h1.trans h3.symm, fun j hj => ?_, fun hne => ?_⟩
    · rw [h1] at hj
      exact (h2 j hj).trans (h4 j hj).symm
    · obtain ⟨r, hr⟩ := Option.ne_none_iff_exists'.1 hne
      have hb : (u.view cfg).blind.fsm.AtRest := hru
      exact (rest_popped hs.rooted hrs hr).trans (rest_popped hu.rooted hb hr).symm
  · exact ((hp.rest (.inl hst)).root hpos).1

/-- Cycles of a port that is always ready, the first of them offering a command. -/
def offer (op : Op) (x : Node) (n : Nat) : List HeapCycle :=
  ⟨true, op, x, true, some true, 0⟩ :: List.replicate n ⟨false, op, x, true, some true, 0⟩

/-- Two pushes and a pop with and without the cache: the better of the two is popped, the other stays. -/
theorem cache_transparent_pop :
    let sched := offer .push 7 4 ++ offer .push 9 8 ++ offer .pop 0 9
    let s := (trace (step ⟨.minHeap, 0⟩) ⟨fun _ => 0, 0⟩ sched).1
    let u := (trace (stepUncached ⟨.minHeap, 0⟩) ⟨fun _ => 3, 0⟩ sched).1
    s.fsm.AtRest ∧ u.fsm.AtRest ∧ s.fsm.poppedRoot = 7 ∧ u.fsm.size = 1 ∧
      s.fsm.size = u.fsm.size ∧ (∀ j, j < s.fsm.size → s.node ⟨.minHeap, 0⟩ j = u.node ⟨.minHeap, 0⟩ j) := by
  intro sched s u
  have hcmds : (trace (step ⟨.minHeap, 0⟩) ⟨fun _ => 0, 0⟩ sched).2 = [(.push, 7), (.push, 9), (.pop, 0)] := by
    decide +kernel
  have hcmds' : (trace (stepUncached ⟨.minHeap, 0⟩) ⟨fun _ => 3, 0⟩ sched).2 =
      [(.push, 7), (.push, 9), (.pop, 0)] := by decide +kernel
  have hs : s.fsm.AtRest := .inl (by decide +kernel)
  have hu : u.fsm.AtRest := .inl (by decide +kernel)
  have hcap : ∀ p, p <+: (trace (step ⟨.minHeap, 0⟩) ⟨fun _ => 0, 0⟩ sched).2 →
      (Shelf.run .minHeap p).size ≤ 1024 := by
    intro p hp
    rw [hcmds, ← List.mem_inits] at hp
    simp only [List.inits, List.map_cons, List.map_nil, List.mem_cons, List.not_mem_nil, or_false] at hp
    rcases hp with rfl | rfl | rfl | rfl <;> simp [Shelf.run, Shelf.exec, Shelf.empty]
  obtain ⟨h1, h2, -⟩ := (cache_transparent ⟨.minHeap, 0⟩ ⟨fun _ => 0, 0⟩ ⟨fun _ => 3, 0⟩ sched sched hcap
    (hcmds'.trans hcmds.symm)).1 hs hu
  exact ⟨hs, hu, by decide +kernel, by decide +kernel, h1, h2⟩

/-- A `PEEK` of an empty heap fills slot 0 with what the private BRAM holds, and the next `POP`, which
takes nothing, presents it: without the cache `popped_root` stays as it was. -/
theorem peeked_pop_differs :
    let sched := offer .peek 0 4 ++ offer .pop 0 2
    let s := trace (step ⟨.maxHeap, 0⟩) ⟨fun _ => 7, 0⟩ sched
    let u := trace (stepUncached ⟨.maxHeap, 0⟩) ⟨fun _ => 7, 0⟩ sched
    s.2 = [(.peek, 0), (.pop, 0)] ∧ u.2 = s.2 ∧ s.1.fsm.AtRest ∧ u.1.fsm.AtRest ∧
      s.1.fsm.size = 0 ∧ u.1.fsm.size = 0 ∧ s.1.fsm.poppedRoot = 7 ∧ u.1.fsm.poppedRoot = 0 := by
  refine ⟨by decide +kernel, by decide +kernel, .inl (by decide +kernel), .inl (by decide +kernel), ?_⟩
  decide +kernel

end HeapSys

end HftSim
