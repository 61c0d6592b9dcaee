import HftSim.HeapCmd
import HftSim.Lib.Sift

/-!
# What each command leaves, cell by cell

`Shelf.exec` is a command as a function on the whole heap: where the sifts leave every node, not
only which nodes there are. `Track T v` says that the heap `v` is on its way to the shelf `T`: in each
state, the sift still to be done takes the stored nodes to those of `T`. Nothing in it mentions
the node cache; what one cycle asks of the cache is `Sound`, that a slot a read consults mirrors the
node stored there, and with that every state keeps `Track` (`Track.step`).
-/

namespace HftSim

open Function BinHeap

/-- The price and the timestamp, which an `UPDATE` must not change. -/
def sameKeys (a b : Node) : Bool :=
  decide (orderPrice a = orderPrice b) && decide (orderTs a = orderTs b)

/-- A heap as its commands define it. `peeked` tells that the empty heap has been looked at by a
`PEEK`; `popped` is the root the last `POP` took, unless that `POP` found such a heap. -/
structure Shelf where
  nodes : Nat → Node
  size : Nat
  peeked : Bool
  popped : Option Node

namespace Shelf

def empty : Shelf := ⟨fun _ => 0, 0, false, some 0⟩

def exec (kind : HeapKind) (s : Shelf) (c : Op × Node) : Shelf :=
  match c.1 with
  | .push => { s with nodes := siftUp (aWins kind) s.nodes c.2 s.size, size := s.size + 1 }
  | .pop =>
    if s.size = 0 then { s with popped := if s.peeked then none else s.popped }
    else
      ⟨siftDown (aWins kind) s.nodes (s.nodes (s.size - 1)) (s.size - 1) 0, s.size - 1, false,
        some (s.nodes 0)⟩
  | .peek => { s with peeked := s.peeked || decide (s.size = 0) }
  | .update => { s with nodes := if sameKeys c.2 (s.nodes 0) then update s.nodes 0 c.2 else s.nodes }

def run (kind : HeapKind) (cmds : List (Op × Node)) : Shelf := cmds.foldl (exec kind) empty

theorem run_snoc (kind : HeapKind) (cmds : List (Op × Node)) (c : Op × Node) :
    run kind (cmds ++ [c]) = (run kind cmds).exec kind c := by
  simp [run, List.foldl_append]

end Shelf

namespace HeapView

/-- The first `n` cells of `f` are those of `T`. -/
structure Job (T : Shelf) (n : Nat) (f : Nat → Node) (v : HeapView) : Prop where
  cap : v.fsm.size ≤ maxNodes
  mapped : v.Mapped v.fsm.size
  size : T.size = n
  nodes : ∀ j, j < n → f j = T.nodes j

def Still (T : Shelf) (v : HeapView) : Prop := v.Job T v.fsm.size v.node

/-- `cur_node` travels up from the new leaf; the hole is at `target_idx`. -/
structure Rising (cfg : HeapCfg) (T : Shelf) (v : HeapView) : Prop where
  job : v.Job T (v.fsm.size + 1) (siftUp (aWins cfg.kind) v.node v.fsm.curNode v.fsm.targetIdx)
  le : v.fsm.targetIdx ≤ v.fsm.size
  par : v.fsm.parentIdx = parent v.fsm.targetIdx
  leaf : v.fsm.targetIdx < v.fsm.size → v.Mapped (v.fsm.size + 1)
  room : v.fsm.size < maxNodes

/-- A `POP` before the last leaf is taken. The leaf will come to rest in cell `e`. -/
structure Headed (cfg : HeapCfg) (e : Nat) (T : Shelf) (v : HeapView) : Prop where
  job : v.Job T (v.fsm.size - 1)
    (siftDown (aWins cfg.kind) v.node (v.node (v.fsm.size - 1)) (v.fsm.size - 1) 0)
  pos : 0 < v.fsm.size
  rest : siftEnd (aWins cfg.kind) v.node (v.node (v.fsm.size - 1)) (v.fsm.size - 1) 0 = e

/-- `cur_node`, the last leaf, travels down from the root to cell `e`. The children of a hole below cell
1023 have indices of 11 bits. -/
structure Sinking (cfg : HeapCfg) (e : Nat) (T : Shelf) (v : HeapView) : Prop where
  job : v.Job T v.fsm.size (siftDown (aWins cfg.kind) v.node v.fsm.curNode v.fsm.size v.fsm.targetIdx)
  cap : v.fsm.size < maxNodes
  lt : v.fsm.targetIdx < v.fsm.size
  exact : v.fsm.targetIdx < 1023
  rest : siftEnd (aWins cfg.kind) v.node v.fsm.curNode v.fsm.size v.fsm.targetIdx = e
  left : v.fsm.leftIdx = 2 * v.fsm.targetIdx + 1
  right : v.fsm.rightIdx = 2 * v.fsm.targetIdx + 2

/-- The root is still to be replaced by `saved_op_data`. -/
def Rooting (T : Shelf) (v : HeapView) : Prop :=
  v.Job T v.fsm.size (update v.node 0 v.fsm.savedOpData)

/-- The root is being read, by a `PEEK` or to see whether an `UPDATE` may replace it. -/
def Looking (T : Shelf) (v : HeapView) : Prop :=
  v.Job T v.fsm.size
    (if v.fsm.savedOp = .update ∧ sameKeys v.fsm.savedOpData (v.node 0) then
      update v.node 0 v.fsm.savedOpData else v.node)

/-- What is left to do in each state, with `T` the shelf after the command in progress and `e` the cell where
the leaf that a `POP` moves comes to rest. -/
def Track (cfg : HeapCfg) (e : Nat) (T : Shelf) (v : HeapView) : Prop :=
  match v.fsm.state with
  | .idle | .done => v.Still T ∧ v.Quiet
  | .pushLaunch => v.Rising cfg T ∧ v.Quiet ∧ v.fsm.targetIdx = v.fsm.size
  | .pushRdParentIssue => v.Rising cfg T ∧ v.Quiet ∧ 0 < v.fsm.targetIdx
  | .pushRdParentWait => v.Rising cfg T ∧ v.ReadWait v.fsm.parentIdx ∧ 0 < v.fsm.targetIdx
  | .pushDecide =>
    v.Rising cfg T ∧ v.Quiet ∧ 0 < v.fsm.targetIdx ∧ v.fsm.parentNode = v.node v.fsm.parentIdx
  | .pushWrDownIssue =>
    v.Rising cfg T ∧ v.Quiet ∧ 0 < v.fsm.targetIdx ∧ v.fsm.parentNode = v.node v.fsm.parentIdx ∧
      aWins cfg.kind v.fsm.curNode v.fsm.parentNode = true
  | .pushWrDownWait =>
    v.Rising cfg T ∧ v.WriteWait v.fsm.targetIdx v.fsm.parentNode ∧ 0 < v.fsm.targetIdx ∧
      v.fsm.parentNode = v.node v.fsm.parentIdx ∧ aWins cfg.kind v.fsm.curNode v.fsm.parentNode = true
  | .pushWrFinalIssue =>
    v.Rising cfg T ∧ v.Quiet ∧
      (0 < v.fsm.targetIdx → aWins cfg.kind v.fsm.curNode (v.node v.fsm.parentIdx) = false)
  | .pushWrFinalWait =>
    v.Rising cfg T ∧ v.WriteWait v.fsm.targetIdx v.fsm.curNode ∧
      (0 < v.fsm.targetIdx → aWins cfg.kind v.fsm.curNode (v.node v.fsm.parentIdx) = false)
  | .popLaunch => v.Quiet ∧ if v.fsm.size = 0 then v.Still T else v.Headed cfg e T
  | .popRdRootIssue => v.Headed cfg e T ∧ v.Quiet
  | .popRdRootWait => v.Headed cfg e T ∧ v.ReadWait 0
  | .popRdLastIssue => v.Headed cfg e T ∧ v.Quiet ∧ 2 ≤ v.fsm.size
  | .popRdLastWait => v.Headed cfg e T ∧ v.ReadWait (v.fsm.size - 1) ∧ 2 ≤ v.fsm.size
  | .popSiftRdLeftIssue => v.Sinking cfg e T ∧ v.Quiet
  | .popSiftRdLeftWait => v.Sinking cfg e T ∧ v.ReadWait v.fsm.leftIdx ∧ v.fsm.leftIdx < v.fsm.size
  | .popSiftRdRightIssue =>
    v.Sinking cfg e T ∧ v.Quiet ∧ v.fsm.leftIdx < v.fsm.size ∧ v.fsm.leftNode = v.node v.fsm.leftIdx
  | .popSiftRdRightWait =>
    v.Sinking cfg e T ∧ v.ReadWait v.fsm.rightIdx ∧ v.fsm.leftIdx < v.fsm.size ∧
      v.fsm.leftNode = v.node v.fsm.leftIdx ∧ v.fsm.rightIdx < v.fsm.size
  | .popSiftDecide => v.Sinking cfg e T ∧ v.Quiet ∧ v.Kids
  | .popSiftWrUpIssue => v.Sinking cfg e T ∧ v.Quiet ∧ v.Kids ∧ v.fsm.best cfg ≠ .cur
  | .popSiftWrUpWait =>
    v.Sinking cfg e T ∧ v.WriteWait v.fsm.targetIdx (v.fsm.bestNode cfg) ∧ v.Kids ∧ v.fsm.best cfg ≠ .cur
  | .popSiftWrFinalIssue =>
    v.Sinking cfg e T ∧ v.Quiet ∧
      bestChild (aWins cfg.kind) v.node v.fsm.curNode v.fsm.size v.fsm.targetIdx = none
  | .popSiftWrFinalWait =>
    v.Sinking cfg e T ∧ v.WriteWait v.fsm.targetIdx v.fsm.curNode ∧
      bestChild (aWins cfg.kind) v.node v.fsm.curNode v.fsm.size v.fsm.targetIdx = none
  | .peekRdIssue => v.Looking T ∧ v.Quiet
  | .peekRdWait => v.Looking T ∧ v.ReadWait 0
  | .updateWrIssue => v.Rooting T ∧ v.Quiet
  | .updateWrWait => v.Rooting T ∧ v.WriteWait 0 v.fsm.savedOpData

/-- A cache slot that a read consults mirrors the node stored there. The two states that read the
root are entered, and stay, with slot 0 invalid. -/
structure Sound (v : HeapView) : Prop where
  hit : v.fsm.memDoRead = true → v.fsm.memIdxCached = true → v.fsm.memIdxCacheData = v.node v.fsm.memIdx
  miss : v.fsm.state = .popRdRootIssue ∨ v.fsm.state = .peekRdIssue → v.fsm.nodeCacheValid 0 = false

variable {cfg : HeapCfg} {e : Nat} {i : HeapIn} {v v' : HeapView} {T : Shelf}

/-! ### Frames -/

theorem Job.frame {n : Nat} {f f' : Nat → Node} (h : v.Job T n f) (hs : v.Step cfg i v')
    (hsz : v'.fsm.size = v.fsm.size) (hf : ∀ j, j < n → f' j = f j) : v'.Job T n f' where
  cap := hsz ▸ h.cap
  mapped := hsz ▸ hs.mapped h.mapped
  size := h.size
  nodes j hj := (hf j hj).trans (h.nodes j hj)

theorem Still.frame (h : v.Still T) (hs : v.Step cfg i v') (hsz : v'.fsm.size = v.fsm.size)
    (hn : v'.node = v.node) : v'.Still T := by
  unfold Still at h ⊢
  rw [hsz, hn]
  exact h.frame hs hsz fun _ _ => rfl

theorem Rising.frame (h : v.Rising cfg T) (hs : v.Step cfg i v') (hc : v'.fsm.core = v.fsm.core)
    (hn : ∀ j, j ≠ v.fsm.targetIdx → v'.node j = v.node j) : v'.Rising cfg T := by
  have hsz : v'.fsm.size = v.fsm.size := congrArg HeapFsm.Core.size hc
  have ht : v'.fsm.targetIdx = v.fsm.targetIdx := congrArg HeapFsm.Core.targetIdx hc
  have hp : v'.fsm.parentIdx = v.fsm.parentIdx := congrArg HeapFsm.Core.parentIdx hc
  have hcur : v'.fsm.curNode = v.fsm.curNode := congrArg HeapFsm.Core.curNode hc
  have hle := h.le
  refine ⟨?_, ?_, ?_, ?_, ?_⟩ <;> simp only [hsz, ht, hp, hcur]
  · exact h.job.frame hs hsz (siftUp_congr (by omega) fun j _ hj => hn j hj)
  · exact h.le
  · exact h.par
  · exact fun hlt => hs.mapped (h.leaf hlt)
  · exact h.room

theorem Headed.frame (h : v.Headed cfg e T) (hs : v.Step cfg i v') (hsz : v'.fsm.size = v.fsm.size)
    (hn : v'.node = v.node) : v'.Headed cfg e T := by
  refine ⟨?_, hsz ▸ h.pos, ?_⟩ <;> rw [hsz, hn]
  · exact h.job.frame hs hsz fun _ _ => rfl
  · exact h.rest

theorem Sinking.frame (h : v.Sinking cfg e T) (hs : v.Step cfg i v') (hc : v'.fsm.core = v.fsm.core)
    (hn : ∀ j, j ≠ v.fsm.targetIdx → v'.node j = v.node j) : v'.Sinking cfg e T := by
  have hsz : v'.fsm.size = v.fsm.size := congrArg HeapFsm.Core.size hc
  have ht : v'.fsm.targetIdx = v.fsm.targetIdx := congrArg HeapFsm.Core.targetIdx hc
  have hl : v'.fsm.leftIdx = v.fsm.leftIdx := congrArg HeapFsm.Core.leftIdx hc
  have hr : v'.fsm.rightIdx = v.fsm.rightIdx := congrArg HeapFsm.Core.rightIdx hc
  have hcur : v'.fsm.curNode = v.fsm.curNode := congrArg HeapFsm.Core.curNode hc
  refine ⟨?_, ?_, ?_, ?_, ?_, ?_, ?_⟩ <;> simp only [hsz, ht, hl, hr, hcur]
  · exact h.job.frame hs hsz (siftDown_congr fun j _ hj => hn j hj)
  · exact h.cap
  · exact h.lt
  · exact h.exact
  · rw [← h.rest]
    exact siftEnd_congr fun j hj _ => hn j (Nat.ne_of_gt hj)
  · exact h.left
  · exact h.right

/-! ### `PUSH` -/

theorem Rising.parent_lt (h : v.Rising cfg T) (h0 : 0 < v.fsm.targetIdx) :
    v.fsm.parentIdx < v.fsm.targetIdx := by rw [h.par]; exact BinHeap.parent_lt h0

theorem Rising.target_max (h : v.Rising cfg T) : v.fsm.targetIdx < maxNodes := by
  exact Nat.lt_of_le_of_lt h.le h.room

theorem Rising.mapped_succ (h : v.Rising cfg T) (hs : v.Step cfg i v')
    (hw : privateNodes ≤ v.fsm.targetIdx →
      (v'.virt (v.fsm.targetIdx - privateNodes)).isSome = true) : v'.Mapped (v.fsm.size + 1) := by
  intro j hj
  have hle := h.le
  by_cases htl : v.fsm.targetIdx < v.fsm.size
  · exact hs.mapped (h.leaf htl) j hj
  · by_cases hjt : privateNodes + j = v.fsm.targetIdx
    · have := hw (by omega)
      rwa [show v.fsm.targetIdx - privateNodes = j by omega] at this
    · exact hs.mapped h.job.mapped j (by omega)

theorem track_pushLaunch (h : v.Track cfg e T) (hs : v.Step cfg i v') (hst : v.fsm.state = .pushLaunch) :
    v'.Track cfg e T := by
  simp only [Track, hst] at h
  obtain ⟨hp, hq, ht⟩ := h
  obtain ⟨hn, hq'⟩ := hs.node_eq (by simp [HeapFsm.memDoWrite, hst]) hq
  obtain ⟨hc, -⟩ := step_regs_eq hs (by simp [HeapFsm.regs, hst])
  have ht' : v'.fsm.targetIdx = v.fsm.targetIdx := congrArg HeapFsm.Core.targetIdx hc
  have hp' := hp.frame hs hc fun j _ => by rw [hn]
  by_cases h0 : v.fsm.size = 0
  · have hst' : v'.fsm.state = .pushWrFinalIssue := by
      rw [hs.fsm]; simp [HeapFsm.step, HeapFsm.nState, hst, h0]
    simp only [Track, hst']
    exact ⟨hp', hq', fun hpos => by omega⟩
  · have hst' : v'.fsm.state = .pushRdParentIssue := by
      rw [hs.fsm]; simp [HeapFsm.step, HeapFsm.nState, hst, h0]
    simp only [Track, hst']
    exact ⟨hp', hq', by omega⟩

theorem track_pushRdParentIssue (h : v.Track cfg e T) (hs : v.Step cfg i v') (ha : v.Sound)
    (hst : v.fsm.state = .pushRdParentIssue) : v'.Track cfg e T := by
  simp only [Track, hst] at h
  obtain ⟨hp, hq, ht⟩ := h
  have hrd : v.fsm.memDoRead = true := by simp [HeapFsm.memDoRead, hst]
  have hw : v.fsm.memDoWrite = false := by simp [HeapFsm.memDoWrite, hst]
  have hidx : v.fsm.memIdx = v.fsm.parentIdx := by simp [HeapFsm.memIdx, hst]
  obtain ⟨hn, hq'⟩ := hs.node_eq hw hq
  have hc : v'.fsm.core = v.fsm.core := by
    rw [hs.fsm]; simp only [HeapFsm.step, HeapFsm.core, HeapFsm.regs, hst]; split <;> rfl
  have hp' := hp.frame hs hc fun j _ => by rw [hn]
  have ht' : v'.fsm.targetIdx = v.fsm.targetIdx := congrArg HeapFsm.Core.targetIdx hc
  have hpi' : v'.fsm.parentIdx = v.fsm.parentIdx := congrArg HeapFsm.Core.parentIdx hc
  by_cases hhit : v.fsm.memIdxCached = true
  · have hst' : v'.fsm.state = .pushDecide := by
      rw [hs.fsm]; simp [HeapFsm.step, HeapFsm.nState, hst, hhit]
    have hpn : v'.fsm.parentNode = v.fsm.memIdxCacheData := by
      rw [hs.fsm]; simp [HeapFsm.step, HeapFsm.regs, hst, hhit]
    simp only [Track, hst']
    refine ⟨hp', hq', ht'.symm ▸ ht, ?_⟩
    rw [hpn, ha.hit hrd hhit, hidx, hpi', hn]
  · have hmiss := Bool.eq_false_iff.2 hhit
    have hst' : v'.fsm.state =
        if v.fsm.parentIdx < privateNodes ∨ i.virtReqReady = true then .pushRdParentWait
        else .pushRdParentIssue := by
      rw [hs.fsm]; simp [HeapFsm.step, HeapFsm.nState, hst, hmiss, issueTo_eq, hidx]
    by_cases hgo : v.fsm.parentIdx < privateNodes ∨ i.virtReqReady = true
    · rw [if_pos hgo] at hst'
      simp only [Track, hst', hpi']
      exact ⟨hp', hs.read_issue hrd hw hmiss hidx (Nat.lt_trans (hp.parent_lt ht) hp.target_max) hq hgo,
        ht'.symm ▸ ht⟩
    · rw [if_neg hgo] at hst'
      simp only [Track, hst']
      exact ⟨hp', hq', ht'.symm ▸ ht⟩

theorem track_pushRdParentWait (h : v.Track cfg e T) (hs : v.Step cfg i v')
    (hst : v.fsm.state = .pushRdParentWait) : v'.Track cfg e T := by
  simp only [Track, hst] at h
  obtain ⟨hp, hwait, ht⟩ := h
  have hw : v.fsm.memDoWrite = false := by simp [HeapFsm.memDoWrite, hst]
  have hlt := hp.parent_lt ht
  have hle := hp.le
  obtain ⟨hn, hq'⟩ := hs.node_eq hw hwait.1
  have hc : v'.fsm.core = v.fsm.core := by
    rw [hs.fsm]; simp only [HeapFsm.step, HeapFsm.core, HeapFsm.regs, hst]; split <;> rfl
  have hp' := hp.frame hs hc fun j _ => by rw [hn]
  have ht' : v'.fsm.targetIdx = v.fsm.targetIdx := congrArg HeapFsm.Core.targetIdx hc
  have hpi' : v'.fsm.parentIdx = v.fsm.parentIdx := congrArg HeapFsm.Core.parentIdx hc
  rcases hs.read_wait (by simp [HeapFsm.memDoRead, hst]) hw hwait (Nat.lt_trans hlt hp.target_max)
    (fun j hj => hp.job.mapped j (by omega)) with ⟨hd, hdata⟩ | ⟨hd, hr⟩ | ⟨hd, hr, hwait'⟩
  · have hst' : v'.fsm.state = .pushDecide := by
      rw [hs.fsm]; simp [HeapFsm.step, HeapFsm.nState, hst, hd]
    have hpn : v'.fsm.parentNode = v.fsm.readData i := by
      rw [hs.fsm]; simp [HeapFsm.step, HeapFsm.regs, hst, hd]
    simp only [Track, hst']
    refine ⟨hp', hq', ht'.symm ▸ ht, ?_⟩
    rw [hpn, hdata, hpi', hn]
  · have hst' : v'.fsm.state = .pushRdParentIssue := by
      rw [hs.fsm]; simp [HeapFsm.step, HeapFsm.nState, hst, hd, hr]
    simp only [Track, hst']
    exact ⟨hp', hq', ht'.symm ▸ ht⟩
  · have hst' : v'.fsm.state = .pushRdParentWait := by
      rw [hs.fsm]; simp [HeapFsm.step, HeapFsm.nState, hst, hd, hr]
    simp only [Track, hst', hpi']
    exact ⟨hp', hwait', ht'.symm ▸ ht⟩

theorem track_pushDecide (h : v.Track cfg e T) (hs : v.Step cfg i v') (hst : v.fsm.state = .pushDecide) :
    v'.Track cfg e T := by
  simp only [Track, hst] at h
  obtain ⟨hp, hq, ht, hpn⟩ := h
  obtain ⟨hn, hq'⟩ := hs.node_eq (by simp [HeapFsm.memDoWrite, hst]) hq
  obtain ⟨hc, -, -, hpn', -⟩ := step_regs_eq hs (by simp [HeapFsm.regs, hst])
  have hp' := hp.frame hs hc fun j _ => by rw [hn]
  have ht' : v'.fsm.targetIdx = v.fsm.targetIdx := congrArg HeapFsm.Core.targetIdx hc
  have hpi' : v'.fsm.parentIdx = v.fsm.parentIdx := congrArg HeapFsm.Core.parentIdx hc
  have hcur' : v'.fsm.curNode = v.fsm.curNode := congrArg HeapFsm.Core.curNode hc
  have hcmp : v.fsm.cmp0Result cfg = aWins cfg.kind v.fsm.curNode v.fsm.parentNode := by
    simp [HeapFsm.cmp0Result, HeapFsm.inPopSift, hst]
  cases hwin : aWins cfg.kind v.fsm.curNode v.fsm.parentNode with
  | true =>
    have hst' : v'.fsm.state = .pushWrDownIssue := by
      rw [hs.fsm]; simp [HeapFsm.step, HeapFsm.nState, hst, hcmp, hwin]
    simp only [Track, hst', ht', hpi', hcur', hpn', hn]
    exact ⟨hp', hq', ht, hpn, hwin⟩
  | false =>
    have hst' : v'.fsm.state = .pushWrFinalIssue := by
      rw [hs.fsm]; simp [HeapFsm.step, HeapFsm.nState, hst, hcmp, hwin]
    simp only [Track, hst', hpi', hcur', hn]
    exact ⟨hp', hq', fun _ => hpn ▸ hwin⟩

theorem track_pushWrDownIssue (h : v.Track cfg e T) (hs : v.Step cfg i v')
    (hst : v.fsm.state = .pushWrDownIssue) : v'.Track cfg e T := by
  simp only [Track, hst] at h
  obtain ⟨hp, hq, ht, hpn, hwin⟩ := h
  have hidx : v.fsm.memIdx = v.fsm.targetIdx := by simp [HeapFsm.memIdx, hst]
  obtain ⟨hc, -, -, hpn', -⟩ := step_regs_eq hs (by simp [HeapFsm.regs, hst])
  have ht' : v'.fsm.targetIdx = v.fsm.targetIdx := congrArg HeapFsm.Core.targetIdx hc
  have hpi' : v'.fsm.parentIdx = v.fsm.parentIdx := congrArg HeapFsm.Core.parentIdx hc
  have hcur' : v'.fsm.curNode = v.fsm.curNode := congrArg HeapFsm.Core.curNode hc
  obtain ⟨hoff, hwait⟩ := hs.write_issue (x := v.fsm.parentNode) (by simp [HeapFsm.memDoWrite, hst])
    hidx (by simp [HeapFsm.memWdata, hst]) hp.target_max hq
  have hp' := hp.frame hs hc hoff
  have hpar : v'.node v.fsm.parentIdx = v.node v.fsm.parentIdx := hoff _ (Nat.ne_of_lt (hp.parent_lt ht))
  have hst' : v'.fsm.state =
      if v.fsm.targetIdx < privateNodes ∨ i.virtReqReady = true then .pushWrDownWait
      else .pushWrDownIssue := by
    rw [hs.fsm]; simp [HeapFsm.step, HeapFsm.nState, hst, issueTo_eq, hidx]
  by_cases hgo : v.fsm.targetIdx < privateNodes ∨ i.virtReqReady = true
  · rw [if_pos hgo] at hst' hwait
    simp only [Track, hst', ht', hpi', hcur', hpn', hpar]
    exact ⟨hp', hwait, ht, hpn, hwin⟩
  · rw [if_neg hgo] at hst' hwait
    simp only [Track, hst', ht', hpi', hcur', hpn', hpar]
    exact ⟨hp', hwait.2, ht, hpn, hwin⟩

/-- The parent has been written into the hole: the hole moves up. -/
theorem Rising.ascend (h : v.Rising cfg T) (hs : v.Step cfg i v') (ht : 0 < v.fsm.targetIdx)
    (hwin : aWins cfg.kind v.fsm.curNode (v.node v.fsm.parentIdx) = true)
    (hn : v'.node = update v.node v.fsm.targetIdx (v.node v.fsm.parentIdx))
    (hmap : v'.Mapped (v.fsm.size + 1)) (hsz : v'.fsm.size = v.fsm.size)
    (ht' : v'.fsm.targetIdx = v.fsm.parentIdx)
    (hp' : v'.fsm.parentIdx = if v.fsm.parentIdx = 0 then 0 else (v.fsm.parentIdx - 1) / 2)
    (hcur : v'.fsm.curNode = v.fsm.curNode) : v'.Rising cfg T := by
  have hpt := h.parent_lt ht
  have hle := h.le
  refine ⟨?_, ?_, ?_, ?_, ?_⟩ <;> simp only [hsz, ht', hcur]
  · refine h.job.frame hs hsz fun j _ => ?_
    rw [siftUp_rise ht (by rw [← h.par]; exact hwin), hn, h.par]
  · omega
  · rw [hp']; unfold parent; split <;> omega
  · exact fun _ => hmap
  · exact h.room

theorem track_pushWrDownWait (h : v.Track cfg e T) (hs : v.Step cfg i v')
    (hst : v.fsm.state = .pushWrDownWait) : v'.Track cfg e T := by
  simp only [Track, hst] at h
  obtain ⟨hp, hwait, ht, hpn, hwin⟩ := h
  rcases hs.write_wait (by simp [HeapFsm.memDoWrite, hst]) hwait hp.target_max with
    ⟨hd, hn, hq', hmap⟩ | ⟨hd, hr, hn, hq'⟩ | ⟨hd, hr, hn, hwait'⟩
  · have hp' : v'.Rising cfg T := by
      refine hp.ascend hs ht (hpn ▸ hwin) (hpn ▸ hn) (hp.mapped_succ hs hmap) ?_ ?_ ?_ ?_ <;> rw [hs.fsm] <;>
        simp only [HeapFsm.step, HeapFsm.regs, hst, hd, if_true]
      · unfold HeapFsm.cacheTarget; split <;> rfl
      · unfold HeapFsm.cacheTarget; split <;> rfl
    have ht' : v'.fsm.targetIdx = v.fsm.parentIdx := by
      rw [hs.fsm]; simp [HeapFsm.step, HeapFsm.regs, hst, hd]
    by_cases h0 : v.fsm.parentIdx = 0
    · have hst' : v'.fsm.state = .pushWrFinalIssue := by
        rw [hs.fsm]; simp [HeapFsm.step, HeapFsm.nState, hst, hd, h0]
      simp only [Track, hst']
      exact ⟨hp', hq', fun hpos => by omega⟩
    · have hst' : v'.fsm.state = .pushRdParentIssue := by
        rw [hs.fsm]; simp [HeapFsm.step, HeapFsm.nState, hst, hd, h0]
      simp only [Track, hst']
      exact ⟨hp', hq', by omega⟩
  all_goals
    obtain ⟨hc, -, -, hpn', -⟩ := step_regs_eq hs (by simp [HeapFsm.regs, hst, hd])
    have ht' : v'.fsm.targetIdx = v.fsm.targetIdx := congrArg HeapFsm.Core.targetIdx hc
    have hpi' : v'.fsm.parentIdx = v.fsm.parentIdx := congrArg HeapFsm.Core.parentIdx hc
    have hcur' : v'.fsm.curNode = v.fsm.curNode := congrArg HeapFsm.Core.curNode hc
    have hp' := hp.frame hs hc fun j _ => by rw [hn]
  · have hst' : v'.fsm.state = .pushWrDownIssue := by
      rw [hs.fsm]; simp [HeapFsm.step, HeapFsm.nState, hst, hd, hr]
    simp only [Track, hst', ht', hpi', hcur', hpn', hn]
    exact ⟨hp', hq', ht, hpn, hwin⟩
  · have hst' : v'.fsm.state = .pushWrDownWait := by
      rw [hs.fsm]; simp [HeapFsm.step, HeapFsm.nState, hst, hd, hr]
    simp only [Track, hst', ht', hpi', hcur', hpn', hn]
    exact ⟨hp', hwait', ht, hpn, hwin⟩

theorem track_pushWrFinalIssue (h : v.Track cfg e T) (hs : v.Step cfg i v')
    (hst : v.fsm.state = .pushWrFinalIssue) : v'.Track cfg e T := by
  simp only [Track, hst] at h
  obtain ⟨hp, hq, hstop⟩ := h
  have hidx : v.fsm.memIdx = v.fsm.targetIdx := by simp [HeapFsm.memIdx, hst]
  obtain ⟨hc, -⟩ := step_regs_eq hs (by simp [HeapFsm.regs, hst])
  have ht' : v'.fsm.targetIdx = v.fsm.targetIdx := congrArg HeapFsm.Core.targetIdx hc
  have hpi' : v'.fsm.parentIdx = v.fsm.parentIdx := congrArg HeapFsm.Core.parentIdx hc
  have hcur' : v'.fsm.curNode = v.fsm.curNode := congrArg HeapFsm.Core.curNode hc
  obtain ⟨hoff, hwait⟩ := hs.write_issue (x := v.fsm.curNode) (by simp [HeapFsm.memDoWrite, hst])
    hidx (by simp [HeapFsm.memWdata, hst]) hp.target_max hq
  have hp' := hp.frame hs hc hoff
  have hstop' : 0 < v.fsm.targetIdx →
      aWins cfg.kind v.fsm.curNode (v'.node v.fsm.parentIdx) = false := fun ht => by
    rw [hoff _ (Nat.ne_of_lt (hp.parent_lt ht))]; exact hstop ht
  have hst' : v'.fsm.state =
      if v.fsm.targetIdx < privateNodes ∨ i.virtReqReady = true then .pushWrFinalWait
      else .pushWrFinalIssue := by
    rw [hs.fsm]; simp [HeapFsm.step, HeapFsm.nState, hst, issueTo_eq, hidx]
  by_cases hgo : v.fsm.targetIdx < privateNodes ∨ i.virtReqReady = true
  · rw [if_pos hgo] at hst' hwait
    simp only [Track, hst', ht', hpi', hcur']
    exact ⟨hp', hwait, hstop'⟩
  · rw [if_neg hgo] at hst' hwait
    simp only [Track, hst', ht', hpi', hcur']
    exact ⟨hp', hwait.2, hstop'⟩

theorem track_pushWrFinalWait (h : v.Track cfg e T) (hs : v.Step cfg i v')
    (hst : v.fsm.state = .pushWrFinalWait) : v'.Track cfg e T := by
  simp only [Track, hst] at h
  obtain ⟨hp, hwait, hstop⟩ := h
  have hsize := hp.job.size
  have hroom : v.fsm.size < 1088 := hp.room
  rcases hs.write_wait (by simp [HeapFsm.memDoWrite, hst]) hwait hp.target_max with
    ⟨hd, hn, hq', hmap⟩ | ⟨hd, hr, hn, hq'⟩ | ⟨hd, hr, hn, hwait'⟩
  · have hst' : v'.fsm.state = .done := by
      rw [hs.fsm]; simp [HeapFsm.step, HeapFsm.nState, hst, hd]
    have hsz : v'.fsm.size = v.fsm.size + 1 := by
      have : v'.fsm.size = (v.fsm.size + 1) % 2 ^ 11 := by
        rw [hs.fsm]; simp [HeapFsm.step, HeapFsm.regs, hst, hd]
      omega
    simp only [Track, hst']
    refine ⟨⟨?_, ?_, ?_, ?_⟩, hq'⟩ <;> rw [hsz]
    · exact hp.room
    · exact hp.mapped_succ hs hmap
    · exact hsize
    · intro j hj
      rw [hn, ← hp.job.nodes j hj, siftUp_stop fun h0 => by rw [← hp.par]; exact hstop h0]
  all_goals
    obtain ⟨hc, -⟩ := step_regs_eq hs (by simp [HeapFsm.regs, hst, hd])
    have ht' : v'.fsm.targetIdx = v.fsm.targetIdx := congrArg HeapFsm.Core.targetIdx hc
    have hpi' : v'.fsm.parentIdx = v.fsm.parentIdx := congrArg HeapFsm.Core.parentIdx hc
    have hcur' : v'.fsm.curNode = v.fsm.curNode := congrArg HeapFsm.Core.curNode hc
    have hp' := hp.frame hs hc fun j _ => by rw [hn]
  · have hst' : v'.fsm.state = .pushWrFinalIssue := by
      rw [hs.fsm]; simp [HeapFsm.step, HeapFsm.nState, hst, hd, hr]
    simp only [Track, hst', ht', hpi', hcur', hn]
    exact ⟨hp', hq', hstop⟩
  · have hst' : v'.fsm.state = .pushWrFinalWait := by
      rw [hs.fsm]; simp [HeapFsm.step, HeapFsm.nState, hst, hd, hr]
    simp only [Track, hst', ht', hpi', hcur', hn]
    exact ⟨hp', hwait', hstop⟩

/-- The size that a `PUSH` ends with. -/
theorem Rising.size_step (h : v.Rising cfg T) (hs : v.Step cfg i v') (hst : v.fsm.state = .pushWrFinalWait) :
    v'.fsm.size ≤ T.size := by
  have hsize := h.job.size
  rw [hs.fsm]
  simp only [HeapFsm.step, HeapFsm.regs, hst]
  split
  · exact Nat.le_trans (Nat.mod_le _ _) (by omega)
  · omega

/-! ### `POP` before the sift -/

theorem Job.of_size_zero {n : Nat} {f : Nat → Node} (h : v.Job T n f) (hn : n = 0) (hsz : v'.fsm.size = 0) :
    v'.Still T := by
  have hsize := h.size
  refine ⟨?_, ?_, ?_, ?_⟩ <;> rw [hsz]
  · exact Nat.zero_le _
  · intro j hj; omega
  · omega
  · intro j hj; omega

theorem track_popLaunch (h : v.Track cfg e T) (hs : v.Step cfg i v') (hst : v.fsm.state = .popLaunch) :
    v'.Track cfg e T := by
  simp only [Track, hst] at h
  obtain ⟨hq, h⟩ := h
  obtain ⟨hn, hq'⟩ := hs.node_eq (by simp [HeapFsm.memDoWrite, hst]) hq
  by_cases h0 : v.fsm.size = 0
  · rw [if_pos h0] at h
    have hst' : v'.fsm.state = .done := by
      rw [hs.fsm]; simp [HeapFsm.step, HeapFsm.nState, hst, h0]
    have hsz : v'.fsm.size = v.fsm.size := by rw [hs.fsm]; simp [HeapFsm.step, HeapFsm.regs, hst, h0]
    simp only [Track, hst']
    exact ⟨h.frame hs hsz hn, hq'⟩
  rw [if_neg h0] at h
  by_cases hval : v.fsm.nodeCacheValid 0 = true
  · by_cases h1 : v.fsm.size = 1
    · have hst' : v'.fsm.state = .done := by
        rw [hs.fsm]; simp [HeapFsm.step, HeapFsm.nState, hst, h1, hval]
      have hsz : v'.fsm.size = 0 := by rw [hs.fsm]; simp [HeapFsm.step, HeapFsm.regs, hst, h1, hval]
      simp only [Track, hst']
      exact ⟨h.job.of_size_zero (by omega) hsz, hq'⟩
    · have hst' : v'.fsm.state = .popRdLastIssue := by
        rw [hs.fsm]; simp [HeapFsm.step, HeapFsm.nState, hst, h0, h1, hval]
      have hsz : v'.fsm.size = v.fsm.size := by rw [hs.fsm]; simp [HeapFsm.step, HeapFsm.regs, hst, h1]
      simp only [Track, hst', hsz]
      exact ⟨h.frame hs hsz hn, hq', by omega⟩
  · have hst' : v'.fsm.state = .popRdRootIssue := by
      rw [hs.fsm]; simp [HeapFsm.step, HeapFsm.nState, hst, h0, hval]
    have hsz : v'.fsm.size = v.fsm.size := by rw [hs.fsm]; simp [HeapFsm.step, HeapFsm.regs, hst, hval]
    simp only [Track, hst']
    exact ⟨h.frame hs hsz hn, hq'⟩

/-- The private BRAM answers a read of the root in the next cycle. -/
theorem ReadWait.root_done (h : v.ReadWait 0) (hs : v.Step cfg i v') :
    v.fsm.readDone i = true ∧ v.fsm.readData i = v.node 0 := by
  have h0 := h.2
  rw [if_pos (by unfold privateNodes; omega)] at h0
  exact ⟨by simp [HeapFsm.readDone, h0.1], by simp only [HeapFsm.readData, h0.1, if_true, hs.rd, h0.2]⟩

/-- Issuing a read of the root that goes past the cache. -/
theorem Sound.root_issue (ha : v.Sound) (hs : v.Step cfg i v') (hq : v.Quiet)
    (hst : v.fsm.state = .popRdRootIssue ∨ v.fsm.state = .peekRdIssue) : v'.ReadWait 0 := by
  have hidx : v.fsm.memIdx = 0 := by rcases hst with hst | hst <;> simp [HeapFsm.memIdx, hst]
  have hmiss : v.fsm.memIdxCached = false := by simp [HeapFsm.memIdxCached, hidx, ha.miss hst]
  refine hs.read_issue ?_ ?_ hmiss hidx (by unfold maxNodes; omega) hq (.inl (by unfold privateNodes; omega))
  · rcases hst with hst | hst <;> simp [HeapFsm.memDoRead, hst]
  · rcases hst with hst | hst <;> simp [HeapFsm.memDoWrite, hst]

theorem track_popRdRootIssue (h : v.Track cfg e T) (hs : v.Step cfg i v') (ha : v.Sound)
    (hst : v.fsm.state = .popRdRootIssue) : v'.Track cfg e T := by
  simp only [Track, hst] at h
  obtain ⟨hp, hq⟩ := h
  obtain ⟨hn, -⟩ := hs.node_eq (by simp [HeapFsm.memDoWrite, hst]) hq
  have hst' : v'.fsm.state = .popRdRootWait := by
    rw [hs.fsm]
    simp [HeapFsm.step, HeapFsm.nState, hst, HeapFsm.issueTo, HeapFsm.memTargetPriv, isPrivate, HeapFsm.memIdx,
      privateNodes]
  have hsz : v'.fsm.size = v.fsm.size := by rw [hs.fsm]; simp [HeapFsm.step, HeapFsm.regs, hst]
  simp only [Track, hst']
  exact ⟨hp.frame hs hsz hn, ha.root_issue hs hq (.inl hst)⟩

theorem track_popRdRootWait (h : v.Track cfg e T) (hs : v.Step cfg i v')
    (hst : v.fsm.state = .popRdRootWait) : v'.Track cfg e T := by
  simp only [Track, hst] at h
  obtain ⟨hp, hwait⟩ := h
  have hpos := hp.pos
  obtain ⟨hn, hq'⟩ := hs.node_eq (by simp [HeapFsm.memDoWrite, hst]) hwait.1
  obtain ⟨hd, -⟩ := hwait.root_done hs
  by_cases h1 : v.fsm.size = 1
  · have hst' : v'.fsm.state = .done := by
      rw [hs.fsm]; simp [HeapFsm.step, HeapFsm.nState, hst, hd, h1]
    have hsz : v'.fsm.size = 0 := by rw [hs.fsm]; simp [HeapFsm.step, HeapFsm.regs, hst, hd, h1]
    simp only [Track, hst']
    exact ⟨hp.job.of_size_zero (by omega) hsz, hq'⟩
  · have hst' : v'.fsm.state = .popRdLastIssue := by
      rw [hs.fsm]; simp [HeapFsm.step, HeapFsm.nState, hst, hd, h1]
    have hsz : v'.fsm.size = v.fsm.size := by rw [hs.fsm]; simp [HeapFsm.step, HeapFsm.regs, hst, hd, h1]
    simp only [Track, hst', hsz]
    exact ⟨hp.frame hs hsz hn, hq', by omega⟩

/-- The last leaf has been taken: the hole is at the root. -/
theorem Headed.takeLast (h : v.Headed cfg e T) (h2 : 2 ≤ v.fsm.size) (hs : v.Step cfg i v')
    (hn : v'.node = v.node)
    (hf : v'.fsm.core = (v.fsm.takeLast (v.node (v.fsm.size - 1))).core) : v'.Sinking cfg e T := by
  have hcap : v.fsm.size ≤ 1088 := h.job.cap
  have hsz : v'.fsm.size = v.fsm.size - 1 := by
    have := congrArg HeapFsm.Core.size hf
    simp only [HeapFsm.core, HeapFsm.takeLast, HeapFsm.sizeMinusOne] at this
    omega
  have ht : v'.fsm.targetIdx = 0 := by
    simpa only [HeapFsm.core, HeapFsm.takeLast] using congrArg HeapFsm.Core.targetIdx hf
  have hcur : v'.fsm.curNode = v.node (v.fsm.size - 1) := congrArg HeapFsm.Core.curNode hf
  refine ⟨⟨?_, ?_, ?_, ?_⟩, ?_, ?_, ?_, ?_, ?_, ?_⟩ <;> simp only [hsz, ht, hcur, hn]
  · exact Nat.le_trans (Nat.sub_le _ _) hcap
  · exact hs.mapped fun j hj => h.job.mapped j (by omega)
  · exact h.job.size
  · exact h.job.nodes
  · unfold maxNodes; omega
  · omega
  · omega
  · exact h.rest
  · simpa only [HeapFsm.core, HeapFsm.takeLast] using congrArg HeapFsm.Core.leftIdx hf
  · simpa only [HeapFsm.core, HeapFsm.takeLast] using congrArg HeapFsm.Core.rightIdx hf

theorem track_popRdLastIssue (h : v.Track cfg e T) (hs : v.Step cfg i v') (ha : v.Sound)
    (hst : v.fsm.state = .popRdLastIssue) : v'.Track cfg e T := by
  simp only [Track, hst] at h
  obtain ⟨hp, hq, h2⟩ := h
  have hcap : v.fsm.size ≤ 1088 := hp.job.cap
  have hrd : v.fsm.memDoRead = true := by simp [HeapFsm.memDoRead, hst]
  have hw : v.fsm.memDoWrite = false := by simp [HeapFsm.memDoWrite, hst]
  have hidx : v.fsm.memIdx = v.fsm.size - 1 := by
    simp only [HeapFsm.memIdx, hst, HeapFsm.sizeMinusOne]; omega
  obtain ⟨hn, hq'⟩ := hs.node_eq hw hq
  by_cases hhit : v.fsm.memIdxCached = true
  · have hst' : v'.fsm.state = .popSiftRdLeftIssue := by
      rw [hs.fsm]; simp [HeapFsm.step, HeapFsm.nState, hst, hhit]
    simp only [Track, hst']
    refine ⟨hp.takeLast h2 hs hn ?_, hq'⟩
    rw [← hidx, ← ha.hit hrd hhit, hs.fsm]
    simp only [HeapFsm.step, HeapFsm.core, HeapFsm.regs, hst, hhit, if_true]
  · have hmiss := Bool.eq_false_iff.2 hhit
    have hsz : v'.fsm.size = v.fsm.size := by rw [hs.fsm]; simp [HeapFsm.step, HeapFsm.regs, hst, hmiss]
    have hp' := hp.frame hs hsz hn
    have hst' : v'.fsm.state =
        if v.fsm.size - 1 < privateNodes ∨ i.virtReqReady = true then .popRdLastWait
        else .popRdLastIssue := by
      rw [hs.fsm]; simp [HeapFsm.step, HeapFsm.nState, hst, hmiss, issueTo_eq, hidx]
    by_cases hgo : v.fsm.size - 1 < privateNodes ∨ i.virtReqReady = true
    · rw [if_pos hgo] at hst'
      simp only [Track, hst', hsz]
      exact ⟨hp', hs.read_issue hrd hw hmiss hidx (by unfold maxNodes; omega) hq hgo, h2⟩
    · rw [if_neg hgo] at hst'
      simp only [Track, hst', hsz]
      exact ⟨hp', hq', h2⟩

theorem track_popRdLastWait (h : v.Track cfg e T) (hs : v.Step cfg i v')
    (hst : v.fsm.state = .popRdLastWait) : v'.Track cfg e T := by
  simp only [Track, hst] at h
  obtain ⟨hp, hwait, h2⟩ := h
  have hcap : v.fsm.size ≤ 1088 := hp.job.cap
  have hw : v.fsm.memDoWrite = false := by simp [HeapFsm.memDoWrite, hst]
  obtain ⟨hn, hq'⟩ := hs.node_eq hw hwait.1
  rcases hs.read_wait (by simp [HeapFsm.memDoRead, hst]) hw hwait (by unfold maxNodes; omega)
    (fun j hj => hp.job.mapped j (by omega)) with ⟨hd, hdata⟩ | ⟨hd, hr⟩ | ⟨hd, hr, hwait'⟩
  · have hst' : v'.fsm.state = .popSiftRdLeftIssue := by
      rw [hs.fsm]; simp [HeapFsm.step, HeapFsm.nState, hst, hd]
    simp only [Track, hst']
    refine ⟨hp.takeLast h2 hs hn ?_, hq'⟩
    rw [← hdata, hs.fsm]
    simp only [HeapFsm.step, HeapFsm.core, HeapFsm.regs, hst, hd, if_true]
  all_goals
    have hsz : v'.fsm.size = v.fsm.size := by rw [hs.fsm]; simp [HeapFsm.step, HeapFsm.regs, hst, hd]
    have hp' := hp.frame hs hsz hn
  · have hst' : v'.fsm.state = .popRdLastIssue := by
      rw [hs.fsm]; simp [HeapFsm.step, HeapFsm.nState, hst, hd, hr]
    simp only [Track, hst', hsz]
    exact ⟨hp', hq', h2⟩
  · have hst' : v'.fsm.state = .popRdLastWait := by
      rw [hs.fsm]; simp [HeapFsm.step, HeapFsm.nState, hst, hd, hr]
    simp only [Track, hst', hsz]
    exact ⟨hp', hwait', h2⟩

/-! ### Sifting down -/

theorem Sinking.target_max (h : v.Sinking cfg e T) : v.fsm.targetIdx < maxNodes := by
  exact Nat.lt_trans h.lt h.cap

/-- `best` picks the child that `bestChild` picks. -/
theorem Sinking.best_eq (h : v.Sinking cfg e T) (hk : v.Kids) (hsift : v.fsm.inPopSift = true) :
    bestChild (aWins cfg.kind) v.node v.fsm.curNode v.fsm.size v.fsm.targetIdx =
      match v.fsm.best cfg with
      | .cur => none
      | .left => some v.fsm.leftIdx
      | .right => some v.fsm.rightIdx := by
  have h0 : v.fsm.cmp0Result cfg = aWins cfg.kind (v.node v.fsm.leftIdx) v.fsm.curNode := by
    simp [HeapFsm.cmp0Result, hsift, hk.left]
  unfold bestChild HeapFsm.best
  rw [← h.left, ← h.right, hk.has, h0]
  simp only [hk.left_lt, true_and, decide_true, Bool.true_and]
  by_cases hr : v.fsm.rightIdx < v.fsm.size
  · have h1 : v.fsm.cmp1Result cfg = aWins cfg.kind (v.node v.fsm.rightIdx)
        (if aWins cfg.kind (v.node v.fsm.leftIdx) v.fsm.curNode then v.node v.fsm.leftIdx
          else v.fsm.curNode) := by
      simp only [HeapFsm.cmp1Result, h0, hk.left, hk.right hr]
    simp only [hr, true_and, decide_true, Bool.true_and, h1]
    split_ifs <;> rfl
  · simp only [hr, false_and, if_false, decide_false, Bool.false_and, Bool.false_eq_true]
    split_ifs <;> rfl

/-- A hole without children inside the heap stays where it is. -/
theorem Sinking.leaf (h : v.Sinking cfg e T) (hend : v.fsm.size ≤ v.fsm.leftIdx) :
    bestChild (aWins cfg.kind) v.node v.fsm.curNode v.fsm.size v.fsm.targetIdx = none := by
  have hl := h.left
  unfold bestChild
  rw [if_neg fun hc => by have := hc.1; omega, if_neg fun hc => by have := hc.1; omega]

theorem track_popSiftRdLeftIssue (h : v.Track cfg e T) (hs : v.Step cfg i v') (ha : v.Sound)
    (hst : v.fsm.state = .popSiftRdLeftIssue) : v'.Track cfg e T := by
  simp only [Track, hst] at h
  obtain ⟨hp, hq⟩ := h
  have hcap : v.fsm.size < 1088 := hp.cap
  have hrd : v.fsm.memDoRead = true := by simp [HeapFsm.memDoRead, hst]
  have hw : v.fsm.memDoWrite = false := by simp [HeapFsm.memDoWrite, hst]
  have hidx : v.fsm.memIdx = v.fsm.leftIdx := by simp [HeapFsm.memIdx, hst]
  obtain ⟨hn, hq'⟩ := hs.node_eq hw hq
  have hc : v'.fsm.core = v.fsm.core := by
    rw [hs.fsm]; simp only [HeapFsm.step, HeapFsm.core, HeapFsm.regs, hst]; split <;> rfl
  have hp' := hp.frame hs hc fun j _ => by rw [hn]
  have hsz : v'.fsm.size = v.fsm.size := congrArg HeapFsm.Core.size hc
  have ht' : v'.fsm.targetIdx = v.fsm.targetIdx := congrArg HeapFsm.Core.targetIdx hc
  have hl' : v'.fsm.leftIdx = v.fsm.leftIdx := congrArg HeapFsm.Core.leftIdx hc
  by_cases hend : v.fsm.size ≤ v.fsm.leftIdx
  · -- a read past the end may have been issued: nobody waits for its answer
    have hst' : v'.fsm.state = .popSiftWrFinalIssue := by
      rw [hs.fsm]; simp [HeapFsm.step, HeapFsm.nState, hst, hend]
    simp only [Track, hst']
    exact ⟨hp', hq', hp'.leaf (by omega)⟩
  have hlt : v.fsm.leftIdx < v.fsm.size := Nat.not_le.1 hend
  by_cases hhit : v.fsm.memIdxCached = true
  · have hst' : v'.fsm.state = .popSiftRdRightIssue := by
      rw [hs.fsm]; simp [HeapFsm.step, HeapFsm.nState, hst, hend, hhit]
    have hln : v'.fsm.leftNode = v.fsm.memIdxCacheData := by
      rw [hs.fsm]; simp [HeapFsm.step, HeapFsm.regs, hst, hlt, hhit]
    simp only [Track, hst', hsz, hl', hn, hln]
    exact ⟨hp', hq', hlt, by rw [ha.hit hrd hhit, hidx]⟩
  · have hmiss := Bool.eq_false_iff.2 hhit
    have hst' : v'.fsm.state =
        if v.fsm.leftIdx < privateNodes ∨ i.virtReqReady = true then .popSiftRdLeftWait
        else .popSiftRdLeftIssue := by
      rw [hs.fsm]; simp [HeapFsm.step, HeapFsm.nState, hst, hend, hmiss, issueTo_eq, hidx]
    by_cases hgo : v.fsm.leftIdx < privateNodes ∨ i.virtReqReady = true
    · rw [if_pos hgo] at hst'
      simp only [Track, hst', hsz, hl']
      exact ⟨hp', hs.read_issue hrd hw hmiss hidx (by unfold maxNodes; omega) hq hgo, hlt⟩
    · rw [if_neg hgo] at hst'
      simp only [Track, hst']
      exact ⟨hp', hq'⟩

theorem track_popSiftRdLeftWait (h : v.Track cfg e T) (hs : v.Step cfg i v')
    (hst : v.fsm.state = .popSiftRdLeftWait) : v'.Track cfg e T := by
  simp only [Track, hst] at h
  obtain ⟨hp, hwait, hlt⟩ := h
  have hcap : v.fsm.size < 1088 := hp.cap
  have hw : v.fsm.memDoWrite = false := by simp [HeapFsm.memDoWrite, hst]
  obtain ⟨hn, hq'⟩ := hs.node_eq hw hwait.1
  have hc : v'.fsm.core = v.fsm.core := by
    rw [hs.fsm]; simp only [HeapFsm.step, HeapFsm.core, HeapFsm.regs, hst]; split <;> rfl
  have hp' := hp.frame hs hc fun j _ => by rw [hn]
  have hsz : v'.fsm.size = v.fsm.size := congrArg HeapFsm.Core.size hc
  have hl' : v'.fsm.leftIdx = v.fsm.leftIdx := congrArg HeapFsm.Core.leftIdx hc
  rcases hs.read_wait (by simp [HeapFsm.memDoRead, hst]) hw hwait (by unfold maxNodes; omega)
    (fun j hj => hp.job.mapped j (by omega)) with ⟨hd, hdata⟩ | ⟨hd, hr⟩ | ⟨hd, hr, hwait'⟩
  · have hst' : v'.fsm.state = .popSiftRdRightIssue := by
      rw [hs.fsm]; simp [HeapFsm.step, HeapFsm.nState, hst, hd]
    have hln : v'.fsm.leftNode = v.fsm.readData i := by
      rw [hs.fsm]; simp [HeapFsm.step, HeapFsm.regs, hst, hd]
    simp only [Track, hst', hsz, hl', hn, hln, hdata]
    exact ⟨hp', hq', hlt, trivial⟩
  · have hst' : v'.fsm.state = .popSiftRdLeftIssue := by
      rw [hs.fsm]; simp [HeapFsm.step, HeapFsm.nState, hst, hd, hr]
    simp only [Track, hst']
    exact ⟨hp', hq'⟩
  · have hst' : v'.fsm.state = .popSiftRdLeftWait := by
      rw [hs.fsm]; simp [HeapFsm.step, HeapFsm.nState, hst, hd, hr]
    simp only [Track, hst', hsz, hl']
    exact ⟨hp', hwait', hlt⟩

theorem track_popSiftRdRightIssue (h : v.Track cfg e T) (hs : v.Step cfg i v') (ha : v.Sound)
    (hst : v.fsm.state = .popSiftRdRightIssue) : v'.Track cfg e T := by
  simp only [Track, hst] at h
  obtain ⟨hp, hq, hlt, hleft⟩ := h
  have hcap : v.fsm.size < 1088 := hp.cap
  have hrd : v.fsm.memDoRead = true := by simp [HeapFsm.memDoRead, hst]
  have hw : v.fsm.memDoWrite = false := by simp [HeapFsm.memDoWrite, hst]
  have hidx : v.fsm.memIdx = v.fsm.rightIdx := by simp [HeapFsm.memIdx, hst]
  obtain ⟨hn, hq'⟩ := hs.node_eq hw hq
  have hc : v'.fsm.core = v.fsm.core := by
    rw [hs.fsm]; simp only [HeapFsm.step, HeapFsm.core, HeapFsm.regs, hst]
    split
    · rfl
    · split <;> rfl
  have hp' := hp.frame hs hc fun j _ => by rw [hn]
  have hsz : v'.fsm.size = v.fsm.size := congrArg HeapFsm.Core.size hc
  have hl' : v'.fsm.leftIdx = v.fsm.leftIdx := congrArg HeapFsm.Core.leftIdx hc
  have hr' : v'.fsm.rightIdx = v.fsm.rightIdx := congrArg HeapFsm.Core.rightIdx hc
  have hln : v'.fsm.leftNode = v.fsm.leftNode := by
    rw [hs.fsm]; simp only [HeapFsm.step, HeapFsm.regs, hst]
    split
    · rfl
    · split <;> rfl
  by_cases hend : v.fsm.size ≤ v.fsm.rightIdx
  · have hst' : v'.fsm.state = .popSiftDecide := by
      rw [hs.fsm]; simp [HeapFsm.step, HeapFsm.nState, hst, hend]
    have hhas : v'.fsm.hasRight = false := by
      rw [hs.fsm]; simp [HeapFsm.step, HeapFsm.regs, hst, hend]
    simp only [Track, hst']
    refine ⟨hp', hq', ⟨?_, ?_, ?_, ?_⟩⟩ <;> simp only [hsz, hl', hr', hn, hln, hhas]
    exacts [hlt, hleft, by simp [Nat.not_lt.2 hend], fun h => absurd h (Nat.not_lt.2 hend)]
  have hrlt : v.fsm.rightIdx < v.fsm.size := Nat.not_le.1 hend
  by_cases hhit : v.fsm.memIdxCached = true
  · have hst' : v'.fsm.state = .popSiftDecide := by
      rw [hs.fsm]; simp [HeapFsm.step, HeapFsm.nState, hst, hend, hhit]
    have hrn : v'.fsm.rightNode = v.fsm.memIdxCacheData ∧ v'.fsm.hasRight = true := by
      rw [hs.fsm]; simp [HeapFsm.step, HeapFsm.regs, hst, hend, hhit]
    simp only [Track, hst']
    refine ⟨hp', hq', ⟨?_, ?_, ?_, ?_⟩⟩ <;> simp only [hsz, hl', hr', hn, hln, hrn]
    exacts [hlt, hleft, by simp [hrlt], fun _ => by rw [ha.hit hrd hhit, hidx]]
  · have hmiss := Bool.eq_false_iff.2 hhit
    have hst' : v'.fsm.state =
        if v.fsm.rightIdx < privateNodes ∨ i.virtReqReady = true then .popSiftRdRightWait
        else .popSiftRdRightIssue := by
      rw [hs.fsm]; simp [HeapFsm.step, HeapFsm.nState, hst, hend, hmiss, issueTo_eq, hidx]
    by_cases hgo : v.fsm.rightIdx < privateNodes ∨ i.virtReqReady = true
    · rw [if_pos hgo] at hst'
      simp only [Track, hst', hsz, hl', hr', hn, hln]
      exact ⟨hp', hs.read_issue hrd hw hmiss hidx (by unfold maxNodes; omega) hq hgo, hlt, hleft, hrlt⟩
    · rw [if_neg hgo] at hst'
      simp only [Track, hst', hsz, hl', hn, hln]
      exact ⟨hp', hq', hlt, hleft⟩

theorem track_popSiftRdRightWait (h : v.Track cfg e T) (hs : v.Step cfg i v')
    (hst : v.fsm.state = .popSiftRdRightWait) : v'.Track cfg e T := by
  simp only [Track, hst] at h
  obtain ⟨hp, hwait, hlt, hleft, hrlt⟩ := h
  have hcap : v.fsm.size < 1088 := hp.cap
  have hw : v.fsm.memDoWrite = false := by simp [HeapFsm.memDoWrite, hst]
  obtain ⟨hn, hq'⟩ := hs.node_eq hw hwait.1
  have hc : v'.fsm.core = v.fsm.core := by
    rw [hs.fsm]; simp only [HeapFsm.step, HeapFsm.core, HeapFsm.regs, hst]; split <;> rfl
  have hp' := hp.frame hs hc fun j _ => by rw [hn]
  have hsz : v'.fsm.size = v.fsm.size := congrArg HeapFsm.Core.size hc
  have hl' : v'.fsm.leftIdx = v.fsm.leftIdx := congrArg HeapFsm.Core.leftIdx hc
  have hr' : v'.fsm.rightIdx = v.fsm.rightIdx := congrArg HeapFsm.Core.rightIdx hc
  have hln : v'.fsm.leftNode = v.fsm.leftNode := by
    rw [hs.fsm]; simp only [HeapFsm.step, HeapFsm.regs, hst]; split <;> rfl
  rcases hs.read_wait (by simp [HeapFsm.memDoRead, hst]) hw hwait (by unfold maxNodes; omega)
    (fun j hj => hp.job.mapped j (by omega)) with ⟨hd, hdata⟩ | ⟨hd, hr⟩ | ⟨hd, hr, hwait'⟩
  · have hst' : v'.fsm.state = .popSiftDecide := by
      rw [hs.fsm]; simp [HeapFsm.step, HeapFsm.nState, hst, hd]
    have hrn : v'.fsm.rightNode = v.fsm.readData i ∧ v'.fsm.hasRight = true := by
      rw [hs.fsm]; simp [HeapFsm.step, HeapFsm.regs, hst, hd]
    simp only [Track, hst']
    refine ⟨hp', hq', ⟨?_, ?_, ?_, ?_⟩⟩ <;> simp only [hsz, hl', hr', hn, hln, hrn, hdata]
    exacts [hlt, hleft, by simp [hrlt], fun _ => trivial]
  · have hst' : v'.fsm.state = .popSiftRdRightIssue := by
      rw [hs.fsm]; simp [HeapFsm.step, HeapFsm.nState, hst, hd, hr]
    simp only [Track, hst', hsz, hl', hn, hln]
    exact ⟨hp', hq', hlt, hleft⟩
  · have hst' : v'.fsm.state = .popSiftRdRightWait := by
      rw [hs.fsm]; simp [HeapFsm.step, HeapFsm.nState, hst, hd, hr]
    simp only [Track, hst', hsz, hl', hr', hn, hln]
    exact ⟨hp', hwait', hlt, hleft, hrlt⟩

theorem track_popSiftDecide (h : v.Track cfg e T) (hs : v.Step cfg i v')
    (hst : v.fsm.state = .popSiftDecide) : v'.Track cfg e T := by
  simp only [Track, hst] at h
  obtain ⟨hp, hq, hk⟩ := h
  obtain ⟨hn, hq'⟩ := hs.node_eq (by simp [HeapFsm.memDoWrite, hst]) hq
  obtain ⟨hc, hl, hr, hpn, hh⟩ := step_regs_eq hs (by simp [HeapFsm.regs, hst])
  have hp' := hp.frame hs hc fun j _ => by rw [hn]
  have hk' := hk.frame hc hl hr hh (by rw [hn]) (by rw [hn])
  have hbest := hp.best_eq hk (by simp [HeapFsm.inPopSift, hst])
  by_cases hb : v.fsm.best cfg = .cur
  · have hst' : v'.fsm.state = .popSiftWrFinalIssue := by
      rw [hs.fsm]; simp [HeapFsm.step, HeapFsm.nState, hst, hb]
    have hsz : v'.fsm.size = v.fsm.size := congrArg HeapFsm.Core.size hc
    have ht' : v'.fsm.targetIdx = v.fsm.targetIdx := congrArg HeapFsm.Core.targetIdx hc
    have hcur : v'.fsm.curNode = v.fsm.curNode := congrArg HeapFsm.Core.curNode hc
    simp only [Track, hst', hsz, ht', hcur, hn, hbest, hb]
    exact ⟨hp', hq', trivial⟩
  · have hst' : v'.fsm.state = .popSiftWrUpIssue := by
      rw [hs.fsm]; simp [HeapFsm.step, HeapFsm.nState, hst, hb]
    have hb' := best_congr cfg (by simp [HeapFsm.inPopSift, hst, hst']) hc hl hr hpn hh
    simp only [Track, hst', hb'.1]
    exact ⟨hp', hq', hk', hb⟩

theorem track_popSiftWrUpIssue (h : v.Track cfg e T) (hs : v.Step cfg i v')
    (hst : v.fsm.state = .popSiftWrUpIssue) : v'.Track cfg e T := by
  simp only [Track, hst] at h
  obtain ⟨hp, hq, hk, hb⟩ := h
  have hl0 := hp.left
  have hr0 := hp.right
  have hidx : v.fsm.memIdx = v.fsm.targetIdx := by simp [HeapFsm.memIdx, hst]
  obtain ⟨hc, hl, hr, hpn, hh⟩ := step_regs_eq hs (by simp [HeapFsm.regs, hst])
  have ht' : v'.fsm.targetIdx = v.fsm.targetIdx := congrArg HeapFsm.Core.targetIdx hc
  obtain ⟨hoff, hwait⟩ := hs.write_issue (x := v.fsm.bestNode cfg)
    (by simp [HeapFsm.memDoWrite, hst]) hidx (by simp [HeapFsm.memWdata, hst]) hp.target_max hq
  have hp' := hp.frame hs hc hoff
  have hk' := hk.frame hc hl hr hh (hoff _ (by omega)) (hoff _ (by omega))
  have hst' : v'.fsm.state =
      if v.fsm.targetIdx < privateNodes ∨ i.virtReqReady = true then .popSiftWrUpWait
      else .popSiftWrUpIssue := by
    rw [hs.fsm]; simp [HeapFsm.step, HeapFsm.nState, hst, issueTo_eq, hidx]
  have hb' := best_congr cfg (h := v.fsm)
    (by simp only [HeapFsm.inPopSift, hst, hst']; split <;> simp_all) hc hl hr hpn hh
  by_cases hgo : v.fsm.targetIdx < privateNodes ∨ i.virtReqReady = true
  · rw [if_pos hgo] at hst' hwait
    simp only [Track, hst', ht', hb'.1, hb'.2]
    exact ⟨hp', hwait, hk', hb⟩
  · rw [if_neg hgo] at hst' hwait
    simp only [Track, hst', hb'.1]
    exact ⟨hp', hwait.2, hk', hb⟩

/-- The hole is at a cell whose right child has an index of more than 11 bits. -/
def Wrapped (v : HeapView) : Prop :=
  v.fsm.state = .popSiftRdLeftIssue ∧ v.fsm.rightIdx ≠ 2 * v.fsm.targetIdx + 2

/-- The better child has been written into the hole: the hole moves down to the child `c`. -/
theorem Sinking.descend {c : Nat} (h : v.Sinking cfg e T) (hs : v.Step cfg i v')
    (hbest : bestChild (aWins cfg.kind) v.node v.fsm.curNode v.fsm.size v.fsm.targetIdx = some c)
    (hn : v'.node = update v.node v.fsm.targetIdx (v.node c)) (hst' : v'.fsm.state = .popSiftRdLeftIssue)
    (hf : v'.fsm.core = ((v.fsm.cacheTarget (v.node c)).descendTo c).core) :
    v'.Sinking cfg e T ∨ 1023 ≤ e ∧ v'.Wrapped := by
  obtain ⟨htc, hcn⟩ := bestChild_range hbest
  have hsz : v'.fsm.size = v.fsm.size := by
    refine (congrArg HeapFsm.Core.size hf).trans ?_
    simp only [HeapFsm.core, HeapFsm.descendTo, HeapFsm.cacheTarget]; split <;> rfl
  have hcur : v'.fsm.curNode = v.fsm.curNode := by
    refine (congrArg HeapFsm.Core.curNode hf).trans ?_
    simp only [HeapFsm.core, HeapFsm.descendTo, HeapFsm.cacheTarget]; split <;> rfl
  have ht : v'.fsm.targetIdx = c := congrArg HeapFsm.Core.targetIdx hf
  have hl : v'.fsm.leftIdx = (2 * c + 1) % 2 ^ 11 := by
    simpa only [HeapFsm.core, HeapFsm.descendTo] using congrArg HeapFsm.Core.leftIdx hf
  have hr : v'.fsm.rightIdx = (2 * c + 2) % 2 ^ 11 := by
    simpa only [HeapFsm.core, HeapFsm.descendTo] using congrArg HeapFsm.Core.rightIdx hf
  have hrest := h.rest
  rw [siftEnd_sink hbest] at hrest
  by_cases hdeep : c < 1023
  · left
    refine ⟨?_, ?_, ?_, ?_, ?_, ?_, ?_⟩ <;> simp only [hsz, ht, hcur]
    · refine h.job.frame hs hsz fun j _ => ?_
      rw [siftDown_sink hbest, hn]
    · exact h.cap
    · exact hcn
    · exact hdeep
    · rw [hn]; exact hrest
    · rw [hl]; omega
    · rw [hr]; omega
  · -- the right child's index does not fit
    right
    have hend := (@siftEnd_range _ (aWins cfg.kind) (update v.node v.fsm.targetIdx (v.node c)) v.fsm.curNode
      v.fsm.size c).1
    refine ⟨by omega, ?_, ?_⟩
    · exact hst'
    · rw [hr, ht]; omega

theorem track_popSiftWrUpWait (h : v.Track cfg e T) (hs : v.Step cfg i v')
    (hst : v.fsm.state = .popSiftWrUpWait) : v'.Track cfg e T ∨ 1023 ≤ e ∧ v'.Wrapped := by
  simp only [Track, hst] at h
  obtain ⟨hp, hwait, hk, hb⟩ := h
  have hbest := hp.best_eq hk (by simp [HeapFsm.inPopSift, hst])
  rcases hs.write_wait (by simp [HeapFsm.memDoWrite, hst]) hwait hp.target_max with
    ⟨hd, hn, hq', hmap⟩ | ⟨hd, hr, hn, hq'⟩ | ⟨hd, hr, hn, hwait'⟩
  · have hst' : v'.fsm.state = .popSiftRdLeftIssue := by
      rw [hs.fsm]; simp [HeapFsm.step, HeapFsm.nState, hst, hd]
    suffices hsink : v'.Sinking cfg e T ∨ 1023 ≤ e ∧ v'.Wrapped by
      rcases hsink with hsink | hsink
      · left
        simp only [Track, hst']
        exact ⟨hsink, hq'⟩
      · exact .inr hsink
    have hf : v'.fsm.core = ((v.fsm.cacheTarget (v.fsm.bestNode cfg)).descendTo
        (if v.fsm.best cfg = .left then v.fsm.leftIdx else v.fsm.rightIdx)).core := by
      rw [hs.fsm]
      simp only [HeapFsm.step, HeapFsm.core, HeapFsm.regs, hst, hd, if_true]
    cases hcase : v.fsm.best cfg with
    | cur => exact absurd hcase hb
    | left =>
      have hnode : v.fsm.bestNode cfg = v.node v.fsm.leftIdx := by
        simp only [HeapFsm.bestNode, hcase, if_true, hk.left]
      rw [hcase] at hbest
      rw [hcase, if_pos rfl, hnode] at hf
      exact hp.descend hs hbest (hnode ▸ hn) hst' hf
    | right =>
      rw [hcase] at hbest
      have hnode : v.fsm.bestNode cfg = v.node v.fsm.rightIdx := by
        simp only [HeapFsm.bestNode, hcase, reduceCtorEq, if_false, hk.right (bestChild_range hbest).2]
      rw [hcase, if_neg (by decide), hnode] at hf
      exact hp.descend hs hbest (hnode ▸ hn) hst' hf
  all_goals
    obtain ⟨hc, hl, hrn, hpn, hh⟩ := step_regs_eq hs (by simp [HeapFsm.regs, hst, hd])
    have ht' : v'.fsm.targetIdx = v.fsm.targetIdx := congrArg HeapFsm.Core.targetIdx hc
    have hp' := hp.frame hs hc fun j _ => by rw [hn]
    have hk' := hk.frame hc hl hrn hh (by rw [hn]) (by rw [hn])
  · have hst' : v'.fsm.state = .popSiftWrUpIssue := by
      rw [hs.fsm]; simp [HeapFsm.step, HeapFsm.nState, hst, hd, hr]
    have hb' := best_congr cfg (by simp [HeapFsm.inPopSift, hst, hst']) hc hl hrn hpn hh
    left
    simp only [Track, hst', hb'.1]
    exact ⟨hp', hq', hk', hb⟩
  · have hst' : v'.fsm.state = .popSiftWrUpWait := by
      rw [hs.fsm]; simp [HeapFsm.step, HeapFsm.nState, hst, hd, hr]
    have hb' := best_congr cfg (by simp [HeapFsm.inPopSift, hst, hst']) hc hl hrn hpn hh
    left
    simp only [Track, hst', ht', hb'.1, hb'.2]
    exact ⟨hp', hwait', hk', hb⟩

theorem bestChild_off {kind : HeapKind} {x : Node} {n t : Nat}
    (hoff : ∀ j, j ≠ t → v'.node j = v.node j) :
    bestChild (aWins kind) v'.node x n t = bestChild (aWins kind) v.node x n t :=
  bestChild_congr fun j hj _ => hoff j (Nat.ne_of_gt hj)

theorem track_popSiftWrFinalIssue (h : v.Track cfg e T) (hs : v.Step cfg i v')
    (hst : v.fsm.state = .popSiftWrFinalIssue) : v'.Track cfg e T := by
  simp only [Track, hst] at h
  obtain ⟨hp, hq, hstop⟩ := h
  have hidx : v.fsm.memIdx = v.fsm.targetIdx := by simp [HeapFsm.memIdx, hst]
  obtain ⟨hc, -⟩ := step_regs_eq hs (by simp [HeapFsm.regs, hst])
  have hsz : v'.fsm.size = v.fsm.size := congrArg HeapFsm.Core.size hc
  have ht' : v'.fsm.targetIdx = v.fsm.targetIdx := congrArg HeapFsm.Core.targetIdx hc
  have hcur' : v'.fsm.curNode = v.fsm.curNode := congrArg HeapFsm.Core.curNode hc
  obtain ⟨hoff, hwait⟩ := hs.write_issue (x := v.fsm.curNode) (by simp [HeapFsm.memDoWrite, hst])
    hidx (by simp [HeapFsm.memWdata, hst]) hp.target_max hq
  have hp' := hp.frame hs hc hoff
  have hst' : v'.fsm.state =
      if v.fsm.targetIdx < privateNodes ∨ i.virtReqReady = true then .popSiftWrFinalWait
      else .popSiftWrFinalIssue := by
    rw [hs.fsm]; simp [HeapFsm.step, HeapFsm.nState, hst, issueTo_eq, hidx]
  by_cases hgo : v.fsm.targetIdx < privateNodes ∨ i.virtReqReady = true
  · rw [if_pos hgo] at hst' hwait
    simp only [Track, hst', hsz, ht', hcur', bestChild_off hoff]
    exact ⟨hp', hwait, hstop⟩
  · rw [if_neg hgo] at hst' hwait
    simp only [Track, hst', hsz, ht', hcur', bestChild_off hoff]
    exact ⟨hp', hwait.2, hstop⟩

theorem track_popSiftWrFinalWait (h : v.Track cfg e T) (hs : v.Step cfg i v')
    (hst : v.fsm.state = .popSiftWrFinalWait) : v'.Track cfg e T := by
  simp only [Track, hst] at h
  obtain ⟨hp, hwait, hstop⟩ := h
  rcases hs.write_wait (by simp [HeapFsm.memDoWrite, hst]) hwait hp.target_max with
    ⟨hd, hn, hq', hmap⟩ | ⟨hd, hr, hn, hq'⟩ | ⟨hd, hr, hn, hwait'⟩
  · have hst' : v'.fsm.state = .done := by
      rw [hs.fsm]; simp [HeapFsm.step, HeapFsm.nState, hst, hd]
    have hsz : v'.fsm.size = v.fsm.size := by
      rw [hs.fsm]
      simp only [HeapFsm.step, HeapFsm.regs, hst, hd, if_true, HeapFsm.cacheTarget]
      split <;> rfl
    simp only [Track, hst', Still, hsz]
    refine ⟨hp.job.frame hs hsz fun j _ => ?_, hq'⟩
    rw [siftDown_stop hstop, hn]
  all_goals
    obtain ⟨hc, -⟩ := step_regs_eq hs (by simp [HeapFsm.regs, hst, hd])
    have hsz : v'.fsm.size = v.fsm.size := congrArg HeapFsm.Core.size hc
    have ht' : v'.fsm.targetIdx = v.fsm.targetIdx := congrArg HeapFsm.Core.targetIdx hc
    have hcur' : v'.fsm.curNode = v.fsm.curNode := congrArg HeapFsm.Core.curNode hc
    have hp' := hp.frame hs hc fun j _ => by rw [hn]
  · have hst' : v'.fsm.state = .popSiftWrFinalIssue := by
      rw [hs.fsm]; simp [HeapFsm.step, HeapFsm.nState, hst, hd, hr]
    simp only [Track, hst', hsz, ht', hcur', hn]
    exact ⟨hp', hq', hstop⟩
  · have hst' : v'.fsm.state = .popSiftWrFinalWait := by
      rw [hs.fsm]; simp [HeapFsm.step, HeapFsm.nState, hst, hd, hr]
    simp only [Track, hst', hsz, ht', hcur', hn]
    exact ⟨hp', hwait', hstop⟩

/-! ### `PEEK`, `UPDATE` and the end of a command -/

theorem Looking.frame (h : v.Looking T) (hs : v.Step cfg i v') (hsz : v'.fsm.size = v.fsm.size)
    (hop : v'.fsm.savedOp = v.fsm.savedOp) (hd : v'.fsm.savedOpData = v.fsm.savedOpData)
    (hn : v'.node = v.node) : v'.Looking T := by
  unfold Looking at h ⊢
  rw [hsz, hop, hd, hn]
  exact h.frame hs hsz fun _ _ => rfl

theorem track_peekRdIssue (h : v.Track cfg e T) (hs : v.Step cfg i v') (ha : v.Sound)
    (hst : v.fsm.state = .peekRdIssue) : v'.Track cfg e T := by
  simp only [Track, hst] at h
  obtain ⟨hp, hq⟩ := h
  obtain ⟨hn, -⟩ := hs.node_eq (by simp [HeapFsm.memDoWrite, hst]) hq
  have hst' : v'.fsm.state = .peekRdWait := by
    rw [hs.fsm]
    simp [HeapFsm.step, HeapFsm.nState, hst, HeapFsm.issueTo, HeapFsm.memTargetPriv, isPrivate, HeapFsm.memIdx,
      privateNodes]
  have hregs : v.fsm.regs cfg i = v.fsm := by simp [HeapFsm.regs, hst]
  simp only [Track, hst']
  refine ⟨hp.frame hs ?_ ?_ ?_ hn, ha.root_issue hs hq (.inr hst)⟩ <;> rw [hs.fsm] <;>
    simp only [HeapFsm.step, hregs]

/-- A read of the root that no `UPDATE` waits for ends the command. -/
theorem track_peekRdWait (h : v.Track cfg e T) (hs : v.Step cfg i v') (hst : v.fsm.state = .peekRdWait)
    (hno : v.fsm.savedOp = .update → v.fsm.size = 0) : v'.Track cfg e T := by
  simp only [Track, hst] at h
  obtain ⟨hp, hwait⟩ := h
  obtain ⟨hn, hq'⟩ := hs.node_eq (by simp [HeapFsm.memDoWrite, hst]) hwait.1
  obtain ⟨hd, -⟩ := hwait.root_done hs
  have hst' : v'.fsm.state = .done := by
    rw [hs.fsm]; simp [HeapFsm.step, HeapFsm.nState, hst, hd]
  have hsz : v'.fsm.size = v.fsm.size := by rw [hs.fsm]; simp [HeapFsm.step, HeapFsm.regs, hst, hd]
  simp only [Track, hst']
  refine ⟨?_, hq'⟩
  unfold Looking at hp
  by_cases hup : v.fsm.savedOp = .update
  · exact hp.of_size_zero (hno hup) (hsz.trans (hno hup))
  · rw [if_neg fun hc => hup hc.1] at hp
    exact Still.frame hp hs hsz hn

theorem track_updateWrIssue (h : v.Track cfg e T) (hs : v.Step cfg i v')
    (hst : v.fsm.state = .updateWrIssue) : v'.Track cfg e T := by
  simp only [Track, hst] at h
  obtain ⟨hu, hq⟩ := h
  have hidx : v.fsm.memIdx = 0 := by simp [HeapFsm.memIdx, hst]
  obtain ⟨hc, -⟩ := step_regs_eq hs (by simp [HeapFsm.regs, hst])
  have hsz : v'.fsm.size = v.fsm.size := congrArg HeapFsm.Core.size hc
  have hd' : v'.fsm.savedOpData = v.fsm.savedOpData := congrArg HeapFsm.Core.savedOpData hc
  obtain ⟨hoff, hwait⟩ := hs.write_issue (x := v.fsm.savedOpData) (by simp [HeapFsm.memDoWrite, hst])
    hidx (by simp [HeapFsm.memWdata, hst]) (by unfold maxNodes; omega) hq
  rw [if_pos (.inl (by unfold privateNodes; omega))] at hwait
  have hst' : v'.fsm.state = .updateWrWait := by
    rw [hs.fsm]; simp [HeapFsm.step, HeapFsm.nState, hst, issueTo_eq, hidx, privateNodes]
  simp only [Track, hst', Rooting, hsz, hd']
  exact ⟨hu.frame hs hsz fun j hj => update_congr_off (fun k _ hk => hoff k hk) hj, hwait⟩

theorem track_updateWrWait (h : v.Track cfg e T) (hs : v.Step cfg i v')
    (hst : v.fsm.state = .updateWrWait) : v'.Track cfg e T := by
  simp only [Track, hst] at h
  obtain ⟨hu, hwait⟩ := h
  unfold WriteWait at hwait
  rw [if_pos (by unfold privateNodes; omega)] at hwait
  obtain ⟨hd1, hx, hq⟩ := hwait
  obtain ⟨hn, hq'⟩ := hs.node_eq (by simp [HeapFsm.memDoWrite, hst]) hq
  have hd : v.fsm.writeDone i = true := by simp [HeapFsm.writeDone, hd1]
  have hst' : v'.fsm.state = .done := by
    rw [hs.fsm]; simp [HeapFsm.step, HeapFsm.nState, hst, hd]
  have hsz : v'.fsm.size = v.fsm.size := by rw [hs.fsm]; simp [HeapFsm.step, HeapFsm.regs, hst, hd]
  simp only [Track, hst', Still, hsz]
  refine ⟨hu.frame hs hsz fun j _ => ?_, hq'⟩
  rw [hn, ← hx, update_eq_self]

theorem track_done (h : v.Track cfg e T) (hs : v.Step cfg i v') (hst : v.fsm.state = .done) :
    v'.Track cfg e T := by
  simp only [Track, hst] at h
  obtain ⟨hp, hq⟩ := h
  obtain ⟨hn, hq'⟩ := hs.node_eq (by simp [HeapFsm.memDoWrite, hst]) hq
  have hst' : v'.fsm.state = .idle := by
    rw [hs.fsm]; simp [HeapFsm.step, HeapFsm.nState, hst]
  have hsz : v'.fsm.size = v.fsm.size := by rw [hs.fsm]; simp [HeapFsm.step, HeapFsm.regs, hst]
  simp only [Track, hst']
  exact ⟨hp.frame hs hsz hn, hq'⟩

/-- A command in progress goes on towards its shelf, unless its hole comes to a cell whose children the
index registers cannot name. -/
theorem Track.step (h : v.Track cfg e T) (hs : v.Step cfg i v') (ha : v.Sound) (hne : v.fsm.state ≠ .idle)
    (hno : v.fsm.state = .peekRdWait → v.fsm.savedOp = .update → v.fsm.size = 0) :
    v'.Track cfg e T ∨ 1023 ≤ e ∧ v'.Wrapped := by
  cases hst : v.fsm.state with
  | idle => exact absurd hst hne
  | pushLaunch => exact .inl (track_pushLaunch h hs hst)
  | pushRdParentIssue => exact .inl (track_pushRdParentIssue h hs ha hst)
  | pushRdParentWait => exact .inl (track_pushRdParentWait h hs hst)
  | pushDecide => exact .inl (track_pushDecide h hs hst)
  | pushWrDownIssue => exact .inl (track_pushWrDownIssue h hs hst)
  | pushWrDownWait => exact .inl (track_pushWrDownWait h hs hst)
  | pushWrFinalIssue => exact .inl (track_pushWrFinalIssue h hs hst)
  | pushWrFinalWait => exact .inl (track_pushWrFinalWait h hs hst)
  | popLaunch => exact .inl (track_popLaunch h hs hst)
  | popRdRootIssue => exact .inl (track_popRdRootIssue h hs ha hst)
  | popRdRootWait => exact .inl (track_popRdRootWait h hs hst)
  | popRdLastIssue => exact .inl (track_popRdLastIssue h hs ha hst)
  | popRdLastWait => exact .inl (track_popRdLastWait h hs hst)
  | popSiftRdLeftIssue => exact .inl (track_popSiftRdLeftIssue h hs ha hst)
  | popSiftRdLeftWait => exact .inl (track_popSiftRdLeftWait h hs hst)
  | popSiftRdRightIssue => exact .inl (track_popSiftRdRightIssue h hs ha hst)
  | popSiftRdRightWait => exact .inl (track_popSiftRdRightWait h hs hst)
  | popSiftDecide => exact .inl (track_popSiftDecide h hs hst)
  | popSiftWrUpIssue => exact .inl (track_popSiftWrUpIssue h hs hst)
  | popSiftWrUpWait => exact track_popSiftWrUpWait h hs hst
  | popSiftWrFinalIssue => exact .inl (track_popSiftWrFinalIssue h hs hst)
  | popSiftWrFinalWait => exact .inl (track_popSiftWrFinalWait h hs hst)
  | peekRdIssue => exact .inl (track_peekRdIssue h hs ha hst)
  | peekRdWait => exact .inl (track_peekRdWait h hs hst (hno hst))
  | updateWrIssue => exact .inl (track_updateWrIssue h hs hst)
  | updateWrWait => exact .inl (track_updateWrWait h hs hst)
  | done => exact .inl (track_done h hs hst)

theorem Track.cap (h : v.Track cfg e T) : v.fsm.size ≤ maxNodes := by
  cases hst : v.fsm.state <;> simp only [Track, hst] at h
  case popLaunch => split at h <;> [exact h.2.cap; exact h.2.job.cap]
  all_goals first
    | exact h.1.cap
    | exact h.1.job.cap

/-! ### Accepting a command -/

/-- A cycle of `S_IDLE` without a command. -/
theorem Still.wait (h : v.Still T) (hq : v.Quiet) (hs : v.Step cfg i v') (hst : v.fsm.state = .idle)
    (hv : i.cmdValid = false) : v'.Track cfg e T := by
  obtain ⟨hn, hq'⟩ := hs.node_eq (by simp [HeapFsm.memDoWrite, hst]) hq
  have hst' : v'.fsm.state = .idle := by
    rw [hs.fsm]; simp [HeapFsm.step, HeapFsm.nState, hst, hv]
  have hsz : v'.fsm.size = v.fsm.size := by rw [hs.fsm]; simp [HeapFsm.step, HeapFsm.regs, hst, hv]
  simp only [Track, hst']
  exact ⟨h.frame hs hsz hn, hq'⟩

variable (hs : v.Step cfg i v') (hst : v.fsm.state = .idle) (hv : i.cmdValid = true)
include hs hst hv

theorem Still.accept_push (h : v.Still T) (hq : v.Quiet) (hop : i.cmdOp = .push) (hroom : T.size < maxNodes) :
    v'.Track cfg e (T.exec cfg.kind (.push, i.cmdDataIn)) := by
  obtain ⟨hn, hq'⟩ := hs.node_eq (by simp [HeapFsm.memDoWrite, hst]) hq
  have hst' : v'.fsm.state = .pushLaunch := by
    rw [hs.fsm]; simp [HeapFsm.step, HeapFsm.nState, hst, hv, hop]
  have hregs : v'.fsm.size = v.fsm.size ∧ v'.fsm.targetIdx = v.fsm.size ∧
      v'.fsm.parentIdx = (if v.fsm.size = 0 then 0 else (v.fsm.size - 1) / 2) ∧
      v'.fsm.curNode = i.cmdDataIn := by
    rw [hs.fsm]; simp [HeapFsm.step, HeapFsm.regs, hst, hv, hop]
  obtain ⟨hsz, ht, hp, hcur⟩ := hregs
  have hsize := h.size
  simp only [Track, hst', ht, hsz, and_true]
  refine ⟨⟨⟨?_, ?_, ?_, ?_⟩, ?_, ?_, ?_, ?_⟩, hq'⟩ <;> simp only [hsz, ht, hp, hcur, hn]
  · exact h.cap
  · exact hs.mapped h.mapped
  · simp only [Shelf.exec]; omega
  · intro j hj
    simp only [Shelf.exec, hsize]
    exact siftUp_congr (Nat.lt_succ_self _) (fun k hk hne => h.nodes k (by omega)) j hj
  · exact Nat.le_refl _
  · unfold parent; split <;> omega
  · exact fun hlt => absurd hlt (Nat.lt_irrefl _)
  · exact hsize ▸ hroom

theorem Still.accept_pop (h : v.Still T) (hq : v.Quiet) (hop : i.cmdOp = .pop)
    (hrest : siftEnd (aWins cfg.kind) T.nodes (T.nodes (T.size - 1)) (T.size - 1) 0 = e) :
    v'.Track cfg e (T.exec cfg.kind (.pop, i.cmdDataIn)) := by
  obtain ⟨hn, hq'⟩ := hs.node_eq (by simp [HeapFsm.memDoWrite, hst]) hq
  have hst' : v'.fsm.state = .popLaunch := by
    rw [hs.fsm]; simp [HeapFsm.step, HeapFsm.nState, hst, hv, hop]
  have hsz : v'.fsm.size = v.fsm.size := by rw [hs.fsm]; simp [HeapFsm.step, HeapFsm.regs, hst, hv, hop]
  have hsize := h.size
  simp only [Track, hst', hsz]
  refine ⟨hq', ?_⟩
  by_cases h0 : v.fsm.size = 0
  · rw [if_pos h0]
    have h' := h.frame hs hsz hn
    simp only [Shelf.exec, hsize, if_pos h0]
    exact ⟨h'.cap, h'.mapped, hsz.symm, h'.nodes⟩
  · rw [if_neg h0]
    rw [hsize] at hrest
    simp only [Shelf.exec, hsize, if_neg h0]
    refine ⟨⟨?_, ?_, ?_, ?_⟩, ?_, ?_⟩ <;> simp only [hsz, hn]
    · exact h.cap
    · exact hs.mapped h.mapped
    · intro j hj
      rw [h.nodes (v.fsm.size - 1) (by omega)]
      exact siftDown_congr (fun k hk _ => h.nodes k (by omega)) j hj
    · omega
    · rw [h.nodes (v.fsm.size - 1) (by omega), ← hrest]
      exact siftEnd_congr fun k _ hk => h.nodes k (by omega)

theorem Still.accept_peek (h : v.Still T) (hq : v.Quiet) (hop : i.cmdOp = .peek) :
    v'.Track cfg e (T.exec cfg.kind (.peek, i.cmdDataIn)) := by
  obtain ⟨hn, hq'⟩ := hs.node_eq (by simp [HeapFsm.memDoWrite, hst]) hq
  have hsz : v'.fsm.size = v.fsm.size := by rw [hs.fsm]; simp [HeapFsm.step, HeapFsm.regs, hst, hv, hop]
  have h' := h.frame hs hsz hn
  by_cases hval : v.fsm.nodeCacheValid 0 = true
  · have hst' : v'.fsm.state = .done := by
      rw [hs.fsm]; simp [HeapFsm.step, HeapFsm.nState, hst, hv, hop, hval]
    simp only [Track, hst']
    exact ⟨⟨h'.cap, h'.mapped, h'.size, h'.nodes⟩, hq'⟩
  · have hst' : v'.fsm.state = .peekRdIssue := by
      rw [hs.fsm]; simp [HeapFsm.step, HeapFsm.nState, hst, hv, hop, hval]
    have hsaved : v'.fsm.savedOp = .peek := by
      rw [hs.fsm]; simp [HeapFsm.step, HeapFsm.regs, hst, hv, hop]
    simp only [Track, hst', Looking, hsaved, reduceCtorEq, false_and, if_false]
    exact ⟨⟨h'.cap, h'.mapped, h'.size, h'.nodes⟩, hq'⟩

/-- An `UPDATE` answered from slot 0 of the cache. -/
theorem Still.accept_update (h : v.Still T) (hq : v.Quiet) (hop : i.cmdOp = .update)
    (hroot : 0 < v.fsm.size → v.fsm.nodeCacheValid 0 = true ∧ v.fsm.nodeCache 0 = v.node 0) :
    v'.Track cfg e (T.exec cfg.kind (.update, i.cmdDataIn)) := by
  obtain ⟨hn, hq'⟩ := hs.node_eq (by simp [HeapFsm.memDoWrite, hst]) hq
  have hsz : v'.fsm.size = v.fsm.size := by rw [hs.fsm]; simp [HeapFsm.step, HeapFsm.regs, hst, hv, hop]
  have hd : v'.fsm.savedOpData = i.cmdDataIn := by
    rw [hs.fsm]; simp [HeapFsm.step, HeapFsm.regs, hst, hv, hop]
  have h' := h.frame hs hsz hn
  have hok : 0 < v.fsm.size → (v.fsm.nodeCacheValid 0 && v.fsm.updateKeysOk i) =
      sameKeys i.cmdDataIn (T.nodes 0) := fun hpos => by
    rw [(hroot hpos).1, HeapFsm.updateKeysOk, (hroot hpos).2, h.nodes 0 hpos]
    rfl
  have hst' : v'.fsm.state =
      if (v.fsm.nodeCacheValid 0 && v.fsm.updateKeysOk i) = true then .updateWrIssue else .done := by
    rw [hs.fsm]; simp [HeapFsm.step, HeapFsm.nState, hst, hv, hop]
  by_cases hgo : (v.fsm.nodeCacheValid 0 && v.fsm.updateKeysOk i) = true
  · rw [if_pos hgo] at hst'
    simp only [Track, hst', Rooting, hd]
    refine ⟨⟨h'.cap, h'.mapped, h'.size, fun j hj => ?_⟩, hq'⟩
    have hkeys : sameKeys i.cmdDataIn (T.nodes 0) = true := by rw [← hok (by omega)]; exact hgo
    simp only [Shelf.exec, hkeys, if_true]
    exact update_congr_off (fun k hk _ => h'.nodes k hk) hj
  · rw [if_neg hgo] at hst'
    simp only [Track, hst']
    refine ⟨⟨h'.cap, h'.mapped, h'.size, fun j hj => ?_⟩, hq'⟩
    have hkeys : sameKeys i.cmdDataIn (T.nodes 0) = false := by
      rw [← hok (by omega)]; exact Bool.eq_false_iff.2 hgo
    simp only [Shelf.exec, hkeys, Bool.false_eq_true, if_false]
    exact h'.nodes j hj

theorem Still.accept (h : v.Still T) (hq : v.Quiet) (hroom : T.size < maxNodes)
    (hrest : siftEnd (aWins cfg.kind) T.nodes (T.nodes (T.size - 1)) (T.size - 1) 0 = e)
    (hroot : i.cmdOp = .update → 0 < v.fsm.size →
      v.fsm.nodeCacheValid 0 = true ∧ v.fsm.nodeCache 0 = v.node 0) :
    v'.Track cfg e (T.exec cfg.kind (i.cmdOp, i.cmdDataIn)) := by
  cases hop : i.cmdOp with
  | push => exact h.accept_push hs hst hv hq hop hroom
  | pop => exact h.accept_pop hs hst hv hq hop hrest
  | peek => exact h.accept_peek hs hst hv hq hop
  | update => exact h.accept_update hs hst hv hq hop (hroot hop)

end HeapView

end HftSim
