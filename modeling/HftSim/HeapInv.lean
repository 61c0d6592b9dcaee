import HftSim.HeapView

/-!
# The heap invariant of `heap_fsm`

`Inv cfg g v` ties the registers and the stored nodes of a `HeapView` to the ghost book-keeping `g`:
the multiset of nodes the heap holds once the command in progress is finished, and the root taken
if that command is a `POP`. Between commands (`Rest`) the stored nodes are a heap with these contents. During
a `PUSH` (`Push`) or after the last leaf has been taken by a `POP` (`Sift`) the heap has a hole at
`target_idx`; what is kept is the order and the contents of the store with `cur_node` in the hole,
which no write to the hole disturbs. `Inv.step` shows one clock cycle keeps `Inv` in every state.
-/

namespace HftSim

open Function BinHeap

/-- The registers that most states leave alone. -/
structure HeapFsm.Core where
  size : Nat
  targetIdx : Nat
  parentIdx : Nat
  leftIdx : Nat
  rightIdx : Nat
  curNode : Node
  nodeCache : Nat → Node
  nodeCacheValid : Nat → Bool
  savedOpData : Node
  poppedRoot : Node

def HeapFsm.core (h : HeapFsm) : HeapFsm.Core :=
  ⟨h.size, h.targetIdx, h.parentIdx, h.leftIdx, h.rightIdx, h.curNode, h.nodeCache,
    h.nodeCacheValid, h.savedOpData, h.poppedRoot⟩

structure HeapGhost where
  nodes : Multiset Node
  popped : Option Node

namespace HeapView

/-- The valid cache slots other than slot `t` lie below `n` and mirror the stored nodes. -/
def CacheOff (v : HeapView) (t n : Nat) : Prop :=
  ∀ s, s < 3 → s ≠ t → v.fsm.nodeCacheValid s = true → s < n ∧ v.fsm.nodeCache s = v.node s

/-- The heap between two commands. Slot 0 of the cache may be stale while the heap is empty (a
`PEEK` of an empty heap fills it). -/
structure Rest (cfg : HeapCfg) (m : Multiset Node) (v : HeapView) : Prop where
  cap : v.fsm.size ≤ 1024
  ord : Ordered cfg.kind.key v.node v.fsm.size
  cont : contents v.node v.fsm.size = m
  mapped : v.Mapped v.fsm.size
  cache : v.CacheOff 0 v.fsm.size
  root : 0 < v.fsm.size → v.fsm.nodeCacheValid 0 = true ∧ v.fsm.nodeCache 0 = v.node 0
  quiet : v.Quiet

/-- The node behind `cur_node` is being sifted up from the new leaf `size`. -/
structure Push (cfg : HeapCfg) (m : Multiset Node) (v : HeapView) : Prop where
  cap : v.fsm.size ≤ 1024
  le : v.fsm.targetIdx ≤ v.fsm.size
  par : v.fsm.parentIdx = parent v.fsm.targetIdx
  up : UpHole cfg.kind.key (update v.node v.fsm.targetIdx v.fsm.curNode) (v.fsm.size + 1) v.fsm.targetIdx
  cont : contents (update v.node v.fsm.targetIdx v.fsm.curNode) (v.fsm.size + 1) = m
  mapped : v.Mapped v.fsm.size
  leaf : v.fsm.targetIdx < v.fsm.size → v.Mapped (v.fsm.size + 1)
  cache : v.CacheOff v.fsm.targetIdx (v.fsm.size + 1)
  root : 0 < v.fsm.targetIdx → v.fsm.nodeCacheValid 0 = true

/-- A `POP` before the last leaf is taken: `popped_root` is the root and about to leave. -/
structure PopHead (cfg : HeapCfg) (m : Multiset Node) (v : HeapView) : Prop where
  rest : v.Rest cfg (v.fsm.poppedRoot ::ₘ m)
  root : v.fsm.poppedRoot = v.node 0

/-- The last leaf, in `cur_node`, is being sifted down from the root. -/
structure Sift (cfg : HeapCfg) (m : Multiset Node) (v : HeapView) : Prop where
  cap : v.fsm.size < 1024
  lt : v.fsm.targetIdx < v.fsm.size
  left : v.fsm.leftIdx = 2 * v.fsm.targetIdx + 1
  right : v.fsm.rightIdx = 2 * v.fsm.targetIdx + 2
  down : DownHole cfg.kind.key (update v.node v.fsm.targetIdx v.fsm.curNode) v.fsm.size v.fsm.targetIdx
  cont : contents (update v.node v.fsm.targetIdx v.fsm.curNode) v.fsm.size = m
  mapped : v.Mapped v.fsm.size
  cache : v.CacheOff v.fsm.targetIdx v.fsm.size
  root : 0 < v.fsm.targetIdx → v.fsm.nodeCacheValid 0 = true

/-- The children of the hole have been read. -/
structure Kids (v : HeapView) : Prop where
  left_lt : v.fsm.leftIdx < v.fsm.size
  left : v.fsm.leftNode = v.node v.fsm.leftIdx
  has : v.fsm.hasRight = decide (v.fsm.rightIdx < v.fsm.size)
  right : v.fsm.rightIdx < v.fsm.size → v.fsm.rightNode = v.node v.fsm.rightIdx

/-- No child of the hole beats `cur_node`. -/
def Stop (cfg : HeapCfg) (v : HeapView) : Prop :=
  ∀ c, 0 < c → c < v.fsm.size → parent c = v.fsm.targetIdx →
    cfg.kind.key v.fsm.curNode ≤ cfg.kind.key (v.node c)

/-- An accepted `UPDATE`: the root is about to become `saved_op_data`. -/
structure Upd (cfg : HeapCfg) (m : Multiset Node) (v : HeapView) : Prop where
  cap : v.fsm.size ≤ 1024
  ord : Ordered cfg.kind.key (update v.node 0 v.fsm.savedOpData) v.fsm.size
  cont : contents (update v.node 0 v.fsm.savedOpData) v.fsm.size = m
  mapped : v.Mapped v.fsm.size
  cache : v.CacheOff 0 v.fsm.size

/-- What holds in each state, with `m` the contents after the command in progress. -/
def Phase (cfg : HeapCfg) (m : Multiset Node) (v : HeapView) : Prop :=
  match v.fsm.state with
  | .idle | .done => v.Rest cfg m
  | .pushLaunch => v.Push cfg m ∧ v.Quiet ∧ v.fsm.targetIdx = v.fsm.size
  | .pushRdParentIssue => v.Push cfg m ∧ v.Quiet ∧ 0 < v.fsm.targetIdx
  | .pushRdParentWait => v.Push cfg m ∧ v.ReadWait v.fsm.parentIdx ∧ 0 < v.fsm.targetIdx
  | .pushDecide =>
    v.Push cfg m ∧ v.Quiet ∧ 0 < v.fsm.targetIdx ∧ v.fsm.parentNode = v.node v.fsm.parentIdx
  | .pushWrDownIssue =>
    v.Push cfg m ∧ v.Quiet ∧ 0 < v.fsm.targetIdx ∧ v.fsm.parentNode = v.node v.fsm.parentIdx ∧
      cfg.kind.key v.fsm.curNode < cfg.kind.key v.fsm.parentNode
  | .pushWrDownWait =>
    v.Push cfg m ∧ v.WriteWait v.fsm.targetIdx v.fsm.parentNode ∧ 0 < v.fsm.targetIdx ∧
      v.fsm.parentNode = v.node v.fsm.parentIdx ∧
      cfg.kind.key v.fsm.curNode < cfg.kind.key v.fsm.parentNode
  | .pushWrFinalIssue =>
    v.Push cfg m ∧ v.Quiet ∧
      (0 < v.fsm.targetIdx → cfg.kind.key (v.node v.fsm.parentIdx) ≤ cfg.kind.key v.fsm.curNode)
  | .pushWrFinalWait =>
    v.Push cfg m ∧ v.WriteWait v.fsm.targetIdx v.fsm.curNode ∧
      (0 < v.fsm.targetIdx → cfg.kind.key (v.node v.fsm.parentIdx) ≤ cfg.kind.key v.fsm.curNode)
  | .popLaunch => if v.fsm.size = 0 then v.Rest cfg m else v.PopHead cfg m
  | .popRdRootIssue | .popRdRootWait => False
  | .popRdLastIssue => v.PopHead cfg m ∧ 2 ≤ v.fsm.size
  | .popRdLastWait => v.PopHead cfg m ∧ 2 ≤ v.fsm.size ∧ v.ReadWait (v.fsm.size - 1)
  | .popSiftRdLeftIssue => v.Sift cfg m ∧ v.Quiet
  | .popSiftRdLeftWait => v.Sift cfg m ∧ v.ReadWait v.fsm.leftIdx ∧ v.fsm.leftIdx < v.fsm.size
  | .popSiftRdRightIssue =>
    v.Sift cfg m ∧ v.Quiet ∧ v.fsm.leftIdx < v.fsm.size ∧ v.fsm.leftNode = v.node v.fsm.leftIdx
  | .popSiftRdRightWait =>
    v.Sift cfg m ∧ v.ReadWait v.fsm.rightIdx ∧ v.fsm.leftIdx < v.fsm.size ∧
      v.fsm.leftNode = v.node v.fsm.leftIdx ∧ v.fsm.rightIdx < v.fsm.size
  | .popSiftDecide => v.Sift cfg m ∧ v.Quiet ∧ v.Kids
  | .popSiftWrUpIssue => v.Sift cfg m ∧ v.Quiet ∧ v.Kids ∧ v.fsm.best cfg ≠ .cur
  | .popSiftWrUpWait =>
    v.Sift cfg m ∧ v.WriteWait v.fsm.targetIdx (v.fsm.bestNode cfg) ∧ v.Kids ∧ v.fsm.best cfg ≠ .cur
  | .popSiftWrFinalIssue => v.Sift cfg m ∧ v.Quiet ∧ v.Stop cfg
  | .popSiftWrFinalWait => v.Sift cfg m ∧ v.WriteWait v.fsm.targetIdx v.fsm.curNode ∧ v.Stop cfg
  | .peekRdIssue => v.Rest cfg m ∧ v.fsm.size = 0 ∧ v.fsm.nodeCacheValid 0 = false
  | .peekRdWait => v.Rest cfg m ∧ v.fsm.size = 0 ∧ v.ReadWait 0
  | .updateWrIssue => v.Upd cfg m ∧ v.Quiet
  | .updateWrWait => v.Upd cfg m ∧ v.WriteWait 0 v.fsm.savedOpData

/-- The invariant: the phase of the command in progress, and the node a `POP` presents. -/
structure Inv (cfg : HeapCfg) (g : HeapGhost) (v : HeapView) : Prop where
  phase : v.Phase cfg g.nodes
  popped : ∀ r, g.popped = some r → v.fsm.poppedRoot = r ∧ v.fsm.savedOp = .pop ∧
    ∀ x ∈ g.nodes, cfg.kind.key r ≤ cfg.kind.key x

variable {cfg : HeapCfg} {i : HeapIn} {v v' : HeapView} {m : Multiset Node} {g : HeapGhost}

theorem Phase.rest (h : v.Phase cfg m) (hst : v.fsm.state = .idle ∨ v.fsm.state = .done) :
    v.Rest cfg m := by
  rcases hst with hst | hst <;> simpa only [Phase, hst] using h

theorem inv_reset (hf : v.fsm = .reset) (hq : v.Quiet) : v.Inv cfg ⟨0, none⟩ := by
  refine ⟨?_, fun r hr => by cases hr⟩
  have hst : v.fsm.state = .idle := by rw [hf]; rfl
  have hsz : v.fsm.size = 0 := by rw [hf]; rfl
  have hnv : v.fsm.nodeCacheValid = fun _ => false := by rw [hf]; rfl
  simp only [Phase, hst]
  refine ⟨?_, ?_, ?_, ?_, ?_, ?_, hq⟩ <;> rw [hsz]
  · omega
  · intro j _ hj; omega
  · rfl
  · intro j hj; omega
  · intro t _ _ hval; rw [hnv] at hval; cases hval
  · intro h0; omega

/-! ### Frames -/

theorem CacheOff.frame {t n : Nat} (h : v.CacheOff t n) (hc : v'.fsm.core = v.fsm.core)
    (hn : ∀ j, j ≠ t → v'.node j = v.node j) : v'.CacheOff t n := by
  intro s hs hst hval
  have hv : v'.fsm.nodeCacheValid = v.fsm.nodeCacheValid := congrArg HeapFsm.Core.nodeCacheValid hc
  have hcache : v'.fsm.nodeCache = v.fsm.nodeCache := congrArg HeapFsm.Core.nodeCache hc
  rw [hv] at hval
  rw [hcache, hn s hst]
  exact h s hs hst hval

theorem Rest.frame (h : v.Rest cfg m) (hs : v.Step cfg i v') (hc : v'.fsm.core = v.fsm.core)
    (hn : v'.node = v.node) (hq : v'.Quiet) : v'.Rest cfg m := by
  have hsz : v'.fsm.size = v.fsm.size := congrArg HeapFsm.Core.size hc
  have hv : v'.fsm.nodeCacheValid = v.fsm.nodeCacheValid := congrArg HeapFsm.Core.nodeCacheValid hc
  have hcache : v'.fsm.nodeCache = v.fsm.nodeCache := congrArg HeapFsm.Core.nodeCache hc
  refine ⟨?_, ?_, ?_, ?_, ?_, ?_, hq⟩ <;> rw [hsz]
  · exact h.cap
  · rw [hn]; exact h.ord
  · rw [hn]; exact h.cont
  · exact hs.mapped h.mapped
  · exact h.cache.frame hc fun j _ => by rw [hn]
  · rw [hn, hv, hcache]; exact h.root

theorem Push.frame (h : v.Push cfg m) (hs : v.Step cfg i v') (hc : v'.fsm.core = v.fsm.core)
    (hn : ∀ j, j ≠ v.fsm.targetIdx → v'.node j = v.node j) : v'.Push cfg m := by
  have hsz : v'.fsm.size = v.fsm.size := congrArg HeapFsm.Core.size hc
  have ht : v'.fsm.targetIdx = v.fsm.targetIdx := congrArg HeapFsm.Core.targetIdx hc
  have hp : v'.fsm.parentIdx = v.fsm.parentIdx := congrArg HeapFsm.Core.parentIdx hc
  have hcur : v'.fsm.curNode = v.fsm.curNode := congrArg HeapFsm.Core.curNode hc
  have hv : v'.fsm.nodeCacheValid = v.fsm.nodeCacheValid := congrArg HeapFsm.Core.nodeCacheValid hc
  have hu : update v'.node v.fsm.targetIdx v.fsm.curNode = update v.node v.fsm.targetIdx v.fsm.curNode := by
    funext j
    by_cases hj : j = v.fsm.targetIdx
    · subst hj; simp
    · rw [update_of_ne hj, update_of_ne hj, hn j hj]
  refine ⟨?_, ?_, ?_, ?_, ?_, ?_, ?_, ?_, ?_⟩ <;> simp only [hsz, ht, hp, hcur, hv, hu]
  exacts [h.cap, h.le, h.par, h.up, h.cont, hs.mapped h.mapped, fun hlt => hs.mapped (h.leaf hlt),
    h.cache.frame hc hn, h.root]

theorem PopHead.frame (h : v.PopHead cfg m) (hs : v.Step cfg i v') (hc : v'.fsm.core = v.fsm.core)
    (hn : v'.node = v.node) (hq : v'.Quiet) : v'.PopHead cfg m := by
  have hp : v'.fsm.poppedRoot = v.fsm.poppedRoot := congrArg HeapFsm.Core.poppedRoot hc
  exact ⟨by rw [hp]; exact h.rest.frame hs hc hn hq, by rw [hp, hn]; exact h.root⟩

theorem Sift.frame (h : v.Sift cfg m) (hs : v.Step cfg i v') (hc : v'.fsm.core = v.fsm.core)
    (hn : ∀ j, j ≠ v.fsm.targetIdx → v'.node j = v.node j) : v'.Sift cfg m := by
  have hsz : v'.fsm.size = v.fsm.size := congrArg HeapFsm.Core.size hc
  have ht : v'.fsm.targetIdx = v.fsm.targetIdx := congrArg HeapFsm.Core.targetIdx hc
  have hl : v'.fsm.leftIdx = v.fsm.leftIdx := congrArg HeapFsm.Core.leftIdx hc
  have hr : v'.fsm.rightIdx = v.fsm.rightIdx := congrArg HeapFsm.Core.rightIdx hc
  have hcur : v'.fsm.curNode = v.fsm.curNode := congrArg HeapFsm.Core.curNode hc
  have hv : v'.fsm.nodeCacheValid = v.fsm.nodeCacheValid := congrArg HeapFsm.Core.nodeCacheValid hc
  have hu : update v'.node v.fsm.targetIdx v.fsm.curNode = update v.node v.fsm.targetIdx v.fsm.curNode := by
    funext j
    by_cases hj : j = v.fsm.targetIdx
    · subst hj; simp
    · rw [update_of_ne hj, update_of_ne hj, hn j hj]
  refine ⟨?_, ?_, ?_, ?_, ?_, ?_, ?_, ?_, ?_⟩ <;> simp only [hsz, ht, hl, hr, hcur, hv, hu]
  exacts [h.cap, h.lt, h.left, h.right, h.down, h.cont, hs.mapped h.mapped, h.cache.frame hc hn,
    h.root]

theorem Upd.frame (h : v.Upd cfg m) (hs : v.Step cfg i v') (hc : v'.fsm.core = v.fsm.core)
    (hn : ∀ j, j ≠ 0 → v'.node j = v.node j) : v'.Upd cfg m := by
  have hsz : v'.fsm.size = v.fsm.size := congrArg HeapFsm.Core.size hc
  have hd : v'.fsm.savedOpData = v.fsm.savedOpData := congrArg HeapFsm.Core.savedOpData hc
  have hu : update v'.node 0 v.fsm.savedOpData = update v.node 0 v.fsm.savedOpData := by
    funext j
    by_cases hj : j = 0
    · subst hj; simp
    · rw [update_of_ne hj, update_of_ne hj, hn j hj]
  refine ⟨?_, ?_, ?_, ?_, ?_⟩ <;> simp only [hsz, hd, hu]
  exacts [h.cap, h.ord, h.cont, hs.mapped h.mapped, h.cache.frame hc hn]

end HeapView

end HftSim
