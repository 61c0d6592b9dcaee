import HftSim.Node
import Mathlib.Logic.Function.Basic

/-!
# `heap_fsm` (`hw/heap_engine/heap_fsm.sv`)

One priority-ordered heap with tiered storage: nodes `0, …, 63` in a private single-cycle BRAM,
the others behind the engine's MMU port. `HeapFsm` holds the registers, the `def`s over it are the
module's wires, `HeapFsm.step` is one clock edge. Indices are `IDX_WIDTH = 11` bits wide, so every
sum that can leave that range is taken `% 2 ^ 11`.
-/

namespace HftSim

open Function

/-- `PRIVATE_NODES` -/
def privateNodes : Nat := 64

/-- `MAX_NODES` -/
def maxNodes : Nat := 1088

/-- `HEAP_KIND`: `MAX_HEAP` for bids, `MIN_HEAP` for asks. -/
inductive HeapKind
  | maxHeap | minHeap
deriving DecidableEq, Repr

/-- `HEAP_KIND[0]` -/
def HeapKind.bit : HeapKind → Nat
  | .maxHeap => 0
  | .minHeap => 1

/-- The parameters of an instance. -/
structure HeapCfg where
  kind : HeapKind
  engineId : Nat

/-- `cmd_op` -/
inductive Op
  | push | pop | peek | update
deriving DecidableEq, Repr

/-- `state_t` -/
inductive HState
  | idle
  | pushLaunch
  | pushRdParentIssue | pushRdParentWait
  | pushDecide
  | pushWrDownIssue | pushWrDownWait
  | pushWrFinalIssue | pushWrFinalWait
  | popLaunch
  | popRdRootIssue | popRdRootWait
  | popRdLastIssue | popRdLastWait
  | popSiftRdLeftIssue | popSiftRdLeftWait
  | popSiftRdRightIssue | popSiftRdRightWait
  | popSiftDecide
  | popSiftWrUpIssue | popSiftWrUpWait
  | popSiftWrFinalIssue | popSiftWrFinalWait
  | peekRdIssue | peekRdWait
  | updateWrIssue | updateWrWait
  | done
deriving DecidableEq, Repr

structure HeapFsm where
  state : HState
  size : Nat
  targetIdx : Nat
  parentIdx : Nat
  leftIdx : Nat
  rightIdx : Nat
  curNode : Node
  parentNode : Node
  leftNode : Node
  rightNode : Node
  hasRight : Bool
  nodeCache : Nat → Node
  nodeCacheValid : Nat → Bool
  savedOpData : Node
  savedOp : Op
  poppedRoot : Node
  privReD1 : Bool
  privWeD1 : Bool

/-- The input ports sampled in one cycle. -/
structure HeapIn where
  cmdValid : Bool
  cmdOp : Op
  cmdDataIn : Node
  privRdata : Node
  virtReqReady : Bool
  virtRespValid : Bool
  virtRespData : Node
  virtRespReject : Bool

/-- A request on the virtual port: a 32-bit address, the write bit and the write data. -/
structure Req where
  va : Nat
  wr : Bool
  wdata : Node
deriving DecidableEq, Repr

def aWinsFields (kind : HeapKind) (ap : BitVec 16) (atTs : BitVec 32) (bp : BitVec 16)
    (bt : BitVec 32) : Bool :=
  if ap ≠ bp then
    match kind with
    | .maxHeap => decide (bp < ap)
    | .minHeap => decide (ap < bp)
  else decide (atTs < bt)

/-- `a_wins_fields` on the price and timestamp wires of two node registers. -/
def aWins (kind : HeapKind) (a b : Node) : Bool :=
  aWinsFields kind (orderPrice a) (orderTs a) (orderPrice b) (orderTs b)

/-- `{ENGINE_ID[2:0], 18'd0, HEAP_KIND[0], virt_idx}` with the 10-bit `virt_idx = idx - 64`. -/
def makeVa (cfg : HeapCfg) (idx : Nat) : Nat :=
  cfg.engineId % 8 * 2 ^ 29 + cfg.kind.bit * 2 ^ 10 + (idx + 2 ^ 10 - privateNodes) % 2 ^ 10

def isPrivate (idx : Nat) : Bool := decide (idx < privateNodes)

/-- `best_t` -/
inductive Best
  | cur | left | right
deriving DecidableEq, Repr

namespace HeapFsm

/-- The registers after `rst_n`. -/
def reset : HeapFsm where
  state := .idle
  size := 0
  targetIdx := 0
  parentIdx := 0
  leftIdx := 0
  rightIdx := 0
  curNode := 0
  parentNode := 0
  leftNode := 0
  rightNode := 0
  hasRight := false
  nodeCache := fun _ => 0
  nodeCacheValid := fun _ => false
  savedOpData := 0
  savedOp := .push
  poppedRoot := 0
  privReD1 := false
  privWeD1 := false

/-! ### Comparators -/

def inPopSift (h : HeapFsm) : Bool :=
  match h.state with
  | .popSiftRdLeftIssue | .popSiftRdLeftWait | .popSiftRdRightIssue | .popSiftRdRightWait
  | .popSiftDecide | .popSiftWrUpIssue | .popSiftWrUpWait => true
  | _ => false

/-- `cmp0_result`: left against the current node in a sift-down, current against parent otherwise. -/
def cmp0Result (cfg : HeapCfg) (h : HeapFsm) : Bool :=
  if h.inPopSift then aWins cfg.kind h.leftNode h.curNode else aWins cfg.kind h.curNode h.parentNode

/-- `cmp1_result`: right against whichever of left and current `cmp0` prefers. -/
def cmp1Result (cfg : HeapCfg) (h : HeapFsm) : Bool :=
  aWins cfg.kind h.rightNode (if h.cmp0Result cfg then h.leftNode else h.curNode)

def best (cfg : HeapCfg) (h : HeapFsm) : Best :=
  if h.hasRight && decide (h.rightIdx < h.size) && h.cmp1Result cfg then .right
  else if decide (h.leftIdx < h.size) && h.cmp0Result cfg then .left
  else .cur

/-- The node the sift-down moves up: `(best == BEST_LEFT) ? left_node : right_node`. -/
def bestNode (cfg : HeapCfg) (h : HeapFsm) : Node :=
  if h.best cfg = .left then h.leftNode else h.rightNode

def updateKeysOk (h : HeapFsm) (i : HeapIn) : Bool :=
  decide (orderPrice i.cmdDataIn = orderPrice (h.nodeCache 0)) &&
    decide (orderTs i.cmdDataIn = orderTs (h.nodeCache 0))

/-! ### Memory issue -/

/-- `size - 1'b1` -/
def sizeMinusOne (h : HeapFsm) : Nat := (h.size + (2 ^ 11 - 1)) % 2 ^ 11

def memDoRead (h : HeapFsm) : Bool :=
  match h.state with
  | .pushRdParentIssue | .popRdRootIssue | .popRdLastIssue | .popSiftRdLeftIssue
  | .popSiftRdRightIssue | .peekRdIssue => true
  | _ => false

def memDoWrite (h : HeapFsm) : Bool :=
  match h.state with
  | .pushWrDownIssue | .pushWrFinalIssue | .popSiftWrUpIssue | .popSiftWrFinalIssue
  | .updateWrIssue => true
  | _ => false

def memIdx (h : HeapFsm) : Nat :=
  match h.state with
  | .pushRdParentIssue => h.parentIdx
  | .pushWrDownIssue | .pushWrFinalIssue | .popSiftWrUpIssue | .popSiftWrFinalIssue => h.targetIdx
  | .popRdLastIssue => h.sizeMinusOne
  | .popSiftRdLeftIssue => h.leftIdx
  | .popSiftRdRightIssue => h.rightIdx
  | _ => 0

def memWdata (cfg : HeapCfg) (h : HeapFsm) : Node :=
  match h.state with
  | .pushWrDownIssue => h.parentNode
  | .pushWrFinalIssue | .popSiftWrFinalIssue => h.curNode
  | .popSiftWrUpIssue => h.bestNode cfg
  | .updateWrIssue => h.savedOpData
  | _ => 0

def memTargetPriv (h : HeapFsm) : Bool := isPrivate h.memIdx

def memIdxCached (h : HeapFsm) : Bool :=
  if h.memIdx < 3 then h.nodeCacheValid h.memIdx else false

def memIdxCacheData (h : HeapFsm) : Node :=
  if h.memIdx < 3 then h.nodeCache h.memIdx else 0

def effectiveRead (h : HeapFsm) : Bool := h.memDoRead && !h.memIdxCached

def privRe (h : HeapFsm) : Bool := h.effectiveRead && h.memTargetPriv

def privWe (h : HeapFsm) : Bool := h.memDoWrite && h.memTargetPriv

/-- `mem_idx[5:0]` -/
def privAddr (h : HeapFsm) : Nat := h.memIdx % 2 ^ 6

def virtReqValid (h : HeapFsm) : Bool := (h.effectiveRead || h.memDoWrite) && !h.memTargetPriv

/-- `virt_req_va`, `virt_req_wr` and `virt_req_wdata`. -/
def virtReq (cfg : HeapCfg) (h : HeapFsm) : Req where
  va := makeVa cfg h.memIdx
  wr := h.memDoWrite && !h.memTargetPriv
  wdata := h.memWdata cfg

/-- `priv_read_done || virt_read_done` -/
def readDone (h : HeapFsm) (i : HeapIn) : Bool := h.privReD1 || i.virtRespValid

/-- `priv_write_done || virt_write_done` -/
def writeDone (h : HeapFsm) (i : HeapIn) : Bool := h.privWeD1 || i.virtRespValid

/-- `priv_read_done ? priv_rdata : virt_resp_data` -/
def readData (h : HeapFsm) (i : HeapIn) : Node := if h.privReD1 then i.privRdata else i.virtRespData

/-! ### Next state -/

/-- An access that does not look at the cache: `next` once the private BRAM or the port takes it. -/
def issueTo (h : HeapFsm) (i : HeapIn) (next : HState) : HState :=
  if h.memTargetPriv then next else if i.virtReqReady then next else h.state

def nState (cfg : HeapCfg) (h : HeapFsm) (i : HeapIn) : HState :=
  match h.state with
  | .idle =>
    if i.cmdValid then
      match i.cmdOp with
      | .push => .pushLaunch
      | .pop => .popLaunch
      | .peek => if h.nodeCacheValid 0 then .done else .peekRdIssue
      | .update => if h.nodeCacheValid 0 && h.updateKeysOk i then .updateWrIssue else .done
    else .idle
  | .pushLaunch => if h.size = 0 then .pushWrFinalIssue else .pushRdParentIssue
  | .pushRdParentIssue => if h.memIdxCached then .pushDecide else h.issueTo i .pushRdParentWait
  | .pushRdParentWait =>
    if h.readDone i then .pushDecide
    else if i.virtRespReject then .pushRdParentIssue else .pushRdParentWait
  | .pushDecide => if h.cmp0Result cfg then .pushWrDownIssue else .pushWrFinalIssue
  | .pushWrDownIssue => h.issueTo i .pushWrDownWait
  | .pushWrDownWait =>
    if h.writeDone i then
      if h.parentIdx = 0 then .pushWrFinalIssue else .pushRdParentIssue
    else if i.virtRespReject then .pushWrDownIssue else .pushWrDownWait
  | .pushWrFinalIssue => h.issueTo i .pushWrFinalWait
  | .pushWrFinalWait =>
    if h.writeDone i then .done
    else if i.virtRespReject then .pushWrFinalIssue else .pushWrFinalWait
  | .popLaunch =>
    if h.size = 0 then .done
    else if h.nodeCacheValid 0 then
      if h.size = 1 then .done else .popRdLastIssue
    else .popRdRootIssue
  | .popRdRootIssue => h.issueTo i .popRdRootWait
  | .popRdRootWait =>
    if h.readDone i then
      if h.size = 1 then .done else .popRdLastIssue
    else if i.virtRespReject then .popRdRootIssue else .popRdRootWait
  | .popRdLastIssue => if h.memIdxCached then .popSiftRdLeftIssue else h.issueTo i .popRdLastWait
  | .popRdLastWait =>
    if h.readDone i then .popSiftRdLeftIssue
    else if i.virtRespReject then .popRdLastIssue else .popRdLastWait
  | .popSiftRdLeftIssue =>
    if h.size ≤ h.leftIdx then .popSiftWrFinalIssue
    else if h.memIdxCached then .popSiftRdRightIssue else h.issueTo i .popSiftRdLeftWait
  | .popSiftRdLeftWait =>
    if h.readDone i then .popSiftRdRightIssue
    else if i.virtRespReject then .popSiftRdLeftIssue else .popSiftRdLeftWait
  | .popSiftRdRightIssue =>
    if h.size ≤ h.rightIdx then .popSiftDecide
    else if h.memIdxCached then .popSiftDecide else h.issueTo i .popSiftRdRightWait
  | .popSiftRdRightWait =>
    if h.readDone i then .popSiftDecide
    else if i.virtRespReject then .popSiftRdRightIssue else .popSiftRdRightWait
  | .popSiftDecide => if h.best cfg = .cur then .popSiftWrFinalIssue else .popSiftWrUpIssue
  | .popSiftWrUpIssue => h.issueTo i .popSiftWrUpWait
  | .popSiftWrUpWait =>
    if h.writeDone i then .popSiftRdLeftIssue
    else if i.virtRespReject then .popSiftWrUpIssue else .popSiftWrUpWait
  | .popSiftWrFinalIssue => h.issueTo i .popSiftWrFinalWait
  | .popSiftWrFinalWait =>
    if h.writeDone i then .done
    else if i.virtRespReject then .popSiftWrFinalIssue else .popSiftWrFinalWait
  | .peekRdIssue => h.issueTo i .peekRdWait
  | .peekRdWait =>
    if h.readDone i then .done
    else if i.virtRespReject then .peekRdIssue else .peekRdWait
  | .updateWrIssue => h.issueTo i .updateWrWait
  | .updateWrWait =>
    if h.writeDone i then .done
    else if i.virtRespReject then .updateWrIssue else .updateWrWait
  | .done => .idle

/-! ### Register updates -/

/-- `node_cache[target_idx] <= x; node_cache_valid[target_idx] <= 1` when `target_idx < 3`. -/
def cacheTarget (h : HeapFsm) (x : Node) : HeapFsm :=
  if h.targetIdx < 3 then
    { h with
      nodeCache := update h.nodeCache h.targetIdx x
      nodeCacheValid := update h.nodeCacheValid h.targetIdx true }
  else h

/-- The bookkeeping of `S_POP_RD_LAST_ISSUE` on a cache hit and of `S_POP_RD_LAST_WAIT`: `x` is the
last leaf. Slots 1 and 2 stay valid only if they remain in the shrunk heap. -/
def takeLast (h : HeapFsm) (x : Node) : HeapFsm :=
  { h with
    curNode := x
    targetIdx := 0
    leftIdx := 1
    rightIdx := 2
    size := h.sizeMinusOne
    nodeCacheValid := fun s =>
      if s = 0 then false
      else if s = 1 ∧ h.size ≤ 2 then false
      else if s = 2 ∧ h.size ≤ 3 then false
      else h.nodeCacheValid s }

/-- The move of the hole to the child `c` in `S_POP_SIFT_WR_UP_WAIT`. -/
def descendTo (h : HeapFsm) (c : Nat) : HeapFsm :=
  { h with targetIdx := c, leftIdx := (2 * c + 1) % 2 ^ 11, rightIdx := (2 * c + 2) % 2 ^ 11 }

def regs (cfg : HeapCfg) (h : HeapFsm) (i : HeapIn) : HeapFsm :=
  match h.state with
  | .idle =>
    if i.cmdValid then
      match i.cmdOp with
      | .push =>
        { h with
          savedOp := .push
          savedOpData := i.cmdDataIn
          curNode := i.cmdDataIn
          targetIdx := h.size
          parentIdx := if h.size = 0 then 0 else (h.size - 1) / 2 }
      | .pop =>
        { h with
          savedOp := .pop
          savedOpData := i.cmdDataIn
          targetIdx := 0
          poppedRoot := if h.nodeCacheValid 0 then h.nodeCache 0 else h.poppedRoot }
      | op => { h with savedOp := op, savedOpData := i.cmdDataIn }
    else h
  | .pushRdParentIssue => if h.memIdxCached then { h with parentNode := h.memIdxCacheData } else h
  | .pushRdParentWait => if h.readDone i then { h with parentNode := h.readData i } else h
  | .pushWrDownWait =>
    if h.writeDone i then
      { h.cacheTarget h.parentNode with
        targetIdx := h.parentIdx
        parentIdx := if h.parentIdx = 0 then 0 else (h.parentIdx - 1) / 2 }
    else h
  | .pushWrFinalWait =>
    if h.writeDone i then { h.cacheTarget h.curNode with size := (h.size + 1) % 2 ^ 11 } else h
  | .popLaunch =>
    if h.size = 1 ∧ h.nodeCacheValid 0 then { h with size := 0, nodeCacheValid := fun _ => false }
    else h
  | .popRdRootWait =>
    if h.readDone i then
      if h.size = 1 then
        { h with poppedRoot := h.readData i, size := 0, nodeCacheValid := fun _ => false }
      else { h with poppedRoot := h.readData i }
    else h
  | .popRdLastIssue => if h.memIdxCached then h.takeLast h.memIdxCacheData else h
  | .popRdLastWait => if h.readDone i then h.takeLast (h.readData i) else h
  | .popSiftRdLeftIssue =>
    if h.leftIdx < h.size ∧ h.memIdxCached then { h with leftNode := h.memIdxCacheData } else h
  | .popSiftRdLeftWait => if h.readDone i then { h with leftNode := h.readData i } else h
  | .popSiftRdRightIssue =>
    if h.size ≤ h.rightIdx then { h with hasRight := false }
    else if h.memIdxCached then { h with rightNode := h.memIdxCacheData, hasRight := true }
    else h
  | .popSiftRdRightWait =>
    if h.readDone i then { h with rightNode := h.readData i, hasRight := true } else h
  | .popSiftWrUpWait =>
    if h.writeDone i then
      (h.cacheTarget (h.bestNode cfg)).descendTo (if h.best cfg = .left then h.leftIdx else h.rightIdx)
    else h
  | .popSiftWrFinalWait => if h.writeDone i then h.cacheTarget h.curNode else h
  | .peekRdWait =>
    if h.readDone i then
      { h with
        nodeCache := update h.nodeCache 0 (h.readData i)
        nodeCacheValid := update h.nodeCacheValid 0 true }
    else h
  | .updateWrWait =>
    if h.writeDone i then
      { h with
        nodeCache := update h.nodeCache 0 h.savedOpData
        nodeCacheValid := update h.nodeCacheValid 0 true }
    else h
  | _ => h

/-- One clock edge. -/
def step (cfg : HeapCfg) (h : HeapFsm) (i : HeapIn) : HeapFsm :=
  { h.regs cfg i with state := h.nState cfg i, privReD1 := h.privRe, privWeD1 := h.privWe }

/-! ### Outputs -/

def cmdReady (h : HeapFsm) : Bool := decide (h.state = .idle)

def cmdDone (h : HeapFsm) : Bool := decide (h.state = .done)

def cmdRootOut (h : HeapFsm) : Node :=
  if h.savedOp = .peek then (if h.nodeCacheValid 0 then h.nodeCache 0 else 0) else h.poppedRoot

end HeapFsm

end HftSim
