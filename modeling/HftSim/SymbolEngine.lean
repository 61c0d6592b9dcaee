import HftSim.HeapSys

/-!
# `symbol_engine` (`hw/heap_engine/symbol_engine.sv`)

A bid heap, an ask heap, the private BRAM they share, the mux of their virtual ports onto the
engine's MMU port, and the trade controller that runs push, peek, decide, pop / update and emit for
each order. `SymbolEngine` holds the registers; `SymbolEngine.step` is one clock edge.
-/

namespace HftSim

open Function

/-- `mmu_owner_t` -/
inductive MmuOwner
  | idle | bid | ask
deriving DecidableEq, Repr

/-- `tstate_t` -/
inductive TState
  | idle
  | pushIssue | pushWait
  | peekBidIssue | peekBidWait
  | peekAskIssue | peekAskWait
  | decide
  | popBidIssue | popBidWait
  | popAskIssue | popAskWait
  | updateBidIssue | updateBidWait
  | updateAskIssue | updateAskWait
  | emitTrade
deriving DecidableEq, Repr

/-- The parameter `SYMBOL`: three 7-bit characters. -/
def symbolOf : Nat → BitVec 21
  | 0 => 65#7 ++ 80#7 ++ 76#7
  | 1 => 66#7 ++ 83#7 ++ 88#7
  | 2 => 66#7 ++ 85#7 ++ 83#7
  | 3 => 77#7 ++ 77#7 ++ 77#7
  | 4 => 83#7 ++ 70#7 ++ 84#7
  | 5 => 66#7 ++ 85#7 ++ 88#7
  | 6 => 84#7 ++ 85#7 ++ 83#7
  | 7 => 87#7 ++ 77#7 ++ 84#7
  | _ => 0

/-- The parameters of `u_bid`. -/
def bidCfg (engineId : Nat) : HeapCfg := ⟨.maxHeap, engineId⟩

/-- The parameters of `u_ask`. -/
def askCfg (engineId : Nat) : HeapCfg := ⟨.minHeap, engineId⟩

structure SymbolEngine where
  bid : HeapFsm
  ask : HeapFsm
  priv : PrivBram
  mmuOwner : MmuOwner
  tstate : TState
  pendingOrder : Node
  pendingIsAsk : Bool
  bidRootSnap : Node
  askRootSnap : Node
  tradeEventData : Node
  tradeEventPending : Bool
  latchedPartialBid : Bool
  latchedPartialAsk : Bool

/-- The input ports sampled in one cycle. -/
structure EngineIn where
  nowTs : BitVec 32
  orderInValid : Bool
  orderInData : DispatchOrder
  tradeOutReady : Bool
  mmuReqReady : Bool
  mmuRespData : Node
  mmuRespValid : Bool
  mmuRespReject : Bool

/-- A command bus: `cmd_valid`, `cmd_op`, `cmd_data`. -/
structure Cmd where
  valid : Bool
  op : Op
  data : Node

/-- The default of the command-bus drivers. -/
def Cmd.none : Cmd := ⟨false, .peek, 0⟩

namespace SymbolEngine

/-- The registers after `rst_n`; the private BRAM has no reset. -/
def reset (priv : PrivBram) : SymbolEngine where
  bid := .reset
  ask := .reset
  priv := priv
  mmuOwner := .idle
  tstate := .idle
  pendingOrder := 0
  pendingIsAsk := false
  bidRootSnap := 0
  askRootSnap := 0
  tradeEventData := 0
  tradeEventPending := false
  latchedPartialBid := false
  latchedPartialAsk := false

variable (n : Nat) (e : SymbolEngine) (i : EngineIn)

/-! ### Command buses -/

def bidCmd : Cmd :=
  match e.tstate with
  | .pushIssue => if e.pendingIsAsk then .none else ⟨true, .push, e.pendingOrder⟩
  | .pushWait => if e.pendingIsAsk then .none else ⟨true, .peek, 0⟩
  | .peekBidIssue | .peekBidWait => ⟨true, .peek, 0⟩
  | .popBidIssue | .popBidWait => ⟨true, .pop, 0⟩
  | .updateBidIssue | .updateBidWait =>
    ⟨true, .update, withAmount e.bidRootSnap (orderAmount e.bidRootSnap - orderAmount e.askRootSnap)⟩
  | _ => .none

def askCmd : Cmd :=
  match e.tstate with
  | .pushIssue => if e.pendingIsAsk then ⟨true, .push, e.pendingOrder⟩ else .none
  | .pushWait => if e.pendingIsAsk then ⟨true, .peek, 0⟩ else .none
  | .peekAskIssue | .peekAskWait => ⟨true, .peek, 0⟩
  | .popAskIssue | .popAskWait => ⟨true, .pop, 0⟩
  | .updateAskIssue | .updateAskWait =>
    ⟨true, .update, withAmount e.askRootSnap (orderAmount e.askRootSnap - orderAmount e.bidRootSnap)⟩
  | _ => .none

/-! ### Trade decision, on the snapped roots -/

def tradeMatch : Bool :=
  decide (0 < e.bid.size) && decide (0 < e.ask.size) &&
    decide (orderPrice e.askRootSnap ≤ orderPrice e.bidRootSnap)

def partialBidRemains : Bool :=
  e.tradeMatch && decide (orderAmount e.askRootSnap < orderAmount e.bidRootSnap)

def partialAskRemains : Bool :=
  e.tradeMatch && decide (orderAmount e.bidRootSnap < orderAmount e.askRootSnap)

/-- `with_amount` of the snapped bid root with the smaller amount. -/
def tradeEvent : Node :=
  withAmount e.bidRootSnap
    (if orderAmount e.bidRootSnap < orderAmount e.askRootSnap then orderAmount e.bidRootSnap
      else orderAmount e.askRootSnap)

/-! ### MMU port mux -/

def bidGrant : Bool := decide (e.mmuOwner = .idle) && e.bid.virtReqValid

def askGrant : Bool := decide (e.mmuOwner = .idle) && !e.bid.virtReqValid && e.ask.virtReqValid

/-- `mmu_req_valid`, `mmu_req_va`, `mmu_req_wr` and `mmu_req_wdata`. -/
def mmuReq : Option Req :=
  if e.bidGrant then some (e.bid.virtReq (bidCfg n))
  else if e.askGrant then some (e.ask.virtReq (askCfg n))
  else none

def bidIn : HeapIn where
  cmdValid := e.bidCmd.valid
  cmdOp := e.bidCmd.op
  cmdDataIn := e.bidCmd.data
  privRdata := e.priv.rdata
  virtReqReady := e.bidGrant && i.mmuReqReady
  virtRespValid := decide (e.mmuOwner = .bid) && i.mmuRespValid
  virtRespData := i.mmuRespData
  virtRespReject := decide (e.mmuOwner = .bid) && i.mmuRespReject

def askIn : HeapIn where
  cmdValid := e.askCmd.valid
  cmdOp := e.askCmd.op
  cmdDataIn := e.askCmd.data
  privRdata := e.priv.rdata
  virtReqReady := e.askGrant && i.mmuReqReady
  virtRespValid := decide (e.mmuOwner = .ask) && i.mmuRespValid
  virtRespData := i.mmuRespData
  virtRespReject := decide (e.mmuOwner = .ask) && i.mmuRespReject

def nOwner : MmuOwner :=
  match e.mmuOwner with
  | .idle =>
    if e.bidGrant && i.mmuReqReady then .bid else if e.askGrant && i.mmuReqReady then .ask else .idle
  | o => if i.mmuRespValid || i.mmuRespReject then .idle else o

/-! ### Shared private BRAM -/

def askActive : Bool := e.ask.privWe || e.ask.privRe

def privAddr : Nat := if e.askActive then 64 + e.ask.privAddr else e.bid.privAddr

def privWdata : Node :=
  if e.askActive then e.ask.memWdata (askCfg n) else e.bid.memWdata (bidCfg n)

def nPriv : PrivBram :=
  e.priv.step (e.bid.privWe || e.ask.privWe) (e.bid.privRe || e.ask.privRe) e.privAddr (e.privWdata n)

/-! ### Trade controller -/

/-- Where the controller goes when a round ends: peek again while both heaps hold orders. -/
def again : TState := if 0 < e.bid.size ∧ 0 < e.ask.size then .peekBidIssue else .idle

def tnState : TState :=
  match e.tstate with
  | .idle => if i.orderInValid then .pushIssue else .idle
  | .pushIssue => .pushWait
  | .pushWait =>
    if (e.pendingIsAsk && e.ask.cmdDone) || (!e.pendingIsAsk && e.bid.cmdDone) then e.again
    else .pushWait
  | .peekBidIssue => .peekBidWait
  | .peekBidWait => if e.bid.cmdDone then .peekAskIssue else .peekBidWait
  | .peekAskIssue => .peekAskWait
  | .peekAskWait => if e.ask.cmdDone then .decide else .peekAskWait
  | .decide =>
    if !e.tradeMatch then .idle
    else if e.partialBidRemains then .popAskIssue
    else .popBidIssue
  | .popBidIssue => .popBidWait
  | .popBidWait =>
    if e.bid.cmdDone then if e.latchedPartialAsk then .updateAskIssue else .popAskIssue
    else .popBidWait
  | .popAskIssue => .popAskWait
  | .popAskWait =>
    if e.ask.cmdDone then if e.latchedPartialBid then .updateBidIssue else .emitTrade
    else .popAskWait
  | .updateBidIssue => .updateBidWait
  | .updateBidWait => if e.bid.cmdDone then .emitTrade else .updateBidWait
  | .updateAskIssue => .updateAskWait
  | .updateAskWait => if e.ask.cmdDone then .emitTrade else .updateAskWait
  | .emitTrade => if i.tradeOutReady then e.again else .emitTrade

/-- The controller takes the order on its input. -/
def takesOrder : Bool := decide (e.tstate = .idle) && i.orderInValid

/-- The controller decides to trade. -/
def trades : Bool := decide (e.tstate = .decide) && e.tradeMatch

/-- One clock edge. -/
def step : SymbolEngine where
  bid := e.bid.step (bidCfg n) (e.bidIn i)
  ask := e.ask.step (askCfg n) (e.askIn i)
  priv := e.nPriv n
  mmuOwner := e.nOwner i
  tstate := e.tnState i
  pendingOrder :=
    if e.takesOrder i then packOrder i.orderInData (symbolOf n) i.nowTs else e.pendingOrder
  pendingIsAsk := if e.takesOrder i then !i.orderInData.getLsbD 31 else e.pendingIsAsk
  bidRootSnap :=
    if e.tstate = .peekBidWait ∧ e.bid.cmdDone = true then e.bid.cmdRootOut else e.bidRootSnap
  askRootSnap :=
    if e.tstate = .peekAskWait ∧ e.ask.cmdDone = true then e.ask.cmdRootOut else e.askRootSnap
  tradeEventData := if e.trades then e.tradeEvent else e.tradeEventData
  tradeEventPending :=
    if e.trades then true
    else if e.tstate = .emitTrade ∧ i.tradeOutReady = true then false else e.tradeEventPending
  latchedPartialBid := if e.trades then e.partialBidRemains else e.latchedPartialBid
  latchedPartialAsk := if e.trades then e.partialAskRemains else e.latchedPartialAsk

/-! ### Outputs -/

def orderInReady : Bool := decide (e.tstate = .idle)

def tradeOutValid : Bool := decide (e.tstate = .emitTrade) && e.tradeEventPending

def tradeOutData : Node := e.tradeEventData

def engineIdle : Bool := decide (e.tstate = .idle)

end SymbolEngine

end HftSim
