import HftSim.EngineInv
import HftSim.MmuSys
import HftSim.Dispatcher
import HftSim.TradeLog

/-!
# The top level (`hw/HFT_SIM.sv`)

`Top` holds the registers of the whole design: the reset and button synchronisers, the timestamp, the
Avalon wrapper, the dispatcher, the eight engines, the MMU with its banks, the aggregator and the log.
`Top.step` is one clock edge; `TopIn` is what the buttons and the bus do in a cycle. `History` records
what has gone on since the last reset. The seven-segment displays are not modelled.
-/

namespace HftSim

open Function

/-! ### The Avalon wrapper -/

/-- A cycle with `chipselect && write`. -/
structure BusWrite where
  address : BitVec 5
  writedata : BitVec 32

/-- The data of a write to the register at address `a`. -/
def busData (w : Option BusWrite) (a : Nat) : Option (BitVec 32) :=
  w.bind fun w => if w.address.toNat = a then some w.writedata else none

/-- Bit `b` of a write to the register at address `a`. -/
def busBit (w : Option BusWrite) (a b : Nat) : Bool := ((busData w a).map fun d => d.getLsbD b).getD false

def addrControl : Nat := 0

/-- `ADDR_PUSH0`, …, `ADDR_PUSH7` -/
def addrPush (n : Fin 8) : Nat := 2 + n.val

def addrLogCmd : Nat := 11

/-- The `avl_*` registers. -/
structure Avalon where
  dispBeginWritePulse : Bool
  dispBeginDispatchPulse : Bool
  dispClearDonePulse : Bool
  dispPushEn : Fin 8 → Bool
  dispPushData : Fin 8 → DispatchOrder
  logReadPulse : Bool
  logReadIndex : Nat
  logClearPulse : Bool
  logDataShadow : LogEntry
  logDataValid : Bool
  logReadPipe0 : Bool
  logReadPipe1 : Bool

namespace Avalon

def reset : Avalon :=
  ⟨false, false, false, fun _ => false, fun _ => 0, false, 0, false, 0, false, false, false⟩

variable (a : Avalon) (w : Option BusWrite) (dispPushReady : Fin 8 → Bool) (logReadData : LogEntry)

/-- A write of `LOG_CMD` with the clear bit. -/
def logClears : Bool := busBit w addrLogCmd 0

/-- A write of `LOG_CMD` with the read bit and without the clear bit. -/
def logReads : Bool := !busBit w addrLogCmd 0 && busBit w addrLogCmd 1

def step : Avalon where
  dispBeginWritePulse := busBit w addrControl 0
  dispBeginDispatchPulse := busBit w addrControl 1
  dispClearDonePulse := busBit w addrControl 2
  dispPushEn n := (busData w (addrPush n)).isSome && dispPushReady n
  dispPushData n := if dispPushReady n then (busData w (addrPush n)).getD (a.dispPushData n) else a.dispPushData n
  logReadPulse := logReads w
  logReadIndex :=
    if logReads w then ((busData w addrLogCmd).getD 0).toNat / 2 ^ 2 % 2 ^ 14 else a.logReadIndex
  logClearPulse := logClears w
  logDataShadow :=
    if logClears w then 0 else if !a.logReadPipe0 && a.logReadPipe1 then logReadData else a.logDataShadow
  logDataValid :=
    if logClears w || logReads w then false
    else if !a.logReadPipe0 && a.logReadPipe1 then true else a.logDataValid
  logReadPipe0 := logReads w
  logReadPipe1 := if logClears w || logReads w then false else a.logReadPipe0

end Avalon

/-! ### The registers -/

structure Top where
  rstPipe0 : Bool
  rstPipe1 : Bool
  keyS0 : BitVec 4
  keyS1 : BitVec 4
  keyPrev : BitVec 4
  nowTs : BitVec 32
  avl : Avalon
  disp : OrderDispatcher
  eng : Fin 8 → SymbolEngine
  mem : MmuSys
  agg : TradeAggregator
  log : TradeLog

/-- The buttons (active low) and the bus in one cycle. -/
structure TopIn where
  key : BitVec 4
  write : Option BusWrite

namespace Top

/-- Power-up: the registers as after reset, the memories from their `.mif` files. -/
def powerUp : Top where
  rstPipe0 := false
  rstPipe1 := false
  keyS0 := 0xF
  keyS1 := 0xF
  keyPrev := 0xF
  nowTs := 0
  avl := .reset
  disp := .powerUp
  eng _ := .reset ⟨fun _ => 0, 0⟩
  mem := .powerUp
  agg := ⟨0⟩
  log := .powerUp

variable (s : Top) (i : TopIn)

/-- `rst_n_i` low: the memories keep their words. -/
def reset : Top where
  rstPipe0 := s.rstPipe0
  rstPipe1 := s.rstPipe1
  keyS0 := 0xF
  keyS1 := 0xF
  keyPrev := 0xF
  nowTs := 0
  avl := .reset
  disp := s.disp.reset
  eng e := .reset (s.eng e).priv
  mem := s.mem.reset
  agg := ⟨0⟩
  log := s.log.reset

/-! ### Wires -/

/-- A button has just been pressed. -/
def keyPressPulse (b : Nat) : Bool := s.keyPrev.getLsbD b && !s.keyS1.getLsbD b

def dispBeginWritePulse : Bool := s.avl.dispBeginWritePulse || s.keyPressPulse 1

def dispBeginDispatchPulse : Bool := s.avl.dispBeginDispatchPulse || s.keyPressPulse 2

def dispIn : DispatchIn where
  swBeginWrite := s.dispBeginWritePulse
  swBeginDispatch := s.dispBeginDispatchPulse
  swClearDone := s.avl.dispClearDonePulse
  swWrEn := s.avl.dispPushEn
  swWrData := s.avl.dispPushData
  orderInReady e := (s.eng e).orderInReady

/-- `mmu_req_*` of engine `e`. -/
def mmuReq (e : Fin 8) : Option Req := (s.eng e).mmuReq e.val

def engTradeValid (e : Fin 8) : Bool := (s.eng e).tradeOutValid

/-- The engine whose trade the aggregator offers to the log. -/
def selected : Option (Fin 8) := s.agg.selected s.engTradeValid

def logIn : TradeLogIn where
  tradeIn := s.selected.map fun e => tradeOutData e (s.eng e).tradeOutData
  swRe := s.avl.logReadPulse
  swAddr := s.avl.logReadIndex
  swClear := s.avl.logClearPulse

def engineIn (e : Fin 8) : EngineIn where
  nowTs := s.nowTs
  orderInValid := s.disp.orderOutValid e
  orderInData := s.disp.orderOut e
  tradeOutReady := s.agg.engTradeReady s.engTradeValid s.log.tradeInReady e
  mmuReqReady := s.mem.mmu.reqReady s.mmuReq e
  mmuRespData := (s.mem.mmu.resp e).getD 0
  mmuRespValid := (s.mem.mmu.resp e).isSome
  mmuRespReject := s.mem.mmu.respReject e

def allEnginesIdle : Bool := decide (∀ e, (s.eng e).engineIdle = true)

def tradeDone : Bool := decide (s.disp.state = .done) && s.allEnginesIdle

/-- `avl_disp_push_ready` -/
def dispPushReady (n : Fin 8) : Bool := s.disp.swWrReady n

/-! ### One clock edge -/

/-- One clock edge out of reset. -/
def tick : Top where
  rstPipe0 := true
  rstPipe1 := s.rstPipe0
  keyS0 := i.key
  keyS1 := s.keyS0
  keyPrev := s.keyS1
  nowTs := s.nowTs + 1
  avl := s.avl.step i.write s.dispPushReady s.log.swRdata
  disp := s.disp.step s.dispIn
  eng e := (s.eng e).step e.val (s.engineIn e)
  mem := s.mem.step s.mmuReq
  agg := s.agg.step s.engTradeValid s.log.tradeInReady
  log := s.log.step s.logIn

/-- The design is in reset in this cycle: `KEY[0]` is down, or has been within the last two edges. -/
def inReset : Bool := !i.key.getLsbD 0 || !s.rstPipe1

def step : Top :=
  if i.key.getLsbD 0 = false then { s.reset with rstPipe0 := false, rstPipe1 := false }
  else if s.rstPipe1 = false then { s.reset with rstPipe0 := true, rstPipe1 := s.rstPipe0 }
  else s.tick i

end Top

/-! ### History -/

/-- What has gone on since the last reset. -/
structure History where
  clients : Clients
  batch : Batch
  /-- The orders each engine has taken. -/
  orders : Fin 8 → List Node
  /-- The trades each engine has handed over. -/
  trades : Fin 8 → List Node
  /-- The roots each engine has decided to trade, bid first. -/
  deals : Fin 8 → List (Node × Node)
  /-- The engine and the roots behind each entry of the log. -/
  logged : List (Fin 8 × Node × Node)

namespace History

def fresh : History := ⟨.fresh, .empty, fun _ => [], fun _ => [], fun _ => [], []⟩

variable (h : History) (s : Top)

def next : History where
  clients := h.clients.next s.mem s.mmuReq
  batch := h.batch.next s.disp s.dispIn
  orders e :=
    if (s.eng e).takesOrder (s.engineIn e) then
      h.orders e ++ [packOrder (s.disp.orderOut e) (symbolOf e.val) s.nowTs]
    else h.orders e
  trades e :=
    if (s.eng e).tradeOutValid && (s.engineIn e).tradeOutReady then h.trades e ++ [(s.eng e).tradeOutData]
    else h.trades e
  deals e :=
    if (s.eng e).trades then h.deals e ++ [((s.eng e).bidRootSnap, (s.eng e).askRootSnap)] else h.deals e
  logged :=
    if s.avl.logClearPulse then []
    else
      match s.selected with
      | some e => if s.log.tradeInReady then h.logged ++ [(e, (s.eng e).bidRootSnap, (s.eng e).askRootSnap)] else h.logged
      | none => h.logged

end History

namespace Top

def next (q : Top × History) (i : TopIn) : Top × History :=
  (q.1.step i, if q.1.inReset i then .fresh else q.2.next q.1)

/-- The design and its history after the inputs `is`, from power-up. -/
def run (is : List TopIn) : Top × History := is.foldl next (powerUp, .fresh)

theorem run_snoc (is : List TopIn) (i : TopIn) : run (is ++ [i]) = next (run is) i := by
  simp [run, List.foldl_append]

theorem step_of_inReset {s : Top} {i : TopIn} (h : s.inReset i = true) :
    ∃ r0 r1, s.step i = { s.reset with rstPipe0 := r0, rstPipe1 := r1 } := by
  unfold step
  split
  · exact ⟨_, _, rfl⟩
  · split
    · exact ⟨_, _, rfl⟩
    · simp_all [inReset]

theorem step_of_not_inReset {s : Top} {i : TopIn} (h : s.inReset i = false) : s.step i = s.tick i := by
  simp only [inReset, Bool.or_eq_false_iff, Bool.not_eq_false'] at h
  unfold step
  rw [if_neg (by simp [h.1]), if_neg (by simp [h.2])]

/-- An invariant of the registers and the history, whatever the inputs: it holds after a reset and is
kept by a clock edge. -/
theorem run_induction {P : Top → History → Prop} (h0 : P powerUp .fresh)
    (hr : ∀ s r0 r1, P { reset s with rstPipe0 := r0, rstPipe1 := r1 } .fresh)
    (ht : ∀ s h i, P s h → P (s.tick i) (h.next s)) (is : List TopIn) : P (run is).1 (run is).2 := by
  induction is using List.reverseRecOn with
  | nil => exact h0
  | append_singleton is i ih =>
    rw [run_snoc, next]
    cases hin : (run is).1.inReset i with
    | true =>
      obtain ⟨r0, r1, hs⟩ := step_of_inReset hin
      rw [hs]; exact hr _ _ _
    | false => rw [step_of_not_inReset hin]; exact ht _ _ _ ih

end Top

end HftSim
