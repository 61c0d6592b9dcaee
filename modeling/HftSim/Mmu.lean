import HftSim.Fifo
import HftSim.MemBank

/-!
# The MMU (`hw/mmu/mmu.sv`, `HPTW.sv`, `arbiter.sv`)

Eight clients share two input FIFOs, each served by a page-table walker. A walker translates an
address through the page table, allocating a node slot of the client's partition on a miss, and
hands the request to the arbiter, which queues it for one of four memory banks. Answers come back
through a buffer per bank and are routed by the engine number in the address.
-/

namespace HftSim

open Function

/-! ### `HPTW` -/

/-- A page-table entry: valid bit, visible page, node. -/
structure PtEntry where
  valid : Bool
  page : Nat
  node : Nat
deriving DecidableEq, Repr

/-- `state_t` of `HPTW` -/
inductive WalkState
  | idle | lookup | allocate | done | fault
deriving DecidableEq, Repr

structure Hptw where
  state : WalkState
  latchedKey : Nat
  paReg : Nat
  paValidReg : Bool
  bankIdReg : Fin 4
  faultReg : Bool

structure HptwIn where
  vaValid : Bool
  va : Nat
  ptRdata : PtEntry
  allocAvail : Bool
  allocPageIn : Nat
  allocNodeIn : Nat

/-- `{va[31:29], va[10:0]}` -/
def ptKey (va : Nat) : Nat := va / 2 ^ 29 % 2 ^ 3 * 2 ^ 11 + va % 2 ^ 11

/-- `{11'd0, page + 16, 3'd0, node, 4'd0}` -/
def computedPa (page node : Nat) : Nat := (page + 16) % 2 ^ 8 * 2 ^ 13 + node * 2 ^ 4

def computedBankId (page : Nat) : Fin 4 :=
  if page < 60 then 0 else if page < 120 then 1 else if page < 180 then 2 else 3

namespace Hptw

def reset : Hptw := ⟨.idle, 0, 0, false, 0, false⟩

variable (h : Hptw) (i : HptwIn)

def selectedVisiblePage : Nat := if h.state = .lookup then i.ptRdata.page else i.allocPageIn

def selectedNode : Nat := if h.state = .lookup then i.ptRdata.node else i.allocNodeIn

def nState : WalkState :=
  match h.state with
  | .idle => if i.vaValid then .lookup else .idle
  | .lookup => if i.ptRdata.valid then .done else .allocate
  | .allocate => if i.allocAvail then .done else .fault
  | .done => .idle
  | .fault => .idle

def ptRaddr : Nat := if h.state = .idle ∧ i.vaValid then ptKey i.va else h.latchedKey

/-- `pt_we`, and also `alloc`. -/
def alloc : Bool := decide (h.state = .allocate) && i.allocAvail

def ptWdata : PtEntry := ⟨true, i.allocPageIn, i.allocNodeIn⟩

def busy : Bool := decide (h.state ≠ .idle)

def step : Hptw where
  state := h.nState i
  latchedKey := if h.state = .idle ∧ i.vaValid then ptKey i.va else h.latchedKey
  paReg :=
    if h.nState i = .done then computedPa (h.selectedVisiblePage i) (h.selectedNode i) else h.paReg
  paValidReg := decide (h.nState i = .done)
  bankIdReg := if h.nState i = .done then computedBankId (h.selectedVisiblePage i) else h.bankIdReg
  faultReg := decide (h.nState i = .fault)

end Hptw

/-! ### The MMU's registers -/

/-- The write pointer of a partition. -/
structure PartPtr where
  pageOff : Nat
  nodeOff : Nat
  full : Bool
deriving DecidableEq, Repr

def PartPtr.advance (p : PartPtr) : PartPtr :=
  if p.nodeOff = 63 then
    if p.pageOff = 14 then { p with nodeOff := 0, full := true }
    else { p with nodeOff := 0, pageOff := p.pageOff + 1 }
  else { p with nodeOff := p.nodeOff + 1 }

/-- An entry of a bank FIFO: the request with its translation. -/
structure BankEntry where
  req : Req
  pa : Nat

/-- `resp_buf_data`, `resp_buf_va`, `resp_buf_valid` of one bank. -/
structure RespBuf where
  data : Node
  va : Nat
  valid : Bool

/-- The registers of `mmu` and of the `arbiter` and walkers inside it. The two walkers and the
input FIFOs in front of them are numbered `false` and `true` for 0 and 1. -/
structure Mmu where
  rrPointer : Nat
  inFifo : Bool → Ring.Ring Req
  ptw : Bool → Hptw
  pipe : Bool → Req
  part : Nat → PartPtr
  pageTable : Nat → PtEntry
  ptRdata : Bool → PtEntry
  rrPriority : Bool
  bankFifo : Fin 4 → Ring.Ring BankEntry
  vaFifo : Fin 4 → Ring.Ring Nat
  respBuf : Fin 4 → RespBuf

/-- What the banks show the arbiter in one cycle. -/
structure BankOut where
  rdata : Node
  rdataValid : Bool
  wdone : Bool
  busy : Bool

/-- `va[31:29]` -/
def vaEngine (va : Nat) : Nat := va / 2 ^ 29 % 2 ^ 3

namespace Mmu

variable (m : Mmu) (req : Fin 8 → Option Req) (bank : Fin 4 → BankOut)

/-! ### Arbiter -/

def fifoFull (b : Fin 4) : Bool := decide ((m.bankFifo b).cnt = 4)

def fifoAlmostFull (b : Fin 4) : Bool := decide ((m.bankFifo b).cnt = 3)

/-- The partition of the request in a walker: `{va[31:29], va[10]}`. -/
def partition (w : Bool) : Nat := vaEngine (m.pipe w).va * 2 + (m.pipe w).va / 2 ^ 10 % 2

/-- `partition_base[p] + partition_page_off[p]`, in 8 bits. -/
def allocPageAvail (w : Bool) : Nat := (m.partition w * 15 + (m.part (m.partition w)).pageOff) % 2 ^ 8

def allocNodeAvail (w : Bool) : Nat := (m.part (m.partition w)).nodeOff

def allocAvail (w : Bool) : Bool := !(m.part (m.partition w)).full

/-- `ptw_va_valid_in`, and also the read enable of the input FIFO. -/
def vaValidIn (w : Bool) : Bool := decide ((m.inFifo w).cnt ≠ 0) && !(m.ptw w).busy

/-- The head of an input FIFO. -/
def inHead (w : Bool) : Req := (m.inFifo w).mem (m.inFifo w).rd

def ptwIn (w : Bool) : HptwIn where
  vaValid := m.vaValidIn w
  va := (m.inHead w).va
  ptRdata := m.ptRdata w
  allocAvail := m.allocAvail w
  allocPageIn := m.allocPageAvail w
  allocNodeIn := m.allocNodeAvail w

/-- `ptw_alloc` -/
def ptwAlloc (w : Bool) : Bool := (m.ptw w).alloc (m.ptwIn w)

def sameAllocCollision : Bool :=
  m.ptwAlloc false && m.ptwAlloc true && decide (m.partition false = m.partition true)

/-- Walker 1 gives way in a collision: `ptw1_alloc_eff`, and also `ptw1_pt_we_eff`. -/
def allocEff (w : Bool) : Bool := if w then m.ptwAlloc true && !m.sameAllocCollision else m.ptwAlloc false

/-- `arb_ptw_valid` -/
def arbValid (w : Bool) : Bool :=
  if w then (m.ptw true).paValidReg && !m.sameAllocCollision else (m.ptw false).paValidReg

/-- `ptw0_fault`, `ptw1_fault_eff` -/
def faultEff (w : Bool) : Bool :=
  if w then (m.ptw true).faultReg || m.sameAllocCollision else (m.ptw false).faultReg

def bankId (w : Bool) : Fin 4 := (m.ptw w).bankIdReg

def sameBankCollision : Bool :=
  m.arbValid false && m.arbValid true && decide (m.bankId false = m.bankId true)

def canEnqueue (w : Bool) : Bool :=
  if m.sameBankCollision then
    if m.fifoFull (m.bankId false) then false
    else if m.fifoAlmostFull (m.bankId false) then decide (m.rrPriority = w)
    else true
  else m.arbValid w && !m.fifoFull (m.bankId w)

/-- `arb_ptw_reject`, and also `requeue_to`. -/
def arbReject (w : Bool) : Bool := m.arbValid w && !m.canEnqueue w

/-- `ptw_writes_b` -/
def writesBank (w : Bool) (b : Fin 4) : Bool := m.canEnqueue w && decide (m.bankId w = b)

def arbEntry (w : Bool) : BankEntry := ⟨m.pipe w, (m.ptw w).paReg⟩

/-- The head of a bank FIFO. -/
def bankHead (b : Fin 4) : BankEntry := (m.bankFifo b).mem (m.bankFifo b).rd

def dispatch (b : Fin 4) : Bool :=
  decide ((m.bankFifo b).cnt ≠ 0) && !(bank b).busy && !(m.respBuf b).valid &&
    decide ((m.vaFifo b).cnt ≠ 8)

/-- `mem_addr`, `mem_we`, `mem_re` and `mem_wdata` of a bank. -/
def bankIn (b : Fin 4) : BankIn where
  memAddr := (m.bankHead b).pa
  memWe := m.dispatch bank b && (m.bankHead b).req.wr
  memRe := m.dispatch bank b && !(m.bankHead b).req.wr
  memWdata := (m.bankHead b).req.wdata

def vaPop (b : Fin 4) : Bool := ((bank b).rdataValid || (bank b).wdone) && !(m.respBuf b).valid

/-- The head of a tracking FIFO. -/
def vaDout (b : Fin 4) : Nat := (m.vaFifo b).mem (m.vaFifo b).rd

def nRespBuf (b : Fin 4) : RespBuf :=
  if m.vaPop bank b then ⟨if (bank b).rdataValid then (bank b).rdata else 0, m.vaDout b, true⟩
  else if (m.respBuf b).valid then { m.respBuf b with valid := false }
  else m.respBuf b

/-! ### Input side -/

/-- `fifo_in_full` -/
def inFull (w : Bool) : Bool := decide (7 ≤ (m.inFifo w).cnt)

/-- The requesting clients in round-robin order; the first two are the winners. -/
def winners : List (Fin 8) :=
  ((List.finRange 8).map fun i => Fin.ofNat 8 (m.rrPointer + i.val)).filter fun e => (req e).isSome

def firstWinner : Option (Fin 8) := (m.winners req)[0]?

def secondWinner : Option (Fin 8) := (m.winners req)[1]?

def firstToFifo1 : Bool := decide ((m.inFifo true).cnt < (m.inFifo false).cnt)

/-- The FIFO a winner is steered to takes a new request. -/
def hasSpace (w : Bool) : Bool := !m.inFull w && !m.arbReject w

def acceptFirst : Bool := (m.firstWinner req).isSome && m.hasSpace m.firstToFifo1

def acceptSecond : Bool :=
  (m.secondWinner req).isSome && m.hasSpace (!m.firstToFifo1) && m.acceptFirst req

/-- `req_ready` -/
def reqReady (e : Fin 8) : Bool :=
  (m.acceptFirst req && decide (m.firstWinner req = some e)) ||
    (m.acceptSecond req && decide (m.secondWinner req = some e))

/-- The new request steered to FIFO `w`, if any. -/
def newEntry (w : Bool) : Option Req :=
  if m.firstToFifo1 = w then (if m.acceptFirst req then (m.firstWinner req).bind req else none)
  else if m.acceptSecond req then (m.secondWinner req).bind req else none

/-- `fifo_in_wr_en` and `fifo_in_wr_data`: a requeued request or a new one. -/
def inWrite (w : Bool) : Option Req :=
  match m.newEntry req w with
  | some r => some r
  | none => if m.arbReject w then some (m.pipe w) else none

def nRrPointer : Nat :=
  if m.acceptSecond req then (((m.secondWinner req).getD 0).val + 1) % 8
  else if m.acceptFirst req then (((m.firstWinner req).getD 0).val + 1) % 8
  else m.rrPointer

/-! ### One clock edge -/

def nPart (p : Nat) : PartPtr :=
  if m.allocEff false ∧ p = m.partition false then (m.part p).advance
  else if m.allocEff true ∧ p = m.partition true then (m.part p).advance
  else m.part p

/-- The address a walker puts on the page table. -/
def ptRaddr (w : Bool) : Nat := (m.ptw w).ptRaddr (m.ptwIn w)

/-- `page_table` takes a write only where the walker also reads. -/
def ptWrite (w : Bool) (pt : Nat → PtEntry) : Nat → PtEntry := fun k =>
  if m.allocEff w && decide (m.ptRaddr w = (m.ptw w).latchedKey) && decide (k = m.ptRaddr w) then
    Hptw.ptWdata (m.ptwIn w)
  else pt k

def step : Mmu where
  rrPointer := m.nRrPointer req
  inFifo w := fifoStep (m.inFifo w) (m.inWrite req w).isSome ((m.inWrite req w).getD ⟨0, false, 0⟩)
    (m.vaValidIn w)
  ptw w := (m.ptw w).step (m.ptwIn w)
  pipe w := if m.vaValidIn w then m.inHead w else m.pipe w
  part := m.nPart
  pageTable := m.ptWrite true (m.ptWrite false m.pageTable)
  ptRdata w := m.pageTable (m.ptRaddr w)
  rrPriority :=
    if m.sameBankCollision && m.fifoAlmostFull (m.bankId false) then !m.rrPriority else m.rrPriority
  bankFifo b := dualWriteFifoStep (m.bankFifo b) (m.writesBank false b) (m.arbEntry false)
    (m.writesBank true b) (m.arbEntry true) (m.dispatch bank b)
  vaFifo b := trackingFifoStep (m.vaFifo b) (m.dispatch bank b) (m.bankHead b).req.va (m.vaPop bank b)
  respBuf := m.nRespBuf bank

/-- `rst_n`: the page table, its read registers and the FIFO memories have no reset. -/
def reset : Mmu where
  rrPointer := 0
  inFifo w := fifoReset (m.inFifo w)
  ptw _ := .reset
  pipe _ := ⟨0, false, 0⟩
  part _ := ⟨0, 0, false⟩
  pageTable := m.pageTable
  ptRdata := m.ptRdata
  rrPriority := false
  bankFifo b := fifoReset (m.bankFifo b)
  vaFifo b := fifoReset (m.vaFifo b)
  respBuf _ := ⟨0, 0, false⟩

/-! ### Responses -/

/-- `resp_valid` and `resp_data`: the last bank whose buffered answer is for engine `e`. -/
def resp (e : Fin 8) : Option Node :=
  (List.finRange 4).foldl (fun acc b =>
    if (m.respBuf b).valid ∧ vaEngine (m.respBuf b).va = e.val then some (m.respBuf b).data else acc) none

def respReject (e : Fin 8) : Bool :=
  (m.faultEff false && decide (vaEngine (m.pipe false).va = e.val)) ||
    (m.faultEff true && decide (vaEngine (m.pipe true).va = e.val))

end Mmu

end HftSim
