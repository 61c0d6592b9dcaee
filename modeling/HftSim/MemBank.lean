import HftSim.HeapFsm

/-!
# `mem_bank` (`hw/mmu/mem_bank.sv`)

Sixty pages of 64 nodes. A node is three 32-bit words of a page's BRAM, so an access takes three
phases; a read takes one cycle more for the last word to arrive. The completion pulse is registered
and comes with the bank already idle.
-/

namespace HftSim

/-- `state_t` of `mem_bank` -/
inductive BankState
  | idle | phase0 | phase1 | phase2 | doneRead
deriving DecidableEq, Repr

structure MemBank where
  state : BankState
  latchedIsWrite : Bool
  latchedPage : Nat
  latchedNode : Nat
  latchedWdata : Node
  readAssemble : Node
  memRdata : Node
  memRdataValid : Bool
  memWdone : Bool
  /-- `bram_dp_256x32` of each page, by word address. -/
  bram : Nat → Nat → BitVec 32
  /-- Its output register. -/
  bramRdata : Nat → BitVec 32

/-- The bank's side of the arbiter's `mem_*` bundle. -/
structure BankIn where
  memAddr : Nat
  memWe : Bool
  memRe : Bool
  memWdata : Node

namespace MemBank

/-- Power-up: `mem_bank_zero.mif`. -/
def powerUp : MemBank where
  state := .idle
  latchedIsWrite := false
  latchedPage := 0
  latchedNode := 0
  latchedWdata := 0
  readAssemble := 0
  memRdata := 0
  memRdataValid := false
  memWdone := false
  bram := fun _ _ => 0
  bramRdata := fun _ => 0

/-- `rst_n`: the BRAMs and their output registers have no reset. -/
def reset (b : MemBank) : MemBank :=
  { powerUp with bram := b.bram, bramRdata := b.bramRdata }

/-- `global_page[5:0] - FIRST_PAGE_FOR_BANK[5:0]`, in 6 bits. -/
def localPageIdx (bankId memAddr : Nat) : Nat :=
  (memAddr / 2 ^ 13 % 2 ^ 6 + 2 ^ 6 - (16 + bankId * 60) % 2 ^ 6) % 2 ^ 6

/-- `mem_addr[9:4]` -/
def nodeIdx (memAddr : Nat) : Nat := memAddr / 2 ^ 4 % 2 ^ 6

variable (bankId : Nat) (b : MemBank) (i : BankIn)

def memBusy : Bool := decide (b.state ≠ .idle)

/-- `state == IDLE && (mem_re || mem_we)` -/
def starts : Bool := decide (b.state = .idle) && (i.memRe || i.memWe)

def nState : BankState :=
  match b.state with
  | .idle => if i.memRe || i.memWe then .phase0 else .idle
  | .phase0 => .phase1
  | .phase1 => .phase2
  | .phase2 => if b.latchedIsWrite then .idle else .doneRead
  | .doneRead => .idle

/-- The word address of the current phase, if there is one. -/
def bramAddr : Nat :=
  match b.state with
  | .phase0 => b.latchedNode * 4
  | .phase1 => b.latchedNode * 4 + 1
  | .phase2 => b.latchedNode * 4 + 2
  | _ => 0

def bramWdata : BitVec 32 :=
  match b.state with
  | .phase0 => b.latchedWdata.extractLsb' 0 32
  | .phase1 => b.latchedWdata.extractLsb' 32 32
  | .phase2 => 0#10 ++ b.latchedWdata.extractLsb' 64 22
  | _ => 0

def inPhase : Bool :=
  match b.state with
  | .phase0 | .phase1 | .phase2 => true
  | _ => false

/-- `bram_we[p]` -/
def bramWe (p : Nat) : Bool :=
  b.inPhase && b.latchedIsWrite && decide (p = b.latchedPage) && decide (p < 60)

/-- `bram_re[p]` -/
def bramRe (p : Nat) : Bool :=
  b.inPhase && !b.latchedIsWrite && decide (p = b.latchedPage) && decide (p < 60)

def activeRdata : BitVec 32 := b.bramRdata b.latchedPage

def nReadAssemble : Node :=
  if b.latchedIsWrite then b.readAssemble
  else
    match b.state with
    | .phase1 => b.readAssemble.extractLsb' 32 54 ++ b.activeRdata
    | .phase2 => b.readAssemble.extractLsb' 64 22 ++ b.activeRdata ++ b.readAssemble.extractLsb' 0 32
    | .doneRead => b.activeRdata.extractLsb' 0 22 ++ b.readAssemble.extractLsb' 0 64
    | _ => b.readAssemble

/-- A read finishes in this cycle. -/
def readEnds : Bool := decide (b.state = .doneRead) && !b.latchedIsWrite

/-- A write finishes in this cycle. -/
def writeEnds : Bool := decide (b.state = .phase2) && b.latchedIsWrite

/-- One clock edge. -/
def step : MemBank where
  state := b.nState i
  latchedIsWrite := if b.starts i then i.memWe else b.latchedIsWrite
  latchedPage := if b.starts i then localPageIdx bankId i.memAddr else b.latchedPage
  latchedNode := if b.starts i then nodeIdx i.memAddr else b.latchedNode
  latchedWdata := if b.starts i then i.memWdata else b.latchedWdata
  readAssemble := b.nReadAssemble
  memRdata :=
    if b.readEnds then b.activeRdata.extractLsb' 0 22 ++ b.readAssemble.extractLsb' 0 64 else b.memRdata
  memRdataValid := b.readEnds
  memWdone := b.writeEnds
  bram p a := if b.bramWe p && decide (a = b.bramAddr) then b.bramWdata else b.bram p a
  bramRdata p := if b.bramRe p then b.bram p b.bramAddr else b.bramRdata p

end MemBank

end HftSim
