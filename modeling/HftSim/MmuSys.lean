import HftSim.Mmu
import Mathlib.Algebra.BigOperators.Fin

/-!
# The MMU with its banks and its clients

`MmuSys` is the MMU connected to the four banks. `Clients` is what its eight clients know: the
request each of them has unanswered, and the data of the last write to each address that has been
answered. A client offers a request only when it has none unanswered, and only for addresses with
its own engine number (`Legal`). `Run` are the states reached from power-up; `RunReset` allows
resets.
-/

namespace HftSim

open Function

/-- Power-up: `page_table_zero.mif`, and the registers as after reset. -/
def Mmu.powerUp : Mmu where
  rrPointer := 0
  inFifo _ := ⟨fun _ => ⟨0, false, 0⟩, 0, 0, 0⟩
  ptw _ := .reset
  pipe _ := ⟨0, false, 0⟩
  part _ := ⟨0, 0, false⟩
  pageTable _ := ⟨false, 0, 0⟩
  ptRdata _ := ⟨false, 0, 0⟩
  rrPriority := false
  bankFifo _ := ⟨fun _ => ⟨⟨0, false, 0⟩, 0⟩, 0, 0, 0⟩
  vaFifo _ := ⟨fun _ => 0, 0, 0, 0⟩
  respBuf _ := ⟨0, 0, false⟩

structure MmuSys where
  mmu : Mmu
  bank : Fin 4 → MemBank

namespace MmuSys

def powerUp : MmuSys := ⟨.powerUp, fun _ => .powerUp⟩

def reset (s : MmuSys) : MmuSys := ⟨s.mmu.reset, fun b => (s.bank b).reset⟩

variable (s : MmuSys)

def bankOut (b : Fin 4) : BankOut :=
  ⟨(s.bank b).memRdata, (s.bank b).memRdataValid, (s.bank b).memWdone, (s.bank b).memBusy⟩

/-- One clock edge with the clients' requests `req`. -/
def step (req : Fin 8 → Option Req) : MmuSys where
  mmu := s.mmu.step req s.bankOut
  bank b := (s.bank b).step b.val (s.mmu.bankIn s.bankOut b)

/-- The request taken from client `e`. -/
def accepted (req : Fin 8 → Option Req) (e : Fin 8) : Option Req :=
  if s.mmu.reqReady req e then req e else none

/-- `resp_valid` or `resp_reject` of client `e`. -/
def answered (e : Fin 8) : Bool := (s.mmu.resp e).isSome || s.mmu.respReject e

end MmuSys

structure Clients where
  pend : Fin 8 → Option Req
  mem : Nat → Option Node

/-- The engine number in a key. -/
def keyEngine (key : Nat) : Fin 8 := Fin.ofNat 8 (key / 2 ^ 11)

namespace Clients

variable (c : Clients) (s : MmuSys) (req : Fin 8 → Option Req)

/-- No request, and no answered write. -/
def fresh : Clients := ⟨fun _ => none, fun _ => none⟩

def next : Clients where
  pend e := if (s.accepted req e).isSome then s.accepted req e
    else if s.answered e then none else c.pend e
  mem key :=
    match c.pend (keyEngine key) with
    | some r =>
      if (s.mmu.resp (keyEngine key)).isSome ∧ r.wr = true ∧ ptKey r.va = key then some r.wdata
      else c.mem key
    | none => c.mem key

/-- What the clients may offer: 32-bit addresses of their own, one request at a time. -/
def Legal : Prop := ∀ e r, req e = some r →
  (c.pend e = none ∨ s.answered e = true) ∧ r.va < 2 ^ 32 ∧ vaEngine r.va = e.val

instance : Decidable (c.Legal s req) := inferInstanceAs (Decidable (∀ e, ∀ r ∈ req e,
  (c.pend e = none ∨ s.answered e = true) ∧ r.va < 2 ^ 32 ∧ vaEngine r.va = e.val))

end Clients

/-- The states reached from power-up without a reset. -/
inductive Run : MmuSys → Clients → Prop
  | powerUp : Run .powerUp .fresh
  | step {s c req} (h : Run s c) (hl : c.Legal s req) : Run (s.step req) (c.next s req)

def tick (req : Fin 8 → Option Req) (q : MmuSys × Clients) : MmuSys × Clients :=
  (q.1.step req, q.2.next q.1 req)

/-- The `n`-th state after `s` when the clients offer `reqs 0, reqs 1, …` -/
def follow (reqs : Nat → Fin 8 → Option Req) (s : MmuSys) (c : Clients) : Nat → MmuSys × Clients
  | 0 => (s, c)
  | n + 1 => tick (reqs n) (follow reqs s c n)

/-- The first `n` offers are legal. -/
def LegalFor (reqs : Nat → Fin 8 → Option Req) (s : MmuSys) (c : Clients) (n : Nat) : Prop :=
  ∀ t < n, (follow reqs s c t).2.Legal (follow reqs s c t).1 (reqs t)

instance (reqs : Nat → Fin 8 → Option Req) (s : MmuSys) (c : Clients) (n : Nat) :
    Decidable (LegalFor reqs s c n) := inferInstanceAs (Decidable (∀ t < n, _))

/-- Engine 0 offers the requests of `l` at their times. -/
def offers (l : List (Nat × Req)) (t : Nat) (e : Fin 8) : Option Req := if e = 0 then l.lookup t else none

/-- No walker is about to hand out a slot that a valid page-table entry names. -/
def FreshAlloc (m : Mmu) : Prop :=
  ∀ w, m.ptwAlloc w = true → ∀ key, (m.pageTable key).valid = true →
    ¬ ((m.pageTable key).page = m.allocPageAvail w ∧ (m.pageTable key).node = m.allocNodeAvail w)

/-- The states reached with resets at any time, every other cycle starting in a state with `ok`. -/
inductive RunReset (ok : Mmu → Prop) : MmuSys → Clients → Prop
  | powerUp : RunReset ok .powerUp .fresh
  | step {s c req} (h : RunReset ok s c) (hl : c.Legal s req) (hok : ok s.mmu) :
      RunReset ok (s.step req) (c.next s req)
  | reset {s c} (h : RunReset ok s c) : RunReset ok s.reset .fresh

/-! ### Where the requests are -/

/-- A request as a multiset. -/
def optM (r : Option Req) : Multiset Req := match r with
  | some r => {r}
  | none => 0

/-- The place of a request inside the MMU. -/
inductive Loc
  | inFifo (w : Bool)
  | walker (w : Bool)
  | bankFifo (b : Fin 4)
  | bank (b : Fin 4)
  | respBuf (b : Fin 4)
deriving DecidableEq, Repr

/-- Book-keeping of what the registers no longer say: the request whose answer is in a response
buffer, the data of the last write a bank has finished for each key, what a key that has not been
written since then reads as (if anything is promised), and the nodes the banks store. -/
structure MmuGhost where
  buf : Fin 4 → Req
  bmem : Nat → Option Node
  dflt : Option Node
  cell : Fin 4 → Nat → Nat → Node

namespace MmuSys

variable (s : MmuSys) (x : MmuGhost)

/-- A completion pulse of bank `b`. -/
def pulse (b : Fin 4) : Bool := (s.bank b).memRdataValid || (s.bank b).memWdone

/-- Bank `b` works on a request or shows its completion. -/
def busy (b : Fin 4) : Bool := (s.bank b).memBusy || s.pulse b

/-- The request of bank `b`, with its address from the tracking FIFO. -/
def token (b : Fin 4) : Req :=
  ⟨s.mmu.vaDout b, (s.bank b).latchedIsWrite, (s.bank b).latchedWdata⟩

/-- The requests at a place. -/
def held : Loc → Multiset Req
  | .inFifo w => ↑((s.mmu.inFifo w).toList 8)
  | .walker w => optM (if (s.mmu.ptw w).busy then some (s.mmu.pipe w) else none)
  | .bankFifo b => ↑(((s.mmu.bankFifo b).toList 4).map BankEntry.req)
  | .bank b => optM (if s.busy b then some (s.token b) else none)
  | .respBuf b => optM (if (s.mmu.respBuf b).valid then some (x.buf b) else none)

/-- All requests inside the MMU. -/
def flight : Multiset Req :=
  (s.held x (.inFifo false) + s.held x (.inFifo true)) +
    (s.held x (.walker false) + s.held x (.walker true)) +
    ∑ b, (s.held x (.bankFifo b) + s.held x (.bank b) + s.held x (.respBuf b))

end MmuSys

namespace MmuGhost

variable (x : MmuGhost) (s : MmuSys)

/-- The key of the request in bank `b`. -/
def bankKey (b : Fin 4) : Nat := ptKey (s.mmu.vaDout b)

def next : MmuGhost where
  buf b := if s.pulse b then s.token b else x.buf b
  bmem key :=
    match (List.finRange 4).find? fun b => (s.bank b).writeEnds && decide (bankKey s b = key) with
    | some b => some (s.bank b).latchedWdata
    | none => x.bmem key
  dflt := x.dflt
  cell b p n :=
    if (s.bank b).writeEnds ∧ p = (s.bank b).latchedPage ∧ n = (s.bank b).latchedNode then
      (s.bank b).latchedWdata
    else x.cell b p n

end MmuGhost

end HftSim
