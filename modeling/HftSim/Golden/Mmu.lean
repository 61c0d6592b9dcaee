import HftSim.Golden.Heap

/-!
# The golden model's memory (`sw_sim/mmu.h`, `sw_sim/memory_sim.c`)

Each book fills 64-order frames of a shared memory, then a shared overflow page of 8. Statistics,
cycle counts and output are left out, but for the trades reported and the result files left open.
-/

namespace HftSim.Golden

open Function

structure PhysicalFrame where
  ownerSymbol : Int
  nodeCount : Int

/-- `free f` is bit `f` of `free_bitmap`. -/
structure MemoryManager where
  frames : Nat → PhysicalFrame
  free : Nat → Bool
  hardRejects : Nat
  overflowCnt : Nat

/-- `virtual_pages[0 .. page_count - 1]` and `nodes_in_curr_page`. -/
structure SymbolMemory where
  virtualPages : List Nat
  nodesInCurrPage : Nat

structure OrderBook where
  asks : Heap
  bids : Heap
  trades : Nat
  mem : SymbolMemory

def pageSize : Nat := 64

def maxPages : Nat := 256

def maxPagesPerSymbol : Nat := 128

def overflowPageSize : Nat := 8

def createMemoryManager : MemoryManager := ⟨fun _ => ⟨-1, 0⟩, fun _ => true, 0, 0⟩

def createOrderBook : OrderBook := ⟨createHeap 10, createHeap 10, 0, [], 0⟩

def SymbolMemory.pageCount (m : SymbolMemory) : Nat := m.virtualPages.length

/-- `translate`; `none` is -1. -/
def translate (ob : OrderBook) (pageIndex : Nat) : Option Nat := ob.mem.virtualPages[pageIndex]?

/-- `mm->frames[frame].node_count = n` -/
def MemoryManager.setCount (mm : MemoryManager) (frame : Nat) (n : Int) : MemoryManager :=
  { mm with frames := update mm.frames frame { mm.frames frame with nodeCount := n } }

def allocateFrame (mm : MemoryManager) (symbolId : Int) : Option (Nat × MemoryManager) :=
  ((List.range maxPages).find? mm.free).map fun i =>
    (i, { mm with free := update mm.free i false, frames := update mm.frames i ⟨symbolId, 0⟩ })

def freeFrame (mm : MemoryManager) (ob : OrderBook) (pageIndex : Nat) : MemoryManager :=
  match translate ob pageIndex with
  | none => mm
  | some frame =>
    { mm with free := update mm.free frame true, frames := update mm.frames frame ⟨-1, 0⟩ }

def pushOrder (ob : OrderBook) (o : Order) : OrderBook :=
  if o.type then { ob with asks := ob.asks.push minCmp o } else { ob with bids := ob.bids.push maxCmp o }

/-- The part of `mem_aware_insert` after the current page: a new page, the overflow page, or a hard
reject. -/
def insertElsewhere (ob : OrderBook) (mm : MemoryManager) (o : Order) (symId : Int) :
    Bool × OrderBook × MemoryManager :=
  match if ob.mem.pageCount < maxPagesPerSymbol then allocateFrame mm symId else none with
  | some (frame, mm) =>
    (true, pushOrder { ob with mem := ⟨ob.mem.virtualPages ++ [frame], 1⟩ } o, mm.setCount frame 1)
  | none =>
    if mm.overflowCnt < overflowPageSize then
      (true, pushOrder ob o, { mm with overflowCnt := mm.overflowCnt + 1 })
    else (false, ob, { mm with hardRejects := mm.hardRejects + 1 })

def memAwareInsert (ob : OrderBook) (mm : MemoryManager) (o : Order) (symId : Int) :
    Bool × OrderBook × MemoryManager :=
  if 0 < ob.mem.pageCount ∧ ob.mem.nodesInCurrPage < pageSize then
    match translate ob (ob.mem.pageCount - 1) with
    | none => (false, ob, mm)
    | some frame =>
      (true, pushOrder { ob with mem := { ob.mem with nodesInCurrPage := ob.mem.nodesInCurrPage + 1 } } o,
        mm.setCount frame ((mm.frames frame).nodeCount + 1))
  else insertElsewhere ob mm o symId

/-- `free_node_memory`, and the second half of `post_trade_cleanup`. -/
def freeNodeMemory (ob : OrderBook) (mm : MemoryManager) : OrderBook × MemoryManager :=
  if 0 < ob.mem.nodesInCurrPage then
    let nodes := ob.mem.nodesInCurrPage - 1
    match translate ob (ob.mem.pageCount - 1) with
    | none => ({ ob with mem := { ob.mem with nodesInCurrPage := nodes } }, mm)
    | some frame =>
      let mm := mm.setCount frame ((mm.frames frame).nodeCount - 1)
      if (mm.frames frame).nodeCount = 0 then
        ({ ob with mem := ⟨ob.mem.virtualPages.dropLast, if 1 < ob.mem.pageCount then pageSize else 0⟩ },
          freeFrame mm ob (ob.mem.pageCount - 1))
      else ({ ob with mem := { ob.mem with nodesInCurrPage := nodes } }, mm)
  else (ob, mm)

def postTradeCleanup (ob : OrderBook) (mm : MemoryManager) : OrderBook × MemoryManager :=
  freeNodeMemory ob { mm with overflowCnt := mm.overflowCnt - 1 }

/-- `pop` of a side: an expired order frees its memory. -/
def popSide (ask : Bool) (now : Nat) (r : OrderBook × MemoryManager) : OrderBook × MemoryManager :=
  let p := (if ask then r.1.asks else r.1.bids).pop (if ask then minCmp else maxCmp) now
  (fun r => freeNodeMemory r.1 r.2)^[p.2]
    (if ask then { r.1 with asks := p.1 } else { r.1 with bids := p.1 }, r.2)

/-- A reported trade. -/
structure Trade where
  price : Int
  amount : Int
deriving DecidableEq, Repr

/-- What `check_for_trade_multi` does: the trade it reports (it returns 1) or none (0), the book and
memory after it, and whether it has closed `results.txt`. -/
structure Check where
  trade : Option Trade
  ob : OrderBook
  mm : MemoryManager
  closed : Bool

/-- `nowBid` and `nowAsk` are the clock readings of the pops. -/
def checkForTradeMulti (nowBid nowAsk : Nat) (ob : OrderBook) (mm : MemoryManager) : Check :=
  if ob.asks.size = 0 ∨ ob.bids.size = 0 then ⟨none, ob, mm, false⟩
  else
    let bid := ob.bids.peek
    let ask := ob.asks.peek
    if ask.price ≤ bid.price then
      if bid.amount = ask.amount then
        let r := popSide true nowAsk (popSide false nowBid (ob, mm))
        ⟨some ⟨bid.price, bid.amount⟩, r.1, r.2, true⟩
      else if ask.amount < bid.amount then
        let r := popSide true nowAsk ({ ob with bids := ob.bids.update (bid.amount - ask.amount) }, mm)
        ⟨some ⟨bid.price, ask.amount⟩, r.1, r.2, true⟩
      else
        let r := popSide false nowBid ({ ob with asks := ob.asks.update (ask.amount - bid.amount) }, mm)
        ⟨some ⟨bid.price, bid.amount⟩, r.1, r.2, true⟩
    else ⟨none, ob, mm, true⟩

/-- One book at work: the trades it has reported and the result files it has left open. -/
structure Desk where
  ob : OrderBook
  mm : MemoryManager
  log : List Trade
  openFiles : Nat

/-- One round of the `while` loop, `none` when `check_for_trade_multi` returns 0. -/
def Desk.round (now : Nat → Nat) (j : Nat) (d : Desk) : Option Desk :=
  let c := checkForTradeMulti (now (2 * j)) (now (2 * j + 1)) d.ob d.mm
  c.trade.map fun t =>
    let r := postTradeCleanup { c.ob with trades := c.ob.trades + 1 } c.mm
    ⟨r.1, r.2, d.log ++ [t], d.openFiles + if c.closed then 0 else 1⟩

/-- The last check of the loop. -/
def Desk.last (now : Nat → Nat) (j : Nat) (d : Desk) : Desk :=
  let c := checkForTradeMulti (now (2 * j)) (now (2 * j + 1)) d.ob d.mm
  ⟨c.ob, c.mm, d.log, d.openFiles + if c.closed then 0 else 1⟩

/-- The `while` loop; each round uses up an order. -/
def Desk.loop (now : Nat → Nat) : Nat → Nat → Desk → Desk
  | 0, _, d => d
  | fuel + 1, j, d =>
    match d.round now j with
    | none => d.last now j
    | some d' => Desk.loop now fuel (j + 1) d'

/-- An order is submitted with the clock readings while it is processed. -/
structure Submission (σ : Type*) where
  symbol : σ
  order : Order
  now : Nat → Nat

/-- `mem_aware_insert`, then trades until there are none. -/
def Desk.submit (d : Desk) (o : Order) (symId : Int) (now : Nat → Nat) : Desk :=
  let r := memAwareInsert d.ob d.mm o symId
  let d' : Desk := { d with ob := r.2.1, mm := r.2.2 }
  if r.1 then d'.loop now (d'.ob.asks.size + d'.ob.bids.size + 1) 0 else d'

/-- The books with their symbols (`Exchange`) and what they share. -/
structure Sim (σ : Type*) where
  books : List (σ × OrderBook)
  mm : MemoryManager
  log : List (σ × Trade)
  openFiles : Nat

namespace Sim

variable {σ : Type*} [DecidableEq σ]

def start : Sim σ := ⟨[], createMemoryManager, [], 0⟩

/-- `find_or_create_book` -/
def findOrCreateBook (books : List (σ × OrderBook)) (symbol : σ) : List (σ × OrderBook) :=
  if books.any (fun b => decide (b.1 = symbol)) then books else books ++ [(symbol, createOrderBook)]

/-- `sym_id`, and the index of the symbol's book. -/
def symId (books : List (σ × OrderBook)) (symbol : σ) : Nat :=
  books.findIdx fun b => decide (b.1 = symbol)

/-- The body of the submission loops. -/
def submit (s : Sim σ) (sub : Submission σ) : Sim σ :=
  let books := findOrCreateBook s.books sub.symbol
  let i := symId books sub.symbol
  match books[i]? with
  | none => s
  | some (_, ob) =>
    let d := Desk.submit ⟨ob, s.mm, [], s.openFiles⟩ sub.order i sub.now
    ⟨books.set i (sub.symbol, d.ob), d.mm, s.log ++ d.log.map (sub.symbol, ·), d.openFiles⟩

def run (subs : List (Submission σ)) : Sim σ := subs.foldl submit start

end Sim

end HftSim.Golden
