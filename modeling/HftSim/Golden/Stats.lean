import HftSim.Golden.Files
import HftSim.Golden.FirstCome
import HftSim.Golden.Frames

/-!
# The statistics of the golden model (`SimStats` in `sw_sim/mmu.h`)

What each function adds to the statistics that `print_sim_stats` prints in the end. They tell the same story as
the books and the memory (`stats_agree`): every walk of the page table costs `PAGE_WALK_CYCLES`, and there is one
for every order that is stored, for every read of the top of a heap, for every order that the cleanup uncounts in
a frame and for every frame it gives back.
-/

namespace HftSim.Golden

open Function

/-- Nothing writes the `hard_rejects` and the `hazards` of a `SimStats`. -/
structure SimStats where
  totalTrades : Nat
  totalReads : Nat
  totalWrites : Nat
  overflowAccesses : Nat
  overflowMax : Nat
  totalCycles : Nat
deriving DecidableEq, Repr

def pageWalkCycles : Nat := 3

def overflowPenaltyCycles : Nat := 2

namespace SimStats

def zero : SimStats := ⟨0, 0, 0, 0, 0, 0⟩

/-- `translate` -/
def walk (st : SimStats) : SimStats := { st with totalCycles := st.totalCycles + pageWalkCycles }

def write (st : SimStats) : SimStats := { st with totalWrites := st.totalWrites + 1 }

def trade (st : SimStats) : SimStats := { st with totalTrades := st.totalTrades + 1 }

/-- The order `cnt + 1` of the overflow page. -/
def overflow (st : SimStats) (cnt : Nat) : SimStats :=
  { st with
    totalCycles := st.totalCycles + (pageWalkCycles + overflowPenaltyCycles)
    overflowAccesses := st.overflowAccesses + 1
    totalWrites := st.totalWrites + 1
    overflowMax := if st.overflowMax < cnt + 1 then cnt + 1 else st.overflowMax }

end SimStats

def memAwareInsertStats (ob : OrderBook) (mm : MemoryManager) (symId : Int) (st : SimStats) : SimStats :=
  if 0 < ob.mem.pageCount ∧ ob.mem.nodesInCurrPage < pageSize then
    match translate ob (ob.mem.pageCount - 1) with
    | none => st.walk
    | some _ => st.walk.write
  else
    match if ob.mem.pageCount < maxPagesPerSymbol then allocateFrame mm symId else none with
    | some _ => st.walk.write
    | none =>
      if mm.overflowCnt < overflowPageSize then st.overflow mm.overflowCnt
      else { st with totalCycles := st.totalCycles + 1 }

/-- `free_node_memory`, and the second half of `post_trade_cleanup`; `free_frame` walks once more. -/
def freeNodeMemoryStats (ob : OrderBook) (mm : MemoryManager) (st : SimStats) : SimStats :=
  if 0 < ob.mem.nodesInCurrPage ∧ 0 < ob.mem.pageCount then
    match translate ob (ob.mem.pageCount - 1) with
    | none => st.walk
    | some frame => if (mm.frames frame).nodeCount - 1 = 0 then st.walk.walk else st.walk
  else st

def postTradeCleanupStats (ob : OrderBook) (mm : MemoryManager) (st : SimStats) : SimStats :=
  freeNodeMemoryStats ob { mm with overflowCnt := mm.overflowCnt - 1 } st

/-- `pop` of a side: an expired order frees its memory. -/
def popSideStats (ask : Bool) (now : Nat) (r : OrderBook × MemoryManager) (st : SimStats) : SimStats :=
  let p := (if ask then r.1.asks else r.1.bids).pop (if ask then minCmp else maxCmp) now
  let ob := if ask then { r.1 with asks := p.1 } else { r.1 with bids := p.1 }
  ((fun q : (OrderBook × MemoryManager) × SimStats =>
    (freeNodeMemory q.1.1 q.1.2, freeNodeMemoryStats q.1.1 q.1.2 q.2))^[p.2] ((ob, r.2), st)).2

def checkForTradeMultiStats (nowBid nowAsk : Nat) (ob : OrderBook) (mm : MemoryManager) (st : SimStats) : SimStats :=
  if ob.asks.size = 0 ∨ ob.bids.size = 0 then st
  else
    let bid := ob.bids.peek
    let ask := ob.asks.peek
    let st := { st.walk.walk with totalReads := st.totalReads + 2 }
    if ask.price ≤ bid.price then
      if bid.amount = ask.amount then
        (popSideStats true nowAsk (popSide false nowBid (ob, mm)) (popSideStats false nowBid (ob, mm) st)).trade
      else if ask.amount < bid.amount then
        (popSideStats true nowAsk ({ ob with bids := ob.bids.update (bid.amount - ask.amount) }, mm) st).trade.write
      else
        (popSideStats false nowBid ({ ob with asks := ob.asks.update (ask.amount - bid.amount) }, mm) st).trade.write
    else st

namespace Desk

/-- A check that trades, and the cleanup after it. -/
def roundStats (now : Nat → Nat) (j : Nat) (d : Desk) (st : SimStats) : SimStats :=
  let c := checkForTradeMulti (now (2 * j)) (now (2 * j + 1)) d.ob d.mm
  postTradeCleanupStats { c.ob with trades := c.ob.trades + 1 } c.mm
    (checkForTradeMultiStats (now (2 * j)) (now (2 * j + 1)) d.ob d.mm st)

def loopStats (now : Nat → Nat) : Nat → Nat → Desk → SimStats → SimStats
  | 0, _, _, st => st
  | fuel + 1, j, d, st =>
    match d.round now j with
    | none => checkForTradeMultiStats (now (2 * j)) (now (2 * j + 1)) d.ob d.mm st
    | some d' => loopStats now fuel (j + 1) d' (d.roundStats now j st)

def submitStats (d : Desk) (o : Order) (symId : Int) (now : Nat → Nat) (st : SimStats) : SimStats :=
  let r := memAwareInsert d.ob d.mm o symId
  let d' : Desk := { d with ob := r.2.1, mm := r.2.2 }
  let st := memAwareInsertStats d.ob d.mm symId st
  if r.1 then d'.loopStats now (d'.ob.asks.size + d'.ob.bids.size + 1) 0 st else st

end Desk

namespace Sim

variable {σ : Type*} [DecidableEq σ]

def submitStats (s : Sim σ) (sub : Submission σ) (st : SimStats) : SimStats :=
  let books := findOrCreateBook s.books sub.symbol
  let i := symId books sub.symbol
  match books[i]? with
  | none => st
  | some (_, ob) => Desk.submitStats ⟨ob, s.mm, [], s.openFiles⟩ sub.order i sub.now st

/-- The statistics after a run. -/
def runStats (subs : List (Submission σ)) : SimStats :=
  (subs.foldl (fun p sub => (p.1.submit sub, p.1.submitStats sub p.2)) (start, SimStats.zero)).2

end Sim

/-! ### What each function adds -/

variable {ob : OrderBook} {mm : MemoryManager} {st : SimStats} {nb na : Nat}

/-- No order is ever expired. -/
theorem popSideStats_eq (ask : Bool) (now : Nat) (r : OrderBook × MemoryManager) (st : SimStats) :
    popSideStats ask now r st = st := by
  cases ask
  · simp only [popSideStats, Bool.false_eq_true, if_false, (Heap.pop_size maxCmp now r.1.bids).1]; rfl
  · simp only [popSideStats, if_true, (Heap.pop_size minCmp now r.1.asks).1]; rfl

/-- A trade costs two walks and two reads, and a write if an order is left. -/
theorem checkStats_of_trade {t : Trade} (h : (checkForTradeMulti nb na ob mm).trade = some t) :
    checkForTradeMultiStats nb na ob mm st =
      { st with
        totalTrades := st.totalTrades + 1
        totalReads := st.totalReads + 2
        totalWrites := st.totalWrites + if ob.bids.peek.amount = ob.asks.peek.amount then 0 else 1
        totalCycles := st.totalCycles + 6 } := by
  unfold checkForTradeMulti at h
  unfold checkForTradeMultiStats
  by_cases h0 : ob.asks.size = 0 ∨ ob.bids.size = 0
  · rw [if_pos h0] at h; cases h
  rw [if_neg h0] at h ⊢
  dsimp only at h ⊢
  by_cases hcross : ob.asks.peek.price ≤ ob.bids.peek.price
  · rw [if_pos hcross]
    simp only [popSideStats_eq]
    split
    · rfl
    · split <;> rfl
  · rw [if_neg hcross] at h; cases h

/-- A check of two sides that do not cross costs two walks and two reads, and one of a book with an empty side
nothing. -/
theorem checkStats_of_none (h : (checkForTradeMulti nb na ob mm).trade = none) :
    checkForTradeMultiStats nb na ob mm st =
      if ob.OneSided then st
      else { st with totalReads := st.totalReads + 2, totalCycles := st.totalCycles + 6 } := by
  unfold checkForTradeMulti at h
  unfold checkForTradeMultiStats
  by_cases h0 : ob.asks.size = 0 ∨ ob.bids.size = 0
  · rw [if_pos h0, if_pos (show ob.OneSided from h0)]
  rw [if_neg h0] at h ⊢
  rw [if_neg (show ¬ ob.OneSided from h0)]
  dsimp only at h ⊢
  by_cases hcross : ob.asks.peek.price ≤ ob.bids.peek.price
  · rw [if_pos hcross] at h
    split at h <;> [cases h; split at h <;> cases h]
  · rw [if_neg hcross]
    rfl

/-- The cleanup walks for the order it uncounts and for the frame it gives back. -/
theorem freeNodeMemoryStats_spec (h : PagesOk ob.mem mm) (st : SimStats) :
    ∃ k, k ≤ (if 0 < ob.mem.nodesInCurrPage then 1 else 0) ∧ freeNodeMemoryStats ob mm st =
      { st with totalCycles := st.totalCycles + 3 * ((if 0 < ob.mem.nodesInCurrPage then 1 else 0) + k) } := by
  unfold freeNodeMemoryStats
  by_cases hpages : ob.mem.virtualPages = []
  · rw [h.empty hpages]
    exact ⟨0, Nat.zero_le _, by simp⟩
  · obtain ⟨init, f, hp⟩ := split_last hpages
    have hpos := (h.last init f hp).2.1
    have hboth : 0 < ob.mem.nodesInCurrPage ∧ 0 < ob.mem.pageCount := ⟨hpos, List.length_pos_iff.2 hpages⟩
    rw [if_pos hboth, if_pos hpos, translate_last hp]
    dsimp only
    split
    · exact ⟨1, Nat.le_refl 1, rfl⟩
    · exact ⟨0, Nat.zero_le 1, rfl⟩

/-- An order goes into a frame or into the overflow page, or it is rejected. -/
theorem memAwareInsertStats_cases (ob : OrderBook) (mm : MemoryManager) (o : Order) (symId : Int) (st : SimStats) :
    let r := memAwareInsert ob mm o symId
    let st' := memAwareInsertStats ob mm symId st
    (r.1 = true ∧ r.2.2.overflowCnt = mm.overflowCnt ∧ r.2.2.hardRejects = mm.hardRejects ∧ st' = st.walk.write) ∨
    (r.1 = true ∧ mm.overflowCnt < overflowPageSize ∧ r.2.2.overflowCnt = mm.overflowCnt + 1 ∧
      r.2.2.hardRejects = mm.hardRejects ∧ st' = st.overflow mm.overflowCnt) ∨
    (r.1 = false ∧ r.2.2.overflowCnt = mm.overflowCnt ∧ r.2.2.hardRejects = mm.hardRejects + 1 ∧
      st' = { st with totalCycles := st.totalCycles + 1 }) := by
  unfold memAwareInsert memAwareInsertStats
  dsimp only
  by_cases hroom : 0 < ob.mem.pageCount ∧ ob.mem.nodesInCurrPage < pageSize
  · obtain ⟨init, f, hp⟩ := split_last (List.length_pos_iff.1 hroom.1)
    rw [if_pos hroom, if_pos hroom, translate_last hp]
    exact .inl ⟨rfl, rfl, rfl, rfl⟩
  rw [if_neg hroom, if_neg hroom]
  unfold insertElsewhere
  have hframe : ∀ f mm₁, allocateFrame mm symId = some (f, mm₁) →
      mm₁.overflowCnt = mm.overflowCnt ∧ mm₁.hardRejects = mm.hardRejects := by
    intro f mm₁ ha
    obtain ⟨g, -, hg⟩ := Option.map_eq_some_iff.1 ha
    cases hg
    exact ⟨rfl, rfl⟩
  cases ha : (if ob.mem.pageCount < maxPagesPerSymbol then allocateFrame mm symId else none) with
  | some r =>
    obtain ⟨f, mm₁⟩ := r
    split at ha
    · obtain ⟨hov, hrej⟩ := hframe f mm₁ ha
      exact .inl ⟨rfl, hov, hrej, rfl⟩
    · cases ha
  | none =>
    dsimp only
    by_cases hov : mm.overflowCnt < overflowPageSize
    · rw [if_pos hov, if_pos hov]
      exact .inr (.inl ⟨rfl, hov, rfl, rfl, rfl⟩)
    · rw [if_neg hov, if_neg hov]
      exact .inr (.inr ⟨rfl, rfl, rfl, rfl⟩)

/-! ### What stays as it is -/

theorem memAwareInsert_trades (ob : OrderBook) (mm : MemoryManager) (o : Order) (symId : Int) :
    (memAwareInsert ob mm o symId).2.1.trades = ob.trades := by
  have hpush : ∀ ob : OrderBook, (pushOrder ob o).trades = ob.trades := by
    intro ob
    unfold pushOrder
    split <;> rfl
  unfold memAwareInsert insertElsewhere
  split
  · split
    · rfl
    · exact hpush _
  · split
    · exact hpush _
    · split
      · exact hpush _
      · rfl

theorem freeNodeMemory_trades (ob : OrderBook) (mm : MemoryManager) :
    (freeNodeMemory ob mm).1.trades = ob.trades ∧ (freeNodeMemory ob mm).2.hardRejects = mm.hardRejects := by
  unfold freeNodeMemory freeFrame
  split
  · split
    · exact ⟨rfl, rfl⟩
    · dsimp only
      split
      · split <;> exact ⟨rfl, rfl⟩
      · exact ⟨rfl, rfl⟩
  · exact ⟨rfl, rfl⟩

theorem check_trades (nb na : Nat) (ob : OrderBook) (mm : MemoryManager) :
    (checkForTradeMulti nb na ob mm).ob.trades = ob.trades := by
  unfold checkForTradeMulti
  dsimp only
  split
  · rfl
  · split
    · split
      · simp only [popSide_eq, Bool.false_eq_true, if_false, if_true]
      · split <;> simp only [popSide_eq, Bool.false_eq_true, if_false, if_true]
    · rfl

/-! ### One book at work -/

/-- What the other books hold and have traded, and what was logged before. -/
structure Others where
  held : Int
  trades : Int
  logged : Int

/-- The orders that were stored, those that were checked to the end, the orders that the cleanup has uncounted in
frames, and the frames it has given back. -/
structure Tally where
  stored : Nat
  checked : Nat
  uncounted : Nat
  freed : Nat

/-- The statistics agree with the books, the memory and the result files. -/
structure Ledger (w : Others) (n : Tally) (d : Desk) (st : SimStats) : Prop where
  trades : (st.totalTrades : Int) = d.ob.trades + w.trades
  logged : (st.totalTrades : Int) = w.logged + d.log.length
  writes : (st.totalWrites : Int) = d.ob.held + w.held + 2 * st.totalTrades
  reads : st.totalReads + 2 * d.openFiles = 2 * (st.totalTrades + n.checked)
  cycles : st.totalCycles = d.mm.hardRejects + 2 * st.overflowAccesses +
    3 * (n.stored + st.totalReads + n.uncounted + n.freed)
  frames : d.mm.frameTotal + n.uncounted + st.overflowAccesses = n.stored
  freed : n.freed ≤ n.uncounted
  uncounted : n.uncounted ≤ st.totalTrades
  usage : d.mm.overflowCnt ≤ st.overflowMax
  max_le : st.overflowMax ≤ overflowPageSize ∧ st.overflowMax ≤ st.overflowAccesses

variable {w : Others} {n : Tally} {d d' : Desk} {now : Nat → Nat} {j fuel : Nat}

theorem Ledger.insert (h : Ledger w n d st) (hpages : PagesOk d.ob.mem d.mm) (o : Order) (symId : Int) :
    let r := memAwareInsert d.ob d.mm o symId
    Ledger w { n with stored := n.stored + if r.1 then 1 else 0 } { d with ob := r.2.1, mm := r.2.2 }
        (memAwareInsertStats d.ob d.mm symId st) ∧
      r.2.2.hardRejects = d.mm.hardRejects + if r.1 then 0 else 1 := by
  have htrades := memAwareInsert_trades d.ob d.mm o symId
  have hcases := memAwareInsertStats_cases d.ob d.mm o symId st
  obtain ⟨stored, ob', mm', he, -, -, htotal, -, hheld⟩ := memAwareInsert_spec hpages o symId
  rw [he] at hcases htrades ⊢
  dsimp only at hcases htrades ⊢
  obtain ⟨h1, h2, h3, h4, h5, h6, h7, h8, h9, h10⟩ := h
  rcases hcases with ⟨rfl, hov, hrej, hst⟩ | ⟨rfl, hlt, hov, hrej, hst⟩ | ⟨rfl, hov, hrej, hst⟩
  · simp only [if_true] at htotal hheld ⊢
    rw [hst]
    simp only [SimStats.walk, SimStats.write, pageWalkCycles]
    refine ⟨⟨?_, h2, ?_, h4, ?_, ?_, h7, h8, ?_, h10⟩, hrej⟩
    · rw [htrades]; exact h1
    · rw [hheld]; push_cast; omega
    · rw [hrej]; dsimp only; omega
    · dsimp only; push_cast; omega
    · dsimp only; omega
  · simp only [if_true] at htotal hheld ⊢
    rw [hst]
    simp only [SimStats.overflow, pageWalkCycles, overflowPenaltyCycles]
    refine ⟨⟨?_, h2, ?_, h4, ?_, ?_, h7, h8, ?_, ?_⟩, hrej⟩
    · rw [htrades]; exact h1
    · rw [hheld]; push_cast; omega
    · rw [hrej]; dsimp only; omega
    · dsimp only; push_cast; omega
    · dsimp only
      split <;> omega
    · dsimp only
      split <;> omega
  · simp only [Bool.false_eq_true, if_false, add_zero] at htotal hheld ⊢
    rw [hst]
    refine ⟨⟨?_, h2, ?_, h4, ?_, ?_, h7, h8, ?_, h10⟩, hrej⟩
    · rw [htrades]; exact h1
    · rw [hheld]; exact h3
    · dsimp only; omega
    · dsimp only; omega
    · dsimp only; omega

theorem Ledger.round (h : Ledger w n d st) (hpages : PagesOk d.ob.mem d.mm) (hr : d.round now j = some d') :
    ∃ u k, Ledger w { n with uncounted := u, freed := k } d' (d.roundStats now j st) ∧
      d'.mm.hardRejects = d.mm.hardRejects := by
  have hfiles := (Desk.round_files hr).1
  simp only [Desk.round, Option.map_eq_some_iff] at hr
  obtain ⟨t, ht, rfl⟩ := hr
  obtain ⟨hmm, hmem, -, -, hheld⟩ := check_spec ht
  have htr := check_trades (now (2 * j)) (now (2 * j + 1)) d.ob d.mm
  unfold Desk.roundStats
  rw [checkStats_of_trade ht]
  dsimp only at hfiles ⊢
  generalize checkForTradeMulti (now (2 * j)) (now (2 * j + 1)) d.ob d.mm = c at *
  have hpages' : PagesOk { c.ob with trades := c.ob.trades + 1 }.mem { c.mm with overflowCnt := c.mm.overflowCnt - 1 } := by
    show PagesOk c.ob.mem _
    rw [hmem, hmm]
    exact hpages.congr fun _ _ => ⟨rfl, rfl⟩
  have htotal := (freeNodeMemory_spec hpages').2.2.1
  have hheaps := freeNodeMemory_heaps { c.ob with trades := c.ob.trades + 1 }
    { c.mm with overflowCnt := c.mm.overflowCnt - 1 }
  have hkeep := freeNodeMemory_trades { c.ob with trades := c.ob.trades + 1 }
    { c.mm with overflowCnt := c.mm.overflowCnt - 1 }
  obtain ⟨k, hk, hst⟩ := freeNodeMemoryStats_spec hpages' { st with
    totalTrades := st.totalTrades + 1
    totalReads := st.totalReads + 2
    totalWrites := st.totalWrites + if d.ob.bids.peek.amount = d.ob.asks.peek.amount then 0 else 1
    totalCycles := st.totalCycles + 6 }
  unfold postTradeCleanupStats
  rw [hst]
  obtain ⟨ha, hb, hov⟩ := hheaps
  obtain ⟨htrades, hrej⟩ := hkeep
  have hheld' : (postTradeCleanup { c.ob with trades := c.ob.trades + 1 } c.mm).1.held = c.ob.held := by
    show ((freeNodeMemory _ _).1.asks.size : Int) + (freeNodeMemory _ _).1.bids.size = _
    rw [ha, hb]
    rfl
  -- the cleanup uncounts an order, or there is none in a frame
  generalize hv : (if 0 < ({ c.ob with trades := c.ob.trades + 1 } : OrderBook).mem.nodesInCurrPage then 1 else 0) = v at *
  obtain ⟨h1, h2, h3, h4, h5, h6, h7, h8, h9, h10⟩ := h
  refine ⟨n.uncounted + v, n.freed + k, ⟨?_, ?_, ?_, ?_, ?_, ?_, ?_, ?_, ?_, ?_⟩, ?_⟩
  · show _ = ((freeNodeMemory _ _).1.trades : Int) + _
    rw [htrades]
    dsimp only
    rw [htr]
    push_cast
    omega
  · show _ = w.logged + ((d.log ++ [t]).length : Int)
    rw [List.length_append]
    push_cast
    simp only [List.length_singleton]
    omega
  · rw [hheld', hheld]
    dsimp only
    split <;> push_cast <;> omega
  · rw [hfiles]
    dsimp only
    omega
  · show _ = (freeNodeMemory _ _).2.hardRejects + _ + _
    rw [hrej]
    dsimp only
    rw [hmm]
    omega
  · show (freeNodeMemory _ _).2.frameTotal + _ + _ = _
    rw [htotal]
    have hcast : (if 0 < ({ c.ob with trades := c.ob.trades + 1 } : OrderBook).mem.nodesInCurrPage then 1 else 0) =
        (v : Int) := by
      rw [← hv]
      split <;> rfl
    rw [hcast]
    show c.mm.frameTotal - _ + _ + _ = _
    rw [hmm]
    push_cast
    omega
  · dsimp only
    omega
  · have hle : v ≤ 1 := by rw [← hv]; split <;> omega
    dsimp only
    omega
  · show (freeNodeMemory _ _).2.overflowCnt ≤ _
    rw [hov, hmm]
    dsimp only
    omega
  · exact h10
  · show (freeNodeMemory _ _).2.hardRejects = _
    rw [hrej]
    dsimp only
    rw [hmm]

theorem Ledger.last (h : Ledger w n d st) (hr : d.round now j = none) :
    Ledger w { n with checked := n.checked + 1 } (d.last now j)
      (checkForTradeMultiStats (now (2 * j)) (now (2 * j + 1)) d.ob d.mm st) := by
  obtain ⟨hob, hmm⟩ := round_eq_none hr
  have hfiles := Desk.last_files hr
  rw [checkStats_of_none (Option.map_eq_none_iff.1 hr)]
  rw [hob] at hfiles
  obtain ⟨h1, h2, h3, h4, h5, h6, h7, h8, h9, h10⟩ := h
  split
  · rename_i hside
    rw [if_pos hside] at hfiles
    refine ⟨by rw [hob]; exact h1, h2, by rw [hob]; exact h3, ?_, by rw [hmm]; exact h5, by rw [hmm]; exact h6, h7, h8,
      by rw [hmm]; exact h9, h10⟩
    rw [hfiles]
    dsimp only
    omega
  · rename_i hside
    rw [if_neg hside] at hfiles
    refine ⟨by rw [hob]; exact h1, h2, by rw [hob]; exact h3, ?_, ?_, by rw [hmm]; exact h6, h7, h8,
      by rw [hmm]; exact h9, h10⟩
    · rw [hfiles]
      dsimp only
      omega
    · rw [hmm]
      dsimp only
      omega

theorem Moves.trans {i : Int} {m m' m'' : SymbolMemory} {mm mm' mm'' : MemoryManager} (h : Moves i m m' mm mm')
    (h' : Moves i m' m'' mm' mm'') : Moves i m m'' mm mm'' := by
  refine ⟨h'.owns, h'.memory, h.apart.trans h'.apart, fun f hf => ?_⟩
  rcases h'.used f hf with hown | ⟨hfree, hnot⟩
  · exact .inl hown
  · rcases h.used f hfree with hown | hother
    · exact absurd hown hnot
    · exact .inr hother

theorem Owns.round {i : Int} (h : Owns i d.ob.mem d.mm) (hm : MemoryOk d.mm) (hr : d.round now j = some d') :
    Moves i d.ob.mem d'.ob.mem d.mm d'.mm := by
  simp only [Desk.round, Option.map_eq_some_iff] at hr
  obtain ⟨t, -, rfl⟩ := hr
  obtain ⟨hmem, hmm⟩ := check_mem (now (2 * j)) (now (2 * j + 1)) d.ob d.mm
  dsimp only
  generalize checkForTradeMulti (now (2 * j)) (now (2 * j + 1)) d.ob d.mm = c at *
  have h' : Owns i ({ c.ob with trades := c.ob.trades + 1 } : OrderBook).mem c.mm := by
    show Owns i c.ob.mem c.mm
    rw [hmem, hmm]
    exact h
  rw [← hmem, ← hmm]
  exact h'.cleanup (hmm ▸ hm)

/-- The loop: rounds, and the last check. -/
theorem Ledger.loop {i : Int} (h : Ledger w n d st) (ho : Owns i d.ob.mem d.mm) (hm : MemoryOk d.mm)
    (hf : d.ob.held < fuel) (now : Nat → Nat) (j : Nat) :
    ∃ u k, Ledger w ⟨n.stored, n.checked + 1, u, k⟩ (d.loop now fuel j) (d.loopStats now fuel j st) ∧
      (d.loop now fuel j).mm.hardRejects = d.mm.hardRejects ∧
      Moves i d.ob.mem (d.loop now fuel j).ob.mem d.mm (d.loop now fuel j).mm := by
  induction fuel generalizing j d st n with
  | zero =>
    unfold OrderBook.held at hf
    omega
  | succ fuel ih =>
    simp only [Desk.loop, Desk.loopStats]
    cases hr : d.round now j with
    | none =>
      obtain ⟨hob, hmm⟩ := round_eq_none hr
      refine ⟨_, _, h.last hr, ?_, ?_⟩
      · rw [hmm]
      · rw [hob, hmm]
        exact .refl ho hm
    | some d' =>
      obtain ⟨u, k, h', hrej⟩ := h.round ho.pages hr
      have hmoves := ho.round hm hr
      have hheld := (Desk.round_files hr).2
      obtain ⟨u', k', hl, hrej', hmoves'⟩ := ih h' hmoves.owns hmoves.memory (by omega) (j + 1)
      exact ⟨u', k', hl, hrej'.trans hrej, hmoves.trans hmoves'⟩

/-- An order. -/
theorem Ledger.submit {i : Nat} (h : Ledger w n d st) (ho : Owns i d.ob.mem d.mm) (hm : MemoryOk d.mm) (o : Order)
    (now : Nat → Nat) :
    ∃ s u k, Ledger w ⟨n.stored + s, n.checked + s, u, k⟩ (d.submit o i now) (d.submitStats o i now st) ∧
      (d.submit o i now).mm.hardRejects + s = d.mm.hardRejects + 1 ∧
      Moves i d.ob.mem (d.submit o i now).ob.mem d.mm (d.submit o i now).mm := by
  obtain ⟨hins, hrej⟩ := h.insert ho.pages o i
  have hmoves := ho.insert hm (Int.natCast_nonneg i) o
  unfold Desk.submit Desk.submitStats
  dsimp only
  by_cases hs : (memAwareInsert d.ob d.mm o i).1 = true
  · rw [if_pos hs, if_pos hs]
    rw [if_pos hs] at hins hrej
    have hfuel : (memAwareInsert d.ob d.mm o i).2.1.held <
        ((memAwareInsert d.ob d.mm o i).2.1.asks.size + (memAwareInsert d.ob d.mm o i).2.1.bids.size + 1 : Nat) := by
      unfold OrderBook.held
      push_cast
      omega
    obtain ⟨u, k, hl, hrej', hmoves'⟩ := hins.loop hmoves.owns hmoves.memory hfuel now 0
    exact ⟨1, u, k, hl, by rw [hrej', hrej], hmoves.trans hmoves'⟩
  · rw [if_neg hs, if_neg hs]
    rw [if_neg hs] at hins hrej
    exact ⟨0, _, _, hins, hrej, hmoves⟩

/-! ### All books -/

namespace Sim

variable {σ : Type*} [DecidableEq σ] {s : Sim σ} {sub : Submission σ}

/-- The books over their memory. -/
def exchange (s : Sim σ) : Exchange := ⟨s.books.map Prod.snd, s.mm⟩

/-- After `n` orders the statistics agree with the books, the memory, the log and the result files: `m` orders have
been stored, the cleanup has uncounted `u` of them in frames and given back `k` frames. -/
structure StatsOk (n : Nat) (s : Sim σ) (st : SimStats) : Prop where
  trades : st.totalTrades = s.log.length
  symbols : st.totalTrades = (s.books.map fun b => b.2.trades).sum
  writes : (st.totalWrites : Int) = (s.books.map fun b => b.2.held).sum + 2 * st.totalTrades
  overflow : s.mm.overflowCnt ≤ st.overflowMax ∧ st.overflowMax ≤ overflowPageSize ∧ st.overflowMax ≤ st.overflowAccesses
  cycles : ∃ m u k : Nat, m + s.mm.hardRejects = n ∧ st.totalReads + 2 * s.openFiles = 2 * (st.totalTrades + m) ∧
    s.mm.frameTotal + u + st.overflowAccesses = m ∧ k ≤ u ∧ u ≤ st.totalTrades ∧
    st.totalCycles = pageWalkCycles * (m + st.totalReads + u + k) + overflowPenaltyCycles * st.overflowAccesses +
      s.mm.hardRejects

theorem exchange_findOrCreate (h : s.exchange.Inv) (symbol : σ) :
    ({ s with books := findOrCreateBook s.books symbol } : Sim σ).exchange.Inv := by
  unfold findOrCreateBook
  split
  · exact h
  · have := h.openBook
    simpa [Exchange.openBook, exchange] using this

theorem StatsOk.findOrCreate {n : Nat} {st : SimStats} (h : StatsOk n s st) (symbol : σ) :
    StatsOk n { s with books := findOrCreateBook s.books symbol } st := by
  unfold findOrCreateBook
  split
  · exact h
  · refine ⟨h.trades, ?_, ?_, h.overflow, h.cycles⟩
    · rw [h.symbols]
      simp [createOrderBook]
    · rw [h.writes]
      simp [createOrderBook, OrderBook.held, createHeap]

theorem submit_stats {n : Nat} {st : SimStats} (h : StatsOk n s st) (hx : s.exchange.Inv) (sub : Submission σ) :
    StatsOk (n + 1) (s.submit sub) (s.submitStats sub st) ∧ (s.submit sub).exchange.Inv := by
  have hf := h.findOrCreate sub.symbol
  have hfx := exchange_findOrCreate hx sub.symbol
  have hb := find_symId s sub.symbol
  unfold Sim.submit Sim.submitStats
  generalize findOrCreateBook s.books sub.symbol = books at hf hfx hb ⊢
  dsimp only
  generalize symId books sub.symbol = i at hb ⊢
  generalize s.book sub.symbol = ob at hb
  rw [hb]
  obtain ⟨pre, post, hsplit, hset⟩ := split_at hb
  have hex : ({ s with books := books } : Sim σ).exchange.books[i]? = some ob := by
    rw [exchange, List.getElem?_map, hb]
    rfl
  obtain ⟨h1, h2, h3, h4, m, u, k, h5, h6, h7, h8, h9, h10⟩ := hf
  dsimp only at h1 h2 h3 h4 h5 h6 h7 h10
  rw [hsplit, List.map_append, List.map_cons, List.sum_append, List.sum_cons] at h2 h3
  dsimp only at h2 h3
  have hdesk : Ledger ⟨(pre.map fun b => b.2.held).sum + (post.map fun b => b.2.held).sum,
      (pre.map fun b => b.2.trades).sum + (post.map fun b => b.2.trades).sum, s.log.length⟩ ⟨m, m, u, k⟩
      ⟨ob, s.mm, [], s.openFiles⟩ st := by
    refine ⟨?_, ?_, ?_, h6, ?_, h7, h8, h9, h4.1, h4.2⟩
    · dsimp only; omega
    · dsimp only; simp only [List.length_nil]; omega
    · dsimp only; omega
    · dsimp only
      rw [h10, pageWalkCycles, overflowPenaltyCycles]
      omega
  obtain ⟨b, u', k', hd, hrej, hmoves⟩ := hdesk.submit (hfx.owns i ob hex) hfx.memory sub.order sub.now
  dsimp only
  generalize Desk.submit ⟨ob, s.mm, [], s.openFiles⟩ sub.order i sub.now = d at hd hrej hmoves ⊢
  generalize Desk.submitStats ⟨ob, s.mm, [], s.openFiles⟩ sub.order i sub.now st = st' at hd ⊢
  dsimp only at hrej hmoves ⊢
  have hx' : Exchange.Inv ⟨(books.set i (sub.symbol, d.ob)).map Prod.snd, d.mm⟩ := by
    rw [List.map_set]
    exact hfx.set hex hmoves
  rw [hset] at hx' ⊢
  refine ⟨⟨?_, ?_, ?_, ⟨hd.usage, hd.max_le⟩, m + b, u', k', by dsimp only; omega, hd.reads, hd.frames, hd.freed,
    hd.uncounted, ?_⟩, hx'⟩
  · have := hd.logged
    rw [List.length_append, List.length_map]
    dsimp only at this
    omega
  · have := hd.trades
    rw [List.map_append, List.map_cons, List.sum_append, List.sum_cons]
    dsimp only at this ⊢
    omega
  · have := hd.writes
    rw [List.map_append, List.map_cons, List.sum_append, List.sum_cons]
    dsimp only at this ⊢
    omega
  · have := hd.cycles
    rw [pageWalkCycles, overflowPenaltyCycles]
    dsimp only at this ⊢
    omega

omit [DecidableEq σ] in
theorem stats_start : StatsOk 0 (start : Sim σ) .zero ∧ (start : Sim σ).exchange.Inv := by
  refine ⟨⟨rfl, rfl, rfl, ⟨Nat.le_refl 0, Nat.zero_le _, Nat.le_refl 0⟩, 0, 0, 0, rfl, rfl, ?_, Nat.le_refl 0,
    Nat.le_refl 0, rfl⟩, Exchange.Reached.start.inv⟩
  show createMemoryManager.frameTotal + 0 + 0 = 0
  simp [MemoryManager.frameTotal, MemoryManager.count, createMemoryManager]

theorem runStats_snoc (subs : List (Submission σ)) (sub : Submission σ) :
    runStats (subs ++ [sub]) = (run subs).submitStats sub (runStats subs) := by
  have hfst : ∀ l : List (Submission σ), (l.foldl (fun p sub => (p.1.submit sub, p.1.submitStats sub p.2))
      (start, SimStats.zero)).1 = run l := by
    intro l
    induction l using List.reverseRecOn with
    | nil => rfl
    | append_singleton l x ih => rw [List.foldl_append, run_snoc, ← ih]; rfl
  rw [runStats, List.foldl_append, ← hfst]
  rfl

/-- Whatever the orders are and whatever is traded, stored in the overflow page or turned down: the statistics agree
with the books, the memory, the log and the result files, and these with one another. -/
theorem stats_agree (subs : List (Submission σ)) : StatsOk subs.length (run subs) (runStats subs) := by
  have hrun : StatsOk subs.length (run subs) (runStats subs) ∧ (run subs).exchange.Inv := by
    induction subs using List.reverseRecOn with
    | nil => exact stats_start
    | append_singleton subs sub ih =>
      rw [run_snoc, runStats_snoc, List.length_append, List.length_singleton]
      exact submit_stats ih.1 ih.2 sub
  exact hrun.1

/-- An ask, and a bid for twice its amount: a walk to store each, two for the trade and one in the cleanup. -/
example : runStats [(⟨0, ⟨5, 1, 1, true⟩, fun _ => 0⟩ : Submission Nat), ⟨0, ⟨5, 2, 2, false⟩, fun _ => 0⟩] =
    ⟨1, 2, 3, 0, 0, 15⟩ := by decide +kernel

end Sim

end HftSim.Golden
