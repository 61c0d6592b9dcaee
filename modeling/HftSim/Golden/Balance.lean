import HftSim.Golden.Mmu
import Mathlib.Algebra.BigOperators.Group.Finset.Basic
import Mathlib.Algebra.Order.BigOperators.Group.List
import Mathlib.Tactic.Ring

/-!
# The golden model's memory books

Every stored order should be counted once, in a frame of its book or in the overflow page
(`Sim.Balanced`). Storing an order keeps this. A trade takes one or two orders out of the heaps, but
`post_trade_cleanup` always uncounts one in the overflow page, if it counts any, and one in the
current page, if there is one. `TradeOk` says when the two agree.
-/

namespace HftSim.Golden

open Function Finset

/-! ### Counting -/

/-- What frame `f` counts, nothing if it is free. -/
def MemoryManager.count (mm : MemoryManager) (f : Nat) : Int := if mm.free f then 0 else (mm.frames f).nodeCount

def MemoryManager.frameTotal (mm : MemoryManager) : Int := ∑ f ∈ range maxPages, mm.count f

/-- The orders counted in the book's own frames. -/
def ownNodes (m : SymbolMemory) (mm : MemoryManager) : Int :=
  (m.virtualPages.map fun f => (mm.frames f).nodeCount).sum

def OrderBook.held (ob : OrderBook) : Int := ob.asks.size + ob.bids.size

variable {mm mm' : MemoryManager} {m m' : SymbolMemory} {ob : OrderBook} {o : Order} {f : Nat}

theorem frameTotal_change (hf : f < maxPages) (h : ∀ g, g ≠ f → mm'.count g = mm.count g) :
    mm'.frameTotal = mm.frameTotal + (mm'.count f - mm.count f) := by
  have hmem : f ∈ range maxPages := mem_range.2 hf
  rw [MemoryManager.frameTotal, MemoryManager.frameTotal, ← add_sum_erase _ _ hmem, ← add_sum_erase _ _ hmem,
    sum_congr rfl fun g hg => h g (ne_of_mem_erase hg)]
  ring

theorem ownNodes_congr (h : ∀ g ∈ m.virtualPages, mm'.frames g = mm.frames g) : ownNodes m mm' = ownNodes m mm := by
  unfold ownNodes
  congr 1
  exact List.map_congr_left fun g hg => by rw [h g hg]

/-- The book's frames are its own: the earlier ones full, the last one with `nodes_in_curr_page`. -/
structure PagesOk (m : SymbolMemory) (mm : MemoryManager) : Prop where
  nodup : m.virtualPages.Nodup
  alloc : ∀ f ∈ m.virtualPages, f < maxPages ∧ mm.free f = false
  le : m.nodesInCurrPage ≤ pageSize
  empty : m.virtualPages = [] → m.nodesInCurrPage = 0
  last : ∀ init f, m.virtualPages = init ++ [f] → (mm.frames f).nodeCount = m.nodesInCurrPage ∧
    0 < m.nodesInCurrPage ∧ ∀ g ∈ init, (mm.frames g).nodeCount = pageSize

theorem PagesOk.congr (h : PagesOk m mm) (hf : ∀ f ∈ m.virtualPages, mm'.frames f = mm.frames f ∧
    mm'.free f = mm.free f) : PagesOk m mm' where
  nodup := h.nodup
  alloc f hm := ⟨(h.alloc f hm).1, by rw [(hf f hm).2]; exact (h.alloc f hm).2⟩
  le := h.le
  empty := h.empty
  last init f hp := by
    obtain ⟨h1, h2, h3⟩ := h.last init f hp
    refine ⟨by rw [(hf f (by simp [hp])).1]; exact h1, h2, fun g hg => ?_⟩
    rw [(hf g (by simp [hp, hg])).1]; exact h3 g hg

/-- What an operation on one book leaves alone: allocated frames that are not the book's. -/
def Apart (m m' : SymbolMemory) (mm mm' : MemoryManager) : Prop :=
  ∀ f, mm.free f = false → f ∉ m.virtualPages →
    mm'.frames f = mm.frames f ∧ mm'.free f = false ∧ f ∉ m'.virtualPages

theorem Apart.trans {m'' : SymbolMemory} {mm'' : MemoryManager} (h : Apart m m' mm mm')
    (h' : Apart m' m'' mm' mm'') : Apart m m'' mm mm'' := by
  intro f hfree hf
  obtain ⟨h1, h2, h3⟩ := h f hfree hf
  obtain ⟨h4, h5, h6⟩ := h' f h2 h3
  exact ⟨h4.trans h1, h5, h6⟩

theorem split_last {l : List Nat} (h : l ≠ []) : ∃ init f, l = init ++ [f] :=
  ⟨l.dropLast, l.getLast h, (List.dropLast_append_getLast h).symm⟩

theorem translate_last {init : List Nat} (h : ob.mem.virtualPages = init ++ [f]) :
    translate ob (ob.mem.pageCount - 1) = some f := by
  simp [translate, SymbolMemory.pageCount, h]

theorem ownNodes_append {init : List Nat} (h : m.virtualPages = init ++ [f]) :
    ownNodes m mm = (init.map fun g => (mm.frames g).nodeCount).sum + (mm.frames f).nodeCount := by
  simp [ownNodes, h]

/-- `mm'` is `mm` but for frame `f`. -/
def Only (f : Nat) (mm mm' : MemoryManager) : Prop :=
  ∀ g, g ≠ f → mm'.frames g = mm.frames g ∧ mm'.free g = mm.free g

theorem Only.frameTotal (h : Only f mm mm') (hf : f < maxPages) :
    mm'.frameTotal = mm.frameTotal + (mm'.count f - mm.count f) :=
  frameTotal_change hf fun g hg => by simp only [MemoryManager.count, h g hg]

theorem Only.apart (h : Only f mm mm') (hf : f ∈ m.virtualPages)
    (hsub : ∀ g ∈ m'.virtualPages, g ∈ m.virtualPages) : Apart m m' mm mm' := by
  intro g hfree hg
  have hne : g ≠ f := fun he => hg (he ▸ hf)
  exact ⟨(h g hne).1, by rw [(h g hne).2]; exact hfree, fun hc => hg (hsub g hc)⟩

/-- The last page counts `n` orders instead. -/
theorem PagesOk.recount {init : List Nat} {n : Nat} (h : PagesOk m mm) (hp : m.virtualPages = init ++ [f])
    (ho : Only f mm mm') (hfree : mm'.free f = mm.free f) (hn : (mm'.frames f).nodeCount = n) (hpos : 0 < n)
    (hle : n ≤ pageSize) : PagesOk ⟨m.virtualPages, n⟩ mm' ∧ Apart m ⟨m.virtualPages, n⟩ mm mm' ∧
      mm'.frameTotal = mm.frameTotal + (n - m.nodesInCurrPage) ∧
      ownNodes ⟨m.virtualPages, n⟩ mm' = ownNodes m mm + (n - m.nodesInCurrPage) := by
  obtain ⟨hcnt, -, hfull⟩ := h.last init f hp
  have hmem : f ∈ m.virtualPages := by simp [hp]
  obtain ⟨hlt, hff⟩ := h.alloc f hmem
  have hnot : ∀ g ∈ init, g ≠ f := fun g hg he => by
    have := h.nodup
    rw [hp, List.nodup_append] at this
    exact this.2.2 g hg f (by simp) he
  refine ⟨⟨h.nodup, fun g hg => ?_, hle, fun he => ?_, fun init' g hg => ?_⟩,
    ho.apart hmem fun _ hg => hg, ?_, ?_⟩
  · refine ⟨(h.alloc g hg).1, ?_⟩
    by_cases hgf : g = f
    · rw [hgf, hfree]; exact hff
    · rw [(ho g hgf).2]; exact (h.alloc g hg).2
  · rw [he] at hmem; cases hmem
  · obtain ⟨rfl, hgf⟩ := List.append_inj' (hp.symm.trans hg) rfl
    obtain rfl := List.singleton_inj.1 hgf
    exact ⟨hn, hpos, fun g' hg' => by rw [(ho g' (hnot g' hg')).1]; exact hfull g' hg'⟩
  · rw [ho.frameTotal hlt]
    simp only [MemoryManager.count, hfree, hff, hn, hcnt, Bool.false_eq_true, if_false]
  · rw [ownNodes_append hp, ownNodes_append (m := ⟨m.virtualPages, n⟩) hp, hn, hcnt,
      List.map_congr_left fun g hg => by rw [(ho g (hnot g hg)).1]]
    ring

/-- The last page has counted one order and is given back. -/
theorem PagesOk.release {init : List Nat} (h : PagesOk m mm) (hp : m.virtualPages = init ++ [f])
    (ho : Only f mm mm') (hfree : mm'.free f = true) (hone : m.nodesInCurrPage = 1) :
    PagesOk ⟨init, if init = [] then 0 else pageSize⟩ mm' ∧
      Apart m ⟨init, if init = [] then 0 else pageSize⟩ mm mm' ∧ mm'.frameTotal = mm.frameTotal - 1 ∧
      ownNodes ⟨init, if init = [] then 0 else pageSize⟩ mm' = ownNodes m mm - 1 := by
  obtain ⟨hcnt, -, hfull⟩ := h.last init f hp
  have hmem : f ∈ m.virtualPages := by simp [hp]
  obtain ⟨hlt, hff⟩ := h.alloc f hmem
  have hsub : ∀ g ∈ init, g ∈ m.virtualPages := fun g hg => by simp [hp, hg]
  have hnd := h.nodup
  rw [hp, List.nodup_append] at hnd
  have hnot : ∀ g ∈ init, g ≠ f := fun g hg => hnd.2.2 g hg f (by simp)
  refine ⟨⟨hnd.1, fun g hg => ?_, ?_, fun he => if_pos he, fun init' g hg => ?_⟩, ho.apart hmem hsub, ?_, ?_⟩
  · rw [(ho g (hnot g hg)).2]; exact h.alloc g (hsub g hg)
  · show (if init = [] then 0 else pageSize) ≤ pageSize
    split <;> simp
  · have hg' : init = init' ++ [g] := hg
    have hfull' : ∀ g' ∈ init, (mm'.frames g').nodeCount = pageSize := fun g' hg' => by
      rw [(ho g' (hnot g' hg')).1]; exact hfull g' hg'
    have hne : init ≠ [] := by rw [hg']; simp
    refine ⟨?_, ?_, fun g' hm => hfull' g' (by simp [hg', hm])⟩
    · rw [if_neg hne]; exact hfull' g (by simp [hg'])
    · rw [if_neg hne]; exact (by decide : 0 < pageSize)
  · rw [ho.frameTotal hlt]
    simp only [MemoryManager.count, hfree, hff, hcnt, hone, if_true, Bool.false_eq_true, if_false]
    rfl
  · rw [ownNodes_append hp, hcnt, hone]
    simp only [ownNodes]
    rw [List.map_congr_left fun g hg => by rw [(ho g (hnot g hg)).1]]
    simp

theorem PagesOk.acquire (h : PagesOk m mm) (ho : Only f mm mm') (hlt : f < maxPages) (hf : mm.free f = true)
    (hfree : mm'.free f = false) (hone : (mm'.frames f).nodeCount = 1)
    (hfull : m.nodesInCurrPage = pageSize ∨ m.virtualPages = []) :
    PagesOk ⟨m.virtualPages ++ [f], 1⟩ mm' ∧ Apart m ⟨m.virtualPages ++ [f], 1⟩ mm mm' ∧
      mm'.frameTotal = mm.frameTotal + 1 ∧
      ownNodes ⟨m.virtualPages ++ [f], 1⟩ mm' = ownNodes m mm + 1 := by
  have hnot : ∀ g ∈ m.virtualPages, g ≠ f := fun g hg he => by
    have := (h.alloc g hg).2
    rw [he, hf] at this
    cases this
  refine ⟨⟨?_, fun g hg => ?_, (by decide : 1 ≤ pageSize), fun he => ?_, fun init g hg => ?_⟩,
    fun g hgf hg => ?_, ?_, ?_⟩
  · rw [List.nodup_append]
    refine ⟨h.nodup, List.nodup_singleton f, fun g hg g' hg' => ?_⟩
    rw [List.mem_singleton.1 hg']; exact hnot g hg
  · rcases List.mem_append.1 hg with hg | hg
    · rw [(ho g (hnot g hg)).2]; exact h.alloc g hg
    · rw [List.mem_singleton.1 hg]; exact ⟨hlt, hfree⟩
  · simp at he
  · obtain ⟨rfl, hgf⟩ := List.append_inj' hg rfl
    obtain rfl := List.singleton_inj.1 hgf
    refine ⟨hone, Nat.one_pos, fun g' hg' => ?_⟩
    rw [(ho g' (hnot g' hg')).1]
    -- the pages there were are full
    rcases hfull with hfull | he
    · obtain ⟨init', l, hl⟩ := split_last (List.ne_nil_of_mem hg')
      obtain ⟨hcnt, -, hinit⟩ := h.last init' l hl
      rw [hl] at hg'
      rcases List.mem_append.1 hg' with hg' | hg'
      · exact hinit g' hg'
      · rw [List.mem_singleton.1 hg', hcnt, hfull]
    · rw [he] at hg'; cases hg'
  · have hne : g ≠ f := fun he => by rw [he, hf] at hgf; cases hgf
    refine ⟨(ho g hne).1, by rw [(ho g hne).2]; exact hgf, fun hc => ?_⟩
    rcases List.mem_append.1 hc with hc | hc
    · exact hg hc
    · exact hne (List.mem_singleton.1 hc)
  · rw [ho.frameTotal hlt]
    simp only [MemoryManager.count, hfree, hf, hone, if_true, Bool.false_eq_true, if_false]
    rfl
  · rw [ownNodes_append (m := ⟨m.virtualPages ++ [f], 1⟩) rfl, hone,
      List.map_congr_left fun g hg => by rw [(ho g (hnot g hg)).1]]
    rfl

/-! ### Cleaning up -/

theorem only_setCount (n : Int) : Only f mm (mm.setCount f n) := fun _ hg =>
  ⟨update_of_ne hg _ _, rfl⟩

theorem setCount_nodeCount (n : Int) : ((mm.setCount f n).frames f).nodeCount = n := by
  simp [MemoryManager.setCount]

theorem freeNodeMemory_heaps (ob : OrderBook) (mm : MemoryManager) :
    (freeNodeMemory ob mm).1.asks = ob.asks ∧ (freeNodeMemory ob mm).1.bids = ob.bids ∧
      (freeNodeMemory ob mm).2.overflowCnt = mm.overflowCnt := by
  unfold freeNodeMemory freeFrame
  split
  · split
    · exact ⟨rfl, rfl, rfl⟩
    · dsimp only
      split
      · split <;> exact ⟨rfl, rfl, rfl⟩
      · exact ⟨rfl, rfl, rfl⟩
  · exact ⟨rfl, rfl, rfl⟩

/-- What `free_node_memory` does: nothing without a page; else the last page loses one count, and goes
with its last one. -/
theorem freeNodeMemory_cases (h : PagesOk ob.mem mm) :
    (ob.mem.nodesInCurrPage = 0 ∧ freeNodeMemory ob mm = (ob, mm)) ∨
    ∃ init f, ob.mem.virtualPages = init ++ [f] ∧
      ((ob.mem.nodesInCurrPage = 1 ∧
          (freeNodeMemory ob mm).1.mem = ⟨init, if init = [] then 0 else pageSize⟩ ∧
          Only f mm (freeNodeMemory ob mm).2 ∧ (freeNodeMemory ob mm).2.free f = true ∧
          (freeNodeMemory ob mm).2.frames f = ⟨-1, 0⟩) ∨
        (1 < ob.mem.nodesInCurrPage ∧
          (freeNodeMemory ob mm).1.mem = ⟨ob.mem.virtualPages, ob.mem.nodesInCurrPage - 1⟩ ∧
          (freeNodeMemory ob mm).2 = mm.setCount f ((mm.frames f).nodeCount - 1))) := by
  by_cases hpages : ob.mem.virtualPages = []
  · have h0 := h.empty hpages
    exact .inl ⟨h0, by simp [freeNodeMemory, h0]⟩
  · obtain ⟨init, f, hp⟩ := split_last hpages
    obtain ⟨hcnt, hpos, -⟩ := h.last init f hp
    refine .inr ⟨init, f, hp, ?_⟩
    simp only [freeNodeMemory, if_pos hpos, translate_last hp, setCount_nodeCount]
    by_cases h0 : (mm.frames f).nodeCount - 1 = 0
    · have hdrop : ob.mem.virtualPages.dropLast = init := by rw [hp]; simp
      have hcount : (if 1 < ob.mem.pageCount then pageSize else 0) = if init = [] then 0 else pageSize := by
        rw [SymbolMemory.pageCount, hp]
        cases init <;> simp
      rw [if_pos h0, hdrop, hcount]
      refine .inl ⟨by omega, rfl, fun g hg => ?_, ?_, ?_⟩
      · rw [freeFrame, translate_last hp]
        exact ⟨by simp [hg, (only_setCount _ g hg).1], by simp [hg, (only_setCount _ g hg).2]⟩
      · rw [freeFrame, translate_last hp]; simp
      · rw [freeFrame, translate_last hp]; simp
    · rw [if_neg h0]
      exact .inr ⟨by omega, rfl, rfl⟩

/-- A book with a page gives up one count in it; a book without gives up nothing. -/
theorem freeNodeMemory_spec (h : PagesOk ob.mem mm) :
    PagesOk (freeNodeMemory ob mm).1.mem (freeNodeMemory ob mm).2 ∧
      Apart ob.mem (freeNodeMemory ob mm).1.mem mm (freeNodeMemory ob mm).2 ∧
      (freeNodeMemory ob mm).2.frameTotal = mm.frameTotal - (if 0 < ob.mem.nodesInCurrPage then 1 else 0) ∧
      ownNodes (freeNodeMemory ob mm).1.mem (freeNodeMemory ob mm).2 =
        ownNodes ob.mem mm - (if 0 < ob.mem.nodesInCurrPage then 1 else 0) := by
  rcases freeNodeMemory_cases h with ⟨h0, heq⟩ | ⟨init, f, hp, ⟨hone, hmem, ho, hfree, -⟩ | ⟨hlt, hmem, heq⟩⟩
  · rw [heq, h0]
    exact ⟨h, fun f h1 h2 => ⟨rfl, h1, h2⟩, by simp, by simp⟩
  · rw [hmem, hone]
    exact h.release hp ho hfree hone
  · have hcast : ((ob.mem.nodesInCurrPage - 1 : Nat) : Int) - ob.mem.nodesInCurrPage = -1 := by omega
    obtain ⟨hcnt, -, -⟩ := h.last init f hp
    have hstep := h.recount (n := ob.mem.nodesInCurrPage - 1) hp
      (only_setCount ((mm.frames f).nodeCount - 1)) rfl (by rw [setCount_nodeCount]; omega) (by omega)
      (by have := h.le; omega)
    rw [hcast] at hstep
    rw [hmem, heq, if_pos (by omega)]
    exact hstep

theorem postTradeCleanup_spec (h : PagesOk ob.mem mm) :
    ∃ ob' mm', postTradeCleanup ob mm = (ob', mm') ∧ PagesOk ob'.mem mm' ∧ Apart ob.mem ob'.mem mm mm' ∧
      mm'.frameTotal = mm.frameTotal - (if 0 < ob.mem.nodesInCurrPage then 1 else 0) ∧
      ownNodes ob'.mem mm' = ownNodes ob.mem mm - (if 0 < ob.mem.nodesInCurrPage then 1 else 0) ∧
      mm'.overflowCnt = mm.overflowCnt - 1 ∧ ob'.held = ob.held := by
  have hpages : PagesOk ob.mem { mm with overflowCnt := mm.overflowCnt - 1 } := h.congr fun _ _ => ⟨rfl, rfl⟩
  obtain ⟨h1, h2, h3, h4⟩ := freeNodeMemory_spec hpages
  obtain ⟨ha, hb, hov⟩ := freeNodeMemory_heaps ob { mm with overflowCnt := mm.overflowCnt - 1 }
  refine ⟨(postTradeCleanup ob mm).1, (postTradeCleanup ob mm).2, rfl, h1, h2, h3, h4, hov, ?_⟩
  show ((freeNodeMemory _ _).1.asks.size : Int) + (freeNodeMemory _ _).1.bids.size = _
  rw [ha, hb]
  rfl

theorem PagesOk.ownNodes_eq_zero (h : PagesOk m mm) (h0 : m.nodesInCurrPage = 0) : ownNodes m mm = 0 := by
  have : m.virtualPages = [] := by
    by_contra hne
    obtain ⟨init, f, hp⟩ := split_last hne
    have := (h.last init f hp).2.1
    omega
  simp [ownNodes, this]

/-! ### Storing an order -/

theorem pushOrder_mem (ob : OrderBook) (o : Order) : (pushOrder ob o).mem = ob.mem := by
  unfold pushOrder
  split <;> rfl

theorem pushOrder_held (ob : OrderBook) (o : Order) : (pushOrder ob o).held = ob.held + 1 := by
  unfold pushOrder OrderBook.held Heap.push
  split
  · push_cast; ring
  · push_cast; ring

theorem allocateFrame_spec {symId : Int} (h : allocateFrame mm symId = some (f, mm')) :
    f < maxPages ∧ mm.free f = true ∧ mm'.free f = false ∧ Only f mm mm' ∧ mm'.overflowCnt = mm.overflowCnt := by
  unfold allocateFrame at h
  obtain ⟨g, hg, he⟩ := Option.map_eq_some_iff.1 h
  cases he
  refine ⟨List.mem_range.1 (List.mem_of_find?_eq_some hg), List.find?_some hg, update_self .., fun g' hg' => ?_, rfl⟩
  exact ⟨update_of_ne hg' _ _, update_of_ne hg' _ _⟩

/-- What `mem_aware_insert` does: room in the last page, a new page, the overflow page, or a reject. -/
theorem memAwareInsert_cases (h : PagesOk ob.mem mm) (o : Order) (symId : Int) :
    (∃ init f, ob.mem.virtualPages = init ++ [f] ∧ ob.mem.nodesInCurrPage < pageSize ∧
      memAwareInsert ob mm o symId =
        (true, pushOrder { ob with mem := ⟨ob.mem.virtualPages, ob.mem.nodesInCurrPage + 1⟩ } o,
          mm.setCount f ((mm.frames f).nodeCount + 1))) ∨
    (∃ f mm₁, allocateFrame mm symId = some (f, mm₁) ∧ ob.mem.pageCount < maxPagesPerSymbol ∧
      (ob.mem.nodesInCurrPage = pageSize ∨ ob.mem.virtualPages = []) ∧
      memAwareInsert ob mm o symId =
        (true, pushOrder { ob with mem := ⟨ob.mem.virtualPages ++ [f], 1⟩ } o, mm₁.setCount f 1)) ∨
    (mm.overflowCnt < overflowPageSize ∧ memAwareInsert ob mm o symId =
      (true, pushOrder ob o, { mm with overflowCnt := mm.overflowCnt + 1 })) ∨
    memAwareInsert ob mm o symId = (false, ob, { mm with hardRejects := mm.hardRejects + 1 }) := by
  unfold memAwareInsert
  by_cases hroom : 0 < ob.mem.pageCount ∧ ob.mem.nodesInCurrPage < pageSize
  · obtain ⟨init, f, hp⟩ := split_last (List.length_pos_iff.1 hroom.1)
    rw [if_pos hroom, translate_last hp]
    exact .inl ⟨init, f, hp, hroom.2, rfl⟩
  · rw [if_neg hroom]
    refine .inr ?_
    have hfull : ob.mem.nodesInCurrPage = pageSize ∨ ob.mem.virtualPages = [] := by
      by_cases he : ob.mem.virtualPages = []
      · exact .inr he
      · refine .inl ?_
        have : 0 < ob.mem.pageCount := List.length_pos_iff.2 he
        have := h.le
        omega
    unfold insertElsewhere
    by_cases hpc : ob.mem.pageCount < maxPagesPerSymbol
    · rw [if_pos hpc]
      cases ha : allocateFrame mm symId with
      | some r =>
        obtain ⟨f, mm₁⟩ := r
        exact .inl ⟨f, mm₁, rfl, hpc, hfull, rfl⟩
      | none =>
        dsimp only
        split
        · exact .inr (.inl ⟨‹_›, rfl⟩)
        · exact .inr (.inr rfl)
    · rw [if_neg hpc]
      dsimp only
      split
      · exact .inr (.inl ⟨‹_›, rfl⟩)
      · exact .inr (.inr rfl)

/-- A stored order is counted once; a rejected one changes nothing. -/
theorem memAwareInsert_spec (h : PagesOk ob.mem mm) (o : Order) (symId : Int) :
    ∃ stored ob' mm', memAwareInsert ob mm o symId = (stored, ob', mm') ∧ PagesOk ob'.mem mm' ∧
      Apart ob.mem ob'.mem mm mm' ∧
      (mm'.frameTotal + mm'.overflowCnt = mm.frameTotal + mm.overflowCnt + (if stored then 1 else 0)) ∧
      (ownNodes ob'.mem mm' ≤ ownNodes ob.mem mm + (if stored then 1 else 0)) ∧
      ob'.held = ob.held + (if stored then 1 else 0) := by
  rcases memAwareInsert_cases h o symId with ⟨init, f, hp, hlt, he⟩ | ⟨f, mm₁, ha, -, hfull, he⟩ | ⟨-, he⟩ | he
  · obtain ⟨hcnt, -, -⟩ := h.last init f hp
    obtain ⟨h1, h2, h3, h4⟩ := h.recount (n := ob.mem.nodesInCurrPage + 1) hp
      (only_setCount ((mm.frames f).nodeCount + 1)) rfl (by rw [setCount_nodeCount, hcnt]; rfl)
      (Nat.succ_pos _) hlt
    refine ⟨true, _, _, he, ?_, ?_, ?_, ?_, ?_⟩
    · rw [pushOrder_mem]; exact h1
    · rw [pushOrder_mem]; exact h2
    · have hov : (mm.setCount f ((mm.frames f).nodeCount + 1)).overflowCnt = mm.overflowCnt := rfl
      rw [h3, hov]; push_cast; simp; ring
    · rw [pushOrder_mem, h4]
      push_cast
      simp only [if_true]
      omega
    · rw [pushOrder_held]; rfl
  · obtain ⟨hlt, hf, hf', ho, hov⟩ := allocateFrame_spec ha
    have ho' : Only f mm (mm₁.setCount f 1) := fun g hg =>
      ⟨(only_setCount 1 g hg).1.trans (ho g hg).1, (ho g hg).2⟩
    obtain ⟨h1, h2, h3, h4⟩ := h.acquire ho' hlt hf hf' (setCount_nodeCount 1) hfull
    refine ⟨true, _, _, he, ?_, ?_, ?_, ?_, ?_⟩
    · rw [pushOrder_mem]; exact h1
    · rw [pushOrder_mem]; exact h2
    · have : (mm₁.setCount f 1).overflowCnt = mm.overflowCnt := hov
      rw [h3, this]; simp; ring
    · rw [pushOrder_mem, h4]; simp
    · rw [pushOrder_held]; rfl
  · refine ⟨true, _, _, he, ?_, ?_, ?_, ?_, ?_⟩
    · rw [pushOrder_mem]; exact h.congr fun _ _ => ⟨rfl, rfl⟩
    · rw [pushOrder_mem]; exact fun g h1 h2 => ⟨rfl, h1, h2⟩
    · show mm.frameTotal + ((mm.overflowCnt + 1 : Nat) : Int) = _
      push_cast; simp; ring
    · rw [pushOrder_mem]
      show ownNodes ob.mem mm ≤ _
      simp
    · rw [pushOrder_held]; rfl
  · refine ⟨false, _, _, he, h.congr fun _ _ => ⟨rfl, rfl⟩, fun g h1 h2 => ⟨rfl, h1, h2⟩, ?_, ?_, ?_⟩
    · show mm.frameTotal + _ = _; simp
    · show ownNodes ob.mem mm ≤ _; simp
    · simp

/-! ### Trading -/

/-- The cleanup after the trade at the top of the book agrees with the orders it takes out: a partial
fill takes out one, and either the overflow page or the book's pages are empty; an exact match takes
out two, and there is one to uncount in each, the one in the overflow page being the book's. -/
def TradeOk (ob : OrderBook) (mm : MemoryManager) : Prop :=
  if ob.bids.peek.amount = ob.asks.peek.amount then
    0 < mm.overflowCnt ∧ 0 < ob.mem.nodesInCurrPage ∧ ownNodes ob.mem mm < ob.held
  else (0 < mm.overflowCnt ↔ ob.mem.nodesInCurrPage = 0)

instance (ob : OrderBook) (mm : MemoryManager) : Decidable (TradeOk ob mm) :=
  inferInstanceAs (Decidable (ite _ _ _))

theorem popSide_eq (ask : Bool) (now : Nat) (r : OrderBook × MemoryManager) :
    popSide ask now r = (if ask then { r.1 with asks := (r.1.asks.pop minCmp now).1 }
      else { r.1 with bids := (r.1.bids.pop maxCmp now).1 }, r.2) := by
  cases ask
  · simp only [popSide, Bool.false_eq_true, if_false, (Heap.pop_size maxCmp now r.1.bids).1]; rfl
  · simp only [popSide, if_true, (Heap.pop_size minCmp now r.1.asks).1]; rfl

/-- A trade takes out two orders of equal amounts, and else one; it leaves the memory alone. -/
theorem check_spec {nb na : Nat} {t : Trade} (h : (checkForTradeMulti nb na ob mm).trade = some t) :
    (checkForTradeMulti nb na ob mm).mm = mm ∧ (checkForTradeMulti nb na ob mm).ob.mem = ob.mem ∧
      0 < ob.asks.size ∧ 0 < ob.bids.size ∧ (checkForTradeMulti nb na ob mm).ob.held =
        ob.held - (if ob.bids.peek.amount = ob.asks.peek.amount then 2 else 1) := by
  unfold checkForTradeMulti at h ⊢
  by_cases h0 : ob.asks.size = 0 ∨ ob.bids.size = 0
  · rw [if_pos h0] at h; cases h
  rw [if_neg h0] at h ⊢
  have ha : 0 < ob.asks.size := by omega
  have hb : 0 < ob.bids.size := by omega
  dsimp only at h ⊢
  by_cases hcross : ob.asks.peek.price ≤ ob.bids.peek.price
  · rw [if_pos hcross]
    have hpa : ∀ h' : Heap, (h'.pop minCmp na).1.size = h'.size - 1 := fun h' => (Heap.pop_size _ _ _).2
    have hpb : ∀ h' : Heap, (h'.pop maxCmp nb).1.size = h'.size - 1 := fun h' => (Heap.pop_size _ _ _).2
    have hupd : ∀ (h' : Heap) (a : Int), (h'.update a).size = h'.size := fun _ _ => rfl
    by_cases heq : ob.bids.peek.amount = ob.asks.peek.amount
    · rw [if_pos heq, if_pos heq]
      simp only [popSide_eq, Bool.false_eq_true, if_false, if_true, OrderBook.held, hpa, hpb, true_and]
      exact ⟨ha, hb, by omega⟩
    · rw [if_neg heq, if_neg heq]
      split
      · simp only [popSide_eq, if_true, OrderBook.held, hpa, hupd, true_and]
        exact ⟨ha, hb, by omega⟩
      · simp only [popSide_eq, Bool.false_eq_true, if_false, OrderBook.held, hpb, hupd, true_and]
        exact ⟨ha, hb, by omega⟩
  · rw [if_neg hcross] at h; cases h

/-! ### One book among others -/

/-- The counts of one book, where `R` is what the other books hold. -/
structure Good (R : Int) (ob : OrderBook) (mm : MemoryManager) : Prop where
  pages : PagesOk ob.mem mm
  total : mm.frameTotal + mm.overflowCnt = ob.held + R
  own : ownNodes ob.mem mm ≤ ob.held

theorem Good.insert {R : Int} (h : Good R ob mm) (o : Order) (symId : Int) :
    Good R (memAwareInsert ob mm o symId).2.1 (memAwareInsert ob mm o symId).2.2 ∧
      Apart ob.mem (memAwareInsert ob mm o symId).2.1.mem mm (memAwareInsert ob mm o symId).2.2 := by
  obtain ⟨stored, ob', mm', he, h1, h2, h3, h4, h5⟩ := memAwareInsert_spec h.pages o symId
  rw [he]
  have htotal := h.total
  have hown := h.own
  refine ⟨⟨h1, ?_, ?_⟩, h2⟩
  · show mm'.frameTotal + mm'.overflowCnt = ob'.held + R
    rw [h3, h5]; omega
  · show ownNodes ob'.mem mm' ≤ ob'.held
    rw [h5]; omega

theorem Good.round {R : Int} {now : Nat → Nat} {j : Nat} {d d' : Desk} (h : Good R d.ob d.mm)
    (hok : TradeOk d.ob d.mm) (hr : d.round now j = some d') :
    Good R d'.ob d'.mm ∧ Apart d.ob.mem d'.ob.mem d.mm d'.mm := by
  simp only [Desk.round, Option.map_eq_some_iff] at hr
  obtain ⟨t, ht, rfl⟩ := hr
  obtain ⟨hmm, hmem, ha, hb, hheld⟩ := check_spec ht
  generalize checkForTradeMulti (now (2 * j)) (now (2 * j + 1)) d.ob d.mm = c at hmm hmem hheld ⊢
  have hpages : PagesOk { c.ob with trades := c.ob.trades + 1 }.mem c.mm := by
    show PagesOk c.ob.mem c.mm
    rw [hmem, hmm]
    exact h.pages
  obtain ⟨ob', mm', he, h1, h2, h3, h4, h5, h6⟩ := postTradeCleanup_spec hpages
  rw [he]
  dsimp only at h2 h3 h4 h5 h6 ⊢
  rw [hmem, hmm] at h2 h3 h4
  rw [hmm] at h5
  have hheld' : ob'.held = d.ob.held - (if d.ob.bids.peek.amount = d.ob.asks.peek.amount then 2 else 1) :=
    h6.trans hheld
  have hpos : (2 : Int) ≤ d.ob.held := by unfold OrderBook.held; omega
  have htotal := h.total
  have hown := h.own
  unfold TradeOk at hok
  refine ⟨⟨h1, ?_, ?_⟩, h2⟩
  · rw [h3, h5, hheld']
    split at hok
    · rename_i heq
      rw [if_pos heq, if_pos hok.2.1]
      omega
    · rename_i heq
      rw [if_neg heq]
      split <;> omega
  · rw [h4, hheld']
    split at hok
    · rename_i heq
      rw [if_pos heq, if_pos hok.2.1]
      omega
    · rename_i heq
      rw [if_neg heq]
      split
      · omega
      · rw [h.pages.ownNodes_eq_zero (by omega)]
        omega

/-- Every trade of the loop has a cleanup that agrees with it. -/
def LoopOk (now : Nat → Nat) : Nat → Nat → Desk → Prop
  | 0, _, _ => True
  | fuel + 1, j, d => ∀ d' ∈ d.round now j, TradeOk d.ob d.mm ∧ LoopOk now fuel (j + 1) d'

instance decidableLoopOk (now : Nat → Nat) : ∀ fuel j d, Decidable (LoopOk now fuel j d)
  | 0, _, _ => inferInstanceAs (Decidable True)
  | fuel + 1, j, d =>
    have := decidableLoopOk now fuel
    inferInstanceAs (Decidable (∀ d' ∈ d.round now j, TradeOk d.ob d.mm ∧ LoopOk now fuel (j + 1) d'))

theorem check_none {nb na : Nat} (h : (checkForTradeMulti nb na ob mm).trade = none) :
    (checkForTradeMulti nb na ob mm).ob = ob ∧ (checkForTradeMulti nb na ob mm).mm = mm := by
  unfold checkForTradeMulti at h ⊢
  dsimp only at h ⊢
  split
  · exact ⟨rfl, rfl⟩
  · rename_i h0
    rw [if_neg h0] at h
    split
    · rename_i hcross
      rw [if_pos hcross] at h
      split at h <;> [cases h; split at h <;> cases h]
    · exact ⟨rfl, rfl⟩

theorem round_eq_none {now : Nat → Nat} {j : Nat} {d : Desk} (h : d.round now j = none) :
    (d.last now j).ob = d.ob ∧ (d.last now j).mm = d.mm :=
  check_none (Option.map_eq_none_iff.1 h)

theorem Good.loop {R : Int} {now : Nat → Nat} {fuel j : Nat} {d : Desk} (h : Good R d.ob d.mm)
    (hok : LoopOk now fuel j d) :
    Good R (d.loop now fuel j).ob (d.loop now fuel j).mm ∧
      Apart d.ob.mem (d.loop now fuel j).ob.mem d.mm (d.loop now fuel j).mm := by
  induction fuel generalizing j d with
  | zero => exact ⟨h, fun f h1 h2 => ⟨rfl, h1, h2⟩⟩
  | succ fuel ih =>
    simp only [Desk.loop]
    cases hr : d.round now j with
    | none =>
      dsimp only
      rw [(round_eq_none hr).1, (round_eq_none hr).2]
      exact ⟨h, fun f h1 h2 => ⟨rfl, h1, h2⟩⟩
    | some d' =>
      obtain ⟨htrade, hrest⟩ := hok d' hr
      obtain ⟨h', hap⟩ := h.round htrade hr
      obtain ⟨hl, hap'⟩ := ih h' hrest
      exact ⟨hl, hap.trans hap'⟩

/-- Every trade that follows from an order has a cleanup that agrees with it. -/
def Desk.SubmitOk (d : Desk) (o : Order) (symId : Int) (now : Nat → Nat) : Prop :=
  let r := memAwareInsert d.ob d.mm o symId
  let d' : Desk := { d with ob := r.2.1, mm := r.2.2 }
  r.1 = true → LoopOk now (d'.ob.asks.size + d'.ob.bids.size + 1) 0 d'

instance (d : Desk) (o : Order) (symId : Int) (now : Nat → Nat) : Decidable (d.SubmitOk o symId now) :=
  inferInstanceAs (Decidable (_ = true → LoopOk _ _ _ _))

theorem Good.submit {R : Int} {now : Nat → Nat} {d : Desk} {symId : Int} (h : Good R d.ob d.mm)
    (hok : d.SubmitOk o symId now) : Good R (d.submit o symId now).ob (d.submit o symId now).mm ∧
      Apart d.ob.mem (d.submit o symId now).ob.mem d.mm (d.submit o symId now).mm := by
  obtain ⟨hi, hap⟩ := h.insert o symId
  unfold Desk.submit
  dsimp only
  split
  · rename_i hs
    obtain ⟨hl, hap'⟩ := Good.loop (d := { d with
      ob := (memAwareInsert d.ob d.mm o symId).2.1, mm := (memAwareInsert d.ob d.mm o symId).2.2 }) hi (hok hs)
    exact ⟨hl, hap.trans hap'⟩
  · exact ⟨hi, hap⟩

/-! ### All books -/

namespace Sim

variable {σ : Type*} {s : Sim σ}

/-- The counts are right: every stored order is counted once, and no book counts more orders in its
own frames than it holds. -/
def Balanced (s : Sim σ) : Prop :=
  s.mm.frameTotal + s.mm.overflowCnt = (s.books.map fun b => b.2.held).sum ∧
    ∀ b ∈ s.books, ownNodes b.2.mem s.mm ≤ b.2.held

structure Good (s : Sim σ) : Prop where
  balanced : s.Balanced
  pages : ∀ b ∈ s.books, PagesOk b.2.mem s.mm
  apart : s.books.Pairwise fun b b' => ∀ f ∈ b.2.mem.virtualPages, f ∉ b'.2.mem.virtualPages

variable [DecidableEq σ]

/-- Every trade that follows from the order has a cleanup that agrees with it. -/
def SubmitOk (s : Sim σ) (sub : Submission σ) : Prop :=
  let books := findOrCreateBook s.books sub.symbol
  let i := symId books sub.symbol
  ∀ b ∈ books[i]?, Desk.SubmitOk ⟨b.2, s.mm, [], s.openFiles⟩ sub.order i sub.now

instance (s : Sim σ) (sub : Submission σ) : Decidable (s.SubmitOk sub) :=
  inferInstanceAs (Decidable (∀ b ∈ _, Desk.SubmitOk _ _ _ _))

/-- Every trade of the run has a cleanup that agrees with it. -/
def RunOk (subs : List (Submission σ)) : Prop :=
  ∀ n < subs.length, ∀ sub ∈ subs[n]?, (run (subs.take n)).SubmitOk sub

instance (subs : List (Submission σ)) : Decidable (RunOk subs) :=
  inferInstanceAs (Decidable (∀ n < subs.length, ∀ sub ∈ subs[n]?, (run (subs.take n)).SubmitOk sub))

theorem Good.findOrCreate (h : s.Good) (symbol : σ) :
    ({ s with books := findOrCreateBook s.books symbol } : Sim σ).Good := by
  unfold findOrCreateBook
  split
  · exact h
  · refine ⟨⟨?_, fun b hb => ?_⟩, fun b hb => ?_, ?_⟩
    · rw [h.balanced.1]
      simp [createOrderBook, OrderBook.held, createHeap]
    · rcases List.mem_append.1 hb with hb | hb
      · exact h.balanced.2 b hb
      · rw [List.mem_singleton.1 hb]; exact le_refl 0
    · rcases List.mem_append.1 hb with hb | hb
      · exact h.pages b hb
      · rw [List.mem_singleton.1 hb]
        refine ⟨List.nodup_nil, fun f hf => ?_, Nat.zero_le _, fun _ => rfl, fun init f hp => ?_⟩
        · cases hf
        · simp [createOrderBook] at hp
    · rw [List.pairwise_append]
      refine ⟨h.apart, List.pairwise_singleton _ _, fun b _ b' hb' f _ => ?_⟩
      rw [List.mem_singleton.1 hb']
      exact List.not_mem_nil

theorem Good.set {pre post : List (σ × OrderBook)} {b : σ × OrderBook} {ob : OrderBook} {mm : MemoryManager}
    {log : List (σ × Trade)} {files : Nat} (h : s.Good) (hb : s.books = pre ++ b :: post)
    (hg : Golden.Good ((pre.map fun b => b.2.held).sum + (post.map fun b => b.2.held).sum) ob mm)
    (hap : Apart b.2.mem ob.mem s.mm mm) : Good ⟨pre ++ (b.1, ob) :: post, mm, log, files⟩ := by
  have hpw := h.apart
  rw [hb, List.pairwise_append, List.pairwise_cons] at hpw
  obtain ⟨hpre, ⟨hbpost, hpost⟩, hcross⟩ := hpw
  have hmem : ∀ b', b' ∈ pre ∨ b' ∈ post → b' ∈ s.books := fun b' hb' => by
    rw [hb, List.mem_append, List.mem_cons]
    rcases hb' with hb' | hb'
    · exact .inl hb'
    · exact .inr (.inr hb')
  have hdisj : ∀ b', b' ∈ pre ∨ b' ∈ post → ∀ f ∈ b'.2.mem.virtualPages, f ∉ b.2.mem.virtualPages := by
    rintro b' (hb' | hb') f hf
    · exact hcross b' hb' b (by simp) f hf
    · exact fun hc => hbpost b' hb' f hc hf
  have hkeep : ∀ b', b' ∈ pre ∨ b' ∈ post → ∀ f ∈ b'.2.mem.virtualPages,
      mm.frames f = s.mm.frames f ∧ mm.free f = false ∧ f ∉ ob.mem.virtualPages := fun b' hb' f hf =>
    hap f ((h.pages b' (hmem b' hb')).alloc f hf).2 (hdisj b' hb' f hf)
  have hcases : ∀ b' ∈ pre ++ (b.1, ob) :: post, b' = (b.1, ob) ∨ (b' ∈ pre ∨ b' ∈ post) := by
    intro b' hb'
    rw [List.mem_append, List.mem_cons] at hb'
    rcases hb' with hb' | hb' | hb'
    · exact .inr (.inl hb')
    · exact .inl hb'
    · exact .inr (.inr hb')
  refine ⟨⟨?_, fun b' hb' => ?_⟩, fun b' hb' => ?_, ?_⟩
  · show mm.frameTotal + mm.overflowCnt = _
    rw [hg.total, List.map_append, List.map_cons, List.sum_append, List.sum_cons]
    ring
  · rcases hcases b' hb' with rfl | hb'
    · exact hg.own
    · show ownNodes _ mm ≤ _
      rw [ownNodes_congr fun f hf => (hkeep b' hb' f hf).1]
      exact h.balanced.2 b' (hmem b' hb')
  · rcases hcases b' hb' with rfl | hb'
    · exact hg.pages
    · have hold := h.pages b' (hmem b' hb')
      exact hold.congr fun f hf => ⟨(hkeep b' hb' f hf).1, by rw [(hkeep b' hb' f hf).2.1, (hold.alloc f hf).2]⟩
  · rw [List.pairwise_append, List.pairwise_cons]
    refine ⟨hpre, ⟨fun b' hb' f hf hc => (hkeep b' (.inr hb') f hc).2.2 hf, hpost⟩, fun b' hb' b'' hb'' => ?_⟩
    rcases List.mem_cons.1 hb'' with rfl | hb''
    · exact fun f hf => (hkeep b' (.inl hb') f hf).2.2
    · exact hcross b' hb' b'' (List.mem_cons_of_mem _ hb'')

theorem getElem?_symId {books : List (σ × OrderBook)} {symbol : σ} {b : σ × OrderBook}
    (h : books[symId books symbol]? = some b) : b.1 = symbol := by
  obtain ⟨hlt, rfl⟩ := List.getElem?_eq_some_iff.1 h
  have := List.findIdx_getElem (p := fun b : σ × OrderBook => decide (b.1 = symbol)) (w := hlt)
  exact of_decide_eq_true this

theorem split_at {α : Type*} {l : List α} {i : Nat} {b : α} (h : l[i]? = some b) :
    ∃ pre post, l = pre ++ b :: post ∧ ∀ y, l.set i y = pre ++ y :: post := by
  obtain ⟨hlt, rfl⟩ := List.getElem?_eq_some_iff.1 h
  refine ⟨l.take i, l.drop (i + 1), ?_, fun y => ?_⟩
  · rw [List.getElem_cons_drop, List.take_append_drop]
  · rw [List.set_eq_take_append_cons_drop, if_pos hlt]

theorem Good.submit {sub : Submission σ} (h : s.Good) (hok : s.SubmitOk sub) : (s.submit sub).Good := by
  have hf := h.findOrCreate sub.symbol
  unfold SubmitOk at hok
  unfold Sim.submit
  generalize findOrCreateBook s.books sub.symbol = books at hf hok ⊢
  dsimp only at hok ⊢
  cases hb : books[symId books sub.symbol]? with
  | none => exact h
  | some b =>
    obtain ⟨pre, post, hsplit, hset⟩ := split_at hb
    have hmem : b ∈ books := List.mem_of_getElem? hb
    have hgood : Golden.Good ((pre.map fun b => b.2.held).sum + (post.map fun b => b.2.held).sum) b.2 s.mm := by
      refine ⟨hf.pages b hmem, ?_, hf.balanced.2 b hmem⟩
      have htotal := hf.balanced.1
      dsimp only at htotal
      rw [htotal, hsplit, List.map_append, List.map_cons, List.sum_append, List.sum_cons]
      ring
    obtain ⟨hg, hap⟩ := Golden.Good.submit (d := ⟨b.2, s.mm, [], s.openFiles⟩) hgood (hok b hb)
    dsimp only
    rw [hset, ← getElem?_symId hb]
    rw [← getElem?_symId hb] at hg hap
    exact hf.set hsplit hg hap

theorem good_start : (start : Sim σ).Good := by
  refine ⟨⟨?_, fun b hb => ?_⟩, fun b hb => ?_, List.Pairwise.nil⟩
  · show createMemoryManager.frameTotal + 0 = 0
    simp [MemoryManager.frameTotal, MemoryManager.count, createMemoryManager]
  · cases hb
  · cases hb

theorem run_snoc (subs : List (Submission σ)) (sub : Submission σ) :
    run (subs ++ [sub]) = (run subs).submit sub := by simp [run]

theorem run_good {subs : List (Submission σ)} (hok : RunOk subs) {n : Nat} (hn : n ≤ subs.length) :
    (run (subs.take n)).Good := by
  induction n with
  | zero => exact good_start
  | succ n ih =>
    have hget : subs[n]? = some subs[n] := List.getElem?_eq_getElem hn
    rw [List.take_add_one, hget]
    show (run (subs.take n ++ [subs[n]])).Good
    rw [run_snoc]
    exact (ih (by omega)).submit (hok n hn _ hget)

/-- In a run in which the cleanup after every trade agrees with the trade, the counts are right after
each order. -/
theorem books_balanced (subs : List (Submission σ)) (hok : RunOk subs) :
    ∀ n ≤ subs.length, (run (subs.take n)).Balanced := fun _ hn =>
  (run_good hok hn).balanced

/-- An ask that fills half of a bid. -/
def halfFill : List (Submission Nat) :=
  [⟨0, ⟨5, 1, 1, true⟩, fun _ => 0⟩, ⟨0, ⟨5, 2, 2, false⟩, fun _ => 0⟩]

theorem books_balanced_halfFill : RunOk halfFill ∧ (run (halfFill.take 2)).Balanced :=
  ⟨by decide +kernel, books_balanced halfFill (by decide +kernel) 2 (by decide)⟩

/-- An ask and a bid that match. -/
def exactMatch : List (Submission Nat) :=
  [⟨0, ⟨5, 1, 1, true⟩, fun _ => 0⟩, ⟨0, ⟨5, 2, 1, false⟩, fun _ => 0⟩]

/-- After an exact match the heaps are empty and the frame still counts an order. -/
theorem exactMatch_unbalanced : ¬ (run exactMatch).Balanced := by
  intro h
  have := h.1
  revert this
  decide +kernel

end Sim

end HftSim.Golden
