import HftSim.Golden.Balance

/-!
# Who owns which frame

`Exchange` is any number of books over one memory. Whatever orders are stored, traded and cleaned up,
in any order and in any of the books, the bitmap, the owners, the page lists and the counters tell the
same story (`Exchange.FramesOk`).
-/

namespace HftSim.Golden

open Function

structure Exchange where
  books : List OrderBook
  mm : MemoryManager

/-- What can be done to book `i`. -/
inductive BookOp
  | insert (o : Order)
  | trade (nowBid nowAsk : Nat)
  | cleanup

def BookOp.apply (i : Nat) (op : BookOp) (ob : OrderBook) (mm : MemoryManager) : OrderBook × MemoryManager :=
  match op with
  | .insert o => (memAwareInsert ob mm o i).2
  | .trade nowBid nowAsk => ((checkForTradeMulti nowBid nowAsk ob mm).ob, (checkForTradeMulti nowBid nowAsk ob mm).mm)
  | .cleanup => postTradeCleanup ob mm

namespace Exchange

def start : Exchange := ⟨[], createMemoryManager⟩

def openBook (s : Exchange) : Exchange := { s with books := s.books ++ [createOrderBook] }

def onBook (s : Exchange) (i : Nat) (op : BookOp) : Exchange :=
  match s.books[i]? with
  | none => s
  | some ob => ⟨s.books.set i (op.apply i ob s.mm).1, (op.apply i ob s.mm).2⟩

/-- The states reached from an empty exchange. -/
inductive Reached : Exchange → Prop
  | start : Reached start
  | openBook {s} (h : Reached s) : Reached s.openBook
  | onBook {s} (h : Reached s) (i : Nat) (op : BookOp) : Reached (s.onBook i op)

structure FramesOk (s : Exchange) : Prop where
  free_owner : ∀ f < maxPages, s.mm.free f = true ↔ (s.mm.frames f).ownerSymbol = -1
  free_listed : ∀ f < maxPages, s.mm.free f = true ↔ ∀ b ∈ s.books, f ∉ b.mem.virtualPages
  nodup : ∀ b ∈ s.books, b.mem.virtualPages.Nodup
  apart : s.books.Pairwise fun b b' => ∀ f ∈ b.mem.virtualPages, f ∉ b'.mem.virtualPages
  owner : ∀ (i : Nat) b, s.books[i]? = some b → ∀ f ∈ b.mem.virtualPages, f < maxPages ∧ (s.mm.frames f).ownerSymbol = i
  pageCount_le : ∀ b ∈ s.books, b.mem.pageCount ≤ 128
  overflow_le : s.mm.overflowCnt ≤ 8
  full : ∀ b ∈ s.books, ∀ init f, b.mem.virtualPages = init ++ [f] →
    (∀ g ∈ init, (s.mm.frames g).nodeCount = 64) ∧ (s.mm.frames f).nodeCount = b.mem.nodesInCurrPage ∧
      1 ≤ b.mem.nodesInCurrPage ∧ b.mem.nodesInCurrPage ≤ 64
  empty : ∀ b ∈ s.books, b.mem.pageCount = 0 → b.mem.nodesInCurrPage = 0

end Exchange

/-! ### One operation on one book -/

variable {ob : OrderBook} {m m' : SymbolMemory} {mm mm' : MemoryManager} {i : Int}

/-- What book `i` and the memory know of each other. -/
structure Owns (i : Int) (m : SymbolMemory) (mm : MemoryManager) : Prop where
  pages : PagesOk m mm
  count : m.pageCount ≤ maxPagesPerSymbol
  owner : ∀ f ∈ m.virtualPages, (mm.frames f).ownerSymbol = i

/-- The bitmap agrees with the owners, and the overflow page is within bounds. -/
structure MemoryOk (mm : MemoryManager) : Prop where
  idle : ∀ f, mm.free f = true ↔ (mm.frames f).ownerSymbol = -1
  overflow : mm.overflowCnt ≤ overflowPageSize

/-- Book `i` goes from `m` to `m'`: it keeps what it knows, leaves other frames alone, and every frame
in use is its own or was another's. -/
structure Moves (i : Int) (m m' : SymbolMemory) (mm mm' : MemoryManager) : Prop where
  owns : Owns i m' mm'
  memory : MemoryOk mm'
  apart : Apart m m' mm mm'
  used : ∀ f, mm'.free f = false → f ∈ m'.virtualPages ∨ mm.free f = false ∧ f ∉ m.virtualPages

theorem setCount_owner (mm : MemoryManager) (f g : Nat) (n : Int) :
    ((mm.setCount f n).frames g).ownerSymbol = (mm.frames g).ownerSymbol := by
  by_cases h : g = f
  · subst h; simp [MemoryManager.setCount]
  · rw [(only_setCount n g h).1]

theorem MemoryOk.setCount (h : MemoryOk mm) (f : Nat) (n : Int) : MemoryOk (mm.setCount f n) :=
  ⟨fun g => by rw [setCount_owner]; exact h.idle g, h.overflow⟩

theorem used_of_eq (hfree : mm'.free = mm.free) (hp : m'.virtualPages = m.virtualPages) :
    ∀ f, mm'.free f = false → f ∈ m'.virtualPages ∨ mm.free f = false ∧ f ∉ m.virtualPages := by
  intro f hf
  rw [hfree] at hf
  rw [hp]
  by_cases hm : f ∈ m.virtualPages
  · exact .inl hm
  · exact .inr ⟨hf, hm⟩

theorem Moves.refl (h : Owns i m mm) (hm : MemoryOk mm) : Moves i m m mm mm :=
  ⟨h, hm, fun _ h1 h2 => ⟨rfl, h1, h2⟩, used_of_eq rfl rfl⟩

theorem Owns.insert (h : Owns i ob.mem mm) (hm : MemoryOk mm) (hi : 0 ≤ i) (o : Order) :
    Moves i ob.mem (memAwareInsert ob mm o i).2.1.mem mm (memAwareInsert ob mm o i).2.2 := by
  obtain ⟨stored, ob', mm', he, hpages, hapart, -⟩ := memAwareInsert_spec h.pages o i
  rcases memAwareInsert_cases h.pages o i with ⟨init, f, hp, -, hc⟩ | ⟨f, mm₁, ha, hlt, -, hc⟩ | ⟨hlt, hc⟩ | hc <;>
    rw [hc] at he ⊢ <;> cases he <;> simp only [pushOrder_mem] at hpages hapart ⊢
  · refine ⟨⟨hpages, h.count, fun g hg => ?_⟩, hm.setCount _ _, hapart, used_of_eq rfl rfl⟩
    rw [setCount_owner]; exact h.owner g hg
  · obtain ⟨-, -, -, ho, hov⟩ := allocateFrame_spec ha
    have hfree : mm₁.free = update mm.free f false ∧ (mm₁.frames f).ownerSymbol = i := by
      obtain ⟨g, -, hg⟩ := Option.map_eq_some_iff.1 ha
      cases hg
      exact ⟨rfl, by simp⟩
    have howner : ∀ g, g ≠ f → (mm₁.frames g).ownerSymbol = (mm.frames g).ownerSymbol := fun g hg => by
      rw [(ho g hg).1]
    refine ⟨⟨hpages, ?_, fun g hg => ?_⟩, ⟨fun g => ?_, ?_⟩, hapart, fun g hg => ?_⟩
    · simp only [SymbolMemory.pageCount, List.length_append, List.length_singleton] at hlt ⊢
      exact hlt
    · rw [setCount_owner]
      by_cases hgf : g = f
      · rw [hgf]; exact hfree.2
      · rw [howner g hgf]
        rcases List.mem_append.1 hg with hg | hg
        · exact h.owner g hg
        · exact absurd (List.mem_singleton.1 hg) hgf
    · rw [setCount_owner]
      show mm₁.free g = true ↔ _
      by_cases hgf : g = f
      · rw [hfree.1, hgf, update_self, hfree.2]
        constructor
        · intro hc; cases hc
        · intro hc; omega
      · rw [hfree.1, update_of_ne hgf, howner g hgf]; exact hm.idle g
    · show mm₁.overflowCnt ≤ _
      rw [hov]; exact hm.overflow
    · have hg' : mm₁.free g = false := hg
      by_cases hgf : g = f
      · exact .inl (by simp [hgf])
      · rw [hfree.1, update_of_ne hgf] at hg'
        by_cases hmem : g ∈ ob.mem.virtualPages
        · exact .inl (by simp [hmem])
        · exact .inr ⟨hg', hmem⟩
  · exact ⟨⟨hpages, h.count, h.owner⟩, ⟨hm.idle, hlt⟩, hapart, used_of_eq rfl rfl⟩
  · exact ⟨⟨hpages, h.count, h.owner⟩, ⟨hm.idle, hm.overflow⟩, hapart, used_of_eq rfl rfl⟩

theorem Owns.free (h : Owns i ob.mem mm) (hm : MemoryOk mm) :
    Moves i ob.mem (freeNodeMemory ob mm).1.mem mm (freeNodeMemory ob mm).2 := by
  obtain ⟨hpages, hapart, -, -⟩ := freeNodeMemory_spec h.pages
  have hov := (freeNodeMemory_heaps ob mm).2.2
  rcases freeNodeMemory_cases h.pages with ⟨-, he⟩ | ⟨init, f, hp, ⟨-, hmem, ho, hfree, hf⟩ | ⟨-, hmem, he⟩⟩
  · rw [he]; exact .refl h hm
  · rw [hmem] at hpages hapart ⊢
    have hinit : ∀ g ∈ init, g ∈ ob.mem.virtualPages ∧ g ≠ f := fun g hg => by
      have hnd := h.pages.nodup
      rw [hp, List.nodup_append] at hnd
      exact ⟨by simp [hp, hg], hnd.2.2 g hg f (by simp)⟩
    refine ⟨⟨hpages, ?_, fun g hg => ?_⟩, ⟨fun g => ?_, by rw [hov]; exact hm.overflow⟩, hapart, fun g hg => ?_⟩
    · have := h.count
      simp only [SymbolMemory.pageCount, hp, List.length_append, List.length_singleton] at this ⊢
      omega
    · rw [(ho g (hinit g hg).2).1]; exact h.owner g (hinit g hg).1
    · by_cases hgf : g = f
      · rw [hgf, hfree, hf]; simp
      · rw [(ho g hgf).1, (ho g hgf).2]; exact hm.idle g
    · have hgf : g ≠ f := fun hc => by rw [hc, hfree] at hg; cases hg
      rw [(ho g hgf).2] at hg
      by_cases hin : g ∈ init
      · exact .inl hin
      · refine .inr ⟨hg, fun hc => ?_⟩
        rw [hp] at hc
        rcases List.mem_append.1 hc with hc | hc
        · exact hin hc
        · exact hgf (List.mem_singleton.1 hc)
  · rw [hmem] at hpages hapart ⊢
    rw [he] at hpages hapart ⊢
    refine ⟨⟨hpages, h.count, fun g hg => ?_⟩, hm.setCount _ _, hapart, used_of_eq rfl rfl⟩
    rw [setCount_owner]; exact h.owner g hg

theorem Owns.cleanup (h : Owns i ob.mem mm) (hm : MemoryOk mm) :
    Moves i ob.mem (postTradeCleanup ob mm).1.mem mm (postTradeCleanup ob mm).2 := by
  have hov : mm.overflowCnt - 1 ≤ overflowPageSize := by have := hm.overflow; omega
  have hm' : MemoryOk { mm with overflowCnt := mm.overflowCnt - 1 } := ⟨hm.idle, hov⟩
  have h' : Owns i ob.mem { mm with overflowCnt := mm.overflowCnt - 1 } :=
    ⟨h.pages.congr fun _ _ => ⟨rfl, rfl⟩, h.count, h.owner⟩
  have := h'.free hm'
  exact ⟨this.owns, this.memory, this.apart, this.used⟩

/-- A check leaves the memory alone, whether it trades or not. -/
theorem check_mem (nb na : Nat) (ob : OrderBook) (mm : MemoryManager) :
    (checkForTradeMulti nb na ob mm).ob.mem = ob.mem ∧ (checkForTradeMulti nb na ob mm).mm = mm := by
  cases h : (checkForTradeMulti nb na ob mm).trade with
  | none => rw [(check_none h).1]; exact ⟨rfl, (check_none h).2⟩
  | some t => exact ⟨(check_spec h).2.1, (check_spec h).1⟩

theorem Owns.apply {n : Nat} (h : Owns n ob.mem mm) (hm : MemoryOk mm) (op : BookOp) :
    Moves n ob.mem (op.apply n ob mm).1.mem mm (op.apply n ob mm).2 := by
  cases op with
  | insert o => exact h.insert hm (Int.natCast_nonneg n) o
  | trade nb na =>
    obtain ⟨h1, h2⟩ := check_mem nb na ob mm
    simp only [BookOp.apply]
    rw [h1, h2]
    exact .refl h hm
  | cleanup => exact h.cleanup hm

/-! ### All books -/

namespace Exchange

variable {s : Exchange}

structure Inv (s : Exchange) : Prop where
  owns : ∀ (i : Nat) b, s.books[i]? = some b → Owns i b.mem s.mm
  memory : MemoryOk s.mm
  listed : ∀ f, s.mm.free f = false → ∃ (i : Nat) (b : OrderBook), s.books[i]? = some b ∧ f ∈ b.mem.virtualPages

theorem Inv.disjoint (h : s.Inv) {i j : Nat} {b b' : OrderBook} (hb : s.books[i]? = some b)
    (hb' : s.books[j]? = some b') (hij : i ≠ j) {f : Nat} (hf : f ∈ b.mem.virtualPages) :
    f ∉ b'.mem.virtualPages := by
  intro hf'
  have h1 := (h.owns i b hb).owner f hf
  have h2 := (h.owns j b' hb').owner f hf'
  omega

theorem Inv.set (h : s.Inv) {i : Nat} {b ob : OrderBook} {mm : MemoryManager} (hb : s.books[i]? = some b)
    (hmv : Moves i b.mem ob.mem s.mm mm) : Inv ⟨s.books.set i ob, mm⟩ := by
  obtain ⟨hlt, -⟩ := List.getElem?_eq_some_iff.1 hb
  have hget : ∀ j, (s.books.set i ob)[j]? = if j = i then some ob else s.books[j]? := by
    intro j
    by_cases hj : j = i
    · subst hj; simp [hlt]
    · rw [if_neg hj, List.getElem?_set_ne (Ne.symm hj)]
  refine ⟨fun j b' hb' => ?_, hmv.memory, fun f hf => ?_⟩
  · rw [hget] at hb'
    split at hb'
    · rename_i hj
      subst hj
      cases hb'
      exact hmv.owns
    · rename_i hj
      have hold := h.owns j b' hb'
      have hkeep : ∀ f ∈ b'.mem.virtualPages, mm.frames f = s.mm.frames f ∧ mm.free f = s.mm.free f := by
        intro f hf
        have hfree := (hold.pages.alloc f hf).2
        obtain ⟨h1, h2, -⟩ := hmv.apart f hfree (h.disjoint hb' hb hj hf)
        exact ⟨h1, by rw [h2, hfree]⟩
      exact ⟨hold.pages.congr hkeep, hold.count, fun f hf => by rw [(hkeep f hf).1]; exact hold.owner f hf⟩
  · rcases hmv.used f hf with hown | ⟨hold, hnot⟩
    · exact ⟨i, ob, by rw [hget, if_pos rfl], hown⟩
    · obtain ⟨j, b', hb', hmem⟩ := h.listed f hold
      have hj : j ≠ i := by
        rintro rfl
        rw [hb] at hb'
        cases hb'
        exact hnot hmem
      exact ⟨j, b', by rw [hget, if_neg hj]; exact hb', hmem⟩

theorem Inv.openBook (h : s.Inv) : s.openBook.Inv := by
  have hget : ∀ (j : Nat) b, s.openBook.books[j]? = some b → s.books[j]? = some b ∨ b = createOrderBook := by
    intro j b hb
    simp only [Exchange.openBook, List.getElem?_append] at hb
    split at hb
    · exact .inl hb
    · exact .inr (List.mem_singleton.1 (List.mem_of_getElem? hb))
  refine ⟨fun j b hb => ?_, h.memory, fun f hf => ?_⟩
  · rcases hget j b hb with hb | rfl
    · exact h.owns j b hb
    · refine ⟨⟨List.nodup_nil, fun f hf => ?_, Nat.zero_le _, fun _ => rfl, fun init f hp => ?_⟩,
        Nat.zero_le _, fun f hf => ?_⟩
      · cases hf
      · simp [createOrderBook] at hp
      · cases hf
  · obtain ⟨j, b, hb, hmem⟩ := h.listed f hf
    obtain ⟨hlt, -⟩ := List.getElem?_eq_some_iff.1 hb
    exact ⟨j, b, by rw [Exchange.openBook, List.getElem?_append_left hlt]; exact hb, hmem⟩

theorem Reached.inv (h : Reached s) : s.Inv := by
  induction h with
  | start =>
    refine ⟨fun i b hb => ?_, ⟨fun f => ?_, Nat.zero_le _⟩, fun f hf => ?_⟩
    · cases hb
    · simp [Exchange.start, createMemoryManager]
    · cases hf
  | openBook _ ih => exact ih.openBook
  | @onBook s _ i op ih =>
    unfold Exchange.onBook
    cases hb : s.books[i]? with
    | none => exact ih
    | some ob => exact ih.set hb ((ih.owns i ob hb).apply ih.memory op)

/-- The bitmap, the owners, the page lists and the counters agree in every state. -/
theorem frames_agree (h : Reached s) : s.FramesOk := by
  have hi := h.inv
  have hmem : ∀ b ∈ s.books, ∃ i : Nat, s.books[i]? = some b ∧ Owns i b.mem s.mm := by
    intro b hb
    obtain ⟨i, hi'⟩ := List.getElem?_of_mem hb
    exact ⟨i, hi', hi.owns i b hi'⟩
  refine ⟨fun f _ => hi.memory.idle f, fun f _ => ⟨fun hf b hb hc => ?_, fun hno => ?_⟩, fun b hb => ?_, ?_,
    fun i b hb f hf => ?_, fun b hb => ?_, hi.memory.overflow, fun b hb init f hp => ?_, fun b hb h0 => ?_⟩
  · obtain ⟨i, -, ho⟩ := hmem b hb
    rw [(ho.pages.alloc f hc).2] at hf
    cases hf
  · by_contra hf
    obtain ⟨i, b, hb, hc⟩ := hi.listed f (Bool.eq_false_iff.2 hf)
    exact hno b (List.mem_of_getElem? hb) hc
  · obtain ⟨i, -, ho⟩ := hmem b hb
    exact ho.pages.nodup
  · rw [List.pairwise_iff_getElem]
    intro i j hlt hlt' hij f hf
    exact hi.disjoint (List.getElem?_eq_getElem hlt) (List.getElem?_eq_getElem hlt') (Nat.ne_of_lt hij) hf
  · have ho := hi.owns i b hb
    exact ⟨(ho.pages.alloc f hf).1, ho.owner f hf⟩
  · obtain ⟨i, -, ho⟩ := hmem b hb
    exact ho.count
  · obtain ⟨i, -, ho⟩ := hmem b hb
    obtain ⟨h1, h2, h3⟩ := ho.pages.last init f hp
    exact ⟨h3, h1, h2, ho.pages.le⟩
  · obtain ⟨i, -, ho⟩ := hmem b hb
    exact ho.pages.empty (List.length_eq_zero_iff.1 h0)

/-- Two books, an order in each, and a cleanup of the first. -/
def twoBooks : Exchange :=
  (((start.openBook.openBook.onBook 0 (.insert ⟨5, 1, 1, true⟩)).onBook 1 (.insert ⟨5, 2, 1, false⟩)).onBook 0 .cleanup)

theorem frames_agree_twoBooks : twoBooks.FramesOk ∧ twoBooks.mm.free 0 = true ∧ twoBooks.mm.free 1 = false :=
  ⟨frames_agree (.onBook (.onBook (.onBook (.openBook (.openBook .start)) 0 _) 1 _) 0 _), by decide +kernel,
    by decide +kernel⟩

end Exchange

end HftSim.Golden
