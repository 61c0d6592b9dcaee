import HftSim.Golden.Balance

/-!
# The result files of the golden model (`check_for_trade_multi` in `sw_sim/mmu.h`)

Every check opens `results.txt`. The three trades and the check of two sides that do not cross close it
again; the return for a book with an empty side does not. `openFiles` counts the streams that are left
open, and once `lim` of them are, `fopen` fails and the run ends with `exit(1)`.
-/

namespace HftSim.Golden

def OrderBook.OneSided (ob : OrderBook) : Prop := ob.asks.size = 0 ∨ ob.bids.size = 0

instance (ob : OrderBook) : Decidable ob.OneSided := inferInstanceAs (Decidable (_ ∨ _))

namespace Desk

/-- The `while` loop with a limit on open streams; `none` is `exit(1)`. -/
def loopFiles (lim : Nat) (now : Nat → Nat) : Nat → Nat → Desk → Option Desk
  | 0, _, d => some d
  | fuel + 1, j, d =>
    if lim ≤ d.openFiles then none
    else
      match d.round now j with
      | none => some (d.last now j)
      | some d' => loopFiles lim now fuel (j + 1) d'

def submitFiles (lim : Nat) (d : Desk) (o : Order) (symId : Int) (now : Nat → Nat) : Option Desk :=
  let r := memAwareInsert d.ob d.mm o symId
  let d' : Desk := { d with ob := r.2.1, mm := r.2.2 }
  if r.1 then d'.loopFiles lim now (d'.ob.asks.size + d'.ob.bids.size + 1) 0 else some d'

end Desk

namespace Sim

variable {σ : Type*} [DecidableEq σ]

/-- `Sim.submit` with a limit on open streams. -/
def submitFiles (lim : Nat) (s : Sim σ) (sub : Submission σ) : Option (Sim σ) :=
  let books := findOrCreateBook s.books sub.symbol
  let i := symId books sub.symbol
  match books[i]? with
  | none => some s
  | some (_, ob) =>
    (Desk.submitFiles lim ⟨ob, s.mm, [], s.openFiles⟩ sub.order i sub.now).map fun d =>
      ⟨books.set i (sub.symbol, d.ob), d.mm, s.log ++ d.log.map (sub.symbol, ·), d.openFiles⟩

def runFiles (lim : Nat) (subs : List (Submission σ)) : Option (Sim σ) := subs.foldlM (submitFiles lim) start

end Sim

/-! ### One check -/

variable {ob : OrderBook} {mm : MemoryManager} {nb na : Nat}

theorem closed_of_trade {t : Trade} (h : (checkForTradeMulti nb na ob mm).trade = some t) :
    (checkForTradeMulti nb na ob mm).closed = true := by
  unfold checkForTradeMulti at h ⊢
  dsimp only at h ⊢
  split
  · rename_i h0
    rw [if_pos h0] at h
    cases h
  · split
    · split
      · rfl
      · split <;> rfl
    · rfl

theorem closed_of_none (h : (checkForTradeMulti nb na ob mm).trade = none) :
    (checkForTradeMulti nb na ob mm).closed = !decide ob.OneSided := by
  unfold checkForTradeMulti at h ⊢
  dsimp only at h ⊢
  split
  · rename_i h0
    simp [OrderBook.OneSided, h0]
  · rename_i h0
    rw [if_neg h0] at h
    have hno : ¬ ob.OneSided := h0
    split
    · rename_i hcross
      rw [if_pos hcross] at h
      split at h <;> [cases h; split at h <;> cases h]
    · simp [hno]

theorem check_of_oneSided (h : ob.OneSided) : checkForTradeMulti nb na ob mm = ⟨none, ob, mm, false⟩ := if_pos h

namespace Desk

variable {lim fuel j : Nat} {now : Nat → Nat} {d d' : Desk} {o : Order} {symId : Int}

/-! ### One order -/

/-- A round closes what it opens, and takes an order out. -/
theorem round_files (h : d.round now j = some d') : d'.openFiles = d.openFiles ∧ d'.ob.held < d.ob.held := by
  simp only [round, Option.map_eq_some_iff] at h
  obtain ⟨t, ht, rfl⟩ := h
  obtain ⟨-, -, -, -, hheld⟩ := check_spec ht
  have hcleanup : ∀ ob mm, (postTradeCleanup ob mm).1.held = ob.held := by
    intro ob mm
    unfold postTradeCleanup OrderBook.held
    rw [(freeNodeMemory_heaps _ _).1, (freeNodeMemory_heaps _ _).2.1]
  refine ⟨by simp [closed_of_trade ht], ?_⟩
  show (postTradeCleanup _ _).1.held < _
  rw [hcleanup]
  show (checkForTradeMulti _ _ d.ob d.mm).ob.held < _
  rw [hheld]
  split <;> omega

theorem last_files (h : d.round now j = none) :
    (d.last now j).openFiles = d.openFiles + (if (d.last now j).ob.OneSided then 1 else 0) := by
  have hnone := Option.map_eq_none_iff.1 h
  rw [(round_eq_none h).1]
  show d.openFiles + _ = _
  rw [closed_of_none hnone]
  by_cases hs : d.ob.OneSided <;> simp [hs]

/-- Of all the checks of the loop only the last can leave its stream open. -/
theorem loop_files (hf : d.ob.held < fuel) :
    (d.loop now fuel j).openFiles = d.openFiles + (if (d.loop now fuel j).ob.OneSided then 1 else 0) := by
  induction fuel generalizing j d with
  | zero =>
    unfold OrderBook.held at hf
    omega
  | succ fuel ih =>
    cases hr : d.round now j with
    | none =>
      have hloop : d.loop now (fuel + 1) j = d.last now j := by simp only [loop, hr]
      rw [hloop]
      exact last_files hr
    | some d' =>
      have hloop : d.loop now (fuel + 1) j = d'.loop now fuel (j + 1) := by simp only [loop, hr]
      obtain ⟨hopen, hheld⟩ := round_files hr
      rw [hloop, ← hopen]
      exact ih (by omega)

/-- So the loop ends with `exit(1)` at once or not at all. -/
theorem loopFiles_eq (hf : d.ob.held < fuel) :
    d.loopFiles lim now fuel j = if lim ≤ d.openFiles then none else some (d.loop now fuel j) := by
  induction fuel generalizing j d with
  | zero =>
    unfold OrderBook.held at hf
    omega
  | succ fuel ih =>
    simp only [loopFiles, loop]
    split
    · rfl
    · rename_i hlim
      cases hr : d.round now j with
      | none => rfl
      | some d' =>
        obtain ⟨hopen, hheld⟩ := round_files hr
        dsimp only
        rw [ih (by omega), hopen, if_neg hlim]

def stores (d : Desk) (o : Order) (symId : Int) : Bool := (memAwareInsert d.ob d.mm o symId).1

theorem submitFiles_eq : d.submitFiles lim o symId now =
    if d.stores o symId = true ∧ lim ≤ d.openFiles then none else some (d.submit o symId now) := by
  unfold submitFiles submit stores
  dsimp only
  by_cases hs : (memAwareInsert d.ob d.mm o symId).1 = true
  · rw [if_pos hs, if_pos hs, loopFiles_eq (by unfold OrderBook.held; push_cast; omega)]
    simp [hs]
  · rw [if_neg hs, if_neg hs, if_neg fun h => hs h.1]

/-- An order leaves a stream open exactly when it is stored and its book ends up with an empty side. -/
theorem submit_files : (d.submit o symId now).openFiles = d.openFiles +
    (if d.stores o symId = true ∧ (d.submit o symId now).ob.OneSided then 1 else 0) := by
  unfold submit stores
  dsimp only
  by_cases hs : (memAwareInsert d.ob d.mm o symId).1 = true
  · rw [if_pos hs, loop_files (by unfold OrderBook.held; push_cast; omega)]
    simp [hs]
  · rw [if_neg hs]
    simp [hs]

/-- A check of a book with an empty side changes nothing. -/
theorem loop_of_oneSided (h : d.ob.OneSided) : (d.loop now (fuel + 1) j).ob = d.ob := by
  have hr : d.round now j = none := by
    rw [round, check_of_oneSided h]
    rfl
  simp only [loop, hr]
  exact (round_eq_none hr).1

end Desk

/-! ### The first order -/

/-- It is stored in frame 0, and there is nothing on the other side. -/
theorem memAwareInsert_create (o : Order) (symId : Int) :
    (memAwareInsert createOrderBook createMemoryManager o symId).1 = true ∧
      (memAwareInsert createOrderBook createMemoryManager o symId).2.1.OneSided := by
  have hframe : (List.range maxPages).find? createMemoryManager.free = some 0 := by decide
  have hins : memAwareInsert createOrderBook createMemoryManager o symId =
      insertElsewhere createOrderBook createMemoryManager o symId := if_neg (by decide)
  have hpage : createOrderBook.mem.pageCount < maxPagesPerSymbol := by decide
  rw [hins, insertElsewhere, if_pos hpage, allocateFrame, hframe]
  refine ⟨rfl, ?_⟩
  show (pushOrder _ o).OneSided
  unfold pushOrder
  split
  · exact .inr rfl
  · exact .inl rfl

theorem Desk.submitFiles_create {lim : Nat} {o : Order} {symId : Int} {now : Nat → Nat} {d : Desk}
    (h : submitFiles lim ⟨createOrderBook, createMemoryManager, [], 0⟩ o symId now = some d) :
    d.openFiles = 1 := by
  obtain ⟨hstored, hside⟩ := memAwareInsert_create o symId
  rw [submitFiles_eq] at h
  split at h
  · cases h
  · obtain rfl := Option.some.inj h
    have hob : (submit ⟨createOrderBook, createMemoryManager, [], 0⟩ o symId now).ob =
        (memAwareInsert createOrderBook createMemoryManager o symId).2.1 := by
      unfold submit
      dsimp only
      rw [if_pos hstored]
      exact loop_of_oneSided hside
    rw [submit_files, hob, if_pos ⟨hstored, hside⟩]

namespace Sim

variable {σ : Type*} [DecidableEq σ]

theorem submitFiles_start {lim : Nat} {sub : Submission σ} {s : Sim σ}
    (h : submitFiles lim start sub = some s) : s.openFiles = 1 := by
  have hbooks : findOrCreateBook (start : Sim σ).books sub.symbol = [(sub.symbol, createOrderBook)] := rfl
  have hid : symId [(sub.symbol, createOrderBook)] sub.symbol = 0 := by simp [symId]
  unfold submitFiles at h
  dsimp only at h
  rw [hbooks, hid] at h
  obtain ⟨d, hd, rfl⟩ := Option.map_eq_some_iff.1 h
  exact Desk.submitFiles_create hd

theorem openFiles_le_submitFiles {lim : Nat} {s s' : Sim σ} {sub : Submission σ}
    (h : submitFiles lim s sub = some s') : s.openFiles ≤ s'.openFiles := by
  unfold submitFiles at h
  dsimp only at h
  split at h
  · obtain rfl := Option.some.inj h
    exact Nat.le_refl _
  · obtain ⟨d, hd, rfl⟩ := Option.map_eq_some_iff.1 h
    rw [Desk.submitFiles_eq] at hd
    split at hd
    · cases hd
    · obtain rfl := Option.some.inj hd
      rw [Desk.submit_files]
      exact Nat.le_add_right _ _

theorem openFiles_le_foldlM {lim : Nat} {s s' : Sim σ} {subs : List (Submission σ)}
    (h : subs.foldlM (submitFiles lim) s = some s') : s.openFiles ≤ s'.openFiles := by
  induction subs generalizing s with
  | nil =>
    obtain rfl : s = s' := by simpa using h
    exact Nat.le_refl _
  | cons sub subs ih =>
    rw [List.foldlM_cons] at h
    obtain ⟨s₁, hs₁, hrest⟩ := Option.bind_eq_some_iff.1 h
    exact (openFiles_le_submitFiles hs₁).trans (ih hrest)

/-- The orders have been processed, no stream could not be opened, and all are closed. -/
def FilesClosed (lim : Nat) (subs : List (Submission σ)) : Prop :=
  ∃ s, runFiles lim subs = some s ∧ s.openFiles = 0

/-- That is so only before the first order. -/
theorem filesClosed_iff (lim : Nat) (subs : List (Submission σ)) : FilesClosed lim subs ↔ subs = [] := by
  constructor
  · rintro ⟨s, hs, hopen⟩
    cases subs with
    | nil => rfl
    | cons sub subs =>
      rw [runFiles, List.foldlM_cons] at hs
      obtain ⟨s₁, hs₁, hrest⟩ := Option.bind_eq_some_iff.1 hs
      have hone := submitFiles_start hs₁
      have hle := openFiles_le_foldlM hrest
      omega
  · rintro rfl
    exact ⟨start, rfl, rfl⟩

def bidsOnly : List (Submission Nat) :=
  [⟨0, ⟨5, 1, 1, false⟩, fun _ => 0⟩, ⟨0, ⟨6, 2, 1, false⟩, fun _ => 0⟩, ⟨0, ⟨4, 3, 1, false⟩, fun _ => 0⟩]

/-- The first one leaves a stream open, and with room for two the third ends the run. -/
theorem bidsOnly_leaks : ¬ FilesClosed 2 (bidsOnly.take 1) ∧
    (runFiles 2 (bidsOnly.take 1)).map Sim.openFiles = some 1 ∧ (runFiles 2 bidsOnly).isNone = true := by
  have hone : (runFiles 2 (bidsOnly.take 1)).map Sim.openFiles = some 1 := by decide +kernel
  refine ⟨?_, hone, by decide +kernel⟩
  rintro ⟨s, hs, hopen⟩
  rw [hs] at hone
  simp [hopen] at hone

end Sim

end HftSim.Golden
