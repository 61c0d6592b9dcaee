import HftSim.Lib.Ring

/-!
# The FIFOs of the MMU (`fifo` in `hw/mmu/mmu.sv`, `dual_write_fifo` and `tracking_fifo` in
`hw/mmu/arbiter.sv`)

Each is a `Ring`; the lemmas say what one clock edge does to the queue when the caller neither
writes beyond the depth nor reads an empty queue.
-/

namespace HftSim

open Function

variable {α : Type*} (f : Ring.Ring α)

/-- A write port of a FIFO memory. -/
def memWrite (mem : Nat → α) (en : Bool) (addr : Nat) (data : α) : Nat → α := fun a =>
  if en && decide (a = addr) then data else mem a

theorem memWrite_eq (mem : Nat → α) (en : Bool) (addr : Nat) (data : α) :
    memWrite mem en addr data = if en then update mem addr data else mem := by
  funext a
  cases en with
  | false => rfl
  | true => simp [memWrite, update_apply]

/-- `fifo`: eight entries. -/
def fifoStep (wrEn : Bool) (wrData : α) (rdEn : Bool) : Ring.Ring α :=
  let doWrite := wrEn && decide (f.cnt ≠ 8)
  let doRead := rdEn && decide (f.cnt ≠ 0)
  { mem := memWrite f.mem doWrite f.wr wrData
    wr := if doWrite then (f.wr + 1) % 8 else f.wr
    rd := if doRead then (f.rd + 1) % 8 else f.rd
    cnt := if doWrite && !doRead then f.cnt + 1 else if !doWrite && doRead then f.cnt - 1 else f.cnt }

/-- `dual_write_fifo` with `DEPTH = 4`. -/
def dualWriteFifoStep (wr0En : Bool) (wr0Data : α) (wr1En : Bool) (wr1Data : α) (rdEn : Bool) :
    Ring.Ring α :=
  let doWr0 := wr0En && decide (f.cnt < 4)
  let doWr1 := wr1En && decide (f.cnt + (if doWr0 then 1 else 0) < 4)
  let doRead := rdEn && decide (f.cnt ≠ 0)
  let wrPtrP1 := if f.wr = 3 then 0 else f.wr + 1
  let wrPtrP2 := if f.wr = 3 then 1 else if f.wr = 2 then 0 else f.wr + 2
  let numWrites := (if doWr0 then 1 else 0) + (if doWr1 then 1 else 0)
  { mem := memWrite (memWrite f.mem doWr0 f.wr wr0Data) doWr1 (if doWr0 then wrPtrP1 else f.wr) wr1Data
    wr := if numWrites = 0 then f.wr else if numWrites = 1 then wrPtrP1 else wrPtrP2
    rd := if doRead then (if f.rd = 3 then 0 else f.rd + 1) else f.rd
    cnt := f.cnt + numWrites - (if doRead then 1 else 0) }

/-- `tracking_fifo` with `DEPTH = 8`. -/
def trackingFifoStep (push : Bool) (din : α) (pop : Bool) : Ring.Ring α :=
  let doPush := push && decide (f.cnt ≠ 8)
  let doPop := pop && decide (f.cnt ≠ 0)
  { mem := memWrite f.mem doPush f.wr din
    wr := if doPush then (if f.wr = 7 then 0 else f.wr + 1) else f.wr
    rd := if doPop then (if f.rd = 7 then 0 else f.rd + 1) else f.rd
    cnt := if doPush && !doPop then f.cnt + 1 else if !doPush && doPop then f.cnt - 1 else f.cnt }

/-- Pointers and count after reset; the memory has none. -/
def fifoReset : Ring.Ring α := { f with wr := 0, rd := 0, cnt := 0 }

variable {f : Ring.Ring α}

theorem fifoReset_wf {d : Nat} (hd : 0 < d) : (fifoReset f).WF d :=
  ⟨hd, hd, Nat.zero_le _, by simp [fifoReset]⟩

theorem fifoReset_toList {d : Nat} : (fifoReset f).toList d = [] := by simp [Ring.Ring.toList, fifoReset]

/-- A queue with `xs` written behind it and, if `rd`, its oldest element taken. -/
def afterEdge (l xs : List α) (rd : Bool) : List α := l.drop (if rd then 1 else 0) ++ xs

theorem toList_pop_eq_drop {d : Nat} (h : f.WF d) (h0 : 0 < f.cnt) :
    (f.pop d).toList d = (f.toList d).drop 1 := by
  rw [Ring.Ring.toList_cons h h0]; rfl

theorem fifoStep_spec {wrEn rdEn : Bool} {x : α} (h : f.WF 8) (hwr : wrEn = true → f.cnt < 8)
    (hrd : rdEn = true → 0 < f.cnt) :
    (fifoStep f wrEn x rdEn).WF 8 ∧
      (fifoStep f wrEn x rdEn).toList 8 = afterEdge (f.toList 8) (if wrEn then [x] else []) rdEn := by
  have hle := h.le
  cases wrEn <;> cases rdEn
  · exact ⟨h, by simp [fifoStep, memWrite_eq, afterEdge, Ring.Ring.toList]⟩
  · have h0 := hrd rfl
    have hs : fifoStep f false x true = f.pop 8 := by
      simp [fifoStep, memWrite_eq, Ring.Ring.pop, Nat.ne_of_gt h0]
    rw [hs]
    exact ⟨h.pop h0, by simp [toList_pop_eq_drop h h0, afterEdge]⟩
  · have h8 := hwr rfl
    have hs : fifoStep f true x false = f.push 8 x := by
      simp [fifoStep, memWrite_eq, Ring.Ring.push, Nat.ne_of_lt h8]
    rw [hs]
    exact ⟨h.push h8, by simp [Ring.Ring.toList_push h h8, afterEdge]⟩
  · have h8 := hwr rfl
    have h0 := hrd rfl
    have hs : fifoStep f true x true = (f.push 8 x).pop 8 := by
      simp [fifoStep, memWrite_eq, Ring.Ring.push, Ring.Ring.pop, Nat.ne_of_lt h8, Nat.ne_of_gt h0]
    have hp := h.push (x := x) h8
    have hpos : 0 < (f.push 8 x).cnt := Nat.succ_pos _
    rw [hs]
    refine ⟨hp.pop hpos, ?_⟩
    rw [toList_pop_eq_drop hp hpos, Ring.Ring.toList_push h h8]
    simp only [afterEdge, if_true]
    rw [List.drop_append_of_le_length (by rw [Ring.Ring.length_toList]; exact h0)]

theorem trackingFifoStep_eq {push pop : Bool} {x : α} (h : f.WF 8) :
    trackingFifoStep f push x pop = fifoStep f push x pop := by
  have h1 := h.wr_lt
  have h2 := h.rd_lt
  simp only [trackingFifoStep, fifoStep]
  congr 1
  · split
    · split <;> omega
    · rfl
  · split
    · split <;> omega
    · rfl

/-- The writes of one edge of `dual_write_fifo`, in queue order. -/
def dualWrites (wr0En : Bool) (x : α) (wr1En : Bool) (y : α) : List α :=
  (if wr0En then [x] else []) ++ (if wr1En then [y] else [])

/-- Without overflow the edge writes the enabled ports one after the other, then reads. -/
theorem dualWriteFifoStep_eq {wr0En wr1En rdEn : Bool} {x y : α} (h : f.WF 4)
    (hwr : f.cnt + (dualWrites wr0En x wr1En y).length ≤ 4) (hrd : rdEn = true → 0 < f.cnt) :
    dualWriteFifoStep f wr0En x wr1En y rdEn =
      let g := (dualWrites wr0En x wr1En y).foldl (Ring.Ring.push 4) f
      if rdEn then g.pop 4 else g := by
  have h1 := h.wr_lt
  have h2 := h.rd_lt
  have hp1 : (if f.wr = 3 then 0 else f.wr + 1) = (f.wr + 1) % 4 := by split <;> omega
  have hp2 : (if f.wr = 3 then 1 else if f.wr = 2 then 0 else f.wr + 2) = ((f.wr + 1) % 4 + 1) % 4 := by
    split
    · omega
    · split <;> omega
  have hr1 : (if f.rd = 3 then 0 else f.rd + 1) = (f.rd + 1) % 4 := by split <;> omega
  have hrd' : rdEn = true → f.cnt ≠ 0 := fun h => Nat.ne_of_gt (hrd h)
  simp only [dualWriteFifoStep, hp1, hp2, hr1]
  have hlt : (dualWrites wr0En x wr1En y).length ≠ 0 → f.cnt < 4 := fun h => by omega
  have hlt2 : (dualWrites wr0En x wr1En y).length = 2 → f.cnt + 1 < 4 := fun h => by omega
  clear hp1 hp2 hr1 hwr h1 h2
  cases wr0En <;> cases wr1En <;> simp [dualWrites] at hlt hlt2 <;> cases rdEn <;>
    simp_all [dualWrites, memWrite_eq, Ring.Ring.push, Ring.Ring.pop]

theorem foldl_push_spec {d : Nat} {xs : List α} (h : f.WF d) (hle : f.cnt + xs.length ≤ d) :
    (xs.foldl (Ring.Ring.push d) f).WF d ∧
      (xs.foldl (Ring.Ring.push d) f).toList d = f.toList d ++ xs ∧
      f.cnt ≤ (xs.foldl (Ring.Ring.push d) f).cnt := by
  induction xs generalizing f with
  | nil => exact ⟨h, by simp, Nat.le_refl _⟩
  | cons x xs ih =>
    simp only [List.length_cons] at hle
    have hlt : f.cnt < d := by omega
    have hcnt : (f.push d x).cnt = f.cnt + 1 := rfl
    obtain ⟨h1, h2, h3⟩ := ih (h.push (x := x) hlt) (by rw [hcnt]; omega)
    refine ⟨h1, ?_, by simp only [List.foldl_cons]; omega⟩
    rw [List.foldl_cons, h2, Ring.Ring.toList_push h hlt]; simp

theorem dualWriteFifoStep_spec {p q rdEn : Bool} {x y : α} (h : f.WF 4)
    (hwr : f.cnt + (dualWrites p x q y).length ≤ 4) (hrd : rdEn = true → 0 < f.cnt) :
    (dualWriteFifoStep f p x q y rdEn).WF 4 ∧
      (dualWriteFifoStep f p x q y rdEn).toList 4 =
        afterEdge (f.toList 4) (dualWrites p x q y) rdEn := by
  obtain ⟨hg, hl, hcnt⟩ := foldl_push_spec h hwr
  rw [dualWriteFifoStep_eq h hwr hrd]
  cases rdEn with
  | false => exact ⟨hg, by simp [hl, afterEdge]⟩
  | true =>
    have h0 := hrd rfl
    have hpos : 0 < ((dualWrites p x q y).foldl (Ring.Ring.push 4) f).cnt := by omega
    refine ⟨hg.pop hpos, ?_⟩
    simp only [if_true]
    rw [toList_pop_eq_drop hg hpos, hl, afterEdge, if_pos rfl,
      List.drop_append_of_le_length (by rw [Ring.Ring.length_toList]; exact h0)]

end HftSim
