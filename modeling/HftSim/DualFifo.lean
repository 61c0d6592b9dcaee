import HftSim.Fifo

/-!
# `dual_write_fifo` under any schedule (`hw/mmu/arbiter.sv`)

`dualWriteFifoStep_spec` needs a caller that neither overflows the queue nor reads it empty. Here the
FIFO has any `DEPTH` and the enables are driven at will: `do_wr0`, `do_wr1` and `do_read` decide what
happens, and over a run the words read and the words still queued are the words accepted, in order.
-/

namespace HftSim

open Function

/-- The inputs of `dual_write_fifo` in one cycle. -/
structure DualIn (α : Type*) where
  wr0En : Bool
  wr0Data : α
  wr1En : Bool
  wr1Data : α
  rdEn : Bool

namespace DualFifo

variable {α : Type*} (depth : Nat) (f : Ring.Ring α) (c : DualIn α)

def doWr0 : Bool := c.wr0En && decide (f.cnt < depth)

def doWr1 : Bool := c.wr1En && decide (f.cnt + (if doWr0 depth f c then 1 else 0) < depth)

def doRead : Bool := c.rdEn && decide (f.cnt ≠ 0)

def numWrites : Nat := (if doWr0 depth f c then 1 else 0) + (if doWr1 depth f c then 1 else 0)

def wrPtrP1 : Nat := if f.wr = depth - 1 then 0 else f.wr + 1

def wrPtrP2 : Nat := if f.wr = depth - 1 then 1 else if f.wr = depth - 2 then 0 else f.wr + 2

/-- One clock edge out of reset, with `DEPTH = depth`. -/
def step : Ring.Ring α where
  mem := memWrite (memWrite f.mem (doWr0 depth f c) f.wr c.wr0Data) (doWr1 depth f c)
    (if doWr0 depth f c then wrPtrP1 depth f else f.wr) c.wr1Data
  wr := if numWrites depth f c = 0 then f.wr
    else if numWrites depth f c = 1 then wrPtrP1 depth f else wrPtrP2 depth f
  rd := if doRead f c then (if f.rd = depth - 1 then 0 else f.rd + 1) else f.rd
  cnt := f.cnt + numWrites depth f c - (if doRead f c then 1 else 0)

/-- The instance of the arbiter is the one with `DEPTH = 4`. -/
theorem dualWriteFifoStep_eq_step :
    dualWriteFifoStep f c.wr0En c.wr0Data c.wr1En c.wr1Data c.rdEn = step 4 f c := rfl

/-- The writes asked for in a cycle, `wr0` before `wr1`. -/
def requested : List α := dualWrites c.wr0En c.wr0Data c.wr1En c.wr1Data

def accepted : List α := dualWrites (doWr0 depth f c) c.wr0Data (doWr1 depth f c) c.wr1Data

/-- The word on `rd_data` when the edge takes it. -/
def taken : List α := if doRead f c then [f.mem f.rd] else []

def run (f : Ring.Ring α) (cs : List (DualIn α)) : Ring.Ring α := cs.foldl (step depth) f

def acceptedAll : Ring.Ring α → List (DualIn α) → List α
  | _, [] => []
  | f, c :: cs => accepted depth f c ++ acceptedAll (step depth f c) cs

def takenAll : Ring.Ring α → List (DualIn α) → List α
  | _, [] => []
  | f, c :: cs => taken f c ++ takenAll (step depth f c) cs

variable {depth f c}

/-- `do_wr0` and `do_wr1` accept the longest prefix of the requests for which there is room. -/
theorem accepted_eq_take : accepted depth f c = (requested c).take (depth - f.cnt) := by
  rcases c with ⟨w0, x, w1, y, r⟩
  rcases Nat.lt_or_ge f.cnt depth with h | h
  · obtain ⟨n, hn⟩ : ∃ n, depth - f.cnt = n + 1 := ⟨depth - f.cnt - 1, by omega⟩
    have hlt1 : f.cnt + 1 < depth ↔ 0 < n := by omega
    rw [hn]
    -- with room for one word, `wr1` is refused exactly when `wr0` takes it
    rcases n with _ | n <;> cases w0 <;> cases w1 <;>
      simp [accepted, requested, dualWrites, doWr0, doWr1, h, hlt1]
  · have hsub : depth - f.cnt = 0 := by omega
    simp [accepted, dualWrites, doWr0, doWr1, hsub, Nat.not_lt.2 h]

theorem length_accepted : (accepted depth f c).length = numWrites depth f c := by
  unfold accepted numWrites dualWrites
  cases doWr0 depth f c <;> cases doWr1 depth f c <;> rfl

theorem cnt_add_accepted_le (h : f.WF depth) : f.cnt + (accepted depth f c).length ≤ depth := by
  have hle := h.le
  have htake : (accepted depth f c).length ≤ depth - f.cnt := by
    rw [accepted_eq_take]; exact List.length_take_le _ _
  omega

theorem wrPtrP1_eq (h : f.WF depth) : wrPtrP1 depth f = (f.wr + 1) % depth := by
  have hlt := h.wr_lt
  unfold wrPtrP1
  split
  · have hw : f.wr + 1 = depth := by omega
    rw [hw, Nat.mod_self]
  · exact (Nat.mod_eq_of_lt (by omega)).symm

/-- Both wrap cases of `wr_ptr_p2` are needed only where two words fit. -/
theorem wrPtrP2_eq (h : f.WF depth) (h2 : 2 ≤ depth) :
    wrPtrP2 depth f = ((f.wr + 1) % depth + 1) % depth := by
  have hlt := h.wr_lt
  unfold wrPtrP2
  rw [Nat.mod_add_mod]
  split
  · have hw : f.wr + 1 + 1 = 1 + depth := by omega
    rw [hw, Nat.add_mod_right, Nat.mod_eq_of_lt (by omega)]
  · split
    · have hw : f.wr + 1 + 1 = depth := by omega
      rw [hw, Nat.mod_self]
    · exact (Nat.mod_eq_of_lt (by omega)).symm

theorem rdNext_eq (h : f.WF depth) :
    (if f.rd = depth - 1 then 0 else f.rd + 1) = (f.rd + 1) % depth := by
  have hlt := h.rd_lt
  split
  · have hr : f.rd + 1 = depth := by omega
    rw [hr, Nat.mod_self]
  · exact (Nat.mod_eq_of_lt (by omega)).symm

/-- The edge stores the accepted words one after the other, then drops the word it hands out. -/
theorem step_eq (h : f.WF depth) :
    step depth f c =
      let g := (accepted depth f c).foldl (Ring.Ring.push depth) f
      if doRead f c then g.pop depth else g := by
  have hroom := cnt_add_accepted_le (c := c) h
  rw [length_accepted] at hroom
  have hp2 : doWr0 depth f c = true → doWr1 depth f c = true →
      wrPtrP2 depth f = ((f.wr + 1) % depth + 1) % depth := by
    intro h0 h1
    have hnum : numWrites depth f c = 2 := by simp [numWrites, h0, h1]
    exact wrPtrP2_eq h (by omega)
  simp only [step, wrPtrP1_eq h, rdNext_eq h, accepted, numWrites, dualWrites]
  cases h0 : doWr0 depth f c <;> cases h1 : doWr1 depth f c <;> cases hr : doRead f c <;>
    simp_all [memWrite_eq, Ring.Ring.push, Ring.Ring.pop]

/-! ### Against a bounded list -/

/-- What the edge means for the queue `q`: the oldest word leaves if one is asked for, and the
requests that fit beside `q` as it was enter. -/
def queueStep (depth : Nat) (q : List α) (c : DualIn α) : List α :=
  q.drop (if c.rdEn then 1 else 0) ++ (requested c).take (depth - q.length)

theorem step_spec (h : f.WF depth) :
    (step depth f c).WF depth ∧
      (step depth f c).toList depth = queueStep depth (f.toList depth) c := by
  obtain ⟨hg, hl, hcnt⟩ := foldl_push_spec h (cnt_add_accepted_le (c := c) h)
  have hq : queueStep depth (f.toList depth) c =
      (f.toList depth).drop (if c.rdEn then 1 else 0) ++ accepted depth f c := by
    rw [queueStep, accepted_eq_take, Ring.Ring.length_toList]
  rw [step_eq h, hq]
  by_cases hr : doRead f c = true
  · obtain ⟨hen, h0⟩ : c.rdEn = true ∧ f.cnt ≠ 0 := by simpa [doRead] using hr
    have hpos : 0 < ((accepted depth f c).foldl (Ring.Ring.push depth) f).cnt := by omega
    simp only [hr, if_true]
    refine ⟨hg.pop hpos, ?_⟩
    rw [toList_pop_eq_drop hg hpos, hl, hen, if_pos rfl,
      List.drop_append_of_le_length (by rw [Ring.Ring.length_toList]; omega)]
  · rw [if_neg hr]
    refine ⟨hg, ?_⟩
    rw [hl]
    congr 1
    -- nothing is read: not asked for, or the queue is empty
    by_cases hen : c.rdEn = true
    · have h0 : f.cnt = 0 := by simpa [doRead, hen] using hr
      rw [Ring.Ring.toList_eq_nil.2 h0, List.drop_nil]
    · simp [hen]

theorem step_conserves (h : f.WF depth) :
    taken f c ++ (step depth f c).toList depth = f.toList depth ++ accepted depth f c := by
  rw [(step_spec h).2, queueStep, accepted_eq_take, Ring.Ring.length_toList, ← List.append_assoc]
  congr 1
  by_cases h0 : f.cnt = 0
  · simp [taken, doRead, h0, Ring.Ring.toList_eq_nil.2 h0]
  · rw [Ring.Ring.toList_cons h (Nat.pos_of_ne_zero h0)]
    by_cases hen : c.rdEn = true <;> simp [taken, doRead, h0, hen]

variable (depth f) in
theorem run_cons (c : DualIn α) (cs : List (DualIn α)) :
    run depth f (c :: cs) = run depth (step depth f c) cs := rfl

theorem run_conserves (h : f.WF depth) (cs : List (DualIn α)) :
    (run depth f cs).WF depth ∧
      takenAll depth f cs ++ (run depth f cs).toList depth =
        f.toList depth ++ acceptedAll depth f cs := by
  induction cs generalizing f with
  | nil => exact ⟨h, by simp [takenAll, acceptedAll, run]⟩
  | cons c cs ih =>
    obtain ⟨hwf, hall⟩ := ih (step_spec (c := c) h).1
    refine ⟨hwf, ?_⟩
    rw [takenAll, acceptedAll, run_cons, List.append_assoc, hall, ← List.append_assoc,
      step_conserves h, List.append_assoc]

end DualFifo

/-- From reset, whatever the memory holds and under any schedule: the words read, followed by the
words queued, are the accepted words in order; the next cycle accepts the longest prefix of its
requests that fits beside the `count` words there; and `count` is the number of words not yet read. -/
theorem dualWriteFifo_boundedQueue {α : Type*} (depth : Nat) (hd : 0 < depth) (f : Ring.Ring α)
    (cs : List (DualIn α)) :
    let s := DualFifo.run depth (fifoReset f) cs
    DualFifo.acceptedAll depth (fifoReset f) cs =
        DualFifo.takenAll depth (fifoReset f) cs ++ s.toList depth ∧
      (DualFifo.takenAll depth (fifoReset f) cs).length + s.cnt =
        (DualFifo.acceptedAll depth (fifoReset f) cs).length ∧
      s.cnt ≤ depth ∧
      ∀ c, DualFifo.accepted depth s c = (DualFifo.requested c).take (depth - s.cnt) := by
  intro s
  obtain ⟨hwf, hall⟩ := DualFifo.run_conserves (fifoReset_wf (f := f) hd) cs
  have hconserve : DualFifo.acceptedAll depth (fifoReset f) cs =
      DualFifo.takenAll depth (fifoReset f) cs ++ s.toList depth := by
    rw [hall, fifoReset_toList, List.nil_append]
  refine ⟨hconserve, ?_, hwf.le, fun c => DualFifo.accepted_eq_take⟩
  rw [hconserve, List.length_append, Ring.Ring.length_toList]

/-- Two writes a cycle into three cells: the second cycle has room for `wr0` only, the read of the
third makes room for the fourth, whose word wraps around. -/
def crowdedWrites : List (DualIn Nat) :=
  [⟨true, 1, true, 2, false⟩, ⟨true, 3, true, 4, false⟩, ⟨true, 5, false, 6, true⟩,
    ⟨false, 7, true, 8, true⟩]

theorem dualWriteFifo_crowdedWrites :
    let f : Ring.Ring Nat := ⟨fun _ => 0, 0, 0, 0⟩
    (DualFifo.takenAll 3 (fifoReset f) crowdedWrites = [1, 2] ∧
      DualFifo.acceptedAll 3 (fifoReset f) crowdedWrites = [1, 2, 3, 8]) ∧
    (DualFifo.takenAll 3 (fifoReset f) crowdedWrites).length +
        (DualFifo.run 3 (fifoReset f) crowdedWrites).cnt =
      (DualFifo.acceptedAll 3 (fifoReset f) crowdedWrites).length :=
  ⟨by decide, (dualWriteFifo_boundedQueue 3 (by decide) _ crowdedWrites).2.1⟩

end HftSim
