import HftSim.EngineCommands
import HftSim.EngineRefines
import Mathlib.Data.Prod.Lex

/-!
# An engine at work comes nearer to `T_IDLE`

`SymbolEngine.work` bounds what an engine has left to do for the order it has taken: the orders its heaps
hold once their commands are done and the trade in progress has been handed over, the way of the controller
to the end of the round, and the way of the heap at work to the end of its command. Every cycle lowers it,
unless the heap waits for the MMU or the controller for the log (`Inv.work_step`); it only goes up when the
MMU turns down the write of a new leaf.
-/

namespace HftSim

open Function BinHeap

/-- The size of a heap of `n` nodes after the command. -/
def Op.sizeFrom (n : Nat) : Op → Nat
  | .push => n + 1
  | .pop => n - 1
  | .peek | .update => n

namespace HeapFsm

variable {cfg : HeapCfg} {h : HeapFsm} {i : HeapIn}

/-- The size of the heap when the command in progress is done. -/
def sizeAfter (h : HeapFsm) : Nat :=
  match h.state with
  | .pushLaunch | .pushRdParentIssue | .pushRdParentWait | .pushDecide | .pushWrDownIssue | .pushWrDownWait
  | .pushWrFinalIssue | .pushWrFinalWait => h.size + 1
  | .popLaunch | .popRdRootIssue | .popRdRootWait | .popRdLastIssue | .popRdLastWait => h.size - 1
  | _ => h.size

theorem sizeAfter_idle (hst : h.state = .idle) : h.sizeAfter = h.size := by simp only [sizeAfter, hst]

theorem sizeAfter_done (hst : h.state = .done) : h.sizeAfter = h.size := by simp only [sizeAfter, hst]

theorem sizeAfter_step (hi : h.Indexed cfg) (hcap : h.size ≤ 1024) (hst : h.state ≠ .idle) (i : HeapIn) :
    (h.step cfg i).sizeAfter = h.sizeAfter := by
  have htake := fun h0 => h.takeLast_indices h0 hcap
  cases hs : h.state <;> first | exact absurd hs hst | skip
  all_goals
    simp only [Indexed, hs] at hi
    simp only [sizeAfter, step, nState, regs, issueTo, descendTo, hs]
    try split_ifs
  all_goals simp_all
  all_goals omega

/-- An idle heap takes the command on its bus. -/
theorem sizeAfter_start (hst : h.state = .idle) (hv : i.cmdValid = true) :
    (h.step cfg i).sizeAfter = i.cmdOp.sizeFrom h.size := by
  cases hop : i.cmdOp <;> simp only [sizeAfter, Op.sizeFrom, step, nState, regs, hst, hv, hop, if_true] <;> split_ifs <;> rfl

theorem step_of_no_cmd (hst : h.state = .idle) (hv : i.cmdValid = false) :
    (h.step cfg i).state = .idle ∧ (h.step cfg i).size = h.size := by
  simp [step, nState, regs, hst, hv]

/-- The command of a heap at work goes on, but for a wait that is not answered or is turned down. -/
theorem Indexed.rank_step (hi : h.Indexed cfg) (hcap : h.size ≤ 1024) (h1 : h.state ≠ .idle) (h2 : h.state ≠ .done)
    (i : HeapIn) : (h.step cfg i).rank < h.rank ∨
      h.stalled i = true ∧ ((h.step cfg i).rank ≤ h.rank ∨ h.state.waits = true ∧ i.virtRespReject = true) := by
  have hadv := hi.advances hcap h1 h2
  cases hs : h.stalled i with
  | false => exact .inl ((hadv i).rank_lt hs)
  | true =>
    refine .inr ⟨rfl, ?_⟩
    cases hw : h.state.waits with
    | false =>
      rw [step_unanswered hw]
      exact .inl ((hadv i.unanswered).rank_le rfl)
    | true =>
      cases hr : i.virtRespReject with
      | false => exact .inl ((hadv i).rank_le hr)
      | true => exact .inr ⟨rfl, rfl⟩

/-- A `PUSH` writes to the leaf it adds, which is in virtual memory. -/
structure AtLeaf (h : HeapFsm) : Prop where
  state : h.state = .pushWrDownIssue ∨ h.state = .pushWrDownWait ∨ h.state = .pushWrFinalIssue ∨
    h.state = .pushWrFinalWait
  target : h.targetIdx = h.size
  virt : privateNodes ≤ h.size

end HeapFsm

namespace HeapView

variable {cfg : HeapCfg} {v : HeapView} {m : Multiset Node} {idx : Nat} {x : Node}

theorem Phase.indexed (h : v.Phase cfg m) : v.fsm.Indexed cfg ∧ v.fsm.size ≤ 1024 := by
  unfold Phase at h
  unfold HeapFsm.Indexed
  cases hst : v.fsm.state <;> simp only [hst] at h ⊢
  case popLaunch =>
    split at h
    · exact ⟨trivial, h.cap⟩
    · exact ⟨trivial, h.rest.cap⟩
  case popSiftWrUpIssue => exact ⟨⟨h.1.cap, h.1.lt, h.1.left, h.1.right, h.2.2.2⟩, Nat.le_of_lt h.1.cap⟩
  case popSiftWrUpWait => exact ⟨⟨h.1.cap, h.1.lt, h.1.left, h.1.right, h.2.2.2⟩, Nat.le_of_lt h.1.cap⟩
  case pushLaunch => exact ⟨⟨h.2.2, h.1.par⟩, h.1.cap⟩
  case popRdLastIssue => exact ⟨h.2, h.1.rest.cap⟩
  case popRdLastWait => exact ⟨h.2.1, h.1.rest.cap⟩
  case idle | done => exact ⟨trivial, h.cap⟩
  case pushWrFinalIssue | pushWrFinalWait => exact ⟨trivial, h.1.cap⟩
  case popSiftWrFinalIssue | popSiftWrFinalWait => exact ⟨trivial, Nat.le_of_lt h.1.cap⟩
  case peekRdIssue | peekRdWait | updateWrIssue | updateWrWait => exact ⟨trivial, h.1.cap⟩
  case popSiftRdLeftIssue => exact ⟨⟨h.1.cap, h.1.lt, h.1.left, h.1.right⟩, Nat.le_of_lt h.1.cap⟩
  case popSiftRdLeftWait => exact ⟨⟨h.1.cap, h.1.lt, h.1.left, h.1.right⟩, Nat.le_of_lt h.1.cap⟩
  case popSiftRdRightIssue => exact ⟨⟨h.1.cap, h.1.lt, h.1.left, h.1.right⟩, Nat.le_of_lt h.1.cap⟩
  case popSiftRdRightWait => exact ⟨⟨h.1.cap, h.1.lt, h.1.left, h.1.right⟩, Nat.le_of_lt h.1.cap⟩
  case popSiftDecide => exact ⟨⟨h.1.cap, h.1.lt, h.1.left, h.1.right⟩, Nat.le_of_lt h.1.cap⟩
  case pushRdParentIssue => exact ⟨⟨h.2.2, h.1.par⟩, h.1.cap⟩
  case pushRdParentWait => exact ⟨⟨h.2.2, h.1.par⟩, h.1.cap⟩
  all_goals exact ⟨⟨h.2.2.1, h.1.par⟩, h.1.cap⟩

theorem Mapped.mono {n n' : Nat} (h : v.Mapped n) (hle : n' ≤ n) : v.Mapped n' := fun j hj => h j (by omega)

/-- The private BRAM answers at once. What a heap waits for from the MMU is mapped already, or is the leaf
that a `PUSH` adds. -/
def Awaits (v : HeapView) : Prop :=
  ((v.fsm.state.readWait = true → v.fsm.privReD1 = true) ∧ (v.fsm.state.writeWait = true → v.fsm.privWeD1 = true)) ∨
    ∃ r, v.out = some r ∧ ((v.virt (r.va % 2 ^ 10)).isSome = true ∨
      v.fsm.AtLeaf ∧ r.va % 2 ^ 10 = v.fsm.size - privateNodes)

theorem ReadWait.awaits (h : v.ReadWait idx) (hm : v.Mapped (idx + 1)) (hno : v.fsm.state.writeWait = false) :
    v.Awaits := by
  obtain ⟨-, h⟩ := h
  split at h
  · exact .inl ⟨fun _ => h.1, fun hc => by rw [hno] at hc; cases hc⟩
  · obtain ⟨-, r, hr, hva⟩ := h
    exact .inr ⟨r, hr, .inl (by rw [hva]; exact hm _ (by omega))⟩

theorem WriteWait.cases (h : v.WriteWait idx x) :
    v.fsm.privWeD1 = true ∨ privateNodes ≤ idx ∧ ∃ r, v.out = some r ∧ r.va % 2 ^ 10 = idx - privateNodes := by
  unfold WriteWait at h
  split at h
  · exact .inl h.1
  · obtain ⟨-, r, hr, hva, -⟩ := h
    exact .inr ⟨by omega, r, hr, hva⟩

theorem WriteWait.awaits (h : v.WriteWait idx x) (hm : v.Mapped (idx + 1)) (hno : v.fsm.state.readWait = false) :
    v.Awaits := by
  rcases h.cases with h | ⟨hle, r, hr, hva⟩
  · exact .inl ⟨fun hc => (by rw [hno] at hc; cases hc), fun _ => h⟩
  · exact .inr ⟨r, hr, .inl (by rw [hva]; exact hm _ (by omega))⟩

theorem Phase.awaits (h : v.Phase cfg m) (hw : v.fsm.state.waits = true) : v.Awaits := by
  have hpush : ∀ {x}, v.Push cfg m → v.WriteWait v.fsm.targetIdx x →
      (v.fsm.state = .pushWrDownWait ∨ v.fsm.state = .pushWrFinalWait) → v.fsm.state.readWait = false →
      v.Awaits := fun hp hwait hst hno => by
    rcases Nat.lt_or_ge v.fsm.targetIdx v.fsm.size with hlt | hge
    · exact hwait.awaits ((hp.leaf hlt).mono (by omega)) hno
    · have heq : v.fsm.targetIdx = v.fsm.size := Nat.le_antisymm hp.le hge
      rcases hwait.cases with h | ⟨hle, r, hr, hva⟩
      · exact .inl ⟨fun hc => (by rw [hno] at hc; cases hc), fun _ => h⟩
      · refine .inr ⟨r, hr, .inr ⟨⟨?_, heq, by omega⟩, by omega⟩⟩
        rcases hst with hst | hst
        · exact .inr (.inl hst)
        · exact .inr (.inr (.inr hst))
  unfold Phase at h
  cases hst : v.fsm.state <;> rw [hst] at hw hpush <;> simp only [hst] at h <;> first
    | exact absurd hw (by decide)
    | skip
  case pushRdParentWait =>
    have hlt := parent_lt h.2.2
    have hle := h.1.le
    exact h.2.1.awaits (h.1.mapped.mono (by rw [h.1.par]; omega)) (by rw [hst]; rfl)
  case pushWrDownWait => exact hpush h.1 h.2.1 (.inl rfl) rfl
  case pushWrFinalWait => exact hpush h.1 h.2.1 (.inr rfl) rfl
  case popRdLastWait => exact h.2.2.awaits (h.1.rest.mapped.mono (by omega)) (by rw [hst]; rfl)
  case popSiftRdLeftWait => exact h.2.1.awaits (h.1.mapped.mono h.2.2) (by rw [hst]; rfl)
  case popSiftRdRightWait => exact h.2.1.awaits (h.1.mapped.mono h.2.2.2.2) (by rw [hst]; rfl)
  case popSiftWrUpWait => exact h.2.1.awaits (h.1.mapped.mono h.1.lt) (by rw [hst]; rfl)
  case popSiftWrFinalWait => exact h.2.1.awaits (h.1.mapped.mono h.1.lt) (by rw [hst]; rfl)
  case peekRdWait => exact h.2.2.awaits (fun j hj => by unfold privateNodes at hj; omega) (by rw [hst]; rfl)
  case updateWrWait => exact h.2.awaits (fun j hj => by unfold privateNodes at hj; omega) (by rw [hst]; rfl)

/-- Who waits for long waits for the MMU. -/
theorem Awaits.unanswered {i : HeapIn} (h : v.Awaits) (hw : v.fsm.state.waits = true) (hs : v.fsm.stalled i = true) :
    ∃ r, v.out = some r ∧ ((v.virt (r.va % 2 ^ 10)).isSome = true ∨
      v.fsm.AtLeaf ∧ r.va % 2 ^ 10 = v.fsm.size - privateNodes) := by
  rcases h with ⟨hr, hx⟩ | h
  · rw [Rig.stalled_eq] at hs
    split_ifs at hs with h1 h2
    · simp [HeapFsm.readDone, hr h1] at hs
    · simp [HeapFsm.writeDone, hx h2] at hs
    · simp [HState.waits, h1, h2] at hw
  · exact h

end HeapView

/-! ### The controller -/

namespace SymbolEngine

/-- The orders that are still to be added to the heaps, or to be taken out of them with the trade in
progress, beyond the commands that have been issued: a trade takes at least one. -/
def credit (e : SymbolEngine) : Nat :=
  match e.tstate with
  | .pushIssue | .popBidWait | .popAskWait | .updateBidIssue | .updateBidWait | .updateAskIssue | .updateAskWait
  | .emitTrade => 1
  | .popAskIssue => if e.latchedPartialBid then 0 else 1
  | _ => 0

def nodes (e : SymbolEngine) : Nat := (e.heap .maxHeap).sizeAfter + (e.heap .minHeap).sizeAfter + e.credit

/-- How far the controller is from the end of the round. -/
def roundsLeft : TState → Nat
  | .idle => 0
  | .pushIssue => 20
  | .pushWait => 19
  | .peekBidIssue => 18
  | .peekBidWait => 17
  | .peekAskIssue => 16
  | .peekAskWait => 15
  | .decide => 14
  | .popBidIssue => 13
  | .popBidWait => 12
  | .popAskIssue => 11
  | .popAskWait => 10
  | .updateBidIssue | .updateAskIssue => 9
  | .updateBidWait | .updateAskWait => 8
  | .emitTrade => 7

def heapWork (e : SymbolEngine) : Nat := (e.heap .maxHeap).rank + (e.heap .minHeap).rank

/-- What is left to do for the order that has been taken. -/
def work (e : SymbolEngine) : Nat ×ₗ Nat ×ₗ Nat := toLex (e.nodes, toLex (roundsLeft e.tstate, e.heapWork))

variable {e e' : SymbolEngine} {k : HeapKind}

theorem work_lt_of_nodes (h : e'.nodes < e.nodes) : e'.work < e.work :=
  Prod.Lex.toLex_lt_toLex.2 (.inl h)

theorem work_lt_of_round (h : e'.nodes ≤ e.nodes) (hr : roundsLeft e'.tstate < roundsLeft e.tstate) : e'.work < e.work := by
  rcases Nat.lt_or_eq_of_le h with h | h
  · exact work_lt_of_nodes h
  · exact Prod.Lex.toLex_lt_toLex.2 (.inr ⟨h, Prod.Lex.toLex_lt_toLex.2 (.inl hr)⟩)

theorem work_lt_of_heap (h : e'.nodes = e.nodes) (hr : e'.tstate = e.tstate) (hh : e'.heapWork < e.heapWork) :
    e'.work < e.work := by
  refine Prod.Lex.toLex_lt_toLex.2 (.inr ⟨h, Prod.Lex.toLex_lt_toLex.2 (.inr ⟨?_, hh⟩)⟩)
  rw [hr]

theorem nodes_le_of_work (h : e'.work ≤ e.work) : e'.nodes ≤ e.nodes := by
  rcases Prod.Lex.toLex_le_toLex.1 h with h | ⟨h, -⟩
  · exact Nat.le_of_lt h
  · exact Nat.le_of_eq h

theorem work_le_of_heap (h : e'.nodes = e.nodes) (hr : e'.tstate = e.tstate) (hh : e'.heapWork ≤ e.heapWork) :
    e'.work ≤ e.work := by
  rcases Nat.lt_or_eq_of_le hh with hh | hh
  · exact le_of_lt (work_lt_of_heap h hr hh)
  · rw [work, work, h, hr, hh]

end SymbolEngine

namespace EngineSys

variable {n : Nat} {s : EngineSys} {c : EngineCycle} {k : HeapKind} {g : HeapKind → HeapGhost}
  {ok : (Bool → Multiset Node) → Node → Prop} {ps : List (Bool → Node)}

theorem Inv.indexed (h : s.Inv n ok ps g) (k : HeapKind) :
    (s.eng.heap k).Indexed ⟨k, n⟩ ∧ (s.eng.heap k).size ≤ 1024 := (h.heap k).phase.indexed

theorem no_cmd_of_idle (h : s.eng.Serial) (hk : s.eng.issuesTo ≠ some k) (hst : (s.eng.heap k).state = .idle) :
    (s.eng.heapIn (s.engineIn c) k).cmdValid = false := by
  rw [(SymbolEngine.heapIn_cmd k).1, Bool.eq_false_iff]
  intro hv
  rcases SymbolEngine.cmd_valid.1 hv with hi | hw
  · exact hk hi
  · exact (h.busy hw).1 hst

/-- Only the issue of a command changes what a heap will hold. -/
theorem Inv.sizeAfter_eq (h : s.Inv n ok ps g) (hk : s.eng.issuesTo ≠ some k) :
    ((s.step n c).eng.heap k).sizeAfter = (s.eng.heap k).sizeAfter := by
  rw [heap_step]
  by_cases hst : (s.eng.heap k).state = .idle
  · obtain ⟨h1, h2⟩ := @HeapFsm.step_of_no_cmd ⟨k, n⟩ _ _ hst (no_cmd_of_idle (c := c) h.serial hk hst)
    rw [HeapFsm.sizeAfter_idle h1, HeapFsm.sizeAfter_idle hst, h2]
  · exact HeapFsm.sizeAfter_step (h.indexed k).1 (h.indexed k).2 hst _

theorem Inv.sizeAfter_issue (h : s.Inv n ok ps g) (hk : s.eng.issuesTo = some k) :
    ((s.step n c).eng.heap k).sizeAfter = (s.eng.cmd k).op.sizeFrom (s.eng.heap k).sizeAfter := by
  have hidle := h.serial.calm (SymbolEngine.waitsFor_of_issuesTo hk) k
  obtain ⟨hv, hop, -⟩ := SymbolEngine.heapIn_cmd (e := s.eng) (i := s.engineIn c) k
  rw [heap_step, HeapFsm.sizeAfter_start hidle (hv.trans (SymbolEngine.cmd_valid.2 (.inl hk))), hop,
    HeapFsm.sizeAfter_idle hidle]

theorem Inv.nodes_eq (h : s.Inv n ok ps g) (hi : s.eng.issuesTo = none)
    (hc : (s.step n c).eng.credit = s.eng.credit) : (s.step n c).eng.nodes = s.eng.nodes := by
  have hne : ∀ k, s.eng.issuesTo ≠ some k := fun k hk => by rw [hi] at hk; cases hk
  rw [SymbolEngine.nodes, SymbolEngine.nodes, h.sizeAfter_eq (hne _), h.sizeAfter_eq (hne _), hc]

theorem heapWork_of_calm (h : s.eng.Calm) : s.eng.heapWork = 0 := by
  simp only [SymbolEngine.heapWork, HeapFsm.rank, h .maxHeap, h .minHeap]

theorem heapWork_of_busy (h : s.eng.Busy k) : s.eng.heapWork = (s.eng.heap k).rank := by
  cases k
  · simp only [SymbolEngine.heapWork, HeapFsm.rank, h.2 .minHeap (by decide), Nat.add_zero]
  · simp only [SymbolEngine.heapWork, HeapFsm.rank, h.2 .maxHeap (by decide), Nat.zero_add]

theorem issuesTo_of_waitsFor (h : s.eng.waitsFor = some k) : s.eng.issuesTo = none := by
  cases hi : s.eng.issuesTo with
  | none => rfl
  | some k' => rw [SymbolEngine.waitsFor_of_issuesTo hi] at h; cases h

/-- A cycle that leaves the controller and the heaps where they are. -/
theorem Inv.work_of_calm (h : s.Inv n ok ps g) (hi : s.eng.issuesTo = none) (hw : s.eng.waitsFor = none)
    (hst : (s.step n c).eng.tstate = s.eng.tstate) (hno : s.eng.tstate ≠ .decide) :
    (s.step n c).eng.work = s.eng.work := by
  have hc : (s.step n c).eng.credit = s.eng.credit := by
    unfold SymbolEngine.credit
    rw [hst, (latched_step hno).1]
  have hcalm' : (s.step n c).eng.Calm := h.serial.step.calm (SymbolEngine.rest_step hi hw)
  rw [SymbolEngine.work, SymbolEngine.work, h.nodes_eq hi hc, hst, heapWork_of_calm hcalm',
    heapWork_of_calm (h.serial.calm hw)]

theorem Inv.work_idle (h : s.Inv n ok ps g) (hst : s.eng.tstate = .idle) (hno : c.orderInValid = false) :
    (s.step n c).eng.tstate = .idle ∧ (s.step n c).eng.work = s.eng.work := by
  have hst' : (s.step n c).eng.tstate = .idle := by
    show s.eng.tnState _ = _
    simp [SymbolEngine.tnState, hst, engineIn, hno]
  exact ⟨hst', h.work_of_calm (by simp [SymbolEngine.issuesTo, hst]) (by simp [SymbolEngine.waitsFor, hst])
    (by rw [hst', hst]) (by simp [hst])⟩

/-- A trade that is handed over has taken an order with it. -/
theorem Inv.nodes_emit (h : s.Inv n ok ps g) (hst : s.eng.tstate = .emitTrade) (hr : c.tradeOutReady = true) :
    (s.step n c).eng.nodes + 1 = s.eng.nodes := by
  have hne : ∀ k, s.eng.issuesTo ≠ some k := fun k hk => by simp [SymbolEngine.issuesTo, hst] at hk
  have hst' : (s.step n c).eng.tstate = s.eng.again := by
    show s.eng.tnState _ = _
    simp [SymbolEngine.tnState, hst, engineIn, hr]
  have hc : s.eng.credit = 1 := by simp [SymbolEngine.credit, hst]
  have hc' : (s.step n c).eng.credit = 0 := by
    rcases SymbolEngine.again_cases (e := s.eng) with ha | ha <;>
      simp [SymbolEngine.credit, hst', ha]
  rw [SymbolEngine.nodes, SymbolEngine.nodes, h.sizeAfter_eq (hne _), h.sizeAfter_eq (hne _), hc, hc']

theorem Inv.work_emit (h : s.Inv n ok ps g) (hst : s.eng.tstate = .emitTrade) :
    (s.step n c).eng.work < s.eng.work ∨ c.tradeOutReady = false ∧ (s.step n c).eng.tstate = .emitTrade ∧
      (s.step n c).eng.work = s.eng.work := by
  cases hr : c.tradeOutReady with
  | false =>
    have hst' : (s.step n c).eng.tstate = .emitTrade := by
      show s.eng.tnState _ = _
      simp [SymbolEngine.tnState, hst, engineIn, hr]
    exact .inr ⟨rfl, hst', h.work_of_calm (by simp [SymbolEngine.issuesTo, hst]) (by simp [SymbolEngine.waitsFor, hst])
      (by rw [hst', hst]) (by simp [hst])⟩
  | true =>
    have := h.nodes_emit hst hr
    exact .inl (SymbolEngine.work_lt_of_nodes (by omega))

theorem Inv.work_decide (h : s.Inv n ok ps g) (hst : s.eng.tstate = .decide) :
    (s.step n c).eng.work < s.eng.work := by
  have hi : s.eng.issuesTo = none := by simp [SymbolEngine.issuesTo, hst]
  have hst' : (s.step n c).eng.tstate = s.eng.tnState (s.engineIn c) := rfl
  have hl : (s.step n c).eng.latchedPartialBid =
      if s.eng.trades then s.eng.partialBidRemains else s.eng.latchedPartialBid := rfl
  have htr : s.eng.trades = s.eng.tradeMatch := by simp [SymbolEngine.trades, hst]
  have hc : (s.step n c).eng.credit = s.eng.credit := by
    unfold SymbolEngine.credit
    rw [hst', hl, htr]
    simp only [SymbolEngine.tnState, hst]
    cases hm : s.eng.tradeMatch <;> cases hp : s.eng.partialBidRemains <;> simp
  refine SymbolEngine.work_lt_of_round (h.nodes_eq hi hc).le ?_
  rw [hst', hst]
  simp only [SymbolEngine.tnState, hst]
  cases s.eng.tradeMatch <;> cases s.eng.partialBidRemains <;> simp [SymbolEngine.roundsLeft]

/-- The heap at work is done, and the controller goes on. -/
theorem Inv.work_done (h : s.Inv n ok ps g) (hw : s.eng.waitsFor = some k) (hd : (s.eng.heap k).cmdDone = true) :
    (s.step n c).eng.work < s.eng.work := by
  have hi := issuesTo_of_waitsFor hw
  have hst' : (s.step n c).eng.tstate = s.eng.tnState (s.engineIn c) := rfl
  have hctrl := h.ctrl
  have hagain := SymbolEngine.again_cases (e := s.eng)
  have hl := (latched_step (n := n) (s := s) (c := c))
  have hc : (s.step n c).eng.credit = s.eng.credit ∧
      SymbolEngine.roundsLeft (s.step n c).eng.tstate < SymbolEngine.roundsLeft s.eng.tstate := by
    unfold SymbolEngine.credit
    unfold SymbolEngine.waitsFor at hw
    unfold Ctrl at hctrl
    rw [hst']
    cases hst : s.eng.tstate <;> rw [hst] at hw hl <;> simp only [hst, reduceCtorEq, Option.some.injEq] at hw hctrl <;>
      subst hw <;> simp only [SymbolEngine.tnState, hst, SymbolEngine.heap] at hd ⊢
    case pushWait =>
      cases hp : s.eng.pendingIsAsk <;> rw [hp] at hd <;>
        rcases hagain with ha | ha <;> simp_all [SymbolEngine.roundsLeft]
    case popBidWait =>
      rw [(hl (by decide)).1, hctrl.2]
      cases hp : s.eng.latchedPartialAsk <;> simp [hd, SymbolEngine.roundsLeft]
    case popAskWait => cases hp : s.eng.latchedPartialBid <;> simp [hd, SymbolEngine.roundsLeft]
    all_goals simp [hd, SymbolEngine.roundsLeft]
  exact SymbolEngine.work_lt_of_round (h.nodes_eq hi hc.1).le hc.2

/-- The controller issues a command. -/
theorem Inv.work_issue (h : s.Inv n ok ps g) (hi : s.eng.issuesTo = some k) :
    (s.step n c).eng.work < s.eng.work := by
  have hst' : (s.step n c).eng.tstate = s.eng.tnState (s.engineIn c) := rfl
  have hctrl := h.ctrl
  have hk := h.sizeAfter_issue (c := c) hi
  have hother : ∀ k', k' ≠ k → ((s.step n c).eng.heap k').sizeAfter = (s.eng.heap k').sizeAfter := fun k' hk' =>
    h.sizeAfter_eq fun hc => hk' (Option.some.inj (hc.symm.trans hi))
  have hidle := h.serial.calm (SymbolEngine.waitsFor_of_issuesTo hi)
  have hl := (latched_step (n := n) (s := s) (c := c))
  have hpos : ∀ k, s.Shown k → 0 < (s.eng.heap k).sizeAfter := fun k hs => by
    rw [HeapFsm.sizeAfter_idle (hidle k)]; exact Nat.pos_of_ne_zero hs.1
  suffices hall : (s.step n c).eng.nodes ≤ s.eng.nodes ∧
      SymbolEngine.roundsLeft (s.step n c).eng.tstate < SymbolEngine.roundsLeft s.eng.tstate from
    SymbolEngine.work_lt_of_round hall.1 hall.2
  unfold SymbolEngine.nodes SymbolEngine.credit
  unfold SymbolEngine.issuesTo at hi
  unfold Ctrl at hctrl
  rw [hst']
  cases hst : s.eng.tstate <;> rw [hst] at hi hl <;> simp only [hst, reduceCtorEq, Option.some.injEq] at hi hctrl <;>
    subst hi <;> simp only [SymbolEngine.tnState, hst, SymbolEngine.roundsLeft]
  case pushIssue =>
    cases hp : s.eng.pendingIsAsk
    · simp only [hp, Bool.false_eq_true, if_false, SymbolEngine.cmd, SymbolEngine.bidCmd, Op.sizeFrom, hst] at hk hother
      rw [hk, hother .minHeap (by decide)]
      omega
    · simp only [hp, if_true, SymbolEngine.cmd, SymbolEngine.askCmd, Op.sizeFrom, hst] at hk hother
      rw [hk, hother .maxHeap (by decide)]
      omega
  case popBidIssue =>
    have := hpos .maxHeap (hctrl.1.shown _ rfl)
    simp only [SymbolEngine.cmd, SymbolEngine.bidCmd, Op.sizeFrom, hst] at hk
    rw [hk, hother .minHeap (by decide)]
    omega
  case popAskIssue =>
    have := hpos .minHeap (hctrl.1.shown _ rfl)
    simp only [SymbolEngine.cmd, SymbolEngine.askCmd, Op.sizeFrom, hst] at hk
    rw [hk, hother .maxHeap (by decide)]
    cases s.eng.latchedPartialBid
    · simp
    · simp; omega
  case peekBidIssue | updateBidIssue =>
    simp only [SymbolEngine.cmd, SymbolEngine.bidCmd, Op.sizeFrom, hst] at hk
    rw [hk, hother .minHeap (by decide)]
    omega
  case peekAskIssue | updateAskIssue =>
    simp only [SymbolEngine.cmd, SymbolEngine.askCmd, Op.sizeFrom, hst] at hk
    rw [hk, hother .maxHeap (by decide)]
    omega

theorem tstate_of_wait (hw : s.eng.waitsFor = some k) (hd : (s.eng.heap k).cmdDone = false) :
    (s.step n c).eng.tstate = s.eng.tstate := by
  show s.eng.tnState _ = _
  unfold SymbolEngine.waitsFor at hw
  cases hst : s.eng.tstate <;> simp only [hst, reduceCtorEq, Option.some.injEq] at hw <;> subst hw <;>
    simp only [SymbolEngine.heap] at hd <;> simp only [SymbolEngine.tnState, hst]
  case pushWait => cases hp : s.eng.pendingIsAsk <;> rw [hp] at hd <;> simp_all
  all_goals simp [hd]

/-- A heap is at work. -/
theorem Inv.work_busy (h : s.Inv n ok ps g) (hw : s.eng.waitsFor = some k) (hd : (s.eng.heap k).cmdDone = false) :
    (s.step n c).eng.work < s.eng.work ∨
      (s.eng.heap k).stalled (s.eng.heapIn (s.engineIn c) k) = true ∧ ((s.step n c).eng.work ≤ s.eng.work ∨
        (s.eng.heap k).state.waits = true ∧ (s.eng.heapIn (s.engineIn c) k).virtRespReject = true) := by
  have hst' := tstate_of_wait (n := n) (c := c) hw hd
  have hno : s.eng.tstate ≠ .decide := fun hc => by simp [SymbolEngine.waitsFor, hc] at hw
  have hc : (s.step n c).eng.credit = s.eng.credit := by
    unfold SymbolEngine.credit
    rw [hst', (latched_step hno).1]
  have hnodes := h.nodes_eq (issuesTo_of_waitsFor hw) hc
  have hbusy := h.serial.busy hw
  have hbusy' : (s.step n c).eng.Busy k := h.serial.step.busy (by
    rw [SymbolEngine.waitsFor_step hw, hd]; rfl)
  have hwork := heapWork_of_busy hbusy
  have hwork' := heapWork_of_busy hbusy'
  rw [heap_step] at hwork'
  rcases (h.indexed k).1.rank_step (h.indexed k).2 hbusy.1 (of_decide_eq_false hd) (s.eng.heapIn (s.engineIn c) k) with
    hlt | ⟨hs, hle | hr⟩
  · exact .inl (SymbolEngine.work_lt_of_heap hnodes hst' (by rw [hwork, hwork']; exact hlt))
  · exact .inr ⟨hs, .inl (SymbolEngine.work_le_of_heap hnodes hst' (by rw [hwork, hwork']; exact hle))⟩
  · exact .inr ⟨hs, .inr hr⟩

theorem wait_or_issue (h1 : s.eng.tstate ≠ .idle) (h2 : s.eng.tstate ≠ .emitTrade) (h3 : s.eng.tstate ≠ .decide) :
    (∃ k, s.eng.issuesTo = some k) ∨ ∃ k, s.eng.waitsFor = some k := by
  unfold SymbolEngine.issuesTo SymbolEngine.waitsFor
  cases hst : s.eng.tstate <;> simp_all

/-- What one cycle does to the work left. -/
theorem Inv.work_step (h : s.Inv n ok ps g) (hst : s.eng.tstate ≠ .idle) :
    (s.step n c).eng.work < s.eng.work ∨
    (s.eng.tstate = .emitTrade ∧ c.tradeOutReady = false ∧ (s.step n c).eng.tstate = .emitTrade ∧
      (s.step n c).eng.work = s.eng.work) ∨
    ∃ k, s.eng.waitsFor = some k ∧ (s.eng.heap k).stalled (s.eng.heapIn (s.engineIn c) k) = true ∧
      ((s.step n c).eng.tstate = s.eng.tstate ∧ (s.step n c).eng.work ≤ s.eng.work ∨
        (s.eng.heap k).state.waits = true ∧ (s.eng.heapIn (s.engineIn c) k).virtRespReject = true) := by
  by_cases hemit : s.eng.tstate = .emitTrade
  · rcases h.work_emit (c := c) hemit with hlt | hr
    · exact .inl hlt
    · exact .inr (.inl ⟨hemit, hr⟩)
  by_cases hdec : s.eng.tstate = .decide
  · exact .inl (h.work_decide hdec)
  rcases wait_or_issue hst hemit hdec with ⟨k, hi⟩ | ⟨k, hw⟩
  · exact .inl (h.work_issue hi)
  · cases hd : (s.eng.heap k).cmdDone with
    | true => exact .inl (h.work_done hw hd)
    | false =>
      rcases h.work_busy (c := c) hw hd with hlt | ⟨hs, hle | hr⟩
      · exact .inl hlt
      · exact .inr (.inr ⟨k, hw, hs, .inl ⟨tstate_of_wait hw hd, hle⟩⟩)
      · exact .inr (.inr ⟨k, hw, hs, .inr hr⟩)

/-! ### Counting orders -/

theorem Inv.nodes_take (h : s.Inv n ok ps g) (hst : s.eng.tstate = .idle) (hv : c.orderInValid = true) :
    (s.step n c).eng.nodes = s.eng.nodes + 1 := by
  have hne : ∀ k, s.eng.issuesTo ≠ some k := fun k hk => by simp [SymbolEngine.issuesTo, hst] at hk
  have hst' : (s.step n c).eng.tstate = .pushIssue := by
    show s.eng.tnState _ = _
    simp [SymbolEngine.tnState, hst, engineIn, hv]
  have hc : s.eng.credit = 0 := by simp [SymbolEngine.credit, hst]
  have hc' : (s.step n c).eng.credit = 1 := by simp [SymbolEngine.credit, hst']
  rw [SymbolEngine.nodes, SymbolEngine.nodes, h.sizeAfter_eq (hne _), h.sizeAfter_eq (hne _), hc, hc']

/-- While an order is being worked on, no order is added. -/
theorem Inv.nodes_step (h : s.Inv n ok ps g) (hst : s.eng.tstate ≠ .idle) :
    (s.step n c).eng.nodes ≤ s.eng.nodes := by
  rcases h.work_step (c := c) hst with hlt | ⟨-, -, -, heq⟩ | ⟨k, hw, hs, ⟨-, hle⟩ | ⟨hwait, -⟩⟩
  · exact SymbolEngine.nodes_le_of_work (le_of_lt hlt)
  · exact SymbolEngine.nodes_le_of_work (le_of_eq heq)
  · exact SymbolEngine.nodes_le_of_work hle
  · have hd : (s.eng.heap k).cmdDone = false := by
      rw [HeapFsm.cmdDone, decide_eq_false_iff_not]
      intro hc
      rw [hc] at hwait
      cases hwait
    have hno : s.eng.tstate ≠ .decide := fun hc => by simp [SymbolEngine.waitsFor, hc] at hw
    refine (h.nodes_eq (issuesTo_of_waitsFor hw) ?_).le
    unfold SymbolEngine.credit
    rw [tstate_of_wait hw hd, (latched_step hno).1]

/-- Each trade takes at least one order out of the heaps. -/
theorem Inv.counts_step (h : s.Inv n ok ps g) (hc : s.trades.length + s.eng.nodes ≤ s.orders.length)
    (c : EngineCycle) : (s.step n c).trades.length + (s.step n c).eng.nodes ≤ (s.step n c).orders.length := by
  by_cases hst : s.eng.tstate = .idle
  · have htr : (s.step n c).trades = s.trades := trades_step (by rw [hst]; decide)
    rw [htr]
    cases hv : c.orderInValid with
    | true =>
      rw [h.nodes_take hst hv]
      simp only [EngineSys.step, SymbolEngine.takesOrder, hst, engineIn, hv, decide_true, Bool.and_self, if_true,
        List.length_append, List.length_singleton]
      omega
    | false =>
      rw [show (s.step n c).orders = s.orders by simp [EngineSys.step, SymbolEngine.takesOrder, engineIn, hv]]
      have := SymbolEngine.nodes_le_of_work (h.work_idle (c := c) hst hv).2.le
      omega
  · rw [orders_step hst]
    by_cases hh : s.eng.tstate = .emitTrade ∧ c.tradeOutReady = true
    · have hnodes := h.nodes_emit hh.1 hh.2
      have hlen : (s.step n c).trades.length ≤ s.trades.length + 1 := by
        simp only [EngineSys.step]
        split
        · simp
        · omega
      omega
    · have hnodes := h.nodes_step (c := c) hst
      have htr : (s.step n c).trades = s.trades := by
        have : (s.eng.tradeOutValid && c.tradeOutReady) = false := by
          rw [← Bool.not_eq_true, SymbolEngine.tradeOutValid]
          simp only [Bool.and_eq_true, decide_eq_true_eq]
          exact fun hc => hh ⟨hc.1.1, hc.2⟩
        simp [EngineSys.step, this]
      rw [htr]
      omega

/-- The nodes a heap asks for have indices up to twice its size: a sift-down also looks behind the last leaf. -/
theorem Inv.memIdx_le (h : s.Inv n ok ps g) (k : HeapKind) :
    (s.eng.heap k).memIdx ≤ 2 * (s.eng.heap k).sizeAfter := by
  have hph := (h.heap k).phase
  have hv : ((s.view n k).fsm) = s.eng.heap k := rfl
  have hm := (h.indexed k).2
  unfold HeapView.Phase at hph
  unfold HeapFsm.memIdx HeapFsm.sizeAfter
  rw [hv] at hph
  cases hst : (s.eng.heap k).state <;> simp only [hst] at hph ⊢ <;> try omega
  case pushRdParentIssue =>
    have h1 := hph.1.par
    have h2 := hph.1.le
    have h3 := parent_lt hph.2.2
    rw [hv] at h1 h2
    omega
  case pushWrDownIssue | pushWrFinalIssue =>
    have h2 := hph.1.le
    rw [hv] at h2
    omega
  case popRdLastIssue =>
    rw [HeapFsm.sizeMinusOne_eq (by omega) hm]
    omega
  case popSiftRdLeftIssue =>
    have h1 := hph.1.left
    have h2 := hph.1.lt
    rw [hv] at h1 h2
    omega
  case popSiftRdRightIssue =>
    have h1 := hph.1.right
    have h2 := hph.1.lt
    rw [hv] at h1 h2
    omega
  case popSiftWrUpIssue | popSiftWrFinalIssue =>
    have h2 := hph.1.lt
    rw [hv] at h2
    omega

end EngineSys

end HftSim
