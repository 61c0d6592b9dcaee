import HftSim.Lib.PriceTime
import HftSim.SymbolEngine

/-!
# An engine in its environment

`EngineSys` closes `symbol_engine` with an MMU port that behaves as a memory (`VirtPort`) and keeps
the history of the orders taken and of the trades handed over. The two heaps of an engine are two
`HeapView`s on one BRAM and one port: `EngineSys.view_step` shows that a clock edge of the engine is
a `HeapView.Step` of each of them.
-/

namespace HftSim

open Function

/-- What the outside does in one cycle. -/
structure EngineCycle where
  nowTs : BitVec 32
  orderInValid : Bool
  orderInData : DispatchOrder
  tradeOutReady : Bool
  port : PortCycle

/-- The engine, its port, and the orders taken and trades handed over so far, oldest first. -/
structure EngineSys where
  eng : SymbolEngine
  port : VirtPort
  orders : List Node
  trades : List Node

namespace EngineSys

def init (b : PrivBram) : EngineSys := ⟨.reset b, ⟨fun _ => none, none⟩, [], []⟩

def engineIn (s : EngineSys) (c : EngineCycle) : EngineIn where
  nowTs := c.nowTs
  orderInValid := c.orderInValid
  orderInData := c.orderInData
  tradeOutReady := c.tradeOutReady
  mmuReqReady := s.port.reqReady c.port
  mmuRespData := s.port.respData c.port
  mmuRespValid := s.port.respValid c.port
  mmuRespReject := s.port.respReject c.port

def step (n : Nat) (s : EngineSys) (c : EngineCycle) : EngineSys where
  eng := s.eng.step n (s.engineIn c)
  port := s.port.step c.port (s.eng.mmuReq n)
  orders :=
    if s.eng.takesOrder (s.engineIn c) then
      s.orders ++ [packOrder c.orderInData (symbolOf n) c.nowTs]
    else s.orders
  trades := if s.eng.tradeOutValid && c.tradeOutReady then s.trades ++ [s.eng.tradeOutData] else s.trades

def run (n : Nat) (b : PrivBram) (sched : List EngineCycle) : EngineSys :=
  sched.foldl (step n) (init b)

theorem run_snoc (n : Nat) (b : PrivBram) (sched : List EngineCycle) (c : EngineCycle) :
    run n b (sched ++ [c]) = (run n b sched).step n c := by
  simp [run, List.foldl_append]

end EngineSys

/-! ### The two heaps -/

def HeapKind.owner : HeapKind → MmuOwner
  | .maxHeap => .bid
  | .minHeap => .ask

namespace SymbolEngine

def heap (e : SymbolEngine) : HeapKind → HeapFsm
  | .maxHeap => e.bid
  | .minHeap => e.ask

def heapIn (e : SymbolEngine) (i : EngineIn) : HeapKind → HeapIn
  | .maxHeap => e.bidIn i
  | .minHeap => e.askIn i

def grant (e : SymbolEngine) : HeapKind → Bool
  | .maxHeap => e.bidGrant
  | .minHeap => e.askGrant

/-- The heap does not use the private BRAM in this cycle. -/
def Silent (h : HeapFsm) : Prop := h.privWe = false ∧ h.privRe = false

variable {e : SymbolEngine} {i : EngineIn} {n : Nat} {k : HeapKind}

theorem grant_eq_true (h : e.grant k = true) : e.mmuOwner = .idle ∧ (e.heap k).virtReqValid = true ∧
    e.mmuReq n = some ((e.heap k).virtReq ⟨k, n⟩) := by
  cases k <;> simp [grant, bidGrant, askGrant] at h <;>
    simp [mmuReq, bidGrant, askGrant, heap, h, bidCfg, askCfg]

theorem nOwner_of_idle (h : e.mmuOwner = .idle) :
    e.nOwner i = k.owner ↔ (e.grant k && i.mmuReqReady) = true := by
  have hno : e.bidGrant = true → e.askGrant = false := by
    intro hb; simp [bidGrant] at hb; simp [askGrant, hb]
  unfold nOwner
  rw [h]
  cases hb : e.bidGrant <;> cases ha : e.askGrant <;> cases hr : i.mmuReqReady <;> cases k <;>
    simp_all [grant, HeapKind.owner]

theorem nOwner_of_busy (h : e.mmuOwner ≠ .idle) :
    e.nOwner i = if i.mmuRespValid || i.mmuRespReject then .idle else e.mmuOwner := by
  unfold nOwner
  cases ho : e.mmuOwner <;> simp_all

theorem heapIn_req (e : SymbolEngine) (i : EngineIn) (k : HeapKind) :
    (e.heapIn i k).virtReqReady = (e.grant k && i.mmuReqReady) ∧
      (e.heapIn i k).virtRespValid = (decide (e.mmuOwner = k.owner) && i.mmuRespValid) ∧
      (e.heapIn i k).virtRespReject = (decide (e.mmuOwner = k.owner) && i.mmuRespReject) ∧
      (e.heapIn i k).virtRespData = i.mmuRespData := by
  cases k <;> exact ⟨rfl, rfl, rfl, rfl⟩

end SymbolEngine

namespace EngineSys

/-- The half of the private BRAM that belongs to heap `k`. -/
def half (b : PrivBram) (k : HeapKind) (j : Nat) : Node :=
  if j < privateNodes then b.mem (privateNodes * k.bit + j) else 0

def view (n : Nat) (s : EngineSys) (k : HeapKind) : HeapView where
  fsm := s.eng.heap k
  priv := half s.eng.priv k
  rdata := s.eng.priv.rdata
  virt := s.port.slice (HeapCfg.base ⟨k, n⟩)
  out := if s.eng.mmuOwner = k.owner then s.port.out else none

/-- The port mux knows whose request is unanswered. -/
structure PortOk (n : Nat) (s : EngineSys) : Prop where
  idle : s.eng.mmuOwner = .idle → s.port.out = none
  busy : ∀ k : HeapKind, s.eng.mmuOwner = k.owner → ∃ r, s.port.out = some r ∧
    r.va = HeapCfg.base ⟨k, n⟩ + r.va % 2 ^ 10

variable {n : Nat} {s : EngineSys} {c : EngineCycle} {k : HeapKind}

theorem owner_cases (o : MmuOwner) : o = .idle ∨ ∃ k : HeapKind, o = k.owner := by
  cases o
  · exact .inl rfl
  · exact .inr ⟨.maxHeap, rfl⟩
  · exact .inr ⟨.minHeap, rfl⟩

theorem owner_ne_idle (k : HeapKind) : k.owner ≠ .idle := by cases k <;> decide

theorem owner_inj {k k' : HeapKind} (h : k.owner = k'.owner) : k = k' := by
  cases k <;> cases k' <;> first | rfl | cases h

theorem PortOk.owner_step (h : s.PortOk n) (ho : s.eng.mmuOwner = k.owner) :
    ((s.step n c).eng.mmuOwner = .idle ∧ (s.step n c).port.out = none) ∨
      ((s.step n c).eng.mmuOwner = k.owner ∧ (s.step n c).port = s.port) := by
  obtain ⟨r, hr, -⟩ := h.busy k ho
  have hn : (s.step n c).eng.mmuOwner = _ :=
    SymbolEngine.nOwner_of_busy (i := s.engineIn c) (by rw [ho]; exact owner_ne_idle k)
  rw [hn]
  simp only [step, VirtPort.step, engineIn, VirtPort.respValid, VirtPort.respReject, hr]
  rcases c.port.answer with _ | _ | _
  · exact .inr ⟨by simpa using ho, rfl⟩
  · exact .inl ⟨by simp, rfl⟩
  · exact .inl ⟨by simp, rfl⟩

/-- From an idle mux, the port takes the request of the heap the mux grants. -/
theorem PortOk.idle_step (h : s.PortOk n) (ho : s.eng.mmuOwner = .idle) :
    (s.step n c).port = ⟨s.port.mem, if c.port.ready then s.eng.mmuReq n else none⟩ := by
  simp only [step, VirtPort.step, h.idle ho]

theorem PortOk.step (h : s.PortOk n) (c : EngineCycle) : (s.step n c).PortOk n := by
  rcases owner_cases s.eng.mmuOwner with ho | ⟨k, ho⟩
  · have hrdy : (s.engineIn c).mmuReqReady = c.port.ready := by
      simp [engineIn, VirtPort.reqReady, h.idle ho]
    have hport := h.idle_step (c := c) ho
    have hown : ∀ k, (s.step n c).eng.mmuOwner = HeapKind.owner k ↔
        (s.eng.grant k && c.port.ready) = true := fun k => by
      rw [← hrdy]; exact SymbolEngine.nOwner_of_idle ho
    refine ⟨fun hidle => ?_, fun k hk => ?_⟩
    · rw [hport]
      by_contra hne
      simp only [ite_eq_right_iff, not_forall] at hne
      obtain ⟨hr, hne⟩ := hne
      have hb := (hown .maxHeap).not.1 (by rw [hidle]; decide)
      have ha := (hown .minHeap).not.1 (by rw [hidle]; decide)
      simp only [hr, Bool.and_true, Bool.not_eq_true, SymbolEngine.grant] at hb ha
      exact hne (by simp [SymbolEngine.mmuReq, hb, ha])
    · have hg := (hown k).1 hk
      simp only [Bool.and_eq_true] at hg
      refine ⟨(s.eng.heap k).virtReq ⟨k, n⟩, ?_, ?_⟩
      · rw [hport, hg.2, (SymbolEngine.grant_eq_true (n := n) hg.1).2.2]; rfl
      · simp only [HeapFsm.virtReq]; exact makeVa_eq _ _
  · rcases h.owner_step (c := c) ho with ⟨ho', hout⟩ | ⟨ho', hport⟩
    · exact ⟨fun _ => hout, fun k' hk' => absurd (hk'.symm.trans ho') (owner_ne_idle k')⟩
    · refine ⟨fun hidle => absurd (ho'.symm.trans hidle) (owner_ne_idle k), fun k' hk' => ?_⟩
      rw [hport]
      exact h.busy k' (by rw [ho, ← hk', ho'])

/-- A heap does not see the answers to the other one. -/
theorem slice_other {k' : HeapKind} (h : s.PortOk n) (ho : s.eng.mmuOwner = k'.owner) (hne : k' ≠ k) :
    (s.step n c).port.slice (HeapCfg.base ⟨k, n⟩) = s.port.slice (HeapCfg.base ⟨k, n⟩) := by
  obtain ⟨r, hr, hva⟩ := h.busy k' ho
  have hlt : r.va % 2 ^ 10 < 2 ^ 10 := Nat.mod_lt _ (by omega)
  have hdisj : ∀ j, j < 2 ^ 10 → HeapCfg.base ⟨k, n⟩ + j ≠ r.va := by
    intro j hj
    cases k <;> cases k' <;> first | exact absurd rfl hne |
      (simp only [HeapCfg.base, HeapKind.bit] at hva ⊢; omega)
  rcases hans : c.port.answer with _ | _ | _ <;> simp only [step, VirtPort.step, hr, hans]
  · rfl
  · funext j
    simp only [VirtPort.slice]
    split
    · split
      · rw [update_of_ne (hdisj j ‹_›)]
      · rfl
    · rfl

theorem PortOk.view_port (h : s.PortOk n) (c : EngineCycle) :
    HeapView.PortStep (s.eng.heapIn (s.engineIn c) k)
      (if (s.eng.heap k).virtReqValid then some ((s.eng.heap k).virtReq ⟨k, n⟩) else none)
      (s.view n k).virt (s.view n k).out ((s.step n c).view n k).virt
      ((s.step n c).view n k).out := by
  obtain ⟨hrdy, hval, hrej, hdat⟩ := SymbolEngine.heapIn_req s.eng (s.engineIn c) k
  rcases owner_cases s.eng.mmuOwner with ho | ⟨k', ho⟩
  · have hnone := h.idle ho
    have hno : s.eng.mmuOwner ≠ k.owner := by rw [ho]; exact (owner_ne_idle k).symm
    have hport := h.idle_step (c := c) ho
    have hidle := @HeapView.PortStep.idle (s.eng.heapIn (s.engineIn c) k)
      (if (s.eng.heap k).virtReqValid then some ((s.eng.heap k).virtReq ⟨k, n⟩) else none)
      (s.view n k).virt (by simp [hval, hno]) (by simp [hrej, hno])
    have hown := SymbolEngine.nOwner_of_idle (i := s.engineIn c) (k := k) ho
    have hvirt : ((s.step n c).view n k).virt = (s.view n k).virt := by
      simp only [view, hport]; rfl
    have hout : (s.view n k).out = none := by simp [view, hno]
    have hout' : ((s.step n c).view n k).out = if (s.eng.heapIn (s.engineIn c) k).virtReqReady then
        (if (s.eng.heap k).virtReqValid then some ((s.eng.heap k).virtReq ⟨k, n⟩) else none)
        else none := by
      rw [hrdy]
      by_cases hg : (s.eng.grant k && (s.engineIn c).mmuReqReady) = true
      · rw [if_pos hg]
        have howner : (s.step n c).eng.mmuOwner = k.owner := hown.2 hg
        simp only [Bool.and_eq_true] at hg
        obtain ⟨-, hv, hreq⟩ := SymbolEngine.grant_eq_true (n := n) hg.1
        have hready : c.port.ready = true := by simpa [engineIn, VirtPort.reqReady, hnone] using hg.2
        simp only [view, howner, if_true, hport, hready, hreq, hv]
      · rw [if_neg hg]
        have howner : (s.step n c).eng.mmuOwner ≠ k.owner := fun hc => hg (hown.1 hc)
        simp only [view, howner, if_false]
    rw [hvirt, hout, hout']
    exact hidle
  · by_cases hk : k' = k
    · subst hk
      obtain ⟨r, hr, hva⟩ := h.busy k' ho
      have hout' : ((s.step n c).view n k').out = (s.step n c).port.out := by
        rcases h.owner_step (c := c) ho with ⟨ho', hout⟩ | ⟨ho', hport⟩
        · simp [view, ho', hout, (owner_ne_idle k').symm]
        · simp [view, ho']
      have hout : (s.view n k').out = s.port.out := by simp [view, ho]
      rw [hout, hout']
      refine VirtPort.portStep (fun hn => by rw [hr] at hn; cases hn) (fun r' hr' => ?_) ?_ ?_ ?_ ?_
      · rw [hr] at hr'; cases hr'; exact hva
      · have hg : s.eng.grant k' = false := by
          by_contra hg
          have := (SymbolEngine.grant_eq_true (n := n) (Bool.not_eq_false _ ▸ hg)).1
          rw [ho] at this; exact owner_ne_idle k' this
        rw [hrdy, hg]; simp [VirtPort.reqReady, hr]
      · rw [hval]; simp [ho, engineIn]
      · rw [hrej]; simp [ho, engineIn]
      · rw [hdat]; rfl
    · have hno : s.eng.mmuOwner ≠ k.owner := by rw [ho]; exact fun hc => hk (owner_inj hc)
      have hg : s.eng.grant k = false := by
        by_contra hg
        have := (SymbolEngine.grant_eq_true (n := n) (Bool.not_eq_false _ ▸ hg)).1
        rw [ho] at this; exact owner_ne_idle k' this
      have hidle := @HeapView.PortStep.idle (s.eng.heapIn (s.engineIn c) k)
        (if (s.eng.heap k).virtReqValid then some ((s.eng.heap k).virtReq ⟨k, n⟩) else none)
        (s.view n k).virt (by simp [hval, hno]) (by simp [hrej, hno])
      have hvirt : ((s.step n c).view n k).virt = (s.view n k).virt := slice_other h ho hk
      have hout : (s.view n k).out = none := by simp [view, hno]
      have hout' : ((s.step n c).view n k).out = none := by
        rcases h.owner_step (c := c) ho with ⟨ho', -⟩ | ⟨ho', -⟩
        · simp [view, ho', (owner_ne_idle k).symm]
        · have : k'.owner ≠ k.owner := fun hc => hk (owner_inj hc)
          simp [view, ho', this]
      rw [hrdy, hg, Bool.false_and] at hidle
      rw [hvirt, hout, hout']
      exact hidle

theorem half_step_own {b : PrivBram} {we re : Bool} {a : Nat} {w : Node} (ha : a < privateNodes) :
    half (b.step we re (privateNodes * k.bit + a) w) k = if we then update (half b k) a w else half b k := by
  cases we with
  | false => rfl
  | true =>
    funext j
    simp only [half, PrivBram.step, if_true]
    by_cases hj : j = a
    · subst hj; simp [ha]
    · rw [update_of_ne hj]
      split
      · rw [update_of_ne (by omega)]; simp only [half, if_pos ‹j < privateNodes›]
      · simp only [half, if_neg ‹¬ j < privateNodes›]

theorem half_step_other {b : PrivBram} {k₀ : HeapKind} {we re : Bool} {a : Nat} {w : Node}
    (ha : a < privateNodes) (hk : k ≠ k₀) :
    half (b.step we re (privateNodes * k₀.bit + a) w) k = half b k := by
  cases we with
  | false => rfl
  | true =>
    funext j
    simp only [half, PrivBram.step, if_true]
    split
    · rw [update_of_ne]
      unfold privateNodes at *
      cases k <;> cases k₀ <;> first | exact absurd rfl hk | (simp only [HeapKind.bit]; omega)
    · rfl

/-- The BRAM serves heap `k` while the other one is silent. -/
theorem nPriv_eq (e : SymbolEngine) (hx : SymbolEngine.Silent e.bid ∨ SymbolEngine.Silent e.ask) :
    ∃ k : HeapKind, (∀ k', k' ≠ k → SymbolEngine.Silent (e.heap k')) ∧
      e.nPriv n = e.priv.step (e.heap k).privWe (e.heap k).privRe
        (privateNodes * k.bit + (e.heap k).privAddr) ((e.heap k).memWdata ⟨k, n⟩) := by
  rcases hx with hx | hx
  · refine ⟨.minHeap, fun k' hk' => by cases k' <;> [exact hx; exact absurd rfl hk'], ?_⟩
    by_cases hact : e.askActive = true
    · simp [SymbolEngine.nPriv, SymbolEngine.privAddr, SymbolEngine.privWdata, hact, hx.1, hx.2,
        SymbolEngine.heap, HeapKind.bit, askCfg, privateNodes]
    · have hoff : e.ask.privWe = false ∧ e.ask.privRe = false := by
        simpa [SymbolEngine.askActive] using hact
      simp [SymbolEngine.nPriv, PrivBram.step, hx.1, hx.2, SymbolEngine.heap, hoff]
  · refine ⟨.maxHeap, fun k' hk' => by cases k' <;> [exact absurd rfl hk'; exact hx], ?_⟩
    simp [SymbolEngine.nPriv, SymbolEngine.privAddr, SymbolEngine.privWdata,
      SymbolEngine.askActive, hx.1, hx.2, SymbolEngine.heap, HeapKind.bit, bidCfg]

/-- A clock edge of the engine is a `HeapView.Step` of each heap, as long as the other one leaves
the private BRAM alone. -/
theorem PortOk.view_step (h : s.PortOk n) (c : EngineCycle)
    (hx : SymbolEngine.Silent s.eng.bid ∨ SymbolEngine.Silent s.eng.ask) :
    (s.view n k).Step ⟨k, n⟩ (s.eng.heapIn (s.engineIn c) k) ((s.step n c).view n k) := by
  obtain ⟨k₀, hother, hpriv⟩ := nPriv_eq (n := n) s.eng hx
  have haddr : (s.eng.heap k₀).privAddr < privateNodes := Nat.mod_lt _ (by omega)
  have hmem : (s.step n c).eng.priv = s.eng.nPriv n := rfl
  refine ⟨by cases k <;> rfl, by cases k <;> rfl, ?_, ?_, h.view_port c⟩
  · by_cases hk : k = k₀
    · subst hk
      simp only [view, hmem, hpriv]
      exact half_step_own haddr
    · have hwe : (s.view n k).fsm.privWe = false := (hother k hk).1
      rw [hwe, if_neg Bool.false_ne_true]
      simp only [view, hmem, hpriv]
      exact half_step_other haddr hk
  · intro hre
    by_cases hk : k = k₀
    · subst hk
      have hre' : (s.eng.heap k).privRe = true := hre
      simp only [view, hmem, hpriv, PrivBram.step, hre', if_true, half, haddr]
    · exact absurd (hre.symm.trans (hother k hk).2) (by decide)

end EngineSys

end HftSim
