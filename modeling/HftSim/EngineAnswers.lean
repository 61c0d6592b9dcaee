import HftSim.EngineInv

/-!
# Whose answer it is

`Rig` is `symbol_engine` before an MMU of which nothing is known but that it gives one answer to each
request it takes; the answer may come at any time, may be a reject, and may carry any data. A sift-down
can issue a read past the end of the heap and move on in the same cycle, so an answer may come that nobody
waits for. `Rig.answer_taken` says that no heap takes it: the registers of a heap depend on the answer
only in a `WAIT` state whose own request is the one being answered.
-/

namespace HftSim

open Function

/-- What the outside does in one cycle. `answer` is `some true` for `mmu_resp_valid` and `some false` for
`mmu_resp_reject`; it says nothing when no request is unanswered. -/
structure RigCycle where
  nowTs : BitVec 32
  orderInValid : Bool
  orderInData : DispatchOrder
  tradeOutReady : Bool
  ready : Bool
  answer : Option Bool
  data : Node

/-- The engine, the unanswered request, and the request each heap has issued on entering its `WAIT` state,
`none` for an access to the private BRAM. -/
structure Rig where
  eng : SymbolEngine
  out : Option Req
  asked : HeapKind → Option Req

def HState.readWait : HState → Bool
  | .pushRdParentWait | .popRdRootWait | .popRdLastWait | .popSiftRdLeftWait | .popSiftRdRightWait
  | .peekRdWait => true
  | _ => false

def HState.writeWait : HState → Bool
  | .pushWrDownWait | .pushWrFinalWait | .popSiftWrUpWait | .popSiftWrFinalWait | .updateWrWait => true
  | _ => false

/-- One of the `*_WAIT` states. -/
def HState.waits (s : HState) : Bool := s.readWait || s.writeWait

namespace Rig

def init (b : PrivBram) : Rig := ⟨.reset b, none, fun _ => none⟩

def engineIn (s : Rig) (c : RigCycle) : EngineIn where
  nowTs := c.nowTs
  orderInValid := c.orderInValid
  orderInData := c.orderInData
  tradeOutReady := c.tradeOutReady
  mmuReqReady := c.ready
  mmuRespData := c.data
  mmuRespValid := s.out.isSome && c.answer == some true
  mmuRespReject := s.out.isSome && c.answer == some false

def step (n : Nat) (s : Rig) (c : RigCycle) : Rig where
  eng := s.eng.step n (s.engineIn c)
  out := match s.out with
    | none => if c.ready then s.eng.mmuReq n else none
    | some r => if c.answer.isSome then none else some r
  asked k :=
    if !(s.eng.heap k).state.waits && ((s.eng.step n (s.engineIn c)).heap k).state.waits then
      if (s.eng.heap k).virtReqValid then some ((s.eng.heap k).virtReq ⟨k, n⟩) else none
    else s.asked k

def run (n : Nat) (b : PrivBram) (cs : List RigCycle) : Rig := cs.foldl (step n) (init b)

theorem run_snoc (n : Nat) (b : PrivBram) (cs : List RigCycle) (c : RigCycle) :
    run n b (cs ++ [c]) = (run n b cs).step n c := by
  simp [run, List.foldl_append]

end Rig

/-! ### The `WAIT` states -/

def HeapIn.unanswered (i : HeapIn) : HeapIn :=
  { i with virtRespValid := false, virtRespReject := false, virtRespData := 0 }

namespace HeapFsm

variable {cfg : HeapCfg} {h : HeapFsm} {i : HeapIn}

/-- Before the root is read from memory, slot 0 of the cache is not valid. -/
def RootUncached (h : HeapFsm) : Prop :=
  match h.state with
  | .popRdRootIssue | .popRdRootWait | .peekRdIssue | .peekRdWait => h.nodeCacheValid 0 = false
  | _ => True

theorem RootUncached.step (hu : h.RootUncached) : (h.step cfg i).RootUncached := by
  unfold RootUncached
  have hst' : (h.step cfg i).state = h.nState cfg i := rfl
  have hval : (h.step cfg i).nodeCacheValid = (h.regs cfg i).nodeCacheValid := rfl
  rw [hst', hval]
  unfold RootUncached at hu
  unfold nState regs
  cases hst : h.state <;> simp only [hst] at hu ⊢
  case idle =>
    by_cases hv : i.cmdValid = true
    · simp only [hv, if_true]
      cases i.cmdOp <;> simp only [] <;> split_ifs <;> simp_all
    · simp only [hv]; trivial
  case popLaunch =>
    by_cases h0 : h.nodeCacheValid 0 = true
    · simp only [h0, if_true]; split_ifs <;> trivial
    · simp only [h0]; split_ifs <;> simp_all
  all_goals first
    | trivial
    | split_ifs <;> trivial
    | unfold issueTo; split_ifs <;> simp_all

/-- Only the `WAIT` states look at the answer. -/
theorem step_unanswered (hw : h.state.waits = false) : h.step cfg i = h.step cfg i.unanswered := by
  have hn : h.nState cfg i = h.nState cfg i.unanswered ∧ h.regs cfg i = h.regs cfg i.unanswered := by
    unfold nState regs
    cases hst : h.state <;> rw [hst] at hw <;> first | exact absurd hw (by decide) | exact ⟨rfl, rfl⟩
  unfold HeapFsm.step
  rw [hn.1, hn.2]

/-- A `WAIT` state lasts until the access is done or rejected, and is not followed by another one. -/
theorem waits_step (hw : h.state.waits = true) :
    (h.nState cfg i).waits = false ∨ h.nState cfg i = h.state ∧ i.virtRespValid = false ∧ i.virtRespReject = false ∧
      (h.state.readWait = true → h.privReD1 = false) ∧ (h.state.writeWait = true → h.privWeD1 = false) := by
  unfold nState readDone writeDone
  cases hst : h.state <;> rw [hst] at hw <;> first
    | exact absurd hw (by decide)
    | simp only [HState.readWait, HState.writeWait]
      split_ifs <;> simp_all [HState.waits, HState.readWait, HState.writeWait]

/-- A `WAIT` state is entered when the private BRAM or the port takes the access. -/
theorem waits_enter (hu : h.RootUncached) (hw : h.state.waits = false) (hw' : (h.nState cfg i).waits = true) :
    (h.memTargetPriv = true ∨ i.virtReqReady = true) ∧
      ((h.nState cfg i).readWait = true → h.effectiveRead = true) ∧
      ((h.nState cfg i).writeWait = true → h.memDoWrite = true) := by
  -- an access goes to its `WAIT` state from its `ISSUE` state only
  have hissue : ∀ next, (h.issueTo i next).waits = true →
      (h.memTargetPriv = true ∨ i.virtReqReady = true) ∧ h.issueTo i next = next := by
    intro next hn
    unfold issueTo at hn ⊢
    split_ifs at hn ⊢ with h1 h2
    · exact ⟨.inl h1, rfl⟩
    · exact ⟨.inr h2, rfl⟩
    · rw [hw] at hn; cases hn
  unfold RootUncached at hu
  unfold nState at hw' ⊢
  unfold effectiveRead memIdxCached memDoRead memDoWrite memIdx at *
  cases hst : h.state <;> rw [hst] at hw <;> simp only [hst] at hu hw' ⊢ <;> first
    | exact absurd hw (by decide)
    | skip
  case idle =>
    cases hop : i.cmdOp <;> simp only [hop] at hw' <;> split_ifs at hw' <;> exact absurd hw' (by decide)
  all_goals
    split_ifs at hw' ⊢ <;> first
      | exact absurd hw' (by decide)
      | obtain ⟨hgo, he⟩ := hissue _ hw'
        rw [he]
        refine ⟨hgo, fun hr => ?_, fun hr => ?_⟩ <;> first
          | exact absurd hr (by decide)
          | rfl
          | simp [*]

/-- An access to the private BRAM does not look at the answer either. -/
theorem step_private (hw : h.state.waits = true) (hr : h.state.readWait = true → h.privReD1 = true)
    (hx : h.state.writeWait = true → h.privWeD1 = true) : h.step cfg i = h.step cfg i.unanswered := by
  have hdone : h.state.readWait = true → h.readDone i = true ∧ h.readDone i.unanswered = true ∧
      h.readData i = h.readData i.unanswered := fun hrw => by
    simp [readDone, readData, hr hrw, HeapIn.unanswered]
  have hdone' : h.state.writeWait = true → h.writeDone i = true ∧ h.writeDone i.unanswered = true := fun hww => by
    simp [writeDone, hx hww]
  have hn : h.nState cfg i = h.nState cfg i.unanswered ∧ h.regs cfg i = h.regs cfg i.unanswered := by
    unfold nState regs
    cases hst : h.state <;> rw [hst] at hw hdone hdone' <;> first
      | exact absurd hw (by decide)
      | obtain ⟨h1, h2, h3⟩ := hdone rfl
        simp only [h1, h2, h3, if_true, and_self]
      | obtain ⟨h1, h2⟩ := hdone' rfl
        simp only [h1, h2, if_true, and_self]
  unfold HeapFsm.step
  rw [hn.1, hn.2]

theorem quiet_of_waits (hw : h.state.waits = true) : h.memDoRead = false ∧ h.memDoWrite = false := by
  unfold memDoRead memDoWrite
  cases hst : h.state <;> rw [hst] at hw <;> first | exact absurd hw (by decide) | exact ⟨rfl, rfl⟩

end HeapFsm

/-! ### The mux -/

namespace Rig

variable {n : Nat} {s : Rig} {c : RigCycle} {k : HeapKind}

/-- A heap in a `WAIT` state waits for the private BRAM, which answers now, or for its own request. -/
def Awaits (s : Rig) (k : HeapKind) : Prop :=
  match s.asked k with
  | none => ((s.eng.heap k).state.readWait = true → (s.eng.heap k).privReD1 = true) ∧
      ((s.eng.heap k).state.writeWait = true → (s.eng.heap k).privWeD1 = true)
  | some r => s.eng.mmuOwner = k.owner ∧ s.out = some r ∧ (s.eng.heap k).privReD1 = false ∧
      (s.eng.heap k).privWeD1 = false

structure Inv (s : Rig) : Prop where
  root : ∀ k, (s.eng.heap k).RootUncached
  idle : s.eng.mmuOwner = .idle → s.out = none
  busy : s.eng.mmuOwner ≠ .idle → s.out.isSome = true
  wait : ∀ k, (s.eng.heap k).state.waits = true → s.Awaits k

theorem heap_step (k : HeapKind) :
    (s.step n c).eng.heap k = (s.eng.heap k).step ⟨k, n⟩ (s.eng.heapIn (s.engineIn c) k) :=
  SymbolEngine.heap_step k

theorem Inv.owner_step (h : s.Inv) (ho : s.eng.mmuOwner ≠ .idle) :
    (c.answer.isSome = true ∧ (s.step n c).eng.mmuOwner = .idle ∧ (s.step n c).out = none) ∨
      (c.answer = none ∧ (s.step n c).eng.mmuOwner = s.eng.mmuOwner ∧ (s.step n c).out = s.out) := by
  obtain ⟨r, hr⟩ := Option.isSome_iff_exists.1 (h.busy ho)
  have hn : (s.step n c).eng.mmuOwner = _ := SymbolEngine.nOwner_of_busy (i := s.engineIn c) ho
  rw [hn]
  simp only [step, engineIn, hr]
  rcases c.answer with _ | _ | _
  · exact .inr ⟨rfl, rfl, rfl⟩
  · exact .inl ⟨rfl, rfl, rfl⟩
  · exact .inl ⟨rfl, rfl, rfl⟩

/-- A free mux passes the request of the heap it grants. -/
theorem Inv.grant_step (h : s.Inv) (hg : (s.eng.heapIn (s.engineIn c) k).virtReqReady = true) :
    (s.step n c).eng.mmuOwner = k.owner ∧ (s.step n c).out = some ((s.eng.heap k).virtReq ⟨k, n⟩) := by
  rw [(SymbolEngine.heapIn_req s.eng (s.engineIn c) k).1] at hg
  have hready : c.ready = true := (Bool.and_eq_true _ _ ▸ hg).2
  obtain ⟨ho, -, hreq⟩ := SymbolEngine.grant_eq_true (n := n) (Bool.and_eq_true _ _ ▸ hg).1
  constructor
  · exact (SymbolEngine.nOwner_of_idle ho).2 hg
  · simp only [step, h.idle ho, hready, if_true, hreq]

theorem Inv.owner_out (h : s.Inv) (c : RigCycle) :
    ((s.step n c).eng.mmuOwner = .idle → (s.step n c).out = none) ∧
      ((s.step n c).eng.mmuOwner ≠ .idle → (s.step n c).out.isSome = true) := by
  by_cases ho : s.eng.mmuOwner = .idle
  · have hout : (s.step n c).out = if c.ready then s.eng.mmuReq n else none := by
      simp only [step, h.idle ho]
    have hown : ∀ k, (s.step n c).eng.mmuOwner = HeapKind.owner k ↔ (s.eng.grant k && c.ready) = true := fun k =>
      SymbolEngine.nOwner_of_idle (i := s.engineIn c) ho
    constructor
    · intro hidle
      rw [hout]
      by_contra hne
      simp only [ite_eq_right_iff, not_forall] at hne
      obtain ⟨hr, hne⟩ := hne
      have hb := (hown .maxHeap).not.1 (by rw [hidle]; decide)
      have ha := (hown .minHeap).not.1 (by rw [hidle]; decide)
      simp only [hr, Bool.and_true, Bool.not_eq_true, SymbolEngine.grant] at hb ha
      exact hne (by simp [SymbolEngine.mmuReq, hb, ha])
    · intro hbusy
      rcases EngineSys.owner_cases (s.step n c).eng.mmuOwner with hidle | ⟨k, hk⟩
      · exact absurd hidle hbusy
      · have hg := (hown k).1 hk
        simp only [Bool.and_eq_true] at hg
        rw [hout, hg.2, (SymbolEngine.grant_eq_true (n := n) hg.1).2.2]
        rfl
  · rcases h.owner_step (n := n) (c := c) ho with ⟨-, hidle, hout⟩ | ⟨-, hsame, hout⟩
    · exact ⟨fun _ => hout, fun hbusy => absurd hidle hbusy⟩
    · rw [hsame, hout]
      exact ⟨fun hidle => absurd hidle ho, fun _ => h.busy ho⟩

/-- A heap that goes on waiting waits for the same request. -/
theorem Inv.wait_hold (h : s.Inv) (hw : (s.eng.heap k).state.waits = true)
    (hw' : ((s.step n c).eng.heap k).state.waits = true) : (s.step n c).Awaits k := by
  rw [heap_step] at hw'
  rcases @HeapFsm.waits_step ⟨k, n⟩ _ (s.eng.heapIn (s.engineIn c) k) hw with
    hno | ⟨-, hval, hrej, hr1, hw1⟩
  · exact absurd (hw'.symm.trans hno) (by decide)
  have hasked : (s.step n c).asked k = s.asked k := by
    simp [step, hw]
  have hquiet := HeapFsm.quiet_of_waits hw
  have hwait := h.wait k hw
  unfold Awaits at hwait ⊢
  rw [hasked, heap_step]
  rcases ha : s.asked k with _ | r
  · rw [ha] at hwait
    -- the BRAM would have answered
    exfalso
    rcases Bool.or_eq_true _ _ ▸ hw with hrw | hww
    · rw [hr1 hrw] at hwait; exact absurd (hwait.1 hrw) (by decide)
    · rw [hw1 hww] at hwait; exact absurd (hwait.2 hww) (by decide)
  · rw [ha] at hwait
    obtain ⟨ho, hout, -, -⟩ := hwait
    rw [(SymbolEngine.heapIn_req _ _ _).2.1] at hval
    rw [(SymbolEngine.heapIn_req _ _ _).2.2.1] at hrej
    simp only [ho, decide_true, Bool.true_and, engineIn, hout, Option.isSome_some] at hval hrej
    rcases h.owner_step (n := n) (c := c) (by rw [ho]; exact EngineSys.owner_ne_idle k) with ⟨hans, -, -⟩ | ⟨-, ho', hout'⟩
    · rcases hc : c.answer with _ | _ | _ <;> rw [hc] at hans hval hrej
      · cases hans
      · exact absurd hrej (by decide)
      · exact absurd hval (by decide)
    · refine ⟨ho'.trans ho, hout'.trans hout, ?_, ?_⟩
      · show (s.eng.heap k).privRe = false
        simp [HeapFsm.privRe, HeapFsm.effectiveRead, hquiet.1]
      · show (s.eng.heap k).privWe = false
        simp [HeapFsm.privWe, hquiet.2]

/-- A heap that begins to wait waits for the access it issues. -/
theorem Inv.wait_enter (h : s.Inv) (hw : (s.eng.heap k).state.waits = false)
    (hw' : ((s.step n c).eng.heap k).state.waits = true) : (s.step n c).Awaits k := by
  have hasked : (s.step n c).asked k =
      if (s.eng.heap k).virtReqValid then some ((s.eng.heap k).virtReq ⟨k, n⟩) else none := by
    have hw'' : ((s.eng.step n (s.engineIn c)).heap k).state.waits = true := hw'
    simp [step, hw, hw'']
  have hstate : ((s.step n c).eng.heap k).state = (s.eng.heap k).nState ⟨k, n⟩ (s.eng.heapIn (s.engineIn c) k) := by
    rw [heap_step]; rfl
  have hre : ((s.step n c).eng.heap k).privReD1 = (s.eng.heap k).privRe := by rw [heap_step]; rfl
  have hwe : ((s.step n c).eng.heap k).privWeD1 = (s.eng.heap k).privWe := by rw [heap_step]; rfl
  rw [hstate] at hw'
  obtain ⟨hgo, hread, hwrite⟩ := HeapFsm.waits_enter (h.root k) hw hw'
  unfold Awaits
  rw [hasked, hstate, hre, hwe]
  by_cases hp : (s.eng.heap k).memTargetPriv = true
  · have hval : (s.eng.heap k).virtReqValid = false := by simp [HeapFsm.virtReqValid, hp]
    rw [hval]
    refine ⟨fun hr => ?_, fun hr => ?_⟩
    · simp [HeapFsm.privRe, hread hr, hp]
    · simp [HeapFsm.privWe, hwrite hr, hp]
  · have hval : (s.eng.heap k).virtReqValid = true := by
      rcases Bool.or_eq_true _ _ ▸ hw' with hr | hr
      · simp [HeapFsm.virtReqValid, hread hr, hp]
      · simp [HeapFsm.virtReqValid, hwrite hr, hp]
    rw [hval]
    obtain ⟨ho, hout⟩ := h.grant_step (n := n) (hgo.resolve_left hp)
    refine ⟨ho, hout, ?_, ?_⟩
    · simp [HeapFsm.privRe, hp]
    · simp [HeapFsm.privWe, hp]

theorem Inv.step (h : s.Inv) (c : RigCycle) : (s.step n c).Inv where
  root k := by rw [heap_step]; exact (h.root k).step
  idle := (h.owner_out c).1
  busy := (h.owner_out c).2
  wait k hw' := by
    cases hw : (s.eng.heap k).state.waits with
    | true => exact h.wait_hold hw hw'
    | false => exact h.wait_enter hw hw'

theorem run_inv (n : Nat) (b : PrivBram) (cs : List RigCycle) : (run n b cs).Inv := by
  induction cs using List.reverseRecOn with
  | nil =>
    refine ⟨fun k => ?_, fun _ => rfl, fun hne => absurd rfl hne, fun k hk => ?_⟩
    · cases k <;> trivial
    · cases k <;> cases hk
  | append_singleton cs c ih => rw [run_snoc]; exact ih.step c

/-- In every state the engine can reach, a heap in a `WAIT` state that it has entered with a virtual access
owns the mux, and the one unanswered request is the one it has issued; and the registers of a heap depend
on an answer only if it answers that request. So the answer to a read that was issued and abandoned is
never taken for another one. -/
theorem answer_taken (n : Nat) (b : PrivBram) (cs : List RigCycle) (k : HeapKind) :
    (∀ r, ((run n b cs).eng.heap k).state.waits = true → (run n b cs).asked k = some r →
      (run n b cs).eng.mmuOwner = k.owner ∧ (run n b cs).out = some r) ∧
    ∀ c, ((run n b (cs ++ [c])).eng.heap k = ((run n b cs).eng.heap k).step ⟨k, n⟩
          ((run n b cs).eng.heapIn ((run n b cs).engineIn c) k).unanswered) ∨
        ((run n b cs).eng.heap k).state.waits = true ∧ ∃ r, (run n b cs).asked k = some r ∧ (run n b cs).out = some r := by
  have hinv := run_inv n b cs
  constructor
  · intro r hw ha
    have := hinv.wait k hw
    rw [Awaits, ha] at this
    exact ⟨this.1, this.2.1⟩
  · intro c
    rw [run_snoc, heap_step]
    cases hw : ((run n b cs).eng.heap k).state.waits with
    | false => exact .inl (HeapFsm.step_unanswered hw)
    | true =>
      have := hinv.wait k hw
      rw [Awaits] at this
      rcases ha : (run n b cs).asked k with _ | r
      · rw [ha] at this
        exact .inl (HeapFsm.step_private hw this.1 this.2)
      · rw [ha] at this
        exact .inr ⟨rfl, r, rfl, this.2.1⟩

end Rig

end HftSim
