import HftSim.EngineSys

/-!
# `symbol_engine` refines the price-time order book

The reference is a `PriceTime.Trail` of the nodes the engine packs. `Serial` says which heap is at work
in each state of the trade controller; it needs nothing of the data. `Inv` adds what the heaps hold (or
will hold once their command is done): it is where the trail leads, or where it leads one trade further
on while that trade is being carried out.
-/

namespace HftSim

open Function BinHeap PriceTime

@[simp] theorem orderType_withAmount (n : Node) (a : BitVec 16) :
    orderType (withAmount n a) = orderType n := by
  simp only [orderType, withAmount, BitVec.getLsbD_append, BitVec.getLsbD_extractLsb']
  rfl

/-- What the order book reads of a node. -/
def nodeOps : Ops Node where
  isBid := orderType
  price n := (orderPrice n).toNat
  amount n := (orderAmount n).toNat
  stamp n := (orderTs n).toNat
  setAmount n a := withAmount n (BitVec.ofNat 16 a)

theorem nodeOps_lawful : nodeOps.Lawful where
  isBid_set x a := orderType_withAmount x _
  price_set x a := by simp [nodeOps]
  stamp_set x a := by simp [nodeOps]
  amount_set x a ha := by
    have := (orderAmount x).isLt
    simp only [nodeOps] at ha
    simp only [nodeOps, orderAmount_withAmount, BitVec.toNat_ofNat]
    exact Nat.mod_eq_of_lt (by omega)

/-- The side of the book a heap keeps: bids in the max-heap, asks in the min-heap. -/
def HeapKind.isBid : HeapKind → Bool
  | .maxHeap => true
  | .minHeap => false

theorem key_le_iff (k : HeapKind) (x z : Node) :
    k.key x ≤ k.key z ↔ nodeOps.before k.isBid z x = false := by
  have h1 := (orderPrice x).isLt
  have h2 := (orderPrice z).isLt
  have h3 := (orderTs x).isLt
  have h4 := (orderTs z).isLt
  rw [Ops.before_eq_false]
  cases k <;> simp only [HeapKind.key, HeapKind.isBid, nodeOps, if_true, if_false, Bool.false_eq_true] <;>
    omega

/-- The root of a heap is a best order of its side. -/
theorem HeapView.Rest.best {k : HeapKind} {n : Nat} {v : HeapView} {m : Multiset Node} (h : v.Rest ⟨k, n⟩ m)
    (h0 : v.fsm.size ≠ 0) : nodeOps.Best k.isBid m (v.node 0) :=
  ⟨h.root_mem h0, fun z hz => (key_le_iff k _ z).1 (h.root_le hz)⟩

theorem HeapView.Rest.size_eq {cfg : HeapCfg} {v : HeapView} {m : Multiset Node} (h : v.Rest cfg m) :
    v.fsm.size = m.card := by
  rw [← h.cont, card_contents]

/-! ### The states of a heap, from outside -/

namespace HeapFsm

variable {cfg : HeapCfg} {h : HeapFsm} {i : HeapIn}

/-- A heap returns to `S_IDLE` through `S_DONE` only. -/
theorem nState_ne_idle (h1 : h.state ≠ .idle) (h2 : h.state ≠ .done) : h.nState cfg i ≠ .idle := by
  have hissue : ∀ next, next ≠ HState.idle → h.issueTo i next ≠ .idle := by
    intro next hn
    unfold issueTo
    split_ifs
    exacts [hn, hn, h1]
  unfold nState
  cases hst : h.state <;> simp only [] <;>
    first
      | exact absurd hst h1
      | exact absurd hst h2
      | skip
  all_goals try split_ifs
  all_goals first
    | decide
    | exact hissue _ (by decide)

/-- An accepted command leaves `S_IDLE`. -/
theorem nState_accept (h1 : h.state = .idle) (h2 : i.cmdValid = true) : h.nState cfg i ≠ .idle := by
  simp only [nState, h1, h2, if_true]
  cases i.cmdOp <;> simp only [] <;> try split_ifs
  all_goals decide

theorem silent_of_idle (h1 : h.state = .idle ∨ h.state = .done) : SymbolEngine.Silent h := by
  rcases h1 with h1 | h1 <;>
    simp [SymbolEngine.Silent, privWe, privRe, effectiveRead, memDoRead, memDoWrite, h1]

end HeapFsm

/-- The heap that a `WAIT` state waits for. -/
def SymbolEngine.waitsFor (e : SymbolEngine) : Option HeapKind :=
  match e.tstate with
  | .pushWait => some (if e.pendingIsAsk then .minHeap else .maxHeap)
  | .peekBidWait | .popBidWait | .updateBidWait => some .maxHeap
  | .peekAskWait | .popAskWait | .updateAskWait => some .minHeap
  | _ => none

/-- The heap that an `ISSUE` state addresses. -/
def SymbolEngine.issuesTo (e : SymbolEngine) : Option HeapKind :=
  match e.tstate with
  | .pushIssue => some (if e.pendingIsAsk then .minHeap else .maxHeap)
  | .peekBidIssue | .popBidIssue | .updateBidIssue => some .maxHeap
  | .peekAskIssue | .popAskIssue | .updateAskIssue => some .minHeap
  | _ => none

namespace SymbolEngine

variable {n : Nat} {e : SymbolEngine} {i : EngineIn} {k : HeapKind}

def Calm (e : SymbolEngine) : Prop := ∀ k, (e.heap k).state = .idle

/-- Heap `k` works on a command, the other one is idle. -/
def Busy (e : SymbolEngine) (k : HeapKind) : Prop :=
  (e.heap k).state ≠ .idle ∧ ∀ k', k' ≠ k → (e.heap k').state = .idle

/-- The controller and the heaps agree on who is at work. -/
def Serial (e : SymbolEngine) : Prop :=
  match e.waitsFor with
  | none => e.Calm
  | some k => e.Busy k

theorem heap_step (k : HeapKind) :
    (e.step n i).heap k = (e.heap k).step ⟨k, n⟩ (e.heapIn i k) := by
  cases k <;> rfl

theorem state_step (k : HeapKind) :
    ((e.step n i).heap k).state = (e.heap k).nState ⟨k, n⟩ (e.heapIn i k) := by
  rw [heap_step]; rfl

/-- The command on the bus of heap `k`. -/
def cmd (e : SymbolEngine) : HeapKind → Cmd
  | .maxHeap => e.bidCmd
  | .minHeap => e.askCmd

theorem heapIn_cmd (k : HeapKind) : (e.heapIn i k).cmdValid = (e.cmd k).valid ∧
    (e.heapIn i k).cmdOp = (e.cmd k).op ∧
    (e.heapIn i k).cmdDataIn = (e.cmd k).data := by
  cases k <;> exact ⟨rfl, rfl, rfl⟩

/-- A heap has a command on its bus in the `ISSUE` and the `WAIT` states that name it. -/
theorem cmd_valid : (e.cmd k).valid = true ↔ e.issuesTo = some k ∨ e.waitsFor = some k := by
  unfold issuesTo waitsFor
  cases hst : e.tstate <;> cases hp : e.pendingIsAsk <;> cases k <;>
    simp [cmd, bidCmd, askCmd, Cmd.none, hst, hp]

theorem waitsFor_of_issuesTo (h : e.issuesTo = some k) : e.waitsFor = none := by
  unfold issuesTo at h
  unfold waitsFor
  cases hst : e.tstate <;> simp_all

/-! ### Who is at work -/

theorem again_cases : e.again = .idle ∨ e.again = .peekBidIssue := by
  unfold again
  split
  · exact .inr rfl
  · exact .inl rfl

theorem issuesTo_step (h : e.issuesTo = some k) : (e.step n i).waitsFor = some k := by
  unfold issuesTo at h
  unfold waitsFor
  cases hst : e.tstate <;> simp only [hst, reduceCtorEq] at h <;>
    simpa [step, tnState, takesOrder, hst] using h

theorem waitsFor_step (h : e.waitsFor = some k) :
    (e.step n i).waitsFor = if (e.heap k).cmdDone then none else some k := by
  have hagain := again_cases (e := e)
  unfold waitsFor at h ⊢
  cases hst : e.tstate <;> simp only [hst, reduceCtorEq, Option.some.injEq] at h
  case pushWait =>
    subst h
    rcases hagain with ha | ha <;> cases hp : e.pendingIsAsk <;> cases hb : e.bid.cmdDone <;>
      cases hk : e.ask.cmdDone <;>
      simp [step, tnState, takesOrder, heap, hst, hp,
        hb, hk, ha]
  all_goals
    subst h
    simp only [step, tnState, heap, hst]
    split_ifs <;> simp_all

theorem rest_step (h : e.issuesTo = none) (hw : e.waitsFor = none) : (e.step n i).waitsFor = none := by
  have hagain := again_cases (e := e)
  unfold issuesTo at h
  unfold waitsFor at hw ⊢
  cases hst : e.tstate <;> simp only [hst, reduceCtorEq] at h hw <;>
    simp only [step, tnState, hst]
  · split_ifs <;> rfl
  · split_ifs <;> rfl
  · rcases hagain with ha | ha <;> rw [ha] <;> split_ifs <;> rfl

theorem idle_step (h1 : (e.heap k).state = .idle) (h2 : (e.cmd k).valid = false) :
    ((e.step n i).heap k).state = .idle := by
  have hv := (heapIn_cmd (e := e) (i := i) k).1.trans h2
  rw [state_step]; simp [HeapFsm.nState, h1, hv]

theorem serial_reset (b : PrivBram) : (SymbolEngine.reset b).Serial := fun k => by cases k <;> rfl

theorem Serial.step (h : e.Serial) : (e.step n i).Serial := by
  unfold Serial at h ⊢
  have hoth : ∀ k, e.issuesTo = some k ∨ e.waitsFor = some k → ∀ k', k' ≠ k →
      (e.heap k').state = .idle → ((e.step n i).heap k').state = .idle := by
    intro k hk k' hk' hidle
    refine idle_step hidle (Bool.eq_false_iff.2 fun hv => hk' ?_)
    rcases hk with hk | hk <;> rcases cmd_valid.1 hv with hv | hv
    · exact Option.some.inj (hv.symm.trans hk)
    · rw [waitsFor_of_issuesTo hk] at hv; cases hv
    · rw [waitsFor_of_issuesTo hv] at hk; cases hk
    · exact Option.some.inj (hv.symm.trans hk)
  cases hw : e.waitsFor with
  | some k =>
    rw [hw] at h
    rw [waitsFor_step hw]
    by_cases hd : (e.heap k).state = .done
    · rw [if_pos (by simp [HeapFsm.cmdDone, hd])]
      intro k'
      by_cases hk' : k' = k
      · subst hk'; rw [state_step]; simp [HeapFsm.nState, hd]
      · exact hoth k (.inr hw) k' hk' (h.2 k' hk')
    · rw [if_neg (by simp [HeapFsm.cmdDone, hd])]
      refine ⟨?_, fun k' hk' => hoth k (.inr hw) k' hk' (h.2 k' hk')⟩
      rw [state_step]; exact HeapFsm.nState_ne_idle h.1 hd
  | none =>
    rw [hw] at h
    cases hi : e.issuesTo with
    | none =>
      rw [rest_step hi hw]
      refine fun k => idle_step (h k) (Bool.eq_false_iff.2 fun hv => ?_)
      rcases cmd_valid.1 hv with hv | hv
      · rw [hi] at hv; cases hv
      · rw [hw] at hv; cases hv
    | some k =>
      rw [issuesTo_step hi]
      refine ⟨?_, fun k' hk' => hoth k (.inl hi) k' hk' (h k')⟩
      rw [state_step]
      exact HeapFsm.nState_accept (h k) ((heapIn_cmd k).1.trans (cmd_valid.2 (.inl hi)))

theorem Serial.calm (h : e.Serial) (hw : e.waitsFor = none) : e.Calm := by
  unfold Serial at h; rw [hw] at h; exact h

theorem Serial.busy (h : e.Serial) (hw : e.waitsFor = some k) : e.Busy k := by
  unfold Serial at h; rw [hw] at h; exact h

theorem Serial.idle_heap (h : e.Serial) : ∃ k, (e.heap k).state = .idle := by
  cases hw : e.waitsFor with
  | none => exact ⟨.maxHeap, h.calm hw .maxHeap⟩
  | some k =>
    cases k
    · exact ⟨.minHeap, (h.busy hw).2 .minHeap (by decide)⟩
    · exact ⟨.maxHeap, (h.busy hw).2 .maxHeap (by decide)⟩

theorem Serial.silent (h : e.Serial) : Silent e.bid ∨ Silent e.ask := by
  obtain ⟨k, hk⟩ := h.idle_heap
  cases k
  · exact .inl (HeapFsm.silent_of_idle (.inl hk))
  · exact .inr (HeapFsm.silent_of_idle (.inl hk))

end SymbolEngine

namespace EngineSys

variable {n : Nat} {s : EngineSys} {c : EngineCycle} {k : HeapKind} {g : HeapKind → HeapGhost}
  {ok : (Bool → Multiset Node) → Node → Prop} {ps : List (Bool → Node)}

def snap (s : EngineSys) : HeapKind → Node
  | .maxHeap => s.eng.bidRootSnap
  | .minHeap => s.eng.askRootSnap

/-- The side of the book that heap `k` keeps, by its type bit. -/
def kindOf (bid : Bool) : HeapKind := if bid then .maxHeap else .minHeap

def pool (g : HeapKind → HeapGhost) (bid : Bool) : Multiset Node := (g (kindOf bid)).nodes

def snaps (s : EngineSys) (bid : Bool) : Node := s.snap (kindOf bid)

/-- A trail of the orders taken and the pairs whose trades have been handed over leads to `m`. -/
def Led (s : EngineSys) (ok : (Bool → Multiset Node) → Node → Prop) (ps : List (Bool → Node))
    (m : Bool → Multiset Node) : Prop :=
  TrailIf nodeOps ok s.orders ps m ∧ s.trades = ps.map nodeOps.deal

def TwoSided (s : EngineSys) : Prop := ∀ k, (s.eng.heap k).size ≠ 0

/-- The snapped root of heap `k` is its root. -/
def Shown (s : EngineSys) (k : HeapKind) : Prop :=
  (s.eng.heap k).size ≠ 0 ∧ (s.eng.heap k).nodeCache 0 = s.snap k

/-- Heap `k` is about to answer a `PEEK`. -/
def Peeked (s : EngineSys) (k : HeapKind) : Prop :=
  (s.eng.heap k).state = .done ∧ (s.eng.heap k).savedOp = .peek

/-- The snapped roots trade; `done k` says that heap `k` has arrived behind the trade. -/
structure Deal (s : EngineSys) (ok : (Bool → Multiset Node) → Node → Prop) (ps : List (Bool → Node))
    (g : HeapKind → HeapGhost) (done : HeapKind → Bool) : Prop where
  led : ∃ m, s.Led ok ps m ∧ nodeOps.Match m s.snaps ∧
    ∀ k, (g k).nodes = if done k then nodeOps.after m s.snaps k.isBid else m k.isBid
  shown : ∀ k, done k = false → s.Shown k
  event : s.eng.tradeEventData = nodeOps.deal s.snaps
  pending : s.eng.tradeEventPending = true
  partialBid : s.eng.latchedPartialBid = decide (nodeOps.amount (s.snap .minHeap) < nodeOps.amount (s.snap .maxHeap))
  partialAsk : s.eng.latchedPartialAsk = decide (nodeOps.amount (s.snap .maxHeap) < nodeOps.amount (s.snap .minHeap))

/-- What holds in each state of the trade controller. -/
def Ctrl (s : EngineSys) (ok : (Bool → Multiset Node) → Node → Prop) (ps : List (Bool → Node))
    (g : HeapKind → HeapGhost) : Prop :=
  match s.eng.tstate with
  | .idle => s.Led ok ps (pool g) ∧ ∀ p, ¬ nodeOps.Match (pool g) p
  | .pushIssue => s.eng.pendingIsAsk = !orderType s.eng.pendingOrder ∧
      s.Led ok ps (nodeOps.put (pool g) s.eng.pendingOrder)
  | .pushWait => s.Led ok ps (pool g)
  | .peekBidIssue => s.Led ok ps (pool g) ∧ s.TwoSided
  | .peekBidWait => s.Led ok ps (pool g) ∧ s.TwoSided ∧ s.Peeked .maxHeap
  | .peekAskIssue => s.Led ok ps (pool g) ∧ s.TwoSided ∧ s.Shown .maxHeap
  | .peekAskWait => s.Led ok ps (pool g) ∧ s.TwoSided ∧ s.Shown .maxHeap ∧ s.Peeked .minHeap
  | .decide => s.Led ok ps (pool g) ∧ ∀ k, s.Shown k
  | .popBidIssue => s.Deal ok ps g (fun _ => false) ∧ s.eng.latchedPartialBid = false
  | .popBidWait => s.Deal ok ps g (fun k => k.isBid) ∧ s.eng.latchedPartialBid = false
  | .popAskIssue => s.Deal ok ps g (fun k => k.isBid && !s.eng.latchedPartialBid) ∧ s.eng.latchedPartialAsk = false
  | .popAskWait => s.Deal ok ps g (fun k => !k.isBid || !s.eng.latchedPartialBid)
  | .updateBidIssue => s.Deal ok ps g (fun k => !k.isBid) ∧ s.eng.latchedPartialBid = true
  | .updateBidWait => s.Deal ok ps g (fun _ => true)
  | .updateAskIssue => s.Deal ok ps g (fun k => k.isBid) ∧ s.eng.latchedPartialAsk = true
  | .updateAskWait => s.Deal ok ps g (fun _ => true)
  | .emitTrade => s.Deal ok ps g (fun _ => true)

/-- The invariant of an engine. `ok` is what is known of the orders when they come in, `ps` are the
pairs of roots whose trades have been handed over, `g` is what the heaps hold. -/
structure Inv (n : Nat) (s : EngineSys) (ok : (Bool → Multiset Node) → Node → Prop) (ps : List (Bool → Node))
    (g : HeapKind → HeapGhost) : Prop where
  port : s.PortOk n
  heap : ∀ k, (s.view n k).Inv ⟨k, n⟩ (g k)
  serial : s.eng.Serial
  ctrl : s.Ctrl ok ps g

/-! ### One cycle of the heaps -/

def nextGhost (n : Nat) (s : EngineSys) (c : EngineCycle) (g : HeapKind → HeapGhost) (k : HeapKind) :
    HeapGhost :=
  (g k).next (s.view n k) (s.eng.heapIn (s.engineIn c) k)

/-- The roots whose trade is handed over in this cycle. -/
def nextPairs (s : EngineSys) (c : EngineCycle) (ps : List (Bool → Node)) : List (Bool → Node) :=
  if s.eng.tradeOutValid && c.tradeOutReady then ps ++ [s.snaps] else ps

theorem heap_step (k : HeapKind) :
    (s.step n c).eng.heap k = (s.eng.heap k).step ⟨k, n⟩ (s.eng.heapIn (s.engineIn c) k) :=
  SymbolEngine.heap_step k

theorem state_step (k : HeapKind) :
    ((s.step n c).eng.heap k).state = (s.eng.heap k).nState ⟨k, n⟩ (s.eng.heapIn (s.engineIn c) k) :=
  SymbolEngine.state_step k

/-! ### What stays -/

/-- Only an `ISSUE` state changes what a heap holds. -/
theorem ghost_eq (h : s.eng.Serial) (hk : s.eng.issuesTo ≠ some k) : nextGhost n s c g k = g k := by
  have hv := (SymbolEngine.heapIn_cmd (e := s.eng) (i := s.engineIn c) k).1
  unfold nextGhost HeapGhost.next
  refine if_neg fun hc => ?_
  obtain ⟨hidle, hc⟩ := hc
  rw [hv] at hc
  rcases SymbolEngine.cmd_valid.1 hc with hi | hw
  · exact hk hi
  · exact (h.busy hw).1 hidle

theorem pool_eq (h : s.eng.Serial) (hi : s.eng.issuesTo = none) : pool (nextGhost n s c g) = pool g := by
  funext bid
  unfold pool
  rw [ghost_eq h (by rw [hi]; exact fun hc => by cases hc)]

/-- A heap that has nothing to do, or is done, keeps its registers. -/
theorem core_eq (h : s.eng.Serial) (hk : s.eng.issuesTo ≠ some k)
    (hd : s.eng.waitsFor = some k → (s.eng.heap k).state = .done) :
    ((s.step n c).eng.heap k).core = (s.eng.heap k).core := by
  have hv := (SymbolEngine.heapIn_cmd (e := s.eng) (i := s.engineIn c) k).1
  rw [heap_step]
  by_cases hw : s.eng.waitsFor = some k
  · simp [HeapFsm.step, HeapFsm.core, HeapFsm.regs, hd hw]
  · have hidle : (s.eng.heap k).state = .idle := by
      cases hw' : s.eng.waitsFor with
      | none => exact h.calm hw' k
      | some k' => exact (h.busy hw').2 k fun hc => hw (by rw [hw', hc])
    have hno : (s.eng.cmd k).valid = false := Bool.eq_false_iff.2 fun hc => (SymbolEngine.cmd_valid.1 hc).elim hk hw
    rw [hno] at hv
    simp [HeapFsm.step, HeapFsm.core, HeapFsm.regs, hidle, hv]

theorem size_of_core {h h' : HeapFsm} (hc : h'.core = h.core) : h'.size = h.size ∧ h'.nodeCache = h.nodeCache :=
  ⟨congrArg HeapFsm.Core.size hc, congrArg HeapFsm.Core.nodeCache hc⟩

theorem Shown.frame {s' : EngineSys} (h : s.Shown k) (hc : (s'.eng.heap k).core = (s.eng.heap k).core)
    (hs : s'.snap k = s.snap k) : s'.Shown k := by
  unfold Shown
  rw [(size_of_core hc).1, (size_of_core hc).2, hs]
  exact h

theorem orders_step (h : s.eng.tstate ≠ .idle) : (s.step n c).orders = s.orders := by
  simp [step, SymbolEngine.takesOrder, h]

theorem trades_step (h : s.eng.tstate ≠ .emitTrade) : (s.step n c).trades = s.trades := by
  simp [step, SymbolEngine.tradeOutValid, h]

theorem nextPairs_eq (h : s.eng.tstate ≠ .emitTrade) : nextPairs s c ps = ps := by
  simp [nextPairs, SymbolEngine.tradeOutValid, h]

theorem snap_bid_step (h : s.eng.tstate ≠ .peekBidWait) :
    (s.step n c).snap .maxHeap = s.snap .maxHeap := by
  simp [step, snap, SymbolEngine.step, h]

theorem snap_ask_step (h : s.eng.tstate ≠ .peekAskWait) :
    (s.step n c).snap .minHeap = s.snap .minHeap := by
  simp [step, snap, SymbolEngine.step, h]

theorem Led.frame {s' : EngineSys} {m : Bool → Multiset Node} (h : s.Led ok ps m) (ho : s'.orders = s.orders)
    (ht : s'.trades = s.trades) : s'.Led ok ps m := by
  unfold Led; rw [ho, ht]; exact h

/-- The orders and trades stay but in `T_IDLE` and `T_EMIT_TRADE`. -/
theorem Led.step {m : Bool → Multiset Node} (h : s.Led ok ps m) (h1 : s.eng.tstate ≠ .idle) (h2 : s.eng.tstate ≠ .emitTrade) :
    (s.step n c).Led ok ps m :=
  h.frame (orders_step h1) (trades_step h2)

theorem latched_step (h : s.eng.tstate ≠ .decide) :
    (s.step n c).eng.latchedPartialBid = s.eng.latchedPartialBid ∧
      (s.step n c).eng.latchedPartialAsk = s.eng.latchedPartialAsk := by
  simp [step, SymbolEngine.step, SymbolEngine.trades, h]

/-- The states in which a trade is being carried out. -/
def dealing : TState → Bool
  | .popBidIssue | .popBidWait | .popAskIssue | .popAskWait => true
  | .updateBidIssue | .updateBidWait | .updateAskIssue | .updateAskWait => true
  | _ => false

theorem snap_step (hd : dealing s.eng.tstate = true ∨ s.eng.tstate = .emitTrade ∨ s.eng.tstate = .decide) (k : HeapKind) :
    (s.step n c).snap k = s.snap k := by
  have h : s.eng.tstate ≠ .peekBidWait ∧ s.eng.tstate ≠ .peekAskWait := by
    refine ⟨fun hc => ?_, fun hc => ?_⟩ <;> rw [hc] at hd <;> simp [dealing] at hd
  cases k
  · exact snap_bid_step h.1
  · exact snap_ask_step h.2

theorem snaps_step (hd : dealing s.eng.tstate = true ∨ s.eng.tstate = .emitTrade ∨ s.eng.tstate = .decide) :
    (s.step n c).snaps = s.snaps := funext fun _ => snap_step hd _

end EngineSys

end HftSim
