import HftSim.Lib.Progress
import HftSim.EngineProgress
import HftSim.MmuFair
import HftSim.TopLanes

/-!
# A batch comes to an end

In a run without a reset every lane is drained, unless its engine gets stuck: a `PUSH` adds a leaf for which
the MMU has no slot left and is turned down again and again (`Stuck`), or a trade waits for a log that is full
(`Blocked`). Orders left, work left for the order taken (`SymbolEngine.work`) and what the engine waits for
(`Waits`) go down lexicographically in every cycle (`Sound.lane_step`). Both ways of being held up last, so
`trade_done` comes exactly when neither happens.
-/

namespace HftSim

open Function Progress

/-- Of two heaps one of which is at work, the mux grants that one. -/
theorem SymbolEngine.grant_of_busy {e : SymbolEngine} {k : HeapKind} (h : e.Busy k) (ho : e.mmuOwner = .idle) :
    e.grant k = (e.heap k).virtReqValid := by
  have hother : ∀ k', k' ≠ k → (e.heap k').virtReqValid = false := fun k' hk' => by
    simp [HeapFsm.virtReqValid, HeapFsm.effectiveRead, HeapFsm.memDoRead, HeapFsm.memDoWrite, h.2 k' hk']
  cases k
  · simp [grant, bidGrant, ho, heap]
  · have : e.bid.virtReqValid = false := hother .maxHeap (by decide)
    simp [grant, askGrant, ho, heap, this]

namespace Top

variable {s : Top} {h : History} {i : TopIn} {e : Fin 8} {k : HeapKind}

/-! ### Runs without a reset -/

/-- What holds in a run without a reset. -/
structure Sound (s : Top) (h : History) : Prop where
  linked : s.Linked (fun _ _ => True) h
  ctrl : s.CtrlOk h
  alloc : MmuSys.AllocInv s.mem.mmu
  fault : MmuSys.FaultOk s.mem.mmu

theorem Sound.tick (hs : s.Sound h) (i : TopIn) : (s.tick i).Sound (h.next s) := by
  obtain ⟨x, hi, -⟩ := hs.linked.mmu
  exact ⟨hs.linked.tick (hs.alloc.fresh hi) (fun _ _ => trivial) i, hs.ctrl.tick i, hs.alloc.step hi _, hi.fault_step _⟩

theorem sound_of_keys (is : List TopIn) (hkey : ∀ i ∈ is, i.key.getLsbD 0 = true) : (run is).1.Sound (run is).2 := by
  obtain ⟨hun, ha, -⟩ := unused_of_keys is hkey
  refine ⟨run_linked _ is hun fun _ _ _ _ _ _ => trivial, run_ctrlOk is, ha, ?_⟩
  rcases List.eq_nil_or_concat is with rfl | ⟨js, j, rfl⟩
  · intro w hw; cases hw
  · rw [List.concat_eq_append, run_snoc, next]
    cases hin : (run js).1.inReset j with
    | true =>
      obtain ⟨r0, r1, hr⟩ := step_of_inReset hin
      rw [hr]
      intro w hw; cases hw
    | false =>
      have hun' : Along Unused js := fun ks k hp => hun ks k (hp.trans (by simp))
      obtain ⟨x, hi, -⟩ := (run_linked (fun _ _ => True) js hun' fun _ _ _ _ _ _ => trivial).mmu
      rw [step_of_not_inReset hin]
      exact hi.fault_step _

/-- The design at time `t`, when the inputs `inp 0, inp 1, …` come in. -/
def trace (inp : Nat → TopIn) (t : Nat) : Top × History := run ((List.range t).map inp)

theorem trace_succ (inp : Nat → TopIn) (t : Nat) : trace inp (t + 1) = next (trace inp t) (inp t) := by
  rw [trace, List.range_succ, List.map_append, List.map_singleton, run_snoc]
  rfl

theorem trace_keys {inp : Nat → TopIn} (hk : ∀ u, (inp u).key.getLsbD 0 = true) (t : Nat) :
    ∀ i ∈ (List.range t).map inp, i.key.getLsbD 0 = true := by
  intro i hi
  obtain ⟨u, -, rfl⟩ := List.mem_map.1 hi
  exact hk u

theorem trace_sound {inp : Nat → TopIn} (hk : ∀ u, (inp u).key.getLsbD 0 = true) (t : Nat) :
    (trace inp t).1.Sound (trace inp t).2 := sound_of_keys _ (trace_keys hk t)

theorem trace_awake {inp : Nat → TopIn} (hk : ∀ u, (inp u).key.getLsbD 0 = true) {t : Nat}
    (hd : (trace inp t).1.disp.state ≠ .idle) : (trace inp t).1.rstPipe1 = true := awake_of_keys (trace_keys hk t) hd

theorem trace_tick {inp : Nat → TopIn} (hk : ∀ u, (inp u).key.getLsbD 0 = true) {t : Nat}
    (hd : (trace inp t).1.disp.state ≠ .idle) :
    trace inp (t + 1) = ((trace inp t).1.tick (inp t), (trace inp t).2.next (trace inp t).1) := by
  have hin : (trace inp t).1.inReset (inp t) = false := by
    rw [inReset, hk t, trace_awake hk hd]; rfl
  rw [trace_succ, next, step_of_not_inReset hin, hin]
  rfl

/-! ### What holds a lane up -/

/-- The key of the node at index `j` of heap `k` of engine `e`. -/
def nodeKey (e : Fin 8) (k : HeapKind) (j : Nat) : Nat := (e.val * 2 + k.bit) * 2 ^ 10 + (j - privateNodes)

/-- A `PUSH` of heap `k` of engine `e` writes to a new leaf that has no slot, and there is none left. -/
structure Stuck (s : Top) (e : Fin 8) (k : HeapKind) : Prop where
  leaf : ((s.eng e).heap k).AtLeaf
  unmapped : (s.mem.mmu.pageTable (nodeKey e k ((s.eng e).heap k).size)).valid = false
  full : (s.mem.mmu.part (e.val * 2 + k.bit)).full = true

/-- The trade of engine `e` waits for a full log. -/
structure Blocked (s : Top) (e : Fin 8) : Prop where
  emit : (s.eng e).tstate = .emitTrade
  full : s.log.tradeInReady = false

/-- Engine `e` has taken all orders of its lane, and is done with them. -/
structure Drained (s : Top) (h : History) (e : Fin 8) : Prop where
  all : h.batch.accepted e = h.batch.written e
  idle : (s.eng e).tstate = .idle

/-- The dispatcher hands out orders, or has done so. -/
def Dispatching (s : Top) : Prop :=
  s.disp.state = .dispatch ∨ s.disp.state = .done ∧ s.avl.dispClearDonePulse = false

/-! ### What a lane waits for -/

/-- Cycles until an order shows at the output of the lane. -/
def laneStage (s : Top) (e : Fin 8) : Nat :=
  if (s.disp.fifo e).outValid then 0 else if (s.disp.fifo e).rdPending then 1 else 2

/-- What engine `e` waits for comes within `n` cycles: an order, the log, an answer of the MMU, or its turn
at the MMU. -/
inductive Waits (s : Top) (h : History) (e : Fin 8) : Nat → Prop
  | order (hst : (s.eng e).tstate = .idle) : Waits s h e (s.laneStage e)
  | log (hst : (s.eng e).tstate = .emitTrade) : Waits s h e (RoundRobin.turn s.agg.rrPtr e)
  | answer {x r n} (h1 : (s.eng e).tstate ≠ .idle) (h2 : (s.eng e).tstate ≠ .emitTrade) (hi : s.mem.Inv h.clients x)
      (hp : h.clients.pend e = some r) (hd : s.mem.Due x r n) : Waits s h e (8 + n)
  | turn (h1 : (s.eng e).tstate ≠ .idle) (h2 : (s.eng e).tstate ≠ .emitTrade) (hp : h.clients.pend e = none) :
      Waits s h e (s.mem.mmu.turn e)

def ordersLeft (h : History) (e : Fin 8) : Nat := (h.batch.written e).length - (h.batch.accepted e).length

def laneRank (s : Top) (h : History) (e : Fin 8) (n : Nat) : Nat ×ₗ (Nat ×ₗ Nat ×ₗ Nat) ×ₗ Nat :=
  toLex (ordersLeft h e, toLex ((s.eng e).work, n))

theorem Sound.waits (hs : s.Sound h) (e : Fin 8) : ∃ n, s.Waits h e n := by
  by_cases h1 : (s.eng e).tstate = .idle
  · exact ⟨_, .order h1⟩
  by_cases h2 : (s.eng e).tstate = .emitTrade
  · exact ⟨_, .log h2⟩
  cases hp : h.clients.pend e with
  | none => exact ⟨_, .turn h1 h2 hp⟩
  | some r =>
    obtain ⟨x, hi, -⟩ := hs.linked.mmu
    obtain ⟨n, -, hd⟩ := MmuSys.exists_due hi hp
    exact ⟨_, .answer h1 h2 hi hp hd⟩

/-- The next rank is lower: fewer orders, or less work, or less to wait for. -/
def Lower (s : Top) (h : History) (e : Fin 8) (n : Nat) (s' : Top) (h' : History) : Prop :=
  ∃ n', s'.Waits h' e n' ∧ laneRank s' h' e n' < laneRank s h e n

variable {s' : Top} {h' : History} {n n' : Nat}

theorem lower_of_orders (hs : s'.Sound h') (ho : ordersLeft h' e < ordersLeft h e) : Lower s h e n s' h' := by
  obtain ⟨n', hn⟩ := hs.waits e
  exact ⟨n', hn, Prod.Lex.toLex_lt_toLex.2 (.inl ho)⟩

theorem lower_of_work (hs : s'.Sound h') (ho : ordersLeft h' e = ordersLeft h e) (hw : (s'.eng e).work < (s.eng e).work) :
    Lower s h e n s' h' := by
  obtain ⟨n', hn⟩ := hs.waits e
  exact ⟨n', hn, Prod.Lex.toLex_lt_toLex.2 (.inr ⟨ho, Prod.Lex.toLex_lt_toLex.2 (.inl hw)⟩)⟩

theorem lower_of_wait (ho : ordersLeft h' e = ordersLeft h e) (hw : (s'.eng e).work = (s.eng e).work)
    (hn : s'.Waits h' e n') (hlt : n' < n) : Lower s h e n s' h' :=
  ⟨n', hn, Prod.Lex.toLex_lt_toLex.2 (.inr ⟨ho, Prod.Lex.toLex_lt_toLex.2 (.inr ⟨hw, hlt⟩)⟩)⟩

/-! ### The orders of the lane -/

theorem Dispatching.not_write (hd : s.Dispatching) : s.disp.state ≠ .write := by
  rcases hd with hd | ⟨hd, -⟩ <;> rw [hd] <;> decide

theorem Dispatching.batch_next (hd : s.Dispatching) (e : Fin 8) : (h.next s).batch.written e = h.batch.written e ∧
    (h.next s).batch.accepted e = h.batch.accepted e ++ s.disp.hands s.dispIn e := by
  have hno : ¬ (s.disp.state = .done ∧ s.dispIn.swClearDone = true) := by
    rintro ⟨h1, h2⟩
    rcases hd with hd | ⟨-, hc⟩
    · rw [hd] at h1; cases h1
    · have hc' : s.dispIn.swClearDone = s.avl.dispClearDonePulse := rfl
      rw [hc', hc] at h2; cases h2
  have hb : (h.next s).batch = h.batch.next s.disp s.dispIn := rfl
  rw [hb, Batch.next, if_neg hno]
  refine ⟨?_, rfl⟩
  show h.batch.written e ++ s.disp.stores s.dispIn e = _
  rw [OrderDispatcher.stores_nil hd.not_write, List.append_nil]

theorem Dispatching.ordersLeft_next (hd : s.Dispatching) (hno : s.disp.hands s.dispIn e = []) :
    ordersLeft (h.next s) e = ordersLeft h e := by
  obtain ⟨hw, ha⟩ := hd.batch_next (h := h) e
  rw [ordersLeft, ordersLeft, hw, ha, hno, List.append_nil]

theorem hands_of_busy (hst : (s.eng e).tstate ≠ .idle) : s.disp.hands s.dispIn e = [] := by
  simp [OrderDispatcher.hands, dispIn, SymbolEngine.orderInReady, hst]

/-- An idle engine whose lane is not empty gets the next order. -/
theorem Sound.order_step (hs : s.Sound h) (hd : s.Dispatching) (hst : (s.eng e).tstate = .idle)
    (hno : ¬ s.Drained h e) (i : TopIn) : Lower s h e (s.laneStage e) (s.tick i) (h.next s) := by
  have hq := hs.ctrl.disp.queue e
  have hlt : (h.batch.accepted e).length < (h.batch.written e).length := by
    refine Nat.lt_of_le_of_ne hq.taken.length_le fun hc => hno ⟨hq.taken.eq_of_length hc, hst⟩
  have hdisp : s.disp.state = .dispatch := by
    refine hd.resolve_right fun hdone => ?_
    have hph := hs.ctrl.disp.phase
    simp only [OrderDispatcher.Phase, hdone.1] at hph
    rw [hph e] at hlt
    omega
  have hready : s.dispIn.orderInReady e = true := by simp [dispIn, SymbolEngine.orderInReady, hst]
  cases hv : (s.disp.fifo e).outValid with
  | true =>
    -- the order is taken
    refine lower_of_orders (hs.tick i) ?_
    obtain ⟨hw, ha⟩ := hd.batch_next (h := h) e
    have hh : s.disp.hands s.dispIn e = [s.disp.orderOut e] := by
      simp [OrderDispatcher.hands, OrderDispatcher.orderOutValid, hdisp, hv, hready]
    rw [ordersLeft, ordersLeft, hw, ha, hh, List.length_append, List.length_singleton]
    omega
  | false =>
    have hh : s.disp.hands s.dispIn e = [] := by
      simp [OrderDispatcher.hands, OrderDispatcher.orderOutValid, hv]
    have hvalid : (s.engineCycle e).orderInValid = false := by
      simp [engineCycle, OrderDispatcher.orderOutValid, hv]
    obtain ⟨ps, g, hinv, -⟩ := hs.linked.eng e
    obtain ⟨hst', hwork⟩ := hinv.work_idle (c := s.engineCycle e) hst hvalid
    rw [← hs.linked.engineSys_tick i e] at hst' hwork
    refine lower_of_wait (hd.ordersLeft_next hh) hwork (.order hst') ?_
    have hcons : (s.disp.fifo e).doConsume (s.disp.fifoIn s.dispIn e) = false := by
      simp [DispatchFifoBram.doConsume, hv]
    have hclear : (s.disp.fifoIn s.dispIn e).clear = false := by simp [OrderDispatcher.fifoIn, hdisp]
    have hfifo : (s.tick i).disp.fifo e = (s.disp.fifo e).step (s.disp.fifoIn s.dispIn e) := rfl
    have hout : ((s.tick i).disp.fifo e).outValid = (s.disp.fifo e).rdPending := by
      rw [hfifo]; simp [DispatchFifoBram.step, hclear, hcons, hv]
    rw [laneStage, laneStage, hv, hout]
    cases hp : (s.disp.fifo e).rdPending with
    | true => simp
    | false =>
      have hcount := hq.count
      have hrd := hq.rd
      simp only [hv, hp, Bool.toNat_false, Nat.add_zero] at hrd
      have hpend : ((s.tick i).disp.fifo e).rdPending = true := by
        rw [hfifo]
        simp [DispatchFifoBram.step, hp, DispatchFifoBram.doLaunchRead, OrderDispatcher.fifoIn, hdisp, hv]
        omega
      simp [hpend]

/-! ### The log -/

/-- A trade that is passed over moves up. -/
theorem Sound.log_step (hs : s.Sound h) (hst : (s.eng e).tstate = .emitTrade)
    (hr : (s.engineCycle e).tradeOutReady = false) (hno : ¬ s.Blocked e) (i : TopIn) :
    RoundRobin.turn (s.tick i).agg.rrPtr e < RoundRobin.turn s.agg.rrPtr e := by
  have hin : s.log.tradeInReady = true := by
    by_contra hc
    exact hno ⟨hst, by simpa using hc⟩
  have hvalid : s.engTradeValid e = true := by
    have := (hs.ctrl.log.keeps e).pending (by simp [SymbolEngine.trading, hst])
    simp [engTradeValid, SymbolEngine.tradeOutValid, hst, this]
  have hsel : s.selected = (RoundRobin.scan s.agg.rrPtr).find? s.engTradeValid := rfl
  have hstep : (s.tick i).agg = s.agg.step s.engTradeValid s.log.tradeInReady := rfl
  have hagg : s.agg.selected s.engTradeValid = s.selected := rfl
  have hne : s.taken ≠ some e := fun hc => by
    have hr' : (s.engineIn e).tradeOutReady = false := hr
    rw [tradeOutReady_iff.2 hc] at hr'
    cases hr'
  cases hs' : s.selected with
  | none =>
    rw [hsel, List.find?_eq_none] at hs'
    exact absurd hvalid (hs' e (RoundRobin.mem_scan _ _))
  | some w =>
    have hw : w ≠ e := fun hc => hne (taken_iff.2 ⟨by rw [hs', hc], hin⟩)
    rw [hstep, TradeAggregator.step, hagg, hs']
    simp only [hin, if_true]
    exact RoundRobin.turn_served (RoundRobin.turn_first (hsel.symm.trans hs') hvalid hw)

/-! ### The MMU -/

theorem Sound.reqReady_eq (hs : s.Sound h) (e : Fin 8) :
    ((s.engineSys h e).engineIn (s.engineCycle e)).mmuReqReady = s.mem.mmu.reqReady s.mmuReq e ∧
      ((s.engineSys h e).engineIn (s.engineCycle e)).mmuRespReject = s.mem.mmu.respReject e ∧
      ((s.engineSys h e).engineIn (s.engineCycle e)).mmuRespValid = (s.mem.mmu.resp e).isSome := by
  rw [hs.linked.engineIn_eq e]
  exact ⟨rfl, rfl, rfl⟩

theorem Sound.owner_idle (hs : s.Sound h) (hp : h.clients.pend e = none) : (s.eng e).mmuOwner = .idle := by
  rcases EngineSys.owner_cases (s.eng e).mmuOwner with ho | ⟨k, ho⟩
  · exact ho
  · obtain ⟨r, hr, -⟩ := (hs.linked.portOk e).busy k ho
    have hr' : h.clients.pend e = some r := hr
    rw [hp] at hr'; cases hr'

/-- The unanswered request of heap `k` is that of the engine, at an address of the heap. -/
theorem Sound.out_eq (hs : s.Sound h) {r : Req} (hr : ((s.engineSys h e).view e.val k).out = some r) :
    (s.eng e).mmuOwner = k.owner ∧ h.clients.pend e = some r ∧
      r.va = HeapCfg.base ⟨k, e.val⟩ + r.va % 2 ^ 10 ∧ ptKey r.va = nodeKey e k (privateNodes + r.va % 2 ^ 10) := by
  have ho : (s.eng e).mmuOwner = k.owner := by
    by_contra ho
    simp [EngineSys.view, engineSys, ho] at hr
  have hp : h.clients.pend e = some r := by
    simpa [EngineSys.view, engineSys, ho, port] using hr
  obtain ⟨r', hr', hva⟩ := (hs.linked.portOk e).busy k ho
  have hsome : h.clients.pend e = some r' := hr'
  rw [hp] at hsome
  cases hsome
  refine ⟨ho, hp, hva, ?_⟩
  have := e.isLt
  have hbit : k.bit < 2 := by cases k <;> decide
  simp only [HeapCfg.base] at hva
  rw [nodeKey, Nat.add_sub_cancel_left]
  unfold ptKey
  omega

/-- What the engine waits for at the MMU comes nearer. -/
theorem Sound.port_step (hs : s.Sound h) (h1 : (s.eng e).tstate ≠ .idle) (h2 : (s.eng e).tstate ≠ .emitTrade)
    (hn : s.Waits h e n) (hw : (s.eng e).waitsFor = some k)
    (hstall : ((s.eng e).heap k).stalled ((s.eng e).heapIn ((s.engineSys h e).engineIn (s.engineCycle e)) k) = true)
    (i : TopIn) (h1' : ((s.tick i).eng e).tstate ≠ .idle) (h2' : ((s.tick i).eng e).tstate ≠ .emitTrade) :
    ∃ n', (s.tick i).Waits (h.next s) e n' ∧ n' < n := by
  obtain ⟨ps, g, hinv, -⟩ := hs.linked.eng e
  have hlegal := hs.linked.legal
  cases hn with
  | order hst => exact absurd hst h1
  | log hst => exact absurd hst h2
  | @answer x r n _ _ hi hp hd =>
    have hi' := hi.step hlegal (hs.alloc.fresh hi)
    cases ha : s.mem.answered e with
    | true =>
      have hreq : s.mmuReq e = none := by
        cases hr : s.mmuReq e with
        | none => rfl
        | some r' => rw [hs.linked.pend_none hr] at hp; cases hp
      have hnone : (h.next s).clients.pend e = none := by
        simp [History.next, Clients.next, MmuSys.accepted, hreq, ha]
      have := (s.tick i).mem.mmu.turn_lt e
      exact ⟨_, .turn h1' h2' hnone, by omega⟩
    | false =>
      have h0 : n ≠ 0 := by
        intro h0
        have := hd.answered hi h0
        rw [show (⟨vaEngine r.va, MmuSys.vaEngine_lt _⟩ : Fin 8) = e from Fin.ext (hi.flight.own e r hp).2, ha] at this
        cases this
      obtain ⟨m, hm, hd'⟩ := hd.step hi hi' h0
      exact ⟨_, .answer h1' h2' hi' (pend_of_not_answered hlegal hp ha) hd', by omega⟩
  | turn _ _ hp =>
    have ho := hs.owner_idle hp
    have hnw : ((s.eng e).heap k).state.waits = false := by
      rw [← Bool.not_eq_true]
      intro hc
      obtain ⟨r, hr, -⟩ := ((hinv.heap k).phase.awaits hc).unanswered hc hstall
      rw [(hs.out_eq hr).2.1] at hp
      cases hp
    obtain ⟨hnr, hnx⟩ : ((s.eng e).heap k).state.readWait = false ∧ ((s.eng e).heap k).state.writeWait = false := by
      simpa [HState.waits] using hnw
    rw [Rig.stalled_eq, if_neg (by rw [hnr]; decide), if_neg (by rw [hnx]; decide), Bool.and_eq_true, Bool.not_eq_true',
      (SymbolEngine.heapIn_req _ _ _).1] at hstall
    obtain ⟨hvalid, hready⟩ := hstall
    have hbusy : (s.eng e).Busy k := hinv.serial.busy hw
    have hg : (s.eng e).grant k = true := by
      rw [SymbolEngine.grant_of_busy hbusy ho]; exact hvalid
    have hreq : (s.mmuReq e).isSome = true := by
      show ((s.eng e).mmuReq e.val).isSome = true
      rw [(SymbolEngine.grant_eq_true (n := e.val) hg).2.2]; rfl
    rw [hg, Bool.true_and, (hs.reqReady_eq e).1] at hready
    obtain ⟨x, hi, -⟩ := hs.linked.mmu
    have hnone : (h.next s).clients.pend e = none := by
      simp [History.next, Clients.next, MmuSys.accepted, hready, hp]
    exact ⟨_, .turn h1' h2' hnone, hi.turn_step hreq hready⟩

/-- Only a new leaf is turned down. -/
theorem Sound.stuck_of_reject (hs : s.Sound h) (hwait : ((s.eng e).heap k).state.waits = true)
    (hstall : ((s.eng e).heap k).stalled ((s.eng e).heapIn ((s.engineSys h e).engineIn (s.engineCycle e)) k) = true)
    (hrej : ((s.eng e).heapIn ((s.engineSys h e).engineIn (s.engineCycle e)) k).virtRespReject = true) : s.Stuck e k := by
  obtain ⟨ps, g, hinv, -⟩ := hs.linked.eng e
  obtain ⟨x, hi, -⟩ := hs.linked.mmu
  obtain ⟨r, hr, hcase⟩ := ((hinv.heap k).phase.awaits hwait).unanswered hwait hstall
  obtain ⟨ho, hp, hva, hkey⟩ := hs.out_eq hr
  rw [(SymbolEngine.heapIn_req _ _ _).2.2.1, Bool.and_eq_true, (hs.reqReady_eq e).2.1] at hrej
  obtain ⟨r', hr', hno, hfull⟩ := hi.reject_cases hs.fault hrej.2
  rw [hp] at hr'
  cases hr'
  rcases hcase with hsome | ⟨hleaf, hidx⟩
  · exfalso
    have hlt : r.va % 2 ^ 10 < 2 ^ 10 := Nat.mod_lt _ (by decide)
    simp only [EngineSys.view, VirtPort.slice, hlt, if_true, engineSys, port, ← hva] at hsome
    split at hsome
    · rw [hs.linked.written _ hsome] at hno; cases hno
    · cases hsome
  · have hle := hleaf.virt
    have hpart : ptKey r.va / 2 ^ 10 = e.val * 2 + k.bit := by
      have hlt : r.va % 2 ^ 10 < 2 ^ 10 := Nat.mod_lt _ (by decide)
      rw [hkey]
      unfold nodeKey
      omega
    have hsize : ((s.engineSys h e).view e.val k).fsm.size = ((s.eng e).heap k).size := rfl
    rw [hkey, hidx, hsize, show privateNodes + (((s.eng e).heap k).size - privateNodes) = ((s.eng e).heap k).size from
      Nat.add_sub_cancel' hle] at hno
    rw [hpart] at hfull
    exact ⟨hleaf, hno, hfull⟩

/-- In every cycle a lane is drained, or held up, or comes nearer to being drained. -/
theorem Sound.lane_step (hs : s.Sound h) (hd : s.Dispatching) (hn : s.Waits h e n) (i : TopIn) :
    s.Drained h e ∨ ((∃ k, s.Stuck e k) ∨ s.Blocked e) ∨ Lower s h e n (s.tick i) (h.next s) := by
  by_cases hdr : s.Drained h e
  · exact .inl hdr
  refine .inr ?_
  by_cases hst : (s.eng e).tstate = .idle
  · cases hn with
    | order _ => exact .inr (hs.order_step hd hst hdr i)
    | log hst' => rw [hst] at hst'; cases hst'
    | answer h1 => exact absurd hst h1
    | turn h1 => exact absurd hst h1
  have hleft : ordersLeft (h.next s) e = ordersLeft h e := hd.ordersLeft_next (hands_of_busy hst)
  obtain ⟨ps, g, hinv, -⟩ := hs.linked.eng e
  have hstep := hinv.work_step (c := s.engineCycle e) hst
  rw [← hs.linked.engineSys_tick i e] at hstep
  rcases hstep with hlt | ⟨hemit, hr, hemit', hwork⟩ | ⟨k, hw, hstall, ⟨hst', hle⟩ | ⟨hwait, hrej⟩⟩
  · exact .inr (lower_of_work (hs.tick i) hleft hlt)
  · by_cases hb : s.Blocked e
    · exact .inl (.inr hb)
    · have hturn := hs.log_step hemit hr hb i
      cases hn with
      | order hst' => exact absurd hst' hst
      | log _ => exact .inr (lower_of_wait hleft hwork (.log hemit') hturn)
      | answer _ h2 => exact absurd hemit h2
      | turn _ h2 => exact absurd hemit h2
  · have h2 : (s.eng e).tstate ≠ .emitTrade := fun hc => by
      have hw' : (s.eng e).waitsFor = some k := hw
      simp [SymbolEngine.waitsFor, hc] at hw'
    have hst'' : ((s.tick i).eng e).tstate = (s.eng e).tstate := hst'
    obtain ⟨n', hn', hlt⟩ := hs.port_step hst h2 hn hw hstall i (by rw [hst'']; exact hst) (by rw [hst'']; exact h2)
    rcases lt_or_eq_of_le hle with hlt' | heq
    · exact .inr (lower_of_work (hs.tick i) hleft hlt')
    · exact .inr (lower_of_wait hleft heq hn' hlt)
  · exact .inl (.inl ⟨k, hs.stuck_of_reject hwait hstall hrej⟩)

end Top

end HftSim
