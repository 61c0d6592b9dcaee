import HftSim.TopLog

/-!
# Loading and finishing a batch

What software can rely on: `trade_done` is final, and which acknowledged pushes are stored.
-/

namespace HftSim

open Function

namespace Top

variable {s : Top} {h : History} {i : TopIn} {e : Fin 8}

/-! ### `trade_done` -/

/-- The dispatcher and the controllers, whatever the heaps contain. -/
structure CtrlOk (s : Top) (h : History) : Prop where
  disp : s.disp.Ok h.batch
  serial : ∀ e, (s.eng e).Serial
  log : s.LogOk h

theorem CtrlOk.reset (s : Top) (r0 r1 : Bool) :
    CtrlOk { s.reset with rstPipe0 := r0, rstPipe1 := r1 } .fresh :=
  ⟨.reset _, fun _ => SymbolEngine.serial_reset _, .reset _ _ _⟩

theorem CtrlOk.tick (hc : s.CtrlOk h) (i : TopIn) : (s.tick i).CtrlOk (h.next s) :=
  ⟨hc.disp.step _, fun e => (hc.serial e).step, hc.log.tick i⟩

theorem run_ctrlOk (is : List TopIn) : (run is).1.CtrlOk (run is).2 :=
  run_induction (CtrlOk.reset powerUp false false) CtrlOk.reset (fun _ _ i hc => hc.tick i) is

theorem tradeDone_iff : s.tradeDone = true ↔ s.disp.state = .done ∧ ∀ e, (s.eng e).tstate = .idle := by
  simp [tradeDone, allEnginesIdle, SymbolEngine.engineIdle]

theorem selected_none (hd : s.tradeDone = true) : s.selected = none := by
  cases hs : s.selected with
  | none => rfl
  | some e =>
    have hv : (s.eng e).tradeOutValid = true := TradeAggregator.selected_valid hs
    simp [SymbolEngine.tradeOutValid, (tradeDone_iff.1 hd).2 e] at hv

theorem tradeDone_tick (hd : s.tradeDone = true) (hcd : s.avl.dispClearDonePulse = false)
    (hcl : s.avl.logClearPulse = false) : (s.tick i).tradeDone = true ∧
      (s.tick i).log.countReg = s.log.countReg ∧ (s.tick i).log.mem = s.log.mem := by
  obtain ⟨hst, hidle⟩ := tradeDone_iff.1 hd
  have hnone : s.log.acceptWrite s.logIn = none := by
    simp [TradeLog.acceptWrite, logIn, selected_none hd]
  have hclr : s.logIn.swClear = false := hcl
  refine ⟨tradeDone_iff.2 ⟨?_, fun e => ?_⟩, ?_, ?_⟩
  · show s.disp.nextState s.dispIn = .done
    simp [OrderDispatcher.nextState, hst, dispIn, hcd]
  · show (s.eng e).tnState (s.engineIn e) = .idle
    simp [SymbolEngine.tnState, hidle e, engineIn, OrderDispatcher.orderOutValid, hst]
  · show (s.log.step s.logIn).countReg = _
    simp [TradeLog.step, hnone, hclr]
  · show (s.log.step s.logIn).mem = _
    simp [TradeLog.step, hnone]

/-- No `clear_done`, no log clear and no reset while the inputs `js` come in after `is`. -/
def Undisturbed (is js : List TopIn) : Prop :=
  ∀ ks j, ks ++ [j] <+: js → (run (is ++ ks)).1.inReset j = false ∧
    (run (is ++ ks)).1.avl.dispClearDonePulse = false ∧ (run (is ++ ks)).1.avl.logClearPulse = false

/-- `trade_done` is final: every order stored in the batch has been accepted, the engines and their
heaps are idle with no command on a bus and no trade that has not been handed over; and nothing of
it changes until a clear or a reset. -/
theorem tradeDone_final (is : List TopIn) (hd : (run is).1.tradeDone = true) :
    (∀ e, (run is).2.batch.accepted e = (run is).2.batch.written e) ∧
    (∀ e, (∀ k, (((run is).1.eng e).heap k).state = .idle ∧ (((run is).1.eng e).cmd k).valid = false) ∧
      ((run is).1.eng e).tradeOutValid = false ∧
      (run is).2.trades e = ((run is).2.deals e).map fun p => tradeRecord p.1 p.2) ∧
    ∀ js, Undisturbed is js → (run (is ++ js)).1.tradeDone = true ∧
      (run (is ++ js)).1.log.countReg = (run is).1.log.countReg ∧
      (run (is ++ js)).1.log.contents = (run is).1.log.contents := by
  have hok := run_ctrlOk is
  obtain ⟨hst, hidle⟩ := tradeDone_iff.1 hd
  refine ⟨fun e => ?_, fun e => ⟨fun k => ⟨?_, ?_⟩, ?_, ?_⟩, fun js hjs => ?_⟩
  · have hph := hok.disp.phase
    simp only [OrderDispatcher.Phase, hst] at hph
    exact hph e
  · exact (hok.serial e).calm (by simp [SymbolEngine.waitsFor, hidle e]) k
  · cases k <;> simp [SymbolEngine.cmd, SymbolEngine.bidCmd, SymbolEngine.askCmd, Cmd.none, hidle e]
  · simp [SymbolEngine.tradeOutValid, hidle e]
  · have := hok.log.trades e
    simpa [SymbolEngine.pendingDeal, SymbolEngine.trading, EngineSys.dealing, hidle e] using this
  · induction js using List.reverseRecOn with
    | nil => rw [List.append_nil]; exact ⟨hd, rfl, rfl⟩
    | append_singleton js j ih =>
      obtain ⟨hin, hcd, hcl⟩ := hjs js j (List.prefix_refl _)
      obtain ⟨hd', hcount, hcont⟩ := ih fun ks k hp => hjs ks k (hp.trans (List.prefix_append _ _))
      obtain ⟨h1, h2, h3⟩ := tradeDone_tick (i := j) hd' hcd hcl
      rw [← List.append_assoc, run_snoc, next]
      simp only [step_of_not_inReset hin]
      refine ⟨h1, h2.trans hcount, ?_⟩
      rw [← hcont, TradeLog.contents, TradeLog.contents, h2, h3]

theorem tradeDone_final_bidAndAsk : (run (bidAndAsk 3)).1.tradeDone = true ∧
    (run (bidAndAsk 3)).1.log.countReg = 1 ∧
    (∀ e, (run (bidAndAsk 3)).2.batch.accepted e = (run (bidAndAsk 3)).2.batch.written e) ∧
    ∀ js, Undisturbed (bidAndAsk 3) js → (run (bidAndAsk 3 ++ js)).1.log.countReg = 1 := by
  have hd : (run (bidAndAsk 3)).1.tradeDone = true := by decide +kernel
  have hcount : (run (bidAndAsk 3)).1.log.countReg = 1 := by decide +kernel
  have hfinal := tradeDone_final (bidAndAsk 3) hd
  refine ⟨hd, hcount, hfinal.1, fun js hjs => ?_⟩
  rw [(hfinal.2.2 js hjs).2.1, hcount]

/-! ### Acknowledged pushes

The wrapper looks at `sw_wr_ready` when the bus writes `PUSHn`; the registered push reaches the FIFO one
cycle later, and the FIFO looks again. -/

/-- A push is acknowledged: the bus writes `PUSHn` while lane `n` is ready. -/
def acks (s : Top) (i : TopIn) (n : Fin 8) : Option DispatchOrder :=
  if s.dispPushReady n then busData i.write (addrPush n) else none

/-- A push acknowledged now will find the lane ready: no `begin_dispatch` is on the wire, and there is
a slot besides the one that a push registered a cycle earlier is about to take. -/
def settles (s : Top) (n : Fin 8) : Bool :=
  !s.dispBeginDispatchPulse && decide ((s.disp.fifo n).occupancy + (s.avl.dispPushEn n).toNat < fifoSz)

/-- The pushes since the last reset: those acknowledged, each with the readiness it will find, and
those the FIFO has written. -/
structure Pushes where
  acked : Fin 8 → List (DispatchOrder × Bool)
  stored : Fin 8 → List DispatchOrder

namespace Pushes

def none : Pushes := ⟨fun _ => [], fun _ => []⟩

def next (p : Pushes) (s : Top) (i : TopIn) : Pushes where
  acked n := p.acked n ++ ((s.acks i n).map fun d => (d, s.settles n)).toList
  stored n := p.stored n ++
    if (s.disp.fifo n).doWrite (s.disp.fifoIn s.dispIn n) then [(s.disp.fifoIn s.dispIn n).wrData] else []

end Pushes

def nextPushes (q : Top × Pushes) (i : TopIn) : Top × Pushes :=
  (q.1.step i, if q.1.inReset i then .none else q.2.next q.1 i)

/-- The pushes of a run from power-up. -/
def pushes (is : List TopIn) : Pushes := (is.foldl nextPushes (powerUp, .none)).2

theorem foldl_nextPushes (is : List TopIn) : is.foldl nextPushes (powerUp, .none) = ((run is).1, pushes is) := by
  induction is using List.reverseRecOn with
  | nil => rfl
  | append_singleton is i ih =>
    rw [pushes, run_snoc, List.foldl_append, ih]; rfl

theorem pushes_snoc (is : List TopIn) (i : TopIn) :
    pushes (is ++ [i]) = if (run is).1.inReset i then .none else (pushes is).next (run is).1 i := by
  rw [pushes, List.foldl_append, foldl_nextPushes]; rfl

theorem CtrlOk.ready_tick (hok : s.CtrlOk h) {n : Fin 8} (hr : s.dispPushReady n = true) :
    (s.tick i).dispPushReady n = s.settles n := by
  simp only [dispPushReady, OrderDispatcher.swWrReady, Bool.and_eq_true, decide_eq_true_iff,
    Bool.not_eq_true'] at hr
  obtain ⟨hst, hfull⟩ := hr
  cases hb : s.dispBeginDispatchPulse with
  | true =>
    have hn : (s.tick i).disp.state = .dispatch := by
      show s.disp.nextState s.dispIn = _
      simp [OrderDispatcher.nextState, hst, dispIn, hb]
    simp [dispPushReady, OrderDispatcher.swWrReady, settles, hn, hb]
  | false =>
    have hn : (s.tick i).disp.state = .write := by
      show s.disp.nextState s.dispIn = _
      simp [OrderDispatcher.nextState, hst, dispIn, hb]
    have hlen : (s.disp.stores s.dispIn n).length = (s.avl.dispPushEn n).toNat := by
      simp only [OrderDispatcher.stores, OrderDispatcher.swWrReady, hst, hfull, dispIn]
      cases s.avl.dispPushEn n <;> rfl
    obtain ⟨hstep, hle⟩ := hok.disp.occupancy_step (i := s.dispIn) hst n
    rw [hlen] at hstep
    have hocc : ((s.tick i).disp.fifo n).occupancy = (s.disp.fifo n).occupancy + (s.avl.dispPushEn n).toNat := hstep
    rw [hstep] at hle
    simp only [dispPushReady, OrderDispatcher.swWrReady, OrderDispatcher.fifoFull, DispatchFifoBram.full, settles,
      hn, hb, hocc]
    rcases Nat.lt_or_ge ((s.disp.fifo n).occupancy + (s.avl.dispPushEn n).toNat) fifoSz with hlt | hge
    · simp [hlt, Nat.ne_of_lt hlt]
    · simp [Nat.le_antisymm hle hge]

/-- What the FIFO writes next is the push acknowledged now, if it settles. -/
theorem CtrlOk.stores_tick (hok : s.CtrlOk h) (n : Fin 8) :
    (s.tick i).disp.stores (s.tick i).dispIn n = if s.settles n then (s.acks i n).toList else [] := by
  have hen : (s.tick i).dispIn.swWrEn n = ((busData i.write (addrPush n)).isSome && s.dispPushReady n) := rfl
  have hd : (s.tick i).dispIn.swWrData n =
      if s.dispPushReady n then (busData i.write (addrPush n)).getD (s.avl.dispPushData n)
      else s.avl.dispPushData n := rfl
  unfold OrderDispatcher.stores acks
  rw [hen, hd]
  cases hr : s.dispPushReady n with
  | false => simp
  | true =>
    have hready := hok.ready_tick (i := i) hr
    rw [dispPushReady] at hready
    rw [hready]
    cases busData i.write (addrPush n) <;> cases s.settles n <;> rfl

/-- Of the pushes acknowledged since the last reset, those that settle are stored, the last of them
in the coming cycle. -/
theorem stored_eq_filter (is : List TopIn) (n : Fin 8) :
    (pushes is).stored n ++ (run is).1.disp.stores (run is).1.dispIn n =
      (((pushes is).acked n).filter Prod.snd).map Prod.fst := by
  induction is using List.reverseRecOn with
  | nil => rfl
  | append_singleton is i ih =>
    rw [run_snoc, next, pushes_snoc]
    cases hin : (run is).1.inReset i with
    | true =>
      obtain ⟨r0, r1, hs⟩ := step_of_inReset hin
      rw [hs]
      rfl
    | false =>
      rw [step_of_not_inReset hin]
      simp only [Bool.false_eq_true, if_false, Pushes.next]
      rw [← OrderDispatcher.stores_eq, ih, (run_ctrlOk is).stores_tick, List.filter_append, List.map_append]
      congr 1
      cases (run is).1.acks i n <;> cases (run is).1.settles n <;> rfl

/-- After any run, the orders stored in lane `n` (the one about to be written included) are the orders
of all acknowledged pushes if and only if every one of these settles; their numbers agree in no other
case either. -/
theorem pushes_stored_iff (is : List TopIn) (n : Fin 8) :
    ((pushes is).stored n ++ (run is).1.disp.stores (run is).1.dispIn n = ((pushes is).acked n).map Prod.fst ↔
      ∀ p ∈ (pushes is).acked n, p.2 = true) ∧
    (((pushes is).stored n ++ (run is).1.disp.stores (run is).1.dispIn n).length = ((pushes is).acked n).length ↔
      ∀ p ∈ (pushes is).acked n, p.2 = true) := by
  rw [stored_eq_filter]
  have hlen : ((((pushes is).acked n).filter Prod.snd).map Prod.fst).length = ((pushes is).acked n).length ↔
      ∀ p ∈ (pushes is).acked n, p.2 = true := by
    rw [List.length_map, List.length_filter_eq_length_iff]
  refine ⟨⟨fun heq => hlen.1 ?_, fun hall => ?_⟩, hlen⟩
  · rw [heq, List.length_map]
  · rw [List.filter_eq_self.2 hall]

/-- `begin_dispatch` is written one cycle before a push. -/
def lateDispatch : List TopIn :=
  (List.range 8).map fun t => ⟨0xF,
    if t = 3 then some ⟨0, 1⟩
    else if t = 5 then some ⟨0, 2⟩
    else if t = 6 then some ⟨2, hftDispPackOrderWord ⟨1, 5, 3⟩⟩
    else none⟩

theorem lateDispatch_drops : ¬ ∀ is n, (∀ i ∈ is, i.key.getLsbD 0 = true) →
    (pushes is).stored n ++ (run is).1.disp.stores (run is).1.dispIn n = ((pushes is).acked n).map Prod.fst := by
  intro hall
  have hkeys : ∀ i ∈ lateDispatch, i.key.getLsbD 0 = true := by decide
  have hdrop : (pushes lateDispatch).stored 0 ++
      (run lateDispatch).1.disp.stores (run lateDispatch).1.dispIn 0 ≠ ((pushes lateDispatch).acked 0).map Prod.fst := by
    decide +kernel
  exact hdrop (hall _ 0 hkeys)

end Top

end HftSim
