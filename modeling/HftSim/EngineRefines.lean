import HftSim.EngineStep

/-!
# Runs of an engine

`Inv.step` puts the states of the trade controller together, `run_inv` is the induction over a
schedule, and `engine_refines_book` says what it means for the orders and trades of a run.
-/

namespace HftSim

open Function BinHeap PriceTime

namespace EngineSys

variable {n : Nat} {s : EngineSys} {c : EngineCycle} {g : HeapKind → HeapGhost}
  {ok : (Bool → Multiset Node) → Node → Prop} {ps : List (Bool → Node)} {m : PrivBram}

theorem Inv.ctrl_step (h : s.Inv n ok ps g)
    (hok : s.eng.takesOrder (s.engineIn c) = true → ok (pool g) (packOrder c.orderInData (symbolOf n) c.nowTs)) :
    (s.step n c).Ctrl ok (nextPairs s c ps) (nextGhost n s c g) := by
  by_cases hemit : s.eng.tstate = .emitTrade
  · exact ctrl_emitTrade h hemit
  rw [nextPairs_eq hemit]
  cases hst : s.eng.tstate with
  | idle =>
    exact ctrl_idle h hst fun hv => hok (by simp [SymbolEngine.takesOrder, hst, engineIn, hv])
  | pushIssue => exact ctrl_pushIssue h hst
  | pushWait => exact ctrl_pushWait h hst
  | peekBidIssue => exact ctrl_peekBidIssue h hst
  | peekBidWait => exact ctrl_peekBidWait h hst
  | peekAskIssue => exact ctrl_peekAskIssue h hst
  | peekAskWait => exact ctrl_peekAskWait h hst
  | decide => exact ctrl_decide h hst
  | popBidIssue => exact ctrl_popBidIssue h hst
  | popBidWait => exact ctrl_popBidWait h hst
  | popAskIssue => exact ctrl_popAskIssue h hst
  | popAskWait => exact ctrl_popAskWait h hst
  | updateBidIssue => exact ctrl_updateBidIssue h hst
  | updateBidWait => exact ctrl_updateWait h (.inl ⟨hst, rfl⟩)
  | updateAskIssue => exact ctrl_updateAskIssue h hst
  | updateAskWait => exact ctrl_updateWait h (.inr ⟨hst, rfl⟩)
  | emitTrade => exact absurd hst hemit

theorem Inv.step (h : s.Inv n ok ps g) (hcap : ∀ k, ((s.step n c).eng.heap k).size ≤ 1024)
    (hok : s.eng.takesOrder (s.engineIn c) = true → ok (pool g) (packOrder c.orderInData (symbolOf n) c.nowTs)) :
    (s.step n c).Inv n ok (nextPairs s c ps) (nextGhost n s c g) :=
  ⟨h.port.step c, fun k => (h.heap k).step (h.port.view_step c h.serial.silent) (hcap k), h.serial.step,
    h.ctrl_step hok⟩

theorem init_serial : (init m).eng.Serial := SymbolEngine.serial_reset _

theorem init_inv : (init m).Inv n ok [] (fun _ => ⟨0, none⟩) := by
  refine ⟨⟨fun _ => rfl, fun k hk => ?_⟩, fun k => HeapView.inv_reset ?_ ?_, init_serial, ⟨.nil, rfl⟩,
    fun p hp => ?_⟩
  · cases k <;> cases hk
  · cases k <;> rfl
  · intro r hr; cases k <;> cases hr
  · exact Multiset.notMem_zero _ (hp.best true).1

/-- The engine invariant along a run with at most 1024 nodes in each heap. -/
theorem run_inv (sched : List EngineCycle)
    (hcap : ∀ p, p <+: sched → ∀ k, ((run n m p).eng.heap k).size ≤ 1024) :
    ∃ ps g, (run n m sched).Inv n (fun _ _ => True) ps g := by
  induction sched using List.reverseRecOn with
  | nil => exact ⟨_, _, init_inv⟩
  | append_singleton sched c ih =>
    have hsize := hcap _ (List.prefix_refl _)
    rw [run_snoc] at hsize ⊢
    obtain ⟨ps, g, hinv⟩ := ih fun p hp => hcap p (hp.trans (List.prefix_append _ _))
    exact ⟨_, _, hinv.step hsize fun _ => trivial⟩

/-- In every state of the controller some trail has led to the trades handed over. -/
theorem Inv.led (h : s.Inv n ok ps g) : ∃ m, s.Led ok ps m := by
  have hc := h.ctrl
  unfold Ctrl at hc
  split at hc
  · exact ⟨_, hc.1⟩
  · exact ⟨_, hc.2⟩
  · exact ⟨_, hc⟩
  · exact ⟨_, hc.1⟩
  · exact ⟨_, hc.1⟩
  · exact ⟨_, hc.1⟩
  · exact ⟨_, hc.1⟩
  · exact ⟨_, hc.1⟩
  all_goals first
    | exact hc.1.led.imp fun _ hm => hm.1
    | exact hc.led.imp fun _ hm => hm.1

/-- Whatever the engine is doing, the trades handed over are the reference's first trades. -/
theorem Inv.trades_first (h : s.Inv n ok ps g) (hts : nodeOps.Aged s.orders) :
    s.trades <+: (runOrders nodeOps s.orders).1 := by
  obtain ⟨m, htrail, hps⟩ := h.led
  obtain ⟨b, -, -, hrun⟩ := htrail.runOrders nodeOps_lawful hts
  rw [hrun, hps]
  exact List.prefix_append _ _

/-- The nodes a heap of the engine stores. -/
def stored (n : Nat) (s : EngineSys) (k : HeapKind) : Multiset Node :=
  contents (s.view n k).node (s.eng.heap k).size

theorem Inv.stored_eq (h : s.Inv n ok ps g) (hst : s.eng.tstate = .idle) (k : HeapKind) :
    s.stored n k = (g k).nodes :=
  (h.rest (.inl (h.serial.calm (by simp [SymbolEngine.waitsFor, hst]) k))).cont

/-- Back in `T_IDLE` a trail leads to the nodes in the heaps, and nothing can trade. -/
theorem Inv.idle_trail (h : s.Inv n ok ps g) (hst : s.eng.tstate = .idle) :
    TrailIf nodeOps ok s.orders ps (fun bid => s.stored n (kindOf bid)) ∧
      s.trades = ps.map nodeOps.deal ∧ ∀ p, ¬ nodeOps.Match (fun bid => s.stored n (kindOf bid)) p := by
  have hc := h.ctrl
  simp only [Ctrl, hst] at hc
  obtain ⟨⟨htrail, hps⟩, hno⟩ := hc
  have hpool : (fun bid => s.stored n (kindOf bid)) = pool g := funext fun bid => h.stored_eq hst _
  rw [hpool]
  exact ⟨htrail, hps, hno⟩

/-- Back in `T_IDLE`, the trades handed over and the nodes in the heaps are the reference's. -/
theorem Inv.idle_eq (h : s.Inv n ok ps g) (hts : nodeOps.Aged s.orders) (hst : s.eng.tstate = .idle) :
    s.trades = (runOrders nodeOps s.orders).1 ∧
      s.stored n .maxHeap = ↑(runOrders nodeOps s.orders).2.bids ∧
      s.stored n .minHeap = ↑(runOrders nodeOps s.orders).2.asks := by
  obtain ⟨htrail, hps, hno⟩ := h.idle_trail hst
  obtain ⟨b, hb, -, hrun⟩ := htrail.runOrders nodeOps_lawful hts
  rw [← hb] at hno
  rw [settle_of_none (trade?_of_no_match hno), List.append_nil] at hrun
  rw [hrun]
  exact ⟨hps, (congrFun hb true).symm, (congrFun hb false).symm⟩

/-- `symbol_engine` refines the price-time order book: for every stream of orders with increasing
timestamps, every back-pressure on the trades and every ready, latency and reject schedule of the
memory port, as long as neither heap holds more than 1024 nodes. -/
theorem engine_refines_book (n : Nat) (m : PrivBram) (sched : List EngineCycle)
    (hcap : ∀ p, p <+: sched → ∀ k, ((run n m p).eng.heap k).size ≤ 1024)
    (hts : nodeOps.Aged (run n m sched).orders) (hidle : (run n m sched).eng.tstate = .idle) :
    (run n m sched).trades = (runOrders nodeOps (run n m sched).orders).1 ∧
      (run n m sched).stored n .maxHeap = ↑(runOrders nodeOps (run n m sched).orders).2.bids ∧
      (run n m sched).stored n .minHeap = ↑(runOrders nodeOps (run n m sched).orders).2.asks := by
  obtain ⟨ps, g, hinv⟩ := run_inv sched hcap
  exact hinv.idle_eq hts hidle

/-- Back in `T_IDLE`, whatever the timestamps: the quantities of the orders of a side are those of the
trades and those that rest, every trade is at or above the price of the ask it consumed (`p false` of
the pair `p` that traded), and the book is not crossed. -/
theorem shares_conserved (n : Nat) (m : PrivBram) (sched : List EngineCycle)
    (hcap : ∀ p, p <+: sched → ∀ k, ((run n m p).eng.heap k).size ≤ 1024)
    (hidle : (run n m sched).eng.tstate = .idle) :
    (∀ k : HeapKind, nodeOps.shares ↑((run n m sched).orders.filter fun x => orderType x = k.isBid) =
      nodeOps.shares ↑(run n m sched).trades + nodeOps.shares ((run n m sched).stored n k)) ∧
    (∃ ps, Trail nodeOps (run n m sched).orders ps (fun bid => (run n m sched).stored n (kindOf bid)) ∧
      (run n m sched).trades = ps.map nodeOps.deal ∧
      ∀ p ∈ ps, orderPrice (p false) ≤ orderPrice (nodeOps.deal p)) ∧
    ∀ x ∈ (run n m sched).stored n .maxHeap, ∀ y ∈ (run n m sched).stored n .minHeap,
      orderPrice x < orderPrice y := by
  obtain ⟨ps, g, hinv⟩ := run_inv sched hcap
  obtain ⟨htrail, hps, hno⟩ := hinv.idle_trail hidle
  refine ⟨fun k => ?_, ⟨ps, htrail, hps, fun p hp => ?_⟩, fun x hx y hy => lt_of_no_match hno hx hy⟩
  · have := htrail.shares nodeOps_lawful k.isBid
    rwa [← hps, kindOf_isBid] at this
  · have hprice : nodeOps.price (nodeOps.deal p) = nodeOps.price (p true) := nodeOps_lawful.price_set _ _
    exact (htrail.cross p hp).trans_eq hprice.symm

/-- A bid for 3 at price 5 in cycle 0, an ask for 2 at the same price in cycle 8. -/
def buyThenSell : List EngineCycle :=
  (List.range 27).map fun t =>
    ⟨BitVec.ofNat 32 t, t == 0 || t == 8, if t < 5 then 0x80028003#32 else 0x00028002#32, true,
      true, some true, 0⟩

theorem buyThenSell_cap : ∀ p, p <+: buyThenSell → ∀ k, ((run 0 ⟨fun _ => 0, 0⟩ p).eng.heap k).size ≤ 1024 := by
  intro p hp k
  have hall : ∀ p ∈ buyThenSell.inits, (run 0 ⟨fun _ => 0, 0⟩ p).eng.bid.size ≤ 1024 ∧
      (run 0 ⟨fun _ => 0, 0⟩ p).eng.ask.size ≤ 1024 := by decide +kernel
  have := hall p ((List.mem_inits _ _).2 hp)
  cases k <;> [exact this.1; exact this.2]

theorem buyThenSell_aged : nodeOps.Aged (run 0 ⟨fun _ => 0, 0⟩ buyThenSell).orders := by
  unfold Ops.Aged; decide +kernel

theorem buyThenSell_idle : (run 0 ⟨fun _ => 0, 0⟩ buyThenSell).eng.tstate = .idle := by decide +kernel

/-- The two orders trade once, and the rest of the bid stays. -/
theorem engine_refines_book_buyThenSell :
    (run 0 ⟨fun _ => 0, 0⟩ buyThenSell).trades.map nodeOps.amount = [2] ∧
      (run 0 ⟨fun _ => 0, 0⟩ buyThenSell).trades =
        (runOrders nodeOps (run 0 ⟨fun _ => 0, 0⟩ buyThenSell).orders).1 :=
  ⟨by decide +kernel, (engine_refines_book 0 _ _ buyThenSell_cap buyThenSell_aged buyThenSell_idle).1⟩

/-- Three shares bid, two of them traded, one left. -/
theorem shares_conserved_buyThenSell :
    nodeOps.shares ↑((run 0 ⟨fun _ => 0, 0⟩ buyThenSell).orders.filter fun x => orderType x = true) = 3 ∧
      nodeOps.shares ↑((run 0 ⟨fun _ => 0, 0⟩ buyThenSell).orders.filter fun x => orderType x = true) =
        nodeOps.shares ↑(run 0 ⟨fun _ => 0, 0⟩ buyThenSell).trades +
          nodeOps.shares ((run 0 ⟨fun _ => 0, 0⟩ buyThenSell).stored 0 .maxHeap) :=
  ⟨by decide +kernel, (shares_conserved 0 _ _ buyThenSell_cap buyThenSell_idle).1 .maxHeap⟩

end EngineSys

end HftSim
