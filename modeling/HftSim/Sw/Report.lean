import HftSim.Sw.Main
import HftSim.Sw.Finish
import HftSim.TopBooks

/-!
# What the harness reports

Whenever `main` has written `hft_trades.txt`, the file has all the trades of the eight order books on the
orders in the CSV files, as many as fit in the FIFOs: whatever the buttons do but `KEY0`, and whenever the
accesses come. `Stage` says what is known of the board at each access.
-/

namespace HftSim

open Function PriceTime

/-! ### The board -/

/-- The orders `ds` have been stored, and none is on its way. -/
structure Holding (ds : Fin 8 → List DispatchOrder) (b : Top × History) : Prop where
  written : ∀ n, b.2.batch.written n = ds n
  push : ∀ n, b.1.avl.dispPushEn n = false

/-- The dispatcher has left `IDLE`, and no clear of the log is on its way. -/
structure Going (s : Top) : Prop where
  state : s.disp.state ≠ .idle
  clear : s.avl.logClearPulse = false

/-- So far there has been no reset and no `clear_done`, and a clear of the log has done no harm; this as long as
the timestamps have not wrapped around. -/
structure Driven (is : List TopIn) (b : Top × History) : Prop where
  board : b = Top.run is
  writes : ∀ i ∈ is, i.key.getLsbD 0 = true ∧ busBit i.write addrControl 2 = false
  early : is.length < 2 ^ 32 → Top.EarlyClear is

section Board

variable {ds : Fin 8 → List DispatchOrder} {b : Top × History} {is : List TopIn} {i : TopIn}

theorem Top.next_of_not_inReset (hres : b.1.inReset i = false) : Top.next b i = (b.1.tick i, b.2.next b.1) := by
  rw [Top.next, Top.step_of_not_inReset hres, hres]
  rfl

theorem Driven.ctrl (h : Driven is b) : b.1.CtrlOk b.2 := by
  rw [h.board]
  exact Top.run_ctrlOk is

theorem Driven.keys (h : Driven is b) : ∀ i ∈ is, i.key.getLsbD 0 = true := fun i hi => (h.writes i hi).1

theorem Driven.not_reset (h : Driven is b) (hst : b.1.disp.state ≠ .idle) (hi : i.key.getLsbD 0 = true) :
    b.1.inReset i = false := by
  rw [h.board] at hst ⊢
  rw [Top.inReset, hi, Top.awake_of_keys h.keys hst]
  rfl

theorem Driven.clearDone (h : Driven is b) : b.1.avl.dispClearDonePulse = false := by
  rw [h.board, ← Bool.not_eq_true]
  intro hc
  rcases List.eq_nil_or_concat is with rfl | ⟨js, j, rfl⟩
  · cases hc
  · rw [List.concat_eq_append] at h hc
    rw [Top.run_snoc] at hc
    have hbit := Top.clearDonePulse_step _ _ hc
    rw [(h.writes j (by simp)).2] at hbit
    cases hbit

theorem Driven.next (h : Driven is b) (hi : i.key.getLsbD 0 = true ∧ busBit i.write addrControl 2 = false)
    (hearly : b.1.avl.logClearPulse = true → ∀ n, (Top.next b i).2.batch.written n = []) :
    Driven (is ++ [i]) (Top.next b i) := by
  have hw : ∀ k ∈ is ++ [i], k.key.getLsbD 0 = true ∧ busBit k.write addrControl 2 = false := by
    intro k hk
    rcases List.mem_append.1 hk with hk | hk
    · exact h.writes k hk
    · rw [List.mem_singleton.1 hk]; exact hi
  have hboard : Top.next b i = Top.run (is ++ [i]) := by rw [h.board, Top.run_snoc]
  refine ⟨hboard, hw, fun hlen ks j hp hpulse e => ?_⟩
  rcases List.prefix_concat_iff.1 hp with heq | hp
  · obtain ⟨rfl, -⟩ := List.append_inj' heq rfl
    rw [heq]
    -- nothing has been stored, so no engine has taken anything
    have hwritten := hearly (by rw [h.board]; exact hpulse) e
    rw [hboard] at hwritten
    have htaken := ((Top.run_ctrlOk (ks ++ [i])).disp.queue e).taken
    rw [hwritten, List.prefix_nil] at htaken
    have hl := (Top.run_laneOk (ks ++ [i]) (Top.oneBatch_of_writes hw) hlen e).taken
    rw [htaken] at hl
    exact List.forall₂_nil_right_iff.1 hl
  · rw [List.length_append, List.length_singleton] at hlen
    exact h.early (by omega) ks j hp hpulse e

theorem Holding.reset (hres : b.1.inReset i = true) : Holding (fun _ => []) (Top.next b i) := by
  obtain ⟨r0, r1, hs⟩ := Top.step_of_inReset hres
  rw [Top.next, hs, if_pos hres]
  exact ⟨fun _ => rfl, fun _ => rfl⟩

theorem Holding.next (h : Holding ds b) (hd : Driven is b) (hres : b.1.inReset i = false)
    (hw : ∀ n, busData i.write (addrPush n) = none) : Holding ds (Top.next b i) := by
  rw [Top.next_of_not_inReset hres]
  refine ⟨fun n => ?_, fun n => ?_⟩
  · have hstores : b.1.disp.stores b.1.dispIn n = [] := by simp [OrderDispatcher.stores, Top.dispIn, h.push n]
    show (b.2.batch.next b.1.disp b.1.dispIn).written n = _
    rw [Batch.next, if_neg (by simp [Top.dispIn, hd.clearDone])]
    show b.2.batch.written n ++ b.1.disp.stores b.1.dispIn n = _
    rw [hstores, List.append_nil]
    exact h.written n
  · show ((busData i.write (addrPush n)).isSome && b.1.dispPushReady n) = false
    rw [hw n]
    rfl

theorem Going.next (h : Going b.1) (hd : Driven is b) (hres : b.1.inReset i = false)
    (hc : Avalon.logClears i.write = false) : Going (Top.next b i).1 := by
  rw [Top.next_of_not_inReset hres]
  refine ⟨?_, hc⟩
  show b.1.disp.nextState b.1.dispIn ≠ .idle
  cases hst : b.1.disp.state with
  | idle => exact absurd hst h.state
  | write => simp only [OrderDispatcher.nextState, hst]; split <;> simp
  | dispatch => simp only [OrderDispatcher.nextState, hst]; split <;> simp
  | done => simp [OrderDispatcher.nextState, hst, Top.dispIn, hd.clearDone]

end Board

/-! ### Loading -/

namespace Harness

variable {clock : Nat → UInt64} {d : OrderDispatcher} {x x' : Harness} {st : HftDispStatus}

/-- Lanes are done when their files are at the end. -/
theorem Does.done (h : Does clock d x x') (ha : x'.Alive)
    (hroom : ∀ n o, x.current = some (n, o) → d.fifoFull n = false)
    (hd : ∀ n, x.laneDone n = true → x.csv.orders n = []) : ∀ n, x'.laneDone n = true → x'.csv.orders n = [] := by
  have hahead := (h.ahead ha hroom).1
  cases h with
  | full => exact hd
  | scan ns hpc hfull =>
    obtain ⟨hcur, hw, -⟩ := scan_from hpc
    obtain ⟨hm, -⟩ := scan_spec clock (hftDispGetStatus d.statusWord).fullMask ns x
    generalize Harness.scan clock (hftDispGetStatus d.statusWord).fullMask ns x = y at *
    intro n hn
    have hx : x.csv.orders n = [] := by
      rcases hm.fresh n hn with hn | hn
      · exact hd n hn
      · exact hn.2.2
    have hn' := hahead n
    rw [hw, ahead_of_none hcur, hx] at hn'
    exact (List.append_eq_nil_iff.1 (List.append_eq_nil_iff.1 hn').2).2
  | status => exact hd
  | @write n o hpc =>
    obtain ⟨hcsv, hdone, -⟩ := checkDeadline_same clock x n
    rw [hcsv, hdone]
    exact hd
  | rest => exact hd

/-- A reset is reported only when the dispatcher is in `IDLE`. -/
theorem state_of_reset (hrun : x.Running) (h : (x.step clock st).pc = .returned hftErrReset) :
    st.state = hftStateIdle := by
  have hscan : ∀ ns, (scan clock st.fullMask ns x).pc ≠ .returned hftErrReset := by
    intro ns hpc
    obtain ⟨-, ⟨n, o, t, hp, -⟩ | hp | ⟨hp, -⟩⟩ := scan_spec clock st.fullMask ns x
    · rw [hp] at hpc; cases hpc
    · rw [loopHead_pc hp.1] at hpc
      split at hpc <;> cases hpc
    · rw [hp] at hpc; cases hpc
  cases hpc : x.pc with
  | poll =>
    by_contra hne
    simp only [Harness.step, hpc, if_neg hne] at h
    split at h
    · cases h
    · split at h
      · cases h
      · exact hscan _ h
  | pushStatus n o deadline =>
    simp only [Harness.step, hpc] at h
    unfold hftDispPushOrderHw at h
    split_ifs at h <;> cases h
  | pushWrite n o =>
    simp only [Harness.step, hpc] at h
    rcases checkDeadline_pc clock x n with hr | hr <;> rw [hr] at h <;> cases h
  | refresh n =>
    simp only [Harness.step, hpc] at h
    split at h
    · cases h
    · exact absurd h (hscan _)
  | returned rc => exact absurd hpc (hrun rc)

theorem write_of_ok (hrun : x.Running) (h : (x.step clock st).pc = .returned .ok) : x.write = none := by
  cases hpc : x.pc with
  | pushWrite n o =>
    simp only [Harness.step, hpc] at h
    rcases checkDeadline_pc clock x n with hr | hr <;> rw [hr] at h <;> cases h
  | returned rc => exact absurd hpc (hrun rc)
  | _ => simp [Harness.write, hpc]

end Harness

/-- What the FIFOs take of the orders in the files. -/
def stock (os : Fin 8 → List HftDispOrder) (n : Fin 8) : List DispatchOrder :=
  ((os n).take fifoSz).map hftDispPackOrderWord

namespace Load

variable {clock : Nat → UInt64} {q : Load} {j : LoadIn} {os : Fin 8 → List HftDispOrder}

/-- In `WRITE`. -/
structure Filling (os : Fin 8 → List HftDispOrder) (q : Load) : Prop extends Loading os q where
  done : ∀ n, q.sw.laneDone n = true → q.sw.csv.orders n = []

/-- `KEY2` has come when all FIFOs were full. -/
structure Brim (os : Fin 8 → List HftDispOrder) (q : Load) : Prop where
  state : q.board.1.disp.state = .dispatch ∨ q.board.1.disp.state = .done
  clear : q.board.1.avl.dispClearDonePulse = false
  written : ∀ n, q.board.2.batch.written n = stock os n

theorem stock_of_pushed {w : List DispatchOrder} {n : Fin 8} (hp : w <+: (os n).map hftDispPackOrderWord)
    (hlen : w.length = fifoSz) : w = stock os n := by
  rw [stock, List.map_take, ← hlen]
  exact List.prefix_iff_eq_take.1 hp

theorem next_go {rc : Rc} (hrun : q.sw.Running) (hret : (next clock q j).sw.pc = .returned rc) : j.go = true := by
  by_contra hg
  rw [next_sw, if_neg hg] at hret
  exact hrun _ hret

theorem Filling.next (h : Filling os q) (hres : q.board.1.inReset (q.topIn j) = false)
    (hb : q.board.1.dispBeginDispatchPulse = false) (hrun : (Load.next clock q j).sw.Running) :
    Filling os (Load.next clock q j) := by
  have ha : (Load.next clock q j).sw.Alive := fun rc hrc => absurd hrc (hrun rc)
  refine ⟨h.toLoading.next hres hb ha, ?_⟩
  rw [next_sw, status_tick hres] at ha ⊢
  cases hgo : j.go with
  | false => exact h.done
  | true =>
    simp only [hgo, if_true] at ha ⊢
    exact (h.sw.does clock h.write h.room).done ha h.room h.done

/-- `KEY2` cuts the loading short unless all FIFOs are full. -/
theorem Filling.cut (h : Filling os q) (hres : q.board.1.inReset (q.topIn j) = false)
    (hb : q.board.1.dispBeginDispatchPulse = true) : Dispatching (Load.next clock q j) ∨ Brim os (Load.next clock q j) := by
  by_cases hroom : ∃ n, (q.board.1.disp.step q.board.1.dispIn).fifoFull n = false
  · exact .inl (h.toLoading.dispatching hres hb hroom)
  · simp only [not_exists, Bool.not_eq_false] at hroom
    right
    have hboard := next_board_tick clock hres
    have hq := (h.ctrl.tick (q.topIn j)).disp.queue
    refine ⟨?_, ?_, fun n => stock_of_pushed ?_ ?_⟩ <;> rw [hboard]
    · left
      show q.board.1.disp.nextState q.board.1.dispIn = .dispatch
      simp [OrderDispatcher.nextState, h.write, Top.dispIn, hb]
    · exact busBit_topIn q j 2
    · rw [h.written_next, ← h.orders n]
      exact List.prefix_append _ _
    · have hocc := (hq n).occupancy_eq
      have hle := (hq n).le
      have hfull : ((q.board.1.tick (q.topIn j)).disp.fifo n).occupancy = fifoSz := by
        have := hroom n
        simp only [OrderDispatcher.fifoFull, DispatchFifoBram.full, decide_eq_true_iff] at this
        exact this
      show ((q.board.2.next q.board.1).batch.written n).length = _
      omega

theorem Brim.not_write (h : Brim os q) : q.board.1.disp.state ≠ .write := by
  rcases h.state with h | h <;> simp [h]

theorem Brim.next (h : Brim os q) (hres : q.board.1.inReset (q.topIn j) = false) :
    Brim os (Load.next clock q j) ∧ Holding (stock os) (Load.next clock q j).board := by
  have hwritten : ∀ n, (q.board.2.next q.board.1).batch.written n = stock os n := by
    intro n
    show (q.board.2.batch.next q.board.1.disp q.board.1.dispIn).written n = _
    rw [Batch.next, if_neg (by simp [Top.dispIn, h.clear])]
    show q.board.2.batch.written n ++ q.board.1.disp.stores q.board.1.dispIn n = _
    rw [OrderDispatcher.stores_nil h.not_write, List.append_nil]
    exact h.written n
  have hstate : q.board.1.disp.nextState q.board.1.dispIn = .dispatch ∨
      q.board.1.disp.nextState q.board.1.dispIn = .done := by
    rcases h.state with hst | hst
    · simp only [OrderDispatcher.nextState, hst]
      split
      · exact .inr rfl
      · exact .inl rfl
    · simp [OrderDispatcher.nextState, hst, Top.dispIn, h.clear]
  refine ⟨⟨?_, ?_, ?_⟩, ?_, fun n => ?_⟩ <;> rw [next_board_tick clock hres]
  · exact hstate
  · exact busBit_topIn q j 2
  · exact hwritten
  · exact hwritten
  · show ((busData (q.topIn j).write (addrPush n)).isSome && q.board.1.dispPushReady n) = false
    simp [Top.dispPushReady, OrderDispatcher.swWrReady, h.not_write]

/-- The loading that ends well has filled the FIFOs, as far as there are orders. -/
theorem Filling.ok (h : Filling os q) (hres : q.board.1.inReset (q.topIn j) = false) (hrun : q.sw.Running)
    (hret : (Load.next clock q j).sw.pc = .returned .ok) : Holding (stock os) (Load.next clock q j).board := by
  have hgo := next_go hrun hret
  have hsw : (Load.next clock q j).sw = q.sw.step clock (hftDispGetStatus q.board.1.disp.statusWord) := by
    rw [next_sw, if_pos hgo, status_tick hres]
  rw [hsw] at hret
  have hdoes := h.sw.does clock h.write h.room
  have ha : (q.sw.step clock (hftDispGetStatus q.board.1.disp.statusWord)).Alive := fun rc hrc => by
    rw [hret] at hrc; cases hrc; rfl
  have hwrite := Harness.write_of_ok hrun hret
  have hfilled : ∀ n, q.board.2.batch.written n = stock os n ∧ q.board.1.disp.stores q.board.1.dispIn n = [] := by
    intro n
    have hos := h.orders n
    have hle := h.written_le n
    have hfull : q.board.1.disp.fifoFull n = true → q.board.2.batch.written n = stock os n ∧
        q.board.1.disp.stores q.board.1.dispIn n = [] := by
      intro hfull
      have hlen := (h.full_iff n).1 hfull
      refine ⟨stock_of_pushed ?_ hlen, List.length_eq_zero_iff.1 (by omega)⟩
      rw [← hos, List.append_assoc]
      exact List.prefix_append _ _
    rcases h.sw.step_ok hrun hret with hall | ⟨hpc, -⟩
    · exact hfull (status_all_full_iff.1 hall n)
    · rcases hdoes.returns hrun hret with ⟨-, hall | hall⟩ | ⟨hno, -⟩ | ⟨hno, -⟩
      · exact hfull (hall n)
      · -- the file is at its end and nothing is left
        have hstores := h.stores_nil (n := n) (by rw [hpc]; simp)
        have hahead := (hdoes.ahead ha h.room).1 n
        rw [hwrite, Harness.ahead_of_none (by simp [Harness.current, hret]),
          hdoes.done ha h.room h.done n (hall n)] at hahead
        have hnone : q.sw.ahead n = [] := hahead.symm
        rw [hstores, hnone, List.map_nil, List.append_nil, List.append_nil] at hos
        rw [hstores, List.length_nil, hos, List.length_map, Nat.add_zero] at hle
        exact ⟨by rw [hos, stock, List.take_of_length_le hle], hstores⟩
      · cases hno
      · cases hno
  refine ⟨fun n => ?_, fun n => ?_⟩ <;> rw [next_board_tick clock hres]
  · rw [h.written_next, (hfilled n).2, List.append_nil]
    exact (hfilled n).1
  · show ((busData (q.topIn j).write (addrPush n)).isSome && q.board.1.dispPushReady n) = false
    rw [busData_topIn, hwrite]
    simp [Harness.only]

/-- While `hft_write_orders_round_robin` runs. -/
def Underway (os : Fin 8 → List HftDispOrder) (q : Load) : Prop := Filling os q ∨ Dispatching q ∨ Brim os q

theorem Underway.next (h : Underway os q) (hres : q.board.1.inReset (q.topIn j) = false)
    (hrun : (Load.next clock q j).sw.Running) : Underway os (Load.next clock q j) := by
  rcases h with h | h | h
  · cases hb : q.board.1.dispBeginDispatchPulse with
    | false => exact .inl (h.next hres hb hrun)
    | true => exact .inr (h.cut hres hb)
  · exact .inr (.inl (h.next hres))
  · exact .inr (.inr (h.next hres).1)

theorem Underway.ok (h : Underway os q) (hres : q.board.1.inReset (q.topIn j) = false) (hrun : q.sw.Running)
    (hret : (Load.next clock q j).sw.pc = .returned .ok) : Holding (stock os) (Load.next clock q j).board := by
  rcases h with h | h | h
  · exact h.ok hres hrun hret
  · exact absurd hret (h.not_ok hres hrun)
  · exact (h.next hres).2

theorem Underway.start {files : Fin 8 → List Char} {is : List TopIn} {b : Top × History} (hd : Driven is b)
    (h : Holding (fun _ => []) b) (hst : b.1.disp.state = .write ∨ b.1.disp.state = .dispatch)
    (clock : Nat → UInt64) (timeoutMs : Int) :
    Underway (fileOrders files) ⟨b, Harness.start clock timeoutMs (csvRewindAll files)⟩ := by
  rcases hst with hst | hst
  · have hready : (Top.run is).1.Ready (Top.run is).2 := by
      rw [← hd.board]
      exact ⟨hst, h.written, h.push⟩
    have hl : Loading (fileOrders files) (call clock timeoutMs files is) := .call timeoutMs files is hready
    rw [call, ← hd.board] at hl
    refine .inl ⟨hl, fun n hn => ?_⟩
    unfold Harness.start at hn
    split at hn <;> cases hn
  · refine .inr (.inl ⟨hd.ctrl, .start _ _, .inl hst, hd.clearDone, 0, ?_⟩)
    have hocc := (hd.ctrl.disp.queue 0).occupancy_eq
    rw [h.written 0, List.length_nil] at hocc
    simp [OrderDispatcher.fifoFull, DispatchFifoBram.full, fifoSz, show (b.1.disp.fifo 0).occupancy = 0 by omega]

end Load

/-! ### The trades -/

/-- The row of `hft_trades.txt` for the entry `v` of the log. -/
def logRow (i : Nat) (v : LogEntry) : TradeRow :=
  ⟨i, logWord0 v, logWord1 v, hftLogDumpEntry (logWord0 v) (logWord1 v)⟩

/-- The row for a trade of an engine, of whose amount it has seven bits. -/
def tradeRow (i : Nat) (p : Fin 8 × Node) : TradeRow where
  index := i
  word0 := logWord0 (tradeOutData p.1 p.2)
  word1 := logWord1 (tradeOutData p.1 p.2)
  line := ⟨BitVec.ofNat 32 p.1.val, ((orderAmount p.2).extractLsb' 0 7).setWidth 32, (orderPrice p.2).setWidth 32,
    orderTs p.2⟩

/-- The rows have all the trades of the eight order books on the orders in the files, as many as fit in the
FIFOs. -/
def Complete (env : MainEnv) (rows : List TradeRow) : Prop :=
  ∃ (os : Fin 8 → List Node) (merged : List (Fin 8 × Node)),
    (∀ e, Top.Stamped e (stock (Load.fileOrders (Main.files env)) e) (os e)) ∧
    (∀ e, Top.tradesBy merged e = (runOrders nodeOps (os e)).1) ∧ rows = merged.mapIdx tradeRow

/-- The FIFOs have got the orders from the files. -/
structure Settled (env : MainEnv) (b : Top × History) : Prop extends Going b.1 where
  holding : Holding (stock (Load.fileOrders (Main.files env))) b

/-- `hft_log_get_info` has said so, if the trades are done. -/
structure Final (li : HftLogInfo) (b : Top × History) : Prop where
  done : b.1.tradeDone = true
  count : li.count.toNat = b.1.log.countReg

/-- `hft_log_read_all` has been called for all entries of the log, which has not changed since. -/
def Reading (y : ReadAll) (b : Top × History) : Prop :=
  ∃ (p : LogPort) (n : BitVec 32) (cs : List BusCycle), p.log.WF ∧ b.1.log.countReg ≤ n.toNat ∧
    hftLogReadAll.run (p, .start n) cs = (⟨b.1.avl, b.1.log⟩, y) ∧
    ∀ r ∈ hftLogReadAll.visited (p, .start n) cs, r.avl.logClearPulse = false ∧ r.log.countReg = b.1.log.countReg

section Trades

variable {env : MainEnv} {b : Top × History} {is : List TopIn} {i : TopIn} {li : HftLogInfo} {y : ReadAll}

theorem logRow_tradeOutData (i : Nat) (p : Fin 8 × Node) : logRow i (tradeOutData p.1 p.2) = tradeRow i p := by
  rw [logRow, dump_tradeOutData]
  rfl

theorem Driven.complete (hd : Driven is b) (hs : Settled env b) (hdone : b.1.tradeDone = true)
    (hlen : is.length < 2 ^ 32) : Complete env (b.1.log.contents.mapIdx logRow) := by
  obtain ⟨hst, hidle⟩ := Top.tradeDone_iff.1 hdone
  have hbatch := Top.oneBatch_of_writes hd.writes
  have hph := hd.ctrl.disp.phase
  simp only [OrderDispatcher.Phase, hst] at hph
  refine ⟨b.2.orders, b.2.merged, fun e => ?_, fun e => ?_, ?_⟩
  · have hl := Top.run_laneOk is hbatch hlen e
    rw [← hd.board] at hl
    rw [← hs.holding.written e, ← hph e]
    exact ⟨hl.taken, hl.aged⟩
  · have hbook := Top.idle_book hbatch hlen (e := e) (by rw [← hd.board]; exact hidle e)
    have htr := Top.trades_of_early hd.keys (hd.early hlen) e
    rw [← hd.board] at hbook htr
    rw [Top.tradesBy_merged, htr]
    exact hbook.1
  · rw [hd.ctrl.log.contents, List.mapIdx_eq_iff]
    intro j
    rw [List.getElem?_mapIdx, List.getElem?_map, History.merged, List.getElem?_map, Option.map_map, Option.map_map]
    congr 1
    funext p
    exact (logRow_tradeOutData j (p.1, tradeRecord p.2.1 p.2.2)).symm

theorem Settled.next (h : Settled env b) (hd : Driven is b) (hres : b.1.inReset i = false)
    (hw : ∀ n, busData i.write (addrPush n) = none) (hc : Avalon.logClears i.write = false) :
    Settled env (Top.next b i) :=
  ⟨h.toGoing.next hd hres hc, h.holding.next hd hres hw⟩

theorem Driven.done_next (hd : Driven is b) (hs : Settled env b) (hres : b.1.inReset i = false)
    (hdone : b.1.tradeDone = true) : (Top.next b i).1.tradeDone = true ∧
      (Top.next b i).1.log.countReg = b.1.log.countReg := by
  rw [Top.next_of_not_inReset hres]
  obtain ⟨h1, h2, -⟩ := Top.tradeDone_tick (i := i) hdone hd.clearDone hs.clear
  exact ⟨h1, h2⟩

theorem Final.next (h : Final li b) (hd : Driven is b) (hs : Settled env b) (hres : b.1.inReset i = false) :
    Final li (Top.next b i) := by
  obtain ⟨h1, h2⟩ := hd.done_next hs hres h.done
  exact ⟨h1, h.count.trans h2.symm⟩

theorem Driven.count_le (hd : Driven is b) : b.1.log.countReg ≤ 8704 := by
  have := hd.ctrl.log.wf.le
  exact this

theorem Reading.start {n : BitVec 32} (hd : Driven is b) (hs : Settled env b) (hn : n.toNat = b.1.log.countReg) :
    Reading (.start n) b := by
  refine ⟨⟨b.1.avl, b.1.log⟩, n, [], hd.ctrl.log.wf, Nat.le_of_eq hn.symm, rfl, fun r hr => ?_⟩
  obtain ⟨pre, hpre, rfl⟩ := hftLogReadAll.mem_visited.1 hr
  rw [List.prefix_nil.1 hpre]
  exact ⟨hs.clear, rfl⟩

/-- The bus cycle that `main` sees while it reads the log. -/
def Top.busCycle (s : Top) (go : Bool) : BusCycle :=
  ⟨go, none, s.logIn.tradeIn, s.dispPushReady,
    ⟨s.disp.statusWord, laneBits fun e => (s.eng e).engineIdle, s.allEnginesIdle, s.tradeDone⟩⟩

theorem Reading.next (go : Bool) (h : Reading y b) (hd : Driven is b) (hs : Settled env b) (hres : b.1.inReset i = false)
    (hdone : b.1.tradeDone = true) (hw : i.write = if go then y.write else none)
    (hc : Avalon.logClears i.write = false) :
    Reading (if go then y.next (b.1.readdata i y.reads) else y) (Top.next b i) := by
  obtain ⟨p, n, cs, hwf, hn, hrun, hvis⟩ := h
  have hcount := (hd.done_next (i := i) hs hres hdone).2
  have hbus : hftLogReadAll.busWrite y (b.1.busCycle go) = i.write := by
    rw [hw, Caller.busWrite]
    cases go with
    | true => rfl
    | false => exact ite_self _
  have hread : b.1.readdata i y.reads = LogPort.readdata ⟨b.1.avl, b.1.log⟩ (b.1.busCycle go).env y.reads := by
    rw [Top.readdata, hres]
    rfl
  have hnext : hftLogReadAll.run (p, .start n) (cs ++ [b.1.busCycle go]) =
      (⟨(Top.next b i).1.avl, (Top.next b i).1.log⟩, if go then y.next (b.1.readdata i y.reads) else y) := by
    rw [Caller.run_snoc, hrun, Caller.cycle, hbus, hread, Top.next_of_not_inReset hres, LogPort.tick_eq_step]
    rfl
  refine ⟨p, n, _, hwf, by rwa [hcount], hnext, fun r hr => ?_⟩
  obtain ⟨pre, hpre, rfl⟩ := hftLogReadAll.mem_visited.1 hr
  rw [hcount]
  rcases List.prefix_concat_iff.1 hpre with rfl | hpre
  · rw [hnext]
    exact ⟨(hs.toGoing.next hd hres hc).clear, hcount⟩
  · exact hvis _ (hftLogReadAll.mem_visited.2 ⟨pre, hpre, rfl⟩)

/-- What has been read is the whole log. -/
theorem Reading.complete (h : Reading y b) (hd : Driven is b) (hs : Settled env b) (hdone : b.1.tradeDone = true)
    (hlen : is.length < 2 ^ 32) (hok : y.pc = .returned .ok) : Complete env (hftLogDumpEntries y.entries (y.outCount.getD 0)) := by
  obtain ⟨p, n, cs, hwf, hn, hrun, hvis⟩ := h
  have hret : (hftLogReadAll.run (p, .start n) cs).2.pc = .returned .ok := by rw [hrun]; exact hok
  obtain ⟨hout, hall, ⟨q, hq, hmin⟩, -⟩ := readAll_ok hwf hret
  have hents := readAll_contents hwf hret fun r hr => (hvis r hr).1
  rw [hrun] at hout hall hmin hents
  dsimp only at hout hall hmin hents
  have hcount : y.n.toNat = b.1.log.countReg := by rw [hmin, (hvis q hq).2]; exact Nat.min_eq_left hn
  have hlen' : b.1.log.contents.length ≤ y.n.toNat := by rw [TradeLog.length_contents, hcount]
  have hrows : hftLogDumpEntries y.entries (y.outCount.getD 0) = b.1.log.contents.mapIdx logRow := by
    rw [hout, Option.getD_some, hftLogDumpEntries, List.take_of_length_le (Nat.le_of_eq hall), hents,
      List.take_of_length_le hlen', List.mapIdx_mapIdx]
    rfl
  rw [hrows]
  exact hd.complete hs hdone hlen

end Trades

/-! ### One access -/

/-- Between the loading and `trade_done`. -/
def MainPc.Waits : MainPc → Prop
  | .before | .waitDispatch | .after | .waitStatus _ | .waitInfo _ | .snapStatus _ _ | .snapInfo _ _ => True
  | _ => False

/-- What is known of the board before an access of `main`, and of the trades in the end. -/
def Stage (env : MainEnv) (is : List TopIn) (b : Top × History) : MainPc → Prop
  | .logClear | .waitWrite => Holding (fun _ => []) b
  | .load x => Going b.1 ∧ x.Running ∧ Load.Underway (Load.fileOrders (Main.files env)) ⟨b, x⟩
  | .before | .waitDispatch | .after | .waitStatus _ | .waitInfo _ => Settled env b
  | .snapStatus _ li | .snapInfo _ li => Settled env b ∧ (li.tradeDone = true → Final li b)
  | .readAll y => Settled env b ∧ b.1.tradeDone = true ∧ Reading y b
  | .exited e => is.length < 2 ^ 32 → ∀ rows, e.rows = some rows → Complete env rows

namespace Main

variable {clock : Nat → UInt64} {env : MainEnv} {m : Main} {b : Top × History} {is : List TopIn} {li : HftLogInfo}
  {w : WaitDone}

theorem stage_waitHead (hs : Settled env b) : Stage env is b (m.waitHead w).pc := by
  unfold waitHead
  dsimp only
  split
  · intro _ rows h; cases h
  · exact hs

theorem stage_finish (hd : Driven is b) (hs : Settled env b) (hf : Final li b) : Stage env is b (m.finish env li).pc := by
  have hle := hd.count_le
  have hmin : (if 8704 < li.count then 8704 else li.count) = li.count := by
    refine if_neg fun hlt => ?_
    rw [BitVec.lt_def, hf.count] at hlt
    exact absurd hle (Nat.not_le.2 hlt)
  unfold finish
  simp only [hmin]
  split
  · rename_i hzero
    intro hlen rows hrows
    have hnil : b.1.log.contents = [] := by
      rw [← List.length_eq_zero_iff, TradeLog.length_contents, ← hf.count, hzero]
      rfl
    obtain rfl := Option.some.inj hrows
    have := hd.complete hs hf.done hlen
    rwa [hnil] at this
  · split
    · intro _ rows h; cases h
    · exact ⟨hs, hf.done, .start hd hs hf.count⟩

theorem stage_settle (hd : Driven is b) (hs : Settled env b) (hf : li.tradeDone = true → Final li b) :
    Stage env is b (m.settle clock env w li).pc := by
  unfold settle
  split
  · exact stage_finish hd hs (hf (by assumption))
  · split
    · intro _ rows h; cases h
    · exact stage_waitHead hs

/-- Only loading pushes orders, -/
theorem busData_write (hpc : ∀ x, m.pc ≠ .load x) (n : Fin 8) : busData m.write (addrPush n) = none := by
  have hcmd : ∀ d, busData (some ⟨BitVec.ofNat 5 addrLogCmd, d⟩) (addrPush n) = none := by
    intro d
    have := n.isLt
    simp only [busData, Option.bind_some, addrLogCmd, addrPush, BitVec.toNat_ofNat]
    exact if_neg (by omega)
  unfold write
  split
  · exact hcmd 1
  · exact absurd (by assumption) (hpc _)
  · rename_i y _
    unfold ReadAll.write
    split
    · rename_i x _
      unfold ReadEntry.write
      split
      · exact hcmd _
      · rfl
    · rfl
  · rfl

/-- only the clear at the start clears the log, -/
theorem logClears_write (hpc : m.pc ≠ .logClear) : Avalon.logClears m.write = false := by
  unfold write
  split
  · exact absurd (by assumption) hpc
  · rename_i x _
    cases x.write with
    | none => rfl
    | some p =>
      obtain ⟨n, o⟩ := p
      have := n.isLt
      have hno : busData (some (pushBus (n, o))) addrLogCmd = none := by
        simp only [busData, Option.bind_some, pushBus, addrLogCmd, addrPush, BitVec.toNat_ofNat]
        exact if_neg (by omega)
      rw [Option.map_some, Avalon.logClears, busBit, hno]
      rfl
  · rename_i y _
    unfold ReadAll.write
    split
    · rename_i x _
      unfold ReadEntry.write
      split
      · have := logReads_request x.entry.index
        rw [Avalon.logReads, Bool.and_eq_true, Bool.not_eq_true'] at this
        exact this.1
      · rfl
    · rfl
  · rfl

/-- and `CONTROL` is not written. -/
theorem busBit_write (m : Main) (k : Nat) : busBit m.write addrControl k = false := by
  have hno : busData m.write addrControl = none := by
    unfold write
    split
    · rfl
    · rename_i x _
      cases x.write with
      | none => rfl
      | some p =>
        obtain ⟨n, o⟩ := p
        have := n.isLt
        simp only [Option.map_some, busData, Option.bind_some, pushBus, addrControl, addrPush, BitVec.toNat_ofNat]
        exact if_neg (by omega)
    · rename_i y _
      unfold ReadAll.write
      split
      · rename_i x _
        unfold ReadEntry.write
        split <;> rfl
      · rfl
    · rfl
  rw [busBit, hno]
  rfl

end Main

namespace Session

variable {clock : Nat → UInt64} {env : MainEnv} {q : Session} {j : MainIn} {is : List TopIn}

theorem next_board (clock : Nat → UInt64) (env : MainEnv) (q : Session) (j : MainIn) :
    (q.next clock env j).board = Top.next q.board (q.topIn j) := rfl

theorem write_topIn : (q.topIn j).write = if j.go then q.sw.write else none := rfl

theorem driven_next (hd : Driven is q.board) (hkey : j.key.getLsbD 0 = true)
    (hearly : q.board.1.avl.logClearPulse = true → ∀ n, (q.next clock env j).board.2.batch.written n = []) :
    Driven (is ++ [q.topIn j]) (q.next clock env j).board := by
  refine hd.next ⟨hkey, ?_⟩ hearly
  rw [write_topIn]
  cases j.go with
  | true => exact q.sw.busBit_write 2
  | false => rfl

theorem driven_going (hd : Driven is q.board) (hg : Going q.board.1) (hkey : j.key.getLsbD 0 = true)
    : Driven (is ++ [q.topIn j]) (q.next clock env j).board :=
  driven_next hd hkey fun hc => by rw [hg.clear] at hc; cases hc

theorem busData_topIn (hpc : ∀ x, q.sw.pc ≠ .load x) (n : Fin 8) : busData (q.topIn j).write (addrPush n) = none := by
  rw [write_topIn]
  cases j.go with
  | true => exact Main.busData_write hpc n
  | false => rfl

theorem logClears_topIn (hpc : q.sw.pc ≠ .logClear) : Avalon.logClears (q.topIn j).write = false := by
  rw [write_topIn]
  cases j.go with
  | true => exact Main.logClears_write hpc
  | false => rfl

theorem holding_next (hd : Driven is q.board) (h : Holding (fun _ => []) q.board) (hpc : ∀ x, q.sw.pc ≠ .load x) :
    Holding (fun _ => []) (q.next clock env j).board := by
  cases hres : q.board.1.inReset (q.topIn j) with
  | true => exact .reset hres
  | false => exact h.next hd hres (busData_topIn hpc)

theorem settled_next (hd : Driven is q.board) (h : Settled env q.board) (hkey : j.key.getLsbD 0 = true)
    (hpc : ∀ x, q.sw.pc ≠ .load x) (hclear : q.sw.pc ≠ .logClear) : Settled env (q.next clock env j).board :=
  h.next hd (hd.not_reset h.state hkey) (busData_topIn hpc) (logClears_topIn hclear)

theorem readdata_status (s : Top) (i : TopIn) : s.readdata i addrStatus = (s.dispSeen i).statusWord := by
  unfold Top.readdata Top.dispSeen
  split <;> rfl

/-- The status tells that the dispatcher is in `IDLE`. -/
theorem status_idle_iff {d : OrderDispatcher} : (hftDispGetStatus d.statusWord).state = hftStateIdle ↔ d.state = .idle := by
  rw [status_state]
  cases d.state <;> decide

/-- `main` after the signal handler. -/
def handled (q : Session) (j : MainIn) : Main := { q.sw with gStop := q.sw.gStop || j.sigint }

theorem next_sw : (q.next clock env j).sw = if j.go then
    (q.handled j).step clock env (q.board.1.readdata (q.topIn j) q.sw.reads) else q.handled j := rfl

theorem driven_blank (hd : Driven is q.board) (h : Holding (fun _ => []) q.board) (hkey : j.key.getLsbD 0 = true)
    (hpc : ∀ x, q.sw.pc ≠ .load x) :
    Driven (is ++ [q.topIn j]) (q.next clock env j).board :=
  driven_next hd hkey fun _ => (holding_next hd h hpc).written

theorem stage_logClear (hd : Driven is q.board) (h : Holding (fun _ => []) q.board) (hpc : q.sw.pc = .logClear) :
    Stage env (is ++ [q.topIn j]) (q.next clock env j).board (q.next clock env j).sw.pc := by
  have hold : Holding (fun _ => []) (q.next clock env j).board := holding_next hd h (by simp [hpc])
  rw [next_sw]
  cases j.go with
  | true =>
    rw [if_pos rfl, Main.step, show (q.handled j).pc = .logClear from hpc]
    exact hold
  | false =>
    rw [if_neg Bool.false_ne_true, show (q.handled j).pc = .logClear from hpc]
    exact hold

/-- The loading begins when `WRITE` is seen; `KEY2` may have come already. -/
theorem stage_waitWrite (hd : Driven is q.board) (h : Holding (fun _ => []) q.board) (hpc : q.sw.pc = .waitWrite)
    (hd' : Driven (is ++ [q.topIn j]) (q.next clock env j).board) :
    Stage env (is ++ [q.topIn j]) (q.next clock env j).board (q.next clock env j).sw.pc := by
  have hold : Holding (fun _ => []) (q.next clock env j).board := holding_next hd h (by simp [hpc])
  have hm : (q.handled j).pc = .waitWrite := hpc
  have hreads : q.sw.reads = addrStatus := by simp [Main.reads, hpc]
  rw [next_sw]
  cases j.go with
  | false =>
    rw [if_neg Bool.false_ne_true, hm]
    exact hold
  | true =>
    rw [if_pos rfl, Main.step, hm, hreads, readdata_status]
    dsimp only
    split
    · rename_i hst
      have hst := status_write_iff.1 hst
      have hres : q.board.1.inReset (q.topIn j) = false := by
        by_contra hno
        rw [Top.dispSeen, if_pos (Bool.not_eq_false _ ▸ hno)] at hst
        cases hst
      rw [Top.dispSeen, hres] at hst
      have hst : q.board.1.disp.state = .write := hst
      have hstate : (q.next clock env j).board.1.disp.state = .write ∨
          (q.next clock env j).board.1.disp.state = .dispatch := by
        rw [next_board, Top.next_of_not_inReset hres]
        show q.board.1.disp.nextState q.board.1.dispIn = _ ∨ q.board.1.disp.nextState q.board.1.dispIn = _
        simp only [OrderDispatcher.nextState, hst]
        split
        · exact .inr rfl
        · exact .inl rfl
      have hgoing : Going (q.next clock env j).board.1 := by
        refine ⟨by rcases hstate with h | h <;> simp [h], ?_⟩
        rw [next_board, Top.next_of_not_inReset hres]
        exact logClears_topIn (by simp [hpc])
      have hunder : Load.Underway (Load.fileOrders (Main.files env)) ⟨(q.next clock env j).board,
          .start ((q.handled j).loadClock clock) 30000 (csvRewindAll (Main.files env))⟩ :=
        .start hd' hold hstate _ _
      have hrun := Load.start_running ((q.handled j).loadClock clock) 30000 (csvRewindAll (Main.files env))
      have hpoll : (Harness.start ((q.handled j).loadClock clock) 30000 (csvRewindAll (Main.files env))).pc = .poll := rfl
      rw [Main.loading, hpoll]
      exact ⟨hgoing, hrun, hunder⟩
    · rw [hm]
      exact hold

theorem loading_running {m : Main} {x : Harness} (hrun : x.Running) : m.loading x = { m with pc := .load x } := by
  unfold Main.loading
  split
  · exact absurd (by assumption) (hrun _)
  · exact absurd (by assumption) (hrun _)
  · exact absurd (by assumption) (hrun _)
  · rfl

variable (clock env j) in
/-- The loading goes on as it does by itself. -/
theorem next_load {x : Harness} (hpc : q.sw.pc = .load x) (hrun : x.Running) :
    (q.next clock env j).board = (Load.next (q.sw.loadClock clock) ⟨q.board, x⟩ ⟨j.key, j.go⟩).board ∧
      (q.next clock env j).sw =
        (q.handled j).loading (Load.next (q.sw.loadClock clock) ⟨q.board, x⟩ ⟨j.key, j.go⟩).sw := by
  have hin : q.topIn j = Load.topIn ⟨q.board, x⟩ ⟨j.key, j.go⟩ := by
    simp only [topIn, Main.write, hpc, Load.topIn]
  have hm : (q.handled j).pc = .load x := hpc
  refine ⟨by rw [next_board, hin]; rfl, ?_⟩
  rw [next_sw, Load.next_sw]
  cases hgo : j.go with
  | false =>
    rw [if_neg Bool.false_ne_true, if_neg Bool.false_ne_true, loading_running hrun, ← hm]
  | true =>
    have hreads : q.sw.reads = addrStatus := by simp [Main.reads, hpc]
    rw [if_pos rfl, if_pos rfl, Main.step, hm, hreads, readdata_status, hin, hgo]
    rfl

theorem stage_load {x : Harness} (hd : Driven is q.board) (hkey : j.key.getLsbD 0 = true) (hpc : q.sw.pc = .load x)
    (hg : Going q.board.1) (hrun : x.Running)
    (hu : Load.Underway (Load.fileOrders (Main.files env)) ⟨q.board, x⟩) :
    Stage env (is ++ [q.topIn j]) (q.next clock env j).board (q.next clock env j).sw.pc := by
  obtain ⟨hboard, hsw⟩ := next_load clock env j hpc hrun
  have hin : q.topIn j = Load.topIn ⟨q.board, x⟩ ⟨j.key, j.go⟩ := by
    simp only [topIn, Main.write, hpc, Load.topIn]
  have hres := hd.not_reset (i := q.topIn j) hg.state hkey
  have hgoing : Going (q.next clock env j).board.1 := hg.next hd hres (logClears_topIn (by simp [hpc]))
  rw [hin] at hres
  rw [hsw]
  cases hret : (Load.next (q.sw.loadClock clock) ⟨q.board, x⟩ ⟨j.key, j.go⟩).sw.pc with
  | returned rc =>
    have hok := fun h => hu.ok hres hrun (hret.trans h)
    unfold Main.loading
    rw [hret]
    cases rc with
    | ok => exact ⟨hgoing, by rw [hboard]; exact hok rfl⟩
    | econnreset =>
      -- there has been no reset
      have hgo := Load.next_go hrun hret
      rw [Load.next_sw, if_pos hgo] at hret
      have hidle := Harness.state_of_reset hrun hret
      rw [Load.status_tick hres, status_idle_iff] at hidle
      exact absurd hidle hg.state
    | _ => intro _ rows h; cases h
  | _ =>
    have hrun' : (Load.next (q.sw.loadClock clock) ⟨q.board, x⟩ ⟨j.key, j.go⟩).sw.Running := fun rc h => by
      rw [hret] at h; cases h
    rw [loading_running hrun', hboard]
    exact ⟨hboard ▸ hgoing, hrun', hu.next hres hrun'⟩

theorem final_of_info (hd : Driven is q.board) (hres : q.board.1.inReset (q.topIn j) = false)
    (h : (hftLogGetInfo (q.board.1.readdata (q.topIn j) addrLogInfo)).tradeDone = true) :
    Final (hftLogGetInfo (q.board.1.readdata (q.topIn j) addrLogInfo)) q.board := by
  have hle := hd.count_le
  have hraw : q.board.1.readdata (q.topIn j) addrLogInfo =
      LogPort.logInfo ⟨q.board.1.avl, q.board.1.log⟩ (q.board.1.busCycle true).env := by
    rw [Top.readdata, hres]
    rfl
  rw [hraw, hftLogGetInfo_logInfo _ _ (show q.board.1.log.countReg < 2 ^ 14 by omega)] at h ⊢
  refine ⟨h, ?_⟩
  show (BitVec.ofNat 32 q.board.1.log.countReg).toNat = _
  rw [BitVec.toNat_ofNat, Nat.mod_eq_of_lt (by omega)]

/-- The accesses from the end of the loading to `trade_done`. -/
theorem stage_waits (hd : Driven is q.board) (hs : Settled env q.board) (hkey : j.key.getLsbD 0 = true)
    (hd' : Driven (is ++ [q.topIn j]) (q.next clock env j).board) (hstage : Stage env is q.board q.sw.pc)
    (hw : q.sw.pc.Waits) : Stage env (is ++ [q.topIn j]) (q.next clock env j).board (q.next clock env j).sw.pc := by
  have hres := hd.not_reset (i := q.topIn j) hs.state hkey
  have hs' : Settled env (q.next clock env j).board := settled_next hd hs hkey (fun x hx => by rw [hx] at hw; exact hw)
    fun hx => by rw [hx] at hw; exact hw
  have hfinal : ∀ li, Final li q.board → Final li (q.next clock env j).board := fun li h => h.next hd hs hres
  have hidle : (hftDispGetStatus (q.board.1.readdata (q.topIn j) addrStatus)).state ≠ hftStateIdle := by
    rw [readdata_status, Top.dispSeen, hres]
    exact fun h => hs.state (status_idle_iff.1 h)
  have hm : (q.handled j).pc = q.sw.pc := rfl
  rw [next_sw]
  cases hgo : j.go with
  | false =>
    rw [if_neg Bool.false_ne_true, hm]
    revert hw hstage
    cases q.sw.pc with
    | logClear | waitWrite | load | readAll | exited => exact fun _ h => h.elim
    | snapStatus w li | snapInfo w li => exact fun h _ => ⟨hs', fun hdone => hfinal li (h.2 hdone)⟩
    | _ => exact fun _ _ => hs'
  | true =>
    rw [if_pos rfl, Main.step, hm]
    revert hw hstage
    cases hq : q.sw.pc with
    | logClear | waitWrite | load | readAll | exited => exact fun _ h => h.elim
    | before => exact fun _ _ => hs'
    | waitDispatch =>
      intro _ _
      have hreads : q.sw.reads = addrStatus := by simp [Main.reads, hq]
      rw [hreads]
      dsimp only
      rw [if_neg hidle]
      split
      · exact hs'
      · rw [hm, hq]; exact hs'
    | after => exact fun _ _ => Main.stage_waitHead hs'
    | waitStatus w =>
      intro _ _
      have hreads : q.sw.reads = addrStatus := by simp [Main.reads, hq]
      rw [hreads]
      dsimp only
      rw [if_neg hidle]
      exact hs'
    | waitInfo w =>
      intro _ _
      have hreads : q.sw.reads = addrLogInfo := by simp [Main.reads, hq]
      rw [hreads]
      dsimp only
      have hf := fun h => hfinal _ (final_of_info (j := j) hd hres h)
      split
      · split
        · exact ⟨hs', hf⟩
        · exact Main.stage_settle hd' hs' hf
      · exact Main.stage_settle hd' hs' hf
    | snapStatus w li => exact fun h _ => ⟨hs', fun hdone => hfinal li (h.2 hdone)⟩
    | snapInfo w li => exact fun h _ => Main.stage_settle hd' hs' fun hdone => hfinal li (h.2 hdone)

theorem stage_readAll {y : ReadAll} (hd : Driven is q.board) (hkey : j.key.getLsbD 0 = true)
    (hd' : Driven (is ++ [q.topIn j]) (q.next clock env j).board) (hpc : q.sw.pc = .readAll y)
    (hs : Settled env q.board) (hdone : q.board.1.tradeDone = true) (hr : Reading y q.board) :
    Stage env (is ++ [q.topIn j]) (q.next clock env j).board (q.next clock env j).sw.pc := by
  have hres := hd.not_reset (i := q.topIn j) hs.state hkey
  have hs' : Settled env (q.next clock env j).board := settled_next hd hs hkey (by simp [hpc]) (by simp [hpc])
  have hdone' : (q.next clock env j).board.1.tradeDone = true := (hd.done_next hs hres hdone).1
  have hr' := hr.next j.go hd hs hres hdone (by simp [write_topIn, Main.write, hpc])
    (logClears_topIn (by simp [hpc]))
  have hreads : q.sw.reads = y.reads := by simp [Main.reads, hpc]
  have hm : (q.handled j).pc = .readAll y := hpc
  rw [next_sw]
  cases hgo : j.go with
  | false =>
    rw [hgo] at hr'
    rw [if_neg Bool.false_ne_true, hm]
    exact ⟨hs', hdone', hr'⟩
  | true =>
    rw [hgo, if_pos rfl, ← next_board clock env] at hr'
    rw [if_pos rfl, Main.step, hm, hreads]
    dsimp only
    generalize y.next (q.board.1.readdata (q.topIn j) y.reads) = y' at hr'
    unfold Main.reading
    split
    · rename_i hok
      dsimp only
      split
      · intro hlen rows hrows
        obtain rfl := Option.some.inj hrows
        exact hr'.complete hd' hs' hdone' hlen hok
      · intro _ rows hrows; cases hrows
    · intro _ rows hrows; cases hrows
    · exact ⟨hs', hdone', hr'⟩

/-- One cycle. -/
theorem stage_next (hd : Driven is q.board) (hs : Stage env is q.board q.sw.pc) (hkey : j.key.getLsbD 0 = true)
    (hrun : ∀ e, q.sw.pc ≠ .exited e) :
    Driven (is ++ [q.topIn j]) (q.next clock env j).board ∧
      Stage env (is ++ [q.topIn j]) (q.next clock env j).board (q.next clock env j).sw.pc := by
  cases hpc : q.sw.pc with
  | exited e => exact absurd hpc (hrun e)
  | logClear =>
    rw [hpc] at hs
    exact ⟨driven_blank hd hs hkey (by simp [hpc]), stage_logClear hd hs hpc⟩
  | waitWrite =>
    rw [hpc] at hs
    have hd' : Driven (is ++ [q.topIn j]) (q.next clock env j).board := driven_blank hd hs hkey (by simp [hpc])
    exact ⟨hd', stage_waitWrite hd hs hpc hd'⟩
  | load x =>
    rw [hpc] at hs
    exact ⟨driven_going hd hs.1 hkey, stage_load hd hkey hpc hs.1 hs.2.1 hs.2.2⟩
  | readAll y =>
    rw [hpc] at hs
    have hd' : Driven (is ++ [q.topIn j]) (q.next clock env j).board := driven_going hd hs.1.toGoing hkey
    exact ⟨hd', stage_readAll hd hkey hd' hpc hs.1 hs.2.1 hs.2.2⟩
  | snapStatus w li | snapInfo w li =>
    have hset : Settled env q.board := by rw [hpc] at hs; exact hs.1
    have hd' : Driven (is ++ [q.topIn j]) (q.next clock env j).board := driven_going hd hset.toGoing hkey
    exact ⟨hd', stage_waits hd hset hkey hd' hs (by rw [hpc]; trivial)⟩
  | _ =>
    have hset : Settled env q.board := by rw [hpc] at hs; exact hs
    have hd' : Driven (is ++ [q.topIn j]) (q.next clock env j).board := driven_going hd hset.toGoing hkey
    exact ⟨hd', stage_waits hd hset hkey hd' hs (by rw [hpc]; trivial)⟩

theorem next_exited {e : Exit} (hpc : q.sw.pc = .exited e) : (q.next clock env j).sw.pc = .exited e := by
  have hm : (q.handled j).pc = .exited e := hpc
  rw [next_sw, Main.step, hm]
  split <;> exact hm

/-- What the board has got on its way. -/
def inputs (clock : Nat → UInt64) (env : MainEnv) (js : List MainIn) : List TopIn :=
  (js.foldl (fun p j => (next clock env p.1 j, p.2 ++ [p.1.topIn j]))
    ((⟨(.powerUp, .fresh), .start env⟩, []) : Session × List TopIn)).2

theorem inputs_snoc (js : List MainIn) (j : MainIn) :
    inputs clock env (js ++ [j]) = inputs clock env js ++ [(run clock env js).topIn j] := by
  have hfst : ∀ l : List MainIn, (l.foldl (fun p j => (next clock env p.1 j, p.2 ++ [p.1.topIn j]))
      ((⟨(.powerUp, .fresh), .start env⟩, []) : Session × List TopIn)).1 = run clock env l := by
    intro l
    induction l using List.reverseRecOn with
    | nil => rfl
    | append_singleton l x ih => rw [List.foldl_append, run_snoc, ← ih]; rfl
  rw [inputs, List.foldl_append, ← hfst]
  rfl

theorem length_inputs (js : List MainIn) : (inputs clock env js).length = js.length := by
  induction js using List.reverseRecOn with
  | nil => rfl
  | append_singleton js j ih => rw [inputs_snoc, List.length_append, List.length_append, ih]; rfl

variable (clock env) in
theorem run_stage {js : List MainIn} (hkeys : ∀ j ∈ js, j.key.getLsbD 0 = true) :
    Stage env (inputs clock env js) (run clock env js).board (run clock env js).sw.pc ∧
      ((∀ e, (run clock env js).sw.pc ≠ .exited e) → Driven (inputs clock env js) (run clock env js).board) := by
  induction js using List.reverseRecOn with
  | nil =>
    refine ⟨?_, fun _ => ⟨rfl, fun i hi => (by cases hi), fun _ ks j hp => ?_⟩⟩
    · show Stage env [] (Top.powerUp, .fresh) (Main.start env).pc
      unfold Main.start
      split
      · intro _ rows h; cases h
      · split
        · intro _ rows h; cases h
        · exact ⟨fun n => rfl, fun n => rfl⟩
    · exact absurd (List.prefix_nil.1 hp) (by simp)
  | append_singleton js j ih =>
    have hkey := hkeys j (by simp)
    obtain ⟨hs, hd⟩ := ih fun k hk => hkeys k (by simp [hk])
    rw [run_snoc, inputs_snoc]
    by_cases hrun : ∀ e, (run clock env js).sw.pc ≠ .exited e
    · obtain ⟨hd', hs'⟩ := stage_next (hd hrun) hs hkey hrun
      exact ⟨hs', fun _ => hd'⟩
    · simp only [ne_eq, not_forall, not_not] at hrun
      obtain ⟨e, hpc⟩ := hrun
      rw [hpc] at hs
      have hpc' : ((run clock env js).next clock env j).sw.pc = .exited e := next_exited hpc
      refine ⟨?_, fun hno => absurd hpc' (hno e)⟩
      rw [hpc']
      intro hlen
      rw [List.length_append, List.length_singleton] at hlen
      exact hs (by omega)

end Session

theorem Main.exit_eq_some {m : Main} {e : Exit} (h : m.exit = some e) : m.pc = .exited e := by
  unfold Main.exit at h
  split at h
  · rw [← Option.some.inj h]
    assumption
  · cases h

/-- A report is complete. -/
theorem Session.complete {clock : Nat → UInt64} {env : MainEnv} {js : List MainIn} {e : Exit} {rows : List TradeRow}
    (hkeys : ∀ j ∈ js, j.key.getLsbD 0 = true) (hlen : js.length < 2 ^ 32)
    (hexit : (run clock env js).sw.exit = some e) (hrows : e.rows = some rows) : Complete env rows := by
  have hs := (run_stage clock env hkeys).1
  rw [Main.exit_eq_some hexit] at hs
  exact hs (by rwa [length_inputs]) rows hrows

/-- A bid and an ask for lane 0 that cross. -/
def crossingRows (n : Fin 8) : List Char :=
  if n = 0 then ['B', 'I', 'D', ',', '5', ',', '3', '\n', 'A', 'S', 'K', ',', '5', ',', '2', '\n'] else []

def crossingEnv : MainEnv := ⟨false, true, fun n => some (crossingRows n), true, true⟩

/-- `KEY1` comes at 3 and `KEY2` at 22, and `main` makes an access in each cycle. -/
def crossingRun : List MainIn :=
  (List.range 66).map fun t => ⟨if t = 3 then 0xD else if t = 22 then 0xB else 0xF, true, false⟩

theorem crossingRun_rows : (Session.run (fun _ => 0) crossingEnv crossingRun).sw.exit.bind Exit.rows =
    some [⟨0, 25, 0x00020005, ⟨0, 2, 5, 25⟩⟩] := by decide +kernel

end HftSim
