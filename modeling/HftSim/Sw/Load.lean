import HftSim.Sw.Harness
import HftSim.TopBatch

/-!
# The harness on the board

`Load` runs `hft_write_orders_round_robin` against the design, cycle by cycle: in every cycle the buttons
are as they are, and the harness makes its next access or does not. While the design stays in `WRITE`,
what a lane has stored, what is on its way and what is left of the lane's file are together the orders of the
file (`Loading`).
-/

namespace HftSim

open Function

/-! ### Where the harness stands -/

namespace Harness

variable {clock : Nat → UInt64} {x : Harness} {st : HftDispStatus} {mask : BitVec 32} {ns : List (Fin 8)}

/-- The lane of the push under way. -/
def lane (x : Harness) : Option (Fin 8) :=
  match x.pc with
  | .pushStatus n _ _ | .pushWrite n _ | .refresh n => some n
  | _ => none

/-- The order taken from its file and not yet written, with its lane. -/
def current (x : Harness) : Option (Fin 8 × HftDispOrder) :=
  match x.pc with
  | .pushStatus n o _ | .pushWrite n o => some (n, o)
  | _ => none

def Running (x : Harness) : Prop := ∀ rc, x.pc ≠ .returned rc

structure Ok (x : Harness) : Prop where
  lane : ∀ n, x.lane = some n → x.laneDone n = false
  fits : ∀ n o, x.current = some (n, o) → o.Fits

theorem loopHead_pc (h : x = x.loopHead) : x.pc = if ∀ n, x.laneDone n = true then .returned .ok else .poll := by
  conv_lhs => rw [h]
  rfl

theorem lane_loopHead (h : x = x.loopHead) : x.lane = none ∧ x.current = none := by
  have hpc := loopHead_pc h
  split at hpc <;> simp [Harness.lane, current, hpc]

theorem Ok.of_none (hl : x.lane = none) (hc : x.current = none) : x.Ok :=
  ⟨fun n h => (by rw [hl] at h; cases h), fun n o h => (by rw [hc] at h; cases h)⟩

theorem Ok.of_returned {rc : Rc} (h : x.pc = .returned rc) : x.Ok :=
  .of_none (by simp [Harness.lane, h]) (by simp [current, h])

theorem Ok.start (timeoutMs : Int) (csv : LaneCsvReader) : (start clock timeoutMs csv).Ok := by
  unfold Harness.start
  split <;> exact .of_none rfl rfl

theorem Ok.of_scan (clock : Nat → UInt64) (mask : BitVec 32) (ns : List (Fin 8)) (x : Harness) :
    (scan clock mask ns x).Ok := by
  obtain ⟨-, h | h | ⟨h, -⟩⟩ := scan_spec clock mask ns x
  · obtain ⟨n, o, d, hpc, -, hdone, -, hfit, -⟩ := h
    refine ⟨fun m hm => ?_, fun m p hm => ?_⟩
    · simp only [Harness.lane, hpc, Option.some.injEq] at hm
      rwa [← hm]
    · simp only [current, hpc, Option.some.injEq, Prod.mk.injEq] at hm
      rwa [← hm.2]
  · exact .of_none (lane_loopHead h.1).1 (lane_loopHead h.1).2
  · exact .of_returned h

theorem checkDeadline_pc (clock : Nat → UInt64) (x : Harness) (n : Fin 8) :
    (x.checkDeadline clock n).pc = .refresh n ∨ (x.checkDeadline clock n).pc = .returned .etimedout := by
  unfold checkDeadline
  cases x.deadline with
  | none => exact .inl rfl
  | some d =>
    by_cases h : d ≤ clock x.calls
    · exact .inr (if_pos h)
    · exact .inl (if_neg h)

theorem checkDeadline_same (clock : Nat → UInt64) (x : Harness) (n : Fin 8) : (x.checkDeadline clock n).csv = x.csv ∧
    (x.checkDeadline clock n).laneDone = x.laneDone ∧ (x.checkDeadline clock n).deadline = x.deadline := by
  unfold checkDeadline
  cases x.deadline <;> exact ⟨rfl, rfl, rfl⟩

theorem Ok.step (h : x.Ok) (st : HftDispStatus) : (x.step clock st).Ok := by
  cases hpc : x.pc with
  | poll =>
    simp only [Harness.step, hpc]
    split
    · exact .of_returned rfl
    · split
      · exact .of_returned rfl
      · split
        · exact .of_returned rfl
        · exact .of_scan ..
  | pushStatus n o d =>
    have hlane : x.laneDone n = false := h.lane n (by simp [Harness.lane, hpc])
    have hfit : o.Fits := h.fits n o (by simp [current, hpc])
    have hstay : ∀ y : Harness, y.laneDone = x.laneDone → y.lane = some n → y.current = some (n, o) → y.Ok := by
      intro y hy hl hc
      refine ⟨fun m hm => ?_, fun m p hm => ?_⟩
      · rw [hl] at hm; rw [hy, ← Option.some.inj hm]; exact hlane
      · rw [hc] at hm; cases hm; exact hfit
    simp only [Harness.step, hpc]
    split
    · exact hstay _ rfl rfl rfl
    · split
      · exact .of_returned rfl
      · exact hstay _ rfl rfl rfl
    · split
      · exact .of_returned rfl
      · exact hstay _ rfl rfl rfl
    · exact .of_returned rfl
  | pushWrite n o =>
    have hlane : x.laneDone n = false := h.lane n (by simp [Harness.lane, hpc])
    simp only [Harness.step, hpc]
    rcases checkDeadline_pc clock x n with hr | hr
    · refine ⟨fun m hm => ?_, fun m p hm => ?_⟩
      · simp only [Harness.lane, hr, Option.some.injEq] at hm
        rw [checkDeadline_same clock x n |>.2.1, ← hm]
        exact hlane
      · simp [current, hr] at hm
    · exact .of_returned hr
  | refresh n =>
    simp only [Harness.step, hpc]
    split
    · exact .of_returned rfl
    · exact .of_scan ..
  | returned rc =>
    simp only [Harness.step, hpc]
    exact .of_returned hpc

theorem mem_lanesAfter : ∀ n m : Fin 8, m ∈ lanesAfter n ↔ n < m := by decide

/-- A pass that ends the loading has found every lane done. -/
theorem scan_ok (h : (scan clock mask ns x).pc = .returned .ok) : ∀ n, (scan clock mask ns x).laneDone n = true := by
  obtain ⟨-, hp | hp | ⟨hp, -⟩⟩ := scan_spec clock mask ns x
  · obtain ⟨n, o, d, hpc, -⟩ := hp
    rw [hpc] at h; cases h
  · have hpc := loopHead_pc hp.1
    rw [h] at hpc
    by_contra hno
    rw [if_neg hno] at hpc
    cases hpc
  · rw [hp] at h; cases h

/-- The lane of the last push is not done, so a pass after it does not end the loading. -/
theorem Ok.scan_refresh (h : x.Ok) {n : Fin 8} (hpc : x.pc = .refresh n) :
    (scan clock mask (lanesAfter n) x).pc ≠ .returned .ok := by
  intro hr
  have hx : x.laneDone n = false := h.lane n (by simp [Harness.lane, hpc])
  rcases (scan_spec clock mask (lanesAfter n) x).1.fresh n (scan_ok hr n) with h | h
  · rw [hx] at h; cases h
  · exact absurd ((mem_lanesAfter n n).1 h.1) (lt_irrefl n)

/-- The loading ends well at a status with all FIFOs full, or at the head of the loop in `WRITE`. -/
theorem Ok.step_ok (h : x.Ok) (hrun : x.Running) (hr : (x.step clock st).pc = .returned .ok) :
    hftAllFifosFullMask st.fullMask = true ∨ x.pc = .poll ∧ st.state = hftStateWrite := by
  by_contra hno
  simp only [not_or, not_and] at hno
  obtain ⟨hfull, hwrite⟩ := hno
  cases hpc : x.pc with
  | poll =>
    have hst := hwrite hpc
    simp only [Harness.step, hpc, if_neg hfull, if_pos hst] at hr
    split at hr <;> cases hr
  | pushStatus n o d =>
    simp only [Harness.step, hpc] at hr
    cases hrc : hftDispPushOrderHw st n o <;> simp only [hrc] at hr
    · cases hr
    · cases hr
    · split at hr <;> cases hr
    · split at hr <;> cases hr
    · cases hr
    · cases hr
  | pushWrite n o =>
    simp only [Harness.step, hpc] at hr
    rcases checkDeadline_pc clock x n with h | h <;> rw [h] at hr <;> cases hr
  | refresh n =>
    simp only [Harness.step, hpc, if_neg hfull] at hr
    exact h.scan_refresh hpc hr
  | returned rc => exact hrun rc hpc

theorem pc_of_write {n : Fin 8} {o : HftDispOrder} (h : x.write = some (n, o)) : x.pc = .pushWrite n o := by
  unfold Harness.write at h
  split at h
  · cases h; assumption
  · cases h

/-- The loading goes on or has ended well. -/
def Alive (x : Harness) : Prop := ∀ rc, x.pc = .returned rc → rc = .ok

def only (p : Option (Fin 8 × HftDispOrder)) (n : Fin 8) : List HftDispOrder :=
  match p with
  | some (m, o) => if m = n then [o] else []
  | none => []

/-- The orders of lane `n` that are not yet written. -/
def ahead (x : Harness) (n : Fin 8) : List HftDispOrder := only x.current n ++ x.csv.orders n

theorem ahead_of_none (h : x.current = none) : x.ahead = x.csv.orders := by
  funext n; simp [ahead, only, h]

theorem scan_ahead (h : x.current = none) (ha : (scan clock mask ns x).Alive) :
    (scan clock mask ns x).ahead = x.ahead ∧
      ∀ n o, (scan clock mask ns x).current = some (n, o) → n ∈ ns ∧ mask.getLsbD n.val = false := by
  rw [ahead_of_none h]
  obtain ⟨-, hp | hp | ⟨hp, -⟩⟩ := scan_spec clock mask ns x
  · obtain ⟨n, o, d, hpc, hn, -, hmask, -, hos, hother, -⟩ := hp
    have hc : (scan clock mask ns x).current = some (n, o) := by simp [current, hpc]
    refine ⟨funext fun m => ?_, fun m p hm => ?_⟩
    · by_cases hm : m = n
      · subst hm; simp [ahead, only, hc, hos]
      · simp [ahead, only, hc, hother m hm, Ne.symm hm]
    · rw [hc] at hm; cases hm
      exact ⟨hn, hmask⟩
  · obtain ⟨-, hc⟩ := lane_loopHead hp.1
    refine ⟨?_, fun n o hn => ?_⟩
    · rw [ahead_of_none hc, hp.2.1]
    · rw [hc] at hn; cases hn
  · cases ha _ hp

/-- What an access does when the dispatcher is in `WRITE` and the lane of the order under way has room. -/
inductive Does (clock : Nat → UInt64) (d : OrderDispatcher) (x : Harness) : Harness → Prop
  | full (hpc : x.pc = .poll ∨ ∃ n, x.pc = .refresh n) (hfull : ∀ n, d.fifoFull n = true) :
    Does clock d x { x with pc := .returned .ok }
  | scan (ns : List (Fin 8)) (hpc : x.pc = .poll ∧ ns = List.finRange 8 ∨ ∃ n, x.pc = .refresh n ∧ ns = lanesAfter n)
    (hfull : ¬ ∀ n, d.fifoFull n = true) :
    Does clock d x (scan clock (hftDispGetStatus d.statusWord).fullMask ns x)
  | status {n o deadline} (hpc : x.pc = .pushStatus n o deadline) : Does clock d x { x with pc := .pushWrite n o }
  | write {n o} (hpc : x.pc = .pushWrite n o) : Does clock d x (x.checkDeadline clock n)
  | rest {rc} (hpc : x.pc = .returned rc) : Does clock d x x

theorem Ok.does {d : OrderDispatcher} (h : x.Ok) (clock : Nat → UInt64) (hst : d.state = .write)
    (hroom : ∀ n o, x.current = some (n, o) → d.fifoFull n = false) :
    Does clock d x (x.step clock (hftDispGetStatus d.statusWord)) := by
  have hw : (hftDispGetStatus d.statusWord).state = hftStateWrite := status_write_iff.2 hst
  cases hpc : x.pc with
  | poll =>
    simp only [Harness.step, hpc, hw, ne_eq, not_true_eq_false, if_false,
      show ¬ hftStateWrite = hftStateIdle by decide]
    split
    · exact .full (.inl hpc) (status_all_full_iff.1 (by assumption))
    · exact .scan _ (.inl ⟨hpc, rfl⟩) (mt status_all_full_iff.2 (by assumption))
  | pushStatus n o dl =>
    have hc : x.current = some (n, o) := by simp [current, hpc]
    have hready : d.swWrReady n = true := by simp [OrderDispatcher.swWrReady, hst, hroom n o hc]
    have hrc : hftDispPushOrderHw (hftDispGetStatus d.statusWord) n o = .ok := by
      simp [hftDispPushOrderHw, h.fits n o hc, hw, status_ready_lane, hready]
    simp only [Harness.step, hpc, hrc]
    exact .status hpc
  | pushWrite n o =>
    simp only [Harness.step, hpc]
    exact .write hpc
  | refresh n =>
    simp only [Harness.step, hpc]
    split
    · exact .full (.inr ⟨n, hpc⟩) (status_all_full_iff.1 (by assumption))
    · exact .scan _ (.inr ⟨n, hpc, rfl⟩) (mt status_all_full_iff.2 (by assumption))
  | returned rc =>
    rw [show x.step clock (hftDispGetStatus d.statusWord) = x by simp [Harness.step, hpc]]
    exact .rest hpc

/-- A pass over the lanes starts with no order under way, and leaves out the lane of the last push. -/
theorem scan_from (hpc : x.pc = .poll ∧ ns = List.finRange 8 ∨ ∃ n, x.pc = .refresh n ∧ ns = lanesAfter n) :
    x.current = none ∧ x.write = none ∧ ∀ n ∈ ns, x.pc ≠ .refresh n := by
  rcases hpc with ⟨hpc, -⟩ | ⟨m, hpc, rfl⟩
  · simp [current, Harness.write, hpc]
  · refine ⟨by simp [current, hpc], by simp [Harness.write, hpc], fun n hn h => ?_⟩
    rw [hpc] at h
    cases h
    exact lt_irrefl m ((mem_lanesAfter m m).1 hn)

/-- In `WRITE` an access takes an order forward by one place and loses none. -/
theorem Does.ahead {d : OrderDispatcher} {x' : Harness} (h : Does clock d x x') (ha : x'.Alive)
    (hroom : ∀ n o, x.current = some (n, o) → d.fifoFull n = false) :
    (∀ n, only x.write n ++ x'.ahead n = x.ahead n) ∧
      ∀ n o, x'.current = some (n, o) → d.fifoFull n = false ∧ x.pc ≠ .refresh n := by
  cases h with
  | full hpc hfull =>
    have hx : x.current = none ∧ x.write = none := by
      rcases hpc with hpc | ⟨n, hpc⟩ <;> simp [current, Harness.write, hpc]
    refine ⟨fun n => ?_, fun n o hn => by cases hn⟩
    rw [ahead_of_none hx.1, ahead_of_none rfl, hx.2]
    rfl
  | scan ns hpc hfull =>
    obtain ⟨hc, hw, hns⟩ := scan_from hpc
    obtain ⟨h1, h2⟩ := scan_ahead hc ha
    refine ⟨fun n => by rw [h1, hw]; rfl, fun n o hn => ⟨?_, hns n (h2 n o hn).1⟩⟩
    rw [← status_full_lane]
    exact (h2 n o hn).2
  | @status n o dl hpc =>
    refine ⟨fun m => ?_, fun m p hm => ?_⟩
    · simp [Harness.ahead, only, Harness.write, hpc, current]
    · simp only [current, Option.some.injEq, Prod.mk.injEq] at hm
      rw [← hm.1]
      exact ⟨hroom n o (by simp [current, hpc]), by simp [hpc]⟩
  | @write n o hpc =>
    have hnone : (x.checkDeadline clock n).current = none := by
      rcases checkDeadline_pc clock x n with hr | hr <;> simp [current, hr]
    refine ⟨fun m => ?_, fun m p hm => ?_⟩
    · rw [ahead_of_none hnone, (checkDeadline_same clock x n).1]
      simp [Harness.ahead, current, Harness.write, hpc]
    · rw [hnone] at hm; cases hm
  | rest hpc =>
    refine ⟨fun n => by simp [Harness.write, hpc, only], fun n o hn => ?_⟩
    simp [current, hpc] at hn

end Harness

/-! ### The harness and the board -/

/-- One cycle: the buttons, and whether the harness makes its next access. -/
structure LoadIn where
  key : BitVec 4
  go : Bool

structure Load where
  board : Top × History
  sw : Harness

/-- The write of an order to its `PUSHn`. -/
def pushBus (p : Fin 8 × HftDispOrder) : BusWrite := ⟨BitVec.ofNat 5 (addrPush p.1), hftDispPackOrderWord p.2⟩

/-- What a read of `STATUS` sees of the dispatcher: the reset is asynchronous. -/
def Top.dispSeen (s : Top) (i : TopIn) : OrderDispatcher := if s.inReset i then s.disp.reset else s.disp

namespace Load

variable (clock : Nat → UInt64) (q : Load) (j : LoadIn)

def topIn : TopIn := ⟨j.key, if j.go then q.sw.write.map pushBus else none⟩

def status : HftDispStatus := hftDispGetStatus (q.board.1.dispSeen (q.topIn j)).statusWord

def next : Load := ⟨Top.next q.board (q.topIn j), if j.go then q.sw.step clock (q.status j) else q.sw⟩

def run (q : Load) (js : List LoadIn) : Load := js.foldl (next clock) q

/-- The call of `hft_write_orders_round_robin` after the inputs `is`, with rewound files. -/
def call (timeoutMs : Int) (files : Fin 8 → List Char) (is : List TopIn) : Load :=
  ⟨Top.run is, Harness.start clock timeoutMs (csvRewindAll files)⟩

end Load

/-- As `main` calls it: the dispatcher has gone to `WRITE`, and nothing has been pushed yet. -/
structure Top.Ready (s : Top) (h : History) : Prop where
  write : s.disp.state = .write
  written : ∀ n, h.batch.written n = []
  push : ∀ n, s.avl.dispPushEn n = false

theorem busData_pushBus (n m : Fin 8) (o : HftDispOrder) :
    busData (some (pushBus (m, o))) (addrPush n) = if m = n then some (hftDispPackOrderWord o) else none := by
  have haddr : (BitVec.ofNat 5 (addrPush m)).toNat = addrPush n ↔ m = n := by
    rw [BitVec.toNat_ofNat, addrPush, addrPush, Nat.mod_eq_of_lt (by omega), Fin.ext_iff]
    omega
  simp only [busData, pushBus, Option.bind_some, haddr]

namespace Load

variable {clock : Nat → UInt64} {q : Load} {j : LoadIn} {os : Fin 8 → List HftDispOrder}

theorem run_snoc (q : Load) (js : List LoadIn) (j : LoadIn) : run clock q (js ++ [j]) = next clock (run clock q js) j := by
  simp [run, List.foldl_append]

theorem next_board_tick (clock : Nat → UInt64) (hr : q.board.1.inReset (q.topIn j) = false) :
    (next clock q j).board = (q.board.1.tick (q.topIn j), q.board.2.next q.board.1) := by
  simp [next, Top.next, Top.step_of_not_inReset hr, hr]

theorem status_tick (hr : q.board.1.inReset (q.topIn j) = false) :
    q.status j = hftDispGetStatus q.board.1.disp.statusWord := by
  simp [status, Top.dispSeen, hr]

theorem busData_topIn (n : Fin 8) : busData (q.topIn j).write (addrPush n) =
    if j.go then ((Harness.only q.sw.write n).map hftDispPackOrderWord).head? else none := by
  cases hg : j.go with
  | false => simp [topIn, hg, busData]
  | true =>
    simp only [topIn, hg, if_true]
    cases hw : q.sw.write with
    | none => simp [busData, Harness.only]
    | some p =>
      obtain ⟨m, o⟩ := p
      rw [Option.map_some, busData_pushBus]
      by_cases hm : m = n <;> simp [Harness.only, hm]

/-- Loading in `WRITE`: in each lane nothing is lost and nothing is out of order. -/
structure Loading (os : Fin 8 → List HftDispOrder) (q : Load) : Prop where
  ctrl : q.board.1.CtrlOk q.board.2
  sw : q.sw.Ok
  write : q.board.1.disp.state = .write
  orders : ∀ n, q.board.2.batch.written n ++ q.board.1.disp.stores q.board.1.dispIn n ++
    (q.sw.ahead n).map hftDispPackOrderWord = (os n).map hftDispPackOrderWord
  flight : ∀ n, q.board.1.avl.dispPushEn n = true → q.sw.pc = .refresh n
  room : ∀ n o, q.sw.current = some (n, o) → q.board.1.disp.fifoFull n = false

theorem Loading.no_flight (h : Loading os q) {n : Fin 8} (hpc : q.sw.pc ≠ .refresh n) :
    q.board.1.avl.dispPushEn n = false :=
  Bool.eq_false_iff.2 fun hp => hpc (h.flight n hp)

/-- What the FIFO writes after this cycle is the order the harness writes in it. -/
theorem Loading.stores_next (h : Loading os q) (hb : q.board.1.dispBeginDispatchPulse = false) (n : Fin 8) :
    (q.board.1.tick (q.topIn j)).disp.stores (q.board.1.tick (q.topIn j)).dispIn n =
      if j.go then (Harness.only q.sw.write n).map hftDispPackOrderWord else [] := by
  rw [h.ctrl.stores_tick, Top.acks, busData_topIn]
  cases hw : q.sw.write with
  | none => simp [Harness.only]
  | some p =>
    obtain ⟨m, o⟩ := p
    have hpc := Harness.pc_of_write hw
    by_cases hm : m = n
    · subst hm
      have hfull := h.room m o (by simp [Harness.current, hpc])
      have hready : q.board.1.dispPushReady m = true := by
        simp [Top.dispPushReady, OrderDispatcher.swWrReady, h.write, hfull]
      have hen := h.no_flight (n := m) (by rw [hpc]; simp)
      have hset : q.board.1.settles m = true := by
        have hle := ((h.ctrl.disp.queue m)).le
        have hocc := (h.ctrl.disp.queue m).occupancy_eq
        have hne : (q.board.1.disp.fifo m).occupancy ≠ fifoSz := by
          simpa [OrderDispatcher.fifoFull, DispatchFifoBram.full] using hfull
        simp only [Top.settles, hb, hen, Bool.not_false, Bool.true_and, Bool.toNat_false, Nat.add_zero,
          decide_eq_true_iff]
        omega
      cases j.go <;> simp [Harness.only, hready, hset]
    · simp [Harness.only, hm]

theorem Loading.full_next (h : Loading os q) {n : Fin 8} (hpc : q.sw.pc ≠ .refresh n) :
    (q.board.1.tick (q.topIn j)).disp.fifoFull n = q.board.1.disp.fifoFull n := by
  have hs : q.board.1.disp.stores q.board.1.dispIn n = [] := by
    simp [OrderDispatcher.stores, Top.dispIn, h.no_flight hpc]
  have hocc := (h.ctrl.disp.occupancy_step (i := q.board.1.dispIn) h.write n).1
  rw [hs] at hocc
  show ((q.board.1.disp.step q.board.1.dispIn).fifo n).full = (q.board.1.disp.fifo n).full
  simp [DispatchFifoBram.full, hocc]

theorem Loading.written_next (h : Loading os q) (n : Fin 8) : (q.board.2.next q.board.1).batch.written n =
    q.board.2.batch.written n ++ q.board.1.disp.stores q.board.1.dispIn n := by
  show (q.board.2.batch.next q.board.1.disp q.board.1.dispIn).written n = _
  rw [Batch.next, if_neg (by simp [h.write])]

theorem Loading.next (h : Loading os q) (hr : q.board.1.inReset (q.topIn j) = false)
    (hb : q.board.1.dispBeginDispatchPulse = false) (ha : (next clock q j).sw.Alive) :
    Loading os (next clock q j) := by
  have hboard := next_board_tick clock hr
  have hsw : (Load.next clock q j).sw =
      if j.go then q.sw.step clock (hftDispGetStatus q.board.1.disp.statusWord) else q.sw := by
    rw [← status_tick hr]; rfl
  have hahead : (∀ n, (if j.go then Harness.only q.sw.write n else []) ++ (Load.next clock q j).sw.ahead n =
      q.sw.ahead n) ∧ ∀ n o, (Load.next clock q j).sw.current = some (n, o) →
        q.board.1.disp.fifoFull n = false ∧ q.sw.pc ≠ .refresh n := by
    rw [hsw] at ha ⊢
    cases hg : j.go with
    | true =>
      simp only [hg, if_true] at ha ⊢
      exact (h.sw.does clock h.write h.room).ahead ha h.room
    | false =>
      refine ⟨fun n => rfl, fun n o hn => ⟨h.room n o hn, fun hpc => ?_⟩⟩
      simp [Harness.current, hpc] at hn
  refine ⟨?_, ?_, ?_, fun n => ?_, fun n hn => ?_, fun n o hn => ?_⟩
  · rw [hboard]; exact h.ctrl.tick _
  · rw [hsw]
    cases j.go with
    | true => exact h.sw.step _
    | false => exact h.sw
  · rw [hboard]
    show q.board.1.disp.nextState q.board.1.dispIn = .write
    simp [OrderDispatcher.nextState, h.write, Top.dispIn, hb]
  · rw [hboard, h.written_next, h.stores_next hb, ← h.orders n, ← hahead.1 n, List.map_append]
    cases j.go <;> simp
  · rw [hboard] at hn
    have hn : ((busData (q.topIn j).write (addrPush n)).isSome && q.board.1.dispPushReady n) = true := hn
    rw [busData_topIn] at hn
    rw [hsw] at ha ⊢
    cases hg : j.go with
    | false => simp [hg] at hn
    | true =>
      simp only [hg, if_true] at hn ha ⊢
      cases hw : q.sw.write with
      | none => simp [hw, Harness.only] at hn
      | some p =>
        obtain ⟨m, o⟩ := p
        have hm : m = n := by
          by_contra hm
          simp [hw, Harness.only, hm] at hn
        subst hm
        simp only [Harness.step, Harness.pc_of_write hw] at ha ⊢
        rcases Harness.checkDeadline_pc clock q.sw m with hr | hr
        · exact hr
        · cases ha _ hr
  · obtain ⟨hfull, hpc⟩ := hahead.2 n o hn
    rw [hboard, h.full_next hpc]
    exact hfull

/-- The orders of lane `n`'s file. -/
def fileOrders (files : Fin 8 → List Char) (n : Fin 8) : List HftDispOrder := ordersIn (Stdio.lines 256 (files n))

theorem Loading.call (timeoutMs : Int) (files : Fin 8 → List Char) (is : List TopIn)
    (hready : (Top.run is).1.Ready (Top.run is).2) :
    Loading (fileOrders files) (call clock timeoutMs files is) := by
  have hpc : (Harness.start clock timeoutMs (csvRewindAll files)).pc = .poll := by
    unfold Harness.start; split <;> rfl
  have hcsv : (Harness.start clock timeoutMs (csvRewindAll files)).csv = csvRewindAll files := by
    unfold Harness.start; split <;> rfl
  have hc : (Harness.start clock timeoutMs (csvRewindAll files)).current = none := by
    simp [Harness.current, hpc]
  refine ⟨Top.run_ctrlOk is, .start _ _, hready.write, fun n => ?_, fun n hn => ?_, fun n o hn => ?_⟩
  · show (Top.run is).2.batch.written n ++ (Top.run is).1.disp.stores (Top.run is).1.dispIn n ++ _ = _
    have hs : (Top.run is).1.disp.stores (Top.run is).1.dispIn n = [] := by
      simp [OrderDispatcher.stores, Top.dispIn, hready.push n]
    rw [hready.written n, hs, Load.call, Harness.ahead_of_none hc, hcsv]
    rfl
  · exact absurd hn (by simp [Load.call, hready.push n])
  · exact absurd hn (by simp [Load.call, hc])

theorem Loading.contents (h : Loading os q) (n : Fin 8) :
    (q.board.1.disp.fifo n).contents <+: (os n).map hftDispPackOrderWord := by
  rw [h.ctrl.disp.contents_write h.write, ← h.orders n, List.append_assoc]
  exact List.prefix_append _ _

end Load

end HftSim
