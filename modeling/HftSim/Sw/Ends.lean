import HftSim.Sw.Report
import HftSim.TopComplete

/-!
# `main` comes to an end

`main` that is scheduled again and again ends with a report, or because the clock is past a deadline, or for
Ctrl+C, or for something that is missing: `Exit.Due` says why it may end the way it does. `KEY1` has to be
pressed, and `KEY2` when the orders have been loaded and not before.
-/

namespace HftSim

open Function Progress

/-- `hft_write_orders_round_robin` has returned. -/
def MainPc.Loaded : MainPc → Prop
  | .logClear | .waitWrite | .load _ => False
  | _ => True

instance (p : MainPc) : Decidable p.Loaded :=
  match p with
  | .logClear | .waitWrite | .load _ => .isFalse id
  | .before | .waitDispatch | .after | .waitStatus _ | .waitInfo _ | .snapStatus _ _ | .snapInfo _ _ | .readAll _
  | .exited _ => .isTrue trivial

namespace Session

/-- The session at time `t`, when the inputs `js 0, js 1, …` come in. -/
def trace (clock : Nat → UInt64) (env : MainEnv) (js : Nat → MainIn) (t : Nat) : Session :=
  run clock env ((List.range t).map js)

/-- What the board gets. -/
def bus (clock : Nat → UInt64) (env : MainEnv) (js : Nat → MainIn) (t : Nat) : TopIn := (trace clock env js t).topIn (js t)

/-- No reset; `main` goes on; `KEY1` is pressed after the reset at power-up; `KEY2` is pressed when the orders have
been loaded, and not before. -/
structure Attended (clock : Nat → UInt64) (env : MainEnv) (js : Nat → MainIn) : Prop where
  keys : ∀ t, (js t).key.getLsbD 0 = true
  go : ∀ t, ∃ u, t ≤ u ∧ (js u).go = true
  write : ∃ t, 2 ≤ t ∧ (js t).key.getLsbD 1 = true ∧ (js (t + 1)).key.getLsbD 1 = false
  dispatch : ∀ t, (trace clock env js t).sw.pc = .before → ∃ u, t ≤ u ∧ (js u).key.getLsbD 2 = false
  early : ∀ t, (js t).key.getLsbD 2 = false → (trace clock env js t).sw.pc.Loaded

end Session

/-- What the ends of `main` are due to. -/
def Exit.Due (clock : Nat → UInt64) (env : MainEnv) (js : Nat → MainIn) : Exit → Prop
  | .noDevice => env.device = false
  | .noCsv => ∃ n, env.csv n = none
  | .stopped => ∃ t, (js t).sigint = true
  | .writeFailed rc => rc = .etimedout ∧ ∃ k k', k < k' ∧ clock k + 30000 ≤ clock k'
  | .notDone => ∃ k k', k < k' ∧ clock k + 600000 ≤ clock k'
  | .noMemory => env.memory = false
  | .noTradesFile => env.trades = false
  | .readFailed _ => False
  | .noTrades | .trades _ => True

namespace Top

variable {inp : Nat → TopIn} {t : Nat}

/-! ### The buttons -/

theorem trace_rst (hk : ∀ u, (inp u).key.getLsbD 0 = true) (h2 : 2 ≤ t) : (trace inp t).1.rstPipe1 = true := by
  have hstep : ∀ u, (trace inp (u + 1)).1 = (trace inp u).1.step (inp u) := fun u => by rw [trace_succ]; rfl
  have h0 : ∀ u, (trace inp (u + 1)).1.rstPipe0 = true := by
    intro u
    rw [hstep, step, if_neg (by simp [hk u])]
    split <;> rfl
  obtain ⟨u, rfl⟩ : ∃ u, t = u + 2 := ⟨t - 2, by omega⟩
  rw [hstep, step, if_neg (by simp [hk (u + 1)])]
  split
  · exact h0 u
  · exact h0 u

/-- Without a reset a cycle is a clock edge. -/
theorem trace_edge (hk : ∀ u, (inp u).key.getLsbD 0 = true) (h2 : 2 ≤ t) :
    trace inp (t + 1) = ((trace inp t).1.tick (inp t), (trace inp t).2.next (trace inp t).1) := by
  have hin : (trace inp t).1.inReset (inp t) = false := by
    rw [inReset, hk t, trace_rst hk h2]; rfl
  rw [trace_succ, next, step_of_not_inReset hin, hin]
  rfl

/-- A dispatcher that has left `IDLE` does not go back. -/
theorem trace_not_idle (hk : ∀ u, (inp u).key.getLsbD 0 = true)
    (hw : ∀ u, busBit (inp u).write addrControl 2 = false) (hst : (trace inp t).1.disp.state ≠ .idle) {u : Nat}
    (hu : t ≤ u) : (trace inp u).1.disp.state ≠ .idle := by
  refine stays (P := fun u => (trace inp u).1.disp.state ≠ .idle) (fun v hv hst => ?_) hst hu
  have hclear : (trace inp v).1.avl.dispClearDonePulse = false := by
    cases v with
    | zero => rfl
    | succ v =>
      rw [trace_succ, ← Bool.not_eq_true]
      exact fun hc => Bool.false_ne_true ((hw v).symm.trans (clearDonePulse_step _ _ hc))
  rw [trace_tick hk hst]
  show OrderDispatcher.nextState _ _ ≠ .idle
  cases hs : (trace inp v).1.disp.state with
  | idle => exact absurd hs hst
  | write | dispatch => simp only [OrderDispatcher.nextState, hs]; split <;> simp
  | done => simp [OrderDispatcher.nextState, hs, dispIn, hclear]

/-- `KEY1` brings the dispatcher out of `IDLE`. -/
theorem trace_leaves_idle (hk : ∀ u, (inp u).key.getLsbD 0 = true)
    (hw : ∀ u, busBit (inp u).write addrControl 2 = false) (h2 : 2 ≤ t) (hup : (inp t).key.getLsbD 1 = true)
    (hdown : (inp (t + 1)).key.getLsbD 1 = false) {u : Nat} (hu : t + 4 ≤ u) :
    (trace inp u).1.disp.state ≠ .idle := by
  refine trace_not_idle hk hw (fun hidle => ?_) hu
  have h3 := trace_edge hk (show 2 ≤ t + 3 by omega)
  have hpulse : (trace inp (t + 3)).1.dispBeginWritePulse = true := by
    rw [trace_edge hk (show 2 ≤ t + 2 by omega), trace_edge hk (show 2 ≤ t + 1 by omega), trace_edge hk h2]
    show (_ || ((inp t).key.getLsbD 1 && !(inp (t + 1)).key.getLsbD 1)) = true
    rw [hup, hdown]
    exact Bool.or_true _
  rw [h3] at hidle
  have hidle : (trace inp (t + 3)).1.disp.nextState (trace inp (t + 3)).1.dispIn = .idle := hidle
  have hst : (trace inp (t + 3)).1.disp.state = .idle := by
    by_contra hst
    have := trace_not_idle hk hw hst (Nat.le_succ (t + 3))
    rw [h3] at this
    exact this hidle
  simp [OrderDispatcher.nextState, hst, dispIn, hpulse] at hidle

/-- `KEY2` has not been pressed so far, and nothing has been dispatched. -/
structure Early (s : Top) (h : History) : Prop where
  key : s.keyS0.getLsbD 2 = true ∧ s.keyS1.getLsbD 2 = true
  pulse : s.dispBeginDispatchPulse = false
  state : s.disp.state = .idle ∨ s.disp.state = .write
  orders : ∀ e, h.orders e = []

/-- A cycle keeps it, with `KEY2` still up; and with `KEY2` down the pulse does not come yet. -/
theorem Early.next {s : Top} {h : History} (he : s.Early h) (i : TopIn) (hi : busBit i.write addrControl 1 = false) :
    (i.key.getLsbD 2 = true → (s.tick i).Early (h.next s)) ∧ (s.tick i).keyS1.getLsbD 2 = true ∧
      (s.tick i).dispBeginDispatchPulse = false ∧
      ((s.tick i).disp.state = .idle ∨ (s.tick i).disp.state = .write) ∧ ∀ e, (h.next s).orders e = [] := by
  have hpulse : (s.tick i).dispBeginDispatchPulse = false := by
    show (busBit i.write addrControl 1 || (s.keyS1.getLsbD 2 && !s.keyS0.getLsbD 2)) = false
    rw [hi, he.key.1]
    simp
  have hstate : (s.tick i).disp.state = .idle ∨ (s.tick i).disp.state = .write := by
    show s.disp.nextState s.dispIn = _ ∨ s.disp.nextState s.dispIn = _
    rcases he.state with hst | hst
    · simp only [OrderDispatcher.nextState, hst]
      split
      · exact .inr rfl
      · exact .inl rfl
    · simp [OrderDispatcher.nextState, hst, dispIn, he.pulse]
  have horders : ∀ e, (h.next s).orders e = [] := by
    intro e
    have hno : (s.eng e).takesOrder (s.engineIn e) = false := by
      rcases he.state with hst | hst <;>
        simp [SymbolEngine.takesOrder, engineIn, OrderDispatcher.orderOutValid, hst]
    simp only [History.next, hno, Bool.false_eq_true, if_false]
    exact he.orders e
  exact ⟨fun hup => ⟨⟨hup, he.key.1⟩, hpulse, hstate, horders⟩, he.key.1, hpulse, hstate, horders⟩

theorem trace_early (hw : ∀ u, busBit (inp u).write addrControl 1 = false)
    (hup : ∀ u < t, (inp u).key.getLsbD 2 = true) : (trace inp t).1.Early (trace inp t).2 := by
  have hkey : (0xF#4).getLsbD 2 = true := by decide
  have hpulse : (false || ((0xF#4).getLsbD 2 && !(0xF#4).getLsbD 2)) = false := by decide
  induction t with
  | zero => exact ⟨⟨hkey, hkey⟩, hpulse, .inl rfl, fun _ => rfl⟩
  | succ t ih =>
    rw [trace_succ, next]
    cases hin : (trace inp t).1.inReset (inp t) with
    | true =>
      obtain ⟨r0, r1, hs⟩ := step_of_inReset hin
      rw [hs]
      exact ⟨⟨hkey, hkey⟩, hpulse, .inl rfl, fun _ => rfl⟩
    | false =>
      rw [step_of_not_inReset hin]
      exact ((ih fun u hu => hup u (by omega)).next _ (hw t)).1 (hup t (by omega))

/-- `KEY2`, pressed for the first time, starts the dispatch. -/
theorem trace_dispatches (hk : ∀ u, (inp u).key.getLsbD 0 = true)
    (hw : ∀ u, busBit (inp u).write addrControl 1 = false ∧ busBit (inp u).write addrControl 2 = false)
    (hup : ∀ u < t, (inp u).key.getLsbD 2 = true) (hst : (trace inp t).1.disp.state ≠ .idle)
    (hdown : (inp t).key.getLsbD 2 = false) :
    (trace inp (t + 3)).1.disp.state = .dispatch ∧ ∀ e, (trace inp (t + 3)).2.orders e = [] := by
  have hrun : ∀ u, t ≤ u → trace inp (u + 1) = ((trace inp u).1.tick (inp u), (trace inp u).2.next (trace inp u).1) :=
    fun u hu => trace_tick hk (trace_not_idle hk (fun u => (hw u).2) hst hu)
  have hwrite : ∀ u, t ≤ u → (trace inp u).1.disp.state = .idle ∨ (trace inp u).1.disp.state = .write →
      (trace inp u).1.disp.state = .write := fun u hu h =>
    h.resolve_left (trace_not_idle hk (fun u => (hw u).2) hst hu)
  -- the pulse comes two cycles later
  obtain ⟨hkey, hpulse, hstate, horders⟩ := ((trace_early (fun u => (hw u).1) hup).next (inp t) (hw t).1).2
  have h1 := hrun t (Nat.le_refl t)
  have h2 := hrun (t + 1) (by omega)
  have h3 := hrun (t + 2) (by omega)
  have hs1 := hwrite (t + 1) (by omega) (by rw [h1]; exact hstate)
  have hp1 : (trace inp (t + 1)).1.dispBeginDispatchPulse = false := by rw [h1]; exact hpulse
  have hs2 : (trace inp (t + 2)).1.disp.state = .write := by
    rw [h2]
    show OrderDispatcher.nextState _ _ = _
    simp [OrderDispatcher.nextState, hs1, dispIn, hp1]
  have hp2 : (trace inp (t + 2)).1.dispBeginDispatchPulse = true := by
    rw [h2, h1]
    show (_ || (((trace inp t).1.tick (inp t)).keyS1.getLsbD 2 && !(inp t).key.getLsbD 2)) = true
    rw [hkey, hdown]
    exact Bool.or_true _
  have hno : ∀ u, (trace inp u).1.disp.state = .write → ∀ e, ((trace inp u).2.next (trace inp u).1).orders e =
      (trace inp u).2.orders e := by
    intro u hu e
    simp [History.next, SymbolEngine.takesOrder, engineIn, OrderDispatcher.orderOutValid, hu]
  rw [h3]
  refine ⟨?_, fun e => ?_⟩
  · show OrderDispatcher.nextState _ _ = _
    simp [OrderDispatcher.nextState, hs2, dispIn, hp2]
  · rw [hno _ hs2, h2, hno _ hs1, h1]
    exact horders e

end Top

/-! ### The log -/

/-- A bound on the accesses to come. -/
def ReadEntry.work (x : ReadEntry) : Nat :=
  match x.pc with
  | .status => 1006
  | .info => 1005
  | .command => 1004
  | .poll timeoutUs => timeoutUs + 3
  | .data0 => 2
  | .data1 => 1
  | .returned _ => 0

theorem ReadEntry.work_next {x : ReadEntry} {raw : BitVec 32} (h : ∀ rc, (x.next raw).pc ≠ .returned rc) :
    (x.next raw).work < x.work := by
  obtain ⟨e, pc⟩ := x
  cases pc with
  | status | info =>
    simp only [next] at h ⊢
    split at h
    · exact absurd rfl (h _)
    · rw [if_neg (by assumption)]
      exact Nat.lt_succ_self _
  | command => exact (by decide : 1003 < 1004)
  | poll t =>
    simp only [next] at h ⊢
    split at h
    · rw [if_pos (by assumption)]
      exact (by omega : 2 < t + 3)
    · split at h
      · exact absurd rfl (h _)
      · rw [if_neg (by assumption), if_neg (by assumption)]
        exact (by omega : t - 1 + 3 < t + 3)
  | data0 => exact (by decide : 1 < 2)
  | data1 | returned => exact absurd rfl (h _)

/-- The driver is still far from giving up. -/
def ReadEntry.InTime (p : LogPort) (x : ReadEntry) : Prop :=
  match x.pc with
  | .poll timeoutUs => ∃ v n, p.Stage x.entry.index.toNat v n ∧ 1000 ≤ timeoutUs + n
  | .returned _ => False
  | _ => True

theorem ReadEntry.InTime.wait {p : LogPort} {x : ReadEntry} {i : LogPortIn} (h : x.InTime p) (hw : i.write = none) :
    x.InTime (p.step i) := by
  unfold InTime at h ⊢
  split
  · rename_i hpc
    rw [hpc] at h
    obtain ⟨v, n, hst, hle⟩ := h
    exact ⟨v, n + 1, hst.step (by rw [hw]; exact quiet_none), by omega⟩
  · rename_i hpc
    rwa [hpc] at h
  · trivial

/-- When trading is done, a read of an entry that is there does not fail. -/
theorem ReadEntry.InTime.next {p : LogPort} {x : ReadEntry} {i : LogPortIn} {env : BusEnv} (h : x.InTime p)
    (hidx : x.entry.index.toNat < p.log.countReg) (hwf : p.log.WF)
    (hdone : env.status &&& 0x00000003#32 = hftStateDone) (hw : i.write = x.write) :
    (x.next (p.readdata env x.reads)).InTime (p.step i) ∨ (x.next (p.readdata env x.reads)).pc = .returned .ok := by
  have hlt : p.log.countReg < 2 ^ 14 := Nat.lt_of_le_of_lt hwf.le (by decide)
  obtain ⟨e, pc⟩ := x
  cases pc with
  | status =>
    refine .inl ?_
    show InTime _ ⟨e, if env.status &&& 0x00000003#32 ≠ hftStateDone then _ else _⟩
    rw [if_neg (not_not.2 hdone)]
    trivial
  | info =>
    refine .inl ?_
    show InTime _ ⟨e, if logInfoCount (p.logInfo env) ≤ e.index then _ else _⟩
    rw [logInfoCount_logInfo p env hlt, if_neg]
    · trivial
    · rw [BitVec.le_def, BitVec.toNat_ofNat, Nat.mod_eq_of_lt (hlt.trans (by decide))]
      exact Nat.not_le.2 hidx
  | command =>
    have hi : i.write = some (request e.index) := hw
    have hst := @LogPort.stage_of_reads p i (by rw [hi]; exact logReads_request _)
    rw [hi, readIndex_request (hidx.trans hlt)] at hst
    exact .inl ⟨_, 0, hst, Nat.le_refl _⟩
  | poll t =>
    obtain ⟨v, n, hst, hle⟩ := h
    refine .inl ?_
    show InTime _ ⟨e, if logInfoDataValid (p.logInfo env) then _ else if t - 1 = 0 then _ else _⟩
    rw [logInfoDataValid_logInfo]
    split
    · trivial
    · -- the bit is up from the second cycle on
      rename_i hval
      have hn : ¬ 2 ≤ n := fun hn => hval (hst.valid_iff.2 hn)
      have hle : 1000 ≤ t + n := hle
      rw [if_neg (by omega)]
      have hi : i.write = none := hw
      exact ⟨v, n + 1, hst.step (by rw [hi]; exact quiet_none), by omega⟩
  | data0 => exact .inl trivial
  | data1 => exact .inr rfl
  | returned rc => exact h.elim

namespace ReadAll

variable {y : ReadAll} {raw : BitVec 32} {p : LogPort} {i : LogPortIn}

def work (y : ReadAll) : Nat ×ₗ Nat :=
  match y.pc with
  | .getInfo => toLex (2 ^ 32, 0)
  | .readEntry x => toLex (y.n.toNat - y.entries.length, x.work)
  | .returned _ => toLex (0, 0)

theorem loopHead_cases (y : ReadAll) : y.loopHead.pc = .returned .ok ∨ y.entries.length < y.n.toNat ∧
    y.loopHead = { y with pc := .readEntry (.start (BitVec.ofNat 32 y.entries.length)) } := by
  unfold loopHead
  split
  · exact .inr ⟨by assumption, rfl⟩
  · exact .inl rfl

theorem work_next (h : ∀ rc, (y.next raw).pc ≠ .returned rc) : (y.next raw).work < y.work := by
  obtain ⟨m, n, es, count, overflow, pc⟩ := y
  cases pc with
  | getInfo =>
    simp only [next] at h ⊢
    generalize (if m < logInfoCount raw then m else logInfoCount raw) = n' at h ⊢
    rcases loopHead_cases ⟨m, n', es, count, some (logInfoOverflow raw), .getInfo⟩ with hr | ⟨-, hr⟩
    · exact absurd hr (h _)
    · rw [hr]
      exact Prod.Lex.toLex_lt_toLex.2 (.inl (Nat.lt_of_le_of_lt (Nat.sub_le _ _) n'.isLt))
  | readEntry x =>
    simp only [next] at h ⊢
    split at h
    · rcases loopHead_cases ⟨m, n, es ++ [(x.next raw).entry], count, overflow, .readEntry x⟩ with hr | ⟨hlt, hr⟩
      · exact absurd hr (h _)
      · rw [hr]
        refine Prod.Lex.toLex_lt_toLex.2 (.inl ?_)
        dsimp only at hlt ⊢
        rw [List.length_append, List.length_singleton] at hlt ⊢
        omega
    · exact absurd rfl (h _)
    · rename_i hret
      exact Prod.Lex.toLex_lt_toLex.2 (.inr ⟨rfl, ReadEntry.work_next fun rc => hret rc⟩)
  | returned rc => exact absurd rfl (h rc)

/-- Its reads do not fail. -/
def InTime (p : LogPort) (y : ReadAll) : Prop :=
  match y.pc with
  | .readEntry x => x.InTime p
  | .getInfo => True
  | .returned rc => rc = .ok

theorem inTime_loopHead : InTime p y.loopHead := by
  rcases y.loopHead_cases with hr | ⟨-, hr⟩
  · rw [InTime, hr]
  · rw [hr]
    trivial

theorem InTime.wait (h : InTime p y) (hw : i.write = none) : InTime (p.step i) y := by
  obtain ⟨m, n, es, count, overflow, pc⟩ := y
  cases pc with
  | getInfo => trivial
  | readEntry x => exact ReadEntry.InTime.wait h hw
  | returned rc => exact h

theorem InTime.next (h : InTime p y) (hg : y.Good (Caller.standing p) p) (hwf : p.log.WF) {env : BusEnv}
    (hdone : env.status &&& 0x00000003#32 = hftStateDone) (hw : i.write = y.write) :
    InTime (p.step i) (y.next (p.readdata env y.reads)) := by
  obtain ⟨m, n, es, count, overflow, pc⟩ := y
  cases pc with
  | getInfo => exact inTime_loopHead
  | readEntry x =>
    have hidx : x.entry.index.toNat < p.log.countReg := by
      obtain ⟨-, hidx, hlt⟩ := hg.current x rfl
      obtain ⟨c, hc, hn⟩ := hg.info (by simp)
      have hc : c ≤ p.log.countReg := hc
      have := Nat.mod_le es.length (2 ^ 32)
      rw [hidx, BitVec.toNat_ofNat]
      omega
    have hx := ReadEntry.InTime.next h hidx hwf hdone hw
    show InTime _ (ReadAll.next _ (p.readdata env x.reads))
    generalize p.readdata env x.reads = raw at hx
    simp only [ReadAll.next]
    split
    · exact inTime_loopHead
    · rename_i rc hok hrc
      rcases hx with hx | hx
      · rw [ReadEntry.InTime, hrc] at hx
        exact hx.elim
      · exact absurd (ReadPc.returned.inj (hrc.symm.trans hx)) hok
    · rename_i hok
      rcases hx with hx | hx
      · exact hx
      · exact (hok _ hx).elim
  | returned rc => exact h

end ReadAll

/-! ### The loading -/

theorem Load.Loading.potential_lt {clock : Nat → UInt64} {os : Fin 8 → List HftDispOrder} {q : Load} {j : LoadIn}
    {dl : Option UInt64} (h : Loading os q) (hc : Harness.Counted clock os dl q.sw) (he : Ends clock os dl)
    (hres : q.resets j = false) (hb : q.board.1.dispBeginDispatchPulse = false) (hgo : j.go = true)
    (hrun : q.sw.Running) (hrun' : (Load.next clock q j).sw.Running) :
    (Load.next clock q j).sw.potential os < q.sw.potential os := by
  have h' := h.next hres hb fun rc hrc => absurd hrc (hrun' rc)
  have hsw : (Load.next clock q j).sw = q.sw.step clock (hftDispGetStatus q.board.1.disp.statusWord) := by
    rw [next_sw, if_pos hgo, status_tick hres]
  have hdoes := h.sw.does clock h.write h.room
  rw [← hsw] at hdoes
  exact hdoes.potential_lt hrun hrun' h.room (fun n => by have := h.lengths n; omega)
    (Finset.sum_le_sum fun n _ => h'.lane_le n) (h.moves hc he)

/-! ### One access -/

/-- The deadline of `hft_log_wait_trade_done`. -/
def MainPc.deadline : MainPc → Option UInt64
  | .waitStatus w | .waitInfo w | .snapStatus w _ | .snapInfo w _ => some w.deadline
  | _ => none

namespace Main

variable {clock : Nat → UInt64} {env : MainEnv} {m : Main} {raw : BitVec 32} {js : Nat → MainIn} {w : WaitDone}
  {li : HftLogInfo}

/-- `main` has stopped for Ctrl+C only, its deadline is ten minutes after a reading of the clock, and its end is due
to something. -/
structure Sure (clock : Nat → UInt64) (env : MainEnv) (js : Nat → MainIn) (m : Main) : Prop where
  stopped : m.gStop = true → ∃ t, (js t).sigint = true
  timed : ∀ d, m.pc.deadline = some d → ∃ k < m.calls, d = clock k + 600000
  due : ∀ e, m.pc = .exited e → e.Due clock env js

section Sure

variable {m' : Main} (h : m.Sure clock env js) (hg : m'.gStop = m.gStop)
include h hg

theorem Sure.goes (hd : m'.pc.deadline = none) (he : ∀ e, m'.pc ≠ .exited e) : m'.Sure clock env js where
  stopped hs := h.stopped (hg ▸ hs)
  timed d hd' := by rw [hd] at hd'; cases hd'
  due e hpc := absurd hpc (he e)

theorem Sure.ends {e : Exit} (hpc : m'.pc = .exited e) (hdue : e.Due clock env js) : m'.Sure clock env js where
  stopped hs := h.stopped (hg ▸ hs)
  timed d hd := by rw [hpc] at hd; cases hd
  due e' he' := by rw [hpc] at he'; cases he'; exact hdue

theorem Sure.waits {d : UInt64} (hd : m'.pc.deadline = some d) (hk : ∃ k < m'.calls, d = clock k + 600000)
    (he : ∀ e, m'.pc ≠ .exited e) : m'.Sure clock env js where
  stopped hs := h.stopped (hg ▸ hs)
  timed d' hd' := by rw [hd] at hd'; cases hd'; exact hk
  due e hpc := absurd hpc (he e)

end Sure

theorem start_cases (env : MainEnv) : (start env).pc = .logClear ∨ ∃ e, (start env).pc = .exited e := by
  unfold start
  split
  · exact .inr ⟨_, rfl⟩
  · split
    · exact .inr ⟨_, rfl⟩
    · exact .inl rfl

theorem sure_start : (Main.start env).Sure clock env js := by
  have hpc : ∀ {p : MainPc}, p.deadline = none → (∀ e, p = .exited e → e.Due clock env js) →
      Sure clock env js ⟨p, 0, false⟩ :=
    fun hd hdue => ⟨fun hs => Bool.noConfusion hs, fun d hd' => (by rw [hd] at hd'; cases hd'), hdue⟩
  unfold Main.start
  split
  · rename_i hdev
    exact hpc rfl fun e he => MainPc.exited.inj he ▸ (show env.device = false by simpa using hdev)
  · split
    · rename_i hcsv
      simp only [not_forall, Bool.not_eq_true, Option.isSome_eq_false_iff, Option.isNone_iff_eq_none] at hcsv
      exact hpc rfl fun e he => MainPc.exited.inj he ▸ hcsv
    · exact hpc rfl fun e he => by cases he

/-- After a call of `now_ms`. -/
theorem Sure.call (h : m.Sure clock env js) : Sure clock env js { m with calls := m.calls + 1 } where
  stopped := h.stopped
  timed d hd := by
    obtain ⟨k, hk, heq⟩ := h.timed d hd
    exact ⟨k, Nat.lt_succ_of_lt hk, heq⟩
  due := h.due

theorem Sure.loopHead (h : m.Sure clock env js) : m.loopHead.Sure clock env js := by
  unfold Main.loopHead
  split
  · exact h.ends rfl rfl (h.stopped (by assumption))
  · exact h.goes rfl rfl (fun e he => by cases he)

theorem Sure.waitHead (h : m.Sure clock env js) (hw : ∃ k < m.calls, w.deadline = clock k + 600000) :
    (m.waitHead w).Sure clock env js := by
  unfold Main.waitHead
  split
  · exact h.ends rfl rfl (h.stopped (by assumption))
  · exact h.waits rfl rfl hw (fun e he => by cases he)

theorem Sure.finish (h : m.Sure clock env js) : (m.finish env li).Sure clock env js := by
  unfold Main.finish
  generalize (if 8704 < li.count then 8704 else li.count) = n
  dsimp only
  split
  · exact h.ends rfl rfl trivial
  · split
    · rename_i hmem
      exact h.ends rfl rfl (show env.memory = false by simpa using hmem)
    · exact h.goes rfl rfl (fun e he => by cases he)

theorem Sure.settle (h : m.Sure clock env js) (hw : ∃ k < m.calls, w.deadline = clock k + 600000) :
    (m.settle clock env w li).Sure clock env js := by
  obtain ⟨k, hk, hd⟩ := hw
  unfold Main.settle
  split
  · exact h.finish
  · split
    · rename_i hle
      rw [hd] at hle
      exact h.ends rfl rfl ⟨k, m.calls, hk, hle⟩
    · exact h.call.waitHead ⟨k, Nat.lt_succ_of_lt hk, hd⟩

/-- `hft_write_orders_round_robin` has not returned but for the reasons given. -/
theorem Sure.loading {x : Harness} (h : m.Sure clock env js)
    (hret : ∀ rc, x.pc = .returned rc → rc = .ok ∨ rc = .econnreset ∨ (Exit.writeFailed rc).Due clock env js) :
    (m.loading x).Sure clock env js := by
  unfold Main.loading
  split
  · exact h.goes rfl rfl (fun e he => by cases he)
  · refine Sure.loopHead ⟨h.stopped, fun d hd => ?_, h.due⟩
    obtain ⟨k, hk, heq⟩ := h.timed d hd
    exact ⟨k, Nat.lt_of_lt_of_le hk (Nat.le_add_right _ _), heq⟩
  · rename_i rc hok hreset hpc
    exact h.ends rfl rfl (((hret rc hpc).resolve_left hok).resolve_left hreset)
  · exact h.goes rfl rfl (fun e he => by cases he)

theorem Sure.reading {y : ReadAll} (h : m.Sure clock env js) (hret : ∀ rc, y.pc = .returned rc → rc = .ok) :
    (m.reading env y).Sure clock env js := by
  unfold Main.reading
  split
  · split
    · exact h.ends rfl rfl trivial
    · rename_i htrades
      exact h.ends rfl rfl (Bool.eq_false_iff.2 htrades)
  · rename_i rc hok hpc
    exact absurd (hret rc hpc) hok
  · exact h.goes rfl rfl (fun e he => by cases he)

theorem Sure.step (h : m.Sure clock env js)
    (hload : ∀ x rc, m.pc = .load x → (x.step (m.loadClock clock) (hftDispGetStatus raw)).pc = .returned rc →
      rc = .ok ∨ rc = .econnreset ∨ (Exit.writeFailed rc).Due clock env js)
    (hread : ∀ y rc, m.pc = .readAll y → (y.next raw).pc = .returned rc → rc = .ok) :
    (m.step clock env raw).Sure clock env js := by
  unfold Main.step
  cases hpc : m.pc with
  | logClear | before => exact h.goes rfl rfl (fun e he => by cases he)
  | waitWrite =>
    dsimp only
    split
    · exact h.loading fun rc hrc => absurd hrc (Load.start_running _ _ _ rc)
    · exact h
  | load x => exact h.loading fun rc => hload x rc hpc
  | waitDispatch =>
    dsimp only
    split
    · exact h.goes rfl rfl (fun e he => by cases he)
    · split
      · exact h.loopHead
      · exact h
  | after => exact h.call.waitHead ⟨m.calls, Nat.lt_succ_self _, rfl⟩
  | waitStatus w =>
    have hw := h.timed w.deadline (by rw [hpc]; rfl)
    dsimp only
    split
    · exact h.loopHead
    · exact h.waits rfl rfl hw (fun e he => by cases he)
  | waitInfo w =>
    obtain ⟨k, hk, hd⟩ := h.timed w.deadline (by rw [hpc]; rfl)
    have hw : ∃ k < m.calls + 1, w.deadline = clock k + 600000 := ⟨k, Nat.lt_succ_of_lt hk, hd⟩
    dsimp only
    split
    · split
      · exact h.waits rfl rfl hw (fun e he => by cases he)
      · exact h.call.settle hw
    · exact h.call.settle hw
  | snapStatus w li => exact h.waits rfl rfl (h.timed w.deadline (by rw [hpc]; rfl)) (fun e he => by cases he)
  | snapInfo w li => exact h.settle (h.timed w.deadline (by rw [hpc]; rfl))
  | readAll y => exact h.reading fun rc => hread y rc hpc
  | exited e => exact h

theorem waitHead_cases (m : Main) (w : WaitDone) :
    (∃ e, (m.waitHead w).pc = .exited e) ∨ (m.waitHead w).pc = .waitStatus w := by
  unfold waitHead
  dsimp only
  split
  · exact .inl ⟨_, rfl⟩
  · exact .inr rfl

theorem settle_cases (clock : Nat → UInt64) (env : MainEnv) (m : Main) (w : WaitDone) (li : HftLogInfo) :
    (∃ e, (m.settle clock env w li).pc = .exited e) ∨
    li.tradeDone = true ∧ (∃ n, (m.settle clock env w li).pc = .readAll (.start n)) ∨
    li.tradeDone = false ∧ (m.settle clock env w li).pc = .waitStatus w := by
  unfold settle
  cases li.tradeDone with
  | true =>
    rw [if_pos rfl]
    unfold finish
    generalize (if 8704 < li.count then 8704 else li.count) = n
    dsimp only
    split
    · exact .inl ⟨_, rfl⟩
    · split
      · exact .inl ⟨_, rfl⟩
      · exact .inr (.inl ⟨rfl, n, rfl⟩)
  | false =>
    rw [if_neg Bool.false_ne_true]
    split
    · exact .inl ⟨_, rfl⟩
    · exact (waitHead_cases _ w).imp id fun h => .inr ⟨rfl, h⟩

theorem loading_cases (m : Main) (x : Harness) : (m.loading x).pc = .before ∨ (∃ e, (m.loading x).pc = .exited e) ∨
    (m.loading x).pc = .logClear ∨ (m.loading x).pc = .load x ∧ x.Running := by
  unfold loading
  split
  · exact .inl rfl
  · unfold loopHead
    dsimp only
    split
    · exact .inr (.inl ⟨_, rfl⟩)
    · exact .inr (.inr (.inl rfl))
  · exact .inr (.inl ⟨_, rfl⟩)
  · rename_i hrun
    exact .inr (.inr (.inr ⟨rfl, hrun⟩))

theorem loading_step (hl : ¬ m.pc.Loaded) : (m.step clock env raw).pc = .before ∨
    (∃ e, (m.step clock env raw).pc = .exited e) ∨ ¬ (m.step clock env raw).pc.Loaded := by
  have hload : ∀ x, (m.loading x).pc = .before ∨ (∃ e, (m.loading x).pc = .exited e) ∨ ¬ (m.loading x).pc.Loaded := by
    intro x
    refine (loading_cases m x).imp id (Or.imp id fun h => ?_)
    rcases h with h | ⟨h, -⟩ <;> rw [h] <;> exact id
  unfold step
  cases hpc : m.pc with
  | logClear => exact .inr (.inr id)
  | waitWrite =>
    dsimp only
    split
    · exact hload _
    · rw [hpc]; exact .inr (.inr id)
  | load x => exact hload _
  | _ => rw [hpc] at hl; exact absurd trivial hl

/-- Without a reset there is no way back. -/
theorem loaded_step (hl : m.pc.Loaded) (hidle : (hftDispGetStatus raw).state ≠ hftStateIdle ∨ m.reads ≠ addrStatus) :
    (m.step clock env raw).pc.Loaded := by
  have hhead : ∀ (m : Main) w, (m.waitHead w).pc.Loaded := by
    intro m w
    rcases waitHead_cases m w with ⟨e, h⟩ | h <;> rw [h] <;> trivial
  have hsettle : ∀ (m : Main) w li, (m.settle clock env w li).pc.Loaded := by
    intro m w li
    rcases settle_cases clock env m w li with ⟨e, h⟩ | ⟨-, n, h⟩ | ⟨-, h⟩ <;> rw [h] <;> trivial
  unfold step
  cases hpc : m.pc with
  | logClear | waitWrite | load => rw [hpc] at hl; exact hl.elim
  | before => trivial
  | waitDispatch =>
    rw [reads, hpc] at hidle
    dsimp only
    rw [if_neg (hidle.resolve_right (not_not.2 rfl))]
    split
    · trivial
    · rw [hpc]; trivial
  | after => exact hhead _ _
  | waitStatus w =>
    rw [reads, hpc] at hidle
    dsimp only
    rw [if_neg (hidle.resolve_right (not_not.2 rfl))]
    trivial
  | waitInfo w =>
    dsimp only
    split
    · split
      · trivial
      · exact hsettle _ _ _
    · exact hsettle _ _ _
  | snapStatus w li => trivial
  | snapInfo w li => exact hsettle _ _ _
  | readAll y =>
    dsimp only
    unfold reading
    split
    · trivial
    · trivial
    · trivial
  | exited e => rw [hpc]; trivial

end Main

/-- A bound on the accesses to come until the orders have been loaded. -/
def MainPc.loadWork (os : Fin 8 → List HftDispOrder) : MainPc → Nat ×ₗ Nat
  | .logClear => toLex (2, 0)
  | .waitWrite => toLex (1, 0)
  | .load x => toLex (0, x.potential os)
  | _ => toLex (0, 0)

/-- A bound on the accesses to come when trading is done. -/
def MainPc.work : MainPc → Nat ×ₗ Nat
  | .before => toLex (2 ^ 32 + 9, 0)
  | .waitDispatch => toLex (2 ^ 32 + 8, 0)
  | .after => toLex (2 ^ 32 + 7, 0)
  | .snapStatus _ li => toLex (2 ^ 32 + if li.tradeDone then 2 else 6, 0)
  | .snapInfo _ li => toLex (2 ^ 32 + if li.tradeDone then 1 else 5, 0)
  | .waitStatus _ => toLex (2 ^ 32 + 4, 0)
  | .waitInfo _ => toLex (2 ^ 32 + 3, 0)
  | .readAll y => y.work
  | _ => toLex (0, 0)

namespace Main

variable {clock : Nat → UInt64} {env : MainEnv} {m : Main} {raw : BitVec 32} {w : WaitDone} {li : HftLogInfo}

/-- `main` has come nearer to its end than `a`. -/
def Nearer (a : Nat ×ₗ Nat) (m : Main) : Prop := (∃ e, m.pc = .exited e) ∨ m.pc.work < a

theorem lt_of_first {a b : Nat} (h : a < b) : (toLex (a, 0) : Nat ×ₗ Nat) < toLex (b, 0) :=
  Prod.Lex.toLex_lt_toLex.2 (.inl h)

theorem nearer_waitHead {b : Nat} (hb : 2 ^ 32 + 4 < b) : Nearer (toLex (b, 0)) (m.waitHead w) := by
  rcases waitHead_cases m w with hpc | hpc
  · exact .inl hpc
  · rw [Nearer, hpc]
    exact .inr (lt_of_first hb)

theorem nearer_settle {b : Nat} (hb : 2 ^ 32 + (if li.tradeDone then 0 else 4) < b) :
    Nearer (toLex (b, 0)) (m.settle clock env w li) := by
  rcases settle_cases clock env m w li with hpc | ⟨hdone, n, hpc⟩ | ⟨hdone, hpc⟩
  · exact .inl hpc
  · rw [hdone] at hb
    rw [Nearer, hpc]
    exact .inr (lt_of_first hb)
  · rw [hdone] at hb
    rw [Nearer, hpc]
    exact .inr (lt_of_first hb)

/-- When trading is done, each access brings `main` nearer to its end. -/
theorem step_nearer (hl : m.pc.Loaded) (hrun : ∀ e, m.pc ≠ .exited e)
    (hstatus : m.reads = addrStatus → (hftDispGetStatus raw).state = hftStateDone)
    (hinfo : m.reads = addrLogInfo → (hftLogGetInfo raw).tradeDone = true) :
    Nearer m.pc.work (m.step clock env raw) := by
  unfold step
  cases hpc : m.pc with
  | logClear | waitWrite | load => rw [hpc] at hl; exact hl.elim
  | before => exact .inr (lt_of_first (by decide))
  | waitDispatch =>
    have hst := hstatus (by rw [reads, hpc])
    dsimp only
    rw [hst, if_pos (.inr rfl)]
    exact .inr (lt_of_first (by decide))
  | after => exact nearer_waitHead (by decide)
  | waitStatus w =>
    have hst := hstatus (by rw [reads, hpc])
    dsimp only
    rw [hst, if_neg (by decide)]
    exact .inr (lt_of_first (by decide))
  | waitInfo w =>
    have hli := hinfo (by rw [reads, hpc])
    dsimp only
    have hb : 2 ^ 32 + (if (hftLogGetInfo raw).tradeDone then 0 else 4) < 2 ^ 32 + 3 := by
      rw [hli]
      decide
    split
    · split
      · refine .inr ?_
        simp only [MainPc.work, hli, if_true]
        exact lt_of_first (by decide)
      · exact nearer_settle hb
    · exact nearer_settle hb
  | snapStatus w li =>
    refine .inr ?_
    simp only [MainPc.work]
    exact lt_of_first (by cases li.tradeDone <;> decide)
  | snapInfo w li => exact nearer_settle (by cases li.tradeDone <;> decide)
  | readAll y =>
    dsimp only
    unfold reading
    split
    · exact .inl ⟨_, rfl⟩
    · exact .inl ⟨_, rfl⟩
    · rename_i hok hret
      exact .inr (ReadAll.work_next fun rc hrc => hret rc hrc)
  | exited e => exact absurd hpc (hrun e)

end Main

/-! ### One cycle -/

namespace Main

variable {clock : Nat → UInt64} {env : MainEnv} {m : Main} {raw : BitVec 32}

/-- `hft_log_read_all` is called, or goes on. -/
theorem readAll_step {y : ReadAll} (h : (m.step clock env raw).pc = .readAll y) :
    (∃ n, y = .start n) ∨ ∃ y', m.pc = .readAll y' ∧ y = y'.next raw := by
  have hloop : ∀ m : Main, m.loopHead.pc ≠ .readAll y := by
    intro m
    unfold loopHead
    dsimp only
    split <;> exact fun h => by cases h
  have hload : ∀ (m : Main) x, (m.loading x).pc ≠ .readAll y := by
    intro m x hx
    rcases loading_cases m x with h | ⟨e, h⟩ | h | ⟨h, -⟩ <;> rw [h] at hx <;> cases hx
  have hsettle : ∀ (m : Main) w li, (m.settle clock env w li).pc = .readAll y → ∃ n, y = .start n := by
    intro m w li h
    rcases settle_cases clock env m w li with ⟨e, hpc⟩ | ⟨-, n, hpc⟩ | ⟨-, hpc⟩ <;> rw [hpc] at h
    · cases h
    · exact ⟨n, (MainPc.readAll.inj h).symm⟩
    · cases h
  unfold step at h
  cases hpc : m.pc with
  | logClear | before | snapStatus => rw [hpc] at h; cases h
  | waitWrite =>
    rw [hpc] at h
    dsimp only at h
    split at h
    · exact absurd h (hload _ _)
    · rw [hpc] at h; cases h
  | load x =>
    rw [hpc] at h
    exact absurd h (hload _ _)
  | waitDispatch =>
    rw [hpc] at h
    dsimp only at h
    split at h
    · cases h
    · split at h
      · exact absurd h (hloop _)
      · rw [hpc] at h; cases h
  | after =>
    rw [hpc] at h
    rcases waitHead_cases { m with calls := m.calls + 1 } ⟨clock m.calls + 600000, 0⟩ with ⟨e, hpc⟩ | hpc <;>
      exact absurd (hpc.symm.trans h) (by simp)
  | waitStatus w =>
    rw [hpc] at h
    dsimp only at h
    split at h
    · exact absurd h (hloop _)
    · cases h
  | waitInfo w =>
    rw [hpc] at h
    dsimp only at h
    split at h
    · split at h
      · cases h
      · exact .inl (hsettle _ _ _ h)
    · exact .inl (hsettle _ _ _ h)
  | snapInfo w li =>
    rw [hpc] at h
    exact .inl (hsettle _ _ _ h)
  | readAll y' =>
    rw [hpc] at h
    dsimp only at h
    unfold reading at h
    split at h
    · cases h
    · cases h
    · exact .inr ⟨y', rfl, (MainPc.readAll.inj h).symm⟩
  | exited e =>
    rw [hpc] at h
    dsimp only at h
    rw [hpc] at h
    cases h

end Main

theorem Reading.good {y : ReadAll} {b : Top × History} (h : Reading y b) :
    y.Good (Caller.standing ⟨b.1.avl, b.1.log⟩) ⟨b.1.avl, b.1.log⟩ := by
  obtain ⟨p, n, cs, hwf, -, hrun, hvis⟩ := h
  have hgood := hftLogReadAll_follows.run_standing (s := (p, .start n)) (fun _ => ReadAll.good_start _) hwf cs
    fun r hr => (hvis r hr).1
  rwa [hrun] at hgood

namespace Session

variable {clock : Nat → UInt64} {env : MainEnv} {js : Nat → MainIn} {q : Session} {j : MainIn} {is : List TopIn}

/-- The orders in the files. -/
def orders (env : MainEnv) : Fin 8 → List HftDispOrder := Load.fileOrders (Main.files env)

/-- Each file has orders enough to fill its FIFO, or none has. -/
def EvenFiles (env : MainEnv) : Prop := (∀ n, fifoSz ≤ (orders env n).length) ∨ ∀ n, (orders env n).length < fifoSz

/-- What keeps `main` from a bad end. -/
structure Sure (clock : Nat → UInt64) (env : MainEnv) (js : Nat → MainIn) (q : Session) : Prop where
  main : q.sw.Sure clock env js
  load : ∀ x, q.sw.pc = .load x →
    x.Counted (q.sw.loadClock clock) (orders env) (Load.deadlineOf (q.sw.loadClock clock) 30000)
  read : ∀ y, q.sw.pc = .readAll y → y.InTime ⟨q.board.1.avl, q.board.1.log⟩

theorem Sure.read_next {y : ReadAll} (hs : q.Sure clock env js) (hd : Driven is q.board)
    (hst : Stage env is q.board q.sw.pc) (hkey : j.key.getLsbD 0 = true) (hpc : q.sw.pc = .readAll y) :
    (if j.go then y.next (q.board.1.readdata (q.topIn j) y.reads) else y).InTime
      ⟨(q.next clock env j).board.1.avl, (q.next clock env j).board.1.log⟩ := by
  rw [hpc] at hst
  obtain ⟨hset, hdone, hread⟩ := hst
  have hres := hd.not_reset (i := q.topIn j) hset.state hkey
  have hw : (q.topIn j).write = if j.go then y.write else none := by simp only [write_topIn, Main.write, hpc]
  rw [next_board, Top.next_of_not_inReset hres, LogPort.tick_eq_step]
  cases hgo : j.go with
  | false =>
    rw [hgo, if_neg Bool.false_ne_true] at hw
    exact (hs.read y hpc).wait hw
  | true =>
    rw [hgo, if_pos rfl] at hw
    have hdata : q.board.1.readdata (q.topIn j) y.reads =
        LogPort.readdata ⟨q.board.1.avl, q.board.1.log⟩ (q.board.1.busCycle true).env y.reads := by
      rw [Top.readdata, hres]
      rfl
    have hstatus : (q.board.1.busCycle true).env.status &&& 0x00000003#32 = hftStateDone := by
      show (hftDispGetStatus q.board.1.disp.statusWord).state = _
      rw [status_state, (Top.tradeDone_iff.1 hdone).1]
      decide
    rw [if_pos rfl, hdata]
    exact (hs.read y hpc).next hread.good hd.ctrl.log.wf hstatus hw

/-- While `KEY2` is up, the loading goes on in `WRITE`. -/
theorem loading_of_early {x : Harness} (hst : Stage env is q.board q.sw.pc) (he : q.board.1.Early q.board.2)
    (hpc : q.sw.pc = .load x) : x.Running ∧ Load.Loading (orders env) ⟨q.board, x⟩ := by
  rw [hpc] at hst
  obtain ⟨hg, hrun, hu⟩ := hst
  have hw : q.board.1.disp.state = .write := he.state.resolve_left hg.state
  refine ⟨hrun, ?_⟩
  rcases hu with hu | hu | hu
  · exact hu.toLoading
  · rcases hu.state with h | h <;> rw [show q.board.1.disp.state = _ from h] at hw <;> cases hw
  · exact absurd hw hu.not_write

/-- The loading as it ends, if it does. -/
theorem Sure.load_next {x : Harness} (hs : q.Sure clock env js) (hd : Driven is q.board)
    (hst : Stage env is q.board q.sw.pc) (hkey : j.key.getLsbD 0 = true) (he : q.board.1.Early q.board.2)
    (hpc : q.sw.pc = .load x) :
    Load.Ended (q.sw.loadClock clock) (orders env) (Load.deadlineOf (q.sw.loadClock clock) 30000)
        (Load.next (q.sw.loadClock clock) ⟨q.board, x⟩ ⟨j.key, j.go⟩) ∧
      ((Load.next (q.sw.loadClock clock) ⟨q.board, x⟩ ⟨j.key, j.go⟩).sw.Running →
        (Load.next (q.sw.loadClock clock) ⟨q.board, x⟩ ⟨j.key, j.go⟩).sw.Counted (q.sw.loadClock clock) (orders env)
          (Load.deadlineOf (q.sw.loadClock clock) 30000)) := by
  obtain ⟨hrun, hl⟩ := loading_of_early hst he hpc
  have hc := hs.load x hpc
  have hin : q.topIn j = Load.topIn ⟨q.board, x⟩ ⟨j.key, j.go⟩ := by
    simp only [topIn, Main.write, hpc, Load.topIn]
  have hres : Load.resets ⟨q.board, x⟩ ⟨j.key, j.go⟩ = false := by
    rw [Load.resets, ← hin]
    rw [hpc] at hst
    exact hd.not_reset hst.1.state hkey
  exact ⟨hl.ended hc hrun hres he.pulse, fun hrun' => hl.counted hc hres fun rc hrc => absurd hrc (hrun' rc)⟩

/-- Between the loading and the end, the FIFOs have their orders. -/
theorem settled_of_loaded (hst : Stage env is q.board q.sw.pc) (hl : q.sw.pc.Loaded) (hrun : ∀ e, q.sw.pc ≠ .exited e) :
    Settled env q.board := by
  cases hpc : q.sw.pc with
  | logClear | waitWrite | load => rw [hpc] at hl; exact hl.elim
  | exited e => exact absurd hpc (hrun e)
  | before | waitDispatch | after | waitStatus | waitInfo => rw [hpc] at hst; exact hst
  | snapStatus | snapInfo | readAll => rw [hpc] at hst; exact hst.1

theorem loaded_next (hd : (∀ e, q.sw.pc ≠ .exited e) → Driven is q.board) (hst : Stage env is q.board q.sw.pc)
    (hkey : j.key.getLsbD 0 = true) (hl : q.sw.pc.Loaded) : (q.next clock env j).sw.pc.Loaded := by
  by_cases hrun : ∀ e, q.sw.pc ≠ .exited e
  · have hset := settled_of_loaded hst hl hrun
    have hres := (hd hrun).not_reset (i := q.topIn j) hset.state hkey
    rw [next_sw]
    split
    · refine Main.loaded_step hl ?_
      by_cases hreads : q.sw.reads = addrStatus
      · rw [hreads, readdata_status, Top.dispSeen, hres]
        exact .inl fun h => hset.state (status_idle_iff.1 h)
      · exact .inr hreads
    · exact hl
  · simp only [ne_eq, not_forall, not_not] at hrun
    obtain ⟨e, hpc⟩ := hrun
    rw [next_exited hpc]
    trivial

theorem Sure.main_next (hs : q.Sure clock env js) (hd : (∀ e, q.sw.pc ≠ .exited e) → Driven is q.board)
    (hst : Stage env is q.board q.sw.pc) (hkey : j.key.getLsbD 0 = true)
    (hsig : j.sigint = true → ∃ t, (js t).sigint = true) (he : ¬ q.sw.pc.Loaded → q.board.1.Early q.board.2) :
    (q.next clock env j).sw.Sure clock env js := by
  have hm : (q.handled j).Sure clock env js := by
    refine ⟨fun h => ?_, hs.main.timed, hs.main.due⟩
    rcases Bool.or_eq_true_iff.1 h with h | h
    · exact hs.main.stopped h
    · exact hsig h
  have hrun : ∀ {p}, q.sw.pc = p → (∀ e, p ≠ .exited e) → Driven is q.board := fun hpc hp => hd (hpc ▸ hp)
  rw [next_sw]
  cases hgo : j.go with
  | false => exact hm
  | true =>
    refine hm.step (fun x rc hpc hret => ?_) fun y rc hpc hret => ?_
    · have hpc : q.sw.pc = .load x := hpc
      have hend := (hs.load_next (hrun hpc (by simp)) hst hkey (he (by rw [hpc]; exact id)) hpc).1
      have hreads : q.sw.reads = addrStatus := by simp [Main.reads, hpc]
      have hin : q.topIn j = Load.topIn ⟨q.board, x⟩ ⟨j.key, j.go⟩ := by
        simp only [topIn, Main.write, hpc, Load.topIn]
      have hsw : (Load.next (q.sw.loadClock clock) ⟨q.board, x⟩ ⟨j.key, j.go⟩).sw.pc = .returned rc := by
        rw [← hret, hreads, readdata_status, hin, Load.next_sw, hgo]
        rfl
      rcases hend rc hsw with ⟨rfl, -⟩ | ⟨rfl, d, hd, k, -, hle⟩
      · exact .inl rfl
      · refine .inr (.inr ⟨rfl, q.sw.calls + 0, q.sw.calls + (2 * k + 2), by omega, ?_⟩)
        rw [← Option.some.inj hd] at hle
        exact hle
    · have hpc : q.sw.pc = .readAll y := hpc
      have hnext := hs.read_next (hrun hpc (by simp)) hst hkey hpc
      have hreads : q.sw.reads = y.reads := by simp [Main.reads, hpc]
      rw [hreads] at hret
      rw [hgo, if_pos rfl, ReadAll.InTime, hret] at hnext
      exact hnext

theorem Sure.counted_next {x : Harness} (hs : q.Sure clock env js) (hd : (∀ e, q.sw.pc ≠ .exited e) → Driven is q.board)
    (hst : Stage env is q.board q.sw.pc) (hkey : j.key.getLsbD 0 = true)
    (he : ¬ q.sw.pc.Loaded → q.board.1.Early q.board.2)
    (hrows : ∀ n, RowsOk (Stdio.lines 256 (Main.files env n))) (hx : (q.next clock env j).sw.pc = .load x) :
    x.Counted ((q.next clock env j).sw.loadClock clock) (orders env)
      (Load.deadlineOf ((q.next clock env j).sw.loadClock clock) 30000) := by
  by_cases hl : q.sw.pc.Loaded
  · have hl' : (q.next clock env j).sw.pc.Loaded := loaded_next hd hst hkey hl
    rw [hx] at hl'
    exact hl'.elim
  have hsw : (q.next clock env j).sw = _ := next_sw
  have hm : (q.handled j).pc = q.sw.pc := rfl
  cases hpc : q.sw.pc with
  | logClear =>
    rw [hsw, Main.step, hm, hpc] at hx
    split at hx
    · cases hx
    · rw [hm, hpc] at hx; cases hx
  | waitWrite =>
    rw [Main.step, hm, hpc] at hsw
    dsimp only at hsw
    split at hsw
    · split at hsw
      · rw [loading_running (Load.start_running _ _ _)] at hsw
        rw [hsw] at hx ⊢
        obtain rfl := MainPc.load.inj hx
        exact Load.start_counted _ _ hrows
      · rw [hsw, hm, hpc] at hx; cases hx
    · rw [hsw, hm, hpc] at hx; cases hx
  | load x' =>
    have hnext := (hs.load_next (j := j) (hd (by rw [hpc]; simp)) hst hkey (he hl) hpc).2
    have hsw := (next_load clock env j hpc (loading_of_early hst (he hl) hpc).1).2
    by_cases hrun : (Load.next (q.sw.loadClock clock) ⟨q.board, x'⟩ ⟨j.key, j.go⟩).sw.Running
    · rw [loading_running hrun] at hsw
      rw [hsw] at hx ⊢
      obtain rfl := MainPc.load.inj hx
      exact hnext hrun
    · simp only [Harness.Running, ne_eq, not_forall, not_not] at hrun
      obtain ⟨rc, hrc⟩ := hrun
      rw [hsw] at hx
      rcases Main.loading_cases (q.handled j) (Load.next (q.sw.loadClock clock) ⟨q.board, x'⟩ ⟨j.key, j.go⟩).sw with
        h | ⟨e, h⟩ | h | ⟨-, h⟩
      · rw [h] at hx; cases hx
      · rw [h] at hx; cases hx
      · rw [h] at hx; cases hx
      · exact absurd hrc (h rc)
  | _ => rw [hpc] at hl; exact absurd trivial hl

/-- One cycle. -/
theorem Sure.next (hs : q.Sure clock env js) (hd : (∀ e, q.sw.pc ≠ .exited e) → Driven is q.board)
    (hst : Stage env is q.board q.sw.pc) (hkey : j.key.getLsbD 0 = true)
    (hsig : j.sigint = true → ∃ t, (js t).sigint = true) (he : ¬ q.sw.pc.Loaded → q.board.1.Early q.board.2)
    (hrows : ∀ n, RowsOk (Stdio.lines 256 (Main.files env n))) : (q.next clock env j).Sure clock env js := by
  refine ⟨hs.main_next hd hst hkey hsig he, fun x hx => hs.counted_next hd hst hkey he hrows hx, fun y hy => ?_⟩
  have hstart : ∀ n, (ReadAll.start n).InTime ⟨(q.next clock env j).board.1.avl, (q.next clock env j).board.1.log⟩ :=
    fun n => trivial
  cases hgo : j.go with
  | false =>
    have hpc : q.sw.pc = .readAll y := by rwa [next_sw, hgo] at hy
    have := hs.read_next (hd (by rw [hpc]; simp)) hst hkey hpc
    rwa [hgo, if_neg Bool.false_ne_true] at this
  | true =>
    rw [next_sw, hgo, if_pos rfl] at hy
    rcases Main.readAll_step hy with ⟨n, rfl⟩ | ⟨y', hpc, rfl⟩
    · exact hstart n
    · have hpc : q.sw.pc = .readAll y' := hpc
      have := hs.read_next (hd (by rw [hpc]; simp)) hst hkey hpc
      have hreads : q.sw.reads = y'.reads := by simp [Main.reads, hpc]
      rwa [hgo, if_pos rfl, ← hreads] at this

theorem next_wait (hgo : ¬ j.go = true) : (q.next clock env j).sw.pc = q.sw.pc := by
  rw [next_sw, if_neg hgo]
  rfl

/-- With the dispatcher in `WRITE`, each access brings the loading nearer to its end. -/
theorem load_nearer (hs : q.Sure clock env js) (hd : Driven is q.board) (hst : Stage env is q.board q.sw.pc)
    (hkey : j.key.getLsbD 0 = true) (he : q.board.1.Early q.board.2) (hidle : q.board.1.disp.state ≠ .idle)
    (hl : ¬ q.sw.pc.Loaded) (hfiles : EvenFiles env) (hgo : j.go = true) :
    (q.next clock env j).sw.pc = .before ∨ (∃ e, (q.next clock env j).sw.pc = .exited e) ∨
      (q.next clock env j).sw.pc.loadWork (orders env) < q.sw.pc.loadWork (orders env) := by
  have hm : (q.handled j).pc = q.sw.pc := rfl
  have hsw : (q.next clock env j).sw = _ := next_sw
  rw [hgo, if_pos rfl] at hsw
  cases hpc : q.sw.pc with
  | logClear =>
    rw [hsw, Main.step, hm, hpc]
    exact .inr (.inr (Main.lt_of_first (by decide)))
  | waitWrite =>
    have hreads : q.sw.reads = addrStatus := by simp [Main.reads, hpc]
    have hwrite : (hftDispGetStatus (q.board.1.readdata (q.topIn j) addrStatus)).state = hftStateWrite := by
      rw [readdata_status, Top.dispSeen, hd.not_reset hidle hkey]
      exact status_write_iff.2 (he.state.resolve_left hidle)
    rw [hsw, Main.step, hm, hpc, hreads]
    dsimp only
    rw [if_pos hwrite, loading_running (Load.start_running _ _ _)]
    exact .inr (.inr (Prod.Lex.toLex_lt_toLex.2 (.inl Nat.zero_lt_one)))
  | load x =>
    obtain ⟨hrun, hload⟩ := loading_of_early hst he hpc
    have hin : q.topIn j = Load.topIn ⟨q.board, x⟩ ⟨j.key, j.go⟩ := by
      simp only [topIn, Main.write, hpc, Load.topIn]
    have hres : Load.resets ⟨q.board, x⟩ ⟨j.key, j.go⟩ = false := by
      rw [Load.resets, ← hin]
      exact hd.not_reset hidle hkey
    have hend := (hs.load_next (j := j) hd hst hkey he hpc).1
    rw [(next_load clock env j hpc hrun).2]
    by_cases hrun' : (Load.next (q.sw.loadClock clock) ⟨q.board, x⟩ ⟨j.key, j.go⟩).sw.Running
    · have hlt := hload.potential_lt (hs.load x hpc) (hfiles.imp id .inl) hres he.pulse hgo hrun hrun'
      rw [loading_running hrun']
      exact .inr (.inr (Prod.Lex.toLex_lt_toLex.2 (.inr ⟨rfl, hlt⟩)))
    · simp only [Harness.Running, ne_eq, not_forall, not_not] at hrun'
      obtain ⟨rc, hrc⟩ := hrun'
      rw [Main.loading, hrc]
      rcases hend rc hrc with ⟨rfl, -⟩ | ⟨rfl, -⟩
      · exact .inl rfl
      · exact .inr (.inl ⟨_, rfl⟩)
  | _ => rw [hpc] at hl; exact absurd trivial hl

/-- When trading is done, each access brings `main` nearer to its end. -/
theorem done_nearer (hd : Driven is q.board) (hst : Stage env is q.board q.sw.pc) (hkey : j.key.getLsbD 0 = true)
    (hl : q.sw.pc.Loaded) (hrun : ∀ e, q.sw.pc ≠ .exited e) (hdone : q.board.1.tradeDone = true) (hgo : j.go = true) :
    Main.Nearer q.sw.pc.work (q.next clock env j).sw := by
  have hset := settled_of_loaded hst hl hrun
  have hres := hd.not_reset (i := q.topIn j) hset.state hkey
  have hm : (q.handled j).reads = q.sw.reads := rfl
  rw [next_sw, hgo, if_pos rfl]
  refine @Main.step_nearer clock env (q.handled j) _ hl hrun (fun hreads => ?_) fun hreads => ?_
  · rw [← hm, hreads, readdata_status, Top.dispSeen, hres, status_state]
    show (q.board.1.disp.state.code).setWidth 32 = _
    rw [(Top.tradeDone_iff.1 hdone).1]
    decide
  · have hraw : q.board.1.readdata (q.topIn j) addrLogInfo =
        LogPort.logInfo ⟨q.board.1.avl, q.board.1.log⟩ (q.board.1.busCycle true).env := by
      rw [Top.readdata, hres]
      rfl
    have hle := hd.count_le
    rw [← hm, hreads, hraw, hftLogGetInfo_logInfo _ _ (show q.board.1.log.countReg < 2 ^ 14 by omega)]
    exact hdone

/-! ### The run -/

variable {t u : Nat}

theorem trace_succ (t : Nat) : trace clock env js (t + 1) = next clock env (trace clock env js t) (js t) := by
  rw [trace, List.range_succ, List.map_append, List.map_singleton, run_snoc]
  rfl

theorem trace_board (t : Nat) : (trace clock env js t).board = Top.trace (bus clock env js) t := by
  induction t with
  | zero => rfl
  | succ t ih =>
    rw [trace_succ, Top.trace_succ, ← ih]
    rfl

theorem bus_control (t k : Nat) : busBit (bus clock env js t).write addrControl k = false := by
  rw [bus, write_topIn]
  cases (js t).go with
  | true => exact Main.busBit_write _ k
  | false => rfl

section Keys

variable (hkeys : ∀ t, (js t).key.getLsbD 0 = true)
include hkeys

theorem trace_stage (t : Nat) : Stage env (inputs clock env ((List.range t).map js)) (trace clock env js t).board
      (trace clock env js t).sw.pc ∧
    ((∀ e, (trace clock env js t).sw.pc ≠ .exited e) →
      Driven (inputs clock env ((List.range t).map js)) (trace clock env js t).board) := by
  refine run_stage clock env fun j hj => ?_
  obtain ⟨u, -, rfl⟩ := List.mem_map.1 hj
  exact hkeys u

theorem trace_loaded (hl : (trace clock env js t).sw.pc.Loaded) (htu : t ≤ u) :
    (trace clock env js u).sw.pc.Loaded := by
  refine stays (P := fun u => (trace clock env js u).sw.pc.Loaded) (fun v _ hl => ?_) hl htu
  obtain ⟨hst, hd⟩ := trace_stage hkeys v
  rw [trace_succ]
  exact loaded_next hd hst (hkeys v) hl

end Keys

theorem early_of_up (hup : ∀ u < t, (js u).key.getLsbD 2 = true) :
    (trace clock env js t).board.1.Early (trace clock env js t).board.2 := by
  rw [trace_board]
  exact Top.trace_early (fun u => bus_control u 1) hup

namespace Attended

variable (h : Attended clock env js)
include h

/-- Until the orders have been loaded, `KEY2` is up. -/
theorem early_at (hl : ¬ (trace clock env js t).sw.pc.Loaded) :
    (trace clock env js t).board.1.Early (trace clock env js t).board.2 := by
  refine early_of_up fun u hu => ?_
  by_contra hdown
  exact hl (trace_loaded h.keys (h.early u (Bool.eq_false_iff.2 hdown)) (Nat.le_of_lt hu))

theorem sure (hrows : ∀ n, RowsOk (Stdio.lines 256 (Main.files env n))) (t : Nat) :
    (trace clock env js t).Sure clock env js := by
  induction t with
  | zero =>
    have hpc := Main.start_cases env
    refine ⟨Main.sure_start, fun x hx => ?_, fun y hy => ?_⟩
    · have hx : (Main.start env).pc = .load x := hx
      rcases hpc with hpc | ⟨e, hpc⟩ <;> rw [hpc] at hx <;> cases hx
    · have hy : (Main.start env).pc = .readAll y := hy
      rcases hpc with hpc | ⟨e, hpc⟩ <;> rw [hpc] at hy <;> cases hy
  | succ t ih =>
    rw [trace_succ]
    exact ih.next (trace_stage h.keys t).2 (trace_stage h.keys t).1 (h.keys t) (fun hs => ⟨t, hs⟩) h.early_at hrows

/-- Once the board is in `WRITE`, the orders are loaded, or `main` ends. -/
theorem loads (hrows : ∀ n, RowsOk (Stdio.lines 256 (Main.files env n)))
    (hfiles : EvenFiles env) (hrun : ∀ t e, (trace clock env js t).sw.pc ≠ .exited e) :
    ∃ t, (trace clock env js t).sw.pc = .before := by
  obtain ⟨t, h2, hup, hdown⟩ := h.write
  have hidle : ∀ u, t + 4 ≤ u → (trace clock env js u).board.1.disp.state ≠ .idle := by
    intro u hu
    rw [trace_board]
    exact Top.trace_leaves_idle h.keys (fun v => bus_control v 2) h2 hup hdown hu
  -- the first time they have been loaded
  have hloaded : ∃ t, (trace clock env js t).sw.pc.Loaded := by
    obtain ⟨u, -, hu⟩ : Eventually (t + 4) fun u => (trace clock env js (u + 1)).sw.pc.Loaded := by
      refine Eventually.of_fair (g := fun u => (js u).go = true) (fun u => h.go u) wellFounded_lt
        (R := fun u a => a = (trace clock env js u).sw.pc.loadWork (orders env)) (fun u hu a ha => ?_) rfl
      by_cases hl' : (trace clock env js (u + 1)).sw.pc.Loaded
      · exact .inl hl'
      have hl : ¬ (trace clock env js u).sw.pc.Loaded := fun hl => hl' (trace_loaded h.keys hl (Nat.le_succ u))
      refine .inr ⟨_, ?_, rfl⟩
      rw [ha]
      rw [trace_succ] at hl' ⊢
      by_cases hgo : (js u).go = true
      · rcases load_nearer (h.sure hrows u) ((trace_stage h.keys u).2 (hrun u)) (trace_stage h.keys u).1 (h.keys u) (h.early_at hl)
          (hidle u hu) hl hfiles hgo with hpc | ⟨e, hpc⟩ | hlt
        · rw [hpc] at hl'; exact absurd trivial hl'
        · rw [hpc] at hl'; exact absurd trivial hl'
        · exact .inl hlt
      · exact .inr ⟨by rw [next_wait hgo], hgo⟩
    exact ⟨u + 1, hu⟩
  obtain ⟨t0, hfirst, hmin⟩ := wellFounded_lt.has_min {t | (trace clock env js t).sw.pc.Loaded} hloaded
  refine ⟨t0, ?_⟩
  cases t0 with
  | zero =>
    rcases Main.start_cases env with hpc | ⟨e, hpc⟩
    · have hfirst : (Main.start env).pc.Loaded := hfirst
      rw [hpc] at hfirst
      exact hfirst.elim
    · exact absurd hpc (hrun 0 e)
  | succ s =>
    have hl : ¬ (trace clock env js s).sw.pc.Loaded := fun hl => hmin s hl (Nat.lt_succ_self s)
    have hfirst : (trace clock env js (s + 1)).sw.pc.Loaded := hfirst
    have hrun' := hrun (s + 1)
    rw [trace_succ, next_sw] at hfirst hrun' ⊢
    split at hfirst
    · rename_i hgo
      rw [if_pos hgo] at hrun' ⊢
      rcases @Main.loading_step clock env ((trace clock env js s).handled (js s)) _ hl with hpc | ⟨e, hpc⟩ | hno
      · exact hpc
      · exact absurd hpc (hrun' e)
      · exact absurd hfirst hno
    · exact absurd hfirst hl

/-- `KEY2` starts the dispatch of the orders. -/
theorem dispatches (hrows : ∀ n, RowsOk (Stdio.lines 256 (Main.files env n)))
    (hfiles : EvenFiles env) (hrun : ∀ t e, (trace clock env js t).sw.pc ≠ .exited e) :
    ∃ t, (trace clock env js (t + 3)).board.1.disp.state = .dispatch ∧
      (∀ e, (trace clock env js (t + 3)).board.2.orders e = []) ∧ (trace clock env js t).sw.pc.Loaded := by
  obtain ⟨t0, hpc⟩ := h.loads hrows hfiles hrun
  obtain ⟨u, -, hu⟩ := h.dispatch t0 hpc
  obtain ⟨t, hdown, hmin⟩ := wellFounded_lt.has_min {t | (js t).key.getLsbD 2 = false} ⟨u, hu⟩
  have hl := h.early t hdown
  have hset := settled_of_loaded (trace_stage h.keys t).1 hl (hrun t)
  have hstate := hset.state
  rw [trace_board] at hstate
  have hup : ∀ v < t, (bus clock env js v).key.getLsbD 2 = true := fun v hv => by
    by_contra hno
    exact hmin v (Bool.eq_false_iff.2 hno) hv
  obtain ⟨h1, h2⟩ := Top.trace_dispatches h.keys (fun v => ⟨bus_control v 1, bus_control v 2⟩) hup hstate hdown
  rw [← trace_board] at h1 h2
  exact ⟨t, h1, h2, hl⟩

/-- Trading is done in the end, and stays so. -/
theorem completes (hrows : ∀ n, RowsOk (Stdio.lines 256 (Main.files env n))) (hfiles : EvenFiles env)
    (hroom : (∀ n, (orders env n).length ≤ 511) ∨ ∀ t e, ¬ (trace clock env js t).board.1.HeldUp e)
    (hrun : ∀ t e, (trace clock env js t).sw.pc ≠ .exited e) :
    ∃ t, (trace clock env js t).sw.pc.Loaded ∧ ∀ u, t ≤ u → (trace clock env js u).board.1.tradeDone = true := by
  obtain ⟨t, hst, horders, hl⟩ := h.dispatches hrows hfiles hrun
  have hloaded : ∀ u, t ≤ u → (trace clock env js u).sw.pc.Loaded := fun u hu => trace_loaded h.keys hl hu
  have hu : Top.Unhindered (bus clock env js) (t + 3) := by
    refine ⟨h.keys, fun u hu => ⟨bus_control u 2, logClears_topIn fun hpc => ?_⟩⟩
    have := hloaded u (by omega)
    rw [hpc] at this
    exact this
  have hno : ∀ v e, t + 3 ≤ v → ¬ (trace clock env js v).board.1.HeldUp e := by
    intro v e hv
    rcases hroom with hsmall | hroom
    · -- the orders are those in the FIFOs
      have hdue : ∀ e, Top.ordersDue (trace clock env js (t + 3)).board.2 e ≤ 511 := by
        intro e
        have hset := settled_of_loaded (trace_stage h.keys (t + 3)).1 (hloaded _ (by omega)) (hrun _)
        have hwritten := congrArg List.length (hset.holding.written e)
        rw [stock, List.length_map, List.length_take] at hwritten
        have := hsmall e
        rw [orders] at this
        rw [Top.ordersDue, Top.ordersLeft, horders e, hwritten, List.length_nil]
        omega
      rw [trace_board] at hst hdue ⊢
      exact hu.not_heldUp hst hdue hv
    · exact hroom v e
  rw [trace_board] at hst
  simp only [trace_board] at hno
  obtain ⟨v, hv, hdone | ⟨e, hheld⟩⟩ := hu.done_or_heldUp hst
  · refine ⟨v, hloaded v (by omega), fun u hvu => ?_⟩
    rw [trace_board]
    exact hu.done_stays hst hv hdone hvu
  · exact absurd hheld (hno v e hv)

/-- When trading is done, `main` comes to its end. -/
theorem reports {t : Nat} (hl : (trace clock env js t).sw.pc.Loaded)
    (hdone : ∀ u, t ≤ u → (trace clock env js u).board.1.tradeDone = true) :
    ∃ u e, (trace clock env js u).sw.pc = .exited e := by
  by_contra hno
  simp only [not_exists] at hno
  obtain ⟨u, -, hu⟩ : Eventually t fun _ => False := by
    refine Eventually.of_fair (g := fun u => (js u).go = true) (fun u => h.go u) wellFounded_lt
      (R := fun u a => a = (trace clock env js u).sw.pc.work) (fun u hu a ha => .inr ⟨_, ?_, rfl⟩) rfl
    rw [ha, trace_succ]
    by_cases hgo : (js u).go = true
    · rcases done_nearer ((trace_stage h.keys u).2 (hno u)) (trace_stage h.keys u).1 (h.keys u) (trace_loaded h.keys hl hu) (hno u)
        (hdone u hu) hgo with ⟨e, hpc⟩ | hlt
      · rw [← trace_succ] at hpc
        exact absurd hpc (hno (u + 1) e)
      · exact .inl hlt
    · exact .inr ⟨by rw [next_wait hgo], hgo⟩
  exact hu

end Attended

end Session

/-- Whatever the clock shows, whenever `main` makes its accesses and whenever Ctrl+C comes: if nobody presses
`KEY0`, `KEY1` is pressed at some time and `KEY2` once the orders have been loaded and not before, and no file has
more than 511 orders or at least no engine is ever held up, `main` comes to an end, for one of the reasons that
`Exit.Due` names; and if it reports trades, these are all the trades of the eight order books. -/
theorem main_finishes {clock : Nat → UInt64} {env : MainEnv} {js : Nat → MainIn}
    (h : Session.Attended clock env js) (hrows : ∀ n, RowsOk (Stdio.lines 256 (Main.files env n)))
    (hfiles : Session.EvenFiles env)
    (hroom : (∀ n, (Session.orders env n).length ≤ 511) ∨
      ∀ t e, ¬ (Session.trace clock env js t).board.1.HeldUp e) :
    ∃ t e, (Session.trace clock env js t).sw.exit = some e ∧ e.Due clock env js ∧
      (t < 2 ^ 32 → ∀ rows, e.rows = some rows → Complete env rows) := by
  have hend : ∃ t e, (Session.trace clock env js t).sw.pc = .exited e := by
    by_contra hno
    have hrun : ∀ t e, (Session.trace clock env js t).sw.pc ≠ .exited e := fun t e hpc => hno ⟨t, e, hpc⟩
    obtain ⟨t, hl, hdone⟩ := h.completes hrows hfiles hroom hrun
    exact hno (h.reports hl hdone)
  obtain ⟨t, e, hpc⟩ := hend
  have hexit : (Session.trace clock env js t).sw.exit = some e := by rw [Main.exit, hpc]
  refine ⟨t, e, hexit, (h.sure hrows t).main.due e hpc, fun ht rows hr => ?_⟩
  refine Session.complete (fun j hj => ?_) (by rwa [List.length_map, List.length_range]) hexit hr
  obtain ⟨u, -, rfl⟩ := List.mem_map.1 hj
  exact h.keys u

/-- `KEY1` comes at 3, and from 22 on `KEY2` is held. -/
def crossingDay (t : Nat) : MainIn := ⟨if t = 3 then 0xD else if t < 22 then 0xF else 0xB, true, false⟩

theorem crossingDay_keys (t : Nat) : (crossingDay t).key.getLsbD 0 = true := by
  unfold crossingDay
  split
  · decide
  · split <;> decide

theorem attended_crossingDay : Session.Attended (fun _ => 0) crossingEnv crossingDay where
  keys := crossingDay_keys
  go t := ⟨t, Nat.le_refl t, rfl⟩
  write := ⟨2, Nat.le_refl 2, by decide, by decide⟩
  dispatch t _ := by
    refine ⟨t + 22, Nat.le_add_right t 22, ?_⟩
    rw [crossingDay, if_neg (by omega), if_neg (by omega)]
    decide
  early t ht := by
    have hle : 22 ≤ t := by
      by_contra hlt
      unfold crossingDay at ht
      split at ht
      · revert ht; decide
      · rw [if_pos (by omega)] at ht
        revert ht; decide
    exact Session.trace_loaded crossingDay_keys (by decide +kernel) hle

theorem main_finishes_crossingDay : ∃ t e, (Session.trace (fun _ => 0) crossingEnv crossingDay t).sw.exit = some e ∧
    e.Due (fun _ => 0) crossingEnv crossingDay ∧
      (t < 2 ^ 32 → ∀ rows, e.rows = some rows → Complete crossingEnv rows) :=
  main_finishes attended_crossingDay (by decide) (.inr (by decide)) (.inl (by decide))

end HftSim
