import HftSim.Sw.Load

/-!
# Resets while orders are loaded

The harness looks for a reset only at the head of its loop. In between, a push that finds the dispatcher
out of `WRITE` is retried for two seconds, so that a reset followed by `KEY1` goes unnoticed and the rest
of the files is loaded into empty FIFOs. `Watched` says at which steps the buttons do no harm.
-/

namespace HftSim

open Function

/-- The status of a design that has been reset. -/
def resetStatus : HftDispStatus := ⟨0, 0, 0xFF, 0⟩

theorem OrderDispatcher.Ok.status_idle {d : OrderDispatcher} {h : Batch} (h1 : d.Ok h) (hst : d.state = .idle) :
    hftDispGetStatus d.statusWord = resetStatus := by
  have hph := h1.phase
  simp only [OrderDispatcher.Phase, hst] at hph
  have hocc : ∀ n, (d.fifo n).occupancy = 0 := fun n => by
    have := (h1.queue n).occupancy_eq
    rw [hph n, List.length_nil] at this
    omega
  have hfull : d.fifoFull = fun _ => false := funext fun n => by
    simp [OrderDispatcher.fifoFull, DispatchFifoBram.full, hocc n, fifoSz]
  have hempty : d.fifoEmpty = fun _ => true := funext fun n => by
    simp [OrderDispatcher.fifoEmpty, DispatchFifoBram.empty, hocc n]
  have hready : d.swWrReady = fun _ => false := funext fun n => by
    simp [OrderDispatcher.swWrReady, hst]
  rw [OrderDispatcher.statusWord, hfull, hempty, hready, hst]
  decide

namespace Harness

variable {clock : Nat → UInt64} {x : Harness}

/-- With the status of a reset design the harness comes to the head of its loop. -/
def Watching (clock : Nat → UInt64) (x : Harness) : Prop :=
  ∃ k, (Nat.iterate (fun x => x.step clock resetStatus) k x).pc = .poll

theorem Watching.step (h : x.Watching clock) (hpc : x.pc ≠ .poll) : (x.step clock resetStatus).Watching clock := by
  obtain ⟨k, hk⟩ := h
  cases k with
  | zero => exact absurd hk hpc
  | succ k => exact ⟨k, by rwa [Function.iterate_succ_apply] at hk⟩

theorem step_poll_reset (hpc : x.pc = .poll) : (x.step clock resetStatus).pc = .returned hftErrReset := by
  simp only [Harness.step, hpc]
  rw [if_neg (by decide), if_pos (by decide)]

theorem step_returned {rc : Rc} (h : x.pc = .returned rc) (st : HftDispStatus) : x.step clock st = x := by
  simp [Harness.step, h]

theorem Watching.running (h : x.Watching clock) : x.Running := by
  intro rc hpc
  obtain ⟨k, hk⟩ := h
  rw [Function.iterate_fixed (step_returned hpc _), hpc] at hk
  cases hk

end Harness

namespace Load

variable {clock : Nat → UInt64} {q : Load} {j : LoadIn} {os : Fin 8 → List HftDispOrder}

/-- In the cycle `j` the design is in reset. -/
def resets (q : Load) (j : LoadIn) : Bool := q.board.1.inReset (q.topIn j)

/-- Before the harness has returned: a reset comes only when it is about to poll the status, or will do so
before it pushes again; until then no `begin_write` comes; and no `begin_dispatch` comes when all FIFOs
are full. -/
structure Watched (clock : Nat → UInt64) (q : Load) (j : LoadIn) : Prop where
  reset : q.resets j = true → q.sw.Watching clock
  beginWrite : q.resets j = false → q.board.1.disp.state = .idle → q.board.1.dispBeginWritePulse = false
  beginDispatch : q.resets j = false → q.board.1.disp.state = .write → q.board.1.dispBeginDispatchPulse = true →
    ∃ n, (q.board.1.disp.step q.board.1.dispIn).fifoFull n = false

/-- `KEY2` has ended the loading. -/
structure Dispatching (q : Load) : Prop where
  ctrl : q.board.1.CtrlOk q.board.2
  sw : q.sw.Ok
  state : q.board.1.disp.state = .dispatch ∨ q.board.1.disp.state = .done
  clear : q.board.1.avl.dispClearDonePulse = false
  room : ∃ n, q.board.1.disp.fifoFull n = false

/-- A reset that the harness is going to see. -/
structure Reset (clock : Nat → UInt64) (q : Load) : Prop where
  ctrl : q.board.1.CtrlOk q.board.2
  idle : q.board.1.disp.state = .idle
  sw : q.sw.Watching clock

/-! ### One cycle -/

theorem next_sw (clock : Nat → UInt64) (q : Load) (j : LoadIn) :
    (next clock q j).sw = if j.go then q.sw.step clock (q.status j) else q.sw := rfl

theorem running_of_next (h : (next clock q j).sw.Running) : q.sw.Running := by
  intro rc hpc
  refine h rc ?_
  rw [next_sw]
  cases j.go with
  | true => rw [if_pos rfl, Harness.step_returned hpc, hpc]
  | false => exact hpc

theorem watching_next (hst : q.status j = resetStatus) (hw : q.sw.Watching clock)
    (hrun : (next clock q j).sw.Running) : (next clock q j).sw.Watching clock := by
  rw [next_sw, hst] at hrun ⊢
  cases hg : j.go with
  | true =>
    simp only [hg, if_true] at hrun ⊢
    refine hw.step fun hpc => ?_
    exact hrun _ (Harness.step_poll_reset hpc)
  | false => exact hw

theorem status_reset (hres : q.resets j = true) : q.status j = resetStatus := by
  have hseen : q.board.1.dispSeen (q.topIn j) = q.board.1.disp.reset := if_pos hres
  rw [status, hseen]
  exact (OrderDispatcher.Ok.reset q.board.1.disp).status_idle rfl

theorem Reset.status (h : Reset clock q) (j : LoadIn) : q.status j = resetStatus := by
  cases hres : q.resets j with
  | true => exact status_reset hres
  | false =>
    rw [status_tick hres]
    exact h.ctrl.disp.status_idle h.idle

theorem reset_next (hres : q.resets j = true) (hw : q.sw.Watching clock) (hrun : (next clock q j).sw.Running) :
    Reset clock (next clock q j) := by
  obtain ⟨r0, r1, hs⟩ := Top.step_of_inReset hres
  have hboard : (next clock q j).board = ({ q.board.1.reset with rstPipe0 := r0, rstPipe1 := r1 }, .fresh) := by
    rw [← hs]
    exact congrArg (Prod.mk _) (if_pos hres)
  refine ⟨?_, ?_, watching_next (status_reset hres) hw hrun⟩
  · rw [hboard]; exact .reset _ _ _
  · rw [hboard]; rfl

theorem Reset.next (h : Reset clock q) (hres : q.resets j = false) (hb : q.board.1.dispBeginWritePulse = false)
    (hrun : (next clock q j).sw.Running) : Reset clock (next clock q j) := by
  refine ⟨?_, ?_, watching_next (h.status j) h.sw hrun⟩ <;> rw [next_board_tick clock hres]
  · exact h.ctrl.tick _
  · show q.board.1.disp.nextState q.board.1.dispIn = .idle
    simp [OrderDispatcher.nextState, h.idle, Top.dispIn, hb]

/-- The harness does not write `CONTROL`. -/
theorem busBit_topIn (q : Load) (j : LoadIn) (b : Nat) : busBit (q.topIn j).write addrControl b = false := by
  have hno : busData (q.topIn j).write addrControl = none := by
    simp only [topIn]
    cases hg : j.go with
    | false => rfl
    | true =>
      cases q.sw.write with
      | none => rfl
      | some p =>
        obtain ⟨⟨m, hm⟩, o⟩ := p
        simp only [if_true, Option.map_some, busData, pushBus, addrPush, addrControl, Option.bind_some,
          BitVec.toNat_ofNat]
        exact if_neg (by omega)
  simp [busBit, hno]

theorem ok_next (h : q.sw.Ok) (j : LoadIn) : (next clock q j).sw.Ok := by
  rw [next_sw]
  cases j.go with
  | true => exact h.step _
  | false => exact h

theorem Loading.dispatching (h : Loading os q) (hres : q.resets j = false)
    (hb : q.board.1.dispBeginDispatchPulse = true)
    (hroom : ∃ n, (q.board.1.disp.step q.board.1.dispIn).fifoFull n = false) : Dispatching (Load.next clock q j) := by
  refine ⟨?_, ok_next h.sw j, ?_, ?_, ?_⟩ <;> rw [next_board_tick clock hres]
  · exact h.ctrl.tick _
  · left
    show q.board.1.disp.nextState q.board.1.dispIn = .dispatch
    simp [OrderDispatcher.nextState, h.write, Top.dispIn, hb]
  · exact busBit_topIn q j 2
  · exact hroom

theorem Dispatching.next (h : Dispatching q) (hres : q.resets j = false) : Dispatching (next clock q j) := by
  have hne : q.board.1.disp.state ≠ .write := by
    rcases h.state with h | h <;> simp [h]
  have hcl : ¬ (q.board.1.disp.state = .done ∧ q.board.1.dispIn.swClearDone = true) := fun hc => by
    have := hc.2
    rw [Top.dispIn, h.clear] at this; cases this
  refine ⟨?_, ok_next h.sw j, ?_, ?_, ?_⟩ <;> rw [next_board_tick clock hres]
  · exact h.ctrl.tick _
  · show q.board.1.disp.nextState q.board.1.dispIn = .dispatch ∨ q.board.1.disp.nextState q.board.1.dispIn = .done
    rcases h.state with hst | hst
    · simp only [OrderDispatcher.nextState, hst]
      split
      · exact .inr rfl
      · exact .inl rfl
    · simp [OrderDispatcher.nextState, hst, Top.dispIn, h.clear]
  · exact busBit_topIn q j 2
  · obtain ⟨n, hn⟩ := h.room
    have hle := h.ctrl.disp.occupancy_le hne hcl n
    have hocc := (h.ctrl.disp.queue n).occupancy_eq
    have hmax := (h.ctrl.disp.queue n).le
    have hlt : (q.board.1.disp.fifo n).occupancy ≠ fifoSz := by
      simpa [OrderDispatcher.fifoFull, DispatchFifoBram.full] using hn
    refine ⟨n, ?_⟩
    show ((q.board.1.disp.step q.board.1.dispIn).fifo n).full = false
    simp only [DispatchFifoBram.full, decide_eq_false_iff_not]
    omega

/-! ### Runs -/

/-- `C` holds at every step of the run from `q`. -/
def Along (clock : Nat → UInt64) (C : Load → LoadIn → Prop) (q : Load) (js : List LoadIn) : Prop :=
  ∀ ks j, ks ++ [j] <+: js → C (run clock q ks) j

/-- There is a reset in the run from `q`. -/
def ResetIn (clock : Nat → UInt64) (q : Load) (js : List LoadIn) : Prop :=
  ∃ ks j, ks ++ [j] <+: js ∧ (run clock q ks).resets j = true

theorem Along.init {C : Load → LoadIn → Prop} {js : List LoadIn} (h : Along clock C q (js ++ [j])) :
    Along clock C q js ∧ C (run clock q js) j :=
  ⟨fun ks k hk => h ks k (hk.trans (List.prefix_append _ _)), h js j (List.prefix_refl _)⟩

theorem resetIn_snoc {js : List LoadIn} :
    ResetIn clock q (js ++ [j]) ↔ ResetIn clock q js ∨ (run clock q js).resets j = true := by
  constructor
  · rintro ⟨ks, k, hk, hres⟩
    rcases List.prefix_concat_iff.1 hk with hk | hk
    · obtain ⟨hks, hkj⟩ := List.append_inj' hk rfl
      rw [hks, List.singleton_inj.1 hkj] at hres
      exact .inr hres
    · exact .inl ⟨ks, k, hk, hres⟩
  · rintro (⟨ks, k, hk, hres⟩ | hres)
    · exact ⟨ks, k, hk.trans (List.prefix_append _ _), hres⟩
    · exact ⟨js, j, List.prefix_refl _, hres⟩

/-- As long as the harness runs and is `Watched`: it will see a reset if there was one, and else it is
loading in `WRITE` or the loading has been ended by `KEY2`. -/
theorem run_stage (h0 : Loading os q) {js : List LoadIn} (hw : Along clock (Watched clock) q js)
    (hrun : (run clock q js).sw.Running) :
    (ResetIn clock q js → Reset clock (run clock q js)) ∧
      (¬ ResetIn clock q js → Loading os (run clock q js) ∨ Dispatching (run clock q js)) := by
  induction js using List.reverseRecOn with
  | nil =>
    refine ⟨?_, fun _ => .inl h0⟩
    rintro ⟨ks, k, hk, -⟩
    exact absurd (List.prefix_nil.1 hk) (by simp)
  | append_singleton js j ih =>
    obtain ⟨hjs, hj⟩ := hw.init
    rw [run_snoc] at hrun ⊢
    obtain ⟨ihr, ihn⟩ := ih hjs (running_of_next hrun)
    rw [resetIn_snoc]
    cases hres : (run clock q js).resets j with
    | true => exact ⟨fun _ => reset_next hres (hj.reset hres) hrun, fun hno => absurd (.inr rfl) hno⟩
    | false =>
      simp only [Bool.false_eq_true, or_false]
      refine ⟨fun hin => ?_, fun hno => ?_⟩
      · exact (ihr hin).next hres (hj.beginWrite hres (ihr hin).idle) hrun
      · rcases ihn hno with hl | hd
        · cases hb : (run clock q js).board.1.dispBeginDispatchPulse with
          | true => exact .inr (hl.dispatching hres hb (hj.beginDispatch hres hl.write hb))
          | false => exact .inl (hl.next hres hb fun rc hrc => absurd hrc (hrun rc))
        · exact .inr (hd.next hres)

/-- A harness that is watching returns only to report the reset. -/
theorem watching_returns {rc : Rc} (hst : q.status j = resetStatus) (hw : q.sw.Watching clock)
    (hret : (next clock q j).sw.pc = .returned rc) : rc = hftErrReset := by
  by_cases hpc : j.go = true ∧ q.sw.pc = .poll
  · rw [next_sw, if_pos hpc.1, hst, Harness.step_poll_reset hpc.2] at hret
    cases hret; rfl
  · have hw' : (next clock q j).sw.Watching clock := by
      rw [next_sw, hst]
      cases hg : j.go with
      | true => exact hw.step fun h => hpc ⟨hg, h⟩
      | false => exact hw
    exact absurd hret (hw'.running rc)

theorem Dispatching.not_ok (h : Dispatching q) (hres : q.resets j = false) (hrun : q.sw.Running) :
    (Load.next clock q j).sw.pc ≠ .returned .ok := by
  intro hret
  have hgo : j.go = true := by
    by_contra hg
    rw [next_sw, if_neg hg] at hret
    exact hrun _ hret
  rw [next_sw, if_pos hgo, status_tick hres] at hret
  rcases h.sw.step_ok hrun hret with hfull | ⟨-, hst⟩
  · obtain ⟨n, hn⟩ := h.room
    rw [status_all_full_iff.1 hfull n] at hn; cases hn
  · have := status_write_iff.1 hst
    rcases h.state with h | h <;> rw [h] at this <;> cases this

/-- The loading returns in the cycle `j`: 0 only if the dispatcher is in `WRITE` and each FIFO contains the
first orders of its lane's file; and `HFT_ERR_RESET` if there has been a reset. -/
def Reports (clock : Nat → UInt64) (files : Fin 8 → List Char) (q : Load) (js : List LoadIn) (j : LoadIn) : Prop :=
  ∀ rc, (run clock q (js ++ [j])).sw.pc = .returned rc →
    (rc = .ok → (run clock q js).board.1.disp.state = .write ∧ ∀ n,
      ((run clock q js).board.1.disp.fifo n).contents <+: (fileOrders files n).map hftDispPackOrderWord) ∧
    (ResetIn clock q (js ++ [j]) → rc = hftErrReset)

theorem reset_reported (clock : Nat → UInt64) (timeoutMs : Int) (files : Fin 8 → List Char) (is : List TopIn)
    (js : List LoadIn) (j : LoadIn) (hready : (Top.run is).1.Ready (Top.run is).2)
    (hw : Along clock (Watched clock) (call clock timeoutMs files is) (js ++ [j]))
    (hrun : (run clock (call clock timeoutMs files is) js).sw.Running) :
    Reports clock files (call clock timeoutMs files is) js j := by
  intro rc hret
  obtain ⟨hjs, hj⟩ := hw.init
  obtain ⟨hreset, hload⟩ := run_stage (Loading.call timeoutMs files is hready) hjs hrun
  rw [run_snoc] at hret
  rw [resetIn_snoc]
  by_cases hin : ResetIn clock (call clock timeoutMs files is) js ∨
      (run clock (call clock timeoutMs files is) js).resets j = true
  · have hrc : rc = hftErrReset := by
      rcases hin with hin | hres
      · exact watching_returns ((hreset hin).status j) (hreset hin).sw hret
      · exact watching_returns (status_reset hres) (hj.reset hres) hret
    refine ⟨fun hok => ?_, fun _ => hrc⟩
    rw [hrc] at hok; cases hok
  · refine ⟨fun hok => ?_, fun h => absurd h hin⟩
    simp only [not_or, Bool.not_eq_true] at hin
    subst hok
    rcases hload hin.1 with hl | hd
    · exact ⟨hl.write, hl.contents⟩
    · exact absurd hret (hd.not_ok hin.2 hrun)

/-- From power-up to `WRITE` by `KEY1`. -/
def keyOne : List TopIn := [0xF, 0xF, 0xF, 0xD, 0xD, 0xF, 0xF, 0xF].map fun key => ⟨key, none⟩

def twoRows (n : Fin 8) : List Char :=
  if n = 0 then
    ['B', 'I', 'D', ',', '5', ',', '3', '\n', 'A', 'S', 'K', ',', '6', ',', '2', '\n']
  else []

theorem keyOne_ready : (Top.run keyOne).1.Ready (Top.run keyOne).2 :=
  ⟨by decide +kernel, by decide +kernel, by decide +kernel⟩

theorem Along.nil {C : Load → LoadIn → Prop} : Along clock C q [] := by
  intro ks j hk
  exact absurd (List.prefix_nil.1 hk) (by simp)

theorem Along.cons {C : Load → LoadIn → Prop} {js : List LoadIn} (hj : C q j)
    (hjs : Along clock C (next clock q j) js) : Along clock C q (j :: js) := by
  intro ks k hk
  cases ks with
  | nil =>
    have hk : [k] <+: j :: js := hk
    rw [(List.cons_prefix_cons.1 hk).1]
    exact hj
  | cons l ks =>
    obtain ⟨hl, hk'⟩ := List.cons_prefix_cons.1 hk
    subst hl
    exact hjs ks k hk'

theorem Watched.quiet (hres : q.resets j = false) (hst : q.board.1.disp.state = .write)
    (hb : q.board.1.dispBeginDispatchPulse = false) : Watched clock q j := by
  refine ⟨fun h => ?_, fun _ h => ?_, fun _ _ h => ?_⟩
  · rw [hres] at h; cases h
  · rw [hst] at h; cases h
  · rw [hb] at h; cases h

/-- The call with these files, and a clock that stands still. -/
def twoRowsCall : Load := call (fun _ => 0) 30000 twoRows keyOne

/-- The reset comes after the first push, when the harness polls the status. -/
theorem reset_reported_twoRows :
    (run (fun _ => 0) twoRowsCall (List.replicate 4 ⟨0xF, true⟩ ++ [⟨0xE, true⟩])).sw.pc = .returned hftErrReset ∧
      Reports (fun _ => 0) twoRows twoRowsCall (List.replicate 4 ⟨0xF, true⟩) ⟨0xE, true⟩ := by
  have hpc : (run (fun _ => 0) twoRowsCall (List.replicate 4 ⟨0xF, true⟩)).sw.pc = .poll := by decide +kernel
  refine ⟨by decide +kernel, ?_⟩
  refine reset_reported _ 30000 twoRows keyOne _ _ keyOne_ready ?_ fun rc h => ?_
  · refine .cons (.quiet ?_ ?_ ?_) (.cons (.quiet ?_ ?_ ?_) (.cons (.quiet ?_ ?_ ?_) (.cons (.quiet ?_ ?_ ?_)
      (.cons ⟨fun _ => ⟨0, hpc⟩, ?_, ?_⟩ .nil))))
    all_goals decide +kernel
  · have h : (run (fun _ => 0) twoRowsCall (List.replicate 4 ⟨0xF, true⟩)).sw.pc = .returned rc := h
    rw [hpc] at h; cases h

/-- The reset comes between two pushes, and `KEY1` before the second is tried again. -/
def resetWhilePushing : List LoadIn :=
  List.replicate 5 ⟨0xF, true⟩ ++
    [⟨0xE, false⟩, ⟨0xF, false⟩, ⟨0xF, false⟩, ⟨0xD, false⟩, ⟨0xF, false⟩, ⟨0xF, false⟩, ⟨0xF, false⟩] ++
    List.replicate 3 ⟨0xF, true⟩

theorem resetWhilePushing_masked : ¬ ∀ clock timeoutMs files is js j, (Top.run is).1.Ready (Top.run is).2 →
    (run clock (call clock timeoutMs files is) js).sw.Running →
    Reports clock files (call clock timeoutMs files is) js j := by
  intro hall
  have hpc : (run (fun _ => 0) twoRowsCall resetWhilePushing).sw.pc = .poll := by decide +kernel
  have hret : (run (fun _ => 0) twoRowsCall (resetWhilePushing ++ [⟨0xF, true⟩])).sw.pc = .returned .ok := by
    decide +kernel
  have hlost : ¬ ((run (fun _ => 0) twoRowsCall resetWhilePushing).board.1.disp.fifo 0).contents <+:
      (fileOrders twoRows 0).map hftDispPackOrderWord := by decide +kernel
  have hrun : (run (fun _ => 0) twoRowsCall resetWhilePushing).sw.Running := fun rc h => by
    rw [hpc] at h; cases h
  have hrep := hall _ 30000 twoRows keyOne resetWhilePushing ⟨0xF, true⟩ keyOne_ready hrun _ hret
  exact hlost ((hrep.1 rfl).2 0)

end Load

end HftSim
