import HftSim.Sw.Reset
import Mathlib.Algebra.BigOperators.Fin
import Mathlib.Algebra.Order.BigOperators.Group.Finset

/-!
# When the loading ends

The loop ends when all FIFOs are full or all files are at their end, and a lane whose FIFO is full is never
found at the end of its file. So with a full lane beside a lane that has run out of orders it goes round
for ever: no order is pushed any more, and the deadline is looked at only after a push.
-/

namespace HftSim

open Function

/-- How many orders of lane `n` its FIFO takes. -/
def quota (os : Fin 8 → List HftDispOrder) (n : Fin 8) : Nat := min (os n).length fifoSz

namespace Harness

variable {clock : Nat → UInt64} {os : Fin 8 → List HftDispOrder} {x x' : Harness} {d : OrderDispatcher}
  {dl : Option UInt64}

def pushed (os : Fin 8 → List HftDispOrder) (x : Harness) : Nat := ∑ n, ((os n).length - (x.ahead n).length)

theorem sum_only (p : Option (Fin 8 × HftDispOrder)) : ∑ n, (only p n).length = p.isSome.toNat := by
  cases p with
  | none => rfl
  | some p =>
    obtain ⟨m, o⟩ := p
    simp only [only, apply_ite List.length, List.length_singleton, List.length_nil, Finset.sum_ite_eq,
      Finset.mem_univ, if_true]
    rfl

theorem pushed_of_ahead (hlen : ∀ n, (x.ahead n).length ≤ (os n).length)
    (h : ∀ n, only x.write n ++ x'.ahead n = x.ahead n) : x'.pushed os = x.pushed os + x.write.isSome.toNat := by
  rw [← sum_only, pushed, pushed, ← Finset.sum_add_distrib]
  refine Finset.sum_congr rfl fun n _ => ?_
  have := hlen n
  rw [← h n, List.length_append] at *
  omega

/-- The calls of `now_ms`, the readings of the deadline and the lanes marked as done. -/
structure Counted (clock : Nat → UInt64) (os : Fin 8 → List HftDispOrder) (dl : Option UInt64) (x : Harness) : Prop where
  wellFormed : x.csv.WellFormed
  deadline : x.deadline = dl
  calls : dl.isSome = true → x.calls = 2 * x.pushed os + 1 + x.current.isSome.toNat
  timely : ∀ d, dl = some d → ∀ k < x.pushed os, ¬ d ≤ clock (2 * k + 2)
  done : ∀ n, x.laneDone n = true → x.csv.orders n = [] ∧ (os n).length < fifoSz

/-- A bound on the accesses to come, as long as the harness does not go round in vain. -/
def potential (os : Fin 8 → List HftDispOrder) (x : Harness) : Nat :=
  4 * (∑ n, quota os n - x.pushed os) + ∑ n, (!x.laneDone n).toNat +
    match x.pc with
    | .pushStatus _ _ _ => 1
    | .poll => 2
    | .refresh _ => 3
    | _ => 0

theorem Counted.does (hc : Counted clock os dl x) (h : Does clock d x x') (ha : x'.Alive)
    (hroom : ∀ n o, x.current = some (n, o) → d.fifoFull n = false)
    (hlen : ∀ n, (x.ahead n).length ≤ (os n).length)
    (hshort : ∀ n, x.pc ≠ .refresh n → d.fifoFull n = false → x.ahead n = [] → (os n).length < fifoSz) :
    Counted clock os dl x' := by
  have hahead := (h.ahead ha hroom).1
  have hpushed := pushed_of_ahead hlen hahead
  cases h with
  | full hpc hfull =>
    have hx : x.current = none ∧ x.write = none := by
      rcases hpc with hpc | ⟨n, hpc⟩ <;> simp [current, Harness.write, hpc]
    rw [hx.2] at hpushed
    refine ⟨hc.wellFormed, hc.deadline, fun hdl => ?_, fun t ht k hk => ?_, hc.done⟩
    · have hcalls := hc.calls hdl
      rw [hx.1] at hcalls
      rw [hpushed]
      exact hcalls
    · rw [hpushed] at hk
      exact hc.timely t ht k hk
  | scan ns hpc hfull =>
    obtain ⟨hcur, hw, hns⟩ := scan_from hpc
    obtain ⟨hm, hend⟩ := scan_spec clock (hftDispGetStatus d.statusWord).fullMask ns x
    generalize scan clock (hftDispGetStatus d.statusWord).fullMask ns x = y at *
    rw [hw] at hpushed
    have hno : ∀ n, x.csv.orders n = [] → y.csv.orders n = [] := by
      intro n hn
      have hn' := hahead n
      rw [hw, ahead_of_none hcur, hn] at hn'
      exact (List.append_eq_nil_iff.1 (List.append_eq_nil_iff.1 hn').2).2
    refine ⟨hm.wellFormed hc.wellFormed, hm.deadline.trans hc.deadline, fun hdl => ?_, fun t ht k hk => ?_,
      fun n hn => ?_⟩
    · have hcalls := hc.calls hdl
      rw [hcur] at hcalls
      rw [hpushed]
      rcases hend with hp | hp | ⟨hp, hbad⟩
      · obtain ⟨n, o, t, hpc', -, -, -, -, -, -, hadd⟩ := hp
        have hcur' : y.current = some (n, o) := by simp [current, hpc']
        rw [hcur', hadd, hcalls]
        rfl
      · rw [(lane_loopHead hp.1).2, hp.2.2.1, hcalls]
        rfl
      · exact absurd hc.wellFormed hbad
    · rw [hpushed] at hk
      exact hc.timely t ht k hk
    · rcases hm.fresh n hn with hn | ⟨hmem, hmask, hos⟩
      · exact ⟨hno n (hc.done n hn).1, (hc.done n hn).2⟩
      · refine ⟨hno n hos, hshort n (hns n hmem) ?_ ?_⟩
        · rwa [status_full_lane] at hmask
        · rw [ahead_of_none hcur, hos]
  | @status n o dl' hpc =>
    have hw : x.write = none := by simp [Harness.write, hpc]
    rw [hw] at hpushed
    refine ⟨hc.wellFormed, hc.deadline, fun hdl => ?_, fun t ht k hk => ?_, hc.done⟩
    · have hcalls := hc.calls hdl
      rw [hpushed]
      simpa [current, hpc] using hcalls
    · rw [hpushed] at hk
      exact hc.timely t ht k hk
  | @write n o hpc =>
    have hw : x.write = some (n, o) := by simp [Harness.write, hpc]
    have hcur : x.current = some (n, o) := by simp [current, hpc]
    rw [hw] at hpushed
    obtain ⟨hcsv, hdone, hsame⟩ := checkDeadline_same clock x n
    have hnone : (x.checkDeadline clock n).current = none := by
      rcases checkDeadline_pc clock x n with hr | hr <;> simp [current, hr]
    have hcalls := hc.calls
    rw [hcur] at hcalls
    cases hdl : x.deadline with
    | none =>
      have hno : dl = none := hc.deadline.symm.trans hdl
      refine ⟨hcsv ▸ hc.wellFormed, hsame.trans hc.deadline, fun h => ?_, fun t ht => ?_, ?_⟩
      · rw [hno] at h; cases h
      · rw [hno] at ht; cases ht
      · rw [hcsv, hdone]; exact hc.done
    | some t =>
      have hsome : dl = some t := hc.deadline.symm.trans hdl
      have hcalls := hcalls (by rw [hsome]; rfl)
      have hcalls' : (x.checkDeadline clock n).calls = x.calls + 1 := by simp [checkDeadline, hdl]
      have hin : ¬ t ≤ clock x.calls := by
        intro hle
        have hr : (x.checkDeadline clock n).pc = .returned .etimedout := by simp [checkDeadline, hdl, hle]
        cases ha _ hr
      refine ⟨hcsv ▸ hc.wellFormed, hsame.trans hc.deadline, fun _ => ?_, fun t' ht k hk => ?_, ?_⟩
      · rw [hnone, hpushed, hcalls', hcalls]
        simp only [Option.isSome_some, Option.isSome_none, Bool.toNat_true, Bool.toNat_false]
        omega
      · rw [hpushed] at hk
        rcases Nat.lt_or_ge k (x.pushed os) with hlt | hge
        · exact hc.timely t' ht k hlt
        · have hk : k = x.pushed os := by
            simp only [Option.isSome_some, Bool.toNat_true] at hk; omega
          rw [← Option.some.inj (hsome.symm.trans ht), hk]
          rw [hcalls] at hin
          exact hin
      · rw [hcsv, hdone]; exact hc.done
  | rest hpc => exact hc

theorem notDone_le (h : ∀ m, x.laneDone m = true → x'.laneDone m = true) (m : Fin 8) :
    (!x'.laneDone m).toNat ≤ (!x.laneDone m).toNat := by
  cases hx : x.laneDone m with
  | true => rw [h m hx]
  | false => cases x'.laneDone m <;> simp

theorem Does.returns {rc : Rc} (h : Does clock d x x') (hrun : x.Running) (hret : x'.pc = .returned rc) :
    (rc = .ok ∧ ((∀ n, d.fifoFull n = true) ∨ ∀ n, x'.laneDone n = true)) ∨
    (rc = .einval ∧ ¬ x.csv.WellFormed) ∨
    (rc = .etimedout ∧ ∃ n o t, x.current = some (n, o) ∧ x.deadline = some t ∧ t ≤ clock x.calls) := by
  cases h with
  | full hpc hfull =>
    cases hret
    exact .inl ⟨rfl, .inl hfull⟩
  | scan ns hpc hfull =>
    obtain ⟨-, ⟨n, o, t, hpc', -⟩ | hhead | ⟨hbad, hwf⟩⟩ := scan_spec clock (hftDispGetStatus d.statusWord).fullMask ns x
    · rw [hpc'] at hret; cases hret
    · have hpc' := loopHead_pc hhead.1
      rw [hret] at hpc'
      split at hpc'
      · cases hpc'
        exact .inl ⟨rfl, .inr (by assumption)⟩
      · cases hpc'
    · rw [hbad] at hret; cases hret
      exact .inr (.inl ⟨rfl, hwf⟩)
  | status hpc => cases hret
  | @write n o hpc =>
    cases hdl : x.deadline with
    | none => simp [checkDeadline, hdl] at hret
    | some t =>
      by_cases hle : t ≤ clock x.calls
      · simp only [checkDeadline, hdl, if_pos hle, Pc.returned.injEq] at hret
        exact .inr (.inr ⟨hret.symm, n, o, t, by simp [current, hpc], rfl, hle⟩)
      · simp [checkDeadline, hdl, hle] at hret
  | rest hpc => exact absurd hpc (hrun _)

/-- Every access brings the loading nearer to its end, but for a pass over the lanes that finds each of them
done or full. -/
theorem Does.potential_lt (h : Does clock d x x') (hrun : x.Running) (hrun' : x'.Running)
    (hroom : ∀ n o, x.current = some (n, o) → d.fifoFull n = false)
    (hlen : ∀ n, (x.ahead n).length ≤ (os n).length) (hquota : x'.pushed os ≤ ∑ n, quota os n)
    (hmove : x.pc = .poll → (∀ n, x.laneDone n = true ∨ d.fifoFull n = true) →
      (∀ n, d.fifoFull n = true) ∨ ∀ n, x.laneDone n = true) : x'.potential os < x.potential os := by
  have hpushed := pushed_of_ahead hlen (h.ahead (fun rc hrc => absurd hrc (hrun' rc)) hroom).1
  cases h with
  | full hpc hfull => exact absurd rfl (hrun' .ok)
  | scan ns hpc hfull =>
    obtain ⟨hm, hend⟩ := scan_spec clock (hftDispGetStatus d.statusWord).fullMask ns x
    generalize Harness.scan clock (hftDispGetStatus d.statusWord).fullMask ns x = y at *
    rw [(scan_from hpc).2.1] at hpushed
    have hp : y.pushed os = x.pushed os := hpushed
    have hle := Finset.sum_le_sum fun m (_ : m ∈ Finset.univ) => notDone_le hm.done m
    rcases hend with ⟨n, o, t, hpc', -⟩ | hhead | ⟨hbad, -⟩
    · rcases hpc with ⟨hpc, -⟩ | ⟨m, hpc, -⟩ <;> simp only [potential, hp, hpc, hpc'] <;> omega
    · have hpc' := loopHead_pc hhead.1
      have hnot : ¬ ∀ n, y.laneDone n = true := fun hall => hrun' _ (hpc'.trans (if_pos hall))
      rw [if_neg hnot] at hpc'
      rcases hpc with ⟨hpc, rfl⟩ | ⟨m, hpc, -⟩
      · obtain ⟨m, hx, hy⟩ : ∃ m, ¬ x.laneDone m = true ∧ y.laneDone m = true := by
          -- otherwise no lane has been marked, and each of them was done or full before
          by_contra hno
          have hback : ∀ n, x.laneDone n = true ∨ d.fifoFull n = true := by
            intro n
            refine (hhead.2.2.2 n (List.mem_finRange n)).imp (fun h => ?_) fun h => ?_
            · by_contra hx
              exact hno ⟨n, hx, h⟩
            · rwa [status_full_lane] at h
          rcases hmove hpc hback with hall | hall
          · exact hfull hall
          · exact hnot fun n => hm.done n (hall n)
        have hlt := Finset.sum_lt_sum (fun m (_ : m ∈ Finset.univ) => notDone_le hm.done m)
          ⟨m, Finset.mem_univ m, by simp [hx, hy]⟩
        simp only [potential, hp, hpc, hpc']
        omega
      · simp only [potential, hp, hpc, hpc']
        omega
    · exact absurd hbad (hrun' _)
  | @status n o t hpc =>
    rw [show x.write = none by simp [Harness.write, hpc]] at hpushed
    simp only [potential, hpushed, hpc]
    simp
  | @write n o hpc =>
    rw [show x.write = some (n, o) by simp [Harness.write, hpc]] at hpushed
    have hpc' : (x.checkDeadline clock n).pc = .refresh n :=
      (checkDeadline_pc clock x n).resolve_right (hrun' _)
    rw [hpushed] at hquota
    simp only [potential, hpushed, hpc, hpc', (checkDeadline_same clock x n).2.1, Option.isSome_some,
      Bool.toNat_true] at hquota ⊢
    omega
  | rest hpc => exact absurd hpc (hrun _)

end Harness

namespace Load

variable {clock : Nat → UInt64} {os : Fin 8 → List HftDispOrder} {q : Load} {j : LoadIn} {dl : Option UInt64}

/-! ### What the FIFOs contain -/

theorem Loading.lengths (h : Loading os q) (n : Fin 8) : (q.board.2.batch.written n).length +
    (q.board.1.disp.stores q.board.1.dispIn n).length + (q.sw.ahead n).length = (os n).length := by
  have := congrArg List.length (h.orders n)
  simpa only [List.length_append, List.length_map] using this

theorem Loading.written_le (h : Loading os q) (n : Fin 8) :
    (q.board.2.batch.written n).length + (q.board.1.disp.stores q.board.1.dispIn n).length ≤ fifoSz := by
  have hle := ((h.ctrl.disp.step q.board.1.dispIn).queue n).le
  rw [Batch.next, if_neg (by simp [h.write])] at hle
  simpa only [List.length_append] using hle

theorem Loading.full_iff (h : Loading os q) (n : Fin 8) :
    q.board.1.disp.fifoFull n = true ↔ (q.board.2.batch.written n).length = fifoSz := by
  have hph := h.ctrl.disp.phase
  simp only [OrderDispatcher.Phase, h.write] at hph
  have hocc := (h.ctrl.disp.queue n).occupancy_eq
  rw [(hph n).1, List.length_nil, Nat.add_zero] at hocc
  simp only [OrderDispatcher.fifoFull, DispatchFifoBram.full, decide_eq_true_iff, hocc]

theorem Loading.stores_nil (h : Loading os q) {n : Fin 8} (hpc : q.sw.pc ≠ .refresh n) :
    q.board.1.disp.stores q.board.1.dispIn n = [] := by
  simp [OrderDispatcher.stores, Top.dispIn, h.no_flight hpc]

theorem Loading.lane_le (h : Loading os q) (n : Fin 8) : (os n).length - (q.sw.ahead n).length ≤ quota os n := by
  have h1 := h.lengths n
  have h2 := h.written_le n
  simp only [quota]
  omega

theorem Loading.pushed_lt (h : Loading os q) {n : Fin 8} {o : HftDispOrder} (hc : q.sw.current = some (n, o)) :
    q.sw.pushed os < ∑ n, quota os n := by
  refine Finset.sum_lt_sum (fun n _ => h.lane_le n) ⟨n, Finset.mem_univ n, ?_⟩
  have hpc : q.sw.pc ≠ .refresh n := fun hpc => by simp [Harness.current, hpc] at hc
  have h1 := h.lengths n
  have h2 := h.written_le n
  have h3 : ¬ (q.board.2.batch.written n).length = fifoSz := fun he => by
    have := h.room n o hc
    rw [(h.full_iff n).2 he] at this; cases this
  have h4 : 0 < (q.sw.ahead n).length := by simp [Harness.ahead, Harness.only, hc]
  rw [h.stores_nil hpc] at h1 h2
  simp only [quota, List.length_nil] at h1 h2 ⊢
  omega

theorem Loading.short (h : Loading os q) (n : Fin 8) (hpc : q.sw.pc ≠ .refresh n)
    (hfull : q.board.1.disp.fifoFull n = false) (ha : q.sw.ahead n = []) : (os n).length < fifoSz := by
  have h1 := h.lengths n
  have h2 := h.written_le n
  have h3 : ¬ (q.board.2.batch.written n).length = fifoSz := fun he => by
    rw [(h.full_iff n).2 he] at hfull; cases hfull
  rw [h.stores_nil hpc, ha] at h1
  rw [h.stores_nil hpc] at h2
  simp only [List.length_nil] at h1 h2
  omega

/-- A lane that is done or full has taken its quota. -/
theorem Loading.pushed_eq (h : Loading os q) (hc : Harness.Counted clock os dl q.sw) (hpc : q.sw.pc = .poll)
    (hall : ∀ n, q.sw.laneDone n = true ∨ q.board.1.disp.fifoFull n = true) :
    q.sw.pushed os = ∑ n, quota os n := by
  have hcur : q.sw.current = none := by simp [Harness.current, hpc]
  refine Finset.sum_congr rfl fun n _ => ?_
  have h1 := h.lengths n
  have h2 := h.written_le n
  simp only [quota]
  rcases hall n with hn | hn
  · obtain ⟨hos, hlt⟩ := hc.done n hn
    rw [Harness.ahead_of_none hcur, hos, List.length_nil]
    omega
  · have := (h.full_iff n).1 hn
    omega

/-- Lanes with orders for a full FIFO only, or lanes without, or a reading of the clock past the deadline. -/
def Ends (clock : Nat → UInt64) (os : Fin 8 → List HftDispOrder) (dl : Option UInt64) : Prop :=
  (∀ n, fifoSz ≤ (os n).length) ∨ (∀ n, (os n).length < fifoSz) ∨
    ∃ d, dl = some d ∧ ∃ k < ∑ n, quota os n, d ≤ clock (2 * k + 2)

theorem Loading.moves (h : Loading os q) (hc : Harness.Counted clock os dl q.sw) (he : Ends clock os dl)
    (hpc : q.sw.pc = .poll) (hall : ∀ n, q.sw.laneDone n = true ∨ q.board.1.disp.fifoFull n = true) :
    (∀ n, q.board.1.disp.fifoFull n = true) ∨ ∀ n, q.sw.laneDone n = true := by
  rcases he with hlong | hshort | ⟨d, hd, k, hk, hle⟩
  · refine .inl fun n => (hall n).resolve_left fun hn => ?_
    exact absurd (hc.done n hn).2 (Nat.not_lt.2 (hlong n))
  · refine .inr fun n => (hall n).resolve_right fun hn => ?_
    have h1 := h.lengths n
    have h2 := (h.full_iff n).1 hn
    have h3 := hshort n
    omega
  · rw [← h.pushed_eq hc hpc hall] at hk
    exact absurd hle (hc.timely d hd k hk)

/-! ### Runs in `WRITE` -/

/-- How the loading ends: with the FIFOs full, or with the files read to their ends, or late. -/
def Ended (clock : Nat → UInt64) (os : Fin 8 → List HftDispOrder) (dl : Option UInt64) (q : Load) : Prop :=
  ∀ rc, q.sw.pc = .returned rc →
    (rc = .ok ∧ Loading os q ∧ ((∀ n, q.board.1.disp.fifoFull n = true) ∨
      ∀ n, q.sw.csv.orders n = [] ∧ (os n).length < fifoSz)) ∨
    (rc = .etimedout ∧ ∃ d, dl = some d ∧ ∃ k < ∑ n, quota os n, d ≤ clock (2 * k + 2))

theorem Loading.full_stays (h : Loading os q) (h' : Loading os (Load.next clock q j)) (hres : q.resets j = false)
    {n : Fin 8} (hn : q.board.1.disp.fifoFull n = true) : (Load.next clock q j).board.1.disp.fifoFull n = true := by
  have h1 := (h.full_iff n).1 hn
  have h2 := h'.written_le n
  rw [h'.full_iff]
  rw [next_board_tick clock hres, h.written_next, List.length_append] at h2 ⊢
  omega

theorem Loading.counted (h : Loading os q) (hc : Harness.Counted clock os dl q.sw) (hres : q.resets j = false)
    (ha : (Load.next clock q j).sw.Alive) : Harness.Counted clock os dl (Load.next clock q j).sw := by
  rw [next_sw, status_tick hres] at ha ⊢
  cases hgo : j.go with
  | false => exact hc
  | true =>
    simp only [hgo, if_true] at ha ⊢
    exact hc.does (h.sw.does clock h.write h.room) ha h.room
      (fun n => by have := h.lengths n; omega) h.short

theorem Loading.ended (h : Loading os q) (hc : Harness.Counted clock os dl q.sw) (hrun : q.sw.Running)
    (hres : q.resets j = false) (hb : q.board.1.dispBeginDispatchPulse = false) :
    Ended clock os dl (Load.next clock q j) := by
  intro rc hret
  have hgo : j.go = true := by
    by_contra hg
    rw [next_sw, if_neg hg] at hret
    exact hrun _ hret
  have hsw : (Load.next clock q j).sw = q.sw.step clock (hftDispGetStatus q.board.1.disp.statusWord) := by
    rw [next_sw, if_pos hgo, status_tick hres]
  have hdoes := h.sw.does clock h.write h.room
  rw [← hsw] at hdoes
  rcases hdoes.returns hrun hret with ⟨rfl, hok⟩ | ⟨rfl, hbad⟩ | ⟨rfl, n, o, t, hcur, ht, hle⟩
  · have ha : (Load.next clock q j).sw.Alive := fun rc hrc => by rw [hret] at hrc; cases hrc; rfl
    have h' := h.next hres hb ha
    refine .inl ⟨rfl, h', hok.imp (fun hall n => h.full_stays h' hres (hall n)) fun hall n => ?_⟩
    exact (h.counted hc hres ha).done n (hall n)
  · exact absurd hc.wellFormed hbad
  · have hdl : dl = some t := hc.deadline.symm.trans ht
    have hcalls := hc.calls (by rw [hdl]; rfl)
    rw [hcur] at hcalls
    refine .inr ⟨rfl, t, hdl, q.sw.pushed os, h.pushed_lt hcur, ?_⟩
    rwa [hcalls] at hle

theorem Ended.next (h : Ended clock os dl q) {rc : Rc} (hret : q.sw.pc = .returned rc) (hres : q.resets j = false)
    (hb : q.board.1.dispBeginDispatchPulse = false) : Ended clock os dl (Load.next clock q j) := by
  have hsw : (Load.next clock q j).sw = q.sw := by
    rw [next_sw]
    cases j.go with
    | true => exact Harness.step_returned hret _
    | false => rfl
  intro rc' hret'
  rw [hsw] at hret'
  rcases h rc' hret' with ⟨rfl, hl, hok⟩ | hlate
  · have ha : (Load.next clock q j).sw.Alive := fun rc hrc => by rw [hsw, hret'] at hrc; cases hrc; rfl
    have h' := hl.next hres hb ha
    refine .inl ⟨rfl, h', hok.imp (fun hall n => hl.full_stays h' hres (hall n)) fun hall => ?_⟩
    rwa [hsw]
  · exact .inr hlate

/-- The dispatcher stays in `WRITE`. -/
def Stays (clock : Nat → UInt64) : Load → List LoadIn → Prop :=
  Along clock fun q j => q.resets j = false ∧ (next clock q j).board.1.disp.state = .write

theorem no_dispatch (hst : q.board.1.disp.state = .write) (hres : q.resets j = false)
    (hst' : (next clock q j).board.1.disp.state = .write) : q.board.1.dispBeginDispatchPulse = false := by
  rw [next_board_tick clock hres] at hst'
  have hst' : q.board.1.disp.nextState q.board.1.dispIn = .write := hst'
  by_contra hb
  simp [OrderDispatcher.nextState, hst, Top.dispIn, Bool.not_eq_false _ ▸ hb] at hst'

/-- While the dispatcher stays in `WRITE` the loading goes on until it ends. -/
theorem run_loading (h0 : Loading os q) (hc0 : Harness.Counted clock os dl q.sw) (hrun0 : q.sw.Running)
    {js : List LoadIn} (hs : Stays clock q js) :
    (run clock q js).board.1.disp.state = .write ∧ Ended clock os dl (run clock q js) ∧
      ((run clock q js).sw.Running → Loading os (run clock q js) ∧ Harness.Counted clock os dl (run clock q js).sw) := by
  induction js using List.reverseRecOn with
  | nil => exact ⟨h0.write, fun rc hrc => absurd hrc (hrun0 rc), fun _ => ⟨h0, hc0⟩⟩
  | append_singleton js j ih =>
    obtain ⟨hjs, hres, hst'⟩ := hs.init
    obtain ⟨hst, hend, hload⟩ := ih hjs
    have hb := no_dispatch hst hres hst'
    rw [run_snoc]
    refine ⟨hst', ?_, fun hrun => ?_⟩
    · by_cases hrun : (run clock q js).sw.Running
      · exact (hload hrun).1.ended (hload hrun).2 hrun hres hb
      · simp only [Harness.Running, not_forall, not_not] at hrun
        obtain ⟨rc, hrc⟩ := hrun
        exact hend.next hrc hres hb
    · obtain ⟨hl, hc⟩ := hload (running_of_next hrun)
      have ha : (next clock (run clock q js) j).sw.Alive := fun rc hrc => absurd hrc (hrun rc)
      exact ⟨hl.next hres hb ha, hl.counted hc hres ha⟩

/-- The number of accesses is bounded if the loading can end. -/
theorem accesses_le (h0 : Loading os q) (hc0 : Harness.Counted clock os dl q.sw) (hrun0 : q.sw.Running)
    (he : Ends clock os dl) {js : List LoadIn} (hs : Stays clock q js) (hrun : (run clock q js).sw.Running) :
    js.countP LoadIn.go + (run clock q js).sw.potential os ≤ q.sw.potential os := by
  induction js using List.reverseRecOn with
  | nil => simp [run]
  | append_singleton js j ih =>
    obtain ⟨hjs, hres, hst'⟩ := hs.init
    rw [run_snoc] at hrun ⊢
    have hrunj := running_of_next hrun
    obtain ⟨hst, -, hload⟩ := run_loading h0 hc0 hrun0 hjs
    obtain ⟨hl, hc⟩ := hload hrunj
    have hb := no_dispatch hst hres hst'
    have ih := ih hjs hrunj
    rw [List.countP_append, List.countP_singleton]
    have ha : (next clock (run clock q js) j).sw.Alive := fun rc hrc => absurd hrc (hrun rc)
    have hl' := hl.next hres hb ha
    cases hgo : j.go with
    | false =>
      have hsw : (next clock (run clock q js) j).sw = (run clock q js).sw := by rw [next_sw, hgo]; rfl
      rw [hsw]
      simpa using ih
    | true =>
      have hsw : (next clock (run clock q js) j).sw =
          (run clock q js).sw.step clock (hftDispGetStatus (run clock q js).board.1.disp.statusWord) := by
        rw [next_sw, hgo, if_pos rfl, status_tick hres]
      have hdoes := hl.sw.does clock hl.write hl.room
      rw [← hsw] at hdoes
      have hlt := hdoes.potential_lt hrunj hrun hl.room (fun n => by have := hl.lengths n; omega)
        (Finset.sum_le_sum fun n _ => hl'.lane_le n) (hl.moves hc he)
      simp only [if_true]
      omega

/-- The overall deadline, if there is one. -/
def deadlineOf (clock : Nat → UInt64) (timeoutMs : Int) : Option UInt64 :=
  if timeoutMs < 0 then none else some (clock 0 + UInt64.ofNat timeoutMs.toNat)

theorem start_running (clock : Nat → UInt64) (timeoutMs : Int) (csv : LaneCsvReader) :
    (Harness.start clock timeoutMs csv).Running := by
  intro rc h
  unfold Harness.start at h
  split at h <;> cases h

theorem start_counted (clock : Nat → UInt64) (timeoutMs : Int) {files : Fin 8 → List Char}
    (hrows : ∀ n, RowsOk (Stdio.lines 256 (files n))) :
    Harness.Counted clock (fileOrders files) (deadlineOf clock timeoutMs)
      (Harness.start clock timeoutMs (csvRewindAll files)) := by
  have hahead : (Harness.start clock timeoutMs (csvRewindAll files)).ahead = fileOrders files := by
    rw [Harness.ahead_of_none (by unfold Harness.start; split <;> rfl)]
    unfold Harness.start
    split <;> rfl
  have hzero : (Harness.start clock timeoutMs (csvRewindAll files)).pushed (fileOrders files) = 0 := by
    simp [Harness.pushed, hahead]
  refine ⟨?_, ?_, fun hdl => ?_, fun d _ k hk => ?_, fun n hn => ?_⟩
  · unfold Harness.start
    split <;> exact hrows
  · unfold Harness.start deadlineOf
    split <;> rfl
  · rw [hzero]
    unfold deadlineOf at hdl
    split at hdl
    · cases hdl
    · rename_i hneg
      simp [Harness.start, hneg, Harness.current]
  · rw [hzero] at hk; cases hk
  · unfold Harness.start at hn
    split at hn <;> cases hn

theorem Ended.contents (h : Ended clock os dl q) (hret : q.sw.pc = .returned .ok) (n : Fin 8) :
    (q.board.1.disp.fifo n).contents = ((os n).take fifoSz).map hftDispPackOrderWord := by
  rcases h _ hret with ⟨-, hl, hok⟩ | ⟨hno, -⟩
  · have hpre := hl.contents n
    have hw := hl.ctrl.disp.contents_write hl.write n
    rw [List.map_take]
    rcases hok with hfull | hdone
    · rw [List.prefix_iff_eq_take.1 hpre]
      congr 1
      rw [hw]
      exact (hl.full_iff n).1 (hfull n)
    · have hos := hl.orders n
      have hahead : q.sw.ahead n = [] := by
        rw [Harness.ahead_of_none (by simp [Harness.current, hret])]
        exact (hdone n).1
      rw [hl.stores_nil (by simp [hret]), hahead, List.map_nil, List.append_nil, List.append_nil] at hos
      rw [hw, hos, List.take_of_length_le]
      rw [List.length_map]
      exact Nat.le_of_lt (hdone n).2
  · cases hno

/-- While the dispatcher stays in `WRITE` the loading returns after a bounded number of accesses: 0 with the
first orders of each file in its FIFO, as many as fit, or `-ETIMEDOUT` past the deadline. -/
def Finishes (clock : Nat → UInt64) (timeoutMs : Int) (files : Fin 8 → List Char) : Prop :=
  (∃ bound, ∀ is js, (Top.run is).1.Ready (Top.run is).2 → Stays clock (call clock timeoutMs files is) js →
    bound ≤ js.countP LoadIn.go → ∃ rc, (run clock (call clock timeoutMs files is) js).sw.pc = .returned rc) ∧
  ∀ is js rc, (Top.run is).1.Ready (Top.run is).2 → Stays clock (call clock timeoutMs files is) js →
    (run clock (call clock timeoutMs files is) js).sw.pc = .returned rc →
    (rc = .ok ∧ ∀ n, ((run clock (call clock timeoutMs files is) js).board.1.disp.fifo n).contents =
      ((fileOrders files n).take fifoSz).map hftDispPackOrderWord) ∨
    (rc = .etimedout ∧ ∃ d, deadlineOf clock timeoutMs = some d ∧ ∃ k, d ≤ clock k)

section Finishes

variable {timeoutMs : Int} {files : Fin 8 → List Char}

theorem finishes_of_ends (hrows : ∀ n, RowsOk (Stdio.lines 256 (files n)))
    (he : Ends clock (fileOrders files) (deadlineOf clock timeoutMs)) : Finishes clock timeoutMs files := by
  have hc0 := start_counted clock timeoutMs hrows
  have hrun0 := start_running clock timeoutMs (csvRewindAll files)
  refine ⟨⟨(Harness.start clock timeoutMs (csvRewindAll files)).potential (fileOrders files) + 1,
    fun is js hready hs hle => ?_⟩, fun is js rc hready hs hret => ?_⟩
  · by_contra hno
    have hrun : (run clock (call clock timeoutMs files is) js).sw.Running := fun rc hrc => hno ⟨rc, hrc⟩
    have := accesses_le (Loading.call timeoutMs files is hready) hc0 hrun0 he hs hrun
    change _ ≤ (Harness.start clock timeoutMs (csvRewindAll files)).potential (fileOrders files) at this
    omega
  · obtain ⟨-, hend, -⟩ := run_loading (Loading.call timeoutMs files is hready) hc0 hrun0 hs
    rcases hend rc hret with ⟨rfl, -⟩ | ⟨rfl, d, hd, k, -, hle⟩
    · exact .inl ⟨rfl, hend.contents hret⟩
    · exact .inr ⟨rfl, d, hd, _, hle⟩

theorem ends_of_returned (hrows : ∀ n, RowsOk (Stdio.lines 256 (files n))) {is : List TopIn} {js : List LoadIn}
    {rc : Rc} (hready : (Top.run is).1.Ready (Top.run is).2) (hs : Stays clock (call clock timeoutMs files is) js)
    (hret : (run clock (call clock timeoutMs files is) js).sw.pc = .returned rc) :
    Ends clock (fileOrders files) (deadlineOf clock timeoutMs) := by
  obtain ⟨-, hend, -⟩ := run_loading (Loading.call timeoutMs files is hready) (start_counted clock timeoutMs hrows)
    (start_running clock timeoutMs (csvRewindAll files)) hs
  rcases hend rc hret with ⟨-, hl, hfull | hdone⟩ | ⟨-, hlate⟩
  · refine .inl fun n => ?_
    have h1 := hl.lengths n
    have h2 := (hl.full_iff n).1 (hfull n)
    omega
  · exact .inr (.inl fun n => (hdone n).2)
  · exact .inr (.inr hlate)

end Finishes

/-- In `WRITE` with the buttons up. -/
structure Quiet (q : Load) : Prop where
  rst : q.board.1.rstPipe0 = true ∧ q.board.1.rstPipe1 = true
  key : q.board.1.keyS0 = 0xF ∧ q.board.1.keyS1 = 0xF ∧ q.board.1.keyPrev = 0xF
  pulse : q.board.1.avl.dispBeginDispatchPulse = false
  write : q.board.1.disp.state = .write

theorem Quiet.next (h : Quiet q) (clock : Nat → UInt64) : q.resets ⟨0xF, true⟩ = false ∧ Quiet (Load.next clock q ⟨0xF, true⟩) := by
  have hres : q.resets ⟨0xF, true⟩ = false := by
    simp [resets, Top.inReset, topIn, h.rst.2]
  have hb : q.board.1.dispBeginDispatchPulse = false := by
    simp [Top.dispBeginDispatchPulse, h.pulse, Top.keyPressPulse, h.key.2.1, h.key.2.2]
  refine ⟨hres, ?_, ?_, ?_, ?_⟩ <;> rw [next_board_tick clock hres]
  · exact ⟨rfl, h.rst.1⟩
  · exact ⟨rfl, h.key.1, h.key.2.1⟩
  · exact busBit_topIn q _ 1
  · show q.board.1.disp.nextState q.board.1.dispIn = .write
    simp [OrderDispatcher.nextState, h.write, Top.dispIn, hb]

theorem Quiet.stays (h : Quiet q) (clock : Nat → UInt64) (t : Nat) : Stays clock q (List.replicate t ⟨0xF, true⟩) := by
  induction t generalizing q with
  | zero => exact .nil
  | succ t ih =>
    obtain ⟨hres, hq⟩ := h.next clock
    exact .cons ⟨hres, hq.write⟩ (ih hq)

theorem keyOne_quiet (clock : Nat → UInt64) (timeoutMs : Int) (files : Fin 8 → List Char) : Quiet (call clock timeoutMs files keyOne) := by
  have h : (Top.run keyOne).1.rstPipe0 = true ∧ (Top.run keyOne).1.rstPipe1 = true ∧
      (Top.run keyOne).1.keyS0 = 0xF ∧ (Top.run keyOne).1.keyS1 = 0xF ∧ (Top.run keyOne).1.keyPrev = 0xF ∧
      (Top.run keyOne).1.avl.dispBeginDispatchPulse = false := by
    decide +kernel
  obtain ⟨h0, h1, hk0, hk1, hk2, hp⟩ := h
  exact ⟨⟨h0, h1⟩, ⟨hk0, hk1, hk2⟩, hp, keyOne_ready.write⟩

theorem ends_of_finishes {timeoutMs : Int} {files : Fin 8 → List Char}
    (hrows : ∀ n, RowsOk (Stdio.lines 256 (files n))) (hf : Finishes clock timeoutMs files) :
    Ends clock (fileOrders files) (deadlineOf clock timeoutMs) := by
  obtain ⟨⟨bound, hbound⟩, -⟩ := hf
  have hs := (keyOne_quiet clock timeoutMs files).stays clock bound
  obtain ⟨rc, hret⟩ := hbound keyOne _ keyOne_ready hs (by simp [List.countP_replicate])
  exact ends_of_returned hrows keyOne_ready hs hret

/-- The loading finishes if and only if each lane has orders enough to fill its FIFO, or none has, or the
clock is past the deadline after one of the pushes: `now_ms` is called once at the start and twice for each
push. -/
theorem loading_finishes_iff (clock : Nat → UInt64) (timeoutMs : Int) (files : Fin 8 → List Char)
    (hrows : ∀ n, RowsOk (Stdio.lines 256 (files n))) :
    Finishes clock timeoutMs files ↔
      (∀ n, fifoSz ≤ (fileOrders files n).length) ∨ (∀ n, (fileOrders files n).length < fifoSz) ∨
        ∃ d, deadlineOf clock timeoutMs = some d ∧
          ∃ k < ∑ n, min (fileOrders files n).length fifoSz, d ≤ clock (2 * k + 2) :=
  ⟨ends_of_finishes hrows, finishes_of_ends hrows⟩

theorem loading_finishes_iff_twoRows : Finishes (fun _ => 0) 30000 twoRows :=
  (loading_finishes_iff _ _ _ (by decide)).2 (.inr (.inl (by decide)))

def bidRow : List Char := ['B', 'I', 'D', ',', '5', ',', '3', '\n']

/-- Orders enough for lane 0, and none for the others. -/
def oneLong (n : Fin 8) : List Char := if n = 0 then (List.replicate fifoSz bidRow).flatten else []

theorem lines_bidRows (k : Nat) :
    Stdio.lines 256 (List.replicate k bidRow).flatten = List.replicate k bidRow := by
  induction k with
  | zero => rfl
  | succ k ih =>
    have hrow : bidRow ++ (List.replicate k bidRow).flatten =
        ['B', 'I', 'D', ',', '5', ',', '3'] ++ '\n' :: (List.replicate k bidRow).flatten := rfl
    rw [List.replicate_succ, List.flatten_cons, hrow, Stdio.lines_line (by decide) (by decide), ih]
    rfl

theorem ordersIn_bidRows (k : Nat) : ordersIn (List.replicate k bidRow) = List.replicate k ⟨1, 5, 3⟩ := by
  induction k with
  | zero => rfl
  | succ k ih =>
    have hrow : rowOrder bidRow = some ⟨1, 5, 3⟩ := by decide
    rw [List.replicate_succ, ordersIn, if_neg (by decide), hrow, ih]
    rfl

theorem oneLong_spins : ¬ ∀ clock timeoutMs files, (∀ n, RowsOk (Stdio.lines 256 (files n))) →
    Finishes clock timeoutMs files := by
  intro hall
  have hlines : Stdio.lines 256 (oneLong 0) = List.replicate fifoSz bidRow := lines_bidRows _
  have hnone : ∀ n, n ≠ 0 → oneLong n = [] := fun n hn => if_neg hn
  have hrows : ∀ n, RowsOk (Stdio.lines 256 (oneLong n)) := by
    intro n l hl
    by_cases hn : n = 0
    · rw [hn, hlines] at hl
      rw [List.eq_of_mem_replicate hl]
      decide
    · rw [hnone n hn] at hl; cases hl
  have hlong : (fileOrders oneLong 0).length = fifoSz := by
    rw [fileOrders, hlines, ordersIn_bidRows, List.length_replicate]
  rcases ends_of_finishes hrows (hall (fun _ => 0) 30000 oneLong hrows) with h | h | ⟨d, hd, k, -, hk⟩
  · exact absurd (h 1) (by decide)
  · exact absurd (h 0) (by rw [hlong]; exact lt_irrefl _)
  · rw [← Option.some.inj hd] at hk
    have hk : (0 : UInt64) + UInt64.ofNat (Int.toNat 30000) ≤ 0 := hk
    exact absurd hk (by decide)

end Load

end HftSim
