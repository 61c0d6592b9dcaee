import HftSim.MmuMemory

/-!
# Delivery

Every accepted request is at one place inside the MMU and moves on: `Due s x r n` bounds by `n` the
cycles until the answer to `r`, whatever the other clients do, since nothing overtakes `r` in a FIFO
and walkers and banks take a bounded number of cycles for each request.
-/

namespace HftSim

open Function

namespace MmuSys

/-- How often the registers of a place hold the request; a response buffer only has its address. -/
def copies (s : MmuSys) (r : Req) : Loc → Nat
  | .inFifo w => ((s.mmu.inFifo w).toList 8).count r
  | .walker w => if (s.mmu.ptw w).busy = true ∧ s.mmu.pipe w = r then 1 else 0
  | .bankFifo b => (((s.mmu.bankFifo b).toList 4).map BankEntry.req).count r
  | .bank b => if s.busy b = true ∧ s.token b = r then 1 else 0
  | .respBuf b => if (s.mmu.respBuf b).valid = true ∧ (s.mmu.respBuf b).va = r.va then 1 else 0

def walkRem : WalkState → Nat
  | .idle => 0
  | .lookup => 3
  | .allocate => 2
  | .done => 1
  | .fault => 1

/-- Cycles until a request in a walker is answered. -/
def walkDue : WalkState → Nat
  | .idle => 0
  | .lookup => 18
  | .allocate => 17
  | .done => 16
  | .fault => 0

/-- Cycles until bank `b` takes a request. -/
def bankRem (s : MmuSys) (b : Fin 4) : Nat :=
  match (s.bank b).state with
  | .idle => if (s.mmu.respBuf b).valid then 1 else 0
  | .phase0 => 4
  | .phase1 => 3
  | .phase2 => 2
  | .doneRead => 1

/-- Cycles until a request in a bank is answered. -/
def bankDue : BankState → Nat
  | .idle => 1
  | .phase0 => 5
  | .phase1 => 4
  | .phase2 => 3
  | .doneRead => 2

inductive Due (s : MmuSys) (x : MmuGhost) (r : Req) : Nat → Prop
  | inFifo {w i} (h : ((s.mmu.inFifo w).toList 8)[i]? = some r) :
      Due s x r (19 + 4 * i + walkRem (s.mmu.ptw w).state)
  | walker {w} (h : (s.mmu.ptw w).state ≠ .idle) (hp : s.mmu.pipe w = r) :
      Due s x r (walkDue (s.mmu.ptw w).state)
  | bankFifo {b j t} (h : ((s.mmu.bankFifo b).toList 4)[j]? = some t) (ht : t.req = r) :
      Due s x r (6 + 5 * j + s.bankRem b)
  | bank {b} (hb : s.busy b = true) (ht : s.token b = r) : Due s x r (bankDue (s.bank b).state)
  | respBuf {b} (hv : (s.mmu.respBuf b).valid = true) (hb : x.buf b = r) : Due s x r 0

variable {s : MmuSys} {c : Clients} {x : MmuGhost} {o : Fin 8 → Option Req} {w : Bool} {b : Fin 4}
  {r : Req} {n : Nat}

theorem getElem?_afterEdge {α : Type} {l l' xs : List α} {rd : Bool} {i : Nat} {y : α}
    (hl : l' = afterEdge l xs rd) (h : l[i]? = some y) (hi : rd = true → i ≠ 0) :
    l'[if rd then i - 1 else i]? = some y := by
  have hlt := (List.getElem?_eq_some_iff.1 h).1
  rw [hl, afterEdge]
  cases rd with
  | false => rw [List.getElem?_append_left (by simpa using hlt)]; simpa using h
  | true =>
    have h0 := hi rfl
    simp only [if_true]
    rw [List.getElem?_append_left (by rw [List.length_drop]; omega), List.getElem?_drop,
      show 1 + (i - 1) = i by omega]
    exact h

theorem walkRem_step (hst : (s.mmu.ptw w).state ≠ .idle) :
    walkRem ((s.step o).mmu.ptw w).state < walkRem (s.mmu.ptw w).state := by
  rw [walk_state]
  cases hs : (s.mmu.ptw w).state with
  | idle => exact absurd hs hst
  | lookup => cases (s.mmu.ptRdata w).valid <;> simp [walkRem]
  | allocate => cases s.mmu.allocAvail w <;> simp [walkRem]
  | done => simp [walkRem]
  | fault => simp [walkRem]

theorem bankRem_le (s : MmuSys) (b : Fin 4) : s.bankRem b ≤ 4 := by
  unfold bankRem
  split
  · split <;> decide
  all_goals decide

theorem bankRem_step (h : s.Inv c x) (hcnt : (s.mmu.bankFifo b).cnt ≠ 0)
    (hd : s.mmu.dispatch s.bankOut b = false) : (s.step o).bankRem b < s.bankRem b := by
  have hva : (s.mmu.vaFifo b).cnt ≠ 8 := by rw [(h.track b).cnt]; split <;> decide
  have hresp := (respBuf_step (o := o) (h.track b)).1
  rw [bankRem, bankRem, bankState_step, hresp]
  cases hs : (s.bank b).state with
  | idle =>
    have hv : (s.mmu.respBuf b).valid = true := by
      by_contra hv
      simp [Mmu.dispatch, hcnt, bankOut, MemBank.memBusy, hs, hv, hva] at hd
    rw [((h.track b).resp hv).1]
    simp [hd, hv]
  | phase0 => simp
  | phase1 => simp
  | phase2 =>
    have hp : s.pulse b = false := by
      by_contra hp
      have := (h.track b).pulse_idle (by simpa using hp)
      rw [hs] at this
      cases this
    cases (s.bank b).latchedIsWrite <;> simp [hp]
  | doneRead =>
    have hp : s.pulse b = false := by
      by_contra hp
      have := (h.track b).pulse_idle (by simpa using hp)
      rw [hs] at this
      cases this
    simp [hp]

theorem Due.step_inFifo (h : s.Inv c x) {i : Nat} (hi : ((s.mmu.inFifo w).toList 8)[i]? = some r) :
    ∃ m < 19 + 4 * i + walkRem (s.mmu.ptw w).state, (s.step o).Due (x.next s) r m := by
  have hlt := (List.getElem?_eq_some_iff.1 hi).1
  rw [Ring.Ring.length_toList] at hlt
  obtain ⟨-, hlist⟩ := inFifo_list (o := o) h w
  by_cases hst : (s.mmu.ptw w).state = .idle
  · have hv : s.mmu.vaValidIn w = true := by
      simp [Mmu.vaValidIn, Hptw.busy, hst]
      omega
    have hst' : ((s.step o).mmu.ptw w).state = .lookup := by rw [walk_state, hst]; simp [hv]
    by_cases h0 : i = 0
    · -- the walker takes it
      subst h0
      rw [Ring.Ring.toList_cons (h.inWF w) (by omega)] at hi
      have hpipe : (s.step o).mmu.pipe w = r := by
        rw [(key_step_of_start hv).2.1]
        exact Option.some.inj hi
      refine ⟨_, ?_, .walker (w := w) (by rw [hst']; decide) hpipe⟩
      rw [hst', hst]
      decide
    · have hmem := getElem?_afterEdge hlist hi fun _ => h0
      rw [hv] at hmem
      refine ⟨_, ?_, .inFifo hmem⟩
      rw [hst', hst]
      simp only [if_true, walkRem]
      omega
  · have hv : s.mmu.vaValidIn w = false := by
      by_contra hv; exact hst (vaValidIn_idle (by simpa using hv))
    have hmem := getElem?_afterEdge hlist hi fun hc => by rw [hv] at hc; cases hc
    rw [hv] at hmem
    refine ⟨_, ?_, .inFifo hmem⟩
    have := walkRem_step (o := o) hst
    simp only [Bool.false_eq_true, if_false]
    omega

theorem Due.step_bankFifo (h : s.Inv c x) {j : Nat} {t : BankEntry}
    (hj : ((s.mmu.bankFifo b).toList 4)[j]? = some t) :
    ∃ m < 6 + 5 * j + s.bankRem b, (s.step o).Due (x.next s) t.req m := by
  have hlt := (List.getElem?_eq_some_iff.1 hj).1
  rw [Ring.Ring.length_toList] at hlt
  have hlist := (bankFifo_flow (o := o) h b).2.1
  cases hd : s.mmu.dispatch s.bankOut b with
  | true =>
    obtain ⟨hst, hresp⟩ := dispatch_idle hd
    have hst' : ((s.step o).bank b).state = .phase0 := by rw [bankState_step, hst]; simp [hd]
    have hrem : s.bankRem b = 0 := by simp [bankRem, hst, hresp]
    by_cases h0 : j = 0
    · subst h0
      rw [Ring.Ring.toList_cons (h.bankWF b) (by omega)] at hj
      have ht : (s.step o).token b = t.req := by
        rw [token_dispatch h hd]
        exact congrArg BankEntry.req (Option.some.inj hj)
      refine ⟨_, ?_, .bank (b := b) ?_ ht⟩
      · rw [hst', hrem]; decide
      · simp [busy, MemBank.memBusy, hst']
    · have hmem := getElem?_afterEdge hlist hj fun _ => h0
      rw [hd] at hmem
      refine ⟨_, ?_, .bankFifo hmem rfl⟩
      rw [bankRem, hst', hrem]
      simp only [if_true]
      omega
  | false =>
    have hmem := getElem?_afterEdge hlist hj fun hc => by rw [hd] at hc; cases hc
    rw [hd] at hmem
    refine ⟨_, ?_, .bankFifo hmem rfl⟩
    have := bankRem_step (o := o) h (b := b) (by omega) hd
    simp only [Bool.false_eq_true, if_false]
    omega

theorem Due.step_walker (h : s.Inv c x) (h' : (s.step o).Inv (c.next s o) (x.next s))
    (hst : (s.mmu.ptw w).state ≠ .idle) (hf : (s.mmu.ptw w).state ≠ .fault) :
    ∃ m < walkDue (s.mmu.ptw w).state, (s.step o).Due (x.next s) (s.mmu.pipe w) m := by
  have hpipe := (key_step_of_busy (o := o) hst).2
  have hstate := walk_state s o w
  cases hs : (s.mmu.ptw w).state with
  | idle => exact absurd hs hst
  | fault => exact absurd hs hf
  | lookup =>
    rw [hs] at hstate
    refine ⟨_, ?_, .walker (w := w) ?_ hpipe⟩
    · rw [hstate]; cases (s.mmu.ptRdata w).valid <;> simp [walkDue]
    · rw [hstate]; cases (s.mmu.ptRdata w).valid <;> simp
  | allocate =>
    rw [hs] at hstate
    refine ⟨_, ?_, .walker (w := w) ?_ hpipe⟩
    · rw [hstate]; cases s.mmu.allocAvail w <;> simp [walkDue]
    · rw [hstate]; cases s.mmu.allocAvail w <;> simp
  | done =>
    -- the arbiter puts it behind at most one other request
    have hmem : s.mmu.arbEntry w ∈ ((s.step o).mmu.bankFifo (s.mmu.bankId w)).toList 4 := by
      rw [(bankFifo_flow h _).2.1, h.dualWrites_eq, afterEdge, List.mem_append, List.mem_append]
      cases w
      · exact .inr (.inl (by simp [hs]))
      · exact .inr (.inr (by simp [hs]))
    obtain ⟨j, hj⟩ := List.mem_iff_getElem?.1 hmem
    have hlt := (List.getElem?_eq_some_iff.1 hj).1
    have hle := h'.bankFifo_le (s.mmu.bankId w)
    rw [Ring.Ring.length_toList] at hlt
    refine ⟨_, ?_, .bankFifo hj rfl⟩
    have hrem := bankRem_le (s.step o) (s.mmu.bankId w)
    simp only [walkDue]
    omega

theorem Due.step_bank (h : s.Inv c x) (hb : s.busy b = true) :
    ∃ m < bankDue (s.bank b).state, (s.step o).Due (x.next s) (s.token b) m := by
  have hstate := bankState_step (s := s) (o := o) (b := b)
  rcases bank_cases (h.track b) o with ⟨hst, hb', -, -⟩ | ⟨hst, -, -, -, hb'⟩
  · rw [hb] at hb'
    refine ⟨0, by rw [hst]; decide, .respBuf (b := b) ?_ (if_pos hb'.symm)⟩
    rw [(respBuf_step (h.track b)).1]; exact hb'.symm
  · refine ⟨_, ?_, .bank hb' (token_busy h hst)⟩
    cases hs : (s.bank b).state with
    | idle => exact absurd hs hst
    | phase0 => rw [hstate, hs]; simp [bankDue]
    | phase1 => rw [hstate, hs]; simp [bankDue]
    | phase2 => rw [hstate, hs]; cases (s.bank b).latchedIsWrite <;> simp [bankDue]
    | doneRead => rw [hstate, hs]; simp [bankDue]

theorem Due.step (h : s.Inv c x) (h' : (s.step o).Inv (c.next s o) (x.next s)) (hd : s.Due x r n)
    (h0 : n ≠ 0) : ∃ m < n, (s.step o).Due (x.next s) r m := by
  cases hd with
  | inFifo hi => exact step_inFifo h hi
  | @walker w hst hp =>
    subst hp
    refine step_walker h h' hst fun hf => h0 ?_
    rw [hf]; rfl
  | bankFifo hj ht => subst ht; exact step_bankFifo h hj
  | bank hb ht => subst ht; exact step_bank h hb
  | respBuf hv hb => exact absurd rfl h0

theorem Due.answered (h : s.Inv c x) (hd : s.Due x r n) (h0 : n = 0) :
    s.answered ⟨vaEngine r.va, vaEngine_lt _⟩ = true := by
  refine (h.answered_iff _).2 ⟨r, mem_leaves.2 ?_, rfl⟩
  cases hd with
  | inFifo hi => omega
  | @walker w hst hp =>
    refine .inl ⟨w, ?_, hp⟩
    cases hs : (s.mmu.ptw w).state with
    | fault => rfl
    | idle => exact absurd hs hst
    | lookup => rw [hs] at h0; cases h0
    | allocate => rw [hs] at h0; cases h0
    | done => rw [hs] at h0; cases h0
  | bankFifo hj ht => omega
  | @bank b hb ht => exfalso; revert h0; cases (s.bank b).state <;> simp [bankDue]
  | @respBuf b hv hb => exact .inr ⟨b, hv, hb⟩

theorem exists_due (h : s.Inv c x) {e : Fin 8} (hp : c.pend e = some r) : ∃ n ≤ 50, s.Due x r n := by
  have hmem : r ∈ s.flight x := by
    have := h.flight.one e
    rw [hp] at this
    have hr : r ∈ ofEngine e.val (s.flight x) := by rw [this]; exact Multiset.mem_singleton_self r
    exact (Multiset.mem_filter.1 hr).1
  rw [flight_eq_sum] at hmem
  obtain ⟨l, -, hl⟩ := Multiset.mem_sum.1 hmem
  rcases l with w | w | b | b | b
  · obtain ⟨i, hi⟩ := List.mem_iff_getElem?.1 (Multiset.mem_coe.1 hl)
    have hlt := (List.getElem?_eq_some_iff.1 hi).1
    rw [Ring.Ring.length_toList] at hlt
    have hle := (h.inWF w).le
    refine ⟨_, ?_, .inFifo hi⟩
    have hrem : walkRem (s.mmu.ptw w).state ≤ 3 := by cases (s.mmu.ptw w).state <;> decide
    omega
  · by_cases hb : (s.mmu.ptw w).state = .idle
    · simp [held, Hptw.busy, hb, optM] at hl
    · have hr : s.mmu.pipe w = r := by simpa [held, Hptw.busy, hb, optM, eq_comm] using hl
      exact ⟨_, by cases (s.mmu.ptw w).state <;> decide, .walker hb hr⟩
  · obtain ⟨t, ht, hr⟩ := List.mem_map.1 (Multiset.mem_coe.1 hl)
    obtain ⟨j, hj⟩ := List.mem_iff_getElem?.1 ht
    have hlt := (List.getElem?_eq_some_iff.1 hj).1
    rw [Ring.Ring.length_toList] at hlt
    have hle := h.bankFifo_le b
    refine ⟨_, ?_, .bankFifo hj hr⟩
    have hrem := bankRem_le s b
    omega
  · by_cases hb : s.busy b = true
    · have hr : s.token b = r := by simpa [held, hb, optM, eq_comm] using hl
      exact ⟨_, by cases (s.bank b).state <;> decide, .bank hb hr⟩
    · simp [held, hb, optM] at hl
  · obtain ⟨hv, hb⟩ := mem_respBuf.1 hl
    exact ⟨0, by decide, .respBuf hv hb⟩

/-! ### One place -/

theorem copies_eq (h : s.Inv c x) {e : Fin 8} (hp : c.pend e = some r) (l : Loc) :
    s.copies r l = (s.held x l).count r := by
  have hopt : ∀ (p : Bool) (r' : Req), (if p = true ∧ r' = r then 1 else 0) =
      (optM (if p then some r' else none)).count r := fun p r' => by
    cases p with
    | false => simp [optM]
    | true => simp [optM, Multiset.count_singleton, eq_comm]
  rcases l with w | w | b | b | b
  · simp [copies, held]
  · exact hopt _ _
  · simp [copies, held]
  · exact hopt _ _
  · rw [held, ← hopt, copies]
    cases hv : (s.mmu.respBuf b).valid with
    | false => simp
    | true =>
      have hbuf := h.buf_pend hv
      have hva := ((h.track b).resp hv).2.2
      simp only [true_and]
      by_cases hr : x.buf b = r
      · rw [if_pos hr, if_pos (by rw [hva, hr])]
      · -- a second request of the engine would be a second unanswered one
        rw [if_neg hr, if_neg fun hc => hr ?_]
        have he : (⟨vaEngine (x.buf b).va, vaEngine_lt _⟩ : Fin 8) = e := by
          refine Fin.ext ?_
          show vaEngine (x.buf b).va = _
          rw [← hva, hc, (h.flight.own e r hp).2]
        rw [he, hp] at hbuf
        exact (Option.some.inj hbuf).symm

theorem sum_copies (h : s.Inv c x) {e : Fin 8} (hp : c.pend e = some r) : ∑ l, s.copies r l = 1 := by
  have hone := congrArg (Multiset.count r) (h.flight.one e)
  rw [hp, ofEngine, Multiset.count_filter_of_pos (p := fun q : Req => vaEngine q.va = e.val)
    (h.flight.own e r hp).2, flight_eq_sum, Multiset.count_sum'] at hone
  rw [Finset.sum_congr rfl fun l _ => copies_eq h hp l, hone]
  simp [optM]

theorem copies_pend (h : s.Inv c x) {l : Loc} (hl : ∀ b, l ≠ .respBuf b) (hr : s.copies r l ≠ 0) :
    c.pend ⟨vaEngine r.va, vaEngine_lt _⟩ = some r := by
  refine h.flight.pend (l := l) ?_
  rcases l with w | w | b | b | b
  · exact Multiset.mem_coe.2 (List.count_pos_iff.1 (Nat.pos_of_ne_zero hr))
  · simp only [copies, ne_eq, ite_eq_right_iff, Classical.not_imp] at hr
    simp [held, hr.1.1, hr.1.2, optM]
  · exact Multiset.mem_coe.2 (List.count_pos_iff.1 (Nat.pos_of_ne_zero hr))
  · simp only [copies, ne_eq, ite_eq_right_iff, Classical.not_imp] at hr
    simp [held, hr.1.1, hr.1.2, optM]
  · exact absurd rfl (hl b)

theorem Inv.pend_of_answered (h : s.Inv c x) {e : Fin 8} (ha : s.answered e = true) : (c.pend e).isSome = true := by
  obtain ⟨r, hr, he⟩ := (h.answered_iff e).1 ha
  have hmem : r ∈ ofEngine e.val (s.flight x) :=
    Multiset.mem_filter.2 ⟨Multiset.mem_of_le (leaves_le s x) hr, he⟩
  rw [h.flight.one e] at hmem
  cases hp : c.pend e with
  | none => rw [hp] at hmem; cases hmem
  | some r' => rfl

theorem Inv.one_answer (h : s.Inv c x) {e : Fin 8} (hr : (s.mmu.resp e).isSome = true) :
    s.mmu.respReject e = false := by
  by_contra hrej
  obtain ⟨w, hw, he⟩ := (h.respReject_eq e).1 (by simpa using hrej)
  obtain ⟨d, hd⟩ := Option.isSome_iff_exists.1 hr
  obtain ⟨b, hv, hve, -⟩ := resp_eq_some hd
  rw [((h.track b).resp hv).2.2] at hve
  exact h.flight.ne_engine (l := .walker w) (m := .respBuf b) (by simp)
    (mem_walker (by rw [hw]; decide)) (mem_respBuf.2 ⟨hv, rfl⟩) (by rw [he, hve])

theorem Inv.fifo_bounds (h : s.Inv c x) (o : Fin 8 → Option Req) :
    (∀ w, ((s.mmu.inWrite o w).isSome = true → (s.mmu.inFifo w).cnt < 8) ∧
      (s.mmu.vaValidIn w = true → 0 < (s.mmu.inFifo w).cnt)) ∧
    ∀ b, (s.mmu.bankFifo b).cnt + (if s.mmu.writesBank false b then 1 else 0) +
        (if s.mmu.writesBank true b then 1 else 0) ≤ 4 ∧
      (s.mmu.dispatch s.bankOut b = true → 0 < (s.mmu.bankFifo b).cnt ∧ (s.mmu.vaFifo b).cnt < 8) ∧
      (s.mmu.vaPop s.bankOut b = true → 0 < (s.mmu.vaFifo b).cnt) := by
  refine ⟨fun w => ⟨fun hw => ?_, fun hv => ?_⟩, fun b => ⟨?_, fun hd => ?_, fun hp => ?_⟩⟩
  · rw [h.inWrite_eq] at hw
    have := newEntry_space s.mmu hw
    simp only [Mmu.inFull, decide_eq_false_iff_not] at this
    omega
  · simp only [Mmu.vaValidIn, Bool.and_eq_true, decide_eq_true_eq] at hv
    omega
  · have := h.bankFifo_le b
    split <;> split <;> omega
  · simp only [Mmu.dispatch, Bool.and_eq_true, decide_eq_true_eq] at hd
    have := (h.vaWF b).le
    omega
  · rw [vaPop_eq (h.track b)] at hp
    rw [(h.track b).cnt, if_pos (busy_of_pulse hp)]
    decide

end MmuSys

open MmuSys

variable {s : MmuSys} {c : Clients} {q : Nat → Fin 8 → Option Req}

theorem follow_succ (q : Nat → Fin 8 → Option Req) (s : MmuSys) (c : Clients) (n : Nat) :
    follow q s c (n + 1) = follow (fun t => q (t + 1)) (s.step (q 0)) (c.next s (q 0)) n := by
  induction n with
  | zero => rfl
  | succ n ih => rw [follow, ih]; rfl

theorem pend_of_not_answered {e : Fin 8} {r : Req} {o : Fin 8 → Option Req} (hl : c.Legal s o)
    (hp : c.pend e = some r) (ha : s.answered e = false) : (c.next s o).pend e = some r := by
  have hacc : s.accepted o e = none := by
    unfold accepted
    split
    · cases hr : o e with
      | none => rfl
      | some r' =>
        rcases (hl e r' hr).1 with h | h
        · rw [hp] at h; cases h
        · rw [ha] at h; cases h
    · rfl
  simp [Clients.next, hacc, ha, hp]

theorem Run.answered_of_due {x : MmuGhost} {e : Fin 8} {r : Req} {n : Nat} (h : Run s c) (hi : s.Inv c x)
    (hl : LegalFor q s c n) (hp : c.pend e = some r) (hd : s.Due x r n) :
    ∃ t ≤ n, (follow q s c t).1.answered e = true ∧ (∀ u ≤ t, (follow q s c u).2.pend e = some r) ∧
      ∀ u < t, (follow q s c u).1.answered e = false := by
  induction n using Nat.strong_induction_on generalizing s c x q with
  | _ n ih =>
    cases ha : s.answered e with
    | true =>
      refine ⟨0, Nat.zero_le _, ha, fun u hu => ?_, fun u hu => absurd hu (Nat.not_lt_zero u)⟩
      rw [Nat.le_zero.1 hu]; exact hp
    | false =>
      have h0 : n ≠ 0 := by
        intro h0
        have := hd.answered hi h0
        rw [show (⟨vaEngine r.va, vaEngine_lt _⟩ : Fin 8) = e from Fin.ext (hi.flight.own e r hp).2, ha] at this
        cases this
      have hl0 : c.Legal s (q 0) := hl 0 (Nat.pos_of_ne_zero h0)
      have hi' := hi.step hl0 (h.alloc.1.fresh hi)
      obtain ⟨m, hm, hd'⟩ := hd.step hi hi' h0
      have hl' : LegalFor (fun t => q (t + 1)) (s.step (q 0)) (c.next s (q 0)) m := fun t ht => by
        rw [← follow_succ]; exact hl (t + 1) (by omega)
      obtain ⟨t, ht, hans, hpend, hnot⟩ := ih m hm (.step h hl0) hi' hl' (pend_of_not_answered hl0 hp ha) hd'
      refine ⟨t + 1, by omega, by rw [follow_succ]; exact hans, fun u hu => ?_, fun u hu => ?_⟩
      · cases u with
        | zero => exact hp
        | succ u => rw [follow_succ]; exact hpend u (by omega)
      · cases u with
        | zero => exact ha
        | succ u => rw [follow_succ]; exact hnot u (by omega)

theorem LegalFor.mono {n m : Nat} (h : LegalFor q s c n) (hm : m ≤ n) : LegalFor q s c m := fun t ht =>
  h t (by omega)

theorem Run.answered_within (h : Run s c) {e : Fin 8} {r : Req} (hl : LegalFor q s c 50)
    (hp : c.pend e = some r) :
    ∃ t ≤ 50, (follow q s c t).1.answered e = true ∧ (∀ u ≤ t, (follow q s c u).2.pend e = some r) ∧
      ∀ u < t, (follow q s c u).1.answered e = false := by
  obtain ⟨-, x, hi⟩ := h.alloc
  obtain ⟨n, hn, hd⟩ := exists_due hi hp
  obtain ⟨t, ht, h'⟩ := h.answered_of_due hi (hl.mono hn) hp hd
  exact ⟨t, by omega, h'⟩

/-- Requests are neither lost nor duplicated nor misdelivered. -/
theorem mmu_delivers (h : Run s c) :
    -- an unanswered request is at exactly one place, and nothing else is anywhere
    (∀ e r, c.pend e = some r → ∑ l, s.copies r l = 1) ∧
    (∀ l r, (∀ b, l ≠ .respBuf b) → s.copies r l ≠ 0 →
      c.pend ⟨vaEngine r.va, vaEngine_lt _⟩ = some r) ∧
    (∀ b, (s.mmu.respBuf b).valid = true → ∃ r, c.pend ⟨vaEngine r.va, vaEngine_lt _⟩ = some r ∧
      (s.mmu.respBuf b).va = r.va) ∧
    (∀ b, (s.mmu.vaFifo b).toList 8 = if s.busy b then [(s.token b).va] else []) ∧
    -- a pulse is for the unanswered request, with its data, and is of one kind
    (∀ e, s.answered e = true → (c.pend e).isSome = true) ∧
    (∀ e, (s.mmu.resp e).isSome = true → s.mmu.respReject e = false) ∧
    (∀ e d, s.mmu.resp e = some d → ∃ r, c.pend e = some r ∧
      d = if r.wr then 0 else (c.mem (ptKey r.va)).getD 0) ∧
    -- and it comes exactly once
    (∀ q e r, LegalFor q s c 50 → c.pend e = some r → ∃ t ≤ 50, (follow q s c t).1.answered e = true ∧
      (∀ u ≤ t, (follow q s c u).2.pend e = some r) ∧ ∀ u < t, (follow q s c u).1.answered e = false) ∧
    (∀ o e, s.answered e = true → (c.next s o).pend e = s.accepted o e) ∧
    -- no FIFO is written beyond its depth or read when empty
    (∀ o, (∀ w, ((s.mmu.inWrite o w).isSome = true → (s.mmu.inFifo w).cnt < 8) ∧
        (s.mmu.vaValidIn w = true → 0 < (s.mmu.inFifo w).cnt)) ∧
      ∀ b, (s.mmu.bankFifo b).cnt + (if s.mmu.writesBank false b then 1 else 0) +
          (if s.mmu.writesBank true b then 1 else 0) ≤ 4 ∧
        (s.mmu.dispatch s.bankOut b = true → 0 < (s.mmu.bankFifo b).cnt ∧ (s.mmu.vaFifo b).cnt < 8) ∧
        (s.mmu.vaPop s.bankOut b = true → 0 < (s.mmu.vaFifo b).cnt)) := by
  obtain ⟨x, hi, hd, hz⟩ := h.dataOk
  refine ⟨fun e r hp => sum_copies hi hp, fun l r hl hr => copies_pend hi hl hr, fun b hv => ?_,
    fun b => vaFifo_toList hi b, fun e ha => hi.pend_of_answered ha, fun e hr => hi.one_answer hr,
    fun e d hr => ?_, fun q e r hl hp => h.answered_within hl hp, fun o e ha => ?_,
    fun o => hi.fifo_bounds o⟩
  · exact ⟨x.buf b, hi.buf_pend hv, ((hi.track b).resp hv).2.2⟩
  · obtain ⟨r, hp, hdat⟩ := hd.answer hi hr
    refine ⟨r, hp, ?_⟩
    cases hw : r.wr with
    | true => rw [hw] at hdat; exact hdat
    | false =>
      rw [hw, hz] at hdat
      cases hm : c.mem (ptKey r.va) <;> rw [hm] at hdat <;> exact hdat
  · simp only [Clients.next, ha, if_true]
    cases s.accepted o e <;> rfl

theorem mmu_delivers_oneWrite :
    ∑ l, (follow (offers [(0, ⟨3, true, 9⟩)]) .powerUp .fresh 4).1.copies ⟨3, true, 9⟩ l = 1 :=
  (mmu_delivers (Run.powerUp.along (by decide +kernel))).1 0 _ (by decide +kernel)

end HftSim
