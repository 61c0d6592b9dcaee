import HftSim.MmuInv

/-!
# Requests flow through the MMU

What one clock edge does to the requests at each place: the request a place gives up is the one the
next place takes. Summed over the places (`Inv.flight_step`) only the accepted requests come in and
only the answered ones leave, so `Flight` is kept.
-/

namespace HftSim

open Function

theorem computedBankId_val {page : Nat} (h : page < 240) : (computedBankId page).val = page / 60 := by
  unfold computedBankId
  split
  · simp; omega
  · split
    · simp; omega
    · split
      · simp; omega
      · simp; omega

theorem ptKey_div (va : Nat) : ptKey va / 2 ^ 10 = vaEngine va * 2 + va / 2 ^ 10 % 2 := by
  unfold ptKey vaEngine; omega

theorem ptKey_lt (va : Nat) : ptKey va < 2 ^ 14 := by unfold ptKey; omega

theorem TableOk.page_lt_240 {pt : Nat → PtEntry} {k : Nat} (h : TableOk pt) (hv : (pt k).valid = true) :
    (pt k).page < 240 := by
  have h1 := h.key_lt k hv
  have h2 := h.page_lt k hv
  omega

/-- Bank `b` belongs to engines `2b` and `2b + 1`. -/
theorem Routed.engine {pt : Nat → PtEntry} {b : Fin 4} {va : Nat} (h : Routed pt b (ptKey va))
    (ht : TableOk pt) : vaEngine va / 2 = b.val := by
  have h1 := ht.page_ge _ h.1
  have h2 := ht.page_lt _ h.1
  have h3 := computedBankId_val (ht.page_lt_240 h.1)
  rw [h.2] at h3
  rw [ptKey_div] at h1 h2
  omega

namespace MmuSys

variable {s : MmuSys} {c : Clients} {x : MmuGhost} {o : Fin 8 → Option Req} {w : Bool} {b : Fin 4}

/-! ### What cannot happen -/

theorem mem_walker (h : (s.mmu.ptw w).state ≠ .idle) : s.mmu.pipe w ∈ s.held x (.walker w) := by
  simp [held, Hptw.busy, h, optM]

theorem ptwAlloc_state (h : s.mmu.ptwAlloc w = true) : (s.mmu.ptw w).state = .allocate := by
  simp only [Mmu.ptwAlloc, Hptw.alloc, Bool.and_eq_true, decide_eq_true_eq] at h
  exact h.1

theorem Inv.walker_ne (h : s.Inv c x) (h0 : (s.mmu.ptw false).state ≠ .idle)
    (h1 : (s.mmu.ptw true).state ≠ .idle) :
    vaEngine (s.mmu.pipe false).va ≠ vaEngine (s.mmu.pipe true).va :=
  h.flight.ne_engine (l := .walker false) (m := .walker true) (by decide) (mem_walker h0)
    (mem_walker h1)

theorem Inv.no_collision (h : s.Inv c x) : s.mmu.sameAllocCollision = false := by
  by_contra hc
  simp only [Mmu.sameAllocCollision, Bool.not_eq_false, Bool.and_eq_true, decide_eq_true_eq] at hc
  obtain ⟨⟨h0, h1⟩, hp⟩ := hc
  refine h.walker_ne (by rw [ptwAlloc_state h0]; decide) (by rw [ptwAlloc_state h1]; decide) ?_
  unfold Mmu.partition at hp
  omega

theorem Inv.allocEff (h : s.Inv c x) (w : Bool) : s.mmu.allocEff w = s.mmu.ptwAlloc w := by
  cases w <;> simp [Mmu.allocEff, h.no_collision]

theorem Inv.arbValid (h : s.Inv c x) (w : Bool) :
    s.mmu.arbValid w = decide ((s.mmu.ptw w).state = .done) := by
  rw [← (h.walk w).paValid]
  cases w <;> simp [Mmu.arbValid, h.no_collision]

theorem Inv.faultEff (h : s.Inv c x) (w : Bool) :
    s.mmu.faultEff w = decide ((s.mmu.ptw w).state = .fault) := by
  rw [← (h.walk w).fault]
  cases w <;> simp [Mmu.faultEff, h.no_collision]

/-- A bank FIFO holds at most one request of each of its two engines. -/
theorem Inv.bankFifo_le (h : s.Inv c x) (b : Fin 4) : (s.mmu.bankFifo b).cnt ≤ 2 := by
  have hcard : (s.held x (.bankFifo b)).card = (s.mmu.bankFifo b).cnt := by simp [held]
  rw [← hcard]
  refine h.flight.card_le_two (e := 2 * b.val) (f := 2 * b.val + 1) (by omega) (by omega) ?_
  intro r hr
  simp only [held, Multiset.mem_coe, List.mem_map] at hr
  obtain ⟨t, ht, rfl⟩ := hr
  have := (h.queue b t ht).1.engine h.table
  omega

theorem Inv.canEnqueue (h : s.Inv c x) (w : Bool) :
    s.mmu.canEnqueue w = decide ((s.mmu.ptw w).state = .done) := by
  have hfull : ∀ b, s.mmu.fifoFull b = false := fun b => by
    have := h.bankFifo_le b; simp [Mmu.fifoFull]; omega
  have halmost : ∀ b, s.mmu.fifoAlmostFull b = false := fun b => by
    have := h.bankFifo_le b; simp [Mmu.fifoAlmostFull]; omega
  rw [← h.arbValid w]
  unfold Mmu.canEnqueue
  by_cases hc : s.mmu.sameBankCollision = true
  · have hv : s.mmu.arbValid w = true := by
      simp only [Mmu.sameBankCollision, Bool.and_eq_true] at hc
      cases w <;> [exact hc.1.1; exact hc.1.2]
    simp [hc, hfull, halmost, hv]
  · simp [hc, hfull]

theorem Inv.arbReject (h : s.Inv c x) (w : Bool) : s.mmu.arbReject w = false := by
  simp [Mmu.arbReject, h.arbValid w, h.canEnqueue w]

/-! ### Places and what passes between them -/

/-- The new request for input FIFO `w`. -/
def arrive (s : MmuSys) (o : Fin 8 → Option Req) (w : Bool) : Multiset Req := optM (s.mmu.newEntry o w)

/-- What walker `w` takes from its FIFO. -/
def pop (s : MmuSys) (w : Bool) : Multiset Req :=
  optM (if s.mmu.vaValidIn w then some (s.mmu.inHead w) else none)

/-- What walker `w` hands to the arbiter. -/
def enq (s : MmuSys) (w : Bool) : Multiset Req :=
  optM (if (s.mmu.ptw w).state = .done then some (s.mmu.pipe w) else none)

/-- What walker `w` turns down. -/
def faulted (s : MmuSys) (w : Bool) : Multiset Req :=
  optM (if (s.mmu.ptw w).state = .fault then some (s.mmu.pipe w) else none)

/-- What goes to bank `b`. -/
def disp (s : MmuSys) (b : Fin 4) : Multiset Req :=
  optM (if s.mmu.dispatch s.bankOut b then some (s.mmu.bankHead b).req else none)

/-- What bank `b` completes. -/
def comp (s : MmuSys) (b : Fin 4) : Multiset Req := optM (if s.pulse b then some (s.token b) else none)

theorem newEntry_space (m : Mmu) (hs : (m.newEntry o w).isSome = true) : m.inFull w = false := by
  unfold Mmu.newEntry at hs
  split at hs
  · rename_i hw
    split at hs
    · rename_i ha
      simp only [Mmu.acceptFirst, Mmu.hasSpace, Bool.and_eq_true, Bool.not_eq_true'] at ha
      rw [← hw]; exact ha.2.1
    · cases hs
  · rename_i hw
    split at hs
    · rename_i ha
      simp only [Mmu.acceptSecond, Mmu.hasSpace, Bool.and_eq_true, Bool.not_eq_true'] at ha
      have hw' : (!m.firstToFifo1) = w := by
        cases hf : m.firstToFifo1 <;> cases w <;> simp_all
      rw [← hw']; exact ha.1.2.1
    · cases hs

theorem Inv.inWrite_eq (h : s.Inv c x) (w : Bool) : s.mmu.inWrite o w = s.mmu.newEntry o w := by
  simp only [Mmu.inWrite, h.arbReject w]
  cases s.mmu.newEntry o w <;> rfl

theorem inFifo_list (h : s.Inv c x) (w : Bool) :
    ((s.step o).mmu.inFifo w).WF 8 ∧ ((s.step o).mmu.inFifo w).toList 8 =
      afterEdge ((s.mmu.inFifo w).toList 8) (s.mmu.newEntry o w).toList (s.mmu.vaValidIn w) := by
  have hspace : (s.mmu.newEntry o w).isSome = true → (s.mmu.inFifo w).cnt < 8 := by
    intro hs
    have hfull := newEntry_space s.mmu hs
    simp only [Mmu.inFull, decide_eq_false_iff_not] at hfull
    omega
  have hread : s.mmu.vaValidIn w = true → 0 < (s.mmu.inFifo w).cnt := by
    simp only [Mmu.vaValidIn, Bool.and_eq_true, decide_eq_true_eq]; omega
  have hstep : (s.step o).mmu.inFifo w = fifoStep (s.mmu.inFifo w) (s.mmu.newEntry o w).isSome
      ((s.mmu.newEntry o w).getD ⟨0, false, 0⟩) (s.mmu.vaValidIn w) := by
    simp only [step, Mmu.step, h.inWrite_eq]
  have hnew : (if (s.mmu.newEntry o w).isSome then [(s.mmu.newEntry o w).getD ⟨0, false, 0⟩] else []) =
      (s.mmu.newEntry o w).toList := by cases s.mmu.newEntry o w <;> rfl
  rw [hstep, ← hnew]
  exact fifoStep_spec (h.inWF w) hspace hread

theorem inFifo_flow (h : s.Inv c x) (w : Bool) :
    (s.step o).held (x.next s) (.inFifo w) + s.pop w = s.held x (.inFifo w) + s.arrive o w := by
  have harr : s.arrive o w = ↑(s.mmu.newEntry o w).toList := by
    unfold arrive; cases s.mmu.newEntry o w <;> rfl
  simp only [held, (inFifo_list h w).2, harr, afterEdge, ← Multiset.coe_add]
  cases hv : s.mmu.vaValidIn w with
  | false => simp [pop, hv, optM]
  | true =>
    have h0 : 0 < (s.mmu.inFifo w).cnt := by
      simp only [Mmu.vaValidIn, Bool.and_eq_true, decide_eq_true_eq] at hv; omega
    rw [Ring.Ring.toList_cons (h.inWF w) h0]
    simp only [if_true, pop, hv, optM, List.drop_succ_cons, List.drop_zero, Mmu.inHead, ← Multiset.cons_coe,
      ← Multiset.singleton_add]
    abel

theorem walker_flow (w : Bool) : (s.step o).held (x.next s) (.walker w) + (s.enq w + s.faulted w) =
    s.held x (.walker w) + s.pop w := by
  have hstate : ((s.step o).mmu.ptw w).state = (s.mmu.ptw w).nState (s.mmu.ptwIn w) := rfl
  have hpipe : (s.step o).mmu.pipe w = if s.mmu.vaValidIn w then s.mmu.inHead w else s.mmu.pipe w := rfl
  have hbusy : (s.mmu.ptw w).state ≠ .idle → s.mmu.vaValidIn w = false := fun h => by
    simp [Mmu.vaValidIn, Hptw.busy, h]
  cases hst : (s.mmu.ptw w).state with
  | idle =>
    cases hv : s.mmu.vaValidIn w <;>
      simp [held, enq, faulted, pop, Hptw.busy, hstate, hpipe, Hptw.nState, hst, Mmu.ptwIn, hv, optM]
  | lookup =>
    have hv := hbusy (by simp [hst])
    cases hval : (s.mmu.ptRdata w).valid <;>
      simp [held, enq, faulted, pop, Hptw.busy, hstate, hpipe, Hptw.nState, hst, Mmu.ptwIn, hv, hval, optM]
  | allocate =>
    have hv := hbusy (by simp [hst])
    cases hval : s.mmu.allocAvail w <;>
      simp [held, enq, faulted, pop, Hptw.busy, hstate, hpipe, Hptw.nState, hst, Mmu.ptwIn, hv, hval, optM]
  | done =>
    have hv := hbusy (by simp [hst])
    simp [held, enq, faulted, pop, Hptw.busy, hstate, Hptw.nState, hst, hv, optM]
  | fault =>
    have hv := hbusy (by simp [hst])
    simp [held, enq, faulted, pop, Hptw.busy, hstate, Hptw.nState, hst, hv, optM]

/-- What the walkers write into bank FIFO `b`. -/
theorem Inv.dualWrites_eq (h : s.Inv c x) (b : Fin 4) :
    dualWrites (s.mmu.writesBank false b) (s.mmu.arbEntry false) (s.mmu.writesBank true b)
      (s.mmu.arbEntry true) =
      (if (s.mmu.ptw false).state = .done ∧ s.mmu.bankId false = b then [s.mmu.arbEntry false] else []) ++
        (if (s.mmu.ptw true).state = .done ∧ s.mmu.bankId true = b then [s.mmu.arbEntry true] else []) := by
  simp only [dualWrites, Mmu.writesBank, h.canEnqueue, Bool.and_eq_true, decide_eq_true_eq]

theorem bankFifo_flow (h : s.Inv c x) (b : Fin 4) :
    ((s.step o).mmu.bankFifo b).WF 4 ∧
      ((s.step o).mmu.bankFifo b).toList 4 = afterEdge ((s.mmu.bankFifo b).toList 4)
        (dualWrites (s.mmu.writesBank false b) (s.mmu.arbEntry false) (s.mmu.writesBank true b)
          (s.mmu.arbEntry true)) (s.mmu.dispatch s.bankOut b) ∧
      (s.step o).held (x.next s) (.bankFifo b) + s.disp b = s.held x (.bankFifo b) +
        ((if s.mmu.bankId false = b then s.enq false else 0) +
          (if s.mmu.bankId true = b then s.enq true else 0)) := by
  have hread : s.mmu.dispatch s.bankOut b = true → 0 < (s.mmu.bankFifo b).cnt := by
    simp only [Mmu.dispatch, Bool.and_eq_true, decide_eq_true_eq]; omega
  have hlen : (dualWrites (s.mmu.writesBank false b) (s.mmu.arbEntry false) (s.mmu.writesBank true b)
      (s.mmu.arbEntry true)).length ≤ 2 := by
    unfold dualWrites
    rw [List.length_append]
    split <;> split <;> simp
  have hle := h.bankFifo_le b
  obtain ⟨hwf, hlist⟩ := dualWriteFifoStep_spec (p := s.mmu.writesBank false b)
    (x := s.mmu.arbEntry false) (q := s.mmu.writesBank true b) (y := s.mmu.arbEntry true)
    (h.bankWF b) (by omega) hread
  refine ⟨hwf, hlist, ?_⟩
  have hlist' : ((s.step o).mmu.bankFifo b).toList 4 = _ := hlist
  simp only [held, hlist', h.dualWrites_eq, afterEdge, List.map_append, ← Multiset.coe_add]
  have henq : ∀ w, (↑(List.map BankEntry.req (if (s.mmu.ptw w).state = .done ∧ s.mmu.bankId w = b then
      [s.mmu.arbEntry w] else [])) : Multiset Req) = if s.mmu.bankId w = b then s.enq w else 0 := by
    intro w
    by_cases h1 : (s.mmu.ptw w).state = .done <;> by_cases h2 : s.mmu.bankId w = b <;>
      simp [enq, h1, h2, optM, Mmu.arbEntry]
  rw [henq, henq]
  cases hd : s.mmu.dispatch s.bankOut b with
  | false => simp [disp, hd, optM]
  | true =>
    rw [Ring.Ring.toList_cons (h.bankWF b) (hread hd)]
    simp only [if_true, disp, hd, optM, List.drop_succ_cons, List.drop_zero, Mmu.bankHead, List.map_cons,
      ← Multiset.cons_coe, ← Multiset.singleton_add]
    abel

/-! ### Banks -/

theorem vaPop_eq (h : s.TrackOk x b) : s.mmu.vaPop s.bankOut b = s.pulse b := by
  show (s.pulse b && !(s.mmu.respBuf b).valid) = s.pulse b
  cases hv : (s.mmu.respBuf b).valid with
  | false => simp
  | true => simp [(h.resp hv).1]

theorem dispatch_idle (hd : s.mmu.dispatch s.bankOut b = true) :
    (s.bank b).state = .idle ∧ (s.mmu.respBuf b).valid = false := by
  simp only [Mmu.dispatch, bankOut, MemBank.memBusy, Bool.and_eq_true, Bool.not_eq_true',
    decide_eq_false_iff_not, not_not] at hd
  exact ⟨hd.1.1.2, hd.1.2⟩

theorem dispatch_of_busy (hst : (s.bank b).state ≠ .idle) : s.mmu.dispatch s.bankOut b = false := by
  by_contra hd
  exact hst (dispatch_idle (by simpa using hd)).1

theorem starts_eq : (s.bank b).starts (s.mmu.bankIn s.bankOut b) = s.mmu.dispatch s.bankOut b := by
  cases hd : s.mmu.dispatch s.bankOut b with
  | false => simp [MemBank.starts, Mmu.bankIn, hd]
  | true =>
    cases hw : (s.mmu.bankHead b).req.wr <;>
      simp [MemBank.starts, Mmu.bankIn, hd, hw, (dispatch_idle hd).1]

theorem bankState_step : ((s.step o).bank b).state = match (s.bank b).state with
    | .idle => if s.mmu.dispatch s.bankOut b then .phase0 else .idle
    | .phase0 => .phase1
    | .phase1 => .phase2
    | .phase2 => if (s.bank b).latchedIsWrite then .idle else .doneRead
    | .doneRead => .idle := by
  have hs := starts_eq (s := s) (b := b)
  show (s.bank b).nState (s.mmu.bankIn s.bankOut b) = _
  unfold MemBank.nState
  cases hst : (s.bank b).state with
  | idle =>
    simp only [MemBank.starts, hst, decide_true, Bool.true_and] at hs
    simp only [hs]
  | phase0 => rfl
  | phase1 => rfl
  | phase2 => rfl
  | doneRead => rfl

theorem pulse_step : (s.step o).pulse b = ((s.bank b).readEnds || (s.bank b).writeEnds) := rfl

theorem vaFifo_step (h : s.Inv c x) (b : Fin 4) :
    ((s.step o).mmu.vaFifo b).WF 8 ∧ ((s.step o).mmu.vaFifo b).toList 8 =
      afterEdge ((s.mmu.vaFifo b).toList 8)
        (if s.mmu.dispatch s.bankOut b then [(s.mmu.bankHead b).req.va] else []) (s.pulse b) := by
  have hstep : (s.step o).mmu.vaFifo b = fifoStep (s.mmu.vaFifo b) (s.mmu.dispatch s.bankOut b)
      (s.mmu.bankHead b).req.va (s.pulse b) := by
    rw [← vaPop_eq (h.track b), ← trackingFifoStep_eq (h.vaWF b)]; rfl
  rw [hstep]
  refine fifoStep_spec (h.vaWF b) (fun hd => ?_) fun hp => ?_
  · simp only [Mmu.dispatch, Bool.and_eq_true, decide_eq_true_eq] at hd
    have := (h.vaWF b).le
    omega
  · have := (h.track b).cnt
    rw [if_pos (by simp [busy, hp])] at this
    omega

theorem vaFifo_toList (h : s.Inv c x) (b : Fin 4) :
    (s.mmu.vaFifo b).toList 8 = if s.busy b then [s.mmu.vaDout b] else [] := by
  have hcnt := (h.track b).cnt
  split
  · rename_i hb
    rw [if_pos hb] at hcnt
    rw [Ring.Ring.toList_cons (h.vaWF b) (by omega)]
    have hlen : (((s.mmu.vaFifo b).pop 8).toList 8).length = 0 := by
      rw [Ring.Ring.length_toList]; simp [Ring.Ring.pop, hcnt]
    rw [List.length_eq_zero_iff.1 hlen]; rfl
  · rename_i hb
    rw [if_neg hb] at hcnt
    exact Ring.Ring.toList_eq_nil.2 hcnt

/-- A bank either is idle, and starts what is dispatched to it, or works on. -/
theorem bank_cases (h : s.TrackOk x b) (o : Fin 8 → Option Req) :
    ((s.bank b).state = .idle ∧ s.busy b = s.pulse b ∧ (s.step o).pulse b = false ∧
      (s.step o).busy b = s.mmu.dispatch s.bankOut b) ∨
    ((s.bank b).state ≠ .idle ∧ s.busy b = true ∧ s.pulse b = false ∧
      s.mmu.dispatch s.bankOut b = false ∧ (s.step o).busy b = true) := by
  by_cases hst : (s.bank b).state = .idle
  · have hp : (s.step o).pulse b = false := by
      simp [pulse_step, MemBank.readEnds, MemBank.writeEnds, hst]
    refine .inl ⟨hst, by simp [busy, MemBank.memBusy, hst], hp, ?_⟩
    rw [busy, hp, Bool.or_false, MemBank.memBusy, bankState_step, hst]
    cases s.mmu.dispatch s.bankOut b <;> rfl
  · have hd := dispatch_of_busy hst
    have hp : s.pulse b = false := by
      by_contra hp; exact hst (h.pulse_idle (by simpa using hp))
    refine .inr ⟨hst, by simp [busy, MemBank.memBusy, hst], hp, hd, ?_⟩
    rw [busy, pulse_step, MemBank.memBusy, bankState_step]
    cases hs : (s.bank b).state with
    | idle => exact absurd hs hst
    | phase0 => rfl
    | phase1 => rfl
    | phase2 => cases hw : (s.bank b).latchedIsWrite <;> simp [MemBank.writeEnds, hs, hw]
    | doneRead => simp [MemBank.readEnds, hs, h.doneRead hs]

theorem token_dispatch (h : s.Inv c x) (hd : s.mmu.dispatch s.bankOut b = true) :
    (s.step o).token b = (s.mmu.bankHead b).req := by
  obtain ⟨hwf, hlist⟩ := vaFifo_step (o := o) h b
  have hst := (dispatch_idle hd).1
  have hva : (s.step o).mmu.vaDout b = (s.mmu.bankHead b).req.va := by
    refine Ring.Ring.mem_rd_of_toList hwf [] ?_
    rw [hlist, vaFifo_toList h]
    cases hp : s.pulse b <;> simp [busy, MemBank.memBusy, hst, hd, hp, afterEdge]
  have hlat : ((s.step o).bank b).latchedIsWrite = (s.mmu.bankHead b).req.wr ∧
      ((s.step o).bank b).latchedWdata = (s.mmu.bankHead b).req.wdata := by
    simp only [step, MemBank.step, starts_eq, hd, if_true]
    simp [Mmu.bankIn, hd]
  show (⟨_, _, _⟩ : Req) = _
  rw [hva, hlat.1, hlat.2]

theorem latched_step_of_busy (hd : s.mmu.dispatch s.bankOut b = false) :
    ((s.step o).bank b).latchedIsWrite = (s.bank b).latchedIsWrite ∧
      ((s.step o).bank b).latchedWdata = (s.bank b).latchedWdata ∧
      ((s.step o).bank b).latchedPage = (s.bank b).latchedPage ∧
      ((s.step o).bank b).latchedNode = (s.bank b).latchedNode := by
  simp [step, MemBank.step, starts_eq, hd]

theorem token_busy (h : s.Inv c x) (hst : (s.bank b).state ≠ .idle) :
    (s.step o).token b = s.token b := by
  obtain ⟨hwf, hlist⟩ := vaFifo_step (o := o) h b
  rcases bank_cases (h.track b) o with ⟨hidle, -⟩ | ⟨-, hb, hp, hd, -⟩
  · exact absurd hidle hst
  · have hva : (s.step o).mmu.vaDout b = s.mmu.vaDout b := by
      refine Ring.Ring.mem_rd_of_toList hwf [] ?_
      rw [hlist, vaFifo_toList h]
      simp [hb, hp, hd, afterEdge]
    obtain ⟨hw, hdat, -⟩ := latched_step_of_busy (o := o) hd
    rw [token, token, hva, hw, hdat]

theorem bank_flow (h : s.Inv c x) (b : Fin 4) :
    (s.step o).held (x.next s) (.bank b) + s.comp b = s.held x (.bank b) + s.disp b := by
  rcases bank_cases (h.track b) o with ⟨-, hb, -, hb'⟩ | ⟨hst, hb, hp, hd, hb'⟩
  · simp only [held, comp, disp, hb, hb']
    cases hd : s.mmu.dispatch s.bankOut b with
    | false => simp [optM]
    | true => simp [optM, token_dispatch h hd, add_comm]
  · simp [held, comp, disp, hb, hb', hp, hd, optM, token_busy h hst]

theorem respBuf_step (h : s.TrackOk x b) :
    ((s.step o).mmu.respBuf b).valid = s.pulse b ∧
      (s.pulse b = true → ((s.step o).mmu.respBuf b).va = s.mmu.vaDout b ∧
        ((s.step o).mmu.respBuf b).data =
          if (s.bank b).memRdataValid then (s.bank b).memRdata else 0) := by
  have hstep : (s.step o).mmu.respBuf b = s.mmu.nRespBuf s.bankOut b := rfl
  rw [hstep, Mmu.nRespBuf, vaPop_eq h]
  cases hp : s.pulse b with
  | true => exact ⟨rfl, fun _ => ⟨rfl, rfl⟩⟩
  | false =>
    refine ⟨?_, fun hc => by cases hc⟩
    cases hv : (s.mmu.respBuf b).valid <;> simp [hv]

/-- A buffered answer always leaves; a completed request takes its place. -/
theorem respBuf_flow (h : s.TrackOk x b) :
    (s.step o).held (x.next s) (.respBuf b) = s.comp b := by
  simp only [held, (respBuf_step (o := o) h).1, comp, MmuGhost.next]
  cases s.pulse b <;> rfl

/-! ### All places together -/

/-- What leaves the MMU: turned down, or answered. -/
def leaves (s : MmuSys) (x : MmuGhost) : Multiset Req :=
  s.faulted false + s.faulted true + ∑ b, s.held x (.respBuf b)

theorem sum_enq (s : MmuSys) :
    ∑ b, ((if s.mmu.bankId false = b then s.enq false else 0) +
      (if s.mmu.bankId true = b then s.enq true else 0)) = s.enq false + s.enq true := by
  rw [Finset.sum_add_distrib, Finset.sum_ite_eq, Finset.sum_ite_eq]
  simp

theorem flight_step (h : s.Inv c x) (o : Fin 8 → Option Req) :
    (s.step o).flight (x.next s) + s.leaves x =
      s.flight x + (s.arrive o false + s.arrive o true) := by
  have hin := fun w => inFifo_flow (o := o) h w
  have hwalk := fun w => walker_flow (s := s) (x := x) (o := o) w
  have hbank : ∑ b, ((s.step o).held (x.next s) (.bankFifo b) + (s.step o).held (x.next s) (.bank b) +
      (s.step o).held (x.next s) (.respBuf b)) =
      ∑ b, (s.held x (.bankFifo b) + s.held x (.bank b)) + (s.enq false + s.enq true) := by
    rw [← sum_enq, ← Finset.sum_add_distrib]
    refine Finset.sum_congr rfl fun b _ => ?_
    have h1 := (bankFifo_flow (o := o) h b).2.2
    have h2 := bank_flow (o := o) h b
    rw [respBuf_flow (h.track b)]
    refine add_right_cancel (b := s.disp b) ?_
    calc _ = ((s.step o).held (x.next s) (.bankFifo b) + s.disp b) +
          ((s.step o).held (x.next s) (.bank b) + s.comp b) := by abel
      _ = _ := by rw [h1, h2]; abel
  simp only [flight, leaves, hbank, Finset.sum_add_distrib]
  refine add_right_cancel (b := s.pop false + s.pop true + s.enq false + s.enq true) ?_
  have h0 := hin false
  have h1 := hin true
  have h2 := hwalk false
  have h3 := hwalk true
  calc _ = ((s.step o).held (x.next s) (.inFifo false) + s.pop false) +
        ((s.step o).held (x.next s) (.inFifo true) + s.pop true) +
        ((s.step o).held (x.next s) (.walker false) + (s.enq false + s.faulted false)) +
        ((s.step o).held (x.next s) (.walker true) + (s.enq true + s.faulted true)) +
        (∑ b, s.held x (.bankFifo b) + ∑ b, s.held x (.bank b) + ∑ b, s.held x (.respBuf b) +
          (s.enq false + s.enq true)) := by abel
    _ = _ := by rw [h0, h1, h2, h3]; abel

theorem winners_nodup (m : Mmu) (o : Fin 8 → Option Req) : (m.winners o).Nodup := by
  refine List.Nodup.filter _ ((List.nodup_finRange 8).map fun i j hij => ?_)
  have h : (m.rrPointer + i.val) % 8 = (m.rrPointer + j.val) % 8 := congrArg Fin.val hij
  exact Fin.ext (by omega)

theorem winner_ne {m : Mmu} {e e' : Fin 8} (h : m.firstWinner o = some e)
    (h' : m.secondWinner o = some e') : e ≠ e' := by
  rintro rfl
  obtain ⟨h0, h0'⟩ := List.getElem?_eq_some_iff.1 h
  obtain ⟨h1, h1'⟩ := List.getElem?_eq_some_iff.1 h'
  have := (winners_nodup m o).getElem_inj_iff.1 (h0'.trans h1'.symm)
  omega

theorem arrive_eq (s : MmuSys) (o : Fin 8 → Option Req) :
    s.arrive o false + s.arrive o true =
      optM (if s.mmu.acceptFirst o then (s.mmu.firstWinner o).bind o else none) +
        optM (if s.mmu.acceptSecond o then (s.mmu.secondWinner o).bind o else none) := by
  cases hf : s.mmu.firstToFifo1 with
  | false => simp [arrive, Mmu.newEntry, hf]
  | true => rw [add_comm]; simp [arrive, Mmu.newEntry, hf]

theorem ofEngine_winner (hl : c.Legal s o) (e : Fin 8) (ok : Bool) (win : Option (Fin 8)) :
    ofEngine e.val (optM (if ok then win.bind o else none)) =
      optM (if ok = true ∧ win = some e then o e else none) := by
  cases ok with
  | false => rfl
  | true =>
    cases win with
    | none => rfl
    | some e' =>
      by_cases he : e' = e
      · subst he
        cases hr : o e' with
        | none => simp [hr, optM, ofEngine]
        | some r =>
          simp [hr, optM, ofEngine, Multiset.filter_singleton, (hl e' r hr).2.2]
      · cases hr : o e' with
        | none => simp [hr, optM, ofEngine, he]
        | some r =>
          have hne : vaEngine r.va ≠ e.val := by rw [(hl e' r hr).2.2]; exact fun hc => he (Fin.ext hc)
          simp [hr, optM, ofEngine, Multiset.filter_singleton, hne, he]

/-- What arrives from engine `e` is what it has been told is taken. -/
theorem ofEngine_arrive (hl : c.Legal s o) (e : Fin 8) :
    ofEngine e.val (s.arrive o false + s.arrive o true) = optM (s.accepted o e) := by
  rw [arrive_eq, ofEngine_add, ofEngine_winner hl, ofEngine_winner hl, accepted, Mmu.reqReady]
  by_cases h1 : s.mmu.acceptFirst o = true ∧ s.mmu.firstWinner o = some e
  · have h2 : ¬ (s.mmu.acceptSecond o = true ∧ s.mmu.secondWinner o = some e) := fun h2 =>
      winner_ne h1.2 h2.2 rfl
    simp [h1, h2, optM]
  · by_cases h2 : s.mmu.acceptSecond o = true ∧ s.mmu.secondWinner o = some e
    · simp [h1, h2, optM]
    · simp [h1, h2, optM]

theorem resp_unfold (m : Mmu) (e : Fin 8) : m.resp e = [3, 2, 1, 0].findSome? fun b : Fin 4 =>
    if (m.respBuf b).valid = true ∧ vaEngine (m.respBuf b).va = e.val then some (m.respBuf b).data
    else none := by
  have hl : List.finRange 4 = [0, 1, 2, 3] := rfl
  simp only [Mmu.resp, hl, List.foldl_cons, List.foldl_nil, List.findSome?_cons, List.findSome?_nil]
  repeat' split
  all_goals simp_all

theorem resp_eq_some {m : Mmu} {e : Fin 8} {d : Node} (h : m.resp e = some d) :
    ∃ b, (m.respBuf b).valid = true ∧ vaEngine (m.respBuf b).va = e.val ∧ (m.respBuf b).data = d := by
  rw [resp_unfold] at h
  obtain ⟨b, -, hb⟩ := List.exists_of_findSome?_eq_some h
  split at hb
  · rename_i hv
    exact ⟨b, hv.1, hv.2, Option.some.inj hb⟩
  · cases hb

theorem resp_isSome {m : Mmu} {e : Fin 8} (hv : (m.respBuf b).valid = true)
    (he : vaEngine (m.respBuf b).va = e.val) : (m.resp e).isSome = true := by
  rw [resp_unfold, List.findSome?_isSome_iff]
  exact ⟨b, by clear hv he; revert b; decide, by simp [hv, he]⟩

theorem mem_faulted {r : Req} : r ∈ s.faulted w ↔ (s.mmu.ptw w).state = .fault ∧ s.mmu.pipe w = r := by
  by_cases h : (s.mmu.ptw w).state = .fault
  · simp [faulted, h, optM, eq_comm]
  · simp [faulted, h, optM]

theorem mem_respBuf {r : Req} :
    r ∈ s.held x (.respBuf b) ↔ (s.mmu.respBuf b).valid = true ∧ x.buf b = r := by
  by_cases h : (s.mmu.respBuf b).valid = true
  · simp [held, h, optM, eq_comm]
  · simp [held, h, optM]

theorem mem_leaves {r : Req} : r ∈ s.leaves x ↔
    (∃ w, (s.mmu.ptw w).state = .fault ∧ s.mmu.pipe w = r) ∨
      ∃ b, (s.mmu.respBuf b).valid = true ∧ x.buf b = r := by
  simp only [leaves, Multiset.mem_add, Multiset.mem_sum, mem_faulted, mem_respBuf, Finset.mem_univ,
    true_and, Bool.exists_bool]

theorem Inv.respReject_eq (h : s.Inv c x) (e : Fin 8) : s.mmu.respReject e = true ↔
    ∃ w, (s.mmu.ptw w).state = .fault ∧ vaEngine (s.mmu.pipe w).va = e.val := by
  simp [Mmu.respReject, h.faultEff, Bool.exists_bool]

/-- Engine `e` is answered when a request of its leaves. -/
theorem Inv.answered_iff (h : s.Inv c x) (e : Fin 8) :
    s.answered e = true ↔ ∃ r ∈ s.leaves x, vaEngine r.va = e.val := by
  rw [answered, Bool.or_eq_true, h.respReject_eq]
  constructor
  · rintro (hr | ⟨w, hw, he⟩)
    · obtain ⟨d, hd⟩ := Option.isSome_iff_exists.1 hr
      obtain ⟨b, hv, he, -⟩ := resp_eq_some hd
      exact ⟨x.buf b, mem_leaves.2 (.inr ⟨b, hv, rfl⟩), by rw [← ((h.track b).resp hv).2.2]; exact he⟩
    · exact ⟨_, mem_leaves.2 (.inl ⟨w, hw, rfl⟩), he⟩
  · rintro ⟨r, hr, he⟩
    rcases mem_leaves.1 hr with ⟨w, hw, rfl⟩ | ⟨b, hv, rfl⟩
    · exact .inr ⟨w, hw, he⟩
    · refine .inl (resp_isSome hv ?_)
      rw [((h.track b).resp hv).2.2]; exact he

theorem leaves_le (s : MmuSys) (x : MmuGhost) : s.leaves x ≤ s.flight x := by
  have hf : ∀ w, s.faulted w ≤ s.held x (.walker w) := fun w => by
    by_cases h : (s.mmu.ptw w).state = .fault
    · simp [faulted, held, Hptw.busy, h]
    · simp [faulted, h, optM]
  have hb : ∑ b, s.held x (.respBuf b) ≤
      ∑ b, (s.held x (.bankFifo b) + s.held x (.bank b) + s.held x (.respBuf b)) :=
    Finset.sum_le_sum fun b _ => Multiset.le_add_left _ _
  exact add_le_add (le_trans (add_le_add (hf false) (hf true)) (Multiset.le_add_left _ _)) hb

theorem ofEngine_leaves (h : s.Inv c x) (e : Fin 8) :
    ofEngine e.val (s.leaves x) = if s.answered e then optM (c.pend e) else 0 := by
  have hle := ofEngine_le (e := e.val) (leaves_le s x)
  rw [h.flight.one e] at hle
  split
  · rename_i ha
    obtain ⟨r, hr, he⟩ := (h.answered_iff e).1 ha
    refine Multiset.eq_of_le_of_card_le hle ?_
    have hmem : r ∈ ofEngine e.val (s.leaves x) := Multiset.mem_filter.2 ⟨hr, he⟩
    have := Multiset.card_pos_iff_exists_mem.2 ⟨r, hmem⟩
    have := card_optM_le (c.pend e)
    omega
  · rename_i ha
    refine Multiset.eq_zero_of_forall_notMem fun r hr => ha ?_
    exact (h.answered_iff e).2 ⟨r, (Multiset.mem_filter.1 hr).1, (Multiset.mem_filter.1 hr).2⟩

/-- Nothing is lost, duplicated or made up in one clock cycle. -/
theorem Flight.step (h : s.Inv c x) (hl : c.Legal s o) :
    (s.step o).Flight (c.next s o) (x.next s) := by
  constructor
  · intro e
    have htot := congrArg (ofEngine e.val) (flight_step h o)
    rw [ofEngine_add, ofEngine_add, ofEngine_arrive hl, ofEngine_leaves h, h.flight.one e] at htot
    simp only [Clients.next]
    cases hacc : s.accepted o e with
    | none =>
      rw [hacc] at htot
      cases ha : s.answered e with
      | true => simpa [ha, optM] using htot
      | false => simpa [ha, optM] using htot
    | some r =>
      have hr : o e = some r := by
        unfold accepted at hacc; split at hacc <;> [exact hacc; cases hacc]
      rw [hacc] at htot
      rcases (hl e r hr).1 with hp | ha
      · simpa [hp, optM] using htot
      · simp only [ha, if_true] at htot
        rw [add_comm] at htot
        simpa using add_left_cancel htot
  · intro e r hr
    simp only [Clients.next] at hr
    split at hr
    · unfold accepted at hr
      split at hr
      · exact (hl e r hr).2
      · cases hr
    · split at hr
      · cases hr
      · exact h.flight.own e r hr

end MmuSys

end HftSim
