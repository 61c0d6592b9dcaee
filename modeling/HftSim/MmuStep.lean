import HftSim.MmuFlow

/-!
# The MMU invariant is kept

The page table only gains entries, each for a key that had none, so a translation once made stays
right while the request waits for its bank. That no two keys share a slot is where the allocations
have to be fresh.
-/

namespace HftSim

open Function

theorem localPageIdx_computedPa {b page node : Nat} (hb : page / 60 = b) (hp : page < 240) (hn : node < 64) :
    MemBank.localPageIdx b (computedPa page node) = page - 60 * b := by
  have h1 : computedPa page node / 2 ^ 13 = (page + 16) % 2 ^ 8 := by unfold computedPa; omega
  unfold MemBank.localPageIdx
  rw [h1]
  omega

theorem nodeIdx_computedPa {page node : Nat} (hn : node < 64) :
    MemBank.nodeIdx (computedPa page node) = node := by
  unfold MemBank.nodeIdx computedPa
  omega

namespace MmuSys

variable {s : MmuSys} {c : Clients} {x : MmuGhost} {o : Fin 8 → Option Req} {w : Bool} {b : Fin 4}
  {k : Nat}

/-! ### The page table -/

theorem Inv.key (h : s.Inv c x) (hst : (s.mmu.ptw w).state ≠ .idle) :
    (s.mmu.ptw w).latchedKey = ptKey (s.mmu.pipe w).va := (h.walk w).key hst

theorem ptRaddr_of_busy (hst : (s.mmu.ptw w).state ≠ .idle) :
    s.mmu.ptRaddr w = (s.mmu.ptw w).latchedKey := by
  simp [Mmu.ptRaddr, Hptw.ptRaddr, hst]

def newPte (s : MmuSys) (w : Bool) : PtEntry := ⟨true, s.mmu.allocPageAvail w, s.mmu.allocNodeAvail w⟩

theorem ptWrite_eq (h : s.Inv c x) (w : Bool) (pt : Nat → PtEntry) : s.mmu.ptWrite w pt =
    if s.mmu.ptwAlloc w then update pt (s.mmu.ptw w).latchedKey (s.newPte w) else pt := by
  funext k
  unfold Mmu.ptWrite
  rw [h.allocEff]
  cases ha : s.mmu.ptwAlloc w with
  | false => rfl
  | true =>
    have hst : (s.mmu.ptw w).state ≠ .idle := by rw [ptwAlloc_state ha]; decide
    simp only [ptRaddr_of_busy hst, decide_true, Bool.and_true, Bool.true_and, decide_eq_true_eq, if_true,
      update_apply]
    rfl

/-- Walker `w` maps key `k` in this cycle. -/
def Maps (s : MmuSys) (w : Bool) (k : Nat) : Prop :=
  s.mmu.ptwAlloc w = true ∧ (s.mmu.ptw w).latchedKey = k

theorem Maps.busy (h : s.Maps w k) : (s.mmu.ptw w).state ≠ .idle := by
  rw [ptwAlloc_state h.1]; decide

/-- What a clock edge does to one entry of the page table. -/
theorem Inv.pt_cases (h : s.Inv c x) (o : Fin 8 → Option Req) (k : Nat) :
    (∃ w, s.Maps w k ∧ (s.mmu.pageTable k).valid = false ∧ (s.step o).mmu.pageTable k = s.newPte w) ∨
    ((∀ w, ¬ s.Maps w k) ∧ (s.step o).mmu.pageTable k = s.mmu.pageTable k) := by
  have hstep : (s.step o).mmu.pageTable = s.mmu.ptWrite true (s.mmu.ptWrite false s.mmu.pageTable) := rfl
  rw [hstep, ptWrite_eq h, ptWrite_eq h]
  have hinv : ∀ w, s.Maps w k → (s.mmu.pageTable k).valid = false := fun w hw =>
    hw.2 ▸ (h.walk w).allocate (ptwAlloc_state hw.1)
  have hout : ∀ (w : Bool) (pt : Nat → PtEntry), ¬ s.Maps w k → (if s.mmu.ptwAlloc w = true then
      update pt (s.mmu.ptw w).latchedKey (s.newPte w) else pt) k = pt k := fun w pt hw => by
    split
    · rename_i ha
      exact update_of_ne (fun hk => hw ⟨ha, hk.symm⟩) _ _
    · rfl
  by_cases h1 : s.Maps true k
  · refine .inl ⟨true, h1, hinv true h1, ?_⟩
    rw [if_pos h1.1, h1.2, update_self]
  · rw [hout true _ h1]
    by_cases h0 : s.Maps false k
    · refine .inl ⟨false, h0, hinv false h0, ?_⟩
      rw [if_pos h0.1, h0.2, update_self]
    · refine .inr ⟨fun w => ?_, hout false _ h0⟩
      cases w
      · exact h0
      · exact h1

theorem Inv.pt_keep (h : s.Inv c x) (hv : (s.mmu.pageTable k).valid = true) :
    (s.step o).mmu.pageTable k = s.mmu.pageTable k := by
  rcases h.pt_cases o k with ⟨w, -, hinv, -⟩ | ⟨-, hk⟩
  · rw [hv] at hinv; cases hinv
  · exact hk

theorem Inv.routed_keep (h : s.Inv c x) (hr : Routed s.mmu.pageTable b k) :
    Routed (s.step o).mmu.pageTable b k := by
  unfold Routed
  rw [h.pt_keep hr.1]
  exact hr

theorem partition_lt (m : Mmu) (w : Bool) : m.partition w < 16 := by
  have := vaEngine_lt (m.pipe w).va
  unfold Mmu.partition
  omega

theorem Inv.allocPage_eq (h : s.Inv c x) (w : Bool) : s.mmu.allocPageAvail w =
    15 * s.mmu.partition w + (s.mmu.part (s.mmu.partition w)).pageOff := by
  have h1 := partition_lt s.mmu w
  have h2 := (h.part (s.mmu.partition w)).1
  unfold Mmu.allocPageAvail
  omega

theorem Inv.partition_eq (h : s.Inv c x) (hst : (s.mmu.ptw w).state ≠ .idle) :
    (s.mmu.ptw w).latchedKey / 2 ^ 10 = s.mmu.partition w := by
  rw [h.key hst, ptKey_div]; rfl

theorem Inv.newPte_range (h : s.Inv c x) (hk : s.Maps w k) :
    k < 2 ^ 14 ∧ 15 * (k / 2 ^ 10) ≤ (s.newPte w).page ∧ (s.newPte w).page < 15 * (k / 2 ^ 10) + 15 ∧
      (s.newPte w).node < 64 := by
  have hpart := h.part (s.mmu.partition w)
  have hpage : (s.newPte w).page = _ := h.allocPage_eq w
  have hnode : (s.newPte w).node = (s.mmu.part (s.mmu.partition w)).nodeOff := rfl
  have hp := h.partition_eq hk.busy
  have hlt : (s.mmu.ptw w).latchedKey < 2 ^ 14 := by rw [h.key hk.busy]; exact ptKey_lt _
  rw [hk.2] at hp hlt
  rw [hp]
  omega

/-- Walkers that map at the same time do so in different partitions. -/
theorem Inv.maps_inj (h : s.Inv c x) {w w' : Bool} {k k' : Nat} (hk : s.Maps w k) (hk' : s.Maps w' k')
    (hp : k / 2 ^ 10 = k' / 2 ^ 10) : w = w' ∧ k = k' := by
  have heng : vaEngine (s.mmu.pipe w).va = vaEngine (s.mmu.pipe w').va := by
    have h1 := ptKey_div (s.mmu.pipe w).va
    have h2 := ptKey_div (s.mmu.pipe w').va
    rw [← h.key hk.busy, hk.2] at h1
    rw [← h.key hk'.busy, hk'.2] at h2
    omega
  have hw : w = w' := by
    cases w <;> cases w'
    · rfl
    · exact absurd heng (h.walker_ne hk.busy hk'.busy)
    · exact absurd heng.symm (h.walker_ne hk'.busy hk.busy)
    · rfl
  subst hw
  exact ⟨rfl, hk.2.symm.trans hk'.2⟩

theorem Inv.valid_step (h : s.Inv c x) (hv : ((s.step o).mmu.pageTable k).valid = true) :
    (∃ w, s.Maps w k ∧ (s.step o).mmu.pageTable k = s.newPte w) ∨
      ((s.mmu.pageTable k).valid = true ∧ (s.step o).mmu.pageTable k = s.mmu.pageTable k) := by
  rcases h.pt_cases o k with ⟨w, hw, -, hk⟩ | ⟨-, hk⟩
  · exact .inl ⟨w, hw, hk⟩
  · exact .inr ⟨by rw [← hk]; exact hv, hk⟩

theorem Inv.table_step (h : s.Inv c x) (hf : FreshAlloc s.mmu) (o : Fin 8 → Option Req) :
    TableOk (s.step o).mmu.pageTable := by
  have hrange : ∀ k, ((s.step o).mmu.pageTable k).valid = true →
      k < 2 ^ 14 ∧ 15 * (k / 2 ^ 10) ≤ ((s.step o).mmu.pageTable k).page ∧
        ((s.step o).mmu.pageTable k).page < 15 * (k / 2 ^ 10) + 15 ∧
        ((s.step o).mmu.pageTable k).node < 64 := by
    intro k hv
    rcases h.valid_step hv with ⟨w, hw, hk⟩ | ⟨hv', hk⟩
    · rw [hk]; exact h.newPte_range hw
    · rw [hk]
      exact ⟨h.table.key_lt k hv', h.table.page_ge k hv', h.table.page_lt k hv', h.table.node_lt k hv'⟩
  refine ⟨fun k hv => (hrange k hv).1, fun k hv => (hrange k hv).2.1, fun k hv => (hrange k hv).2.2.1,
    fun k hv => (hrange k hv).2.2.2, fun k k' hv hv' hp hn => ?_⟩
  have h1 := hrange k hv
  have h2 := hrange k' hv'
  rcases h.valid_step hv with ⟨w, hw, hk⟩ | ⟨hold, hk⟩ <;>
    rcases h.valid_step hv' with ⟨w', hw', hk'⟩ | ⟨hold', hk'⟩
  · exact (h.maps_inj hw hw' (by omega)).2
  -- a fresh slot is nobody's yet
  · rw [hk, hk'] at hp hn
    exact (hf w hw.1 k' hold' ⟨hp.symm, hn.symm⟩).elim
  · rw [hk, hk'] at hp hn
    exact (hf w' hw'.1 k hold ⟨hp, hn⟩).elim
  · rw [hk, hk'] at hp hn
    exact h.table.inj k k' hold hold' hp hn

theorem PartPtr_advance_le {p : PartPtr} (h : p.pageOff ≤ 14 ∧ p.nodeOff ≤ 63) :
    p.advance.pageOff ≤ 14 ∧ p.advance.nodeOff ≤ 63 := by
  unfold PartPtr.advance
  split
  · split
    · exact ⟨h.1, Nat.zero_le _⟩
    · exact ⟨by show p.pageOff + 1 ≤ 14; omega, Nat.zero_le _⟩
  · exact ⟨h.1, by show p.nodeOff + 1 ≤ 63; omega⟩

theorem Inv.part_step (h : s.Inv c x) (p : Nat) :
    ((s.step o).mmu.part p).pageOff ≤ 14 ∧ ((s.step o).mmu.part p).nodeOff ≤ 63 := by
  show (s.mmu.nPart p).pageOff ≤ 14 ∧ (s.mmu.nPart p).nodeOff ≤ 63
  unfold Mmu.nPart
  split
  · exact PartPtr_advance_le (h.part p)
  · split
    · exact PartPtr_advance_le (h.part p)
    · exact h.part p

/-! ### Walkers -/

theorem mem_inFifo_head (h : s.Inv c x) (hv : s.mmu.vaValidIn w = true) :
    s.mmu.inHead w ∈ s.held x (.inFifo w) := by
  have h0 : 0 < (s.mmu.inFifo w).cnt := by
    simp only [Mmu.vaValidIn, Bool.and_eq_true, decide_eq_true_eq] at hv; omega
  simp only [held, Multiset.mem_coe, Ring.Ring.toList_cons (h.inWF w) h0]
  exact List.mem_cons_self

theorem Inv.head_not_mapped (h : s.Inv c x) (hv : s.mmu.vaValidIn w = true) (w' : Bool) :
    ¬ s.Maps w' (ptKey (s.mmu.inHead w).va) := by
  intro hw
  refine h.flight.ne_engine (l := .inFifo w) (m := .walker w') (by simp) (mem_inFifo_head h hv)
    (mem_walker hw.busy) ?_
  have h1 := ptKey_div (s.mmu.inHead w).va
  have h2 := ptKey_div (s.mmu.pipe w').va
  rw [← h.key hw.busy, hw.2] at h2
  omega

/-- The key of a walker is not being mapped by the other one. -/
theorem Inv.not_mapped_of_busy (h : s.Inv c x) (hst : (s.mmu.ptw w).state ≠ .idle)
    (ha : (s.mmu.ptw w).state ≠ .allocate) (w' : Bool) : ¬ s.Maps w' (s.mmu.ptw w).latchedKey := by
  intro hw
  by_cases hww : w' = w
  · subst hww; exact ha (ptwAlloc_state hw.1)
  · refine h.flight.ne_engine (l := .walker w) (m := .walker w') (by simpa using Ne.symm hww)
      (mem_walker hst) (mem_walker hw.busy) ?_
    have h1 := ptKey_div (s.mmu.pipe w).va
    have h2 := ptKey_div (s.mmu.pipe w').va
    rw [← h.key hw.busy, hw.2, h.key hst] at h2
    omega

theorem Inv.pt_same (h : s.Inv c x) (hk : ∀ w, ¬ s.Maps w k) :
    (s.step o).mmu.pageTable k = s.mmu.pageTable k := by
  rcases h.pt_cases o k with ⟨w, hw, -⟩ | ⟨-, h'⟩
  · exact absurd hw (hk w)
  · exact h'

theorem walk_state (s : MmuSys) (o : Fin 8 → Option Req) (w : Bool) :
    ((s.step o).mmu.ptw w).state = match (s.mmu.ptw w).state with
      | .idle => if s.mmu.vaValidIn w then .lookup else .idle
      | .lookup => if (s.mmu.ptRdata w).valid then .done else .allocate
      | .allocate => if s.mmu.allocAvail w then .done else .fault
      | .done => .idle
      | .fault => .idle := rfl

theorem walk_from (s : MmuSys) (o : Fin 8 → Option Req) (w : Bool) :
    match ((s.step o).mmu.ptw w).state with
    | .idle => True
    | .lookup => s.mmu.vaValidIn w = true
    | .allocate => (s.mmu.ptw w).state = .lookup ∧ (s.mmu.ptRdata w).valid = false
    | .done => ((s.mmu.ptw w).state = .lookup ∧ (s.mmu.ptRdata w).valid = true) ∨
        ((s.mmu.ptw w).state = .allocate ∧ s.mmu.allocAvail w = true)
    | .fault => (s.mmu.ptw w).state = .allocate ∧ s.mmu.allocAvail w = false := by
  rw [walk_state]
  cases hst : (s.mmu.ptw w).state with
  | idle => cases hv : s.mmu.vaValidIn w <;> simp
  | lookup => cases hv : (s.mmu.ptRdata w).valid <;> simp
  | allocate => cases hv : s.mmu.allocAvail w <;> simp
  | done => trivial
  | fault => trivial

theorem walk_done (s : MmuSys) (o : Fin 8 → Option Req) (w : Bool)
    (hd : ((s.step o).mmu.ptw w).state = .done) :
    (s.step o).mmu.bankId w = computedBankId ((s.mmu.ptw w).selectedVisiblePage (s.mmu.ptwIn w)) ∧
      ((s.step o).mmu.ptw w).paReg = computedPa ((s.mmu.ptw w).selectedVisiblePage (s.mmu.ptwIn w))
        ((s.mmu.ptw w).selectedNode (s.mmu.ptwIn w)) := by
  have hn : (s.mmu.ptw w).nState (s.mmu.ptwIn w) = .done := hd
  exact ⟨if_pos hn, if_pos hn⟩

theorem vaValidIn_idle (hv : s.mmu.vaValidIn w = true) : (s.mmu.ptw w).state = .idle := by
  simp only [Mmu.vaValidIn, Hptw.busy, Bool.and_eq_true, Bool.not_eq_true', decide_eq_false_iff_not,
    not_not] at hv
  exact hv.2

theorem key_step_of_busy (hst : (s.mmu.ptw w).state ≠ .idle) :
    ((s.step o).mmu.ptw w).latchedKey = (s.mmu.ptw w).latchedKey ∧
      (s.step o).mmu.pipe w = s.mmu.pipe w := by
  have hv : s.mmu.vaValidIn w = false := by
    by_contra hv; exact hst (vaValidIn_idle (by simpa using hv))
  refine ⟨if_neg fun hc => hst hc.1, ?_⟩
  show (if s.mmu.vaValidIn w then s.mmu.inHead w else s.mmu.pipe w) = _
  rw [hv]; rfl

theorem key_step_of_start (hv : s.mmu.vaValidIn w = true) :
    ((s.step o).mmu.ptw w).latchedKey = ptKey (s.mmu.inHead w).va ∧
      (s.step o).mmu.pipe w = s.mmu.inHead w ∧
      (s.step o).mmu.ptRdata w = s.mmu.pageTable (ptKey (s.mmu.inHead w).va) := by
  have hst := vaValidIn_idle hv
  refine ⟨if_pos ⟨hst, hv⟩, if_pos hv, ?_⟩
  show s.mmu.pageTable (s.mmu.ptRaddr w) = _
  rw [Mmu.ptRaddr, Hptw.ptRaddr, if_pos ⟨hst, hv⟩]; rfl

theorem Inv.walk_step (h : s.Inv c x) (w : Bool) : (s.step o).mmu.WalkOk w := by
  have hfrom := walk_from s o w
  refine ⟨rfl, rfl, ?_, ?_, ?_, ?_⟩
  · intro hst'
    by_cases hst : (s.mmu.ptw w).state = .idle
    · cases hv : s.mmu.vaValidIn w with
      | false => rw [walk_state, hst] at hst'; simp [hv] at hst'
      | true => rw [(key_step_of_start hv).1, (key_step_of_start hv).2.1]
    · rw [(key_step_of_busy hst).1, (key_step_of_busy hst).2]
      exact h.key hst
  · intro hst'
    rw [hst'] at hfrom
    obtain ⟨hkey, -, hrd⟩ := key_step_of_start (o := o) hfrom
    rw [hkey, hrd, h.pt_same (h.head_not_mapped hfrom)]
  · intro hst'
    rw [hst'] at hfrom
    have hbusy : (s.mmu.ptw w).state ≠ .idle := by rw [hfrom.1]; decide
    rw [(key_step_of_busy hbusy).1, h.pt_same (h.not_mapped_of_busy hbusy (by rw [hfrom.1]; decide)),
      ← (h.walk w).lookup hfrom.1]
    exact hfrom.2
  · intro hst'
    obtain ⟨hbank, hpa⟩ := walk_done s o w hst'
    rw [hst'] at hfrom
    rcases hfrom with ⟨hst, hv⟩ | ⟨hst, hav⟩
    · have hbusy : (s.mmu.ptw w).state ≠ .idle := by rw [hst]; decide
      have hrd := (h.walk w).lookup hst
      simp only [Hptw.selectedVisiblePage, Hptw.selectedNode, hst, if_true, Mmu.ptwIn, hrd] at hbank hpa
      rw [hrd] at hv
      rw [(key_step_of_busy hbusy).1, Routed, h.pt_keep hv]
      exact ⟨⟨hv, hbank.symm⟩, hpa⟩
    · have hbusy : (s.mmu.ptw w).state ≠ .idle := by rw [hst]; decide
      have hmaps : s.Maps w (s.mmu.ptw w).latchedKey := by
        refine ⟨?_, rfl⟩
        simp [Mmu.ptwAlloc, Hptw.alloc, hst, Mmu.ptwIn, hav]
      simp only [Hptw.selectedVisiblePage, Hptw.selectedNode, hst, reduceCtorEq, if_false, Mmu.ptwIn]
        at hbank hpa
      rw [(key_step_of_busy hbusy).1, Routed]
      rcases h.pt_cases o (s.mmu.ptw w).latchedKey with ⟨w', hw', -, hk⟩ | ⟨hno, -⟩
      · obtain rfl := (h.maps_inj hmaps hw' rfl).1
        rw [hk]
        exact ⟨⟨rfl, hbank.symm⟩, hpa⟩
      · exact absurd hmaps (hno w)

/-! ### Banks -/

theorem Inv.queue_step (h : s.Inv c x) (b : Fin 4) : (s.step o).QueueOk b := by
  intro t ht
  have hold : Routed s.mmu.pageTable b (ptKey t.req.va) ∧ t.pa = computedPa
      (s.mmu.pageTable (ptKey t.req.va)).page (s.mmu.pageTable (ptKey t.req.va)).node := by
    rw [(bankFifo_flow h b).2.1, h.dualWrites_eq, afterEdge, List.mem_append, List.mem_append] at ht
    have hwalk : ∀ w, t ∈ (if (s.mmu.ptw w).state = .done ∧ s.mmu.bankId w = b then
        [s.mmu.arbEntry w] else []) → Routed s.mmu.pageTable b (ptKey t.req.va) ∧ t.pa = computedPa
        (s.mmu.pageTable (ptKey t.req.va)).page (s.mmu.pageTable (ptKey t.req.va)).node := by
      intro w hw
      split at hw
      · rename_i hd
        rw [List.mem_singleton.1 hw]
        have hdone := (h.walk w).done hd.1
        rw [h.key (by rw [hd.1]; decide), hd.2] at hdone
        exact hdone
      · cases hw
    rcases ht with ht | ht | ht
    · exact h.queue b t (List.mem_of_mem_drop ht)
    · exact hwalk false ht
    · exact hwalk true ht
  refine ⟨h.routed_keep hold.1, ?_⟩
  rw [h.pt_keep hold.1.1]
  exact hold.2

theorem mem_bankFifo_head (h : s.Inv c x) (hd : s.mmu.dispatch s.bankOut b = true) :
    s.mmu.bankHead b ∈ (s.mmu.bankFifo b).toList 4 := by
  have h0 : 0 < (s.mmu.bankFifo b).cnt := by
    simp only [Mmu.dispatch, Bool.and_eq_true, decide_eq_true_eq] at hd; omega
  rw [Ring.Ring.toList_cons (h.bankWF b) h0]
  exact List.mem_cons_self

theorem Inv.slot_dispatch (h : s.Inv c x) (hd : s.mmu.dispatch s.bankOut b = true) :
    Routed s.mmu.pageTable b (ptKey (s.mmu.bankHead b).req.va) ∧
      ((s.step o).bank b).latchedPage =
        (s.mmu.pageTable (ptKey (s.mmu.bankHead b).req.va)).page - 60 * b.val ∧
      ((s.step o).bank b).latchedNode = (s.mmu.pageTable (ptKey (s.mmu.bankHead b).req.va)).node := by
  obtain ⟨hr, hpa⟩ := h.queue b _ (mem_bankFifo_head h hd)
  have hlt := h.table.page_lt_240 hr.1
  have hnode := h.table.node_lt _ hr.1
  have hb := computedBankId_val hlt
  rw [hr.2] at hb
  refine ⟨hr, ?_, ?_⟩
  · simp only [step, MemBank.step, starts_eq, hd, if_true]
    show MemBank.localPageIdx b.val (s.mmu.bankHead b).pa = _
    rw [hpa]; exact localPageIdx_computedPa hb.symm hlt hnode
  · simp only [step, MemBank.step, starts_eq, hd, if_true]
    show MemBank.nodeIdx (s.mmu.bankHead b).pa = _
    rw [hpa]; exact nodeIdx_computedPa hnode

theorem Inv.track_step (h : s.Inv c x) (b : Fin 4) : (s.step o).TrackOk (x.next s) b := by
  have ht := h.track b
  obtain ⟨-, hlist⟩ := vaFifo_step (o := o) h b
  rw [vaFifo_toList h] at hlist
  have hcnt := congrArg List.length hlist
  rw [Ring.Ring.length_toList] at hcnt
  obtain ⟨hvalid, hbuf⟩ := respBuf_step (o := o) ht
  refine ⟨?_, ?_, ?_, ?_, ?_, ?_, ?_, ?_⟩
  · rcases bank_cases ht o with ⟨-, hb, -, hb'⟩ | ⟨-, hb, hp, hd, hb'⟩
    · rw [hcnt, hb, hb']
      cases s.pulse b <;> cases s.mmu.dispatch s.bankOut b <;> rfl
    · rw [hcnt, hb, hp, hd, hb']; rfl
  · intro hp'
    rw [bankState_step]
    simp only [pulse_step, MemBank.readEnds, MemBank.writeEnds, Bool.or_eq_true, Bool.and_eq_true,
      decide_eq_true_eq] at hp'
    rcases hp' with ⟨hst, -⟩ | ⟨hst, hw⟩
    · rw [hst]
    · rw [hst]; simp [hw]
  · intro hp'
    have hends : (s.bank b).readEnds = true := hp'
    simp only [MemBank.readEnds, Bool.and_eq_true, decide_eq_true_eq, Bool.not_eq_true'] at hends
    rw [(latched_step_of_busy (dispatch_of_busy (by rw [hends.1]; decide))).1]
    exact hends.2
  · intro hp'
    have hends : (s.bank b).writeEnds = true := hp'
    simp only [MemBank.writeEnds, Bool.and_eq_true, decide_eq_true_eq] at hends
    rw [(latched_step_of_busy (dispatch_of_busy (by rw [hends.1]; decide))).1]
    exact hends.2
  · intro hst'
    rw [bankState_step] at hst'
    cases hst : (s.bank b).state with
    | phase2 =>
      rw [hst] at hst'
      rw [(latched_step_of_busy (dispatch_of_busy (by rw [hst]; decide))).1]
      by_contra hw; simp [hw] at hst'
    | idle => rw [hst] at hst'; dsimp only at hst'; split at hst' <;> cases hst'
    | phase0 => rw [hst] at hst'; cases hst'
    | phase1 => rw [hst] at hst'; cases hst'
    | doneRead => rw [hst] at hst'; cases hst'
  · intro hv
    rw [hvalid] at hv
    have hst := ht.pulse_idle hv
    refine ⟨?_, ?_, ?_⟩
    · simp [pulse_step, MemBank.readEnds, MemBank.writeEnds, hst]
    · rw [bankState_step, hst]
      cases s.mmu.dispatch s.bankOut b <;> simp
    · rw [(hbuf hv).1]
      simp [MmuGhost.next, hv, token]
  · intro hb'
    have hkeep : ∀ k page node, (Routed s.mmu.pageTable b k ∧ page = (s.mmu.pageTable k).page - 60 * b.val ∧
        node = (s.mmu.pageTable k).node) → Routed (s.step o).mmu.pageTable b k ∧
        page = ((s.step o).mmu.pageTable k).page - 60 * b.val ∧
        node = ((s.step o).mmu.pageTable k).node := by
      rintro k page node ⟨hr, hp, hn⟩
      rw [h.pt_keep hr.1]
      exact ⟨h.routed_keep hr, hp, hn⟩
    refine hkeep _ _ _ ?_
    rcases bank_cases ht o with ⟨-, -, -, hd⟩ | ⟨hst, hb, -, hd, -⟩
    · rw [hb'] at hd
      have hva := congrArg Req.va (token_dispatch (o := o) h hd.symm)
      rw [MmuGhost.bankKey, show (s.step o).mmu.vaDout b = _ from hva]
      exact h.slot_dispatch hd.symm
    · have hva := congrArg Req.va (token_busy (o := o) h hst)
      obtain ⟨-, -, hp, hn⟩ := latched_step_of_busy (o := o) hd
      rw [MmuGhost.bankKey, show (s.step o).mmu.vaDout b = s.mmu.vaDout b from hva, hp, hn]
      exact ht.slot hb
  · intro hv
    rw [hvalid] at hv
    refine h.routed_keep ?_
    have := (ht.slot (by simp [busy, hv])).1
    simpa [MmuGhost.next, hv, token, MmuGhost.bankKey] using this

theorem Inv.step (h : s.Inv c x) (hl : c.Legal s o) (hf : FreshAlloc s.mmu) :
    (s.step o).Inv (c.next s o) (x.next s) where
  inWF w := (inFifo_list h w).1
  bankWF b := (bankFifo_flow h b).1
  vaWF b := (vaFifo_step h b).1
  flight := .step h hl
  table := h.table_step hf o
  part p := h.part_step p
  walk w := h.walk_step w
  queue b := h.queue_step b
  track b := h.track_step b

/-! ### Resting states -/

structure Quiet (s : MmuSys) : Prop where
  inFifo : ∀ w, (s.mmu.inFifo w).WF 8 ∧ (s.mmu.inFifo w).cnt = 0
  bankFifo : ∀ b, (s.mmu.bankFifo b).WF 4 ∧ (s.mmu.bankFifo b).cnt = 0
  vaFifo : ∀ b, (s.mmu.vaFifo b).WF 8 ∧ (s.mmu.vaFifo b).cnt = 0
  ptw : ∀ w, s.mmu.ptw w = .reset
  bank : ∀ b, (s.bank b).state = .idle ∧ s.pulse b = false
  resp : ∀ b, (s.mmu.respBuf b).valid = false
  part : ∀ p, s.mmu.part p = ⟨0, 0, false⟩

theorem Quiet.held (h : s.Quiet) (l : Loc) : s.held x l = 0 := by
  have hnil : ∀ {α : Type} {d : Nat} {r : Ring.Ring α}, r.cnt = 0 → r.toList d = [] := fun h =>
    Ring.Ring.toList_eq_nil.2 h
  rcases l with w | w | b | b | b
  · simp [MmuSys.held, hnil (h.inFifo w).2]
  · simp [MmuSys.held, h.ptw w, Hptw.busy, Hptw.reset, optM]
  · simp [MmuSys.held, hnil (h.bankFifo b).2]
  · simp [MmuSys.held, busy, MemBank.memBusy, h.bank b, optM]
  · simp [MmuSys.held, h.resp b, optM]

theorem Quiet.inv (h : s.Quiet) (ht : TableOk s.mmu.pageTable) : s.Inv .fresh x where
  inWF w := (h.inFifo w).1
  bankWF b := (h.bankFifo b).1
  vaWF b := (h.vaFifo b).1
  flight := by
    refine ⟨fun e => ?_, fun e r hr => by cases hr⟩
    rw [flight_eq_sum, Finset.sum_eq_zero fun l _ => h.held l]
    rfl
  table := ht
  part p := by rw [h.part p]; decide
  walk w := by
    constructor <;> rw [h.ptw w] <;> simp [Hptw.reset]
  queue b t htm := by
    rw [Ring.Ring.toList_eq_nil.2 (h.bankFifo b).2] at htm; cases htm
  track b := by
    have hb : s.busy b = false := by simp [busy, MemBank.memBusy, h.bank b]
    have hp := (h.bank b).2
    have hv := h.resp b
    have hst := (h.bank b).1
    simp only [pulse, Bool.or_eq_false_iff] at hp
    constructor <;> simp [hb, hp, hv, hst, pulse, (h.vaFifo b).2]

theorem quiet_powerUp : powerUp.Quiet where
  inFifo _ := ⟨fifoReset_wf (f := ⟨_, 0, 0, 0⟩) (by decide), rfl⟩
  bankFifo _ := ⟨fifoReset_wf (f := ⟨_, 0, 0, 0⟩) (by decide), rfl⟩
  vaFifo _ := ⟨fifoReset_wf (f := ⟨_, 0, 0, 0⟩) (by decide), rfl⟩
  ptw _ := rfl
  bank _ := ⟨rfl, rfl⟩
  resp _ := rfl
  part _ := rfl

theorem quiet_reset (s : MmuSys) : s.reset.Quiet where
  inFifo _ := ⟨fifoReset_wf (by decide), rfl⟩
  bankFifo _ := ⟨fifoReset_wf (by decide), rfl⟩
  vaFifo _ := ⟨fifoReset_wf (by decide), rfl⟩
  ptw _ := rfl
  bank _ := ⟨rfl, rfl⟩
  resp _ := rfl
  part _ := rfl

theorem tableOk_powerUp : TableOk powerUp.mmu.pageTable := by
  refine ⟨fun k h => ?_, fun k h => ?_, fun k h => ?_, fun k h => ?_, fun k k' h => ?_⟩ <;> cases h

end MmuSys

end HftSim
