import HftSim.BankData
import HftSim.MmuAlloc

/-!
# The data behind the translations

`bmem` is the memory as the banks have it, `mem` as the clients know it. They differ only for a key
whose write is done and whose answer is still on its way; that key's client has no other request.
-/

namespace HftSim

open Function

/-- The node in the slot of a page-table entry. -/
def MmuGhost.slotCell (x : MmuGhost) (t : PtEntry) : Node :=
  x.cell (computedBankId t.page) (t.page - 60 * (computedBankId t.page).val) t.node

namespace MmuSys

/-- The write `r` is done in its bank, its answer not yet delivered. -/
def DoneWrite (s : MmuSys) (x : MmuGhost) (r : Req) : Prop := r.wr = true ∧
  ∃ b, (s.pulse b = true ∧ s.token b = r) ∨ ((s.mmu.respBuf b).valid = true ∧ x.buf b = r)

structure DataOk (s : MmuSys) (c : Clients) (x : MmuGhost) : Prop where
  bank : ∀ b, (s.bank b).Holds (x.cell b)
  stored : ∀ k v, (s.mmu.pageTable k).valid = true → x.bmem k = some v → x.slotCell (s.mmu.pageTable k) = v
  unmapped : ∀ k, (s.mmu.pageTable k).valid = false → x.bmem k = x.dflt
  free : ∀ z, x.dflt = some z → ∀ t : PtEntry, t.page < 240 → (∀ k, (s.mmu.pageTable k).valid = true →
    ¬ ((s.mmu.pageTable k).page = t.page ∧ (s.mmu.pageTable k).node = t.node)) → x.slotCell t = z
  buf : ∀ b, (s.mmu.respBuf b).valid = true → (s.mmu.respBuf b).data =
    if (x.buf b).wr then 0 else (x.bmem (ptKey (x.buf b).va)).getD (s.mmu.respBuf b).data
  sync : ∀ k, (∀ r, s.DoneWrite x r → ptKey r.va ≠ k) → x.bmem k = (c.mem k).or x.dflt
  done : ∀ r, s.DoneWrite x r → x.bmem (ptKey r.va) = some r.wdata

variable {s : MmuSys} {c : Clients} {x : MmuGhost} {o : Fin 8 → Option Req} {b b' : Fin 4} {k : Nat}
  {r r' : Req} {l l' : Loc}

theorem Flight.same_key (h : s.Flight c x) (hr : r ∈ s.held x l) (hr' : r' ∈ s.held x l')
    (hk : ptKey r.va = ptKey r'.va) : l = l' := by
  by_contra hne
  refine h.ne_engine hne hr hr' ?_
  have h1 := ptKey_div r.va
  have h2 := ptKey_div r'.va
  rw [hk] at h1
  omega

theorem bankKey_eq (s : MmuSys) (b : Fin 4) : MmuGhost.bankKey s b = ptKey (s.token b).va := rfl

theorem mem_bank (hb : s.busy b = true) : s.token b ∈ s.held x (.bank b) := by
  simp [held, hb, optM]

theorem busy_of_pulse (hp : s.pulse b = true) : s.busy b = true := by simp [busy, hp]

theorem busy_of_writeEnds (hw : (s.bank b).writeEnds = true) : s.busy b = true := by
  simp only [MemBank.writeEnds, Bool.and_eq_true, decide_eq_true_eq] at hw
  simp [busy, MemBank.memBusy, hw.1]

theorem not_pulse_of_writeEnds (h : s.TrackOk x b) (hw : (s.bank b).writeEnds = true) : s.pulse b = false := by
  simp only [MemBank.writeEnds, Bool.and_eq_true, decide_eq_true_eq] at hw
  by_contra hp
  have := h.pulse_idle (by simpa using hp)
  rw [hw.1] at this
  cases this

theorem bmem_cases (x : MmuGhost) (s : MmuSys) (k : Nat) :
    (∃ b, (s.bank b).writeEnds = true ∧ MmuGhost.bankKey s b = k ∧
      (x.next s).bmem k = some (s.bank b).latchedWdata) ∨
    ((∀ b, (s.bank b).writeEnds = true → MmuGhost.bankKey s b ≠ k) ∧ (x.next s).bmem k = x.bmem k) := by
  simp only [MmuGhost.next]
  cases hf : (List.finRange 4).find? fun b => (s.bank b).writeEnds && decide (MmuGhost.bankKey s b = k) with
  | some b =>
    have hb := List.find?_some hf
    simp only [Bool.and_eq_true, decide_eq_true_eq] at hb
    exact .inl ⟨b, hb.1, hb.2, rfl⟩
  | none =>
    refine .inr ⟨fun b hw hk => ?_, rfl⟩
    have := List.find?_eq_none.1 hf b (List.mem_finRange b)
    simp [hw, hk] at this

/-- While a request is outside the banks its key is left alone. -/
theorem Inv.bmem_same (h : s.Inv c x) (hr : r ∈ s.held x l) (hl : ∀ b, (s.bank b).writeEnds = true → l ≠ .bank b) :
    (x.next s).bmem (ptKey r.va) = x.bmem (ptKey r.va) := by
  rcases bmem_cases x s (ptKey r.va) with ⟨b, hw, hk, -⟩ | ⟨-, he⟩
  · exact absurd (h.flight.same_key hr (mem_bank (busy_of_writeEnds hw)) hk.symm) (hl b hw)
  · exact he

theorem Inv.page_of_busy (h : s.Inv c x) (hb : s.busy b = true) :
    (s.mmu.pageTable (MmuGhost.bankKey s b)).page = 60 * b.val + (s.bank b).latchedPage ∧
      (s.bank b).latchedPage < 60 := by
  obtain ⟨hr, hp, -⟩ := (h.track b).slot hb
  have hlt := h.table.page_lt_240 hr.1
  have hbank := computedBankId_val hlt
  rw [hr.2] at hbank
  omega

theorem Inv.slotCell_of_busy (h : s.Inv c x) (hb : s.busy b = true) :
    x.slotCell (s.mmu.pageTable (MmuGhost.bankKey s b)) =
      x.cell b (s.bank b).latchedPage (s.bank b).latchedNode := by
  obtain ⟨hr, hp, hn⟩ := (h.track b).slot hb
  rw [MmuGhost.slotCell, hr.2, hp, hn]

/-- A slot changes only when its bank finishes a write for the key mapped to it. -/
theorem Inv.slotCell_step (h : s.Inv c x) {t : PtEntry} (ht : t.page < 240)
    (hno : ∀ b, (s.bank b).writeEnds = true → ¬ ((s.mmu.pageTable (MmuGhost.bankKey s b)).page = t.page ∧
      (s.mmu.pageTable (MmuGhost.bankKey s b)).node = t.node)) :
    (x.next s).slotCell t = x.slotCell t := by
  refine if_neg ?_
  rintro ⟨hw, hp, hn⟩
  have hb := busy_of_writeEnds hw
  have hpage := h.page_of_busy hb
  have hbank := computedBankId_val ht
  refine hno _ hw ⟨by omega, ?_⟩
  rw [← ((h.track _).slot hb).2.2]
  exact hn.symm

theorem DataOk.stored_step (hd : s.DataOk c x) (h : s.Inv c x) (hf : FreshAlloc s.mmu) {v : Node}
    (hv : ((s.step o).mmu.pageTable k).valid = true) (hm : (x.next s).bmem k = some v) :
    (x.next s).slotCell ((s.step o).mmu.pageTable k) = v := by
  rcases bmem_cases x s k with ⟨b, hw, rfl, hb⟩ | ⟨hno, hb⟩
  · have hbusy := busy_of_writeEnds hw
    obtain ⟨hr, hp, hn⟩ := (h.track b).slot hbusy
    rw [hb] at hm
    rw [h.pt_keep hr.1, MmuGhost.slotCell, hr.2, ← hp, ← hn, ← Option.some.inj hm]
    exact if_pos ⟨hw, rfl, rfl⟩
  · rw [hb] at hm
    rcases h.valid_step hv with ⟨w, hmaps, he⟩ | ⟨hold, he⟩
    · have hinv := (h.walk w).allocate (ptwAlloc_state hmaps.1)
      rw [hmaps.2] at hinv
      have hlt : (s.newPte w).page < 240 := by have := h.newPte_range hmaps; omega
      rw [hd.unmapped k hinv] at hm
      rw [he, h.slotCell_step hlt fun b hw hc => ?_]
      · exact hd.free v hm _ hlt fun k' hk' hc => hf w hmaps.1 k' hk' hc
      · exact hf w hmaps.1 _ ((h.track b).slot (busy_of_writeEnds hw)).1.1 hc
    · rw [he, h.slotCell_step (h.table.page_lt_240 hold) fun b hw hc => ?_]
      · exact hd.stored k v hold hm
      · exact hno b hw
          (h.table.inj _ _ ((h.track b).slot (busy_of_writeEnds hw)).1.1 hold hc.1 hc.2)

theorem DataOk.unmapped_step (hd : s.DataOk c x) (h : s.Inv c x)
    (hv : ((s.step o).mmu.pageTable k).valid = false) : (x.next s).bmem k = x.dflt := by
  have hold : (s.mmu.pageTable k).valid = false := by
    by_contra hc
    rw [h.pt_keep (by simpa using hc)] at hv
    exact hc hv
  rcases bmem_cases x s k with ⟨b, hw, rfl, -⟩ | ⟨-, hb⟩
  · rw [((h.track b).slot (busy_of_writeEnds hw)).1.1] at hold; cases hold
  · rw [hb, hd.unmapped k hold]

theorem DataOk.free_step (hd : s.DataOk c x) (h : s.Inv c x) {z : Node} (hz : x.dflt = some z) {t : PtEntry}
    (ht : t.page < 240) (hno : ∀ k, ((s.step o).mmu.pageTable k).valid = true →
      ¬ (((s.step o).mmu.pageTable k).page = t.page ∧ ((s.step o).mmu.pageTable k).node = t.node)) :
    (x.next s).slotCell t = z := by
  have hold : ∀ k, (s.mmu.pageTable k).valid = true →
      ¬ ((s.mmu.pageTable k).page = t.page ∧ (s.mmu.pageTable k).node = t.node) := fun k hv => by
    have := hno k
    rw [h.pt_keep hv] at this
    exact this hv
  rw [h.slotCell_step ht fun b hw => hold _ ((h.track b).slot (busy_of_writeEnds hw)).1.1]
  exact hd.free z hz t ht hold

/-- A bank shows the data of the key it has read. -/
theorem DataOk.rdata (hd : s.DataOk c x) (h : s.Inv c x) (hv : (s.bank b).memRdataValid = true) :
    (s.bank b).memRdata = (x.bmem (MmuGhost.bankKey s b)).getD (s.bank b).memRdata := by
  cases hm : x.bmem (MmuGhost.bankKey s b) with
  | none => rfl
  | some v =>
    have hb : s.busy b = true := by simp [busy, pulse, hv]
    have hr := ((h.track b).slot hb).1
    calc (s.bank b).memRdata = x.cell b (s.bank b).latchedPage (s.bank b).latchedNode :=
          (hd.bank b).rdata hv
      _ = x.slotCell (s.mmu.pageTable (MmuGhost.bankKey s b)) := (h.slotCell_of_busy hb).symm
      _ = v := hd.stored _ v hr.1 hm

theorem token_not_written (h : s.Inv c x) (hp : s.pulse b = true) :
    (x.next s).bmem (MmuGhost.bankKey s b) = x.bmem (MmuGhost.bankKey s b) := by
  rw [bankKey_eq]
  refine h.bmem_same (mem_bank (busy_of_pulse hp)) fun b' hw hc => ?_
  cases hc
  rw [not_pulse_of_writeEnds (h.track b) hw] at hp
  cases hp

theorem DataOk.buf_step (hd : s.DataOk c x) (h : s.Inv c x) (hv : ((s.step o).mmu.respBuf b).valid = true) :
    ((s.step o).mmu.respBuf b).data = if ((x.next s).buf b).wr then 0 else
      ((x.next s).bmem (ptKey ((x.next s).buf b).va)).getD ((s.step o).mmu.respBuf b).data := by
  have ht := h.track b
  obtain ⟨hvalid, hbuf⟩ := respBuf_step (o := o) ht
  rw [hvalid] at hv
  have hnext : (x.next s).buf b = s.token b := if_pos hv
  rw [(hbuf hv).2, hnext, ← bankKey_eq, token_not_written h hv]
  cases hw : (s.bank b).latchedIsWrite with
  | true =>
    have hrv : (s.bank b).memRdataValid = false := by
      by_contra hc
      have := ht.rdata (by simpa using hc)
      rw [hw] at this
      cases this
    simp [token, hw, hrv]
  | false =>
    have hrv : (s.bank b).memRdataValid = true := by
      have hwd : (s.bank b).memWdone = false := by
        by_contra hc
        have := ht.wdone (by simpa using hc)
        rw [hw] at this
        cases this
      simpa [pulse, hwd] using hv
    simpa [token, hw, hrv] using hd.rdata h hrv

/-! ### Answers -/

theorem keyEngine_ptKey (va : Nat) : keyEngine (ptKey va) = ⟨vaEngine va, vaEngine_lt va⟩ := by
  have := vaEngine_lt va
  refine Fin.ext ?_
  show ptKey va / 2 ^ 11 % 8 = vaEngine va
  unfold ptKey vaEngine
  omega

theorem Inv.buf_pend (h : s.Inv c x) (hv : (s.mmu.respBuf b).valid = true) :
    c.pend ⟨vaEngine (x.buf b).va, vaEngine_lt _⟩ = some (x.buf b) :=
  h.flight.pend (l := .respBuf b) (mem_respBuf.2 ⟨hv, rfl⟩)

/-- An answer with `resp_valid` is for the client's request. -/
theorem Inv.resp_spec (h : s.Inv c x) {e : Fin 8} {d : Node} (hr : s.mmu.resp e = some d) :
    ∃ b, (s.mmu.respBuf b).valid = true ∧ (s.mmu.respBuf b).data = d ∧ c.pend e = some (x.buf b) := by
  obtain ⟨b, hv, he, hdat⟩ := resp_eq_some hr
  refine ⟨b, hv, hdat, ?_⟩
  rw [← h.buf_pend hv]
  congr 1
  rw [((h.track b).resp hv).2.2] at he
  exact Fin.ext he.symm

theorem Inv.resp_of_buf (h : s.Inv c x) (hv : (s.mmu.respBuf b).valid = true) :
    (s.mmu.resp ⟨vaEngine (x.buf b).va, vaEngine_lt _⟩).isSome = true :=
  resp_isSome hv (by rw [((h.track b).resp hv).2.2])

theorem Inv.mem_cases (h : s.Inv c x) (o : Fin 8 → Option Req) (k : Nat) :
    (∃ b, (s.mmu.respBuf b).valid = true ∧ (x.buf b).wr = true ∧ ptKey (x.buf b).va = k ∧
      (c.next s o).mem k = some (x.buf b).wdata) ∨
    ((∀ b, (s.mmu.respBuf b).valid = true → (x.buf b).wr = true → ptKey (x.buf b).va ≠ k) ∧
      (c.next s o).mem k = c.mem k) := by
  by_cases hb : ∃ b, (s.mmu.respBuf b).valid = true ∧ (x.buf b).wr = true ∧ ptKey (x.buf b).va = k
  · obtain ⟨b, hv, hw, rfl⟩ := hb
    refine .inl ⟨b, hv, hw, rfl, ?_⟩
    simp only [Clients.next, keyEngine_ptKey, h.buf_pend hv, h.resp_of_buf hv, hw, and_self, if_true]
  · refine .inr ⟨fun b hv hw hk => hb ⟨b, hv, hw, hk⟩, ?_⟩
    simp only [Clients.next]
    cases hp : c.pend (keyEngine k) with
    | none => rfl
    | some r =>
      refine if_neg fun hc => hb ?_
      obtain ⟨d, hr⟩ := Option.isSome_iff_exists.1 hc.1
      obtain ⟨b, hv, -, hpend⟩ := h.resp_spec hr
      rw [hp] at hpend
      cases hpend
      exact ⟨b, hv, hc.2.1, hc.2.2⟩

theorem DoneWrite.of_writeEnds (h : s.Inv c x) (hw : (s.bank b).writeEnds = true) :
    (s.step o).DoneWrite (x.next s) (s.token b) := by
  simp only [MemBank.writeEnds, Bool.and_eq_true, decide_eq_true_eq] at hw
  refine ⟨hw.2, b, .inl ⟨?_, token_busy h (by rw [hw.1]; decide)⟩⟩
  simp [pulse_step, MemBank.writeEnds, hw]

theorem DoneWrite.of_pulse (h : s.Inv c x) (hw : (s.token b).wr = true) (hp : s.pulse b = true) :
    (s.step o).DoneWrite (x.next s) (s.token b) :=
  ⟨hw, b, .inr ⟨by rw [(respBuf_step (h.track b)).1]; exact hp, if_pos hp⟩⟩

theorem Inv.doneWrite_step (h : s.Inv c x) (hr : (s.step o).DoneWrite (x.next s) r) :
    (∃ b, (s.bank b).writeEnds = true ∧ s.token b = r) ∨
      ∃ b, s.pulse b = true ∧ s.token b = r ∧ s.DoneWrite x r := by
  obtain ⟨hw, b, ⟨hp, ht⟩ | ⟨hv, hb⟩⟩ := hr
  · have hst : (s.bank b).state ≠ .idle := by
      intro hst
      simp [pulse_step, MemBank.readEnds, MemBank.writeEnds, hst] at hp
    rw [token_busy h hst] at ht
    refine .inl ⟨b, ?_, ht⟩
    have hlat : (s.bank b).latchedIsWrite = true := by rw [← ht] at hw; exact hw
    simpa [pulse_step, MemBank.readEnds, hlat] using hp
  · rw [(respBuf_step (h.track b)).1] at hv
    have hbuf : (x.next s).buf b = s.token b := if_pos hv
    rw [hbuf] at hb
    exact .inr ⟨b, hv, hb, hw, b, .inl ⟨hv, hb⟩⟩

theorem DataOk.done_step (hd : s.DataOk c x) (h : s.Inv c x) (hr : (s.step o).DoneWrite (x.next s) r) :
    (x.next s).bmem (ptKey r.va) = some r.wdata := by
  rcases h.doneWrite_step hr with ⟨b, hw, rfl⟩ | ⟨b, hp, rfl, hdone⟩
  · rcases bmem_cases x s (ptKey (s.token b).va) with ⟨b', hw', hk, hm⟩ | ⟨hno, -⟩
    · rw [bankKey_eq] at hk
      cases h.flight.same_key (mem_bank (busy_of_writeEnds hw')) (mem_bank (busy_of_writeEnds hw)) hk
      exact hm
    · exact absurd (bankKey_eq s b) (hno b hw)
  · rw [← bankKey_eq, token_not_written h hp, bankKey_eq]
    exact hd.done _ hdone

theorem DataOk.sync_step (hd : s.DataOk c x) (h : s.Inv c x)
    (hno : ∀ r, (s.step o).DoneWrite (x.next s) r → ptKey r.va ≠ k) :
    (x.next s).bmem k = ((c.next s o).mem k).or x.dflt := by
  have hbm : (x.next s).bmem k = x.bmem k := by
    rcases bmem_cases x s k with ⟨b, hw, hk, -⟩ | ⟨-, he⟩
    · rw [bankKey_eq] at hk
      exact absurd hk (hno _ (.of_writeEnds h hw))
    · exact he
  rw [hbm]
  rcases h.mem_cases o k with ⟨b, hv, hw, rfl, hm⟩ | ⟨hold, hm⟩
  · rw [hm, hd.done _ ⟨hw, b, .inr ⟨hv, rfl⟩⟩]
    rfl
  · rw [hm]
    refine hd.sync k ?_
    rintro r ⟨hw, b, ⟨hp, rfl⟩ | ⟨hv, rfl⟩⟩
    · exact hno _ (.of_pulse h hw hp)
    · exact hold b hv hw

theorem DataOk.step (hd : s.DataOk c x) (h : s.Inv c x) (hf : FreshAlloc s.mmu) :
    (s.step o).DataOk (c.next s o) (x.next s) where
  bank b := (hd.bank b).step (fun hst => (h.page_of_busy (by simp [busy, MemBank.memBusy, hst])).2) _ _
  stored _ _ hv hm := hd.stored_step h hf hv hm
  unmapped _ hv := hd.unmapped_step h hv
  free _ hz _ ht hno := hd.free_step h hz ht hno
  buf _ hv := hd.buf_step h hv
  sync _ hno := hd.sync_step h hno
  done _ hr := hd.done_step h hr

theorem DataOk.answer (hd : s.DataOk c x) (h : s.Inv c x) {e : Fin 8} {d : Node}
    (hr : s.mmu.resp e = some d) :
    ∃ r, c.pend e = some r ∧ d = if r.wr then 0 else ((c.mem (ptKey r.va)).or x.dflt).getD d := by
  obtain ⟨b, hv, rfl, hp⟩ := h.resp_spec hr
  refine ⟨x.buf b, hp, ?_⟩
  have hbuf := hd.buf b hv
  cases hw : (x.buf b).wr with
  | true => rw [hw] at hbuf; exact hbuf
  | false =>
    rw [hw] at hbuf
    rw [hd.sync] at hbuf
    · exact hbuf
    · rintro r ⟨hrw, b', ⟨hp', rfl⟩ | ⟨hv', rfl⟩⟩ hk
      · cases h.flight.same_key (mem_bank (busy_of_pulse hp')) (mem_respBuf.2 ⟨hv, rfl⟩) hk
      · cases h.flight.same_key (mem_respBuf.2 ⟨hv', rfl⟩) (mem_respBuf.2 ⟨hv, rfl⟩) hk
        rw [hw] at hrw
        cases hrw

end MmuSys

end HftSim
