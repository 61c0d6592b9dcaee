import HftSim.MmuStep

/-!
# Allocation

Without a reset a partition's pointer has passed exactly the slots that the page table names in the
partition, so every allocation is fresh and the translations are one-to-one for ever.
-/

namespace HftSim

open Function

/-- The number of slots a partition's pointer has passed. -/
def PartPtr.passed (p : PartPtr) : Nat := if p.full then 960 else p.pageOff * 64 + p.nodeOff

/-- The place of an entry within partition `p`. -/
def PtEntry.offset (t : PtEntry) (p : Nat) : Nat := (t.page - 15 * p) * 64 + t.node

/-- The mapped keys of partition `p`. -/
def mapped (pt : Nat → PtEntry) (p : Nat) : Finset Nat :=
  (Finset.range (2 ^ 14)).filter fun k => (pt k).valid = true ∧ k / 2 ^ 10 = p

theorem PartPtr.passed_advance {p : PartPtr} (hf : p.full = false) (h : p.pageOff ≤ 14 ∧ p.nodeOff ≤ 63) :
    p.advance.passed = p.passed + 1 := by
  unfold PartPtr.advance
  split
  · split
    · simp [passed, hf]; omega
    · simp [passed, hf]; omega
  · simp [passed, hf]; omega

theorem PartPtr.passed_le {p : PartPtr} (h : p.pageOff ≤ 14 ∧ p.nodeOff ≤ 63) : p.passed ≤ 960 := by
  unfold passed
  split
  · exact Nat.le_refl _
  · omega

namespace MmuSys

structure AllocInv (m : Mmu) : Prop where
  below : ∀ k, (m.pageTable k).valid = true →
    (m.pageTable k).offset (k / 2 ^ 10) < (m.part (k / 2 ^ 10)).passed
  count : ∀ p, p < 16 → (mapped m.pageTable p).card = (m.part p).passed

variable {s : MmuSys} {c : Clients} {x : MmuGhost} {o : Fin 8 → Option Req} {w : Bool} {k : Nat}

theorem Maps.avail (h : s.Maps w k) : (s.mmu.part (s.mmu.partition w)).full = false := by
  have := h.1
  simp only [Mmu.ptwAlloc, Hptw.alloc, Mmu.ptwIn, Mmu.allocAvail, Bool.and_eq_true, Bool.not_eq_true'] at this
  exact this.2

theorem Inv.newPte_offset (h : s.Inv c x) (hk : s.Maps w k) :
    (s.newPte w).offset (k / 2 ^ 10) = (s.mmu.part (k / 2 ^ 10)).passed := by
  have hp := h.partition_eq hk.busy
  rw [hk.2] at hp
  have hpage : (s.newPte w).page = _ := h.allocPage_eq w
  rw [PtEntry.offset, hpage, hp, PartPtr.passed, hk.avail]
  show _ = (s.mmu.part (s.mmu.partition w)).pageOff * 64 + (s.mmu.part (s.mmu.partition w)).nodeOff
  have : (s.newPte w).node = (s.mmu.part (s.mmu.partition w)).nodeOff := rfl
  omega

/-- The slot about to be handed out lies beyond all slots in use. -/
theorem AllocInv.fresh (ha : AllocInv s.mmu) (h : s.Inv c x) : FreshAlloc s.mmu := by
  rintro w hw k hv ⟨hpage, hnode⟩
  have hmaps : s.Maps w (s.mmu.ptw w).latchedKey := ⟨hw, rfl⟩
  have hoff := h.newPte_offset hmaps
  have hrange := h.newPte_range hmaps
  have h1 := h.table.page_ge k hv
  have h2 := h.table.page_lt k hv
  have hlt := ha.below k hv
  have hp : (s.mmu.pageTable k).page = (s.newPte w).page := hpage
  have hn : (s.mmu.pageTable k).node = (s.newPte w).node := hnode
  have hpart : k / 2 ^ 10 = (s.mmu.ptw w).latchedKey / 2 ^ 10 := by omega
  unfold PtEntry.offset at hoff hlt
  rw [hpart, hp, hn] at hlt
  omega

/-- A pointer moves on exactly when a walker maps a key of its partition. -/
theorem Inv.part_cases (h : s.Inv c x) (o : Fin 8 → Option Req) (p : Nat) :
    (∃ w k, s.Maps w k ∧ k / 2 ^ 10 = p ∧ (s.step o).mmu.part p = (s.mmu.part p).advance) ∨
    ((∀ w k, s.Maps w k → k / 2 ^ 10 ≠ p) ∧ (s.step o).mmu.part p = s.mmu.part p) := by
  have hstep : (s.step o).mmu.part p = s.mmu.nPart p := rfl
  have hpart : ∀ w, s.mmu.ptwAlloc w = true → (s.mmu.ptw w).latchedKey / 2 ^ 10 = s.mmu.partition w :=
    fun w hw => h.partition_eq (by rw [ptwAlloc_state hw]; decide)
  rw [hstep, Mmu.nPart, h.allocEff, h.allocEff]
  by_cases h0 : s.mmu.ptwAlloc false = true ∧ p = s.mmu.partition false
  · exact .inl ⟨false, _, ⟨h0.1, rfl⟩, by rw [hpart _ h0.1, h0.2], if_pos h0⟩
  · rw [if_neg h0]
    by_cases h1 : s.mmu.ptwAlloc true = true ∧ p = s.mmu.partition true
    · exact .inl ⟨true, _, ⟨h1.1, rfl⟩, by rw [hpart _ h1.1, h1.2], if_pos h1⟩
    · rw [if_neg h1]
      refine .inr ⟨fun w k hk hp => ?_, rfl⟩
      have := hpart w hk.1
      rw [hk.2, hp] at this
      cases w
      · exact h0 ⟨hk.1, this⟩
      · exact h1 ⟨hk.1, this⟩

theorem Inv.part_advance (h : s.Inv c x) (hk : s.Maps w k) :
    ((s.mmu.part (k / 2 ^ 10)).advance).passed = (s.mmu.part (k / 2 ^ 10)).passed + 1 := by
  have hp := h.partition_eq hk.busy
  rw [hk.2] at hp
  exact PartPtr.passed_advance (by rw [hp]; exact hk.avail) (h.part _)

theorem Inv.passed_mono (h : s.Inv c x) (p : Nat) :
    (s.mmu.part p).passed ≤ ((s.step o).mmu.part p).passed := by
  rcases h.part_cases o p with ⟨w, k, hk, rfl, he⟩ | ⟨-, he⟩
  · rw [he, h.part_advance hk]; exact Nat.le_succ _
  · rw [he]

theorem Inv.mapped_step_of_maps (h : s.Inv c x) (hk : s.Maps w k) :
    mapped (s.step o).mmu.pageTable (k / 2 ^ 10) = insert k (mapped s.mmu.pageTable (k / 2 ^ 10)) ∧
      k ∉ mapped s.mmu.pageTable (k / 2 ^ 10) := by
  constructor
  · ext k'
    simp only [mapped, Finset.mem_filter, Finset.mem_range, Finset.mem_insert]
    constructor
    · rintro ⟨hlt, hv, hp⟩
      rcases h.valid_step hv with ⟨w', hw', -⟩ | ⟨hv', -⟩
      · exact .inl (h.maps_inj hw' hk hp).2
      · exact .inr ⟨hlt, hv', hp⟩
    · rintro (rfl | ⟨hlt, hv, hp⟩)
      · refine ⟨(h.newPte_range hk).1, ?_, rfl⟩
        rcases h.pt_cases o k' with ⟨w', -, -, he⟩ | ⟨hno, -⟩
        · rw [he]; rfl
        · exact absurd hk (hno w)
      · exact ⟨hlt, by rw [h.pt_keep hv]; exact hv, hp⟩
  · intro hmem
    have hv := (Finset.mem_filter.1 hmem).2.1
    have hinv := (h.walk w).allocate (ptwAlloc_state hk.1)
    rw [hk.2, hv] at hinv
    cases hinv

theorem Inv.mapped_step_of_not (h : s.Inv c x) {p : Nat} (hno : ∀ w k, s.Maps w k → k / 2 ^ 10 ≠ p) :
    mapped (s.step o).mmu.pageTable p = mapped s.mmu.pageTable p := by
  ext k
  simp only [mapped, Finset.mem_filter, Finset.mem_range]
  constructor
  · rintro ⟨hlt, hv, hp⟩
    rcases h.valid_step hv with ⟨w, hw, -⟩ | ⟨hv', -⟩
    · exact absurd hp (hno w k hw)
    · exact ⟨hlt, hv', hp⟩
  · rintro ⟨hlt, hv, hp⟩
    exact ⟨hlt, by rw [h.pt_keep hv]; exact hv, hp⟩

theorem AllocInv.step (ha : AllocInv s.mmu) (h : s.Inv c x) (o : Fin 8 → Option Req) :
    AllocInv (s.step o).mmu := by
  constructor
  · intro k hv
    rcases h.valid_step hv with ⟨w, hw, he⟩ | ⟨hv', he⟩
    · rcases h.part_cases o (k / 2 ^ 10) with ⟨w', k', hk', hp, hadv⟩ | ⟨hno, -⟩
      · rw [he, h.newPte_offset hw, hadv, ← hp, h.part_advance hk']
        exact Nat.lt_succ_self _
      · exact absurd rfl (hno w k hw)
    · rw [he]
      exact Nat.lt_of_lt_of_le (ha.below k hv') (h.passed_mono _)
  · intro p hp
    rcases h.part_cases o p with ⟨w, k, hk, rfl, he⟩ | ⟨hno, he⟩
    · obtain ⟨hins, hnot⟩ := h.mapped_step_of_maps (o := o) hk
      rw [hins, Finset.card_insert_of_notMem hnot, he, h.part_advance hk, ha.count _ hp]
    · rw [h.mapped_step_of_not hno, he, ha.count p hp]

/-- Nothing is mapped, and the pointers are at their first slots. -/
theorem allocInv_of_unmapped {m : Mmu} (hpt : ∀ k, (m.pageTable k).valid = false)
    (hpart : ∀ p, m.part p = ⟨0, 0, false⟩) : AllocInv m := by
  refine ⟨fun k h => (by rw [hpt k] at h; cases h), fun p _ => ?_⟩
  have : mapped m.pageTable p = ∅ := by
    ext k
    simp [mapped, hpt k]
  rw [this, hpart p]; rfl

theorem allocInv_powerUp : AllocInv powerUp.mmu := allocInv_of_unmapped (fun _ => rfl) fun _ => rfl

end MmuSys

open MmuSys

variable {s : MmuSys} {c : Clients}

theorem Run.alloc (h : Run s c) : AllocInv s.mmu ∧ ∃ x, s.Inv c x := by
  induction h with
  | powerUp => exact ⟨allocInv_powerUp, ⟨fun _ => ⟨0, false, 0⟩, fun _ => none, some 0, fun _ _ _ => 0⟩,
      quiet_powerUp.inv tableOk_powerUp⟩
  | step h hl ih =>
    obtain ⟨ha, x, hi⟩ := ih
    exact ⟨ha.step hi _, _, hi.step hl (ha.fresh hi)⟩

theorem Run.runReset (h : Run s c) : RunReset FreshAlloc s c := by
  induction h with
  | powerUp => exact .powerUp
  | step h hl ih =>
    obtain ⟨ha, x, hi⟩ := h.alloc
    exact .step ih hl (ha.fresh hi)

theorem Run.along (h : Run s c) {q : Nat → Fin 8 → Option Req} {n : Nat}
    (hl : LegalFor q s c n) : Run (follow q s c n).1 (follow q s c n).2 := by
  induction n with
  | zero => exact h
  | succ n ih => exact .step (ih fun t ht => hl t (by omega)) (hl n (Nat.lt_succ_self n))

theorem Run.pt_follow (h : Run s c) {q : Nat → Fin 8 → Option Req} {n k : Nat}
    (hl : LegalFor q s c n) (hv : (s.mmu.pageTable k).valid = true) :
    (follow q s c n).1.mmu.pageTable k = s.mmu.pageTable k := by
  induction n with
  | zero => rfl
  | succ n ih =>
    have hn := ih fun t ht => hl t (by omega)
    obtain ⟨-, x, hi⟩ := (h.along (n := n) fun t ht => hl t (by omega)).alloc
    rw [← hn]
    exact hi.pt_keep (by rw [hn]; exact hv)

theorem TableOk.partition_full {pt : Nat → PtEntry} (h : TableOk pt) (p : Nat) :
    ¬ ∀ j < 961, (pt (p * 2 ^ 10 + j)).valid = true := by
  intro hall
  have hdiv : ∀ j < 961, (p * 2 ^ 10 + j) / 2 ^ 10 = p := fun j hj => by omega
  have hmaps : ∀ j ∈ Finset.range 961, (pt (p * 2 ^ 10 + j)).offset p ∈ Finset.range 960 := by
    intro j hj
    have hj := Finset.mem_range.1 hj
    have h1 := h.page_ge _ (hall j hj)
    have h2 := h.page_lt _ (hall j hj)
    have h3 := h.node_lt _ (hall j hj)
    rw [hdiv j hj] at h1 h2
    rw [Finset.mem_range, PtEntry.offset]
    omega
  obtain ⟨j, hj, j', hj', hne, heq⟩ := Finset.exists_ne_map_eq_of_card_lt_of_maps_to (by simp) hmaps
  have hj := Finset.mem_range.1 hj
  have hj' := Finset.mem_range.1 hj'
  have h1 := h.page_ge _ (hall j hj)
  have h1' := h.page_ge _ (hall j' hj')
  have h3 := h.node_lt _ (hall j hj)
  have h3' := h.node_lt _ (hall j' hj')
  rw [hdiv j hj] at h1
  rw [hdiv j' hj'] at h1'
  unfold PtEntry.offset at heq
  have := h.inj _ _ (hall j hj) (hall j' hj') (by omega) (by omega)
  exact hne (by omega)

/-- A slot's bank, page and node are inside the banks and determine the slot. -/
theorem slot_location {page node : Nat} (hp : page < 240) (hn : node < 64) :
    MemBank.localPageIdx (computedBankId page).val (computedPa page node) < 60 ∧
      page = 60 * (computedBankId page).val +
        MemBank.localPageIdx (computedBankId page).val (computedPa page node) ∧
      node = MemBank.nodeIdx (computedPa page node) := by
  have hb := computedBankId_val hp
  rw [localPageIdx_computedPa hb.symm hp hn, nodeIdx_computedPa hn]
  omega

/-- Translations are one-to-one, stay within their partitions, and never change. -/
theorem translation_invariant (h : Run s c) :
    (∀ k k', (s.mmu.pageTable k).valid = true → (s.mmu.pageTable k').valid = true → k ≠ k' →
      ((s.mmu.pageTable k).page, (s.mmu.pageTable k).node) ≠
        ((s.mmu.pageTable k').page, (s.mmu.pageTable k').node)) ∧
    (∀ k, (s.mmu.pageTable k).valid = true → k < 2 ^ 14 ∧ 15 * (k / 2 ^ 10) ≤ (s.mmu.pageTable k).page ∧
      (s.mmu.pageTable k).page ≤ 15 * (k / 2 ^ 10) + 14 ∧ (s.mmu.pageTable k).node < 64 ∧
      (s.mmu.pageTable k).offset (k / 2 ^ 10) < (s.mmu.part (k / 2 ^ 10)).passed) ∧
    (∀ p < 16, (mapped s.mmu.pageTable p).card = (s.mmu.part p).passed ∧ (s.mmu.part p).passed ≤ 960) ∧
    (∀ reqs n k, LegalFor reqs s c n → (s.mmu.pageTable k).valid = true →
      (follow reqs s c n).1.mmu.pageTable k = s.mmu.pageTable k) ∧
    (∀ page node, page < 240 → node < 64 →
      MemBank.localPageIdx (computedBankId page).val (computedPa page node) < 60 ∧
      ∀ page' node', page' < 240 → node' < 64 → (page, node) ≠ (page', node') →
        (computedBankId page, MemBank.localPageIdx (computedBankId page).val (computedPa page node),
            MemBank.nodeIdx (computedPa page node)) ≠
          (computedBankId page', MemBank.localPageIdx (computedBankId page').val (computedPa page' node'),
            MemBank.nodeIdx (computedPa page' node'))) ∧
    s.mmu.sameAllocCollision = false := by
  obtain ⟨ha, x, hi⟩ := h.alloc
  refine ⟨?_, ?_, ?_, ?_, ?_, hi.no_collision⟩
  · intro k k' hv hv' hne heq
    exact hne (hi.table.inj k k' hv hv' (Prod.mk.inj heq).1 (Prod.mk.inj heq).2)
  · intro k hv
    refine ⟨hi.table.key_lt k hv, hi.table.page_ge k hv, ?_, hi.table.node_lt k hv, ha.below k hv⟩
    have := hi.table.page_lt k hv
    omega
  · intro p hp
    exact ⟨ha.count p hp, PartPtr.passed_le (hi.part p)⟩
  · intro reqs n k hl hv
    exact h.pt_follow hl hv
  · intro page node hp hn
    obtain ⟨hlt, hpage, hnode⟩ := slot_location hp hn
    refine ⟨hlt, ?_⟩
    intro page' node' hp' hn' hne heq
    obtain ⟨-, hpage', hnode'⟩ := slot_location hp' hn'
    simp only [Prod.mk.injEq] at heq
    have hbank := congrArg Fin.val heq.1
    exact hne (Prod.ext (by omega) (by omega))

theorem translation_invariant_oneWrite :
    (mapped (follow (offers [(0, ⟨0, true, 3⟩)]) .powerUp .fresh 5).1.mmu.pageTable 0).card = 1 := by
  have h := (translation_invariant (Run.powerUp.along (q := offers [(0, ⟨0, true, 3⟩)]) (n := 5)
    (by decide +kernel))).2.2.1 0 (by decide)
  rw [h.1]
  decide +kernel

end HftSim
