import HftSim.MmuData

/-!
# The MMU is a memory

A read answered with `resp_valid` returns what its client last wrote there. After a reset this only
holds while no slot is handed out twice: the reset clears the partition pointers but not the page
table, so a key mapped before the reset keeps a slot that the allocator gives away again.
-/

namespace HftSim

open Function MmuSys

variable {s : MmuSys} {c : Clients} {x : MmuGhost}

/-- What is known after a restart: `dflt` is what an address reads as before it is written. -/
def MmuGhost.start (s : MmuSys) (dflt : Option Node) : MmuGhost :=
  ⟨fun _ => ⟨0, false, 0⟩, fun _ => dflt, dflt, fun b => (s.bank b).nodeAt⟩

theorem MmuSys.Quiet.dataOk (h : s.Quiet) {dflt : Option Node}
    (hd : ∀ z, dflt = some z → ∀ b p n, (s.bank b).nodeAt p n = z) :
    s.DataOk .fresh (.start s dflt) where
  bank b := by
    refine MemBank.holds_of_idle (h.bank b).1 ?_
    have := (h.bank b).2
    simp only [pulse, Bool.or_eq_false_iff] at this
    exact this.1
  stored k v _ hm := hd v hm _ _ _
  unmapped _ _ := rfl
  free z hz _ _ _ := hd z hz _ _ _
  buf b hv := by rw [h.resp b] at hv; cases hv
  sync _ _ := rfl
  done := by
    rintro r ⟨-, b, ⟨hp, -⟩ | ⟨hv, -⟩⟩
    · rw [(h.bank b).2] at hp; cases hp
    · rw [h.resp b] at hv; cases hv

theorem RunReset.dataOk (h : RunReset FreshAlloc s c) : ∃ x, s.Inv c x ∧ s.DataOk c x := by
  induction h with
  | powerUp =>
    refine ⟨.start _ none, quiet_powerUp.inv tableOk_powerUp, quiet_powerUp.dataOk fun z hz => ?_⟩
    cases hz
  | step h hl hf ih =>
    obtain ⟨x, hi, hd⟩ := ih
    exact ⟨x.next _, hi.step hl hf, hd.step hi hf⟩
  | @reset s c h ih =>
    obtain ⟨x, hi, -⟩ := ih
    refine ⟨.start _ none, (quiet_reset s).inv hi.table, (quiet_reset s).dataOk fun z hz => ?_⟩
    cases hz

theorem Run.dataOk (h : Run s c) : ∃ x, s.Inv c x ∧ s.DataOk c x ∧ x.dflt = some 0 := by
  induction h with
  | powerUp =>
    refine ⟨.start _ (some 0), quiet_powerUp.inv tableOk_powerUp, quiet_powerUp.dataOk ?_, rfl⟩
    rintro z hz b p n
    cases hz
    show (0#32).extractLsb' 0 22 ++ (0#32 ++ 0#32) = 0#86
    decide
  | @step s c o h hl ih =>
    obtain ⟨x, hi, hd, hz⟩ := ih
    have hf := h.alloc.1.fresh hi
    exact ⟨x.next _, hi.step hl hf, hd.step hi hf, hz⟩

/-- Every answer is for the client's unanswered request, and a read returns the data of the last
answered write to its key, or zero; only an answered write to a key changes what it reads as. -/
theorem mmu_reads_last_write (h : Run s c) :
    (∀ e d, s.mmu.resp e = some d →
      ∃ r, c.pend e = some r ∧ (r.wr = false → d = (c.mem (ptKey r.va)).getD 0)) ∧
    (∀ o k, (c.next s o).mem k ≠ c.mem k → ∃ r, c.pend (keyEngine k) = some r ∧
      (s.mmu.resp (keyEngine k)).isSome = true ∧ r.wr = true ∧ ptKey r.va = k ∧
      (c.next s o).mem k = some r.wdata) := by
  obtain ⟨x, hi, hd, hz⟩ := h.dataOk
  constructor
  · intro e d hr
    obtain ⟨r, hp, hdat⟩ := hd.answer hi hr
    refine ⟨r, hp, fun hw => ?_⟩
    rw [hw, hz] at hdat
    cases hm : c.mem (ptKey r.va) with
    | none => rw [hm] at hdat; exact hdat
    | some v => rw [hm] at hdat; exact hdat
  · intro o k hne
    rcases hi.mem_cases o k with ⟨b, hv, hw, rfl, hm⟩ | ⟨-, hm⟩
    · refine ⟨x.buf b, ?_, ?_, hw, rfl, hm⟩
      · rw [keyEngine_ptKey]; exact hi.buf_pend hv
      · rw [keyEngine_ptKey]; exact hi.resp_of_buf hv
    · exact absurd hm hne

theorem mmu_reads_last_write_twice :
    ∃ r, (follow (offers [(0, ⟨3, true, 9⟩), (12, ⟨3, false, 0⟩)]) .powerUp .fresh 22).2.pend 0 = some r ∧
      (r.wr = false → 9 = ((follow (offers [(0, ⟨3, true, 9⟩), (12, ⟨3, false, 0⟩)])
        .powerUp .fresh 22).2.mem (ptKey r.va)).getD 0) :=
  (mmu_reads_last_write (Run.powerUp.along (by decide +kernel))).1 0 9 (by decide +kernel)

theorem RunReset.along {ok : Mmu → Prop} (h : RunReset ok s c) {q : Nat → Fin 8 → Option Req} {n : Nat}
    (hl : LegalFor q s c n) (hok : ∀ t < n, ok (follow q s c t).1.mmu) :
    RunReset ok (follow q s c n).1 (follow q s c n).2 := by
  induction n with
  | zero => exact h
  | succ n ih =>
    exact .step (ih (fun t ht => hl t (by omega)) fun t ht => hok t (by omega)) (hl n (Nat.lt_succ_self n))
      (hok n (Nat.lt_succ_self n))

/-- With resets: as long as every allocation is fresh, a read of a key written since the last reset
returns the data of the last answered write to it. -/
theorem reset_reads_last_write (h : RunReset FreshAlloc s c) {e : Fin 8} {r : Req} {d v : Node}
    (hr : s.mmu.resp e = some d) (hp : c.pend e = some r) (hw : r.wr = false)
    (hm : c.mem (ptKey r.va) = some v) : d = v := by
  obtain ⟨x, hi, hd⟩ := h.dataOk
  obtain ⟨r', hp', hdat⟩ := hd.answer hi hr
  rw [hp] at hp'
  cases hp'
  rw [hw, hm] at hdat
  exact hdat

def used : MmuSys := (follow (offers [(0, ⟨0, true, 3⟩)]) .powerUp .fresh 12).1

theorem run_used : Run used (follow (offers [(0, ⟨0, true, 3⟩)]) .powerUp .fresh 12).2 :=
  Run.powerUp.along (by decide +kernel)

/-- The write again after the reset, and a read. -/
def rewrite : Nat → Fin 8 → Option Req := offers [(0, ⟨0, true, 4⟩), (12, ⟨0, false, 0⟩)]

theorem reset_reads_last_write_rewritten :
    ((follow rewrite used.reset .fresh 22).1.mmu.resp 0).getD 0 = 4 := by
  have hno : ∀ t < 22, ∀ w, (follow rewrite used.reset .fresh t).1.mmu.ptwAlloc w = false := by
    decide +kernel
  refine reset_reads_last_write ((RunReset.reset run_used.runReset).along (q := rewrite) (n := 22)
    (by decide +kernel) ?_) (e := 0) (r := ⟨0, false, 0⟩) (by decide +kernel) (by decide +kernel) rfl
    (by decide +kernel)
  intro t ht w hw
  rw [hno t ht w] at hw
  cases hw

/-- Key 0 is mapped to slot 0 before the reset and key 1 after it, so that a write to key 0 shows up
in a read of key 1. -/
theorem stale_slot_after_reset : ¬ ∀ s c, RunReset (fun _ => True) s c → ∀ e r d v,
    s.mmu.resp e = some d → c.pend e = some r → r.wr = false → c.mem (ptKey r.va) = some v → d = v := by
  intro h
  have hused : RunReset (fun _ => True) used _ :=
    RunReset.powerUp.along (q := offers [(0, ⟨0, true, 3⟩)]) (n := 12) (by decide +kernel) fun _ _ => trivial
  have hrun := (RunReset.reset hused).along (n := 34)
    (q := offers [(0, ⟨1, true, 7⟩), (12, ⟨0, true, 5⟩), (24, ⟨1, false, 0⟩)]) (by decide +kernel)
    fun _ _ => trivial
  have := h _ _ hrun 0 ⟨1, false, 0⟩ 5 7 (by decide +kernel) (by decide +kernel) rfl (by decide +kernel)
  revert this
  decide

end HftSim
