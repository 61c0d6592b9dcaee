import HftSim.MemBank

/-!
# A bank stores nodes

`Holds m cell`: outside of an access the three words of each node spell out `cell`. A write replaces
them one by one and `cell` changes when the last one is in place; a read collects them one by one.
-/

namespace HftSim

open Function

theorem low64_append (a : BitVec 22) (b c : BitVec 32) : (a ++ b ++ c).extractLsb' 0 64 = b ++ c := by
  apply BitVec.eq_of_getLsbD_eq
  intro i hi
  simp only [BitVec.getLsbD_extractLsb', BitVec.getLsbD_append, hi, decide_true, Bool.true_and, Nat.zero_add]
  split
  · rfl
  · rw [if_pos (by omega)]

theorem words_eq (x : Node) : (0#10 ++ x.extractLsb' 64 22).extractLsb' 0 22 ++
    (x.extractLsb' 32 32 ++ x.extractLsb' 0 32) = x := by
  apply BitVec.eq_of_getLsbD_eq
  intro i hi
  simp only [BitVec.getLsbD_extractLsb', BitVec.getLsbD_append, Nat.zero_add]
  split
  · split
    · simp [*]
    · have : i - 32 < 32 := by omega
      simp [this, show 32 + (i - 32) = i by omega]
  · have : i - (32 + 32) < 22 := by omega
    simp [this, show 64 + (i - (32 + 32)) = i by omega]

namespace MemBank

variable {m : MemBank} {i : BankIn} {j p n : Nat} {cell : Nat → Nat → Node}

/-- The node spelt out by its three words. -/
def nodeAt (m : MemBank) (p n : Nat) : Node :=
  (m.bram p (n * 4 + 2)).extractLsb' 0 22 ++ (m.bram p (n * 4 + 1) ++ m.bram p (n * 4))

def Writing (m : MemBank) (p n : Nat) : Prop :=
  (m.state = .phase1 ∨ m.state = .phase2) ∧ m.latchedIsWrite = true ∧ p = m.latchedPage ∧ n = m.latchedNode

/-- The words an access has dealt with. -/
structure Holds (m : MemBank) (cell : Nat → Nat → Node) : Prop where
  cells : ∀ p n, ¬ m.Writing p n → m.nodeAt p n = cell p n
  write1 : m.state = .phase1 → m.latchedIsWrite = true →
    m.bram m.latchedPage (m.latchedNode * 4) = m.latchedWdata.extractLsb' 0 32
  write2 : m.state = .phase2 → m.latchedIsWrite = true →
    m.bram m.latchedPage (m.latchedNode * 4) = m.latchedWdata.extractLsb' 0 32 ∧
      m.bram m.latchedPage (m.latchedNode * 4 + 1) = m.latchedWdata.extractLsb' 32 32
  read1 : m.state = .phase1 → m.latchedIsWrite = false →
    m.activeRdata = m.bram m.latchedPage (m.latchedNode * 4)
  read2 : m.state = .phase2 → m.latchedIsWrite = false →
    m.readAssemble.extractLsb' 0 32 = m.bram m.latchedPage (m.latchedNode * 4) ∧
      m.activeRdata = m.bram m.latchedPage (m.latchedNode * 4 + 1)
  read3 : m.state = .doneRead → m.latchedIsWrite = false →
    m.readAssemble.extractLsb' 0 64 =
        m.bram m.latchedPage (m.latchedNode * 4 + 1) ++ m.bram m.latchedPage (m.latchedNode * 4) ∧
      m.activeRdata = m.bram m.latchedPage (m.latchedNode * 4 + 2)
  rdata : m.memRdataValid = true → m.memRdata = cell m.latchedPage m.latchedNode

def cellNext (m : MemBank) (cell : Nat → Nat → Node) (p n : Nat) : Node :=
  if m.writeEnds = true ∧ p = m.latchedPage ∧ n = m.latchedNode then m.latchedWdata else cell p n

theorem bram_step_of_read (hw : m.latchedIsWrite = false) : (m.step j i).bram = m.bram := by
  funext p a
  simp [step, bramWe, hw]

theorem bram_step_of_idle (h : m.inPhase = false) : (m.step j i).bram = m.bram := by
  funext p a
  simp [step, bramWe, h]

theorem bram_step_of_write (h : m.inPhase = true) (hw : m.latchedIsWrite = true) (hp : m.latchedPage < 60) :
    (m.step j i).bram = update m.bram m.latchedPage (update (m.bram m.latchedPage) m.bramAddr m.bramWdata) := by
  funext p a
  by_cases hpp : p = m.latchedPage
  · subst hpp
    simp [step, bramWe, h, hw, hp, update_apply]
  · simp [step, bramWe, hpp]

theorem rdata_step_of_read (h : m.inPhase = true) (hw : m.latchedIsWrite = false) (hp : m.latchedPage < 60) :
    (m.step j i).bramRdata m.latchedPage = m.bram m.latchedPage m.bramAddr := by
  simp [step, bramRe, h, hw, hp]

theorem nodeAt_congr {m' : MemBank} (h : m'.bram = m.bram) : m'.nodeAt p n = m.nodeAt p n := by
  simp only [nodeAt, h]

theorem nodeAt_write {m' : MemBank} {q l a : Nat} {v : BitVec 32} (ha : a / 4 = l)
    (hb : m'.bram = update m.bram q (update (m.bram q) a v)) (hne : ¬ (p = q ∧ n = l)) :
    m'.nodeAt p n = m.nodeAt p n := by
  have hword : ∀ i < 4, m'.bram p (n * 4 + i) = m.bram p (n * 4 + i) := by
    intro i hi
    rw [hb]
    by_cases hp : p = q
    · subst hp
      have hnl : n ≠ l := fun h => hne ⟨rfl, h⟩
      rw [update_self, update_of_ne (by omega)]
    · rw [update_of_ne hp]
  have h0 := hword 0 (by omega)
  have h1 := hword 1 (by omega)
  have h2 := hword 2 (by omega)
  simp only [Nat.add_zero] at h0
  simp only [nodeAt, h0, h1, h2]

theorem latched_of_busy (h : m.state ≠ .idle) : (m.step j i).latchedIsWrite = m.latchedIsWrite ∧
    (m.step j i).latchedPage = m.latchedPage ∧ (m.step j i).latchedNode = m.latchedNode ∧
    (m.step j i).latchedWdata = m.latchedWdata := by
  simp [step, starts, h]

theorem Holds.step_idle (h : m.Holds cell) (hst : m.state = .idle) :
    (m.step j i).Holds (m.cellNext cell) := by
  have hst' : (m.step j i).state = .idle ∨ (m.step j i).state = .phase0 := by
    show m.nState i = .idle ∨ m.nState i = .phase0
    unfold nState
    rw [hst]
    cases i.memRe || i.memWe <;> simp
  have hb : (m.step j i).bram = m.bram := bram_step_of_idle (by simp [inPhase, hst])
  have hv : (m.step j i).memRdataValid = false := by
    show m.readEnds = false
    simp [readEnds, hst]
  refine ⟨fun p n _ => ?_, ?_, ?_, ?_, ?_, ?_, fun hc => by rw [hv] at hc; cases hc⟩
  · rw [nodeAt_congr hb, h.cells p n (by simp [Writing, hst])]
    simp [cellNext, writeEnds, hst]
  all_goals intro hs; rcases hst' with h' | h' <;> rw [h'] at hs <;> cases hs

theorem Holds.step_phase0 (h : m.Holds cell) (hst : m.state = .phase0) (hp : m.latchedPage < 60) :
    (m.step j i).Holds (m.cellNext cell) := by
  have hst' : (m.step j i).state = .phase1 := by show m.nState i = _; simp [nState, hst]
  obtain ⟨hw', hp', hn', hd'⟩ := latched_of_busy (j := j) (i := i) (m := m) (by simp [hst])
  have hin : m.inPhase = true := by simp [inPhase, hst]
  have hv : (m.step j i).memRdataValid = false := by
    show m.readEnds = false
    simp [readEnds, hst]
  have haddr : m.bramAddr = m.latchedNode * 4 := by simp [bramAddr, hst]
  refine ⟨fun p n hno => ?_, fun _ hw => ?_, fun hs => ?_, fun _ hw => ?_, fun hs => ?_, fun hs => ?_,
    fun hc => ?_⟩
  · have hcell : m.cellNext cell p n = cell p n := by simp [cellNext, writeEnds, hst]
    rw [hcell, ← h.cells p n (by simp [Writing, hst])]
    cases hw : m.latchedIsWrite with
    | false => exact nodeAt_congr (bram_step_of_read hw)
    | true =>
      refine nodeAt_write (l := m.latchedNode) ?_ (bram_step_of_write hin hw hp) fun hc => hno ?_
      · rw [haddr]; omega
      · exact ⟨.inl hst', by rw [hw', hw], by rw [hp', hc.1], by rw [hn', hc.2]⟩
  · rw [hw'] at hw
    rw [bram_step_of_write hin hw hp, hp', hn', hd', update_self, haddr, update_self]
    simp [bramWdata, hst]
  · rw [hst'] at hs; cases hs
  · rw [hw'] at hw
    rw [activeRdata, hp', rdata_step_of_read hin hw hp, bram_step_of_read hw, hn', haddr]
  · rw [hst'] at hs; cases hs
  · rw [hst'] at hs; cases hs
  · rw [hv] at hc; cases hc

theorem Holds.step_phase1 (h : m.Holds cell) (hst : m.state = .phase1) (hp : m.latchedPage < 60) :
    (m.step j i).Holds (m.cellNext cell) := by
  have hst' : (m.step j i).state = .phase2 := by show m.nState i = _; simp [nState, hst]
  obtain ⟨hw', hp', hn', hd'⟩ := latched_of_busy (j := j) (i := i) (m := m) (by simp [hst])
  have hin : m.inPhase = true := by simp [inPhase, hst]
  have hv : (m.step j i).memRdataValid = false := by
    show m.readEnds = false
    simp [readEnds, hst]
  have haddr : m.bramAddr = m.latchedNode * 4 + 1 := by simp [bramAddr, hst]
  refine ⟨fun p n hno => ?_, fun hs => ?_, fun _ hw => ?_, fun hs => ?_, fun _ hw => ?_, fun hs => ?_,
    fun hc => ?_⟩
  · have hcell : m.cellNext cell p n = cell p n := by simp [cellNext, writeEnds, hst]
    have hold : ¬ m.Writing p n := fun hc =>
      hno ⟨.inr hst', by rw [hw', hc.2.1], by rw [hp', hc.2.2.1], by rw [hn', hc.2.2.2]⟩
    rw [hcell, ← h.cells p n hold]
    cases hw : m.latchedIsWrite with
    | false => exact nodeAt_congr (bram_step_of_read hw)
    | true =>
      refine nodeAt_write (l := m.latchedNode) ?_ (bram_step_of_write hin hw hp) fun hc => hold ?_
      · rw [haddr]; omega
      · exact ⟨.inl hst, hw, hc.1, hc.2⟩
  · rw [hst'] at hs; cases hs
  · rw [hw'] at hw
    rw [bram_step_of_write hin hw hp, hp', hn', hd', update_self, haddr, update_self,
      update_of_ne (by omega), h.write1 hst hw]
    simp [bramWdata, hst]
  · rw [hst'] at hs; cases hs
  · rw [hw'] at hw
    rw [activeRdata, hp', rdata_step_of_read hin hw hp, bram_step_of_read hw, hn', haddr]
    refine ⟨?_, rfl⟩
    rw [← h.read1 hst hw]
    show m.nReadAssemble.extractLsb' 0 32 = _
    simp only [nReadAssemble, hw, hst, Bool.false_eq_true, if_false]
    exact BitVec.extractLsb'_append_eq_right
  · rw [hst'] at hs; cases hs
  · rw [hv] at hc; cases hc

theorem Holds.step_phase2 (h : m.Holds cell) (hst : m.state = .phase2) (hp : m.latchedPage < 60) :
    (m.step j i).Holds (m.cellNext cell) := by
  have hst' : (m.step j i).state = if m.latchedIsWrite then .idle else .doneRead := by
    show m.nState i = _
    simp [nState, hst]
  obtain ⟨hw', hp', hn', hd'⟩ := latched_of_busy (j := j) (i := i) (m := m) (by simp [hst])
  have hin : m.inPhase = true := by simp [inPhase, hst]
  have hv : (m.step j i).memRdataValid = false := by
    show m.readEnds = false
    simp [readEnds, hst]
  have haddr : m.bramAddr = m.latchedNode * 4 + 2 := by simp [bramAddr, hst]
  refine ⟨fun p n hno => ?_, fun hs => ?_, fun hs => ?_, fun hs => ?_, fun hs => ?_, fun hs hw => ?_,
    fun hc => ?_⟩
  · cases hw : m.latchedIsWrite with
    | false =>
      rw [nodeAt_congr (bram_step_of_read hw), h.cells p n (by simp [Writing, hw])]
      simp [cellNext, writeEnds, hw]
    | true =>
      have hb := bram_step_of_write (j := j) (i := i) hin hw hp
      by_cases hpn : p = m.latchedPage ∧ n = m.latchedNode
      · -- the last word completes the node
        obtain ⟨rfl, rfl⟩ := hpn
        obtain ⟨h0, h1⟩ := h.write2 hst hw
        rw [nodeAt, hb, update_self, haddr, update_self, update_of_ne (by omega), update_of_ne (by omega), h0,
          h1]
        simp only [cellNext, writeEnds, hst, hw, decide_true, Bool.and_self, and_self, if_true, bramWdata]
        exact words_eq _
      · rw [nodeAt_write (l := m.latchedNode) (by rw [haddr]; omega) hb hpn,
          h.cells p n fun hc => hpn ⟨hc.2.2.1, hc.2.2.2⟩]
        exact (if_neg fun hc => hpn hc.2).symm
  · rw [hst'] at hs; split at hs <;> cases hs
  · rw [hst'] at hs; split at hs <;> cases hs
  · rw [hst'] at hs; split at hs <;> cases hs
  · rw [hst'] at hs; split at hs <;> cases hs
  · rw [hw'] at hw
    obtain ⟨h0, h1⟩ := h.read2 hst hw
    rw [activeRdata, hp', rdata_step_of_read hin hw hp, bram_step_of_read hw, hn', haddr]
    refine ⟨?_, rfl⟩
    rw [← h0, ← h1]
    show m.nReadAssemble.extractLsb' 0 64 = _
    simp only [nReadAssemble, hw, hst, Bool.false_eq_true, if_false]
    exact low64_append _ _ _
  · rw [hv] at hc; cases hc

theorem Holds.step_doneRead (h : m.Holds cell) (hst : m.state = .doneRead) :
    (m.step j i).Holds (m.cellNext cell) := by
  have hst' : (m.step j i).state = .idle := by show m.nState i = _; simp [nState, hst]
  obtain ⟨hw', hp', hn', -⟩ := latched_of_busy (j := j) (i := i) (m := m) (by simp [hst])
  have hb : (m.step j i).bram = m.bram := bram_step_of_idle (by simp [inPhase, hst])
  have hcell : m.cellNext cell = cell := by funext p n; simp [cellNext, writeEnds, hst]
  have hno : ∀ p n, ¬ m.Writing p n := fun p n => by simp [Writing, hst]
  rw [hcell]
  refine ⟨fun p n _ => by rw [nodeAt_congr hb, h.cells p n (hno p n)], ?_, ?_, ?_, ?_, ?_, fun hv => ?_⟩
  · intro hs; rw [hst'] at hs; cases hs
  · intro hs; rw [hst'] at hs; cases hs
  · intro hs; rw [hst'] at hs; cases hs
  · intro hs; rw [hst'] at hs; cases hs
  · intro hs; rw [hst'] at hs; cases hs
  · have hends : m.readEnds = true := hv
    have hw : m.latchedIsWrite = false := by
      simp only [readEnds, Bool.and_eq_true, Bool.not_eq_true'] at hends; exact hends.2
    obtain ⟨h01, h2⟩ := h.read3 hst hw
    have hr : (m.step j i).memRdata = m.activeRdata.extractLsb' 0 22 ++ m.readAssemble.extractLsb' 0 64 :=
      if_pos hends
    rw [hr, h01, h2, hp', hn', ← h.cells _ _ (hno _ _)]
    rfl

theorem Holds.step (h : m.Holds cell) (hp : m.state ≠ .idle → m.latchedPage < 60) (j : Nat) (i : BankIn) :
    (m.step j i).Holds (m.cellNext cell) := by
  cases hst : m.state with
  | idle => exact h.step_idle hst
  | phase0 => exact h.step_phase0 hst (hp (by simp [hst]))
  | phase1 => exact h.step_phase1 hst (hp (by simp [hst]))
  | phase2 => exact h.step_phase2 hst (hp (by simp [hst]))
  | doneRead => exact h.step_doneRead hst

theorem holds_of_idle (hst : m.state = .idle) (hv : m.memRdataValid = false) : m.Holds m.nodeAt := by
  constructor <;> simp [hst, hv]

end MemBank

end HftSim
