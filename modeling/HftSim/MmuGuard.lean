import HftSim.MmuAlloc

/-!
# Two walkers that allocate at once

With several requests of one engine in flight both walkers can be in `ALLOCATE` for one partition
in the same cycle. `same_alloc_collision` then keeps walker 1 from writing the page table and from
moving the pointer, and rejects its request. But the walker itself goes to `DONE` with the slot that
walker 0 has just taken in `pa_reg`, and by the time `pa_valid` is up the collision is over: the
rejected request reaches the arbiter all the same.

`after reqs t` is the MMU after `t` cycles of any traffic. As long as no collision happens every slot
belongs to the key it was handed out for (`Owned`), also where one key is given a second slot because both
walkers looked it up before either had mapped it.
-/

namespace HftSim

open Function

/-- The MMU after `t` cycles from power-up, whatever the clients offer. -/
def MmuSys.after (reqs : Nat → Fin 8 → Option Req) : Nat → MmuSys
  | 0 => .powerUp
  | t + 1 => (after reqs t).step (reqs t)

/-- What `same_alloc_collision` is for: walker 1's request is rejected, in this cycle and never again,
the page table and the pointers change by walker 0's allocation only, and the arbiter does not get
the request. -/
structure MmuSys.Guarded (s : MmuSys) (o : Fin 8 → Option Req) : Prop where
  rejected : s.mmu.respReject ⟨vaEngine (s.mmu.pipe true).va, MmuSys.vaEngine_lt _⟩ = true
  once : (s.step o).mmu.faultEff true = false
  table : (s.step o).mmu.pageTable = s.mmu.ptWrite false s.mmu.pageTable
  pointer : ∀ p, (s.step o).mmu.part p =
    if p = s.mmu.partition false then (s.mmu.part p).advance else s.mmu.part p
  unsent : (s.step o).mmu.arbValid true = false

/-- The arbiter takes a request for `key` from walker `w`, to be served from `(page, node)`. -/
def Mmu.Serves (m : Mmu) (w : Bool) (key page node : Nat) : Prop :=
  m.canEnqueue w = true ∧ ptKey (m.pipe w).va = key ∧ (m.ptw w).paReg = computedPa page node

def SlotsApart (reqs : Nat → Fin 8 → Option Req) : Prop :=
  ∀ t t' w w' key key' page node, (MmuSys.after reqs t).mmu.Serves w key page node →
    (MmuSys.after reqs t').mmu.Serves w' key' page node → key = key'

/-! ### Who a slot was handed to -/

/-- Walker `w` hands out the slot. -/
def Mmu.Hands (m : Mmu) (w : Bool) (page node : Nat) : Prop :=
  m.ptwAlloc w = true ∧ m.allocPageAvail w = page ∧ m.allocNodeAvail w = node

instance (m : Mmu) (w : Bool) (page node : Nat) : Decidable (m.Hands w page node) :=
  inferInstanceAs (Decidable (_ ∧ _ ∧ _))

/-- The keys the slots have been handed to. -/
def Mmu.nextOwner (m : Mmu) (own : Nat → Nat → Option Nat) (page node : Nat) : Option Nat :=
  if m.Hands false page node then some (m.ptw false).latchedKey
  else if m.Hands true page node then some (m.ptw true).latchedKey
  else own page node

structure Mmu.WalkOwned (m : Mmu) (own : Nat → Nat → Option Nat) (w : Bool) : Prop where
  paValid : (m.ptw w).paValidReg = decide ((m.ptw w).state = .done)
  key : (m.ptw w).state ≠ .idle → (m.ptw w).latchedKey = ptKey (m.pipe w).va
  lookup : (m.ptw w).state = .lookup → (m.ptRdata w).valid = true →
    own (m.ptRdata w).page (m.ptRdata w).node = some (m.ptw w).latchedKey
  done : (m.ptw w).state = .done → ∃ page node, own page node = some (m.ptw w).latchedKey ∧
    (m.ptw w).paReg = computedPa page node

/-- Every slot handed out is behind its partition's pointer, and the page table and the walkers name a slot for
its key only. -/
structure Mmu.Owned (m : Mmu) (own : Nat → Nat → Option Nat) : Prop where
  part : ∀ p, (m.part p).pageOff ≤ 14 ∧ (m.part p).nodeOff ≤ 63
  below : ∀ page node key, own page node = some key → key < 2 ^ 14 ∧ node < 64 ∧
    15 * (key / 2 ^ 10) ≤ page ∧ page < 15 * (key / 2 ^ 10) + 15 ∧
    (page - 15 * (key / 2 ^ 10)) * 64 + node < (m.part (key / 2 ^ 10)).passed
  table : ∀ key, (m.pageTable key).valid = true →
    own (m.pageTable key).page (m.pageTable key).node = some key
  walk : ∀ w, m.WalkOwned own w

namespace MmuSys

variable {s : MmuSys} {o : Fin 8 → Option Req} {w : Bool} {own : Nat → Nat → Option Nat} {page node key : Nat}

theorem allocEff_of_apart (hc : s.mmu.sameAllocCollision = false) (w : Bool) :
    s.mmu.allocEff w = s.mmu.ptwAlloc w := by
  cases w <;> simp [Mmu.allocEff, hc]

theorem arbValid_of_canEnqueue {m : Mmu} (h : m.canEnqueue w = true) : m.arbValid w = true := by
  unfold Mmu.canEnqueue at h
  split at h
  · rename_i hc
    simp only [Mmu.sameBankCollision, Bool.and_eq_true] at hc
    cases w
    exacts [hc.1.1, hc.1.2]
  · exact (Bool.and_eq_true _ _ ▸ h).1

/-- The slot that a walker hands out is the next one of its key's partition. -/
theorem hands_slot (h : s.mmu.Owned own) (hh : s.mmu.Hands w page node) :
    (s.mmu.ptw w).latchedKey < 2 ^ 14 ∧ (s.mmu.ptw w).latchedKey / 2 ^ 10 = s.mmu.partition w ∧ node < 64 ∧
      15 * s.mmu.partition w ≤ page ∧ page < 15 * s.mmu.partition w + 15 ∧
      (s.mmu.part (s.mmu.partition w)).full = false ∧
      (page - 15 * s.mmu.partition w) * 64 + node = (s.mmu.part (s.mmu.partition w)).passed := by
  obtain ⟨ha, rfl, rfl⟩ := hh
  have hst := ptwAlloc_state ha
  have hkey := (h.walk w).key (by rw [hst]; decide)
  have hfull : (s.mmu.part (s.mmu.partition w)).full = false := by
    simp only [Mmu.ptwAlloc, Hptw.alloc, Mmu.ptwIn, Mmu.allocAvail, Bool.and_eq_true, Bool.not_eq_true'] at ha
    exact ha.2
  have hlt := partition_lt s.mmu w
  obtain ⟨h1, h2⟩ := h.part (s.mmu.partition w)
  have hpage : s.mmu.allocPageAvail w = 15 * s.mmu.partition w + (s.mmu.part (s.mmu.partition w)).pageOff := by
    unfold Mmu.allocPageAvail; omega
  have hnode : s.mmu.allocNodeAvail w = (s.mmu.part (s.mmu.partition w)).nodeOff := rfl
  refine ⟨by rw [hkey]; exact ptKey_lt _, by rw [hkey, ptKey_div]; rfl, by omega, by omega, by omega, hfull, ?_⟩
  rw [PartPtr.passed, hfull, hpage, hnode]
  simp only [Bool.false_eq_true, if_false]
  omega

theorem hands_fresh (h : s.mmu.Owned own) (hh : s.mmu.Hands w page node) : own page node = none := by
  rcases hown : own page node with _ | key
  · rfl
  obtain ⟨-, -, h1, h2, h3⟩ := h.below page node key hown
  obtain ⟨-, -, -, h4, h5, -, h6⟩ := hands_slot h hh
  have hp : key / 2 ^ 10 = s.mmu.partition w := by omega
  rw [hp] at h3
  omega

/-- Walkers that hand out slots at once do so in different partitions. -/
theorem hands_apart (h : s.mmu.Owned own) (hc : s.mmu.sameAllocCollision = false)
    (h0 : s.mmu.Hands false page node) : ¬ s.mmu.Hands true page node := by
  intro h1
  obtain ⟨-, -, -, h2, h3, -⟩ := hands_slot h h0
  obtain ⟨-, -, -, h4, h5, -⟩ := hands_slot h h1
  have hp : s.mmu.partition false = s.mmu.partition true := by omega
  simp [Mmu.sameAllocCollision, h0.1, h1.1, hp] at hc

theorem nextOwner_hands (h : s.mmu.Owned own) (hc : s.mmu.sameAllocCollision = false)
    (hh : s.mmu.Hands w page node) : s.mmu.nextOwner own page node = some (s.mmu.ptw w).latchedKey := by
  unfold Mmu.nextOwner
  cases w with
  | false => rw [if_pos hh]
  | true =>
    rw [if_neg fun h0 => hands_apart h hc h0 hh, if_pos hh]

theorem nextOwner_keep (h : s.mmu.Owned own) (hown : own page node = some key) :
    s.mmu.nextOwner own page node = some key := by
  unfold Mmu.nextOwner
  split_ifs with h0 h1
  · rw [hands_fresh h h0] at hown; cases hown
  · rw [hands_fresh h h1] at hown; cases hown
  · exact hown

/-! ### One cycle -/

theorem passed_step (h : s.mmu.Owned own) (hc : s.mmu.sameAllocCollision = false) (p : Nat) :
    ((s.step o).mmu.part p).passed = (s.mmu.part p).passed +
      if ∃ w, s.mmu.ptwAlloc w = true ∧ s.mmu.partition w = p then 1 else 0 := by
  have hadv : ∀ w, s.mmu.ptwAlloc w = true → s.mmu.partition w = p →
      (s.mmu.part p).advance.passed = (s.mmu.part p).passed + 1 := by
    rintro w ha rfl
    exact PartPtr.passed_advance (hands_slot h ⟨ha, rfl, rfl⟩).2.2.2.2.2.1 (h.part _)
  show (s.mmu.nPart p).passed = _
  unfold Mmu.nPart
  rw [allocEff_of_apart hc, allocEff_of_apart hc]
  split_ifs with h0 h1 h2 h3 h4
  · exact hadv false h0.1 h0.2.symm
  · exact absurd ⟨false, h0.1, h0.2.symm⟩ h1
  · exact hadv true h2.1 h2.2.symm
  · exact absurd ⟨true, h2.1, h2.2.symm⟩ h3
  · obtain ⟨w, ha, hp⟩ := h4
    cases w
    exacts [absurd ⟨ha, hp.symm⟩ h0, absurd ⟨ha, hp.symm⟩ h2]
  · rfl

/-- An entry of the page table is old or has just been written by a walker. -/
theorem pageTable_step (hc : s.mmu.sameAllocCollision = false) (o : Fin 8 → Option Req) (key : Nat) :
    (s.step o).mmu.pageTable key = s.mmu.pageTable key ∨ ∃ w, s.mmu.ptwAlloc w = true ∧
      (s.mmu.ptw w).latchedKey = key ∧
      (s.step o).mmu.pageTable key = ⟨true, s.mmu.allocPageAvail w, s.mmu.allocNodeAvail w⟩ := by
  change s.mmu.ptWrite true (s.mmu.ptWrite false s.mmu.pageTable) key = _ ∨ ∃ w, _ ∧ _ ∧
    s.mmu.ptWrite true (s.mmu.ptWrite false s.mmu.pageTable) key = _
  unfold Mmu.ptWrite
  rw [allocEff_of_apart hc, allocEff_of_apart hc]
  split_ifs with h1 h0
  · simp only [Bool.and_eq_true, decide_eq_true_eq] at h1
    exact .inr ⟨true, h1.1.1, by rw [h1.2, h1.1.2], rfl⟩
  · simp only [Bool.and_eq_true, decide_eq_true_eq] at h0
    exact .inr ⟨false, h0.1.1, by rw [h0.2, h0.1.2], rfl⟩
  · exact .inl rfl

theorem walkOwned_step (h : s.mmu.Owned own) (hc : s.mmu.sameAllocCollision = false) (w : Bool) :
    (s.step o).mmu.WalkOwned (s.mmu.nextOwner own) w := by
  have hfrom := walk_from s o w
  refine ⟨rfl, fun hst => ?_, fun hst hv => ?_, fun hst => ?_⟩
  · rcases hidle : (s.mmu.ptw w).state with _ | _ | _ | _ | _
    · have hv : s.mmu.vaValidIn w = true := by
        by_contra hv
        rw [walk_state, hidle] at hst
        simp [hv] at hst
      obtain ⟨hk, hp, -⟩ := key_step_of_start (o := o) hv
      rw [hk, hp]
    all_goals
      obtain ⟨hk, hp⟩ := key_step_of_busy (o := o) (w := w) (s := s) (by rw [hidle]; decide)
      rw [hk, hp]
      exact (h.walk w).key (by rw [hidle]; decide)
  · simp only [hst] at hfrom
    obtain ⟨hk, -, hrd⟩ := key_step_of_start (o := o) hfrom
    rw [hrd] at hv ⊢
    rw [hk]
    exact nextOwner_keep h (h.table _ hv)
  · obtain ⟨-, hpa⟩ := walk_done s o w hst
    simp only [hst] at hfrom
    rcases hfrom with ⟨hl, hv⟩ | ⟨ha, hav⟩
    · obtain ⟨hk, -⟩ := key_step_of_busy (o := o) (w := w) (s := s) (by rw [hl]; decide)
      refine ⟨(s.mmu.ptRdata w).page, (s.mmu.ptRdata w).node, ?_, ?_⟩
      · rw [hk]; exact nextOwner_keep h ((h.walk w).lookup hl hv)
      · rw [hpa, Hptw.selectedVisiblePage, Hptw.selectedNode, if_pos hl, if_pos hl]; rfl
    · obtain ⟨hk, -⟩ := key_step_of_busy (o := o) (w := w) (s := s) (by rw [ha]; decide)
      have hall : s.mmu.ptwAlloc w = true := by simp [Mmu.ptwAlloc, Hptw.alloc, ha, Mmu.ptwIn, hav]
      refine ⟨s.mmu.allocPageAvail w, s.mmu.allocNodeAvail w, ?_, ?_⟩
      · rw [hk]; exact nextOwner_hands h hc ⟨hall, rfl, rfl⟩
      · have hl : (s.mmu.ptw w).state ≠ .lookup := by rw [ha]; decide
        rw [hpa, Hptw.selectedVisiblePage, Hptw.selectedNode, if_neg hl, if_neg hl]; rfl

theorem owned_step (h : s.mmu.Owned own) (hc : s.mmu.sameAllocCollision = false) (o : Fin 8 → Option Req) :
    (s.step o).mmu.Owned (s.mmu.nextOwner own) := by
  refine ⟨fun p => ?_, fun page node key hown => ?_, fun key hv => ?_, walkOwned_step h hc⟩
  · show (s.mmu.nPart p).pageOff ≤ 14 ∧ (s.mmu.nPart p).nodeOff ≤ 63
    unfold Mmu.nPart
    split_ifs
    exacts [PartPtr_advance_le (h.part p), PartPtr_advance_le (h.part p), h.part p]
  · -- a slot that has just been handed out is the one the pointer leaves behind
    have hnew : ∀ w, s.mmu.Hands w page node → (s.mmu.ptw w).latchedKey = key → key < 2 ^ 14 ∧ node < 64 ∧
        15 * (key / 2 ^ 10) ≤ page ∧ page < 15 * (key / 2 ^ 10) + 15 ∧
        (page - 15 * (key / 2 ^ 10)) * 64 + node < ((s.step o).mmu.part (key / 2 ^ 10)).passed := by
      rintro w hh rfl
      obtain ⟨h1, h2, h3, h4, h5, -, h6⟩ := hands_slot h hh
      rw [passed_step h hc, if_pos ⟨w, hh.1, h2.symm⟩, h2]
      exact ⟨h1, h3, h4, h5, by omega⟩
    unfold Mmu.nextOwner at hown
    split_ifs at hown with h0 h1
    · exact hnew false h0 (Option.some.inj hown)
    · exact hnew true h1 (Option.some.inj hown)
    · obtain ⟨h2, h3, h4, h5, h6⟩ := h.below page node key hown
      rw [passed_step h hc]
      exact ⟨h2, h3, h4, h5, by omega⟩
  · rcases pageTable_step hc o key with he | ⟨w, ha, rfl, he⟩
    · rw [he] at hv ⊢
      exact nextOwner_keep h (h.table key hv)
    · rw [he]
      exact nextOwner_hands h hc ⟨ha, rfl, rfl⟩

/-- A request that the arbiter takes is served from a slot of its own key. -/
theorem Serves.owner (h : s.mmu.Owned own) (hs : s.mmu.Serves w key page node) :
    ∃ page' node', own page' node' = some key ∧ computedPa page' node' = computedPa page node := by
  obtain ⟨hen, hkey, hpa⟩ := hs
  have hval : (s.mmu.ptw w).paValidReg = true := by
    have := arbValid_of_canEnqueue hen
    cases w
    · exact this
    · simp only [Mmu.arbValid, if_true, Bool.and_eq_true] at this
      exact this.1
  have hst : (s.mmu.ptw w).state = .done := by
    rw [(h.walk w).paValid] at hval
    simpa using hval
  obtain ⟨page', node', hown, hpa'⟩ := (h.walk w).done hst
  rw [(h.walk w).key (by rw [hst]; decide), hkey] at hown
  exact ⟨page', node', hown, hpa'.symm.trans hpa⟩

end MmuSys

open MmuSys

/-- The owners of the slots after `t` cycles. -/
def owners (reqs : Nat → Fin 8 → Option Req) : Nat → Nat → Nat → Option Nat
  | 0 => fun _ _ => none
  | t + 1 => (after reqs t).mmu.nextOwner (owners reqs t)

variable {reqs : Nat → Fin 8 → Option Req}

theorem owned_after (hc : ∀ t, (after reqs t).mmu.sameAllocCollision = false) (t : Nat) :
    (after reqs t).mmu.Owned (owners reqs t) := by
  induction t with
  | zero =>
    refine ⟨fun p => ⟨Nat.zero_le _, Nat.zero_le _⟩, fun _ _ _ h => (by cases h), fun _ h => (by cases h), fun w => ?_⟩
    exact ⟨rfl, fun h => absurd rfl h, fun h => (by cases h), fun h => (by cases h)⟩
  | succ t ih => exact owned_step ih (hc t) _

theorem owners_mono (hc : ∀ t, (after reqs t).mmu.sameAllocCollision = false) {t t' page node key : Nat}
    (hle : t ≤ t') (h : owners reqs t page node = some key) : owners reqs t' page node = some key := by
  induction hle with
  | refl => exact h
  | step _ ih => exact nextOwner_keep (owned_after hc _) ih

theorem computedPa_inj {page node page' node' : Nat} (h1 : page < 240) (h2 : node < 64) (h3 : page' < 240)
    (h4 : node' < 64) (h : computedPa page node = computedPa page' node') : page = page' ∧ node = node' := by
  unfold computedPa at h
  omega

theorem slotsApart_of_no_collision (hc : ∀ t, (after reqs t).mmu.sameAllocCollision = false) :
    SlotsApart reqs := by
  intro t t' w w' key key' page node h h'
  obtain ⟨p, n, hown, hpa⟩ := Serves.owner (owned_after hc t) h
  obtain ⟨p', n', hown', hpa'⟩ := Serves.owner (owned_after hc t') h'
  obtain ⟨k1, n1, -, g1, -⟩ := (owned_after hc t).below _ _ _ hown
  obtain ⟨k2, n2, -, g2, -⟩ := (owned_after hc t').below _ _ _ hown'
  obtain ⟨rfl, rfl⟩ := computedPa_inj (by omega) n1 (by omega) n2 (hpa.trans hpa'.symm)
  have hmax := owners_mono hc (Nat.le_max_left t t') hown
  rw [owners_mono hc (Nat.le_max_right t t') hown'] at hmax
  exact (Option.some.inj hmax).symm

/-- In the cycle after a collision walker 1 offers the rejected request to the arbiter. -/
theorem collision_sent {s : MmuSys} (hc : s.mmu.sameAllocCollision = true) (o : Fin 8 → Option Req) :
    (s.step o).mmu.arbValid true = true := by
  simp only [Mmu.sameAllocCollision, Bool.and_eq_true, decide_eq_true_eq] at hc
  obtain ⟨⟨h0, h1⟩, -⟩ := hc
  have hdone : ∀ w, s.mmu.ptwAlloc w = true → ((s.step o).mmu.ptw w).state = .done := fun w ha => by
    have hst := ptwAlloc_state ha
    simp only [Mmu.ptwAlloc, Hptw.alloc, Mmu.ptwIn, Bool.and_eq_true] at ha
    rw [walk_state, hst]
    simp [ha.2]
  have hno : (s.step o).mmu.sameAllocCollision = false := by
    simp [Mmu.sameAllocCollision, Mmu.ptwAlloc, Hptw.alloc, hdone false h0]
  have hpv : ((s.step o).mmu.ptw true).paValidReg = decide (((s.step o).mmu.ptw true).state = .done) := rfl
  simp [Mmu.arbValid, hno, hpv, hdone true h1]

/-- The guard against two allocations in one partition works, for any traffic, exactly as long as it is not
needed: in a run without such a cycle no slot ever serves two keys, and in every cycle with one the
rejected request goes on to the arbiter. -/
theorem guard_iff (reqs : Nat → Fin 8 → Option Req) :
    ((∀ t, (after reqs t).mmu.sameAllocCollision = true → (after reqs t).Guarded (reqs t)) ∧ SlotsApart reqs) ↔
      ∀ t, (after reqs t).mmu.sameAllocCollision = false := by
  constructor
  · rintro ⟨hguard, -⟩ t
    by_contra hc
    have hc := Bool.not_eq_false _ ▸ hc
    have hun := (hguard t hc).unsent
    rw [collision_sent hc] at hun
    cases hun
  · intro hc
    refine ⟨fun t ht => ?_, slotsApart_of_no_collision hc⟩
    rw [hc t] at ht
    cases ht

/-- Engine 0 has three requests in flight and engine 1 one: two go to the walkers at a time, and the walkers
start together. -/
def crowd (t : Nat) (e : Fin 8) : Option Req :=
  if e = 0 then [(0, (⟨0, true, 1⟩ : Req)), (1, ⟨1, true, 2⟩), (2, ⟨2, true, 3⟩)].lookup t
  else if e = 1 ∧ t = 0 then some ⟨2 ^ 29, true, 4⟩
  else none

/-- The writes of engine 0 to `VA` 1 and 2 miss in the same cycle and go to the same slot; the second of
them has been rejected. -/
theorem crowd_shares_slot :
    (after crowd 7).mmu.sameAllocCollision = true ∧ (after crowd 7).mmu.respReject 0 = true ∧
      (after crowd 8).mmu.Serves false 1 0 1 ∧ (after crowd 8).mmu.Serves true 2 0 1 := by
  refine ⟨by decide +kernel, by decide +kernel, ?_, ?_⟩
  · exact ⟨by decide +kernel, by decide +kernel, by decide +kernel⟩
  · exact ⟨by decide +kernel, by decide +kernel, by decide +kernel⟩

end HftSim
