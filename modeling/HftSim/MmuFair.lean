import HftSim.Lib.RoundRobin
import HftSim.MmuDelivery

/-!
# The MMU serves everybody

At most eight requests are inside the MMU, one of each client, so one of the input FIFOs has room at any
time and the first winner is taken. The winners come in round-robin order: a client that is passed over
moves up (`Inv.turn_step`), so its request is taken within eight cycles, and answered within 58. A request
is turned down only if its key is not mapped and its partition is full (`Inv.reject_cases`).
-/

namespace HftSim

open Function RoundRobin

/-! ### Round robin -/

/-- How many clients are looked at before `e`. -/
def Mmu.turn (m : Mmu) (e : Fin 8) : Nat := RoundRobin.turn (Fin.ofNat 8 m.rrPointer) e

theorem Mmu.turn_lt (m : Mmu) (e : Fin 8) : m.turn e < 8 := RoundRobin.turn_lt _ _

theorem Mmu.winners_eq (m : Mmu) (o : Fin 8 → Option Req) :
    m.winners o = (scan (Fin.ofNat 8 m.rrPointer)).filter fun e => (o e).isSome := by
  have h : ∀ i : Fin 8, Fin.ofNat 8 (m.rrPointer + i.val) = Fin.ofNat 8 m.rrPointer + i := by
    intro i
    refine Fin.ext ?_
    simp [Fin.val_add]
  simp only [Mmu.winners, scan, h]

theorem Mmu.winners_pairwise (m : Mmu) (o : Fin 8 → Option Req) :
    (m.winners o).Pairwise fun a b => m.turn a < m.turn b := by
  rw [m.winners_eq]; exact (scan_pairwise _).filter _

theorem Mmu.mem_winners {m : Mmu} {o : Fin 8 → Option Req} {e : Fin 8} :
    e ∈ m.winners o ↔ (o e).isSome = true := by
  rw [m.winners_eq, List.mem_filter]
  exact and_iff_right (mem_scan _ _)

/-- A winner other than `e` at place `j`, with `e` not among the first `j`, comes before `e`. -/
theorem Mmu.turn_winner {m : Mmu} {o : Fin 8 → Option Req} {e w : Fin 8} {j : Nat} (he : (o e).isSome = true)
    (hw : (m.winners o)[j]? = some w) (hno : ∀ j' ≤ j, (m.winners o)[j']? ≠ some e) : m.turn w < m.turn e := by
  obtain ⟨i, hi⟩ := List.mem_iff_getElem?.1 (Mmu.mem_winners.2 he)
  have hlt : j < i := by
    by_contra hle
    exact hno i (by omega) hi
  obtain ⟨hj, rfl⟩ := List.getElem?_eq_some_iff.1 hw
  obtain ⟨hi', rfl⟩ := List.getElem?_eq_some_iff.1 hi
  exact List.pairwise_iff_getElem.1 (m.winners_pairwise o) j i hj hi' hlt

namespace MmuSys

variable {s : MmuSys} {c : Clients} {x : MmuGhost} {o : Fin 8 → Option Req} {w : Bool} {e : Fin 8} {r : Req}

/-! ### There is room -/

theorem card_eq_sum (q : Multiset Req) : q.card = ∑ e : Fin 8, (ofEngine e.val q).card := by
  induction q using Multiset.induction_on with
  | empty => simp [ofEngine]
  | cons r q ih =>
    have hcons : ∀ e : Fin 8, (ofEngine e.val (r ::ₘ q)).card =
        (ofEngine e.val q).card + if e = ⟨vaEngine r.va, vaEngine_lt _⟩ then 1 else 0 := by
      intro e
      by_cases he : vaEngine r.va = e.val
      · simp [ofEngine, he]
      · have hne : e ≠ ⟨vaEngine r.va, vaEngine_lt _⟩ := fun hc => he (by rw [hc])
        simp [ofEngine, he, hne]
    rw [Multiset.card_cons, ih, Finset.sum_congr rfl fun e _ => hcons e, Finset.sum_add_distrib, Finset.sum_ite_eq']
    simp

theorem Flight.card_le (h : s.Flight c x) : (s.flight x).card ≤ 8 := by
  have hone : ∀ e ∈ (Finset.univ : Finset (Fin 8)), (ofEngine e.val (s.flight x)).card ≤ 1 := by
    intro e _
    rw [h.one e]
    exact card_optM_le _
  rw [card_eq_sum]
  exact le_trans (Finset.sum_le_card_nsmul _ _ 1 hone) (by simp)

/-- The input FIFO with fewer requests takes one more. -/
theorem Inv.space (h : s.Inv c x) : s.mmu.hasSpace s.mmu.firstToFifo1 = true := by
  have hle := Multiset.card_le_card (held_add_le (s := s) (x := x) (l := .inFifo false) (m := .inFifo true) (by decide))
  have hcard : ∀ w, (s.held x (.inFifo w)).card = (s.mmu.inFifo w).cnt := fun w => by simp [held]
  rw [Multiset.card_add, hcard, hcard] at hle
  have h8 := h.flight.card_le
  rw [Mmu.hasSpace, h.arbReject, Bool.not_false, Bool.and_true, Mmu.inFull, Bool.not_eq_true', decide_eq_false_iff_not]
  unfold Mmu.firstToFifo1
  by_cases hlt : (s.mmu.inFifo true).cnt < (s.mmu.inFifo false).cnt
  · simp only [hlt, decide_true]; omega
  · simp only [hlt, decide_false]; omega

theorem Inv.acceptFirst (h : s.Inv c x) (he : (o e).isSome = true) : s.mmu.acceptFirst o = true := by
  rw [Mmu.acceptFirst, h.space, Bool.and_true]
  have hpos : 0 < (s.mmu.winners o).length := List.length_pos_of_mem (Mmu.mem_winners.2 he)
  simp [Mmu.firstWinner, hpos]

/-- A client that is not served moves up. -/
theorem Inv.turn_step (h : s.Inv c x) (he : (o e).isSome = true) (hr : s.mmu.reqReady o e = false) :
    (s.step o).mmu.turn e < s.mmu.turn e := by
  have h1 := h.acceptFirst he
  simp only [Mmu.reqReady, h1, Bool.true_and, Bool.or_eq_false_iff, decide_eq_false_iff_not,
    Bool.and_eq_false_iff] at hr
  obtain ⟨hfirst, hsecond⟩ := hr
  have hptr : (s.step o).mmu.rrPointer = s.mmu.nRrPointer o := rfl
  have hnext : ∀ w : Fin 8, Fin.ofNat 8 ((w.val + 1) % 8) = w + 1 := by decide
  rw [Mmu.turn, hptr, Mmu.nRrPointer]
  cases h2 : s.mmu.acceptSecond o with
  | true =>
    have hsome : (s.mmu.secondWinner o).isSome = true := by
      simp only [Mmu.acceptSecond, Bool.and_eq_true] at h2; exact h2.1.1
    obtain ⟨w, hw⟩ := Option.isSome_iff_exists.1 hsome
    have hne : s.mmu.secondWinner o ≠ some e := hsecond.resolve_left (by simp [h2])
    rw [if_pos rfl, hw, Option.getD_some, hnext]
    refine turn_served (Mmu.turn_winner he hw fun j' hj' => ?_)
    rcases (by omega : j' = 0 ∨ j' = 1) with rfl | rfl
    · exact hfirst
    · exact hne
  | false =>
    have hsome : (s.mmu.firstWinner o).isSome = true := by
      simp only [Mmu.acceptFirst, Bool.and_eq_true] at h1; exact h1.1
    obtain ⟨w, hw⟩ := Option.isSome_iff_exists.1 hsome
    rw [if_neg Bool.false_ne_true, if_pos h1, hw, Option.getD_some, hnext]
    refine turn_served (Mmu.turn_winner he hw fun j' hj' => ?_)
    rw [Nat.le_zero.1 hj']
    exact hfirst

/-! ### Who is turned down -/

/-- A walker that turns a request down has found its key not mapped and its partition full. -/
def FaultOk (m : Mmu) : Prop := ∀ w, (m.ptw w).state = .fault →
  (m.pageTable (m.ptw w).latchedKey).valid = false ∧ (m.part ((m.ptw w).latchedKey / 2 ^ 10)).full = true

/-- A full partition stays full, -/
theorem Inv.part_full (h : s.Inv c x) {p : Nat} (hp : (s.mmu.part p).full = true) :
    (s.step o).mmu.part p = s.mmu.part p := by
  rcases h.part_cases o p with ⟨w, k, hk, rfl, -⟩ | ⟨-, he⟩
  · have := hk.avail
    rw [← h.partition_eq hk.busy, hk.2, hp] at this
    cases this
  · exact he

/-- and no key of it is mapped any more. -/
theorem Inv.unmapped_step (h : s.Inv c x) {k : Nat} (hk : (s.mmu.pageTable k).valid = false)
    (hp : (s.mmu.part (k / 2 ^ 10)).full = true) : ((s.step o).mmu.pageTable k).valid = false := by
  rw [h.pt_same fun w hw => ?_]
  · exact hk
  · have := hw.avail
    rw [← h.partition_eq hw.busy, hw.2, hp] at this
    cases this

theorem Inv.fault_step (h : s.Inv c x) (o : Fin 8 → Option Req) : FaultOk (s.step o).mmu := by
  intro w hw
  have hfrom := walk_from s o w
  rw [hw] at hfrom
  obtain ⟨hst, havail⟩ := hfrom
  have hne : (s.mmu.ptw w).state ≠ .idle := by rw [hst]; decide
  have hfull : (s.mmu.part ((s.mmu.ptw w).latchedKey / 2 ^ 10)).full = true := by
    rw [h.partition_eq hne]
    simpa [Mmu.allocAvail] using havail
  rw [(key_step_of_busy hne).1, h.part_full hfull]
  exact ⟨h.unmapped_step ((h.walk w).allocate hst) hfull, hfull⟩

theorem Inv.reject_cases (h : s.Inv c x) (hf : FaultOk s.mmu) (hr : s.mmu.respReject e = true) :
    ∃ r, c.pend e = some r ∧ (s.mmu.pageTable (ptKey r.va)).valid = false ∧
      (s.mmu.part (ptKey r.va / 2 ^ 10)).full = true := by
  obtain ⟨w, hw, he⟩ := (h.respReject_eq e).1 hr
  have hne : (s.mmu.ptw w).state ≠ .idle := by rw [hw]; decide
  have hpend := h.flight.pend (mem_walker (x := x) hne)
  rw [show (⟨vaEngine (s.mmu.pipe w).va, vaEngine_lt _⟩ : Fin 8) = e from Fin.ext he] at hpend
  have := hf w hw
  rw [h.key hne] at this
  exact ⟨_, hpend, this⟩

/-- A request that is served has its key mapped. -/
theorem Inv.mapped_of_resp (h : s.Inv c x) (hr : (s.mmu.resp e).isSome = true) (hp : c.pend e = some r) :
    (s.mmu.pageTable (ptKey r.va)).valid = true := by
  obtain ⟨d, hd⟩ := Option.isSome_iff_exists.1 hr
  obtain ⟨b, hv, he, -⟩ := resp_eq_some hd
  have hbuf := h.buf_pend hv
  rw [((h.track b).resp hv).2.2] at he
  rw [show (⟨vaEngine (x.buf b).va, vaEngine_lt _⟩ : Fin 8) = e from Fin.ext he, hp] at hbuf
  rw [Option.some.inj hbuf]
  exact ((h.track b).bufSlot hv).1

end MmuSys

open MmuSys

variable {s : MmuSys} {c : Clients} {q : Nat → Fin 8 → Option Req} {e : Fin 8} {r : Req}

theorem Run.faultOk (h : Run s c) : FaultOk s.mmu := by
  cases h with
  | powerUp => intro w hw; cases hw
  | step h hl =>
    obtain ⟨-, x, hi⟩ := h.alloc
    exact hi.fault_step _

theorem follow_add (q : Nat → Fin 8 → Option Req) (s : MmuSys) (c : Clients) (n m : Nat) :
    follow q s c (n + m) = follow (fun t => q (n + t)) (follow q s c n).1 (follow q s c n).2 m := by
  induction m with
  | zero => rfl
  | succ m ih => rw [← Nat.add_assoc, follow, ih]; rfl

/-- A client that holds its request has it taken before its turn is over. -/
theorem Run.accepted_within (h : Run s c) {n : Nat} (hl : LegalFor q s c (n + 1)) (hn : s.mmu.turn e ≤ n)
    (hq : ∀ t ≤ n, (∀ u < t, (follow q s c u).1.accepted (q u) e = none) → q t e = some r) :
    ∃ t ≤ n, (follow q s c t).1.accepted (q t) e = some r := by
  induction n generalizing s c q with
  | zero =>
    have hr : q 0 e = some r := hq 0 (Nat.le_refl 0) fun u hu => absurd hu (Nat.not_lt_zero u)
    obtain ⟨-, x, hi⟩ := h.alloc
    have hready : s.mmu.reqReady (q 0) e = true := by
      by_contra hno
      have := hi.turn_step (by rw [hr]; rfl) (Bool.eq_false_iff.2 hno)
      omega
    exact ⟨0, Nat.le_refl 0, by simp [follow, accepted, hready, hr]⟩
  | succ n ih =>
    have hr : q 0 e = some r := hq 0 (Nat.zero_le _) fun u hu => absurd hu (Nat.not_lt_zero u)
    obtain ⟨-, x, hi⟩ := h.alloc
    cases hready : s.mmu.reqReady (q 0) e with
    | true => exact ⟨0, Nat.zero_le _, by simp [follow, accepted, hready, hr]⟩
    | false =>
      have hturn := hi.turn_step (by rw [hr]; rfl) hready
      have hnone : s.accepted (q 0) e = none := by simp [accepted, hready]
      have hl0 : c.Legal s (q 0) := hl 0 (by omega)
      obtain ⟨t, ht, hacc⟩ := ih (q := fun t => q (t + 1)) (.step h hl0)
        (fun t ht => by rw [← follow_succ]; exact hl (t + 1) (by omega)) (by omega)
        (fun t ht hno => hq (t + 1) (by omega) fun u hu => by
          cases u with
          | zero => exact hnone
          | succ u => rw [follow_succ]; exact hno u (by omega))
      exact ⟨t + 1, by omega, by rw [follow_succ]; exact hacc⟩

/-- Nobody starves. A client that holds its request until it is taken has it taken within eight cycles and
answered within 58, whatever the seven others ask for; and it is turned down only if its key is not mapped
and there is no slot left in its partition, otherwise its key is mapped by then. -/
theorem mmu_serves (h : Run s c) (hl : LegalFor q s c 58)
    (hq : ∀ t ≤ 7, (∀ u < t, (follow q s c u).1.accepted (q u) e = none) → q t e = some r) :
    ∃ t ≤ 7, (follow q s c t).1.accepted (q t) e = some r ∧
      ∃ u, t < u ∧ u ≤ 58 ∧ (follow q s c u).1.answered e = true ∧
        (∀ v, t < v → v ≤ u → (follow q s c v).2.pend e = some r) ∧
        ((follow q s c u).1.mmu.respReject e = true ↔
          ((follow q s c u).1.mmu.pageTable (ptKey r.va)).valid = false) ∧
        ((follow q s c u).1.mmu.respReject e = true →
          (mapped (follow q s c u).1.mmu.pageTable (ptKey r.va / 2 ^ 10)).card = 960) := by
  obtain ⟨t, ht, hacc⟩ := h.accepted_within (hl.mono (by omega)) (Nat.le_of_lt_succ (s.mmu.turn_lt e)) hq
  have hrun : ∀ n ≤ 58, Run (follow q s c n).1 (follow q s c n).2 := fun n hn => h.along (hl.mono hn)
  have hpend : (follow q s c (t + 1)).2.pend e = some r := by
    show (Clients.next _ _ _).pend e = some r
    simp only [Clients.next, hacc, Option.isSome_some, if_true]
  obtain ⟨v, hv, hans, hkeep, -⟩ := (hrun (t + 1) (by omega)).answered_within (q := fun j => q (t + 1 + j))
    (fun j hj => by rw [← follow_add]; exact hl (t + 1 + j) (by omega)) hpend
  have hvp := hkeep v (Nat.le_refl v)
  rw [← follow_add] at hans hvp
  obtain ⟨ha, x, hi⟩ := (hrun (t + 1 + v) (by omega)).alloc
  have hf := (hrun (t + 1 + v) (by omega)).faultOk
  have hrej : ∀ {b : Prop}, (follow q s c (t + 1 + v)).1.mmu.respReject e = true →
      (((follow q s c (t + 1 + v)).1.mmu.pageTable (ptKey r.va)).valid = false →
        ((follow q s c (t + 1 + v)).1.mmu.part (ptKey r.va / 2 ^ 10)).full = true → b) → b := by
    intro b hr hb
    obtain ⟨r', hr', h1, h2⟩ := hi.reject_cases hf hr
    rw [hvp] at hr'
    cases hr'
    exact hb h1 h2
  refine ⟨t, ht, hacc, t + 1 + v, by omega, by omega, hans, fun j hj hju => ?_, ⟨fun hr => ?_, fun hno => ?_⟩, fun hr => ?_⟩
  · have := hkeep (j - (t + 1)) (by omega)
    rw [← follow_add, show t + 1 + (j - (t + 1)) = j by omega] at this
    exact this
  · exact hrej hr fun h1 _ => h1
  · rw [answered, Bool.or_eq_true] at hans
    rcases hans with hr | hr
    · rw [hi.mapped_of_resp hr hvp] at hno; cases hno
    · exact hr
  · refine hrej hr fun _ h2 => ?_
    have hk := ptKey_lt r.va
    rw [ha.count _ (by omega), PartPtr.passed, h2]
    rfl

theorem mmu_serves_oneWrite : ∃ t ≤ 7,
    (follow (offers [(0, ⟨3, true, 9⟩)]) .powerUp .fresh t).1.accepted (offers [(0, ⟨3, true, 9⟩)] t) 0 =
        some ⟨3, true, 9⟩ ∧
      ∃ u, t < u ∧ u ≤ 58 ∧ (follow (offers [(0, ⟨3, true, 9⟩)]) .powerUp .fresh u).1.answered 0 = true := by
  have hnone : ∀ t e, offers [(0, ⟨3, true, 9⟩)] (t + 1) e = none := fun t e => by
    unfold offers
    split <;> rfl
  have hl : LegalFor (offers [(0, ⟨3, true, 9⟩)]) .powerUp .fresh 58 := by
    intro t ht
    cases t with
    | zero => decide +kernel
    | succ t => exact fun e r hr => by rw [hnone] at hr; cases hr
  have hfirst : (follow (offers [(0, ⟨3, true, 9⟩)]) .powerUp .fresh 0).1.accepted
      (offers [(0, ⟨3, true, 9⟩)] 0) 0 = some ⟨3, true, 9⟩ := by decide +kernel
  obtain ⟨t, ht, hacc, u, h1, h2, h3, -⟩ := mmu_serves (e := 0) (r := ⟨3, true, 9⟩) .powerUp hl fun t ht hno => by
    cases t with
    | zero => rfl
    | succ t =>
      have := hno 0 (Nat.succ_pos t)
      rw [hfirst] at this
      cases this
  exact ⟨t, ht, hacc, u, h1, h2, h3⟩

end HftSim
