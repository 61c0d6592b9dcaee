import HftSim.MmuSys
import Mathlib.Algebra.Order.BigOperators.Group.Finset
import Mathlib.Tactic.Abel

/-!
# The MMU invariant

`Inv s c x` holds in every state that clients who keep to one request at a time can bring about:

* every request inside the MMU is its client's unanswered one, and is at one place (`Flight`);
* the page table maps each key into its partition, no two keys to one slot (`TableOk`), and each
  walker's registers agree with it (`WalkOk`), as do the entries of the bank FIFOs and the banks;
* a bank's tracking FIFO holds the address of the request it works on (`TrackOk`);
* the nodes the banks store, and the answers on their way, are the data last written (`DataOk`).

A bank serves two engines, so at most two requests are ever queued for it: the arbiter never turns
a walker away, and the two walkers never allocate in one partition.
-/

namespace HftSim

open Function

/-- The requests of engine `e`. -/
def ofEngine (e : Nat) (q : Multiset Req) : Multiset Req := q.filter fun r => vaEngine r.va = e

/-- An entry of the page table stays in its partition: pages `15p, …, 15p + 14`, 64 nodes each. -/
structure TableOk (pt : Nat → PtEntry) : Prop where
  key_lt : ∀ k, (pt k).valid = true → k < 2 ^ 14
  page_ge : ∀ k, (pt k).valid = true → 15 * (k / 2 ^ 10) ≤ (pt k).page
  page_lt : ∀ k, (pt k).valid = true → (pt k).page < 15 * (k / 2 ^ 10) + 15
  node_lt : ∀ k, (pt k).valid = true → (pt k).node < 64
  inj : ∀ k k', (pt k).valid = true → (pt k').valid = true → (pt k).page = (pt k').page →
    (pt k).node = (pt k').node → k = k'

/-- A request for key `k` that has been translated belongs to bank `b`. -/
def Routed (pt : Nat → PtEntry) (b : Fin 4) (k : Nat) : Prop :=
  (pt k).valid = true ∧ computedBankId (pt k).page = b

namespace Mmu

structure WalkOk (m : Mmu) (w : Bool) : Prop where
  paValid : (m.ptw w).paValidReg = decide ((m.ptw w).state = .done)
  fault : (m.ptw w).faultReg = decide ((m.ptw w).state = .fault)
  key : (m.ptw w).state ≠ .idle → (m.ptw w).latchedKey = ptKey (m.pipe w).va
  lookup : (m.ptw w).state = .lookup → m.ptRdata w = m.pageTable (m.ptw w).latchedKey
  allocate : (m.ptw w).state = .allocate → (m.pageTable (m.ptw w).latchedKey).valid = false
  done : (m.ptw w).state = .done → Routed m.pageTable (m.bankId w) (m.ptw w).latchedKey ∧
    (m.ptw w).paReg =
      computedPa (m.pageTable (m.ptw w).latchedKey).page (m.pageTable (m.ptw w).latchedKey).node

end Mmu

namespace MmuSys

/-- The entries of a bank FIFO carry their translation. -/
def QueueOk (s : MmuSys) (b : Fin 4) : Prop := ∀ t ∈ (s.mmu.bankFifo b).toList 4,
  Routed s.mmu.pageTable b (ptKey t.req.va) ∧
    t.pa = computedPa (s.mmu.pageTable (ptKey t.req.va)).page (s.mmu.pageTable (ptKey t.req.va)).node

/-- One bank, its tracking FIFO and its response buffer. -/
structure TrackOk (s : MmuSys) (x : MmuGhost) (b : Fin 4) : Prop where
  cnt : (s.mmu.vaFifo b).cnt = if s.busy b then 1 else 0
  pulse_idle : s.pulse b = true → (s.bank b).state = .idle
  rdata : (s.bank b).memRdataValid = true → (s.bank b).latchedIsWrite = false
  wdone : (s.bank b).memWdone = true → (s.bank b).latchedIsWrite = true
  doneRead : (s.bank b).state = .doneRead → (s.bank b).latchedIsWrite = false
  resp : (s.mmu.respBuf b).valid = true → s.pulse b = false ∧
    ((s.bank b).state = .idle ∨ (s.bank b).state = .phase0) ∧ (s.mmu.respBuf b).va = (x.buf b).va
  slot : s.busy b = true → Routed s.mmu.pageTable b (MmuGhost.bankKey s b) ∧
    (s.bank b).latchedPage = (s.mmu.pageTable (MmuGhost.bankKey s b)).page - 60 * b.val ∧
    (s.bank b).latchedNode = (s.mmu.pageTable (MmuGhost.bankKey s b)).node
  bufSlot : (s.mmu.respBuf b).valid = true → Routed s.mmu.pageTable b (ptKey (x.buf b).va)

/-- Nothing is lost, duplicated or made up. -/
structure Flight (s : MmuSys) (c : Clients) (x : MmuGhost) : Prop where
  one : ∀ e : Fin 8, ofEngine e.val (s.flight x) = optM (c.pend e)
  own : ∀ e r, c.pend e = some r → r.va < 2 ^ 32 ∧ vaEngine r.va = e.val

/-- The part of the invariant that is about where requests are. -/
structure Inv (s : MmuSys) (c : Clients) (x : MmuGhost) : Prop where
  inWF : ∀ w, (s.mmu.inFifo w).WF 8
  bankWF : ∀ b, (s.mmu.bankFifo b).WF 4
  vaWF : ∀ b, (s.mmu.vaFifo b).WF 8
  flight : s.Flight c x
  table : TableOk s.mmu.pageTable
  part : ∀ p, (s.mmu.part p).pageOff ≤ 14 ∧ (s.mmu.part p).nodeOff ≤ 63
  walk : ∀ w, s.mmu.WalkOk w
  queue : ∀ b, s.QueueOk b
  track : ∀ b, s.TrackOk x b

end MmuSys

/-! ### Places -/

instance : Fintype Loc where
  elems := ⟨↑[Loc.inFifo false, .inFifo true, .walker false, .walker true, .bankFifo 0, .bankFifo 1,
    .bankFifo 2, .bankFifo 3, .bank 0, .bank 1, .bank 2, .bank 3, .respBuf 0, .respBuf 1, .respBuf 2,
    .respBuf 3], by decide⟩
  complete l := by
    rcases l with w | w | b | b | b
    · cases w <;> decide
    · cases w <;> decide
    all_goals revert b; decide

theorem sum_loc {M : Type*} [AddCommMonoid M] (f : Loc → M) :
    ∑ l, f l = (f (.inFifo false) + f (.inFifo true)) + (f (.walker false) + f (.walker true)) +
      ∑ b, (f (.bankFifo b) + f (.bank b) + f (.respBuf b)) := by
  have h : ∑ l, f l = ([Loc.inFifo false, .inFifo true, .walker false, .walker true, .bankFifo 0,
      .bankFifo 1, .bankFifo 2, .bankFifo 3, .bank 0, .bank 1, .bank 2, .bank 3, .respBuf 0, .respBuf 1,
      .respBuf 2, .respBuf 3].map f).sum := rfl
  rw [h, Fin.sum_univ_four]
  simp only [List.map_cons, List.map_nil, List.sum_cons, List.sum_nil, add_zero]
  abel

theorem MmuSys.flight_eq_sum (s : MmuSys) (x : MmuGhost) : s.flight x = ∑ l, s.held x l :=
  (sum_loc _).symm

theorem ofEngine_add (e : Nat) (q q' : Multiset Req) : ofEngine e (q + q') = ofEngine e q + ofEngine e q' :=
  Multiset.filter_add _ _ _

theorem ofEngine_le {e : Nat} {q q' : Multiset Req} (h : q ≤ q') : ofEngine e q ≤ ofEngine e q' :=
  Multiset.filter_le_filter _ h

theorem card_optM_le (r : Option Req) : (optM r).card ≤ 1 := by cases r <;> simp [optM]

namespace MmuSys

variable {s : MmuSys} {c : Clients} {x : MmuGhost} {l m : Loc} {r r' : Req}

theorem held_add_le (h : l ≠ m) : s.held x l + s.held x m ≤ s.flight x := by
  rw [flight_eq_sum, ← Finset.sum_pair h]
  exact Finset.sum_le_sum_of_subset (Finset.subset_univ _)

theorem held_le (l : Loc) : s.held x l ≤ s.flight x := by
  rw [flight_eq_sum]; exact Finset.single_le_sum (fun _ _ => Multiset.zero_le _) (Finset.mem_univ l)

theorem vaEngine_lt (va : Nat) : vaEngine va < 8 := Nat.mod_lt _ (by omega)

theorem Flight.pend (h : s.Flight c x) (hr : r ∈ s.held x l) :
    c.pend ⟨vaEngine r.va, vaEngine_lt _⟩ = some r := by
  have hmem : r ∈ ofEngine (vaEngine r.va) (s.flight x) :=
    Multiset.mem_filter.2 ⟨Multiset.mem_of_le (held_le l) hr, rfl⟩
  have := h.one ⟨vaEngine r.va, vaEngine_lt _⟩
  rw [this] at hmem
  cases hp : c.pend ⟨vaEngine r.va, vaEngine_lt _⟩ with
  | none => rw [hp] at hmem; simp [optM] at hmem
  | some r' => rw [hp] at hmem; rw [Multiset.mem_singleton.1 hmem]

theorem Flight.ne_engine (h : s.Flight c x) (hne : l ≠ m) (hr : r ∈ s.held x l)
    (hr' : r' ∈ s.held x m) : vaEngine r.va ≠ vaEngine r'.va := by
  intro heq
  have hle : ({r} : Multiset Req) + {r'} ≤ s.flight x :=
    le_trans (add_le_add (Multiset.singleton_le.2 hr) (Multiset.singleton_le.2 hr')) (held_add_le hne)
  have hcard := Multiset.card_le_card (ofEngine_le (e := vaEngine r.va) hle)
  rw [h.one ⟨vaEngine r.va, vaEngine_lt _⟩] at hcard
  have := card_optM_le (c.pend ⟨vaEngine r.va, vaEngine_lt _⟩)
  have htwo : (ofEngine (vaEngine r.va) ({r} + {r'})).card = 2 := by
    simp [ofEngine, Multiset.filter_singleton, heq]
  omega

theorem Flight.card_le_two (h : s.Flight c x) {e f : Nat} (he : e < 8) (he' : f < 8)
    (hl : ∀ r ∈ s.held x l, vaEngine r.va = e ∨ vaEngine r.va = f) : (s.held x l).card ≤ 2 := by
  have hone : ∀ e, e < 8 → (ofEngine e (s.held x l)).card ≤ 1 := fun e he => by
    refine le_trans (Multiset.card_le_card (ofEngine_le (held_le l))) ?_
    rw [h.one ⟨e, he⟩]; exact card_optM_le _
  have hsplit : s.held x l ≤ ofEngine e (s.held x l) + ofEngine f (s.held x l) := by
    rw [Multiset.le_iff_count]
    intro r
    rw [Multiset.count_add]
    by_cases hr : r ∈ s.held x l
    · rcases hl r hr with h | h <;> simp [ofEngine, Multiset.count_filter, h]
    · simp [hr]
  have hcard := Multiset.card_le_card hsplit
  rw [Multiset.card_add] at hcard
  have h1 := hone e he
  have h2 := hone f he'
  omega

end MmuSys

end HftSim
