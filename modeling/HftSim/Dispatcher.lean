import HftSim.Node
import Mathlib.Data.BitVec
import Mathlib.Data.List.Infix
import Mathlib.Logic.Function.Basic

/-!
# The order dispatcher (`hw/dispatcher/order_dispatcher.sv`, `dispatch_fifo_bram.sv`)

One FIFO per lane, filled in `WRITE` and drained by the lane's engine in `DISPATCH`. A FIFO prefetches
its next order into an output register, with one cycle between the read of the BRAM and the order
being valid: `DispatchFifoBram.Queue` says where the orders written and not yet taken are. The
pointers are never wrapped, so a FIFO alone would run past its end; the phases keep it in range.
-/

namespace HftSim

open Function

/-- `FIFO_SZ` -/
def fifoSz : Nat := 1210

/-! ### `dispatch_fifo_bram` -/

/-- The registers; pointers and counter have 11 bits. -/
structure DispatchFifoBram where
  mem : Nat → DispatchOrder
  wrPtr : Nat
  rdPtr : Nat
  memCount : Nat
  rdPending : Bool
  outValid : Bool
  outData : DispatchOrder

structure DispatchFifoIn where
  wrEn : Bool
  wrData : DispatchOrder
  dispatchEn : Bool
  outReady : Bool
  clear : Bool

namespace DispatchFifoBram

/-- The registers after `rst_n`, and after `clear`; the BRAM keeps its words. -/
def reset (f : DispatchFifoBram) : DispatchFifoBram := ⟨f.mem, 0, 0, 0, false, false, 0⟩

/-- Power-up: `dispatch_fifo_zero.mif`. -/
def powerUp : DispatchFifoBram := ⟨fun _ => 0, 0, 0, 0, false, false, 0⟩

variable (f : DispatchFifoBram) (i : DispatchFifoIn)

def occupancy : Nat := (f.memCount + f.outValid.toNat + f.rdPending.toNat) % 2 ^ 11

def empty : Bool := decide (f.occupancy = 0)

def full : Bool := decide (f.occupancy = fifoSz)

def doWrite : Bool := i.wrEn && !f.full

def doConsume : Bool := i.dispatchEn && f.outValid && i.outReady

def doLaunchRead : Bool :=
  i.dispatchEn && !f.rdPending && decide (f.memCount ≠ 0) && (!f.outValid || i.outReady)

def step : DispatchFifoBram :=
  if i.clear then f.reset
  else
    { mem := if f.doWrite i then update f.mem f.wrPtr i.wrData else f.mem
      wrPtr := if f.doWrite i then (f.wrPtr + 1) % 2 ^ 11 else f.wrPtr
      rdPtr := if f.doLaunchRead i then (f.rdPtr + 1) % 2 ^ 11 else f.rdPtr
      memCount :=
        match f.doWrite i, f.doLaunchRead i with
        | true, false => (f.memCount + 1) % 2 ^ 11
        | false, true => (f.memCount + 2 ^ 11 - 1) % 2 ^ 11
        | _, _ => f.memCount
      rdPending := if f.rdPending then false else f.doLaunchRead i
      outValid := if f.doConsume i then false else if f.rdPending then true else f.outValid
      outData := if f.doLaunchRead i then f.mem f.rdPtr else f.outData }

/-- The orders in the BRAM, oldest first. -/
def contents : List DispatchOrder := (List.range f.memCount).map fun k => f.mem (f.rdPtr + k)

end DispatchFifoBram

/-! ### `order_dispatcher` -/

/-- `DISPATCH_STATE` -/
inductive DispatchState
  | idle | write | dispatch | done
deriving DecidableEq, Repr

structure OrderDispatcher where
  state : DispatchState
  fifo : Fin 8 → DispatchFifoBram

structure DispatchIn where
  swBeginWrite : Bool
  swBeginDispatch : Bool
  swClearDone : Bool
  swWrEn : Fin 8 → Bool
  swWrData : Fin 8 → DispatchOrder
  orderInReady : Fin 8 → Bool

namespace OrderDispatcher

def reset (d : OrderDispatcher) : OrderDispatcher := ⟨.idle, fun s => (d.fifo s).reset⟩

def powerUp : OrderDispatcher := ⟨.idle, fun _ => .powerUp⟩

variable (d : OrderDispatcher) (i : DispatchIn)

def fifoEmpty (s : Fin 8) : Bool := (d.fifo s).empty

def fifoFull (s : Fin 8) : Bool := (d.fifo s).full

def nextState : DispatchState :=
  match d.state with
  | .idle => if i.swBeginWrite then .write else .idle
  | .write => if i.swBeginDispatch then .dispatch else .write
  | .dispatch => if ∀ s, d.fifoEmpty s = true then .done else .dispatch
  | .done => if i.swClearDone then .idle else .done

def fifoIn (s : Fin 8) : DispatchFifoIn where
  wrEn := decide (d.state = .write) && i.swWrEn s
  wrData := i.swWrData s
  dispatchEn := decide (d.state = .dispatch)
  outReady := decide (d.state = .dispatch) && i.orderInReady s
  clear := decide (d.state = .done) && i.swClearDone

def step : OrderDispatcher := ⟨d.nextState i, fun s => (d.fifo s).step (d.fifoIn i s)⟩

def swWrReady (s : Fin 8) : Bool := decide (d.state = .write) && !d.fifoFull s

def orderOutValid (s : Fin 8) : Bool := decide (d.state = .dispatch) && (d.fifo s).outValid

def orderOut (s : Fin 8) : DispatchOrder := (d.fifo s).outData

/-- The orders lane `s` stores in this cycle: at most one. -/
def stores (s : Fin 8) : List DispatchOrder :=
  if i.swWrEn s && d.swWrReady s then [i.swWrData s] else []

/-- The orders engine `s` accepts in this cycle. -/
def hands (s : Fin 8) : List DispatchOrder :=
  if d.orderOutValid s && i.orderInReady s then [d.orderOut s] else []

end OrderDispatcher

/-! ### A FIFO is a queue -/

namespace DispatchFifoBram

variable {f : DispatchFifoBram} {i : DispatchFifoIn} {w a : List DispatchOrder}

/-- Of the orders `w` written the orders `a` have been taken. The one after them is in the output
register, or on its way there, or still in the BRAM with the others. -/
structure Queue (f : DispatchFifoBram) (w a : List DispatchOrder) : Prop where
  le : w.length ≤ fifoSz
  wr : f.wrPtr = w.length
  rd : f.rdPtr = a.length + f.outValid.toNat + f.rdPending.toNat
  count : f.memCount + f.rdPtr = w.length
  one : f.outValid = true → f.rdPending = false
  mem : ∀ j x, w[j]? = some x → f.mem j = x
  out : f.outValid = true ∨ f.rdPending = true → w[a.length]? = some f.outData
  taken : a <+: w

theorem Queue.reset (f : DispatchFifoBram) : f.reset.Queue [] [] where
  le := Nat.zero_le _
  wr := rfl
  rd := rfl
  count := rfl
  one h := by cases h
  mem j x h := by cases h
  out h := by rcases h with h | h <;> cases h
  taken := List.prefix_refl _

theorem Queue.occupancy_eq (h : f.Queue w a) : f.occupancy + a.length = w.length := by
  have hle := h.le
  have hrd := h.rd
  have hcount := h.count
  unfold occupancy
  unfold fifoSz at hle
  rw [Nat.mod_eq_of_lt (by omega)]
  omega

theorem Queue.empty_iff (h : f.Queue w a) : f.empty = true ↔ a = w := by
  have := h.occupancy_eq
  unfold DispatchFifoBram.empty
  rw [decide_eq_true_iff]
  constructor
  · intro h0; exact h.taken.eq_of_length (by omega)
  · intro haw; rw [haw] at this; omega

theorem getElem?_eq_of_prefix {α : Type*} {l l' : List α} {j : Nat} {x : α} (h : l <+: l')
    (hx : l[j]? = some x) : l'[j]? = some x := by
  obtain ⟨t, rfl⟩ := h
  rw [List.getElem?_append_left (List.getElem?_eq_some_iff.1 hx).1, hx]

/-- A write appends to what has been written and touches nothing else. -/
theorem Queue.mem_step (h : f.Queue w a) (v : DispatchOrder) :
    ∀ j x, (w ++ [v])[j]? = some x → update f.mem f.wrPtr v j = x := by
  intro j x hj
  rw [h.wr]
  rcases Nat.lt_trichotomy j w.length with hlt | rfl | hgt
  · rw [List.getElem?_append_left hlt] at hj
    rw [update_of_ne (by omega), h.mem j x hj]
  · rw [List.getElem?_concat_length] at hj
    rw [update_self, Option.some.inj hj]
  · rw [List.getElem?_eq_none (by simp; omega)] at hj; cases hj

theorem Queue.fetch (h : f.Queue w a) (hl : f.doLaunchRead i = true) :
    w[a.length + (f.doConsume i).toNat]? = some (f.mem f.rdPtr) := by
  simp only [doLaunchRead, Bool.and_eq_true, Bool.or_eq_true, Bool.not_eq_true', decide_eq_true_iff] at hl
  obtain ⟨⟨⟨hen, hp⟩, hc⟩, ho⟩ := hl
  have hrd := h.rd
  have hcount := h.count
  have hk : f.rdPtr = a.length + (f.doConsume i).toNat := by
    cases hv : f.outValid with
    | false => simp [hrd, hp, hv, doConsume]
    | true =>
      rw [hv] at ho
      have hr : i.outReady = true := ho.resolve_left (by simp)
      simp [hrd, hp, hv, doConsume, hen, hr]
  have hlt : f.rdPtr < w.length := by omega
  obtain ⟨x, hx⟩ : ∃ x, w[f.rdPtr]? = some x := ⟨_, List.getElem?_eq_getElem hlt⟩
  rw [← hk, hx, h.mem _ x hx]

/-- One cycle without a clear: the order written is appended to `w`, the order consumed to `a`. -/
theorem Queue.step (h : f.Queue w a) (hc : i.clear = false) (hw : f.doWrite i = true → w.length < fifoSz) :
    (f.step i).Queue (w ++ if f.doWrite i then [i.wrData] else [])
      (a ++ if f.doConsume i then [f.outData] else []) := by
  obtain ⟨hle, hwr, hrd, hcount, hone, hmem, hout, htaken⟩ := id h
  have hlen : (w ++ if f.doWrite i then [i.wrData] else []).length = w.length + (f.doWrite i).toNat := by
    cases f.doWrite i <;> simp
  have halen : (a ++ if f.doConsume i then [f.outData] else []).length =
      a.length + (f.doConsume i).toNat := by
    cases f.doConsume i <;> simp
  have hpre : w <+: w ++ if f.doWrite i then [i.wrData] else [] := List.prefix_append _ _
  have hlaunch : f.doLaunchRead i = true → f.rdPending = false ∧ 0 < f.memCount := by
    intro hl
    simp only [doLaunchRead, Bool.and_eq_true, Bool.not_eq_true', decide_eq_true_iff] at hl
    exact ⟨hl.1.1.2, Nat.pos_of_ne_zero hl.1.2⟩
  have hcons : f.doConsume i = true → f.outValid = true := by
    intro hv; simp only [doConsume, Bool.and_eq_true] at hv; exact hv.1.2
  -- the output register is free again, or will be, when a read is launched
  have hfree : f.doLaunchRead i = true → f.outValid = true → f.doConsume i = true := by
    intro hl hv
    simp only [doLaunchRead, doConsume, Bool.and_eq_true, Bool.or_eq_true, hv, Bool.not_true, Bool.false_eq_true,
      false_or] at hl ⊢
    exact ⟨⟨hl.1.1.1, trivial⟩, hl.2⟩
  unfold fifoSz at hle hw
  unfold DispatchFifoBram.step
  rw [if_neg (by simp [hc])]
  refine ⟨?_, ?_, ?_, ?_, ?_, ?_, ?_, ?_⟩
  · rw [hlen]; unfold fifoSz
    cases hd : f.doWrite i
    · simpa using hle
    · exact hw hd
  · rw [hlen]
    cases hd : f.doWrite i
    · simpa using hwr
    · have := hw hd
      simp only [if_true, hwr, Bool.toNat_true]
      exact Nat.mod_eq_of_lt (by omega)
  · rw [halen]
    cases hl : f.doLaunchRead i
    · cases hv : f.outValid <;> cases hp : f.rdPending <;> cases hk : f.doConsume i <;>
        simp_all
    · obtain ⟨hp, hpos⟩ := hlaunch hl
      simp only [if_true, hp, Bool.false_eq_true, if_false]
      rw [Nat.mod_eq_of_lt (by omega), hrd, hp]
      cases hv : f.outValid
      · have hk : f.doConsume i = false := Bool.eq_false_iff.2 fun hc => by rw [hcons hc] at hv; cases hv
        simp [hk]
      · simp [hfree hl hv]
  · rw [hlen]
    cases hd : f.doWrite i <;> cases hl : f.doLaunchRead i <;>
      simp only [if_true, Bool.false_eq_true, if_false, Bool.toNat_true, Bool.toNat_false]
    · exact hcount
    · have := (hlaunch hl).2
      rw [show f.memCount + 2 ^ 11 - 1 = f.memCount - 1 + 2 ^ 11 by omega, Nat.add_mod_right,
        Nat.mod_eq_of_lt (by omega), Nat.mod_eq_of_lt (by omega)]
      omega
    · have := hw hd
      rw [Nat.mod_eq_of_lt (by omega)]; omega
    · have := (hlaunch hl).2
      rw [Nat.mod_eq_of_lt (by omega)]; omega
  · intro hv
    by_cases hp : f.rdPending = true
    · simp [hp]
    · simp only [hp, if_false, Bool.false_eq_true] at hv ⊢
      by_contra hl
      have hl : f.doLaunchRead i = true := by simpa using hl
      cases hk : f.doConsume i
      · rw [hk] at hv
        exact absurd (hfree hl (by simpa using hv)) (by simp [hk])
      · rw [hk] at hv; simp at hv
  · intro j x hj
    cases hd : f.doWrite i
    · rw [hd] at hj; simp only [Bool.false_eq_true, if_false, List.append_nil] at hj ⊢; exact hmem j x hj
    · rw [hd] at hj; exact h.mem_step _ j x hj
  · intro hv
    rw [halen]
    refine getElem?_eq_of_prefix hpre ?_
    by_cases hl : f.doLaunchRead i = true
    · simp only [hl, if_true]; exact h.fetch hl
    · simp only [hl] at hv ⊢
      have hk : f.doConsume i = false := by
        cases hk : f.doConsume i
        · rfl
        · have := hone (hcons hk); simp [hk, this] at hv
      rw [hk, Bool.toNat_false, Nat.add_zero]
      refine hout ?_
      rw [hk] at hv
      by_cases hp : f.rdPending = true
      · exact .inr hp
      · simp only [hp, Bool.false_eq_true, if_false, or_false] at hv; exact .inl hv
  · cases hk : f.doConsume i
    · simp only [Bool.false_eq_true, if_false, List.append_nil]; exact htaken.trans hpre
    · have hnext := hout (.inl (hcons hk))
      obtain ⟨t, ht⟩ := htaken
      refine List.IsPrefix.trans ?_ hpre
      rw [← ht, List.getElem?_append_right (Nat.le_refl _), Nat.sub_self] at hnext
      cases t with
      | nil => cases hnext
      | cons y t =>
        rw [List.getElem?_cons_zero] at hnext
        rw [← ht, ← Option.some.inj hnext]
        exact ⟨t, by simp⟩

end DispatchFifoBram

/-! ### A batch -/

/-- The orders of the batch: those each lane has stored, and those its engine has accepted. -/
structure Batch where
  written : Fin 8 → List DispatchOrder
  accepted : Fin 8 → List DispatchOrder

namespace Batch

def empty : Batch := ⟨fun _ => [], fun _ => []⟩

/-- `DONE` is left with an empty batch. -/
def next (h : Batch) (d : OrderDispatcher) (i : DispatchIn) : Batch :=
  if d.state = .done ∧ i.swClearDone = true then .empty
  else ⟨fun s => h.written s ++ d.stores i s, fun s => h.accepted s ++ d.hands i s⟩

end Batch

namespace OrderDispatcher

variable {d : OrderDispatcher} {i : DispatchIn} {h : Batch}

/-- Nothing is taken before `DISPATCH`, and everything has been taken in `DONE`. -/
def Phase (d : OrderDispatcher) (h : Batch) : Prop :=
  match d.state with
  | .idle => ∀ s, h.written s = []
  | .write => ∀ s, h.accepted s = [] ∧ (d.fifo s).outValid = false ∧ (d.fifo s).rdPending = false
  | .dispatch => True
  | .done => ∀ s, h.accepted s = h.written s

structure Ok (d : OrderDispatcher) (h : Batch) : Prop where
  queue : ∀ s, (d.fifo s).Queue (h.written s) (h.accepted s)
  phase : d.Phase h

theorem Ok.reset (d : OrderDispatcher) : d.reset.Ok .empty :=
  ⟨fun _ => .reset _, fun _ => rfl⟩

theorem Ok.powerUp : OrderDispatcher.powerUp.Ok .empty := Ok.reset OrderDispatcher.powerUp

theorem stores_eq (s : Fin 8) : d.stores i s =
    if (d.fifo s).doWrite (d.fifoIn i s) then [(d.fifoIn i s).wrData] else [] := by
  have hb : (i.swWrEn s && d.swWrReady s) = (d.fifo s).doWrite (d.fifoIn i s) := by
    simp only [swWrReady, DispatchFifoBram.doWrite, fifoIn, fifoFull]
    rw [← Bool.and_assoc, Bool.and_comm (i.swWrEn s)]
  rw [stores, hb]
  rfl

theorem hands_eq (s : Fin 8) : d.hands i s =
    if (d.fifo s).doConsume (d.fifoIn i s) then [(d.fifo s).outData] else [] := by
  have hb : (d.orderOutValid s && i.orderInReady s) = (d.fifo s).doConsume (d.fifoIn i s) := by
    simp only [orderOutValid, DispatchFifoBram.doConsume, fifoIn]
    by_cases hst : d.state = .dispatch <;> simp [hst]
  rw [hands, hb]
  rfl

/-- In `WRITE` the flag `full` counts all orders written. -/
theorem Ok.room (h1 : d.Ok h) {s : Fin 8} (hw : (d.fifo s).doWrite (d.fifoIn i s) = true) :
    (h.written s).length < fifoSz := by
  simp only [DispatchFifoBram.doWrite, fifoIn, Bool.and_eq_true, decide_eq_true_iff, Bool.not_eq_true'] at hw
  obtain ⟨⟨hst, -⟩, hfull⟩ := hw
  have hph := h1.phase
  simp only [Phase, hst] at hph
  have hocc := (h1.queue s).occupancy_eq
  have hle := (h1.queue s).le
  rw [(hph s).1] at hocc
  have : (d.fifo s).occupancy ≠ fifoSz := by simpa [DispatchFifoBram.full] using hfull
  simp at hocc
  omega

/-- Outside `DISPATCH` the output register does not change, but for a clear. -/
theorem out_step (s : Fin 8) (hst : d.state ≠ .dispatch) (hc : d.state = .done → i.swClearDone = false) :
    ((d.step i).fifo s).outValid = ((d.fifo s).rdPending || (d.fifo s).outValid) ∧
      ((d.step i).fifo s).rdPending = false := by
  have hcl : (d.fifoIn i s).clear = false := by
    simp only [fifoIn, Bool.and_eq_false_iff, decide_eq_false_iff_not]
    by_cases hd : d.state = .done
    · exact .inr (hc hd)
    · exact .inl hd
  have hen : (d.fifoIn i s).dispatchEn = false := by simp [fifoIn, hst]
  simp only [step, DispatchFifoBram.step, hcl, Bool.false_eq_true, if_false, DispatchFifoBram.doConsume,
    DispatchFifoBram.doLaunchRead, hen, Bool.false_and]
  cases (d.fifo s).rdPending <;> simp

theorem stores_nil (hst : d.state ≠ .write) (s : Fin 8) : d.stores i s = [] := by
  simp [stores, swWrReady, hst]

theorem hands_nil (hst : d.state ≠ .dispatch) (s : Fin 8) : d.hands i s = [] := by
  simp [hands, orderOutValid, hst]

theorem Ok.quiet_of_all (h1 : d.Ok h) {s : Fin 8} (ha : h.accepted s = h.written s) :
    (d.fifo s).outValid = false ∧ (d.fifo s).rdPending = false := by
  have hno : ¬ ((d.fifo s).outValid = true ∨ (d.fifo s).rdPending = true) := fun hv => by
    have := (h1.queue s).out hv
    rw [ha] at this; simp at this
  simpa [not_or] using hno

theorem Ok.phase_step (h1 : d.Ok h) (hcl : ¬ (d.state = .done ∧ i.swClearDone = true)) :
    (d.step i).Phase ⟨fun s => h.written s ++ d.stores i s, fun s => h.accepted s ++ d.hands i s⟩ := by
  have hph := h1.phase
  cases hst : d.state with
  | idle =>
    simp only [Phase, hst] at hph
    have hacc : ∀ s, h.accepted s = [] := fun s => List.prefix_nil.1 (hph s ▸ (h1.queue s).taken)
    cases hb : i.swBeginWrite with
    | false =>
      have hn : (d.step i).state = .idle := by simp [OrderDispatcher.step, nextState, hst, hb]
      simp only [Phase, hn]
      intro s; rw [hph s, stores_nil (by simp [hst])]; rfl
    | true =>
      have hn : (d.step i).state = .write := by simp [OrderDispatcher.step, nextState, hst, hb]
      simp only [Phase, hn]
      intro s
      obtain ⟨ho, hp⟩ := out_step (d := d) (i := i) s (by simp [hst]) (by simp [hst])
      obtain ⟨hv, hr⟩ := h1.quiet_of_all (s := s) (by rw [hacc s, hph s])
      rw [hv, hr] at ho
      rw [hacc s, hands_nil (by simp [hst])]
      exact ⟨rfl, ho, hp⟩
  | write =>
    simp only [Phase, hst] at hph
    cases hb : i.swBeginDispatch with
    | false =>
      have hn : (d.step i).state = .write := by simp [OrderDispatcher.step, nextState, hst, hb]
      simp only [Phase, hn]
      intro s
      obtain ⟨ha, hv, hr⟩ := hph s
      obtain ⟨ho, hp⟩ := out_step (d := d) (i := i) s (by simp [hst]) (by simp [hst])
      rw [hv, hr] at ho
      rw [ha, hands_nil (by simp [hst])]
      exact ⟨rfl, ho, hp⟩
    | true =>
      have hn : (d.step i).state = .dispatch := by simp [OrderDispatcher.step, nextState, hst, hb]
      simp only [Phase, hn]
  | dispatch =>
    by_cases hempty : ∀ s, d.fifoEmpty s = true
    · have hn : (d.step i).state = .done := by
        simp only [OrderDispatcher.step, nextState, hst]; exact if_pos hempty
      simp only [Phase, hn]
      intro s
      have hall := (h1.queue s).empty_iff.1 (hempty s)
      have hv := (h1.quiet_of_all hall).1
      rw [hall, stores_nil (by simp [hst])]
      simp [hands, orderOutValid, hv]
    · have hn : (d.step i).state = .dispatch := by
        simp only [OrderDispatcher.step, nextState, hst]; exact if_neg hempty
      simp only [Phase, hn]
  | done =>
    simp only [Phase, hst] at hph
    have hc : i.swClearDone = false := by simpa [hst] using hcl
    have hn : (d.step i).state = .done := by simp [OrderDispatcher.step, nextState, hst, hc]
    simp only [Phase, hn]
    intro s
    rw [hph s, stores_nil (by simp [hst]), hands_nil (by simp [hst])]

theorem Ok.step (h1 : d.Ok h) (i : DispatchIn) : (d.step i).Ok (h.next d i) := by
  by_cases hcl : d.state = .done ∧ i.swClearDone = true
  · have hn : h.next d i = .empty := if_pos hcl
    rw [hn]
    refine ⟨fun s => ?_, ?_⟩
    · simp only [OrderDispatcher.step, DispatchFifoBram.step, fifoIn, hcl.1, hcl.2, decide_true, Bool.and_self, if_true]
      exact .reset _
    · simp only [Phase, OrderDispatcher.step, nextState, hcl.1, hcl.2, if_true]
      exact fun _ => rfl
  · have hn : h.next d i = ⟨fun s => h.written s ++ d.stores i s, fun s => h.accepted s ++ d.hands i s⟩ :=
      if_neg hcl
    rw [hn]
    refine ⟨fun s => ?_, h1.phase_step hcl⟩
    have hclear : (d.fifoIn i s).clear = false := by simpa [fifoIn] using hcl
    have := (h1.queue s).step hclear fun hw => h1.room hw
    rwa [← stores_eq, ← hands_eq] at this

/-- In `WRITE` the occupancy counts what has been written. -/
theorem Ok.occupancy_step (h1 : d.Ok h) (hst : d.state = .write) (s : Fin 8) :
    ((d.step i).fifo s).occupancy = (d.fifo s).occupancy + (d.stores i s).length ∧
      ((d.step i).fifo s).occupancy ≤ fifoSz := by
  have hph := h1.phase
  simp only [Phase, hst] at hph
  have hocc := (h1.queue s).occupancy_eq
  have hle := ((h1.step i).queue s).le
  have hocc' := ((h1.step i).queue s).occupancy_eq
  have hn : h.next d i = ⟨fun s => h.written s ++ d.stores i s, fun s => h.accepted s ++ d.hands i s⟩ :=
    if_neg (by simp [hst])
  simp only [hn, hands_nil (i := i) (by simp [hst] : d.state ≠ .dispatch), List.append_nil, (hph s).1,
    List.length_append, List.length_nil, Nat.add_zero] at hocc hocc' hle
  omega

/-- Outside `WRITE` the occupancy does not grow. -/
theorem Ok.occupancy_le (h1 : d.Ok h) (hst : d.state ≠ .write) (hcl : ¬ (d.state = .done ∧ i.swClearDone = true))
    (s : Fin 8) : ((d.step i).fifo s).occupancy ≤ (d.fifo s).occupancy := by
  have hocc := (h1.queue s).occupancy_eq
  have hocc' := ((h1.step i).queue s).occupancy_eq
  have hn : h.next d i = ⟨fun s => h.written s ++ d.stores i s, fun s => h.accepted s ++ d.hands i s⟩ := if_neg hcl
  simp only [hn, stores_nil hst, List.append_nil, List.length_append] at hocc'
  omega

/-- In `WRITE` a FIFO contains all that has been written to it. -/
theorem Ok.contents_write (h1 : d.Ok h) (hst : d.state = .write) (s : Fin 8) :
    (d.fifo s).contents = h.written s := by
  have hph := h1.phase
  simp only [Phase, hst] at hph
  obtain ⟨ha, hv, hp⟩ := hph s
  have hrd := (h1.queue s).rd
  have hcount := (h1.queue s).count
  rw [ha, hv, hp] at hrd
  simp only [List.length_nil, Bool.toNat_false, Nat.add_zero] at hrd
  apply List.ext_getElem?
  intro k
  rw [DispatchFifoBram.contents, hrd, List.getElem?_map]
  rcases Nat.lt_or_ge k (h.written s).length with hlt | hge
  · have hx := List.getElem?_eq_getElem hlt
    rw [List.getElem?_range (by omega), hx, Option.map_some, Nat.zero_add, (h1.queue s).mem k _ hx]
  · rw [List.getElem?_eq_none hge, List.getElem?_eq_none (by simp; omega)]
    rfl

/-! ### Runs -/

/-- One cycle of the dispatcher's inputs, or a reset. -/
inductive Event
  | reset
  | tick (i : DispatchIn)

def next : OrderDispatcher × Batch → Event → OrderDispatcher × Batch
  | (d, _), .reset => (d.reset, .empty)
  | (d, h), .tick i => (d.step i, h.next d i)

/-- The dispatcher and its batch after a sequence of events from power-up. -/
def run (evs : List Event) : OrderDispatcher × Batch := evs.foldl next (.powerUp, .empty)

theorem run_ok (evs : List Event) : (run evs).1.Ok (run evs).2 := by
  induction evs using List.reverseRecOn with
  | nil => exact .powerUp
  | append_singleton evs ev ih =>
    simp only [run, List.foldl_append, List.foldl_cons, List.foldl_nil]
    cases ev with
    | reset => exact .reset _
    | tick i => exact ih.step i

end OrderDispatcher

/-! ### Orders from the driver (`sw/HFT_drivers.c`) -/

/-- `struct hft_disp_order` -/
structure HftDispOrder where
  type : BitVec 8
  price : BitVec 16
  quantity : BitVec 16
deriving DecidableEq, Repr

/-- `hft_disp_pack_order_word` -/
def hftDispPackOrderWord (o : HftDispOrder) : DispatchOrder :=
  ((o.type &&& 0x1#8).setWidth 32 <<< 31) ||| ((o.price &&& 0xFFFF#16).setWidth 32 <<< 15) |||
    (o.quantity &&& 0x7FFF#16).setWidth 32

/-- What `hft_disp_push_order_hw` checks of an order. -/
def HftDispOrder.Fits (o : HftDispOrder) : Prop := o.type ≤ 1 ∧ o.quantity ≤ 0x7FFF

instance (o : HftDispOrder) : Decidable o.Fits := inferInstanceAs (Decidable (_ ∧ _))

namespace HftDispOrder

variable {o : HftDispOrder}

/-- What an engine reads of a node. -/
def ofNode (n : Node) : HftDispOrder := ⟨if orderType n then 1 else 0, orderPrice n, orderAmount n⟩

theorem pack_eq (o : HftDispOrder) :
    hftDispPackOrderWord o = o.type.extractLsb' 0 1 ++ o.price ++ o.quantity.extractLsb' 0 15 := by
  have h1 : ∀ i, (0x1#8).getLsbD i = (decide (i < 8) && decide (i < 1)) := getLsbD_mask 8 1
  have h15 : ∀ i, (0x7FFF#16).getLsbD i = (decide (i < 16) && decide (i < 15)) := getLsbD_mask 16 15
  have h16 : o.price &&& 0xFFFF#16 = o.price := BitVec.and_allOnes
  apply BitVec.eq_of_getLsbD_eq
  intro i hi
  simp only [hftDispPackOrderWord, BitVec.getLsbD_or, BitVec.getLsbD_shiftLeft, BitVec.getLsbD_setWidth,
    BitVec.getLsbD_and, BitVec.getLsbD_append, BitVec.getLsbD_extractLsb', h1, h15, h16]
  rcases Nat.lt_or_ge i 15 with hlo | hlo
  · simp [hlo, show i < 31 by omega, show i < 16 by omega, hi]
  rcases Nat.lt_or_ge i 31 with hmid | hmid
  · simp [hmid, show ¬ i < 15 by omega, show i - 15 < 32 by omega, hi, show i - 15 < 16 by omega]
  · obtain rfl : i = 31 := by omega
    simp

/-- An engine reads back the fields of an order that fits. -/
theorem ofNode_pack {o : HftDispOrder} (h : o.Fits) (symbol : BitVec 21) (nowTs : BitVec 32) :
    ofNode (packOrder (hftDispPackOrderWord o) symbol nowTs) = o := by
  obtain ⟨t, p, q⟩ := o
  have ht : t.toNat ≤ 1 := h.1
  have hq : q.toNat ≤ 0x7FFF := h.2
  simp only [ofNode, orderType_packOrder, orderPrice_packOrder, orderAmount_packOrder, pack_eq, mk.injEq]
  refine ⟨?_, ?_, ?_⟩
  · have hbit : (t.extractLsb' 0 1 ++ p ++ q.extractLsb' 0 15).getLsbD 31 = t.getLsbD 0 := by
      simp only [BitVec.getLsbD_append, BitVec.getLsbD_extractLsb']
      rfl
    rw [hbit]
    rcases Nat.le_one_iff_eq_zero_or_eq_one.1 ht with h0 | h0
    · rw [BitVec.eq_of_toNat_eq (y := 0#8) h0]; rfl
    · rw [BitVec.eq_of_toNat_eq (y := 1#8) h0]; rfl
  · apply BitVec.eq_of_getLsbD_eq
    intro i hi
    simp only [BitVec.getLsbD_extractLsb', BitVec.getLsbD_append, hi, show ¬ 15 + i < 15 by omega,
      show 15 + i - 15 = i by omega, if_false, if_true, decide_true, Bool.true_and]
  · apply BitVec.eq_of_getLsbD_eq
    intro i hi
    rw [BitVec.getLsbD_append]
    split
    · rename_i hlt
      simp only [BitVec.getLsbD_extractLsb', BitVec.getLsbD_append, Nat.zero_add, hlt, if_true, decide_true,
        Bool.true_and]
    · have hlt : q.toNat < 2 ^ i := lt_of_le_of_lt hq (lt_of_lt_of_le (by decide) (Nat.pow_le_pow_right (by decide)
        (by omega : 15 ≤ i)))
      have h0 : q.getLsbD i = false := Nat.testBit_lt_two_pow hlt
      rw [h0]
      simp

end HftDispOrder

namespace OrderDispatcher

/-- Every lane is a queue: whatever the pulses, resets, strobes and engines do, the orders an engine has
accepted are the first ones of those its lane has stored since the last clear or reset, and all of them in
`DONE`; the pointers stay in range; and an engine reads the fields that the driver has packed. -/
theorem dispatcher_lossless (evs : List Event) (s : Fin 8) :
    (run evs).2.accepted s <+: (run evs).2.written s ∧
    ((run evs).1.state = .done → (run evs).2.accepted s = (run evs).2.written s) ∧
    ((run evs).1.fifo s).wrPtr ≤ fifoSz ∧ ((run evs).1.fifo s).rdPtr ≤ fifoSz ∧
    ∀ os : List HftDispOrder, (∀ o ∈ os, o.Fits) → (run evs).2.written s = os.map hftDispPackOrderWord →
      ∀ symbol nowTs,
        ((run evs).2.accepted s).map (fun w => HftDispOrder.ofNode (packOrder w symbol nowTs)) <+: os := by
  have hok := run_ok evs
  have hq := hok.queue s
  have hrd := hq.count
  refine ⟨hq.taken, fun hst => ?_, hq.wr ▸ hq.le, by have := hq.le; omega, fun os hfit hos symbol nowTs => ?_⟩
  · have hph := hok.phase
    simp only [Phase, hst] at hph
    exact hph s
  · have hmap : os.map (fun o => HftDispOrder.ofNode (packOrder (hftDispPackOrderWord o) symbol nowTs)) = os := by
      conv_rhs => rw [← List.map_id os]
      exact List.map_congr_left fun o ho => HftDispOrder.ofNode_pack (hfit o ho) symbol nowTs
    have := hq.taken.map fun w => HftDispOrder.ofNode (packOrder w symbol nowTs)
    rw [hos, List.map_map] at this
    exact this.trans (by rw [Function.comp_def, hmap])

/-- Two orders written to lane 3 and one of them taken. -/
def loadTwo : List Event :=
  let i : DispatchIn := ⟨false, false, false, fun _ => false, fun _ => 0, fun _ => false⟩
  let push w : DispatchIn := { i with swWrEn := fun s => s = 3, swWrData := fun _ => w }
  [.tick { i with swBeginWrite := true }, .tick (push (hftDispPackOrderWord ⟨1, 5, 3⟩)),
    .tick (push (hftDispPackOrderWord ⟨0, 6, 2⟩)), .tick { i with swBeginDispatch := true }, .tick i, .tick i,
    .tick { i with orderInReady := fun _ => true }]

theorem dispatcher_lossless_loadTwo :
    ((run loadTwo).2.accepted 3).length = 1 ∧
      ((run loadTwo).2.accepted 3).map (fun w => HftDispOrder.ofNode (packOrder w 0 0)) <+:
        [⟨1, 5, 3⟩, ⟨0, 6, 2⟩] :=
  ⟨by decide +kernel, (dispatcher_lossless loadTwo 3).2.2.2.2 _ (by decide) (by decide +kernel) 0 0⟩

end OrderDispatcher

end HftSim
