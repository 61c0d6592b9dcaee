import HftSim.Lib.Stdio
import HftSim.Dispatcher
import Mathlib.Tactic.FinCases

/-!
# Loading the orders (`sw/HFT_harness.c`, `sw/HFT_drivers.c`)

`hft_write_orders_round_robin` as a machine that stops before each of its accesses to the device: a read
of `STATUS`, or the write of an order to `PUSHn`. `Harness.step` goes on from what an access returns to the
next one. A FIFO that is full is skipped together with the test for the end of its CSV file, and the
deadline is looked at only after a push.
-/

namespace HftSim

open Function

/-! ### The status word -/

/-- `state_out` -/
def DispatchState.code : DispatchState → BitVec 2
  | .idle => 0
  | .write => 1
  | .dispatch => 2
  | .done => 3

/-- One bit per lane. -/
def laneBits (f : Fin 8 → Bool) : BitVec 8 :=
  BitVec.ofBoolListLE [f 0, f 1, f 2, f 3, f 4, f 5, f 6, f 7]

/-- `readdata` for `ADDR_STATUS` -/
def OrderDispatcher.statusWord (d : OrderDispatcher) : BitVec 32 :=
  0#6 ++ laneBits d.fifoFull ++ laneBits d.fifoEmpty ++ laneBits d.swWrReady ++ d.state.code

/-- `struct hft_disp_status` -/
structure HftDispStatus where
  state : BitVec 32
  readyMask : BitVec 32
  emptyMask : BitVec 32
  fullMask : BitVec 32
deriving DecidableEq, Repr

/-- `HFT_IOC_DISP_GET_STATUS` -/
def hftDispGetStatus (raw : BitVec 32) : HftDispStatus where
  state := raw &&& 0x00000003#32
  readyMask := (raw &&& 0x000003FC#32) >>> 2
  emptyMask := (raw &&& 0x0003FC00#32) >>> 10
  fullMask := (raw &&& 0x03FC0000#32) >>> 18

/-- `hft_all_fifos_full_mask` -/
def hftAllFifosFullMask (mask : BitVec 32) : Bool := mask &&& 0xFF == 0xFF

def hftStateIdle : BitVec 32 := 0

def hftStateWrite : BitVec 32 := 1

section Status

variable (d : OrderDispatcher)

theorem getLsbD_laneBits (f : Fin 8 → Bool) (n : Fin 8) : (laneBits f).getLsbD n.val = f n := by
  unfold laneBits
  rw [BitVec.getLsbD_ofBoolListLE]
  fin_cases n <;> rfl

theorem mask_shift (x : BitVec 32) (k : Nat) (hk : k + 8 ≤ 32) :
    (x &&& (0xFF#32 <<< k)) >>> k = (x.extractLsb' k 8).setWidth 32 := by
  have h8 : ∀ i, (0xFF#32).getLsbD i = (decide (i < 32) && decide (i < 8)) := getLsbD_mask 32 8
  apply BitVec.eq_of_getLsbD_eq
  intro i hi
  simp only [BitVec.getLsbD_ushiftRight, BitVec.getLsbD_and, BitVec.getLsbD_shiftLeft, BitVec.getLsbD_setWidth,
    BitVec.getLsbD_extractLsb', h8, hi, show ¬ k + i < k by omega, show k + i - k = i by omega]
  rcases Nat.lt_or_ge i 8 with hlt | hge
  · simp [hlt, show k + i < 32 by omega]
  · simp [Nat.not_lt.2 hge]

theorem status_state : (hftDispGetStatus d.statusWord).state = d.state.code.setWidth 32 := by
  have h2 : ∀ i, (0x00000003#32).getLsbD i = (decide (i < 32) && decide (i < 2)) := getLsbD_mask 32 2
  apply BitVec.eq_of_getLsbD_eq
  intro i hi
  simp only [hftDispGetStatus, OrderDispatcher.statusWord, BitVec.getLsbD_and, BitVec.getLsbD_append,
    BitVec.getLsbD_setWidth, h2, hi]
  rcases Nat.lt_or_ge i 2 with hlt | hge
  · simp [hlt]
  · simp [Nat.not_lt.2 hge, BitVec.getLsbD_of_ge _ _ hge]

theorem status_ready : (hftDispGetStatus d.statusWord).readyMask = (laneBits d.swWrReady).setWidth 32 := by
  have hx : d.statusWord.extractLsb' 2 8 = laneBits d.swWrReady := by
    apply BitVec.eq_of_getLsbD_eq
    intro i hi
    simp only [OrderDispatcher.statusWord, BitVec.getLsbD_append, BitVec.getLsbD_extractLsb', hi,
      show ¬ 2 + i < 2 by omega, show 2 + i - 2 = i by omega, if_true, if_false, decide_true, Bool.true_and]
  rw [← hx]
  exact mask_shift d.statusWord 2 (by decide)

theorem status_full : (hftDispGetStatus d.statusWord).fullMask = (laneBits d.fifoFull).setWidth 32 := by
  have hx : d.statusWord.extractLsb' 18 8 = laneBits d.fifoFull := by
    apply BitVec.eq_of_getLsbD_eq
    intro i hi
    simp only [OrderDispatcher.statusWord, BitVec.getLsbD_append, BitVec.getLsbD_extractLsb', hi,
      show ¬ 18 + i < 2 by omega, show ¬ 18 + i - 2 < 8 by omega, show ¬ 18 + i - 2 - 8 < 8 by omega,
      show 18 + i - 2 - 8 - 8 = i by omega, if_true, if_false, decide_true, Bool.true_and]
  rw [← hx]
  exact mask_shift d.statusWord 18 (by decide)

variable {d}

theorem status_write_iff : (hftDispGetStatus d.statusWord).state = hftStateWrite ↔ d.state = .write := by
  rw [status_state]
  cases d.state <;> decide

theorem status_ready_lane (n : Fin 8) :
    (hftDispGetStatus d.statusWord).readyMask.getLsbD n.val = d.swWrReady n := by
  rw [status_ready, BitVec.getLsbD_setWidth, getLsbD_laneBits]
  simp [show n.val < 32 by omega]

theorem status_full_lane (n : Fin 8) :
    (hftDispGetStatus d.statusWord).fullMask.getLsbD n.val = d.fifoFull n := by
  rw [status_full, BitVec.getLsbD_setWidth, getLsbD_laneBits]
  simp [show n.val < 32 by omega]

theorem status_all_full_iff :
    hftAllFifosFullMask (hftDispGetStatus d.statusWord).fullMask = true ↔ ∀ n, d.fifoFull n = true := by
  have h8 : ∀ i, (0xFF#32).getLsbD i = (decide (i < 32) && decide (i < 8)) := getLsbD_mask 32 8
  unfold hftAllFifosFullMask
  rw [beq_iff_eq]
  constructor
  · intro h n
    have hb := congrArg (fun x => x.getLsbD n.val) h
    rw [BitVec.getLsbD_and, status_full_lane] at hb
    simpa [h8, show n.val < 32 by omega] using hb
  · intro h
    apply BitVec.eq_of_getLsbD_eq
    intro i hi
    rw [BitVec.getLsbD_and]
    rcases Nat.lt_or_ge i 8 with hlt | hge
    · rw [status_full_lane ⟨i, hlt⟩, h, Bool.true_and]
    · simp [h8, Nat.not_lt.2 hge]

end Status

/-! ### The CSV files -/

/-- A return code: 0 or a negated error number. -/
inductive Rc
  | ok | einval | eagain | ebusy | etimedout | econnreset
deriving DecidableEq, Repr

/-- `HFT_ERR_RESET` -/
def hftErrReset : Rc := .econnreset

/-- Header and blank lines. -/
def skipsLine (l : List Char) : Bool :=
  l.head? = some '\n' || l.head? = some '\r' || (Stdio.cstr l).take 5 = ['T', 'y', 'p', 'e', ',']

/-- `sscanf(line, " %15[^,],%u,%u", type_s, &price_u, &qty_u)` -/
def scanRow (l : List Char) : Option (List Char × Nat × Nat) := do
  let cs := Stdio.scanSpace (Stdio.cstr l)
  let (type, cs) ← Stdio.scanUntil 15 ',' cs
  let cs ← Stdio.scanChar ',' cs
  let (price, cs) ← Stdio.scanUnsigned cs
  let cs ← Stdio.scanChar ',' cs
  let (quantity, _) ← Stdio.scanUnsigned cs
  return (type, price, quantity)

/-- The bit for a type string. -/
def orderTypeBit (type : List Char) : Option (BitVec 8) :=
  if type = ['A', 'S', 'K'] then some 0 else if type = ['B', 'I', 'D'] then some 1 else none

/-- The order of a row; `none` is `-EINVAL`. -/
def rowOrder (l : List Char) : Option HftDispOrder := do
  let (type, price, quantity) ← scanRow l
  let type ← orderTypeBit type
  if 0xFFFF < price then none
  else if 0x7FFF < quantity then none
  else some ⟨type, BitVec.ofNat 16 price, BitVec.ofNat 16 quantity⟩

/-- What `lane_csv_next_order` returns. -/
inductive Have
  | order (o : HftDispOrder)
  | eof
  | error
deriving DecidableEq, Repr

/-- The loop of `lane_csv_next_order`: the next order, and the lines that are left. -/
def nextRow : List (List Char) → Have × List (List Char)
  | [] => (.eof, [])
  | l :: ls =>
    if skipsLine l then nextRow ls
    else
      match rowOrder l with
      | some o => (.order o, ls)
      | none => (.error, ls)

/-- `LaneCSVReader`; of a stream it has the lines not yet read. -/
structure LaneCsvReader where
  laneCsv : Fin 8 → List (List Char)
  laneEof : Fin 8 → Bool

/-- `csv_rewind_all` -/
def csvRewindAll (files : Fin 8 → List Char) : LaneCsvReader :=
  ⟨fun n => Stdio.lines 256 (files n), fun _ => false⟩

def laneCsvNextOrder (r : LaneCsvReader) (n : Fin 8) : Have × LaneCsvReader :=
  if r.laneEof n then (.eof, r)
  else
    match nextRow (r.laneCsv n) with
    | (.eof, ls) => (.eof, ⟨update r.laneCsv n ls, update r.laneEof n true⟩)
    | (res, ls) => (res, { r with laneCsv := update r.laneCsv n ls })

/-- The orders of a file, up to the first row that is none. -/
def ordersIn : List (List Char) → List HftDispOrder
  | [] => []
  | l :: ls =>
    if skipsLine l then ordersIn ls
    else
      match rowOrder l with
      | some o => o :: ordersIn ls
      | none => []

/-- Every line is skipped or is an order. -/
def RowsOk (ls : List (List Char)) : Prop := ∀ l ∈ ls, skipsLine l = true ∨ (rowOrder l).isSome = true

instance (ls : List (List Char)) : Decidable (RowsOk ls) := inferInstanceAs (Decidable (∀ l ∈ ls, _))

theorem orderTypeBit_le {type : List Char} {t : BitVec 8} (h : orderTypeBit type = some t) : t ≤ 1 := by
  unfold orderTypeBit at h
  split at h
  · rw [← Option.some.inj h]; decide
  · split at h
    · rw [← Option.some.inj h]; decide
    · cases h

theorem rowOrder_fits {l : List Char} {o : HftDispOrder} (h : rowOrder l = some o) : o.Fits := by
  simp only [rowOrder, Option.bind_eq_bind, Option.bind_eq_some_iff] at h
  obtain ⟨⟨type, price, quantity⟩, -, t, ht, h⟩ := h
  split at h
  · cases h
  · split at h
    · cases h
    · rename_i hq
      rw [← Option.some.inj h]
      refine ⟨orderTypeBit_le ht, ?_⟩
      show (BitVec.ofNat 16 quantity).toNat ≤ 0x7FFF
      rw [BitVec.toNat_ofNat]
      exact (Nat.mod_le _ _).trans (Nat.not_lt.1 hq)

theorem nextRow_spec (ls : List (List Char)) :
    match nextRow ls with
    | (.order o, ls') => ordersIn ls = o :: ordersIn ls' ∧ o.Fits ∧ (RowsOk ls → RowsOk ls')
    | (.eof, ls') => ordersIn ls = [] ∧ ls' = []
    | (.error, _) => ¬ RowsOk ls := by
  induction ls with
  | nil => exact ⟨rfl, rfl⟩
  | cons l ls ih =>
    have htail : RowsOk (l :: ls) → RowsOk ls := fun h l' hl => h l' (List.mem_cons_of_mem _ hl)
    by_cases hs : skipsLine l = true
    · simp only [nextRow, ordersIn, if_pos hs]
      revert ih
      rcases nextRow ls with ⟨_ | _ | _, ls'⟩
      · exact fun ⟨h1, h2, h3⟩ => ⟨h1, h2, h3 ∘ htail⟩
      · exact id
      · exact fun h => h ∘ htail
    · simp only [nextRow, ordersIn, if_neg hs]
      cases hr : rowOrder l with
      | some o => exact ⟨rfl, rowOrder_fits hr, htail⟩
      | none =>
        intro h
        rcases h l List.mem_cons_self with hl | hl
        · exact hs hl
        · rw [hr] at hl; cases hl

namespace LaneCsvReader

/-- The orders of lane `n` that are left. -/
def orders (r : LaneCsvReader) (n : Fin 8) : List HftDispOrder :=
  if r.laneEof n then [] else ordersIn (r.laneCsv n)

def WellFormed (r : LaneCsvReader) : Prop := ∀ n, RowsOk (r.laneCsv n)

theorem orders_congr {r r' : LaneCsvReader} {n : Fin 8} (hc : r'.laneCsv n = r.laneCsv n)
    (he : r'.laneEof n = r.laneEof n) : r'.orders n = r.orders n := by
  rw [orders, orders, hc, he]

end LaneCsvReader

theorem laneCsvNextOrder_spec (r : LaneCsvReader) (n : Fin 8) :
    match laneCsvNextOrder r n with
    | (.order o, r') => r.orders n = o :: r'.orders n ∧ o.Fits ∧ (∀ m, m ≠ n → r'.orders m = r.orders m) ∧
        (r.WellFormed → r'.WellFormed)
    | (.eof, r') => r.orders n = [] ∧ r'.orders = r.orders ∧ (r.WellFormed → r'.WellFormed)
    | (.error, _) => ¬ r.WellFormed := by
  unfold laneCsvNextOrder
  cases he : r.laneEof n with
  | true =>
    rw [if_pos rfl]
    exact ⟨by simp [LaneCsvReader.orders, he], rfl, id⟩
  | false =>
    have hrow := nextRow_spec (r.laneCsv n)
    have hwf : ∀ ls', (RowsOk (r.laneCsv n) → RowsOk ls') → r.WellFormed →
        ∀ m, RowsOk (update r.laneCsv n ls' m) := by
      intro ls' hls h m
      by_cases hm : m = n
      · subst hm; rw [update_self]; exact hls (h m)
      · rw [update_of_ne hm]; exact h m
    rw [if_neg (by simp)]
    revert hrow
    rcases nextRow (r.laneCsv n) with ⟨o | _ | _, ls'⟩
    · rintro ⟨hos, hfit, hls⟩
      refine ⟨?_, hfit, fun m hm => ?_, hwf ls' hls⟩
      · simp [LaneCsvReader.orders, he, hos]
      · exact LaneCsvReader.orders_congr (update_of_ne hm _ _) rfl
    · rintro ⟨hos, rfl⟩
      refine ⟨by simp [LaneCsvReader.orders, he, hos], funext fun m => ?_, hwf [] fun _ l hl => by cases hl⟩
      by_cases hm : m = n
      · subst hm; simp [LaneCsvReader.orders, he, hos]
      · exact LaneCsvReader.orders_congr (update_of_ne hm _ _) (update_of_ne hm _ _)
    · exact fun hbad h => hbad (h n)

/-! ### `hft_write_orders_round_robin` -/

/-- The access the harness makes next. -/
inductive Pc
  /-- `hft_disp_get_status` at the head of the loop -/
  | poll
  /-- the read of `STATUS` in `hft_disp_push_order_hw`, with the deadline of the blocking push -/
  | pushStatus (n : Fin 8) (o : HftDispOrder) (deadline : UInt64)
  /-- the write of `PUSHn` -/
  | pushWrite (n : Fin 8) (o : HftDispOrder)
  /-- `hft_disp_get_status` after a push -/
  | refresh (n : Fin 8)
  | returned (rc : Rc)
deriving DecidableEq, Repr

structure Harness where
  csv : LaneCsvReader
  laneDone : Fin 8 → Bool
  /-- The calls of `now_ms` so far. -/
  calls : Nat
  /-- The overall deadline; none if `timeout_ms` is negative. -/
  deadline : Option UInt64
  pc : Pc

/-- What `hft_disp_push_order_hw` returns before the write of the order. -/
def hftDispPushOrderHw (st : HftDispStatus) (n : Fin 8) (o : HftDispOrder) : Rc :=
  if ¬ o.Fits then .einval
  else if st.state ≠ hftStateWrite then .eagain
  else if st.readyMask.getLsbD n.val = false then .ebusy
  else .ok

/-- The lanes after lane `n`. -/
def lanesAfter (n : Fin 8) : List (Fin 8) := (List.finRange 8).drop (n.val + 1)

namespace Harness

-- `now_ms` returns `clock k` in its `k`-th call
variable (clock : Nat → UInt64)

/-- Up to the first access. -/
def start (timeoutMs : Int) (csv : LaneCsvReader) : Harness :=
  if timeoutMs < 0 then ⟨csv, fun _ => false, 0, none, .poll⟩
  else ⟨csv, fun _ => false, 1, some (clock 0 + UInt64.ofNat timeoutMs.toNat), .poll⟩

variable (x : Harness)

/-- The head of the outer loop. -/
def loopHead : Harness := { x with pc := if ∀ n, x.laneDone n = true then .returned .ok else .poll }

/-- The inner loop over the lanes `ns`, up to the next push. -/
def scan (fullMask : BitVec 32) : List (Fin 8) → Harness → Harness
  | [], x => x.loopHead
  | n :: ns, x =>
    if x.laneDone n || fullMask.getLsbD n.val then scan fullMask ns x
    else
      match laneCsvNextOrder x.csv n with
      | (.error, csv) => { x with csv := csv, pc := .returned .einval }
      | (.eof, csv) => scan fullMask ns { x with csv := csv, laneDone := update x.laneDone n true }
      | (.order o, csv) =>
        { x with csv := csv, calls := x.calls + 1, pc := .pushStatus n o (clock x.calls + 2000) }

/-- `timeout_ms >= 0 && now_ms() >= deadline` after a push, and on to the refresh. -/
def checkDeadline (n : Fin 8) : Harness :=
  match x.deadline with
  | none => { x with pc := .refresh n }
  | some deadline =>
    { x with calls := x.calls + 1, pc := if deadline ≤ clock x.calls then .returned .etimedout else .refresh n }

/-- From one access, with the status it has read, to the next. -/
def step (st : HftDispStatus) : Harness :=
  match x.pc with
  | .poll =>
    if hftAllFifosFullMask st.fullMask then { x with pc := .returned .ok }
    else if st.state = hftStateIdle then { x with pc := .returned hftErrReset }
    else if st.state ≠ hftStateWrite then { x with pc := .returned .eagain }
    else scan clock st.fullMask (List.finRange 8) x
  | .pushStatus n o deadline =>
    match hftDispPushOrderHw st n o with
    | .ok => { x with pc := .pushWrite n o }
    | .eagain | .ebusy =>
      { x with
        calls := x.calls + 1
        pc := if deadline ≤ clock x.calls then .returned .etimedout else .pushStatus n o deadline }
    | rc => { x with pc := .returned rc }
  | .pushWrite n _ => x.checkDeadline clock n
  | .refresh n =>
    if hftAllFifosFullMask st.fullMask then { x with pc := .returned .ok }
    else scan clock st.fullMask (lanesAfter n) x
  | .returned _ => x

/-- The order the next access writes, and its lane. -/
def write : Option (Fin 8 × HftDispOrder) :=
  match x.pc with
  | .pushWrite n o => some (n, o)
  | _ => none

/-! ### What a pass over the lanes does -/

variable {clock x} {mask : BitVec 32} {ns : List (Fin 8)}

/-- The lanes a pass marks as done: not full, and without further orders. -/
structure Marks (mask : BitVec 32) (ns : List (Fin 8)) (x x' : Harness) : Prop where
  deadline : x'.deadline = x.deadline
  done : ∀ m, x.laneDone m = true → x'.laneDone m = true
  fresh : ∀ m, x'.laneDone m = true →
    x.laneDone m = true ∨ m ∈ ns ∧ mask.getLsbD m.val = false ∧ x.csv.orders m = []
  wellFormed : x.csv.WellFormed → x'.csv.WellFormed

theorem Marks.cons {n : Fin 8} {x' : Harness} (h : Marks mask ns x x') : Marks mask (n :: ns) x x' :=
  ⟨h.deadline, h.done, fun m hm => (h.fresh m hm).imp_right fun h => ⟨List.mem_cons_of_mem _ h.1, h.2⟩,
    h.wellFormed⟩

/-- A pass ends at the next push, -/
def ToPush (mask : BitVec 32) (ns : List (Fin 8)) (x x' : Harness) : Prop :=
  ∃ n o deadline, x'.pc = .pushStatus n o deadline ∧ n ∈ ns ∧ x'.laneDone n = false ∧ mask.getLsbD n.val = false ∧
    o.Fits ∧ x.csv.orders n = o :: x'.csv.orders n ∧ (∀ m, m ≠ n → x'.csv.orders m = x.csv.orders m) ∧
    x'.calls = x.calls + 1

/-- or at the head of the loop, -/
def ToHead (mask : BitVec 32) (ns : List (Fin 8)) (x x' : Harness) : Prop :=
  x' = x'.loopHead ∧ x'.csv.orders = x.csv.orders ∧ x'.calls = x.calls ∧
    ∀ n ∈ ns, x'.laneDone n = true ∨ mask.getLsbD n.val = true

theorem ToPush.cons (n : Fin 8) {x' : Harness} (h : ToPush mask ns x x') : ToPush mask (n :: ns) x x' := by
  obtain ⟨m, o, d, hpc, hm, h⟩ := h
  exact ⟨m, o, d, hpc, List.mem_cons_of_mem _ hm, h⟩

theorem ToHead.cons {n : Fin 8} {x' : Harness} (hn : x'.laneDone n = true ∨ mask.getLsbD n.val = true)
    (h : ToHead mask ns x x') : ToHead mask (n :: ns) x x' := by
  refine ⟨h.1, h.2.1, h.2.2.1, fun m hm => ?_⟩
  rcases List.mem_cons.1 hm with rfl | hm
  · exact hn
  · exact h.2.2.2 m hm

theorem scan_spec (clock : Nat → UInt64) (mask : BitVec 32) (ns : List (Fin 8)) (x : Harness) :
    Marks mask ns x (scan clock mask ns x) ∧ (ToPush mask ns x (scan clock mask ns x) ∨
      ToHead mask ns x (scan clock mask ns x) ∨
      (scan clock mask ns x).pc = .returned .einval ∧ ¬ x.csv.WellFormed) := by
  induction ns generalizing x with
  | nil => exact ⟨⟨rfl, fun _ => id, fun _ => .inl, id⟩, .inr (.inl ⟨rfl, rfl, rfl, fun _ h => by cases h⟩)⟩
  | cons n ns ih =>
    by_cases hskip : (x.laneDone n || mask.getLsbD n.val) = true
    · rw [scan, if_pos hskip]
      obtain ⟨hm, hend⟩ := ih x
      refine ⟨hm.cons, hend.imp (ToPush.cons n) (Or.imp_left (ToHead.cons ?_))⟩
      rcases Bool.or_eq_true_iff.1 hskip with h | h
      · exact .inl (hm.done n h)
      · exact .inr h
    · rw [scan, if_neg hskip]
      simp only [Bool.or_eq_true, not_or, Bool.not_eq_true] at hskip
      have hnext := laneCsvNextOrder_spec x.csv n
      revert hnext
      rcases laneCsvNextOrder x.csv n with ⟨o | _ | _, csv⟩
      · rintro ⟨hos, hfit, hother, hwf⟩
        exact ⟨⟨rfl, fun _ => id, fun _ => .inl, hwf⟩,
          .inl ⟨n, o, _, rfl, List.mem_cons_self, hskip.1, hskip.2, hfit, hos, hother, rfl⟩⟩
      · rintro ⟨hos, hsame, hwf⟩
        obtain ⟨hm, hend⟩ := ih { x with csv := csv, laneDone := update x.laneDone n true }
        have hdone : ∀ m, update x.laneDone n true m = true → x.laneDone m = true ∨ m = n := by
          intro m h
          by_cases hmn : m = n
          · exact .inr hmn
          · rw [update_of_ne hmn] at h; exact .inl h
        refine ⟨⟨hm.deadline, fun m h => hm.done m ?_, fun m h => ?_, hm.wellFormed ∘ hwf⟩, ?_⟩
        · by_cases hmn : m = n
          · subst hmn; exact update_self ..
          · exact (update_of_ne hmn ..).trans h
        · rcases hm.fresh m h with h | ⟨h1, h2, h3⟩
          · rcases hdone m h with h | rfl
            · exact .inl h
            · exact .inr ⟨List.mem_cons_self, hskip.2, hos⟩
          · exact .inr ⟨List.mem_cons_of_mem _ h1, h2, (congrFun hsame m).symm.trans h3⟩
        · refine hend.imp (fun h => ?_) (Or.imp (fun h => ?_) (And.imp_right (mt hwf)))
          · obtain ⟨m, o, d, h⟩ := ToPush.cons n h
            rw [hsame] at h
            exact ⟨m, o, d, h⟩
          · obtain ⟨h1, h2, h3⟩ := ToHead.cons (.inl (hm.done n (update_self ..))) h
            exact ⟨h1, h2.trans hsame, h3⟩
      · exact fun hbad => ⟨⟨rfl, fun _ => id, fun _ => .inl, fun h => absurd h hbad⟩, .inr (.inr ⟨rfl, hbad⟩)⟩

end Harness

end HftSim
