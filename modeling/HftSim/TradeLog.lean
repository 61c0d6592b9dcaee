import HftSim.Node
import Mathlib.Data.BitVec
import Mathlib.Data.Fin.Basic
import Mathlib.Data.List.FinRange
import Mathlib.Logic.Function.Basic

/-!
# The trade log (`hw/trade_log/trade_aggregator.sv`, `trade_log.sv`)

The aggregator grants one of the engines that hold a trade, in round-robin order, and packs its trade
into 64 bits; the log appends it. `hftLogDumpEntry` is how the harness reads an entry back.
-/

namespace HftSim

open Function

/-- A 64-bit `TRADE_LOG_ENTRY`: engine `[63:56]`, amount `[55:48]`, price `[47:32]`, timestamp `[31:0]`. -/
abbrev LogEntry := BitVec 64

/-! ### `trade_aggregator` -/

structure TradeAggregator where
  rrPtr : Fin 8

/-- `trade_out_data`: seven bits of the amount are kept. -/
def tradeOutData (selected : Fin 8) (winnerOrder : Node) : LogEntry :=
  0#5 ++ BitVec.ofNat 3 selected.val ++ 0#1 ++ winnerOrder.extractLsb' 53 7 ++
    winnerOrder.extractLsb' 69 16 ++ winnerOrder.extractLsb' 0 32

namespace TradeAggregator

variable (a : TradeAggregator) (engTradeValid : Fin 8 → Bool) (tradeOutReady : Bool)

/-- The first engine with a trade, from `rr_ptr` on. -/
def selected : Option (Fin 8) := ((List.finRange 8).map (a.rrPtr + ·)).find? engTradeValid

def engTradeReady (e : Fin 8) : Bool := decide (a.selected engTradeValid = some e) && tradeOutReady

def step : TradeAggregator :=
  match a.selected engTradeValid with
  | some e => if tradeOutReady then ⟨e + 1⟩ else a
  | none => a

variable {a engTradeValid}

theorem selected_valid {e : Fin 8} (h : a.selected engTradeValid = some e) : engTradeValid e = true :=
  List.find?_some h

end TradeAggregator

/-! ### `trade_log` -/

/-- `LOG_DEPTH` -/
def logDepth : Nat := 8704

/-- The registers; pointer and counter have 14 bits. -/
structure TradeLog where
  mem : Nat → LogEntry
  wrPtr : Nat
  countReg : Nat
  overflowReg : Bool
  swRdata : LogEntry

structure TradeLogIn where
  tradeIn : Option LogEntry
  swRe : Bool
  swAddr : Nat
  swClear : Bool

namespace TradeLog

/-- Power-up: `trade_log_zero.mif`. -/
def powerUp : TradeLog := ⟨fun _ => 0, 0, 0, false, 0⟩

variable (l : TradeLog) (i : TradeLogIn)

/-- The registers after `rst_n`; the RAM keeps its words. -/
def reset : TradeLog := ⟨l.mem, 0, 0, false, 0⟩

def tradeInReady : Bool := decide (l.countReg < logDepth)

/-- `accept_write`, with the entry. -/
def acceptWrite : Option LogEntry := if l.tradeInReady then i.tradeIn else none

def step : TradeLog where
  mem :=
    match l.acceptWrite i with
    | some x => if i.swClear then l.mem else update l.mem l.wrPtr x
    | none => l.mem
  wrPtr := if i.swClear then 0 else if (l.acceptWrite i).isSome then (l.wrPtr + 1) % 2 ^ 14 else l.wrPtr
  countReg := if i.swClear then 0 else if (l.acceptWrite i).isSome then (l.countReg + 1) % 2 ^ 14 else l.countReg
  overflowReg :=
    if i.swClear then false else l.overflowReg || (i.tradeIn.isSome && (l.acceptWrite i).isNone)
  swRdata := if i.swRe then l.mem i.swAddr else l.swRdata

/-- `mem[0 .. sw_count - 1]` -/
def contents : List LogEntry := (List.range l.countReg).map l.mem

structure WF : Prop where
  le : l.countReg ≤ logDepth
  wr : l.wrPtr = l.countReg

variable {l i}

theorem wf_reset : l.reset.WF := ⟨Nat.zero_le _, rfl⟩

theorem WF.step (h : l.WF) : (l.step i).WF := by
  obtain ⟨hle, hwr⟩ := h
  have hlt : (l.acceptWrite i).isSome = true → l.countReg < logDepth := by
    intro ha
    by_contra hn
    simp [acceptWrite, tradeInReady, hn] at ha
  unfold logDepth at hle hlt
  refine ⟨?_, ?_⟩ <;> simp only [TradeLog.step, hwr]
  unfold logDepth
  split_ifs with h1 h2
  · omega
  · have := hlt h2
    rw [Nat.mod_eq_of_lt (by omega)]; omega
  · omega

theorem WF.contents_step (h : l.WF) :
    (l.step i).contents = if i.swClear then [] else l.contents ++ (l.acceptWrite i).toList := by
  have hle := h.le
  unfold logDepth at hle
  by_cases hc : i.swClear = true
  · simp [contents, TradeLog.step, hc]
  rw [if_neg hc]
  cases ha : l.acceptWrite i with
  | none => simp [contents, TradeLog.step, hc, ha]
  | some x =>
    have hn : (l.step i).countReg = l.countReg + 1 := by
      simp only [TradeLog.step, hc, if_false, ha, Option.isSome_some, if_true, Bool.false_eq_true]
      exact Nat.mod_eq_of_lt (by omega)
    have hm : (l.step i).mem = update l.mem l.countReg x := by simp [TradeLog.step, ha, hc, h.wr]
    rw [contents, hn, List.range_succ, List.map_append, hm]
    simp only [List.map_cons, List.map_nil, update_self, Option.toList_some, contents]
    congr 1
    refine List.map_congr_left fun j hj => ?_
    rw [update_of_ne (Nat.ne_of_lt (List.mem_range.1 hj))]

/-! ### Clearing the log -/

/-- The log after the cycles `is`. -/
def run (l : TradeLog) (is : List TradeLogIn) : TradeLog := is.foldl step l

theorem run_snoc (l : TradeLog) (is : List TradeLogIn) (i : TradeLogIn) :
    l.run (is ++ [i]) = (l.run is).step i := by
  rw [run, List.foldl_append]; rfl

theorem WF.run (h : l.WF) (is : List TradeLogIn) : (l.run is).WF := by
  induction is using List.reverseRecOn with
  | nil => exact h
  | append_singleton is i ih => rw [run_snoc]; exact ih.step

/-- A trade handed over in this cycle has a place of its own below `sw_count` after it, or
`sw_overflow` is up. -/
def Kept (l : TradeLog) (i : TradeLogIn) : Prop :=
  ∀ x, l.acceptWrite i = some x →
    (∃ j, l.countReg ≤ j ∧ j < (l.step i).countReg ∧ (l.step i).mem j = x) ∨ (l.step i).overflowReg = true

theorem not_kept_of_clear {x : LogEntry} (ha : l.acceptWrite i = some x) (hc : i.swClear = true) : ¬ l.Kept i := by
  intro hk
  rcases hk x ha with ⟨j, -, hj, -⟩ | ho
  · rw [show (l.step i).countReg = 0 by simp [TradeLog.step, hc]] at hj
    exact Nat.not_lt_zero j hj
  · rw [show (l.step i).overflowReg = false by simp [TradeLog.step, hc]] at ho
    cases ho

theorem WF.kept (h : l.WF) (hc : i.swClear = false) : l.Kept i := by
  intro x hx
  have hlt : l.countReg < logDepth := by
    by_contra hn
    simp [acceptWrite, tradeInReady, hn] at hx
  have hcount : (l.step i).countReg = l.countReg + 1 := by
    simp only [TradeLog.step, hc, hx, Option.isSome_some, if_true, Bool.false_eq_true, if_false]
    unfold logDepth at hlt
    exact Nat.mod_eq_of_lt (by omega)
  refine .inl ⟨l.countReg, Nat.le_refl _, by omega, ?_⟩
  simp [TradeLog.step, hx, hc, h.wr]

/-- Exactly the schedules that never clear the log in a cycle in which it takes a trade keep every
trade they take. The clear branch of the `always_ff` comes before the write, while `trade_in_ready`
does not look at `sw_clear`. -/
theorem accepted_kept_iff (l : TradeLog) (is : List TradeLogIn) :
    (∀ js i, js ++ [i] <+: is → (l.reset.run js).Kept i) ↔
      ∀ js i, js ++ [i] <+: is → ((l.reset.run js).acceptWrite i).isSome = true → i.swClear = false := by
  constructor
  · intro hk js i hp ha
    obtain ⟨x, hx⟩ := Option.isSome_iff_exists.1 ha
    rw [← Bool.not_eq_true]
    intro hc
    exact not_kept_of_clear hx hc (hk js i hp)
  · intro hc js i hp x hx
    exact (wf_reset.run js).kept (hc js i hp (by rw [hx]; rfl)) x hx

/-- A clear comes with the first trade: it is in no place of the log, and `sw_overflow` is down. -/
theorem clear_loses_trade : ¬ ∀ is js i, js ++ [i] <+: is → (powerUp.run js).Kept i := by
  intro hall
  exact not_kept_of_clear (l := powerUp) (i := ⟨some 5, false, 0, true⟩) rfl rfl (hall [_] [] _ (List.prefix_refl _))

end TradeLog

/-! ### The harness (`sw/HFT_harness.c`) -/

/-- What `hft_log_dump_entries` prints of an entry. -/
structure LogLine where
  engineId : BitVec 32
  quantity : BitVec 32
  priceCents : BitVec 32
  ts : BitVec 32
deriving DecidableEq, Repr

/-- One iteration of `hft_log_dump_entries`. -/
def hftLogDumpEntry (word0 word1 : BitVec 32) : LogLine where
  engineId := (word1 >>> 24) &&& 0x7
  quantity := (word1 >>> 16) &&& 0x7F
  priceCents := word1 &&& 0xFFFF
  ts := word0

/-- `LOG_DATA0` -/
def logWord0 (x : LogEntry) : BitVec 32 := x.extractLsb' 0 32

/-- `LOG_DATA1` -/
def logWord1 (x : LogEntry) : BitVec 32 := x.extractLsb' 32 32

theorem getLsbD_logWord1 (e : Fin 8) (t : Node) {i : Nat} (hi : i < 32) :
    (logWord1 (tradeOutData e t)).getLsbD i =
      if i < 16 then t.getLsbD (69 + i) else if i < 23 then t.getLsbD (53 + (i - 16))
      else if i < 24 then false else (BitVec.ofNat 3 e.val).getLsbD (i - 24) := by
  simp only [logWord1, tradeOutData, BitVec.getLsbD_extractLsb', BitVec.getLsbD_append, hi, decide_true,
    Bool.true_and, show ¬ 32 + i < 32 by omega, if_false, show 32 + i - 32 = i by omega]
  split_ifs <;> first | omega | skip
  · simp_all
  · simp_all
  · simp
  · congr 1
  · rw [BitVec.getLsbD_of_ge (BitVec.ofNat 3 e.val) _ (by omega)]; simp

/-- The harness prints the engine, price and timestamp of a trade, and the low seven bits of its amount. -/
theorem dump_tradeOutData (e : Fin 8) (t : Node) :
    hftLogDumpEntry (logWord0 (tradeOutData e t)) (logWord1 (tradeOutData e t)) =
      ⟨BitVec.ofNat 32 e.val, ((orderAmount t).extractLsb' 0 7).setWidth 32, (orderPrice t).setWidth 32,
        orderTs t⟩ := by
  simp only [hftLogDumpEntry, LogLine.mk.injEq]
  refine ⟨?_, ?_, ?_, ?_⟩ <;> apply BitVec.eq_of_getLsbD_eq <;> intro i hi
  · rw [BitVec.getLsbD_and, BitVec.getLsbD_ushiftRight, show (0x7 : BitVec 32) = BitVec.ofNat 32 (2 ^ 3 - 1) from rfl,
      getLsbD_mask]
    by_cases h : i < 3
    · rw [getLsbD_logWord1 _ _ (by omega), if_neg (by omega), if_neg (by omega), if_neg (by omega),
        show 24 + i - 24 = i by omega, BitVec.getLsbD_ofNat, BitVec.getLsbD_ofNat]
      simp [h, hi]
    · have hlt : e.val < 2 ^ i :=
        lt_of_lt_of_le e.isLt (Nat.pow_le_pow_right Nat.two_pos (show 3 ≤ i by omega))
      simp [h, BitVec.getLsbD_ofNat, Nat.testBit_lt_two_pow hlt]
  · rw [BitVec.getLsbD_and, BitVec.getLsbD_ushiftRight,
      show (0x7F : BitVec 32) = BitVec.ofNat 32 (2 ^ 7 - 1) from rfl, getLsbD_mask]
    by_cases h : i < 7
    · rw [getLsbD_logWord1 _ _ (by omega), if_neg (by omega), if_pos (by omega), show 16 + i - 16 = i by omega]
      simp [h, hi, orderAmount, show i < 16 by omega]
    · simp [h, BitVec.getLsbD_setWidth]
  · rw [BitVec.getLsbD_and, show (0xFFFF : BitVec 32) = BitVec.ofNat 32 (2 ^ 16 - 1) from rfl, getLsbD_mask]
    by_cases h : i < 16
    · rw [getLsbD_logWord1 _ _ hi, if_pos h]
      simp [h, hi, orderPrice]
    · simp [h, BitVec.getLsbD_setWidth, BitVec.getLsbD_of_ge (orderPrice t) i (by omega)]
  · simp only [logWord0, tradeOutData, BitVec.getLsbD_extractLsb', BitVec.getLsbD_append, hi, decide_true,
      Bool.true_and, orderTs, Nat.zero_add, if_true]

theorem low_bits_eq_iff (a : BitVec 16) : (a.extractLsb' 0 7).setWidth 32 = a.setWidth 32 ↔ a.toNat < 128 := by
  have h1 : ((a.extractLsb' 0 7).setWidth 32).toNat = a.toNat % 128 := by
    simp only [BitVec.toNat_setWidth, BitVec.extractLsb'_toNat, Nat.shiftRight_zero]; omega
  have h2 : (a.setWidth 32).toNat = a.toNat := by
    have := a.isLt
    simp only [BitVec.toNat_setWidth]; omega
  rw [← BitVec.toNat_inj, h1, h2]
  omega

end HftSim
