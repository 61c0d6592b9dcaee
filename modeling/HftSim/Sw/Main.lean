import HftSim.Sw.Load
import HftSim.Sw.LogRead

/-!
# The harness (`main` in `sw/HFT_harness.c`)

`main` as a machine that stops before each of its accesses to the device, on the board: it clears the log,
waits for `KEY1`, loads the orders, waits for `KEY2` and for `trade_done`, reads the log back and writes
`hft_trades.txt`. The buttons do what they like meanwhile, and so does Ctrl+C.
-/

namespace HftSim

open Function

/-! ### `HFT_IOC_LOG_GET_INFO` -/

/-- `struct hft_log_info` -/
structure HftLogInfo where
  count : BitVec 32
  overflow : Bool
  engineIdleMask : BitVec 32
  allEnginesIdle : Bool
  tradeDone : Bool
deriving DecidableEq, Repr

def hftLogGetInfo (raw : BitVec 32) : HftLogInfo where
  count := logInfoCount raw
  overflow := logInfoOverflow raw
  engineIdleMask := (raw &&& (0xFF#32 <<< 17)) >>> 17
  allEnginesIdle := raw.getLsbD 25
  tradeDone := raw.getLsbD 26

/-- The info is what the wires say. -/
theorem hftLogGetInfo_logInfo (p : LogPort) (env : BusEnv) (h : p.log.countReg < 2 ^ 14) :
    hftLogGetInfo (p.logInfo env) = ⟨BitVec.ofNat 32 p.log.countReg, p.log.overflowReg, env.engIdle.setWidth 32,
      env.allEnginesIdle, env.tradeDone⟩ := by
  have hidle : (p.logInfo env).extractLsb' 17 8 = env.engIdle := by
    apply BitVec.eq_of_getLsbD_eq
    intro i hi
    simp only [LogPort.logInfo, BitVec.getLsbD_append, BitVec.getLsbD_extractLsb', hi, show ¬ 17 + i < 1 by omega,
      show ¬ 17 + i - 1 < 1 by omega, show ¬ 17 + i - 1 - 1 < 14 by omega, show ¬ 17 + i - 1 - 1 - 14 < 1 by omega,
      show 17 + i - 1 - 1 - 14 - 1 = i by omega, if_true, if_false, decide_true, Bool.true_and]
  rw [hftLogGetInfo, logInfoCount_logInfo p env h, mask_shift (p.logInfo env) 17 (by decide), hidle,
    HftLogInfo.mk.injEq]
  refine ⟨rfl, ?_, rfl, ?_, ?_⟩ <;> simp only [logInfoOverflow, LogPort.logInfo, BitVec.getLsbD_append] <;> simp

/-- `readdata` of the whole design: the reset is asynchronous. -/
def Top.readdata (s : Top) (i : TopIn) (address : Nat) : BitVec 32 :=
  let s := if s.inReset i then s.reset else s
  LogPort.readdata ⟨s.avl, s.log⟩
    ⟨s.disp.statusWord, laneBits fun e => (s.eng e).engineIdle, s.allEnginesIdle, s.tradeDone⟩ address

/-! ### `main` -/

/-- A row of `hft_trades.txt`. -/
structure TradeRow where
  index : Nat
  word0 : BitVec 32
  word1 : BitVec 32
  line : LogLine
deriving DecidableEq, Repr

/-- `hft_log_dump_entries` -/
def hftLogDumpEntries (e : List HftLogEntry) (n : BitVec 32) : List TradeRow :=
  (e.take n.toNat).mapIdx fun i e => ⟨i, e.word0, e.word1, hftLogDumpEntry e.word0 e.word1⟩

/-- How `main` ends. -/
inductive Exit
  | noDevice
  | noCsv
  /-- Ctrl+C -/
  | stopped
  | writeFailed (rc : Rc)
  /-- `hft_log_wait_trade_done` has timed out. -/
  | notDone
  /-- "No trades recorded." -/
  | noTrades
  | noMemory
  | readFailed (rc : Rc)
  | noTradesFile
  /-- `hft_trades.txt` has been written. -/
  | trades (rows : List TradeRow)
deriving DecidableEq, Repr

/-- The exit status. -/
def Exit.code : Exit → Int
  | .noDevice => -1
  | .stopped | .noTrades | .trades _ => 0
  | _ => 1

/-- The trades `main` has reported. -/
def Exit.rows : Exit → Option (List TradeRow)
  | .trades rows => some rows
  | .noTrades => some []
  | _ => none

/-- The locals of `hft_log_wait_trade_done`. -/
structure WaitDone where
  deadline : UInt64
  nextPrintMs : UInt64
deriving DecidableEq, Repr

/-- The access `main` makes next. -/
inductive MainPc
  /-- `HFT_IOC_LOG_CLEAR` -/
  | logClear
  /-- `hft_disp_wait_state` for `WRITE` -/
  | waitWrite
  /-- `hft_write_orders_round_robin` -/
  | load (x : Harness)
  /-- the status before the dispatch -/
  | before
  /-- `hft_disp_wait_dispatch_or_done` -/
  | waitDispatch
  /-- the status after it -/
  | after
  /-- `hft_log_wait_trade_done`: the status, -/
  | waitStatus (w : WaitDone)
  /-- the log info, -/
  | waitInfo (w : WaitDone)
  /-- and both once more for `hft_print_progress_snapshot` -/
  | snapStatus (w : WaitDone) (li : HftLogInfo)
  | snapInfo (w : WaitDone) (li : HftLogInfo)
  /-- `hft_log_read_all` -/
  | readAll (y : ReadAll)
  | exited (e : Exit)

structure Main where
  pc : MainPc
  /-- The calls of `now_ms` so far. -/
  calls : Nat
  gStop : Bool

def Main.exit (m : Main) : Option Exit :=
  match m.pc with
  | .exited e => some e
  | _ => none

/-- What the process finds: which files and devices can be opened and whether `calloc` has memory. -/
structure MainEnv where
  progress : Bool
  device : Bool
  csv : Fin 8 → Option (List Char)
  memory : Bool
  trades : Bool

def hftStateDispatch : BitVec 32 := 2

namespace Main

-- `now_ms` returns `clock k` in its `k`-th call
variable (clock : Nat → UInt64) (env : MainEnv) (m : Main)

/-- The files `open_all_csvs` has opened. -/
def files (n : Fin 8) : List Char := (env.csv n).getD []

/-- The head of the loop in `main`. -/
def loopHead : Main := { m with pc := if m.gStop then .exited .stopped else .logClear }

/-- Up to the first access. -/
def start : Main :=
  if !env.device then ⟨.exited .noDevice, 0, false⟩
  else if ¬ ∀ n, (env.csv n).isSome = true then ⟨.exited .noCsv, 0, false⟩
  else loopHead ⟨.logClear, 0, false⟩

/-- The clock as `hft_write_orders_round_robin` sees it. -/
def loadClock (k : Nat) : UInt64 := clock (m.calls + k)

/-- In `hft_write_orders_round_robin`, or behind it when it has returned. -/
def loading (x : Harness) : Main :=
  match x.pc with
  | .returned .ok => { m with pc := .before, calls := m.calls + x.calls }
  | .returned .econnreset => { m with calls := m.calls + x.calls }.loopHead
  | .returned rc => { m with pc := .exited (.writeFailed rc), calls := m.calls + x.calls }
  | _ => { m with pc := .load x }

/-- The head of the loop in `hft_log_wait_trade_done`. -/
def waitHead (w : WaitDone) : Main := { m with pc := if m.gStop then .exited .stopped else .waitStatus w }

/-- From `trade_done` to `hft_log_read_all`. -/
def finish (li : HftLogInfo) : Main :=
  let n := if 8704 < li.count then 8704 else li.count
  if n = 0 then { m with pc := .exited .noTrades }
  else if !env.memory then { m with pc := .exited .noMemory }
  else { m with pc := .readAll (.start n) }

/-- The end of the loop in `hft_log_wait_trade_done`. -/
def settle (w : WaitDone) (li : HftLogInfo) : Main :=
  if li.tradeDone then m.finish env li
  else if w.deadline ≤ clock m.calls then { m with pc := .exited .notDone, calls := m.calls + 1 }
  else { m with calls := m.calls + 1 }.waitHead w

/-- In `hft_log_read_all`, or behind it when it has returned. -/
def reading (y : ReadAll) : Main :=
  match y.pc with
  | .returned .ok =>
    { m with
      pc := .exited
        (if env.trades then .trades (hftLogDumpEntries y.entries (y.outCount.getD 0)) else .noTradesFile) }
  | .returned rc => { m with pc := .exited (.readFailed rc) }
  | _ => { m with pc := .readAll y }

/-- From one access, with what it has read, to the next. -/
def step (raw : BitVec 32) : Main :=
  let st := hftDispGetStatus raw
  match m.pc with
  | .logClear => { m with pc := .waitWrite }
  | .waitWrite =>
    if st.state = hftStateWrite then
      m.loading (.start (m.loadClock clock) 30000 (csvRewindAll (files env)))
    else m
  | .load x => m.loading (x.step (m.loadClock clock) st)
  | .before => { m with pc := .waitDispatch }
  | .waitDispatch =>
    if st.state = hftStateDispatch ∨ st.state = hftStateDone then { m with pc := .after }
    else if st.state = hftStateIdle then m.loopHead
    else m
  | .after => { m with calls := m.calls + 1 }.waitHead ⟨clock m.calls + 600000, 0⟩
  | .waitStatus w => if st.state = hftStateIdle then m.loopHead else { m with pc := .waitInfo w }
  | .waitInfo w =>
    let li := hftLogGetInfo raw
    let t := clock m.calls
    let m := { m with calls := m.calls + 1 }
    if w.nextPrintMs ≤ t then
      let w := { w with nextPrintMs := t + 250 }
      if env.progress then { m with pc := .snapStatus w li } else m.settle clock env w li
    else m.settle clock env w li
  | .snapStatus w li => { m with pc := .snapInfo w li }
  | .snapInfo w li => m.settle clock env w li
  | .readAll y => m.reading env (y.next raw)
  | .exited _ => m

/-- The register the next access writes; otherwise it reads `reads`. -/
def write : Option BusWrite :=
  match m.pc with
  | .logClear => some ⟨BitVec.ofNat 5 addrLogCmd, 1⟩
  | .load x => x.write.map pushBus
  | .readAll y => y.write
  | _ => none

def reads : Nat :=
  match m.pc with
  | .waitInfo _ | .snapInfo _ _ => addrLogInfo
  | .readAll y => y.reads
  | _ => addrStatus

end Main

/-! ### `main` on the board -/

/-- One cycle: the buttons, whether `main` makes its next access, and Ctrl+C. -/
structure MainIn where
  key : BitVec 4
  go : Bool
  sigint : Bool

structure Session where
  board : Top × History
  sw : Main

namespace Session

variable (clock : Nat → UInt64) (env : MainEnv) (q : Session) (j : MainIn)

def topIn : TopIn := ⟨j.key, if j.go then q.sw.write else none⟩

def next : Session where
  board := Top.next q.board (q.topIn j)
  sw :=
    -- `on_sigint`
    let m := { q.sw with gStop := q.sw.gStop || j.sigint }
    if j.go then m.step clock env (q.board.1.readdata (q.topIn j) q.sw.reads) else m

/-- From power-up of the board. -/
def run (js : List MainIn) : Session := js.foldl (next clock env) ⟨(.powerUp, .fresh), .start env⟩

theorem run_snoc (js : List MainIn) (j : MainIn) :
    run clock env (js ++ [j]) = next clock env (run clock env js) j := by
  simp [run, List.foldl_append]

end Session

end HftSim
