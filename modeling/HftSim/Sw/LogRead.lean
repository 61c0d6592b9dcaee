import HftSim.LogPort
import HftSim.Sw.Harness

/-!
# Reading the log (`sw/HFT_drivers.c`, `sw/HFT_harness.c`)

`hft_log_read_entry_hw` and `hft_log_read_all` as machines that stop before each of their accesses to the
device. `Caller.cycle` is a clock cycle in which the caller makes its next access or lets time pass; other
processes use the bus as well, but not while an `ioctl` holds the driver's mutex.
-/

namespace HftSim

open Avalon LogPort

/-! ### Reads of the device -/

def addrStatus : Nat := 1

def addrLogInfo : Nat := 10

def addrLogData0 : Nat := 12

def addrLogData1 : Nat := 13

/-- What the bus shows of the rest of the design. -/
structure BusEnv where
  status : BitVec 32
  engIdle : BitVec 8
  allEnginesIdle : Bool
  tradeDone : Bool

/-- `readdata` for `ADDR_LOG_INFO` -/
def LogPort.logInfo (p : LogPort) (env : BusEnv) : BitVec 32 :=
  0#5 ++ BitVec.ofBool env.tradeDone ++ BitVec.ofBool env.allEnginesIdle ++ env.engIdle ++ 0#1 ++
    BitVec.ofNat 14 p.log.countReg ++ BitVec.ofBool p.avl.logDataValid ++ BitVec.ofBool p.log.overflowReg

/-- `readdata` -/
def LogPort.readdata (p : LogPort) (env : BusEnv) (address : Nat) : BitVec 32 :=
  if address = addrStatus then env.status
  else if address = addrLogInfo then p.logInfo env
  else if address = addrLogData0 then logWord0 p.avl.logDataShadow
  else if address = addrLogData1 then logWord1 p.avl.logDataShadow
  else 0

/-- `(info & LOG_INFO_COUNT_MASK) >> LOG_INFO_COUNT_SHIFT` -/
def logInfoCount (info : BitVec 32) : BitVec 32 := (info &&& (0x7FFF#32 <<< 2)) >>> 2

/-- `info & BIT(LOG_INFO_DATA_VALID_BIT)` -/
def logInfoDataValid (info : BitVec 32) : Bool := info.getLsbD 1

/-- `info & BIT(LOG_INFO_OVERFLOW_BIT)` -/
def logInfoOverflow (info : BitVec 32) : Bool := info.getLsbD 0

/-! ### Callers -/

structure Caller (σ : Type) where
  /-- The register its next access writes; otherwise it reads `reads`. -/
  write : σ → Option BusWrite
  reads : σ → Nat
  /-- On to the next access, with what this one has read. -/
  next : σ → BitVec 32 → σ
  /-- It holds the mutex of the driver. -/
  locked : σ → Bool

structure BusCycle where
  /-- The caller makes its next access in this cycle. -/
  access : Bool
  /-- Otherwise another process may write. -/
  write : Option BusWrite
  tradeIn : Option LogEntry
  dispPushReady : Fin 8 → Bool
  env : BusEnv

namespace Caller

variable {σ : Type} (k : Caller σ)

def busWrite (x : σ) (c : BusCycle) : Option BusWrite :=
  if c.access then k.write x else if k.locked x then none else c.write

def cycle (s : LogPort × σ) (c : BusCycle) : LogPort × σ :=
  (s.1.step ⟨k.busWrite s.2 c, c.tradeIn, c.dispPushReady⟩,
    if c.access then k.next s.2 (s.1.readdata c.env (k.reads s.2)) else s.2)

def run (s : LogPort × σ) (cs : List BusCycle) : LogPort × σ := cs.foldl k.cycle s

/-- The states of the device up to the last cycle. -/
def visited (s : LogPort × σ) (cs : List BusCycle) : List LogPort :=
  cs.inits.map fun pre => (k.run s pre).1

theorem run_snoc (s : LogPort × σ) (cs : List BusCycle) (c : BusCycle) :
    k.run s (cs ++ [c]) = k.cycle (k.run s cs) c := by
  simp [run]

theorem mem_visited {s : LogPort × σ} {cs : List BusCycle} {q : LogPort} :
    q ∈ k.visited s cs ↔ ∃ pre, pre <+: cs ∧ (k.run s pre).1 = q := by
  simp [visited]

end Caller

/-! ### `hft_log_read_entry_hw` -/

/-- `struct hft_log_entry` -/
structure HftLogEntry where
  index : BitVec 32
  word0 : BitVec 32
  word1 : BitVec 32
deriving DecidableEq, Repr

def hftStateDone : BitVec 32 := 3

inductive ReadPc
  /-- `STATUS` -/
  | status
  /-- `LOG_INFO`, for the count -/
  | info
  /-- the request to `LOG_CMD` -/
  | command
  /-- `LOG_INFO`, for the valid bit -/
  | poll (timeoutUs : Nat)
  /-- `LOG_DATA0` -/
  | data0
  /-- `LOG_DATA1` -/
  | data1
  | returned (rc : Rc)
deriving DecidableEq, Repr

/-- A call of `hft_log_read_entry_hw`. -/
structure ReadEntry where
  entry : HftLogEntry
  pc : ReadPc
deriving DecidableEq, Repr

namespace ReadEntry

/-- Up to the first access; the harness clears the words. -/
def start (index : BitVec 32) : ReadEntry := ⟨⟨index, 0, 0⟩, .status⟩

variable (x : ReadEntry)

/-- `iowrite32(BIT(1) | (entry->index << 2), REG_ADDR(REG_LOG_CMD))` -/
def request (index : BitVec 32) : BusWrite := ⟨11, 2#32 ||| index <<< 2⟩

def write : Option BusWrite :=
  match x.pc with
  | .command => some (request x.entry.index)
  | _ => none

def reads : Nat :=
  match x.pc with
  | .info | .poll _ => addrLogInfo
  | .data0 => addrLogData0
  | .data1 => addrLogData1
  | _ => addrStatus

def next (raw : BitVec 32) : ReadEntry :=
  match x.pc with
  | .status => { x with pc := if raw &&& 0x00000003#32 ≠ hftStateDone then .returned .eagain else .info }
  | .info => { x with pc := if logInfoCount raw ≤ x.entry.index then .returned .einval else .command }
  | .command => { x with pc := .poll 1000 }
  | .poll timeoutUs =>
    { x with
      pc := if logInfoDataValid raw then .data0
        else if timeoutUs - 1 = 0 then .returned .etimedout else .poll (timeoutUs - 1) }
  | .data0 => ⟨{ x.entry with word0 := raw }, .data1⟩
  | .data1 => ⟨{ x.entry with word1 := raw }, .returned .ok⟩
  | .returned _ => x

/-- From the first access to the return. -/
def locked : Bool :=
  match x.pc with
  | .status | .returned _ => false
  | _ => true

end ReadEntry

def hftLogReadEntryHw : Caller ReadEntry := ⟨ReadEntry.write, ReadEntry.reads, ReadEntry.next, ReadEntry.locked⟩

/-! ### `hft_log_read_all` -/

inductive ReadAllPc
  /-- `HFT_IOC_LOG_GET_INFO` -/
  | getInfo
  /-- `HFT_IOC_LOG_READ_ENTRY` -/
  | readEntry (x : ReadEntry)
  | returned (rc : Rc)
deriving DecidableEq, Repr

/-- A call of `hft_log_read_all`, with what it has written through its pointers. -/
structure ReadAll where
  maxEntries : BitVec 32
  n : BitVec 32
  entries : List HftLogEntry
  outCount : Option (BitVec 32)
  outOverflow : Option Bool
  pc : ReadAllPc
deriving DecidableEq, Repr

namespace ReadAll

def start (maxEntries : BitVec 32) : ReadAll := ⟨maxEntries, 0, [], none, none, .getInfo⟩

variable (y : ReadAll)

/-- The head of the loop, with `i` the number of entries read. -/
def loopHead : ReadAll :=
  if y.entries.length < y.n.toNat then { y with pc := .readEntry (.start (BitVec.ofNat 32 y.entries.length)) }
  else { y with outCount := some y.n, pc := .returned .ok }

def write : Option BusWrite :=
  match y.pc with
  | .readEntry x => x.write
  | _ => none

def reads : Nat :=
  match y.pc with
  | .readEntry x => x.reads
  | _ => addrLogInfo

def next (raw : BitVec 32) : ReadAll :=
  match y.pc with
  | .getInfo =>
    { y with
      outOverflow := some (logInfoOverflow raw)
      n := if y.maxEntries < logInfoCount raw then y.maxEntries else logInfoCount raw }.loopHead
  | .readEntry x =>
    match (x.next raw).pc with
    | .returned .ok => { y with entries := y.entries ++ [(x.next raw).entry] }.loopHead
    | .returned rc => { y with pc := .returned rc }
    | _ => { y with pc := .readEntry (x.next raw) }
  | .returned _ => y

def locked : Bool :=
  match y.pc with
  | .readEntry x => x.locked
  | _ => false

end ReadAll

def hftLogReadAll : Caller ReadAll := ⟨ReadAll.write, ReadAll.reads, ReadAll.next, ReadAll.locked⟩

/-! ### The words on the bus -/

theorem logInfoDataValid_logInfo (p : LogPort) (env : BusEnv) :
    logInfoDataValid (p.logInfo env) = p.avl.logDataValid := by
  rw [logInfoDataValid, logInfo, BitVec.getLsbD_append, if_neg (by decide), BitVec.getLsbD_append,
    if_pos (by decide)]
  simp

/-- Bits 2 to 15 are the count; bit 16 is under the mask as well, but zero. -/
theorem logInfoCount_logInfo (p : LogPort) (env : BusEnv) (h : p.log.countReg < 2 ^ 14) :
    logInfoCount (p.logInfo env) = BitVec.ofNat 32 p.log.countReg := by
  have hmask : ∀ i, (0x7FFF#32).getLsbD i = (decide (i < 32) && decide (i < 15)) := getLsbD_mask 32 15
  apply BitVec.eq_of_getLsbD_eq
  intro i hi
  have hhigh : 14 ≤ i → p.log.countReg.testBit i = false := fun hge =>
    Nat.testBit_lt_two_pow (h.trans_le (Nat.pow_le_pow_right (by decide) hge))
  simp only [logInfoCount, logInfo, BitVec.getLsbD_ushiftRight, BitVec.getLsbD_and, BitVec.getLsbD_shiftLeft,
    BitVec.getLsbD_append, BitVec.getLsbD_ofNat, hmask, hi, show ¬ 2 + i < 1 by omega,
    show ¬ 2 + i - 1 < 1 by omega, show ¬ 2 + i < 2 by omega, show 2 + i - 1 - 1 = i by omega,
    show 2 + i - 2 = i by omega, if_false, decide_false, Bool.not_false, Bool.and_true]
  rcases Nat.lt_or_ge i 14 with hlt | hge
  · simp [hlt, show i < 15 by omega, show 2 + i < 32 by omega]
  · rw [hhigh hge]
    rcases Nat.eq_or_lt_of_le hge with rfl | hlt
    · simp
    · simp [show ¬ i < 15 by omega]

theorem logReads_request (index : BitVec 32) : logReads (some (ReadEntry.request index)) = true := by
  simp [logReads, busBit, busData, ReadEntry.request, addrLogCmd]

theorem readIndex_request {index : BitVec 32} (h : index.toNat < 2 ^ 14) :
    readIndex (some (ReadEntry.request index)) = index.toNat := by
  have hdata : (busData (some (ReadEntry.request index)) addrLogCmd).getD 0 = 2#32 ||| index <<< 2 := rfl
  have hnat : (2#32 ||| index <<< 2).toNat = index.toNat <<< 2 + 2 := by
    have hshift : index.toNat <<< 2 < 2 ^ 32 := by rw [Nat.shiftLeft_eq]; omega
    rw [Nat.shiftLeft_add_eq_or_of_lt (by decide), Nat.or_comm, BitVec.toNat_or, BitVec.toNat_shiftLeft,
      Nat.mod_eq_of_lt hshift]
    rfl
  rw [readIndex, hdata, hnat, Nat.shiftLeft_eq]
  omega

theorem quiet_none : Quiet none := ⟨rfl, rfl⟩

/-! ### One cycle of a call -/

/-- What is known of the log while a call is under way. -/
structure Known where
  /-- The call may ask for this entry. -/
  request : Nat → Prop
  /-- The entry had this value when it was served. -/
  value : Nat → LogEntry → Prop
  /-- The log has had this many entries. -/
  count : Nat → Prop

/-- What a cycle keeps of it, and what it adds to it. -/
structure Known.Next (k k' : Known) (p p' : LogPort) : Prop where
  request : ∀ n, k.request n → k'.request n
  value : ∀ n v, k.value n v → k'.value n v
  count : ∀ n, k.count n → k'.count n
  info : k'.count p.log.countReg ∧ ∀ n < p.log.countReg, k'.request n
  serve : ∀ n, k.request n → p'.Serves n → k'.value n (p'.log.mem n)

namespace ReadEntry

variable {k k' : Known} {p : LogPort} {x : ReadEntry} {i : LogPortIn}

/-- The entry spells out `v`. -/
def Spells (e : HftLogEntry) (v : LogEntry) : Prop := e.word0 = logWord0 v ∧ e.word1 = logWord1 v

def Good (k : Known) (p : LogPort) (x : ReadEntry) : Prop :=
  match x.pc with
  | .status | .info => True
  | .command => x.entry.index.toNat < 2 ^ 14 ∧ k.request x.entry.index.toNat
  | .poll _ => ∃ v n, k.value x.entry.index.toNat v ∧ p.Stage x.entry.index.toNat v n
  | .data0 => ∃ v n, k.value x.entry.index.toNat v ∧ p.Stage x.entry.index.toNat v (n + 2)
  | .data1 => ∃ v n, k.value x.entry.index.toNat v ∧ p.Stage x.entry.index.toNat v (n + 2) ∧
      x.entry.word0 = logWord0 v
  | .returned .ok => ∃ v, k.value x.entry.index.toNat v ∧ Spells x.entry v
  | .returned _ => True

theorem index_next (raw : BitVec 32) : (x.next raw).entry.index = x.entry.index := by
  unfold next
  split <;> rfl

theorem Good.wait (h : Good k p x) (hk : k.Next k' p (p.step i))
    (hw : x.locked = true → i.write = none) : Good k' (p.step i) x := by
  have hquiet : x.locked = true → Quiet i.write := fun hl => by rw [hw hl]; exact quiet_none
  rcases x with ⟨e, _ | _ | _ | t | _ | _ | rc⟩
  · trivial
  · trivial
  · exact ⟨h.1, hk.request _ h.2⟩
  · obtain ⟨v, n, hv, hst⟩ := h
    exact ⟨v, n + 1, hk.value _ _ hv, hst.step (hquiet rfl)⟩
  · obtain ⟨v, n, hv, hst⟩ := h
    exact ⟨v, n + 1, hk.value _ _ hv, hst.step (hquiet rfl)⟩
  · obtain ⟨v, n, hv, hst, h0⟩ := h
    exact ⟨v, n + 1, hk.value _ _ hv, hst.step (hquiet rfl), h0⟩
  · rcases rc with _ | _
    · obtain ⟨v, hv, hs⟩ := h
      exact ⟨v, hk.value _ _ hv, hs⟩
    all_goals trivial

theorem Good.access (h : Good k p x) (hk : k.Next k' p (p.step i)) (hwf : p.log.WF)
    (hw : i.write = x.write) (env : BusEnv) :
    Good k' (p.step i) (x.next (p.readdata env x.reads)) := by
  have hquiet : x.write = none → Quiet i.write := fun hl => by rw [hw, hl]; exact quiet_none
  rcases x with ⟨e, _ | _ | _ | t | _ | _ | rc⟩
  · show Good k' (p.step i) ⟨e, if _ then _ else _⟩
    split <;> trivial
  · -- the index is below the count
    have hlt : p.log.countReg < 2 ^ 14 := Nat.lt_of_le_of_lt hwf.le (by decide)
    show Good k' (p.step i) ⟨e, if logInfoCount (p.logInfo env) ≤ e.index then _ else _⟩
    rw [logInfoCount_logInfo p env hlt]
    split
    · trivial
    · rename_i hnot
      have hidx : e.index.toNat < p.log.countReg := by
        rw [BitVec.le_def, BitVec.toNat_ofNat, Nat.mod_eq_of_lt (hlt.trans (by decide))] at hnot
        omega
      exact ⟨hidx.trans hlt, hk.info.2 _ hidx⟩
  · -- the request is served in the next cycle
    obtain ⟨hlt, hC⟩ := h
    have hi : i.write = some (request e.index) := hw
    have hst := stage_of_reads (p := p) (i := i) (by rw [hi]; exact logReads_request _)
    rw [hi, readIndex_request hlt] at hst
    exact ⟨_, 0, hk.serve _ hC hst.1, hst⟩
  · obtain ⟨v, n, hv, hst⟩ := h
    have hnext := hst.step (hquiet rfl)
    show Good k' (p.step i) ⟨e, if logInfoDataValid (p.logInfo env) then _ else _⟩
    rw [logInfoDataValid_logInfo]
    split
    · rename_i hval
      obtain ⟨m, rfl⟩ : ∃ m, n = m + 2 := ⟨n - 2, by have := hst.valid_iff.1 hval; omega⟩
      exact ⟨v, m + 1, hk.value _ _ hv, hnext⟩
    · split
      · trivial
      · exact ⟨v, n + 1, hk.value _ _ hv, hnext⟩
  · obtain ⟨v, n, hv, hst⟩ := h
    refine ⟨v, n + 1, hk.value _ _ hv, hst.step (hquiet rfl), ?_⟩
    show logWord0 p.avl.logDataShadow = logWord0 v
    rw [hst.1]
  · obtain ⟨v, n, hv, hst, h0⟩ := h
    refine ⟨v, hk.value _ _ hv, h0, ?_⟩
    show logWord1 p.avl.logDataShadow = logWord1 v
    rw [hst.1]
  · rcases rc with _ | _
    · obtain ⟨v, hv, hs⟩ := h
      exact ⟨v, hk.value _ _ hv, hs⟩
    all_goals trivial

end ReadEntry

namespace ReadAll

variable {k k' : Known} {p : LogPort} {y : ReadAll} {i : LogPortIn}

/-- The entries read so far, and the call that reads the next one. -/
structure Good (k : Known) (p : LogPort) (y : ReadAll) : Prop where
  fresh : y.pc = .getInfo → y.entries = []
  entries : ∀ j e, y.entries[j]? = some e →
    e.index = BitVec.ofNat 32 j ∧ ∃ v, k.value j v ∧ ReadEntry.Spells e v
  info : y.pc ≠ .getInfo → ∃ n, k.count n ∧ y.n.toNat = min n y.maxEntries.toNat
  current : ∀ x, y.pc = .readEntry x → x.Good k p ∧
    x.entry.index = BitVec.ofNat 32 y.entries.length ∧ y.entries.length < y.n.toNat
  done : y.pc = .returned .ok → y.entries.length = y.n.toNat ∧ y.outCount = some y.n

theorem good_start (maxEntries : BitVec 32) : Good k p (start maxEntries) := by
  refine ⟨fun _ => rfl, fun j e h => ?_, fun h => absurd rfl h, fun x h => ?_, fun h => ?_⟩
  · simp [start] at h
  · cases h
  · cases h

theorem maxEntries_loopHead : y.loopHead.maxEntries = y.maxEntries := by
  unfold loopHead
  split <;> rfl

theorem maxEntries_next (raw : BitVec 32) : (y.next raw).maxEntries = y.maxEntries := by
  unfold next
  split
  · rw [maxEntries_loopHead]
  · split
    · rw [maxEntries_loopHead]
    · rfl
    · rfl
  · rfl

theorem good_loopHead
    (hentries : ∀ j e, y.entries[j]? = some e →
      e.index = BitVec.ofNat 32 j ∧ ∃ v, k.value j v ∧ ReadEntry.Spells e v)
    (hinfo : ∃ n, k.count n ∧ y.n.toNat = min n y.maxEntries.toNat)
    (hle : y.entries.length ≤ y.n.toNat) : Good k p y.loopHead := by
  unfold loopHead
  split
  · rename_i hlt
    refine ⟨by rintro ⟨⟩, hentries, fun _ => hinfo, fun x hx => ?_, by rintro ⟨⟩⟩
    obtain rfl := ReadAllPc.readEntry.inj hx
    exact ⟨trivial, rfl, hlt⟩
  · rename_i hnot
    refine ⟨by rintro ⟨⟩, hentries, fun _ => hinfo, by rintro _ ⟨⟩, fun _ => ?_⟩
    exact ⟨Nat.le_antisymm hle (Nat.not_lt.1 hnot), rfl⟩

theorem Good.wait (h : Good k p y) (hk : k.Next k' p (p.step i))
    (hw : y.locked = true → i.write = none) : Good k' (p.step i) y := by
  refine ⟨h.fresh, fun j e he => ?_, fun hpc => ?_, fun x hx => ?_, h.done⟩
  · obtain ⟨hidx, v, hv, hs⟩ := h.entries j e he
    exact ⟨hidx, v, hk.value _ _ hv, hs⟩
  · obtain ⟨n, hn, heq⟩ := h.info hpc
    exact ⟨n, hk.count _ hn, heq⟩
  · obtain ⟨hg, hrest⟩ := h.current x hx
    refine ⟨hg.wait hk fun hl => hw ?_, hrest⟩
    simpa [locked, hx] using hl

theorem Good.access (h : Good k p y) (hk : k.Next k' p (p.step i)) (hwf : p.log.WF)
    (hw : i.write = y.write) (env : BusEnv) :
    Good k' (p.step i) (y.next (p.readdata env y.reads)) := by
  have hentries : ∀ j e, y.entries[j]? = some e →
      e.index = BitVec.ofNat 32 j ∧ ∃ v, k'.value j v ∧ ReadEntry.Spells e v := by
    intro j e he
    obtain ⟨hidx, v, hv, hs⟩ := h.entries j e he
    exact ⟨hidx, v, hk.value _ _ hv, hs⟩
  have hinfo : y.pc ≠ .getInfo → ∃ n, k'.count n ∧ y.n.toNat = min n y.maxEntries.toNat := by
    intro hpc
    obtain ⟨n, hn, heq⟩ := h.info hpc
    exact ⟨n, hk.count _ hn, heq⟩
  rcases hpc : y.pc with _ | x | rc
  · -- the number of entries to read
    have hlt : p.log.countReg < 2 ^ 14 := Nat.lt_of_le_of_lt hwf.le (by decide)
    have hraw : p.readdata env y.reads = p.logInfo env := by simp [reads, hpc, readdata, addrLogInfo, addrStatus]
    have hcount : (logInfoCount (p.logInfo env)).toNat = p.log.countReg := by
      rw [logInfoCount_logInfo p env hlt, BitVec.toNat_ofNat, Nat.mod_eq_of_lt (hlt.trans (by decide))]
    have hnil := h.fresh hpc
    unfold next
    rw [hpc, hraw]
    refine good_loopHead hentries ⟨_, hk.info.1, ?_⟩ (by simp [hnil])
    show (if y.maxEntries < logInfoCount (p.logInfo env) then y.maxEntries
      else logInfoCount (p.logInfo env)).toNat = min p.log.countReg y.maxEntries.toNat
    split
    · rename_i hmax
      rw [BitVec.lt_def, hcount] at hmax
      omega
    · rename_i hmax
      rw [BitVec.lt_def, hcount] at hmax
      rw [hcount]
      omega
  · obtain ⟨hg, hidx, hlt⟩ := h.current x hpc
    have hg' := hg.access hk hwf (hw.trans (by simp [write, hpc])) env
    have hidx' := (ReadEntry.index_next (x := x) (p.readdata env x.reads)).trans hidx
    have hreads : y.reads = x.reads := by simp [reads, hpc]
    rw [hreads]
    generalize p.readdata env x.reads = raw at *
    have hne : y.pc ≠ .getInfo := by simp [hpc]
    unfold next
    rw [hpc]
    simp only
    have hlen : (BitVec.ofNat 32 y.entries.length).toNat = y.entries.length := by
      rw [BitVec.toNat_ofNat, Nat.mod_eq_of_lt (hlt.trans y.n.isLt)]
    split
    · -- the entry is complete
      rename_i hok
      unfold ReadEntry.Good at hg'
      rw [hok, hidx', hlen] at hg'
      refine good_loopHead (fun j e he => ?_) (hinfo hne) ?_
      · rcases Nat.lt_trichotomy j y.entries.length with hj | rfl | hj
        · rw [List.getElem?_append_left hj] at he
          exact hentries j e he
        · rw [List.getElem?_concat_length] at he
          obtain rfl := Option.some.inj he
          exact ⟨hidx', hg'⟩
        · rw [List.getElem?_eq_none (by simp; omega)] at he
          cases he
      · show (y.entries ++ _).length ≤ _
        rw [List.length_append]
        exact hlt
    · rename_i rc hrc hrc'
      refine ⟨by rintro ⟨⟩, hentries, fun _ => hinfo hne, by rintro _ ⟨⟩, fun hok => ?_⟩
      exact absurd (ReadAllPc.returned.inj hok) hrc
    · refine ⟨by rintro ⟨⟩, hentries, fun _ => hinfo hne, fun x' hx' => ?_, by rintro ⟨⟩⟩
      obtain rfl := ReadAllPc.readEntry.inj hx'
      exact ⟨hg', hidx', hlt⟩
  · have hstay : y.next (p.readdata env y.reads) = y := by simp [next, hpc]
    rw [hstay]
    exact h.wait hk fun hl => by simp [locked, hpc] at hl

end ReadAll

/-! ### Whole calls -/

namespace Caller

variable {σ : Type} {K : Caller σ} {Good : Known → LogPort → σ → Prop} {k k' : Known} {s : LogPort × σ}
  {cs : List BusCycle} {c : BusCycle}

/-- `Good` follows the caller through a cycle in which it waits or makes an access. -/
structure Follows (K : Caller σ) (Good : Known → LogPort → σ → Prop) : Prop where
  wait : ∀ {k k' p x} {i : LogPortIn}, Good k p x → k.Next k' p (p.step i) →
    (K.locked x = true → i.write = none) → Good k' (p.step i) x
  access : ∀ {k k' p x} {i : LogPortIn}, Good k p x → k.Next k' p (p.step i) → p.log.WF →
    i.write = K.write x → ∀ env, Good k' (p.step i) (K.next x (p.readdata env (K.reads x)))

theorem Follows.cycle (hf : K.Follows Good) (h : Good k s.1 s.2) (hwf : s.1.log.WF)
    (hk : k.Next k' s.1 (K.cycle s c).1) : Good k' (K.cycle s c).1 (K.cycle s c).2 := by
  by_cases hc : c.access = true
  · have hx : (K.cycle s c).2 = K.next s.2 (s.1.readdata c.env (K.reads s.2)) := if_pos hc
    rw [hx]
    exact hf.access h hk hwf (by simp [busWrite, hc]) c.env
  · have hx : (K.cycle s c).2 = s.2 := if_neg hc
    rw [hx]
    exact hf.wait h hk fun hl => by simp [busWrite, hc, hl]

theorem wf_run (h : s.1.log.WF) (cs : List BusCycle) : (K.run s cs).1.log.WF := by
  induction cs using List.reverseRecOn with
  | nil => exact h
  | append_singleton cs c ih =>
    rw [run_snoc]
    exact ih.step

theorem visited_snoc {q : LogPort} (h : q ∈ K.visited s cs) : q ∈ K.visited s (cs ++ [c]) := by
  obtain ⟨pre, hpre, hq⟩ := K.mem_visited.1 h
  exact K.mem_visited.2 ⟨pre, hpre.trans (List.prefix_append _ _), hq⟩

theorem last_mem_visited : (K.run s cs).1 ∈ K.visited s cs := K.mem_visited.2 ⟨cs, List.prefix_rfl, rfl⟩

/-- What the states visited so far tell. -/
def seen (K : Caller σ) (s : LogPort × σ) (cs : List BusCycle) : Known where
  request _ := True
  value n v := ∃ q ∈ K.visited s cs, q.Serves n ∧ q.log.mem n = v
  count n := ∃ q ∈ K.visited s cs, q.log.countReg = n

theorem Follows.run_seen (hf : K.Follows Good) (h0 : ∀ k, Good k s.1 s.2) (hwf : s.1.log.WF)
    (cs : List BusCycle) : Good (K.seen s cs) (K.run s cs).1 (K.run s cs).2 := by
  induction cs using List.reverseRecOn with
  | nil => exact h0 _
  | append_singleton cs c ih =>
    have hlast : (K.run s (cs ++ [c])).1 ∈ K.visited s (cs ++ [c]) := last_mem_visited
    rw [run_snoc] at hlast ⊢
    refine hf.cycle ih (wf_run hwf cs) ⟨fun _ _ => trivial, ?_, ?_, ⟨?_, fun _ _ => trivial⟩, ?_⟩
    · rintro n v ⟨q, hq, hv⟩
      exact ⟨q, visited_snoc hq, hv⟩
    · rintro n ⟨q, hq, hn⟩
      exact ⟨q, visited_snoc hq, hn⟩
    · exact ⟨_, visited_snoc last_mem_visited, rfl⟩
    · intro n _ hserves
      exact ⟨_, hlast, hserves, rfl⟩

/-- What the log tells as it is. -/
def standing (p : LogPort) : Known where
  request n := n < p.log.countReg
  value n v := p.log.contents[n]? = some v
  count n := n ≤ p.log.countReg

theorem Follows.run_standing (hf : K.Follows Good) (h0 : ∀ k, Good k s.1 s.2) (hwf : s.1.log.WF)
    (cs : List BusCycle) (hc : ∀ q ∈ K.visited s cs, q.avl.logClearPulse = false) :
    Good (standing (K.run s cs).1) (K.run s cs).1 (K.run s cs).2 := by
  induction cs using List.reverseRecOn with
  | nil => exact h0 _
  | append_singleton cs c ih =>
    have hgood := ih fun q hq => hc q (visited_snoc hq)
    have hpre : (K.run s cs).1.log.contents <+: (K.cycle (K.run s cs) c).1.log.contents :=
      contents_prefix_step (wf_run hwf cs) (hc _ (visited_snoc last_mem_visited))
    have hlen := hpre.length_le
    rw [TradeLog.length_contents, TradeLog.length_contents] at hlen
    rw [run_snoc]
    refine hf.cycle hgood (wf_run hwf cs) ⟨?_, ?_, ?_, ⟨hlen, ?_⟩, ?_⟩
    · intro n hn
      exact Nat.lt_of_lt_of_le hn hlen
    · intro n v hv
      exact DispatchFifoBram.getElem?_eq_of_prefix hpre hv
    · intro n hn
      exact Nat.le_trans hn hlen
    · intro n hn
      exact Nat.lt_of_lt_of_le hn hlen
    · intro n hn _
      exact TradeLog.getElem?_contents (Nat.lt_of_lt_of_le hn hlen)

end Caller

theorem hftLogReadEntryHw_follows : hftLogReadEntryHw.Follows ReadEntry.Good where
  wait h hk hw := h.wait hk hw
  access h hk hwf hw env := h.access hk hwf hw env

theorem hftLogReadAll_follows : hftLogReadAll.Follows ReadAll.Good where
  wait h hk hw := h.wait hk hw
  access h hk hwf hw env := h.access hk hwf hw env

/-- The entry `j` of the log as the harness gets it. -/
def hftLogEntry (j : Nat) (v : LogEntry) : HftLogEntry := ⟨BitVec.ofNat 32 j, logWord0 v, logWord1 v⟩

theorem ReadEntry.Spells.eq {e : HftLogEntry} {j : Nat} {v : LogEntry} (h : Spells e v)
    (hidx : e.index = BitVec.ofNat 32 j) : e = hftLogEntry j v := by
  rcases e with ⟨index, word0, word1⟩
  obtain ⟨h0, h1⟩ := h
  simp_all [hftLogEntry]

theorem index_run (p : LogPort) (x : ReadEntry) (cs : List BusCycle) :
    (hftLogReadEntryHw.run (p, x) cs).2.entry.index = x.entry.index := by
  induction cs using List.reverseRecOn with
  | nil => rfl
  | append_singleton cs c ih =>
    rw [Caller.run_snoc, Caller.cycle]
    split
    · exact (ReadEntry.index_next _).trans ih
    · exact ih

theorem maxEntries_run (p : LogPort) (y : ReadAll) (cs : List BusCycle) :
    (hftLogReadAll.run (p, y) cs).2.maxEntries = y.maxEntries := by
  induction cs using List.reverseRecOn with
  | nil => rfl
  | append_singleton cs c ih =>
    rw [Caller.run_snoc, Caller.cycle]
    split
    · exact (ReadAll.maxEntries_next _).trans ih
    · exact ih

/-- A call that returns 0 has the words of its entry, as they were when the RAM served its request. -/
theorem readEntry_ok {p : LogPort} (hwf : p.log.WF) {index : BitVec 32} {cs : List BusCycle}
    (hok : (hftLogReadEntryHw.run (p, .start index) cs).2.pc = .returned .ok) :
    ∃ q ∈ hftLogReadEntryHw.visited (p, .start index) cs, q.Serves index.toNat ∧
      (hftLogReadEntryHw.run (p, .start index) cs).2.entry =
        ⟨index, logWord0 (q.log.mem index.toNat), logWord1 (q.log.mem index.toNat)⟩ := by
  have h0 : ∀ k, ReadEntry.Good k p (.start index) := fun _ => trivial
  have hgood := hftLogReadEntryHw_follows.run_seen (s := (p, .start index)) h0 hwf cs
  have hidx := index_run p (.start index) cs
  generalize (hftLogReadEntryHw.run (p, .start index) cs) = s at *
  rcases s with ⟨p', ⟨e, pc⟩⟩
  obtain rfl : pc = .returned .ok := hok
  obtain ⟨v, ⟨q, hq, hserves, rfl⟩, h1, h2⟩ := hgood
  obtain rfl : e.index = index := hidx
  exact ⟨q, hq, hserves, by rw [← h1, ← h2]⟩

/-- `hft_log_read_all` that returns 0 has the entries from 0 on in order, as many as the log had when it
asked or as there is room for, each as it was when the RAM served its request. -/
theorem readAll_ok {p : LogPort} (hwf : p.log.WF) {maxEntries : BitVec 32} {cs : List BusCycle}
    (hok : (hftLogReadAll.run (p, .start maxEntries) cs).2.pc = .returned .ok) :
    let s := hftLogReadAll.run (p, .start maxEntries) cs
    s.2.outCount = some s.2.n ∧ s.2.entries.length = s.2.n.toNat ∧
      (∃ q ∈ hftLogReadAll.visited (p, .start maxEntries) cs,
        s.2.n.toNat = min q.log.countReg maxEntries.toNat) ∧
      ∀ j e, s.2.entries[j]? = some e →
        ∃ q ∈ hftLogReadAll.visited (p, .start maxEntries) cs, q.Serves j ∧ e = hftLogEntry j (q.log.mem j) := by
  have hgood := hftLogReadAll_follows.run_seen (s := (p, .start maxEntries)) (fun k => ReadAll.good_start _) hwf cs
  have hmax := maxEntries_run p (.start maxEntries) cs
  obtain ⟨hlen, hout⟩ := hgood.done hok
  obtain ⟨n, ⟨q, hq, rfl⟩, hn⟩ := hgood.info (by rw [hok]; rintro ⟨⟩)
  refine ⟨hout, hlen, ⟨q, hq, by rw [hn, hmax]; rfl⟩, fun j e he => ?_⟩
  obtain ⟨hidx, v, ⟨q, hq, hserves, rfl⟩, hs⟩ := hgood.entries j e he
  exact ⟨q, hq, hserves, hs.eq hidx⟩

/-- Without a clear meanwhile they are the first entries of the log. -/
theorem readAll_contents {p : LogPort} (hwf : p.log.WF) {maxEntries : BitVec 32} {cs : List BusCycle}
    (hok : (hftLogReadAll.run (p, .start maxEntries) cs).2.pc = .returned .ok)
    (hc : ∀ q ∈ hftLogReadAll.visited (p, .start maxEntries) cs, q.avl.logClearPulse = false) :
    let s := hftLogReadAll.run (p, .start maxEntries) cs
    s.2.entries = (s.1.log.contents.take s.2.n.toNat).mapIdx hftLogEntry := by
  intro s
  have hgood := hftLogReadAll_follows.run_standing (s := (p, .start maxEntries)) (fun k => ReadAll.good_start _)
    hwf cs hc
  obtain ⟨hlen, -⟩ := hgood.done hok
  obtain ⟨n, hn, hmin⟩ := hgood.info (by rw [hok]; rintro ⟨⟩)
  have hle : s.2.n.toNat ≤ s.1.log.countReg := by
    rw [hmin]
    exact Nat.le_trans (Nat.min_le_left _ _) hn
  apply List.ext_getElem?
  intro j
  rw [List.getElem?_mapIdx, List.getElem?_take]
  rcases Nat.lt_or_ge j s.2.n.toNat with hj | hj
  · obtain ⟨e, he⟩ : ∃ e, s.2.entries[j]? = some e := by
      rw [List.getElem?_eq_getElem (hlen ▸ hj)]
      exact ⟨_, rfl⟩
    obtain ⟨hidx, v, hv, hs⟩ := hgood.entries j e he
    have hv' : s.1.log.contents[j]? = some v := hv
    rw [he, if_pos hj, hv', hs.eq hidx]
    rfl
  · rw [if_neg (Nat.not_lt.2 hj), List.getElem?_eq_none (hlen ▸ hj)]
    rfl

/-- Reading the log back, after any bus writes and trades since reset:
* with the valid bit up, the shadow register is the entry that the last request names, as it was when the
  RAM served it; and the bit is up from the second cycle after the request on;
* a call of `hft_log_read_entry_hw` that returns 0 has the words of the entry it was asked for;
* a call of `hft_log_read_all` that returns 0 has the entries from 0 on in order, and unless the log is
  cleared meanwhile they are the first entries of the log. -/
theorem log_read_back (l : TradeLog) (is : List LogPortIn) :
    let p := (LogPort.reset l).run is
    (p.avl.logDataValid = true → ∃ pre c post, LastRead is pre c post ∧
      ((LogPort.reset l).run (pre ++ [c])).Serves (readIndex c.write) ∧
      p.avl.logDataShadow = ((LogPort.reset l).run (pre ++ [c])).log.mem (readIndex c.write)) ∧
    (∀ pre c post, LastRead is pre c post → 2 ≤ post.length → p.avl.logDataValid = true) ∧
    (∀ index cs, (hftLogReadEntryHw.run (p, .start index) cs).2.pc = .returned .ok →
      ∃ q ∈ hftLogReadEntryHw.visited (p, .start index) cs, q.Serves index.toNat ∧
        (hftLogReadEntryHw.run (p, .start index) cs).2.entry =
          ⟨index, logWord0 (q.log.mem index.toNat), logWord1 (q.log.mem index.toNat)⟩) ∧
    ∀ maxEntries cs, (hftLogReadAll.run (p, .start maxEntries) cs).2.pc = .returned .ok →
      let s := hftLogReadAll.run (p, .start maxEntries) cs
      let qs := hftLogReadAll.visited (p, .start maxEntries) cs
      (s.2.outCount = some s.2.n ∧ s.2.entries.length = s.2.n.toNat ∧
        (∃ q ∈ qs, s.2.n.toNat = min q.log.countReg maxEntries.toNat) ∧
        ∀ j e, s.2.entries[j]? = some e → ∃ q ∈ qs, q.Serves j ∧ e = hftLogEntry j (q.log.mem j)) ∧
      ((∀ q ∈ qs, q.avl.logClearPulse = false) →
        s.2.entries = (s.1.log.contents.take s.2.n.toNat).mapIdx hftLogEntry) := by
  intro p
  have hwf : p.log.WF := LogPort.wf_run TradeLog.wf_reset is
  refine ⟨fun hval => ?_, fun pre c post hl hlen => ?_, fun index cs hok => ?_, fun maxEntries cs hok => ?_⟩
  · obtain ⟨pre, c, post, hl, -⟩ := (LogPort.valid_iff l is).1 hval
    exact ⟨pre, c, post, hl, hl.serves _, (hl.stage _).shadow_eq hval⟩
  · exact (LogPort.valid_iff l is).2 ⟨pre, c, post, hl, hlen⟩
  · exact readEntry_ok hwf hok
  · exact ⟨readAll_ok hwf hok, readAll_contents hwf hok⟩

/-- Two trades, and in each later cycle an access of `hft_log_read_all`, with a third trade on the way. -/
def twoTrades : List LogPortIn :=
  [⟨none, some 0x0105000a00000007#64, fun _ => false⟩, ⟨none, some 0x0203000b00000009#64, fun _ => false⟩]

def readTwo : List BusCycle :=
  let env : BusEnv := ⟨3#32, 0, false, false⟩
  ⟨true, none, none, fun _ => false, env⟩ :: ⟨true, none, some 1, fun _ => false, env⟩ ::
    List.replicate 15 ⟨true, none, none, fun _ => false, env⟩

theorem log_read_back_twoTrades :
    let p := (LogPort.reset .powerUp).run twoTrades
    let s := hftLogReadAll.run (p, .start 8) readTwo
    (s.2.pc = .returned .ok ∧
      (∀ q ∈ hftLogReadAll.visited (p, .start 8) readTwo, q.avl.logClearPulse = false) ∧
      (s.1.log.contents.take s.2.n.toNat).mapIdx hftLogEntry =
        [⟨0, 0x00000007#32, 0x0105000a#32⟩, ⟨1, 0x00000009#32, 0x0203000b#32⟩]) ∧
    s.2.entries = (s.1.log.contents.take s.2.n.toNat).mapIdx hftLogEntry :=
  ⟨by decide +kernel,
    ((log_read_back .powerUp twoTrades).2.2.2 8 readTwo (by decide +kernel)).2 (by decide +kernel)⟩

end HftSim
