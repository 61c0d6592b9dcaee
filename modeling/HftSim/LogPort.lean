import HftSim.Top

/-!
# Reading the log back (`avl_log_*` in `hw/HFT_SIM.sv`)

The wrapper's log registers with the log behind them, under any bus writes and any trades. A read request
is served by the RAM one cycle later and captured in the shadow register one cycle after that; a later
request or a clear takes the pipeline over in whatever stage it is. `Stage` says what the registers hold
`n` cycles after the last request.
-/

namespace HftSim

open Function Avalon

structure LogPort where
  avl : Avalon
  log : TradeLog

/-- A cycle of the bus, and what the aggregator and the dispatcher do in it. -/
structure LogPortIn where
  write : Option BusWrite
  tradeIn : Option LogEntry
  dispPushReady : Fin 8 → Bool

/-- `writedata[15:2]` of a write to `LOG_CMD` -/
def readIndex (w : Option BusWrite) : Nat := ((busData w addrLogCmd).getD 0).toNat / 2 ^ 2 % 2 ^ 14

namespace LogPort

def reset (l : TradeLog) : LogPort := ⟨.reset, l.reset⟩

variable (p : LogPort) (i : LogPortIn)

def step : LogPort where
  avl := p.avl.step i.write i.dispPushReady p.log.swRdata
  log := p.log.step ⟨i.tradeIn, p.avl.logReadPulse, p.avl.logReadIndex, p.avl.logClearPulse⟩

def run (p : LogPort) (is : List LogPortIn) : LogPort := is.foldl step p

theorem run_snoc (is : List LogPortIn) (i : LogPortIn) : p.run (is ++ [i]) = (p.run is).step i := by
  simp [run]

/-- The top level drives its wrapper and its log this way. -/
theorem tick_eq_step (s : Top) (i : TopIn) :
    (⟨(s.tick i).avl, (s.tick i).log⟩ : LogPort) =
      step ⟨s.avl, s.log⟩ ⟨i.write, s.logIn.tradeIn, s.dispPushReady⟩ := rfl

def Quiet (w : Option BusWrite) : Prop := logReads w = false ∧ logClears w = false

/-- The RAM reads entry `k` in this cycle. -/
def Serves (k : Nat) : Prop := p.avl.logReadPulse = true ∧ p.avl.logReadIndex = k

/-- The registers `n` cycles after a request for entry `k`, which held `v` when it was served. -/
def Stage (k : Nat) (v : LogEntry) : Nat → Prop
  | 0 => p.Serves k ∧ p.log.mem k = v ∧ p.avl.logReadPipe0 = true ∧ p.avl.logDataValid = false
  | 1 => p.log.swRdata = v ∧ p.avl.logReadPipe0 = false ∧ p.avl.logReadPipe1 = true ∧
      p.avl.logReadPulse = false ∧ p.avl.logDataValid = false
  | _ + 2 => p.avl.logDataShadow = v ∧ p.avl.logReadPipe0 = false ∧ p.avl.logReadPipe1 = false ∧
      p.avl.logDataValid = true

def Off : Prop := p.avl.logReadPipe0 = false ∧ p.avl.logReadPipe1 = false ∧ p.avl.logDataValid = false

variable {p i} {k n : Nat} {v : LogEntry}

/-! ### One edge -/

theorem stage_of_reads (h : logReads i.write = true) :
    (p.step i).Stage (readIndex i.write) ((p.step i).log.mem (readIndex i.write)) 0 := by
  have hc : logClears i.write = false := by
    simp only [logReads, Bool.and_eq_true, Bool.not_eq_true'] at h
    exact h.1
  refine ⟨⟨h, ?_⟩, rfl, h, ?_⟩
  · show (if logReads i.write then _ else _) = _
    rw [if_pos h]
    rfl
  · simp [step, Avalon.step, h, hc]

theorem off_of_clears (h : logClears i.write = true) : (p.step i).Off := by
  have hr : logReads i.write = false := by
    have hb : busBit i.write addrLogCmd 0 = true := h
    simp [logReads, hb]
  exact ⟨hr, by simp [step, Avalon.step, h], by simp [step, Avalon.step, h]⟩

theorem Stage.step (h : p.Stage k v n) (hq : Quiet i.write) : (p.step i).Stage k v (n + 1) := by
  obtain ⟨hr, hc⟩ := hq
  match n, h with
  | 0, ⟨⟨hre, hk⟩, hv, h0, hval⟩ =>
    refine ⟨?_, hr, ?_, hr, ?_⟩
    · show (if p.avl.logReadPulse then p.log.mem p.avl.logReadIndex else _) = v
      rw [if_pos hre, hk, hv]
    · simp [LogPort.step, Avalon.step, hr, hc, h0]
    · simp [LogPort.step, Avalon.step, hr, hc, h0, hval]
  | 1, ⟨hv, h0, h1, _, _⟩ =>
    refine ⟨?_, hr, ?_, ?_⟩
    · simp [LogPort.step, Avalon.step, hc, h0, h1, hv]
    · simp [LogPort.step, Avalon.step, hr, hc, h0]
    · simp [LogPort.step, Avalon.step, hr, hc, h0, h1]
  | n + 2, ⟨hv, h0, h1, hval⟩ =>
    refine ⟨?_, hr, ?_, ?_⟩
    · simp [LogPort.step, Avalon.step, hc, h1, hv]
    · simp [LogPort.step, Avalon.step, hr, hc, h0]
    · simp [LogPort.step, Avalon.step, hr, hc, hval]

theorem Off.step (h : p.Off) (hq : Quiet i.write) : (p.step i).Off := by
  obtain ⟨h0, h1, hval⟩ := h
  obtain ⟨hr, hc⟩ := hq
  refine ⟨hr, ?_, ?_⟩
  · simp [LogPort.step, Avalon.step, hr, hc, h0]
  · simp [LogPort.step, Avalon.step, hr, hc, h1, hval]

/-- The valid bit is up from the second cycle after the request on. -/
theorem Stage.valid_iff (h : p.Stage k v n) : p.avl.logDataValid = true ↔ 2 ≤ n := by
  match n, h with
  | 0, ⟨_, _, _, hval⟩ => simp [hval]
  | 1, ⟨_, _, _, _, hval⟩ => simp [hval]
  | n + 2, ⟨_, _, _, hval⟩ => simp [hval]

theorem Stage.shadow_eq (h : p.Stage k v n) (hval : p.avl.logDataValid = true) : p.avl.logDataShadow = v := by
  obtain ⟨n, rfl⟩ : ∃ m, n = m + 2 := ⟨n - 2, by have := h.valid_iff.1 hval; omega⟩
  exact h.1

/-! ### Runs -/

/-- `c` is the last command in `pre ++ c :: post`, and it is a read request. -/
structure LastRead (is pre : List LogPortIn) (c : LogPortIn) (post : List LogPortIn) : Prop where
  eq : is = pre ++ c :: post
  reads : logReads c.write = true
  quiet : ∀ d ∈ post, Quiet d.write

theorem LastRead.stage {is pre post : List LogPortIn} {c : LogPortIn} (h : LastRead is pre c post)
    (p : LogPort) :
    (p.run is).Stage (readIndex c.write) ((p.run (pre ++ [c])).log.mem (readIndex c.write)) post.length := by
  obtain ⟨rfl, hr, hq⟩ := h
  induction post using List.reverseRecOn with
  | nil =>
    rw [run_snoc]
    exact stage_of_reads hr
  | append_singleton post d ih =>
    have hd := hq d (by simp)
    have hst := ih fun e he => hq e (by simp [he])
    have heq : pre ++ c :: (post ++ [d]) = pre ++ c :: post ++ [d] := by simp
    rw [heq, run_snoc p, List.length_append]
    exact hst.step hd

/-- The last command, if there is one, is a read request or a clear. -/
theorem off_or_lastRead (p : LogPort) (hp : p.Off) (is : List LogPortIn) :
    (p.run is).Off ∨ ∃ pre c post, LastRead is pre c post := by
  induction is using List.reverseRecOn with
  | nil => exact .inl hp
  | append_singleton is i ih =>
    by_cases hr : logReads i.write = true
    · exact .inr ⟨is, i, [], rfl, hr, by simp⟩
    · rw [run_snoc]
      by_cases hc : logClears i.write = true
      · exact .inl (off_of_clears hc)
      · have hq : Quiet i.write := ⟨by simpa using hr, by simpa using hc⟩
        rcases ih with hoff | ⟨pre, c, post, hl⟩
        · exact .inl (hoff.step hq)
        · refine .inr ⟨pre, c, post ++ [i], by simp [hl.eq], hl.reads, fun d hd => ?_⟩
          rcases List.mem_append.1 hd with hd | hd
          · exact hl.quiet d hd
          · rw [List.mem_singleton.1 hd]
            exact hq

theorem off_reset (l : TradeLog) : (reset l).Off := ⟨rfl, rfl, rfl⟩

/-- The valid bit is up exactly when the last command is a request at least two cycles back. -/
theorem valid_iff (l : TradeLog) (is : List LogPortIn) : ((reset l).run is).avl.logDataValid = true ↔
    ∃ pre c post, LastRead is pre c post ∧ 2 ≤ post.length := by
  constructor
  · intro h
    rcases off_or_lastRead (reset l) (off_reset l) is with ⟨-, -, hoff⟩ | ⟨pre, c, post, hl⟩
    · rw [h] at hoff
      cases hoff
    · exact ⟨pre, c, post, hl, (hl.stage (reset l)).valid_iff.1 h⟩
  · rintro ⟨pre, c, post, hl, hlen⟩
    exact (hl.stage (reset l)).valid_iff.2 hlen

theorem LastRead.serves {is pre post : List LogPortIn} {c : LogPortIn} (h : LastRead is pre c post)
    (p : LogPort) : (p.run (pre ++ [c])).Serves (readIndex c.write) := by
  rw [run_snoc]
  exact (stage_of_reads h.reads).1

/-! ### Entries stay where they are -/

theorem wf_run (h : p.log.WF) (is : List LogPortIn) : (p.run is).log.WF := by
  induction is using List.reverseRecOn with
  | nil => exact h
  | append_singleton is i ih =>
    rw [run_snoc]
    exact ih.step

theorem contents_prefix_step (h : p.log.WF) (hc : p.avl.logClearPulse = false) :
    p.log.contents <+: (p.step i).log.contents := by
  have hstep : (p.step i).log =
      p.log.step ⟨i.tradeIn, p.avl.logReadPulse, p.avl.logReadIndex, p.avl.logClearPulse⟩ := rfl
  rw [hstep, h.contents_step, if_neg (by simp [hc])]
  exact List.prefix_append _ _

end LogPort

theorem TradeLog.length_contents (l : TradeLog) : l.contents.length = l.countReg := by
  simp [contents]

theorem TradeLog.getElem?_contents {l : TradeLog} {n : Nat} (h : n < l.countReg) :
    l.contents[n]? = some (l.mem n) := by
  simp [contents, h]

end HftSim
