import HftSim.EngineAnswers
import HftSim.HeapRank

/-!
# Each command once

The trade controller keeps `cmd_valid` up from the `ISSUE` state of a command until it sees `cmd_done`, and
in `T_PUSH_WAIT` with another opcode. The heap takes the command in the `ISSUE` state and is in `S_IDLE`
again only after the controller has left the `WAIT` state, so it takes it once. `Rig.events` is what
happens on the command buses; it is a list of commands each issued and then done.
-/

namespace HftSim

open Function

structure Command where
  heap : HeapKind
  op : Op
  data : Node
deriving DecidableEq

/-- A command is on the bus in its `ISSUE` state, or `cmd_done` is up and the command is the one the heap
has latched. -/
inductive CmdEvent
  | issue (c : Command)
  | done (c : Command)
deriving DecidableEq

/-! ### The heap -/

namespace HeapFsm

variable {cfg : HeapCfg} {h : HeapFsm} {i : HeapIn}

/-- Outside `S_IDLE` the latched command stays. -/
theorem saved_step (h1 : h.state ≠ .idle) :
    (h.step cfg i).savedOp = h.savedOp ∧ (h.step cfg i).savedOpData = h.savedOpData := by
  unfold step regs
  cases hst : h.state <;> first
    | exact absurd hst h1
    | exact ⟨rfl, rfl⟩
    | simp only [takeLast, descendTo, cacheTarget]
      split_ifs <;> exact ⟨rfl, rfl⟩

theorem saved_accept (h1 : h.state = .idle) (h2 : i.cmdValid = true) :
    (h.step cfg i).savedOp = i.cmdOp ∧ (h.step cfg i).savedOpData = i.cmdDataIn := by
  unfold step regs
  simp only [h1, h2, if_true]
  cases i.cmdOp <;> exact ⟨rfl, rfl⟩

/-- A `PEEK` is done when the root is in the cache, and no other command is a `PEEK`. -/
def PeekOk (h : HeapFsm) : Prop :=
  match h.state with
  | .idle => True
  | .peekRdIssue | .peekRdWait => h.savedOp = .peek
  | .done => h.savedOp = .peek → h.nodeCacheValid 0 = true
  | _ => h.savedOp ≠ .peek

theorem PeekOk.step (hp : h.PeekOk) : (h.step cfg i).PeekOk := by
  have hst' : (h.step cfg i).state = h.nState cfg i := rfl
  unfold PeekOk at hp ⊢
  rw [hst']
  cases hst : h.state
  case idle =>
    simp only [HeapFsm.step, nState, regs, hst]
    by_cases hv : i.cmdValid = true
    · cases hop : i.cmdOp <;> simp only [hv, if_true] <;> try split_ifs
      all_goals simp_all
    · simp [hv]
  all_goals
    have hsaved := (@saved_step cfg h i (by rw [hst]; decide)).1
    rw [hsaved]
    simp only [hst] at hp
    simp only [HeapFsm.step, nState, regs, issueTo, hst]
    try split_ifs
    all_goals simp_all

end HeapFsm

namespace SymbolEngine

variable {n : Nat} {e : SymbolEngine} {i : EngineIn} {k : HeapKind}

/-- What happens on the command buses in a cycle. -/
def events (e : SymbolEngine) : List CmdEvent :=
  (match e.issuesTo with
    | some k => [.issue ⟨k, (e.cmd k).op, (e.cmd k).data⟩]
    | none => []) ++
  [HeapKind.maxHeap, .minHeap].flatMap fun k =>
    if (e.heap k).cmdDone then [.done ⟨k, (e.heap k).savedOp, (e.heap k).savedOpData⟩] else []

/-- `bid_root_snap` and `ask_root_snap` -/
def rootSnap (e : SymbolEngine) : HeapKind → Node
  | .maxHeap => e.bidRootSnap
  | .minHeap => e.askRootSnap

/-- The snapped root of heap `k` is in its cache. -/
def Held (e : SymbolEngine) (k : HeapKind) : Prop :=
  (e.heap k).nodeCacheValid 0 = true ∧ (e.heap k).nodeCache 0 = e.rootSnap k

/-- What the controller knows of the roots it has snapped. -/
def Snapped (e : SymbolEngine) : Prop :=
  match e.tstate with
  | .peekBidWait => e.bid.savedOp = .peek
  | .peekAskIssue => e.Held .maxHeap
  | .peekAskWait => e.Held .maxHeap ∧ e.ask.savedOp = .peek
  | .decide => e.Held .maxHeap ∧ e.Held .minHeap
  | .popBidIssue | .popBidWait => e.Held .minHeap ∧ e.latchedPartialBid = false
  | .popAskIssue | .popAskWait => e.latchedPartialBid = true → e.Held .maxHeap
  | .updateBidIssue => e.Held .maxHeap
  | .updateAskIssue => e.Held .minHeap
  | _ => True

theorem cache_step (hs : e.Serial) (hi : e.issuesTo ≠ some k) (hw : e.waitsFor = some k → (e.heap k).cmdDone = true) :
    ((e.step n i).heap k).nodeCacheValid = (e.heap k).nodeCacheValid ∧
      ((e.step n i).heap k).nodeCache = (e.heap k).nodeCache := by
  rw [heap_step]
  by_cases hk : e.waitsFor = some k
  · have hst : (e.heap k).state = .done := of_decide_eq_true (hw hk)
    simp [HeapFsm.step, HeapFsm.regs, hst]
  · have hidle : (e.heap k).state = .idle := by
      cases hw' : e.waitsFor with
      | none => exact hs.calm hw' k
      | some k' => exact (hs.busy hw').2 k fun hc => hk (by rw [hw', hc])
    have hno : (e.heapIn i k).cmdValid = false := by
      rw [(heapIn_cmd k).1]
      exact Bool.eq_false_iff.2 fun hc => (cmd_valid.1 hc).elim hi hk
    simp [HeapFsm.step, HeapFsm.regs, hidle, hno]

theorem Held.step (hh : e.Held k) (hs : e.Serial) (hi : e.issuesTo ≠ some k)
    (hw : e.waitsFor = some k → (e.heap k).cmdDone = true) (hsnap : (e.step n i).rootSnap k = e.rootSnap k) :
    (e.step n i).Held k := by
  obtain ⟨hv, hc⟩ := cache_step (n := n) (i := i) hs hi hw
  unfold Held
  rw [hv, hc, hsnap]
  exact hh

/-- When a `PEEK` is done, the root is snapped. -/
theorem held_of_peek (hs : e.Serial) (hp : (e.heap k).PeekOk) (hd : (e.heap k).cmdDone = true)
    (hop : (e.heap k).savedOp = .peek) (hi : e.issuesTo ≠ some k)
    (hsnap : (e.step n i).rootSnap k = (e.heap k).cmdRootOut) : (e.step n i).Held k := by
  have hst : (e.heap k).state = .done := of_decide_eq_true hd
  have hval : (e.heap k).nodeCacheValid 0 = true := by
    unfold HeapFsm.PeekOk at hp
    simp only [hst] at hp
    exact hp hop
  obtain ⟨hv, hc⟩ := cache_step (n := n) (i := i) hs hi fun _ => hd
  unfold Held
  rw [hv, hc, hsnap]
  refine ⟨hval, ?_⟩
  simp [HeapFsm.cmdRootOut, hop, hval]

theorem Snapped.step (h : e.Snapped) (hs : e.Serial) (hp : ∀ k, (e.heap k).PeekOk) : (e.step n i).Snapped := by
  unfold Snapped at h
  have hnext : (e.step n i).tstate = e.tnState i := rfl
  -- the commands of one heap leave the other one alone
  have hother : ∀ k, e.issuesTo ≠ some k → e.waitsFor ≠ some k → (e.step n i).rootSnap k = e.rootSnap k → e.Held k →
      (e.step n i).Held k := fun k h1 h2 h3 hh => hh.step hs h1 (fun hc => absurd hc h2) h3
  have hsaved : ∀ k, e.issuesTo = some k → ((e.step n i).heap k).savedOp = (e.cmd k).op := fun k hk => by
    rw [heap_step, ← (heapIn_cmd (i := i) k).2.1]
    refine (HeapFsm.saved_accept (hs.calm (waitsFor_of_issuesTo hk) k) ?_).1
    rw [(heapIn_cmd k).1]
    exact cmd_valid.2 (.inl hk)
  have hkeep : ∀ k, e.waitsFor = some k → ((e.step n i).heap k).savedOp = (e.heap k).savedOp := fun k hk => by
    rw [heap_step]
    exact (HeapFsm.saved_step (hs.busy hk).1).1
  unfold Snapped
  rw [hnext]
  have hagain := again_cases (e := e)
  have hlatch : e.tstate ≠ .decide → (e.step n i).latchedPartialBid = e.latchedPartialBid := fun hd => by
    simp [SymbolEngine.step, trades, hd]
  cases hst : e.tstate <;> simp only [hst] at h <;> simp only [tnState, hst]
  case idle => split_ifs <;> trivial
  case pushWait => rcases hagain with ha | ha <;> rw [ha] <;> split_ifs <;> trivial
  case emitTrade => rcases hagain with ha | ha <;> rw [ha] <;> split_ifs <;> trivial
  case updateBidWait => split_ifs <;> trivial
  case updateAskWait => split_ifs <;> trivial
  case peekBidIssue =>
    have := hsaved .maxHeap (by simp [issuesTo, hst])
    simpa [heap, cmd, bidCmd, hst] using this
  case peekBidWait =>
    split_ifs with hd
    · exact held_of_peek hs (hp .maxHeap) hd h (by simp [issuesTo, hst])
        (by simp [rootSnap, SymbolEngine.step, hst, hd, heap])
    · exact (hkeep .maxHeap (by simp [waitsFor, hst])).trans h
  case peekAskIssue =>
    refine ⟨hother .maxHeap (by simp [issuesTo, hst]) (by simp [waitsFor, hst])
      (by simp [rootSnap, SymbolEngine.step, hst]) h, ?_⟩
    have := hsaved .minHeap (by simp [issuesTo, hst])
    simpa [heap, cmd, askCmd, hst] using this
  case peekAskWait =>
    have hbid := hother .maxHeap (by simp [issuesTo, hst]) (by simp [waitsFor, hst])
      (by simp [rootSnap, SymbolEngine.step, hst]) h.1
    split_ifs with hd
    · exact ⟨hbid, held_of_peek hs (hp .minHeap) hd h.2 (by simp [issuesTo, hst])
        (by simp [rootSnap, SymbolEngine.step, hst, hd, heap])⟩
    · exact ⟨hbid, (hkeep .minHeap (by simp [waitsFor, hst])).trans h.2⟩
  case decide =>
    have hboth : ∀ k, (e.step n i).Held k := fun k =>
      hother k (by simp [issuesTo, hst]) (by simp [waitsFor, hst])
        (by cases k <;> simp [rootSnap, SymbolEngine.step, hst]) (by cases k <;> [exact h.1; exact h.2])
    split_ifs with hm hpb
    · trivial
    · exact fun _ => hboth .maxHeap
    · refine ⟨hboth .minHeap, ?_⟩
      simp only [Bool.not_eq_true, Bool.not_eq_false'] at hm hpb
      simp [SymbolEngine.step, trades, hst, hm, hpb]
  case popBidIssue =>
    exact ⟨hother .minHeap (by simp [issuesTo, hst]) (by simp [waitsFor, hst])
      (by simp [rootSnap, SymbolEngine.step, hst]) h.1, (hlatch (by simp [hst])).trans h.2⟩
  case popBidWait =>
    have hask := hother .minHeap (by simp [issuesTo, hst]) (by simp [waitsFor, hst])
      (by simp [rootSnap, SymbolEngine.step, hst]) h.1
    have hno := (hlatch (by simp [hst])).trans h.2
    split_ifs
    · exact hask
    · exact fun hc => absurd (hc.symm.trans hno) (by decide)
    · exact ⟨hask, hno⟩
  case popAskIssue =>
    intro hl
    exact hother .maxHeap (by simp [issuesTo, hst]) (by simp [waitsFor, hst])
      (by simp [rootSnap, SymbolEngine.step, hst]) (h ((hlatch (by simp [hst])).symm.trans hl))
  case popAskWait =>
    have hbid := fun hl => hother .maxHeap (by simp [issuesTo, hst]) (by simp [waitsFor, hst])
      (by simp [rootSnap, SymbolEngine.step, hst]) (h hl)
    split_ifs with hd hl
    · exact hbid hl
    · trivial
    · exact fun hc => hbid ((hlatch (by simp [hst])).symm.trans hc)

/-- An `UPDATE` finds the keys of the root in the command. -/
theorem Snapped.guard (h : e.Snapped) (hk : e.issuesTo = some k) (hop : (e.cmd k).op = .update) (i : EngineIn) :
    (e.heap k).nodeCacheValid 0 = true ∧ (e.heap k).updateKeysOk (e.heapIn i k) = true := by
  unfold Snapped at h
  have hkeys : ∀ a, e.Held k → (e.cmd k).data = withAmount (e.rootSnap k) a →
      (e.heap k).nodeCacheValid 0 = true ∧ (e.heap k).updateKeysOk (e.heapIn i k) = true := by
    rintro a ⟨hv, hc⟩ hdata
    refine ⟨hv, ?_⟩
    unfold HeapFsm.updateKeysOk
    rw [(heapIn_cmd k).2.2, hdata, hc]
    simp
  unfold issuesTo at hk
  cases hst : e.tstate <;> simp only [hst, reduceCtorEq, Option.some.injEq] at hk h
  case pushIssue =>
    subst hk
    cases hp : e.pendingIsAsk <;> simp [cmd, bidCmd, askCmd, hst, hp] at hop
  case updateBidIssue =>
    subst hk
    exact hkeys _ h (by simp only [cmd, bidCmd, hst]; rfl)
  case updateAskIssue =>
    subst hk
    exact hkeys _ h (by simp only [cmd, askCmd, hst]; rfl)
  all_goals
    subst hk
    simp [cmd, bidCmd, askCmd, hst] at hop

/-- The events of a cycle in which the controller neither issues nor sees a command done. -/
theorem events_eq (hs : e.Serial) : e.events =
    match e.issuesTo, e.waitsFor with
    | some k, _ => [.issue ⟨k, (e.cmd k).op, (e.cmd k).data⟩]
    | none, some k => if (e.heap k).cmdDone then [.done ⟨k, (e.heap k).savedOp, (e.heap k).savedOpData⟩] else []
    | none, none => [] := by
  have hidle : ∀ k, e.waitsFor ≠ some k → (e.heap k).cmdDone = false := by
    intro k hk
    have : (e.heap k).state = .idle := by
      cases hw : e.waitsFor with
      | none => exact hs.calm hw k
      | some k' => exact (hs.busy hw).2 k fun hc => hk (by rw [hw, hc])
    simp [HeapFsm.cmdDone, this]
  unfold events
  rcases hi : e.issuesTo with _ | k
  · rcases hw : e.waitsFor with _ | k
    · simp [hidle _ (show e.waitsFor ≠ some HeapKind.maxHeap by rw [hw]; simp),
        hidle _ (show e.waitsFor ≠ some HeapKind.minHeap by rw [hw]; simp)]
    · cases k
      · simp [hidle _ (show e.waitsFor ≠ some HeapKind.minHeap by rw [hw]; simp)]
      · simp [hidle _ (show e.waitsFor ≠ some HeapKind.maxHeap by rw [hw]; simp)]
  · have hw := waitsFor_of_issuesTo hi
    simp [hidle _ (show e.waitsFor ≠ some HeapKind.maxHeap by rw [hw]; simp),
      hidle _ (show e.waitsFor ≠ some HeapKind.minHeap by rw [hw]; simp)]

end SymbolEngine

namespace Rig

variable {n : Nat} {s : Rig} {c : RigCycle} {k : HeapKind}

/-- What has happened on the command buses. -/
def events (n : Nat) (b : PrivBram) (cs : List RigCycle) : List CmdEvent :=
  (List.range cs.length).flatMap fun t => (run n b (cs.take t)).eng.events

theorem events_snoc (n : Nat) (b : PrivBram) (cs : List RigCycle) (c : RigCycle) :
    events n b (cs ++ [c]) = events n b cs ++ (run n b cs).eng.events := by
  unfold events
  rw [List.length_append, List.length_singleton, List.range_succ, List.flatMap_append]
  congr 1
  · refine List.flatMap_congr fun t ht => ?_
    rw [List.take_append_of_le_length (Nat.le_of_lt (List.mem_range.1 ht))]
  · simp

/-- The command that the controller waits for. -/
def pending (e : SymbolEngine) : List CmdEvent :=
  match e.waitsFor with
  | none => []
  | some k => [.issue ⟨k, (e.heap k).savedOp, (e.heap k).savedOpData⟩]

def bothEvents (c : Command) : List CmdEvent := [.issue c, .done c]

/-- What holds of the controller and the commands. -/
structure Disciplined (e : SymbolEngine) : Prop where
  serial : e.Serial
  peek : ∀ k, (e.heap k).PeekOk
  snapped : e.Snapped

theorem Disciplined.step {e : SymbolEngine} {i : EngineIn} (h : Disciplined e) : Disciplined (e.step n i) where
  serial := h.serial.step
  peek k := by rw [SymbolEngine.heap_step]; exact (h.peek k).step
  snapped := h.snapped.step h.serial h.peek

theorem run_disciplined (n : Nat) (b : PrivBram) (cs : List RigCycle) : Disciplined (run n b cs).eng := by
  induction cs using List.reverseRecOn with
  | nil => exact ⟨SymbolEngine.serial_reset b, fun k => by cases k <;> trivial, trivial⟩
  | append_singleton cs c ih => rw [run_snoc]; exact ih.step

/-- Every command issued has been done once, but for the one the controller waits for. -/
theorem run_events (n : Nat) (b : PrivBram) (cs : List RigCycle) :
    ∃ cmds : List Command, events n b cs = cmds.flatMap bothEvents ++ pending (run n b cs).eng := by
  induction cs using List.reverseRecOn with
  | nil => exact ⟨[], rfl⟩
  | append_singleton cs c ih =>
    obtain ⟨cmds, hev⟩ := ih
    have hs := (run_disciplined n b cs).serial
    rw [events_snoc, hev, run_snoc, SymbolEngine.events_eq hs]
    generalize (run n b cs) = s at hs
    rcases hi : s.eng.issuesTo with _ | k
    · rcases hw : s.eng.waitsFor with _ | k
      · -- nothing goes on
        refine ⟨cmds, ?_⟩
        have hw' : (s.step n c).eng.waitsFor = none := SymbolEngine.rest_step hi hw
        simp [pending, hw, hw']
      · have hw' := SymbolEngine.waitsFor_step (n := n) (i := s.engineIn c) hw
        by_cases hd : (s.eng.heap k).cmdDone = true
        · refine ⟨cmds ++ [⟨k, (s.eng.heap k).savedOp, (s.eng.heap k).savedOpData⟩], ?_⟩
          rw [if_pos hd] at hw'
          have hw' : (s.step n c).eng.waitsFor = none := hw'
          simp [pending, hw, hw', hd, bothEvents]
        · refine ⟨cmds, ?_⟩
          rw [if_neg hd] at hw'
          have hw' : (s.step n c).eng.waitsFor = some k := hw'
          obtain ⟨h1, h2⟩ := @HeapFsm.saved_step ⟨k, n⟩ _ (s.eng.heapIn (s.engineIn c) k) (hs.busy hw).1
          simp [pending, hw, hw', hd, heap_step, h1, h2]
    · -- the heap takes the command
      refine ⟨cmds, ?_⟩
      have hw := SymbolEngine.waitsFor_of_issuesTo hi
      have hw' : (s.step n c).eng.waitsFor = some k := SymbolEngine.issuesTo_step hi
      have hv : (s.eng.heapIn (s.engineIn c) k).cmdValid = true := by
        rw [(SymbolEngine.heapIn_cmd k).1]
        exact SymbolEngine.cmd_valid.2 (.inl hi)
      obtain ⟨h1, h2⟩ := @HeapFsm.saved_accept ⟨k, n⟩ _ _ (hs.calm hw k) hv
      rw [(SymbolEngine.heapIn_cmd k).2.1] at h1
      rw [(SymbolEngine.heapIn_cmd k).2.2] at h2
      simp [pending, hw, hw', heap_step, h1, h2]

/-! ### Commands end -/

/-- The MMU takes what is issued and answers what is unanswered. -/
def Prompt (c : RigCycle) : Prop := c.ready = true ∧ c.answer = some true

/-- What is left of the command of heap `k`, and of an answer under way. -/
def distance (s : Rig) (k : HeapKind) : Nat :=
  2 * (s.eng.heap k).rank + if s.eng.mmuOwner = .idle then 0 else 1

theorem stalled_eq (h : HeapFsm) (i : HeapIn) : h.stalled i =
    if h.state.readWait then !h.readDone i else if h.state.writeWait then !h.writeDone i
    else h.virtReqValid && !i.virtReqReady := by
  unfold HeapFsm.stalled
  cases hst : h.state <;> rfl

/-- A heap at work whose mux is free is not stalled by a prompt MMU, and neither is one that waits. -/
theorem Inv.not_stalled (h : s.Inv) (hs : s.eng.Serial) (hw : s.eng.waitsFor = some k) (hc : Prompt c)
    (hfree : (s.eng.heap k).state.waits = true ∨ s.eng.mmuOwner = .idle) :
    (s.eng.heap k).stalled (s.eng.heapIn (s.engineIn c) k) = false := by
  rw [stalled_eq]
  cases hwait : (s.eng.heap k).state.waits with
  | true =>
    have haw := h.wait k hwait
    unfold Awaits at haw
    have hdone : ∀ r, s.asked k = some r → (s.eng.heapIn (s.engineIn c) k).virtRespValid = true := by
      intro r hr
      rw [hr] at haw
      rw [(SymbolEngine.heapIn_req _ _ _).2.1]
      simp [engineIn, haw.1, haw.2.1, hc.2]
    rcases ha : s.asked k with _ | r
    · rw [ha] at haw
      split_ifs with h1 h2
      · simp [HeapFsm.readDone, haw.1 h1]
      · simp [HeapFsm.writeDone, haw.2 h2]
      · simp [HState.waits, h1, h2] at hwait
    · have := hdone r ha
      split_ifs with h1 h2
      · simp [HeapFsm.readDone, this]
      · simp [HeapFsm.writeDone, this]
      · simp [HState.waits, h1, h2] at hwait
  | false =>
    obtain ⟨h1, h2⟩ : (s.eng.heap k).state.readWait = false ∧ (s.eng.heap k).state.writeWait = false := by
      simpa [HState.waits] using hwait
    have hidle := hfree.resolve_left (by rw [hwait]; decide)
    simp only [h1, h2, Bool.false_eq_true, if_false]
    rw [(SymbolEngine.heapIn_req _ _ _).1]
    -- the other heap asks for nothing
    have hother : ∀ k', k' ≠ k → (s.eng.heap k').virtReqValid = false := fun k' hk' => by
      have := (hs.busy hw).2 k' hk'
      simp [HeapFsm.virtReqValid, HeapFsm.effectiveRead, HeapFsm.memDoRead, HeapFsm.memDoWrite, this]
    have hgrant : s.eng.grant k = (s.eng.heap k).virtReqValid := by
      cases k
      · simp [SymbolEngine.grant, SymbolEngine.bidGrant, hidle, SymbolEngine.heap]
      · have : s.eng.bid.virtReqValid = false := hother .maxHeap (by decide)
        simp [SymbolEngine.grant, SymbolEngine.askGrant, hidle, SymbolEngine.heap, this]
    rw [hgrant]
    simp [engineIn, hc.1]

theorem Inv.prompt_step (h : s.Inv) (hs : s.eng.Serial) (hw : s.eng.waitsFor = some k)
    (hd : (s.eng.heap k).cmdDone = false) (hi : (s.eng.heap k).Indexed ⟨k, n⟩) (hcap : (s.eng.heap k).size ≤ 1024)
    (hc : Prompt c) : (s.step n c).distance k < s.distance k := by
  have hadv := hi.advances hcap (hs.busy hw).1 (of_decide_eq_false hd) (s.eng.heapIn (s.engineIn c) k)
  unfold distance
  rw [heap_step]
  by_cases hfree : (s.eng.heap k).state.waits = true ∨ s.eng.mmuOwner = .idle
  · have := hadv.rank_lt (h.not_stalled hs hw hc hfree)
    split_ifs <;> omega
  · -- an abandoned read is answered
    obtain ⟨-, hbusy⟩ := not_or.1 hfree
    have hrej : (s.eng.heapIn (s.engineIn c) k).virtRespReject = false := by
      rw [(SymbolEngine.heapIn_req _ _ _).2.2.1]
      simp [engineIn, hc.2]
    have := hadv.rank_le hrej
    rcases h.owner_step (n := n) (c := c) hbusy with ⟨-, hidle, -⟩ | ⟨hnone, -, -⟩
    · rw [if_neg hbusy, if_pos hidle]
      omega
    · rw [hc.2] at hnone; cases hnone

end Rig

/-- A command in progress keeps the heap below its capacity; a `PUSH` adds its node when it is done. -/
theorem HeapFsm.Indexed.size_step {cfg : HeapCfg} {h : HeapFsm} (hi : h.Indexed cfg) (hcap : h.size ≤ 1024) (i : HeapIn) :
    (h.step cfg i).size ≤ 1024 ∨ (h.step cfg i).state = .done := by
  unfold HeapFsm.Indexed at hi
  cases hst : h.state <;> simp only [hst] at hi <;> simp only [HeapFsm.step, HeapFsm.nState, HeapFsm.regs, hst]
  case idle =>
    left
    by_cases hv : i.cmdValid = true
    · cases i.cmdOp <;> simpa only [hv, if_true] using hcap
    · simpa only [hv, Bool.false_eq_true, if_false] using hcap
  case pushWrFinalWait => split_ifs <;> simp_all
  case popRdLastIssue =>
    left
    split_ifs
    · rw [(h.takeLast_indices hi hcap _).1]; omega
    · exact hcap
  case popRdLastWait =>
    left
    split_ifs
    · rw [(h.takeLast_indices hi hcap _).1]; omega
    · exact hcap
  all_goals
    left
    try split_ifs
    all_goals simp_all [HeapFsm.descendTo]

namespace Rig

variable {n : Nat} {s : Rig} {c : RigCycle} {k : HeapKind}

/-- Before a prompt MMU the command of heap `k` is done after `distance` cycles at the latest. -/
theorem Inv.ends (h : s.Inv) (hs : s.eng.Serial) (hw : s.eng.waitsFor = some k)
    (hi : (s.eng.heap k).Indexed ⟨k, n⟩) (hcap : (s.eng.heap k).size ≤ 1024 ∨ (s.eng.heap k).cmdDone = true)
    {js : List RigCycle} (hlen : s.distance k ≤ js.length) (hjs : ∀ c ∈ js, Prompt c) :
    ∃ m ≤ js.length, (((js.take m).foldl (Rig.step n) s).eng.heap k).cmdDone = true ∧
      ((js.take m).foldl (Rig.step n) s).eng.waitsFor = some k := by
  induction js generalizing s with
  | nil =>
    refine ⟨0, Nat.le_refl _, ?_, hw⟩
    have hzero : (s.eng.heap k).rank = 0 := by unfold distance at hlen; simp at hlen; omega
    by_contra hd
    have hcap := hcap.resolve_right hd
    have hadv := hi.advances hcap (hs.busy hw).1 (fun hst => hd (decide_eq_true hst))
      ⟨false, .peek, 0, 0, true, true, 0, false⟩
    -- one more cycle could not lower the rank
    have hlt := hadv.rank_lt (by
      rw [stalled_eq]
      split_ifs <;> simp [HeapFsm.readDone, HeapFsm.writeDone])
    omega
  | cons c js ih =>
    by_cases hd : (s.eng.heap k).cmdDone = true
    · exact ⟨0, Nat.zero_le _, hd, hw⟩
    have hcap := hcap.resolve_right hd
    have hd : (s.eng.heap k).cmdDone = false := by simpa using hd
    have hlt := h.prompt_step (n := n) hs hw hd hi hcap (hjs c (by simp))
    have hw' : (s.step n c).eng.waitsFor = some k := by
      have := SymbolEngine.waitsFor_step (n := n) (i := s.engineIn c) hw
      rwa [if_neg (by rw [hd]; decide)] at this
    obtain ⟨m, hm, hdone, hwait⟩ := ih (h.step c) hs.step hw'
      (by rw [heap_step]; exact hi.step hcap _)
      (by
        rw [heap_step]
        exact (hi.size_step hcap _).imp id fun hst => decide_eq_true hst)
      (by rw [List.length_cons] at hlen; omega) fun c hc => hjs c (by simp [hc])
    exact ⟨m + 1, by rw [List.length_cons]; omega, hdone, hwait⟩

theorem run_indexed (n : Nat) (b : PrivBram) {cs : List RigCycle}
    (hcap : ∀ p, p <+: cs → ∀ k, ((run n b p).eng.heap k).size ≤ 1024) (k : HeapKind) :
    ((run n b cs).eng.heap k).Indexed ⟨k, n⟩ := by
  induction cs using List.reverseRecOn with
  | nil => cases k <;> trivial
  | append_singleton cs c ih =>
    have hpre : cs <+: cs ++ [c] := List.prefix_append _ _
    rw [run_snoc, heap_step]
    exact (ih fun p hp => hcap p (hp.trans hpre)).step (hcap cs hpre k) _

/-- The two heaps of an engine take turns, and each command is executed once. -/
structure OnceEach (n : Nat) (b : PrivBram) (cs : List RigCycle) : Prop where
  apart : ¬ ((run n b cs).eng.bid.state ≠ .idle ∧ (run n b cs).eng.ask.state ≠ .idle)
  port : SymbolEngine.Silent (run n b cs).eng.bid ∨ SymbolEngine.Silent (run n b cs).eng.ask
  latched : ∀ k, (run n b cs).eng.issuesTo = some k → ((run n b cs).eng.heap k).state = .idle ∧
    ∀ c, ((run n b (cs ++ [c])).eng.heap k).savedOp = ((run n b cs).eng.cmd k).op ∧
      ((run n b (cs ++ [c])).eng.heap k).savedOpData = ((run n b cs).eng.cmd k).data ∧
      ((run n b (cs ++ [c])).eng.heap k).state ≠ .idle
  once : ∃ cmds : List Command, events n b cs = cmds.flatMap bothEvents ++ pending (run n b cs).eng
  observed : ∀ k, ((run n b cs).eng.heap k).cmdDone = true → (run n b cs).eng.waitsFor = some k
  guarded : ∀ k, (run n b cs).eng.issuesTo = some k → ((run n b cs).eng.cmd k).op = .update →
    ∀ c, ((run n b cs).eng.heap k).nodeCacheValid 0 = true ∧
      ((run n b cs).eng.heap k).updateKeysOk ((run n b cs).eng.heapIn ((run n b cs).engineIn c) k) = true
  ends : (∀ p, p <+: cs → ∀ k, ((run n b p).eng.heap k).size ≤ 1024) → ∀ k, (run n b cs).eng.waitsFor = some k →
    ∃ N, ∀ js : List RigCycle, N ≤ js.length → (∀ c ∈ js, Prompt c) →
      ∃ m ≤ js.length, ((run n b (cs ++ js.take m)).eng.heap k).cmdDone = true ∧
        (run n b (cs ++ js.take m)).eng.waitsFor = some k

/-- In every state an engine can reach, whatever the MMU answers and when, at most one heap is at work; the
heap that an `ISSUE` state addresses is idle and latches its command; the commands issued are done once
each, seen by the controller in the matching `WAIT` state; an `UPDATE` passes the key guard; and with at
most 1024 nodes a heap a command ends once the MMU answers. -/
theorem commands_once (n : Nat) (b : PrivBram) (cs : List RigCycle) : OnceEach n b cs := by
  have hd := run_disciplined n b cs
  have hs := hd.serial
  refine ⟨?_, hs.silent, fun k hk => ?_, run_events n b cs, fun k hk => ?_, fun k hk hop c => hd.snapped.guard hk hop _,
    fun hcap k hk => ?_⟩
  · rintro ⟨hb, ha⟩
    obtain ⟨k, hk⟩ := hs.idle_heap
    cases k
    · exact hb hk
    · exact ha hk
  · have hidle := hs.calm (SymbolEngine.waitsFor_of_issuesTo hk) k
    refine ⟨hidle, fun c => ?_⟩
    have hv : ((run n b cs).eng.heapIn ((run n b cs).engineIn c) k).cmdValid = true := by
      rw [(SymbolEngine.heapIn_cmd k).1]
      exact SymbolEngine.cmd_valid.2 (.inl hk)
    obtain ⟨h1, h2⟩ := @HeapFsm.saved_accept ⟨k, n⟩ _ _ hidle hv
    rw [run_snoc, heap_step]
    rw [(SymbolEngine.heapIn_cmd k).2.1] at h1
    rw [(SymbolEngine.heapIn_cmd k).2.2] at h2
    exact ⟨h1, h2, HeapFsm.nState_accept hidle hv⟩
  · by_contra hw
    have hidle : ((run n b cs).eng.heap k).state = .idle := by
      cases hw' : (run n b cs).eng.waitsFor with
      | none => exact hs.calm hw' k
      | some k' => exact (hs.busy hw').2 k fun hc => hw (by rw [hw', hc])
    rw [HeapFsm.cmdDone, hidle] at hk
    cases hk
  · refine ⟨(run n b cs).distance k, fun js hlen hjs => ?_⟩
    have := (run_inv n b cs).ends (n := n) hs hk (run_indexed n b hcap k) (.inl (hcap cs (List.prefix_refl _) k)) hlen hjs
    obtain ⟨m, hm, hdone, hwait⟩ := this
    refine ⟨m, hm, ?_, ?_⟩
    · rw [run, List.foldl_append]; exact hdone
    · rw [run, List.foldl_append]; exact hwait

end Rig

end HftSim
