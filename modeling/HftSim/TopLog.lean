import HftSim.Top

/-!
# From a trade to the log

An engine decides on a trade in `T_DECIDE`, keeps the roots and the record of the trade until it is in
`T_EMIT_TRADE`, and leaves that state in the cycle in which the aggregator grants it and the log takes
the entry. So the log is an interleaving of the trades of the engines, and what the harness prints of an
entry is its trade, but for the high bits of the amount.
-/

namespace HftSim

open Function

/-- The record of a trade between the roots `b` and `a`: the bid with the smaller amount. -/
def tradeRecord (b a : Node) : Node :=
  withAmount b (if orderAmount b < orderAmount a then orderAmount b else orderAmount a)

namespace SymbolEngine

variable {n : Nat} {e : SymbolEngine} {i : EngineIn}

/-- A trade has been decided and not yet handed over. -/
def trading (e : SymbolEngine) : Bool := EngineSys.dealing e.tstate || decide (e.tstate = .emitTrade)

/-- While trading, the roots and the record stay in their registers. -/
structure Keeps (e : SymbolEngine) : Prop where
  pending : e.trading = true → e.tradeEventPending = true
  event : e.trading = true → e.tradeEventData = tradeRecord e.bidRootSnap e.askRootSnap

theorem keeps_reset (b : PrivBram) : (reset b).Keeps :=
  ⟨fun h => (by cases h), fun h => (by cases h)⟩

def hands (e : SymbolEngine) (i : EngineIn) : Bool := e.tradeOutValid && i.tradeOutReady

/-- What a cycle does to a trade: it is decided, or kept, or handed over. -/
theorem trading_step : (e.step n i).trading =
    (e.trades || (e.trading && !(decide (e.tstate = .emitTrade) && i.tradeOutReady))) := by
  have hagain := again_cases (e := e)
  unfold trading trades
  cases hst : e.tstate <;> simp only [step, tnState, hst, EngineSys.dealing, reduceCtorEq, decide_true, decide_false,
    Bool.false_or, Bool.or_false, Bool.false_and, Bool.true_and, Bool.or_true,
    Bool.not_false]
  case decide => cases e.tradeMatch <;> cases e.partialBidRemains <;> simp
  case emitTrade => rcases hagain with ha | ha <;> cases i.tradeOutReady <;> simp [ha]
  case pushWait => rcases hagain with ha | ha <;> split_ifs <;> simp [ha]
  all_goals split_ifs <;> rfl

theorem Keeps.step (h : e.Keeps) : (e.step n i).Keeps := by
  refine ⟨fun ht => ?_, fun ht => ?_⟩ <;> rw [trading_step] at ht <;>
    simp only [SymbolEngine.step] <;> cases hd : e.trades
  · simp only [hd, Bool.false_or, Bool.and_eq_true, Bool.not_eq_true', Bool.and_eq_false_iff,
      decide_eq_false_iff_not] at ht
    obtain ⟨ht, hno⟩ := ht
    rw [if_neg Bool.false_ne_true, if_neg ?_, h.pending ht]
    rintro ⟨h1, h2⟩
    rcases hno with hno | hno
    · exact hno h1
    · rw [h2] at hno; cases hno
  · rfl
  · simp only [hd, Bool.false_or, Bool.and_eq_true] at ht
    have hne : e.tstate ≠ .peekBidWait ∧ e.tstate ≠ .peekAskWait := by
      refine ⟨fun hc => ?_, fun hc => ?_⟩ <;> simp [trading, EngineSys.dealing, hc] at ht
    simp only [hne.1, hne.2, false_and, if_false, Bool.false_eq_true]
    exact h.event ht.1
  · have hst : e.tstate = .decide := by
      simp only [trades, Bool.and_eq_true, decide_eq_true_iff] at hd; exact hd.1
    simp [hst, tradeEvent, tradeRecord]

/-- The roots of the trade in progress. -/
def pendingDeal (e : SymbolEngine) : List (Node × Node) :=
  if e.trading then [(e.bidRootSnap, e.askRootSnap)] else []

theorem snaps_step (h : e.trades = true ∨ e.trading = true) :
    (e.step n i).bidRootSnap = e.bidRootSnap ∧ (e.step n i).askRootSnap = e.askRootSnap := by
  have hne : e.tstate ≠ .peekBidWait ∧ e.tstate ≠ .peekAskWait := by
    refine ⟨fun hc => ?_, fun hc => ?_⟩ <;> simp [trades, trading, EngineSys.dealing, hc] at h
  simp [step, hne.1, hne.2]

theorem not_trading_of_trades (h : e.trades = true) : e.trading = false := by
  simp only [trades, Bool.and_eq_true, decide_eq_true_iff] at h
  simp [trading, EngineSys.dealing, h.1]

theorem Keeps.hands_eq (h : e.Keeps) : e.hands i = (decide (e.tstate = .emitTrade) && i.tradeOutReady) := by
  by_cases hst : e.tstate = .emitTrade
  · have := h.pending (by simp [trading, hst])
    simp [hands, tradeOutValid, hst, this]
  · simp [hands, tradeOutValid, hst]

theorem Keeps.deal_step (h : e.Keeps) :
    e.pendingDeal ++ (if e.trades then [(e.bidRootSnap, e.askRootSnap)] else []) =
      (if e.hands i then [(e.bidRootSnap, e.askRootSnap)] else []) ++ (e.step n i).pendingDeal := by
  have hnext := trading_step (n := n) (e := e) (i := i)
  rw [← h.hands_eq] at hnext
  unfold pendingDeal
  by_cases hd : e.trades = true
  · have hno := not_trading_of_trades hd
    have hh : e.hands i = false := by
      rw [h.hands_eq]
      have : e.tstate ≠ .emitTrade := fun hc => by simp [trading, hc] at hno
      simp [this]
    rw [hd, Bool.true_or] at hnext
    simp [hd, hno, hh, hnext, (snaps_step (n := n) (i := i) (.inl hd)).1, (snaps_step (n := n) (i := i) (.inl hd)).2]
  · rw [Bool.not_eq_true] at hd
    rw [hd, Bool.false_or] at hnext
    by_cases ht : e.trading = true
    · rw [ht, Bool.true_and] at hnext
      cases hh : e.hands i
      · rw [hh] at hnext
        simp [hd, ht, hnext, (snaps_step (n := n) (i := i) (.inr ht)).1, (snaps_step (n := n) (i := i) (.inr ht)).2]
      · rw [hh] at hnext
        simp [hd, ht, hnext]
    · rw [Bool.not_eq_true] at ht
      have hh : e.hands i = false := by
        rw [h.hands_eq]
        have : e.tstate ≠ .emitTrade := fun hc => by simp [trading, hc] at ht
        simp [this]
      rw [ht, Bool.false_and] at hnext
      simp [hd, ht, hh, hnext]

end SymbolEngine

/-! ### The log -/

/-- The roots of the entries of engine `e`. -/
def History.loggedBy (h : History) (e : Fin 8) : List (Node × Node) :=
  (h.logged.filter fun p => p.1 = e).map Prod.snd

namespace Top

variable {s : Top} {h : History} {i : TopIn} {e : Fin 8}

/-- The engines keep their trades, and the log holds the entries that have been logged. -/
structure LogOk (s : Top) (h : History) : Prop where
  keeps : ∀ e, (s.eng e).Keeps
  wf : s.log.WF
  contents : s.log.contents = h.logged.map fun p => tradeOutData p.1 (tradeRecord p.2.1 p.2.2)
  trades : ∀ e, h.trades e ++ (s.eng e).pendingDeal.map (fun p => tradeRecord p.1 p.2) =
    (h.deals e).map fun p => tradeRecord p.1 p.2

/-- The engine whose trade the log takes in this cycle. -/
def taken (s : Top) : Option (Fin 8) := if s.log.tradeInReady then s.selected else none

theorem taken_iff : s.taken = some e ↔ s.selected = some e ∧ s.log.tradeInReady = true := by
  unfold taken
  cases s.log.tradeInReady <;> simp

theorem tradeOutReady_iff : (s.engineIn e).tradeOutReady = true ↔ s.taken = some e := by
  rw [taken_iff]
  simp [engineIn, TradeAggregator.engTradeReady, selected]

/-- An engine hands its trade over in the cycle in which the log takes it. -/
theorem hands_iff : (s.eng e).hands (s.engineIn e) = true ↔ s.taken = some e := by
  unfold SymbolEngine.hands
  rw [Bool.and_eq_true, tradeOutReady_iff]
  exact ⟨fun hh => hh.2, fun hh => ⟨TradeAggregator.selected_valid (taken_iff.1 hh).1, hh⟩⟩

/-- The trade the log takes is the record of its engine's roots. -/
theorem LogOk.taken_data (hl : s.LogOk h) (hs : s.taken = some e) : (s.eng e).tstate = .emitTrade ∧
    (s.eng e).tradeOutData = tradeRecord (s.eng e).bidRootSnap (s.eng e).askRootSnap := by
  have hv : (s.eng e).tradeOutValid = true := TradeAggregator.selected_valid (taken_iff.1 hs).1
  have hst : (s.eng e).tstate = .emitTrade := by
    simp only [SymbolEngine.tradeOutValid, Bool.and_eq_true, decide_eq_true_iff] at hv; exact hv.1
  exact ⟨hst, (hl.keeps e).event (by simp [SymbolEngine.trading, hst])⟩

/-- The roots of engine `e`, as a deal. -/
def roots (s : Top) (e : Fin 8) : Node × Node := ((s.eng e).bidRootSnap, (s.eng e).askRootSnap)

theorem logged_next : (h.next s).logged =
    if s.avl.logClearPulse then [] else h.logged ++ s.taken.toList.map fun e => (e, s.roots e) := by
  simp only [History.next, taken]
  split
  · rfl
  · cases s.selected <;> cases s.log.tradeInReady <;> simp [roots]

theorem contents_tick (hl : s.LogOk h) (i : TopIn) : (s.tick i).log.contents =
    if s.avl.logClearPulse then []
    else s.log.contents ++ s.taken.toList.map fun e => tradeOutData e (s.eng e).tradeOutData := by
  have hacc : s.log.acceptWrite s.logIn = s.taken.map fun e => tradeOutData e (s.eng e).tradeOutData := by
    simp only [TradeLog.acceptWrite, logIn, taken]
    cases s.log.tradeInReady <;> rfl
  have hc : (s.tick i).log.contents = _ := hl.wf.contents_step (i := s.logIn)
  rw [hc, hacc, ← Option.toList_map]
  rfl

theorem LogOk.tick (hl : s.LogOk h) (i : TopIn) : (s.tick i).LogOk (h.next s) := by
  refine ⟨fun e => (hl.keeps e).step, hl.wf.step, ?_, fun e => ?_⟩
  · rw [contents_tick hl, logged_next]
    cases s.avl.logClearPulse
    · simp only [Bool.false_eq_true, if_false, List.map_append, hl.contents, List.map_map]
      refine congrArg _ (List.map_congr_left fun e he => ?_)
      simp only [comp_apply, roots, (hl.taken_data (Option.mem_toList.1 he)).2]
    · rfl
  · have hstep := congrArg (List.map fun p => tradeRecord p.1 p.2)
      ((hl.keeps e).deal_step (n := e.val) (i := s.engineIn e))
    have htr : (h.next s).trades e = h.trades e ++
        (if (s.eng e).hands (s.engineIn e) then [s.roots e] else []).map fun p => tradeRecord p.1 p.2 := by
      show (if (s.eng e).hands (s.engineIn e) then _ else _) = _
      by_cases hh : (s.eng e).hands (s.engineIn e) = true
      · simp only [hh, if_true, (hl.taken_data (hands_iff.1 hh)).2]; rfl
      · simp [hh]
    have hde : (h.next s).deals e = h.deals e ++ if (s.eng e).trades then [s.roots e] else [] := by
      simp only [History.next, roots]
      split <;> simp
    rw [List.map_append, List.map_append] at hstep
    rw [htr, hde, List.map_append, ← hl.trades e, List.append_assoc, List.append_assoc]
    exact congrArg _ hstep.symm

theorem LogOk.reset (s : Top) (r0 r1 : Bool) :
    LogOk { s.reset with rstPipe0 := r0, rstPipe1 := r1 } .fresh :=
  ⟨fun _ => SymbolEngine.keeps_reset _, TradeLog.wf_reset, rfl, fun _ => rfl⟩

theorem run_logOk (is : List TopIn) : (run is).1.LogOk (run is).2 :=
  run_induction (LogOk.reset powerUp false false) LogOk.reset (fun _ _ i hl => hl.tick i) is

/-! ### The log is a merge -/

theorem loggedBy_next (e : Fin 8) : (h.next s).loggedBy e = if s.avl.logClearPulse then []
    else h.loggedBy e ++ if (s.eng e).hands (s.engineIn e) then [s.roots e] else [] := by
  rw [History.loggedBy, logged_next]
  split
  · rfl
  rw [List.filter_append, List.map_append]
  refine congrArg _ ?_
  by_cases hh : (s.eng e).hands (s.engineIn e) = true
  · rw [if_pos hh, hands_iff.1 hh]; simp
  · rw [if_neg hh]
    rw [hands_iff] at hh
    cases ht : s.taken with
    | none => rfl
    | some e' =>
      have hne : e' ≠ e := fun hc => hh (by rw [ht, hc])
      simp [hne]

theorem LogOk.deals_next (hl : s.LogOk h) {l : List (Node × Node)} (hd : h.deals e = l ++ (s.eng e).pendingDeal)
    (i : TopIn) : (h.next s).deals e =
      l ++ (if (s.eng e).hands (s.engineIn e) then [s.roots e] else []) ++ ((s.tick i).eng e).pendingDeal := by
  have hstep := (hl.keeps e).deal_step (n := e.val) (i := s.engineIn e)
  have hde : (h.next s).deals e = h.deals e ++ if (s.eng e).trades then [s.roots e] else [] := by
    simp only [History.next, roots]
    split <;> simp
  rw [hde, hd, List.append_assoc, List.append_assoc]
  exact congrArg _ hstep

/-- No log clear reaches the log while the inputs `is` come in. -/
def NoClear (is : List TopIn) : Prop :=
  ∀ ks j, ks ++ [j] <+: is → (run ks).1.avl.logClearPulse = false

theorem NoClear.init {is : List TopIn} (hc : NoClear (is ++ [i])) :
    NoClear is ∧ (run is).1.avl.logClearPulse = false :=
  ⟨fun ks j hp => hc ks j (hp.trans (List.prefix_append _ _)), hc is i (List.prefix_refl _)⟩

/-- Without a clear, the trades of an engine are in the log but for the one in progress. -/
theorem deals_eq (is : List TopIn) (hc : NoClear is) (e : Fin 8) :
    (run is).2.deals e = (run is).2.loggedBy e ++ ((run is).1.eng e).pendingDeal := by
  induction is using List.reverseRecOn with
  | nil => rfl
  | append_singleton is i ih =>
    obtain ⟨hc, hno⟩ := hc.init
    have ih := ih hc
    have hl := run_logOk is
    rw [run_snoc, next]
    cases hin : (run is).1.inReset i with
    | true =>
      obtain ⟨r0, r1, hs⟩ := step_of_inReset hin
      rw [hs]; rfl
    | false =>
      rw [step_of_not_inReset hin]
      simp only [Bool.false_eq_true, if_false]
      rw [loggedBy_next, hno, if_neg Bool.false_ne_true]
      exact hl.deals_next ih i

/-- In `T_EMIT_TRADE` an engine waits for the log. -/
theorem leaves_iff (hst : (s.eng e).tstate = .emitTrade) :
    ((s.tick i).eng e).tstate ≠ .emitTrade ↔ s.taken = some e := by
  rw [← tradeOutReady_iff]
  have ht : ((s.tick i).eng e).tstate = if (s.engineIn e).tradeOutReady then (s.eng e).again else .emitTrade := by
    show (s.eng e).tnState (s.engineIn e) = _
    simp only [SymbolEngine.tnState, hst]
  rw [ht]
  rcases SymbolEngine.again_cases (e := s.eng e) with ha | ha <;> cases (s.engineIn e).tradeOutReady <;> simp [ha]

/-- Without a log clear, the log is an interleaving of the trades the engines have handed over, which are
those they have decided but for the one in progress; and an engine leaves `T_EMIT_TRADE` exactly in the
cycle in which its entry is appended. -/
theorem log_is_merge (is : List TopIn) (hc : NoClear is) :
    (∃ merged : List (Fin 8 × Node),
      (run is).1.log.contents = merged.map (fun p => tradeOutData p.1 p.2) ∧
      ∀ e, (merged.filter fun p => p.1 = e).map Prod.snd = (run is).2.trades e) ∧
    (∀ e, ((run is).2.deals e).map (fun p => tradeRecord p.1 p.2) =
      (run is).2.trades e ++ ((run is).1.eng e).pendingDeal.map fun p => tradeRecord p.1 p.2) ∧
    ∀ i e, (run is).1.inReset i = false → (run is).1.avl.logClearPulse = false →
      ((run is).1.eng e).tstate = .emitTrade →
      ((((run is).1.step i).eng e).tstate ≠ .emitTrade ↔ (run is).1.selected = some e ∧
        ((run is).1.step i).log.contents =
          (run is).1.log.contents ++ [tradeOutData e ((run is).1.eng e).tradeOutData]) := by
  have hl := run_logOk is
  refine ⟨⟨(run is).2.logged.map fun p => (p.1, tradeRecord p.2.1 p.2.2), ?_, fun e => ?_⟩, fun e => (hl.trades e).symm,
    fun i e hin hno hst => ?_⟩
  · rw [hl.contents, List.map_map]; rfl
  · have htr := hl.trades e
    rw [deals_eq is hc e, List.map_append] at htr
    rw [List.append_cancel_right htr, History.loggedBy, List.filter_map, List.map_map, List.map_map]
    rfl
  · rw [step_of_not_inReset hin, leaves_iff hst, contents_tick hl, hno, if_neg Bool.false_ne_true]
    constructor
    · intro ht; rw [ht]; exact ⟨(taken_iff.1 ht).1, rfl⟩
    · rintro ⟨hs, hcont⟩
      refine taken_iff.2 ⟨hs, ?_⟩
      by_contra hn
      have hlen := congrArg List.length hcont
      simp [taken, hn] at hlen

theorem logClearPulse_step (s : Top) (i : TopIn) :
    (s.step i).avl.logClearPulse = true → Avalon.logClears i.write = true := by
  unfold step
  split
  · intro hc; cases hc
  · split
    · intro hc; cases hc
    · exact id

/-- Only a write of `LOG_CMD` clears the log. -/
theorem noClear_of_writes {is : List TopIn} (hw : ∀ j ∈ is, Avalon.logClears j.write = false) : NoClear is := by
  intro ks j hp
  rw [← Bool.not_eq_true]
  intro hc
  rcases List.eq_nil_or_concat ks with rfl | ⟨ks, k, rfl⟩
  · cases hc
  · rw [List.concat_eq_append] at hp hc
    rw [run_snoc] at hc
    have hk : k ∈ is := hp.subset (by simp)
    exact absurd (logClearPulse_step _ _ hc) (by rw [hw k hk]; exact Bool.false_ne_true)

/-- Lane 0 gets a bid and an ask for `q` shares each at price 5, which are then dispatched. -/
def bidAndAsk (q : BitVec 15) : List TopIn :=
  (List.range 50).map fun t => ⟨0xF,
    if t = 3 then some ⟨0, 1⟩
    else if t = 5 then some ⟨2, hftDispPackOrderWord ⟨1, 5, 0#1 ++ q⟩⟩
    else if t = 7 then some ⟨2, hftDispPackOrderWord ⟨0, 5, 0#1 ++ q⟩⟩
    else if t = 9 then some ⟨0, 2⟩
    else none⟩

theorem log_is_merge_bidAndAsk : (run (bidAndAsk 3)).1.log.countReg = 1 ∧
    ∃ merged : List (Fin 8 × Node),
      (run (bidAndAsk 3)).1.log.contents = merged.map (fun p => tradeOutData p.1 p.2) ∧
      ∀ e, (merged.filter fun p => p.1 = e).map Prod.snd = (run (bidAndAsk 3)).2.trades e :=
  ⟨by decide +kernel, (log_is_merge _ (noClear_of_writes (by decide))).1⟩

/-! ### Reading the log -/

/-- The bus reads entry `j` of the log in three cycles: a write of `LOG_CMD` and two cycles without one. -/
structure Fetch (s : Top) (j : Nat) (i0 i1 i2 : TopIn) : Prop where
  reads : Avalon.logReads i0.write = true
  index : ((busData i0.write addrLogCmd).getD 0).toNat / 2 ^ 2 % 2 ^ 14 = j
  quiet1 : Avalon.logReads i1.write = false ∧ Avalon.logClears i1.write = false
  quiet2 : Avalon.logReads i2.write = false ∧ Avalon.logClears i2.write = false
  awake0 : s.inReset i0 = false
  awake1 : (s.step i0).inReset i1 = false
  awake2 : ((s.step i0).step i1).inReset i2 = false

theorem mem_tick (hl : s.LogOk h) {j : Nat} (hj : j < s.log.countReg) : (s.tick i).log.mem j = s.log.mem j := by
  show (s.log.step s.logIn).mem j = _
  simp only [TradeLog.step]
  cases s.log.acceptWrite s.logIn with
  | none => rfl
  | some x =>
    simp only []
    split
    · rfl
    · rw [update_of_ne (by rw [hl.wf.wr]; omega)]

theorem LogOk.fetch (hl : s.LogOk h) {j : Nat} {i0 i1 i2 : TopIn} (hj : j < s.log.countReg) (hf : s.Fetch j i0 i1 i2) :
    (((s.step i0).step i1).step i2).avl.logDataShadow = s.log.mem j ∧
      (((s.step i0).step i1).step i2).avl.logDataValid = true := by
  obtain ⟨hreads, hidx, ⟨hr1, hc1⟩, ⟨hr2, hc2⟩, ha0, ha1, ha2⟩ := hf
  rw [step_of_not_inReset ha0] at ha1 ha2 ⊢
  rw [step_of_not_inReset ha1] at ha2 ⊢
  rw [step_of_not_inReset ha2]
  have hmem := mem_tick (i := i0) hl hj
  have hre : (s.tick i0).avl.logReadPulse = true := hreads
  have hadr : (s.tick i0).avl.logReadIndex = j := by
    show (if Avalon.logReads i0.write then _ else _) = j
    rw [if_pos hreads, hidx]
  have hp0 : (s.tick i0).avl.logReadPipe0 = true := hreads
  have hrd : ((s.tick i0).tick i1).log.swRdata = s.log.mem j := by
    show (if (s.tick i0).avl.logReadPulse then (s.tick i0).log.mem (s.tick i0).avl.logReadIndex else _) = _
    rw [if_pos hre, hadr, hmem]
  have hq0 : ((s.tick i0).tick i1).avl.logReadPipe0 = false := hr1
  have hq1 : ((s.tick i0).tick i1).avl.logReadPipe1 = true := by
    show (if Avalon.logClears i1.write || Avalon.logReads i1.write then false else (s.tick i0).avl.logReadPipe0) = true
    rw [hc1, hr1, hp0]; rfl
  constructor
  · show (if Avalon.logClears i2.write then 0
      else if !((s.tick i0).tick i1).avl.logReadPipe0 && ((s.tick i0).tick i1).avl.logReadPipe1
        then ((s.tick i0).tick i1).log.swRdata else _) = _
    rw [hc2, hq0, hq1, hrd]; rfl
  · show (if Avalon.logClears i2.write || Avalon.logReads i2.write then false
      else if !((s.tick i0).tick i1).avl.logReadPipe0 && ((s.tick i0).tick i1).avl.logReadPipe1
        then true else _) = _
    rw [hc2, hr2, hq0, hq1]; rfl

/-- What the harness prints of the words in `LOG_DATA0` and `LOG_DATA1`. -/
def logLine (s : Top) : LogLine := hftLogDumpEntry (logWord0 s.avl.logDataShadow) (logWord1 s.avl.logDataShadow)

/-- What a trade of engine `e` between the roots `b` and `a` should read as. -/
def tradeLine (e : Fin 8) (b a : Node) : LogLine where
  engineId := BitVec.ofNat 32 e.val
  quantity := BitVec.ofNat 32 (min (orderAmount b).toNat (orderAmount a).toNat)
  priceCents := (orderPrice b).setWidth 32
  ts := orderTs b

theorem tradeRecord_amount (b a : Node) :
    (orderAmount (tradeRecord b a)).toNat = min (orderAmount b).toNat (orderAmount a).toNat := by
  simp only [tradeRecord, orderAmount_withAmount]
  split
  · rename_i hlt; rw [BitVec.lt_def] at hlt; omega
  · rename_i hlt; rw [BitVec.lt_def] at hlt; omega

theorem dump_eq_tradeLine_iff (e : Fin 8) (b a : Node) :
    hftLogDumpEntry (logWord0 (tradeOutData e (tradeRecord b a))) (logWord1 (tradeOutData e (tradeRecord b a))) =
      tradeLine e b a ↔ min (orderAmount b).toNat (orderAmount a).toNat < 128 := by
  have hsw : BitVec.ofNat 32 (min (orderAmount b).toNat (orderAmount a).toNat) =
      (orderAmount (tradeRecord b a)).setWidth 32 := by
    apply BitVec.eq_of_toNat_eq
    rw [← tradeRecord_amount, BitVec.toNat_ofNat, BitVec.toNat_setWidth]
  rw [dump_tradeOutData, tradeLine, hsw, ← tradeRecord_amount, ← low_bits_eq_iff]
  simp only [LogLine.mk.injEq, true_and]
  constructor
  · exact fun hh => hh.1
  · exact fun hh => ⟨hh, by simp [tradeRecord], by simp [tradeRecord]⟩

/-- An entry that has been read is printed as its trade exactly when the amount has seven bits. -/
theorem LogOk.line_iff (hl : s.LogOk h) {j : Nat} {b a : Node} {i0 i1 i2 : TopIn}
    (hj : h.logged[j]? = some (e, b, a)) (hf : s.Fetch j i0 i1 i2) :
    (((s.step i0).step i1).step i2).avl.logDataValid = true ∧
      ((((s.step i0).step i1).step i2).logLine = tradeLine e b a ↔
        min (orderAmount b).toNat (orderAmount a).toNat < 128) := by
  have hx : s.log.contents[j]? = some (tradeOutData e (tradeRecord b a)) := by
    rw [hl.contents, List.getElem?_map, hj]; rfl
  have hlt : j < s.log.countReg := by
    have := (List.getElem?_eq_some_iff.1 hx).1
    simpa [TradeLog.contents] using this
  have hmem : s.log.mem j = tradeOutData e (tradeRecord b a) := by
    simpa [TradeLog.contents, hlt] using hx
  obtain ⟨hsh, hv⟩ := hl.fetch hlt hf
  refine ⟨hv, ?_⟩
  rw [logLine, hsh, hmem]
  exact dump_eq_tradeLine_iff e b a

theorem run_three (is : List TopIn) (i0 i1 i2 : TopIn) :
    (run (is ++ [i0, i1, i2])).1 = (((run is).1.step i0).step i1).step i2 := by
  rw [run, List.foldl_append]; rfl

/-- The log entry of a trade is read, and printed as the trade, exactly when the traded amount is below
128. The trades of an engine that are not in the log have been cleared from it (`old`), or are in
progress. -/
theorem trade_decoded_iff (is : List TopIn) :
    (∀ e, ∃ old, (run is).2.deals e = old ++ (run is).2.loggedBy e ++ ((run is).1.eng e).pendingDeal) ∧
    ∀ j e b a, (run is).2.logged[j]? = some (e, b, a) → ∀ i0 i1 i2, (run is).1.Fetch j i0 i1 i2 →
      (run (is ++ [i0, i1, i2])).1.avl.logDataValid = true ∧
      ((run (is ++ [i0, i1, i2])).1.logLine = tradeLine e b a ↔
        min (orderAmount b).toNat (orderAmount a).toNat < 128) := by
  refine ⟨fun e => ?_, fun j e b a hj i0 i1 i2 hf => ?_⟩
  · refine run_induction (P := fun s h => s.LogOk h ∧
      ∃ old, h.deals e = old ++ h.loggedBy e ++ (s.eng e).pendingDeal) ?_ ?_ ?_ is |>.2
    · exact ⟨LogOk.reset powerUp false false, [], rfl⟩
    · exact fun s r0 r1 => ⟨LogOk.reset s r0 r1, [], rfl⟩
    · rintro s h i ⟨hl, old, hold⟩
      refine ⟨hl.tick i, ?_⟩
      have hd := hl.deals_next hold i
      rw [loggedBy_next]
      cases s.avl.logClearPulse
      · exact ⟨old, by rw [hd]; simp [List.append_assoc]⟩
      · refine ⟨old ++ h.loggedBy e ++ if (s.eng e).hands (s.engineIn e) then [s.roots e] else [], ?_⟩
        rw [hd]; simp
  · rw [run_three]
    exact (run_logOk is).line_iff hj hf

/-- The cycles in which the bus reads entry 0. -/
def readFirst : List TopIn := [⟨0xF, some ⟨11, 2⟩⟩, ⟨0xF, none⟩, ⟨0xF, none⟩]

theorem fetch_of_awake (hr : s.rstPipe0 = true ∧ s.rstPipe1 = true) :
    s.Fetch 0 ⟨0xF, some ⟨11, 2⟩⟩ ⟨0xF, none⟩ ⟨0xF, none⟩ := by
  have h0 : s.inReset ⟨0xF, some ⟨11, 2⟩⟩ = false := by simp [inReset, hr.2]
  have h1 : (s.step ⟨0xF, some ⟨11, 2⟩⟩).inReset ⟨0xF, none⟩ = false := by
    rw [step_of_not_inReset h0]; simp [inReset, Top.tick, hr.1]
  have h2 : ((s.step ⟨0xF, some ⟨11, 2⟩⟩).step ⟨0xF, none⟩).inReset ⟨0xF, none⟩ = false := by
    rw [step_of_not_inReset h1, step_of_not_inReset h0]; simp [inReset, Top.tick]
  exact ⟨by decide, by decide, by decide, by decide, h0, h1, h2⟩

/-- Three shares are printed as three. -/
theorem trade_decoded_iff_bidAndAsk : ∃ b a, (run (bidAndAsk 3)).2.logged[0]? = some (0, b, a) ∧
    (run (bidAndAsk 3 ++ readFirst)).1.logLine = tradeLine 0 b a := by
  have hsome : ((run (bidAndAsk 3)).2.logged[0]?).isSome = true ∧
      ((run (bidAndAsk 3)).2.logged.all fun p =>
        p.1 = 0 ∧ min (orderAmount p.2.1).toNat (orderAmount p.2.2).toNat < 128) = true := by decide +kernel
  obtain ⟨⟨e, b, a⟩, hj⟩ := Option.isSome_iff_exists.1 hsome.1
  obtain ⟨he, hlt⟩ := of_decide_eq_true (List.all_eq_true.1 hsome.2 _ (List.mem_of_getElem? hj))
  simp only at he hlt
  subst he
  exact ⟨b, a, hj, (((trade_decoded_iff _).2 0 0 b a hj _ _ _ (fetch_of_awake (by decide +kernel))).2).2 hlt⟩

/-- A trade of 128 shares is not printed as one. -/
theorem wide_trade_misread : ¬ ∀ is j e b a, (run is).2.logged[j]? = some (e, b, a) →
    ∀ i0 i1 i2, (run is).1.Fetch j i0 i1 i2 → (run (is ++ [i0, i1, i2])).1.logLine = tradeLine e b a := by
  intro hall
  have hsome : ((run (bidAndAsk 128)).2.logged[0]?).isSome = true ∧
      ((run (bidAndAsk 128)).2.logged.all fun p =>
        128 ≤ min (orderAmount p.2.1).toNat (orderAmount p.2.2).toNat) = true := by decide +kernel
  obtain ⟨⟨e, b, a⟩, hj⟩ := Option.isSome_iff_exists.1 hsome.1
  have hge := of_decide_eq_true (List.all_eq_true.1 hsome.2 _ (List.mem_of_getElem? hj))
  have hf := fetch_of_awake (s := (run (bidAndAsk 128)).1) (by decide +kernel)
  have hline := hall _ 0 e b a hj _ _ _ hf
  rw [run_three] at hline
  exact absurd (((run_logOk _).line_iff hj hf).2.1 hline) (Nat.not_lt.2 hge)

end Top

end HftSim
