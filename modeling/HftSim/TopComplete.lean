import HftSim.TopProgress

/-!
# When `trade_done` comes

A lane that is drained stays drained, and an engine that is held up stays held up: nothing but a reset takes a
`PUSH` out of the writes that the MMU turns down, and nothing but a clear of the log makes room in it. So a
batch is completed exactly if no engine is ever held up (`completes_iff`). A batch of at most 511 orders for
each engine after power-up always is (`small_batch_completes`): the slots of the MMU and the entries of the
log suffice for it.
-/

namespace HftSim

open Function Progress

namespace HeapView

variable {cfg : HeapCfg} {v v' : HeapView} {m : Multiset Node} {i : HeapIn}

theorem Phase.leaf_wait (h : v.Phase cfg m) (hl : v.fsm.AtLeaf) (hw : v.fsm.state.waits = true) :
    v.fsm.privWeD1 = false ∧ ∃ r, v.out = some r ∧ privateNodes + r.va % 2 ^ 10 = v.fsm.size := by
  have hle := hl.virt
  have hwait : ∀ {x}, v.WriteWait v.fsm.targetIdx x → v.fsm.privWeD1 = false ∧ ∃ r, v.out = some r ∧
      privateNodes + r.va % 2 ^ 10 = v.fsm.size := fun hx => by
    rw [WriteWait, hl.target, if_neg (by omega)] at hx
    obtain ⟨h1, r, hr, hva, -⟩ := hx
    exact ⟨h1, r, hr, by rw [hva]; exact Nat.add_sub_cancel' hle⟩
  unfold Phase at h
  rcases hl.state with hst | hst | hst | hst <;> rw [hst] at hw <;> simp only [hst] at h
  · cases hw
  · exact hwait h.2.1
  · cases hw
  · exact hwait h.2.1

end HeapView

/-- A write to a new leaf goes on until the MMU takes it. -/
theorem HeapFsm.AtLeaf.step {cfg : HeapCfg} {h : HeapFsm} {i : HeapIn} (hl : h.AtLeaf)
    (hno : h.state.waits = true → h.privWeD1 = false ∧ i.virtRespValid = false) :
    (h.step cfg i).AtLeaf ∧ (h.step cfg i).size = h.size := by
  obtain ⟨hst, htarget, hvirt⟩ := hl
  have hpriv : ∀ hs : h.state = .pushWrDownIssue ∨ h.state = .pushWrFinalIssue, h.memTargetPriv = false := by
    rintro (hs | hs) <;> simp [memTargetPriv, isPrivate, memIdx, hs, htarget, hvirt]
  have hdone : h.state.waits = true → h.writeDone i = false := fun hw => by
    simp [writeDone, hno hw]
  suffices hall : (((h.step cfg i).state = .pushWrDownIssue ∨ (h.step cfg i).state = .pushWrDownWait ∨
      (h.step cfg i).state = .pushWrFinalIssue ∨ (h.step cfg i).state = .pushWrFinalWait)) ∧
      (h.step cfg i).targetIdx = h.targetIdx ∧ (h.step cfg i).size = h.size from
    ⟨⟨hall.1, by rw [hall.2.1, hall.2.2, htarget], by rw [hall.2.2]; exact hvirt⟩, hall.2.2⟩
  rcases hst with hst | hst | hst | hst <;> rw [hst] at hpriv hdone <;>
    simp only [HeapFsm.step, nState, regs, issueTo, hst]
  · rw [hpriv (.inl rfl)]
    cases i.virtReqReady <;> simp
  · rw [hdone rfl]
    cases i.virtRespReject <;> simp
  · rw [hpriv (.inr rfl)]
    cases i.virtReqReady <;> simp
  · rw [hdone rfl]
    cases i.virtRespReject <;> simp

namespace Top

variable {s : Top} {h : History} {i : TopIn} {e : Fin 8} {k : HeapKind}

/-! ### What lasts -/

theorem Stuck.tick (hst : s.Stuck e k) (hs : s.Sound h) (i : TopIn) : (s.tick i).Stuck e k := by
  obtain ⟨ps, g, hinv, -⟩ := hs.linked.eng e
  obtain ⟨x, hi, -⟩ := hs.linked.mmu
  have hpart : nodeKey e k ((s.eng e).heap k).size / 2 ^ 10 = e.val * 2 + k.bit := by
    have hcap := (hinv.indexed k).2
    have hcap' : ((s.eng e).heap k).size ≤ 1024 := hcap
    unfold nodeKey privateNodes
    omega
  have hstep : ((s.tick i).eng e).heap k =
      ((s.eng e).heap k).step ⟨k, e.val⟩ ((s.eng e).heapIn ((s.engineSys h e).engineIn (s.engineCycle e)) k) := by
    have := congrArg EngineSys.eng (hs.linked.engineSys_tick i e)
    show ((s.tick i).engineSys (h.next s) e).eng.heap k = _
    rw [this]
    exact EngineSys.heap_step k
  -- an answer would mean that the leaf is mapped
  have hno : ((s.eng e).heap k).state.waits = true → ((s.eng e).heap k).privWeD1 = false ∧
      ((s.eng e).heapIn ((s.engineSys h e).engineIn (s.engineCycle e)) k).virtRespValid = false := by
    intro hw
    obtain ⟨hd, r, hr, hsize⟩ := (hinv.heap k).phase.leaf_wait hst.leaf hw
    obtain ⟨-, hp, -, hkey⟩ := hs.out_eq hr
    refine ⟨hd, ?_⟩
    rw [(SymbolEngine.heapIn_req _ _ _).2.1, (hs.reqReady_eq e).2.2, ← Bool.not_eq_true, Bool.and_eq_true]
    rintro ⟨-, hresp⟩
    have hv := hi.mapped_of_resp hresp hp
    rw [hkey, hsize] at hv
    have hno := hst.unmapped
    rw [show ((s.engineSys h e).view e.val k).fsm.size = ((s.eng e).heap k).size from rfl, hno] at hv
    cases hv
  obtain ⟨hleaf, hsize⟩ := @HeapFsm.AtLeaf.step ⟨k, e.val⟩ _ _ hst.leaf hno
  rw [← hstep] at hleaf hsize
  have hmem : (s.tick i).mem = s.mem.step s.mmuReq := rfl
  refine ⟨hleaf, ?_, ?_⟩
  · rw [hsize, hmem]
    exact hi.unmapped_step hst.unmapped (by rw [hpart]; exact hst.full)
  · rw [hmem, hi.part_full hst.full]
    exact hst.full

theorem Stuck.busy (hst : s.Stuck e k) (hc : s.CtrlOk h) : (s.eng e).tstate ≠ .idle := by
  intro hidle
  have hcalm := (hc.serial e).calm (by simp [SymbolEngine.waitsFor, hidle]) k
  rcases hst.leaf.state with h1 | h1 | h1 | h1 <;> rw [hcalm] at h1 <;> cases h1

theorem Blocked.tick (hb : s.Blocked e) (hno : s.avl.logClearPulse = false) (i : TopIn) :
    (s.tick i).Blocked e := by
  have hready : (s.engineIn e).tradeOutReady = false := by
    rw [← Bool.not_eq_true, tradeOutReady_iff, taken_iff, hb.full]
    exact fun hc => Bool.false_ne_true hc.2
  have hacc : s.log.acceptWrite s.logIn = none := by simp [TradeLog.acceptWrite, hb.full]
  have hclr : s.logIn.swClear = false := hno
  refine ⟨?_, ?_⟩
  · show (s.eng e).tnState (s.engineIn e) = _
    simp [SymbolEngine.tnState, hb.emit, hready]
  · have hcount : (s.tick i).log.countReg = s.log.countReg := by
      show (s.log.step s.logIn).countReg = _
      simp [TradeLog.step, hacc, hclr]
    rw [TradeLog.tradeInReady, hcount]
    exact hb.full

theorem Drained.tick (hdr : s.Drained h e) (hc : s.CtrlOk h) (hd : s.Dispatching) (i : TopIn) :
    (s.tick i).Drained (h.next s) e := by
  have hv : (s.disp.fifo e).outValid = false := (hc.disp.quiet_of_all hdr.all).1
  have hh : s.disp.hands s.dispIn e = [] := by simp [OrderDispatcher.hands, OrderDispatcher.orderOutValid, hv]
  obtain ⟨hw, ha⟩ := hd.batch_next (h := h) e
  refine ⟨by rw [hw, ha, hh, List.append_nil, hdr.all], ?_⟩
  show (s.eng e).tnState (s.engineIn e) = _
  simp [SymbolEngine.tnState, hdr.idle, engineIn, OrderDispatcher.orderOutValid, hv]

theorem Dispatching.tick (hd : s.Dispatching) {i : TopIn} (hi : busBit i.write addrControl 2 = false) :
    (s.tick i).Dispatching := by
  have hst : (s.tick i).disp.state = s.disp.nextState s.dispIn := rfl
  have hp : (s.tick i).avl.dispClearDonePulse = false := hi
  unfold Dispatching
  rw [hst, hp]
  rcases hd with hd | ⟨hd, hc⟩
  · simp only [OrderDispatcher.nextState, hd]
    split
    · exact .inr ⟨rfl, trivial⟩
    · exact .inl rfl
  · have hc' : s.dispIn.swClearDone = false := hc
    simp [OrderDispatcher.nextState, hd, hc']

/-! ### The end of a batch -/

/-- No reset at all, and from time `t` on neither `clear_done` nor a clear of the log takes effect. -/
structure Unhindered (inp : Nat → TopIn) (t : Nat) : Prop where
  keys : ∀ u, (inp u).key.getLsbD 0 = true
  clear : ∀ u, t ≤ u + 1 → busBit (inp u).write addrControl 2 = false ∧ Avalon.logClears (inp u).write = false

variable {inp : Nat → TopIn} {t u : Nat}

theorem Unhindered.pulses (hu : Unhindered inp t) (hle : t ≤ u) :
    (trace inp u).1.avl.dispClearDonePulse = false ∧ (trace inp u).1.avl.logClearPulse = false := by
  cases u with
  | zero => exact ⟨rfl, rfl⟩
  | succ u =>
    obtain ⟨h1, h2⟩ := hu.clear u hle
    rw [trace_succ]
    constructor
    · rw [← Bool.not_eq_true]
      exact fun hc => Bool.false_ne_true (h1.symm.trans (clearDonePulse_step _ _ hc))
    · rw [← Bool.not_eq_true]
      exact fun hc => Bool.false_ne_true (h2.symm.trans (logClearPulse_step _ _ hc))

theorem Dispatching.not_idle (hd : s.Dispatching) : s.disp.state ≠ .idle := by
  rcases hd with hd | ⟨hd, -⟩ <;> rw [hd] <;> decide

theorem Unhindered.dispatching (hu : Unhindered inp t) (hd : (trace inp t).1.disp.state = .dispatch) (hle : t ≤ u) :
    (trace inp u).1.Dispatching := by
  refine stays (P := fun u => (trace inp u).1.Dispatching) (fun u hle hd => ?_) (.inl hd) hle
  rw [trace_tick hu.keys hd.not_idle]
  exact hd.tick (hu.clear u (by omega)).1

/-- Engine `e` is held up. -/
def HeldUp (s : Top) (e : Fin 8) : Prop := (∃ k, s.Stuck e k) ∨ s.Blocked e

theorem HeldUp.not_done (hh : s.HeldUp e) (hc : s.CtrlOk h) : s.tradeDone = false := by
  rw [← Bool.not_eq_true, tradeDone_iff]
  rintro ⟨-, hidle⟩
  rcases hh with ⟨k, hst⟩ | hb
  · exact hst.busy hc (hidle e)
  · have := hb.emit
    rw [hidle e] at this
    cases this

/-- Every lane is drained in the end, or its engine is held up. -/
theorem Unhindered.drains (hu : Unhindered inp t) (hd : (trace inp t).1.disp.state = .dispatch) (e : Fin 8) :
    Eventually t fun u => (trace inp u).1.Drained (trace inp u).2 e ∨ (trace inp u).1.HeldUp e := by
  obtain ⟨n, hn⟩ := (trace_sound hu.keys t).waits e
  refine Eventually.of_rank wellFounded_lt
    (R := fun u a => ∃ n, (trace inp u).1.Waits (trace inp u).2 e n ∧ a = laneRank (trace inp u).1 (trace inp u).2 e n)
    (fun u hle a hR => ?_) ⟨n, hn, rfl⟩
  obtain ⟨n, hn, rfl⟩ := hR
  have hd' := hu.dispatching hd hle
  rcases (trace_sound hu.keys u).lane_step hd' hn (inp u) with hdr | hh | ⟨n', hn', hlt⟩
  · exact .inl (.inl hdr)
  · exact .inl (.inr hh)
  · refine .inr ⟨_, hlt, n', ?_⟩
    rw [trace_tick hu.keys hd'.not_idle]
    exact ⟨hn', rfl⟩

/-- When all lanes are drained, `trade_done` comes. -/
theorem Unhindered.done_of_drained (hu : Unhindered inp t) (hd : (trace inp t).1.disp.state = .dispatch) (hle : t ≤ u)
    (hall : ∀ e, (trace inp u).1.Drained (trace inp u).2 e) :
    Eventually u fun v => (trace inp v).1.tradeDone = true := by
  have hd' := hu.dispatching hd hle
  have hc := (trace_sound hu.keys u).ctrl
  rcases id hd' with hdisp | ⟨hdone, -⟩
  · refine ⟨u + 1, Nat.le_succ u, ?_⟩
    show (trace inp (u + 1)).1.tradeDone = true
    rw [trace_tick hu.keys hd'.not_idle]
    refine tradeDone_iff.2 ⟨?_, fun e => ((hall e).tick hc hd' (inp u)).idle⟩
    show OrderDispatcher.nextState _ _ = _
    simp only [OrderDispatcher.nextState, hdisp]
    exact if_pos fun e => (hc.disp.queue e).empty_iff.2 (hall e).all
  · exact .now (tradeDone_iff.2 ⟨hdone, fun e => (hall e).idle⟩)

theorem Unhindered.heldUp_stays (hu : Unhindered inp t) (hd : (trace inp t).1.disp.state = .dispatch) {u v : Nat}
    (hle : t ≤ u) (hh : (trace inp u).1.HeldUp e) (hv : u ≤ v) : (trace inp v).1.HeldUp e := by
  refine stays (P := fun v => (trace inp v).1.HeldUp e) (fun w hw hh => ?_) hh hv
  have hs := trace_sound hu.keys w
  rw [trace_tick hu.keys (hu.dispatching hd (by omega)).not_idle]
  rcases hh with ⟨k, hst⟩ | hb
  · exact .inl ⟨k, hst.tick hs _⟩
  · exact .inr (hb.tick (hu.pulses (by omega)).2 _)

theorem Unhindered.done_stays (hu : Unhindered inp t) (hd : (trace inp t).1.disp.state = .dispatch) {u v : Nat}
    (hle : t ≤ u) (hdone : (trace inp u).1.tradeDone = true) (hv : u ≤ v) : (trace inp v).1.tradeDone = true := by
  refine stays (P := fun v => (trace inp v).1.tradeDone = true) (fun w hw hdone => ?_) hdone hv
  rw [trace_tick hu.keys (hu.dispatching hd (by omega)).not_idle]
  exact (tradeDone_tick hdone (hu.pulses (by omega)).1 (hu.pulses (by omega)).2).1

theorem Unhindered.done_or_heldUp (hu : Unhindered inp t) (hd : (trace inp t).1.disp.state = .dispatch) :
    Eventually t fun u => (trace inp u).1.tradeDone = true ∨ ∃ e, (trace inp u).1.HeldUp e := by
  have hall := Eventually.all_or (t := t) (Q := fun e u => (trace inp u).1.Drained (trace inp u).2 e)
    (B := fun u => ∃ e, (trace inp u).1.HeldUp e)
    (fun e u hle hdr => by
      have hd' := hu.dispatching hd hle
      rw [trace_tick hu.keys hd'.not_idle]
      exact hdr.tick (trace_sound hu.keys u).ctrl hd' _)
    (fun e => (hu.drains hd e).mono fun u _ hor => hor.imp id fun hh => ⟨e, hh⟩)
  refine hall.trans fun u hle hor => ?_
  rcases hor with hdr | hh
  · exact (hu.done_of_drained hd hle hdr).mono fun v _ hv => .inl hv
  · exact .now (.inr hh)

/-- A batch being dispatched is completed if and only if no engine is ever held up: neither turned down for
a new leaf for want of slots, nor with a trade for a full log. -/
theorem completes_iff (hu : Unhindered inp t) (hd : (trace inp t).1.disp.state = .dispatch) :
    (∃ u, t ≤ u ∧ (trace inp u).1.tradeDone = true) ↔ ∀ u, t ≤ u → ∀ e, ¬ (trace inp u).1.HeldUp e := by
  constructor
  · rintro ⟨u, hle, hdone⟩ v hv e hh
    have h1 := hu.done_stays hd hle hdone (Nat.le_max_left u v)
    have h2 := hu.heldUp_stays hd hv hh (Nat.le_max_right u v)
    rw [h2.not_done (trace_sound hu.keys _).ctrl] at h1
    cases h1
  · intro hno
    obtain ⟨u, hle, hdone | ⟨e, hh⟩⟩ := hu.done_or_heldUp hd
    · exact ⟨u, hle, hdone⟩
    · exact absurd hh (hno u hle e)

/-- The bus of `bidAndAsk 3`, with nothing on it afterwards. -/
def bidAndAskBus (t : Nat) : TopIn :=
  ⟨0xF,
    if t = 3 then some ⟨0, 1⟩
    else if t = 5 then some ⟨2, hftDispPackOrderWord ⟨1, 5, 3⟩⟩
    else if t = 7 then some ⟨2, hftDispPackOrderWord ⟨0, 5, 3⟩⟩
    else if t = 9 then some ⟨0, 2⟩
    else none⟩

theorem unhindered_bidAndAskBus : Unhindered bidAndAskBus 11 := by
  refine ⟨fun u => (by decide : (0xF : BitVec 4).getLsbD 0 = true), fun u hu => ?_⟩
  unfold bidAndAskBus
  rw [if_neg (by omega), if_neg (by omega), if_neg (by omega), if_neg (by omega)]
  exact ⟨rfl, rfl⟩

theorem completes_iff_bidAndAskBus : (trace bidAndAskBus 50).1.tradeDone = true ∧
    ∀ u, 11 ≤ u → ∀ e, ¬ (trace bidAndAskBus u).1.HeldUp e := by
  have hdone : (trace bidAndAskBus 50).1.tradeDone = true := by decide +kernel
  exact ⟨hdone, (completes_iff unhindered_bidAndAskBus (by decide +kernel)).1 ⟨50, by decide, hdone⟩⟩

/-! ### Room for a small batch -/

/-- How far an engine goes with the orders it has taken: it has not handed over more trades, and it has not
asked for a node whose index is more than twice their number. -/
structure Within (s : Top) (h : History) : Prop where
  counts : ∀ e, (h.trades e).length + (s.eng e).nodes ≤ (h.orders e).length
  pend : ∀ e r, h.clients.pend e = some r → ptKey r.va % 2 ^ 10 + privateNodes ≤ 2 * (h.orders e).length
  mapped : ∀ key, (s.mem.mmu.pageTable key).valid = true →
    key % 2 ^ 10 + privateNodes ≤ 2 * (h.orders (keyEngine key)).length
  log : s.log.countReg ≤ ∑ e, (h.trades e).length

theorem within_reset (s : Top) (hpt : ∀ k, (s.mem.mmu.pageTable k).valid = false) (r0 r1 : Bool) :
    Within { s.reset with rstPipe0 := r0, rstPipe1 := r1 } .fresh where
  counts _ := Nat.le_refl 0
  pend _ _ hr := by cases hr
  mapped k hk := by
    have hk : (s.mem.mmu.pageTable k).valid = true := hk
    rw [hpt k] at hk; cases hk
  log := Nat.zero_le _

theorem orders_next_le (s : Top) (h : History) (e : Fin 8) : (h.orders e).length ≤ ((h.next s).orders e).length := by
  simp only [History.next]
  split <;> simp

/-- The request an engine offers is for a node it may ask for. -/
theorem Within.req_le (hw : s.Within h) (hs : s.Sound h) {r : Req} (hr : s.mmuReq e = some r) :
    ptKey r.va % 2 ^ 10 + privateNodes ≤ 2 * (h.orders e).length := by
  obtain ⟨ps, g, hinv, -⟩ := hs.linked.eng e
  have hheap : ∀ k, ((s.eng e).heap k).virtReqValid = true → r = ((s.eng e).heap k).virtReq ⟨k, e.val⟩ →
      ptKey r.va % 2 ^ 10 + privateNodes ≤ 2 * (h.orders e).length := by
    intro k hv heq
    have hidx : privateNodes ≤ ((s.eng e).heap k).memIdx := by
      simp only [HeapFsm.virtReqValid, HeapFsm.memTargetPriv, isPrivate, Bool.and_eq_true, Bool.not_eq_true',
        decide_eq_false_iff_not] at hv
      omega
    have hle : ((s.eng e).heap k).memIdx ≤ 2 * ((s.eng e).heap k).sizeAfter := hinv.memIdx_le k
    have hsize : ((s.eng e).heap k).sizeAfter ≤ (s.eng e).nodes := by
      unfold SymbolEngine.nodes
      cases k <;> omega
    have hcount := hw.counts e
    have hva : r.va = makeVa ⟨k, e.val⟩ ((s.eng e).heap k).memIdx := by rw [heq]; rfl
    have hmod : ptKey r.va % 2 ^ 10 + privateNodes ≤ ((s.eng e).heap k).memIdx := by
      rw [hva]
      unfold ptKey makeVa
      unfold privateNodes at hidx ⊢
      omega
    omega
  have hreq : (s.eng e).mmuReq e.val = some r := hr
  unfold SymbolEngine.mmuReq at hreq
  split at hreq
  · rename_i hg
    simp only [SymbolEngine.bidGrant, Bool.and_eq_true] at hg
    exact hheap .maxHeap hg.2 (Option.some.inj hreq).symm
  · split at hreq
    · rename_i hg
      simp only [SymbolEngine.askGrant, Bool.and_eq_true] at hg
      exact hheap .minHeap hg.2 (Option.some.inj hreq).symm
    · cases hreq

theorem trades_next_le (s : Top) (h : History) (e : Fin 8) :
    (h.trades e).length ≤ ((h.next s).trades e).length := by
  simp only [History.next]
  split <;> simp

theorem log_tick_le (hl : s.log.countReg ≤ ∑ e, (h.trades e).length) (i : TopIn) :
    (s.tick i).log.countReg ≤ ∑ e, ((h.next s).trades e).length := by
  have hmono : ∑ e, (h.trades e).length ≤ ∑ e, ((h.next s).trades e).length :=
    Finset.sum_le_sum fun e _ => trades_next_le s h e
  have hcount : (s.tick i).log.countReg = (s.log.step s.logIn).countReg := rfl
  rw [hcount, TradeLog.step]
  simp only []
  split
  · exact Nat.zero_le _
  · split
    · -- an entry is a trade handed over
      rename_i hacc
      have htaken : s.taken.isSome = true := by
        unfold TradeLog.acceptWrite at hacc
        unfold taken
        split at hacc
        · rename_i hr
          rw [if_pos hr]
          simpa [logIn] using hacc
        · cases hacc
      obtain ⟨e, he⟩ := Option.isSome_iff_exists.1 htaken
      have hlt : (h.trades e).length < ((h.next s).trades e).length := by
        have hh : ((s.eng e).tradeOutValid && (s.engineIn e).tradeOutReady) = true := hands_iff.2 he
        simp only [History.next, hh, if_true, List.length_append, List.length_singleton]
        omega
      have hsum : ∑ e, (h.trades e).length < ∑ e, ((h.next s).trades e).length :=
        Finset.sum_lt_sum (fun e _ => trades_next_le s h e) ⟨e, Finset.mem_univ e, hlt⟩
      exact le_trans (Nat.mod_le _ _) (by omega)
    · omega

theorem Within.tick (hw : s.Within h) (hs : s.Sound h) (i : TopIn) : (s.tick i).Within (h.next s) := by
  obtain ⟨x, hi, -⟩ := hs.linked.mmu
  have hmono : ∀ e, (h.orders e).length ≤ ((h.next s).orders e).length := orders_next_le s h
  refine ⟨fun e => ?_, fun e r hr => ?_, fun key hk => ?_, log_tick_le hw.log i⟩
  · obtain ⟨ps, g, hinv, -⟩ := hs.linked.eng e
    have := hinv.counts_step (hw.counts e) (s.engineCycle e)
    rw [← hs.linked.engineSys_tick i e] at this
    exact this
  · refine le_trans ?_ (Nat.mul_le_mul_left 2 (hmono e))
    have hr : (h.clients.next s.mem s.mmuReq).pend e = some r := hr
    simp only [Clients.next] at hr
    split at hr
    · unfold MmuSys.accepted at hr
      split at hr
      · exact hw.req_le hs hr
      · cases hr
    · split at hr
      · cases hr
      · exact hw.pend e r hr
  · refine le_trans ?_ (Nat.mul_le_mul_left 2 (hmono _))
    rcases hi.valid_step (o := s.mmuReq) hk with ⟨w, hm, -⟩ | ⟨hv, -⟩
    · have hkey : ptKey (s.mem.mmu.pipe w).va = key := by rw [← hi.key hm.busy, hm.2]
      have hp := hw.pend _ _ (hi.flight.pend (MmuSys.mem_walker (x := x) hm.busy))
      rw [← hkey, MmuSys.keyEngine_ptKey]
      exact hp
    · exact hw.mapped key hv

theorem trace_within (hk : ∀ u, (inp u).key.getLsbD 0 = true) (t : Nat) : (trace inp t).1.Within (trace inp t).2 := by
  induction t with
  | zero => exact within_reset powerUp (fun _ => rfl) false false
  | succ t ih =>
    rw [trace_succ, next]
    cases hin : (trace inp t).1.inReset (inp t) with
    | true =>
      have hr : (trace inp t).1.rstPipe1 = false := by
        rw [inReset, hk t] at hin
        simpa using hin
      obtain ⟨r0, r1, hs⟩ := step_of_inReset hin
      rw [hs]
      exact within_reset _ ((unused_of_keys _ (trace_keys hk t)).2.2.2 hr) r0 r1
    | false =>
      rw [step_of_not_inReset hin]
      exact ih.tick (trace_sound hk t) _

/-- With at most 511 orders taken, an engine is not held up. -/
theorem Within.not_heldUp (hw : s.Within h) (hs : s.Sound h) (hle : ∀ e, (h.orders e).length ≤ 511) :
    ¬ s.HeldUp e := by
  rintro (⟨k, hst⟩ | hb)
  · -- the partition would be full of keys below 959
    have hbit : k.bit < 2 := by cases k <;> decide
    have he := e.isLt
    have hcount := hs.alloc.count (e.val * 2 + k.bit) (by omega)
    rw [PartPtr.passed, hst.full, if_pos rfl] at hcount
    have hsub : HftSim.mapped s.mem.mmu.pageTable (e.val * 2 + k.bit) ⊆
        (Finset.range 959).image fun j => (e.val * 2 + k.bit) * 2 ^ 10 + j := by
      intro key hkey
      obtain ⟨-, hv, hp⟩ := Finset.mem_filter.1 hkey
      have := hw.mapped key hv
      have := hle (keyEngine key)
      refine Finset.mem_image.2 ⟨key % 2 ^ 10, Finset.mem_range.2 ?_, ?_⟩
      · unfold privateNodes at *; omega
      · omega
    have hcard := (Finset.card_le_card hsub).trans Finset.card_image_le
    rw [hcount, Finset.card_range] at hcard
    omega
  · have hfull := hb.full
    have hsum : ∑ e, (h.trades e).length ≤ ∑ _e : Fin 8, 511 := Finset.sum_le_sum fun e _ => by
      have := hw.counts e
      have := hle e
      omega
    have hlog := hw.log
    unfold TradeLog.tradeInReady logDepth at hfull
    have hfull := of_decide_eq_false hfull
    simp only [Finset.sum_const, Finset.card_univ, Fintype.card_fin, smul_eq_mul] at hsum
    omega

/-- The orders taken and those still in the lane. -/
def ordersDue (h : History) (e : Fin 8) : Nat := (h.orders e).length + ordersLeft h e

theorem Dispatching.ordersDue_next (hd : s.Dispatching) (hs : s.Sound h) (i : TopIn) (e : Fin 8) :
    ordersDue (h.next s) e ≤ ordersDue h e := by
  obtain ⟨hw, ha⟩ := hd.batch_next (h := h) e
  have hle := ((hs.tick i).ctrl.disp.queue e).taken.length_le
  have htake : (s.eng e).takesOrder (s.engineIn e) = (s.disp.orderOutValid e && s.dispIn.orderInReady e) := by
    simp [SymbolEngine.takesOrder, engineIn, dispIn, SymbolEngine.orderInReady, Bool.and_comm]
  unfold ordersDue ordersLeft
  rw [hw, ha] at hle ⊢
  simp only [History.next, htake, OrderDispatcher.hands] at hle ⊢
  generalize (s.disp.orderOutValid e && s.dispIn.orderInReady e) = b at hle ⊢
  cases b with
  | true =>
    simp only [if_true, List.length_append, List.length_singleton] at hle ⊢
    omega
  | false => simp

/-- In a small batch no engine is held up. -/
theorem Unhindered.not_heldUp (hu : Unhindered inp t) (hd : (trace inp t).1.disp.state = .dispatch)
    (hle : ∀ e, ordersDue (trace inp t).2 e ≤ 511) (htu : t ≤ u) : ¬ (trace inp u).1.HeldUp e := by
  have hdue : ∀ e, ordersDue (trace inp u).2 e ≤ 511 := by
    refine stays (P := fun u => ∀ e, ordersDue (trace inp u).2 e ≤ 511) (fun v hv hall e => ?_) hle htu
    have hd' := hu.dispatching hd hv
    rw [trace_tick hu.keys hd'.not_idle]
    exact le_trans (hd'.ordersDue_next (trace_sound hu.keys v) (inp v) e) (hall e)
  exact (trace_within hu.keys u).not_heldUp (trace_sound hu.keys u) fun e => le_trans (Nat.le_add_right _ _) (hdue e)

/-- If no engine gets more than 511 orders from power-up to the end of the batch, `trade_done` comes,
whatever the orders are and whatever else the bus and the buttons do meanwhile. -/
theorem small_batch_completes (hu : Unhindered inp t) (hd : (trace inp t).1.disp.state = .dispatch)
    (hle : ∀ e, ordersDue (trace inp t).2 e ≤ 511) : ∃ u, t ≤ u ∧ (trace inp u).1.tradeDone = true := by
  obtain ⟨u, htu, hdone | ⟨e, hh⟩⟩ := hu.done_or_heldUp hd
  · exact ⟨u, htu, hdone⟩
  · exact absurd hh (hu.not_heldUp hd hle htu)

theorem small_batch_completes_bidAndAskBus : (∀ e, ordersDue (trace bidAndAskBus 11).2 e ≤ 511) ∧
    ∃ u, 11 ≤ u ∧ (trace bidAndAskBus u).1.tradeDone = true := by
  have hle : ∀ e, ordersDue (trace bidAndAskBus 11).2 e ≤ 511 := by decide +kernel
  exact ⟨hle, small_batch_completes unhindered_bidAndAskBus (by decide +kernel) hle⟩

end Top

end HftSim
