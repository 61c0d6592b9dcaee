import HftSim.Top

/-!
# Waiting in `WRITE`

While the dispatcher waits in `WRITE` and nothing comes from the bus and the buttons, only the timestamp
moves on.
-/

namespace HftSim

open Function

/-! ### Nothing happens -/

theorem Avalon.step_none {a : Avalon} {ready : Fin 8 → Bool} {rdata : LogEntry}
    (hp : a.dispBeginWritePulse = false ∧ a.dispBeginDispatchPulse = false ∧ a.dispClearDonePulse = false)
    (hpush : ∀ n, a.dispPushEn n = false) (hl : a.logReadPulse = false ∧ a.logClearPulse = false)
    (hr : a.logReadPipe0 = false ∧ a.logReadPipe1 = false) : a.step none ready rdata = a := by
  obtain ⟨bw, bd, cd, en, dat, rp, ri, cp, sh, dv, p0, p1⟩ := a
  obtain ⟨rfl, rfl, rfl⟩ := hp
  obtain ⟨rfl, rfl⟩ := hl
  obtain ⟨rfl, rfl⟩ := hr
  have hen : en = fun _ => false := funext hpush
  subst hen
  simp [Avalon.step, busBit, busData, logReads, logClears]

theorem DispatchFifoBram.step_wait {f : DispatchFifoBram} {i : DispatchFifoIn} (hw : i.wrEn = false)
    (hd : i.dispatchEn = false) (hc : i.clear = false) (hr : f.rdPending = false) : f.step i = f := by
  obtain ⟨mem, wr, rd, cnt, p, o, d⟩ := f
  simp only at hr
  subst hr
  simp [DispatchFifoBram.step, doWrite, doLaunchRead, doConsume, hw, hd, hc]

theorem OrderDispatcher.step_wait {d : OrderDispatcher} {i : DispatchIn} (hst : d.state = .write)
    (hb : i.swBeginDispatch = false) (hw : ∀ n, i.swWrEn n = false) (hr : ∀ n, (d.fifo n).rdPending = false) :
    d.step i = d := by
  have hfifo : ∀ n, (d.fifo n).step (d.fifoIn i n) = d.fifo n := fun n =>
    DispatchFifoBram.step_wait (by simp [fifoIn, hw n]) (by simp [fifoIn, hst]) (by simp [fifoIn, hst]) (hr n)
  obtain ⟨st, f⟩ := d
  simp only at hst
  subst hst
  simp only [OrderDispatcher.step, nextState, hb, Bool.false_eq_true, if_false, mk.injEq, true_and]
  exact funext hfifo

theorem HeapFsm.step_idle {cfg : HeapCfg} {h : HeapFsm} {i : HeapIn} (hst : h.state = .idle)
    (hv : i.cmdValid = false) (hr : h.privReD1 = false) (hw : h.privWeD1 = false) : h.step cfg i = h := by
  have hre : h.privRe = false := by simp [privRe, effectiveRead, memDoRead, hst]
  have hwe : h.privWe = false := by simp [privWe, memDoWrite, hst]
  have hn : h.nState cfg i = h.state := by simp [nState, hst, hv]
  have hregs : h.regs cfg i = h := by simp [regs, hst, hv]
  unfold HeapFsm.step
  rw [hregs, hn, hre, hwe, ← hr]
  nth_rewrite 2 [hr]
  rw [← hw]

def HeapFsm.Still (h : HeapFsm) : Prop := h.state = .idle ∧ h.privReD1 = false ∧ h.privWeD1 = false

instance (h : HeapFsm) : Decidable h.Still := inferInstanceAs (Decidable (_ ∧ _))

theorem SymbolEngine.step_wait {n : Nat} {e : SymbolEngine} {i : EngineIn} (hst : e.tstate = .idle)
    (ho : e.mmuOwner = .idle) (hb : e.bid.Still) (ha : e.ask.Still) (hi : i.orderInValid = false) :
    e.step n i = e := by
  have hbid : e.bid.step (bidCfg n) (e.bidIn i) = e.bid :=
    HeapFsm.step_idle hb.1 (by simp [bidIn, bidCmd, hst, Cmd.none]) hb.2.1 hb.2.2
  have hask : e.ask.step (askCfg n) (e.askIn i) = e.ask :=
    HeapFsm.step_idle ha.1 (by simp [askIn, askCmd, hst, Cmd.none]) ha.2.1 ha.2.2
  have hbm : e.bid.memDoWrite = false ∧ e.bid.memDoRead = false := by
    simp [HeapFsm.memDoWrite, HeapFsm.memDoRead, hb.1]
  have ham : e.ask.memDoWrite = false ∧ e.ask.memDoRead = false := by
    simp [HeapFsm.memDoWrite, HeapFsm.memDoRead, ha.1]
  have hpriv : e.nPriv n = e.priv := by
    simp [nPriv, PrivBram.step, HeapFsm.privWe, HeapFsm.privRe, HeapFsm.effectiveRead, hbm, ham]
  have howner : e.nOwner i = e.mmuOwner := by
    simp [nOwner, ho, bidGrant, askGrant, HeapFsm.virtReqValid, HeapFsm.effectiveRead, hbm, ham]
  have htake : e.takesOrder i = false := by simp [takesOrder, hi]
  have htrades : e.trades = false := by simp [trades, hst]
  have htn : e.tnState i = e.tstate := by simp [tnState, hst, hi]
  have hne : ¬ e.tstate = .peekBidWait ∧ ¬ e.tstate = .peekAskWait ∧ ¬ e.tstate = .emitTrade := by simp [hst]
  unfold SymbolEngine.step
  rw [hbid, hask, hpriv, howner, htake, htrades, htn]
  simp only [hne.1, hne.2.1, hne.2.2, false_and, Bool.false_eq_true, if_false]

theorem SymbolEngine.no_request {n : Nat} {e : SymbolEngine} (hb : e.bid.Still) (ha : e.ask.Still) :
    e.mmuReq n = none := by
  simp [mmuReq, bidGrant, askGrant, HeapFsm.virtReqValid, HeapFsm.effectiveRead, HeapFsm.memDoWrite,
    HeapFsm.memDoRead, hb.1, ha.1]

theorem memWrite_false {α : Type*} (mem : Nat → α) (addr : Nat) (x : α) : memWrite mem false addr x = mem := rfl

structure MmuSys.Still (s : MmuSys) : Prop where
  inFifo : ∀ w, (s.mmu.inFifo w).cnt = 0
  ptw : ∀ w, (s.mmu.ptw w).state = .idle ∧ (s.mmu.ptw w).paValidReg = false ∧ (s.mmu.ptw w).faultReg = false
  rdata : ∀ w, s.mmu.ptRdata w = s.mmu.pageTable (s.mmu.ptw w).latchedKey
  bankFifo : ∀ b, (s.mmu.bankFifo b).cnt = 0
  bank : ∀ b, (s.bank b).state = .idle ∧ (s.bank b).memRdataValid = false ∧ (s.bank b).memWdone = false
  resp : ∀ b, (s.mmu.respBuf b).valid = false

theorem MemBank.step_idle {n : Nat} {b : MemBank} {i : BankIn} (hst : b.state = .idle) (hr : b.memRdataValid = false)
    (hw : b.memWdone = false) (hi : i.memRe = false ∧ i.memWe = false) : b.step n i = b := by
  obtain ⟨st, w, p, nd, dat, asm, rd, rv, wd, br, brd⟩ := b
  simp only at hst hr hw
  subst hst hr hw
  simp [MemBank.step, nState, starts, nReadAssemble, readEnds, writeEnds, bramWe, bramRe, inPhase, hi]

theorem fifoStep_still {α : Type*} {f : Ring.Ring α} {x : α} : fifoStep f false x false = f := by
  simp [fifoStep, memWrite_false]

theorem dualWriteFifoStep_still {α : Type*} {f : Ring.Ring α} {x y : α} :
    dualWriteFifoStep f false x false y false = f := by
  simp [dualWriteFifoStep, memWrite_false]

theorem trackingFifoStep_still {α : Type*} {f : Ring.Ring α} {x : α} : trackingFifoStep f false x false = f := by
  simp [trackingFifoStep, memWrite_false]

namespace MmuSys

variable {s : MmuSys} (hs : s.Still)
include hs

theorem Still.hptw (w : Bool) : (s.mmu.ptw w).step (s.mmu.ptwIn w) = s.mmu.ptw w := by
  obtain ⟨h1, h2, h3⟩ := hs.ptw w
  have hv : (s.mmu.ptwIn w).vaValid = false := by simp [Mmu.ptwIn, Mmu.vaValidIn, hs.inFifo w]
  generalize s.mmu.ptw w = p at *
  obtain ⟨st, k, pa, v, b, f⟩ := p
  simp only at h1 h2 h3
  subst h1 h2 h3
  simp [Hptw.step, Hptw.nState, hv]

theorem Still.dispatch (b : Fin 4) : s.mmu.dispatch s.bankOut b = false := by
  simp [Mmu.dispatch, hs.bankFifo b]

theorem Still.vaPop (b : Fin 4) : s.mmu.vaPop s.bankOut b = false := by
  simp [Mmu.vaPop, bankOut, (hs.bank b).2.1, (hs.bank b).2.2]

theorem Still.alloc (w : Bool) : s.mmu.allocEff w = false := by
  have h : ∀ w, s.mmu.ptwAlloc w = false := fun w => by simp [Mmu.ptwAlloc, Hptw.alloc, (hs.ptw w).1]
  cases w <;> simp [Mmu.allocEff, h]

theorem Still.arbValid (w : Bool) : s.mmu.arbValid w = false := by
  cases w <;> simp [Mmu.arbValid, (hs.ptw _).2.1]

theorem Still.step (req : Fin 8 → Option Req) (hreq : ∀ e, req e = none) : s.step req = s := by
  have hwin : s.mmu.winners req = [] := by simp [Mmu.winners, hreq]
  have hfirst : s.mmu.acceptFirst req = false := by simp [Mmu.acceptFirst, Mmu.firstWinner, hwin]
  have hsecond : s.mmu.acceptSecond req = false := by simp [Mmu.acceptSecond, Mmu.secondWinner, hwin]
  have hno : s.mmu.sameBankCollision = false := by simp [Mmu.sameBankCollision, hs.arbValid]
  have henq : ∀ w, s.mmu.canEnqueue w = false := fun w => by simp [Mmu.canEnqueue, hno, hs.arbValid]
  have hin : ∀ w, s.mmu.inWrite req w = none := fun w => by
    simp [Mmu.inWrite, Mmu.newEntry, hfirst, hsecond, Mmu.arbReject, hs.arbValid]
  have hva : ∀ w, s.mmu.vaValidIn w = false := fun w => by simp [Mmu.vaValidIn, hs.inFifo w]
  have hptw : ∀ w, (s.mmu.ptw w).step (s.mmu.ptwIn w) = s.mmu.ptw w := hs.hptw
  have hraddr : ∀ w, s.mmu.ptRaddr w = (s.mmu.ptw w).latchedKey := fun w => by
    simp [Mmu.ptRaddr, Hptw.ptRaddr, Mmu.ptwIn, hva w]
  have hpt : ∀ w pt, s.mmu.ptWrite w pt = pt := fun w pt => by
    funext k; simp [Mmu.ptWrite, hs.alloc w]
  have hpart : s.mmu.nPart = s.mmu.part := by funext p; simp [Mmu.nPart, hs.alloc]
  have hresp : s.mmu.nRespBuf s.bankOut = s.mmu.respBuf := by
    funext b; simp [Mmu.nRespBuf, hs.vaPop b, hs.resp b]
  have hbank : ∀ b : Fin 4, (s.bank b).step b.val (s.mmu.bankIn s.bankOut b) = s.bank b := fun b =>
    MemBank.step_idle (hs.bank b).1 (hs.bank b).2.1 (hs.bank b).2.2 (by simp [Mmu.bankIn, hs.dispatch b])
  have hmmu : s.mmu.step req s.bankOut = s.mmu := by
    unfold Mmu.step
    simp only [Mmu.nRrPointer, hfirst, hsecond, hin, hva, hptw, hpart, hpt, hraddr, ← hs.rdata, hno, Mmu.writesBank,
      henq, hs.dispatch, hs.vaPop, hresp, Bool.false_and, Bool.false_eq_true, if_false, Option.isSome_none,
      fifoStep_still, dualWriteFifoStep_still, trackingFifoStep_still]
  unfold MmuSys.step
  rw [hmmu]
  exact congrArg (MmuSys.mk s.mmu) (funext hbank)

end MmuSys

/-! ### The design -/

namespace Top

/-- The dispatcher waits in `WRITE`, and everything else has come to rest. -/
structure Waiting (s : Top) (h : History) : Prop where
  rst : s.rstPipe0 = true ∧ s.rstPipe1 = true
  key : s.keyS0 = 0xF ∧ s.keyS1 = 0xF ∧ s.keyPrev = 0xF
  pulses : s.avl.dispBeginWritePulse = false ∧ s.avl.dispBeginDispatchPulse = false ∧ s.avl.dispClearDonePulse = false
  push : ∀ n, s.avl.dispPushEn n = false
  logPulses : s.avl.logReadPulse = false ∧ s.avl.logClearPulse = false
  logPipe : s.avl.logReadPipe0 = false ∧ s.avl.logReadPipe1 = false
  disp : s.disp.state = .write
  fifo : ∀ n, (s.disp.fifo n).rdPending = false
  tstate : ∀ e, (s.eng e).tstate = .idle ∧ (s.eng e).mmuOwner = .idle
  heaps : ∀ e, (s.eng e).bid.Still ∧ (s.eng e).ask.Still
  mem : s.mem.Still
  pend : ∀ e, h.clients.pend e = none

/-- A cycle with the buttons up and the bus idle. -/
def noInput : TopIn := ⟨0xF, none⟩

variable {s : Top} {h : History}

theorem Waiting.later (hw : s.Waiting h) (t : BitVec 32) : Waiting { s with nowTs := t } h :=
  ⟨hw.rst, hw.key, hw.pulses, hw.push, hw.logPulses, hw.logPipe, hw.disp, hw.fifo, hw.tstate, hw.heaps, hw.mem,
    hw.pend⟩

theorem Waiting.no_trade (hw : s.Waiting h) : s.selected = none := by
  have hv : ∀ e, s.engTradeValid e = false := fun e => by
    simp [engTradeValid, SymbolEngine.tradeOutValid, (hw.tstate e).1]
  simp [selected, TradeAggregator.selected, hv]

theorem Waiting.no_request (hw : s.Waiting h) (e : Fin 8) : s.mmuReq e = none :=
  SymbolEngine.no_request (hw.heaps e).1 (hw.heaps e).2

theorem Waiting.no_pulse (hw : s.Waiting h) (b : Nat) : s.keyPressPulse b = false := by
  rw [keyPressPulse, hw.key.2.1, hw.key.2.2, Bool.and_not_self]

theorem Waiting.tick (hw : s.Waiting h) : s.tick noInput = { s with nowTs := s.nowTs + 1 } := by
  have hsel : s.agg.selected s.engTradeValid = none := hw.no_trade
  have havl : s.avl.step none s.dispPushReady s.log.swRdata = s.avl :=
    Avalon.step_none hw.pulses hw.push hw.logPulses hw.logPipe
  have hdisp : s.disp.step s.dispIn = s.disp := OrderDispatcher.step_wait hw.disp
    (by simp [dispIn, dispBeginDispatchPulse, hw.pulses, hw.no_pulse]) hw.push hw.fifo
  have heng : ∀ e : Fin 8, (s.eng e).step e.val (s.engineIn e) = s.eng e := fun e =>
    SymbolEngine.step_wait (hw.tstate e).1 (hw.tstate e).2 (hw.heaps e).1 (hw.heaps e).2
      (by simp [engineIn, OrderDispatcher.orderOutValid, hw.disp])
  have hmem : s.mem.step s.mmuReq = s.mem := hw.mem.step _ hw.no_request
  have hagg : s.agg.step s.engTradeValid s.log.tradeInReady = s.agg := by
    simp [TradeAggregator.step, hsel]
  have hlog : s.log.step s.logIn = s.log := by
    have hin : s.logIn.tradeIn = none := by simp [logIn, hw.no_trade]
    have hre : s.logIn.swRe = false ∧ s.logIn.swClear = false := hw.logPulses
    have hacc : s.log.acceptWrite s.logIn = none := by simp [TradeLog.acceptWrite, hin]
    simp [TradeLog.step, hacc, hin, hre]
  unfold Top.tick
  simp only [noInput, havl, hdisp, hmem, hagg, hlog, hw.rst.1, funext heng]
  rw [← hw.key.1]
  have h1 : s.keyS0 = s.keyS1 := hw.key.1.trans hw.key.2.1.symm
  have h2 : s.keyS1 = s.keyPrev := hw.key.2.1.trans hw.key.2.2.symm
  obtain ⟨r0, r1, k0, k1, k2, ts, avl, disp, eng, mem, agg, log⟩ := s
  obtain ⟨hr0, hr1⟩ := hw.rst
  simp only at h1 h2 hr0 hr1
  subst h1 h2 hr0 hr1
  rfl

theorem Waiting.history (hw : s.Waiting h) : h.next s = h := by
  have hans : ∀ e, s.mem.answered e = false := fun e => by
    have hf : ∀ w, s.mem.mmu.faultEff w = false := fun w => by
      have hc : s.mem.mmu.sameAllocCollision = false := by
        simp [Mmu.sameAllocCollision, Mmu.ptwAlloc, Hptw.alloc, (hw.mem.ptw _).1]
      cases w <;> simp [Mmu.faultEff, (hw.mem.ptw _).2.2, hc]
    have hr : s.mem.mmu.resp e = none := by
      have : ∀ l : List (Fin 4), l.foldl (fun acc b => if (s.mem.mmu.respBuf b).valid ∧
          vaEngine (s.mem.mmu.respBuf b).va = e.val then some (s.mem.mmu.respBuf b).data else acc) none = none := by
        intro l
        induction l with
        | nil => rfl
        | cons b l ih => simpa [hw.mem.resp b] using ih
      exact this _
    simp [MmuSys.answered, hr, Mmu.respReject, hf]
  have hclients : h.clients.next s.mem s.mmuReq = h.clients := by
    unfold Clients.next
    have hp : (fun e => if (s.mem.accepted s.mmuReq e).isSome then s.mem.accepted s.mmuReq e
        else if s.mem.answered e then none else h.clients.pend e) = h.clients.pend := funext fun e => by
      simp [MmuSys.accepted, hw.no_request e, hans e]
    rw [hp]
    simp only [hw.pend]
  have hbatch : h.batch.next s.disp s.dispIn = h.batch := by
    have hs : ∀ n, s.disp.stores s.dispIn n = [] := fun n => by
      simp [OrderDispatcher.stores, dispIn, hw.push n]
    have hh : ∀ n, s.disp.hands s.dispIn n = [] := fun n => OrderDispatcher.hands_nil (by simp [hw.disp]) n
    unfold Batch.next
    rw [if_neg (by simp [hw.disp])]
    simp only [hs, hh, List.append_nil]
  have htake : ∀ e, (s.eng e).takesOrder (s.engineIn e) = false := fun e => by
    simp [SymbolEngine.takesOrder, engineIn, OrderDispatcher.orderOutValid, hw.disp]
  have htrade : ∀ e, (s.eng e).tradeOutValid = false ∧ (s.eng e).trades = false := fun e => by
    simp [SymbolEngine.tradeOutValid, SymbolEngine.trades, (hw.tstate e).1]
  unfold History.next
  simp only [hclients, hbatch, htake, htrade, hw.no_trade, hw.logPulses.2, Bool.false_and, Bool.false_eq_true, if_false]

theorem run_wait (is : List TopIn) (hw : (run is).1.Waiting (run is).2) (n : Nat) :
    run (is ++ List.replicate n noInput) =
      ({ (run is).1 with nowTs := (run is).1.nowTs + BitVec.ofNat 32 n }, (run is).2) := by
  induction n with
  | zero => simp
  | succ n ih =>
    have hw' := hw.later ((run is).1.nowTs + BitVec.ofNat 32 n)
    have hin : inReset { (run is).1 with nowTs := (run is).1.nowTs + BitVec.ofNat 32 n } noInput = false := by
      show (!noInput.key.getLsbD 0 || !(run is).1.rstPipe1) = false
      rw [hw.rst.2]; rfl
    rw [List.replicate_succ', ← List.append_assoc, run_snoc, ih, next, step_of_not_inReset hin, hw'.tick, hw'.history,
      hin]
    simp only [Bool.false_eq_true, if_false, BitVec.ofNat_add, BitVec.add_assoc]
    rfl

end Top

end HftSim
