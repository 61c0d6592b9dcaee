import HftSim.EngineRefines
import HftSim.MmuDelivery
import HftSim.TopLog

/-!
# Each engine of the design

Behind its MMU port an engine sees a memory of its own: the MMU answers it with what it wrote last,
whatever the other engines do. So engine `e` of the design, with the part of the history that concerns
it, is an `EngineSys` (`engineSys`), and a clock edge of the design is a clock edge of it
(`Linked.engineSys_tick`). A partition has 960 slots, so a heap never holds more than 1024 nodes.
-/

namespace HftSim

open Function PriceTime

/-! ### The data lines -/

/-- Without `virt_resp_valid` the data lines do not matter. -/
theorem HeapFsm.step_data (cfg : HeapCfg) (h : HeapFsm) (i : HeapIn) (d : Node) (hv : i.virtRespValid = false) :
    h.step cfg { i with virtRespData := d } = h.step cfg i := by
  have hdata : h.readDone i = true → h.readData { i with virtRespData := d } = h.readData i := by
    intro hd
    have hp : h.privReD1 = true := by simpa [readDone, hv] using hd
    simp [readData, hp]
  have hregs : h.regs cfg { i with virtRespData := d } = h.regs cfg i := by
    have hdone : h.readDone { i with virtRespData := d } = h.readDone i := rfl
    unfold regs
    cases hd : h.readDone i
    · simp only [hdone, hd, Bool.false_eq_true, if_false]; rfl
    · simp only [hdone, hd, if_true, hdata hd]; rfl
  unfold HeapFsm.step
  rw [hregs]
  rfl

theorem SymbolEngine.step_data (n : Nat) (e : SymbolEngine) (i : EngineIn) (d : Node) (hv : i.mmuRespValid = false) :
    e.step n { i with mmuRespData := d } = e.step n i := by
  have hb : e.bid.step (bidCfg n) (e.bidIn { i with mmuRespData := d }) = e.bid.step (bidCfg n) (e.bidIn i) :=
    HeapFsm.step_data _ _ (e.bidIn i) d (by simp [bidIn, hv])
  have ha : e.ask.step (askCfg n) (e.askIn { i with mmuRespData := d }) = e.ask.step (askCfg n) (e.askIn i) :=
    HeapFsm.step_data _ _ (e.askIn i) d (by simp [askIn, hv])
  unfold SymbolEngine.step
  rw [hb, ha]
  rfl

/-! ### An engine and its part of the history -/

/-- The addresses an engine's heaps use: `{ENGINE_ID, 18'd0, HEAP_KIND, virt_idx}`. -/
def OwnVa (e : Fin 8) (va : Nat) : Prop := va / 2 ^ 29 = e.val ∧ va % 2 ^ 29 < 2 ^ 11

instance (e : Fin 8) (va : Nat) : Decidable (OwnVa e va) := inferInstanceAs (Decidable (_ ∧ _))

theorem OwnVa.ptKey_inj {e : Fin 8} {va va' : Nat} (h : OwnVa e va) (h' : OwnVa e va') :
    ptKey va = ptKey va' ↔ va = va' := by
  obtain ⟨h1, h2⟩ := h
  obtain ⟨h3, h4⟩ := h'
  have := e.isLt
  refine ⟨fun hk => ?_, fun hk => by rw [hk]⟩
  unfold ptKey at hk
  omega

theorem OwnVa.keyEngine {e : Fin 8} {va : Nat} (h : OwnVa e va) : keyEngine (ptKey va) = e := by
  have := e.isLt
  rw [MmuSys.keyEngine_ptKey]
  refine Fin.ext ?_
  show vaEngine va = e.val
  unfold vaEngine
  rw [h.1]
  omega

theorem ownVa_base {e : Fin 8} {va : Nat} {k : HeapKind} (h : va = HeapCfg.base ⟨k, e.val⟩ + va % 2 ^ 10) :
    OwnVa e va := by
  have := e.isLt
  unfold HeapCfg.base at h
  cases k <;> simp only [HeapKind.bit] at h <;> constructor <;> omega

namespace Top

variable {s : Top} {h : History} {i : TopIn} {e : Fin 8}

/-- The memory engine `e` has behind its MMU port. -/
def port (h : History) (e : Fin 8) : VirtPort where
  mem va := if OwnVa e va then h.clients.mem (ptKey va) else none
  out := h.clients.pend e

def engineSys (s : Top) (h : History) (e : Fin 8) : EngineSys := ⟨s.eng e, port h e, h.orders e, h.trades e⟩

/-- What the MMU does at the port of engine `e` in this cycle. -/
def portCycle (s : Top) (e : Fin 8) : PortCycle where
  ready := s.mem.mmu.reqReady s.mmuReq e
  answer :=
    if (s.mem.mmu.resp e).isSome then some true else if s.mem.mmu.respReject e then some false else none
  junk := (s.mem.mmu.resp e).getD 0

def engineCycle (s : Top) (e : Fin 8) : EngineCycle where
  nowTs := s.nowTs
  orderInValid := s.disp.orderOutValid e
  orderInData := s.disp.orderOut e
  tradeOutReady := (s.engineIn e).tradeOutReady
  port := s.portCycle e

/-! ### Requests -/

theorem mmuReq_owner {r : Req} (hr : s.mmuReq e = some r) : (s.eng e).mmuOwner = .idle := by
  by_contra ho
  simp [mmuReq, SymbolEngine.mmuReq, SymbolEngine.bidGrant, SymbolEngine.askGrant, ho] at hr

theorem mmuReq_va {r : Req} (hr : s.mmuReq e = some r) : OwnVa e r.va := by
  unfold mmuReq SymbolEngine.mmuReq at hr
  split at hr
  · rw [← Option.some.inj hr]; exact ownVa_base (k := .maxHeap) (makeVa_eq _ _)
  · split at hr
    · rw [← Option.some.inj hr]; exact ownVa_base (k := .minHeap) (makeVa_eq _ _)
    · cases hr

/-- The MMU is ready only for a client with a request. -/
theorem req_of_ready (hr : s.mem.mmu.reqReady s.mmuReq e = true) : (s.mmuReq e).isSome = true := by
  have hw : ∀ j : Nat, (s.mem.mmu.winners s.mmuReq)[j]? = some e → (s.mmuReq e).isSome = true := by
    intro j hj
    exact (List.mem_filter.1 (List.mem_of_getElem? hj)).2
  simp only [Mmu.reqReady, Bool.or_eq_true, Bool.and_eq_true, decide_eq_true_iff] at hr
  rcases hr with hr | hr
  · exact hw 0 hr.2
  · exact hw 1 hr.2

/-- The roots of a deal, bid first. -/
def pairOf (p : Bool → Node) : Node × Node := (p true, p false)

/-- The MMU serves the engines, each of which keeps its invariant. -/
structure Linked (ok : (Bool → Multiset Node) → Node → Prop) (s : Top) (h : History) : Prop where
  mmu : ∃ x, s.mem.Inv h.clients x ∧ s.mem.DataOk h.clients x
  written : ∀ k, (h.clients.mem k).isSome = true → (s.mem.mmu.pageTable k).valid = true
  log : s.LogOk h
  eng : ∀ e, ∃ ps g, (s.engineSys h e).Inv e.val ok ps g ∧
    h.deals e = ps.map pairOf ++ (s.eng e).pendingDeal

variable {ok : (Bool → Multiset Node) → Node → Prop}

theorem Linked.portOk (hk : s.Linked ok h) (e : Fin 8) : (s.engineSys h e).PortOk e.val := by
  obtain ⟨ps, g, hinv, -⟩ := hk.eng e
  exact hinv.port

theorem Linked.pend_none (hk : s.Linked ok h) {r : Req} (hr : s.mmuReq e = some r) : h.clients.pend e = none :=
  (hk.portOk e).idle (mmuReq_owner hr)

theorem Linked.pend_va (hk : s.Linked ok h) {r : Req} (hr : h.clients.pend e = some r) : OwnVa e r.va := by
  rcases EngineSys.owner_cases (s.eng e).mmuOwner with ho | ⟨k, ho⟩
  · have hnone : h.clients.pend e = none := (hk.portOk e).idle ho
    rw [hr] at hnone; cases hnone
  · obtain ⟨r', hr', hva⟩ := (hk.portOk e).busy k ho
    have hsome : h.clients.pend e = some r' := hr'
    rw [hr] at hsome
    cases hsome
    exact ownVa_base hva

theorem Linked.legal (hk : s.Linked ok h) : h.clients.Legal s.mem s.mmuReq := by
  intro e r hr
  have := e.isLt
  obtain ⟨h1, h2⟩ := mmuReq_va hr
  refine ⟨.inl (hk.pend_none hr), by omega, ?_⟩
  unfold vaEngine
  omega

/-! ### One cycle -/

theorem Linked.engineIn_eq (hk : s.Linked ok h) (e : Fin 8) :
    (s.engineSys h e).engineIn (s.engineCycle e) =
      { s.engineIn e with mmuRespData := (port h e).respData (s.portCycle e) } := by
  obtain ⟨x, hi, -⟩ := hk.mmu
  have hready : (port h e).reqReady (s.portCycle e) = s.mem.mmu.reqReady s.mmuReq e := by
    cases hr : s.mem.mmu.reqReady s.mmuReq e
    · simp [VirtPort.reqReady, portCycle, hr]
    · obtain ⟨r, hreq⟩ := Option.isSome_iff_exists.1 (req_of_ready hr)
      simp [VirtPort.reqReady, portCycle, hr, port, hk.pend_none hreq]
  have hpend : ∀ {b : Bool}, b = true → (b = true → s.mem.answered e = true) → (h.clients.pend e).isSome = true :=
    fun hb ha => hi.pend_of_answered (ha hb)
  have hvalid : (port h e).respValid (s.portCycle e) = (s.mem.mmu.resp e).isSome := by
    cases hr : (s.mem.mmu.resp e).isSome
    · cases hj : s.mem.mmu.respReject e <;> simp [VirtPort.respValid, portCycle, hr, hj]
    · have := hpend hr fun _ => by simp [MmuSys.answered, hr]
      simp [VirtPort.respValid, portCycle, hr, port, this]
  have hreject : (port h e).respReject (s.portCycle e) = s.mem.mmu.respReject e := by
    cases hj : s.mem.mmu.respReject e
    · cases hr : (s.mem.mmu.resp e).isSome <;> simp [VirtPort.respReject, portCycle, hr, hj]
    · have hr : (s.mem.mmu.resp e).isSome = false := by
        by_contra hr
        rw [hi.one_answer (Bool.not_eq_false _ ▸ hr)] at hj; cases hj
      have := hpend hj fun _ => by simp [MmuSys.answered, hj]
      simp [VirtPort.respReject, portCycle, hr, hj, port, this]
  simp only [EngineSys.engineIn, engineSys, engineCycle, hready, hvalid, hreject, engineIn]

theorem Linked.respData_eq (hk : s.Linked ok h) (hr : (s.mem.mmu.resp e).isSome = true) :
    (port h e).respData (s.portCycle e) = (s.engineIn e).mmuRespData := by
  obtain ⟨x, hi, hd⟩ := hk.mmu
  obtain ⟨d, hresp⟩ := Option.isSome_iff_exists.1 hr
  obtain ⟨r, hp, hdat⟩ := hd.answer hi hresp
  have hown := hk.pend_va hp
  simp only [VirtPort.respData, port, hp, portCycle, engineIn, hresp, Option.getD_some, hown, if_true]
  cases hw : r.wr with
  | true => rfl
  | false =>
    rw [hw] at hdat
    simp only [Bool.false_eq_true, if_false] at hdat ⊢
    cases hm : h.clients.mem (ptKey r.va) with
    | none => rfl
    | some v => rw [hm] at hdat; exact hdat.symm

theorem Linked.eng_tick (hk : s.Linked ok h) (e : Fin 8) :
    (s.eng e).step e.val ((s.engineSys h e).engineIn (s.engineCycle e)) = (s.eng e).step e.val (s.engineIn e) := by
  rw [hk.engineIn_eq]
  cases hr : (s.mem.mmu.resp e).isSome with
  | true => rw [hk.respData_eq hr]
  | false => exact SymbolEngine.step_data _ _ _ _ hr

theorem Linked.port_tick (hk : s.Linked ok h) (e : Fin 8) :
    port (h.next s) e = (port h e).step (s.portCycle e) (s.mmuReq e) := by
  obtain ⟨x, hi, -⟩ := hk.mmu
  cases hp : h.clients.pend e with
  | none =>
    have hno : s.mem.answered e = false := by
      by_contra ha
      have := hi.pend_of_answered (by simpa using ha)
      rw [hp] at this; cases this
    have hout : (port h e).out = none := hp
    simp only [VirtPort.step, hout]
    refine congrArg₂ VirtPort.mk (funext fun va => ?_) ?_
    · by_cases hown : OwnVa e va
      · simp only [hown, if_true, port, History.next, Clients.next, hown.keyEngine, hp]
      · simp only [hown, if_false, port]
    · simp only [History.next, Clients.next, hno, hp, Bool.false_eq_true, if_false, MmuSys.accepted, portCycle]
      by_cases hr : s.mem.mmu.reqReady s.mmuReq e = true
      · simp only [hr, if_true]
        cases s.mmuReq e <;> rfl
      · simp only [hr]; rfl
  | some r =>
    have hout : (port h e).out = some r := hp
    have hown := hk.pend_va hp
    have hacc : s.mem.accepted s.mmuReq e = none := by
      cases hreq : s.mmuReq e with
      | none => simp [MmuSys.accepted, hreq]
      | some r' => rw [hk.pend_none hreq] at hp; cases hp
    have hpend : (h.next s).clients.pend e = if s.mem.answered e then none else some r := by
      simp only [History.next, Clients.next, hacc, hp]; rfl
    have hmem : ∀ va, OwnVa e va → (h.next s).clients.mem (ptKey va) =
        if (s.mem.mmu.resp e).isSome = true ∧ r.wr = true ∧ r.va = va then some r.wdata
        else h.clients.mem (ptKey va) := by
      intro va hva
      simp only [History.next, Clients.next, hva.keyEngine, hp, hown.ptKey_inj hva]
    simp only [VirtPort.step, hout, portCycle]
    cases hr : (s.mem.mmu.resp e).isSome with
    | true =>
      have ha : s.mem.answered e = true := by simp [MmuSys.answered, hr]
      simp only [if_true]
      refine congrArg₂ VirtPort.mk (funext fun va => ?_) (by rw [hpend, ha]; rfl)
      by_cases hva : OwnVa e va
      · simp only [port, hva, if_true, hmem va hva, hr, true_and]
        cases hw : r.wr with
        | false => simp [hva]
        | true =>
          by_cases heq : r.va = va
          · subst heq; simp
          · simp [heq, update_of_ne (Ne.symm heq), hva]
      · have hne : va ≠ r.va := fun hc => hva (hc ▸ hown)
        cases hw : r.wr <;> simp [port, hva, update_of_ne hne]
    | false =>
      have hsame : (fun va => if OwnVa e va then (h.next s).clients.mem (ptKey va) else none) = (port h e).mem := by
        funext va
        by_cases hva : OwnVa e va
        · simp only [hva, if_true, hmem va hva, hr, Bool.false_eq_true, false_and, if_false, port]
        · simp only [hva, if_false, port]
      cases hj : s.mem.mmu.respReject e with
      | true =>
        have ha : s.mem.answered e = true := by simp [MmuSys.answered, hj]
        simp only [Bool.false_eq_true, if_false, if_true]
        exact congrArg₂ VirtPort.mk hsame (by rw [hpend, ha]; rfl)
      | false =>
        have ha : s.mem.answered e = false := by simp [MmuSys.answered, hr, hj]
        simp only [Bool.false_eq_true, if_false]
        exact congrArg₂ VirtPort.mk hsame (by rw [hpend, ha]; exact hp.symm)

/-- A clock edge of the design is a clock edge of each engine with its port. -/
theorem Linked.engineSys_tick (hk : s.Linked ok h) (i : TopIn) (e : Fin 8) :
    (s.tick i).engineSys (h.next s) e = (s.engineSys h e).step e.val (s.engineCycle e) := by
  have htake : (s.eng e).takesOrder ((s.engineSys h e).engineIn (s.engineCycle e)) =
      (s.eng e).takesOrder (s.engineIn e) := rfl
  have heng : ((s.tick i).eng e) = ((s.engineSys h e).step e.val (s.engineCycle e)).eng := (hk.eng_tick e).symm
  show EngineSys.mk _ _ _ _ = EngineSys.mk _ _ _ _
  rw [EngineSys.mk.injEq]
  exact ⟨heng, hk.port_tick e, rfl, rfl⟩

/-- What an engine's heap holds when it is idle, by side. -/
def resting (s : Top) (h : History) (e : Fin 8) (bid : Bool) : Multiset Node :=
  (s.engineSys h e).stored e.val (EngineSys.kindOf bid)

/-- The order that engine `e` takes, if any, is `ok` beside the resting ones. -/
def Takes (ok : (Bool → Multiset Node) → Node → Prop) (s : Top) (h : History) : Prop :=
  ∀ e, (s.eng e).takesOrder (s.engineIn e) = true →
    ok (s.resting h e) (packOrder (s.disp.orderOut e) (symbolOf e.val) s.nowTs)

theorem Linked.written_tick (hk : s.Linked ok h) (k : Nat) (hm : ((h.next s).clients.mem k).isSome = true) :
    ((s.mem.step s.mmuReq).mmu.pageTable k).valid = true := by
  obtain ⟨x, hi, -⟩ := hk.mmu
  have hvalid : (s.mem.mmu.pageTable k).valid = true := by
    rcases hi.mem_cases s.mmuReq k with ⟨b, hv, -, rfl, -⟩ | ⟨-, hsame⟩
    · exact ((hi.track b).bufSlot hv).1
    · have hsame : (h.next s).clients.mem k = h.clients.mem k := hsame
      rw [hsame] at hm
      exact hk.written k hm
  rw [hi.pt_keep hvalid]
  exact hvalid

/-- The slots of a partition do not suffice for 1025 nodes. -/
theorem not_mapped (ht : TableOk s.mem.mmu.pageTable)
    (hw : ∀ k, (h.clients.mem k).isSome = true → (s.mem.mmu.pageTable k).valid = true) (e : Fin 8) (k : HeapKind) :
    ¬ ((s.engineSys h e).view e.val k).Mapped 1025 := by
  intro hmap
  have := e.isLt
  refine ht.partition_full (e.val * 2 + k.bit) fun j hj => hw _ ?_
  have hsome := hmap j (by unfold privateNodes; omega)
  have hbit : k.bit < 2 := by cases k <;> decide
  simp only [EngineSys.view, VirtPort.slice, engineSys, port, HeapCfg.base] at hsome
  rw [if_pos (by omega)] at hsome
  split at hsome
  · have hkey : ptKey (e.val % 8 * 2 ^ 29 + k.bit * 2 ^ 10 + j) = (e.val * 2 + k.bit) * 2 ^ 10 + j := by
      unfold ptKey; omega
    rw [hkey] at hsome
    exact hsome
  · cases hsome

theorem Linked.tick (hk : s.Linked ok h) (hf : FreshAlloc s.mem.mmu) (hok : Takes ok s h) (i : TopIn) :
    (s.tick i).Linked ok (h.next s) := by
  obtain ⟨x, hi, hd⟩ := hk.mmu
  have hi' := hi.step hk.legal hf
  refine ⟨⟨x.next _, hi', hd.step hi hf⟩, hk.written_tick, hk.log.tick i, fun e => ?_⟩
  obtain ⟨ps, g, hinv, hdeals⟩ := hk.eng e
  have hcap : ∀ k, (((s.engineSys h e).step e.val (s.engineCycle e)).eng.heap k).size ≤ 1024 := fun k => by
    refine (hinv.heap k).size_step (hinv.port.view_step (s.engineCycle e) hinv.serial.silent) ?_
    rw [← hk.engineSys_tick i e]
    exact not_mapped (s := s.tick i) hi'.table hk.written_tick e k
  have hpool : (s.eng e).takesOrder (s.engineIn e) = true → EngineSys.pool g = s.resting h e := fun ht => by
    have hidle : (s.eng e).tstate = .idle := by
      simp only [SymbolEngine.takesOrder, Bool.and_eq_true, decide_eq_true_iff] at ht; exact ht.1
    exact funext fun bid => (hinv.stored_eq hidle _).symm
  have hnext := hinv.step hcap fun ht => by rw [hpool ht]; exact hok e ht
  rw [← hk.engineSys_tick i e] at hnext
  refine ⟨_, _, hnext, ?_⟩
  rw [hk.log.deals_next hdeals i]
  refine congrArg (· ++ _) ?_
  unfold EngineSys.nextPairs
  show _ = List.map pairOf (if (s.eng e).hands (s.engineIn e) then ps ++ [_] else ps)
  by_cases hh : (s.eng e).hands (s.engineIn e) = true
  · simp only [hh, if_true, List.map_append, List.map_singleton]; rfl
  · simp only [Bool.not_eq_true] at hh
    simp only [hh, Bool.false_eq_true, if_false, List.append_nil]

theorem engineSys_reset (s : Top) (r0 r1 : Bool) (e : Fin 8) :
    engineSys { s.reset with rstPipe0 := r0, rstPipe1 := r1 } .fresh e = .init (s.eng e).priv := by
  have hmem : (port .fresh e).mem = fun _ => none := funext fun va => by
    simp only [port, History.fresh, Clients.fresh, ite_self]
  show EngineSys.mk _ ⟨(port .fresh e).mem, none⟩ _ _ = _
  rw [hmem]
  rfl

theorem Linked.reset (s : Top) (ht : TableOk s.mem.mmu.pageTable) (r0 r1 : Bool) :
    Linked ok { s.reset with rstPipe0 := r0, rstPipe1 := r1 } .fresh := by
  have hq := MmuSys.quiet_reset s.mem
  refine ⟨⟨.start _ none, hq.inv ht, hq.dataOk fun z hz => (by cases hz)⟩, fun k hm => (by cases hm),
    .reset s r0 r1, fun e => ⟨[], fun _ => ⟨0, none⟩, ?_, rfl⟩⟩
  rw [engineSys_reset]
  exact EngineSys.init_inv

/-- Every clock edge of the run that is not a reset starts in a state with `P`. -/
def Along (P : Top → History → Prop) (is : List TopIn) : Prop :=
  ∀ js j, js ++ [j] <+: is → (run js).1.inReset j = false → P (run js).1 (run js).2

theorem Along.init {P : Top → History → Prop} {is : List TopIn} (hP : Along P (is ++ [i])) :
    Along P is ∧ ((run is).1.inReset i = false → P (run is).1 (run is).2) :=
  ⟨fun js j hp => hP js j (hp.trans (List.prefix_append _ _)), hP is i (List.prefix_refl _)⟩

/-- The slots handed out by the MMU are not in use. -/
def Unused (s : Top) (_ : History) : Prop := FreshAlloc s.mem.mmu

theorem run_linked (ok : (Bool → Multiset Node) → Node → Prop) (is : List TopIn) (hf : Along Unused is) (hok : Along (Takes ok) is) :
    (run is).1.Linked ok (run is).2 := by
  induction is using List.reverseRecOn with
  | nil => exact Linked.reset powerUp MmuSys.tableOk_powerUp false false
  | append_singleton is i ih =>
    have hk := ih hf.init.1 hok.init.1
    rw [run_snoc, next]
    cases hin : (run is).1.inReset i with
    | true =>
      obtain ⟨r0, r1, hs⟩ := step_of_inReset hin
      obtain ⟨x, hi, -⟩ := hk.mmu
      rw [hs]; exact .reset _ hi.table _ _
    | false => rw [step_of_not_inReset hin]; exact hk.tick (hf.init.2 hin) (hok.init.2 hin) i

/-! ### Runs without a reset -/

/-- Without a reset after power-up the MMU never hands out a slot twice. -/
theorem unused_of_keys (is : List TopIn) (hkey : ∀ i ∈ is, i.key.getLsbD 0 = true) :
    Along Unused is ∧ MmuSys.AllocInv (run is).1.mem.mmu ∧ ((run is).1.rstPipe1 = true → (run is).1.rstPipe0 = true) ∧
      ((run is).1.rstPipe1 = false → ∀ k, ((run is).1.mem.mmu.pageTable k).valid = false) := by
  induction is using List.reverseRecOn with
  | nil =>
    refine ⟨fun js j hp => ?_, MmuSys.allocInv_powerUp, fun hc => (by cases hc), fun _ _ => rfl⟩
    exact absurd (List.prefix_nil.1 hp) (by simp)
  | append_singleton is i ih =>
    obtain ⟨hun, ha, hr, hpt⟩ := ih fun j hj => hkey j (by simp [hj])
    have hk := run_linked (fun _ _ => True) is hun fun _ _ _ _ _ _ => trivial
    obtain ⟨x, hi, -⟩ := hk.mmu
    have hi0 : i.key.getLsbD 0 = true := hkey i (by simp)
    refine ⟨fun js j hp hin => ?_, ?_⟩
    · rcases List.prefix_concat_iff.1 hp with heq | hp
      · rw [List.append_inj_left heq (by simpa using congrArg List.length heq)]
        exact ha.fresh hi
      · exact hun js j hp hin
    rw [run_snoc, next]
    cases h1 : (run is).1.rstPipe1 with
    | false =>
      have hs : (run is).1.step i = { (run is).1.reset with rstPipe0 := true, rstPipe1 := (run is).1.rstPipe0 } := by
        unfold step
        rw [if_neg (by simp [hi0]), if_pos h1]
      rw [hs]
      exact ⟨MmuSys.allocInv_of_unmapped (hpt h1) fun _ => rfl, fun _ => rfl, fun _ => hpt h1⟩
    | true =>
      have hin : (run is).1.inReset i = false := by simp only [inReset, hi0, h1]; rfl
      rw [step_of_not_inReset hin]
      refine ⟨ha.step hi _, fun _ => rfl, fun hc => ?_⟩
      have hc : (run is).1.rstPipe0 = false := hc
      rw [hr h1] at hc; cases hc

end Top

end HftSim
