import HftSim.EngineSys
import HftSim.HeapRank
import HftSim.MmuDelivery

/-!
# What an engine takes from its partitions

A walker allocates on a miss, whatever the access is for. `PageSys` is one engine at its port of the MMU, with
any other clients at the remaining ports and the high-water marks of the two heaps: how far their virtual parts
have reached so far, the node of a `PUSH` in progress included.
-/

namespace HftSim

open Function

namespace HeapFsm

/-- A `PUSH` is in progress. -/
def pushing (h : HeapFsm) : Bool :=
  match h.state with
  | .pushLaunch | .pushRdParentIssue | .pushRdParentWait | .pushDecide | .pushWrDownIssue
  | .pushWrDownWait | .pushWrFinalIssue | .pushWrFinalWait => true
  | _ => false

/-- The nodes of the heap, with the one that a `PUSH` in progress brings. -/
def reach (h : HeapFsm) : Nat := if h.pushing then h.size + 1 else h.size

/-- What the index registers are good for: a `PUSH` stays within the heap and its new leaf, a sift-down within
the heap. -/
def Within (cfg : HeapCfg) (h : HeapFsm) : Prop :=
  match h.state with
  | .pushLaunch | .pushRdParentIssue | .pushRdParentWait | .pushDecide | .pushWrDownIssue
  | .pushWrDownWait | .pushWrFinalIssue | .pushWrFinalWait => h.targetIdx ≤ h.size ∧ h.parentIdx ≤ h.size
  | .popRdRootIssue | .popRdRootWait => 0 < h.size
  | .popRdLastIssue | .popRdLastWait => 2 ≤ h.size
  | .popSiftRdLeftIssue | .popSiftRdLeftWait | .popSiftRdRightIssue | .popSiftRdRightWait | .popSiftDecide
  | .popSiftWrFinalIssue | .popSiftWrFinalWait => h.targetIdx < h.size
  | .popSiftWrUpIssue | .popSiftWrUpWait => h.targetIdx < h.size ∧ h.best cfg ≠ .cur
  | _ => True

variable {cfg : HeapCfg} {h : HeapFsm} {i : HeapIn}

theorem size_lt_step (hs : h.size < 2 ^ 11) : (h.step cfg i).size < 2 ^ 11 := by
  have hlast : ∀ x, (h.takeLast x).size < 2 ^ 11 := fun _ => Nat.mod_lt _ (by omega)
  have hmod : (h.size + 1) % 2 ^ 11 < 2 ^ 11 := Nat.mod_lt _ (by omega)
  show (h.regs cfg i).size < 2 ^ 11
  cases hst : h.state <;> simp only [regs, hst] <;> (try exact hs) <;> (try split) <;> (try split) <;>
    simp_all [descendTo]

/-- A `PUSH` starts at the new leaf. -/
theorem within_start (hst : h.state = .idle ∨ h.state = .done) : (h.step cfg i).Within cfg := by
  rcases hst with hst | hst
  · simp only [step, nState, regs, hst]
    by_cases hv : i.cmdValid = true
    · cases hop : i.cmdOp <;> simp only [hv, if_true] <;> try split_ifs
      all_goals simp_all [Within]
      omega
    · simp only [hv]; trivial
  · simp only [step, nState, hst]; trivial

theorem within_push (hw : h.Within cfg) (hp : h.pushing = true) : (h.step cfg i).Within cfg := by
  cases hst : h.state <;> simp only [pushing, hst] at hp <;> try cases hp
  all_goals
    simp only [Within, hst] at hw
    simp only [step, nState, regs, issueTo, hst]
    split_ifs <;> simp_all [Within] <;> omega

theorem within_head (hw : h.Within cfg) (hs : h.size < 2 ^ 11) (hst : h.state = .popLaunch ∨
    h.state = .popRdRootIssue ∨ h.state = .popRdRootWait ∨ h.state = .popRdLastIssue ∨ h.state = .popRdLastWait) :
    (h.step cfg i).Within cfg := by
  have hlast : 2 ≤ h.size → ∀ x, (h.takeLast x).targetIdx < (h.takeLast x).size := fun _ x => by
    show 0 < h.sizeMinusOne
    unfold sizeMinusOne
    omega
  rcases hst with hst | hst | hst | hst | hst <;> simp only [Within, hst] at hw <;>
    simp only [step, nState, regs, issueTo, hst] <;> split_ifs <;> simp_all [Within] <;> omega

theorem within_read (hw : h.Within cfg) (hst : h.state = .popSiftRdLeftIssue ∨ h.state = .popSiftRdLeftWait ∨
    h.state = .popSiftRdRightIssue ∨ h.state = .popSiftRdRightWait ∨ h.state = .popSiftWrFinalIssue ∨
    h.state = .popSiftWrFinalWait) : (h.step cfg i).Within cfg := by
  rcases hst with hst | hst | hst | hst | hst | hst <;> simp only [Within, hst] at hw <;>
    simp only [step, nState, regs, issueTo, hst] <;> split_ifs <;> simp_all [Within]

theorem within_descend (hw : h.Within cfg) (hst : h.state = .popSiftDecide ∨ h.state = .popSiftWrUpIssue ∨
    h.state = .popSiftWrUpWait) : (h.step cfg i).Within cfg := by
  have hin : h.inPopSift = true := by rcases hst with hst | hst | hst <;> simp [inPopSift, hst]
  have hbest := @best_of_regs cfg h i hin
  rcases hst with hst | hst | hst <;> simp only [Within, hst] at hw
  · simp only [step, nState, regs, hst, inPopSift] at hbest ⊢
    split_ifs <;> simp_all [Within]
  · simp only [step, nState, regs, issueTo, hst, inPopSift] at hbest ⊢
    split_ifs <;> simp_all [Within]
  · have hlt := best_lt hw.2
    by_cases hd : h.writeDone i = true
    · simp only [step, nState, regs, hst, hd, if_true, Within, descendTo, cacheTarget_size]
      exact hlt
    · simp only [step, nState, regs, hst, hd, inPopSift] at hbest ⊢
      split_ifs <;> simp_all [Within]

theorem Within.step (hw : h.Within cfg) (hs : h.size < 2 ^ 11) (i : HeapIn) : (h.step cfg i).Within cfg := by
  have hroot : h.state = .peekRdIssue ∨ h.state = .peekRdWait ∨ h.state = .updateWrIssue ∨
      h.state = .updateWrWait → (h.step cfg i).Within cfg := by
    rintro (hst | hst | hst | hst) <;> simp only [HeapFsm.step, nState, regs, issueTo, hst] <;> split_ifs <;> trivial
  cases hst : h.state <;> first
    | refine within_start ?_; simp [hst]; done
    | refine within_push hw ?_; simp [pushing, hst]; done
    | refine within_head hw hs ?_; simp [hst]; done
    | refine within_read hw ?_; simp [hst]; done
    | refine within_descend hw ?_; simp [hst]; done
    | refine hroot ?_; simp [hst]

/-- A read of a child the heap does not have. -/
def beyond (h : HeapFsm) : Bool :=
  (decide (h.state = .popSiftRdLeftIssue) || decide (h.state = .popSiftRdRightIssue)) && decide (h.size ≤ h.memIdx)

/-- Every other access stays within the heap and a new leaf. -/
theorem Within.memIdx_lt (hw : h.Within cfg) (hs : h.size < 2 ^ 11) (hv : h.virtReqValid = true)
    (hb : h.beyond = false) : privateNodes ≤ h.memIdx ∧ h.memIdx < h.reach := by
  have hpriv : privateNodes ≤ h.memIdx := by
    simp only [virtReqValid, memTargetPriv, isPrivate, Bool.and_eq_true, Bool.not_eq_true', decide_eq_false_iff_not,
      not_lt] at hv
    exact hv.2
  refine ⟨hpriv, ?_⟩
  have h64 : 0 < privateNodes := by decide
  cases hst : h.state <;> simp only [virtReqValid, effectiveRead, memDoRead, memDoWrite, hst, Bool.false_and,
    Bool.false_or, Bool.or_self, Bool.false_eq_true] at hv <;>
    simp only [Within, hst] at hw <;> simp only [memIdx, hst] at hpriv <;>
    simp [beyond, reach, pushing, memIdx, hst, sizeMinusOne] at hb ⊢ <;> omega

end HeapFsm

structure PageSys where
  eng : SymbolEngine
  mem : MmuSys
  clients : Clients
  mark : HeapKind → Nat

/-- What the outside does in one cycle. -/
structure PageIn where
  nowTs : BitVec 32
  orderInValid : Bool
  orderInData : DispatchOrder
  tradeOutReady : Bool
  others : Fin 8 → Option Req

namespace PageSys

def init (b : PrivBram) : PageSys := ⟨.reset b, .powerUp, .fresh, fun _ => 0⟩

variable (e : Fin 8) (s : PageSys) (i : PageIn)

/-- The requests at the ports: the other clients ask for addresses of their own, one at a time. -/
def req (f : Fin 8) : Option Req :=
  if f = e then s.eng.mmuReq e.val
  else if (s.clients.pend f).isSome && !s.mem.answered f then none
  else (i.others f).map fun r => { r with va := f.val * 2 ^ 29 + r.va % 2 ^ 29 }

def engineIn : EngineIn where
  nowTs := i.nowTs
  orderInValid := i.orderInValid
  orderInData := i.orderInData
  tradeOutReady := i.tradeOutReady
  mmuReqReady := s.mem.mmu.reqReady (s.req e i) e
  mmuRespData := (s.mem.mmu.resp e).getD 0
  mmuRespValid := (s.mem.mmu.resp e).isSome
  mmuRespReject := s.mem.mmu.respReject e

def step : PageSys where
  eng := s.eng.step e.val (s.engineIn e i)
  mem := s.mem.step (s.req e i)
  clients := s.clients.next s.mem (s.req e i)
  mark k := max (s.mark k) (((s.eng.step e.val (s.engineIn e i)).heap k).reach - privateNodes)

def run (b : PrivBram) (is : List PageIn) : PageSys := is.foldl (step e) (init b)

/-- The partition of heap `k`. -/
def partition (k : HeapKind) : Nat := e.val * 2 + k.bit

/-- In this cycle the MMU takes a read of a child that heap `k` does not have, and will find a slot for it. -/
def Strays (k : HeapKind) : Prop :=
  (s.eng.heap k).beyond = true ∧ (s.eng.grant k && (s.engineIn e i).mmuReqReady) = true ∧
    (s.mem.mmu.pageTable (ptKey (makeVa ⟨k, e.val⟩ (s.eng.heap k).memIdx))).valid = false ∧
    (s.mem.mmu.part (partition e k)).full = false

/-- An access to virtual node `j` of heap `k` takes no slot from beyond the mark. -/
def Covered (k : HeapKind) (j : Nat) : Prop :=
  (s.mem.mmu.pageTable (partition e k * 2 ^ 10 + j)).valid = true ∨ j < s.mark k ∨
    (s.mem.mmu.part (partition e k)).full = true

structure Inv : Prop where
  mem : Run s.mem s.clients
  owner : s.eng.mmuOwner = .idle ↔ s.clients.pend e = none
  size : ∀ k, (s.eng.heap k).size < 2 ^ 11
  fsm : ∀ k, (s.eng.heap k).Within ⟨k, e.val⟩
  mark : ∀ k, (s.eng.heap k).reach - privateNodes ≤ s.mark k
  asked : ∀ r, s.clients.pend e = some r → ∃ k j, r.va = HeapCfg.base ⟨k, e.val⟩ + j ∧ j < 2 ^ 10 ∧ s.Covered e k j
  table : ∀ k j, (s.mem.mmu.pageTable (partition e k * 2 ^ 10 + j)).valid = true → j < 2 ^ 10 → j < s.mark k

variable {e s i} {b : PrivBram} {k : HeapKind}

theorem run_snoc (is : List PageIn) : run e b (is ++ [i]) = (run e b is).step e i := by
  simp [run, List.foldl_append]

theorem ptKey_base {j : Nat} (hj : j < 2 ^ 10) :
    ptKey (HeapCfg.base ⟨k, e.val⟩ + j) = partition e k * 2 ^ 10 + j ∧ HeapCfg.base ⟨k, e.val⟩ + j < 2 ^ 32 ∧
      vaEngine (HeapCfg.base ⟨k, e.val⟩ + j) = e.val := by
  have := e.isLt
  unfold ptKey partition vaEngine HeapCfg.base
  cases k <;> simp only [HeapKind.bit] <;> omega

/-- Every request of the engine comes from one of the heaps. -/
theorem mmuReq_grant {n : Nat} {eng : SymbolEngine} {r : Req} (hr : eng.mmuReq n = some r) :
    ∃ k, eng.grant k = true ∧ r = (eng.heap k).virtReq ⟨k, n⟩ := by
  unfold SymbolEngine.mmuReq at hr
  split_ifs at hr with hb ha
  · exact ⟨.maxHeap, hb, (Option.some.inj hr).symm⟩
  · exact ⟨.minHeap, ha, (Option.some.inj hr).symm⟩

theorem req_self : s.req e i e = s.eng.mmuReq e.val := if_pos rfl

theorem Inv.legal (h : s.Inv e) (i : PageIn) : s.clients.Legal s.mem (s.req e i) := by
  intro f r hr
  by_cases hf : f = e
  · subst hf
    rw [req_self] at hr
    obtain ⟨k, hg, rfl⟩ := mmuReq_grant hr
    have hva := makeVa_eq ⟨k, f.val⟩ (s.eng.heap k).memIdx
    have hj := ptKey_base (e := f) (k := k) (Nat.mod_lt (makeVa ⟨k, f.val⟩ (s.eng.heap k).memIdx) (by omega))
    rw [← hva] at hj
    exact ⟨.inl (h.owner.1 (SymbolEngine.grant_eq_true (n := f.val) hg).1), hj.2⟩
  · have := f.isLt
    simp only [req, hf, if_false] at hr
    split at hr
    · cases hr
    · rename_i hfree
      obtain ⟨r', -, rfl⟩ := Option.map_eq_some_iff.1 hr
      simp only [Bool.and_eq_true, Bool.not_eq_true', not_and, Bool.not_eq_false] at hfree
      refine ⟨?_, ?_, ?_⟩
      · cases hp : s.clients.pend f with
        | none => exact .inl rfl
        | some _ => exact .inr (hfree (by rw [hp]; rfl))
      · show f.val * 2 ^ 29 + r'.va % 2 ^ 29 < 2 ^ 32
        omega
      · show (f.val * 2 ^ 29 + r'.va % 2 ^ 29) / 2 ^ 29 % 2 ^ 3 = f.val
        omega

theorem mmuReq_of_busy {n : Nat} {eng : SymbolEngine} (ho : eng.mmuOwner ≠ .idle) : eng.mmuReq n = none := by
  cases hr : eng.mmuReq n with
  | none => rfl
  | some r =>
    obtain ⟨k, hg, -⟩ := mmuReq_grant hr
    exact absurd (SymbolEngine.grant_eq_true (n := n) hg).1 ho

/-- The request that the MMU takes from the engine is the granted heap's. -/
theorem accepted_eq_some {r : Req} : s.mem.accepted (s.req e i) e = some r ↔
    ∃ k, (s.eng.grant k && (s.engineIn e i).mmuReqReady) = true ∧ r = (s.eng.heap k).virtReq ⟨k, e.val⟩ := by
  unfold MmuSys.accepted
  rw [req_self]
  show (if (s.engineIn e i).mmuReqReady = true then _ else _) = _ ↔ _
  cases hr : (s.engineIn e i).mmuReqReady with
  | false => simp
  | true =>
    simp only [if_true, Bool.and_true]
    constructor
    · exact mmuReq_grant
    · rintro ⟨k, hg, rfl⟩
      exact (SymbolEngine.grant_eq_true hg).2.2

theorem Inv.owner_step (h : s.Inv e) (i : PageIn) :
    (s.step e i).eng.mmuOwner = .idle ↔ (s.step e i).clients.pend e = none := by
  show s.eng.nOwner (s.engineIn e i) = .idle ↔ (if (s.mem.accepted (s.req e i) e).isSome then _ else _) = _
  by_cases ho : s.eng.mmuOwner = .idle
  · have hp := h.owner.1 ho
    have hown := fun k => SymbolEngine.nOwner_of_idle (i := s.engineIn e i) (k := k) ho
    cases hacc : s.mem.accepted (s.req e i) e with
    | none =>
      simp only [Option.isSome_none, Bool.false_eq_true, hp, ite_self, iff_true]
      rcases EngineSys.owner_cases (s.eng.nOwner (s.engineIn e i)) with hn | ⟨k, hn⟩
      · exact hn
      · have := accepted_eq_some.2 ⟨k, (hown k).1 hn, rfl⟩
        rw [hacc] at this
        cases this
    | some r =>
      obtain ⟨k, hg, -⟩ := accepted_eq_some.1 hacc
      rw [(hown k).2 hg]
      simp [EngineSys.owner_ne_idle]
  · have hacc : s.mem.accepted (s.req e i) e = none := by
      unfold MmuSys.accepted
      rw [req_self, mmuReq_of_busy ho, ite_self]
    rw [SymbolEngine.nOwner_of_busy ho, hacc]
    show (if s.mem.answered e = true then _ else _) = _ ↔ _
    cases s.mem.answered e with
    | true => simp
    | false => simpa using h.owner

theorem Covered.step {j : Nat} (hc : s.Covered e k j) (h : s.Inv e) (i : PageIn) : (s.step e i).Covered e k j := by
  obtain ⟨-, x, hi⟩ := h.mem.alloc
  rcases hc with hv | hj | hf
  · refine .inl ?_
    show ((s.mem.step (s.req e i)).mmu.pageTable _).valid = true
    rw [hi.pt_keep hv]
    exact hv
  · exact .inr (.inl (Nat.lt_of_lt_of_le hj (Nat.le_max_left _ _)))
  · refine .inr (.inr ?_)
    show ((s.mem.step (s.req e i)).mmu.part _).full = true
    rcases hi.part_cases (s.req e i) (partition e k) with ⟨w, key, hk, hp, -⟩ | ⟨-, he⟩
    · have hav := hk.avail
      rw [← hi.partition_eq hk.busy, hk.2, hp, hf] at hav
      cases hav
    · rw [he]
      exact hf

/-- A request that does not stray is for a mapped node or for one below the mark. -/
theorem Inv.covered (h : s.Inv e) (hs : ¬ s.Strays e i k)
    (hg : (s.eng.grant k && (s.engineIn e i).mmuReqReady) = true) :
    s.Covered e k (makeVa ⟨k, e.val⟩ (s.eng.heap k).memIdx % 2 ^ 10) := by
  have hlt : makeVa ⟨k, e.val⟩ (s.eng.heap k).memIdx % 2 ^ 10 < 2 ^ 10 := Nat.mod_lt _ (by omega)
  have hkey := (ptKey_base (e := e) (k := k) hlt).1
  rw [← makeVa_eq] at hkey
  have hgrant := hg
  simp only [Bool.and_eq_true] at hg
  cases hb : (s.eng.heap k).beyond with
  | true =>
    unfold Covered
    rw [← hkey]
    by_contra hno
    simp only [not_or, Bool.not_eq_true] at hno
    exact hs ⟨hb, hgrant, hno.1, hno.2.2⟩
  | false =>
    obtain ⟨h1, h2⟩ := (h.fsm k).memIdx_lt (h.size k) (SymbolEngine.grant_eq_true (n := e.val) hg.1).2.1 hb
    have hm := h.mark k
    refine .inr (.inl ?_)
    unfold makeVa privateNodes at *
    omega

theorem Inv.asked_step (h : s.Inv e) (hs : ∀ k, ¬ s.Strays e i k) {r : Req}
    (hr : (s.step e i).clients.pend e = some r) :
    ∃ k j, r.va = HeapCfg.base ⟨k, e.val⟩ + j ∧ j < 2 ^ 10 ∧ (s.step e i).Covered e k j := by
  have hr : (if (s.mem.accepted (s.req e i) e).isSome then s.mem.accepted (s.req e i) e
    else if s.mem.answered e then none else s.clients.pend e) = some r := hr
  split_ifs at hr with hacc
  · obtain ⟨k, hg, rfl⟩ := accepted_eq_some.1 hr
    exact ⟨k, _, makeVa_eq _ _, Nat.mod_lt _ (by omega), (h.covered (hs k) hg).step h i⟩
  · obtain ⟨k, j, hva, hj, hc⟩ := h.asked r hr
    exact ⟨k, j, hva, hj, hc.step h i⟩

/-- What a walker maps for the engine lies below the mark. -/
theorem Inv.maps_lt (h : s.Inv e) {x : MmuGhost} (hi : s.mem.Inv s.clients x) {w : Bool} {j : Nat}
    (hm : s.mem.Maps w (partition e k * 2 ^ 10 + j)) (hj : j < 2 ^ 10) : j < s.mark k := by
  have hkey := hi.key hm.busy
  rw [hm.2] at hkey
  have hpend := hi.flight.pend (MmuSys.mem_walker (x := x) hm.busy)
  have hdiv := ptKey_div (s.mem.mmu.pipe w).va
  have hbit : k.bit < 2 := by cases k <;> decide
  have heng : (⟨vaEngine (s.mem.mmu.pipe w).va, MmuSys.vaEngine_lt _⟩ : Fin 8) = e := by
    refine Fin.ext ?_
    show vaEngine (s.mem.mmu.pipe w).va = e.val
    rw [← hkey] at hdiv
    unfold partition at hdiv
    omega
  rw [heng] at hpend
  obtain ⟨k', j', hva, hj', hc⟩ := h.asked _ hpend
  rw [hva, (ptKey_base hj').1] at hkey
  obtain rfl : k = k' := by
    have : k.bit = k'.bit := by unfold partition at hkey; omega
    cases k <;> cases k' <;> first | rfl | cases this
  obtain rfl : j = j' := by omega
  rcases hc with hv | hlt | hf
  · have hinv := (hi.walk w).allocate (MmuSys.ptwAlloc_state hm.1)
    rw [hm.2, hv] at hinv
    cases hinv
  · exact hlt
  · have hav := hm.avail
    rw [← hi.partition_eq hm.busy, hm.2, show (partition e k * 2 ^ 10 + j) / 2 ^ 10 = partition e k by omega, hf] at hav
    cases hav

theorem heap_step (k : HeapKind) :
    (s.step e i).eng.heap k = (s.eng.heap k).step ⟨k, e.val⟩ (s.eng.heapIn (s.engineIn e i) k) := by
  cases k <;> rfl

theorem Inv.step (h : s.Inv e) (hs : ∀ k, ¬ s.Strays e i k) : (s.step e i).Inv e where
  mem := .step h.mem (h.legal i)
  owner := h.owner_step i
  size k := by
    rw [heap_step]
    exact HeapFsm.size_lt_step (h.size k)
  fsm k := by
    rw [heap_step]
    exact (h.fsm k).step (h.size k) _
  mark k := Nat.le_max_right _ _
  asked _ hr := h.asked_step hs hr
  table k j hv hj := by
    obtain ⟨-, x, hi⟩ := h.mem.alloc
    refine Nat.lt_of_lt_of_le ?_ (Nat.le_max_left _ _)
    rcases hi.valid_step hv with ⟨w, hm, -⟩ | ⟨hv, -⟩
    · exact h.maps_lt hi hm hj
    · exact h.table k j hv hj

theorem inv_init (b : PrivBram) : (init b).Inv e where
  mem := .powerUp
  owner := ⟨fun _ => rfl, fun _ => rfl⟩
  size k := by cases k <;> exact Nat.two_pow_pos 11
  fsm k := by cases k <;> trivial
  mark k := by cases k <;> exact Nat.zero_le _
  asked _ hr := by cases hr
  table _ _ hv := by cases hv

/-- No cycle of the run takes a stray read. -/
def NoStray (e : Fin 8) (b : PrivBram) (is : List PageIn) : Prop :=
  ∀ js i, js ++ [i] <+: is → ∀ k, ¬ (run e b js).Strays e i k

theorem run_inv {is : List PageIn} (hs : NoStray e b is) : (run e b is).Inv e := by
  induction is using List.reverseRecOn with
  | nil => exact inv_init b
  | append_singleton is i ih =>
    rw [run_snoc]
    refine (ih fun js j hp => hs js j (hp.trans (List.prefix_append _ _))).step ?_
    exact hs is i (List.prefix_refl _)

/-- A cycle with an order at time `t`. -/
def order (t : Nat) (d : DispatchOrder) : PageIn := ⟨BitVec.ofNat 32 t, true, d, true, fun _ => none⟩

end PageSys

end HftSim
