import HftSim.HeapFsm
import HftSim.Lib.BinHeap

/-!
# One heap and the memory behind it

`HeapView` is what one `heap_fsm` sees: its registers, its 64 private nodes with the BRAM's output
register, its part of virtual memory (indexed by `va[9:0]`) and its own unanswered request.
`HeapView.Step` is one clock cycle of it. The virtual port takes a request only while none is
unanswered, answers it once with `virt_resp_valid` or `virt_resp_reject` at any later time, and a
read returns the value last written, if any; a rejected request has no effect.

`node v i` is the node stored at index `i`. The `read…`/`write…` lemmas say what one cycle of an
`ISSUE` or a `WAIT` state does to it, whichever tier the index is in.
-/

namespace HftSim

open Function

/-- Sort key of a node: a smaller key sits closer to the root. -/
def HeapKind.key (kind : HeapKind) (n : Node) : Nat :=
  (match kind with
    | .maxHeap => 2 ^ 16 - 1 - (orderPrice n).toNat
    | .minHeap => (orderPrice n).toNat) * 2 ^ 32 + (orderTs n).toNat

theorem aWins_iff (kind : HeapKind) (a b : Node) : aWins kind a b = true ↔ kind.key a < kind.key b := by
  have ha := (orderPrice a).isLt
  have hb := (orderPrice b).isLt
  have hta := (orderTs a).isLt
  have htb := (orderTs b).isLt
  unfold aWins aWinsFields HeapKind.key
  by_cases hp : orderPrice a = orderPrice b
  · cases kind <;> simp only [hp, ne_eq, not_true_eq_false, if_false, decide_eq_true_eq,
      BitVec.lt_def] <;> omega
  · have hp' : (orderPrice a).toNat ≠ (orderPrice b).toNat := fun h => hp (BitVec.eq_of_toNat_eq h)
    cases kind <;> simp only [hp, ne_eq, not_false_eq_true, if_true, decide_eq_true_eq,
      BitVec.lt_def] <;> omega

theorem aWins_eq_false_iff (kind : HeapKind) (a b : Node) :
    aWins kind a b = false ↔ kind.key b ≤ kind.key a := by
  rw [← Bool.not_eq_true, aWins_iff, Nat.not_lt]

theorem HeapKind.key_congr {kind : HeapKind} {a b : Node} (hp : orderPrice a = orderPrice b)
    (ht : orderTs a = orderTs b) : kind.key a = kind.key b := by
  simp only [HeapKind.key, hp, ht]

/-- `va[9:0]` of a virtual node. -/
theorem makeVa_mod (cfg : HeapCfg) {idx : Nat} (h1 : privateNodes ≤ idx) (h2 : idx < maxNodes) :
    makeVa cfg idx % 2 ^ 10 = idx - privateNodes := by
  unfold makeVa privateNodes maxNodes at *; omega

structure HeapView where
  fsm : HeapFsm
  priv : Nat → Node
  rdata : Node
  virt : Nat → Option Node
  out : Option Req

namespace HeapView

/-- The node stored at index `i`. -/
def node (v : HeapView) (i : Nat) : Node :=
  if i < privateNodes then v.priv i
  else if i < maxNodes then (v.virt (i - privateNodes)).getD 0
  else 0

/-- One cycle of the virtual port: the request `req` is on offer, `(virt, out)` is the port before
the edge and `(virt', out')` after it. -/
inductive PortStep (i : HeapIn) (req : Option Req) (virt : Nat → Option Node) :
    Option Req → (Nat → Option Node) → Option Req → Prop
  | idle (hv : i.virtRespValid = false) (hr : i.virtRespReject = false) :
      PortStep i req virt none virt (if i.virtReqReady then req else none)
  | hold (r : Req) (hrdy : i.virtReqReady = false) (hv : i.virtRespValid = false)
      (hr : i.virtRespReject = false) : PortStep i req virt (some r) virt (some r)
  | read (r : Req) (hrdy : i.virtReqReady = false) (hv : i.virtRespValid = true)
      (hr : i.virtRespReject = false) (hw : r.wr = false)
      (hd : ∀ x, virt (r.va % 2 ^ 10) = some x → i.virtRespData = x) :
      PortStep i req virt (some r) virt none
  | write (r : Req) (hrdy : i.virtReqReady = false) (hv : i.virtRespValid = true)
      (hr : i.virtRespReject = false) (hw : r.wr = true) :
      PortStep i req virt (some r) (update virt (r.va % 2 ^ 10) (some r.wdata)) none
  | reject (r : Req) (hrdy : i.virtReqReady = false) (hv : i.virtRespValid = false)
      (hr : i.virtRespReject = true) : PortStep i req virt (some r) virt none

/-- One clock cycle. The BRAM output is only promised in the cycle after a read. -/
structure Step (cfg : HeapCfg) (i : HeapIn) (v v' : HeapView) : Prop where
  fsm : v'.fsm = v.fsm.step cfg i
  rd : i.privRdata = v.rdata
  priv : v'.priv =
    if v.fsm.privWe then update v.priv v.fsm.privAddr (v.fsm.memWdata cfg) else v.priv
  rdata : v.fsm.privRe = true → v'.rdata = v.priv v.fsm.privAddr
  port : PortStep i (if v.fsm.virtReqValid then some (v.fsm.virtReq cfg) else none)
    v.virt v.out v'.virt v'.out

/-- No unanswered write: at most a read, possibly one whose answer nobody waits for. -/
def Quiet (v : HeapView) : Prop := ∀ r, v.out = some r → r.wr = false

/-- The virtual indices below `n` have been written. -/
def Mapped (v : HeapView) (n : Nat) : Prop :=
  ∀ j, privateNodes + j < n → (v.virt j).isSome = true

/-- In a read's `WAIT` state: the answer for index `idx` is on its way. -/
def ReadWait (v : HeapView) (idx : Nat) : Prop :=
  v.Quiet ∧
    if idx < privateNodes then v.fsm.privReD1 = true ∧ v.rdata = v.node idx
    else v.fsm.privReD1 = false ∧ ∃ r, v.out = some r ∧ r.va % 2 ^ 10 = idx - privateNodes

/-- In a write's `WAIT` state: `x` is in the private BRAM already, or in the unanswered request. -/
def WriteWait (v : HeapView) (idx : Nat) (x : Node) : Prop :=
  if idx < privateNodes then v.fsm.privWeD1 = true ∧ v.node idx = x ∧ v.Quiet
  else v.fsm.privWeD1 = false ∧
    ∃ r, v.out = some r ∧ r.va % 2 ^ 10 = idx - privateNodes ∧ r.wr = true ∧ r.wdata = x

variable {cfg : HeapCfg} {i : HeapIn} {v v' : HeapView} {idx : Nat} {x : Node}

theorem node_congr (hp : v'.priv = v.priv) (hv : v'.virt = v.virt) : v'.node = v.node := by
  funext j; simp only [node, hp, hv]

theorem node_priv_update (hidx : idx < privateNodes) (hp : v'.priv = update v.priv idx x)
    (hv : v'.virt = v.virt) : v'.node = update v.node idx x := by
  funext j
  by_cases hj : j = idx
  · subst hj; simp [node, hp, hidx]
  · simp [node, hp, hv, hj]

theorem node_virt_update (h1 : privateNodes ≤ idx) (h2 : idx < maxNodes) (hp : v'.priv = v.priv)
    (hv : v'.virt = update v.virt (idx - privateNodes) (some x)) : v'.node = update v.node idx x := by
  funext j
  by_cases hj : j = idx
  · subst hj; simp [node, hv, Nat.not_lt.2 h1, h2]
  · rw [update_of_ne hj]
    simp only [node, hp, hv]
    split
    · rfl
    · rw [update_of_ne (by omega)]

theorem Step.isSome (h : Step cfg i v v') {j : Nat} (hj : (v.virt j).isSome = true) :
    (v'.virt j).isSome = true := by
  obtain ⟨fsm, rd, priv, rdata, port⟩ := h
  revert port
  generalize v'.virt = w, v'.out = o, v.out = o'
  intro port
  cases port with
  | write r =>
    by_cases hjr : j = r.va % 2 ^ 10
    · rw [hjr, update_self]; rfl
    · rw [update_of_ne hjr]; exact hj
  | _ => exact hj

theorem Step.mapped (h : Step cfg i v v') {n : Nat} (hm : v.Mapped n) : v'.Mapped n :=
  fun j hj => h.isSome (hm j hj)

/-! ### Cycles without a write -/

/-- A cycle in which the FSM writes nothing and no write is unanswered. -/
theorem Step.node_eq (h : Step cfg i v v') (hw : v.fsm.memDoWrite = false) (hq : v.Quiet) :
    v'.node = v.node ∧ v'.Quiet := by
  have hpriv : v'.priv = v.priv := by rw [h.priv]; simp [HeapFsm.privWe, hw]
  have hwr : (v.fsm.virtReq cfg).wr = false := by simp [HeapFsm.virtReq, hw]
  have hport := h.port
  unfold Quiet at hq ⊢
  generalize hv' : v'.virt = w, v'.out = o', v.out = o at hport hq ⊢
  cases hport with
  | idle =>
    refine ⟨node_congr hpriv hv', fun r hr => ?_⟩
    split at hr
    · split at hr
      · exact Option.some.inj hr ▸ hwr
      · cases hr
    · cases hr
  | hold r => exact ⟨node_congr hpriv hv', hq⟩
  | read r => exact ⟨node_congr hpriv hv', fun _ h => by cases h⟩
  | write r _ _ _ hrw => rw [hq r rfl] at hrw; cases hrw
  | reject r => exact ⟨node_congr hpriv hv', fun _ h => by cases h⟩

/-- Issuing a read of index `idx`. -/
theorem Step.read_issue (h : Step cfg i v v') (hrd : v.fsm.memDoRead = true)
    (hw : v.fsm.memDoWrite = false) (hc : v.fsm.memIdxCached = false) (hi : v.fsm.memIdx = idx)
    (hmax : idx < maxNodes) (hq : v.Quiet) (hgo : idx < privateNodes ∨ i.virtReqReady = true) :
    v'.ReadWait idx := by
  obtain ⟨hnode, hq'⟩ := h.node_eq hw hq
  have hd1 : v'.fsm.privReD1 = v.fsm.privRe := by rw [h.fsm]; rfl
  refine ⟨hq', ?_⟩
  by_cases hp : idx < privateNodes
  · have hre : v.fsm.privRe = true := by
      simp [HeapFsm.privRe, HeapFsm.effectiveRead, HeapFsm.memTargetPriv, isPrivate, hrd, hc, hi, hp]
    have haddr : v.fsm.privAddr = idx := by
      simp only [HeapFsm.privAddr, hi]; unfold privateNodes at hp; omega
    simp only [hp, if_true, hd1, hre, true_and, hnode]
    rw [h.rdata hre, haddr]
    simp [node, hp]
  · have hre : v.fsm.privRe = false := by
      simp [HeapFsm.privRe, HeapFsm.memTargetPriv, isPrivate, hi, hp]
    have hval : v.fsm.virtReqValid = true := by
      simp [HeapFsm.virtReqValid, HeapFsm.effectiveRead, HeapFsm.memTargetPriv, isPrivate, hrd, hc,
        hi, hp]
    have hrdy : i.virtReqReady = true := hgo.resolve_left hp
    simp only [hp, if_false, hd1, hre, true_and]
    have hport := h.port
    generalize v'.virt = w, v'.out = o', v.out = o at hport
    cases hport with
    | idle =>
      refine ⟨v.fsm.virtReq cfg, by simp only [hrdy, hval, if_true], ?_⟩
      simp only [HeapFsm.virtReq, hi]
      exact makeVa_mod cfg (Nat.not_lt.1 hp) hmax
    | hold r h1 | read r h1 | write r h1 | reject r h1 => rw [hrdy] at h1; cases h1

/-- One cycle of a read's `WAIT` state: the value arrives, the port rejects, or nothing happens. -/
theorem Step.read_wait (h : Step cfg i v v') (hrd : v.fsm.memDoRead = false)
    (hw : v.fsm.memDoWrite = false) (hwait : v.ReadWait idx) (hmax : idx < maxNodes)
    (hm : v.Mapped (idx + 1)) :
    (v.fsm.readDone i = true ∧ v.fsm.readData i = v.node idx) ∨
      (v.fsm.readDone i = false ∧ i.virtRespReject = true) ∨
      (v.fsm.readDone i = false ∧ i.virtRespReject = false ∧ v'.ReadWait idx) := by
  obtain ⟨hq, hwait⟩ := hwait
  obtain ⟨hnode, hq'⟩ := h.node_eq hw hq
  by_cases hp : idx < privateNodes
  · simp only [hp, if_true] at hwait
    refine .inl ⟨by simp [HeapFsm.readDone, hwait.1], ?_⟩
    simp only [HeapFsm.readData, hwait.1, if_true, h.rd, hwait.2]
  · simp only [hp, if_false] at hwait
    obtain ⟨hd1, r, hout, hva⟩ := hwait
    have hd1' : v'.fsm.privReD1 = false := by
      rw [h.fsm]; show v.fsm.privRe = false
      simp [HeapFsm.privRe, HeapFsm.effectiveRead, hrd]
    obtain ⟨y, hy⟩ := Option.isSome_iff_exists.1 (hm (idx - privateNodes) (by omega))
    have hnd : v.node idx = y := by simp [node, hp, hmax, hy]
    have hrw := hq r hout
    have hport := h.port
    rw [hout] at hport
    simp only [HeapFsm.readDone, HeapFsm.readData, hd1, Bool.false_or, Bool.false_eq_true, if_false]
    unfold ReadWait
    simp only [hp, if_false, hd1', true_and]
    generalize v'.virt = w, v'.out = o' at hport ⊢
    cases hport with
    | hold _ _ hv hr => exact .inr (.inr ⟨hv, hr, hq', r, rfl, hva⟩)
    | read _ _ hv _ _ hd => exact .inl ⟨hv, by rw [hnd]; exact hd y (by rw [hva]; exact hy)⟩
    | write _ _ _ _ hwr => rw [hrw] at hwr; cases hwr
    | reject _ _ hv hr => exact .inr (.inl ⟨hv, hr⟩)

/-! ### Writes -/

/-- Issuing a write of `x` to index `idx`: a private write lands at once, a virtual one stays in
the request until it is answered. -/
theorem Step.write_issue (h : Step cfg i v v') (hw : v.fsm.memDoWrite = true)
    (hi : v.fsm.memIdx = idx) (hx : v.fsm.memWdata cfg = x) (hmax : idx < maxNodes) (hq : v.Quiet) :
    (∀ j, j ≠ idx → v'.node j = v.node j) ∧
      (if idx < privateNodes ∨ i.virtReqReady = true then v'.WriteWait idx x
        else v'.node = v.node ∧ v'.Quiet) := by
  have hd1 : v'.fsm.privWeD1 = v.fsm.privWe := by rw [h.fsm]; rfl
  have hpriv := h.priv
  have hport := h.port
  by_cases hp : idx < privateNodes
  · have hwe : v.fsm.privWe = true := by
      simp [HeapFsm.privWe, HeapFsm.memTargetPriv, isPrivate, hw, hi, hp]
    have haddr : v.fsm.privAddr = idx := by
      simp only [HeapFsm.privAddr, hi]; unfold privateNodes at hp; omega
    have hval : v.fsm.virtReqValid = false := by
      simp [HeapFsm.virtReqValid, HeapFsm.memTargetPriv, isPrivate, hi, hp]
    rw [hwe, if_pos rfl, haddr, hx] at hpriv
    have hout : v'.virt = v.virt ∧ v'.Quiet := by
      unfold Quiet at hq ⊢
      generalize v'.virt = w, v'.out = o', v.out = o at hport hq ⊢
      cases hport with
      | idle => exact ⟨rfl, fun r hr => by simp [hval] at hr⟩
      | hold r => exact ⟨rfl, hq⟩
      | read r | reject r => exact ⟨rfl, fun _ h => by cases h⟩
      | write r _ _ _ hrw => rw [hq r rfl] at hrw; cases hrw
    have hnode := node_priv_update hp hpriv hout.1
    refine ⟨fun j hj => by rw [hnode, update_of_ne hj], ?_⟩
    rw [if_pos (.inl hp)]
    unfold WriteWait
    rw [if_pos hp]
    exact ⟨hd1.trans hwe, by rw [hnode, update_self], hout.2⟩
  · have hwe : v.fsm.privWe = false := by
      simp [HeapFsm.privWe, HeapFsm.memTargetPriv, isPrivate, hi, hp]
    have hval : v.fsm.virtReqValid = true := by
      simp [HeapFsm.virtReqValid, HeapFsm.memTargetPriv, isPrivate, hw, hi, hp]
    rw [hwe, if_neg Bool.false_ne_true] at hpriv
    have hva : (v.fsm.virtReq cfg).va % 2 ^ 10 = idx - privateNodes := by
      simp only [HeapFsm.virtReq, hi]; exact makeVa_mod cfg (Nat.not_lt.1 hp) hmax
    have hwr : (v.fsm.virtReq cfg).wr = true := by
      simp [HeapFsm.virtReq, HeapFsm.memTargetPriv, isPrivate, hw, hi, hp]
    simp only [hp, false_or]
    unfold Quiet WriteWait at *
    generalize hv' : v'.virt = w, v'.out = o', v.out = o at hport hq ⊢
    rw [if_neg hp]
    cases hport with
    | idle =>
      have hnode : v'.node = v.node := node_congr hpriv hv'
      refine ⟨fun j _ => by rw [hnode], ?_⟩
      split
      · rename_i hrdy
        exact ⟨hd1.trans hwe, v.fsm.virtReq cfg, by simp, hva, hwr, hx⟩
      · exact ⟨hnode, fun r hr => by cases hr⟩
    | hold r hrdy =>
      have hnode : v'.node = v.node := node_congr hpriv hv'
      simp only [hrdy, Bool.false_eq_true, if_false]
      exact ⟨fun j _ => by rw [hnode], hnode, hq⟩
    | read r hrdy | reject r hrdy =>
      have hnode : v'.node = v.node := node_congr hpriv hv'
      simp only [hrdy, Bool.false_eq_true, if_false]
      exact ⟨fun j _ => by rw [hnode], hnode, fun _ h => by cases h⟩
    | write r _ _ _ hrw => rw [hq r rfl] at hrw; cases hrw

/-- One cycle of a write's `WAIT` state: the write is done, the port rejects it, or nothing
happens. -/
theorem Step.write_wait (h : Step cfg i v v') (hw : v.fsm.memDoWrite = false)
    (hwait : v.WriteWait idx x) (hmax : idx < maxNodes) :
    (v.fsm.writeDone i = true ∧ v'.node = update v.node idx x ∧ v'.Quiet ∧
        (privateNodes ≤ idx → (v'.virt (idx - privateNodes)).isSome = true)) ∨
      (v.fsm.writeDone i = false ∧ i.virtRespReject = true ∧ v'.node = v.node ∧ v'.Quiet) ∨
      (v.fsm.writeDone i = false ∧ i.virtRespReject = false ∧ v'.node = v.node ∧
        v'.WriteWait idx x) := by
  unfold WriteWait at hwait
  by_cases hp : idx < privateNodes
  · rw [if_pos hp] at hwait
    obtain ⟨hd1, hx, hq⟩ := hwait
    obtain ⟨hnode, hq'⟩ := h.node_eq hw hq
    exact .inl ⟨by simp [HeapFsm.writeDone, hd1], by rw [hnode, ← hx, update_eq_self], hq',
      fun hle => absurd hp (Nat.not_lt.2 hle)⟩
  · rw [if_neg hp] at hwait
    obtain ⟨hd1, r, hout, hva, hwr, hx⟩ := hwait
    have hpriv : v'.priv = v.priv := by rw [h.priv]; simp [HeapFsm.privWe, hw]
    have hd1' : v'.fsm.privWeD1 = false := by
      rw [h.fsm]; show v.fsm.privWe = false
      simp [HeapFsm.privWe, hw]
    have hport := h.port
    rw [hout] at hport
    unfold WriteWait Quiet
    rw [if_neg hp]
    simp only [HeapFsm.writeDone, hd1, Bool.false_or, hd1', true_and]
    generalize hv' : v'.virt = w, v'.out = o' at hport ⊢
    cases hport with
    | hold _ _ hv hr => exact .inr (.inr ⟨hv, hr, node_congr hpriv hv', r, rfl, hva, hwr, hx⟩)
    | read _ _ _ _ hwr' => rw [hwr] at hwr'; cases hwr'
    | write _ _ hv _ _ =>
      rw [hva, hx] at hv' ⊢
      exact .inl ⟨hv, node_virt_update (Nat.not_lt.1 hp) hmax hpriv hv', fun _ h => (by cases h),
        fun _ => by rw [update_self]; rfl⟩
    | reject _ _ hv hr => exact .inr (.inl ⟨hv, hr, node_congr hpriv hv', fun _ h => by cases h⟩)

end HeapView

end HftSim
