import HftSim.HeapCmd

/-!
# One heap in its environment

`HeapSys` closes `heap_fsm` with its private BRAM and a virtual port that behaves as a memory:
`VirtPort` takes a request only when none is unanswered and answers it whenever the schedule says
so, with `virt_resp_valid` or `virt_resp_reject`. A `HeapCycle` is what the outside does in one
cycle, so a list of them is a command sequence together with a ready, latency and reject schedule.
-/

namespace HftSim

open Function BinHeap

/-- `priv_bram` -/
structure PrivBram where
  mem : Nat → Node
  rdata : Node

def PrivBram.step (b : PrivBram) (we re : Bool) (addr : Nat) (wdata : Node) : PrivBram where
  mem := if we then update b.mem addr wdata else b.mem
  rdata := if re then b.mem addr else b.rdata

/-- A memory behind a request port: the values written so far and the unanswered request. -/
structure VirtPort where
  mem : Nat → Option Node
  out : Option Req

/-- The port's choices in one cycle. `answer` is `some true` for `virt_resp_valid` and `some false`
for `virt_resp_reject`; `junk` is what the data lines carry when no written value is due. -/
structure PortCycle where
  ready : Bool
  answer : Option Bool
  junk : Node

namespace VirtPort

variable (p : VirtPort) (c : PortCycle)

def reqReady : Bool := p.out.isNone && c.ready

def respValid : Bool := p.out.isSome && c.answer == some true

def respReject : Bool := p.out.isSome && c.answer == some false

def respData : Node :=
  match p.out with
  | some r => if r.wr then c.junk else (p.mem r.va).getD c.junk
  | none => c.junk

/-- One clock edge with the request `req` on offer. -/
def step (req : Option Req) : VirtPort :=
  match p.out, c.answer with
  | none, _ => { p with out := if c.ready then req else none }
  | some _, none => p
  | some _, some false => { p with out := none }
  | some r, some true => ⟨if r.wr then update p.mem r.va (some r.wdata) else p.mem, none⟩

end VirtPort

/-- The values written at `base, …, base + 1023`. -/
def VirtPort.slice (p : VirtPort) (base : Nat) (j : Nat) : Option Node :=
  if j < 2 ^ 10 then p.mem (base + j) else none

/-- The first address of the heap's part of virtual memory. -/
def HeapCfg.base (cfg : HeapCfg) : Nat := cfg.engineId % 8 * 2 ^ 29 + cfg.kind.bit * 2 ^ 10

theorem makeVa_eq (cfg : HeapCfg) (idx : Nat) : makeVa cfg idx = cfg.base + makeVa cfg idx % 2 ^ 10 := by
  unfold makeVa HeapCfg.base; omega

/-- The port as a heap sees it, if the unanswered request is for the heap's own addresses: `req` is
what the heap offers, `req'` what reaches the port. -/
theorem VirtPort.portStep {p : VirtPort} {c : PortCycle} {i : HeapIn} {base : Nat}
    {req req' : Option Req} (hreq : p.out = none → req' = req) (hva : ∀ r, p.out = some r → r.va = base + r.va % 2 ^ 10)
    (hrdy : i.virtReqReady = p.reqReady c) (hval : i.virtRespValid = p.respValid c)
    (hrej : i.virtRespReject = p.respReject c) (hdat : i.virtRespData = p.respData c) :
    HeapView.PortStep i req (p.slice base) p.out ((p.step c req').slice base) (p.step c req').out := by
  obtain ⟨mem, out⟩ := p
  unfold reqReady at hrdy
  unfold respValid at hval
  unfold respReject at hrej
  unfold respData at hdat
  cases out with
  | none =>
    simp only [step]
    rw [hreq rfl, show c.ready = i.virtReqReady by simpa using hrdy.symm]
    exact .idle (by simpa using hval) (by simpa using hrej)
  | some r =>
    have hva := hva r rfl
    have hrdy' : i.virtReqReady = false := by simpa using hrdy
    have hlt : r.va % 2 ^ 10 < 2 ^ 10 := Nat.mod_lt _ (by omega)
    rcases hans : c.answer with _ | _ | _ <;> simp only [hans] at hval hrej <;> simp only [step, hans]
    · exact .hold r hrdy' hval hrej
    · exact .reject r hrdy' hval hrej
    · cases hwr : r.wr with
      | false =>
        refine .read r hrdy' hval hrej hwr fun x hx => ?_
        rw [hdat]
        simp only [slice, hlt, if_true] at hx
        simp only [hwr, Bool.false_eq_true, if_false]
        rw [hva, hx]; rfl
      | true =>
        have hupd : slice ⟨update mem r.va (some r.wdata), none⟩ base =
            update (slice ⟨mem, some r⟩ base) (r.va % 2 ^ 10) (some r.wdata) := by
          funext j
          by_cases hj : j = r.va % 2 ^ 10
          · subst hj; simp only [slice, hlt, if_true]; rw [update_self, ← hva, update_self]
          · rw [update_of_ne hj]
            simp only [slice]
            rw [update_of_ne (by omega)]
        simp only [if_true, hupd]
        exact .write r hrdy' hval hrej hwr

structure HeapSys where
  fsm : HeapFsm
  bram : PrivBram
  port : VirtPort

structure HeapCycle where
  cmdValid : Bool
  cmdOp : Op
  cmdDataIn : Node
  port : PortCycle

namespace HeapSys

/-- After reset, with any contents of the private BRAM and nothing written behind the port. -/
def init (b : PrivBram) : HeapSys := ⟨.reset, b, fun _ => none, none⟩

/-- The request on the port. -/
def req (cfg : HeapCfg) (s : HeapSys) : Option Req :=
  if s.fsm.virtReqValid then some (s.fsm.virtReq cfg) else none

def heapIn (s : HeapSys) (c : HeapCycle) : HeapIn where
  cmdValid := c.cmdValid
  cmdOp := c.cmdOp
  cmdDataIn := c.cmdDataIn
  privRdata := s.bram.rdata
  virtReqReady := s.port.reqReady c.port
  virtRespValid := s.port.respValid c.port
  virtRespData := s.port.respData c.port
  virtRespReject := s.port.respReject c.port

def step (cfg : HeapCfg) (s : HeapSys) (c : HeapCycle) : HeapSys where
  fsm := s.fsm.step cfg (s.heapIn c)
  bram := s.bram.step s.fsm.privWe s.fsm.privRe s.fsm.privAddr (s.fsm.memWdata cfg)
  port := s.port.step c.port (s.req cfg)

def view (cfg : HeapCfg) (s : HeapSys) : HeapView where
  fsm := s.fsm
  priv := s.bram.mem
  rdata := s.bram.rdata
  virt := s.port.slice cfg.base
  out := s.port.out

/-- The node stored at index `j`: in the private BRAM, or at `VA = base + (j - 64)`. -/
def node (cfg : HeapCfg) (s : HeapSys) (j : Nat) : Node := (s.view cfg).node j

/-- The port carries the heap's own addresses only. -/
def OwnAddr (cfg : HeapCfg) (s : HeapSys) : Prop :=
  ∀ r, s.port.out = some r → r.va = cfg.base + r.va % 2 ^ 10

variable {cfg : HeapCfg} {s : HeapSys} {c : HeapCycle} {b : PrivBram}

theorem OwnAddr.step (h : s.OwnAddr cfg) (c : HeapCycle) : (s.step cfg c).OwnAddr cfg := by
  intro r hr
  simp only [HeapSys.step, VirtPort.step] at hr
  split at hr
  · simp only [req] at hr
    split_ifs at hr
    rw [← Option.some.inj hr]
    simp only [HeapFsm.virtReq]
    exact makeVa_eq cfg s.fsm.memIdx
  · exact h r hr
  · cases hr
  · cases hr

theorem OwnAddr.view_step (h : s.OwnAddr cfg) (c : HeapCycle) :
    (s.view cfg).Step cfg (s.heapIn c) ((s.step cfg c).view cfg) where
  fsm := rfl
  rd := rfl
  priv := rfl
  rdata hre := by simp only [view] at hre; simp only [view, HeapSys.step, PrivBram.step, hre, if_true]
  port := VirtPort.portStep (fun _ => rfl) h rfl rfl rfl rfl

/-! ### Runs -/

/-- One cycle of the system with the book-keeping of its commands. -/
def stepGhost (cfg : HeapCfg) (p : HeapSys × HeapGhost) (c : HeapCycle) : HeapSys × HeapGhost :=
  (p.1.step cfg c, p.2.next (p.1.view cfg) (p.1.heapIn c))

/-- The system and its book-keeping after a schedule. -/
def run (cfg : HeapCfg) (b : PrivBram) (sched : List HeapCycle) : HeapSys × HeapGhost :=
  sched.foldl (stepGhost cfg) (init b, ⟨0, none⟩)

theorem run_snoc (sched : List HeapCycle) (c : HeapCycle) :
    run cfg b (sched ++ [c]) = stepGhost cfg (run cfg b sched) c := by
  simp [run, List.foldl_append]

theorem init_inv : ((init b).view cfg).Inv cfg ⟨0, none⟩ := HeapView.inv_reset rfl fun _ h => by cases h

theorem run_inv (sched : List HeapCycle)
    (hcap : ∀ p, p <+: sched → (run cfg b p).1.fsm.size ≤ 1024) :
    ((run cfg b sched).1.view cfg).Inv cfg (run cfg b sched).2 ∧ (run cfg b sched).1.OwnAddr cfg := by
  induction sched using List.reverseRecOn with
  | nil => exact ⟨init_inv, fun r hr => by cases hr⟩
  | append_singleton sched c ih =>
    obtain ⟨hinv, hown⟩ := ih fun p hp => hcap p (hp.trans (List.prefix_append _ _))
    have hsize := hcap _ (List.prefix_refl _)
    rw [run_snoc] at hsize ⊢
    exact ⟨hinv.step (hown.view_step c) hsize, hown.step c⟩

/-- Five cycles of a command on an always-ready port. -/
def command (op : Op) (x : Node) : List HeapCycle :=
  List.replicate 5 ⟨true, op, x, true, some true, 0⟩

end HeapSys

end HftSim
