import HftSim.BankData

/-!
# A bank is an array of nodes

The accesses a bank takes, one after the other, against an array with a node per page and index: each
is answered by one completion pulse, reads with the array's node, and outside of the node a write is
replacing the BRAMs spell out the array. What is driven while the bank is busy is ignored.
-/

namespace HftSim

/-- A read of a node (`wdata = none`) or a write of one. -/
structure Access where
  page : Nat
  node : Nat
  wdata : Option Node
deriving DecidableEq

/-- A completion pulse: `mem_wdone`, or `mem_rdata_valid` with `mem_rdata`. -/
inductive Completion
  | wdone
  | rdata (x : Node)
deriving DecidableEq

namespace Access

variable (cell : Nat → Nat → Node) (a : Access)

/-! ### The array -/

def apply : Nat → Nat → Node := fun p n =>
  match a.wdata with
  | none => cell p n
  | some x => if p = a.page ∧ n = a.node then x else cell p n

def answer : Completion :=
  match a.wdata with
  | none => .rdata (cell a.page a.node)
  | some _ => .wdone

/-- The array after a sequence of accesses. -/
def contents (as : List Access) : Nat → Nat → Node := as.foldl apply cell

/-- What a sequence of accesses is answered with. -/
def answers : (Nat → Nat → Node) → List Access → List Completion
  | _, [] => []
  | cell, a :: as => a.answer cell :: answers (a.apply cell) as

variable {cell a}

theorem contents_snoc (as : List Access) (a : Access) :
    contents cell (as ++ [a]) = a.apply (contents cell as) := by
  simp [contents]

theorem answers_snoc (as : List Access) (a : Access) :
    answers cell (as ++ [a]) = answers cell as ++ [a.answer (contents cell as)] := by
  induction as generalizing cell with
  | nil => rfl
  | cons b as ih => rw [List.cons_append, answers, ih]; rfl

end Access

namespace MemBank

/-! ### The bank's side -/

/-- An address of the bank's sixty pages. -/
def InBank (bankId memAddr : Nat) : Prop :=
  16 + bankId * 60 ≤ memAddr / 2 ^ 13 ∧ memAddr / 2 ^ 13 < 16 + bankId * 60 + 60

variable (bankId : Nat) (m : MemBank) (i : BankIn)

/-- The access a request stands for; with both enables up it is a write. -/
def access : Access where
  page := i.memAddr / 2 ^ 13 - (16 + bankId * 60)
  node := nodeIdx i.memAddr
  wdata := if i.memWe then some i.memWdata else none

def pulses : List Completion :=
  (if m.memWdone then [.wdone] else []) ++ (if m.memRdataValid then [.rdata m.memRdata] else [])

/-- The access a cycle presents to the idle bank. -/
def taken : List Access := if m.starts i then [access bankId i] else []

def run (m : MemBank) (is : List BankIn) : MemBank := is.foldl (step bankId) m

/-- The accesses presented while `mem_busy` is 0. -/
def accesses : MemBank → List BankIn → List Access
  | _, [] => []
  | m, i :: is => m.taken bankId i ++ accesses (m.step bankId i) is

/-- The completion pulses of the cycles after each edge. -/
def completions : MemBank → List BankIn → List Completion
  | _, [] => []
  | m, i :: is => (m.step bankId i).pulses ++ completions (m.step bankId i) is

/-- All accesses go to the bank's pages. -/
def Addressed : MemBank → List BankIn → Prop
  | _, [] => True
  | m, i :: is => (m.starts i = true → InBank bankId i.memAddr) ∧ Addressed (m.step bankId i) is

instance (memAddr : Nat) : Decidable (InBank bankId memAddr) :=
  inferInstanceAs (Decidable (_ ∧ _))

instance decidableAddressed : ∀ (m : MemBank) (is : List BankIn), Decidable (Addressed bankId m is)
  | _, [] => .isTrue trivial
  | m, i :: is =>
    have := decidableAddressed (m.step bankId i) is
    inferInstanceAs (Decidable ((m.starts i = true → InBank bankId i.memAddr) ∧ _))

variable {j : Nat} {m : MemBank} {i : BankIn} {cell : Nat → Nat → Node} {as : List Access} {cs : List Completion}

theorem localPageIdx_of_inBank {memAddr : Nat} (h : InBank j memAddr) :
    localPageIdx j memAddr = memAddr / 2 ^ 13 - (16 + j * 60) := by
  obtain ⟨h1, h2⟩ := h
  unfold localPageIdx
  omega

/-- The latched operands are those of `a`. -/
structure Latched (m : MemBank) (a : Access) : Prop where
  page : m.latchedPage = a.page
  node : m.latchedNode = a.node
  wdata : a.wdata = if m.latchedIsWrite then some m.latchedWdata else none
  page_lt : m.latchedPage < 60
  read : m.state = .doneRead → m.latchedIsWrite = false

/-- The bank has taken `as` and completed `cs`: all of them when it is idle, all but the latched one
when it is busy. -/
inductive Serving (cell : Nat → Nat → Node) (m : MemBank) : List Access → List Completion → Prop
  | idle {as : List Access} (hst : m.state = .idle) (h : m.Holds (Access.contents cell as)) :
      Serving cell m as (Access.answers cell as)
  | busy {as : List Access} {a : Access} (hst : m.state ≠ .idle) (ha : m.Latched a)
      (h : m.Holds (Access.contents cell as)) : Serving cell m (as ++ [a]) (Access.answers cell as)

theorem Serving.of_idle (h : Serving cell m as cs) (hst : m.state = .idle) :
    cs = Access.answers cell as ∧ m.Holds (Access.contents cell as) := by
  rcases h with ⟨-, h⟩ | ⟨hne, -, -⟩
  · exact ⟨rfl, h⟩
  · exact absurd hst hne

theorem Serving.of_busy (h : Serving cell m as cs) (hst : m.state ≠ .idle) :
    ∃ as' a, as = as' ++ [a] ∧ cs = Access.answers cell as' ∧ m.Latched a ∧
      m.Holds (Access.contents cell as') := by
  rcases h with ⟨hidle, -⟩ | ⟨-, ha, h⟩
  · exact absurd hidle hst
  · exact ⟨_, _, rfl, rfl, ha, h⟩

theorem state_of_starts (h : m.starts i = true) : (m.step j i).state = .phase0 := by
  obtain ⟨hidle, hreq⟩ : m.state = .idle ∧ (i.memRe || i.memWe) = true := by
    simpa only [starts, Bool.and_eq_true, decide_eq_true_eq] using h
  show m.nState i = _
  simp [nState, hidle, hreq]

theorem state_of_phase0 (h : m.state = .phase0) : (m.step j i).state = .phase1 := by
  show m.nState i = _
  simp [nState, h]

theorem state_of_phase1 (h : m.state = .phase1) : (m.step j i).state = .phase2 := by
  show m.nState i = _
  simp [nState, h]

theorem state_of_phase2 (h : m.state = .phase2) :
    (m.step j i).state = if m.latchedIsWrite then .idle else .doneRead := by
  show m.nState i = _
  simp [nState, h]

theorem state_of_doneRead (h : m.state = .doneRead) : (m.step j i).state = .idle := by
  show m.nState i = _
  simp [nState, h]

theorem of_nState_doneRead (h : m.nState i = .doneRead) :
    m.state = .phase2 ∧ m.latchedIsWrite = false := by
  unfold nState at h
  split at h
  · split at h <;> cases h
  · cases h
  · cases h
  · rename_i hst
    refine ⟨hst, ?_⟩
    by_contra hw
    rw [if_pos (by simpa using hw)] at h
    cases h
  · cases h

theorem Latched.step {a : Access} (ha : m.Latched a) (hst : m.state ≠ .idle) :
    (m.step j i).Latched a := by
  obtain ⟨hw', hp', hn', hd'⟩ := latched_of_busy (j := j) (i := i) (m := m) hst
  constructor
  · rw [hp', ha.page]
  · rw [hn', ha.node]
  · rw [hw', hd', ha.wdata]
  · rw [hp']; exact ha.page_lt
  · intro hs
    rw [hw']
    exact (of_nState_doneRead (i := i) hs).2

theorem latched_of_starts (hs : m.starts i = true) (hb : InBank j i.memAddr) :
    (m.step j i).Latched (access j i) := by
  have hpage : (m.step j i).latchedPage = (access j i).page := by
    show (if m.starts i then _ else _) = _
    rw [if_pos hs, localPageIdx_of_inBank hb]
    rfl
  constructor
  · exact hpage
  · exact if_pos hs
  · simp [access, MemBank.step, hs]
  · rw [hpage]
    show i.memAddr / 2 ^ 13 - (16 + j * 60) < 60
    have := hb.2
    omega
  · intro hd
    rw [state_of_starts hs] at hd
    cases hd

/-! ### One edge -/

/-- Where the edge leaves a busy bank: it goes on without a pulse, or it is idle with one. -/
theorem busy_step {a : Access} (hst : m.state ≠ .idle) (ha : m.Latched a) (h : m.Holds cell) :
    ((m.step j i).state ≠ .idle ∧ (m.step j i).pulses = [] ∧ m.cellNext cell = cell) ∨
      ((m.step j i).state = .idle ∧ (m.step j i).pulses = [a.answer cell] ∧
        m.cellNext cell = a.apply cell) := by
  have hstate : (m.step j i).state = m.nState i := rfl
  have hpulses : (m.step j i).pulses =
      (if m.writeEnds then [.wdone] else []) ++
        (if m.readEnds then [.rdata (m.step j i).memRdata] else []) := rfl
  by_cases hw : m.writeEnds = true
  · -- the last word of a write
    obtain ⟨h2, hlw⟩ : m.state = .phase2 ∧ m.latchedIsWrite = true := by simpa [writeEnds] using hw
    refine .inr ⟨by rw [hstate]; simp [nState, h2, hlw], ?_, ?_⟩
    · rw [hpulses, if_pos hw, if_neg (by simp [readEnds, h2])]
      simp [Access.answer, ha.wdata, hlw]
    · funext p n
      simp [cellNext, Access.apply, ha.wdata, hlw, hw, ha.page, ha.node]
  · have hcell : m.cellNext cell = cell := by funext p n; simp [cellNext, hw]
    by_cases hr : m.readEnds = true
    · -- the node of a read is out
      obtain ⟨h2, hlw⟩ : m.state = .doneRead ∧ m.latchedIsWrite = false := by simpa [readEnds] using hr
      have hnext := h.step (fun _ => ha.page_lt) j i
      have hlatched := ha.step (j := j) (i := i) hst
      have hdata := hnext.rdata hr
      rw [hcell, hlatched.page, hlatched.node] at hdata
      refine .inr ⟨by rw [hstate]; simp [nState, h2], ?_, ?_⟩
      · rw [hpulses, if_neg hw, if_pos hr, hdata]
        simp [Access.answer, ha.wdata, hlw]
      · rw [hcell]
        funext p n
        simp [Access.apply, ha.wdata, hlw]
    · refine .inl ⟨?_, by rw [hpulses, if_neg hw, if_neg hr]; rfl, hcell⟩
      have hdr := ha.read
      rw [hstate]
      cases hs : m.state <;> simp_all [nState, writeEnds, readEnds]

theorem Serving.step (h : Serving cell m as cs) (hb : m.starts i = true → InBank j i.memAddr) :
    Serving cell (m.step j i) (as ++ m.taken j i) (cs ++ (m.step j i).pulses) := by
  rcases h with ⟨hst, h⟩ | ⟨hst, ha, h⟩
  · have hpulses : (m.step j i).pulses = [] := by
      show (if m.writeEnds then _ else _) ++ (if m.readEnds then _ else _) = _
      simp [writeEnds, readEnds, hst]
    have hcell : m.cellNext (Access.contents cell as) = Access.contents cell as := by
      funext p n; simp [cellNext, writeEnds, hst]
    have hnext := h.step_idle (j := j) (i := i) hst
    rw [hpulses, List.append_nil]
    rw [hcell] at hnext
    by_cases hs : m.starts i = true
    · rw [taken, if_pos hs]
      exact .busy (by simp [state_of_starts hs]) (latched_of_starts hs (hb hs)) hnext
    · rw [taken, if_neg hs, List.append_nil]
      refine .idle ?_ hnext
      have hreq : (i.memRe || i.memWe) = false := by simpa [starts, hst] using hs
      show m.nState i = .idle
      simp [nState, hst, hreq]
  · rename_i as a
    have hnext := h.step (fun _ => ha.page_lt) j i
    have htaken : m.taken j i = [] := by simp [taken, starts, hst]
    rw [htaken, List.append_nil]
    rcases busy_step (j := j) (i := i) hst ha h with ⟨hst', hp, hc⟩ | ⟨hst', hp, hc⟩
    · rw [hp, List.append_nil]
      rw [hc] at hnext
      exact .busy hst' (ha.step hst) hnext
    · rw [hp, ← Access.answers_snoc]
      rw [hc, ← Access.contents_snoc] at hnext
      exact .idle hst' hnext

/-! ### Runs -/

theorem Serving.run {is : List BankIn} (h : Serving cell m as cs) (hb : Addressed j m is) :
    Serving cell (run j m is) (as ++ accesses j m is) (cs ++ completions j m is) := by
  induction is generalizing m as cs with
  | nil => simpa [run, accesses, completions] using h
  | cons i is ih =>
    have hrun := ih (h.step hb.1) hb.2
    rw [List.append_assoc, List.append_assoc] at hrun
    exact hrun

theorem serving_reset (b : MemBank) : Serving b.nodeAt b.reset [] [] :=
  .idle rfl (holds_of_idle (m := b.reset) rfl rfl)

/-! ### Latency -/

/-- The cycles from the request to the pulse. -/
def latency (i : BankIn) : Nat := if i.memWe then 3 else 4

structure Busy (cell : Nat → Nat → Node) (m : MemBank) (a : Access) : Prop where
  state : m.state ≠ .idle
  latched : m.Latched a
  holds : m.Holds cell

theorem Busy.next {a : Access} (h : Busy cell m a) (hst : (m.step j i).state ≠ .idle) :
    Busy cell (m.step j i) a := by
  have hnext := h.holds.step (fun _ => h.latched.page_lt) j i
  rcases busy_step (j := j) (i := i) h.state h.latched h.holds with ⟨-, -, hc⟩ | ⟨hst', -, -⟩
  · exact ⟨hst, h.latched.step h.state, by rwa [hc] at hnext⟩
  · exact absurd hst' hst

theorem Busy.pulses {a : Access} (h : Busy cell m a) (hst : (m.step j i).state = .idle) :
    (m.step j i).pulses = [a.answer cell] := by
  rcases busy_step (j := j) (i := i) h.state h.latched h.holds with ⟨hst', -, -⟩ | ⟨-, hp, -⟩
  · exact absurd hst hst'
  · exact hp

/-- Three phases, and for a read one cycle more, whatever is driven meanwhile. -/
theorem Busy.pulses_latency {js : List BankIn} (h : Busy cell (m.step j i) (access j i))
    (hs : m.starts i = true) (hjs : js.length = latency i) :
    (run j m (i :: js)).pulses = [(access j i).answer cell] := by
  have h0 : (m.step j i).state = .phase0 := state_of_starts hs
  have hw : (m.step j i).latchedIsWrite = i.memWe := if_pos hs
  obtain ⟨j1, j2, js, rfl⟩ : ∃ j1 j2 js', js = j1 :: j2 :: js' := by
    match js, hjs with
    | [], hjs => unfold latency at hjs; split at hjs <;> cases hjs
    | [_], hjs => unfold latency at hjs; split at hjs <;> cases hjs
    | j1 :: j2 :: js', _ => exact ⟨j1, j2, js', rfl⟩
  have h1 := state_of_phase0 (j := j) (i := j1) h0
  have b1 := h.next (j := j) (i := j1) (by simp [h1])
  have w1 := (latched_of_busy (j := j) (i := j1) h.state).1
  have h2 := state_of_phase1 (j := j) (i := j2) h1
  have b2 := b1.next (j := j) (i := j2) (by simp [h2])
  have w2 := (latched_of_busy (j := j) (i := j2) b1.state).1
  rw [w1, hw] at w2
  cases hwe : i.memWe with
  | true =>
    obtain ⟨j3, rfl⟩ : ∃ j3, js = [j3] := by
      simpa [latency, hwe, List.length_eq_one_iff] using hjs
    exact b2.pulses (by rw [state_of_phase2 h2, w2, hwe]; rfl)
  | false =>
    obtain ⟨j3, j4, rfl⟩ : ∃ j3 j4, js = [j3, j4] := by
      simpa [latency, hwe, List.length_eq_two] using hjs
    have h3 := state_of_phase2 (j := j) (i := j3) h2
    rw [w2, hwe] at h3
    have b3 := b2.next (j := j) (i := j3) (by simp [h3])
    exact b3.pulses (state_of_doneRead h3)

theorem Serving.pulses_latency {js : List BankIn} (h : Serving cell m as cs) (hs : m.starts i = true)
    (hb : InBank j i.memAddr) (hjs : js.length = latency i) :
    (MemBank.run j m (i :: js)).pulses = [(access j i).answer (Access.contents cell as)] := by
  have hidle : m.state = .idle := by
    simp only [starts, Bool.and_eq_true, decide_eq_true_eq] at hs; exact hs.1
  have hnext := (h.of_idle hidle).2.step_idle (j := j) (i := i) hidle
  have hcell : m.cellNext (Access.contents cell as) = Access.contents cell as := by
    funext p n; simp [cellNext, writeEnds, hidle]
  rw [hcell] at hnext
  refine Busy.pulses_latency ⟨?_, latched_of_starts hs hb, hnext⟩ hs hjs
  simp [state_of_starts hs]

/-- The bank refines the array. After any run from reset in which the accesses go to the bank's pages:
* the completion pulses so far are the array's answers to the accesses taken, in order, the last of
  them outstanding while the bank is busy;
* the BRAMs spell out the array, except for the node of a write under way;
* an access presented now is answered once, `latency` cycles later, from the array as it is now. -/
theorem memBank_refines_array (bankId : Nat) (b : MemBank) (is : List BankIn)
    (hb : Addressed bankId b.reset is) :
    let m := run bankId b.reset is
    let as := accesses bankId b.reset is
    (m.memBusy = false →
      completions bankId b.reset is = Access.answers b.nodeAt as ∧
        ∀ p n, m.nodeAt p n = Access.contents b.nodeAt as p n) ∧
    (m.memBusy = true → ∃ as' a, as = as' ++ [a] ∧
      completions bankId b.reset is = Access.answers b.nodeAt as' ∧
        ∀ p n, (a.wdata ≠ none → ¬ (p = a.page ∧ n = a.node)) →
          m.nodeAt p n = Access.contents b.nodeAt as' p n) ∧
    ∀ i, m.memBusy = false → (i.memRe || i.memWe) = true → InBank bankId i.memAddr →
      ∀ js, js.length = latency i →
        (run bankId m (i :: js)).pulses = [(access bankId i).answer (Access.contents b.nodeAt as)] := by
  intro m as
  have h : Serving b.nodeAt m as (completions bankId b.reset is) := (serving_reset b).run hb
  refine ⟨fun hbusy => ?_, fun hbusy => ?_, fun i hbusy hreq hi js hjs => ?_⟩
  · have hidle : m.state = .idle := by simpa [memBusy] using hbusy
    obtain ⟨hcs, hholds⟩ := h.of_idle hidle
    exact ⟨hcs, fun p n => hholds.cells p n (by simp [Writing, hidle])⟩
  · have hst : m.state ≠ .idle := by simpa [memBusy] using hbusy
    obtain ⟨as', a, has, hcs, ha, hholds⟩ := h.of_busy hst
    refine ⟨as', a, has, hcs, fun p n hpn => hholds.cells p n fun hw => ?_⟩
    refine hpn ?_ ⟨hw.2.2.1.trans ha.page, hw.2.2.2.trans ha.node⟩
    rw [ha.wdata, if_pos hw.2.1]
    simp
  · have hidle : m.state = .idle := by simpa [memBusy] using hbusy
    exact h.pulses_latency (by simp [starts, hidle, hreq]) hi hjs

/-- Node 5 of the last page of bank 1 is written and, in the cycle of `mem_wdone`, read back; what is
driven while the bank is busy names another node. -/
def writeThenRead : List BankIn :=
  let addr := (16 + 60 + 59) * 2 ^ 13 + 5 * 2 ^ 4
  let busy : BankIn := ⟨addr + 2 ^ 4, true, true, 0⟩
  [⟨addr, true, false, BitVec.ofNat 86 (2 ^ 86 - 3)⟩, busy, busy, busy, ⟨addr, false, true, 0⟩, busy, busy,
    busy, busy]

theorem memBank_writeThenRead :
    (Addressed 1 powerUp.reset writeThenRead ∧
      Access.answers powerUp.nodeAt (accesses 1 powerUp.reset writeThenRead) =
        [.wdone, .rdata (BitVec.ofNat 86 (2 ^ 86 - 3))]) ∧
    completions 1 powerUp.reset writeThenRead =
      Access.answers powerUp.nodeAt (accesses 1 powerUp.reset writeThenRead) :=
  ⟨by decide +kernel,
    ((memBank_refines_array 1 powerUp writeThenRead (by decide +kernel)).1 (by decide +kernel)).1⟩

end MemBank

end HftSim
