import Mathlib.Data.List.Induction
import Mathlib.Data.Multiset.MapFold
import Mathlib.Data.Multiset.AddSub
import Mathlib.Algebra.Order.Ring.Nat

/-!
# First come, first served

Items come in on two sides, rest there, and trade in pairs, one of each side; a trade may leave a rest of
an item. Nothing is said about what trades when, but that an item that trades has the smallest stamp among
the resting items of its side and price. If every item comes in with a stamp above those
(`Rules.Younger`), it is served after the ones that came before it: `Rules.Served` says so with each item
of a pair labelled by its place in the list of arrivals. `Ledger` is the book-keeping of the proof: the
resting items with their labels.
-/

namespace FirstCome

/-- `rest x y` is what a trade with `y` leaves of `x`. -/
structure Rules (α κ : Type*) where
  side : α → Bool
  price : α → κ
  stamp : α → Nat
  rest : α → α → Option α
  price_rest : ∀ {x y z}, rest x y = some z → price z = price x
  stamp_rest : ∀ {x y z}, rest x y = some z → stamp z = stamp x

variable {α κ : Type*} {r : Rules α κ} {os : List α} {ps : List (Bool → α)} {m : Bool → Multiset α}
  {qs : List (Bool → Nat × α)} {q : Bool → Nat × α} {b : Bool} {i : Nat} {x : α}

namespace Rules

/-- The resting items of the side and price of `x` have smaller stamps. -/
def Younger (r : Rules α κ) (m : Bool → Multiset α) (x : α) : Prop :=
  ∀ y ∈ m (r.side x), r.price y = r.price x → r.stamp y < r.stamp x

/-- No item of its price has a smaller stamp than `x`. -/
def Oldest (r : Rules α κ) (m : Multiset α) (x : α) : Prop :=
  ∀ y ∈ m, r.price y = r.price x → r.stamp x ≤ r.stamp y

/-- The arrivals, the pairs that have traded, and what rests. -/
inductive Trail (r : Rules α κ) : List α → List (Bool → α) → (Bool → Multiset α) → Prop
  | nil : Trail r [] [] fun _ => 0
  | arrive {os : List α} {ps : List (Bool → α)} {m : Bool → Multiset α} (h : Trail r os ps m) {x : α} (hx : r.Younger m x) :
      Trail r (os ++ [x]) ps fun b => if r.side x = b then x ::ₘ m b else m b
  | trade {os : List α} {ps : List (Bool → α)} {m : Bool → Multiset α} (h : Trail r os ps m) {p : Bool → α} {n : Bool → Multiset α} (hm : ∀ b, m b = p b ::ₘ n b)
      (hp : ∀ b, r.Oldest (m b) (p b)) :
      Trail r os (ps ++ [p]) fun b => (r.rest (p b) (p !b)).elim (n b) (· ::ₘ n b)

/-- What the pairs have left of `x`, which has the label `i` of side `b`. -/
def remains (r : Rules α κ) (x : α) (qs : List (Bool → Nat × α)) (b : Bool) (i : Nat) : Option α :=
  qs.foldl (fun y q => if (q b).1 = i then y.bind fun y => r.rest y (q !b).2 else y) (some x)

/-- The pairs `qs` trade what is left of the items `os` they are labelled with, and when an item trades,
nothing is left of those of its side and price that came in before it. -/
structure InTurn (r : Rules α κ) (os : List α) (qs : List (Bool → Nat × α)) : Prop where
  own : ∀ t q, qs[t]? = some q → ∀ b, ∃ x, os[(q b).1]? = some x ∧ r.side x = b ∧
    r.remains x (qs.take t) b (q b).1 = some (q b).2
  first : ∀ t q, qs[t]? = some q → ∀ b i x, i < (q b).1 → os[i]? = some x → r.side x = b →
    r.price x = r.price (q b).2 → r.remains x (qs.take t) b i = none

def Served (r : Rules α κ) (os : List α) (ps : List (Bool → α)) : Prop :=
  ∃ qs : List (Bool → Nat × α), (qs.map fun q b => (q b).2) = ps ∧ r.InTurn os qs

theorem remains_snoc : r.remains x (qs ++ [q]) b i =
    if (q b).1 = i then (r.remains x qs b i).bind fun y => r.rest y (q !b).2 else r.remains x qs b i := by
  rw [remains, List.foldl_append]
  rfl

theorem remains_eq {y : α} (h : r.remains x qs b i = some y) : r.price y = r.price x ∧ r.stamp y = r.stamp x := by
  induction qs using List.reverseRecOn generalizing y with
  | nil => cases h; exact ⟨rfl, rfl⟩
  | append_singleton qs q ih =>
    rw [remains_snoc] at h
    split at h
    · obtain ⟨z, hz, hrest⟩ := Option.bind_eq_some_iff.1 h
      obtain ⟨h1, h2⟩ := ih hz
      exact ⟨(r.price_rest hrest).trans h1, (r.stamp_rest hrest).trans h2⟩
    · exact ih h

theorem remains_of_ne (h : ∀ q ∈ qs, (q b).1 ≠ i) : r.remains x qs b i = some x := by
  induction qs using List.reverseRecOn with
  | nil => rfl
  | append_singleton qs q ih =>
    rw [remains_snoc, if_neg (h q (by simp))]
    exact ih fun q' hq' => h q' (by simp [hq'])

theorem InTurn.label_lt (h : r.InTurn os qs) (hq : q ∈ qs) (b : Bool) : (q b).1 < os.length := by
  obtain ⟨t, ht⟩ := List.mem_iff_getElem?.1 hq
  obtain ⟨x, hx, -⟩ := h.own t q ht b
  exact (List.getElem?_eq_some_iff.1 hx).1

theorem InTurn.arrive (h : r.InTurn os qs) (x : α) : r.InTurn (os ++ [x]) qs := by
  constructor
  · intro t q hq b
    obtain ⟨y, hy, hrest⟩ := h.own t q hq b
    exact ⟨y, by rw [List.getElem?_append_left (h.label_lt (List.mem_of_getElem? hq) b)]; exact hy, hrest⟩
  · intro t q hq b i y hi hy
    have hlt := h.label_lt (List.mem_of_getElem? hq) b
    rw [List.getElem?_append_left (by omega)] at hy
    exact h.first t q hq b i y hi hy

theorem InTurn.trade (h : r.InTurn os qs)
    (hown : ∀ b, ∃ x, os[(q b).1]? = some x ∧ r.side x = b ∧ r.remains x qs b (q b).1 = some (q b).2)
    (hfirst : ∀ b i x, i < (q b).1 → os[i]? = some x → r.side x = b → r.price x = r.price (q b).2 →
      r.remains x qs b i = none) : r.InTurn os (qs ++ [q]) := by
  have hget : ∀ t p, (qs ++ [q])[t]? = some p →
      (qs[t]? = some p ∧ (qs ++ [q]).take t = qs.take t) ∨ p = q ∧ (qs ++ [q]).take t = qs := by
    intro t p hp
    rcases Nat.lt_trichotomy t qs.length with hlt | rfl | hgt
    · rw [List.getElem?_append_left hlt] at hp
      exact .inl ⟨hp, List.take_append_of_le_length (Nat.le_of_lt hlt)⟩
    · rw [List.getElem?_concat_length] at hp
      exact .inr ⟨(Option.some.inj hp).symm, List.take_left⟩
    · rw [List.getElem?_eq_none (by simp; omega)] at hp; cases hp
  constructor
  · intro t p hp b
    rcases hget t p hp with ⟨hp, htake⟩ | ⟨rfl, htake⟩ <;> rw [htake]
    · exact h.own t p hp b
    · exact hown b
  · intro t p hp b
    rcases hget t p hp with ⟨hp, htake⟩ | ⟨rfl, htake⟩ <;> rw [htake]
    · exact h.first t p hp b
    · exact hfirst b

end Rules

/-- The resting items with labels: each is what the pairs have left of its item, an item that does not
rest has been used up, and at one price the stamps follow the labels. -/
structure Ledger (r : Rules α κ) (os : List α) (qs : List (Bool → Nat × α)) (m : Bool → Multiset (Nat × α)) :
    Prop where
  nodup : ∀ b, ((m b).map Prod.fst).Nodup
  left : ∀ b, ∀ y ∈ m b, ∃ x, os[y.1]? = some x ∧ r.side x = b ∧ r.remains x qs b y.1 = some y.2
  gone : ∀ b i x, os[i]? = some x → r.side x = b → (∀ y ∈ m b, y.1 ≠ i) → r.remains x qs b i = none
  aged : ∀ b, ∀ y ∈ m b, ∀ z ∈ m b, r.price y.2 = r.price z.2 → y.1 < z.1 → r.stamp y.2 < r.stamp z.2
  inTurn : r.InTurn os qs

namespace Ledger

variable {m : Bool → Multiset (Nat × α)} {n : Bool → Multiset (Nat × α)}

theorem nil : Ledger r [] [] fun _ => 0 where
  nodup _ := Multiset.nodup_zero
  left _ _ h := by cases h
  gone _ _ _ h := by cases h
  aged _ _ h := by cases h
  inTurn := ⟨fun _ _ h => (by cases h), fun _ _ h => (by cases h)⟩

theorem label_lt (h : Ledger r os qs m) {y : Nat × α} (hy : y ∈ m b) : y.1 < os.length := by
  obtain ⟨x, hx, -⟩ := h.left b y hy
  exact (List.getElem?_eq_some_iff.1 hx).1

theorem arrive (h : Ledger r os qs m) (hx : ∀ y ∈ m (r.side x), r.price y.2 = r.price x → r.stamp y.2 < r.stamp x) :
    Ledger r (os ++ [x]) qs fun b => if r.side x = b then (os.length, x) ::ₘ m b else m b := by
  have hmem : ∀ b y, y ∈ (if r.side x = b then (os.length, x) ::ₘ m b else m b) ↔
      (r.side x = b ∧ y = (os.length, x)) ∨ y ∈ m b := by
    intro b y
    split
    · rename_i hb
      rw [Multiset.mem_cons]
      simp [hb]
    · rename_i hb
      simp [hb]
  refine ⟨fun b => ?_, fun b y hy => ?_, fun b i y hi hy hno => ?_, fun b y hy z hz hp hlt => ?_, h.inTurn.arrive x⟩
  · split
    · rw [Multiset.map_cons, Multiset.nodup_cons]
      refine ⟨fun hc => ?_, h.nodup b⟩
      obtain ⟨y, hy, hlab⟩ := Multiset.mem_map.1 hc
      exact absurd (h.label_lt hy) (by rw [hlab]; exact Nat.lt_irrefl _)
    · exact h.nodup b
  · rcases (hmem b y).1 hy with ⟨hb, rfl⟩ | hy
    · exact ⟨x, List.getElem?_concat_length, hb,
        Rules.remains_of_ne fun q hq => Nat.ne_of_lt (h.inTurn.label_lt hq b)⟩
    · obtain ⟨w, hw, hrest⟩ := h.left b y hy
      exact ⟨w, by rw [List.getElem?_append_left (h.label_lt hy)]; exact hw, hrest⟩
  · rcases Nat.lt_trichotomy i os.length with hlt | rfl | hgt
    · rw [List.getElem?_append_left hlt] at hi
      exact h.gone b i y hi hy fun z hz => hno z ((hmem b z).2 (.inr hz))
    · rw [List.getElem?_concat_length] at hi
      cases hi
      exact absurd rfl (hno (os.length, x) ((hmem b _).2 (.inl ⟨hy, rfl⟩)))
    · rw [List.getElem?_eq_none (by simp; omega)] at hi; cases hi
  · rcases (hmem b y).1 hy with ⟨-, rfl⟩ | hy
    · rcases (hmem b z).1 hz with ⟨-, rfl⟩ | hz
      · exact absurd hlt (Nat.lt_irrefl _)
      · exact absurd (h.label_lt hz) (Nat.not_lt.2 (Nat.le_of_lt hlt))
    · rcases (hmem b z).1 hz with ⟨hb, rfl⟩ | hz
      · exact hx y (hb ▸ hy) hp
      · exact h.aged b y hy z hz hp hlt

/-- Of the items of a side and price the oldest one has the smallest label. -/
theorem oldest_first (h : Ledger r os qs m) {y : Nat × α} (hy : y ∈ m b)
    (hold : ∀ z ∈ m b, r.price z.2 = r.price y.2 → r.stamp y.2 ≤ r.stamp z.2) (hi : i < y.1) (hx : os[i]? = some x)
    (hb : r.side x = b) (hp : r.price x = r.price y.2) : r.remains x qs b i = none := by
  refine h.gone b i x hx hb fun z hz hlab => ?_
  obtain ⟨w, hw, -, hrem⟩ := h.left b z hz
  rw [hlab, hx] at hw
  cases hw
  have hprice : r.price z.2 = r.price y.2 := (Rules.remains_eq hrem).1.trans hp
  have hlt := h.aged b z hz y hy hprice (by rw [hlab]; exact hi)
  have hle := hold z hz hprice
  omega

/-- A pair trades: its labels stay with what is left of it. -/
theorem trade (h : Ledger r os qs m) (hm : ∀ b, m b = q b ::ₘ n b)
    (hold : ∀ b, ∀ z ∈ m b, r.price z.2 = r.price (q b).2 → r.stamp (q b).2 ≤ r.stamp z.2) :
    Ledger r os (qs ++ [q]) fun b => (r.rest (q b).2 (q !b).2).elim (n b) fun y => ((q b).1, y) ::ₘ n b := by
  have hq : ∀ b, q b ∈ m b := fun b => by rw [hm b]; exact Multiset.mem_cons_self _ _
  have hmem : ∀ b y, y ∈ ((r.rest (q b).2 (q !b).2).elim (n b) fun z => ((q b).1, z) ::ₘ n b) ↔
      (y.1 = (q b).1 ∧ r.rest (q b).2 (q !b).2 = some y.2) ∨ y ∈ n b := by
    intro b y
    rcases hr : r.rest (q b).2 (q !b).2 with _ | z
    · simp
    · simp only [Option.elim_some, Multiset.mem_cons, Option.some.injEq, Prod.ext_iff]
      exact or_congr_left (and_congr_right fun _ => eq_comm)
  have hlabel : ∀ b, ∀ y ∈ n b, y.1 ≠ (q b).1 := by
    intro b y hy hlab
    have hnd := h.nodup b
    rw [hm b, Multiset.map_cons, Multiset.nodup_cons] at hnd
    exact hnd.1 (hlab ▸ Multiset.mem_map_of_mem Prod.fst hy)
  have hold' : ∀ b, ∀ y ∈ n b, y ∈ m b := fun b y hy => by rw [hm b]; exact Multiset.mem_cons_of_mem hy
  -- a resting item after the trade has the label, price and stamp of one before it
  have hfrom : ∀ b y, y ∈ ((r.rest (q b).2 (q !b).2).elim (n b) fun z => ((q b).1, z) ::ₘ n b) →
      ∃ z ∈ m b, z.1 = y.1 ∧ r.price z.2 = r.price y.2 ∧ r.stamp z.2 = r.stamp y.2 := by
    intro b y hy
    rcases (hmem b y).1 hy with ⟨hlab, hr⟩ | hy
    · exact ⟨q b, hq b, hlab.symm, (r.price_rest hr).symm, (r.stamp_rest hr).symm⟩
    · exact ⟨y, hold' b y hy, rfl, rfl, rfl⟩
  refine ⟨fun b => ?_, fun b y hy => ?_, fun b i x hx hb hno => ?_, fun b y hy z hz hp hlt => ?_, ?_⟩
  · have hnd := h.nodup b
    rw [hm b, Multiset.map_cons] at hnd
    rcases r.rest (q b).2 (q !b).2 with _ | z
    · exact (Multiset.nodup_cons.1 hnd).2
    · rw [Option.elim_some, Multiset.map_cons]
      exact hnd
  · rcases (hmem b y).1 hy with ⟨hlab, hr⟩ | hy
    · obtain ⟨x, hx, hb, hrem⟩ := h.left b _ (hq b)
      refine ⟨x, by rw [hlab]; exact hx, hb, ?_⟩
      rw [Rules.remains_snoc, hlab, if_pos rfl, hrem]
      exact hr
    · obtain ⟨x, hx, hb, hrem⟩ := h.left b y (hold' b y hy)
      refine ⟨x, hx, hb, ?_⟩
      rw [Rules.remains_snoc, if_neg (Ne.symm (hlabel b y hy))]
      exact hrem
  · rw [Rules.remains_snoc]
    by_cases hlab : (q b).1 = i
    · rw [if_pos hlab]
      obtain ⟨x', hx', -, hrem⟩ := h.left b _ (hq b)
      rw [hlab, hx] at hx'
      cases hx'
      rw [← hlab, hrem]
      rcases hr : r.rest (q b).2 (q !b).2 with _ | z
      · exact hr
      · exact absurd hlab (hno ((q b).1, z) ((hmem b _).2 (.inl ⟨rfl, hr⟩)))
    · rw [if_neg hlab]
      refine h.gone b i x hx hb fun z hz hz1 => ?_
      rw [hm b] at hz
      rcases Multiset.mem_cons.1 hz with rfl | hz
      · exact hlab hz1
      · exact hno z ((hmem b z).2 (.inr hz)) hz1
  · obtain ⟨y', hy', h1, h2, h3⟩ := hfrom b y hy
    obtain ⟨z', hz', h4, h5, h6⟩ := hfrom b z hz
    rw [← h3, ← h6]
    exact h.aged b y' hy' z' hz' (by rw [h2, h5, hp]) (by omega)
  · exact h.inTurn.trade (fun b => h.left b _ (hq b)) fun b i x hi hx hb hp =>
      h.oldest_first (hq b) (hold b) hi hx hb hp

end Ledger

theorem Rules.Trail.served (h : r.Trail os ps m) : r.Served os ps := by
  suffices hl : ∃ (qs : List (Bool → Nat × α)) (m' : Bool → Multiset (Nat × α)),
      (qs.map fun q b => (q b).2) = ps ∧ (∀ b, m b = (m' b).map Prod.snd) ∧ Ledger r os qs m' by
    obtain ⟨qs, m', hps, -, hl⟩ := hl
    exact ⟨qs, hps, hl.inTurn⟩
  induction h with
  | nil => exact ⟨[], _, rfl, fun _ => rfl, .nil⟩
  | @arrive os ps m _ x hx ih =>
    obtain ⟨qs, m', hps, hm, hl⟩ := ih
    refine ⟨qs, _, hps, fun b => ?_, hl.arrive (x := x) fun y hy => ?_⟩
    · dsimp only
      split <;> simp [hm b]
    · refine hx y.2 ?_
      rw [hm]
      exact Multiset.mem_map_of_mem _ hy
  | @trade os ps m _ p n hn hp ih =>
    obtain ⟨qs, m', hps, hm, hl⟩ := ih
    have hex : ∀ b, ∃ (y : Nat × α) (n' : Multiset (Nat × α)), y.2 = p b ∧ m' b = y ::ₘ n' ∧ n b = n'.map Prod.snd := by
      intro b
      have hmem : p b ∈ (m' b).map Prod.snd := by rw [← hm b, hn b]; exact Multiset.mem_cons_self _ _
      obtain ⟨y, hy, hyp⟩ := Multiset.mem_map.1 hmem
      obtain ⟨n', hn'⟩ := Multiset.exists_cons_of_mem hy
      refine ⟨y, n', hyp, hn', ?_⟩
      have hcons := hm b
      rw [hn b, hn', Multiset.map_cons, hyp] at hcons
      exact (Multiset.cons_inj_right _).1 hcons
    choose q n' hqp hq hn' using hex
    obtain rfl : p = fun b => (q b).2 := funext fun b => (hqp b).symm
    refine ⟨qs ++ [q], _, by simp [hps], fun b => ?_, hl.trade hq fun b z hz => ?_⟩
    · dsimp only
      rw [hn' b]
      rcases r.rest (q b).2 (q !b).2 with _ | y <;> simp
    · refine hp b z.2 ?_
      rw [hm b]
      exact Multiset.mem_map_of_mem _ hz

end FirstCome
