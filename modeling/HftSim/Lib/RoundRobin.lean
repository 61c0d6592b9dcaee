import Mathlib.Algebra.Group.Fin.Basic
import Mathlib.Data.List.FinRange
import Mathlib.Tactic.Abel

/-!
# Round-robin arbitration

`n` clients are scanned from a pointer on, and the pointer moves behind the last client that is served. A
client that asks has `turn` clients before it; whenever somebody before it is served, it has fewer.
-/

namespace RoundRobin

variable {n : Nat} {p w e : Fin n}

/-- All clients, from `p` on. -/
def scan (p : Fin n) : List (Fin n) := (List.finRange n).map (p + ·)

/-- How many clients are scanned before `e`. -/
def turn (p e : Fin n) : Nat := (e - p).val

theorem turn_lt (p e : Fin n) : turn p e < n := (e - p).isLt

variable [NeZero n]

theorem turn_add (p i : Fin n) : turn p (p + i) = i.val := by rw [turn, add_sub_cancel_left]

theorem mem_scan (p e : Fin n) : e ∈ scan p :=
  List.mem_map.2 ⟨e - p, List.mem_finRange _, add_sub_cancel p e⟩

theorem scan_pairwise (p : Fin n) : (scan p).Pairwise fun a b => turn p a < turn p b := by
  rw [scan, List.pairwise_map]
  refine (List.pairwise_lt_finRange n).imp fun {i j} hij => ?_
  rw [turn_add, turn_add]
  exact hij

/-- When a client before `e` is served, `e` moves up. -/
theorem turn_served (h : turn p w < turn p e) : turn (w + 1) e < turn p e := by
  have hsplit : e - (w + 1) = e - p - (w - p) - 1 := by abel
  have hlt := turn_lt p e
  unfold turn at h hlt ⊢
  have h1 : (e - p - (w - p)).val = (e - p).val - (w - p).val := Fin.sub_val_of_le (Nat.le_of_lt h)
  have hn : 1 < n := by omega
  have hv1 : (1 : Fin n).val = 1 := by rw [Fin.val_one']; exact Nat.mod_eq_of_lt hn
  rw [hsplit, Fin.sub_val_of_le (by rw [Fin.le_def, h1, hv1]; omega), h1, hv1]
  omega

/-- The client that is served first has the least turn. -/
theorem turn_first {req : Fin n → Bool} (hw : (scan p).find? req = some w) (he : req e = true) (hne : w ≠ e) :
    turn p w < turn p e := by
  obtain ⟨hreq, as, bs, hsplit, hnot⟩ := List.find?_eq_some_iff_append.1 hw
  have hp := scan_pairwise p
  have hmem := mem_scan p e
  rw [hsplit] at hp hmem
  rcases List.mem_append.1 hmem with ha | hb
  · exact absurd he (by simpa using hnot e ha)
  · rcases List.mem_cons.1 hb with rfl | hb
    · exact absurd rfl hne
    · exact (List.pairwise_cons.1 (List.pairwise_append.1 hp).2.1).1 e hb

end RoundRobin
