import Mathlib.Algebra.Order.Ring.Nat
import Mathlib.Data.List.Basic
import Mathlib.Logic.Function.Basic

/-!
# Ring buffers

A queue of at most `d` elements in the cells `0, …, d-1` of a memory, from cell `rd` on, wrapping
around. `toList` is the queue, oldest first; cells outside it hold anything.
-/

namespace Ring

open Function

structure Ring (α : Type*) where
  mem : Nat → α
  wr : Nat
  rd : Nat
  cnt : Nat

namespace Ring

variable {α : Type*} {d : Nat} {r : Ring α} {x : α}

def toList (d : Nat) (r : Ring α) : List α := (List.range r.cnt).map fun i => r.mem ((r.rd + i) % d)

structure WF (d : Nat) (r : Ring α) : Prop where
  pos : 0 < d
  rd_lt : r.rd < d
  le : r.cnt ≤ d
  wr_eq : r.wr = (r.rd + r.cnt) % d

def push (d : Nat) (r : Ring α) (x : α) : Ring α :=
  { r with mem := update r.mem r.wr x, wr := (r.wr + 1) % d, cnt := r.cnt + 1 }

def pop (d : Nat) (r : Ring α) : Ring α := { r with rd := (r.rd + 1) % d, cnt := r.cnt - 1 }

@[simp] theorem length_toList : (r.toList d).length = r.cnt := by simp [toList]

theorem toList_eq_nil : r.toList d = [] ↔ r.cnt = 0 := by simp [toList]

theorem toList_cons (h : r.WF d) (h0 : 0 < r.cnt) :
    r.toList d = r.mem r.rd :: (r.pop d).toList d := by
  obtain ⟨n, hn⟩ : ∃ n, r.cnt = n + 1 := ⟨r.cnt - 1, by omega⟩
  simp only [toList, pop, hn, List.range_succ_eq_map, List.map_cons, List.map_map, Nat.add_sub_cancel,
    Nat.add_zero, Nat.mod_eq_of_lt h.rd_lt]
  congr 1
  refine List.map_congr_left fun i _ => ?_
  simp only [comp_apply, Nat.mod_add_mod]
  congr 2
  omega

theorem mem_rd_of_toList (h : r.WF d) (l : List α) (hl : r.toList d = x :: l) : r.mem r.rd = x := by
  have h0 : 0 < r.cnt := by rw [← length_toList (d := d), hl]; simp
  rw [toList_cons h h0] at hl
  exact (List.cons.inj hl).1

theorem WF.pop (h : r.WF d) (h0 : 0 < r.cnt) : (r.pop d).WF d where
  pos := h.pos
  rd_lt := Nat.mod_lt _ h.pos
  le := Nat.le_trans (Nat.sub_le _ _) h.le
  wr_eq := by
    simp only [Ring.pop, h.wr_eq, Nat.mod_add_mod]
    congr 1
    omega

theorem wr_ne (h : r.WF d) {i : Nat} (hi : i < r.cnt) (hlt : r.cnt < d) : (r.rd + i) % d ≠ r.wr := by
  have h1 := h.rd_lt
  rw [h.wr_eq]
  intro heq
  rcases Nat.lt_or_ge (r.rd + i) d with ha | ha <;> rcases Nat.lt_or_ge (r.rd + r.cnt) d with hb | hb
  · rw [Nat.mod_eq_of_lt ha, Nat.mod_eq_of_lt hb] at heq; omega
  · rw [Nat.mod_eq_of_lt ha, Nat.mod_eq_sub_mod hb, Nat.mod_eq_of_lt (by omega)] at heq; omega
  · omega
  · rw [Nat.mod_eq_sub_mod ha, Nat.mod_eq_of_lt (by omega), Nat.mod_eq_sub_mod hb,
      Nat.mod_eq_of_lt (by omega)] at heq
    omega

theorem toList_push (h : r.WF d) (hlt : r.cnt < d) : (r.push d x).toList d = r.toList d ++ [x] := by
  simp only [toList, push, List.range_succ, List.map_append, List.map_cons, List.map_nil]
  congr 1
  · refine List.map_congr_left fun i hi => update_of_ne ?_ _ _
    exact wr_ne h (List.mem_range.1 hi) hlt
  · rw [h.wr_eq, update_self]

theorem WF.push (h : r.WF d) (hlt : r.cnt < d) : (r.push d x).WF d where
  pos := h.pos
  rd_lt := h.rd_lt
  le := hlt
  wr_eq := by
    simp only [Ring.push, h.wr_eq, Nat.mod_add_mod, Nat.add_assoc]

theorem WF.wr_lt (h : r.WF d) : r.wr < d := by rw [h.wr_eq]; exact Nat.mod_lt _ h.pos

end Ring

end Ring
