import Mathlib.Data.Fin.Basic
import Mathlib.Data.List.Basic
import Mathlib.Logic.Function.Basic
import Mathlib.Data.Nat.ModEq

/-!
# A ring of slots as a queue

A producer fills free slots at its head, a consumer empties used slots at its
offset, and both go round the ring.  What lies between them is a queue: a fill
appends to it, an emptying takes its first entry, and neither needs to know
the other's position.

The consumer can also walk the ring backwards and count free slots.  If the
producer fills slots meanwhile the count is not exact, but it never exceeds
the slots which were free when the walk began.
-/

namespace StockFeed
namespace RingQueue

variable {α : Type} {cc : ℕ}

def next (i : Fin cc) : Fin cc :=
  if h : i.val + 1 < cc then ⟨i.val + 1, h⟩ else ⟨0, i.pos⟩

def prev (i : Fin cc) : Fin cc :=
  if i.val = 0 then ⟨cc - 1, Nat.sub_lt i.pos Nat.one_pos⟩
  else ⟨i.val - 1, (Nat.sub_le _ _).trans_lt i.isLt⟩

/-- The slot which is `d` places ahead. -/
def ahead (i : Fin cc) (d : ℕ) : Fin cc :=
  ⟨(i.val + d) % cc, Nat.mod_lt _ i.pos⟩

@[simp] theorem ahead_zero (i : Fin cc) : ahead i 0 = i := by
  ext
  simp [ahead, Nat.mod_eq_of_lt i.isLt]

@[simp] theorem ahead_ahead (i : Fin cc) (d e : ℕ) :
    ahead (ahead i d) e = ahead i (d + e) := by
  ext
  simp [ahead, Nat.add_assoc]

theorem ahead_wrap (i : Fin cc) (d : ℕ) : ahead i (d + cc) = ahead i d := by
  ext
  simp [ahead, ← Nat.add_assoc]

theorem next_eq_ahead (i : Fin cc) : next i = ahead i 1 := by
  ext
  have hi := i.isLt
  by_cases h : i.val + 1 < cc
  · simp [next, ahead, h, Nat.mod_eq_of_lt]
  · have hlast : i.val + 1 = cc := by omega
    simp [next, ahead, hlast]

theorem ahead_prev (i : Fin cc) : ahead (prev i) 1 = i := by
  ext
  have hi := i.isLt
  by_cases h : i.val = 0
  · have hlast : cc - 1 + 1 = cc := by omega
    simp [prev, ahead, h, hlast]
  · have hsucc : i.val - 1 + 1 = i.val := by omega
    simp [prev, ahead, h, hsucc, Nat.mod_eq_of_lt hi]

theorem ahead_injective {i : Fin cc} {d e : ℕ} (hd : d < cc) (he : e < cc)
    (hsame : ahead i d = ahead i e) : d = e := by
  have hmod : (i.val + d) % cc = (i.val + e) % cc := congrArg Fin.val hsame
  have hcongr : d ≡ e [MOD cc] := Nat.ModEq.add_left_cancel' i.val hmod
  exact hcongr.eq_of_lt_of_lt hd he

theorem exists_ahead (i j : Fin cc) : ∃ d < cc, ahead i d = j := by
  have hi := i.isLt
  have hj := j.isLt
  by_cases hle : i.val ≤ j.val
  · refine ⟨j.val - i.val, by omega, Fin.ext ?_⟩
    have hsum : i.val + (j.val - i.val) = j.val := by omega
    simp [ahead, hsum, Nat.mod_eq_of_lt hj]
  · refine ⟨cc + j.val - i.val, by omega, Fin.ext ?_⟩
    have hsum : i.val + (cc + j.val - i.val) = j.val + cc := by omega
    simp [ahead, hsum, Nat.mod_eq_of_lt hj]

/-- The slots from `offset` to `head` hold the queue, and the others are
free. -/
structure Holds (slots : Fin cc → Option α) (offset head : Fin cc)
    (queue : List α) : Prop where
  length_le : queue.length ≤ cc
  head_eq : head = ahead offset queue.length
  slot : ∀ d < cc, slots (ahead offset d) = queue[d]?

namespace Holds

variable {slots : Fin cc → Option α} {offset head : Fin cc} {queue : List α}

theorem empty (offset : Fin cc) : Holds (fun _ => (none : Option α)) offset offset [] :=
  ⟨Nat.zero_le _, (ahead_zero offset).symm, fun _ _ => rfl⟩

theorem slot_offset (hholds : Holds slots offset head queue) :
    slots offset = queue[0]? := by
  simpa using hholds.slot 0 offset.pos

theorem length_le_of_free
    (hholds : Holds slots offset head queue) {d : ℕ} (hd : d < cc)
    (hfree : slots (ahead offset d) = none) : queue.length ≤ d := by
  rw [hholds.slot d hd] at hfree
  exact List.getElem?_eq_none_iff.mp hfree

theorem length_lt
    (hholds : Holds slots offset head queue) (hfree : slots head = none) :
    queue.length < cc := by
  refine lt_of_le_of_ne hholds.length_le fun hfull => ?_
  have hwrap : head = ahead offset 0 := by
    rw [hholds.head_eq, hfull]
    simpa using ahead_wrap offset 0
  have hempty := hholds.length_le_of_free offset.pos (hwrap ▸ hfree)
  have hpos := offset.pos
  omega

/-- Filling the free slot at the head appends. -/
theorem insert
    (hholds : Holds slots offset head queue) (hfree : slots head = none) (a : α) :
    Holds (Function.update slots head (some a)) offset (next head)
      (queue ++ [a]) := by
  have hlt := hholds.length_lt hfree
  refine ⟨by simp; omega, ?_, fun d hd => ?_⟩
  · rw [next_eq_ahead, hholds.head_eq, ahead_ahead, List.length_append,
      List.length_singleton]
  · by_cases hlast : d = queue.length
    · rw [hlast, ← hholds.head_eq, Function.update_self]
      simp
    · have hother : ahead offset d ≠ head := by
        rw [hholds.head_eq]
        exact fun hsame => hlast (ahead_injective hd hlt hsame)
      rw [Function.update_of_ne hother, hholds.slot d hd]
      rcases lt_or_gt_of_ne hlast with hbelow | habove
      · rw [List.getElem?_append_left hbelow]
      · rw [List.getElem?_eq_none habove.le, List.getElem?_eq_none]
        rw [List.length_append, List.length_singleton]
        omega

/-- Emptying the slot at the offset takes the first entry. -/
theorem remove {a : α} (hholds : Holds slots offset head (a :: queue)) :
    Holds (Function.update slots offset none) (next offset) head queue := by
  have hle := hholds.length_le
  rw [List.length_cons] at hle
  refine ⟨by omega, ?_, fun d hd => ?_⟩
  · rw [hholds.head_eq, next_eq_ahead, ahead_ahead, List.length_cons,
      Nat.add_comm]
  · rw [next_eq_ahead, ahead_ahead]
    by_cases hlast : d + 1 = cc
    · have hwrap : ahead offset (1 + d) = offset := by
        rw [Nat.add_comm, hlast]
        simpa using ahead_wrap offset 0
      rw [hwrap, Function.update_self, List.getElem?_eq_none (by omega)]
    · have hother : ahead offset (1 + d) ≠ offset := by
        intro hsame
        have hzero : ahead offset (1 + d) = ahead offset 0 := by
          rw [hsame, ahead_zero]
        have := ahead_injective (by omega) offset.pos hzero
        omega
      rw [Function.update_of_ne hother, hholds.slot (1 + d) (by omega),
        Nat.add_comm 1 d, List.getElem?_cons_succ]

end Holds

/-! ## Counting free slots backwards -/

/-- A walk from the slot before `offset` has seen `n` free slots and is at
`position`; of the entries which were in the ring when it began, `old` are
left. -/
structure Walk (offset position : Fin cc) (old n : ℕ) : Prop where
  position_eq : ahead position (n + 1) = offset
  room : n = 0 ∨ old = 0 ∨ old + n < cc

namespace Walk

variable {slots : Fin cc → Option α} {offset head position : Fin cc}
  {queue : List α} {old n : ℕ}

theorem start (offset : Fin cc) (old : ℕ) : Walk offset (prev offset) old 0 :=
  ⟨ahead_prev offset, Or.inl rfl⟩

/-- One more free slot; the ring may hold more entries than the old ones. -/
theorem free
    (hwalk : Walk offset position old n) (hn : n < cc)
    (hholds : Holds slots offset head queue) (hold : old ≤ queue.length)
    (hfree : slots (prev position) = none) :
    Walk offset (prev position) old (n + 1) := by
  have hposition : ahead (prev position) (n + 1 + 1) = offset := by
    rw [Nat.add_comm (n + 1) 1, ← ahead_ahead, ahead_prev]
    exact hwalk.position_eq
  refine ⟨hposition, Or.inr ?_⟩
  obtain ⟨d, hd, hahead⟩ := exists_ahead offset (prev position)
  rw [← hahead] at hfree
  have hlength := hholds.length_le_of_free hd hfree
  -- going on from the slot we are back at the offset
  have hround : ahead offset (d + (n + 1 + 1)) = ahead offset 0 := by
    rw [← ahead_ahead, hahead, hposition, ahead_zero]
  rcases Nat.lt_or_ge (n + 1) cc with hlt | hge
  · rcases Nat.lt_or_ge (d + (n + 2)) (cc + 1) with hbelow | habove
    · exact Or.inr (by omega)
    · have hwrap : ahead offset (d + (n + 2) - cc) = ahead offset 0 := by
        rw [← ahead_wrap, Nat.sub_add_cancel (by omega)]
        exact hround
      have := ahead_injective (by omega) offset.pos hwrap
      omega
  · rcases hwalk.room with rfl | hroom
    · omega
    · omega

/-- What is not counted as free covers the old entries. -/
theorem old_le
    (hwalk : Walk offset position old n) (hold : old ≤ cc) : old ≤ cc - n := by
  rcases hwalk.room with hroom | hroom | hroom <;> omega

end Walk

end RingQueue
end StockFeed
