/-!
# Sets of characters as ranges

A Unicode property is given by the ascending list of the code-point ranges it covers.

## Main Definitions

* `inRanges` — membership of a code point in such a list
-/

namespace LosslessEbnf.Text

/-- Whether `n` lies in one of the given ranges, both ends included. The ranges ascend, so the
search ends at the first range that begins above `n`. -/
def inRanges : List (Nat × Nat) → Nat → Bool
  | [], _ => false
  | (low, high) :: rest, n =>
    if n < low then false else if n ≤ high then true else inRanges rest n

@[simp] theorem inRanges_nil (n : Nat) : inRanges [] n = false := rfl

theorem inRanges_cons (low high n : Nat) (rest : List (Nat × Nat)) :
    inRanges ((low, high) :: rest) n =
      if n < low then false else if n ≤ high then true else inRanges rest n := rfl

/-- A code point that is found lies in one of the ranges. -/
theorem exists_mem_of_inRanges {ranges : List (Nat × Nat)} {n : Nat}
    (h : inRanges ranges n = true) : ∃ r ∈ ranges, r.1 ≤ n ∧ n ≤ r.2 := by
  induction ranges with
  | nil => simp at h
  | cons r rest ih =>
    obtain ⟨low, high⟩ := r
    rw [inRanges_cons] at h
    split at h
    · simp at h
    · split at h
      · exact ⟨(low, high), List.mem_cons_self, by omega, by assumption⟩
      · obtain ⟨r, hr, hn⟩ := ih h
        exact ⟨r, List.mem_cons_of_mem _ hr, hn⟩

end LosslessEbnf.Text
