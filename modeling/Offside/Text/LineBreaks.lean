set_option autoImplicit false

/-! # Line breaks

Stored text may end its lines in three ways. `unifyBreaks` turns each of them into a single line
feed. -/

namespace Offside.Text

/-- Carriage return and line feed, or a lone carriage return, become one line feed. -/
def unifyBreaksList : List Char → List Char
  | [] => []
  | '\r' :: '\n' :: rest => '\n' :: unifyBreaksList rest
  | '\r' :: rest => '\n' :: unifyBreaksList rest
  | c :: rest => c :: unifyBreaksList rest

/-- The text with every line break written as a line feed. -/
def unifyBreaks (s : String) : String :=
  String.ofList (unifyBreaksList s.toList)

/-- No carriage return is left. -/
theorem notMem_unifyBreaksList (s : List Char) : '\r' ∉ unifyBreaksList s := by
  fun_induction unifyBreaksList s with
  | case1 => simp
  | case2 rest ih => simp [ih]
  | case3 rest h ih => simp [ih]
  | case4 c rest _ h ih =>
    intro hm
    rcases List.mem_cons.1 hm with hc | hr
    · exact h hc.symm
    · exact ih hr

theorem unifyBreaksList_of_notMem {s : List Char} (h : '\r' ∉ s) : unifyBreaksList s = s := by
  fun_induction unifyBreaksList s with
  | case1 => rfl
  | case2 | case3 => simp at h
  | case4 c rest _ _ ih => rw [ih (List.not_mem_of_not_mem_cons h)]

/-- Text without a carriage return stays as it is. -/
theorem unifyBreaks_of_notMem {s : String} (h : '\r' ∉ s.toList) : unifyBreaks s = s := by
  rw [unifyBreaks, unifyBreaksList_of_notMem h, String.ofList_toList]

end Offside.Text
