import Offside.Value

set_option autoImplicit false

/-! # Bindings

Names and their values, in the order in which the names were first bound. Its view is `get?`, and
`get?_set` says all there is to know about `set`. -/

namespace Offside

/-- Names and their values. -/
structure Bindings where
  entries : List (String × Value)
  deriving DecidableEq, Repr, Inhabited

namespace Bindings

/-- No names. -/
def empty : Bindings := ⟨[]⟩

/-- The value of the first entry for `name`. -/
def findEntry (name : String) : List (String × Value) → Option Value
  | [] => none
  | (x, v) :: rest => if x = name then some v else findEntry name rest

/-- The value of a name. -/
def get? (b : Bindings) (name : String) : Option Value := findEntry name b.entries

/-- Entries with `name` bound to `value`: in its old place, or at the end if it is new. -/
def setEntry (name : String) (value : Value) : List (String × Value) → List (String × Value)
  | [] => [(name, value)]
  | (x, v) :: rest => if x = name then (x, value) :: rest else (x, v) :: setEntry name value rest

/-- Binds a name. -/
def set (b : Bindings) (name : String) (value : Value) : Bindings :=
  ⟨setEntry name value b.entries⟩

/-- The names, in the order in which they were first bound. -/
def names (b : Bindings) : List String := b.entries.map Prod.fst

/-- Binds names one after the other. -/
def setAll (b : Bindings) (entries : List (String × Value)) : Bindings :=
  entries.foldl (fun b e => b.set e.1 e.2) b

@[simp] theorem get?_empty (name : String) : empty.get? name = none := rfl

theorem findEntry_setEntry (name x : String) (value : Value) (entries : List (String × Value)) :
    findEntry x (setEntry name value entries) =
      if x = name then some value else findEntry x entries := by
  induction entries with
  | nil =>
    by_cases h : x = name
    · simp [setEntry, findEntry, h]
    · simp [setEntry, findEntry, h, Ne.symm h]
  | cons e rest ih =>
    obtain ⟨y, v⟩ := e
    by_cases hy : y = name
    · subst hy
      by_cases h : x = y
      · simp [setEntry, findEntry, h]
      · simp [setEntry, findEntry, h, Ne.symm h]
    · by_cases hx : y = x
      · subst hx
        simp [setEntry, findEntry, hy]
      · simp [setEntry, findEntry, hy, hx, ih]

/-- A bound name has the value it was bound to, and no other name is touched. -/
theorem get?_set (b : Bindings) (name x : String) (value : Value) :
    (b.set name value).get? x = if x = name then some value else b.get? x :=
  findEntry_setEntry name x value b.entries

/-- What is bound behind several bindings was bound by one of them, or before. -/
theorem of_get?_setAll {b : Bindings} {entries : List (String × Value)} {x : String} {v : Value}
    (h : (b.setAll entries).get? x = some v) :
    (∃ e ∈ entries, e.2 = v) ∨ b.get? x = some v := by
  induction entries generalizing b with
  | nil => exact .inr h
  | cons e rest ih =>
    rcases ih h with ⟨e', he', hv⟩ | hset
    · exact .inl ⟨e', List.mem_cons_of_mem _ he', hv⟩
    · rw [get?_set] at hset
      by_cases hx : x = e.1
      · rw [if_pos hx] at hset
        exact .inl ⟨e, List.mem_cons_self .., Option.some.inj hset⟩
      · rw [if_neg hx] at hset
        exact .inr hset

end Bindings

end Offside
