import Offside.Proofs.Outcomes

set_option autoImplicit false

/-! # Paths behind paths

What a path comes to is decided by what the path in front of its last name comes to, and by the frame
and the heap. Behind an empty value the frame takes over: there the rest of a path means what it means
on its own, only that an error names the whole path. -/

namespace Offside

/-! ## Longer paths -/

namespace DottedPath

/-- The path that goes on with these names. -/
def append (p : DottedPath) (names : List String) : DottedPath := ⟨p.first, p.rest ++ names⟩

/-- The text of a path that begins with `text` and goes on with these names. -/
def textBehind (text : String) (names : List String) : String :=
  names.foldl (fun text name => text ++ "." ++ name) text

theorem text_eq_textBehind (p : DottedPath) : p.text = textBehind p.first p.rest := by
  obtain ⟨first, rest⟩ := p
  induction rest generalizing first with
  | nil => rfl
  | cons name rest ih => exact ih (first ++ "." ++ name)

theorem text_append (p : DottedPath) (names : List String) :
    (p.append names).text = textBehind p.text names := by
  rw [text_eq_textBehind, text_eq_textBehind, append, textBehind, List.foldl_append]
  rfl

end DottedPath

open DottedPath

/-- The error, where `front` stands in front of the path that it names. -/
def RuntimeError.behind (front : String) : RuntimeError → RuntimeError
  | .undefinedName path => .undefinedName (front ++ path)
  | .objectNeeded (.fieldAccess path) found => .objectNeeded (.fieldAccess (front ++ path)) found
  | e => e

/-! ## Following names -/

namespace RunState

variable (σ : Setting) (st : RunState)

/-- Names are followed one after the other. -/
theorem follow_append (text : String) (v : Value) (names more : List String) :
    st.follow σ text v (names ++ more) =
      (st.follow σ text v names).bind fun w => st.follow σ (textBehind text names) w more := by
  induction names generalizing text v with
  | nil => rfl
  | cons name names ih =>
    cases v with
    | empty => exact ih _ _
    | object o =>
      rw [List.cons_append, follow, follow]
      cases (st.heap.get o).fields.get? name with
      | some w => exact ih _ _
      | none => rfl
    | number | string | bool | classObject => rfl

/-- Where the names lead does not depend on the text of the path, which only errors show. -/
theorem follow_behind (front text : String) (v : Value) (names : List String) :
    st.follow σ (front ++ text) v names =
      (st.follow σ text v names).mapError (RuntimeError.behind front) := by
  induction names generalizing text v with
  | nil => rfl
  | cons name names ih =>
    have htext : front ++ text ++ "." ++ name = front ++ (text ++ "." ++ name) := by
      simp only [String.append_assoc]
    cases v with
    | empty =>
      rw [follow, follow]
      simp only [htext]
      exact ih _ _
    | object o =>
      rw [follow, follow]
      simp only [htext]
      cases (st.heap.get o).fields.get? name with
      | some w => exact ih _ _
      | none => rfl
    | number | string | bool | classObject =>
      rw [follow, follow]
      · simp only [htext]
        rfl
      all_goals simp

theorem resolve_append (p : DottedPath) (names : List String) :
    st.resolve σ (p.append names) =
      (st.resolve σ p).bind fun v => st.follow σ p.text v names := by
  rw [text_eq_textBehind, resolve, resolve]
  simp only [append]
  cases st.frame.get? p.first with
  | some v => exact follow_append σ st p.first v p.rest names
  | none => rfl

end RunState

/-! ## What paths come to -/

open Run

/-- Evaluating a path changes nothing, and what it comes to is decided by its front: if that fails,
the path fails with the same error; behind an object it is the field of its last name, and without
that field the name of the whole path is not defined; behind an empty value it is what the frame binds
the last name to, and empty if it binds it to nothing; behind any other value an object was needed.
So where the front is empty and the frame binds the next name, the names from there on come to what
they come to on their own, except that an error names the whole path. -/
theorem path_decided_by_front (σ : Setting) (st : RunState) (p : DottedPath) :
    (∀ q depth, outcome (execute σ (depth + 1) (.path q)) st =
      ((st.resolve σ q).mapError .failed, st)) ∧
    (∀ name, st.resolve σ (p.append [name]) =
      match st.resolve σ p with
      | .error e => .error e
      | .ok (.object o) =>
        match (st.heap.get o).fields.get? name with
        | some v => .ok v
        | none => .error (.undefinedName (p.append [name]).text)
      | .ok .empty => .ok ((st.frame.get? name).getD .empty)
      | .ok v =>
        .error (.objectNeeded (.fieldAccess (p.append [name]).text) (σ.typeName st.heap v))) ∧
    ∀ name v names, st.resolve σ p = .ok .empty → st.frame.get? name = some v →
      st.resolve σ (p.append (name :: names)) =
        (st.resolve σ ⟨name, names⟩).mapError (RuntimeError.behind (p.text ++ ".")) := by
  refine ⟨?_, ?_, ?_⟩
  · intro q depth
    show outcome (Run.resolve σ q) st = _
    rw [outcome_resolve]
    cases st.resolve σ q <;> rfl
  · intro name
    rw [RunState.resolve_append, text_append]
    cases st.resolve σ p with
    | error e => rfl
    | ok v =>
      cases v with
      | object o =>
        show st.follow σ p.text (.object o) [name] = _
        rw [RunState.follow]
        cases hfield : (st.heap.get o).fields.get? name with
        | some v => simp only [hfield, RunState.follow]
        | none => simp only [hfield, textBehind, List.foldl_cons, List.foldl_nil]
      | empty | number | string | bool | classObject => rfl
  · intro name v names hfront hname
    have hown : st.resolve σ ⟨name, names⟩ = st.follow σ name v names := by
      rw [RunState.resolve, hname]
    rw [RunState.resolve_append, hfront, hown, ← RunState.follow_behind]
    show st.follow σ (p.text ++ "." ++ name) ((st.frame.get? name).getD .empty) names = _
    rw [hname]
    rfl

/-- Two links in a row lead nowhere, and a name that is bound is found behind them, in one path with a
field and in another without it. -/
theorem path_of_broken_links :
    let σ : Setting := ⟨.add .empty ⟨"Node", none, []⟩, false⟩
    let heap : Heap := (((Heap.empty.add ⟨0⟩).setField ⟨0⟩ "next" .empty).add ⟨0⟩).setField ⟨1⟩ "size"
      (.number 7)
    let frame : Bindings := .setAll .empty [("head", .object ⟨0⟩), ("spare", .object ⟨1⟩)]
    let st : RunState := ⟨frame, heap, "", [], #[]⟩
    let front : DottedPath := ⟨"head", ["next", "missing"]⟩
    st.resolve σ front = .ok .empty ∧ st.frame.get? "spare" = some (.object ⟨1⟩) ∧
      st.resolve σ (front.append ["spare", "size"]) = .ok (.number 7) ∧
      st.resolve σ (front.append ["spare", "weight"]) =
        .error (.undefinedName "head.next.missing.spare.weight") := by
  intro σ heap frame st front
  have hfront : st.resolve σ front = .ok .empty := rfl
  have hspare : st.frame.get? "spare" = some (.object ⟨1⟩) := rfl
  obtain ⟨-, -, hrestart⟩ := path_decided_by_front σ st front
  refine ⟨hfront, hspare, ?_, ?_⟩
  · rw [hrestart "spare" _ ["size"] hfront hspare]
    rfl
  · rw [hrestart "spare" _ ["weight"] hfront hspare]
    rfl

end Offside
