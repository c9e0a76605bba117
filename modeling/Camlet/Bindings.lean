/-
  Bindings of names. A name has the value it was bound to last; earlier bindings of it stay hidden
  behind that one.
-/

namespace Camlet

/-- Names with their values, the last bound first. -/
abbrev Bindings (α : Type) := List (String × α)

namespace Bindings

variable {α : Type}

/-- The value of a name. -/
def get? (m : Bindings α) (name : String) : Option α :=
  match m with
  | [] => none
  | (k, v) :: rest => if k = name then some v else get? rest name

/-- Binds a name, hiding any binding that it had. -/
def set (m : Bindings α) (name : String) (value : α) : Bindings α := (name, value) :: m

/-- Whether a name is bound. -/
def has (m : Bindings α) (name : String) : Bool := (m.get? name).isSome

@[simp] theorem get?_nil (name : String) : get? ([] : Bindings α) name = none := rfl

theorem get?_set (m : Bindings α) (k name : String) (v : α) :
    (m.set k v).get? name = if k = name then some v else m.get? name := rfl

/-- The bindings of the names that are in `keep`. -/
def restrict (m : Bindings α) (keep : String → Bool) : Bindings α := m.filter fun e => keep e.1

/-- The bindings that are not hidden. -/
def visible : Bindings α → Bindings α
  | [] => []
  | (k, v) :: rest => (k, v) :: (visible rest).filter (·.1 ≠ k)

theorem get?_filter_ne (m : Bindings α) {k name : String} (h : k ≠ name) :
    get? (m.filter (·.1 ≠ k)) name = m.get? name := by
  induction m with
  | nil => rfl
  | cons e rest ih =>
    by_cases he : e.1 = k
    · simp only [List.filter_cons, ne_eq, he, not_true_eq_false, decide_false, Bool.false_eq_true,
        if_false, get?, h, ih]
    · simp only [List.filter_cons, ne_eq, he, not_false_eq_true, decide_true, if_true, get?, ih]

@[simp] theorem get?_visible (m : Bindings α) (name : String) : m.visible.get? name = m.get? name := by
  induction m with
  | nil => rfl
  | cons e rest ih =>
    by_cases h : e.1 = name
    · simp [visible, get?, h]
    · simp only [visible, get?, h, if_false]
      rw [get?_filter_ne _ h, ih]

theorem get?_append (m later : Bindings α) (name : String) :
    get? (later ++ m) name = (later.get? name).or (m.get? name) := by
  induction later with
  | nil => rfl
  | cons e rest ih =>
    by_cases h : e.1 = name
    · simp [get?, h]
    · simp only [List.cons_append, get?, h, if_false, ih]

/-- Adds later bindings, and drops all that are hidden then, so that no name is held twice. -/
def absorb (m later : Bindings α) : Bindings α := visible (later ++ m)

/-- A later binding of a name counts, or else the one that it had. -/
theorem get?_absorb (m later : Bindings α) (name : String) :
    (m.absorb later).get? name = (later.get? name).or (m.get? name) := by
  rw [absorb, get?_visible, get?_append]

/-- The bindings that are not hidden, in the order of their names. -/
def sorted (m : Bindings α) : Bindings α := m.visible.mergeSort fun a b => decide (a.1 ≤ b.1)

/-- The names bound, in order. -/
def names (m : Bindings α) : List String := m.sorted.map (·.1)

end Bindings

end Camlet
