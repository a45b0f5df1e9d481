import StrictContract.Value.Rendering

/-! # Members — the member of an enumeration that a value stands for

A member stands for itself, and any number for the member with that tag. Members of other
enumerations are numbers, too, unless their enumeration does not let them be compared. -/

namespace StrictContract.Enumeration

/-- The member that a number stands for; a value that is no member stays as it is. -/
def memberOf (e : Enumeration) (v : Value) : Value :=
  match v.number?.bind e.find? with
  | some (name, tag) => .member e name tag
  | none => v

/-- The name and the tag of the member that a value stands for, if there is one. -/
def lookUp (e : Enumeration) (v : Value) : Except Failure (Option (String × Nat)) := do
  if e.names.isEmpty then misuse .wrongType
  let own := match v with
    | .member e' _ _ => e' == e
    | _ => false
  if !own && v.lacks "__eq__" then misuse .wrongType
  match v.number?.bind e.find? with
  | some found => return some found
  | none =>
    let _ ← v.shown
    if e.lacks "_missing_" then misuse .wrongType
    return none

/-- The member that a value stands for; there has to be one. -/
def memberOf? (e : Enumeration) (v : Value) : Except Failure Value := do
  match ← e.lookUp v with
  | some (name, tag) => return .member e name tag
  | none => reject (.noMember (← v.shown) e.name)

end StrictContract.Enumeration
