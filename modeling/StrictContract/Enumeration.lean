/-! # Enumerations — finite types whose members have names and tags

An **enumeration** declares names, each with a tag. The first name with a tag names a **member**;
every further name with the same tag is an **alias** of that member. Other names of a declaration
name no members: they are **attributes**, numbers that the members share. An attribute with the name
of an ability, such as being compared or being shown, takes that ability away from the members. -/

namespace StrictContract

/-- The items of which no earlier one has the same key. -/
def firstByKey {α κ : Type} [DecidableEq κ] (key : α → κ) (items : List α) : List α :=
  (items.foldl (fun acc a => if acc.any (key · = key a) then acc else a :: acc) []).reverse

/-- A declared **enumeration**. -/
structure Enumeration where
  name : String
  /-- The declared names with their tags, aliases included. -/
  names : List (String × Nat)
  /-- The attributes; of two with one name the later one counts. -/
  attributes : List (String × Int) := []
  /-- What tells declarations apart that look alike; the enumerations of this library need nothing
  of the kind. -/
  serial : Nat := 0
deriving DecidableEq

namespace Enumeration

/-- The members by name, each with a tag of its own. -/
def members (e : Enumeration) : List (String × Nat) := firstByKey Prod.snd e.names

/-- The member with a given tag. -/
def find? (e : Enumeration) (tag : Int) : Option (String × Nat) :=
  e.names.find? fun (_, t) => (t : Int) == tag

/-- The member that a name means. -/
def named? (e : Enumeration) (name : String) : Option (String × Nat) := do
  e.find? (← e.names.lookup name)

/-- The attribute that a name means. -/
def attribute? (e : Enumeration) (name : String) : Option Int := e.attributes.reverse.lookup name

/-- The place of a member among the members. -/
def position (e : Enumeration) (name : String) : Nat :=
  e.members.findIdx fun (n, _) => n == name

/-- Whether a declaration gives the name of an ability to something else. -/
def lacks (e : Enumeration) (ability : String) : Bool :=
  (e.names.lookup ability).isSome || (e.attribute? ability).isSome

end Enumeration

end StrictContract
