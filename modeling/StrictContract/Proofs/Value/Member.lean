import StrictContract.Proofs.Outcome

/-! # Members — which member a value is looked up as

A value is looked up by the number that it stands for. Members of an enumeration that does not let
them be compared are found in their own enumeration only. -/

namespace StrictContract.Enumeration

variable {e : Enumeration}

/-- A tag is found when a name is declared with it. -/
theorem find?_eq_some {tag : Int} {name : String} {t : Nat} (h : e.find? tag = some (name, t)) :
    (name, t) ∈ e.names ∧ (t : Int) = tag :=
  ⟨List.mem_of_find?_eq_some h, by simpa using List.find?_some h⟩

/-- A value is looked up as a member when its number is found and it can be compared. -/
theorem lookUp_eq_some {v : Value} {found : String × Nat} :
    e.lookUp v = .ok (some found) ↔ v.number?.bind e.find? = some found ∧
      (v.lacks "__eq__" = true → ∃ name tag, v = .member e name tag) := by
  unfold lookUp
  simp only [misuse, unless_eq_ok]
  cases hfind : v.number?.bind e.find? with
  | none =>
    simp only [reduceCtorEq, false_and, iff_false, not_and]
    intro _ _ h
    obtain ⟨_, -, h⟩ := bind_eq_ok.1 h
    have h' := (unless_eq_ok.1 h).2
    cases h'
  | some x =>
    have hnonempty : ¬ e.names.isEmpty = true := by
      obtain ⟨n, -, hn⟩ := Option.bind_eq_some_iff.1 hfind
      exact fun hempty => List.not_mem_nil (List.isEmpty_iff.1 hempty ▸ (find?_eq_some hn).1)
    simp only [hnonempty, pure_eq_ok, Option.some.injEq]
    cases v with
    | member e' name tag =>
      by_cases he : e' = e
      · simp [he]
      · simp [he, and_comm]
    | _ => simp [Value.lacks]

end StrictContract.Enumeration
