import Mathlib.Data.List.Nodup
import Mathlib.Data.List.Perm.Subperm
import Mathlib.Logic.Function.Iterate
import Mathlib.Logic.Relation
import StrictContract.Proofs.TypeLibrary.Sequence

/-! # Unrolling — the recursions of the compiler end by themselves

A step of the compiler hands what it needs to another step, with one more name on the chain. A chain has
no name twice and each name on it is declared, so it is no longer than the list of declarations: once
the recursion is unrolled further than that, what stands for the deeper calls is never asked. Nothing
depends on the fuel then. Without cycles the chain itself is not needed. -/

namespace StrictContract

open TypeSystem

namespace TypeLibrary

variable {lib : TypeLibrary} {used : List (String × SymbolicSystem)}

/-! ## The recursion over declarations -/

/-- A step depends on the chain only in whether the name is on it, and on the deeper calls only for the
references of the declaration of a name that is not. -/
theorem compileStep_congr {recur recur' : List String → Value → String → Compiling SemId}
    {chain chain' : List String} {v : Value} (hchain : ∀ ty, v = .text ty → IsLocal ty →
      (Value.lookup? (.text ty) lib.declarations).isSome → (ty ∈ chain ↔ ty ∈ chain'))
    (hrecur : ∀ ty decl, v = .text ty → IsLocal ty →
      Value.lookup? (.text ty) lib.declarations = some decl → ty ∉ chain →
      ∀ u ∈ references decl, recur (ty :: chain) u = recur' (ty :: chain') u) :
    compileStep lib used recur chain v = compileStep lib used recur' chain' v := by
  funext place
  unfold compileStep
  cases hname : referenceName place v with
  | error e => rfl
  | ok ty =>
  obtain rfl := referenceName_eq_ok.1 hname
  simp only [Form.given_ok, pure_bind]
  cases hbuiltin : Codec.builtin? ty with
  | some builtin => rfl
  | none =>
  cases hcut : Text.cutFirst? '.' ty with
  | some parts => rfl
  | none =>
  refine bind_congr fun w => ?_
  cases w.names.lookup ty with
  | some sid => rfl
  | none =>
  cases hdecl : Value.lookup? (.text ty) lib.declarations with
  | none => rfl
  | some decl =>
  have hmem := hchain ty rfl ⟨hbuiltin, hcut⟩ (by rw [hdecl]; rfl)
  by_cases hin : ty ∈ chain
  · simp only [List.contains_iff_mem.2 hin, List.contains_iff_mem.2 (hmem.1 hin)]
    rfl
  · have hcompile := (scripted_compileDeclaration [] decl ty).congr
      (hrecur ty decl rfl ⟨hbuiltin, hcut⟩ hdecl hin)
    dsimp only
    rw [hcompile, List.contains_eq_mem, List.contains_eq_mem]
    simp only [hmem]

/-- Names on a **chain** of declared ones: none is there twice. -/
structure OnChain (lib : TypeLibrary) (chain : List String) : Prop where
  nodup : chain.Nodup
  declared : ∀ name ∈ chain, (Value.lookup? (.text name) lib.declarations).isSome

/-- A chain is no longer than the list of declarations. -/
theorem OnChain.length_le {chain : List String} (h : lib.OnChain chain) :
    chain.length ≤ lib.declarations.length := by
  have hnodup : (chain.map Value.text).Nodup := h.nodup.map fun _ _ h => Value.text.inj h
  have hsub : chain.map Value.text ⊆ lib.declarations.map Prod.fst := by
    intro v hv
    obtain ⟨name, hname, rfl⟩ := List.mem_map.1 hv
    obtain ⟨decl, hdecl⟩ := Option.isSome_iff_exists.1 (h.declared name hname)
    obtain ⟨k, hk, hsame⟩ := Value.exists_mem_of_lookup? hdecl
    rw [← Value.eq_of_same_text hsame]
    exact List.mem_map_of_mem hk
  simpa using (hnodup.subperm hsub).length_le

/-- What stands for the calls beyond the number of declarations is never asked. -/
theorem iterate_compileStep_congr (recur recur' : List String → Value → String → Compiling SemId)
    (n : Nat) {chain : List String} (hchain : lib.OnChain chain)
    (hn : lib.declarations.length < chain.length + n) (v : Value) :
    (compileStep lib used)^[n] recur chain v = (compileStep lib used)^[n] recur' chain v := by
  induction n generalizing chain v with
  | zero => exact absurd hchain.length_le (Nat.not_le.2 hn)
  | succ n ih =>
    rw [Function.iterate_succ_apply', Function.iterate_succ_apply']
    refine compileStep_congr (fun _ _ _ _ => .rfl) fun ty decl _ _ hdecl hnew u _ => ih ⟨?_, ?_⟩ ?_ u
    · exact List.nodup_cons.2 ⟨hnew, hchain.nodup⟩
    · exact List.forall_mem_cons.2 ⟨by rw [hdecl]; rfl, hchain.declared⟩
    · rw [List.length_cons]
      omega

/-- Compiling a reference is the step unrolled. -/
theorem compileReference_eq_iterate (fuel : Nat) : compileReference lib used fuel =
    (compileStep lib used)^[fuel] (compileReference lib used 0) := by
  induction fuel with
  | zero => rfl
  | succ fuel ih =>
    rw [Function.iterate_succ_apply', ← ih]
    rfl

/-- The recursion over declarations ends by itself: unrolled further than there are declarations, the
step compiles a reference, whatever stands for the deeper calls. -/
theorem iterate_compileStep_eq (recur : List String → Value → String → Compiling SemId) {n : Nat}
    (hn : lib.declarations.length < n) : (compileStep lib used)^[n] recur [] =
      compileReference lib used (lib.declarations.length + 1) [] := by
  obtain ⟨k, rfl⟩ := Nat.exists_eq_add_of_lt hn
  have hstart : lib.OnChain [] := ⟨.nil, nofun⟩
  funext v
  rw [Nat.add_right_comm, Function.iterate_add_apply, compileReference_eq_iterate]
  exact iterate_compileStep_congr _ _ _ hstart (by simp) v

/-! ## Cycles -/

/-- Whether names with a property refer to each other in a **cycle**. -/
def HasCycle (lib : TypeLibrary) (among : String → Prop) : Prop :=
  ∃ a, Relation.TransGen (fun a b => among a ∧ among b ∧ lib.Refers a b) a a

/-- Without a cycle the chain is not needed. On the way to a reference there are names that lead to it,
so it is not among them. -/
theorem iterate_compileStep_eq_unchained (hacyclic : ¬ lib.HasCycle IsLocal)
    (run : Value → String → Compiling SemId) (n : Nat) {chain : List String} {v : Value}
    (hleads : ∀ ty, v = .text ty → IsLocal ty → ∀ name ∈ chain,
      Relation.TransGen (fun a b => IsLocal a ∧ IsLocal b ∧ lib.Refers a b) name ty) :
    (compileStep lib used)^[n] (fun _ => run) chain v =
      (fun run => compileStep lib used (fun _ => run) [])^[n] run v := by
  induction n generalizing chain v with
  | zero => rfl
  | succ n ih =>
    rw [Function.iterate_succ_apply', Function.iterate_succ_apply']
    refine compileStep_congr (fun ty hty hlocal _ => ?_) fun ty decl hty hlocal hdecl _ u hu =>
      ih fun b hb hlocal' name hname => ?_
    · exact iff_of_false (fun hin => hacyclic ⟨ty, hleads ty hty hlocal ty hin⟩) List.not_mem_nil
    · have hstep : IsLocal ty ∧ IsLocal b ∧ lib.Refers ty b :=
        ⟨hlocal, hlocal', decl, hdecl, hb ▸ hu⟩
      rcases List.mem_cons.1 hname with rfl | hname
      · exact .single hstep
      · exact (hleads ty hty hlocal name hname).tail hstep

/-! ## The recursion over libraries -/

variable {libs : List TypeLibrary}

/-- A step depends on the deeper calls only for the uses of a library that is not on the chain. -/
theorem namedStep_congr {recur recur' : List String → List (String × SymbolicSystem) → String →
      Logged (List (String × SymbolicSystem))} {chain : List String} {name : String}
    (hrecur : ∀ lib, find? libs name = some lib → name ∉ chain →
      recur (chain ++ [name]) = recur' (chain ++ [name])) (done : List (String × SymbolicSystem)) :
    namedStep libs recur chain done name = namedStep libs recur' chain done name := by
  unfold namedStep
  split
  · rfl
  dsimp only
  split
  · rfl
  rename_i hnew
  rw [List.contains_iff_mem] at hnew
  cases hfind : find? libs name with
  | none => rfl
  | some lib => rw [hrecur lib hfind hnew]

/-- What stands for the calls beyond the number of libraries is never asked. -/
theorem iterate_namedStep_congr (recur recur' : List String → List (String × SymbolicSystem) →
      String → Logged (List (String × SymbolicSystem))) (n : Nat) {chain : List String}
    (hnodup : chain.Nodup) (hlisted : chain ⊆ libs.map TypeLibrary.name)
    (hn : libs.length < chain.length + n) :
    (namedStep libs)^[n] recur chain = (namedStep libs)^[n] recur' chain := by
  induction n generalizing chain with
  | zero =>
    have hle := (hnodup.subperm hlisted).length_le
    rw [List.length_map] at hle
    exact absurd hle (Nat.not_le.2 hn)
  | succ n ih =>
    rw [Function.iterate_succ_apply', Function.iterate_succ_apply']
    funext done name
    refine namedStep_congr (fun lib hfind hnew => ih (nodup_concat hnodup hnew) ?_ ?_) done
    · obtain ⟨hmem, rfl⟩ := find?_eq_some hfind
      exact List.append_subset.2 ⟨hlisted, List.forall_mem_singleton.2 (List.mem_map_of_mem hmem)⟩
    · rw [List.length_append, List.length_singleton]
      omega

/-- Compiling the library with a name is the step unrolled. -/
theorem compileNamed_eq_iterate (fuel : Nat) :
    compileNamed libs fuel = (namedStep libs)^[fuel] (compileNamed libs 0) := by
  induction fuel with
  | zero => rfl
  | succ fuel ih =>
    rw [Function.iterate_succ_apply', ← ih]
    rfl

/-- The recursion over libraries ends by itself: unrolled further than there are libraries, the step
compiles the library with a name, whatever stands for the deeper calls. -/
theorem iterate_namedStep_eq (recur : List String → List (String × SymbolicSystem) → String →
      Logged (List (String × SymbolicSystem))) {n : Nat} (hn : libs.length < n) :
    (namedStep libs)^[n] recur [] = compileNamed libs (libs.length + 2) [] := by
  obtain ⟨k, rfl⟩ := Nat.exists_eq_add_of_lt hn
  have hstart := List.nil_subset (libs.map TypeLibrary.name)
  rw [compileNamed_eq_iterate, Function.iterate_succ_apply (namedStep libs) (libs.length + 1),
    Nat.add_right_comm, Function.iterate_add_apply]
  exact iterate_namedStep_congr _ _ _ .nil hstart (by simp)

end TypeLibrary

end StrictContract
