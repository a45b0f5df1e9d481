import Mathlib.Data.List.Nodup
import StrictContract.Value.Keys

/-! # Values as keys — when nothing coincides

The elements of a set and the keys of a mapping are compared when the collection is made. Where no
two of them are the same, the collection has all of them, in the order in which they were given, and
what is found under a text is what stands there under it. -/

namespace StrictContract.Value

/-- Items of which no two are the same stay as they are. -/
theorem distinct_eq_self {items : List Value} (h : items.Pairwise fun a b => same b a = false) :
    distinct items = items := by
  have key : ∀ members : List Value, (∀ v ∈ items, ∀ m ∈ members, same v m = false) →
      items.foldl addMember members = items.reverse ++ members := by
    induction items with
    | nil => intro members _; rfl
    | cons v items ih =>
      intro members hm
      rw [List.pairwise_cons] at h
      rw [List.forall_mem_cons] at hm
      have hnew : addMember members v = v :: members := by
        unfold addMember
        rw [if_neg (by simpa using hm.1)]
      rw [List.foldl_cons, hnew, ih h.2, List.reverse_cons, List.append_assoc, List.singleton_append]
      intro w hw m hmem
      rcases List.mem_cons.1 hmem with rfl | hmem
      · exact h.1 w hw
      · exact hm.2 w hw m hmem
  rw [distinct, key [] (by simp), List.append_nil, List.reverse_reverse]

/-- What is found under a key stands there under the same key. -/
theorem exists_mem_of_lookup? {α : Type} {key : Value} {entries : List (Value × α)} {a : α}
    (h : lookup? key entries = some a) : ∃ k, (k, a) ∈ entries ∧ k.same key = true := by
  obtain ⟨e, he, rfl⟩ := Option.map_eq_some_iff.1 h
  exact ⟨e.1, List.mem_of_find?_eq_some he, by simpa using List.find?_some he⟩

/-- Only a text is the same key as a text. -/
theorem eq_of_same_text {k : Value} {s : String} (h : k.same (.text s) = true) : k = .text s := by
  cases k with
  | text t => simpa [same] using h
  | record type fields =>
    unfold same at h
    split at h <;> simp_all [witnessed?, octets?]
  | _ => simp [same, number?, octets?] at h

/-- Under a text that is a key something is found. -/
theorem exists_lookup?_of_mem {α : Type} {entries : List (Value × α)} {name : String} {a : α}
    (h : (.text name, a) ∈ entries) : ∃ b, lookup? (.text name) entries = some b := by
  have hsome : (entries.find? fun x => same x.1 (.text name)).isSome = true :=
    List.find?_isSome.2 ⟨_, h, by simp [same]⟩
  obtain ⟨e, he⟩ := Option.isSome_iff_exists.1 hsome
  exact ⟨e.2, by rw [lookup?, he]; rfl⟩

/-- What is found under a text, where no key occurs twice. -/
theorem lookup?_text_eq_some_iff {α : Type} {entries : List (Value × α)}
    (hkeys : (entries.map Prod.fst).Nodup) {name : String} {a : α} :
    lookup? (.text name) entries = some a ↔ (.text name, a) ∈ entries := by
  constructor
  · intro h
    obtain ⟨k, hk, hsame⟩ := exists_mem_of_lookup? h
    rwa [← eq_of_same_text hsame]
  · intro hmem
    obtain ⟨b, hb⟩ := exists_lookup?_of_mem hmem
    obtain ⟨k, hk, hsame⟩ := exists_mem_of_lookup? hb
    have heq := List.inj_on_of_nodup_map hkeys hk hmem (eq_of_same_text hsame)
    exact hb.trans (congrArg some (Prod.ext_iff.1 heq).2)

/-- What a mapping has under a text, if it has no key twice. -/
theorem entry?_eq_some_iff {v x : Value} {name : String}
    (h : ((v.entries?.getD []).map Prod.fst).Nodup) :
    v.entry? name = some x ↔ (text name, x) ∈ v.entries?.getD [] := by
  cases v with
  | map entries => exact lookup?_text_eq_some_iff h
  | _ => exact iff_of_false nofun List.not_mem_nil

/-- Entries with new keys are set before those that are known. -/
theorem foldl_setEntry {α : Type} {entries known : List (Value × α)}
    (h : entries.Pairwise fun a b => same a.1 b.1 = false)
    (hknown : ∀ e ∈ entries, ∀ k ∈ known, same k.1 e.1 = false) :
    entries.foldl (fun acc (k, a) => setEntry acc k a) known = entries.reverse ++ known := by
  induction entries generalizing known with
  | nil => rfl
  | cons e entries ih =>
    obtain ⟨k, a⟩ := e
    rw [List.pairwise_cons] at h
    rw [List.forall_mem_cons] at hknown
    have hnew : setEntry known k a = (k, a) :: known := by
      unfold setEntry
      rw [if_neg (by simpa using hknown.1)]
    rw [List.foldl_cons]
    simp only [hnew]
    rw [ih h.2, List.reverse_cons, List.append_assoc, List.singleton_append]
    intro f hf l hmem
    rcases List.mem_cons.1 hmem with rfl | hmem
    · exact h.1 f hf
    · exact hknown.2 f hf l hmem

/-- Entries of which no two have the same key stay as they are. -/
theorem unique_eq_self {α : Type} {entries : List (Value × α)}
    (h : entries.Pairwise fun a b => same a.1 b.1 = false) : unique entries = entries := by
  rw [unique, foldl_setEntry h (by simp), List.append_nil, List.reverse_reverse]

end StrictContract.Value
