import Mathlib.Data.List.TakeDrop
import Mathlib.Data.List.TakeWhile
import StrictContract.Proofs.TypeLibrary.Building

/-! # Extensions — what a further library leaves as it is

Libraries are found by their names. If a further library has a name of its own and the others use only
each other, then these are compiled as without it, and first: all that the further library can do is to
come behind them. A further library with the name of another one takes its place. -/

namespace StrictContract

open TypeSystem

variable {α β : Type}

/-- A loop is the same if its rounds are. -/
theorem foldlM_congr {m : Type → Type} [Monad m] {f g : β → α → m β} {xs : List α}
    (h : ∀ b, ∀ x ∈ xs, f b x = g b x) (b : β) : xs.foldlM f b = xs.foldlM g b := by
  induction xs generalizing b with
  | nil => rfl
  | cons x xs ih =>
    rw [List.foldlM_cons, List.foldlM_cons, h b x (List.mem_cons_self ..)]
    exact bind_congr fun b' => ih (fun b y hy => h b y (List.mem_cons_of_mem _ hy)) b'

/-- A text with a character in it can be cut there. -/
theorem Text.isSome_cutLast? {c : Char} {s : String} (h : c ∈ s.toList) :
    (Text.cutLast? c s).isSome = true := by
  have hdrop : s.toList.reverse.dropWhile (· != c) ≠ [] := fun hdrop => by
    simpa using List.dropWhile_eq_nil_iff.1 hdrop c (List.mem_reverse.2 h)
  unfold cutLast?
  rw [List.span_eq_takeWhile_dropWhile]
  split
  · rename_i heq
    exact absurd (congrArg Prod.snd heq) hdrop
  · rfl

namespace TypeLibrary

variable {libs base : List TypeLibrary} {ext : TypeLibrary}

/-! ## Libraries that use only each other -/

/-- Whether libraries use only each other. -/
def IsClosed (libs : List TypeLibrary) : Prop :=
  ∀ lib ∈ libs, ∀ dep ∈ lib.uses, dep ∈ libs.map TypeLibrary.name

instance (libs : List TypeLibrary) : Decidable (IsClosed libs) :=
  inferInstanceAs (Decidable (∀ lib ∈ libs, ∀ dep ∈ lib.uses, dep ∈ libs.map TypeLibrary.name))

/-- A library with another name is not found. -/
theorem find?_concat_of_ne {name : String} (h : ext.name ≠ name) :
    find? (base ++ [ext]) name = find? base name := by
  unfold find?
  rw [List.reverse_append, List.reverse_singleton, List.singleton_append, List.find?_cons,
    beq_false_of_ne h]

/-- The last library is found under its name. -/
theorem find?_concat_self : find? (base ++ [ext]) ext.name = some ext := by
  unfold find?
  rw [List.reverse_append, List.reverse_singleton, List.singleton_append, List.find?_cons,
    beq_self_eq_true]

/-- Libraries that use only each other are compiled as without a library that has another name. -/
theorem compileNamed_concat (hclosed : IsClosed base) (hname : ext.name ∉ base.map TypeLibrary.name)
    (fuel : Nat) (chain : List String) (done : List (String × SymbolicSystem)) {name : String}
    (hmem : name ∈ base.map TypeLibrary.name) :
    compileNamed (base ++ [ext]) fuel chain done name = compileNamed base fuel chain done name := by
  induction fuel generalizing chain done name with
  | zero => rfl
  | succ fuel ih =>
    rw [compileNamed, compileNamed, namedStep, namedStep,
      find?_concat_of_ne fun h => hname (h ▸ hmem)]
    cases hfind : find? base name with
    | none => rfl
    | some lib =>
      have huses := hclosed lib (find?_eq_some hfind).1
      have hloop := foldlM_congr fun done dep hdep => ih (chain ++ [name]) done (huses dep hdep)
      simp only [hloop]

/-- Nor does it depend on the fuel. -/
theorem compileNamed_fuel {n : Nat} (hn : libs.length < n) :
    compileNamed libs n [] = compileNamed libs (libs.length + 2) [] := by
  rw [compileNamed_eq_iterate n]
  exact iterate_namedStep_eq _ hn

/-- A library with a name of its own is compiled after libraries that use only each other. -/
theorem compileAll_concat (hclosed : IsClosed base) (hname : ext.name ∉ base.map TypeLibrary.name) :
    compileAll (base ++ [ext]) = compileAll base >>= fun done =>
      compileNamed (base ++ [ext]) (base.length + 3) [] done ext.name := by
  have hbase : ∀ done, ∀ lib ∈ base, compileNamed (base ++ [ext]) (base.length + 3) [] done lib.name =
      compileNamed base (base.length + 2) [] done lib.name := by
    intro done lib hlib
    rw [compileNamed_concat hclosed hname _ _ _ (List.mem_map_of_mem hlib),
      compileNamed_fuel (by omega)]
  unfold compileAll
  rw [List.foldlM_append, List.length_append, List.length_singleton, foldlM_congr hbase]
  refine bind_congr fun done => ?_
  rw [List.foldlM_cons]
  exact bind_pure _

end TypeLibrary

/-! ## Standard types -/

namespace StandardTypes

open TypeLibrary

variable {base : List TypeLibrary} {order : List String} {ext : TypeLibrary} {st : StandardTypes}

/-- What the types of libraries are together. -/
theorem compileOver_eq_ok {extension : Option TypeLibrary} {written : List Event} :
    (compileOver base order extension written).1 = .ok st ↔
      ∃ systems written' types,
        compileAll (base ++ extension.toList) written = (.ok systems, written') ∧
        mergeAll systems .empty = (.ok (), types) ∧
        st = ⟨systems, extension.toList.map TypeLibrary.name ++ order, types⟩ := by
  have hrun : ∀ systems, (mergeAll systems).run .empty = mergeAll systems .empty := fun _ => rfl
  unfold compileOver
  rw [bind_apply]
  rcases compileAll (base ++ extension.toList) written with ⟨e | systems, written'⟩
  · exact iff_of_false (fun h => nomatch h) fun ⟨_, _, _, h, _⟩ => nomatch h
  dsimp only
  rw [hrun]
  rcases hmerge : mergeAll systems .empty with ⟨e | u, types⟩
  · refine iff_of_false (fun h => nomatch h) ?_
    rintro ⟨_, _, _, ⟨⟩, h, -⟩
    rw [hmerge] at h
    cases h
  · constructor
    · rintro ⟨⟩
      exact ⟨systems, written', types, rfl, hmerge, rfl⟩
    · rintro ⟨_, _, _, ⟨⟩, h, rfl⟩
      rw [hmerge] at h
      cases h
      rfl

/-- The standard types are compiled from the standard libraries alone. -/
theorem plain_eq : plain = (compileOver standard ["RGBContract", "Bitcoin"] none []).1 := by
  have hresult : ∀ m : Logged StandardTypes, m.result = (m []).1 := fun _ => rfl
  have hcompile : ∀ extension, compile extension =
      compileOver standard ["RGBContract", "Bitcoin"] extension := fun _ => rfl
  rw [plain, hcompile, hresult]

/-- Types for which there is room are merged. -/
theorem exists_mergeAll_of_room {systems : List (String × SymbolicSystem)} {ts : TypeSystem}
    (h : ts.size + (systems.map fun e => e.2.types.size).sum ≤ capacity) :
    ∃ types, mergeAll systems ts = (.ok (), types) := by
  induction systems generalizing ts with
  | nil => exact ⟨ts, rfl⟩
  | cons e systems ih =>
    obtain ⟨library, sys⟩ := e
    rw [List.map_cons, List.sum_cons] at h
    dsimp only at h
    obtain ⟨n, merged, hmerge, hsize⟩ :=
      exists_merge_of_room (show ts.size + sys.types.size ≤ capacity by omega)
    have hroom : merged.size + (systems.map fun e => e.2.types.size).sum ≤ capacity := by omega
    obtain ⟨types, hrest⟩ := ih hroom
    refine ⟨types, ?_⟩
    unfold mergeAll at hrest ⊢
    rw [List.forM_eq_forM, List.forM_cons, bind_apply]
    dsimp only
    rw [bind_apply, hmerge]
    exact hrest

/-- Built libraries have no more types than their bounds say together. -/
theorem sum_sizes_le {known : List (TypeLibrary × Nat)} {systems : List (String × SymbolicSystem)}
    (h : List.Forall₂ Built known systems) :
    (systems.map fun e => e.2.types.size).sum ≤ (known.map Prod.snd).sum := by
  induction h with
  | nil => exact Nat.le_refl _
  | cons he _ ih => exact Nat.add_le_add he.small ih

/-- Libraries for which there is room have types together. -/
theorem exists_compileOver {extension : Option TypeLibrary} {libs : List TypeLibrary}
    {repeated : List String}
    (hnames : (base ++ extension.toList).map TypeLibrary.name = libs.map TypeLibrary.name ++ repeated)
    (hrepeated : ∀ name ∈ repeated, name ∈ libs.map TypeLibrary.name)
    (hfind : ∀ lib ∈ libs, find? (base ++ extension.toList) lib.name = some lib)
    (hroom : ((bounds [] libs).map Prod.snd).sum ≤ capacity) (written : List Event) :
    ∃ st, (compileOver base order extension written).1 = .ok st ∧
      List.Forall₂ Built (bounds [] libs) st.systems := by
  have hbounds : ∀ e ∈ bounds [] libs, e.2 ≤ capacity := fun e he =>
    Nat.le_trans (List.single_le_sum (fun _ _ => Nat.zero_le _) _ (List.mem_map_of_mem he)) hroom
  obtain ⟨systems, written', hrun, hbuilt⟩ :=
    exists_compileAll_of_bounds hnames hrepeated hfind hbounds written
  have hsizes := sum_sizes_le hbuilt
  have hempty : TypeSystem.empty.size = 0 := rfl
  have hmerges : TypeSystem.empty.size + (systems.map fun e => e.2.types.size).sum ≤ capacity := by
    omega
  obtain ⟨types, hmerge⟩ := exists_mergeAll_of_room hmerges
  exact ⟨_, compileOver_eq_ok.2 ⟨systems, written', types, hrun, hmerge, rfl⟩, hbuilt⟩

/-- A declared name of a library that is built is found under its qualified name. -/
theorem exists_get {known : List (TypeLibrary × Nat)} (h : List.Forall₂ Built known st.systems)
    {qualified library name : String} {e : TypeLibrary × Nat} {decl : Value}
    (hcut : Text.cutLast? '.' qualified = some (library, name))
    (hfind : known.find? (fun e => e.1.name == library) = some e) (hlocal : IsLocal name)
    (hdecl : Value.lookup? (.text name) e.1.declarations = some decl) :
    ∃ sid, st.get qualified = .ok sid := by
  obtain ⟨sys, hsys, hbuilt⟩ := exists_built h hfind
  obtain ⟨used, written, hcompile⟩ := hbuilt.compiled
  obtain ⟨sid, hsid⟩ := (finished_of_compile hcompile).exists_lookup hlocal hdecl
  refine ⟨sid, ?_⟩
  simp [get, candidates, hcut, hsys, hsid]

/-- The first declaration of a library is found under its name. -/
theorem lookup?_named_head {name : String} {decl : Value} {rest : List (String × Value)} :
    Value.lookup? (.text name) (Declaration.named ((name, decl) :: rest)) = some decl := by
  simp [Declaration.named, Value.lookup?, Value.same]

/-- The bounds of the standard libraries. -/
theorem bounds_standard : bounds [] standard = [(bitcoin, 32), (rgbContract, 566)] := by
  have hbitcoin : bound [] bitcoin = 32 := by decide +kernel
  have hcontract : bound [(bitcoin, 32)] rgbContract = 566 := by decide +kernel
  rw [standard, bounds, hbitcoin, List.nil_append, bounds, hcontract]
  rfl

/-- **The standard types can be built.** -/
theorem exists_plain : ∃ st, plain = .ok st ∧ List.Forall₂ Built (bounds [] standard) st.systems := by
  rw [plain_eq]
  have hfind : ∀ lib ∈ standard, find? (standard ++ none.toList) lib.name = some lib :=
    List.forall_mem_cons.2 ⟨rfl, List.forall_mem_singleton.2 rfl⟩
  have hnames : (standard ++ none.toList).map TypeLibrary.name =
      standard.map TypeLibrary.name ++ [] := rfl
  exact exists_compileOver hnames (List.forall_mem_nil _) hfind (by rw [bounds_standard]; decide) []

/-- If systems can be merged, then the first ones can. -/
theorem exists_mergeAll_of_prefix {systems systems' : List (String × SymbolicSystem)}
    {ts types : TypeSystem} (hinitial : systems <+: systems')
    (h : mergeAll systems' ts = (.ok (), types)) : ∃ types, mergeAll systems ts = (.ok (), types) := by
  obtain ⟨rest, rfl⟩ := hinitial
  unfold mergeAll at h ⊢
  rw [List.forM_eq_forM, List.forM_append] at h
  obtain ⟨_, types', hfirst, -⟩ := bind_apply_eq_ok.1 h
  exact ⟨types', hfirst⟩

/-- A further library with a name of its own leaves the others as they are. -/
theorem exists_compileOver_none (hclosed : IsClosed base)
    (hname : ext.name ∉ base.map TypeLibrary.name) {written : List Event}
    (h : (compileOver base order (some ext) written).1 = .ok st) :
    ∃ st₀, (compileOver base order none written).1 = .ok st₀ ∧ st₀.systems <+: st.systems := by
  obtain ⟨systems, written', types, hsystems, hmerge, rfl⟩ := compileOver_eq_ok.1 h
  rw [Option.toList_some, compileAll_concat hclosed hname] at hsystems
  obtain ⟨done, written'', hdone, hext⟩ := bind_apply_eq_ok.1 hsystems
  obtain ⟨hsequence, -⟩ := ensures_compileAll_sequence written done (by rw [hdone])
  -- the others are a sequence of the longer list, too, so the further library comes behind them
  have hsequence' : Sequence (base ++ [ext]) done := by
    refine ⟨fun before e after hsplit => ?_, hsequence.nodup⟩
    obtain ⟨lib, hfind, hrest⟩ := hsequence.compiled before e after hsplit
    obtain ⟨hmem, hlib⟩ := find?_eq_some hfind
    have hne : ext.name ≠ e.1 := fun heq => hname (heq ▸ hlib ▸ List.mem_map_of_mem hmem)
    exact ⟨lib, (find?_concat_of_ne hne).trans hfind, hrest⟩
  obtain ⟨-, -, hinitial⟩ :=
    ensures_sequence _ [] hsequence' nofun ext.name written'' systems (by rw [hext])
  obtain ⟨types₀, hmerge₀⟩ := exists_mergeAll_of_prefix hinitial hmerge
  refine ⟨_, compileOver_eq_ok.2 ⟨done, written'', types₀, ?_, hmerge₀, rfl⟩, hinitial⟩
  rwa [Option.toList_none, List.append_nil]

/-- A qualified name keeps its id when further systems come behind those that are there. -/
theorem get_of_prefix {st₀ : StandardTypes} (hinitial : st₀.systems <+: st.systems) {name : String}
    {sid : SemId} (hqualified : (Text.cutLast? '.' name).isSome = true) (h : st₀.get name = .ok sid) :
    st.get name = .ok sid := by
  obtain ⟨⟨library, localName⟩, hcut⟩ := Option.isSome_iff_exists.1 hqualified
  unfold get candidates at h ⊢
  rw [hcut] at h ⊢
  dsimp only at h ⊢
  cases hlookup : st₀.systems.lookup library with
  | none =>
    rw [hlookup] at h
    exact absurd h misuse_ne_ok
  | some sys =>
    obtain ⟨rest, hrest⟩ := hinitial
    rw [← hrest, List.lookup_append, hlookup]
    rwa [hlookup] at h

/-- What stands under the name of a further library is compiled from this library. -/
theorem exists_lookup_extension {written : List Event}
    (h : (compileOver base order (some ext) written).1 = .ok st) :
    ∃ sys, st.systems.lookup ext.name = some sys ∧
      ∃ used written, (ext.compile used written).1 = .ok sys := by
  obtain ⟨systems, written', types, hsystems, -, rfl⟩ := compileOver_eq_ok.1 h
  obtain ⟨hsequence, hall⟩ := ensures_compileAll_sequence written systems (by rw [hsystems])
  have hmem : ext ∈ base ++ [ext] := List.mem_append_right _ (List.mem_singleton.2 rfl)
  obtain ⟨sys, hsys⟩ := Option.isSome_iff_exists.1 (isSome_lookup.2 (hall ext hmem))
  obtain ⟨before, after, hsplit⟩ := List.append_of_mem (mem_of_lookup hsys)
  obtain ⟨lib, hfind, -, written'', hcompile⟩ := hsequence.compiled before _ after hsplit
  obtain rfl := Option.some.inj (find?_concat_self.symm.trans hfind)
  exact ⟨sys, hsys, _, written'', hcompile⟩

/-- A further library with a name of its own changes no qualified name of libraries that use only each
other; so an extension that is not named like a standard library changes no standard type. Whatever it
is named, all that stands under its name is its own. -/
theorem get_of_extension (ext : TypeLibrary) :
    (∀ (base : List TypeLibrary) (order : List String) (st : StandardTypes),
      IsClosed base → ext.name ∉ base.map TypeLibrary.name →
      (compileOver base order (some ext) []).1 = .ok st →
      ∃ st₀, (compileOver base order none []).1 = .ok st₀ ∧ ∀ name sid,
        (Text.cutLast? '.' name).isSome = true → st₀.get name = .ok sid → st.get name = .ok sid) ∧
    (∀ st : StandardTypes, ext.name ∉ ["Bitcoin", "RGBContract"] →
      (compile (some ext) []).1 = .ok st → ∃ st₀, plain = .ok st₀ ∧
        ∀ library ∈ ["RGBContract", "Bitcoin"], ∀ name sid,
          st₀.get (library ++ "." ++ name) = .ok sid → st.get (library ++ "." ++ name) = .ok sid) ∧
    ∀ st : StandardTypes, (compile (some ext) []).1 = .ok st →
      ∃ sys, st.systems.lookup ext.name = some sys ∧
        ∃ used written, (ext.compile used written).1 = .ok sys := by
  refine ⟨fun base order st hclosed hname h => ?_, fun st hname h => ?_, fun st h => ?_⟩
  · obtain ⟨st₀, hst₀, hinitial⟩ := exists_compileOver_none hclosed hname h
    exact ⟨st₀, hst₀, fun name sid hqualified hget => get_of_prefix hinitial hqualified hget⟩
  · have hclosed : IsClosed standard := by decide
    obtain ⟨st₀, hst₀, hinitial⟩ := exists_compileOver_none hclosed hname h
    refine ⟨st₀, plain_eq.trans hst₀, fun library _ name sid hget => get_of_prefix hinitial ?_ hget⟩
    exact Text.isSome_cutLast? (by simp)
  · exact exists_lookup_extension h

/-- An extension of the standard libraries that uses one of them. -/
def ticketing : TypeLibrary where
  name := "Ticketing"
  uses := ["RGBContract"]
  description := ""
  declarations := Declaration.named [
    ("Ticket", Declaration.structOf [("seat", "U32"), ("price", "RGBContract.Amount")])]

/-- The standard amount stays what it is when the standard libraries are extended by tickets. -/
theorem get_of_extension_ticketing : ticketing.name ∉ ["Bitcoin", "RGBContract"] ∧
    ∃ st st₀ sid, (compile (some ticketing) []).1 = .ok st ∧ plain = .ok st₀ ∧
      st₀.get "RGBContract.Amount" = .ok sid ∧ st.get "RGBContract.Amount" = .ok sid := by
  have hname : ticketing.name ∉ ["Bitcoin", "RGBContract"] := by decide
  have hcut : Text.cutLast? '.' "RGBContract.Amount" = some ("RGBContract", "Amount") := by decide
  have hlocal : IsLocal "Amount" := ⟨by decide, by decide⟩
  have hfind : ∀ lib ∈ standard ++ [ticketing], find? (standard ++ [ticketing]) lib.name = some lib :=
    List.forall_mem_cons.2 ⟨rfl, List.forall_mem_cons.2 ⟨rfl, List.forall_mem_singleton.2 rfl⟩⟩
  have hroom : ((bounds [] (standard ++ [ticketing])).map Prod.snd).sum ≤ capacity := by
    have hbound : bound [(bitcoin, 32), (rgbContract, 566)] ticketing ≤ 1000 := by decide +kernel
    have hcapacity : 32 + (566 + (1000 + 0)) ≤ capacity := by decide
    rw [bounds_append, bounds_standard]
    simp only [bounds, List.map_cons, List.map_nil, List.cons_append, List.nil_append,
      List.sum_cons, List.sum_nil]
    omega
  obtain ⟨st, hst, -⟩ : ∃ st, (compile (some ticketing) []).1 = .ok st ∧
      List.Forall₂ Built (bounds [] (standard ++ [ticketing])) st.systems :=
    exists_compileOver (List.append_nil _).symm (List.forall_mem_nil _) hfind hroom []
  obtain ⟨st₀, hst₀, hkeeps⟩ := (get_of_extension ticketing).2.1 st hname hst
  obtain ⟨st₁, hst₁, hbuilt⟩ := exists_plain
  obtain rfl := Except.ok.inj (hst₁.symm.trans hst₀)
  obtain ⟨sid, hsid⟩ := exists_get hbuilt hcut rfl hlocal lookup?_named_head
  exact ⟨hname, st, st₁, sid, hst, hst₁, hsid, hkeeps "RGBContract" (by simp) "Amount" sid hsid⟩

/-- A qualified name whose declaration is the name of a built-in type gives the id of this type. -/
theorem semId_of_get {extension : Option TypeLibrary} {written : List Event} {lib : TypeLibrary}
    {c : Codec} {sid : SemId} {qualified library name ty : String}
    (h : (compileOver base order extension written).1 = .ok st)
    (hfind : find? (base ++ extension.toList) library = some lib) (hlocal : IsLocal name)
    (hdecl : Value.lookup? (.text name) lib.declarations = some (.text ty))
    (hbuiltin : Codec.builtin? ty = some c)
    (hcut : Text.cutLast? '.' qualified = some (library, name)) (hget : st.get qualified = .ok sid) :
    c.core.semId = .ok sid := by
  obtain ⟨systems, written', types, hsystems, -, rfl⟩ := compileOver_eq_ok.1 h
  obtain ⟨hsequence, -⟩ := ensures_compileAll_sequence written systems (by rw [hsystems])
  unfold get candidates at hget
  rw [hcut] at hget
  dsimp only at hget
  cases hlookup : systems.lookup library with
  | none =>
    rw [hlookup] at hget
    exact absurd hget misuse_ne_ok
  | some sys =>
  rw [hlookup] at hget
  obtain ⟨before, after, hsplit⟩ := List.append_of_mem (mem_of_lookup hlookup)
  obtain ⟨lib', hfind', -, written, hcompile⟩ := hsequence.compiled before _ after hsplit
  obtain rfl := Option.some.inj (hfind.symm.trans hfind')
  have hfinished := finished_of_compile hcompile
  obtain ⟨sid', hsid'⟩ := hfinished.exists_lookup hlocal hdecl
  obtain rfl : sid' = sid := by simpa [hsid'] using hget
  -- the declaration recollects the built-in type
  obtain ⟨decl, hdecl', hrun⟩ := (hfinished.course.settled_mem (mem_of_lookup hsid')).declared
  obtain rfl := Option.some.inj (hdecl.symm.trans hdecl')
  obtain ⟨-, -, ty', hty, hanswered⟩ := achieves_recollect (P := fun _ => True) (fun _ _ _ _ => trivial)
    (.text ty) name _ trivial sid' _ hrun
  obtain rfl := Value.text.inj hty
  cases hanswered with
  | builtin hbuiltin' hsid _ =>
    obtain rfl := Option.some.inj (hbuiltin.symm.trans hbuiltin')
    exact hsid
  | qualified hordinary _ _ _ => exact absurd (hordinary.symm.trans hbuiltin) nofun
  | compiled hordinary _ _ => exact absurd (hordinary.symm.trans hbuiltin) nofun

/-- An extension with the name of a standard library, in which an amount is a byte. -/
def replacing : TypeLibrary where
  name := "RGBContract"
  uses := []
  description := ""
  declarations := Declaration.named [("Amount", .text "U8")]

/-- An extension with the name of a standard library replaces it: the standard amount is a number of
eight bytes, and the amount of the extension is not. -/
theorem extension_replaces_standard : ∃ st st₀ sid sid₀, (compile (some replacing) []).1 = .ok st ∧
    plain = .ok st₀ ∧ st.get "RGBContract.Amount" = .ok sid ∧
      st₀.get "RGBContract.Amount" = .ok sid₀ ∧ sid ≠ sid₀ := by
  have hids : (Codec.uint 1).core.semId ≠ (Codec.uint 8).core.semId := by decide +kernel
  have hcut : Text.cutLast? '.' "RGBContract.Amount" = some ("RGBContract", "Amount") := by decide
  have hlocal : IsLocal "Amount" := ⟨by decide, by decide⟩
  have hfind : ∀ lib ∈ [bitcoin, replacing], find? (standard ++ [replacing]) lib.name = some lib :=
    List.forall_mem_cons.2 ⟨rfl, List.forall_mem_singleton.2 rfl⟩
  have hnames : (standard ++ (some replacing).toList).map TypeLibrary.name =
      [bitcoin, replacing].map TypeLibrary.name ++ ["RGBContract"] := rfl
  -- the extension is compiled where the standard library of its name would be
  obtain ⟨st, hst, hbuilt⟩ : ∃ st, (compile (some replacing) []).1 = .ok st ∧
      List.Forall₂ Built (bounds [] [bitcoin, replacing]) st.systems :=
    exists_compileOver hnames (by decide) hfind (by decide +kernel) []
  obtain ⟨st₀, hst₀, hbuilt₀⟩ := exists_plain
  obtain ⟨sid, hsid⟩ := exists_get hbuilt hcut rfl hlocal lookup?_named_head
  obtain ⟨sid₀, hsid₀⟩ := exists_get hbuilt₀ hcut rfl hlocal lookup?_named_head
  refine ⟨st, st₀, sid, sid₀, hst, hst₀, hsid, hsid₀, ?_⟩
  rintro rfl
  have h := semId_of_get hst rfl hlocal lookup?_named_head rfl hcut hsid
  have h₀ := semId_of_get (plain_eq.symm.trans hst₀) rfl hlocal lookup?_named_head rfl hcut hsid₀
  exact hids (h.trans h₀.symm)

end StandardTypes

end StrictContract
