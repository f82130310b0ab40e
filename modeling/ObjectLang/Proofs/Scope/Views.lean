import ObjectLang.Proofs.Scope.History

/-!
The views of a scope. Whether a name is there, what is bound to it and which names are listed is found
out by separate walks over the scopes around; they all tell the same.
-/

namespace ObjectLang

namespace Bindings

variable {α : Type} {name : String} {value : α}

theorem names_foldl_insert (es : List (String × α)) (b : Bindings α) :
    (es.foldl (fun b e => b.insert e.1 e.2) b).names = (b.names ++ es.map Prod.fst).eraseDups := by
  induction es generalizing b with
  | nil => simp [eraseDups_of_nodup (show b.names.Nodup from b.names_nodup)]
  | cons e es ih =>
    rw [List.foldl_cons, ih, names_insert_eq, eraseDups_append_eraseDups, List.append_assoc]
    rfl

theorem find?_foldl_insert {es : List (String × α)} (hes : (es.map Prod.fst).Nodup)
    (b : Bindings α) : (es.foldl (fun b e => b.insert e.1 e.2) b).find? name =
      (findIn name es).or (b.find? name) := by
  induction es generalizing b with
  | nil => rfl
  | cons e es ih =>
    rw [List.map_cons, List.nodup_cons] at hes
    rw [List.foldl_cons, ih hes.2, find?_insert, findIn]
    split
    · next he =>
      rw [findIn_eq_none_iff.2 (he ▸ hes.1)]
      rfl
    · rfl

theorem names_merge (outer inner : Bindings α) :
    (outer.merge inner).names = (outer.names ++ inner.names).eraseDups :=
  names_foldl_insert inner.entries outer

theorem find?_merge (outer inner : Bindings α) (name : String) :
    (outer.merge inner).find? name = (inner.find? name).or (outer.find? name) :=
  find?_foldl_insert inner.names_nodup outer

end Bindings

namespace Forest

variable {α : Type} {f : Forest α} {s t : ScopeId} {name : String} {value : α}
  {steps : List (Step α)}

/-- The outermost scope comes first, and a name stays where it comes first. -/
theorem names_collect (f : Forest α) (s : ScopeId) :
    (f.collect s).names = ((f.chain s).reverse.flatMap f.names).eraseDups := by
  rw [collect]
  induction f.chain s with
  | nil => rfl
  | cons t ts ih =>
    rw [List.foldr_cons, Bindings.names_merge, ih, eraseDups_append_eraseDups, List.reverse_cons,
      List.flatMap_append, List.flatMap_singleton, names]

/-- Looking up stops at the first scope that collecting would let through to the end. -/
theorem find?_collect (f : Forest α) (s : ScopeId) (name : String) :
    (f.collect s).find? name = f.lookup s name := by
  rw [collect, lookup]
  induction f.chain s with
  | nil => rfl
  | cons t ts ih =>
    rw [List.foldr_cons, Bindings.find?_merge, ih, List.findSome?_cons, lookupOwn]
    cases (f.own t).find? name <;> rfl

theorem contains_iff_mem_collect : f.contains s name = true ↔ name ∈ (f.collect s).names := by
  rw [contains_iff, Bindings.mem_names_iff, find?_collect]
  exact ⟨exists_lookup, fun ⟨_, h⟩ => mem_namesFrom_of_lookup h⟩

theorem owner?_eq_some_iff : f.owner? s name = some t ↔ ∃ inner outer,
    f.chain s = inner ++ t :: outer ∧ (∀ u ∈ inner, name ∉ f.names u) ∧ name ∈ f.names t := by
  rw [owner?, List.find?_eq_some_iff_append, containsOwn_iff]
  simp only [Bool.not_eq_true', ← Bool.not_eq_true, containsOwn_iff]
  constructor
  · rintro ⟨hname, inner, outer, hchain, hinner⟩
    exact ⟨inner, outer, hchain, hinner, hname⟩
  · rintro ⟨inner, outer, hchain, hinner, hname⟩
    exact ⟨hname, inner, outer, hchain, hinner⟩

theorem lookup_eq_some_iff : f.lookup s name = some value ↔
    ∃ t, f.owner? s name = some t ∧ f.lookupOwn t name = some value := by
  refine ⟨owner_of_lookup, ?_⟩
  rintro ⟨t, howner, hvalue⟩
  have hname : name ∈ f.namesFrom s := mem_namesFrom.2
    ⟨t, List.mem_of_find?_eq_some howner, mem_names_of_owner howner⟩
  obtain ⟨v, hv⟩ := exists_lookup hname
  obtain ⟨u, howner', hvalue'⟩ := owner_of_lookup hv
  obtain rfl : u = t := Option.some.inj (howner'.symm.trans howner)
  exact hv.trans (hvalue'.symm.trans hvalue)

/-- The nearest scope that owns the name decides. -/
theorem lookup_eq_some_iff_nearest : f.lookup s name = some value ↔ ∃ inner t outer,
    f.chain s = inner ++ t :: outer ∧ (∀ u ∈ inner, name ∉ f.names u) ∧
      f.lookupOwn t name = some value := by
  rw [lookup_eq_some_iff]
  constructor
  · rintro ⟨t, howner, hvalue⟩
    obtain ⟨inner, outer, hchain, hinner, -⟩ := owner?_eq_some_iff.1 howner
    exact ⟨inner, t, outer, hchain, hinner, hvalue⟩
  · rintro ⟨inner, t, outer, hchain, hinner, hvalue⟩
    have hname : name ∈ f.names t := Bindings.mem_names_iff.2 ⟨value, hvalue⟩
    exact ⟨t, owner?_eq_some_iff.2 ⟨inner, outer, hchain, hinner, hname⟩, hvalue⟩

theorem assign_eq_ok_iff_nearest {g : Forest α} : f.assign s name value = .ok g ↔
    ∃ inner t outer, f.chain s = inner ++ t :: outer ∧ (∀ u ∈ inner, name ∉ f.names u) ∧
      name ∈ f.names t ∧ g = f.insert t name value := by
  rw [assign]
  constructor
  · intro h
    split at h
    · next t howner =>
      obtain ⟨inner, outer, hchain, hinner, hname⟩ := owner?_eq_some_iff.1 howner
      exact ⟨inner, t, outer, hchain, hinner, hname, (Except.ok.inj h).symm⟩
    · cases h
  · rintro ⟨inner, t, outer, hchain, hinner, hname, rfl⟩
    rw [owner?_eq_some_iff.2 ⟨inner, outer, hchain, hinner, hname⟩]

/-- In a forest made step by step from nothing, all views of a scope agree. Its own names are those
that were defined in it, oldest first, and what it sees is that of the scopes from parent to parent:
whether a name is there and what is bound to it is as in the listing of what is seen, a name that is
not there gives `null`, the nearest scope that owns a name decides, also where the name is assigned to,
and the listing starts from the outermost scope. -/
theorem views_agree (h : Takes (∅ : Forest α) steps) (s : ScopeId) :
    let f := run ∅ steps
    (f.names s).Nodup ∧
    f.names s = (steps.filterMap (Step.defined? s)).eraseDups ∧
    (∀ p, f.parent? s = some p → p < s) ∧
    f.chain s = s :: ((f.parent? s).map f.chain).getD [] ∧
    (∀ name, (f.containsOwn s name = true ↔ name ∈ (f.visible s true).names) ∧
      (f.contains s name = true ↔ name ∈ (f.visible s false).names)) ∧
    (∀ name, f.lookupOwn s name = (f.visible s true).find? name ∧
      f.lookup s name = (f.visible s false).find? name) ∧
    (∀ name null,
      (f.containsOwn s name = false → (f.lookupOwn s name).getD null = null) ∧
      (f.contains s name = false → (f.lookup s name).getD null = null)) ∧
    (∀ name value, f.lookup s name = some value ↔ ∃ inner t outer,
      f.chain s = inner ++ t :: outer ∧ (∀ u ∈ inner, name ∉ f.names u) ∧
        f.lookupOwn t name = some value) ∧
    (∀ name value g, f.assign s name value = .ok g ↔ ∃ inner t outer,
      f.chain s = inner ++ t :: outer ∧ (∀ u ∈ inner, name ∉ f.names u) ∧ name ∈ f.names t ∧
        g = f.insert t name value) ∧
    (f.visible s true).names = f.names s ∧
    (f.visible s false).names = ((f.chain s).reverse.flatMap f.names).eraseDups := by
  intro f
  have hlinked : Linked f := linked_run linked_empty h
  refine ⟨f.names_nodup s, names_run h s, fun p => hlinked.parent_lt,
    congrArg (s :: ·) (hlinked.outer_eq s), fun name => ⟨containsOwn_iff, contains_iff_mem_collect⟩,
    fun name => ⟨rfl, (f.find?_collect s name).symm⟩,
    fun name null => ⟨fun hown => ?_, fun hnone => ?_⟩,
    fun _ _ => lookup_eq_some_iff_nearest, fun _ _ _ => assign_eq_ok_iff_nearest, rfl,
    f.names_collect s⟩
  · rw [lookupOwn, Bindings.find?_eq_none_iff.2 (not_mem_names hown)]
    rfl
  · have hname : name ∉ (f.collect s).names := by simp [← contains_iff_mem_collect, hnone]
    rw [← find?_collect, Bindings.find?_eq_none_iff.2 hname]
    rfl

/-- Three scopes, one inside the other. The innermost hides a name of the outermost, which gets
another name later; a name is bound to no value, and the last two steps fail. -/
def shadowing : List (Step (Option Nat)) :=
  [.root, .child 0, .child 1, .define 0 "a" (some 1), .define 1 "b" none, .define 2 "a" (some 2),
    .define 0 "c" (some 3), .assign 2 "c" (some 4), .define 2 "a" (some 5), .assign 1 "d" none]

theorem views_agree_shadowing : Takes ∅ shadowing ∧
    ((run ∅ shadowing).visible 2 false).names = ["a", "c", "b"] ∧
    ((run ∅ shadowing).visible 2 false).find? "a" = some (some 2) ∧
    ((run ∅ shadowing).visible 2 false).find? "b" = some none ∧
    ((run ∅ shadowing).visible 2 false).find? "c" = some (some 4) := by
  have htakes : Takes ∅ shadowing := by decide
  obtain ⟨-, -, -, -, -, hlookup, -, -, -, -, hnames⟩ := views_agree htakes 2
  refine ⟨htakes, hnames.trans (by decide), ?_, ?_, ?_⟩
  · exact (hlookup "a").2.symm.trans (by decide)
  · exact (hlookup "b").2.symm.trans (by decide)
  · exact (hlookup "c").2.symm.trans (by decide)

end Forest

end ObjectLang
