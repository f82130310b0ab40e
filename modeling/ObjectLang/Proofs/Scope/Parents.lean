import ObjectLang.Proofs.Scope.Lookup
import ObjectLang.Proofs.Scope.Visibility

/-!
Names that are bound close by: in a scope itself, or in the one right around it. What is further out
makes no difference to them.
-/

namespace ObjectLang.Forest

variable {α : Type} {f : Forest α} {s t : ScopeId} {name other : String} {value : α}
  {own : Bindings α}

theorem parent?_addChild : (f.addChild t own).parent? f.size = some t := by
  rw [parent?, outer_addChild, if_pos rfl]
  rfl

theorem parent?_insert : (f.insert t name value).parent? s = f.parent? s := by
  rw [parent?, outer_insert, parent?]

theorem lookupOwn_addChild_new : (f.addChild t own).lookupOwn f.size name = own.find? name := by
  rw [lookupOwn, own_addChild, if_pos rfl]

theorem lookupOwn_addChild_of_lt (hs : s < f.size) :
    (f.addChild t own).lookupOwn s name = f.lookupOwn s name := by
  rw [lookupOwn, own_addChild, if_neg (Nat.ne_of_lt hs), lookupOwn]

theorem lookupOwn_insert_self (hs : s < f.size) :
    (f.insert s name value).lookupOwn s name = some value := by
  rw [lookupOwn_insert_eq hs, if_pos ⟨rfl, rfl⟩]

theorem lookupOwn_insert_of_name_ne (hs : s < f.size) (hname : other ≠ name) :
    (f.insert s name value).lookupOwn t other = f.lookupOwn t other := by
  rw [lookupOwn_insert_eq hs, if_neg fun h => hname h.2]

theorem lookupOwn_insert_of_scope_ne (hst : t ≠ s) :
    (f.insert s name value).lookupOwn t other = f.lookupOwn t other := by
  rw [lookupOwn, own_insert_of_ne name value hst, lookupOwn]

theorem lt_size_of_lookupOwn (h : f.lookupOwn s name = some value) : s < f.size :=
  lt_size_of_mem_names (Bindings.mem_names_iff.2 ⟨value, h⟩)

theorem lookup_of_own (h : f.lookupOwn s name = some value) : f.lookup s name = some value := by
  rw [lookup_eq, h, Option.some_or]

section Parent

variable (ht : f.parent? s = some t) (hs : f.lookupOwn s name = none)
  (hvalue : f.lookupOwn t name = some value)
include ht hs hvalue

theorem lookup_of_parent : f.lookup s name = some value := by
  obtain ⟨rest, hrest⟩ := List.head?_eq_some_iff.1 ht
  rw [lookup_eq, hs, Option.none_or, hrest, List.findSome?_cons, hvalue]

theorem owner_of_parent : f.owner? s name = some t := by
  obtain ⟨rest, hrest⟩ := List.head?_eq_some_iff.1 ht
  have hname : name ∈ f.names t := Bindings.mem_names_iff.2 ⟨value, hvalue⟩
  have hnot : name ∉ f.names s := Bindings.find?_eq_none_iff.1 hs
  rw [owner?, chain, hrest, List.find?_cons_of_neg, List.find?_cons_of_pos]
  · exact containsOwn_iff.2 hname
  · rwa [containsOwn_iff]

end Parent

end ObjectLang.Forest
