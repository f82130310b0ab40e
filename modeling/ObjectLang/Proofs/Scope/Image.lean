import ObjectLang.Scope.Lemmas

/-!
Forests under a function on what their names are bound to. Names, nesting and numbers of scopes stay
the same, so every operation on a forest can be done before or after.
-/

namespace ObjectLang

variable {α β : Type} (f : α → β)

namespace Bindings

/-- The same names bound to the images of their values. -/
def map (b : Bindings α) : Bindings β :=
  ⟨b.entries.map fun e => (e.1, f e.2), by simpa [Function.comp_def] using b.names_nodup⟩

@[simp] theorem map_empty : (∅ : Bindings α).map f = ∅ := rfl

@[simp] theorem map_singleton (name : String) (value : α) :
    (singleton name value).map f = singleton name (f value) := rfl

@[simp] theorem names_map (b : Bindings α) : (b.map f).names = b.names := by
  simp [map, names, Function.comp_def]

@[simp] theorem size_map (b : Bindings α) : (b.map f).size = b.size := by simp [size_eq]

@[simp] theorem contains_map (b : Bindings α) (name : String) :
    (b.map f).contains name = b.contains name := by simp [contains]

theorem findIn_map (name : String) (es : List (String × α)) :
    findIn name (es.map fun e => (e.1, f e.2)) = (findIn name es).map f := by
  induction es with
  | nil => rfl
  | cons e es ih => by_cases he : e.1 = name <;> simp [findIn, he, ih]

@[simp] theorem find?_map (b : Bindings α) (name : String) :
    (b.map f).find? name = (b.find? name).map f := findIn_map f name b.entries

theorem put_map (name : String) (value : α) (es : List (String × α)) :
    put name (f value) (es.map fun e => (e.1, f e.2)) =
      (put name value es).map fun e => (e.1, f e.2) := by
  induction es with
  | nil => rfl
  | cons e es ih => by_cases he : e.1 = name <;> simp [put, he, ih]

theorem map_insert (b : Bindings α) (name : String) (value : α) :
    (b.insert name value).map f = (b.map f).insert name (f value) :=
  ext_entries (put_map f name value b.entries).symm

theorem map_zip (names : List String) (values : List α) (h : names.Nodup) :
    (zip names values h).map f = zip names (values.map f) h :=
  ext_entries (by simp [zip, map, List.zip_map_right, Prod.map])

end Bindings

namespace Forest

/-- The same scopes with the images of all that is bound in them. -/
def map (Γ : Forest α) : Forest β :=
  ⟨Γ.frames.map fun frame => ⟨frame.outer, frame.own.map f⟩⟩

@[simp] theorem size_map (Γ : Forest α) : (Γ.map f).size = Γ.size := by simp [map, size]

@[simp] theorem outer_map (Γ : Forest α) (s : ScopeId) : (Γ.map f).outer s = Γ.outer s := by
  simp only [outer, map, Array.getElem?_map]
  cases Γ.frames[s]? <;> rfl

@[simp] theorem own_map (Γ : Forest α) (s : ScopeId) : (Γ.map f).own s = (Γ.own s).map f := by
  simp only [Forest.own, map, Array.getElem?_map]
  cases Γ.frames[s]? <;> rfl

@[simp] theorem chain_map (Γ : Forest α) (s : ScopeId) : (Γ.map f).chain s = Γ.chain s := by
  simp [chain]

@[simp] theorem names_map (Γ : Forest α) (s : ScopeId) : (Γ.map f).names s = Γ.names s := by
  simp [names]

@[simp] theorem lookupOwn_map (Γ : Forest α) (s : ScopeId) (name : String) :
    (Γ.map f).lookupOwn s name = (Γ.lookupOwn s name).map f := by simp [lookupOwn]

@[simp] theorem containsOwn_map (Γ : Forest α) (s : ScopeId) (name : String) :
    (Γ.map f).containsOwn s name = Γ.containsOwn s name := by simp [containsOwn]

@[simp] theorem contains_map (Γ : Forest α) (s : ScopeId) (name : String) :
    (Γ.map f).contains s name = Γ.contains s name := by simp [contains]

@[simp] theorem owner?_map (Γ : Forest α) (s : ScopeId) (name : String) :
    (Γ.map f).owner? s name = Γ.owner? s name := by simp [owner?]

@[simp] theorem lookup_map (Γ : Forest α) (s : ScopeId) (name : String) :
    (Γ.map f).lookup s name = (Γ.lookup s name).map f := by
  simp only [lookup, chain_map, lookupOwn_map, List.map_findSome?, Function.comp_def]

@[simp] theorem map_addRoot (Γ : Forest α) (own : Bindings α) :
    (Γ.addRoot own).map f = (Γ.map f).addRoot (own.map f) := by simp [map, addRoot]

@[simp] theorem map_addChild (Γ : Forest α) (s : ScopeId) (own : Bindings α) :
    (Γ.addChild s own).map f = (Γ.map f).addChild s (own.map f) := by
  have hchain : (Γ.map f).chain s = Γ.chain s := chain_map f Γ s
  rw [addChild, addChild, hchain]
  simp [map]

@[simp] theorem map_insert (Γ : Forest α) (s : ScopeId) (name : String) (value : α) :
    (Γ.insert s name value).map f = (Γ.map f).insert s name (f value) := by
  simp only [map, insert, mk.injEq]
  apply Array.ext_getElem?
  intro t
  simp only [Array.getElem?_map, Array.getElem?_modify]
  split <;> cases Γ.frames[t]? <;> simp [Bindings.map_insert]

end Forest

end ObjectLang
