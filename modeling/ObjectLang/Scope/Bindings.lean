/-!
Named bindings in the order in which the names were first bound. A name is bound at most once, so a
list of bindings read from left to right is also a finite map. Main statements: `names_insert` and
`find?_insert`, which say all that rebinding or adding a name does.
-/

namespace ObjectLang

/-- A finite map from names that remembers the order in which its names were bound. -/
structure Bindings (α : Type) where
  entries : List (String × α)
  names_nodup : (entries.map Prod.fst).Nodup

namespace Bindings

variable {α : Type}

/-- The bound names, oldest first. -/
def names (b : Bindings α) : List String := b.entries.map Prod.fst

/-- The value at the first entry with the name. -/
def findIn (name : String) : List (String × α) → Option α
  | [] => none
  | e :: r => if e.1 = name then some e.2 else findIn name r

/-- The value bound to a name. -/
def find? (b : Bindings α) (name : String) : Option α := findIn name b.entries

def contains (b : Bindings α) (name : String) : Bool := b.names.contains name

def size (b : Bindings α) : Nat := b.entries.length

def empty : Bindings α := ⟨[], by simp⟩

instance : EmptyCollection (Bindings α) := ⟨empty⟩

instance : Inhabited (Bindings α) := ⟨empty⟩

/-- One name and its value. -/
def singleton (name : String) (value : α) : Bindings α := ⟨[(name, value)], by simp⟩

theorem sublist_map_fst_zip (names : List String) (values : List α) :
    ((names.zip values).map Prod.fst).Sublist names := by
  induction names generalizing values with
  | nil => simp
  | cons n ns ih =>
    cases values with
    | nil => simp
    | cons v vs => simpa using ih vs

/-- Distinct names bound one after another to the values at the same places. -/
def zip (names : List String) (values : List α) (h : names.Nodup) : Bindings α :=
  ⟨names.zip values, h.sublist (sublist_map_fst_zip names values)⟩

/-- Replaces the value at a name that is listed, and adds a name that is not at the end. -/
def put (name : String) (value : α) : List (String × α) → List (String × α)
  | [] => [(name, value)]
  | e :: r => if e.1 = name then (name, value) :: r else e :: put name value r

theorem map_fst_put (name : String) (value : α) (es : List (String × α)) :
    (put name value es).map Prod.fst =
      if name ∈ es.map Prod.fst then es.map Prod.fst else es.map Prod.fst ++ [name] := by
  induction es with
  | nil => simp [put]
  | cons e r ih =>
    by_cases h : e.1 = name
    · simp [put, h]
    · have h' : ¬ name = e.1 := fun he => h he.symm
      by_cases hm : name ∈ r.map Prod.fst
      · simp only [hm, if_true] at ih
        simp [put, h, h', ih, hm]
      · simp only [hm, if_false] at ih
        simp [put, h, h', ih, hm]

theorem nodup_map_fst_put (name : String) (value : α) (es : List (String × α))
    (h : (es.map Prod.fst).Nodup) : ((put name value es).map Prod.fst).Nodup := by
  rw [map_fst_put]
  split
  · exact h
  · next hn =>
    refine List.nodup_append.2 ⟨h, by simp, ?_⟩
    rintro a ha b hb rfl
    exact hn (by simpa [List.mem_singleton.1 hb] using ha)

theorem findIn_put (name other : String) (value : α) (es : List (String × α)) :
    findIn other (put name value es) = if name = other then some value else findIn other es := by
  induction es with
  | nil => simp [put, findIn]
  | cons e r ih =>
    by_cases h : e.1 = name
    · by_cases ho : name = other <;> simp [put, findIn, h, ho]
    · by_cases ho : e.1 = other
      · subst ho
        simp [put, findIn, h, Ne.symm h]
      · simp [put, findIn, h, ho, ih]

/-- Binds a name: at its old place when it has one, and last otherwise. -/
def insert (b : Bindings α) (name : String) (value : α) : Bindings α :=
  ⟨put name value b.entries, nodup_map_fst_put name value b.entries b.names_nodup⟩

/-- Binds names one after another; of several values for one name the last counts. -/
def ofList (es : List (String × α)) : Bindings α :=
  es.foldl (fun b e => b.insert e.1 e.2) ∅

/-- Adds the bindings of `inner` to those of `outer`. A name that both have keeps its place in
`outer` and its value in `inner`. -/
def merge (outer inner : Bindings α) : Bindings α :=
  inner.entries.foldl (fun b e => b.insert e.1 e.2) outer

theorem contains_iff {b : Bindings α} {name : String} :
    b.contains name = true ↔ name ∈ b.names := by
  simp [contains]

theorem mem_entries_of_findIn {name : String} {value : α} {es : List (String × α)}
    (h : findIn name es = some value) : (name, value) ∈ es := by
  induction es with
  | nil => simp [findIn] at h
  | cons e r ih =>
    by_cases he : e.1 = name
    · obtain rfl : e.2 = value := by simpa [findIn, he] using h
      simp [← he]
    · exact List.mem_cons_of_mem _ (ih (by simpa [findIn, he] using h))

theorem findIn_of_mem {name : String} {value : α} {es : List (String × α)}
    (hd : (es.map Prod.fst).Nodup) (h : (name, value) ∈ es) : findIn name es = some value := by
  induction es with
  | nil => simp at h
  | cons e r ih =>
    rw [List.map_cons, List.nodup_cons] at hd
    rcases List.mem_cons.1 h with rfl | h
    · simp [findIn]
    · have he : ¬ e.1 = name := by
        rintro rfl
        exact hd.1 (List.mem_map.2 ⟨_, h, rfl⟩)
      simp [findIn, he, ih hd.2 h]

theorem findIn_eq_none_iff {name : String} {es : List (String × α)} :
    findIn name es = none ↔ name ∉ es.map Prod.fst := by
  induction es with
  | nil => simp [findIn]
  | cons e r ih =>
    by_cases he : e.1 = name
    · simp [findIn, he]
    · simp [findIn, he, Ne.symm he, ih]

theorem findIn_append (name : String) (es rest : List (String × α)) :
    findIn name (es ++ rest) = (findIn name es).or (findIn name rest) := by
  induction es with
  | nil => rfl
  | cons e r ih =>
    by_cases he : e.1 = name <;> simp [findIn, he, ih]

theorem find?_eq_some_iff {b : Bindings α} {name : String} {value : α} :
    b.find? name = some value ↔ (name, value) ∈ b.entries :=
  ⟨mem_entries_of_findIn, findIn_of_mem b.names_nodup⟩

theorem mem_names_iff {b : Bindings α} {name : String} :
    name ∈ b.names ↔ ∃ value, b.find? name = some value := by
  simp [names, find?_eq_some_iff]

theorem find?_eq_none_iff {b : Bindings α} {name : String} :
    b.find? name = none ↔ name ∉ b.names := by
  rw [mem_names_iff, not_exists, Option.eq_none_iff_forall_ne_some]

theorem size_eq (b : Bindings α) : b.size = b.names.length := by simp [size, names]

theorem names_insert (b : Bindings α) (name : String) (value : α) :
    (b.insert name value).names =
      if b.contains name then b.names else b.names ++ [name] := by
  simp only [insert, names, contains, map_fst_put, List.contains_iff_mem]

theorem put_of_not_mem {name : String} {value : α} {es : List (String × α)}
    (h : name ∉ es.map Prod.fst) : put name value es = es ++ [(name, value)] := by
  induction es with
  | nil => rfl
  | cons e r ih =>
    rw [List.map_cons, List.mem_cons, not_or] at h
    simp [put, Ne.symm h.1, ih h.2]

/-- A name that comes last can be bound again. -/
theorem put_append_of_not_mem {name : String} {old value : α} {es : List (String × α)}
    (h : name ∉ es.map Prod.fst) : put name value (es ++ [(name, old)]) = es ++ [(name, value)] := by
  induction es with
  | nil => simp [put]
  | cons e r ih =>
    rw [List.map_cons, List.mem_cons, not_or] at h
    simp [put, Ne.symm h.1, ih h.2]

/-- A new name is bound after all others. -/
theorem entries_insert {b : Bindings α} {name : String} (value : α) (h : name ∉ b.names) :
    (b.insert name value).entries = b.entries ++ [(name, value)] :=
  put_of_not_mem h

theorem ext_entries {a b : Bindings α} (h : a.entries = b.entries) : a = b := by
  cases a
  cases b
  cases h
  rfl

theorem find?_insert (b : Bindings α) (name other : String) (value : α) :
    (b.insert name value).find? other = if name = other then some value else b.find? other :=
  findIn_put name other value b.entries

theorem entries_ofList {es : List (String × α)} (h : (es.map Prod.fst).Nodup) :
    (ofList es).entries = es := by
  have hfold (rest : List (String × α)) (b : Bindings α)
      (hb : ((b.entries ++ rest).map Prod.fst).Nodup) :
      (rest.foldl (fun b e => b.insert e.1 e.2) b).entries = b.entries ++ rest := by
    induction rest generalizing b with
    | nil => simp
    | cons e rest ih =>
      have he : e.1 ∉ b.names := by
        rw [List.map_append, List.nodup_append] at hb
        exact fun hmem => hb.2.2 _ hmem _ (List.mem_cons_self ..) rfl
      have hinsert := entries_insert e.2 he
      rw [List.foldl_cons, ih _ (by simpa [hinsert] using hb), hinsert]
      simp
  exact hfold es ∅ h

end Bindings

end ObjectLang
