import ObjectLang.Scope.Forest

/-!
What the operations on a forest do to what can be seen of it: the number of scopes, the scopes
around each, and the bindings of each. New scopes change nothing about old ones, and binding a
name changes the bindings of one scope.
-/

namespace ObjectLang.Forest

variable {α : Type} (f : Forest α) (s t : ScopeId) (name : String) (value : α) (own : Bindings α)

@[simp] theorem size_addRoot : (f.addRoot own).size = f.size + 1 := by simp [addRoot, size]

@[simp] theorem size_addChild : (f.addChild s own).size = f.size + 1 := by simp [addChild, size]

@[simp] theorem size_insert : (f.insert s name value).size = f.size := by simp [insert, size]

theorem own_of_size_le {f : Forest α} {s : ScopeId} (h : f.size ≤ s) : f.own s = ∅ := by
  simp [Forest.own, Array.getElem?_eq_none (show f.frames.size ≤ s from h)]

theorem outer_of_size_le {f : Forest α} {s : ScopeId} (h : f.size ≤ s) : f.outer s = [] := by
  simp [outer, Array.getElem?_eq_none (show f.frames.size ≤ s from h)]

theorem frames_push (frame : Frame α) :
    (f.frames.push frame)[s]? = if s = f.size then some frame else f.frames[s]? :=
  Array.getElem?_push

theorem own_addRoot : (f.addRoot own).own s = if s = f.size then own else f.own s := by
  by_cases h : s = f.size <;> simp only [Forest.own, addRoot, frames_push, h, if_true, if_false]

theorem own_addChild : (f.addChild t own).own s = if s = f.size then own else f.own s := by
  by_cases h : s = f.size <;> simp only [Forest.own, addChild, frames_push, h, if_true, if_false]

theorem outer_addRoot : (f.addRoot own).outer s = f.outer s := by
  by_cases h : s = f.size
  · rw [outer_of_size_le (Nat.le_of_eq h.symm)]
    simp only [outer, addRoot, frames_push, h, if_true]
  · simp only [outer, addRoot, frames_push, h, if_false]

theorem outer_addChild :
    (f.addChild t own).outer s = if s = f.size then f.chain t else f.outer s := by
  by_cases h : s = f.size <;> simp only [outer, addChild, frames_push, h, if_true, if_false]

theorem own_insert_of_ne {f : Forest α} {s t : ScopeId} (h : s ≠ t) :
    (f.insert t name value).own s = f.own s := by
  simp [Forest.own, insert, Array.getElem?_modify, h.symm]

/-- Binding a name in a scope that exists changes that scope, and in no other way. -/
theorem own_insert {f : Forest α} {t : ScopeId} (h : t < f.size) :
    (f.insert t name value).own s = if s = t then (f.own t).insert name value else f.own s := by
  have ht : f.frames[t]? = some f.frames[t] := Array.getElem?_eq_getElem h
  by_cases hs : s = t
  · subst hs
    simp [Forest.own, insert, Array.getElem?_modify, ht]
  · simp [own_insert_of_ne name value hs, hs]

theorem outer_insert : (f.insert t name value).outer s = f.outer s := by
  simp only [outer, insert, Array.getElem?_modify]
  by_cases h : t = s
  · subst h
    cases f.frames[t]? <;> simp
  · simp [h]

theorem chain_insert : (f.insert t name value).chain s = f.chain s := by
  simp [chain, outer_insert]

/-- Forests in which the same can be seen are the same. -/
theorem ext_frames {f g : Forest α} (hsize : f.size = g.size)
    (houter : ∀ s, f.outer s = g.outer s) (hown : ∀ s, f.own s = g.own s) : f = g := by
  obtain ⟨fs⟩ := f
  obtain ⟨gs⟩ := g
  congr 1
  refine Array.ext hsize fun s hs hs' => ?_
  have houter := houter s
  have hown := hown s
  simp only [outer, Forest.own, Array.getElem?_eq_getElem hs, Array.getElem?_eq_getElem hs']
    at houter hown
  cases hf : fs[s]
  cases hg : gs[s]
  simp only [hf, hg] at houter hown
  rw [houter, hown]

/-- A name that is bound in a new scope could have been bound in it from the start. -/
theorem insert_addChild :
    (f.addChild s own).insert f.size name value = f.addChild s (own.insert name value) := by
  have hlt : f.size < (f.addChild s own).size := by simp
  refine ext_frames (by simp) (fun t => ?_) fun t => ?_
  · rw [outer_insert, outer_addChild, outer_addChild]
  · rw [own_insert t name value hlt, own_addChild, own_addChild, own_addChild, if_pos rfl]
    split <;> rfl

end ObjectLang.Forest
