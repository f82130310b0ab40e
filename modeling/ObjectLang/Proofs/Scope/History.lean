import Mathlib.Data.List.Induction
import ObjectLang.Proofs.Scope.Visibility

/-!
Forests in the making. A forest grows by steps that add a scope, define a name or rebind one. What
every step keeps is that the scopes around a scope are those on the way from parent to parent; and a
scope lists the names that have been defined in it, in the order of the definitions.
-/

namespace ObjectLang

section Names

variable {names more : List String} {name : String}

theorem eraseDups_concat (names : List String) (name : String) : (names ++ [name]).eraseDups =
    if name ∈ names then names.eraseDups else names.eraseDups ++ [name] := by
  rw [List.eraseDups_append, List.cons_removeAll]
  by_cases h : name ∈ names <;> simp [h, List.removeAll, List.eraseDups_cons]

theorem nodup_eraseDups (names : List String) : names.eraseDups.Nodup := by
  induction names using List.reverseRecOn with
  | nil => exact .nil
  | append_singleton names name ih =>
    rw [eraseDups_concat]
    split
    · exact ih
    · next h =>
      refine List.nodup_append.2 ⟨ih, by simp, ?_⟩
      rintro a ha b hb rfl
      obtain rfl := List.mem_singleton.1 hb
      exact h (List.mem_eraseDups.1 ha)

theorem eraseDups_of_nodup (h : names.Nodup) : names.eraseDups = names := by
  induction names using List.reverseRecOn with
  | nil => rfl
  | append_singleton names name ih =>
    obtain ⟨hnames, -, hname⟩ := List.nodup_append.1 h
    rw [eraseDups_concat, if_neg fun hmem => hname _ hmem _ (List.mem_singleton_self _) rfl,
      ih hnames]

/-- Names that are repeated can be left out before others follow. -/
theorem eraseDups_append_eraseDups (names more : List String) :
    (names.eraseDups ++ more).eraseDups = (names ++ more).eraseDups := by
  induction more using List.reverseRecOn with
  | nil => simp [eraseDups_of_nodup (nodup_eraseDups names)]
  | append_singleton more name ih =>
    rw [← List.append_assoc, ← List.append_assoc, eraseDups_concat, eraseDups_concat, ih]
    simp only [List.mem_append, List.mem_eraseDups]

end Names

theorem Bindings.names_insert_eq {α : Type} (b : Bindings α) (name : String) (value : α) :
    (b.insert name value).names = (b.names ++ [name]).eraseDups := by
  have hnames : b.names.Nodup := b.names_nodup
  rw [names_insert, eraseDups_concat, eraseDups_of_nodup hnames]
  simp only [contains_iff]

namespace Forest

/-- One step in the making of a forest. -/
inductive Step (α : Type) where
  | root
  | child (parent : ScopeId)
  | define (s : ScopeId) (name : String) (value : α)
  | assign (s : ScopeId) (name : String) (value : α)

variable {α : Type} {f g : Forest α} {s t : ScopeId} {step : Step α} {steps : List (Step α)}

/-- The scope that a step works on is there. -/
def Step.Fits (f : Forest α) : Step α → Prop
  | root => True
  | child s | define s _ _ | assign s _ _ => s < f.size

/-- The name that a step defines in a scope. -/
def Step.defined? (s : ScopeId) : Step α → Option String
  | define t name _ => if t = s then some name else none
  | _ => none

/-- The forest after a step. A step that fails changes nothing. -/
def after (f : Forest α) : Step α → Forest α
  | .root => f.addRoot ∅
  | .child parent => f.addChild parent ∅
  | .define s name value => (f.define s name value).toOption.getD f
  | .assign s name value => (f.assign s name value).toOption.getD f

/-- The forest after several steps. -/
def run (f : Forest α) (steps : List (Step α)) : Forest α := steps.foldl after f

/-- Each of several steps fits the forest that those before it make. -/
def Takes (f : Forest α) : List (Step α) → Prop
  | [] => True
  | step :: steps => step.Fits f ∧ (f.after step).Takes steps

instance decidableFits (f : Forest α) : (step : Step α) → Decidable (step.Fits f)
  | .root => isTrue trivial
  | .child parent => Nat.decLt parent f.size
  | .define s _ _ => Nat.decLt s f.size
  | .assign s _ _ => Nat.decLt s f.size

instance decidableTakes : (steps : List (Step α)) → (f : Forest α) → Decidable (f.Takes steps)
  | [], _ => isTrue trivial
  | step :: steps, f =>
    have := decidableTakes steps (f.after step)
    inferInstanceAs (Decidable (step.Fits f ∧ (f.after step).Takes steps))

/-- A scope has nothing around it, or an older scope and what is around that one. -/
def Linked (f : Forest α) : Prop := ∀ s, f.outer s = [] ∨ ∃ p, p < s ∧ f.outer s = f.chain p

theorem linked_empty : Linked (∅ : Forest α) := fun _ => Or.inl rfl

theorem Linked.of_outer (hf : Linked f) (h : ∀ s, g.outer s = f.outer s) : Linked g := by
  intro s
  rw [h]
  obtain hnone | ⟨p, hps, hp⟩ := hf s
  · exact Or.inl hnone
  · exact Or.inr ⟨p, hps, by rw [hp, chain, chain, h]⟩

theorem Linked.addChild (hf : Linked f) (ht : t < f.size) (own : Bindings α) :
    Linked (f.addChild t own) := by
  have hchain {p : ScopeId} (hp : p < f.size) : (f.addChild t own).chain p = f.chain p := by
    rw [chain, outer_addChild, if_neg (Nat.ne_of_lt hp), chain]
  intro s
  rw [outer_addChild]
  split
  · next hs => exact Or.inr ⟨t, hs ▸ ht, (hchain ht).symm⟩
  · obtain hnone | ⟨p, hps, hp⟩ := hf s
    · exact Or.inl hnone
    · have hs : s < f.size := by
        apply Nat.lt_of_not_le
        intro hle
        rw [outer_of_size_le hle] at hp
        cases hp
      exact Or.inr ⟨p, hps, by rw [hp, hchain (Nat.lt_trans hps hs)]⟩

theorem after_define (name : String) (value : α) : f.after (.define s name value) =
    if f.containsOwn s name then f else f.insert s name value := by
  simp only [after, define]
  split <;> rfl

theorem after_assign (name : String) (value : α) : f.after (.assign s name value) =
    match f.owner? s name with
    | some t => f.insert t name value
    | none => f := by
  simp only [after, assign]
  cases f.owner? s name <;> rfl

theorem linked_after (hf : Linked f) (hfits : step.Fits f) : Linked (f.after step) := by
  cases step with
  | root => exact hf.of_outer fun s => outer_addRoot f s ∅
  | child parent => exact hf.addChild hfits ∅
  | define s name value =>
    rw [after_define]
    split
    · exact hf
    · exact hf.of_outer fun t => outer_insert f t s name value
  | assign s name value =>
    rw [after_assign]
    split
    · exact hf.of_outer fun u => outer_insert f u _ name value
    · exact hf

theorem linked_run (hf : Linked f) (h : f.Takes steps) : Linked (f.run steps) := by
  induction steps generalizing f with
  | nil => exact hf
  | cons step steps ih => exact ih (linked_after hf h.1) h.2

/-- Around a scope there are its parent and what is around that one. -/
theorem Linked.outer_eq (hf : Linked f) (s : ScopeId) :
    f.outer s = ((f.parent? s).map f.chain).getD [] := by
  unfold parent?
  obtain hnone | ⟨p, -, hp⟩ := hf s
  · rw [hnone]
    rfl
  · rw [hp]
    rfl

theorem Linked.parent_lt (hf : Linked f) (h : f.parent? s = some t) : t < s := by
  unfold parent? at h
  obtain hnone | ⟨p, hps, hp⟩ := hf s
  · rw [hnone] at h
    cases h
  · rw [hp] at h
    cases h
    exact hps

theorem names_nodup (f : Forest α) (s : ScopeId) : (f.names s).Nodup := (f.own s).names_nodup

/-- A scope that is new and empty shows no names, as before it was there. -/
theorem names_after_new (hg : g.own s = if s = f.size then ∅ else f.own s) :
    g.names s = f.names s := by
  rw [names, hg]
  split
  · next hs => rw [names, own_of_size_le (Nat.le_of_eq hs.symm)]
  · rfl

/-- Rebinding a name lists no other. -/
theorem names_insert_of_mem {name : String} (hname : name ∈ f.names t) (value : α) (s : ScopeId) :
    (f.insert t name value).names s = f.names s := by
  by_cases hst : s = t
  · subst hst
    exact (namesKept_insert hname).view_eq s (lt_size_of_mem_names hname)
  · rw [names, own_insert_of_ne name value hst, names]

/-- A step adds a name to a scope if it defines one that the scope does not have yet. -/
theorem names_after (hfits : step.Fits f) (s : ScopeId) :
    (f.after step).names s = (f.names s ++ (step.defined? s).toList).eraseDups := by
  have hself : f.names s = (f.names s ++ []).eraseDups := by
    rw [List.append_nil, eraseDups_of_nodup (f.names_nodup s)]
  cases step with
  | root => exact (names_after_new (own_addRoot f s ∅)).trans hself
  | child parent => exact (names_after_new (own_addChild f s parent ∅)).trans hself
  | define t name value =>
    rw [after_define, Step.defined?]
    by_cases hst : t = s
    · subst hst
      rw [if_pos rfl, Option.toList_some]
      split
      · next hown =>
        rw [eraseDups_concat, if_pos (containsOwn_iff.1 hown),
          eraseDups_of_nodup (f.names_nodup t)]
      · rw [names, own_insert t name value hfits, if_pos rfl, Bindings.names_insert_eq]
        rfl
    · rw [if_neg hst, Option.toList_none, ← hself]
      split
      · rfl
      · rw [names, own_insert_of_ne name value (Ne.symm hst), names]
  | assign t name value =>
    rw [after_assign]
    refine Eq.trans ?_ hself
    cases howner : f.owner? t name with
    | none => rfl
    | some o => exact names_insert_of_mem (mem_names_of_owner howner) value s

/-- A scope lists what has been defined in it, each name where it was defined first. -/
theorem names_run (h : f.Takes steps) (s : ScopeId) :
    (f.run steps).names s = (f.names s ++ steps.filterMap (Step.defined? s)).eraseDups := by
  induction steps generalizing f with
  | nil => simp [run, eraseDups_of_nodup (f.names_nodup s)]
  | cons step steps ih =>
    rw [run, List.foldl_cons, ← run, ih h.2, names_after h.1, eraseDups_append_eraseDups,
      List.append_assoc]
    cases hstep : step.defined? s <;> simp [hstep]

end Forest

end ObjectLang
