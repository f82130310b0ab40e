import Mathlib.Data.List.Forall2
import ObjectLang.Scope.Lemmas

/-!
Bindings of two runs side by side. Aligned bindings have the same names in the same order, matching
ones the same names in any order; either way the values at a name are related.
-/

namespace ObjectLang.Bindings

variable {α β : Type} {R S : α → β → Prop} {b : Bindings α} {c : Bindings β} {name : String}
  {v : α} {w : β}

/-- The same names in the same order, with related values. -/
def Aligned (R : α → β → Prop) (b : Bindings α) (c : Bindings β) : Prop :=
  List.Forall₂ (fun e d => e.1 = d.1 ∧ R e.2 d.2) b.entries c.entries

/-- The same names in any order, with related values. -/
def Matching (R : α → β → Prop) (b : Bindings α) (c : Bindings β) : Prop :=
  ∀ name, Option.Rel R (b.find? name) (c.find? name)

theorem optionRel_mono {o : Option α} {p : Option β} (h : Option.Rel R o p)
    (hRS : ∀ v w, R v w → S v w) : Option.Rel S o p := by
  cases h with
  | none => exact .none
  | some h => exact .some (hRS _ _ h)

theorem optionRel_flip {o : Option α} {p : Option β} (h : Option.Rel R o p) :
    Option.Rel (fun w v => R v w) p o := by
  cases h with
  | none => exact .none
  | some h => exact .some h

theorem isSome_eq_of_rel {o : Option α} {p : Option β} (h : Option.Rel R o p) :
    o.isSome = p.isSome := by
  cases h <;> rfl

theorem contains_eq_isSome (b : Bindings α) (name : String) :
    b.contains name = (b.find? name).isSome := by
  rw [Bool.eq_iff_iff, contains_iff, mem_names_iff, Option.isSome_iff_exists]

theorem Matching.mono (h : Matching R b c) (hRS : ∀ v w, R v w → S v w) : Matching S b c :=
  fun name => optionRel_mono (h name) hRS

theorem Matching.flip (h : Matching R b c) : Matching (fun w v => R v w) c b :=
  fun name => optionRel_flip (h name)

theorem Matching.contains_eq (h : Matching R b c) : b.contains name = c.contains name := by
  rw [contains_eq_isSome, contains_eq_isSome, isSome_eq_of_rel (h name)]

theorem Matching.mem_names (h : Matching R b c) : name ∈ b.names ↔ name ∈ c.names := by
  rw [← contains_iff, ← contains_iff, h.contains_eq]

theorem Matching.exists_left (h : Matching R b c) (hw : c.find? name = some w) :
    ∃ v, b.find? name = some v ∧ R v w := by
  have h := h name
  rw [hw] at h
  generalize b.find? name = o at h
  cases h with
  | some h => exact ⟨_, rfl, h⟩

theorem Matching.related (h : Matching R b c) (hv : b.find? name = some v)
    (hw : c.find? name = some w) : R v w := by
  obtain ⟨_, hv', h⟩ := h.exists_left hw
  cases hv.symm.trans hv'
  exact h

theorem matching_of_names (hnames : ∀ n, n ∈ b.names ↔ n ∈ c.names)
    (hvalues : ∀ n v w, b.find? n = some v → c.find? n = some w → R v w) : Matching R b c := by
  intro n
  cases hv : b.find? n with
  | some v =>
    obtain ⟨w, hw⟩ := mem_names_iff.1 ((hnames n).1 (mem_names_iff.2 ⟨v, hv⟩))
    rw [hw]
    exact .some (hvalues n v w hv hw)
  | none =>
    rw [find?_eq_none_iff.2 fun hn => find?_eq_none_iff.1 hv ((hnames n).2 hn)]
    exact .none

/-- Two names more, at the same place or at the end. -/
theorem Matching.insert (h : Matching R b c) (hv : R v w) :
    Matching R (b.insert name v) (c.insert name w) := by
  intro other
  rw [find?_insert, find?_insert]
  split
  · exact .some hv
  · exact h other

theorem findIn_aligned {es : List (String × α)} {ds : List (String × β)}
    (h : List.Forall₂ (fun e d => e.1 = d.1 ∧ R e.2 d.2) es ds) (name : String) :
    Option.Rel R (findIn name es) (findIn name ds) := by
  induction h with
  | nil => exact .none
  | @cons e d es ds he _ ih =>
    rw [findIn, findIn, ← he.1]
    split
    · exact .some he.2
    · exact ih

theorem Aligned.matching (h : Aligned R b c) : Matching R b c := fun name => findIn_aligned h name

theorem Aligned.names_eq (h : Aligned R b c) : b.names = c.names := by
  have h : List.Forall₂ (fun e d => e.1 = d.1 ∧ R e.2 d.2) b.entries c.entries := h
  unfold names
  generalize b.entries = es, c.entries = ds at h
  induction h with
  | nil => rfl
  | cons he _ ih => rw [List.map_cons, List.map_cons, he.1, ih]

theorem Aligned.mono (h : Aligned R b c) (hRS : ∀ v w, R v w → S v w) : Aligned S b c :=
  List.Forall₂.imp (fun _ _ he => ⟨he.1, hRS _ _ he.2⟩) h

theorem aligned_empty : Aligned R (∅ : Bindings α) (∅ : Bindings β) := .nil

theorem aligned_singleton (name : String) (h : R v w) :
    Aligned R (singleton name v) (singleton name w) := .cons ⟨rfl, h⟩ .nil

theorem aligned_self {R : α → α → Prop} (h : ∀ e ∈ b.entries, R e.2 e.2) : Aligned R b b :=
  List.forall₂_same.2 fun e he => ⟨rfl, h e he⟩

theorem aligned_zip (names : List String) (hnames : names.Nodup) {vs : List α} {ws : List β}
    (h : List.Forall₂ R vs ws) : Aligned R (zip names vs hnames) (zip names ws hnames) := by
  show List.Forall₂ _ (names.zip vs) (names.zip ws)
  clear hnames
  induction h generalizing names with
  | nil => simp
  | cons hv _ ih =>
    cases names with
    | nil => exact .nil
    | cons name names => exact .cons ⟨rfl, hv⟩ (ih names)

theorem put_aligned {es : List (String × α)} {ds : List (String × β)} (name : String)
    (hv : R v w) (h : List.Forall₂ (fun e d => e.1 = d.1 ∧ R e.2 d.2) es ds) :
    List.Forall₂ (fun e d => e.1 = d.1 ∧ R e.2 d.2) (put name v es) (put name w ds) := by
  induction h with
  | nil => exact .cons ⟨rfl, hv⟩ .nil
  | @cons e d es ds he hrest ih =>
    rw [put, put, ← he.1]
    split
    · exact .cons ⟨rfl, hv⟩ hrest
    · exact .cons he ih

theorem Aligned.insert (h : Aligned R b c) (name : String) (hv : R v w) :
    Aligned R (b.insert name v) (c.insert name w) := put_aligned name hv h

end ObjectLang.Bindings
