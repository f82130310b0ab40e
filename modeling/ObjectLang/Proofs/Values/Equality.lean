import Mathlib.Data.List.Perm.Subperm
import ObjectLang.Proofs.Finite.Acyclic
import ObjectLang.Proofs.Decimal.Value

/-!
Equality of values, one level at a time. Two lists are equal when they have the same length and equal
items at the same places, and two objects when they have the same name, the same names of members and
equal members. Where looking into values comes to an end, equality is an equivalence.
-/

namespace ObjectLang

theorem Bindings.mem_names_iff_of_size_eq {α : Type} {b c : Bindings α} (hsize : b.size = c.size)
    (h : ∀ name ∈ b.names, name ∈ c.names) (name : String) : name ∈ b.names ↔ name ∈ c.names := by
  have hsubperm : b.names.Subperm c.names := b.names_nodup.subperm h
  have hlength : c.names.length ≤ b.names.length := by rw [← b.size_eq, ← c.size_eq, hsize]
  exact (hsubperm.perm_of_length_le hlength).mem_iff

namespace Value

variable {Γ : ValueScopes} {u v w : Value} {vs ws : List Value} {n k : Option String}
  {a b : ScopeId}

/-- The comparison of the values ends, and says that they are equal. -/
def Equals (Γ : ValueScopes) (v w : Value) : Prop := v.equal? Γ w = some true

section Levels

variable {objects : ScopeId → ScopeId → Option Bool}

theorem equalAllWith_eq_true_iff (h : vs.length = ws.length) : equalAllWith objects vs ws = some true ↔
    List.Forall₂ (fun v w => equalWith objects v w = some true) vs ws := by
  induction vs generalizing ws with
  | nil =>
    obtain rfl := List.length_eq_zero_iff.1 h.symm
    simp [equalAllWith]
  | cons v vs ih =>
    cases ws with
    | nil => cases h
    | cons w ws =>
      rw [equalAllWith_cons, List.forall₂_cons, ← ih (Nat.succ.inj h)]
      cases equalWith objects v w with
      | none => simp
      | some answer => cases answer <;> simp

theorem equalEntries_eq_true_iff {equal : Value → Value → Option Bool} {other : Bindings Value}
    {es : List (String × Value)} : equalEntries equal other es = some true ↔
      ∀ e ∈ es, ∃ w, other.find? e.1 = some w ∧ equal e.2 w = some true := by
  induction es with
  | nil => simp [equalEntries]
  | cons e es ih =>
    rw [equalEntries, List.forall_mem_cons, ← ih]
    cases other.find? e.1 with
    | none => simp
    | some w =>
      cases hw : equal e.2 w with
      | none => simp [hw]
      | some answer => cases answer <;> simp [hw]

/-- A comparison of two different objects goes on among their members. More depth than there are
pairs of objects makes no difference, so the members are compared like any other values. -/
theorem equalMembers_eq_true_iff : equalMembers Γ (Γ.size * Γ.size + 1) a b = some true ↔
    (Γ.own a).size = (Γ.own b).size ∧ ∀ e ∈ (Γ.own a).entries, ∃ w,
      Γ.lookupOwn b e.1 = some w ∧ Equals Γ e.2 w := by
  rw [← equalMembers_of_size_lt (Nat.lt_add_of_pos_right Nat.two_pos), equalMembers,
    equalOrAlike_eq]
  by_cases hsize : (Γ.own a).size = (Γ.own b).size
  · rw [if_pos hsize, equalEntries_eq_true_iff]
    exact (and_iff_right hsize).symm
  · simp [hsize]

end Levels

theorem equal?_of_kind_ne (h : v.kind ≠ w.kind) : v.equal? Γ w = some false := by
  cases v <;> cases w <;> first | rfl | exact absurd rfl h

theorem Equals.kind_eq (h : Equals Γ v w) : v.kind = w.kind := by
  by_contra hkind
  rw [Equals, equal?_of_kind_ne hkind] at h
  cases h

theorem equals_list_iff : Equals Γ (list vs) (list ws) ↔ vs.length = ws.length ∧
    ∀ i (hv : i < vs.length) (hw : i < ws.length), Equals Γ vs[i] ws[i] := by
  have hlists : Equals Γ (list vs) (list ws) ↔ List.Forall₂ (Equals Γ) vs ws := by
    rw [Equals, equal?, equalWith]
    by_cases h : vs.length = ws.length
    · rw [if_pos h]
      exact equalAllWith_eq_true_iff h
    · rw [if_neg h]
      exact ⟨nofun, fun hitems => absurd hitems.length_eq h⟩
  rw [hlists]
  exact List.forall₂_iff_get

theorem equals_refl (Γ : ValueScopes) (v : Value) : Equals Γ v v :=
  equalWith_of_alike _ (alike_self v)

/-- Two objects have members of the same names, in any order, and equal members of each name. -/
structure SameMembers (Γ : ValueScopes) (a b : ScopeId) : Prop where
  names : ∀ name, name ∈ Γ.names a ↔ name ∈ Γ.names b
  values : ∀ name v w, Γ.lookupOwn a name = some v → Γ.lookupOwn b name = some w → Equals Γ v w

theorem sameMembers_refl (Γ : ValueScopes) (a : ScopeId) : SameMembers Γ a a where
  names _ := Iff.rfl
  values name v w hv hw := by
    obtain rfl := Option.some.inj (hv.symm.trans hw)
    exact equals_refl Γ v

theorem sameMembers_iff : SameMembers Γ a b ↔
    (Γ.own a).size = (Γ.own b).size ∧ ∀ e ∈ (Γ.own a).entries, ∃ w,
      Γ.lookupOwn b e.1 = some w ∧ Equals Γ e.2 w := by
  constructor
  · rintro ⟨hnames, hvalues⟩
    constructor
    · have hperm : (Γ.names a).Perm (Γ.names b) :=
        (List.perm_ext_iff_of_nodup (Γ.own a).names_nodup (Γ.own b).names_nodup).2 hnames
      rw [Bindings.size_eq, Bindings.size_eq]
      exact hperm.length_eq
    · intro e he
      have hv : Γ.lookupOwn a e.1 = some e.2 := Bindings.find?_eq_some_iff.2 he
      have hname : e.1 ∈ Γ.names b := (hnames e.1).1 (Bindings.mem_names_iff.2 ⟨e.2, hv⟩)
      obtain ⟨w, hw⟩ := Bindings.mem_names_iff.1 hname
      exact ⟨w, hw, hvalues e.1 e.2 w hv hw⟩
  · rintro ⟨hsize, hentries⟩
    refine ⟨Bindings.mem_names_iff_of_size_eq hsize fun name hname => ?_, fun name v w hv hw => ?_⟩
    · obtain ⟨v, hv⟩ := Bindings.mem_names_iff.1 hname
      obtain ⟨w, hw, -⟩ := hentries (name, v) (Bindings.find?_eq_some_iff.1 hv)
      exact Bindings.mem_names_iff.2 ⟨w, hw⟩
    · obtain ⟨w', hw', heq⟩ := hentries (name, v) (Bindings.find?_eq_some_iff.1 hv)
      obtain rfl := Option.some.inj (hw'.symm.trans hw)
      exact heq

/-- An object is equal to itself without a look at its members, which would find them equal too. -/
theorem equals_object_iff : Equals Γ (object n a) (object k b) ↔ n = k ∧ SameMembers Γ a b := by
  rw [Equals, equal?, equalWith]
  by_cases hnk : n = k
  · by_cases hab : a = b
    · simp [hnk, hab, sameMembers_refl]
    · rw [if_pos hnk, if_neg hab, equalMembers_eq_true_iff, ← sameMembers_iff]
      exact (and_iff_right hnk).symm
  · simp [hnk]

section Plain

/-- There is nothing inside the value to be looked at. -/
def Plain (v : Value) : Prop := v.kind ∉ [ValueKind.list, .object]

instance (v : Value) : Decidable v.Plain :=
  inferInstanceAs (Decidable (v.kind ∉ [ValueKind.list, .object]))

theorem plain_or (v : Value) : v.Plain ∨ (∃ vs, v = list vs) ∨ ∃ n a, v = object n a := by
  cases v <;> simp [Plain, kind]

theorem acc_of_plain (h : v.Plain) : Acc (Inside Γ) v := by
  refine ⟨_, fun w hw => ?_⟩
  cases v with
  | list | object => simp [Plain, kind] at h
  | _ => exact hw.elim

/-- What it is for two values to be equal that have nothing inside: they are the same, or decimals of
one value at one scale, or functions of one name. -/
inductive Alike : Value → Value → Prop where
  | same (v : Value) : Alike v v
  | decimal {d e : Decimal} : d.exponent = e.exponent → d.value = e.value →
      Alike (decimal d) (decimal e)
  | function {f g : Callable} : f.name = g.name → Alike (function f) (function g)

theorem Alike.symm (h : Alike v w) : Alike w v := by
  cases h with
  | same => exact .same v
  | decimal he hv => exact .decimal he.symm hv.symm
  | function hname => exact .function hname.symm

theorem Alike.trans (h : Alike u v) (h' : Alike v w) : Alike u w := by
  cases h with
  | same => exact h'
  | decimal he hv =>
    cases h' with
    | same => exact .decimal he hv
    | decimal he' hv' => exact .decimal (he.trans he') (hv.trans hv')
  | function hname =>
    cases h' with
    | same => exact .function hname
    | function hname' => exact .function (hname.trans hname')

theorem equals_plain_iff (h : v.Plain) : Equals Γ v w ↔ Alike v w := by
  constructor
  · intro hvw
    cases v <;> cases w <;> simp [Equals, equal?, equalWith, agree] at hvw
    case decimal.decimal d e => exact .decimal (Decimal.same_iff.1 hvw).1 (Decimal.same_iff.1 hvw).2
    case function.function f g => exact .function hvw
    case list.list => simp [Plain, kind] at h
    case object.object => simp [Plain, kind] at h
    all_goals first | exact .same _ | exact hvw ▸ .same _
  · intro hvw
    cases hvw with
    | same => exact equals_refl Γ v
    | decimal he hv => simpa [Equals, equal?, equalWith, agree] using Decimal.same_iff.2 ⟨he, hv⟩
    | function hname => simpa [Equals, equal?, equalWith, agree] using hname

end Plain

section Kinds

theorem Equals.plain (h : Equals Γ v w) (hv : v.Plain) : w.Plain := by
  rwa [Plain, ← h.kind_eq]

theorem Equals.exists_list (h : Equals Γ (list vs) w) : ∃ ws, w = list ws := by
  have hkind := h.kind_eq
  cases w <;> first | exact ⟨_, rfl⟩ | cases hkind

theorem Equals.exists_object (h : Equals Γ (object n a) w) : ∃ k b, w = object k b := by
  have hkind := h.kind_eq
  cases w <;> first | exact ⟨_, _, rfl⟩ | cases hkind

end Kinds

/-- By induction on what is inside the left value. -/
theorem Equals.symm (hacc : Acc (Inside Γ) v) (h : Equals Γ v w) : Equals Γ w v := by
  induction hacc generalizing w with
  | intro v _ ih =>
    obtain hplain | ⟨vs, rfl⟩ | ⟨n, a, rfl⟩ := plain_or v
    · exact (equals_plain_iff (h.plain hplain)).2 ((equals_plain_iff hplain).1 h).symm
    · obtain ⟨ws, rfl⟩ := h.exists_list
      obtain ⟨hlength, hitems⟩ := equals_list_iff.1 h
      refine equals_list_iff.2 ⟨hlength.symm, fun i hw hv => ?_⟩
      exact ih vs[i] (List.getElem_mem hv) (hitems i hv hw)
    · obtain ⟨k, b, rfl⟩ := h.exists_object
      obtain ⟨rfl, hnames, hvalues⟩ := equals_object_iff.1 h
      refine equals_object_iff.2 ⟨rfl, fun name => (hnames name).symm, fun name w v hw hv => ?_⟩
      exact ih v ⟨name, hv⟩ (hvalues name v w hv hw)

/-- By induction on what is inside the first value. -/
theorem Equals.trans (hacc : Acc (Inside Γ) u) (h : Equals Γ u v) (h' : Equals Γ v w) :
    Equals Γ u w := by
  induction hacc generalizing v w with
  | intro u _ ih =>
    obtain hplain | ⟨us, rfl⟩ | ⟨n, a, rfl⟩ := plain_or u
    · rw [equals_plain_iff (h.plain hplain)] at h'
      rw [equals_plain_iff hplain] at h ⊢
      exact h.trans h'
    · obtain ⟨vs, rfl⟩ := h.exists_list
      obtain ⟨ws, rfl⟩ := h'.exists_list
      obtain ⟨hlength, hitems⟩ := equals_list_iff.1 h
      obtain ⟨hlength', hitems'⟩ := equals_list_iff.1 h'
      refine equals_list_iff.2 ⟨hlength.trans hlength', fun i hu hw => ?_⟩
      have hv : i < vs.length := hlength ▸ hu
      exact ih us[i] (List.getElem_mem hu) (hitems i hu hv) (hitems' i hv hw)
    · obtain ⟨k, b, rfl⟩ := h.exists_object
      obtain ⟨l, c, rfl⟩ := h'.exists_object
      obtain ⟨rfl, hnames, hvalues⟩ := equals_object_iff.1 h
      obtain ⟨rfl, hnames', hvalues'⟩ := equals_object_iff.1 h'
      refine equals_object_iff.2 ⟨rfl, fun name => (hnames name).trans (hnames' name),
        fun name u w hu hw => ?_⟩
      have hname : name ∈ Γ.names b := (hnames name).1 (Bindings.mem_names_iff.2 ⟨u, hu⟩)
      obtain ⟨v, hv⟩ := Bindings.mem_names_iff.1 hname
      exact ih u ⟨name, hu⟩ (hvalues name u v hu hv) (hvalues' name v w hv hw)

end Value

end ObjectLang
