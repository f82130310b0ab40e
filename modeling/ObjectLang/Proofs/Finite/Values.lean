import ObjectLang.Proofs.Values.Depth

/-!
Values that come to an end when one looks at the items of lists and the members of objects, and at
what is in them in turn. A value that does has a text, and it can be compared with any value.
-/

namespace ObjectLang

section Depth

variable {ι : Type} {P : Nat → ι → Prop} (hmono : ∀ d i, P d i → P (d + 1) i)
include hmono

theorem at_depth_of_le {d k : Nat} (h : d ≤ k) {i : ι} (hd : P d i) : P k i := by
  induction h with
  | refl => exact hd
  | step _ ih => exact hmono _ i ih

theorem exists_depth {l : List ι} (h : ∀ i ∈ l, ∃ d, P d i) : ∃ d, ∀ i ∈ l, P d i := by
  induction l with
  | nil => exact ⟨0, fun _ hi => nomatch hi⟩
  | cons i l ih =>
    obtain ⟨hi, hl⟩ := List.forall_mem_cons.1 h
    obtain ⟨d, hd⟩ := hi
    obtain ⟨k, hk⟩ := ih hl
    exact ⟨max d k, List.forall_mem_cons.2 ⟨at_depth_of_le hmono (Nat.le_max_left d k) hd,
      fun j hj => at_depth_of_le hmono (Nat.le_max_right d k) (hk j hj)⟩⟩

end Depth

namespace Value

open Forest

variable {Γ : ValueScopes} {v : Value} {vs ws : List Value}

/-- A value is an item of a list, or a member of an object. Nothing is looked for in a function. -/
def Inside (Γ : ValueScopes) (w : Value) : Value → Prop
  | .list items => w ∈ items
  | .object _ a => ∃ name, Γ.lookupOwn a name = some w
  | _ => False

theorem inside_of_mem_entries {a : ScopeId} {name : Option String} {e : String × Value}
    (he : e ∈ (Γ.own a).entries) : Inside Γ e.2 (.object name a) :=
  ⟨e.1, Bindings.find?_eq_some_iff.2 he⟩

section Display

variable {show₁ : Option String → ScopeId → Option String}

theorem displayAllWith_isSome (h : ∀ v ∈ vs, (displayWith show₁ v).isSome) :
    (displayAllWith show₁ vs).isSome := by
  induction vs with
  | nil => rfl
  | cons v vs ih =>
    obtain ⟨hv, hvs⟩ := List.forall_mem_cons.1 h
    obtain ⟨text, htext⟩ := Option.isSome_iff_exists.1 hv
    obtain ⟨texts, htexts⟩ := Option.isSome_iff_exists.1 (ih hvs)
    rw [displayAllWith, htext, htexts]
    rfl

theorem mapM_isSome {α β : Type} {f : α → Option β} {as : List α} (h : ∀ a ∈ as, (f a).isSome) :
    (as.mapM f).isSome := by
  induction as with
  | nil => rfl
  | cons a as ih =>
    obtain ⟨ha, has⟩ := List.forall_mem_cons.1 h
    obtain ⟨b, hb⟩ := Option.isSome_iff_exists.1 ha
    obtain ⟨bs, hbs⟩ := Option.isSome_iff_exists.1 (ih has)
    rw [List.mapM_cons, hb, hbs]
    rfl

theorem displayObject_answers (depth : Nat) (name : Option String) :
    Answers (displayObject Γ depth name) (displayObject Γ (depth + 1) name) := by
  intro a text htext
  rw [displayObject_eq, Option.map_eq_some_iff] at htext ⊢
  obtain ⟨texts, htexts, htext⟩ := htext
  exact ⟨texts, memberTexts_answers depth a texts htexts, htext⟩

theorem displayWith_isSome_succ (depth : Nat) (v : Value)
    (h : (displayWith (displayObject Γ depth) v).isSome) :
    (displayWith (displayObject Γ (depth + 1)) v).isSome := by
  obtain ⟨text, htext⟩ := Option.isSome_iff_exists.1 h
  rw [displayWith_answers (displayObject_answers depth) v htext]
  rfl

/-- By induction on what is inside: a value needs one level more than what is in it. -/
theorem exists_display (h : Acc (Inside Γ) v) :
    ∃ depth, (displayWith (displayObject Γ depth) v).isSome := by
  induction h with
  | intro v _ ih =>
    cases v with
    | list items =>
      obtain ⟨depth, hdepth⟩ := exists_depth displayWith_isSome_succ fun w hw => ih w hw
      obtain ⟨texts, htexts⟩ := Option.isSome_iff_exists.1 (displayAllWith_isSome hdepth)
      refine ⟨depth, ?_⟩
      rw [displayWith, htexts]
      rfl
    | object name a =>
      obtain ⟨depth, hdepth⟩ := exists_depth (l := (Γ.own a).entries)
        (fun d e => displayWith_isSome_succ d e.2) fun e he => ih e.2 (inside_of_mem_entries he)
      have hmembers : (memberTexts Γ (depth + 1) a).isSome := by
        refine mapM_isSome fun e he => ?_
        obtain ⟨text, htext⟩ := Option.isSome_iff_exists.1 (hdepth e he)
        rw [← displayObject_eq, htext]
        rfl
      refine ⟨depth + 1, ?_⟩
      rw [displayWith, displayObject_eq, Option.isSome_map]
      exact hmembers
    | _ => exact ⟨0, rfl⟩

/-- A value that comes to an end has a text. -/
theorem display_isSome (h : Acc (Inside Γ) v) : (v.display? Γ).isSome := by
  obtain ⟨depth, hdepth⟩ := exists_display h
  have hmax := at_depth_of_le displayWith_isSome_succ (Nat.le_max_left depth (Γ.size + 1)) hdepth
  rwa [displayObject_of_size_lt (Nat.lt_of_lt_of_le (Nat.lt_succ_self _) (Nat.le_max_right ..))]
    at hmax

end Display

section Equality

variable {objects : ScopeId → ScopeId → Option Bool}

theorem equalAllWith_isSome (h : ∀ v ∈ vs, ∀ w ∈ ws, (equalWith objects v w).isSome) :
    (equalAllWith objects vs ws).isSome := by
  induction vs generalizing ws with
  | nil => cases ws <;> rfl
  | cons v vs ih =>
    cases ws with
    | nil => rfl
    | cons w ws =>
      obtain ⟨answer, hanswer⟩ :=
        Option.isSome_iff_exists.1 (h v (List.mem_cons_self ..) w (List.mem_cons_self ..))
      rw [equalAllWith_cons, hanswer]
      cases answer with
      | false => rfl
      | true =>
        exact ih fun x hx y hy => h x (List.mem_cons_of_mem _ hx) y (List.mem_cons_of_mem _ hy)

theorem equalEntries_isSome {equal : Value → Value → Option Bool} {other : Bindings Value}
    {es : List (String × Value)} (h : ∀ e ∈ es, ∀ d ∈ other.entries, (equal e.2 d.2).isSome) :
    (equalEntries equal other es).isSome := by
  induction es with
  | nil => rfl
  | cons e es ih =>
    obtain ⟨he, hes⟩ := List.forall_mem_cons.1 h
    rw [equalEntries]
    cases hw : other.find? e.1 with
    | none => rfl
    | some w =>
      obtain ⟨answer, hanswer⟩ :=
        Option.isSome_iff_exists.1 (he (e.1, w) (Bindings.find?_eq_some_iff.1 hw))
      dsimp only at hanswer ⊢
      rw [hanswer]
      cases answer with
      | false => rfl
      | true => exact ih hes

theorem equalWith_isSome_succ (depth : Nat) (v w : Value)
    (h : (equalWith (equalMembers Γ depth) v w).isSome) :
    (equalWith (equalMembers Γ (depth + 1)) v w).isSome := by
  obtain ⟨answer, hanswer⟩ := Option.isSome_iff_exists.1 h
  rw [equalWith_answers (equalMembers_answers depth) v w hanswer]
  rfl

/-- By induction on what is inside the one value: the other is looked into no further. -/
theorem exists_equal (h : Acc (Inside Γ) v) (w : Value) :
    ∃ depth, (equalWith (equalMembers Γ depth) v w).isSome := by
  have hmono (ds : List Value) (depth : Nat) (v : Value)
      (h : ∀ w ∈ ds, (equalWith (equalMembers Γ depth) v w).isSome) (w : Value) (hw : w ∈ ds) :
      (equalWith (equalMembers Γ (depth + 1)) v w).isSome := equalWith_isSome_succ depth v w (h w hw)
  induction h generalizing w with
  | intro v _ ih =>
    cases v with
    | list vs =>
      cases w with
      | list ws =>
        obtain ⟨depth, hdepth⟩ := exists_depth (hmono ws) fun v hv =>
          exists_depth (fun d => equalWith_isSome_succ d v) fun w _ => ih v hv w
        refine ⟨depth, ?_⟩
        rw [equalWith]
        split
        · exact equalAllWith_isSome hdepth
        · rfl
      | _ => exact ⟨0, rfl⟩
    | object n a =>
      cases w with
      | object m b =>
        have hinside (v : Value) (hv : v ∈ (Γ.own a).entries.map Prod.snd) :
            Inside Γ v (.object n a) := by
          obtain ⟨e, he, rfl⟩ := List.mem_map.1 hv
          exact inside_of_mem_entries he
        obtain ⟨depth, hdepth⟩ := exists_depth (hmono ((Γ.own b).entries.map Prod.snd)) fun v hv =>
          exists_depth (fun d => equalWith_isSome_succ d v) fun w _ => ih v (hinside v hv) w
        have hmembers : (equalMembers Γ (depth + 1) a b).isSome := by
          rw [equalMembers, equalOrAlike_eq]
          split
          · exact equalEntries_isSome fun e he d hd =>
              hdepth e.2 (List.mem_map_of_mem he) d.2 (List.mem_map_of_mem hd)
          · rfl
        refine ⟨depth + 1, ?_⟩
        rw [equalWith]
        split
        · split
          · rfl
          · exact hmembers
        · rfl
      | _ => exact ⟨0, rfl⟩
    | _ => cases w <;> exact ⟨0, rfl⟩

/-- A value that comes to an end is equal to any other value, or it is not. -/
theorem equal_isSome (h : Acc (Inside Γ) v) (w : Value) : (v.equal? Γ w).isSome := by
  obtain ⟨depth, hdepth⟩ := exists_equal h w
  have hmax := at_depth_of_le (fun d => equalWith_isSome_succ d v)
    (Nat.le_max_left depth (Γ.size * Γ.size + 1)) hdepth
  rwa [equalMembers_of_size_lt (Nat.lt_of_lt_of_le (Nat.lt_succ_self _) (Nat.le_max_right ..))] at hmax

end Equality

/-- Following items and members from a value comes to an end, so the value has a text and is equal to
any other value or is not. -/
structure Finite (Γ : ValueScopes) (v : Value) : Prop where
  acc : Acc (Inside Γ) v
  display_isSome : (v.display? Γ).isSome
  equal_isSome : ∀ w, (v.equal? Γ w).isSome

theorem finite_of_acc (h : Acc (Inside Γ) v) : v.Finite Γ := ⟨h, display_isSome h, equal_isSome h⟩

end Value

end ObjectLang
