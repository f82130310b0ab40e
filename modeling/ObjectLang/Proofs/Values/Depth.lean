import ObjectLang.Scope.Lemmas
import ObjectLang.Types.Equality
import ObjectLang.Values.Display
import ObjectLang.Values.Equality

/-!
Depths that suffice. What a value is shown as and whether two values are equal is found out one level
of nesting after the other, and an answer once given stays. There are only so many objects, so what
has no answer at a depth above their number has none at any depth.
-/

namespace ObjectLang

open Forest

variable {ι β : Type}

/-- Every answer that `f` gives `g` gives too. -/
def Answers (f g : ι → Option β) : Prop := ∀ i b, f i = some b → g i = some b

theorem answers_of_le {f : Nat → ι → Option β} (hmono : ∀ d, Answers (f d) (f (d + 1))) {d k : Nat}
    (h : d ≤ k) : Answers (f d) (f k) := by
  induction h with
  | refl => exact fun _ _ => id
  | step _ ih => exact fun i b hb => hmono _ i b (ih i b hb)

section Stable

variable {f : Nat → ι → Option β} {F : (ι → Option β) → ι → Option β} {l : List ι}

/-- Answers that are found from those one level below are all there once a level brings no new
ones. -/
theorem stays_of_step (hstep : ∀ d, f (d + 1) = F (f d)) {d k : Nat} (h : f d = f (d + 1))
    (hk : d ≤ k) : f k = f d := by
  induction hk with
  | refl => rfl
  | @step k _ ih => rw [hstep, ih, ← hstep, ← h]

/-- A level that brings a new answer brings one for something in `l`. -/
theorem count_lt (hmono : ∀ d, Answers (f d) (f (d + 1))) (hl : ∀ i, i ∉ l → (f 1 i).isSome) {d : Nat}
    (h : f (d + 1) ≠ f (d + 2)) :
    l.countP (fun i => (f (d + 1) i).isSome) < l.countP (fun i => (f (d + 2) i).isSome) := by
  obtain ⟨i, hi⟩ := Classical.not_forall.1 fun hall => h (funext hall)
  have hgrows (j : ι) (hj : (f (d + 1) j).isSome) : (f (d + 2) j).isSome := by
    obtain ⟨b, hb⟩ := Option.isSome_iff_exists.1 hj
    simp [hmono (d + 1) j b hb]
  have hnone : f (d + 1) i = none := by
    rw [Option.eq_none_iff_forall_ne_some]
    exact fun b hb => hi (hb.trans (hmono (d + 1) i b hb).symm)
  have hsome : (f (d + 2) i).isSome := by
    rw [Option.isSome_iff_ne_none]
    exact fun hn => hi (hnone.trans hn.symm)
  have hmem : i ∈ l := Classical.byContradiction fun hil => by
    obtain ⟨b, hb⟩ := Option.isSome_iff_exists.1 (hl i hil)
    have hb := answers_of_le hmono (Nat.le_add_left 1 d) i b hb
    rw [hnone] at hb
    cases hb
  exact Ty.countP_lt_of_mem hgrows hmem hsome (by simp [hnone])

theorem count_ge (hstep : ∀ d, f (d + 1) = F (f d)) (hmono : ∀ d, Answers (f d) (f (d + 1)))
    (hl : ∀ i, i ∉ l → (f 1 i).isSome) {d : Nat} (h : f (d + 1) ≠ f (d + 2)) :
    d < l.countP fun i => (f (d + 2) i).isSome := by
  induction d with
  | zero => exact Nat.lt_of_le_of_lt (Nat.zero_le _) (count_lt hmono hl h)
  | succ d ih =>
    have hbefore : f (d + 1) ≠ f (d + 2) := fun he => by
      have hnext : F (f (d + 1)) = F (f (d + 2)) := congrArg F he
      exact h (by rwa [← hstep, ← hstep] at hnext)
    exact Nat.lt_of_le_of_lt (ih hbefore) (count_lt hmono hl h)

/-- Where all but the things in `l` have an answer from the first, no answer comes later than their
number says. -/
theorem eq_of_length_lt (hstep : ∀ d, f (d + 1) = F (f d)) (hmono : ∀ d, Answers (f d) (f (d + 1)))
    (hl : ∀ i, i ∉ l → (f 1 i).isSome) {d : Nat} (hd : l.length < d) : f d = f (l.length + 1) := by
  refine stays_of_step hstep (Classical.byContradiction fun h => ?_) hd
  exact absurd (count_ge hstep hmono hl h) (Nat.not_lt.2 List.countP_le_length)

end Stable

namespace Value

variable {Γ : ValueScopes}

/-! The text of a value. -/

section Display

variable {show₁ show₂ : Option String → ScopeId → Option String}

mutual

theorem displayWith_answers (h : ∀ name, Answers (show₁ name) (show₂ name)) (v : Value) {text : String}
    (ht : displayWith show₁ v = some text) : displayWith show₂ v = some text := by
  match v with
  | .list items =>
    simp only [displayWith, Option.bind_eq_bind, Option.bind_eq_some_iff] at ht ⊢
    obtain ⟨texts, hts, ht⟩ := ht
    exact ⟨texts, displayAllWith_answers h items hts, ht⟩
  | .object name a => exact h name a text ht
  | .nil | .boolean _ | .integer _ | .decimal _ | .string _ | .character _ | .function _ => exact ht

theorem displayAllWith_answers (h : ∀ name, Answers (show₁ name) (show₂ name)) (vs : List Value)
    {texts : List String} (ht : displayAllWith show₁ vs = some texts) :
    displayAllWith show₂ vs = some texts := by
  match vs with
  | [] => exact ht
  | v :: vs =>
    simp only [displayAllWith, Option.bind_eq_bind, Option.bind_eq_some_iff] at ht ⊢
    obtain ⟨text, hv, texts, hvs, ht⟩ := ht
    exact ⟨text, displayWith_answers h v hv, texts, displayAllWith_answers h vs hvs, ht⟩

end

theorem mapM_answers {α : Type} {f g : α → Option β} (h : Answers f g) {as : List α} {bs : List β}
    (hbs : as.mapM f = some bs) : as.mapM g = some bs := by
  induction as generalizing bs with
  | nil => exact hbs
  | cons a as ih =>
    simp only [List.mapM_cons, Option.bind_eq_bind, Option.bind_eq_some_iff] at hbs ⊢
    obtain ⟨b, hb, bs, hbs, hcons⟩ := hbs
    exact ⟨b, h a b hb, bs, ih hbs, hcons⟩

/-- The texts of the members of an object, given those of the objects in them. -/
def memberTextsWith (Γ : ValueScopes) (texts : ScopeId → Option (List String)) (a : ScopeId) :
    Option (List String) :=
  (Γ.own a).entries.mapM fun e => do
    let text ← displayWith (fun name b => (texts b).map (frameObject name)) e.2
    return e.1 ++ " = `" ++ text ++ "`"

/-- The texts of the members of an object, if objects nest in it less deeply than `depth`. -/
def memberTexts (Γ : ValueScopes) : Nat → ScopeId → Option (List String)
  | 0 => fun _ => none
  | depth + 1 => memberTextsWith Γ (memberTexts Γ depth)

theorem displayObject_eq (depth : Nat) :
    displayObject Γ depth = fun name a => (memberTexts Γ depth a).map (frameObject name) := by
  induction depth with
  | zero => rfl
  | succ depth ih =>
    funext name a
    simp only [displayObject, memberTexts, memberTextsWith, ih, Option.map_eq_bind]
    rfl

theorem memberTextsWith_answers {texts₁ texts₂ : ScopeId → Option (List String)}
    (h : Answers texts₁ texts₂) : Answers (memberTextsWith Γ texts₁) (memberTextsWith Γ texts₂) := by
  intro a members hmembers
  refine mapM_answers (fun e text htext => ?_) hmembers
  simp only [Option.bind_eq_bind, Option.bind_eq_some_iff] at htext ⊢
  obtain ⟨inner, hinner, htext⟩ := htext
  refine ⟨inner, displayWith_answers (fun name b text hb => ?_) e.2 hinner, htext⟩
  obtain ⟨bs, hbs, htext⟩ := Option.map_eq_some_iff.1 hb
  exact Option.map_eq_some_iff.2 ⟨bs, h b bs hbs, htext⟩

theorem memberTexts_answers (depth : Nat) :
    Answers (memberTexts Γ depth) (memberTexts Γ (depth + 1)) := by
  induction depth with
  | zero => exact fun _ _ h => nomatch h
  | succ depth ih => exact memberTextsWith_answers ih

/-- Objects that nest more deeply than there are scopes hold themselves, and have no text at all. -/
theorem displayObject_of_size_lt {depth : Nat} (h : Γ.size < depth) :
    displayObject Γ depth = displayObject Γ (Γ.size + 1) := by
  have hnew (a : ScopeId) (ha : a ∉ List.range Γ.size) : (memberTexts Γ 1 a).isSome := by
    rw [List.mem_range, Nat.not_lt] at ha
    rw [memberTexts, memberTextsWith, own_of_size_le ha]
    rfl
  have hstable := eq_of_length_lt (f := memberTexts Γ) (F := memberTextsWith Γ)
    (d := depth) (fun _ => rfl) memberTexts_answers hnew (by simpa using h)
  rw [displayObject_eq, displayObject_eq, hstable, List.length_range]

end Display

/-! Equality of values. -/

section Equality

variable {objects₁ objects₂ : ScopeId → ScopeId → Option Bool}

/-- What is known of two objects, by the pair of them. -/
def onPairs (objects : ScopeId → ScopeId → Option Bool) (p : ScopeId × ScopeId) : Option Bool :=
  objects p.1 p.2

mutual

theorem equalWith_answers (h : Answers (onPairs objects₁) (onPairs objects₂)) (v w : Value)
    {r : Bool} (hr : equalWith objects₁ v w = some r) : equalWith objects₂ v w = some r := by
  match v, w with
  | .list vs, .list ws =>
    simp only [equalWith] at hr ⊢
    split at hr
    · rw [if_pos ‹_›]
      exact equalAllWith_answers h vs ws hr
    · rw [if_neg ‹_›]
      exact hr
  | .object n a, .object m b =>
    simp only [equalWith] at hr ⊢
    split at hr
    · rw [if_pos ‹_›]
      split at hr
      · rw [if_pos ‹_›]
        exact hr
      · rw [if_neg ‹_›]
        exact h (a, b) r hr
    · rw [if_neg ‹_›]
      exact hr
  | .nil, _ | .boolean _, _ | .integer _, _ | .decimal _, _ | .string _, _ | .character _, _
  | .function _, _ => cases w <;> exact hr
  | .list _, .nil | .list _, .boolean _ | .list _, .integer _ | .list _, .decimal _
  | .list _, .string _ | .list _, .character _ | .list _, .function _ | .list _, .object .. =>
    exact hr
  | .object .., .nil | .object .., .boolean _ | .object .., .integer _ | .object .., .decimal _
  | .object .., .string _ | .object .., .character _ | .object .., .function _
  | .object .., .list _ => exact hr

theorem equalAllWith_answers (h : Answers (onPairs objects₁) (onPairs objects₂)) (vs ws : List Value)
    {r : Bool} (hr : equalAllWith objects₁ vs ws = some r) :
    equalAllWith objects₂ vs ws = some r := by
  match vs, ws with
  | [], _ => cases ws <;> exact hr
  | _ :: _, [] => exact hr
  | v :: vs, w :: ws =>
    rw [equalAllWith_cons] at hr ⊢
    cases hvw : equalWith objects₁ v w with
    | none => rw [hvw] at hr; cases hr
    | some answer =>
      rw [hvw] at hr
      rw [equalWith_answers h v w hvw]
      cases answer with
      | true => exact equalAllWith_answers h vs ws hr
      | false => exact hr

end

theorem equalEntries_answers {equal₁ equal₂ : Value → Value → Option Bool} {other : Bindings Value}
    (h : ∀ v, Answers (equal₁ v) (equal₂ v)) {es : List (String × Value)} {r : Bool}
    (hr : equalEntries equal₁ other es = some r) : equalEntries equal₂ other es = some r := by
  induction es with
  | nil => exact hr
  | cons e es ih =>
    rw [equalEntries] at hr ⊢
    cases hw : other.find? e.1 with
    | none => rwa [hw] at hr
    | some w =>
      rw [hw] at hr
      simp only at hr ⊢
      cases hvw : equal₁ e.2 w with
      | none => rw [hvw] at hr; cases hr
      | some answer =>
        rw [hvw] at hr
        rw [h e.2 w answer hvw]
        cases answer with
        | true => exact ih hr
        | false => exact hr

/-- The comparison of two objects, given how the objects in them compare. -/
def equalMembersWith (Γ : ValueScopes) (objects : ScopeId × ScopeId → Option Bool)
    (p : ScopeId × ScopeId) : Option Bool :=
  if (Γ.own p.1).size = (Γ.own p.2).size then
    equalEntries (equalWith fun a b => objects (a, b)) (Γ.own p.2) (Γ.own p.1).entries
  else some false

theorem equalMembers_succ (depth : Nat) :
    onPairs (equalMembers Γ (depth + 1)) = equalMembersWith Γ (onPairs (equalMembers Γ depth)) := by
  funext p
  simp only [onPairs, equalMembers, equalMembersWith, equalOrAlike_eq]

theorem equalMembersWith_answers {objects₁ objects₂ : ScopeId × ScopeId → Option Bool}
    (h : Answers objects₁ objects₂) :
    Answers (equalMembersWith Γ objects₁) (equalMembersWith Γ objects₂) := by
  intro p r hr
  unfold equalMembersWith at hr ⊢
  split at hr
  · rw [if_pos ‹_›]
    refine equalEntries_answers (fun v w answer hvw => ?_) hr
    have hpairs : Answers (onPairs fun a b => objects₁ (a, b)) (onPairs fun a b => objects₂ (a, b)) :=
      fun p => h (p.1, p.2)
    exact equalWith_answers hpairs v w hvw
  · rw [if_neg ‹_›]
    exact hr

theorem equalMembers_answers (depth : Nat) :
    Answers (onPairs (equalMembers Γ depth)) (onPairs (equalMembers Γ (depth + 1))) := by
  induction depth with
  | zero => exact fun _ _ h => nomatch h
  | succ depth ih =>
    rw [equalMembers_succ, equalMembers_succ]
    exact equalMembersWith_answers ih

/-- Two objects of which one has no members are told apart at once. -/
theorem equalMembers_one {a b : ScopeId} (h : Γ.own a = ∅ ∨ Γ.own b = ∅) :
    (equalMembers Γ 1 a b).isSome := by
  have hempty : (∅ : Bindings Value).size = 0 := rfl
  rw [equalMembers]
  split
  · next hsize =>
    have ha : (Γ.own a).entries = [] := by
      rcases h with h | h
      · rw [h]; rfl
      · rw [h, hempty] at hsize
        exact List.length_eq_zero_iff.1 hsize
    rw [ha]
    rfl
  · rfl

/-- Comparisons that nest more deeply than there are pairs of scopes have no answer at all. -/
theorem equalMembers_of_size_lt {depth : Nat} (h : Γ.size * Γ.size < depth) :
    equalMembers Γ depth = equalMembers Γ (Γ.size * Γ.size + 1) := by
  have hlength : (Ty.pairsBelow Γ.size).length = Γ.size * Γ.size := by
    simp [Ty.pairsBelow, List.map_const']
  have hnew (p : ScopeId × ScopeId) (hp : p ∉ Ty.pairsBelow Γ.size) :
      (onPairs (equalMembers Γ 1) p).isSome := by
    rw [Ty.mem_pairsBelow, Decidable.not_and_iff_or_not, Nat.not_lt, Nat.not_lt] at hp
    exact equalMembers_one (hp.imp own_of_size_le own_of_size_le)
  have hstable := eq_of_length_lt (f := fun d => onPairs (equalMembers Γ d)) (d := depth)
    equalMembers_succ equalMembers_answers hnew (by rwa [hlength])
  rw [hlength] at hstable
  funext a b
  exact congrFun hstable (a, b)

end Equality

end Value

end ObjectLang
