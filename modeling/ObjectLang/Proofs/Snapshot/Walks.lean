import ObjectLang.Proofs.Scope.Aligned
import ObjectLang.Snapshot.Numbering
import ObjectLang.Types.Equality

/-!
Walks that number the objects they meet. A walk finds the same when all scopes have other numbers
(`Walks`), and it finds the same however deeply it may open objects, as long as it may open all that
it has not met yet (`Agrees`).
-/

namespace ObjectLang.NumberingM

variable {α β σ τ : Type} {f : ScopeId → ScopeId} {x y : NumberingM σ} {g h : σ → NumberingM τ}

theorem bind_apply (met : List ScopeId) : (x >>= g) met = g (x met).1 (x met).2 := rfl

theorem meet_apply (a : ScopeId) (first : Nat → NumberingM σ) (again : Nat → σ) (met : List ScopeId) :
    meet a first again met = match met.idxOf? a with
      | some n => (again n, met)
      | none => first met.length (met ++ [a]) := by
  show (match met.idxOf? a with | some _ => _ | none => _ : NumberingM σ) met = _
  cases met.idxOf? a <;> rfl

/-! Other numbers for the scopes. -/

/-- Where `y` has met the images of what `x` has met, it goes on to meet images, and finds the
same. -/
def Walks (f : ScopeId → ScopeId) (x y : NumberingM σ) : Prop :=
  ∀ met, y (met.map f) = ((x met).1, (x met).2.map f)

theorem Walks.pure (a : σ) : Walks f (pure a : NumberingM σ) (pure a) := fun _ => rfl

theorem Walks.bind (hx : Walks f x y) (hg : ∀ a, Walks f (g a) (h a)) :
    Walks f (x >>= g) (y >>= h) := by
  intro met
  rw [bind_apply, bind_apply, hx met]
  exact hg _ _

theorem Walks.mapM {R : α → β → Prop} {g : α → NumberingM σ} {h : β → NumberingM σ} {as : List α}
    {bs : List β} (hab : List.Forall₂ R as bs) (hg : ∀ a b, R a b → Walks f (g a) (h b)) :
    Walks f (as.mapM g) (bs.mapM h) := by
  induction hab with
  | nil => exact .pure _
  | cons hr _ ih =>
    rw [List.mapM_cons, List.mapM_cons]
    exact (hg _ _ hr).bind fun _ => ih.bind fun _ => .pure _

theorem idxOf?_map (hf : Function.Injective f) (a : ScopeId) (met : List ScopeId) :
    (met.map f).idxOf? (f a) = met.idxOf? a := by
  induction met with
  | nil => rfl
  | cons b met ih => simp only [List.map_cons, List.idxOf?_cons, ih, beq_iff_eq, hf.eq_iff]

theorem Walks.meet (hf : Function.Injective f) {a : ScopeId} {first first' : Nat → NumberingM σ}
    (hfirst : ∀ n, Walks f (first n) (first' n)) (again : Nat → σ) :
    Walks f (meet a first again) (meet (f a) first' again) := by
  intro met
  rw [meet_apply, meet_apply, idxOf?_map hf]
  cases met.idxOf? a with
  | some n => rfl
  | none =>
    have hmet : met.map f ++ [f a] = (met ++ [a]).map f := by simp
    dsimp only
    rw [List.length_map, hmet]
    exact hfirst _ _

theorem fromStart_eq (hxy : Walks f x y) : fromStart x = fromStart y :=
  (congrArg Prod.fst (hxy [])).symm

/-! Objects that are opened inside each other. -/

/-- How many scopes have not been met. -/
def unmet (size : Nat) (met : List ScopeId) : Nat := (List.range size).countP fun a => a ∉ met

theorem unmet_le (size : Nat) (met : List ScopeId) : unmet size met ≤ size := by
  simpa [unmet] using List.countP_le_length (p := fun a => decide (a ∉ met)) (l := List.range size)

theorem unmet_append_le (size : Nat) (met : List ScopeId) (a : ScopeId) :
    unmet size (met ++ [a]) ≤ unmet size met :=
  List.countP_mono_left fun b _ hb => by
    simp only [List.mem_append, not_or, decide_eq_true_eq] at hb ⊢
    exact hb.1

theorem unmet_append_lt {size : Nat} {met : List ScopeId} {a : ScopeId} (ha : a < size)
    (hnew : a ∉ met) : unmet size (met ++ [a]) < unmet size met := by
  refine Ty.countP_lt_of_mem (fun b hb => ?_) (List.mem_range.2 ha) (by simpa using hnew) (by simp)
  simp only [List.mem_append, not_or, decide_eq_true_eq] at hb ⊢
  exact hb.1

/-- Two walks are the same where fewer than `depth` scopes have not been met. -/
def Agrees (size depth : Nat) (x y : NumberingM σ) : Prop :=
  ∀ met, unmet size met < depth → x met = y met ∧ unmet size (x met).2 ≤ unmet size met

/-- An object that has just been met is opened in the same way by both, if fewer than `depth` scopes
have not been met or it has no members. -/
def OpensAlike (size depth : Nat) (first second : ScopeId → NumberingM σ) : Prop :=
  ∀ a met, (a < size → unmet size met < depth) →
    first a met = second a met ∧ unmet size (first a met).2 ≤ unmet size met

variable {size depth : Nat}

theorem Agrees.pure (a : σ) : Agrees size depth (pure a : NumberingM σ) (pure a) :=
  fun _ _ => ⟨rfl, Nat.le_refl _⟩

theorem Agrees.bind (hx : Agrees size depth x y) (hg : ∀ a, Agrees size depth (g a) (h a)) :
    Agrees size depth (x >>= g) (y >>= h) := by
  intro met hmet
  obtain ⟨hxy, hle⟩ := hx met hmet
  obtain ⟨hgh, hle'⟩ := hg (x met).1 (x met).2 (Nat.lt_of_le_of_lt hle hmet)
  rw [bind_apply, bind_apply, ← hxy, hgh]
  exact ⟨rfl, hgh ▸ Nat.le_trans hle' hle⟩

theorem Agrees.mapM {as : List α} {g h : α → NumberingM σ} (hg : ∀ a, Agrees size depth (g a) (h a)) :
    Agrees size depth (as.mapM g) (as.mapM h) := by
  induction as with
  | nil => exact .pure _
  | cons a as ih =>
    rw [List.mapM_cons, List.mapM_cons]
    exact (hg a).bind fun _ => ih.bind fun _ => .pure _

/-- One more object may be opened where the objects in it agree. -/
theorem Agrees.meet {first second : ScopeId → NumberingM σ} (hopen : OpensAlike size depth first second)
    (a : ScopeId) (make : Nat → σ → τ) (again : Nat → τ) :
    Agrees size (depth + 1) (meet a (fun n => return make n (← first a)) again)
      (meet a (fun n => return make n (← second a)) again) := by
  intro met hmet
  rw [meet_apply, meet_apply]
  cases hidx : met.idxOf? a with
  | some n => exact ⟨rfl, Nat.le_refl _⟩
  | none =>
    have hnew : a ∉ met := List.idxOf?_eq_none_iff.1 hidx
    obtain ⟨hsame, hle⟩ := hopen a (met ++ [a]) fun ha =>
      Nat.lt_of_lt_of_le (unmet_append_lt ha hnew) (Nat.le_of_lt_succ hmet)
    dsimp only
    rw [bind_apply, bind_apply, ← hsame]
    exact ⟨rfl, Nat.le_trans hle (unmet_append_le size met a)⟩

/-! Types and values are looked at in the same manner. -/

section Opened

/-- The members of an object, opened inside each other at most `depth` times, where `look` says what
is told of each. -/
def opened (Γ : Forest α)
    (look : (ScopeId → NumberingM (List (String × σ))) → α → NumberingM σ) :
    Nat → ScopeId → NumberingM (List (String × σ))
  | 0, _ => return []
  | depth + 1, a => (Γ.own a).entries.mapM fun e => return (e.1, ← look (opened Γ look depth) e.2)

variable {Γ Δ : Forest α} {first second : ScopeId → NumberingM (List (String × σ))}
  {look : (ScopeId → NumberingM (List (String × σ))) → α → NumberingM σ}
  {R : ScopeId → ScopeId → Prop} {P : α → α → Prop}

theorem opened_of_size_le {a : ScopeId} (ha : Γ.size ≤ a) : opened Γ look depth a = pure [] := by
  cases depth with
  | zero => rfl
  | succ depth =>
    rw [opened, Forest.own_of_size_le ha]
    rfl

/-- A look agrees with another where the objects in what is looked at are opened alike. -/
def LooksAlike (look : (ScopeId → NumberingM (List (String × σ))) → α → NumberingM σ) : Prop :=
  ∀ {size depth first second}, OpensAlike size depth first second →
    ∀ t, Agrees size (depth + 1) (look first t) (look second t)

theorem opened_alike (hlook : LooksAlike look) (depth : Nat) :
    OpensAlike Γ.size depth (opened Γ look depth) (opened Γ look (depth + 1)) := by
  induction depth with
  | zero =>
    intro a met hmet
    have ha : Γ.size ≤ a := Nat.not_lt.1 fun ha => Nat.not_lt_zero _ (hmet ha)
    rw [opened_of_size_le ha, opened_of_size_le ha]
    exact ⟨rfl, Nat.le_refl _⟩
  | succ depth ih =>
    intro a met hmet
    by_cases ha : a < Γ.size
    · have hentries : Agrees Γ.size (depth + 1) (opened Γ look (depth + 1) a)
          (opened Γ look (depth + 2) a) :=
        Agrees.mapM fun e => (hlook ih e.2).bind fun _ => .pure _
      exact hentries met (hmet ha)
    · have ha := Nat.not_lt.1 ha
      rw [opened_of_size_le ha, opened_of_size_le ha]
      exact ⟨rfl, Nat.le_refl _⟩

/-- No object is left out for lack of depth. -/
theorem look_of_size_lt (hlook : LooksAlike look) (t : α) (h : Γ.size < depth) :
    look (opened Γ look depth) t = look (opened Γ look (Γ.size + 1)) t := by
  induction h with
  | refl => rfl
  | @step depth h ih =>
    rw [← ih]
    funext met
    have hmet := Nat.lt_of_le_of_lt (unmet_le Γ.size met) (Nat.lt_succ_of_lt h)
    exact (hlook (opened_alike hlook depth) t met hmet).1.symm

/-- Related objects are images under `f`, and are opened alike. -/
def OpensTo (f : ScopeId → ScopeId) (R : ScopeId → ScopeId → Prop)
    (first second : ScopeId → NumberingM (List (String × σ))) : Prop :=
  ∀ a b, R a b → b = f a ∧ Walks f (first a) (second b)

/-- A look finds the same where related objects are opened alike. -/
def LooksTo (f : ScopeId → ScopeId) (R : ScopeId → ScopeId → Prop) (P : α → α → Prop)
    (look : (ScopeId → NumberingM (List (String × σ))) → α → NumberingM σ) : Prop :=
  ∀ {first second}, OpensTo f R first second →
    ∀ t u, P t u → Walks f (look first t) (look second u)

theorem opensTo_opened (hwalk : LooksTo f R P look) (hR : ∀ a b, R a b → b = f a)
    (hown : ∀ a b, R a b → Bindings.Aligned P (Γ.own a) (Δ.own b)) (depth : Nat) :
    OpensTo f R (opened Γ look depth) (opened Δ look depth) := by
  induction depth with
  | zero => exact fun a b hab => ⟨hR a b hab, .pure _⟩
  | succ depth ih =>
    intro a b hab
    refine ⟨hR a b hab, Walks.mapM (hown a b hab) fun e e' he => ?_⟩
    rw [he.1]
    exact (hwalk ih e.2 e'.2 he.2).bind fun _ => .pure _

/-- What is told of related things does not depend on the numbers of scopes. -/
theorem walks_look (hlook : LooksAlike look) (hwalk : LooksTo f R P look)
    (hR : ∀ a b, R a b → b = f a)
    (hown : ∀ a b, R a b → Bindings.Aligned P (Γ.own a) (Δ.own b)) {t u : α} (h : P t u) :
    Walks f (look (opened Γ look (Γ.size + 1)) t) (look (opened Δ look (Δ.size + 1)) u) := by
  rw [← look_of_size_lt hlook t (Nat.lt_succ_of_le (Nat.le_max_left Γ.size Δ.size)),
    ← look_of_size_lt hlook u (Nat.lt_succ_of_le (Nat.le_max_right Γ.size Δ.size))]
  exact hwalk (opensTo_opened hwalk hR hown _) t u h

end Opened

end ObjectLang.NumberingM
