import ObjectLang.Proofs.Analysis.Frame
import ObjectLang.Proofs.Pairing.Scopes

/-!
The steps of two analyses that go in tandem: from paired scopes they give paired results, or they
stop with errors that differ in paired types only. What they give stays paired while they go on, so
the results of one step are there for the next in whatever the scopes have become by then.
-/

namespace ObjectLang

open Forest Bindings

/-- The types that an error carries. -/
def AnalysisError.types : AnalysisError → List Ty
  | notSubtype t u | operandMismatch _ t u => [t, u]
  | conditionNotBoolean t | receiverNotObject t | notFunction _ t | undefinedMember _ t => [t]
  | _ => []

/-- Errors of one form, about related types. -/
inductive AnalysisError.Alike (S : Ty → Ty → Prop) : AnalysisError → AnalysisError → Prop
  | same {e : AnalysisError} : e.types = [] → Alike S e e
  | notSubtype {t t' u u' : Ty} : S t t' → S u u' → Alike S (.notSubtype t u) (.notSubtype t' u')
  | conditionNotBoolean {t t' : Ty} : S t t' →
    Alike S (.conditionNotBoolean t) (.conditionNotBoolean t')
  | receiverNotObject {t t' : Ty} : S t t' → Alike S (.receiverNotObject t) (.receiverNotObject t')
  | notFunction {name : String} {t t' : Ty} : S t t' →
    Alike S (.notFunction name t) (.notFunction name t')
  | operandMismatch {op : Operator} {t t' u u' : Ty} : S t t' → S u u' →
    Alike S (.operandMismatch op t u) (.operandMismatch op t' u')
  | undefinedMember {name : String} {t t' : Ty} : S t t' →
    Alike S (.undefinedMember name t) (.undefinedMember name t')

theorem AnalysisError.Alike.kind_eq {S : Ty → Ty → Prop} {e e' : AnalysisError}
    (h : e.Alike S e') : e.kind = e'.kind := by
  cases h <;> rfl

namespace Analysis

variable {P : Pairing} {hidden : List String} {s t : ScopeId} {n m : Nat} {α β γ δ : Type}
  {A : Nat → α → β → Prop} {B : Nat → γ → δ → Prop} {x : AnalyzeM α} {y : AnalyzeM β}
  {f : α → AnalyzeM γ} {g : β → AnalyzeM δ} {name : String} {v v' w w' : Ty}

/-- The ends of two runs in the scopes `s` and `t`, with at least `n` scopes in the first. -/
inductive Agree (P : Pairing) (hidden : List String) (s t : ScopeId) (n : Nat)
    (A : Nat → α → β → Prop) :
    EStateM.Result AnalysisError State α → EStateM.Result AnalysisError State β → Prop
  | ok {a : α} {b : β} {σ τ : State} : n ≤ σ.scopes.size → A σ.scopes.size a b →
    P.Twins hidden s t σ.scopes τ.scopes → Agree P hidden s t n A (.ok a σ) (.ok b τ)
  | error {e e' : AnalysisError} {σ τ : State} : e.Alike (P.Same σ.scopes.size) e' →
    P.Linked σ.scopes τ.scopes → Agree P hidden s t n A (.error e σ) (.error e' τ)

/-- Two runs end alike from scopes that look the same, once there are `n` scopes. -/
def Tandem (P : Pairing) (hidden : List String) (s t : ScopeId) (n : Nat) (A : Nat → α → β → Prop)
    (x : AnalyzeM α) (y : AnalyzeM β) : Prop :=
  ∀ σ τ, n ≤ σ.scopes.size → P.Twins hidden s t σ.scopes τ.scopes →
    Agree P hidden s t n A (x σ) (y τ)

theorem Tandem.pure {a : α} {b : β} (h : ∀ m, n ≤ m → A m a b) :
    Tandem P hidden s t n A (pure a) (pure b) :=
  fun _ _ hn hst => .ok hn (h _ hn) hst

theorem Tandem.throw {e e' : AnalysisError} (h : ∀ m, n ≤ m → e.Alike (P.Same m) e') :
    Tandem P hidden s t n A (throw e) (throw e') :=
  fun _ _ hn hst => .error (h _ hn) hst.toLinked

theorem Agree.mono {r : EStateM.Result AnalysisError State α}
    {r' : EStateM.Result AnalysisError State β} (h : Agree P hidden s t m A r r') (hnm : n ≤ m) :
    Agree P hidden s t n A r r' := by
  cases h with
  | ok hm hab hst => exact .ok (Nat.le_trans hnm hm) hab hst
  | error he hst => exact .error he hst

theorem Tandem.bind (hx : Tandem P hidden s t n A x y)
    (hf : ∀ m, n ≤ m → ∀ a b, A m a b → Tandem P hidden s t m B (f a) (g b)) :
    Tandem P hidden s t n B (x >>= f) (y >>= g) := by
  intro σ τ hn hst
  have h := hx σ τ hn hst
  rw [bind_apply, bind_apply]
  generalize x σ = r, y τ = r' at h
  cases h with
  | ok hn' hab hst' => exact (hf _ hn' _ _ hab _ _ (Nat.le_refl _) hst').mono hn'
  | error he hlinked => exact .error he hlinked

/-- What is done in scopes that are new in both runs is not seen in `s` and `t`. -/
theorem Agree.leave {i j : ScopeId} {r : EStateM.Result AnalysisError State α}
    {r' : EStateM.Result AnalysisError State β} {Γ Δ : TypeScopes}
    (h : Agree P hidden i j n A r r') (hst : P.Twins hidden s t Γ Δ)
    (hl : BindingsKept Γ (finalState r).scopes) (hr : BindingsKept Δ (finalState r').scopes) :
    Agree P hidden s t n A r r' := by
  cases h with
  | ok hn hab hij => exact .ok hn hab (hst.of_kept hl hr hij.toLinked)
  | error he hlinked => exact .error he hlinked

theorem tandem_openChild {own own' : Bindings Ty} {k : ScopeId → AnalyzeM α}
    {k' : ScopeId → AnalyzeM β} (hown : Aligned (P.Same n) own own')
    (hk : ∀ m, n ≤ m → ∀ i j, P.new m i j → Tandem P hidden i j m A (k i) (k' j))
    (hkeep : ∀ i, Keeps (BindsTo i) (k i)) (hkeep' : ∀ j, Keeps (BindsTo j) (k' j)) :
    Tandem P hidden s t n A (openChild s own >>= k) (openChild t own' >>= k') := by
  intro σ τ hn hst
  have hin := hst.addChild (hown.mono fun _ _ h => Pairing.same_mono h hn)
  have hnew := hst.toLinked.new_size (Nat.lt_succ_self _)
  have h := hk _ (by omega) _ _ hnew { σ with scopes := σ.scopes.addChild s own }
    { τ with scopes := τ.scopes.addChild t own' } (by simp) hin
  obtain ⟨_, hl⟩ := hkeep σ.scopes.size { σ with scopes := σ.scopes.addChild s own }
  obtain ⟨_, hr⟩ := hkeep' τ.scopes.size { τ with scopes := τ.scopes.addChild t own' }
  exact (h.mono (by omega)).leave hst (kept_addChild.trans_adds_new (Nat.le_refl _) hl)
    (kept_addChild.trans_adds_new (Nat.le_refl _) hr)

theorem tandem_openRoot {k : ScopeId → AnalyzeM α} {k' : ScopeId → AnalyzeM β}
    (hk : ∀ m, n ≤ m → ∀ i j, P.new m i j → Tandem P hidden i j m A (k i) (k' j))
    (hkeep : ∀ i, Keeps (BindsTo i) (k i)) (hkeep' : ∀ j, Keeps (BindsTo j) (k' j)) :
    Tandem P hidden s t n A (openRoot >>= k) (openRoot >>= k') := by
  intro σ τ hn hst
  have hin := hst.toLinked.addRoot hidden
  have hnew := hst.toLinked.new_size (Nat.lt_succ_self _)
  have h := hk _ (by omega) _ _ hnew { σ with scopes := σ.scopes.addRoot ∅ }
    { τ with scopes := τ.scopes.addRoot ∅ } (by simp) hin
  obtain ⟨_, hl⟩ := hkeep σ.scopes.size { σ with scopes := σ.scopes.addRoot ∅ }
  obtain ⟨_, hr⟩ := hkeep' τ.scopes.size { τ with scopes := τ.scopes.addRoot ∅ }
  exact (h.mono (by omega)).leave hst (kept_addRoot.trans_adds_new (Nat.le_refl _) hl)
    (kept_addRoot.trans_adds_new (Nat.le_refl _) hr)

/-- Results that say no more than that the runs go on. -/
abbrev Onward : Nat → α → β → Prop := fun _ _ _ => True

/-- Results that are the same, whatever the scopes. -/
abbrev Equal : Nat → α → α → Prop := fun _ a b => a = b

theorem tandem_report (event event' : Event) :
    Tandem P hidden s t n Onward (report event) (report event') :=
  fun _ _ hn hst => .ok hn trivial hst

theorem tandem_lookup (hname : name ∉ hidden) :
    Tandem P hidden s t n (fun m => Option.Rel (P.Same m)) (lookup s name) (lookup t name) :=
  fun _ _ hn hst => .ok hn (hst.found name hname) hst

theorem tandem_ofExcept {r : Except AnalysisError α} (h : ∀ e, r = .error e → e.types = []) :
    Tandem P hidden s t n Equal (MonadExcept.ofExcept r) (MonadExcept.ofExcept r) := by
  cases r with
  | ok a => exact .pure fun _ _ => rfl
  | error e => exact .throw fun _ _ => .same (h e rfl)

theorem tandem_requireFresh (hname : name ∉ hidden) :
    Tandem P hidden s t n Onward (requireFresh s name) (requireFresh t name) := by
  intro σ τ hn hst
  rw [requireFresh_apply, requireFresh_apply, hst.contains_eq name hname]
  split
  · exact .error (.same rfl) hst.toLinked
  · exact .ok hn trivial hst

theorem tandem_define (halone : P.Alone s t) (hname : name ∉ hidden) (hv : P.Same n v v') :
    Tandem P hidden s t n Onward (define s name v) (define t name v') := by
  intro σ τ hn hst
  rw [define_apply, define_apply, hst.contains_eq name hname]
  split
  · exact .error (.same rfl) hst.toLinked
  · exact .ok (by simpa using hn) trivial (hst.insert halone name (Pairing.same_mono hv hn))

theorem tandem_sameType (hv : P.Same n v v') (hw : P.Same n w w') :
    Tandem P hidden s t n Equal (sameType v w) (sameType v' w') :=
  fun _ _ hn hst => .ok hn (Ty.equiv_of_paired hst.corresponds (Pairing.same_mono hv hn)
    (Pairing.same_mono hw hn)) hst

theorem tandem_requireSubtype (hv : P.Same n v v') (hw : P.Same n w w') :
    Tandem P hidden s t n Onward (requireSubtype v w) (requireSubtype v' w') := by
  intro σ τ hn hst
  have hv := Pairing.same_mono hv hn
  have hw := Pairing.same_mono hw hn
  rw [requireSubtype_apply, requireSubtype_apply, Ty.isSubtype_of_paired hst.corresponds hv hw]
  split
  · exact .ok hn trivial hst
  · exact .error (.notSubtype hv hw) hst.toLinked

theorem tandem_requireBoolean (hv : P.Same n v v') :
    Tandem P hidden s t n Onward (requireBoolean v) (requireBoolean v') := by
  intro σ τ hn hst
  have hv := Pairing.same_mono hv hn
  rw [requireBoolean_apply, requireBoolean_apply,
    Ty.equiv_of_paired hst.corresponds hv (.prim .boolean)]
  split
  · exact .ok hn trivial hst
  · exact .error (.conditionNotBoolean hv) hst.toLinked

theorem tandem_requireArity (name : String) {expected expected' : Nat} (given : Nat)
    (h : expected = expected') :
    Tandem P hidden s t n Onward (requireArity name expected given)
      (requireArity name expected' given) := by
  subst h
  intro σ τ hn hst
  rw [requireArity_apply, requireArity_apply]
  split
  · exact .ok hn trivial hst
  · exact .error (.same rfl) hst.toLinked

theorem tandem_memberType (hv : P.Same n v v') (name : String) :
    Tandem P hidden s t n P.Same (memberType v name) (memberType v' name) := by
  cases hv with
  | prim p => exact .throw fun _ _ => .receiverNotObject (.prim p)
  | fn hp hr =>
    exact .throw fun _ hm => .receiverNotObject (Pairing.same_mono (.fn hp hr) hm)
  | object hab =>
    intro σ τ hn hst
    have hab := Pairing.rel_mono hab hn
    rw [memberType_apply, memberType_apply]
    have hfound : Option.Rel _ (σ.scopes.lookupOwn _ name) (τ.scopes.lookupOwn _ name) :=
      hst.corresponds _ _ hab name
    generalize σ.scopes.lookupOwn _ name = o, τ.scopes.lookupOwn _ name = o' at hfound
    cases hfound with
    | none => exact .error (.undefinedMember (.object hab)) hst.toLinked
    | some h => exact .ok hn h hst

/-- Parameter types and result types that are paired by now. -/
def SameSignature (P : Pairing) (n : Nat) (c d : List Ty × Ty) : Prop :=
  List.Forall₂ (P.Same n) c.1 d.1 ∧ P.Same n c.2 d.2

theorem tandem_calleeType (name : String) (hv : P.Same n v v') :
    Tandem P hidden s t n (SameSignature P) (calleeType name v) (calleeType name v') := by
  cases hv with
  | prim p => exact .throw fun _ _ => .notFunction (.prim p)
  | fn hp hr =>
    exact .pure fun m hm => ⟨hp.imp fun _ _ h => Pairing.same_mono h hm, Pairing.same_mono hr hm⟩
  | object hab => exact .throw fun _ hm => .notFunction (.object (Pairing.rel_mono hab hm))

theorem tandem_bothNumeric (hv : P.Same n v v') (hw : P.Same n w w') :
    Tandem P hidden s t n Equal (bothNumeric v w) (bothNumeric v' w') := by
  apply (tandem_sameType hv (.prim .integer)).bind
  rintro m hm b _ rfl
  cases b with
  | true => exact tandem_sameType (Pairing.same_mono hv hm) (Pairing.same_mono hw hm)
  | false =>
    apply (tandem_sameType (Pairing.same_mono hv hm) (.prim .decimal)).bind
    rintro m' hm' b _ rfl
    have hm' := Nat.le_trans hm hm'
    cases b with
    | true => exact tandem_sameType (Pairing.same_mono hv hm') (Pairing.same_mono hw hm')
    | false => exact .pure fun _ _ => rfl

theorem tandem_binaryType (op : Operator) (hv : P.Same n v v') (hw : P.Same n w w') :
    Tandem P hidden s t n P.Same (binaryType op v w) (binaryType op v' w') := by
  have hlift {m : Nat} (hm : n ≤ m) : P.Same m v v' ∧ P.Same m w w' :=
    ⟨Pairing.same_mono hv hm, Pairing.same_mono hw hm⟩
  have hnumeric {m : Nat} (hm : n ≤ m) : Tandem P hidden s t m P.Same
      (do if ← bothNumeric v w then return v else throw (.operandMismatch op v w))
      (do if ← bothNumeric v' w' then return v' else throw (.operandMismatch op v' w')) := by
    apply (tandem_bothNumeric (hlift hm).1 (hlift hm).2).bind
    rintro m' hm' b _ rfl
    have hm' := Nat.le_trans hm hm'
    cases b with
    | true => exact .pure fun _ h => (hlift (Nat.le_trans hm' h)).1
    | false =>
      exact .throw fun _ h => .operandMismatch (hlift (Nat.le_trans hm' h)).1
        (hlift (Nat.le_trans hm' h)).2
  cases op with
  | and | or | eq | ne =>
    apply (tandem_requireSubtype hv (.prim _)).bind
    intro m hm _ _ _
    apply (tandem_requireSubtype (hlift hm).2 (.prim _)).bind
    intro _ _ _ _ _
    exact .pure fun _ _ => .prim _
  | add =>
    apply (tandem_sameType hv (.prim .string)).bind
    rintro m hm b _ rfl
    cases b with
    | true => exact .pure fun _ _ => .prim _
    | false =>
      apply (tandem_sameType (hlift hm).2 (.prim .string)).bind
      rintro m' hm' b _ rfl
      cases b with
      | true => exact .pure fun _ _ => .prim _
      | false => exact hnumeric (Nat.le_trans hm hm')
  | sub | mul | div => exact hnumeric (Nat.le_refl _)
  | lt | le | gt | ge =>
    apply (tandem_requireSubtype hv (.prim _)).bind
    intro m hm _ _ _
    apply (tandem_requireSubtype (hlift hm).2 (.prim _)).bind
    intro m' hm' _ _ _
    have hm' := Nat.le_trans hm hm'
    apply (tandem_sameType (hlift hm').1 (hlift hm').2).bind
    rintro m'' hm'' b _ rfl
    have hm'' := Nat.le_trans hm' hm''
    cases b with
    | true => exact .pure fun _ _ => .prim _
    | false =>
      exact .throw fun _ h => .operandMismatch (hlift (Nat.le_trans hm'' h)).1
        (hlift (Nat.le_trans hm'' h)).2

theorem types_resolve {word : String} {e : AnalysisError} (h : resolve word = .error e) :
    e.types = [] := by
  unfold resolve at h
  split at h <;> cases h
  rfl

theorem types_resolveOr {word : Option String} {e : AnalysisError} (h : resolveOr word = .error e) :
    e.types = [] := by
  cases word with
  | none => cases h
  | some word => exact types_resolve h

theorem types_literalType {value : Literal} {e : AnalysisError} (h : literalType value = .error e) :
    e.types = [] := by
  cases value <;> cases h <;> rfl

theorem types_paramTypes {function : String} {seen params : List String}
    {annotations : List (Option String)} {e : AnalysisError}
    (h : paramTypes function seen params annotations = .error e) : e.types = [] := by
  induction params generalizing seen annotations with
  | nil => cases h
  | cons param params ih =>
    unfold paramTypes at h
    split at h
    · cases h
      rfl
    · rcases except_bind_error h with h | ⟨_, _, h⟩
      · exact types_resolveOr h
      · rcases except_bind_error h with h | ⟨_, _, h⟩
        · exact ih h
        · cases h

theorem types_signature {d : DefDecl} {e : AnalysisError} (h : signature d = .error e) :
    e.types = [] := by
  obtain ⟨name, params, annotations, returnType, body⟩ := d
  rcases except_bind_error h with h | ⟨_, _, h⟩
  · exact types_paramTypes h
  · rcases except_bind_error h with h | ⟨_, _, h⟩
    · exact types_resolveOr h
    · cases h

theorem tandem_signature (d : DefDecl) :
    Tandem P hidden s t n Equal (MonadExcept.ofExcept (signature d))
      (MonadExcept.ofExcept (signature d)) :=
  tandem_ofExcept fun _ => types_signature

theorem tandem_requireObjectName (object : Option String) :
    Tandem P hidden s t n Onward (requireObjectName object) (requireObjectName object) := by
  cases object with
  | none => exact .pure fun _ _ => trivial
  | some word =>
    show Tandem P hidden s t n Onward (if (Prim.ofName? word).isSome = true then _ else _)
      (if (Prim.ofName? word).isSome = true then _ else _)
    split
    · exact .throw fun _ _ => .same rfl
    · exact .pure fun _ _ => trivial

/-- A type that a program writes down. -/
theorem same_toTy (P : Pairing) (n : Nat) (sig : Signature) : P.Same n sig.toTy sig.toTy := by
  refine .fn ?_ (.prim _)
  refine List.forall₂_same.2 fun t ht => ?_
  obtain ⟨p, -, rfl⟩ := List.mem_map.1 ht
  exact .prim p

theorem tandem_declareMethods (halone : P.Alone s t) {ds : List DefDecl}
    (hds : ∀ d ∈ ds, d.name ∉ hidden) :
    Tandem P hidden s t n Equal (declareMethods s ds) (declareMethods t ds) := by
  induction ds generalizing n with
  | nil => exact .pure fun _ _ => rfl
  | cons d ds ih =>
    obtain ⟨hd, hds⟩ := List.forall_mem_cons.1 hds
    have hrest : Tandem P hidden s t n Equal
        (do
          let sig ← MonadExcept.ofExcept (signature d)
          define s d.name sig.toTy
          return sig :: (← declareMethods s ds))
        (do
          let sig ← MonadExcept.ofExcept (signature d)
          define t d.name sig.toTy
          return sig :: (← declareMethods t ds)) := by
      apply (tandem_signature d).bind
      rintro m hm sig _ rfl
      apply (tandem_define halone hd (same_toTy P m sig)).bind
      intro m' _ _ _ _
      apply (ih hds).bind
      rintro m'' _ sigs _ rfl
      exact .pure fun _ _ => rfl
    intro σ τ hn hst
    have hsame := hst.contains_eq d.name hd
    show Agree P hidden s t n Equal ((if σ.scopes.containsOwn s d.name then _ else _ : AnalyzeM _) σ)
      ((if τ.scopes.containsOwn t d.name then _ else _ : AnalyzeM _) τ)
    rw [← hsame]
    split
    · exact .error (.same rfl) hst.toLinked
    · exact hrest σ τ hn hst

theorem tandem_declareSelf (hnew : P.new n s t) :
    Tandem P hidden s t n Onward (declareSelf s) (declareSelf t) := by
  intro σ τ hn hst
  have hrel : P.rel σ.scopes.size s t := Pairing.rel_mono (Or.inr hnew) hn
  have hsame : σ.scopes.containsOwn s selfName = τ.scopes.containsOwn t selfName :=
    (hst.corresponds s t hrel).contains_eq
  rw [declareSelf_apply, declareSelf_apply, hsame]
  split
  · exact .error (.same rfl) hst.toLinked
  · exact .ok (by simpa using hn) trivial
      (hst.insert (Pairing.alone_of_new hnew) selfName (.object hrel))

theorem tandem_declareFunction (halone : P.Alone s t) {d : DefDecl} (hd : d.name ∉ hidden) :
    Tandem P hidden s t n Equal (declareFunction s d) (declareFunction t d) := by
  apply (tandem_requireFresh hd).bind
  intro _ _ _ _ _
  apply (tandem_signature d).bind
  rintro m hm sig _ rfl
  apply (tandem_define halone hd (same_toTy P m sig)).bind
  intro _ _ _ _ _
  exact (tandem_report _ _).bind fun _ _ _ _ _ => .pure fun _ _ => rfl

end Analysis

end ObjectLang
