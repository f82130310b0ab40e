import ObjectLang.Analysis.Rules
import ObjectLang.Proofs.Steps
import ObjectLang.Scope.Lemmas

/-!
When the steps of analysis succeed. Each lemma reads the success of one step as the rule that the
step checks, and says what the step has done to the scopes.
-/

namespace ObjectLang.Analysis

variable {s : ScopeId} {name : String} {t u : Ty} {st st' : State} {own : Bindings Ty}

theorem pure_eq_ok {α : Type} {a b : α} : (pure a : AnalyzeM α) st = .ok b st' ↔ b = a ∧ st' = st := by
  simp [pure_apply, eq_comm]

theorem throw_eq_ok {α : Type} {e : AnalysisError} {a : α} :
    (throw e : AnalyzeM α) st = .ok a st' ↔ False := by
  constructor
  · intro h
    cases h
  · exact False.elim

theorem ofExcept_eq_ok {α : Type} {x : Except AnalysisError α} {a : α} :
    (MonadExcept.ofExcept x : AnalyzeM α) st = .ok a st' ↔ x = .ok a ∧ st' = st := by
  cases x with
  | ok b => simp [MonadExcept.ofExcept, pure_apply, eq_comm]
  | error e => simpa [MonadExcept.ofExcept] using throw_eq_ok

theorem report_eq_ok {event : Event} {v : Unit} :
    report event st = .ok v st' ↔ st' = { st with trace := st.trace.push event } := by
  constructor
  · intro h
    cases h
    rfl
  · rintro rfl
    rfl

theorem openChild_eq_ok {inner : ScopeId} :
    openChild s own st = .ok inner st' ↔
      inner = st.scopes.size ∧ st' = { st with scopes := st.scopes.addChild s own } := by
  constructor
  · intro h
    cases h
    exact ⟨rfl, rfl⟩
  · rintro ⟨rfl, rfl⟩
    rfl

theorem openRoot_eq_ok {inner : ScopeId} :
    openRoot st = .ok inner st' ↔
      inner = st.scopes.size ∧ st' = { st with scopes := st.scopes.addRoot ∅ } := by
  constructor
  · intro h
    cases h
    exact ⟨rfl, rfl⟩
  · rintro ⟨rfl, rfl⟩
    rfl

theorem lookup_eq_ok {found : Option Ty} :
    lookup s name st = .ok found st' ↔ found = st.scopes.lookup s name ∧ st' = st := by
  constructor
  · intro h
    cases h
    exact ⟨rfl, rfl⟩
  · rintro ⟨rfl, rfl⟩
    rfl

theorem requireFresh_apply : requireFresh s name st =
    if st.scopes.containsOwn s name then .error (.alreadyDefined name) st else .ok () st := by
  show (if st.scopes.containsOwn s name then _ else _ : AnalyzeM Unit) st = _
  split <;> rfl

theorem define_apply : define s name t st =
    if st.scopes.containsOwn s name then .error (.scope (.alreadyDefined name)) st
    else .ok () { st with scopes := st.scopes.insert s name t } := by
  show (if st.scopes.containsOwn s name then _ else _ : AnalyzeM Unit) st = _
  split <;> rfl

theorem sameType_apply : sameType t u st = .ok (t.equiv st.scopes u) st := rfl

theorem requireSubtype_apply : requireSubtype t u st =
    if t.isSubtype st.scopes u then .ok () st else .error (.notSubtype t u) st := by
  show (if t.isSubtype st.scopes u then _ else _ : AnalyzeM Unit) st = _
  split <;> rfl

theorem requireBoolean_apply : requireBoolean t st =
    if t.equiv st.scopes (.prim .boolean) then .ok () st else .error (.conditionNotBoolean t) st := by
  show (if t.equiv st.scopes (.prim .boolean) then _ else _ : AnalyzeM Unit) st = _
  split <;> rfl

theorem requireArity_apply {expected given : Nat} : requireArity name expected given st =
    if given = expected then .ok () st else .error (.arityMismatch name expected given) st := by
  show (if given = expected then _ else _ : AnalyzeM Unit) st = _
  split <;> rfl

theorem memberType_apply {members : ScopeId} : memberType (.object members) name st =
    match st.scopes.lookupOwn members name with
    | some type => .ok type st
    | none => .error (.undefinedMember name (.object members)) st := by
  show (match st.scopes.lookupOwn members name with | some _ => _ | none => _ : AnalyzeM Ty) st = _
  cases st.scopes.lookupOwn members name <;> rfl

theorem requireFresh_eq_ok {v : Unit} :
    requireFresh s name st = .ok v st' ↔ st.scopes.containsOwn s name = false ∧ st' = st := by
  rw [requireFresh_apply]
  cases st.scopes.containsOwn s name <;> simp [eq_comm]

theorem define_eq_ok {v : Unit} : define s name t st = .ok v st' ↔
    st.scopes.containsOwn s name = false ∧
      st' = { st with scopes := st.scopes.insert s name t } := by
  rw [define_apply]
  cases st.scopes.containsOwn s name <;> simp [eq_comm]

theorem requireSubtype_eq_ok {v : Unit} :
    requireSubtype t u st = .ok v st' ↔ t.isSubtype st.scopes u = true ∧ st' = st := by
  rw [requireSubtype_apply]
  cases t.isSubtype st.scopes u <;> simp [eq_comm]

theorem requireBoolean_eq_ok {v : Unit} :
    requireBoolean t st = .ok v st' ↔ t.equiv st.scopes (.prim .boolean) = true ∧ st' = st := by
  rw [requireBoolean_apply]
  cases t.equiv st.scopes (.prim .boolean) <;> simp [eq_comm]

theorem requireArity_eq_ok {expected given : Nat} {v : Unit} :
    requireArity name expected given st = .ok v st' ↔ given = expected ∧ st' = st := by
  rw [requireArity_apply]
  by_cases h : given = expected <;> simp [h, eq_comm]

theorem memberType_eq_ok : memberType u name st = .ok t st' ↔
    ∃ members, u = .object members ∧ st.scopes.lookupOwn members name = some t ∧ st' = st := by
  cases u with
  | object members =>
    rw [memberType_apply]
    cases h : st.scopes.lookupOwn members name with
    | none => simp [h]
    | some u => simp [h, eq_comm]
  | _ =>
    constructor
    · intro h
      cases h
    · rintro ⟨members, h, -⟩
      cases h

theorem calleeType_eq_ok {params : List Ty} {returns : Ty} :
    calleeType name t st = .ok (params, returns) st' ↔ t = .fn params returns ∧ st' = st := by
  cases t with
  | fn ps r =>
    constructor
    · intro h
      cases h
      exact ⟨rfl, rfl⟩
    · rintro ⟨h, rfl⟩
      cases h
      rfl
  | _ =>
    constructor
    · intro h
      cases h
    · rintro ⟨h, -⟩
      cases h

theorem requireObjectName_eq_ok {object : Option String} {v : Unit} :
    requireObjectName object st = .ok v st' ↔
      (∀ word, object = some word → Prim.ofName? word = none) ∧ st' = st := by
  cases object with
  | none => simp [requireObjectName, pure_apply, eq_comm]
  | some word =>
    show (if (Prim.ofName? word).isSome then _ else _ : AnalyzeM Unit) st = _ ↔ _
    cases h : Prim.ofName? word with
    | none => simp [pure_apply, h, eq_comm]
    | some p => simpa [h] using throw_eq_ok

theorem declareSelf_apply : declareSelf s st =
    if st.scopes.containsOwn s selfName then .error .reservedSelf st
    else .ok () { st with scopes := st.scopes.insert s selfName (.object s) } := by
  have h : declareSelf s st =
      if st.scopes.containsOwn s selfName then .error .reservedSelf st
      else define s selfName (.object s) st := by
    show (if st.scopes.containsOwn s selfName then _ else _ : AnalyzeM Unit) st = _
    split <;> rfl
  rw [h, define_apply]
  split <;> rfl

theorem declareSelf_eq_ok {v : Unit} : declareSelf s st = .ok v st' ↔
    st.scopes.containsOwn s selfName = false ∧
      st' = { st with scopes := st.scopes.insert s selfName (.object s) } := by
  rw [declareSelf_apply]
  cases st.scopes.containsOwn s selfName <;> simp [eq_comm]

theorem declareFunction_eq_ok {d : DefDecl} {sig : Signature} :
    declareFunction s d st = .ok sig st' ↔
      st.scopes.containsOwn s d.name = false ∧ signature d = .ok sig ∧
        st' = ⟨st.scopes.insert s d.name sig.toTy, st.trace.push (.analyzingFunction d.name sig)⟩ := by
  simp only [declareFunction, bind_eq_ok, requireFresh_eq_ok, ofExcept_eq_ok, define_eq_ok,
    report_eq_ok, pure_eq_ok]
  constructor
  · rintro ⟨_, _, ⟨hn, rfl⟩, _, _, ⟨hs, rfl⟩, _, _, ⟨-, rfl⟩, _, _, rfl, rfl, rfl⟩
    exact ⟨hn, hs, rfl⟩
  · rintro ⟨hn, hs, rfl⟩
    exact ⟨(), _, ⟨hn, rfl⟩, sig, _, ⟨hs, rfl⟩, (), _, ⟨hn, rfl⟩, (), _, rfl, rfl, rfl⟩

end ObjectLang.Analysis
