import Mathlib.Data.List.Forall2
import ObjectLang.Proofs.Typing.Rules

/-!
Analysed programs of one shape. They are the same but for their annotations, and a relation holds
between the annotations at every node.
-/

namespace ObjectLang.Typed

variable {τ υ : Type} {S T : τ → υ → Prop}

/-- The same parameters in the same order, with related annotations. -/
abbrev ParamsAlike (S : τ → υ → Prop) : List (String × τ) → List (String × υ) → Prop :=
  List.Forall₂ fun p q => p.1 = q.1 ∧ S p.2 q.2

section Relations

variable (S : τ → υ → Prop)

mutual

/-- Two expressions have the same shape, and `S` relates their annotations at every node. -/
inductive ExprAlike : Expr τ → Expr υ → Prop where
  | literal {value t u} : S t u → ExprAlike (.literal value t) (.literal value u)
  | group {e e' t u} : ExprAlike e e' → S t u → ExprAlike (.group e t) (.group e' u)
  | binary {op left left' right right' t u} : ExprAlike left left' → ExprAlike right right' →
      S t u → ExprAlike (.binary op left right t) (.binary op left' right' u)
  | var {name t u} : S t u → ExprAlike (.var name t) (.var name u)
  | property {e e' name t u} : ExprAlike e e' → S t u →
      ExprAlike (.property e name t) (.property e' name u)
  | call {name args args' t u} : ArgsAlike args args' → S t u →
      ExprAlike (.call name args t) (.call name args' u)
  | methodCall {e e' name args args' t u} : ExprAlike e e' → ArgsAlike args args' → S t u →
      ExprAlike (.methodCall e name args t) (.methodCall e' name args' u)
  | object {name fields fields' methods methods' t u} : FieldsAlike fields fields' →
      MethodsAlike methods methods' → S t u →
      ExprAlike (.object name fields methods t) (.object name fields' methods' u)

inductive ArgsAlike : List (Expr τ) → List (Expr υ) → Prop where
  | nil : ArgsAlike [] []
  | cons {e e' es es'} : ExprAlike e e' → ArgsAlike es es' → ArgsAlike (e :: es) (e' :: es')

inductive LetAlike : LetDecl τ → LetDecl υ → Prop where
  | unset {name t u} : S t u → LetAlike (.mk name t none) (.mk name u none)
  | set {name t u e e'} : S t u → ExprAlike e e' →
      LetAlike (.mk name t (some e)) (.mk name u (some e'))

inductive FieldsAlike : List (LetDecl τ) → List (LetDecl υ) → Prop where
  | nil : FieldsAlike [] []
  | cons {d d' ds ds'} : LetAlike d d' → FieldsAlike ds ds' → FieldsAlike (d :: ds) (d' :: ds')

inductive DefAlike : DefDecl τ → DefDecl υ → Prop where
  | mk {name params params' t u body body'} : ParamsAlike S params params' → S t u →
      BlockAlike body body' → DefAlike (.mk name params t body) (.mk name params' u body')

inductive MethodsAlike : List (DefDecl τ) → List (DefDecl υ) → Prop where
  | nil : MethodsAlike [] []
  | cons {d d' ds ds'} : DefAlike d d' → MethodsAlike ds ds' → MethodsAlike (d :: ds) (d' :: ds')

/-- Two statements have the same shape, and `S` relates their annotations at every node. -/
inductive StmtAlike : Stmt τ → Stmt υ → Prop where
  | letStmt {d d'} : LetAlike d d' → StmtAlike (.letStmt d) (.letStmt d')
  | defStmt {d d'} : DefAlike d d' → StmtAlike (.defStmt d) (.defStmt d')
  | ifStmt {e e' thenBody thenBody' elseBody elseBody'} : ExprAlike e e' →
      BlockAlike thenBody thenBody' → BlockAlike elseBody elseBody' →
      StmtAlike (.ifStmt e thenBody elseBody) (.ifStmt e' thenBody' elseBody')
  | forStmt {name t u e e' body body'} : S t u → ExprAlike e e' → BlockAlike body body' →
      StmtAlike (.forStmt name t e body) (.forStmt name u e' body')
  | returnNil : StmtAlike (.returnStmt none) (.returnStmt none)
  | returnValue {e e'} : ExprAlike e e' → StmtAlike (.returnStmt (some e)) (.returnStmt (some e'))
  | exprStmt {e e'} : ExprAlike e e' → StmtAlike (.exprStmt e) (.exprStmt e')
  | assignVar {name t u e e'} : S t u → ExprAlike e e' →
      StmtAlike (.assignVar name t e) (.assignVar name u e')
  | assignProperty {e e' name t u value value'} : ExprAlike e e' → S t u → ExprAlike value value' →
      StmtAlike (.assignProperty e name t value) (.assignProperty e' name u value')

inductive BlockAlike : List (Stmt τ) → List (Stmt υ) → Prop where
  | nil : BlockAlike [] []
  | cons {st st' sts sts'} : StmtAlike st st' → BlockAlike sts sts' →
      BlockAlike (st :: sts) (st' :: sts')

end

/-- Two programs have the same shape, and `S` relates their annotations at every node. -/
inductive ProgramAlike : Program τ → Program υ → Prop where
  | source {sts sts'} : BlockAlike S sts sts' → ProgramAlike (.source sts) (.source sts')
  | stmt {st st'} : StmtAlike S st st' → ProgramAlike (.stmt st) (.stmt st')
  | expr {e e'} : ExprAlike S e e' → ProgramAlike (.expr e) (.expr e')

end Relations

theorem ExprAlike.type {e : Expr τ} {e' : Expr υ} (h : ExprAlike S e e') : S e.type e'.type := by
  cases h <;> assumption

theorem ParamsAlike.mono {ps : List (String × τ)} {qs : List (String × υ)}
    (h : ParamsAlike S ps qs) (hST : ∀ t u, S t u → T t u) : ParamsAlike T ps qs :=
  List.Forall₂.imp (fun _ _ h => ⟨h.1, hST _ _ h.2⟩) h

mutual

theorem ExprAlike.mono {e : Expr τ} {e' : Expr υ} (h : ExprAlike S e e')
    (hST : ∀ t u, S t u → T t u) : ExprAlike T e e' := by
  match e, h with
  | .literal .., .literal ht => exact .literal (hST _ _ ht)
  | .group .., .group he ht => exact .group (he.mono hST) (hST _ _ ht)
  | .binary .., .binary hl hr ht => exact .binary (hl.mono hST) (hr.mono hST) (hST _ _ ht)
  | .var .., .var ht => exact .var (hST _ _ ht)
  | .property .., .property he ht => exact .property (he.mono hST) (hST _ _ ht)
  | .call .., .call ha ht => exact .call (ha.mono hST) (hST _ _ ht)
  | .methodCall .., .methodCall he ha ht =>
    exact .methodCall (he.mono hST) (ha.mono hST) (hST _ _ ht)
  | .object .., .object hf hm ht => exact .object (hf.mono hST) (hm.mono hST) (hST _ _ ht)

theorem ArgsAlike.mono {es : List (Expr τ)} {es' : List (Expr υ)} (h : ArgsAlike S es es')
    (hST : ∀ t u, S t u → T t u) : ArgsAlike T es es' := by
  match es, h with
  | [], .nil => exact .nil
  | _ :: _, .cons he hes => exact .cons (he.mono hST) (hes.mono hST)

theorem LetAlike.mono {d : LetDecl τ} {d' : LetDecl υ} (h : LetAlike S d d')
    (hST : ∀ t u, S t u → T t u) : LetAlike T d d' := by
  match d, h with
  | .mk _ _ none, .unset ht => exact .unset (hST _ _ ht)
  | .mk _ _ (some _), .set ht he => exact .set (hST _ _ ht) (he.mono hST)

theorem FieldsAlike.mono {ds : List (LetDecl τ)} {ds' : List (LetDecl υ)}
    (h : FieldsAlike S ds ds') (hST : ∀ t u, S t u → T t u) : FieldsAlike T ds ds' := by
  match ds, h with
  | [], .nil => exact .nil
  | _ :: _, .cons hd hds => exact .cons (hd.mono hST) (hds.mono hST)

theorem DefAlike.mono {d : DefDecl τ} {d' : DefDecl υ} (h : DefAlike S d d')
    (hST : ∀ t u, S t u → T t u) : DefAlike T d d' := by
  match d, h with
  | .mk .., .mk hp ht hb => exact .mk (ParamsAlike.mono hp hST) (hST _ _ ht) (hb.mono hST)

theorem MethodsAlike.mono {ds : List (DefDecl τ)} {ds' : List (DefDecl υ)}
    (h : MethodsAlike S ds ds') (hST : ∀ t u, S t u → T t u) : MethodsAlike T ds ds' := by
  match ds, h with
  | [], .nil => exact .nil
  | _ :: _, .cons hd hds => exact .cons (hd.mono hST) (hds.mono hST)

theorem StmtAlike.mono {st : Stmt τ} {st' : Stmt υ} (h : StmtAlike S st st')
    (hST : ∀ t u, S t u → T t u) : StmtAlike T st st' := by
  match st, h with
  | .letStmt _, .letStmt hd => exact .letStmt (hd.mono hST)
  | .defStmt _, .defStmt hd => exact .defStmt (hd.mono hST)
  | .ifStmt .., .ifStmt he ht hf => exact .ifStmt (he.mono hST) (ht.mono hST) (hf.mono hST)
  | .forStmt .., .forStmt ht he hb => exact .forStmt (hST _ _ ht) (he.mono hST) (hb.mono hST)
  | .returnStmt none, .returnNil => exact .returnNil
  | .returnStmt (some _), .returnValue he => exact .returnValue (he.mono hST)
  | .exprStmt _, .exprStmt he => exact .exprStmt (he.mono hST)
  | .assignVar .., .assignVar ht he => exact .assignVar (hST _ _ ht) (he.mono hST)
  | .assignProperty .., .assignProperty he ht hv =>
    exact .assignProperty (he.mono hST) (hST _ _ ht) (hv.mono hST)

theorem BlockAlike.mono {sts : List (Stmt τ)} {sts' : List (Stmt υ)} (h : BlockAlike S sts sts')
    (hST : ∀ t u, S t u → T t u) : BlockAlike T sts sts' := by
  match sts, h with
  | [], .nil => exact .nil
  | _ :: _, .cons hs hss => exact .cons (hs.mono hST) (hss.mono hST)

end

theorem ProgramAlike.mono {p : Program τ} {p' : Program υ} (h : ProgramAlike S p p')
    (hST : ∀ t u, S t u → T t u) : ProgramAlike T p p' := by
  cases h with
  | source h => exact .source (h.mono hST)
  | stmt h => exact .stmt (h.mono hST)
  | expr h => exact .expr (h.mono hST)

/-- Statements of one shape bind the same names. -/
theorem StmtAlike.names_eq {S : Ty → Ty → Prop} {st st' : Stmt Ty} (h : StmtAlike S st st') :
    st.bindings.map Prod.fst = st'.bindings.map Prod.fst := by
  cases h with
  | letStmt h => cases h <;> rfl
  | defStmt h =>
    cases h
    rfl
  | _ => rfl

theorem BlockAlike.names_eq {S : Ty → Ty → Prop} {sts sts' : List (Stmt Ty)}
    (h : BlockAlike S sts sts') :
    (sts.flatMap Stmt.bindings).map Prod.fst = (sts'.flatMap Stmt.bindings).map Prod.fst := by
  match sts, h with
  | [], .nil => rfl
  | _ :: _, .cons hs hss =>
    simp only [List.flatMap_cons, List.map_append, hs.names_eq, hss.names_eq]

/-- What a program binds in its scope. -/
def Program.bindings : Program Ty → List (String × Ty)
  | .source sts => sts.flatMap Stmt.bindings
  | .stmt st => st.bindings
  | .expr _ => []

theorem ProgramAlike.names_eq {S : Ty → Ty → Prop} {p p' : Program Ty} (h : ProgramAlike S p p') :
    p.bindings.map Prod.fst = p'.bindings.map Prod.fst := by
  cases h with
  | source h => exact h.names_eq
  | stmt h => exact h.names_eq
  | expr h => rfl

end ObjectLang.Typed
