import ObjectLang.Proofs.Pairing.Trees
import ObjectLang.Proofs.Snapshot.Walks
import ObjectLang.Proofs.Types.Paired
import ObjectLang.Scope.Lemmas
import ObjectLang.Snapshot.Types

/-!
Snapshots of types. They do not depend on the numbers that scopes have: paired types have one
snapshot, and so have programs and errors with paired types.
-/

namespace ObjectLang

open Forest NumberingM

namespace Ty

variable {R : ScopeId → ScopeId → Prop} {f : ScopeId → ScopeId} {Γ Δ : TypeScopes} {t u : Ty}
  {size depth : Nat} {first second : ScopeId → NumberingM (List (String × TySnapshot))}

mutual

theorem snapshotWith_agrees (h : OpensAlike size depth first second) (t : Ty) :
    Agrees size (depth + 1) (snapshotWith first t) (snapshotWith second t) := by
  match t with
  | .prim p => exact .pure _
  | .fn ps r =>
    exact (snapshotAllWith_agrees h ps).bind fun _ => (snapshotWith_agrees h r).bind fun _ => .pure _
  | .object a => exact Agrees.meet h a _ _

theorem snapshotAllWith_agrees (h : OpensAlike size depth first second) (ts : List Ty) :
    Agrees size (depth + 1) (snapshotAllWith first ts) (snapshotAllWith second ts) := by
  match ts with
  | [] => exact .pure _
  | t :: ts =>
    exact (snapshotWith_agrees h t).bind fun _ => (snapshotAllWith_agrees h ts).bind fun _ => .pure _

end

mutual

theorem walks_snapshotWith (hf : Function.Injective f) (hopen : OpensTo f R first second) (t : Ty)
    {u : Ty} (h : Paired R t u) : Walks f (snapshotWith first t) (snapshotWith second u) := by
  match t, h with
  | .prim _, .prim p => exact .pure _
  | .fn ps r, .fn hps hr =>
    exact (walks_snapshotAllWith hf hopen ps hps).bind fun _ =>
      (walks_snapshotWith hf hopen r hr).bind fun _ => .pure _
  | .object a, .object hab =>
    obtain ⟨rfl, hmembers⟩ := hopen _ _ hab
    exact Walks.meet hf (fun n => hmembers.bind fun _ => .pure _) _

theorem walks_snapshotAllWith (hf : Function.Injective f) (hopen : OpensTo f R first second)
    (ts : List Ty) {us : List Ty} (h : List.Forall₂ (Paired R) ts us) :
    Walks f (snapshotAllWith first ts) (snapshotAllWith second us) := by
  match ts, h with
  | [], .nil => exact .pure _
  | t :: ts, .cons h hs =>
    exact (walks_snapshotWith hf hopen t h).bind fun _ =>
      (walks_snapshotAllWith hf hopen ts hs).bind fun _ => .pure _

end

theorem openMembers_eq (Γ : TypeScopes) : openMembers Γ = opened Γ snapshotWith := by
  funext depth
  induction depth with
  | zero => rfl
  | succ depth ih =>
    funext a
    rw [openMembers, opened, ih]

/-- Paired types have one snapshot. -/
theorem walks_snapshot (hf : Function.Injective f) (hR : ∀ a b, R a b → b = f a)
    (hown : ∀ a b, R a b → Bindings.Aligned (Paired R) (Γ.own a) (Δ.own b)) (h : Paired R t u) :
    Walks f (snapshot Γ t) (snapshot Δ u) := by
  rw [snapshot, snapshot, openMembers_eq, openMembers_eq]
  exact walks_look snapshotWith_agrees (fun hopen t _ => walks_snapshotWith hf hopen t) hR hown h

end Ty

namespace Typed

variable {τ υ ρ : Type} {S : τ → υ → Prop} {f : ScopeId → ScopeId} {g : τ → NumberingM ρ}
  {h : υ → NumberingM ρ}

/-- What is told of related annotations is the same. -/
def ToldAlike (f : ScopeId → ScopeId) (S : τ → υ → Prop) (g : τ → NumberingM ρ)
    (h : υ → NumberingM ρ) : Prop := ∀ t u, S t u → Walks f (g t) (h u)

mutual

theorem walks_expr (hS : ToldAlike f S g h) {e : Expr τ} {e' : Expr υ} (he : ExprAlike S e e') :
    Walks f (e.traverse g) (e'.traverse h) := by
  match e, he with
  | .literal .., .literal ht => exact (hS _ _ ht).bind fun _ => .pure _
  | .group .., .group he ht =>
    exact (walks_expr hS he).bind fun _ => (hS _ _ ht).bind fun _ => .pure _
  | .binary .., .binary hl hr ht =>
    exact (walks_expr hS hl).bind fun _ => (walks_expr hS hr).bind fun _ =>
      (hS _ _ ht).bind fun _ => .pure _
  | .var .., .var ht => exact (hS _ _ ht).bind fun _ => .pure _
  | .property .., .property he ht =>
    exact (walks_expr hS he).bind fun _ => (hS _ _ ht).bind fun _ => .pure _
  | .call .., .call ha ht =>
    exact (walks_args hS ha).bind fun _ => (hS _ _ ht).bind fun _ => .pure _
  | .methodCall .., .methodCall he ha ht =>
    exact (walks_expr hS he).bind fun _ => (walks_args hS ha).bind fun _ =>
      (hS _ _ ht).bind fun _ => .pure _
  | .object .., .object hf hm ht =>
    exact (walks_fields hS hf).bind fun _ => (walks_methods hS hm).bind fun _ =>
      (hS _ _ ht).bind fun _ => .pure _

theorem walks_args (hS : ToldAlike f S g h) {es : List (Expr τ)} {es' : List (Expr υ)}
    (hes : ArgsAlike S es es') :
    Walks f (traverseArgs g es) (traverseArgs h es') := by
  match es, hes with
  | [], .nil => exact .pure _
  | _ :: _, .cons he hes =>
    exact (walks_expr hS he).bind fun _ => (walks_args hS hes).bind fun _ => .pure _

theorem walks_let (hS : ToldAlike f S g h) {d : LetDecl τ} {d' : LetDecl υ} (hd : LetAlike S d d') :
    Walks f (d.traverse g) (d'.traverse h) := by
  match d, hd with
  | .mk _ _ none, .unset ht => exact (hS _ _ ht).bind fun _ => .pure _
  | .mk _ _ (some _), .set ht he =>
    exact (hS _ _ ht).bind fun _ => ((walks_expr hS he).bind fun _ => .pure _).bind fun _ => .pure _

theorem walks_fields (hS : ToldAlike f S g h) {ds : List (LetDecl τ)} {ds' : List (LetDecl υ)}
    (hds : FieldsAlike S ds ds') :
    Walks f (traverseFields g ds) (traverseFields h ds') := by
  match ds, hds with
  | [], .nil => exact .pure _
  | _ :: _, .cons hd hds =>
    exact (walks_let hS hd).bind fun _ => (walks_fields hS hds).bind fun _ => .pure _

theorem walks_def (hS : ToldAlike f S g h) {d : DefDecl τ} {d' : DefDecl υ} (hd : DefAlike S d d') :
    Walks f (d.traverse g) (d'.traverse h) := by
  match d, hd with
  | .mk .., .mk hps ht hb =>
    refine Walks.bind (Walks.mapM hps fun p q hpq => ?_) fun _ =>
      (hS _ _ ht).bind fun _ => (walks_body hS hb).bind fun _ => .pure _
    rw [hpq.1]
    exact (hS _ _ hpq.2).bind fun _ => .pure _

theorem walks_methods (hS : ToldAlike f S g h) {ds : List (DefDecl τ)} {ds' : List (DefDecl υ)}
    (hds : MethodsAlike S ds ds') :
    Walks f (traverseMethods g ds) (traverseMethods h ds') := by
  match ds, hds with
  | [], .nil => exact .pure _
  | _ :: _, .cons hd hds =>
    exact (walks_def hS hd).bind fun _ => (walks_methods hS hds).bind fun _ => .pure _

theorem walks_stmt (hS : ToldAlike f S g h) {st : Stmt τ} {st' : Stmt υ}
    (hst : StmtAlike S st st') :
    Walks f (st.traverse g) (st'.traverse h) := by
  match st, hst with
  | .letStmt _, .letStmt hd => exact (walks_let hS hd).bind fun _ => .pure _
  | .defStmt _, .defStmt hd => exact (walks_def hS hd).bind fun _ => .pure _
  | .ifStmt .., .ifStmt he ht hf =>
    exact (walks_expr hS he).bind fun _ => (walks_body hS ht).bind fun _ =>
      (walks_body hS hf).bind fun _ =>
      .pure _
  | .forStmt .., .forStmt ht he hb =>
    exact (hS _ _ ht).bind fun _ => (walks_expr hS he).bind fun _ =>
      (walks_body hS hb).bind fun _ => .pure _
  | .returnStmt none, .returnNil => exact .pure _
  | .returnStmt (some _), .returnValue he =>
    exact ((walks_expr hS he).bind fun _ => .pure _).bind fun _ => .pure _
  | .exprStmt _, .exprStmt he => exact (walks_expr hS he).bind fun _ => .pure _
  | .assignVar .., .assignVar ht he =>
    exact (hS _ _ ht).bind fun _ => (walks_expr hS he).bind fun _ => .pure _
  | .assignProperty .., .assignProperty he ht hv =>
    exact (walks_expr hS he).bind fun _ => (hS _ _ ht).bind fun _ =>
      (walks_expr hS hv).bind fun _ => .pure _

theorem walks_body (hS : ToldAlike f S g h) {sts : List (Stmt τ)} {sts' : List (Stmt υ)}
    (hsts : BlockAlike S sts sts') :
    Walks f (traverseBody g sts) (traverseBody h sts') := by
  match sts, hsts with
  | [], .nil => exact .pure _
  | _ :: _, .cons hst hsts =>
    exact (walks_stmt hS hst).bind fun _ => (walks_body hS hsts).bind fun _ => .pure _

end

theorem walks_program (hS : ToldAlike f S g h) {p : Program τ} {p' : Program υ}
    (hp : ProgramAlike S p p') :
    Walks f (p.traverse g) (p'.traverse h) := by
  cases hp with
  | source hsts => exact (walks_body hS hsts).bind fun _ => .pure _
  | stmt hst => exact (walks_stmt hS hst).bind fun _ => .pure _
  | expr he => exact (walks_expr hS he).bind fun _ => .pure _

end Typed

end ObjectLang
