import ObjectLang.Proofs.Pairing.Names
import ObjectLang.Proofs.Pairing.Steps
import ObjectLang.Proofs.Pairing.Trees
import ObjectLang.Proofs.Scoping.Rules

/-!
Analysis goes in tandem: from scopes that look the same to a program, it gives programs of one shape
with paired types at every node, or it stops at the same place with errors of one form. The scopes
that a program defines names in must be paired with each other only; where it defines none, any two
scopes will do.
-/

namespace ObjectLang.Analysis

open Forest Bindings Typed

variable {P : Pairing} {hidden : List String} {s t : ScopeId} {n m : Nat}

section Later

/-! Results stay paired when more scopes are made. -/

variable (hnm : n ≤ m)
include hnm

theorem expr_later {e e' : Typed.Expr Ty} (h : ExprAlike (P.Same n) e e') :
    ExprAlike (P.Same m) e e' := h.mono fun _ _ h => Pairing.same_mono h hnm

theorem args_later {es es' : List (Typed.Expr Ty)} (h : ArgsAlike (P.Same n) es es') :
    ArgsAlike (P.Same m) es es' := h.mono fun _ _ h => Pairing.same_mono h hnm

theorem let_later {d d' : Typed.LetDecl Ty} (h : LetAlike (P.Same n) d d') :
    LetAlike (P.Same m) d d' := h.mono fun _ _ h => Pairing.same_mono h hnm

theorem fields_later {ds ds' : List (Typed.LetDecl Ty)} (h : FieldsAlike (P.Same n) ds ds') :
    FieldsAlike (P.Same m) ds ds' := h.mono fun _ _ h => Pairing.same_mono h hnm

theorem def_later {d d' : Typed.DefDecl Ty} (h : DefAlike (P.Same n) d d') :
    DefAlike (P.Same m) d d' := h.mono fun _ _ h => Pairing.same_mono h hnm

theorem methods_later {ds ds' : List (Typed.DefDecl Ty)} (h : MethodsAlike (P.Same n) ds ds') :
    MethodsAlike (P.Same m) ds ds' := h.mono fun _ _ h => Pairing.same_mono h hnm

theorem stmt_later {st st' : Typed.Stmt Ty} (h : StmtAlike (P.Same n) st st') :
    StmtAlike (P.Same m) st st' := h.mono fun _ _ h => Pairing.same_mono h hnm

theorem block_later {sts sts' : List (Typed.Stmt Ty)} (h : BlockAlike (P.Same n) sts sts') :
    BlockAlike (P.Same m) sts sts' := h.mono fun _ _ h => Pairing.same_mono h hnm

end Later

theorem tandem_resolve (typeName : Option String) : Tandem P hidden s t n Equal
    (typeName.mapM fun word => MonadExcept.ofExcept (resolve word) : AnalyzeM (Option Prim))
    (typeName.mapM fun word => MonadExcept.ofExcept (resolve word)) := by
  cases typeName with
  | none => exact .pure fun _ _ => rfl
  | some word =>
    apply (tandem_ofExcept fun _ => types_resolve).bind
    rintro _ _ p _ rfl
    exact .pure fun _ _ => rfl

/-- The type of a variable, from its annotation or from its value. -/
theorem same_declared (declared : Option Prim) {value value' : Option (Typed.Expr Ty)}
    (h : Option.Rel (ExprAlike (P.Same n)) value value') :
    P.Same n ((declared.map Ty.prim <|> value.map Typed.Expr.type).getD (.prim .any))
      ((declared.map Ty.prim <|> value'.map Typed.Expr.type).getD (.prim .any)) := by
  cases declared with
  | some p => exact .prim p
  | none =>
    cases h with
    | none => exact .prim .any
    | some h => exact h.type

theorem aligned_params (params : List String) (sig : Signature) :
    Aligned (P.Same n) (Bindings.ofList (params.zip (sig.params.map Ty.prim)))
      (Bindings.ofList (params.zip (sig.params.map Ty.prim))) := by
  have hprim : ∀ e ∈ params.zip (sig.params.map Ty.prim), P.Same n e.2 e.2 := by
    intro e he
    obtain ⟨p, -, hp⟩ := List.mem_map.1 (List.of_mem_zip he).2
    rw [← hp]
    exact .prim p
  have hfold (es : List (String × Ty)) (hes : ∀ e ∈ es, P.Same n e.2 e.2) (b : Bindings Ty)
      (hb : Aligned (P.Same n) b b) :
      Aligned (P.Same n) (es.foldl (fun b e => b.insert e.1 e.2) b)
        (es.foldl (fun b e => b.insert e.1 e.2) b) := by
    induction es generalizing b with
    | nil => exact hb
    | cons e es ih =>
      obtain ⟨he, hes⟩ := List.forall_mem_cons.1 hes
      exact ih hes _ (hb.insert e.1 he)
  exact hfold _ hprim ∅ aligned_empty

theorem paramsAlike_self (params : List String) (sig : Signature) :
    ParamsAlike (P.Same n) (params.zip (sig.params.map Ty.prim))
      (params.zip (sig.params.map Ty.prim)) := by
  refine List.forall₂_same.2 fun e he => ⟨rfl, ?_⟩
  obtain ⟨p, -, hp⟩ := List.mem_map.1 (List.of_mem_zip he).2
  rw [← hp]
  exact .prim p

/-- What is done with the members of an object binds names in their scope at most. -/
theorem keeps_members (members : ScopeId) (name : Option String) (fields : List LetDecl)
    (methods : List DefDecl) : Keeps (BindsTo members) (do
      report (.analyzingObject name)
      let fields ← analyzeFields members fields
      let signatures ← declareMethods members methods
      declareSelf members
      let methods ← analyzeMethods members methods signatures
      return (.object name fields methods (.object members) : Typed.Expr Ty)) := by
  apply (keeps_bindsTo (keeps_of_sameScopes (keeps_report _)) members).bind
  intro _
  apply (keeps_analyzeFields members fields).bind
  intro _
  apply (bindsTo_declareMethods members methods).bind
  intro signatures
  apply (bindsTo_declareSelf members).bind
  intro _
  exact (keeps_bindsTo (keeps_analyzeMethods members methods signatures) members).bind
    fun _ => .pure _

/-- A block in a new scope, and what comes after it outside. -/
theorem tandem_body {α β : Type} {A : Nat → α → β → Prop} {own own' : Bindings Ty}
    {returns returns' : Option Ty} {body : List Stmt} {k : List (Typed.Stmt Ty) → AnalyzeM α}
    {k' : List (Typed.Stmt Ty) → AnalyzeM β} (hown : Aligned (P.Same n) own own')
    (hbody : ∀ m, n ≤ m → ∀ i j, P.new m i j → Tandem P hidden i j m
      (fun m => BlockAlike (P.Same m)) (analyzeBlock i returns body) (analyzeBlock j returns' body))
    (hrest : ∀ m, n ≤ m → ∀ b b', BlockAlike (P.Same m) b b' →
      Tandem P hidden s t m A (k b) (k' b')) :
    Tandem P hidden s t n A (openChild s own >>= fun i => analyzeBlock i returns body >>= k)
      (openChild t own' >>= fun j => analyzeBlock j returns' body >>= k') := by
  rw [← bind_assoc, ← bind_assoc]
  exact (tandem_openChild hown hbody (fun i => keeps_analyzeBlock i returns body)
    fun j => keeps_analyzeBlock j returns' body).bind hrest

mutual

theorem tandem_analyzeExpr (P : Pairing) (s t : ScopeId) (n : Nat) (e : Expr)
    (he : e.Avoids hidden) :
    Tandem P hidden s t n (fun m => ExprAlike (P.Same m)) (analyzeExpr s e) (analyzeExpr t e) := by
  cases e with
  | literal value =>
    apply (tandem_ofExcept fun _ => types_literalType).bind
    rintro _ _ p _ rfl
    exact .pure fun _ _ => .literal (.prim p)
  | group inner =>
    apply (tandem_analyzeExpr P s t n inner he).bind
    intro n₁ _ e e' he
    exact .pure fun m hm => .group (expr_later hm he) (expr_later hm he).type
  | binary symbol left right =>
    apply (tandem_analyzeExpr P s t n left he.1).bind
    intro n₁ _ l l' hl
    apply (tandem_analyzeExpr P s t n₁ right he.2).bind
    intro n₂ hn₂ r r' hr
    have hl := expr_later hn₂ hl
    split
    · apply (tandem_binaryType _ hl.type hr.type).bind
      intro n₃ hn₃ v v' hv
      exact .pure fun m hm => .binary (expr_later (by omega) hl) (expr_later (by omega) hr)
        (Pairing.same_mono hv hm)
    · exact .throw fun _ _ => .same rfl
  | var name =>
    apply (tandem_lookup he).bind
    intro n₁ _ o o' ho
    cases ho with
    | none => exact .throw fun _ _ => .same rfl
    | some hv => exact .pure fun m hm => .var (Pairing.same_mono hv hm)
  | property receiver name =>
    apply (tandem_analyzeExpr P s t n receiver he).bind
    intro n₁ _ r r' hr
    apply (tandem_memberType hr.type name).bind
    intro n₂ hn₂ v v' hv
    exact .pure fun m hm => .property (expr_later (by omega) hr) (Pairing.same_mono hv hm)
  | call name args =>
    apply (tandem_lookup he.1).bind
    intro n₁ _ o o' ho
    cases ho with
    | none => exact .throw fun _ _ => .same rfl
    | some hv =>
      apply (tandem_calleeType name hv).bind
      intro n₂ _ c c' hc
      apply (tandem_requireArity name args.length hc.1.length_eq).bind
      intro n₃ hn₃ _ _ _
      apply (tandem_analyzeArgs P s t n₃ args he.2
        (hc.1.imp fun _ _ h => Pairing.same_mono h hn₃)).bind
      intro n₄ hn₄ es es' hes
      exact .pure fun m hm => .call (args_later hm hes)
        (Pairing.same_mono hc.2 (by omega))
  | methodCall receiver name args =>
    apply (tandem_analyzeExpr P s t n receiver he.1).bind
    intro n₁ _ r r' hr
    apply (tandem_memberType hr.type name).bind
    intro n₂ hn₂ v v' hv
    apply (tandem_calleeType name hv).bind
    intro n₃ hn₃ c c' hc
    apply (tandem_requireArity name args.length hc.1.length_eq).bind
    intro n₄ hn₄ _ _ _
    apply (tandem_analyzeArgs P s t n₄ args he.2
      (hc.1.imp fun _ _ h => Pairing.same_mono h hn₄)).bind
    intro n₅ hn₅ es es' hes
    exact .pure fun m hm => .methodCall
      (expr_later (by omega) hr) (args_later hm hes)
      (Pairing.same_mono hc.2 (by omega))
  | object name fields methods =>
    apply (tandem_requireObjectName name).bind
    intro n₁ _ _ _ _
    refine tandem_openRoot (fun n₂ _ i j hij => ?_) (fun i => ?_) (fun j => ?_)
    · have halone := Pairing.alone_of_new hij
      apply (tandem_report _ _).bind
      intro n₃ _ _ _ _
      apply (tandem_analyzeFields P i j n₃ halone fields he.1).bind
      intro n₄ _ fs fs' hfs
      apply (tandem_declareMethods halone fun d hd =>
        (forall_methods_avoid.1 he.2 d hd).name_not_mem).bind
      rintro n₅ hn₅ sigs _ rfl
      have hij := Pairing.new_mono hij (show n₂ ≤ n₅ by omega)
      apply (tandem_declareSelf hij).bind
      intro n₆ hn₆ _ _ _
      apply (tandem_analyzeMethods P i j n₆ methods sigs he.2).bind
      intro n₇ hn₇ ms ms' hms
      exact .pure fun m hm => .object (fields_later (by omega) hfs) (methods_later hm hms)
        (.object (Or.inr (Pairing.new_mono hij (by omega))))
    · exact keeps_members i name fields methods
    · exact keeps_members j name fields methods
  | misplaced kind => exact .throw fun _ _ => .same rfl

theorem tandem_analyzeArgs (P : Pairing) (s t : ScopeId) (n : Nat) (es : List Expr)
    (hes : ArgsAvoid hidden es) {params params' : List Ty}
    (hp : List.Forall₂ (P.Same n) params params') :
    Tandem P hidden s t n (fun m => ArgsAlike (P.Same m)) (analyzeArgs s es params)
      (analyzeArgs t es params') := by
  match es, hp with
  | [], .nil | [], .cons _ _ | _ :: _, .nil => exact .pure fun _ _ => .nil
  | e :: es, .cons hv hp =>
    apply (tandem_analyzeExpr P s t n e hes.1).bind
    intro n₁ hn₁ e e' he
    apply (tandem_requireSubtype he.type (Pairing.same_mono hv hn₁)).bind
    intro n₂ hn₂ _ _ _
    apply (tandem_analyzeArgs P s t n₂ es hes.2
      (hp.imp fun _ _ h => Pairing.same_mono h (by omega))).bind
    intro n₃ hn₃ es es' hes
    exact .pure fun m hm => .cons (expr_later (by omega) he) (args_later hm hes)

theorem tandem_analyzeOption (P : Pairing) (s t : ScopeId) (n : Nat) (value : Option Expr)
    (he : OptionAvoids hidden value) :
    Tandem P hidden s t n (fun m => Option.Rel (ExprAlike (P.Same m))) (analyzeOption s value)
      (analyzeOption t value) := by
  match value with
  | none => exact .pure fun _ _ => .none
  | some e =>
    apply (tandem_analyzeExpr P s t n e he).bind
    intro n₁ _ e e' he
    exact .pure fun m hm => .some (expr_later hm he)

theorem tandem_analyzeLet (P : Pairing) (s t : ScopeId) (n : Nat) (halone : P.Alone s t)
    (d : LetDecl) (hd : d.Avoids hidden) :
    Tandem P hidden s t n (fun m => LetAlike (P.Same m)) (analyzeLet s d) (analyzeLet t d) := by
  match d with
  | .mk name typeName value =>
    apply (tandem_requireFresh hd.1).bind
    intro n₁ _ _ _ _
    apply (tandem_resolve typeName).bind
    rintro n₂ _ declared _ rfl
    apply (tandem_analyzeOption P s t n₂ value hd.2).bind
    intro n₃ _ o o' ho
    have htype := same_declared declared ho
    cases ho with
    | none =>
      apply (tandem_define halone hd.1 htype).bind
      intro _ hn₄ _ _ _
      exact .pure fun m hm => .unset (Pairing.same_mono htype (by omega))
    | some he =>
      apply (tandem_requireSubtype he.type htype).bind
      intro n₄ hn₄ _ _ _
      apply (tandem_define halone hd.1 (Pairing.same_mono htype hn₄)).bind
      intro n₅ hn₅ _ _ _
      exact .pure fun m hm => .set (Pairing.same_mono htype (by omega)) (expr_later (by omega) he)

theorem tandem_analyzeFields (P : Pairing) (s t : ScopeId) (n : Nat) (halone : P.Alone s t)
    (ds : List LetDecl) (hds : FieldsAvoid hidden ds) :
    Tandem P hidden s t n (fun m => FieldsAlike (P.Same m)) (analyzeFields s ds)
      (analyzeFields t ds) := by
  match ds with
  | [] => exact .pure fun _ _ => .nil
  | d :: ds =>
    apply (tandem_analyzeLet P s t n halone d hds.1).bind
    intro n₁ _ d d' hd
    apply (tandem_analyzeFields P s t n₁ halone ds hds.2).bind
    intro n₂ hn₂ ds ds' hds
    exact .pure fun m hm => .cons (let_later (by omega) hd) (fields_later hm hds)

theorem tandem_analyzeDef (P : Pairing) (s t : ScopeId) (n : Nat) (d : DefDecl) (sig : Signature)
    (hd : d.Avoids hidden) :
    Tandem P hidden s t n (fun m => DefAlike (P.Same m)) (analyzeDef s d sig)
      (analyzeDef t d sig) := by
  match d with
  | .mk name params _ _ body =>
    refine tandem_openChild (aligned_params params sig) (fun n₁ _ i j hij => ?_) (fun i => ?_)
      (fun j => ?_)
    · apply (tandem_analyzeBlock P i j n₁ (.some (.prim _)) body
        (fun _ => Pairing.alone_of_new hij) hd.2.2).bind
      intro n₂ _ b b' hb
      exact .pure fun m hm => .mk (paramsAlike_self params sig) (.prim _) (block_later hm hb)
    · exact (keeps_analyzeBlock i _ body).bind fun _ => .pure _
    · exact (keeps_analyzeBlock j _ body).bind fun _ => .pure _

theorem tandem_analyzeMethods (P : Pairing) (s t : ScopeId) (n : Nat) (ds : List DefDecl)
    (sigs : List Signature) (hds : MethodsAvoid hidden ds) :
    Tandem P hidden s t n (fun m => MethodsAlike (P.Same m)) (analyzeMethods s ds sigs)
      (analyzeMethods t ds sigs) := by
  match ds, sigs with
  | [], _ | _ :: _, [] => exact .pure fun _ _ => .nil
  | d :: ds, sig :: sigs =>
    apply (tandem_analyzeDef P s t n d sig hds.1).bind
    intro n₁ _ d d' hd
    apply (tandem_analyzeMethods P s t n₁ ds sigs hds.2).bind
    intro n₂ hn₂ ds ds' hds
    exact .pure fun m hm => .cons (def_later (by omega) hd) (methods_later hm hds)

theorem tandem_analyzeStmt (P : Pairing) (s t : ScopeId) (n : Nat) {returns returns' : Option Ty}
    (hreturns : Option.Rel (P.Same n) returns returns') (st : Stmt)
    (halone : st.declared ≠ [] → P.Alone s t) (hst : st.Avoids hidden) :
    Tandem P hidden s t n (fun m => StmtAlike (P.Same m)) (analyzeStmt s returns st)
      (analyzeStmt t returns' st) := by
  cases st with
  | letStmt decl =>
    apply (tandem_analyzeLet P s t n (halone (List.cons_ne_nil _ _)) decl hst).bind
    intro n₁ _ d d' hd
    exact .pure fun m hm => .letStmt (let_later hm hd)
  | defStmt decl =>
    apply (tandem_declareFunction (halone (List.cons_ne_nil _ _)) hst.name_not_mem).bind
    rintro n₁ _ sig _ rfl
    apply (tandem_analyzeDef P s t n₁ decl sig hst).bind
    intro n₂ _ d d' hd
    exact .pure fun m hm => .defStmt (def_later hm hd)
  | ifStmt condition thenBody elseBody =>
    apply (tandem_analyzeExpr P s t n condition hst.1).bind
    intro n₁ hn₁ e e' he
    apply (tandem_requireBoolean he.type).bind
    intro n₂ hn₂ _ _ _
    have hthen (m : Nat) (hm : n₂ ≤ m) (i j : ScopeId) (hij : P.new m i j) :=
      tandem_analyzeBlock P i j m
        (optionRel_mono hreturns fun _ _ h => Pairing.same_mono h (by omega)) thenBody
        (fun _ => Pairing.alone_of_new hij) hst.2.1
    have helse (m : Nat) (hm : n₂ ≤ m) (i j : ScopeId) (hij : P.new m i j) :=
      tandem_analyzeBlock P i j m
        (optionRel_mono hreturns fun _ _ h => Pairing.same_mono h (by omega)) elseBody
        (fun _ => Pairing.alone_of_new hij) hst.2.2
    refine tandem_body aligned_empty hthen fun n₃ hn₃ b b' hb => ?_
    refine tandem_body aligned_empty (fun m hm => helse m (by omega)) fun n₄ hn₄ c c' hc => ?_
    exact .pure fun m hm => .ifStmt (expr_later (by omega) he) (block_later (by omega) hb)
      (block_later hm hc)
  | forStmt name iterable body =>
    apply (tandem_analyzeExpr P s t n iterable hst.2.1).bind
    intro n₁ hn₁ e e' he
    apply (tandem_requireSubtype he.type (.prim .iterable)).bind
    intro n₂ hn₂ _ _ _
    have hbody (m : Nat) (hm : n₂ ≤ m) (i j : ScopeId) (hij : P.new m i j) :=
      tandem_analyzeBlock P i j m
        (optionRel_mono hreturns fun _ _ h => Pairing.same_mono h (by omega)) body
        (fun _ => Pairing.alone_of_new hij) hst.2.2
    refine tandem_body (aligned_singleton name (.prim .integer)) hbody fun n₃ hn₃ b b' hb => ?_
    exact .pure fun m hm => .forStmt (.prim .integer) (expr_later (by omega) he) (block_later hm hb)
  | returnStmt value =>
    cases hreturns with
    | none => exact .throw fun _ _ => .same rfl
    | some hr =>
      apply (tandem_analyzeOption P s t n value hst).bind
      intro n₁ hn₁ o o' ho
      have hr := Pairing.same_mono hr hn₁
      cases ho with
      | none =>
        apply (tandem_requireSubtype (.prim .nil) hr).bind
        intro n₂ _ _ _ _
        exact .pure fun _ _ => .returnNil
      | some he =>
        apply (tandem_requireSubtype he.type hr).bind
        intro n₂ hn₂ _ _ _
        exact .pure fun m hm => .returnValue (expr_later (by omega) he)
  | exprStmt e =>
    apply (tandem_analyzeExpr P s t n e hst).bind
    intro n₁ _ e e' he
    exact .pure fun m hm => .exprStmt (expr_later hm he)
  | assignStmt target value =>
    cases target with
    | var name =>
      apply (tandem_lookup hst.1).bind
      intro n₁ _ o o' ho
      cases ho with
      | none => exact .throw fun _ _ => .same rfl
      | some hv =>
        apply (tandem_analyzeExpr P s t n₁ value hst.2).bind
        intro n₂ hn₂ e e' he
        apply (tandem_requireSubtype he.type (Pairing.same_mono hv hn₂)).bind
        intro n₃ hn₃ _ _ _
        exact .pure fun m hm => .assignVar (Pairing.same_mono hv (by omega))
          (expr_later (by omega) he)
    | property receiver name =>
      apply (tandem_analyzeExpr P s t n receiver hst.1).bind
      intro n₁ _ r r' hr
      apply (tandem_memberType hr.type name).bind
      intro n₂ hn₂ v v' hv
      have hrest : Tandem P hidden s t n₂ (fun m => StmtAlike (P.Same m))
          (do
            let value ← analyzeExpr s value
            requireSubtype value.type v
            return .assignProperty r name v value)
          (do
            let value ← analyzeExpr t value
            requireSubtype value.type v'
            return .assignProperty r' name v' value) := by
        apply (tandem_analyzeExpr P s t n₂ value hst.2).bind
        intro n₃ hn₃ e e' he
        apply (tandem_requireSubtype he.type (Pairing.same_mono hv hn₃)).bind
        intro n₄ hn₄ _ _ _
        exact .pure fun m hm => .assignProperty (expr_later (by omega) hr)
          (Pairing.same_mono hv (by omega)) (expr_later (by omega) he)
      cases hv with
      | prim p => exact hrest
      | fn _ _ =>
        exact Tandem.bind (A := fun _ _ _ => False) (.throw fun _ _ => .same rfl)
          fun _ _ _ _ h => h.elim
      | object _ => exact hrest
    | _ => exact .throw fun _ _ => .same rfl
  | misplaced kind => exact .throw fun _ _ => .same rfl

theorem tandem_analyzeBlock (P : Pairing) (s t : ScopeId) (n : Nat) {returns returns' : Option Ty}
    (hreturns : Option.Rel (P.Same n) returns returns') (sts : List Stmt)
    (halone : sts.flatMap Stmt.declared ≠ [] → P.Alone s t) (hsts : BlockAvoids hidden sts) :
    Tandem P hidden s t n (fun m => BlockAlike (P.Same m)) (analyzeBlock s returns sts)
      (analyzeBlock t returns' sts) := by
  match sts with
  | [] => exact .pure fun _ _ => .nil
  | st :: sts =>
    rw [List.flatMap_cons] at halone
    apply (tandem_analyzeStmt P s t n hreturns st
      (fun h => halone (List.append_ne_nil_of_left_ne_nil h _)) hsts.1).bind
    intro n₁ hn₁ st st' hst
    apply (tandem_analyzeBlock P s t n₁
      (optionRel_mono hreturns fun _ _ h => Pairing.same_mono h hn₁) sts
      (fun h => halone (List.append_ne_nil_of_right_ne_nil _ h)) hsts.2).bind
    intro n₂ hn₂ sts sts' hsts
    exact .pure fun m hm => .cons (stmt_later (by omega) hst) (block_later hm hsts)

end

/-- Two analyses of a program go in tandem. -/
theorem tandem_analyze (n : Nat) (p : Program) (halone : p.declared ≠ [] → P.Alone s t)
    (hp : p.Avoids hidden) :
    Tandem P hidden s t n (fun m => ProgramAlike (P.Same m)) (analyze s p) (analyze t p) := by
  cases p with
  | source stmts =>
    apply (tandem_analyzeBlock P s t n .none stmts halone hp).bind
    intro n₁ _ b b' hb
    exact .pure fun m hm => .source (block_later hm hb)
  | stmt st =>
    apply (tandem_analyzeStmt P s t n .none st halone hp).bind
    intro n₁ _ st st' hst
    exact .pure fun m hm => .stmt (stmt_later hm hst)
  | expr e =>
    apply (tandem_analyzeExpr P s t n e hp).bind
    intro n₁ _ e e' he
    exact .pure fun m hm => .expr (expr_later hm he)

end ObjectLang.Analysis
