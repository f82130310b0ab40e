import Mathlib
import ObjectLang.Proofs.Analysis.Signature
import ObjectLang.Proofs.Erasure.Trees
import ObjectLang.Prelude

/-!
Analysis keeps the whole program. What it gives back is the program again when the types are
forgotten, and every annotation is among those types, at the place where it was written.
-/

namespace ObjectLang.Analysis

variable {s : ScopeId} {st st' : State}

theorem annotated_of_resolve {word : String} {p : Prim} (h : resolve word = .ok p) :
    annotated? (some word) = some (.prim p) := by
  unfold resolve at h
  split at h
  · next hp =>
    cases h
    simp [annotated?, hp]
  · cases h

theorem annotated_of_resolveOr {typeName : Option String} {p : Prim}
    (h : resolveOr typeName = .ok p) : annotated? typeName = some (.prim p) := by
  cases typeName with
  | none =>
    cases h
    rfl
  | some word => exact annotated_of_resolve h

/-- A parameter has the type of the annotation in its place. There may be none, because the
annotations have ended or because one was skipped. -/
theorem annotated_of_paramTypes {function : String} {seen params : List String}
    {annotations : List (Option String)} {types : List Prim}
    (h : paramTypes function seen params annotations = .ok types) {i : Nat} {p : Prim}
    (hp : types[i]? = some p) : annotated? annotations[i]?.join = some (.prim p) := by
  induction params generalizing seen annotations types i with
  | nil =>
    cases h
    simp at hp
  | cons param params ih =>
    unfold paramTypes at h
    by_cases hseen : param ∈ seen
    · simp [hseen, throw, throwThe, MonadExceptOf.throw, bind, Except.bind] at h
    · simp only [hseen, if_false, except_bind_eq_ok] at h
      obtain ⟨type, htype, rest, hrest, h⟩ := h
      cases h
      cases i with
      | zero =>
        obtain rfl : type = p := by simpa using hp
        rw [← List.head?_eq_getElem?]
        exact annotated_of_resolveOr htype
      | succ i =>
        have hrestp : rest[i]? = some p := by simpa using hp
        simpa using ih hrest hrestp

theorem annotated_of_signature {name : String} {params : List String}
    {annotations : List (Option String)} {returnType : Option String} {body : List Stmt}
    {sig : Signature} (h : signature (.mk name params annotations returnType body) = .ok sig) :
    (∀ (i : Nat) (p : Prim), sig.params[i]? = some p →
      annotated? annotations[i]?.join = some (.prim p)) ∧
      annotated? returnType = some (.prim sig.returns) := by
  simp only [signature, except_bind_eq_ok] at h
  obtain ⟨types, htypes, returns, hreturns, h⟩ := h
  cases h
  exact ⟨fun i p hp => annotated_of_paramTypes htypes hp, annotated_of_resolveOr hreturns⟩

mutual

theorem analyzeExpr_erase (s : ScopeId) (e : Expr) {st st' : State} {te : Typed.Expr Ty}
    (h : analyzeExpr s e st = .ok te st') : te.erase = e.bare ∧ e.Annotates te := by
  cases e with
  | literal value =>
    obtain ⟨p, -, rfl, -⟩ := literal_inv h
    exact ⟨rfl, trivial⟩
  | group inner =>
    obtain ⟨te, hi, rfl⟩ := group_inv h
    obtain ⟨herase, hann⟩ := analyzeExpr_erase s inner hi
    exact ⟨congrArg Expr.group herase, hann⟩
  | binary symbol left right =>
    obtain ⟨op, l, r, t, st₁, st₂, hop, hl, hr, -, rfl⟩ := binary_inv h
    obtain ⟨hel, hal⟩ := analyzeExpr_erase s left hl
    obtain ⟨her, har⟩ := analyzeExpr_erase s right hr
    refine ⟨?_, hal, har⟩
    simp only [Typed.Expr.erase, Expr.bare, Operator.ofSymbol?_eq_some_iff.1 hop, hel, her]
  | var name =>
    obtain ⟨t, -, rfl, -⟩ := var_inv h
    exact ⟨rfl, trivial⟩
  | property receiver name =>
    obtain ⟨object, members, t, ho, -, -, rfl⟩ := property_inv h
    obtain ⟨herase, hann⟩ := analyzeExpr_erase s receiver ho
    exact ⟨congrArg (Expr.property · name) herase, hann⟩
  | call name args =>
    obtain ⟨params, returns, targs, -, harity, hargs, rfl⟩ := call_inv h
    obtain ⟨herase, hann⟩ := analyzeArgs_erase s args params harity hargs
    exact ⟨congrArg (Expr.call name) herase, hann⟩
  | methodCall receiver name args =>
    obtain ⟨object, members, params, returns, targs, st₁, ho, -, -, harity, hargs, rfl⟩ :=
      methodCall_inv h
    obtain ⟨heo, hao⟩ := analyzeExpr_erase s receiver ho
    obtain ⟨hea, haa⟩ := analyzeArgs_erase s args params harity hargs
    refine ⟨?_, hao, haa⟩
    simp only [Typed.Expr.erase, Expr.bare, heo, hea]
  | object name fields methods =>
    obtain ⟨tfields, sigs, tmethods, st₀, st₁, st₂, st₃, -, hf, hd, -, -, hm, rfl⟩ := object_inv h
    obtain ⟨hef, haf⟩ := analyzeFields_erase _ fields hf
    obtain ⟨hem, ham⟩ := analyzeMethods_erase _ methods sigs (declareMethods_ok hd).1 hm
    refine ⟨?_, haf, ham⟩
    simp only [Typed.Expr.erase, Expr.bare, hef, hem]
  | misplaced kind => exact (misplaced_inv h).elim

theorem analyzeArgs_erase (s : ScopeId) (es : List Expr) (params : List Ty) {st st' : State}
    {tes : List (Typed.Expr Ty)} (hlen : es.length = params.length)
    (h : analyzeArgs s es params st = .ok tes st') :
    Typed.eraseArgs tes = bareArgs es ∧ ArgsAnnotate es tes := by
  match es, params with
  | [], [] =>
    obtain ⟨rfl, -⟩ := pure_eq_ok.1 h
    exact ⟨rfl, trivial⟩
  | e :: es, param :: params =>
    obtain ⟨t, ts, st₁, he, -, hes, rfl⟩ := args_inv h
    obtain ⟨hee, hae⟩ := analyzeExpr_erase s e he
    obtain ⟨hees, haes⟩ := analyzeArgs_erase s es params (Nat.succ.inj hlen) hes
    refine ⟨?_, hae, haes⟩
    simp only [Typed.eraseArgs, bareArgs, hee, hees]

theorem analyzeOption_erase (s : ScopeId) (value : Option Expr) {st st' : State}
    {tvalue : Option (Typed.Expr Ty)} (h : analyzeOption s value st = .ok tvalue st') :
    Typed.eraseOption tvalue = bareOption value ∧ OptionAnnotates value tvalue := by
  match value with
  | none =>
    obtain ⟨rfl, -⟩ := pure_eq_ok.1 h
    exact ⟨rfl, trivial⟩
  | some e =>
    obtain ⟨te, he, rfl⟩ := option_inv h
    obtain ⟨herase, hann⟩ := analyzeExpr_erase s e he
    exact ⟨congrArg some herase, hann⟩

theorem analyzeLet_erase (s : ScopeId) (d : LetDecl) {st st' : State} {td : Typed.LetDecl Ty}
    (h : analyzeLet s d st = .ok td st') : td.erase = d.bare ∧ d.Annotates td := by
  match d with
  | .mk name typeName value =>
    obtain ⟨declared, tvalue, t, st₁, -, hdeclared, hv, rfl, -, -, -, rfl⟩ := let_inv h
    obtain ⟨herase, hann⟩ := analyzeOption_erase s value hv
    refine ⟨congrArg (LetDecl.mk name none) herase, ?_, hann⟩
    rintro word rfl
    cases declared with
    | none => cases hdeclared
    | some p => exact annotated_of_resolve (Option.some.inj hdeclared)

theorem analyzeFields_erase (s : ScopeId) (ds : List LetDecl) {st st' : State}
    {tds : List (Typed.LetDecl Ty)} (h : analyzeFields s ds st = .ok tds st') :
    Typed.eraseFields tds = bareFields ds ∧ FieldsAnnotate ds tds := by
  match ds with
  | [] =>
    obtain ⟨rfl, -⟩ := pure_eq_ok.1 h
    exact ⟨rfl, trivial⟩
  | d :: ds =>
    obtain ⟨t, ts, st₁, hd, hds, rfl⟩ := fields_inv h
    obtain ⟨hed, had⟩ := analyzeLet_erase s d hd
    obtain ⟨heds, hads⟩ := analyzeFields_erase s ds hds
    refine ⟨?_, had, hads⟩
    simp only [Typed.eraseFields, bareFields, hed, heds]

theorem analyzeDef_erase (s : ScopeId) (d : DefDecl) (sig : Signature) {st st' : State}
    {td : Typed.DefDecl Ty} (hsig : signature d = .ok sig) (h : analyzeDef s d sig st = .ok td st') :
    td.erase = d.bare ∧ d.Annotates td := by
  match d with
  | .mk name params annotations returnType body =>
    obtain ⟨tbody, st₀, -, hb, rfl⟩ := def_inv h
    obtain ⟨hebody, habody⟩ := analyzeBlock_erase _ _ body hb
    obtain ⟨hparams, hreturns⟩ := annotated_of_signature hsig
    have hlen : sig.params.length = params.length := (signature_ok hsig).2
    refine ⟨?_, by simp [hlen], fun i param hparam => ?_, hreturns, habody⟩
    · have hnames : (params.zip (sig.params.map Ty.prim)).map Prod.fst = params :=
        List.map_fst_zip (by simp [hlen])
      simp only [Typed.DefDecl.erase, DefDecl.bare, hnames, hebody]
    · obtain ⟨name, type⟩ := param
      obtain ⟨-, htype⟩ := List.getElem?_zip_eq_some.1 hparam
      rw [List.getElem?_map, Option.map_eq_some_iff] at htype
      obtain ⟨p, hp, rfl⟩ := htype
      exact hparams i p hp

theorem analyzeMethods_erase (s : ScopeId) (ds : List DefDecl) (sigs : List Signature)
    {st st' : State} {tds : List (Typed.DefDecl Ty)}
    (hsigs : List.Forall₂ (fun d sig => signature d = .ok sig) ds sigs)
    (h : analyzeMethods s ds sigs st = .ok tds st') :
    Typed.eraseMethods tds = bareMethods ds ∧ MethodsAnnotate ds tds := by
  match ds, sigs, hsigs with
  | [], [], _ =>
    obtain ⟨rfl, -⟩ := pure_eq_ok.1 h
    exact ⟨rfl, trivial⟩
  | d :: ds, sig :: sigs, .cons hsig hsigs =>
    obtain ⟨t, ts, st₁, hd, hds, rfl⟩ := methods_inv h
    obtain ⟨hed, had⟩ := analyzeDef_erase s d sig hsig hd
    obtain ⟨heds, hads⟩ := analyzeMethods_erase s ds sigs hsigs hds
    refine ⟨?_, had, hads⟩
    simp only [Typed.eraseMethods, bareMethods, hed, heds]

theorem analyzeStmt_erase (s : ScopeId) (returns : Option Ty) (stmt : Stmt) {st st' : State}
    {ts : Typed.Stmt Ty} (h : analyzeStmt s returns stmt st = .ok ts st') :
    ts.erase = stmt.bare ∧ stmt.Annotates ts := by
  cases stmt with
  | letStmt decl =>
    obtain ⟨d, hd, rfl⟩ := letStmt_inv h
    obtain ⟨herase, hann⟩ := analyzeLet_erase s decl hd
    exact ⟨congrArg Stmt.letStmt herase, hann⟩
  | defStmt decl =>
    obtain ⟨sig, d, st₁, -, hsig, -, hd, rfl⟩ := defStmt_inv h
    obtain ⟨herase, hann⟩ := analyzeDef_erase s decl sig hsig hd
    exact ⟨congrArg Stmt.defStmt herase, hann⟩
  | ifStmt condition thenBody elseBody =>
    obtain ⟨c, a, b, st₁, st₂, st₃, st₄, hc, -, -, ha, -, hb, rfl⟩ := ifStmt_inv h
    obtain ⟨hec, hac⟩ := analyzeExpr_erase s condition hc
    obtain ⟨hea, haa⟩ := analyzeBlock_erase _ _ thenBody ha
    obtain ⟨heb, hab⟩ := analyzeBlock_erase _ _ elseBody hb
    refine ⟨?_, hac, haa, hab⟩
    simp only [Typed.Stmt.erase, Stmt.bare, hec, hea, heb]
  | forStmt name iterable body =>
    obtain ⟨it, b, st₁, st₂, hit, -, -, hb, rfl⟩ := forStmt_inv h
    obtain ⟨hei, hai⟩ := analyzeExpr_erase s iterable hit
    obtain ⟨heb, hab⟩ := analyzeBlock_erase _ _ body hb
    refine ⟨?_, hai, hab⟩
    simp only [Typed.Stmt.erase, Stmt.bare, hei, heb]
  | returnStmt value =>
    obtain ⟨expected, tvalue, rfl, hv, -, rfl⟩ := returnStmt_inv h
    obtain ⟨herase, hann⟩ := analyzeOption_erase s value hv
    exact ⟨congrArg Stmt.returnStmt herase, hann⟩
  | exprStmt e =>
    obtain ⟨t, he, rfl⟩ := exprStmt_inv h
    obtain ⟨herase, hann⟩ := analyzeExpr_erase s e he
    exact ⟨congrArg Stmt.exprStmt herase, hann⟩
  | assignStmt target value =>
    -- What the assignment becomes depends on its target, and most targets are not allowed.
    cases target with
    | var name =>
      obtain ⟨t, v, -, hv, -, rfl⟩ := assignVar_inv h
      obtain ⟨herase, hann⟩ := analyzeExpr_erase s value hv
      exact ⟨congrArg (Stmt.assignStmt (.var name)) herase, hann⟩
    | property receiver name =>
      obtain ⟨object, members, t, v, st₁, ho, -, -, -, hv, -, rfl⟩ := assignProperty_inv h
      obtain ⟨heo, hao⟩ := analyzeExpr_erase s receiver ho
      obtain ⟨hev, hav⟩ := analyzeExpr_erase s value hv
      refine ⟨?_, hao, hav⟩
      simp only [Typed.Stmt.erase, Stmt.bare, Expr.bare, heo, hev]
    | _ => exact (throw_eq_ok.1 h).elim
  | misplaced kind => exact (misplacedStmt_inv h).elim

theorem analyzeBlock_erase (s : ScopeId) (returns : Option Ty) (stmts : List Stmt)
    {st st' : State} {ts : List (Typed.Stmt Ty)}
    (h : analyzeBlock s returns stmts st = .ok ts st') :
    Typed.eraseBlock ts = bareBlock stmts ∧ BlockAnnotates stmts ts := by
  match stmts with
  | [] =>
    obtain ⟨rfl, -⟩ := pure_eq_ok.1 h
    exact ⟨rfl, trivial⟩
  | stmt :: stmts =>
    obtain ⟨t, ts, st₁, hst, hsts, rfl⟩ := block_inv h
    obtain ⟨hest, hast⟩ := analyzeStmt_erase s returns stmt hst
    obtain ⟨hests, hasts⟩ := analyzeBlock_erase s returns stmts hsts
    refine ⟨?_, hast, hasts⟩
    simp only [Typed.eraseBlock, bareBlock, hest, hests]

end

/-- Analysis loses nothing of a program that it accepts. Without the types, the program that it gives
back is the one that it was run on, less the annotations, and each of these is one of the types. -/
theorem analyze_keeps_program {p : Program} {tp : Typed.Program Ty}
    (h : analyze s p st = .ok tp st') : tp.erase = p.bare ∧ p.Annotates tp := by
  cases p with
  | source stmts =>
    simp only [analyze, bind_eq_ok, pure_eq_ok] at h
    obtain ⟨ts, _, hts, rfl, rfl⟩ := h
    obtain ⟨herase, hann⟩ := analyzeBlock_erase s none stmts hts
    exact ⟨congrArg Program.source herase, hann⟩
  | stmt stmt =>
    simp only [analyze, bind_eq_ok, pure_eq_ok] at h
    obtain ⟨ts, _, hst, rfl, rfl⟩ := h
    obtain ⟨herase, hann⟩ := analyzeStmt_erase s none stmt hst
    exact ⟨congrArg Program.stmt herase, hann⟩
  | expr e =>
    simp only [analyze, bind_eq_ok, pure_eq_ok] at h
    obtain ⟨te, _, he, rfl, rfl⟩ := h
    obtain ⟨herase, hann⟩ := analyzeExpr_erase s e he
    exact ⟨congrArg Program.expr herase, hann⟩

/-- A program with annotations of every kind: of a variable and of a result, for a parameter that is
not the first, for none of the parameters, and for more parameters than there are. -/
def labelled : Program :=
  .source [.letStmt (.mk "x" (some "Comparable") (some (.group (.literal (.integer 1))))),
    .defStmt (.mk "f" ["a", "b"] [none, some "String", some "Number"] none []),
    .letStmt (.mk "o" none (some (.object none [.mk "y" none none]
      [.mk "m" ["a"] [] (some "Any") [.returnStmt (some (.var "a"))]]))),
    .assignStmt (.property (.var "o") "y")
      (.methodCall (.var "o") "m" [.binary "+" (.literal (.string "n")) (.var "x")])]

/-- The theorem at that program. -/
theorem analyze_keeps_labelled : ∃ tp st',
    analyze Prelude.root labelled ⟨Prelude.types false, #[]⟩ = .ok tp st' ∧
      tp.erase = labelled.bare ∧ labelled.Annotates tp := by
  have haccepts : (match analyze Prelude.root labelled ⟨Prelude.types false, #[]⟩ with
      | .ok _ _ => true
      | .error _ _ => false) = true := by cbv
  cases h : analyze Prelude.root labelled ⟨Prelude.types false, #[]⟩ with
  | ok tp st' => exact ⟨tp, st', rfl, analyze_keeps_program h⟩
  | error e st' => simp [h] at haccepts

end ObjectLang.Analysis
