import ObjectLang.Proofs.Resolution.Rules

/-!
The types that an analysed program records for a name. Where a block uses a name of a block around it,
analysis has found the name there, and has recorded the type that the name has there.
-/

namespace ObjectLang

namespace Typed

section Records

variable (name : String) (t : Ty)

mutual

/-- Wherever an expression uses the name from outside, it has recorded this type for it. For a function
that is called, it has recorded the result. -/
def Expr.Records : Expr Ty → Prop
  | .literal _ _ => True
  | .group inner _ => inner.Records
  | .binary _ left right _ => left.Records ∧ right.Records
  | .var n type => n = name → type = t
  | .property receiver _ _ => receiver.Records
  | .call n args type => (n = name → ∃ params, t = .fn params type) ∧ ArgsRecord args
  | .methodCall receiver _ args _ => receiver.Records ∧ ArgsRecord args
  | .object _ _ _ _ => True

def ArgsRecord : List (Expr Ty) → Prop
  | [] => True
  | e :: es => e.Records ∧ ArgsRecord es

def OptionRecords : Option (Expr Ty) → Prop
  | none => True
  | some e => e.Records

/-- Wherever a statement uses the name from the scope that it stands in, or from further out, it has
recorded this type for it. -/
def Stmt.Records : Stmt Ty → Prop
  | .letStmt (.mk _ _ value) => OptionRecords value
  | .defStmt (.mk n params _ body) => n ≠ name → name ∉ params.map Prod.fst → BlockRecords body
  | .ifStmt condition thenBody elseBody =>
    condition.Records ∧ BlockRecords thenBody ∧ BlockRecords elseBody
  | .forStmt n _ iterable body => iterable.Records ∧ (n ≠ name → BlockRecords body)
  | .returnStmt value => OptionRecords value
  | .exprStmt e => e.Records
  | .assignVar n type value => (n = name → type = t) ∧ value.Records
  | .assignProperty receiver _ _ value => receiver.Records ∧ value.Records

/-- Wherever a block uses the name before it declares it, it has recorded this type for it. -/
def BlockRecords : List (Stmt Ty) → Prop
  | [] => True
  | st :: sts => st.Records ∧ (name ∉ st.bindings.map Prod.fst → BlockRecords sts)

end

end Records

section Typed

variable {Γ : TypeScopes} {name : String} {t : Ty} {env : Env} {own added : List (String × Ty)}

theorem Env.lookup_cons_of_not_mem (h : name ∉ own.map Prod.fst) :
    lookup (own :: env) name = env.lookup name := by
  rw [lookup_cons, Bindings.findIn_eq_none_iff.2 h, Option.none_or]

theorem Env.lookup_extend_of_not_mem (h : name ∉ added.map Prod.fst) (ht : env.lookup name = some t) :
    (env.extend added).lookup name = some t := by
  cases env with
  | nil => cases ht
  | cons own env =>
    rw [lookup_cons] at ht
    rwa [extend, lookup_cons, Bindings.findIn_append, Bindings.findIn_eq_none_iff.2 h, Option.or_none]

mutual

/-- An expression that obeys the rules records the types that names have around it. -/
theorem Expr.records (e : Expr Ty) {env : Env} (h : ExprTyped Γ env e)
    (ht : env.lookup name = some t) : e.Records name t := by
  cases e with
  | literal value type => trivial
  | group inner type =>
    cases h with
    | group h => exact inner.records h ht
  | binary op left right type =>
    cases h with
    | binary hl hr _ => exact ⟨left.records hl ht, right.records hr ht⟩
  | var n type =>
    cases h with
    | var h =>
      rintro rfl
      exact Option.some.inj (h.symm.trans ht)
  | property receiver n type =>
    cases h with
    | property h _ _ => exact receiver.records h ht
  | call n args type =>
    cases h with
    | call h ha =>
      refine ⟨?_, argsRecord args ha ht⟩
      rintro rfl
      exact ⟨_, Option.some.inj (ht.symm.trans h)⟩
  | methodCall receiver n args type =>
    cases h with
    | methodCall h _ _ ha => exact ⟨receiver.records h ht, argsRecord args ha ht⟩
  | object n fields methods type => trivial

theorem argsRecord (es : List (Expr Ty)) {env : Env} {params : List Ty}
    (h : ArgsTyped Γ env es params) (ht : env.lookup name = some t) : ArgsRecord name t es := by
  match es, h with
  | [], _ => trivial
  | e :: es, .cons he _ hes => exact ⟨e.records he ht, argsRecord es hes ht⟩

theorem Stmt.records (st : Stmt Ty) {env : Env} {returns : Option Ty} (h : StmtTyped Γ env returns st)
    (ht : env.lookup name = some t) : st.Records name t := by
  match st, h with
  | .letStmt (.mk _ _ none), _ => trivial
  | .letStmt (.mk _ _ (some e)), .letStmt (.set he _) => exact e.records he ht
  | .defStmt (.mk n params result body), .defStmt (.mk h) =>
    intro hn hparams
    have hnew : name ∉ [(DefDecl.mk n params result body).binding].map Prod.fst :=
      fun hmem => hn (List.mem_singleton.1 hmem).symm
    refine blockRecords body h ?_
    rw [Env.lookup_cons_of_not_mem hparams]
    exact Env.lookup_extend_of_not_mem hnew ht
  | .ifStmt condition thenBody elseBody, .ifStmt hc _ ha hb =>
    exact ⟨condition.records hc ht, blockRecords thenBody ha ht, blockRecords elseBody hb ht⟩
  | .forStmt n _ iterable body, .forStmt hi _ hb =>
    refine ⟨iterable.records hi ht, fun hn => blockRecords body hb ?_⟩
    rwa [Env.lookup_cons_of_not_mem (by simpa using hn.symm)]
  | .returnStmt none, _ => trivial
  | .returnStmt (some e), .returnValue he _ => exact e.records he ht
  | .exprStmt e, .exprStmt he => exact e.records he ht
  | .assignVar n type value, .assignVar hl hv _ =>
    refine ⟨?_, value.records hv ht⟩
    rintro rfl
    exact Option.some.inj (hl.symm.trans ht)
  | .assignProperty receiver _ _ value, .assignProperty hr _ _ _ hv _ =>
    exact ⟨receiver.records hr ht, value.records hv ht⟩

theorem blockRecords (sts : List (Stmt Ty)) {env : Env} {returns : Option Ty}
    (h : BlockTyped Γ env returns sts) (ht : env.lookup name = some t) : BlockRecords name t sts := by
  match sts, h with
  | [], _ => trivial
  | st :: sts, .cons hst hsts =>
    exact ⟨st.records hst ht, fun hn =>
      blockRecords sts hsts (Env.lookup_extend_of_not_mem hn ht)⟩

end

end Typed

end Typed

section Uses

open Typed

variable {Γ : TypeScopes} {aim : Aim} {name : String}

mutual

/-- A name that an expression uses is declared in some block around it. -/
theorem Expr.Has.exists_find (e : Expr) {env : Blocks} {π : Path} {t : Ty}
    (h : e.Has Γ aim env π t) (hu : e.Uses name) : ∃ d, env.find name = some d := by
  cases e with
  | literal value | object n fields methods | misplaced kind => exact hu.elim
  | group inner => exact Expr.Has.exists_find inner h.2 hu
  | binary symbol left right =>
    obtain ⟨-, op, l, r, -, hl, hr, -⟩ := h
    exact hu.elim (Expr.Has.exists_find left hl) (Expr.Has.exists_find right hr)
  | var n =>
    obtain ⟨-, place, hfind⟩ := h
    obtain rfl : n = name := hu
    exact ⟨_, hfind⟩
  | property receiver n =>
    obtain ⟨-, o, hr, -⟩ := h
    exact Expr.Has.exists_find receiver hr hu
  | call n args =>
    obtain ⟨-, params, place, hfind, ha⟩ := h
    obtain rfl | hu := hu
    · exact ⟨_, hfind⟩
    · exact ArgsHave.exists_find args ha hu
  | methodCall receiver n args =>
    obtain ⟨-, o, params, hr, -, ha⟩ := h
    exact hu.elim (Expr.Has.exists_find receiver hr) (ArgsHave.exists_find args ha)

theorem ArgsHave.exists_find (es : List Expr) {env : Blocks} {π : Path} {params : List Ty}
    (h : ArgsHave Γ aim env π es params) (hu : ArgsUse name es) : ∃ d, env.find name = some d := by
  match es with
  | [] => exact hu.elim
  | e :: es =>
    obtain ⟨param, rest, u, -, he, -, hes⟩ := h
    exact hu.elim (Expr.Has.exists_find e he) (ArgsHave.exists_find es hes)

theorem OptionHas.exists_find (value : Option Expr) {env : Blocks} {π : Path} {t : Ty}
    (h : OptionHas Γ aim env π value t) (hu : OptionUses name value) :
    ∃ d, env.find name = some d := by
  match value with
  | none => exact hu.elim
  | some e =>
    obtain ⟨u, he, -⟩ := h
    exact Expr.Has.exists_find e he hu

theorem Stmt.Has.exists_find (st : Stmt) {env : Blocks} {β π : Path} {returns : Option Ty}
    {bs : List (String × Ty)} (h : st.Has Γ aim env β π returns bs) (hu : st.Uses name) :
    ∃ d, env.find name = some d := by
  match st with
  | .letStmt (.mk _ _ value) =>
    obtain ⟨b, -, hb⟩ := h
    exact OptionHas.exists_find value hb.2.1 hu
  | .defStmt (.mk n params _ _ body) =>
    obtain ⟨b, -, hb⟩ := h
    obtain ⟨hname, -, sig, bs, -, -, hbody, -⟩ := hb
    obtain ⟨hn, hparams, hu⟩ := hu
    have hinner : name ∉ (params.zip (sig.params.map Ty.prim)).map Prod.fst := by
      rw [List.mem_map]
      rintro ⟨e, he, rfl⟩
      exact hparams (List.of_mem_zip he).1
    have hnew : name ∉ [b].map Prod.fst := fun hmem =>
      hn (hname.symm.trans (List.mem_singleton.1 hmem).symm)
    have hfind := BlockHas.exists_find body hbody hu
    rwa [Blocks.find_cons_of_not_mem hinner, Blocks.find_extend hnew] at hfind
  | .ifStmt condition thenBody elseBody =>
    obtain ⟨-, hc, ⟨as, ha⟩, bs, hb⟩ := h
    obtain hu | hu | hu := hu
    · exact Expr.Has.exists_find condition hc hu
    · have hfind := BlockHas.exists_find thenBody ha hu
      rwa [Blocks.find_cons_of_not_mem List.not_mem_nil] at hfind
    · have hfind := BlockHas.exists_find elseBody hb hu
      rwa [Blocks.find_cons_of_not_mem List.not_mem_nil] at hfind
  | .forStmt n iterable body =>
    obtain ⟨-, ⟨t, hi, -⟩, as, hb⟩ := h
    obtain hu | ⟨hn, hu⟩ := hu
    · exact Expr.Has.exists_find iterable hi hu
    · have hfind := BlockHas.exists_find body hb hu
      rwa [Blocks.find_cons_of_not_mem (by simpa using hn.symm)] at hfind
  | .returnStmt value =>
    obtain ⟨-, t, -, hv⟩ := h
    exact OptionHas.exists_find value hv hu
  | .exprStmt e =>
    obtain ⟨-, t, he⟩ := h
    exact Expr.Has.exists_find e he hu
  | .assignStmt (.var n) value =>
    obtain ⟨-, place, t, u, hfind, hv, -⟩ := h
    obtain rfl | hu := hu
    · exact ⟨_, hfind⟩
    · exact Expr.Has.exists_find value hv hu
  | .assignStmt (.property receiver n) value =>
    obtain ⟨-, o, t, u, hr, -, -, hv, -⟩ := h
    exact hu.elim (Expr.Has.exists_find receiver hr) (Expr.Has.exists_find value hv)

theorem BlockHas.exists_find (sts : List Stmt) {env : Blocks} {β π : Path} {returns : Option Ty}
    {bs : List (String × Ty)} (h : BlockHas Γ aim env β π returns sts bs) (hu : BlockUses name sts) :
    ∃ d, env.find name = some d := by
  match sts with
  | [] => exact hu.elim
  | st :: sts =>
    obtain ⟨as, rest, rfl, hst, hrest⟩ := h
    obtain hu | ⟨hn, hu⟩ := hu
    · exact Stmt.Has.exists_find st hst hu
    · have hfind := BlockHas.exists_find sts hrest hu
      rwa [Blocks.find_extend (by rwa [hst.names_eq])] at hfind

end

end Uses

end ObjectLang
