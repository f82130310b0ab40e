import ObjectLang.Proofs.Resolution.Analysis
import ObjectLang.Proofs.Resolution.Evaluation
import ObjectLang.Proofs.Scoping.Session
import ObjectLang.Proofs.Typing.Failure
import ObjectLang.Proofs.Typing.Session

/-!
Programs in new scopes among the outermost ones. The outermost scopes are as planned, with a value of
its type for every name, so what analysis accepts there and what obeys the rules runs as planned.
-/

namespace ObjectLang

open Forest
open Typed (Env Blocks BlockRecords)

namespace Prelude

/-- The outermost scopes with the types that are known for their names; only `list` has none. -/
def plan (fixtures : Bool) : Plan where
  size := (values fixtures).size
  layout s :=
    { outer := []
      home := s
      own := ((types fixtures).own s).entries ++
        if s = root then [(Native.list.name, .prim .any)] else []
      object := if s = root then none else some s
      place := none }
  outer_lt _ _ _ hu := nomatch hu
  home_eq _ _ _ hu := nomatch hu

/-- A value in an outermost scope is a native function of its type, the object among the fixtures, or
of a primitive type, which tells nothing but for the fixtures. -/
def suits (fixtures member : Bool) : Value → Ty → Bool
  | _, .prim p => fixtures || p = .any
  | .function (.native f), .fn params returns =>
    (fixtures || f ∈ natives) && f.signature?.any (·.toTy = .fn params returns) &&
      f.arity?.all (params.length + member.toNat = ·)
  | .object _ members, .object o => fixtures && members = fixtureMembers && o = fixtureMembers
  | _, _ => false

variable {Γ : TypeScopes} {aim : Aim} {apart : Prop} {fixtures member : Bool} {s home : ScopeId}

/-- Every name that is planned has a value. -/
theorem names_of_plan : ∀ s < (values fixtures).size,
    ∀ n ∈ ((plan fixtures).layout s).own.map Prod.fst, n ∈ (values fixtures).names s := by
  cases fixtures <;> decide

/-- Every value is planned with a type that it suits. -/
theorem suits_of_plan : ∀ s < (values fixtures).size, ∀ e ∈ ((values fixtures).own s).entries,
    e.2.closures.isEmpty = true ∧
      (((plan fixtures).type? s e.1).any
        (suits fixtures ((plan fixtures).object? s).isSome e.2)) = true := by
  cases fixtures <;> decide

theorem realizes_object (hf : fixtures = true) :
    Realizes Γ (plan fixtures) (values fixtures) fixtureMembers fixtureMembers := by
  subst hf
  refine ⟨by decide, ⟨fixtureMembers, rfl, Ty.equiv_refl Γ _⟩, fun n hn => ?_⟩
  exact names_of_plan fixtureMembers (by decide) n (Plan.binds_iff.1 hn)

theorem fits_of_suits {v : Value} {t : Ty} (hf : aim.Precise → fixtures = false)
    (h : suits fixtures member v t = true) :
    v.Fits Γ aim (plan fixtures) (values fixtures) home member t := by
  unfold suits at h
  split at h
  · intro hp
    obtain rfl : _ = Prim.any := by simpa [hf hp] using h
    trivial
  · next f params returns =>
    simp only [Bool.and_eq_true, Option.any_eq_true, decide_eq_true_eq] at h
    obtain ⟨⟨hnative, sig, hsig, htype⟩, harity⟩ := h
    refine ⟨sig, htype.symm, _, rfl, fun _ k hk => ?_, fun hp => ⟨?_, hsig⟩⟩
    · simpa [hk] using harity
    · simpa [hf hp] using hnative
  · next name members o =>
    simp only [Bool.and_eq_true, decide_eq_true_eq] at h
    obtain ⟨⟨hf, rfl⟩, rfl⟩ := h
    exact ⟨name, _, rfl, realizes_object hf⟩
  · cases h

/-- Only the members of the object among the fixtures make up an object type. -/
theorem listsMembers_of_plan (hΓ : BindingsKept (types fixtures) Γ) {o : ScopeId}
    (hs : s < (values fixtures).size) (ho : (plan fixtures).object? s = some o) :
    (plan fixtures).home s = s ∧ ListsMembers Γ ((plan fixtures).layout s).own o := by
  have hsize : (values fixtures).size = (types fixtures).size := by cases fixtures <;> decide
  have hself : ∀ s < (types fixtures).size,
      Bindings.findIn selfName ((types fixtures).own s).entries = none := by
    cases fixtures <;> decide
  have hlookup (n : String) :
      Γ.lookupOwn s n = Bindings.findIn n ((types fixtures).own s).entries := by
    rw [lookupOwn, hΓ.own_eq (hsize ▸ hs), Bindings.find?]
  by_cases hroot : s = root
  · subst hroot
    cases ho
  · obtain rfl : s = o := by simpa [Plan.object?, plan, hroot] using ho
    have hown : ((plan fixtures).layout s).own = ((types fixtures).own s).entries := by
      simp [plan, hroot]
    rw [hown]
    refine ⟨rfl, hself s (hsize ▸ hs), fun n _ => (hlookup n).symm, fun t ht => ?_⟩
    rw [hlookup, hself s (hsize ▸ hs)] at ht
    cases ht

/-- The outermost scopes are as planned. -/
theorem orderly (hΓ : BindingsKept (types fixtures) Γ) (hf : aim.Precise → fixtures = false) :
    Orderly Γ aim (plan fixtures) (values fixtures) where
  size_eq := rfl
  chain_eq t ht := by
    have houter : ∀ t < (values fixtures).size,
        (values fixtures).outer t = ((plan fixtures).layout t).outer := by
      cases fixtures <;> decide
    rw [chain, houter t ht, Plan.chain]
  binds t n hn := by
    have hplanned : ∀ t < (values fixtures).size, ∀ n ∈ (values fixtures).names t,
        (plan fixtures).binds n t = true := by
      cases fixtures <;> decide
    exact hplanned t (lt_size_of_mem_names hn) n hn
  object_eq s hs o ho := listsMembers_of_plan hΓ hs ho
  holds s n v hv := by
    have hs : s < (values fixtures).size := lt_size_of_mem_names (Orderly.names_iff.2 ⟨v, hv⟩)
    obtain ⟨hplain, hsuits⟩ := suits_of_plan s hs (n, v) (Bindings.find?_eq_some_iff.1 hv)
    obtain ⟨t, ht, hsuits⟩ := (Option.any_eq_true _ _).1 hsuits
    exact ⟨Value.lasts_of_plain (List.isEmpty_iff.1 hplain), t, ht, fun _ => fits_of_suits hf hsuits⟩

/-- A name that has a type in the outermost scope is found there. -/
theorem finds_root {n : String} {t : Ty}
    (ht : Bindings.findIn n ((types fixtures).own root).entries = some t) :
    Finds apart (plan fixtures) (values fixtures) [root] n t := by
  have htype : (plan fixtures).type? root n = some t := by
    rw [Plan.type?, plan, Bindings.findIn_append, ht, Option.some_or]
  have hn : n ∈ (values fixtures).names root := by
    refine names_of_plan root (placed_prelude fixtures).2.own_lt n (Plan.binds_iff.1 ?_)
    rw [Plan.binds, htype]
    rfl
  exact ⟨root, List.find?_cons_of_pos (containsOwn_iff.2 hn), htype, fun _ _ => rfl⟩

/-- A name that is declared in the outermost scope stands for its declaration there. -/
theorem means_root {n : String} {d : Option Path × Ty}
    (hd : Blocks.find [(none, ((types fixtures).own root).entries)] n = some d) :
    (plan fixtures).Means [root] n d := by
  rw [Blocks.find_singleton, Option.map_eq_some_iff] at hd
  obtain ⟨t, ht, rfl⟩ := hd
  refine Plan.means_cons_self rfl ?_
  rw [Plan.type?, plan, Bindings.findIn_append, ht, Option.some_or]

/-- Where the scopes are before a program is run in one of them. -/
def places (s : ScopeId) : ScopeId → Option Path := fun t => if t = s then some [] else none

/-- A program can be run in a new scope inside the outermost one. -/
theorem stands (hΓ : BindingsKept (types fixtures) Γ) (hf : aim.Precise → fixtures = false)
    (bs : List (String × Ty)) :
    ∃ plan', plan'.Locates (places (values fixtures).size) ∧
      Orderly Γ aim plan' ((values fixtures).addChild root ∅) ∧
      Stands aim plan' ((values fixtures).addChild root ∅) (values fixtures).size
        (((types fixtures).env root).map (Prod.mk none)) [] [] bs (fun _ => True) (fun _ => True)
        fun _ => True := by
  have henv : (types fixtures).env root = [((types fixtures).own root).entries] := by
    cases fixtures <;> rfl
  have hroot : root < (values fixtures).size := (placed_prelude fixtures).2.own_lt
  have ho : Orderly Γ aim (plan fixtures) (values fixtures) := orderly hΓ hf
  have hnew : ∀ e ∈ (∅ : Bindings Value).entries, e.2.Lasts Γ aim (plan fixtures) (values fixtures) ∧
      ∃ t, Bindings.findIn e.1 ([] ++ bs) = some t ∧ (aim.Typed →
        e.2.Fits Γ aim (plan fixtures) (values fixtures) ((plan fixtures).home root) false t) :=
    fun _ he => nomatch he
  obtain ⟨ho', hg⟩ := orderly_addChild ho hroot ([] ++ bs) (some []) hnew
  rw [henv, List.map_singleton]
  refine ⟨_, fun t ht => ?_, ho', stands_addChild ho.toPlanned hroot rfl (fun _ n t _ _ ht => ?_)
    (fun n _ _ t ht => ?_) (fun n d _ _ hd => means_root hd) hg⟩
  · rw [places]
    split
    · next h =>
      have hlayout : ((plan fixtures).addChild root hroot ([] ++ bs) (some [])).layout t =
          ⟨[root], root, [] ++ bs, none, some []⟩ := by
        rw [h]
        exact Plan.layout_push
      rw [Plan.place, hlayout]
    · next h =>
      have ht : t < (plan fixtures).size := Nat.lt_of_le_of_ne (Nat.le_of_lt_succ ht) h
      rw [hg.extend.place_eq ht]
      rfl
  · rw [Blocks.env, List.map_singleton, Env.lookup_singleton] at ht
    exact finds_root ht
  · obtain rfl : t = root := List.mem_singleton.1 (List.mem_of_find?_eq_some ht)
    exact names_of_plan root (placed_prelude fixtures).2.own_lt n
      (Plan.binds_iff.1 (List.find?_some ht))

end Prelude

namespace Aim

variable {aim : Aim} {fixtures : Bool} {tp : Typed.Program Ty}

/-- What an analysed program must be like. Where the kinds of values matter, there are no fixtures, and
no part of the program brings values to places that their types leave out. -/
def Demands (fixtures : Bool) (tp : Typed.Program Ty) : Aim → Prop
  | kinds _ => fixtures = false ∧ tp.MethodsStay ∧ ∀ k ∈ tp.nodes, k.Clear
  | _ => tp.MethodsStay

theorem Demands.methodsStay (h : aim.Demands fixtures tp) : tp.MethodsStay := by
  cases aim with
  | kinds _ => exact h.2.1
  | _ => exact h

theorem Demands.fixtures_eq (h : aim.Demands fixtures tp) (hp : aim.Precise) : fixtures = false := by
  cases aim with
  | kinds _ => exact h.1
  | _ => exact hp.elim

theorem clears_of_demands (h : aim.Typed → aim.Demands fixtures tp) :
    ∀ k ∈ tp.nodes, aim.Clears k := by
  intro k hk hp
  cases aim with
  | kinds _ => exact (h trivial).2.2 k hk
  | _ => exact hp.elim

end Aim

namespace Session

variable {fixtures : Bool} {p : Program} {tp : Typed.Program Ty} {σ₁ σ₂ : Session} {depth : Nat}
  {output : String} {e : EvalError} {aim : Aim}

/-- The types of the names around a program that is run in a new scope. -/
def outer (fixtures : Bool) : Env := (Prelude.types fixtures).env Prelude.root

/-- What analysis accepts in a new session runs there as planned, if it obeys the rules. -/
theorem sound_start (depth : Nat) (ha : (start .child fixtures).analyze p = (.ok tp, σ₁))
    (hat : aim.Sees [] (tp.site (outer fixtures))) (hr : aim.Typed → aim.Demands fixtures tp)
    (hev : p.Every aim.Permits (Lasting aim.watched)) :
    ∃ plan, plan.Locates (Prelude.places σ₁.valueScope) ∧
      Evaluation.Sound σ₁.types aim plan σ₁.values (fun _ _ _ => True)
        (Evaluation.watch depth σ₁.valueScope p) := by
  obtain ⟨st, hst, rfl⟩ := analyze_eq_ok ha
  obtain ⟨_, hadds⟩ := (Analysis.keeps_analyze _ p).of_ok hst
  have hΓ : BindingsKept (Prelude.types fixtures) st.scopes :=
    kept_addChild.trans_adds_new (Nat.le_refl _) hadds
  have hg : Grounded (Prelude.types fixtures) Prelude.root :=
    (openChain_prelude fixtures).isOpen.toGrounded
  have henv : Blocks.env (tp.site (outer fixtures)).blocks =
      (start .child fixtures).types.env (start .child fixtures).typeScope := by
    rw [show (start .child fixtures).types.env (start .child fixtures).typeScope = [] :: outer fixtures
      from env_addChild hg]
    simp [Typed.Program.site, Blocks.env, Function.comp_def]
  obtain ⟨bs, hbs⟩ := Analysis.analyze_has openChain_start.isOpen henv hst
    (fun ha => (hr ha).methodsStay) (Aim.clears_of_demands hr) hat
  obtain ⟨plan, hlocates, ho, hstands⟩ :=
    Prelude.stands hΓ (fun hp => (hr hp.typed).fixtures_eq hp) bs
  exact ⟨plan, hlocates, Evaluation.sound_watch depth ho hstands hbs hev⟩

/-- A program that obeys the rules ends with an error only in a way that is allowed. -/
theorem allows_start (aim : Aim) (ha : (start .child fixtures).analyze p = (.ok tp, σ₁))
    (hat : aim.Sees [] (tp.site (outer fixtures))) (hr : aim.Typed → aim.Demands fixtures tp)
    (hev : p.Every aim.Permits (Lasting aim.watched))
    (he : σ₁.evaluate depth p = (⟨.error (.error e), output⟩, σ₂)) : aim.Allows (.error e) := by
  obtain ⟨plan, -, hsound⟩ := sound_start depth ha hat hr hev
  obtain ⟨_, -, hends⟩ := hsound ⟨σ₁.values, #[], σ₁.log⟩ rfl
  rw [Evaluation.run_watch] at hends
  unfold Session.evaluate at he
  split at he
  · cases he
  · next hrun =>
    cases he
    rwa [hrun] at hends

/-- What evaluation of a program opens, makes and calls, one moment after another. -/
def moments (depth : Nat) (σ : Session) (p : Program) : List Evaluation.Moment :=
  (Evaluation.watch depth σ.valueScope p).moments ⟨σ.values, #[], σ.log⟩

/-- Where the block is in a program that each scope was opened for. Scopes around the program are at no
place in it. -/
def places (depth : Nat) (σ : Session) (p : Program) : ScopeId → Option Path :=
  Evaluation.places (Prelude.places σ.valueScope) (σ.moments depth p)

/-- All moments of a program that obeys the rules are good in a plan, which knows the places of the
scopes. -/
theorem good_start (depth : Nat) (ha : (start .child fixtures).analyze p = (.ok tp, σ₁))
    (hat : aim.Sees [] (tp.site (outer fixtures))) (hr : aim.Typed → aim.Demands fixtures tp)
    (hev : p.Every aim.Permits (Lasting aim.watched)) :
    ∃ plan, (∀ k ∈ σ₁.moments depth p, k.Good aim plan) ∧ plan.Locates (σ₁.places depth p) := by
  obtain ⟨plan, hlocates, hsound⟩ := sound_start depth ha hat hr hev
  obtain ⟨plan', hseen, -⟩ := hsound ⟨σ₁.values, #[], σ₁.log⟩ rfl
  exact ⟨plan', hseen.good, hseen.locates _ hlocates⟩

/-- A method that divides by its argument, and a function that calls it twice. -/
def sharing : Program :=
  .source [.letStmt (.mk "account" none (some (.object none
      [.mk "total" none (some (.literal (.integer 6)))]
      [.mk "share" ["n"] [some "Integer"] (some "Integer")
        [.returnStmt (some (.binary "/" (.property (.var "this") "total") (.var "n")))]]))),
    .defStmt (.mk "twice" ["n"] [some "Integer"] (some "Integer")
      [.returnStmt (some (.binary "+" (.methodCall (.var "account") "share" [.var "n"])
        (.methodCall (.var "account") "share" [.var "n"])))]),
    .exprStmt (.call "twice" [.literal (.integer 2)]),
    .exprStmt (.call "twice" [.literal (.integer 0)])]

/-- A program that analysis accepts fails with an error of a kind when it is run. -/
def FailsWith (kind : EvalErrorKind) (p : Program) : Prop :=
  ∃ tp σ₁ e output σ₂, (start .child true).analyze p = (.ok tp, σ₁) ∧
    σ₁.evaluate 20 p = (⟨.error (.error e), output⟩, σ₂) ∧ e.kind = kind

/-- The kind of error that a program ends with in a new session, if analysis accepts the program. -/
def failure? (fixtures : Bool) (p : Program) : Option EvalErrorKind :=
  match (start .child fixtures).analyze p with
  | (.ok _, σ₁) =>
    match (σ₁.evaluate 20 p).1.result with
    | .error (.error e) => some e.kind
    | _ => none
  | (.error _, _) => none

theorem exists_failure {kind : EvalErrorKind} (h : failure? fixtures p = some kind) :
    ∃ tp σ₁ e output σ₂, (start .child fixtures).analyze p = (.ok tp, σ₁) ∧
      σ₁.evaluate 20 p = (⟨.error (.error e), output⟩, σ₂) ∧ e.kind = kind := by
  unfold failure? at h
  rcases ha : (start .child fixtures).analyze p with ⟨_ | tp, σ₁⟩
  · simp [ha] at h
  · rcases he : σ₁.evaluate 20 p with ⟨⟨⟨e | _ | _⟩ | v, output⟩, σ₂⟩
    · exact ⟨tp, σ₁, e, output, σ₂, rfl, he, by simpa [ha, he] using h⟩
    all_goals simp [ha, he] at h

theorem failsWith_of_failure {kind : EvalErrorKind} (h : failure? true p = some kind) :
    FailsWith kind p := exists_failure h

/-- Analysis accepts the program, and evaluation fails in the end. -/
theorem sharing_fails : ∃ tp σ₁ e output σ₂, (start .child true).analyze sharing = (.ok tp, σ₁) ∧
    tp.MethodsStay ∧ σ₁.evaluate 20 sharing = (⟨.error (.error e), output⟩, σ₂) := by
  have hstay : ((start .child true).analyze sharing).1.toOption.elim True
      Typed.Program.MethodsStay := by
    cbv
    simp [Typed.Expr.Detaches]
  have hfails : FailsWith .divideByZero sharing := failsWith_of_failure (by cbv)
  obtain ⟨tp, σ₁, e, output, σ₂, ha, he, -⟩ := hfails
  rw [ha] at hstay
  exact ⟨tp, σ₁, e, output, σ₂, ha, hstay, he⟩

section Owners

/-- Whether a closure is made at a moment or called, which one it is, and where it finds a name. -/
def seen (name : String) : Evaluation.Moment → Option (Bool × Closure × Option ScopeId)
  | .opened _ _ _ _ | .method _ _ _ _ | .assigned _ _ _ | .reached _ | .valued _ _ _ _ => none
  | .made c m => some (true, c, m.scopes.owner? c.scope name)
  | .called c m => some (false, c, m.scopes.owner? c.scope name)

variable {c : Closure} {name : String} {ks : List Evaluation.Moment} {t : Option ScopeId}

/-- The function that calls a method twice. -/
def twice : Closure where
  name := "twice"
  params := ["n"]
  params_nodup := by decide
  body := [.returnStmt (some (.binary "+" (.methodCall (.var "account") "share" [.var "n"])
    (.methodCall (.var "account") "share" [.var "n"])))]
  scope := 2
  isMethod := false

/-- A variable is declared after a function that reads one of the same name further out. -/
def hidden : Program :=
  .source [.letStmt (.mk "x" none (some (.literal (.integer 1)))),
    .ifStmt (.literal (.boolean true))
      [.defStmt (.mk "f" [] [] (some "Integer") [.returnStmt (some (.var "x"))]),
        .letStmt (.mk "x" none (some (.literal (.string "two")))),
        .exprStmt (.call "f" [])] []]

end Owners

section Faults

/-- Every call has as many arguments as the function takes, if no method is taken off its object or
used by its name alone inside of it, and if no block declares a name after a statement that makes a
function with another use for the name. -/
theorem accepted_arity_safe (ha : (start .child fixtures).analyze p = (.ok tp, σ₁))
    (hstay : tp.MethodsStay) (hev : p.Every MethodsApart (Lasting UsedFree))
    (he : σ₁.evaluate depth p = (⟨.error (.error e), output⟩, σ₂)) : e.kind ≠ .arityMismatch :=
  allows_start .arity ha trivial (fun _ => hstay) hev he

/-- The theorem at a program that fails for another reason. -/
theorem accepted_arity_safe_sharing :
    ∃ tp σ₁ e output σ₂, (start .child true).analyze sharing = (.ok tp, σ₁) ∧ tp.MethodsStay ∧
      sharing.Every MethodsApart (Lasting UsedFree) ∧
      σ₁.evaluate 20 sharing = (⟨.error (.error e), output⟩, σ₂) ∧ e.kind ≠ .arityMismatch := by
  obtain ⟨tp, σ₁, e, output, σ₂, ha, hstay, he⟩ := sharing_fails
  have hev : sharing.Every MethodsApart (Lasting UsedFree) := by
    simp [sharing, Program.Every, Lasting, Stmt.Captures, Stmt.declared, DefDecl.name, MethodsApart,
      DefDecl.Uses, UsedFree, BlockUses, Stmt.Uses, OptionUses, Expr.Uses]
  exact ⟨tp, σ₁, e, output, σ₂, ha, hstay, hev, he, accepted_arity_safe ha hstay hev he⟩

/-- A method is called as a function of its own. -/
def takenOff : Program :=
  .source [.letStmt (.mk "o" none (some (.object none [] [.mk "m" [] [] none []]))),
    .letStmt (.mk "g" none (some (.property (.var "o") "m"))),
    .exprStmt (.call "g" [])]

/-- A method calls another one by its name alone. -/
def sibling : Program :=
  .source [.letStmt (.mk "o" none (some (.object none []
      [.mk "m" [] [] none [.exprStmt (.call "n" [])], .mk "n" [] [] none []]))),
    .exprStmt (.methodCall (.var "o") "m" [])]

/-- A function is declared after one that calls a function of the same name further out. -/
def renamed : Program :=
  .source [.defStmt (.mk "g" [] [] none []),
    .ifStmt (.literal (.boolean true))
      [.defStmt (.mk "f" [] [] none [.exprStmt (.call "g" [])]),
        .defStmt (.mk "g" ["n"] [some "Integer"] none []),
        .exprStmt (.call "f" [])] []]

/-- None of the conditions can be left out. -/
theorem arity_fails : FailsWith .arityMismatch takenOff ∧ FailsWith .arityMismatch sibling ∧
    FailsWith .arityMismatch renamed :=
  ⟨failsWith_of_failure (by cbv), failsWith_of_failure (by cbv), failsWith_of_failure (by cbv)⟩

/-- Every member that is asked for is there, if no method is taken off its object, no object is asked
for itself, and no block declares a name after a statement that makes a function with another use
for the name. -/
theorem accepted_members_exist (ha : (start .child fixtures).analyze p = (.ok tp, σ₁))
    (hstay : tp.MethodsStay) (hev : p.Every NotSelfMember (Lasting UsedFree))
    (he : σ₁.evaluate depth p = (⟨.error (.error e), output⟩, σ₂)) : e.kind ≠ .undefinedMember :=
  allows_start .members ha trivial (fun _ => hstay) hev he

/-- The theorem at a program that fails for another reason. -/
theorem accepted_members_exist_sharing :
    ∃ tp σ₁ e output σ₂, (start .child true).analyze sharing = (.ok tp, σ₁) ∧ tp.MethodsStay ∧
      sharing.Every NotSelfMember (Lasting UsedFree) ∧
      σ₁.evaluate 20 sharing = (⟨.error (.error e), output⟩, σ₂) ∧ e.kind ≠ .undefinedMember := by
  obtain ⟨tp, σ₁, e, output, σ₂, ha, hstay, he⟩ := sharing_fails
  have hev : sharing.Every NotSelfMember (Lasting UsedFree) := by
    simp [sharing, Program.Every, Lasting, Stmt.Captures, Stmt.declared, DefDecl.name,
      NotSelfMember, selfName]
  exact ⟨tp, σ₁, e, output, σ₂, ha, hstay, hev, he, accepted_members_exist ha hstay hev he⟩

/-- An object is asked for itself. -/
def selfAsked : Program :=
  .source [.letStmt (.mk "o" none (some (.object none [] []))),
    .exprStmt (.property (.var "o") "this")]

/-- A method is called on an object that it does not belong to. -/
def borrowed : Program :=
  .source [.letStmt (.mk "o" none (some (.object none
      [.mk "inner" none (some (.object none [.mk "x" none (some (.literal (.integer 1)))]
          [.mk "m" [] [] (some "Integer") [.returnStmt (some (.property (.var "this") "x"))]])),
        .mk "f" none (some (.property (.var "inner") "m"))] []))),
    .exprStmt (.methodCall (.var "o") "f" [])]

/-- An object is declared after a function that reads a member of an object of the same name. -/
def replaced : Program :=
  .source [.letStmt (.mk "o" none (some (.object none
      [.mk "x" none (some (.literal (.integer 1)))] []))),
    .ifStmt (.literal (.boolean true))
      [.defStmt (.mk "f" [] [] (some "Integer") [.returnStmt (some (.property (.var "o") "x"))]),
        .letStmt (.mk "o" none (some (.object none [] []))),
        .exprStmt (.call "f" [])] []]

/-- None of the conditions can be left out. -/
theorem members_missing : FailsWith .undefinedMember selfAsked ∧
    FailsWith .undefinedMember borrowed ∧ FailsWith .undefinedMember replaced :=
  ⟨failsWith_of_failure (by cbv), failsWith_of_failure (by cbv), failsWith_of_failure (by cbv)⟩

end Faults

end Session

end ObjectLang
