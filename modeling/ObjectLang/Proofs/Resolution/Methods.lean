import ObjectLang.Proofs.Resolution.Session
import ObjectLang.Proofs.Resolution.Trace

/-!
Methods are not replaced. What is planned as a method is not assigned to, and a run that does not
assign to a name keeps what is bound to it: so a method that an object has got is what the object has
by that name in all machines from then on.
-/

namespace ObjectLang

open Forest

namespace Session

variable {fixtures : Bool} {p : Program} {tp : Typed.Program Ty} {σ₁ : Session} {depth : Nat}
  {pre post : List Evaluation.Moment} {members : ScopeId} {name : String} {v : Value} {m₀ : Machine}

/-- The moments of a program lead to the scopes that the session has in the end. -/
theorem trace_moments (depth : Nat) (σ : Session) (p : Program) :
    Evaluation.Trace σ.values (σ.moments depth p) (σ.evaluate depth p).2.values := by
  have h := Evaluation.traced_watch depth σ.valueScope p ⟨σ.values, #[], σ.log⟩
  rw [Evaluation.run_watch] at h
  unfold Session.evaluate
  split
  · next hr =>
    rw [hr] at h
    exact h
  · next hr =>
    rw [hr] at h
    exact h

/-- An object holds on to the methods that it has got, in all machines that a program reaches later
and in the end, if no method of an object assigns to a method of that object by its name alone, no
method is taken off its object, and no block declares a name after a statement that makes a function
with another use for the name. -/
theorem accepted_methods_kept (ha : (start .child fixtures).analyze p = (.ok tp, σ₁))
    (hstay : tp.MethodsStay) (hev : p.Every MethodsUnassigned (Lasting UsedFree))
    (hmoments : σ₁.moments depth p = pre ++ .method members name v m₀ :: post) :
    Evaluation.MethodOf members name v ∧ m₀.scopes.lookupOwn members name = some v ∧
      (∀ k ∈ post, ∀ m, k.machine? = some m → m.scopes.lookupOwn members name = some v) ∧
      (σ₁.evaluate depth p).2.values.lookupOwn members name = some v := by
  have hat : Aim.methods.Sees [] (tp.site (outer fixtures)) := trivial
  obtain ⟨plan, hgood, -⟩ := good_start depth ha hat (fun _ => hstay) hev
  rw [hmoments] at hgood
  obtain ⟨-, hmethod, hdefined, hbound⟩ :=
    hgood (.method members name v m₀) (List.mem_append_right _ (List.mem_cons_self ..))
  have hunassigned (m : Machine) : .assigned members name m ∉ post := fun hm =>
    (hgood _ (List.mem_append_right _ (List.mem_cons_of_mem _ hm))).2 rfl hmethod
  have htrace := trace_moments depth σ₁ p
  rw [hmoments] at htrace
  obtain ⟨f, -, htrace⟩ := htrace.split
  cases htrace with
  | cons hleads htrace =>
    obtain ⟨rfl, rfl⟩ := hleads
    obtain ⟨hlast, hlater⟩ := htrace.lookupOwn hunassigned hbound
    exact ⟨hdefined, hbound, hlater, hlast⟩

/-- The scope and the name of a method, at the moment when an object has got it. -/
def gotMethod : Evaluation.Moment → Option (ScopeId × String)
  | .method members name _ _ => some (members, name)
  | _ => none

theorem exists_method {ks : List Evaluation.Moment}
    (h : (members, name) ∈ ks.filterMap gotMethod) : ∃ v m, .method members name v m ∈ ks := by
  obtain ⟨k, hk, heq⟩ := List.mem_filterMap.1 h
  cases k with
  | method members' name' v m =>
    cases heq
    exact ⟨v, m, hk⟩
  | _ => cases heq

/-- The theorem at an object whose method is called twice. -/
theorem accepted_methods_kept_sharing :
    ∃ tp σ₁ pre post members v m₀, (start .child true).analyze sharing = (.ok tp, σ₁) ∧
      tp.MethodsStay ∧ sharing.Every MethodsUnassigned (Lasting UsedFree) ∧
      σ₁.moments 20 sharing = pre ++ .method members "share" v m₀ :: post ∧
      Evaluation.MethodOf members "share" v ∧ m₀.scopes.lookupOwn members "share" = some v ∧
      (∀ k ∈ post, ∀ m, k.machine? = some m → m.scopes.lookupOwn members "share" = some v) ∧
      (σ₁.evaluate 20 sharing).2.values.lookupOwn members "share" = some v := by
  obtain ⟨tp, σ₁, -, -, -, ha, hstay, -⟩ := sharing_fails
  have hev : sharing.Every MethodsUnassigned (Lasting UsedFree) := by
    simp [sharing, Program.Every, Lasting, Stmt.Captures, Stmt.declared, DefDecl.name,
      MethodsUnassigned, DefDecl.Assigns, BlockAssigns, Stmt.Assigns]
  have hgot : ((((start .child true).analyze sharing).2.moments 20 sharing).filterMap
      gotMethod)[0]? = some (3, "share") := by cbv
  rw [ha] at hgot
  obtain ⟨v, m₀, hm₀⟩ := exists_method (List.mem_of_getElem? hgot)
  obtain ⟨pre, post, hmoments⟩ := List.append_of_mem hm₀
  exact ⟨tp, σ₁, pre, post, 3, v, m₀, ha, hstay, hev, hmoments,
    accepted_methods_kept ha hstay hev hmoments⟩

/-- In a program that analysis accepts, an object gets a method, and has something else by that name
in the end. -/
def ReplacesMethod (p : Program) : Prop :=
  ∃ tp σ₁ members name v m₀, (start .child true).analyze p = (.ok tp, σ₁) ∧
    .method members name v m₀ ∈ σ₁.moments 20 p ∧
    (σ₁.evaluate 20 p).2.values.lookupOwn members name ≠ some v

/-- The name of a function. -/
def functionName? : Value → Option String
  | .function f => some f.name
  | _ => none

/-- An object has not kept a method, as far as the names of functions tell. -/
def lost (f : ValueScopes) : Evaluation.Moment → Bool
  | .method members name v _ => (f.lookupOwn members name).map functionName? != some (functionName? v)
  | _ => false

/-- Some object has not kept a method in the end, if analysis accepts the program. -/
def replacesMethod? (p : Program) : Bool :=
  match (start .child true).analyze p with
  | (.ok _, σ₁) => (σ₁.moments 20 p).any (lost (σ₁.evaluate 20 p).2.values)
  | (.error _, _) => false

theorem replacesMethod_of_lost (h : replacesMethod? p = true) : ReplacesMethod p := by
  unfold replacesMethod? at h
  rcases ha : (start .child true).analyze p with ⟨_ | tp, σ₁⟩
  · simp [ha] at h
  · simp only [ha] at h
    obtain ⟨k, hk, hlost⟩ := List.any_eq_true.1 h
    cases k with
    | method members name v m₀ =>
      refine ⟨tp, σ₁, members, name, v, m₀, ha, hk, fun heq => ?_⟩
      simp [lost, heq] at hlost
    | _ => cases hlost

/-- A method assigns to itself by its name alone. -/
def selfAssigned : Program :=
  .source [.letStmt (.mk "o" none (some (.object none []
      [.mk "m" [] [] none [.defStmt (.mk "g" [] [] none []), .assignStmt (.var "m") (.var "g")]]))),
    .exprStmt (.methodCall (.var "o") "m" []),
    .exprStmt (.methodCall (.var "o") "m" [])]

/-- A method that sets a field is called on an object that has a method of that name. -/
def setElsewhere : Program :=
  .source [.letStmt (.mk "o" none (some (.object none
      [.mk "inner" none (some (.object none [.mk "y" none (some (.literal (.integer 1)))]
          [.mk "m" [] [] none
            [.assignStmt (.property (.var "this") "y") (.literal (.integer 2))]])),
        .mk "f" none (some (.property (.var "inner") "m"))]
      [.mk "y" [] [] none []]))),
    .exprStmt (.methodCall (.var "o") "f" []),
    .exprStmt (.methodCall (.var "o") "y" [])]

/-- An object with a method is declared after a function that sets a field of that name in an object
of the same name. -/
def setLater : Program :=
  .source [.letStmt (.mk "o" none (some (.object none
      [.mk "y" none (some (.literal (.integer 1)))] []))),
    .ifStmt (.literal (.boolean true))
      [.defStmt (.mk "f" [] [] none
          [.assignStmt (.property (.var "o") "y") (.literal (.integer 2))]),
        .letStmt (.mk "o" none (some (.object none [] [.mk "y" [] [] none []]))),
        .exprStmt (.call "f" []),
        .exprStmt (.methodCall (.var "o") "y" [])] []]

/-- None of the conditions can be left out. -/
theorem methods_replaced : ReplacesMethod selfAssigned ∧ ReplacesMethod setElsewhere ∧
    ReplacesMethod setLater :=
  ⟨replacesMethod_of_lost (by cbv), replacesMethod_of_lost (by cbv), replacesMethod_of_lost (by cbv)⟩

end Session

end ObjectLang
