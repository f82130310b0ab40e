import ObjectLang.Proofs.Resolution.Session

/-!
Values are of the kinds that types promise. This holds as long as no value gets to a place that its
type leaves out: by variables without a first value, functions that come to their end, comparisons of
values of different kinds, methods that are taken off their objects, or names that change their
meaning. Then no program fails with a type error.
-/

namespace ObjectLang.Session

variable {p : Program} {tp : Typed.Program Ty} {σ₁ : Session} {depth : Nat}

/-- Without fixtures, whatever an expression gives is of a kind that the type promises that analysis
has recorded for it, at the place of the expression in the analysed program, and no program fails with
a type error. For this, variables without a first value must be of a type that nil is of, and so must
be the results of functions that do not always return; values of the tier of comparable values must not
be compared; no method may be taken off its object; and no block may declare a name after a statement
that makes a function with another use for the name. -/
theorem accepted_kinds_kept (ha : (start .child false).analyze p = (.ok tp, σ₁))
    (hclear : ∀ k ∈ tp.nodes, k.Clear) (hstay : tp.MethodsStay)
    (hev : p.Every (fun _ => True) (Lasting UsedFree)) :
    (∀ s path e v, .valued s path e v ∈ σ₁.moments depth p →
      ∃ π blocks te, σ₁.places depth p s = some π ∧
        tp.at? (outer false) (path ++ π) = some ⟨blocks, .expr te⟩ ∧ te.erase = e.bare ∧
          te.type.Includes v) ∧
      ∀ e output σ₂, σ₁.evaluate depth p = (⟨.error (.error e), output⟩, σ₂) →
        e.kind ≠ .typeError := by
  have hat : (Aim.kinds (tp.site (outer false))).Sees [] (tp.site (outer false)) := rfl
  have hr (_ : (Aim.kinds (tp.site (outer false))).Typed) :
      (Aim.kinds (tp.site (outer false))).Demands false tp := ⟨rfl, hstay, hclear⟩
  refine ⟨fun s path e v hvalued => ?_, fun e output σ₂ he => allows_start _ ha hat hr hev he⟩
  obtain ⟨plan, hgood, hlocates⟩ := good_start depth ha hat hr hev
  obtain ⟨hs, π, t, hplace, ⟨blocks, te, hte, herase, rfl⟩, hincludes⟩ := hgood _ hvalued
  exact ⟨π, blocks, te, (hlocates s hs).trans hplace, hte, herase, hincludes trivial⟩

open Typed in
/-- No part of the program brings a value to a place that its type leaves out. -/
theorem clear_sharing : ((start .child false).analyze sharing).1.toOption.elim True
    fun tp => ∀ k ∈ tp.nodes, k.Clear := by
  cbv
  simp [Program.nodes, blockNodes, Stmt.nodes, LetDecl.nodes, DefDecl.nodes, optionNodes, Expr.nodes,
    argsNodes, fieldsNodes, methodsNodes, Node.Clear, Operator.Orders, eraseBlock, Stmt.erase,
    BlockReturns, Stmt.Returns]

/-- The theorem at a program that fails for another reason. -/
theorem accepted_kinds_kept_sharing :
    ∃ tp σ₁ e output σ₂, (start .child false).analyze sharing = (.ok tp, σ₁) ∧
      (∀ k ∈ tp.nodes, k.Clear) ∧ tp.MethodsStay ∧
      sharing.Every (fun _ => True) (Lasting UsedFree) ∧
      σ₁.evaluate 20 sharing = (⟨.error (.error e), output⟩, σ₂) ∧
      (∀ s path e v, .valued s path e v ∈ σ₁.moments 20 sharing →
        ∃ π blocks te, σ₁.places 20 sharing s = some π ∧
          tp.at? (outer false) (path ++ π) = some ⟨blocks, .expr te⟩ ∧ te.erase = e.bare ∧
            te.type.Includes v) ∧
      e.kind ≠ .typeError := by
  have hstay : ((start .child false).analyze sharing).1.toOption.elim True
      Typed.Program.MethodsStay := by
    cbv
    simp [Typed.Expr.Detaches]
  have hclear := clear_sharing
  have hev : sharing.Every (fun _ => True) (Lasting UsedFree) := by
    simp [sharing, Program.Every, Lasting, Stmt.Captures, Stmt.declared, DefDecl.name]
  have hfails : failure? false sharing = some .divideByZero := by cbv
  obtain ⟨tp, σ₁, e, output, σ₂, ha, he, -⟩ := exists_failure hfails
  rw [ha] at hstay hclear
  obtain ⟨hkinds, herrors⟩ := accepted_kinds_kept ha hclear hstay hev
  exact ⟨tp, σ₁, e, output, σ₂, ha, hclear, hstay, hev, he, hkinds, herrors e output σ₂ he⟩

/-- A program that analysis accepts fails with a type error when it is run without fixtures. -/
def FailsByType (p : Program) : Prop :=
  ∃ tp σ₁ e output σ₂, (start .child false).analyze p = (.ok tp, σ₁) ∧
    σ₁.evaluate 20 p = (⟨.error (.error e), output⟩, σ₂) ∧ e.kind = .typeError

/-- A number is added to a variable that has no value yet. -/
def unset : Program :=
  .source [.letStmt (.mk "x" (some "Integer") none),
    .exprStmt (.binary "+" (.var "x") (.literal (.integer 1)))]

/-- A number is added to the result of a function that comes to its end. -/
def unreturned : Program :=
  .source [.defStmt (.mk "f" [] [] (some "Integer") []),
    .exprStmt (.binary "+" (.call "f" []) (.literal (.integer 1)))]

/-- A number is compared to a text. -/
def mixed : Program :=
  .source [.letStmt (.mk "a" (some "Comparable") (some (.literal (.integer 1)))),
    .letStmt (.mk "b" (some "Comparable") (some (.literal (.string "x")))),
    .exprStmt (.binary "<" (.var "a") (.var "b"))]

/-- A method that reads a number is called on an object that has a text by that name. -/
def readElsewhere : Program :=
  .source [.letStmt (.mk "o" none (some (.object none
      [.mk "inner" none (some (.object none [.mk "x" none (some (.literal (.integer 1)))]
          [.mk "m" [] [] (some "Integer")
            [.returnStmt (some (.binary "-" (.property (.var "this") "x")
              (.literal (.integer 1))))]])),
        .mk "f" none (some (.property (.var "inner") "m")),
        .mk "x" none (some (.literal (.string "text")))] []))),
    .exprStmt (.methodCall (.var "o") "f" [])]

/-- A text is declared after a function that reads a number of the same name further out. -/
def readLater : Program :=
  .source [.letStmt (.mk "x" none (some (.literal (.integer 1)))),
    .ifStmt (.literal (.boolean true))
      [.defStmt (.mk "f" [] [] (some "Integer")
          [.returnStmt (some (.binary "-" (.var "x") (.literal (.integer 1))))]),
        .letStmt (.mk "x" none (some (.literal (.string "text")))),
        .exprStmt (.call "f" [])] []]

/-- None of the conditions can be left out. -/
theorem kinds_not_kept : FailsByType unset ∧ FailsByType unreturned ∧ FailsByType mixed ∧
    FailsByType readElsewhere ∧ FailsByType readLater :=
  ⟨exists_failure (by cbv), exists_failure (by cbv), exists_failure (by cbv),
    exists_failure (by cbv), exists_failure (by cbv)⟩

end ObjectLang.Session
