import Mathlib.Data.List.Forall2
import ObjectLang.Proofs.Analysis.Inversion
import ObjectLang.Proofs.Scope.Growth

/-!
What the signatures of functions and methods are worth: parameters with different names and one type
for each of them, and one member with its type for each method.
-/

namespace ObjectLang.Analysis

open Forest

variable {sig : Signature} {members : ScopeId} {ds : List DefDecl} {sigs : List Signature}
  {st st' : State}

theorem paramTypes_ok {function : String} {seen params : List String}
    {annotations : List (Option String)} {types : List Prim}
    (h : paramTypes function seen params annotations = .ok types) :
    params.Nodup ∧ (∀ p ∈ params, p ∉ seen) ∧ types.length = params.length := by
  induction params generalizing seen annotations types with
  | nil =>
    cases h
    simp
  | cons p ps ih =>
    unfold paramTypes at h
    by_cases hp : p ∈ seen
    · simp [hp, throw, throwThe, MonadExceptOf.throw, bind, Except.bind] at h
    · simp only [hp, if_false, except_bind_eq_ok] at h
      obtain ⟨type, -, rest, hrest, h⟩ := h
      obtain ⟨hnodup, hnew, hlength⟩ := ih hrest
      cases h
      simp only [List.mem_cons, not_or] at hnew
      refine ⟨List.nodup_cons.2 ⟨fun hmem => (hnew p hmem).1 rfl, hnodup⟩, ?_, by simp [hlength]⟩
      exact List.forall_mem_cons.2 ⟨hp, fun q hq => (hnew q hq).2⟩

theorem signature_ok {d : DefDecl} (h : signature d = .ok sig) :
    d.params.Nodup ∧ sig.params.length = d.params.length := by
  obtain ⟨name, params, annotations, returnType, body⟩ := d
  simp only [signature, except_bind_eq_ok] at h
  obtain ⟨types, htypes, returns, -, h⟩ := h
  cases h
  obtain ⟨hnodup, -, hlength⟩ := paramTypes_ok htypes
  exact ⟨hnodup, hlength⟩

/-- The parameters of a function, which are what the scope of its body starts with. -/
theorem entries_params {d : DefDecl} (h : signature d = .ok sig) :
    (Bindings.ofList (d.params.zip (sig.params.map Ty.prim))).entries =
      d.params.zip (sig.params.map Ty.prim) :=
  Bindings.entries_ofList ((signature_ok h).1.sublist (Bindings.sublist_map_fst_zip _ _))

theorem names_params {d : DefDecl} (h : signature d = .ok sig) :
    (Bindings.ofList (d.params.zip (sig.params.map Ty.prim))).names = d.params := by
  rw [Bindings.names, entries_params h, List.map_fst_zip (by simp [(signature_ok h).2])]

theorem toTy_eq {d : DefDecl} (h : signature d = .ok sig) :
    sig.toTy = .fn ((d.params.zip (sig.params.map Ty.prim)).map Prod.snd) (.prim sig.returns) := by
  rw [List.map_snd_zip (by simp [(signature_ok h).2]), Signature.toTy]

/-- The methods of an object become members after those that are there. -/
theorem declareMethods_ok (h : declareMethods members ds st = .ok sigs st') :
    List.Forall₂ (fun d sig => signature d = .ok sig) ds sigs ∧
      AddsEntries members (List.zipWith (fun d sig => (d.name, sig.toTy)) ds sigs)
        st.scopes st'.scopes := by
  induction ds generalizing sigs st with
  | nil =>
    obtain ⟨rfl, rfl⟩ := pure_eq_ok.1 h
    exact ⟨.nil, (Kept.refl _ _).adds _⟩
  | cons d ds ih =>
    obtain ⟨sig, rest, st₁, hfresh, hsig, hst, hrest, rfl⟩ := declareMethods_inv h
    obtain ⟨hsigs, hadds⟩ := ih hrest
    refine ⟨.cons hsig hsigs, ?_⟩
    rw [hst] at hadds
    exact (addsEntries_insert _ (not_mem_names hfresh)).trans hadds

end ObjectLang.Analysis
