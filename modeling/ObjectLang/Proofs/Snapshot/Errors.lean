import ObjectLang.Proofs.Pairing.Steps
import ObjectLang.Proofs.Snapshot.Types

/-! What is told of errors about paired types is the same, the texts that users see included. -/

namespace ObjectLang.AnalysisError

open NumberingM

variable {S : Ty → Ty → Prop} {e e' : AnalysisError} {R : ScopeId → ScopeId → Prop}
  {f : ScopeId → ScopeId} {Γ Δ : TypeScopes}

theorem Alike.actual_rel (h : e.Alike S e') : Option.Rel S e.actual? e'.actual? := by
  cases h with
  | same he => cases e <;> first | exact .none | cases he
  | notSubtype ht _ | conditionNotBoolean ht | receiverNotObject ht | notFunction ht => exact .some ht
  | operandMismatch _ hu => exact .some hu
  | undefinedMember _ => exact .none

theorem Alike.expected_rel (hprim : ∀ p, S (.prim p) (.prim p)) (h : e.Alike S e') :
    Option.Rel S e.expected? e'.expected? := by
  cases h with
  | same he => cases e <;> first | exact .none | cases he
  | notSubtype _ hu => exact .some hu
  | conditionNotBoolean _ => exact .some (hprim _)
  | operandMismatch ht _ => exact .some ht
  | receiverNotObject _ | notFunction _ | undefinedMember _ => exact .none

/-- A message without types does not depend on the scopes. -/
theorem message_eq_of_types (h : e.types = []) : e.message Γ = e.message Δ := by
  cases e with
  | notSubtype _ _ | operandMismatch _ _ _ | conditionNotBoolean _ | receiverNotObject _
  | notFunction _ _ | undefinedMember _ _ => simp [types] at h
  | _ => unfold message; rfl

/-- The text shown to users is the same where members are in the same order. -/
theorem Alike.message_eq (hnames : ∀ a b, R a b → Γ.names a = Δ.names b)
    (h : e.Alike (Ty.Paired R) e') : e.message Γ = e'.message Δ := by
  cases h with
  | same he => exact message_eq_of_types he
  | notSubtype ht hu | operandMismatch ht hu =>
    unfold message
    dsimp only
    rw [Ty.display_of_paired hnames ht, Ty.display_of_paired hnames hu]
  | conditionNotBoolean ht | receiverNotObject ht | notFunction ht | undefinedMember ht =>
    unfold message
    dsimp only
    rw [Ty.display_of_paired hnames ht]

theorem walks_option {τ υ ρ : Type} {S : τ → υ → Prop} {g : τ → NumberingM ρ} {h : υ → NumberingM ρ}
    (hS : Typed.ToldAlike f S g h) {o : Option τ} {o' : Option υ} (ho : Option.Rel S o o') :
    Walks f (o.mapM g) (o'.mapM h) := by
  cases ho with
  | none => exact .pure _
  | some ht => exact (hS _ _ ht).bind fun _ => .pure _

theorem Alike.snapshotTypes_eq (hf : Function.Injective f) (hR : ∀ a b, R a b → b = f a)
    (hown : ∀ a b, R a b → Bindings.Aligned (Ty.Paired R) (Γ.own a) (Δ.own b))
    (h : e.Alike (Ty.Paired R) e') : e.snapshotTypes Γ = e'.snapshotTypes Δ := by
  have hS : Typed.ToldAlike f (Ty.Paired R) (Ty.snapshot Γ) (Ty.snapshot Δ) :=
    fun _ _ => Ty.walks_snapshot hf hR hown
  refine fromStart_eq (f := f) ((walks_option hS h.actual_rel).bind fun _ => ?_)
  exact (walks_option hS (h.expected_rel .prim)).bind fun _ => .pure _

end ObjectLang.AnalysisError
