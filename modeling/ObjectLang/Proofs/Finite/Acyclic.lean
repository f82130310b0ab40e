import Mathlib.Data.Set.Finite.List
import Mathlib.Logic.Relation
import Mathlib.Order.WellFounded
import ObjectLang.Proofs.Finite.Values

/-!
Values without cycles. There are finitely many values to be met on the way into a value, so the way
into a value that leads through none of them twice comes to an end.
-/

namespace ObjectLang

open Relation

/-- Where only finitely many things can be met and none of them twice on one way, the way ends. -/
theorem acc_of_finite {α : Type} {r : α → α → Prop} {a : α}
    (hfinite : { b | ReflTransGen r b a }.Finite)
    (hacyclic : ∀ b, ReflTransGen r b a → ¬TransGen r b b) : Acc r a := by
  have := hfinite.to_subtype
  let Below (x y : { b | ReflTransGen r b a }) : Prop := TransGen r x.1 y.1
  have htrans : IsTrans _ Below := ⟨fun _ _ _ => TransGen.trans⟩
  have hirrefl : Std.Irrefl Below := ⟨fun x => hacyclic x.1 x.2⟩
  have hbelow : WellFounded Below := Finite.wellFounded_of_trans_of_irrefl Below
  have hacc (x : { b | ReflTransGen r b a }) : Acc r x.1 := by
    induction x using hbelow.induction with
    | _ x ih => exact ⟨_, fun b hb => ih ⟨b, .head hb x.2⟩ (.single hb)⟩
  exact hacc ⟨a, .refl⟩

namespace Value

variable {Γ : ValueScopes} {v w : Value}

/-- No value that is met on the way into this one is inside itself. -/
def Acyclic (Γ : ValueScopes) (v : Value) : Prop :=
  ∀ w, ReflTransGen (Inside Γ) w v → ¬TransGen (Inside Γ) w w

mutual

/-- A value and the items of the lists in it, to any depth. -/
def parts : Value → List Value
  | list items => list items :: partsAll items
  | v => [v]

def partsAll : List Value → List Value
  | [] => []
  | v :: vs => parts v ++ partsAll vs

end

theorem mem_parts_self (v : Value) : v ∈ parts v := by
  cases v <;> exact List.mem_cons_self ..

theorem mem_partsAll {vs : List Value} : w ∈ partsAll vs ↔ ∃ v ∈ vs, w ∈ parts v := by
  induction vs with
  | nil => simp [partsAll]
  | cons v vs ih => simp [partsAll, ih]

/-- The items of a list that is part of a value are parts of it too. -/
theorem mem_parts_of_mem {items : List Value} {v : Value} (h : list items ∈ parts v)
    (hw : w ∈ items) : w ∈ parts v := by
  match v with
  | list own =>
    rw [parts, List.mem_cons] at h ⊢
    rcases h with h | h
    · obtain rfl := list.inj h
      exact .inr (mem_partsAll.2 ⟨w, hw, mem_parts_self w⟩)
    · obtain ⟨u, hu, h⟩ := mem_partsAll.1 h
      exact .inr (mem_partsAll.2 ⟨u, hu, mem_parts_of_mem h hw⟩)
  | nil | boolean _ | integer _ | decimal _ | string _ | character _ | function _ | object _ _ =>
    simp [parts] at h
termination_by sizeOf v
decreasing_by
  have := List.sizeOf_lt_of_mem hu
  simp only [list.sizeOf_spec]
  omega

/-- The parts of a value and of all values that are bound somewhere. -/
def within (Γ : ValueScopes) (v : Value) : List Value :=
  parts v ++ (List.range Γ.size).flatMap fun a => partsAll ((Γ.own a).entries.map Prod.snd)

theorem mem_within : w ∈ within Γ v ↔
    w ∈ parts v ∨ ∃ a < Γ.size, ∃ e ∈ (Γ.own a).entries, w ∈ parts e.2 := by
  simp only [within, List.mem_append, List.mem_flatMap, List.mem_range, mem_partsAll, List.mem_map,
    exists_exists_and_eq_and]

theorem mem_within_of_inside {u : Value} (h : Inside Γ u w) (hw : w ∈ within Γ v) :
    u ∈ within Γ v := by
  rw [mem_within] at hw ⊢
  cases w with
  | list items =>
    rcases hw with hw | ⟨a, ha, e, he, hw⟩
    · exact .inl (mem_parts_of_mem hw h)
    · exact .inr ⟨a, ha, e, he, mem_parts_of_mem hw h⟩
  | object name a =>
    obtain ⟨member, hu⟩ := h
    have he : (member, u) ∈ (Γ.own a).entries := Bindings.find?_eq_some_iff.1 hu
    refine .inr ⟨a, ?_, (member, u), he, mem_parts_self u⟩
    by_contra ha
    rw [Forest.own_of_size_le (Nat.le_of_not_lt ha)] at he
    exact nomatch he
  | _ => exact h.elim

theorem mem_within_of_reach (h : ReflTransGen (Inside Γ) w v) : w ∈ within Γ v := by
  induction h using ReflTransGen.head_induction_on with
  | refl => exact mem_within.2 (.inl (mem_parts_self v))
  | head hu _ ih => exact mem_within_of_inside hu ih

theorem acc_of_acyclic (h : v.Acyclic Γ) : Acc (Inside Γ) v :=
  acc_of_finite ((within Γ v).finite_toSet.subset fun _ => mem_within_of_reach) h

theorem acyclic_of_acc (h : Acc (Inside Γ) v) : v.Acyclic Γ := by
  intro w hw
  have hacc : Acc (TransGen (Inside Γ)) w := by
    induction hw using ReflTransGen.head_induction_on with
    | refl => exact h.transGen
    | head hu _ ih => exact ih.inv (.single hu)
  induction hacc with
  | intro w _ ih => exact fun hcycle => ih w hcycle hw hcycle

end Value

end ObjectLang
