import ObjectLang.Proofs.Shift.Values
import ObjectLang.Proofs.Snapshot.Walks
import ObjectLang.Snapshot.Values

/-! Snapshots of values. They do not depend on the numbers that scopes have. -/

namespace ObjectLang.Value

open NumberingM

variable {N : Shift} {Γ Δ : ValueScopes} {v w : Value} {size depth : Nat}
  {first second : ScopeId → NumberingM (List (String × ValueSnapshot))}

mutual

theorem snapshotWith_agrees (h : OpensAlike size depth first second) (v : Value) :
    Agrees size (depth + 1) (snapshotWith first v) (snapshotWith second v) := by
  match v with
  | .nil | .boolean _ | .integer _ | .decimal _ | .string _ | .character _ | .function _ =>
    exact .pure _
  | .list items => exact (snapshotAllWith_agrees h items).bind fun _ => .pure _
  | .object name a =>
    rw [snapshotWith, snapshotWith]
    exact Agrees.meet h a (fun n members => ValueSnapshot.object n name members) ValueSnapshot.again

theorem snapshotAllWith_agrees (h : OpensAlike size depth first second) (vs : List Value) :
    Agrees size (depth + 1) (snapshotAllWith first vs) (snapshotAllWith second vs) := by
  match vs with
  | [] => exact .pure _
  | v :: vs =>
    exact (snapshotWith_agrees h v).bind fun _ => (snapshotAllWith_agrees h vs).bind fun _ => .pure _

end

/-- Scopes that a value of the second run has for those of the first. -/
def MovedObject (N : Shift) (a b : ScopeId) : Prop := N.base ≤ a ∧ b = N.move a

mutual

theorem walks_snapshotWith (hopen : OpensTo N.move (MovedObject N) first second) (v : Value)
    {w : Value} (h : Moved N v w) : Walks N.move (snapshotWith first v) (snapshotWith second w) := by
  match v, h with
  | .nil, .nil | .boolean _, .boolean _ | .integer _, .integer _ | .decimal _, .decimal _
  | .string _, .string _ | .character _, .character _ => exact .pure _
  | .list items, .list hitems =>
    exact (walks_snapshotAllWith hopen items hitems).bind fun _ => .pure _
  | .function _, .function hf =>
    simp only [snapshotWith, name_eq_of_moved hf]
    exact .pure _
  | .object name a, .object _ ha =>
    rw [snapshotWith, snapshotWith]
    exact Walks.meet N.move_injective (fun n => (hopen a _ ⟨ha, rfl⟩).2.bind fun _ => .pure _) _

theorem walks_snapshotAllWith (hopen : OpensTo N.move (MovedObject N) first second)
    (vs : List Value) {ws : List Value} (h : List.Forall₂ (Moved N) vs ws) :
    Walks N.move (snapshotAllWith first vs) (snapshotAllWith second ws) := by
  match vs, h with
  | [], .nil => exact .pure _
  | v :: vs, .cons h hs =>
    exact (walks_snapshotWith hopen v h).bind fun _ =>
      (walks_snapshotAllWith hopen vs hs).bind fun _ => .pure _

end

theorem openMembers_eq (Γ : ValueScopes) : openMembers Γ = opened Γ snapshotWith := by
  funext depth
  induction depth with
  | zero => rfl
  | succ depth ih =>
    funext a
    rw [openMembers, opened, ih]

/-- A value of the second run has the snapshot of the value in the first. -/
theorem fromStart_snapshot_moved (h : Γ.Moved N Δ) (hvw : Moved N v w) :
    fromStart (v.snapshot Γ) = fromStart (w.snapshot Δ) := by
  rw [snapshot, snapshot, openMembers_eq, openMembers_eq]
  refine fromStart_eq (walks_look (R := MovedObject N) snapshotWith_agrees
    (fun hopen v _ => walks_snapshotWith hopen v) (fun _ _ hab => hab.2) ?_ hvw)
  rintro a _ ⟨ha, rfl⟩
  exact h.new a ha

end ObjectLang.Value
