import ObjectLang.Proofs.Scope.Image
import ObjectLang.Proofs.Trimming.Trees
import ObjectLang.Snapshot.Values
import ObjectLang.Values.Display
import ObjectLang.Values.Equality
import ObjectLang.Values.Inspect
import ObjectLang.Values.Order

/-!
Functions with trimmed bodies, wherever values hold them. Nothing that a program or its user can find
out about a value tells the difference, since functions go by their names.
-/

namespace ObjectLang

/-- A closure with a trimmed body. -/
def Closure.trim (c : Closure) : Closure := { c with body := trimBlock c.body }

def Callable.trim : Callable → Callable
  | .native f => .native f
  | .closure c => .closure c.trim
  | .named name => .named name

namespace Value

mutual

/-- A value with trimmed functions in it. Objects hold theirs in their scopes. -/
def trim : Value → Value
  | nil => nil
  | boolean b => boolean b
  | integer n => integer n
  | decimal d => decimal d
  | string s => string s
  | character c => character c
  | list items => list (trimAll items)
  | function f => function f.trim
  | object name members => object name members

def trimAll : List Value → List Value
  | [] => []
  | v :: vs => v.trim :: trimAll vs

end

theorem trimAll_eq_map (vs : List Value) : trimAll vs = vs.map trim := by
  induction vs with
  | nil => rfl
  | cons v vs ih => rw [trimAll, ih, List.map_cons]

theorem length_trimAll (vs : List Value) : (trimAll vs).length = vs.length := by
  rw [trimAll_eq_map, List.length_map]

end Value

/-- The scopes of a running program with trimmed functions in them. -/
abbrev Forest.trim (Γ : ValueScopes) : ValueScopes := Γ.map Value.trim

@[simp] theorem Callable.name_trim (f : Callable) : f.trim.name = f.name := by cases f <;> rfl

mutual

theorem Literal.trim_toValue (l : Literal) : l.toValue.trim = l.toValue := by
  match l with
  | .list items => simp only [Literal.toValue, Value.trim, Literal.trimAll_toValues items]
  | .function _ => rfl
  | .nil | .boolean _ | .integer _ | .decimal _ | .string _ | .character _ => rfl

theorem Literal.trimAll_toValues (ls : List Literal) :
    Value.trimAll (Literal.toValues ls) = Literal.toValues ls := by
  match ls with
  | [] => rfl
  | l :: ls => simp only [Literal.toValues, Value.trimAll, l.trim_toValue, Literal.trimAll_toValues ls]

end

namespace Value

variable (Γ : ValueScopes)

@[simp] theorem kind_trim (v : Value) : v.trim.kind = v.kind := by cases v <;> rfl

theorem less?_trim (v w : Value) : v.trim.less? w.trim = v.less? w := by
  cases v <;> cases w <;> rfl

theorem lessEq?_trim (v w : Value) : v.trim.lessEq? w.trim = v.lessEq? w := by
  cases v <;> cases w <;> rfl

section Display

mutual

theorem displayWith_trim (showObject : Option String → ScopeId → Option String) (v : Value) :
    displayWith showObject v.trim = displayWith showObject v := by
  match v with
  | list items => simp only [trim, displayWith, displayAllWith_trim showObject items]
  | function f => simp only [trim, displayWith, Callable.name_trim]
  | nil | boolean _ | integer _ | decimal _ | string _ | character _ | object .. => rfl

theorem displayAllWith_trim (showObject : Option String → ScopeId → Option String)
    (vs : List Value) : displayAllWith showObject (trimAll vs) = displayAllWith showObject vs := by
  match vs with
  | [] => rfl
  | v :: vs =>
    simp only [trimAll, displayAllWith, displayWith_trim showObject v,
      displayAllWith_trim showObject vs]

end

theorem displayObject_trim (depth : Nat) : displayObject Γ.trim depth = displayObject Γ depth := by
  funext name members
  induction depth generalizing name members with
  | zero => rfl
  | succ depth ih =>
    have ih : displayObject Γ.trim depth = displayObject Γ depth := by
      funext name members
      exact ih name members
    simp only [displayObject, Forest.own_map, Bindings.map, List.mapM_map, Function.comp_def, ih,
      displayWith_trim]

theorem display?_trim (v : Value) : display? Γ.trim v.trim = display? Γ v := by
  simp only [display?, Forest.size_map, displayObject_trim, displayWith_trim]

end Display

section Equality

mutual

theorem equalWith_trim (objects : ScopeId → ScopeId → Option Bool) (v w : Value) :
    equalWith objects v.trim w.trim = equalWith objects v w := by
  cases v with
  | list vs =>
    cases w with
    | list ws =>
      simp only [trim, equalWith, equalAllWith_trim objects vs ws, length_trimAll]
    | _ => rfl
  | function f =>
    cases w with
    | function g => simp only [trim, equalWith, agree, Callable.name_trim]
    | _ => rfl
  | _ => cases w <;> rfl

theorem equalAllWith_trim (objects : ScopeId → ScopeId → Option Bool) (vs ws : List Value) :
    equalAllWith objects (trimAll vs) (trimAll ws) = equalAllWith objects vs ws := by
  match vs, ws with
  | v :: vs, w :: ws =>
    rw [trimAll, trimAll, equalAllWith_cons, equalAllWith_cons, equalWith_trim objects v w,
      equalAllWith_trim objects vs ws]
  | [], _ | _ :: _, [] => rfl

end

theorem equalEntries_trim (equal : Value → Value → Option Bool)
    (hequal : ∀ v w, equal v.trim w.trim = equal v w) (other : Bindings Value)
    (es : List (String × Value)) :
    equalEntries equal (other.map trim) (es.map fun e => (e.1, e.2.trim)) =
      equalEntries equal other es := by
  induction es with
  | nil => rfl
  | cons e es ih =>
    simp only [List.map_cons, equalEntries, Bindings.find?_map]
    cases other.find? e.1 with
    | none => rfl
    | some v => simp only [Option.map_some, hequal, ih]

theorem equalMembers_trim (depth : Nat) : equalMembers Γ.trim depth = equalMembers Γ depth := by
  induction depth with
  | zero => rfl
  | succ depth ih =>
    funext a b
    have hentries := equalEntries_trim (equalWith (equalMembers Γ depth)) (equalWith_trim _)
      (Γ.own b) (Γ.own a).entries
    simp only [equalMembers, Forest.own_map, Bindings.size_map, ih, equalOrAlike_eq]
    rw [← hentries]
    rfl

theorem equal?_trim (v w : Value) : v.trim.equal? Γ.trim w.trim = v.equal? Γ w := by
  simp only [equal?, Forest.size_map, equalMembers_trim, equalWith_trim]

end Equality

mutual

theorem inspect_trim (v : Value) : v.trim.inspect Γ.trim = v.inspect Γ := by
  match v with
  | list items => simp only [trim, inspect, inspectAll_trim items]
  | function f => simp only [trim, inspect, Callable.name_trim]
  | object name members => simp only [trim, inspect, Forest.describe, Forest.names_map]
  | nil | boolean _ | integer _ | decimal _ | string _ | character _ => simp only [trim, inspect]

theorem inspectAll_trim (vs : List Value) : inspectAll Γ.trim (trimAll vs) = inspectAll Γ vs := by
  match vs with
  | [] => rfl
  | v :: vs => simp only [trimAll, inspectAll, inspect_trim v, inspectAll_trim vs]

end

section Snapshots

mutual

theorem snapshotWith_trim
    (openMembers : ScopeId → NumberingM (List (String × ValueSnapshot))) (v : Value) :
    v.trim.snapshotWith openMembers = v.snapshotWith openMembers := by
  match v with
  | list items => simp only [trim, snapshotWith, snapshotAllWith_trim openMembers items]
  | function f => simp only [trim, snapshotWith, Callable.name_trim]
  | nil | boolean _ | integer _ | decimal _ | string _ | character _ | object .. => rfl

theorem snapshotAllWith_trim
    (openMembers : ScopeId → NumberingM (List (String × ValueSnapshot))) (vs : List Value) :
    snapshotAllWith openMembers (trimAll vs) = snapshotAllWith openMembers vs := by
  match vs with
  | [] => rfl
  | v :: vs =>
    simp only [trimAll, snapshotAllWith, snapshotWith_trim openMembers v,
      snapshotAllWith_trim openMembers vs]

end

theorem openMembers_trim (depth : Nat) : openMembers Γ.trim depth = openMembers Γ depth := by
  induction depth with
  | zero => rfl
  | succ depth ih =>
    funext members
    simp only [openMembers, Forest.own_map, Bindings.map, List.mapM_map, Function.comp_def, ih,
      snapshotWith_trim]

theorem snapshot_trim (v : Value) : v.trim.snapshot Γ.trim = v.snapshot Γ := by
  simp only [snapshot, Forest.size_map, openMembers_trim, snapshotWith_trim]

end Snapshots

end Value

end ObjectLang
