import ObjectLang.Proofs.Resolution.Nodes

/-!
Places in a program. A path leads from the whole program to one of its parts, and so it tells parts
apart that have the same text. Some blocks are around a place, each with the names that it has bound
so far: analysis finds a name in the nearest of them that has it.
-/

namespace ObjectLang

/-- A turn on the way into a program: to a part by its number, or to the body of a function by the
name of that. A list that is not empty has its first item and the rest of it as parts. -/
inductive Turn where
  | part (i : Nat)
  | fn (name : String)

/-- The way from a whole program to a place in it, the last turn first. -/
abbrev Path := List Turn

namespace Typed

/-- The blocks around a place, the innermost first: where each of them is, if it is in the program,
and the names that it has bound so far, with their types. -/
abbrev Blocks := List (Option Path × List (String × Ty))

namespace Blocks

variable {blocks : Blocks} {place : Option Path} {own added : List (String × Ty)} {name : String}
  {t : Ty}

/-- The types of the names that are in scope. -/
def env (blocks : Blocks) : Env := blocks.map Prod.snd

/-- Where the nearest block is that binds a name, and the type that the name has there. -/
def find (blocks : Blocks) (name : String) : Option (Option Path × Ty) :=
  blocks.findSome? fun b => (Bindings.findIn name b.2).map (Prod.mk b.1)

/-- Binds names in the innermost block. -/
def extend (blocks : Blocks) (added : List (String × Ty)) : Blocks :=
  match blocks with
  | [] => [(none, added)]
  | (place, own) :: outer => (place, own ++ added) :: outer

theorem env_extend : (blocks.extend added).env = blocks.env.extend added := by
  cases blocks <;> rfl

theorem find_cons : find ((place, own) :: blocks) name =
    ((Bindings.findIn name own).map (Prod.mk place)).or (blocks.find name) := by
  rw [find, List.findSome?_cons]
  cases Bindings.findIn name own <;> rfl

/-- What the innermost block does not bind is found further out. -/
theorem find_cons_of_not_mem (h : name ∉ own.map Prod.fst) :
    find ((place, own) :: blocks) name = blocks.find name := by
  rw [find_cons, Bindings.findIn_eq_none_iff.2 h]
  rfl

theorem find_singleton :
    find [(place, own)] name = (Bindings.findIn name own).map (Prod.mk place) := by
  rw [find_cons]
  exact Option.or_none

theorem lookup_env : blocks.env.lookup name = (blocks.find name).map Prod.snd := by
  induction blocks with
  | nil => rfl
  | cons b blocks ih =>
    obtain ⟨place, own⟩ := b
    rw [env, List.map_cons, Env.lookup_cons, find_cons]
    cases Bindings.findIn name own with
    | none => exact ih
    | some t => rfl

/-- A name that has a type has it in some block. -/
theorem exists_find (h : blocks.env.lookup name = some t) :
    ∃ place, blocks.find name = some (place, t) := by
  rw [lookup_env, Option.map_eq_some_iff] at h
  obtain ⟨⟨place, _⟩, h, rfl⟩ := h
  exact ⟨place, h⟩

theorem lookup_of_find (h : blocks.find name = some (place, t)) : blocks.env.lookup name = some t := by
  rw [lookup_env, h, Option.map_some]

/-- Names that are bound in the innermost block hide no others. -/
theorem find_extend (h : name ∉ added.map Prod.fst) :
    (blocks.extend added).find name = blocks.find name := by
  have hnone : Bindings.findIn name added = none := Bindings.findIn_eq_none_iff.2 h
  cases blocks with
  | nil => rw [extend, find_singleton, hnone]; rfl
  | cons b blocks =>
    obtain ⟨place, own⟩ := b
    rw [extend, find_cons, find_cons, Bindings.findIn_append, hnone, Option.or_none]

end Blocks

/-- A part of an analysed program with the blocks around it. -/
structure Site where
  blocks : Blocks
  node : Node

section Parts

variable (blocks : Blocks) (π : Path)

/-- The parts of an expression at a place. The fields of an object see nothing around it. -/
def Expr.parts : Expr Ty → List Site
  | .literal _ _ | .var _ _ => []
  | .group inner _ => [⟨blocks, .expr inner⟩]
  | .binary _ left right _ => [⟨blocks, .expr left⟩, ⟨blocks, .expr right⟩]
  | .property receiver _ _ => [⟨blocks, .expr receiver⟩]
  | .call _ args _ => [⟨blocks, .args args⟩]
  | .methodCall receiver _ args _ => [⟨blocks, .expr receiver⟩, ⟨blocks, .args args⟩]
  | .object _ fields _ _ => [⟨[(some π, [])], .fields fields⟩]

/-- The value of a variable or a field. -/
def LetDecl.parts : LetDecl Ty → List Site
  | .mk _ _ value => value.toList.map fun e => ⟨blocks, .expr e⟩

/-- The parts of a statement at a place. -/
def Stmt.parts : Stmt Ty → List Site
  | .letStmt d => d.parts blocks
  | .defStmt _ => []
  | .ifStmt condition thenBody elseBody =>
    [⟨blocks, .expr condition⟩, ⟨(some (.part 1 :: π), []) :: blocks, .block thenBody⟩,
      ⟨(some (.part 2 :: π), []) :: blocks, .block elseBody⟩]
  | .forStmt name type iterable body =>
    [⟨blocks, .expr iterable⟩, ⟨(some (.part 1 :: π), [(name, type)]) :: blocks, .block body⟩]
  | .returnStmt value => value.toList.map fun e => ⟨blocks, .expr e⟩
  | .exprStmt e => [⟨blocks, .expr e⟩]
  | .assignVar _ _ value => [⟨blocks, .expr value⟩]
  | .assignProperty receiver _ _ value => [⟨blocks, .expr receiver⟩, ⟨blocks, .expr value⟩]

/-- The parts of whatever is at a place. -/
def Node.parts : Node → List Site
  | .expr e => e.parts blocks π
  | .args [] | .fields [] | .block [] | .defDecl _ => []
  | .args (e :: es) => [⟨blocks, .expr e⟩, ⟨blocks, .args es⟩]
  | .letDecl d => d.parts blocks
  | .fields (d :: ds) => [⟨blocks, .letDecl d⟩, ⟨blocks.extend [d.binding], .fields ds⟩]
  | .stmt st => st.parts blocks π
  | .block (st :: sts) => [⟨blocks, .stmt st⟩, ⟨blocks.extend st.bindings, .block sts⟩]

/-- The body of a function, which is a block that starts with the parameters. -/
def DefDecl.body : DefDecl Ty → Site
  | .mk name params _ body => ⟨(some (.fn name :: π), params) :: blocks, .block body⟩

def DefDecl.name : DefDecl Ty → String
  | .mk name _ _ _ => name

variable (name : String)

/-- The body of the function that a statement defines, if it has the name. -/
def Stmt.body? : Stmt Ty → Option Site
  | .defStmt d => if d.name = name then some (d.body blocks π) else none
  | _ => none

theorem Stmt.mem_of_body? {blocks : Blocks} {π : Path} {name : String} {st : Stmt Ty} {x : Site}
    (h : st.body? blocks π name = some x) : name ∈ st.bindings.map Prod.fst := by
  cases st with
  | defStmt d =>
    rw [body?, Option.ite_none_right_eq_some] at h
    obtain ⟨name', params, returns, body⟩ := d
    exact List.mem_singleton.2 h.1.symm
  | _ => cases h

end Parts

/-- The body of the function of a name that a block at a place defines. -/
def blockBody? (π : Path) (name : String) : Blocks → List (Stmt Ty) → Option Site
  | _, [] => none
  | blocks, st :: sts =>
    (st.body? (blocks.extend st.bindings) π name).or (blockBody? π name (blocks.extend st.bindings) sts)

/-- Only the names that a block binds are those of functions in it. -/
theorem mem_of_blockBody? {π : Path} {name : String} {blocks : Blocks} {sts : List (Stmt Ty)} {x : Site}
    (h : blockBody? π name blocks sts = some x) : name ∈ (sts.flatMap Stmt.bindings).map Prod.fst := by
  induction sts generalizing blocks with
  | nil => cases h
  | cons st sts ih =>
    rw [List.flatMap_cons, List.map_append, List.mem_append]
    rw [blockBody?, Option.or_eq_some_iff] at h
    exact h.imp Stmt.mem_of_body? fun h => ih h.2

/-- A function that comes later in a block has a name of its own. -/
theorem blockBody?_cons {π : Path} {name : String} {blocks : Blocks} {st : Stmt Ty}
    {sts : List (Stmt Ty)} {x : Site}
    (hnodup : (((st :: sts).flatMap Stmt.bindings).map Prod.fst).Nodup)
    (h : blockBody? π name (blocks.extend st.bindings) sts = some x) :
    blockBody? π name blocks (st :: sts) = some x := by
  rw [List.flatMap_cons, List.map_append] at hnodup
  have hnone : st.body? (blocks.extend st.bindings) π name = none := by
    by_contra hsome
    obtain ⟨y, hy⟩ := Option.ne_none_iff_exists'.1 hsome
    exact (List.nodup_append.1 hnodup).2.2 name (Stmt.mem_of_body? hy) name (mem_of_blockBody? h) rfl
  rw [blockBody?, hnone, Option.none_or, h]

/-- The body of the method of a name. -/
def methodBody? (blocks : Blocks) (π : Path) (name : String) (methods : List (DefDecl Ty)) :
    Option Site :=
  (methods.find? fun d => d.name = name).map fun d => d.body blocks π

theorem methodBody?_of_mem {blocks : Blocks} {π : Path} {methods : List (DefDecl Ty)} {d : DefDecl Ty}
    (hnodup : (methods.map DefDecl.name).Nodup) (hd : d ∈ methods) :
    methodBody? blocks π d.name methods = some (d.body blocks π) := by
  induction methods with
  | nil => cases hd
  | cons d' methods ih =>
    obtain ⟨hnew, hnodup⟩ := List.nodup_cons.1 hnodup
    obtain rfl | hd := List.mem_cons.1 hd
    · rw [methodBody?, List.find?_cons_of_pos (by simp), Option.map_some]
    · have hne : d'.name ≠ d.name := fun heq => hnew (heq ▸ List.mem_map_of_mem hd)
      rw [methodBody?, List.find?_cons_of_neg (by simpa using hne)]
      exact ih hnodup hd

/-- The body of the function of a name that is defined at a place. The methods of an object see its
members. -/
def Node.body? (blocks : Blocks) (π : Path) (name : String) : Node → Option Site
  | .block sts => blockBody? π name blocks sts
  | .expr (.object _ fs methods type) =>
    methodBody? [(some π, members fs methods type)] π name methods
  | _ => none

/-- What one turn leads to from a place. -/
def Site.turn? (x : Site) (π : Path) : Turn → Option Site
  | .part i => (x.node.parts x.blocks π)[i]?
  | .fn name => x.node.body? x.blocks π name

/-- What a path leads to. -/
def Site.at? (x : Site) : Path → Option Site
  | [] => some x
  | turn :: π => (x.at? π).bind fun y => y.turn? π turn

/-- The statements of a program. An expression is the only one of its program. -/
def Program.block : Program Ty → List (Stmt Ty)
  | .source stmts => stmts
  | .stmt st => [st]
  | .expr e => [.exprStmt e]

/-- A whole program, which sees some names of outer scopes. -/
def Program.site (outer : Env) (tp : Program Ty) : Site :=
  ⟨(some [], []) :: outer.map (Prod.mk none), .block tp.block⟩

/-- What is at a place in a program that sees some names of outer scopes. -/
def Program.at? (outer : Env) (tp : Program Ty) : Path → Option Site := (tp.site outer).at?

end Typed

end ObjectLang
