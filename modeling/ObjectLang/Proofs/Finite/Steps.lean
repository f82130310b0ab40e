import ObjectLang.Proofs.Finite.Whole
import ObjectLang.Proofs.Resolution.Trace

/-!
Runs without assignments. Only new names are bound, in the scope of the run itself and in scopes that
it opens, and what they are bound to is whole. An object is complete when its methods are defined, and
until then no value holds it. So at every moment of the run all values there are come to an end.
-/

namespace ObjectLang.Evaluation

open Forest

section Prefixes

variable {α : Type} {l l₁ l₂ : List α} {a : α}

theorem prefix_singleton_cases (h : l <+: [a]) : l = [] ∨ l = [a] := by
  obtain h | ⟨rest, h, hrest⟩ := List.prefix_cons_iff.1 h
  · exact Or.inl h
  · rw [List.prefix_nil.1 hrest] at h
    exact Or.inr h

theorem prefix_append_cases (h : l <+: l₁ ++ l₂) : l <+: l₁ ∨ ∃ rest, l = l₁ ++ rest ∧ rest <+: l₂ := by
  obtain ⟨later, hlater⟩ := h
  obtain ⟨rest, hl₁, -⟩ | ⟨rest, hl, hl₂⟩ := List.append_eq_append_iff.1 hlater
  · exact Or.inl ⟨rest, hl₁.symm⟩
  · exact Or.inr ⟨rest, hl, later, hl₂.symm⟩

end Prefixes

/-- The machine that a run is in after a moment. -/
def Moment.next (m : Machine) (k : Moment) : Machine := k.machine?.getD m

/-- The machine that a run is in after several moments. -/
def after (m : Machine) (ks : List Moment) : Machine := ks.foldl Moment.next m

/-- A run may go on with a value after several moments: it was whole at the start, or an expression has
got it since. -/
def Held (live : List ScopeId) (m : Machine) (ks : List Moment) (v : Value) : Prop :=
  v.Whole live m.scopes ∨ ∃ s path e, .valued s path e v ∈ ks

/-- From one machine to another, all values that are bound to names at a moment are whole, and so are
those that the run may go on with. -/
structure Passes (live : List ScopeId) (m : Machine) (ks : List Moment) (m' : Machine) : Prop where
  after_eq : after m ks = m'
  bound : ∀ before, before <+: ks → ∀ t name v,
    (after m before).scopes.lookupOwn t name = some v → v.Whole [] (after m before).scopes
  held : ∀ before, before <+: ks → ∀ v, Held live m before v → v.Whole [] (after m before).scopes
  ends : ∀ v, Held live m ks v → v.Whole live m'.scopes

/-- The second run goes on with whatever the first one leaves, possibly with a new scope at work. -/
theorem Passes.append {live live' : List ScopeId} {m m' m'' : Machine} {ks ks' : List Moment}
    (h : Passes live m ks m') (h' : Passes live' m' ks' m'')
    (hstart : ∀ v, Held live m ks v → v.Whole live' m'.scopes)
    (hend : ∀ v : Value, v.Whole live' m''.scopes → v.Whole live m''.scopes) :
    Passes live m (ks ++ ks') m'' := by
  have hafter (later : List Moment) : after m (ks ++ later) = after m' later := by
    rw [← h.after_eq]
    exact List.foldl_append
  have hheld {later : List Moment} {v : Value} (hv : Held live m (ks ++ later) v) :
      Held live' m' later v := by
    obtain hv | ⟨s, path, e, he⟩ := hv
    · exact Or.inl (hstart v (Or.inl hv))
    · obtain he | he := List.mem_append.1 he
      · exact Or.inl (hstart v (Or.inr ⟨s, path, e, he⟩))
      · exact Or.inr ⟨s, path, e, he⟩
  refine ⟨by rw [hafter, h'.after_eq], fun before hb => ?_, fun before hb v hv => ?_,
    fun v hv => hend v (h'.ends v (hheld hv))⟩
  · obtain hb | ⟨later, rfl, hlater⟩ := prefix_append_cases hb
    · exact h.bound before hb
    · rw [hafter]
      exact h'.bound later hlater
  · obtain hb | ⟨later, rfl, hlater⟩ := prefix_append_cases hb
    · exact h.held before hb v hv
    · rw [hafter]
      exact h'.held later hlater v (hheld hv)

variable {α β : Type} {live : List ScopeId} {s t : ScopeId} {m m' : Machine}
  {P Q : α → Machine → Prop} {R : β → Machine → Prop} {w : Watched α} {g : α → Watched β}
  {x : EvalM α} {v : Value} {own : Bindings Value}

/-- A run from a machine on binds names in `s` and in new scopes only, and all values are whole all
the time. If it ends with a result, then with one in `Q`. -/
structure Builds (live : List ScopeId) (s : ScopeId) (Q : α → Machine → Prop) (w : Watched α)
    (m : Machine) : Prop where
  passes : Passes live m (w.moments m) (finalState (w.run m))
  adds : ∃ added, AddsEntries s added m.scopes (finalState (w.run m)).scopes
  working : Working live s (finalState (w.run m)).scopes
  ends : Ends Q (· ≠ .endless) (w.run m)

/-- The result is a value that is whole. -/
def Gives (live : List ScopeId) (v : Value) (m : Machine) : Prop := v.Whole live m.scopes

/-- The results are values that are whole. -/
def GivesAll (live : List ScopeId) (vs : List Value) (m : Machine) : Prop :=
  ∀ v ∈ vs, v.Whole live m.scopes

/-- The statement ends with a value that is whole, in whichever way. -/
def Completes (live : List ScopeId) (c : Completion) (m : Machine) : Prop :=
  c.value.Whole live m.scopes

section Rules

theorem Builds.imp (h : Builds live s P w m) (hPQ : ∀ a m', P a m' → Q a m') :
    Builds live s Q w m :=
  ⟨h.passes, h.adds, h.working, h.ends.mono fun a m' _ => hPQ a m'⟩

variable (hm : Working live s m.scopes)
include hm

theorem passes_nil : Passes live m [] m := by
  have hheld (v : Value) (hv : Held live m [] v) : v.Whole live m.scopes := by
    obtain hv | ⟨_, _, _, he⟩ := hv
    · exact hv
    · cases he
  refine ⟨rfl, fun before hb => ?_, fun before hb v hv => ?_, hheld⟩
  all_goals obtain rfl := List.prefix_nil.1 hb
  · exact fun t name v hv => (hm.whole t name v hv).ever
  · exact (hheld v hv).ever

/-- A machine is got to in which all values are whole, and so is the value that an expression gets. -/
theorem passes_one {k : Moment} (hk : Working live s (k.next m).scopes)
    (hkeep : ∀ v : Value, v.Whole live m.scopes → v.Whole live (k.next m).scopes)
    (hv : ∀ t path e v, k = .valued t path e v → v.Whole live (k.next m).scopes) :
    Passes live m [k] (k.next m) := by
  have hheld (v : Value) (h : Held live m [k] v) : v.Whole live (k.next m).scopes := by
    obtain h | ⟨t, path, e, he⟩ := h
    · exact hkeep v h
    · exact hv t path e v (List.mem_singleton.1 he).symm
  have hnil := passes_nil hm
  refine ⟨rfl, fun before hb => ?_, fun before hb => ?_, hheld⟩
  all_goals obtain rfl | rfl := prefix_singleton_cases hb
  · exact hnil.bound [] List.prefix_rfl
  · exact fun t name v hv => (hk.whole t name v hv).ever
  · exact hnil.held [] List.prefix_rfl
  · exact fun v h => (hheld v h).ever

theorem builds_step (hadds : ∃ added, AddsEntries s added m.scopes (finalState (x m)).scopes)
    (hworking : Working live s (finalState (x m)).scopes) (h : Ends Q (· ≠ .endless) (x m)) :
    Builds live s Q (step x) m := by
  refine ⟨passes_one hm hworking (fun v hv => ?_) nofun, hadds, hworking, h⟩
  obtain ⟨_, hadds⟩ := hadds
  exact hv.grow hm.mem hadds

theorem builds_pure {a : α} (ha : Q a m) : Builds live s Q (pure a : Watched α) m :=
  ⟨passes_nil hm, ⟨[], (Kept.refl _ _).adds s⟩, hm, ha⟩

/-- What is whole stays whole while the first part is run. -/
theorem Builds.bind (hw : Builds live s P w m)
    (hg : ∀ a m', (∀ v : Value, v.Whole live m.scopes → v.Whole live m'.scopes) →
      Working live s m'.scopes → P a m' → Builds live s R (g a) m') :
    Builds live s R (w >>= g) m := by
  obtain ⟨hpasses, ⟨added, hadds⟩, hworking, hends⟩ := hw
  cases hr : w.run m with
  | error e m' =>
    rw [hr] at hpasses hadds hworking hends
    have hrun : (w >>= g).run m = .error e m' := by rw [run_bind, bind_apply, hr]
    have hmoments : (w >>= g).moments m = w.moments m ++ [] := by
      show w.moments m ++ _ = _
      rw [hr]
    rw [List.append_nil] at hmoments
    exact ⟨by rwa [hmoments, hrun], ⟨added, by rwa [hrun]⟩, by rwa [hrun], by rwa [hrun]⟩
  | ok a m' =>
    rw [hr] at hpasses hadds hworking hends
    obtain ⟨hpasses', ⟨added', hadds'⟩, hworking', hends'⟩ :=
      hg a m' (fun v hv => hv.grow hm.mem hadds) hworking hends
    have hrun : (w >>= g).run m = (g a).run m' := by rw [run_bind, bind_apply, hr]
    have hmoments : (w >>= g).moments m = w.moments m ++ (g a).moments m' := by
      show w.moments m ++ _ = _
      rw [hr]
    rw [← hrun] at hpasses' hadds' hworking' hends'
    exact ⟨hmoments ▸ hpasses.append hpasses' hpasses.ends fun _ => id, ⟨_, hadds.trans hadds'⟩,
      hworking', hends'⟩

/-- A step that leaves the scopes alone and can only fail with an error. -/
theorem builds_still (hx : Keeps SameScopes x) (h : Ends Q Fault.IsError (x m)) :
    Builds live s Q (step x) m := by
  have hscopes : (finalState (x m)).scopes = m.scopes := hx m
  refine builds_step hm ⟨[], ?_⟩ (by rwa [hscopes]) (h.tolerate fun e => Fault.IsError.ne_endless)
  rw [hscopes]
  exact (Kept.refl _ _).adds s

theorem builds_fail (e : EvalError) : Builds live s Q (step (fail e : EvalM α)) m :=
  builds_still hm (keeps_fail e) trivial

/-- A moment at which nothing happens to the scopes. -/
theorem builds_mark {moment : Machine → Moment} (hnext : (moment m).next m = m)
    (hv : ∀ t path e v, moment m = .valued t path e v → v.Whole live m.scopes) :
    Builds live s (fun _ _ => True) (mark moment) m := by
  refine ⟨?_, ⟨[], (Kept.refl _ _).adds s⟩, hm, trivial⟩
  have h : Passes live m [moment m] ((moment m).next m) := by
    apply passes_one hm
    all_goals rw [hnext]
    · exact hm
    · exact fun _ => id
    · exact hv
  rwa [hnext] at h

theorem builds_opened (t outer : ScopeId) (path : Path) (declared : List String) :
    Builds live s (fun _ _ => True) (mark fun _ => .opened t outer path declared) m :=
  builds_mark hm rfl nofun

theorem builds_made (c : Closure) : Builds live s (fun _ _ => True) (mark (.made c)) m :=
  builds_mark hm rfl nofun

theorem builds_called (c : Closure) : Builds live s (fun _ _ => True) (mark (.called c)) m :=
  builds_mark hm rfl nofun

theorem builds_method (members : ScopeId) (name : String) (v : Value) :
    Builds live s (fun _ _ => True) (mark (.method members name v)) m :=
  builds_mark hm rfl nofun

/-- An expression gets a value that is whole. -/
theorem builds_noting (t : ScopeId) (path : Path) (e : Expr) {w : Watched Value}
    (hw : Builds live s (Gives live) w m) : Builds live s (Gives live) (noting t path e w) m := by
  refine hw.bind hm fun v m' _ hm' hv => ?_
  have hmark : Builds live s (fun _ _ => True) (mark fun _ => .valued t path e v) m' := by
    refine builds_mark hm' rfl ?_
    rintro _ _ _ _ ⟨⟩
    exact hv
  exact hmark.bind hm' fun _ _ hkeep hm _ => builds_pure hm (hkeep v hv)

theorem builds_define (hv : v.Whole live m.scopes) (name : String) :
    Builds live s (fun _ m' => v.Whole live m'.scopes) (step (define s name v)) m := by
  by_cases hown : m.scopes.containsOwn s name = true
  · apply builds_step hm
    all_goals rw [define_apply, if_pos hown]
    · exact ⟨[], (Kept.refl _ _).adds s⟩
    · exact hm
    · exact nofun
  · have hn : name ∉ m.scopes.names s := fun hn => hown (containsOwn_iff.2 hn)
    have hadds := addsEntries_insert v hn
    apply builds_step hm
    all_goals rw [define_apply, if_neg hown]
    · exact ⟨_, hadds⟩
    · exact hm.define hv hn
    · exact hv.grow hm.mem hadds

/-- What is done in a new scope. -/
theorem builds_enter {x : EvalM ScopeId} {k : ScopeId → Watched β} (hx : x m = .ok m.scopes.size m')
    (hkept : BindingsKept m.scopes m'.scopes)
    (hm' : Working (m.scopes.size :: live) m.scopes.size m'.scopes)
    (hk : Builds (m.scopes.size :: live) m.scopes.size R (k m.scopes.size) m') :
    Builds live s R (step x >>= k) m := by
  obtain ⟨hpasses, ⟨added, hadds⟩, hworking, hends⟩ := hk
  have hrun : (step x >>= k).run m = (k m.scopes.size).run m' := by
    rw [run_bind, bind_apply, run_step, hx]
  have hmoments : (step x >>= k).moments m = .reached m' :: (k m.scopes.size).moments m' := by
    show (step x).moments m ++ _ = _
    rw [run_step, hx]
    show Moment.reached (finalState (x m)) :: _ = _
    rw [hx]
    rfl
  have henter (v : Value) (hv : v.Whole live m.scopes) :
      v.Whole (m.scopes.size :: live) m'.scopes := hv.enter hkept
  have hreached : Passes live m [.reached m'] m' :=
    passes_one hm (hm'.leave hm.mem) (fun v hv => (henter v hv).leave) nofun
  have hstart (v : Value) (hv : Held live m [.reached m'] v) :
      v.Whole (m.scopes.size :: live) m'.scopes := by
    obtain hv | ⟨_, _, _, he⟩ := hv
    · exact henter v hv
    · cases List.mem_singleton.1 he
  rw [← hrun] at hpasses hadds hworking hends
  refine ⟨?_, ⟨[], (hkept.trans_adds_new (Nat.le_refl _) hadds).adds s⟩, hworking.leave hm.mem, hends⟩
  rw [hmoments]
  exact hreached.append hpasses hstart fun v hv => hv.leave

/-- What is done in a new scope whose values are whole. -/
theorem builds_openChild (t : ScopeId) (hown : ∀ e ∈ own.entries, e.2.Whole live m.scopes)
    {k : ScopeId → Watched β}
    (hk : ∀ inner m', Working (inner :: live) inner m'.scopes →
      (∀ v : Value, v.Whole live m.scopes → v.Whole (inner :: live) m'.scopes) →
      Builds (inner :: live) inner R (k inner) m') :
    Builds live s R (step (openChild t own) >>= k) m := by
  have hm' := hm.addChild hown t
  have hkept : BindingsKept m.scopes (m.scopes.addChild t own) := kept_addChild
  exact builds_enter hm openChild_apply hkept hm' (hk _ _ hm' fun v hv => hv.enter hkept)

/-- What is done in the scope of the members of a new object. -/
theorem builds_openRoot {k : ScopeId → Watched β}
    (hk : ∀ members m', members ∉ live → Working (members :: live) members m'.scopes →
      Builds (members :: live) members R (k members) m') :
    Builds live s R (step openRoot >>= k) m := by
  have hm' := hm.addRoot
  exact builds_enter hm openRoot_apply kept_addRoot hm'
    (hk _ _ (fun hmem => Nat.lt_irrefl _ (hm.lt _ hmem)) hm')

end Rules

section Checks

theorem ends_display (h : v.Whole live m.scopes) :
    Ends (fun _ _ => True) Fault.IsError (display v m) := by
  obtain ⟨text, htext⟩ := Option.isSome_iff_exists.1 (Value.display_isSome h.acc)
  rw [display_apply, htext]
  trivial

theorem ends_equal (h : v.Whole live m.scopes) (u : Value) :
    Ends (fun _ _ => True) Fault.IsError (equal v u m) := by
  obtain ⟨answer, hanswer⟩ := Option.isSome_iff_exists.1 (Value.equal_isSome h.acc u)
  rw [equal_apply, hanswer]
  trivial

theorem ends_requireFresh (s : ScopeId) (name : String) :
    Ends (fun _ _ => True) Fault.IsError (requireFresh s name m) := by
  rw [requireFresh_apply]
  split
  · exact trivial
  · trivial

theorem ends_requireObject (v : Value) :
    Ends (fun members _ => ∃ name, v = .object name members) Fault.IsError
      (requireObject v m) := by
  cases v with
  | object name members => exact ⟨name, rfl⟩
  | _ => exact trivial

theorem ends_requireFunction (name : String) (v : Value) :
    Ends (fun f _ => v = .function f) Fault.IsError (requireFunction name v m) := by
  cases v with
  | function f => exact rfl
  | _ => exact trivial

theorem ends_requireList (v : Value) :
    Ends (fun items _ => v = .list items) Fault.IsError (requireList v m) := by
  cases v with
  | list items => exact rfl
  | _ => exact trivial

theorem ends_requireCondition (v : Value) :
    Ends (fun _ _ => True) Fault.IsError (requireCondition v m) := by
  cases v with
  | boolean b => trivial
  | _ => exact trivial

theorem ends_requireOperand (op : Operator) (v : Value) :
    Ends (fun _ _ => True) Fault.IsError (requireOperand op v m) := by
  cases v with
  | boolean b => trivial
  | _ => exact trivial

/-- What a name is bound to is whole. -/
theorem gives_lookup (hm : Working live s m.scopes) (t : ScopeId) (name : String) :
    Ends (fun found m => ∀ v, found = some v → v.Whole live m.scopes) Fault.IsError
      (lookup t name m) := fun _ hv => hm.lookup hv

/-- A member of an object that is whole is whole. -/
theorem gives_member {object : Option String} {members : ScopeId}
    (h : (Value.object object members).Whole live m.scopes) (name : String) :
    Ends (Gives live) Fault.IsError (member members name m) := by
  rw [member_apply]
  split
  · next v hv => exact h.inside ⟨name, hv⟩
  · exact trivial

end Checks

section Operators

theorem gives_flat (h : v.Flat) : Gives live v m := Value.whole_of_flat h

theorem ends_arithmetic (op : Operator) (integers : Int → Int → Int)
    (decimals : Decimal → Decimal → Decimal) (a b : Value) :
    Ends (Gives live) Fault.IsError (arithmetic op integers decimals a b m) := by
  unfold arithmetic
  cases hv : a.numeric? integers decimals b with
  | none => exact trivial
  | some v =>
    refine gives_flat ?_
    unfold Value.numeric? at hv
    split at hv
    · cases hv
      trivial
    · cases hv
      trivial
    · cases hv

theorem ends_plus {a b : Value} (ha : a.Whole live m.scopes) (hb : b.Whole live m.scopes) :
    Ends (Gives live) Fault.IsError (plus a b m) := by
  unfold plus
  split
  · exact (ends_display hb).bind fun _ _ _ _ => gives_flat trivial
  · exact (ends_display ha).bind fun _ _ _ _ => gives_flat trivial
  · exact ends_arithmetic ..

theorem ends_divide (a b : Value) : Ends (Gives live) Fault.IsError (divide a b m) := by
  unfold divide
  split
  · split
    · exact trivial
    · exact gives_flat trivial
  · split
    · exact trivial
    · exact gives_flat trivial
  · exact trivial

theorem ends_ordering (op : Operator) (answer : Option Bool) (a b : Value) :
    Ends (Gives live) Fault.IsError (ordering op answer a b m) := by
  cases answer with
  | none => exact trivial
  | some answer => exact gives_flat trivial

end Operators

section Natives

variable {args : List Value}

theorem ends_unary (f : Native) {run : Value → EvalM Value}
    (hrun : ∀ v ∈ args, Ends (Gives live) Fault.IsError (run v m)) :
    Ends (Gives live) Fault.IsError (f.unary run args m) := by
  unfold Native.unary
  split
  · exact hrun _ (List.mem_singleton_self _)
  · exact trivial

theorem ends_binaryNative (f : Native) {run : Value → Value → EvalM Value}
    (hrun : ∀ v ∈ args, ∀ u ∈ args, Ends (Gives live) Fault.IsError (run v u m)) :
    Ends (Gives live) Fault.IsError (f.binary run args m) := by
  unfold Native.binary
  split
  · exact hrun _ (List.mem_cons_self ..) _ (List.mem_cons_of_mem _ (List.mem_singleton_self _))
  · exact trivial

theorem ends_rangeBound (v : Value) :
    Ends (fun _ _ => True) Fault.IsError (Native.rangeBound v m) := by
  cases v with
  | integer n => trivial
  | _ => exact trivial

/-- Native functions make nothing of their arguments but lists. -/
theorem ends_native (f : Native) (hargs : ∀ v ∈ args, v.Whole live m.scopes) :
    Ends (Gives live) Fault.IsError (f.call args m) := by
  cases f with
  | debug => exact ends_unary _ fun v _ => gives_flat trivial
  | print =>
    exact ends_unary _ fun v hv => (ends_display (hargs v hv)).bind fun _ _ _ _ => gives_flat trivial
  | log =>
    refine ends_unary _ fun v hv => ?_
    refine (ends_display (hargs v hv)).bind fun _ m' hdisplay _ => ?_
    have hsame : m = m' := (keeps_display (R := (· = ·)) v).of_ok hdisplay
    subst hsame
    exact hargs v hv
  | list | function => exact Value.whole_list hargs
  | method => exact Value.whole_list fun v hv => hargs v (List.mem_of_mem_tail hv)
  | range =>
    refine ends_binaryNative _ fun v _ u _ => ?_
    refine (ends_rangeBound v).bind fun _ m₁ _ _ => (ends_rangeBound u).bind fun _ m₂ _ _ => ?_
    refine Value.whole_list fun w hw => ?_
    obtain ⟨k, -, rfl⟩ := List.mem_map.1 hw
    exact Value.whole_of_flat trivial
  | functionAny | functionString => exact ends_unary _ fun v hv => hargs v hv
  | methodAny | methodString => exact ends_binaryNative _ fun _ _ u hu => hargs u hu

end Natives

end ObjectLang.Evaluation
