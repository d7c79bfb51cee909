import DeclForest.Proofs.Ownership

/-!
The views of a type's members. Each view lists the members of its kind in the order of the members,
in any forest; in a reachable one every member has a kind that some view lists, because nothing else
can be registered at a type, so that the views share the members out between them.
-/

namespace DeclForest

inductive View where
  | fields | methods | constructors | initializers | nestedClasses | nestedInterfaces
  deriving DecidableEq, Repr

def TypeKind.view : TypeKind → View
  | .classKind => .nestedClasses
  | .interfaceKind => .nestedInterfaces

def Content.view? : Content → Option View
  | .field _ => some .fields
  | .method _ => some .methods
  | .constructor _ => some .constructors
  | .initializer _ | .staticInitializer _ => some .initializers
  | .type t => some t.kind.view
  | .package _ | .typeImport _ | .staticImport .. => none

theorem TypeKind.view_inj {k l : TypeKind} : k.view = l.view ↔ k = l := by
  cases k <;> cases l <;> simp [view]

theorem TypeKind.view_eq_iff {k : TypeKind} {v : View} : k.view = v ↔
    k = .classKind ∧ v = .nestedClasses ∨ k = .interfaceKind ∧ v = .nestedInterfaces := by
  cases k <;> simp [view, eq_comm]

theorem Content.exists_view_of_mayStandIn {kind : TypeKind} {c : Content}
    (h : c.mayStandIn kind = true) : ∃ v, c.view? = some v := by
  cases c with
  | package _ | typeImport _ | staticImport _ _ => cases kind <;> simp [mayStandIn] at h
  | _ => exact ⟨_, rfl⟩

/-- No view of an interface lists what only a class may have. -/
theorem Content.view?_of_mayStandIn_interface {c : Content}
    (h : c.mayStandIn .interfaceKind = true) :
    c.view? ≠ some .constructors ∧ c.view? ≠ some .initializers := by
  cases c with
  | type t => simp [view?, TypeKind.view_eq_iff]
  | _ => simp_all [mayStandIn, view?]

namespace Forest

variable {f : Forest} {d ty : DeclId} {v : View}

def view (f : Forest) (ty : DeclId) : View → List DeclId
  | .fields => f.fields ty
  | .methods => f.methods ty
  | .constructors => f.constructors ty
  | .initializers => (f.initializers ty).map Prod.fst
  | .nestedClasses => f.nested ty .classKind
  | .nestedInterfaces => f.nested ty .interfaceKind

theorem view_eq_filterMap (f : Forest) (ty : DeclId) (v : View) :
    f.view ty v = (f.membersOf ty).filterMap fun m =>
      if m.2.view? = some v then some m.1 else none := by
  have hnested : ∀ kind, f.nested ty kind = (f.membersOf ty).filterMap fun m =>
      if m.2.view? = some kind.view then some m.1 else none := by
    intro kind
    refine List.filterMap_congr fun m _ => ?_
    obtain ⟨id, c⟩ := m
    cases c with
    | type t => simp [Content.view?, TypeKind.view_inj]
    | _ => cases kind <;> simp [Content.view?, TypeKind.view]
  cases v with
  | nestedClasses => exact hnested .classKind
  | nestedInterfaces => exact hnested .interfaceKind
  | initializers =>
    rw [view, initializers, List.map_filterMap]
    refine List.filterMap_congr fun m _ => ?_
    obtain ⟨id, c⟩ := m
    cases c <;> simp [Content.view?, TypeKind.view_eq_iff]
  | _ =>
    refine List.filterMap_congr fun m _ => ?_
    obtain ⟨id, c⟩ := m
    cases c <;> simp [Content.view?, TypeKind.view_eq_iff]

/-- A view is the part of the members that it is for, in their order. -/
theorem view_eq {definition : TypeDefinition} (ht : f.type? ty = some definition) (v : View) :
    f.view ty v =
      definition.members.filter fun d => (f.content? d).bind Content.view? = some v := by
  rw [view_eq_filterMap, membersOf, ht, List.filterMap_filterMap, ← List.filterMap_eq_filter]
  refine List.filterMap_congr fun d _ => ?_
  cases hd : f.get? d with
  | none => simp [content?, Option.guard, hd]
  | some x => by_cases hv : x.content.view? = some v <;> simp [content?, Option.guard, hd, hv]

theorem membersOf_of_none (ht : f.type? ty = none) : f.membersOf ty = [] := by
  rw [membersOf, ht]
  rfl

/-- Whether an initializer is static is told along with it. -/
theorem content?_of_mem_initializers {isStatic : Bool} (h : (d, isStatic) ∈ f.initializers ty) :
    ∃ body, f.content? d =
      some (if isStatic then .staticInitializer body else .initializer body) := by
  obtain ⟨⟨id, c⟩, hm, hc⟩ := List.mem_filterMap.mp h
  obtain ⟨id', -, hid⟩ := List.mem_filterMap.mp hm
  obtain ⟨x, hx, hxc⟩ := Option.map_eq_some_iff.mp hid
  obtain ⟨rfl, rfl⟩ := Prod.mk.inj hxc
  have hcontent := content?_of_get? hx
  cases hkind : x.content with
  | initializer body =>
    simp only [hkind, Option.some.injEq, Prod.mk.injEq] at hc
    obtain ⟨rfl, rfl⟩ := hc
    exact ⟨body, by rw [hcontent, hkind]; rfl⟩
  | staticInitializer body =>
    simp only [hkind, Option.some.injEq, Prod.mk.injEq] at hc
    obtain ⟨rfl, rfl⟩ := hc
    exact ⟨body, by rw [hcontent, hkind]; rfl⟩
  | _ => simp [hkind] at hc

/-- What each of six views selects from a list in which everything is in a view. -/
theorem length_filter_views {α : Type} {select : α → Option View} {as : List α}
    (h : ∀ a ∈ as, ∃ v, select a = some v) :
    (as.filter fun a => select a = some .fields).length +
      (as.filter fun a => select a = some .methods).length +
      (as.filter fun a => select a = some .constructors).length +
      (as.filter fun a => select a = some .initializers).length +
      (as.filter fun a => select a = some .nestedClasses).length +
      (as.filter fun a => select a = some .nestedInterfaces).length = as.length := by
  induction as with
  | nil => rfl
  | cons a as ih =>
    obtain ⟨v, hv⟩ := h a List.mem_cons_self
    have hrest := ih fun x hx => h x (List.mem_cons_of_mem a hx)
    cases v <;> simp only [List.filter_cons, hv, decide_true, decide_false, Option.some.injEq,
      reduceCtorEq, if_true, Bool.false_eq_true, if_false, List.length_cons] <;> omega

/-- The views of a type share its members out. -/
structure SharesOut (f : Forest) (ty : DeclId) (definition : TypeDefinition) : Prop where
  in_order : ∀ v, f.view ty v =
    definition.members.filter fun d => (f.content? d).bind Content.view? = some v
  initializer_static : ∀ d isStatic, (d, isStatic) ∈ f.initializers ty → ∃ body,
    f.content? d = some (if isStatic then .staticInitializer body else .initializer body)
  in_one : ∀ d ∈ definition.members, ∃ v, (f.view ty v).count d = 1 ∧
    ∀ w, w ≠ v → d ∉ f.view ty w
  lengths : (f.fields ty).length + (f.methods ty).length + (f.constructors ty).length +
    (f.initializers ty).length + (f.nested ty .classKind).length +
    (f.nested ty .interfaceKind).length = definition.members.length
  interface : definition.kind = .interfaceKind → f.constructors ty = [] ∧ f.initializers ty = []

namespace Invariant

variable {definition : TypeDefinition} (hf : f.Invariant) (ht : f.type? ty = some definition)

include hf ht

theorem exists_view (hd : d ∈ definition.members) :
    ∃ v, (f.content? d).bind Content.view? = some v := by
  obtain ⟨c, hc, hkind⟩ := hf.mayStandIn_of_mem ht hd
  obtain ⟨v, hv⟩ := Content.exists_view_of_mayStandIn hkind
  exact ⟨v, by rw [hc, Option.bind_some, hv]⟩

theorem members_nodup : definition.members.Nodup := by
  have hn := hf.nodup (.type ty)
  rwa [held_type_of_type? ht] at hn

theorem sharesOut : f.SharesOut ty definition := by
  have hview := view_eq ht
  refine ⟨hview, fun d isStatic => content?_of_mem_initializers, ?_, ?_, ?_⟩
  · intro d hd
    obtain ⟨v, hv⟩ := hf.exists_view ht hd
    refine ⟨v, List.count_eq_one_of_mem ?_ ?_, fun w hw hd' => hw ?_⟩
    · rw [hview]
      exact (hf.members_nodup ht).filter _
    · rw [hview]
      exact List.mem_filter.mpr ⟨hd, by simpa using hv⟩
    · rw [hview] at hd'
      have hw' := (List.mem_filter.mp hd').2
      rw [hv] at hw'
      exact (Option.some.inj (of_decide_eq_true hw')).symm
  · have hlengths := length_filter_views fun d hd => hf.exists_view ht hd
    simpa [← hview, view] using hlengths
  · intro hkind
    have hnone : ∀ v, v = .constructors ∨ v = .initializers → f.view ty v = [] := by
      intro v hv
      rw [hview]
      refine List.filter_eq_nil_iff.mpr fun d hd => ?_
      obtain ⟨c, hc, hstand⟩ := hf.mayStandIn_of_mem ht hd
      rw [hkind] at hstand
      obtain ⟨hconstructor, hinitializer⟩ := Content.view?_of_mayStandIn_interface hstand
      rcases hv with rfl | rfl <;> simpa [hc]
    exact ⟨hnone .constructors (.inl rfl), List.map_eq_nil_iff.mp (hnone .initializers (.inr rfl))⟩

end Invariant

/-- In every reachable forest no member of a type is left out of its views or listed twice, and what
is no type has nothing in any of them. -/
theorem reachable_sharesOut (h : f.Reachable) (ty : DeclId) :
    (∀ definition, f.type? ty = some definition → f.SharesOut ty definition) ∧
      (f.type? ty = none → f.fields ty = [] ∧ f.methods ty = [] ∧ f.constructors ty = [] ∧
        f.initializers ty = [] ∧ ∀ kind, f.nested ty kind = []) := by
  refine ⟨fun definition ht => (reachable_invariant h).sharesOut ht, fun ht => ?_⟩
  have hnone := membersOf_of_none ht
  simp [fields, methods, constructors, initializers, nested, hnone]

def memberRun : List Operation :=
  sampleRun ++ [.addNew ⟨3⟩ (.staticInitializer ["x = 1;"]),
    .addNew ⟨3⟩ (.type (.ofName .interfaceKind "I")), .addNew ⟨3⟩ (.package "c"),
    .addNew ⟨10⟩ (.constructor ⟨.empty, [], [], []⟩)]

def memberForest : Forest := (empty 0).after memberRun

theorem memberForest_sharesOut : memberForest.Reachable ∧
    (∃ definition, memberForest.type? ⟨3⟩ = some definition ∧
      memberForest.SharesOut ⟨3⟩ definition ∧
      definition.members = [⟨4⟩, ⟨5⟩, ⟨6⟩, ⟨9⟩, ⟨10⟩]) ∧
    memberForest.initializers ⟨3⟩ = [(⟨9⟩, true)] ∧
    memberForest.constructors ⟨10⟩ = [] ∧ memberForest.nested ⟨11⟩ .classKind = [] := by
  have hreach : memberForest.Reachable := ⟨0, memberRun, rfl⟩
  have hmembers : (memberForest.type? ⟨3⟩).map TypeDefinition.members =
      some [⟨4⟩, ⟨5⟩, ⟨6⟩, ⟨9⟩, ⟨10⟩] := by decide +kernel
  have hpackage : memberForest.type? ⟨11⟩ = none := by decide +kernel
  obtain ⟨definition, ht, hdefinition⟩ := Option.map_eq_some_iff.mp hmembers
  obtain ⟨-, -, -, -, hnested⟩ := (reachable_sharesOut hreach ⟨11⟩).2 hpackage
  exact ⟨hreach, ⟨definition, ht, (reachable_sharesOut hreach ⟨3⟩).1 definition ht, hdefinition⟩,
    by decide +kernel, by decide +kernel, hnested _⟩

end Forest

end DeclForest
