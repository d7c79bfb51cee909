import DeclForest.Proofs.Outcome

/-!
The effect of a change on one declaration. `Turned` says all that an elementary change may make of
the declaration with a given number, so that a property of single declarations is proved to last by
cases on what may happen to one of them, and no change is unfolded again.
-/

namespace DeclForest.Forest

/-- What a change of `f` may leave at the number `d`; `P` holds of what is declared. -/
inductive Turned (P : Content → Prop) (f : Forest) (d : DeclId) : Declaration → Prop where
  | untouched {x : Declaration} : f.get? d = some x → Turned P f d x
  | declared {c : Content} : f.get? d = none → P c → Turned P f d ⟨c.fresh, none, .none⟩
  | registered {x : Declaration} {o : Owner} {kind : OwnerKind} : f.Admissible d o x kind →
      Turned P f d { x with owner := some o }
  | drivenOut {x : Declaration} {name : String} : f.get? d = some x → x.content = .package name →
      Turned P f d { x with owner := none }
  | gained {t : TypeDefinition} {o : Option Owner} {k : Comments} {id : DeclId} :
      f.get? d = some ⟨.type t, o, k⟩ →
      Turned P f d ⟨.type { t with members := t.members ++ [id] }, o, k⟩
  | modified {x : Declaration} {m : Modifiers} : f.get? d = some x →
      f.checkModifiers d m = .ok () →
      Turned P f d { x with content := x.content.setModifiers m }
  | extended {t t' : TypeDefinition} {o : Option Owner} {k : Comments} {super : Descriptor} :
      f.get? d = some ⟨.type t, o, k⟩ → t.extending super = .ok t' →
      Turned P f d ⟨.type t', o, k⟩
  | implementing {t : TypeDefinition} {o : Option Owner} {k : Comments} {face : Descriptor} :
      f.get? d = some ⟨.type t, o, k⟩ → Turned P f d ⟨.type (t.implementing face), o, k⟩
  | issued {t : TypeDefinition} {o : Option Owner} {k : Comments} {issuer : Nat} :
      f.get? d = some ⟨.type t, o, k⟩ →
      Turned P f d ⟨.type { t with issuer := some issuer }, o, k⟩
  | commented {x : Declaration} {k : Comments} : f.get? d = some x →
      Turned P f d { x with comments := k }

variable {P : Content → Prop} {f g : Forest} {id d : DeclId} {o : Owner} {x y : Declaration}
  {kind : OwnerKind}

theorem exists_get?_of_updateDecl {change : Declaration → Declaration}
    (hy : (f.updateDecl id change).get? d = some y) :
    (d ≠ id ∧ f.get? d = some y) ∨ (d = id ∧ ∃ x, f.get? d = some x ∧ y = change x) := by
  rw [get?_updateDecl] at hy
  by_cases hd : d = id
  · rw [if_pos hd] at hy
    obtain ⟨x, hx, rfl⟩ := Option.map_eq_some_iff.mp hy
    exact .inr ⟨hd, x, hx, rfl⟩
  · rw [if_neg hd] at hy
    exact .inl ⟨hd, hy⟩

/-- A type is changed by the change, and whatever else may be there is left alone. -/
theorem turned_of_updateType {change : TypeDefinition → TypeDefinition}
    (hy : (f.updateType id change).get? d = some y)
    (h : ∀ t o k, d = id → f.get? d = some ⟨.type t, o, k⟩ →
      Turned P f d ⟨.type (change t), o, k⟩) :
    Turned P f d y := by
  rcases exists_get?_of_updateDecl hy with ⟨-, hx⟩ | ⟨hd, x, hx, rfl⟩
  · exact .untouched hx
  · rcases x with ⟨c, o, k⟩
    cases c with
    | type t => exact h t o k hd hx
    | _ => exact .untouched hx

theorem Invariant.turned_of_attach (hf : f.Invariant) (h : f.Admissible id o x kind)
    (hy : (f.attach id o).get? d = some y) : Turned P f d y := by
  rw [hf.get?_attach h] at hy
  obtain ⟨z, hz, rfl⟩ := Option.map_eq_some_iff.mp hy
  by_cases hd : d = id
  · subst hd
    obtain rfl : x = z := Option.some.inj (h.found.symm.trans hz)
    have hne : o ≠ .type d := by
      rintro rfl
      exact h.ne_type rfl
    simpa [hne] using Turned.registered h
  by_cases hs : f.slot? o x.content = some d
  · -- only a package can be in the slot, and no type takes a member in the same registration
    have hslot := hs
    unfold slot? at hslot
    split at hslot
    · rename_i u name hname
      obtain ⟨unit, hu, hp⟩ := Option.bind_eq_some_iff.mp hslot
      obtain ⟨name', hc⟩ := (hf.content_of_mem_unit hu).1 hp
      rw [content?_of_get? hz] at hc
      simpa [hd, hs] using Turned.drivenOut hz (Option.some.inj hc)
    · simp at hslot
  by_cases ho : o = .type d
  · rcases z with ⟨c, owner, k⟩
    subst ho
    cases c with
    | type t =>
      have hgained : Turned P f d ⟨.type { t with members := t.members ++ [id] }, owner, k⟩ :=
        .gained hz
      simpa [hd, hs, Content.withMember] using hgained
    | _ => simpa [hd, hs, Content.withMember] using Turned.untouched hz
  · simpa [hd, hs, ho] using Turned.untouched hz

theorem Change.turned (hf : f.Invariant) (h : Change P f g) (hy : g.get? d = some y) :
    Turned P f d y := by
  cases h with
  | @declare c hc =>
    rw [get?_push] at hy
    split at hy
    · rename_i hd
      obtain rfl := Option.some.inj hy
      exact .declared (hd ▸ f.get?_size) hc
    · exact .untouched hy
  | newUnit => exact .untouched hy
  | attach hc =>
    obtain ⟨x, kind, ha⟩ := checkRegistration_eq_pending_iff.mp hc
    exact hf.turned_of_attach ha hy
  | setModifiers hm =>
    rcases exists_get?_of_updateDecl hy with ⟨-, hx⟩ | ⟨rfl, x, hx, rfl⟩
    · exact .untouched hx
    · exact .modified hx hm
  | @extend id super t t' ht he =>
    refine turned_of_updateType hy fun s o k hd hx => ?_
    subst hd
    obtain rfl : t = s := by simpa [type?, hx, Content.type?] using ht.symm
    exact .extended hx he
  | implement id face => exact turned_of_updateType hy fun _ _ _ _ hx => .implementing hx
  | comment id change =>
    rcases exists_get?_of_updateDecl hy with ⟨-, hx⟩ | ⟨-, x, hx, rfl⟩
    · exact .untouched hx
    · exact .commented hx
  | issue id issuer => exact turned_of_updateType hy fun _ _ _ _ hx => .issued hx
  | fork number => exact .untouched hy

end DeclForest.Forest
