import DeclForest.Forest.Basic
import Mathlib.Data.List.Nodup
import Mathlib.Data.List.Perm.Subperm
import Mathlib.Logic.Relation

/-!
Chains of owners. `Chain` follows the owner links with no bound on their number; a forest in which
every declaration has a chain has no cycle of owners. The bounded walk of `ancestors` is then the
chain itself, because a chain never meets a declaration twice.
-/

namespace DeclForest.Forest

def OwnedBy (f : Forest) (d t : DeclId) : Prop := f.owner? d = some (.type t)

/-- The way from a declaration to the first that no type owns, as the owner links lead. -/
inductive Chain (f : Forest) : DeclId → List DeclId → Prop where
  | last {d} : (∀ t, ¬ f.OwnedBy d t) → Chain f d [d]
  | up {d t path} : f.OwnedBy d t → Chain f t path → Chain f d (d :: path)

variable {f : Forest} {d : DeclId} {path : List DeclId}

theorem OwnedBy.unique {a b : DeclId} (ha : f.OwnedBy d a) (hb : f.OwnedBy d b) : a = b := by
  unfold OwnedBy at ha hb
  rw [ha] at hb
  exact Owner.type.inj (Option.some.inj hb)

theorem exists_ancestors_eq_cons (f : Forest) (d : DeclId) :
    ∃ rest, f.ancestors d = d :: rest := by
  unfold ancestors
  cases f.decls.size with
  | zero => exact ⟨[], rfl⟩
  | succ n =>
    unfold ancestorsWithin
    split <;> exact ⟨_, rfl⟩

theorem self_mem_ancestors (f : Forest) (d : DeclId) : d ∈ f.ancestors d := by
  obtain ⟨rest, h⟩ := f.exists_ancestors_eq_cons d
  simp [h]

/-- A walk depends on the owners of what it meets only. -/
theorem ancestorsWithin_congr {g : Forest} {n : Nat}
    (h : ∀ x ∈ f.ancestorsWithin n d, g.owner? x = f.owner? x) :
    g.ancestorsWithin n d = f.ancestorsWithin n d := by
  induction n generalizing d with
  | zero => rfl
  | succ n ih =>
    unfold ancestorsWithin at h ⊢
    have hd : g.owner? d = f.owner? d := h d (by split <;> simp)
    rw [hd]
    split
    · rename_i t ht
      rw [ih fun x hx => h x (by simp [ht, hx])]
    · rfl

namespace Chain

theorem congr {g : Forest} (h : f.Chain d path)
    (ho : ∀ x ∈ path, ∀ t, g.OwnedBy x t ↔ f.OwnedBy x t) : g.Chain d path := by
  induction h with
  | last hn => exact .last fun t ht => hn t ((ho _ (by simp) t).mp ht)
  | up hd hp ih =>
    exact .up ((ho _ (by simp) _).mpr hd) (ih fun x hx => ho x (List.mem_cons_of_mem _ hx))

theorem head_mem (h : f.Chain d path) : d ∈ path := by
  cases h <;> simp

theorem unique {path' : List DeclId} (h : f.Chain d path) (h' : f.Chain d path') :
    path = path' := by
  induction h generalizing path' with
  | last hn =>
    cases h' with
    | last => rfl
    | up ho => exact absurd ho (hn _)
  | up ho _ ih =>
    cases h' with
    | last hn => exact absurd ho (hn _)
    | up ho' h' =>
      have ht := ho.unique ho'
      subst ht
      rw [ih h']

/-- From every declaration it meets, a chain goes on as the chain of that declaration. -/
theorem suffix_of_mem (h : f.Chain d path) {x : DeclId} (hx : x ∈ path) :
    ∃ rest, f.Chain x rest ∧ rest <:+ path := by
  induction h with
  | @last d hn =>
    rw [List.mem_singleton.mp hx]
    exact ⟨[d], .last hn, List.suffix_refl _⟩
  | @up d t path ho hp ih =>
    rcases List.mem_cons.mp hx with rfl | hx
    · exact ⟨x :: path, .up ho hp, List.suffix_refl _⟩
    · obtain ⟨rest, hr, hs⟩ := ih hx
      exact ⟨rest, hr, hs.trans (List.suffix_cons d path)⟩

theorem nodup (h : f.Chain d path) : path.Nodup := by
  induction h with
  | last => exact List.nodup_singleton _
  | @up d t path ho hp ih =>
    refine List.nodup_cons.mpr ⟨?_, ih⟩
    intro hd
    -- a second meeting would make the chain of `d` a part of its own tail
    obtain ⟨rest, hr, hs⟩ := hp.suffix_of_mem hd
    have hlen := hs.length_le
    rw [hr.unique (.up ho hp), List.length_cons] at hlen
    omega

theorem ancestorsWithin_eq (h : f.Chain d path) {n : Nat} (hn : path.length ≤ n + 1) :
    f.ancestorsWithin n d = path := by
  induction h generalizing n with
  | @last d hl =>
    cases n with
    | zero => rfl
    | succ n =>
      unfold ancestorsWithin
      split
      · exact absurd ‹_› (hl _)
      · rfl
  | @up d t path ho hp ih =>
    cases n with
    | zero =>
      have := List.length_pos_of_mem hp.head_mem
      simp only [List.length_cons] at hn
      omega
    | succ n =>
      unfold ancestorsWithin
      rw [show f.owner? d = some (.type t) from ho]
      simp only [List.cons.injEq, true_and]
      exact ih (by simpa using hn)

/-- The chain meets exactly what the links lead to. -/
theorem mem_iff (h : f.Chain d path) {x : DeclId} :
    x ∈ path ↔ Relation.ReflTransGen f.OwnedBy d x := by
  constructor
  · intro hx
    induction h with
    | last => rw [List.mem_singleton.mp hx]
    | up ho _ ih =>
      rcases List.mem_cons.mp hx with rfl | hx
      · exact .refl
      · exact .head ho (ih hx)
  · intro hx
    induction hx using Relation.ReflTransGen.head_induction_on generalizing path with
    | refl => exact h.head_mem
    | head ho _ ih =>
      cases h with
      | last hn => exact absurd ho (hn _)
      | up ho' hp =>
        have ht := ho.unique ho'
        subst ht
        exact List.mem_cons_of_mem _ (ih hp)

theorem not_transGen_self (h : f.Chain d path) : ¬ Relation.TransGen f.OwnedBy d d := by
  intro hd
  obtain ⟨t, ho, ht⟩ := Relation.TransGen.head'_iff.mp hd
  cases h with
  | last hn => exact hn t ho
  | up ho' hp =>
    have he := ho.unique ho'
    subst he
    exact (List.nodup_cons.mp (Chain.up ho hp).nodup).1 (hp.mem_iff.mpr ht)

/-- No type owns the last declaration of a chain. -/
theorem exists_getLast? (h : f.Chain d path) :
    ∃ top, path.getLast? = some top ∧ ∀ t, ¬ f.OwnedBy top t := by
  induction h with
  | last hn => exact ⟨_, rfl, hn⟩
  | up _ hp ih =>
    obtain ⟨top, ht, hn⟩ := ih
    exact ⟨top, by rw [List.getLast?_cons, ht]; rfl, hn⟩

theorem exists_owner_of_mem_tail (h : f.Chain d path) {t : DeclId} (ht : t ∈ path.tail) :
    ∃ x, f.OwnedBy x t := by
  induction h with
  | last => simp at ht
  | @up d t' path ho hp ih =>
    cases hp with
    | last => exact ⟨d, by simp_all⟩
    | up ho' hp' =>
      rcases List.mem_cons.mp ht with rfl | ht
      · exact ⟨d, ho⟩
      · exact ih ht

/-- A chain consists of declarations of the forest if its links do not lead out of it. -/
theorem exists_of_mem (hin : ∀ d t, f.OwnedBy d t → (f.get? t).isSome) (h : f.Chain d path)
    (hd : (f.get? d).isSome) : ∀ x ∈ path, (f.get? x).isSome := by
  induction h with
  | last => simpa using hd
  | up ho hp ih =>
    intro x hx
    rcases List.mem_cons.mp hx with rfl | hx
    · exact hd
    · exact ih (hin _ _ ho) x hx

theorem length_le_size (hin : ∀ d t, f.OwnedBy d t → (f.get? t).isSome) (h : f.Chain d path)
    (hd : (f.get? d).isSome) : path.length ≤ f.decls.size := by
  have hnd : (path.map DeclId.index).Nodup :=
    h.nodup.map fun a b hab => by cases a; cases b; simpa using hab
  have hsub : path.map DeclId.index ⊆ List.range f.decls.size := by
    intro i hi
    obtain ⟨x, hx, rfl⟩ := List.mem_map.mp hi
    have hs := h.exists_of_mem hin hd x hx
    simpa [get?] using hs
  simpa using (List.Nodup.subperm hnd hsub).length_le

theorem length_le (hin : ∀ d t, f.OwnedBy d t → (f.get? t).isSome) (h : f.Chain d path) :
    path.length ≤ max 1 f.decls.size := by
  by_cases hd : (f.get? d).isSome
  · have := h.length_le_size hin hd
    omega
  · cases h with
    | last =>
      rw [List.length_singleton]
      omega
    | up ho => simp_all [OwnedBy, owner?]

end Chain

end DeclForest.Forest
