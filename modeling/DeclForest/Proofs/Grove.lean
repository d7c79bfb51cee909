import DeclForest.Proofs.Issuing
import DeclForest.Workspace

/-!
Groves: several forests that a client makes, copies and writes to in any order, asking their types
for descriptors in between. A forest gives a type one descriptor for good, and a copy of the forest
gives the same one exactly if it was made before the copy was taken. A type that is declared again is
another type, with a descriptor of its own.
-/

namespace DeclForest

inductive GroveCall where
  | newForest
  | fork (n : Nat)
  | operate (n : Nat) (op : Operation)
  | copy (source : Nat) (id : DeclId) (target : Nat)
  | describe (n : Nat) (id : DeclId)
  deriving DecidableEq, Repr

inductive GroveEvent where
  | issued (n : Nat) (id : DeclId) (d : Descriptor)
  | forked (source copy : Nat)
  deriving DecidableEq, Repr

namespace GroveCall

def forests : GroveCall → List Nat
  | newForest => []
  | fork n | operate n _ | describe n _ => [n]
  | copy source _ target => [source, target]

def writes : GroveCall → Bool
  | operate _ op => op.writes
  | _ => true

def declaresIn? : GroveCall → Option Nat
  | operate n (.declare _) | operate n (.addNew ..) | copy _ _ n => some n
  | _ => none

/-- A piece of work with what is remembered of it, which is nothing if it fails. -/
def remembering {α : Type} (work : Work α) (event : α → GroveEvent) (w : Workspace) :
    List GroveEvent × Workspace :=
  (((work.run w).1.toOption.map event).toList, (work.run w).2)

def perform : GroveCall → Workspace → List GroveEvent × Workspace
  | newForest => fun w => ([], (Work.newForest.run w).2)
  | fork n => remembering (Work.fork n) (.forked n)
  | operate n op => fun w => ([], w.setForest n (op.perform (w.forest n)).2)
  | copy source id target => fun w => ([], ((Work.copy source id target).run w).2)
  | describe n id => remembering (Work.resolve n 0 (.defined id)) (.issued n id)

end GroveCall

/-- The events come newest first. -/
structure Grove where
  history : List GroveEvent
  workspace : Workspace

namespace Grove

def start : Grove := ⟨[], .initial⟩

def after (g : Grove) (c : GroveCall) : Grove :=
  ⟨(c.perform g.workspace).1 ++ g.history, (c.perform g.workspace).2⟩

def Allows (g : Grove) (c : GroveCall) : Prop :=
  (∀ n ∈ c.forests, n < g.workspace.forests.size) ∧ c.writes = true

instance (g : Grove) (c : GroveCall) : Decidable (g.Allows c) :=
  inferInstanceAs (Decidable (_ ∧ _))

inductive Step : Grove → Grove → Prop where
  | call {g : Grove} {c : GroveCall} : g.Allows c → Step g (g.after c)

abbrev Steps : Grove → Grove → Prop := Relation.ReflTransGen Step

def Reachable (g : Grove) : Prop := start.Steps g

/-- The forest was asked for the descriptor of the type, or is a copy of one that had it. -/
def Computed : List GroveEvent → Nat → DeclId → Prop
  | [], _, _ => False
  | .issued m i _ :: before, n, id => n = m ∧ id = i ∨ Computed before n id
  | .forked source copy :: before, n, id =>
    n = copy ∧ Computed before source id ∨ Computed before n id

end Grove

namespace Workspace

variable {w : Workspace} {n : Nat} {f : Forest}

theorem forest_setForest (hn : n < w.forests.size) (m : Nat) :
    (w.setForest n f).forest m = if m = n then f else w.forest m := by
  unfold forest setForest
  by_cases hm : m = n
  · simp [hm, hn]
  · simp [hm, Array.getElem?_setIfInBounds_ne (Ne.symm hm)]

theorem size_setForest (w : Workspace) (n : Nat) (f : Forest) :
    (w.setForest n f).forests.size = w.forests.size := by
  simp [setForest]

theorem forest_push (w : Workspace) (f : Forest) (m : Nat) :
    { w with forests := w.forests.push f }.forest m =
      if m = w.forests.size then f else w.forest m := by
  unfold forest
  rw [Array.getElem?_push]
  by_cases hm : m = w.forests.size <;> simp [hm]

theorem numbered_push (hw : ∀ n, (w.forest n).number = n) (hf : f.number = w.forests.size)
    (m : Nat) : ({ w with forests := w.forests.push f }.forest m).number = m := by
  rw [forest_push]
  by_cases hm : m = w.forests.size
  · rw [if_pos hm, hf, hm]
  · rw [if_neg hm, hw]

theorem numbered_setForest (hw : ∀ n, (w.forest n).number = n) (hn : n < w.forests.size)
    (hf : f.number = n) (m : Nat) : ((w.setForest n f).forest m).number = m := by
  rw [forest_setForest hn]
  by_cases hm : m = n
  · rw [if_pos hm, hf, hm]
  · rw [if_neg hm, hw]

theorem forest_of_size_le (hn : w.forests.size ≤ n) : w.forest n = .empty n := by
  unfold forest
  rw [Array.getElem?_eq_none hn]
  rfl

end Workspace

namespace Forest

structure Keeps (f g : Forest) : Prop where
  number : g.number = f.number
  issuer : g.issuer? = f.issuer?
  lasting : ∀ d c, f.lasting? d = some c → g.lasting? d = some c

theorem Keeps.refl (f : Forest) : f.Keeps f := ⟨rfl, rfl, fun _ _ h => h⟩

theorem keeps_perform {op : Operation} (hop : op.writes = true) (f : Forest) :
    f.Keeps (op.perform f).2 where
  number := disregards_number.perform hop f
  issuer := disregards_issuer?.perform hop f
  lasting _ _ h := lasting?_after [op] h

/-- A forest with this number at two times. Its types keep their issuers, and one that has none may
get the forest itself for its issuer. -/
structure Later (number : Nat) (f g : Forest) : Prop where
  issuer : ∀ id, g.issuer? id = f.issuer? id ∨ f.issuer? id = none ∧ g.issuer? id = some number
  lasting : ∀ d c, f.lasting? d = some c → g.lasting? d = some c

variable {number : Nat} {f g k : Forest} {id : DeclId} {t : TypeDefinition}

theorem Later.refl (number : Nat) (f : Forest) : Later number f f :=
  ⟨fun _ => .inl rfl, fun _ _ h => h⟩

theorem Later.trans (h : Later number f g) (h' : Later number g k) : Later number f k := by
  refine ⟨fun id => ?_, fun d c hc => h'.lasting d c (h.lasting d c hc)⟩
  rcases h.issuer id with he | ⟨hf, he⟩ <;> rcases h'.issuer id with he' | ⟨hg, he'⟩
  · exact .inl (he'.trans he)
  · exact .inr ⟨he ▸ hg, he'⟩
  · exact .inr ⟨hf, he'.trans he⟩
  · exact .inr ⟨hf, he'⟩

theorem Later.issuer?_of_some {k : Nat} (h : Later number f g) (hk : f.issuer? id = some k) :
    g.issuer? id = some k := by
  rcases h.issuer id with he | ⟨hnone, -⟩
  · exact he.trans hk
  · exact absurd (hnone.symm.trans hk) (by simp)

theorem Keeps.later (h : f.Keeps g) (number : Nat) : Later number f g :=
  ⟨fun id => .inl (congrFun h.issuer id), h.lasting⟩

theorem later_definedType (ht : f.type? id = some t) :
    Later f.number f ((definedType id).run f).2 := by
  refine ⟨fun d => ?_, fun d c hc => lasting?_after [.definedType id] hc⟩
  rw [issuer?_definedType ht]
  by_cases hd : d = id
  · subst hd
    rw [if_pos rfl]
    cases f.issuer? d with
    | none => exact .inr ⟨rfl, rfl⟩
    | some k => exact .inl rfl
  · exact .inl (if_neg hd)

def HasIssued (f : Forest) (id : DeclId) (d : Descriptor) : Prop :=
  ∃ name kind, f.lasting? id = some (.type (.ofName kind name)) ∧ f.issuer? id = some d.issuer ∧
    d.referent = .defined id name kind

theorem issuer?_empty (number : Nat) (id : DeclId) : (empty number).issuer? id = none := by
  simp [issuer?, content?, get?, empty]

theorem HasIssued.later {d : Descriptor} (h : f.HasIssued id d) (hl : Later number f g) :
    g.HasIssued id d := by
  obtain ⟨name, kind, ht, hi, hr⟩ := h
  exact ⟨name, kind, hl.lasting _ _ ht, hl.issuer?_of_some hi, hr⟩

theorem HasIssued.run_definedType {d : Descriptor} (h : f.HasIssued id d) :
    ((definedType id).run f).1 = .ok d := by
  obtain ⟨name, kind, hlasting, hi, hr⟩ := h
  obtain ⟨t, ht, rfl, rfl⟩ := lasting?_eq_type_iff.mp hlasting
  rw [Forest.run_definedType ht, ← issuer?_of_type? ht, hi, Option.getD_some, ← hr]

theorem HasIssued.key {d : Descriptor} (h : f.HasIssued id d) : d.key = .defined id := by
  obtain ⟨name, kind, -, -, hr⟩ := h
  rw [Descriptor.key, hr]
  rfl

theorem HasIssued.referent {d : Descriptor} (h : f.HasIssued id d) (ht : f.type? id = some t) :
    d.referent = .defined id t.name t.kind := by
  obtain ⟨name, kind, hlasting, -, hr⟩ := h
  obtain ⟨t', ht', rfl, rfl⟩ := lasting?_eq_type_iff.mp hlasting
  obtain rfl := Option.some.inj (ht.symm.trans ht')
  exact hr

theorem HasIssued.issuer? {d : Descriptor} (h : f.HasIssued id d) :
    f.issuer? id = some d.issuer := by
  obtain ⟨name, kind, -, hi, -⟩ := h
  exact hi

theorem HasIssued.identity_eq_iff {d d' : Descriptor} (h : f.HasIssued id d)
    (h' : g.HasIssued id d') : d.identity = d'.identity ↔ f.issuer? id = g.issuer? id := by
  simp [Descriptor.identity, h.key, h'.key, h.issuer?, h'.issuer?]

theorem HasIssued.unique {d d' : Descriptor} (h : f.HasIssued id d) (h' : f.HasIssued id d') :
    d = d' :=
  Except.ok.inj (h.run_definedType.symm.trans h'.run_definedType)

theorem hasIssued_definedType (ht : f.type? id = some t) :
    ((definedType id).run f).2.HasIssued id
      ⟨(f.issuer? id).getD f.number, .defined id t.name t.kind⟩ := by
  refine ⟨t.name, t.kind, ?_, ?_, rfl⟩
  · exact lasting?_after [.definedType id] (lasting?_eq_type_iff.mpr ⟨t, ht, rfl, rfl⟩)
  · rw [issuer?_definedType ht, if_pos rfl]

end Forest

inductive GroveEffect (w : Workspace) : List GroveEvent → Workspace → Prop where
  | none : GroveEffect w [] w
  | planted : GroveEffect w [] { w with forests := w.forests.push (.empty w.forests.size) }
  | forked {n : Nat} : n < w.forests.size → GroveEffect w [.forked n w.forests.size]
      { w with forests := w.forests.push ((w.forest n).fork w.forests.size) }
  | wrote {n : Nat} {f : Forest} : n < w.forests.size → (w.forest n).Keeps f →
      GroveEffect w [] (w.setForest n f)
  | issued {n : Nat} {id : DeclId} {t : TypeDefinition} : n < w.forests.size →
      (w.forest n).type? id = some t →
      GroveEffect w
        [.issued n id ⟨((w.forest n).issuer? id).getD (w.forest n).number, .defined id t.name t.kind⟩]
        (w.setForest n ((Forest.definedType id).run (w.forest n)).2)

namespace Workspace

variable {w w' w'' : Workspace} {n : Nat} {f : Forest}

theorem lt_size_of_get? {id : DeclId} {x : Declaration} (h : (w.forest n).get? id = some x) :
    n < w.forests.size := by
  by_contra hn
  rw [forest_of_size_le (Nat.le_of_not_lt hn)] at h
  exact absurd h (by simp [Forest.get?, Forest.empty])

theorem lt_size_of_issuer? {id : DeclId} {k : Nat} (h : (w.forest n).issuer? id = some k) :
    n < w.forests.size := by
  obtain ⟨c, hc, -⟩ := Option.bind_eq_some_iff.mp h
  obtain ⟨x, hx, -⟩ := Option.map_eq_some_iff.mp hc
  exact lt_size_of_get? hx

theorem lt_size_of_type? {id : DeclId} {t : TypeDefinition} (h : (w.forest n).type? id = some t) :
    n < w.forests.size := by
  obtain ⟨o, comments, hx⟩ := Forest.type?_eq_some_iff.mp h
  exact lt_size_of_get? hx

structure Later (w w' : Workspace) : Prop where
  size : w.forests.size ≤ w'.forests.size
  forest : ∀ n < w.forests.size, (w.forest n).Later n (w'.forest n)

theorem Later.refl (w : Workspace) : Later w w :=
  ⟨Nat.le_refl _, fun n _ => Forest.Later.refl n _⟩

theorem Later.trans (h : Later w w') (h' : Later w' w'') : Later w w'' :=
  ⟨Nat.le_trans h.size h'.size, fun n hn =>
    (h.forest n hn).trans (h'.forest n (Nat.lt_of_lt_of_le hn h.size))⟩

theorem later_push (w : Workspace) (f : Forest) :
    Later w { w with forests := w.forests.push f } := by
  refine ⟨by simp, fun n hn => ?_⟩
  rw [forest_push, if_neg (Nat.ne_of_lt hn)]
  exact Forest.Later.refl n _

theorem later_setForest (hn : n < w.forests.size) (hf : (w.forest n).Later n f) :
    Later w (w.setForest n f) := by
  refine ⟨Nat.le_of_eq (w.size_setForest n f).symm, fun m _ => ?_⟩
  rw [forest_setForest hn]
  by_cases hmn : m = n
  · rw [if_pos hmn, hmn]
    exact hf
  · rw [if_neg hmn]
    exact Forest.Later.refl m _

end Workspace

/-- What a call does makes later states, if forests have the numbers that they are called by. -/
theorem GroveEffect.later {w w' : Workspace} {events : List GroveEvent}
    (h : GroveEffect w events w') (hnumber : ∀ n, (w.forest n).number = n) : w.Later w' := by
  cases h with
  | none => exact .refl w
  | planted => exact Workspace.later_push w _
  | forked hn => exact Workspace.later_push w _
  | @wrote n f hn hk => exact Workspace.later_setForest hn (hk.later n)
  | @issued n id t hn ht =>
    have hlater := Forest.later_definedType ht
    rw [hnumber] at hlater
    exact Workspace.later_setForest hn hlater

theorem GroveEffect.hasIssued {w w' : Workspace} {events : List GroveEvent} {n : Nat} {id : DeclId}
    {d : Descriptor} (h : GroveEffect w events w') (hd : .issued n id d ∈ events) :
    (w'.forest n).HasIssued id d := by
  cases h with
  | @issued m i t hm ht =>
    obtain ⟨rfl, rfl, rfl⟩ := GroveEvent.issued.inj (List.mem_singleton.mp hd)
    rw [Workspace.forest_setForest hm, if_pos rfl]
    exact Forest.hasIssued_definedType ht
  | _ => simp at hd

namespace Grove

variable {g g' : Grove} {c : GroveCall} {w : Workspace} {n : Nat} {id : DeclId}

theorem perform_describe (n : Nat) (id : DeclId) (w : Workspace) :
    (GroveCall.describe n id).perform w =
      (((((Forest.definedType id).run (w.forest n)).1.toOption.map (.issued n id)).toList),
        w.setForest n ((Forest.definedType id).run (w.forest n)).2) := by
  have hrun := Work.run_edit n (Forest.definedType id) w
  show GroveCall.remembering (Work.edit n (Forest.definedType id)) _ w = _
  rw [GroveCall.remembering, hrun]

theorem perform_copy (source : Nat) (id : DeclId) (target : Nat) (w : Workspace) :
    (GroveCall.copy source id target).perform w =
      match (w.forest source).get? id with
      | some d => (GroveCall.operate target (.declare d.content)).perform w
      | none => ([], w) := by
  have hrun : (Work.copy source id target).run w =
      match (w.forest source).declaration id with
      | .ok d => (Work.edit target (Forest.declare d.content)).run w
      | .error fault => (.error fault, w) := by
    show Work.run (do
      let d ← (ofExcept ((w.forest source).declaration id) : Work Declaration)
      Work.edit target (Forest.declare d.content)) w = _
    cases (w.forest source).declaration id <;> rfl
  show ([], ((Work.copy source id target).run w).2) = _
  rw [hrun]
  cases hx : (w.forest source).get? id with
  | none => simp only [Forest.declaration, hx]
  | some d =>
    simp only [Forest.declaration_eq_ok_iff.mpr hx, Work.run_edit]
    rfl

theorem effect (h : g.Allows c) :
    GroveEffect g.workspace (c.perform g.workspace).1 (c.perform g.workspace).2 := by
  obtain ⟨hn, hw⟩ := h
  cases c with
  | newForest => exact .planted
  | fork n => exact .forked (hn n List.mem_cons_self)
  | operate n op => exact .wrote (hn n List.mem_cons_self) (Forest.keeps_perform hw _)
  | copy source id target =>
    rw [perform_copy]
    cases (g.workspace.forest source).get? id with
    | none => exact .none
    | some d =>
      have htarget : target < g.workspace.forests.size :=
        hn target (List.mem_cons_of_mem _ List.mem_cons_self)
      exact .wrote htarget (Forest.keeps_perform rfl _)
  | describe n id =>
    have hmade : n < g.workspace.forests.size := hn n List.mem_cons_self
    rw [perform_describe]
    cases ht : (g.workspace.forest n).type? id with
    | none =>
      obtain ⟨fault, hrun⟩ := Forest.run_definedType_of_none ht
      rw [hrun]
      exact .wrote hmade (.refl _)
    | some t =>
      have hevent := GroveEffect.issued hmade ht
      rw [Forest.issuer?_of_type? ht] at hevent
      rw [Forest.run_definedType ht] at hevent ⊢
      exact hevent

/-- The descriptors that were answered are those that the forests have, and a type has one exactly
if it was computed for it. -/
structure Sound (g : Grove) : Prop where
  numbered : ∀ n, (g.workspace.forest n).number = n
  computed : ∀ n id, Computed g.history n id ↔ ((g.workspace.forest n).issuer? id).isSome = true
  /-- A copy has nothing that the forest does not have that issued it. -/
  origin : ∀ n id k, (g.workspace.forest n).issuer? id = some k →
    (g.workspace.forest k).issuer? id = some k
  issued : ∀ n id d, .issued n id d ∈ g.history → (g.workspace.forest n).HasIssued id d

theorem start_sound : start.Sound := by
  have hempty : ∀ n, start.workspace.forest n = .empty n := by
    intro n
    cases n with
    | zero => rfl
    | succ n => exact Workspace.forest_of_size_le (by simp [start, Workspace.initial])
  constructor
  · intro n
    rw [hempty]
    rfl
  · intro n id
    rw [hempty]
    simp [start, Computed, Forest.issuer?_empty]
  · intro n id k h
    simp [hempty, Forest.issuer?_empty] at h
  · intro n id d h
    simp [start] at h

theorem Sound.numbered_effect (hs : g.Sound) {events : List GroveEvent} {w' : Workspace}
    (h : GroveEffect g.workspace events w') (m : Nat) : (w'.forest m).number = m := by
  cases h with
  | none => exact hs.numbered m
  | planted => exact Workspace.numbered_push hs.numbered rfl m
  | forked hn => exact Workspace.numbered_push hs.numbered rfl m
  | @wrote n f hn hk =>
    exact Workspace.numbered_setForest hs.numbered hn (hk.number.trans (hs.numbered n)) m
  | @issued n id t hn ht =>
    have hkept : ((Forest.definedType id).run (g.workspace.forest n)).2.number = n := by
      rw [Forest.run_definedType ht]
      exact hs.numbered n
    exact Workspace.numbered_setForest hs.numbered hn hkept m

/-- A forest that is not there yet has no issuers, so that a copy has those of what it is a copy of;
any other call adds the one issuer that is remembered, if any. -/
theorem Sound.computed_effect (hs : g.Sound) {events : List GroveEvent} {w' : Workspace}
    (h : GroveEffect g.workspace events w') (m : Nat) (d : DeclId) :
    Computed (events ++ g.history) m d ↔ ((w'.forest m).issuer? d).isSome = true := by
  have hold := hs.computed m d
  have hnew : ∀ m, m = g.workspace.forests.size → ¬Computed g.history m d := by
    intro m hm
    rw [hs.computed, Workspace.forest_of_size_le (Nat.le_of_eq hm.symm), Forest.issuer?_empty]
    simp
  cases h with
  | none => exact hold
  | planted =>
    rw [Workspace.forest_push]
    by_cases hm : m = g.workspace.forests.size
    · simp [hm, hnew, Forest.issuer?_empty]
    · rw [if_neg hm]
      exact hold
  | @forked n hn =>
    rw [Workspace.forest_push]
    by_cases hm : m = g.workspace.forests.size
    · have hcopy : ∀ k, ((g.workspace.forest n).fork k).issuer? d =
          (g.workspace.forest n).issuer? d := fun _ => rfl
      simp [hm, Computed, hnew, hcopy, hs.computed]
    · simp [hm, Computed, hold]
  | @wrote n f hn hk =>
    rw [Workspace.forest_setForest hn]
    by_cases hm : m = n
    · rw [if_pos hm, hk.issuer, ← hm]
      exact hold
    · rw [if_neg hm]
      exact hold
  | @issued n id t hn ht =>
    rw [Workspace.forest_setForest hn]
    by_cases hm : m = n
    · rw [if_pos hm, Forest.issuer?_definedType ht]
      by_cases hd : d = id
      · simp [Computed, hm, hd]
      · rw [if_neg hd, ← hm]
        simp [Computed, hd, hold]
    · simp [Computed, hm, hold]

/-- An issuer that a call writes is the forest itself, or comes from a forest. -/
theorem issuer?_effect {events : List GroveEvent} {w' : Workspace}
    (h : GroveEffect w events w') (hnumber : ∀ n, (w.forest n).number = n) {m k : Nat}
    (hk : (w'.forest m).issuer? id = some k) :
    m = k ∨ ∃ m', (w.forest m').issuer? id = some k := by
  cases h with
  | none => exact .inr ⟨m, hk⟩
  | planted =>
    rw [Workspace.forest_push] at hk
    by_cases hm : m = w.forests.size
    · rw [if_pos hm, Forest.issuer?_empty] at hk
      exact absurd hk (by simp)
    · rw [if_neg hm] at hk
      exact .inr ⟨m, hk⟩
  | @forked n hn =>
    rw [Workspace.forest_push] at hk
    by_cases hm : m = w.forests.size
    · rw [if_pos hm] at hk
      exact .inr ⟨n, hk⟩
    · rw [if_neg hm] at hk
      exact .inr ⟨m, hk⟩
  | @wrote n f hn hkeeps =>
    rw [Workspace.forest_setForest hn] at hk
    by_cases hm : m = n
    · rw [if_pos hm, hkeeps.issuer] at hk
      exact .inr ⟨n, hk⟩
    · rw [if_neg hm] at hk
      exact .inr ⟨m, hk⟩
  | @issued n i t hn ht =>
    rw [Workspace.forest_setForest hn] at hk
    by_cases hm : m = n
    · rw [if_pos hm] at hk
      rcases (Forest.later_definedType ht).issuer id with he | ⟨-, he⟩
      · exact .inr ⟨n, he.symm.trans hk⟩
      · rw [hnumber] at he
        exact .inl (hm.trans (Option.some.inj (he.symm.trans hk)))
    · rw [if_neg hm] at hk
      exact .inr ⟨m, hk⟩

theorem Sound.after (hs : g.Sound) (hc : g.Allows c) : (g.after c).Sound := by
  have heffect := effect hc
  have hlater := heffect.later hs.numbered
  refine ⟨hs.numbered_effect heffect, hs.computed_effect heffect, fun n id k hk => ?_,
    fun n id d hd => ?_⟩
  · rcases issuer?_effect heffect hs.numbered hk with rfl | ⟨m, hm⟩
    · exact hk
    · have horigin := hs.origin m id k hm
      exact (hlater.forest k (Workspace.lt_size_of_issuer? horigin)).issuer?_of_some horigin
  · rcases List.mem_append.mp hd with hnew | hold
    · exact heffect.hasIssued hnew
    · exact (hs.issued n id d hold).later
        (hlater.forest n (Workspace.lt_size_of_issuer? (hs.issued n id d hold).issuer?))

theorem Steps.sound (h : g.Steps g') (hs : g.Sound) : g'.Sound := by
  induction h with
  | refl => exact hs
  | tail _ hstep ih =>
    obtain ⟨hc⟩ := hstep
    exact ih.after hc

theorem Steps.later (h : g.Steps g') (hs : g.Sound) : g.workspace.Later g'.workspace := by
  induction h with
  | refl => exact .refl _
  | tail hsteps hstep ih =>
    obtain ⟨hc⟩ := hstep
    exact ih.trans ((effect hc).later (Steps.sound hsteps hs).numbered)

/-- Where a copy was taken of a forest, the two answer one descriptor for a type exactly if it had
been computed by then. -/
theorem Sound.same_iff_computed (hs : g.Sound) (hc : g.Allows (.fork n))
    (h : (g.after (.fork n)).Steps g') {d d' : Descriptor} (hd : .issued n id d ∈ g'.history)
    (hd' : .issued g.workspace.forests.size id d' ∈ g'.history) :
    d.identity = d'.identity ↔ Computed g.history n id := by
  have hn : n < g.workspace.forests.size := hc.1 n List.mem_cons_self
  have hs' : g'.Sound := h.sound (hs.after hc)
  have hlater := h.later (hs.after hc)
  have hforest : ∀ m, (g.after (.fork n)).workspace.forest m = if m = g.workspace.forests.size then
      (g.workspace.forest n).fork g.workspace.forests.size else g.workspace.forest m :=
    g.workspace.forest_push _
  have hsize : (g.after (.fork n)).workspace.forests.size = g.workspace.forests.size + 1 :=
    Array.size_push _
  have hold := (hlater.forest n (by omega)).issuer id
  have hcopy := (hlater.forest g.workspace.forests.size (by omega)).issuer id
  rw [hforest, if_neg (Nat.ne_of_lt hn)] at hold
  rw [hforest, if_pos rfl] at hcopy
  change _ = (g.workspace.forest n).issuer? id ∨ (g.workspace.forest n).issuer? id = none ∧ _
    at hcopy
  rw [(hs'.issued n id d hd).identity_eq_iff (hs'.issued _ id d' hd'), hs.computed]
  have hissued := (hs'.issued n id d hd).issuer?
  have hissued' := (hs'.issued _ id d' hd').issuer?
  cases hi : (g.workspace.forest n).issuer? id with
  | some k =>
    -- computed before: neither of the two can have got another one since
    simp only [hi, reduceCtorEq, false_and, or_false] at hold hcopy
    simp [hold, hcopy]
  | none =>
    -- not computed: each of the two has its own by now
    simp only [hi, true_and] at hold hcopy
    have hown : (g'.workspace.forest n).issuer? id = some n := by
      rcases hold with he | he
      · exact absurd (he.symm.trans hissued) (by simp)
      · exact he
    have hown' : (g'.workspace.forest g.workspace.forests.size).issuer? id =
        some g.workspace.forests.size := by
      rcases hcopy with he | he
      · exact absurd (he.symm.trans hissued') (by simp)
      · exact he
    simp [hown, hown', Nat.ne_of_lt hn]

theorem run_resolve_defined (n : Nat) (id : DeclId) (w : Workspace) :
    ((Work.resolve n 0 (.defined id)).run w).1 = ((Forest.definedType id).run (w.forest n)).1 :=
  congrArg Prod.fst (Work.run_edit n (Forest.definedType id) w)

/-- What is asked for the first time is no descriptor that was answered before, to whomever. -/
theorem Sound.ne_of_not_computed (hs : g.Sound) (hn : ¬Computed g.history n id) {d : Descriptor}
    (hd : ((Work.resolve n 0 (.defined id)).run g.workspace).1 = .ok d) {m : Nat} {id' : DeclId}
    {d' : Descriptor} (hd' : .issued m id' d' ∈ g.history) : d.identity ≠ d'.identity := by
  intro he
  rw [run_resolve_defined] at hd
  obtain ⟨t, ht, rfl⟩ := Forest.definedType_eq_ok hd
  have hnone : (g.workspace.forest n).issuer? id = none := by
    rw [hs.computed] at hn
    simpa using hn
  obtain ⟨hissuer, hkey⟩ := Identity.mk.inj he
  have hold := hs.issued m id' d' hd'
  rw [hold.key] at hkey
  obtain rfl := TypeKey.defined.inj hkey
  have hown : d'.issuer = n := by
    rw [← hissuer, hnone]
    exact hs.numbered n
  have horigin := hs.origin m id d'.issuer hold.issuer?
  rw [hown, hnone] at horigin
  exact absurd horigin (by simp)

structure FaithfulIdentity (g : Grove) : Prop where
  /-- A type has a descriptor whenever it is asked for. -/
  answers : ∀ n id t, (g.workspace.forest n).type? id = some t →
    ∃ d, ((Work.resolve n 0 (.defined id)).run g.workspace).1 = .ok d
  /-- From the first time on it is the same one. -/
  again : ∀ n id d, .issued n id d ∈ g.history → ∀ g', g.Steps g' →
    ((Work.resolve n 0 (.defined id)).run g'.workspace).1 = .ok d
  same : ∀ n id d d', .issued n id d ∈ g.history → .issued n id d' ∈ g.history → d = d'
  key : ∀ n id d, .issued n id d ∈ g.history → d.key = .defined id
  lasting : ∀ n id d, .issued n id d ∈ g.history → ∀ g', g.Steps g' →
    ∃ t, (g'.workspace.forest n).type? id = some t
  /-- Its name and kind are those of the declaration, also before it was made. -/
  faithful : ∀ n id d, .issued n id d ∈ g.history → ∀ g', g'.Reachable →
    g'.Steps g ∨ g.Steps g' → ∀ t, (g'.workspace.forest n).type? id = some t →
    d.referent = .defined id t.name t.kind
  distinct : ∀ n id id' d d', .issued n id d ∈ g.history → .issued n id' d' ∈ g.history →
    id ≠ id' → d.identity ≠ d'.identity
  /-- What is declared gets a descriptor that nobody was answered before, even if it is a copy of a
  type that has one. -/
  declared : ∀ c n d, g.Allows c → c.declaresIn? = some n →
    ((Work.resolve n 0 (.defined ⟨(g.workspace.forest n).decls.size⟩)).run
      (g.after c).workspace).1 = .ok d →
    ∀ m id d', .issued m id d' ∈ g.history → d.identity ≠ d'.identity
  forks : ∀ n g', g.Allows (.fork n) → (g.after (.fork n)).Steps g' → ∀ id d d',
    .issued n id d ∈ g'.history → .issued g.workspace.forests.size id d' ∈ g'.history →
    (d.identity = d'.identity ↔ Computed g.history n id)

theorem history_after_of_declaresIn? (g : Grove) (hc : c.declaresIn? = some n) :
    (g.after c).history = g.history := by
  cases c with
  | operate m op => rfl
  | copy source id target => rfl
  | _ => simp [GroveCall.declaresIn?] at hc

/-- To declare something adds nothing to the history, and what is declared is no type before. -/
theorem Sound.not_computed_declared (hs : g.Sound) (hc : c.declaresIn? = some n) :
    ¬Computed (g.after c).history n ⟨(g.workspace.forest n).decls.size⟩ := by
  rw [g.history_after_of_declaresIn? hc, hs.computed]
  simp [Forest.issuer?, Forest.content?, Forest.get?_size]

theorem reachable_faithfulIdentity (h : g.Reachable) : g.FaithfulIdentity := by
  have hs : g.Sound := h.sound start_sound
  have hlater : ∀ g', g.Steps g' → ∀ n id d, .issued n id d ∈ g.history →
      (g'.workspace.forest n).HasIssued id d := by
    intro g' hsteps n id d hd
    have hissued := hs.issued n id d hd
    exact hissued.later
      ((hsteps.later hs).forest n (Workspace.lt_size_of_issuer? hissued.issuer?))
  constructor
  · intro n id t ht
    rw [run_resolve_defined, Forest.run_definedType ht]
    exact ⟨_, rfl⟩
  · intro n id d hd g' hsteps
    rw [run_resolve_defined]
    exact (hlater g' hsteps n id d hd).run_definedType
  · exact fun n id d d' hd hd' => (hs.issued n id d hd).unique (hs.issued n id d' hd')
  · exact fun n id d hd => (hs.issued n id d hd).key
  · intro n id d hd g' hsteps
    obtain ⟨name, kind, ht, -, -⟩ := hlater g' hsteps n id d hd
    obtain ⟨t, ht, -, -⟩ := Forest.lasting?_eq_type_iff.mp ht
    exact ⟨t, ht⟩
  · intro n id d hd g' hreach horder t ht
    rcases horder with hbefore | hafter
    · -- the type kept its name and its kind until it was described
      have hnamed : (g'.workspace.forest n).lasting? id = some (.type (.ofName t.kind t.name)) :=
        Forest.lasting?_eq_type_iff.mpr ⟨t, ht, rfl, rfl⟩
      have hkept := ((hbefore.later (hreach.sound start_sound)).forest n
        (Workspace.lt_size_of_type? ht)).lasting id _ hnamed
      obtain ⟨t', ht', hkind, hname⟩ := Forest.lasting?_eq_type_iff.mp hkept
      rw [(hs.issued n id d hd).referent ht', hkind, hname]
    · exact (hlater g' hafter n id d hd).referent ht
  · intro n id id' d d' hd hd' hne he
    have hkey := congrArg Identity.key he
    change d.key = d'.key at hkey
    rw [(hs.issued n id d hd).key, (hs.issued n id' d' hd').key] at hkey
    exact hne (TypeKey.defined.inj hkey)
  · intro c n d hc hdeclares hd m id d' hd'
    rw [← g.history_after_of_declaresIn? hdeclares] at hd'
    exact (hs.after hc).ne_of_not_computed (hs.not_computed_declared hdeclares) hd hd'
  · exact fun n g' hc hsteps id d d' hd hd' => hs.same_iff_computed hc hsteps hd hd'

def AllowsAll : Grove → List GroveCall → Prop
  | _, [] => True
  | g, c :: calls => g.Allows c ∧ (g.after c).AllowsAll calls

instance decidableAllowsAll : (g : Grove) → (calls : List GroveCall) → Decidable (g.AllowsAll calls)
  | _, [] => isTrue trivial
  | g, c :: calls =>
    have := decidableAllowsAll (g.after c) calls
    inferInstanceAs (Decidable (g.Allows c ∧ (g.after c).AllowsAll calls))

theorem AllowsAll.steps {calls : List GroveCall} (h : g.AllowsAll calls) :
    g.Steps (calls.foldl after g) := by
  induction calls generalizing g with
  | nil => exact .refl
  | cons c calls ih => exact .head (.call h.1) (ih h.2)

/-- Two types, of which one is described before the forest is copied; then a copy of that one is
declared in the copy of the forest. -/
def sampleCalls : List GroveCall :=
  [.operate 0 (.declare (.type (.ofName .classKind "A"))),
   .operate 0 (.declare (.type (.ofName .interfaceKind "B"))), .describe 0 ⟨0⟩, .fork 0,
   .describe 1 ⟨0⟩, .describe 1 ⟨1⟩, .describe 0 ⟨1⟩, .describe 0 ⟨2⟩, .copy 0 ⟨0⟩ 1,
   .describe 1 ⟨2⟩]

def sample : Grove := sampleCalls.foldl after start

theorem sample_faithfulIdentity : sample.Reachable ∧ sample.FaithfulIdentity ∧
    sample.history = [.issued 1 ⟨2⟩ ⟨1, .defined ⟨2⟩ "A" .classKind⟩,
      .issued 0 ⟨1⟩ ⟨0, .defined ⟨1⟩ "B" .interfaceKind⟩,
      .issued 1 ⟨1⟩ ⟨1, .defined ⟨1⟩ "B" .interfaceKind⟩,
      .issued 1 ⟨0⟩ ⟨0, .defined ⟨0⟩ "A" .classKind⟩, .forked 0 1,
      .issued 0 ⟨0⟩ ⟨0, .defined ⟨0⟩ "A" .classKind⟩] := by
  have hallowed : start.AllowsAll sampleCalls := by decide +kernel
  exact ⟨hallowed.steps, reachable_faithfulIdentity hallowed.steps, by decide +kernel⟩

end Grove

end DeclForest
