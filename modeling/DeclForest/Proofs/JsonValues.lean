import DeclForest.Proofs.JsonTokens

/-!
JSON values and their tokens. Each value has one list of tokens, and reading takes that list and no
other for the value: what was read at any time is what the open brackets and the complete values in
them stand for. Together with the grammar of tokens this is a grammar of JSON texts.
-/

namespace DeclForest.Json

namespace Value

mutual

def tokens : Value → List Token
  | null => [.null]
  | boolean b => [.boolean b]
  | number literal => [.number literal]
  | text content => [.text content]
  | list items => .openList :: tokensOfItems items ++ [.closeList]
  | object fields => .openObject :: tokensOfFields fields ++ [.closeObject]

def tokensOfItems : List Value → List Token
  | [] => []
  | [item] => item.tokens
  | item :: next :: items => item.tokens ++ .comma :: tokensOfItems (next :: items)

def tokensOfFields : List (Option String × Value) → List Token
  | [] => []
  | [(key, value)] => .text key :: .colon :: value.tokens
  | (key, value) :: next :: fields =>
    .text key :: .colon :: value.tokens ++ .comma :: tokensOfFields (next :: fields)

end

def Spells (v : Value) (text : String) : Prop := Spelled v.tokens text.toList

theorem tokensOfItems_concat (items : List Value) (v : Value) :
    tokensOfItems (items ++ [v]) =
      items.flatMap (fun w => w.tokens ++ [.comma]) ++ v.tokens := by
  induction items with
  | nil => simp [tokensOfItems]
  | cons item items ih =>
    obtain ⟨next, more, hmore⟩ := List.exists_cons_of_ne_nil
      (List.append_ne_nil_of_right_ne_nil items (List.cons_ne_nil v []))
    rw [List.cons_append, hmore, tokensOfItems, ← hmore, ih]
    simp

theorem tokensOfFields_concat (fields : List (Option String × Value)) (key : Option String)
    (v : Value) : tokensOfFields (fields ++ [(key, v)]) =
      fields.flatMap (fun f => .text f.1 :: .colon :: f.2.tokens ++ [.comma]) ++
        .text key :: .colon :: v.tokens := by
  induction fields with
  | nil => simp [tokensOfFields]
  | cons field fields ih =>
    obtain ⟨next, more, hmore⟩ := List.exists_cons_of_ne_nil
      (List.append_ne_nil_of_right_ne_nil fields (List.cons_ne_nil (key, v) []))
    rw [List.cons_append, hmore, tokensOfFields, ← hmore, ih]
    simp

end Value

namespace Reading

open Value (tokensOfItems tokensOfFields)

variable {frames : List Frame} {rest : List Token}

/-- The first token of a value closes no bracket. -/
theorem run_itemOrClose_tokens (v : Value) (rest : List Token) :
    (Reading.mk frames .itemOrClose none).run (v.tokens ++ rest) =
      (Reading.mk frames .value none).run (v.tokens ++ rest) := by
  cases v <;> simp [Value.tokens, run, step]

theorem exists_tokensOfItems {items : List Value} (h : items ≠ []) :
    ∃ text, tokensOfItems items = (items.head h).tokens ++ text := by
  match items, h with
  | [item], _ => exact ⟨[], by simp [tokensOfItems]⟩
  | item :: next :: items, _ => exact ⟨_, by rw [tokensOfItems]; rfl⟩

mutual

theorem run_tokens (frames : List Frame) (rest : List Token) : (v : Value) →
    (Reading.mk frames .value none).run (v.tokens ++ rest) =
      (put v frames).bind fun next => next.run rest
  | .null => by rw [Value.tokens]; rfl
  | .boolean b => by rw [Value.tokens]; rfl
  | .number literal => by rw [Value.tokens]; rfl
  | .text content => by rw [Value.tokens]; rfl
  | .list items => by
    have hclose : ∀ read : List Value,
        (Reading.mk (.list read :: frames) .afterValue none).run (.closeList :: rest) =
          (put (.list read.reverse) frames).bind fun next => next.run rest := fun _ => rfl
    rw [Value.tokens, List.cons_append, List.cons_append, List.append_assoc,
      run_cons_of_step (n := ⟨.list [] :: frames, .itemOrClose, none⟩) rfl, List.singleton_append]
    by_cases hitems : items = []
    · rw [hitems, tokensOfItems]
      rfl
    · have hfirst : (Reading.mk (.list [] :: frames) .itemOrClose none).run
          (tokensOfItems items ++ .closeList :: rest) =
          (Reading.mk (.list [] :: frames) .value none).run
            (tokensOfItems items ++ .closeList :: rest) := by
        obtain ⟨text, htext⟩ := exists_tokensOfItems hitems
        rw [htext, List.append_assoc]
        exact run_itemOrClose_tokens _ _
      rw [hfirst, run_items frames _ [] items hitems, hclose]
      simp
  | .object fields => by
    have hclose : ∀ read : List (Option String × Value),
        (Reading.mk (.object read :: frames) .afterValue none).run (.closeObject :: rest) =
          (put (.object read.reverse) frames).bind fun next => next.run rest := fun _ => rfl
    rw [Value.tokens, List.cons_append, List.cons_append, List.append_assoc,
      run_cons_of_step (n := ⟨.object [] :: frames, .keyOrClose, none⟩) rfl, List.singleton_append]
    by_cases hfields : fields = []
    · rw [hfields, tokensOfFields]
      rfl
    · have hfirst : (Reading.mk (.object [] :: frames) .keyOrClose none).run
          (tokensOfFields fields ++ .closeObject :: rest) =
          (Reading.mk (.object [] :: frames) .key none).run
            (tokensOfFields fields ++ .closeObject :: rest) := by
        match fields, hfields with
        | [(key, value)], _ => simp [tokensOfFields, run, step]
        | (key, value) :: next :: fields, _ => simp [tokensOfFields, run, step]
      rw [hfirst, run_fields frames _ [] fields hfields, hclose]
      simp

theorem run_items (frames : List Frame) (rest : List Token) (read : List Value) :
    (items : List Value) → items ≠ [] →
    (Reading.mk (.list read :: frames) .value none).run (tokensOfItems items ++ rest) =
      (Reading.mk (.list (items.reverse ++ read) :: frames) .afterValue none).run rest
  | [], h => absurd rfl h
  | [item], _ => by
    rw [tokensOfItems, run_tokens, put_list]
    rfl
  | item :: next :: items, _ => by
    rw [tokensOfItems, List.append_assoc, run_tokens, put_list, Option.bind_some, List.cons_append,
      run_cons_of_step (n := ⟨.list (item :: read) :: frames, .value, none⟩) rfl,
      run_items frames rest (item :: read) (next :: items) (List.cons_ne_nil _ _)]
    simp

theorem run_fields (frames : List Frame) (rest : List Token)
    (read : List (Option String × Value)) :
    (fields : List (Option String × Value)) → fields ≠ [] →
    (Reading.mk (.object read :: frames) .key none).run (tokensOfFields fields ++ rest) =
      (Reading.mk (.object (fields.reverse ++ read) :: frames) .afterValue none).run rest
  | [], h => absurd rfl h
  | [(key, value)], _ => by
    rw [tokensOfFields, List.cons_append, List.cons_append,
      run_cons_of_step (n := ⟨.field read key :: frames, .colon, none⟩) rfl,
      run_cons_of_step (n := ⟨.field read key :: frames, .value, none⟩) rfl, run_tokens, put_field]
    rfl
  | (key, value) :: next :: fields, _ => by
    rw [tokensOfFields, List.append_assoc, List.cons_append, List.cons_append,
      run_cons_of_step (n := ⟨.field read key :: frames, .colon, none⟩) rfl,
      run_cons_of_step (n := ⟨.field read key :: frames, .value, none⟩) rfl, run_tokens, put_field,
      Option.bind_some, List.cons_append,
      run_cons_of_step (n := ⟨.object ((key, value) :: read) :: frames, .key, none⟩) rfl,
      run_fields frames rest ((key, value) :: read) (next :: fields) (List.cons_ne_nil _ _)]
    simp

end

def opened : Frame → List Token
  | .list items => .openList :: items.reverse.flatMap fun v => v.tokens ++ [.comma]
  | .object fields =>
    .openObject :: fields.reverse.flatMap fun f => .text f.1 :: .colon :: f.2.tokens ++ [.comma]
  | .field fields key =>
    .openObject :: (fields.reverse.flatMap fun f =>
      .text f.1 :: .colon :: f.2.tokens ++ [.comma]) ++ [.text key, .colon]

def allOpened (frames : List Frame) : List Token := frames.reverse.flatMap opened

theorem allOpened_cons (frame : Frame) (frames : List Frame) :
    allOpened (frame :: frames) = allOpened frames ++ opened frame := by
  simp [allOpened]

def LeadsTo (r : Reading) (tokens : List Token) : Prop :=
  match r.expect with
  | .value | .key => r.result = none ∧ tokens = allOpened r.frames
  | .itemOrClose => r.result = none ∧ tokens = allOpened r.frames ∧
    ∃ frames, r.frames = .list [] :: frames
  | .keyOrClose => r.result = none ∧ tokens = allOpened r.frames ∧
    ∃ frames, r.frames = .object [] :: frames
  | .colon => r.result = none ∧ tokens ++ [.colon] = allOpened r.frames
  | .afterValue => (r.frames = [] ∧ ∃ v : Value, r.result = some v ∧ tokens = v.tokens) ∨
    (r.result = none ∧ tokens ++ [.comma] = allOpened r.frames)

variable {r n : Reading} {t : Token} {tokens : List Token} {v : Value}

theorem leadsTo_put (hr : put v frames = some r) : LeadsTo r (allOpened frames ++ v.tokens) := by
  cases frames with
  | nil =>
    obtain rfl := Option.some.inj hr
    exact .inl ⟨rfl, v, rfl, rfl⟩
  | cons frame frames =>
    cases frame with
    | list items =>
      obtain rfl := Option.some.inj hr
      refine .inr ⟨rfl, ?_⟩
      simp [allOpened_cons, opened]
    | object fields => simp [put] at hr
    | field fields key =>
      obtain rfl := Option.some.inj hr
      refine .inr ⟨rfl, ?_⟩
      simp [allOpened_cons, opened]

theorem leadsTo_startValue (hr : startValue frames t = some r) :
    LeadsTo r (allOpened frames ++ [t]) := by
  cases t with
  | null => exact leadsTo_put (v := .null) hr
  | boolean b => exact leadsTo_put (v := .boolean b) hr
  | number literal => exact leadsTo_put (v := .number literal) hr
  | text content => exact leadsTo_put (v := .text content) hr
  | openList =>
    obtain rfl := Option.some.inj hr
    exact ⟨rfl, by simp [allOpened_cons, opened], frames, rfl⟩
  | openObject =>
    obtain rfl := Option.some.inj hr
    exact ⟨rfl, by simp [allOpened_cons, opened], frames, rfl⟩
  | _ => simp [startValue] at hr

theorem leadsTo_startKey (hr : startKey frames t = some r) :
    LeadsTo r (allOpened frames ++ [t]) := by
  unfold startKey at hr
  split at hr
  · obtain rfl := Option.some.inj hr
    exact ⟨rfl, by simp [allOpened_cons, opened]⟩
  · simp at hr

/-- Where a bracket closes, what it opened with and its last value are a whole value. -/
theorem leadsTo_close (hr : close frames t = some r)
    (h : tokens ++ [.comma] = allOpened frames) : LeadsTo r (tokens ++ [t]) := by
  unfold close at hr
  split at hr
  · rename_i items frames
    cases items with
    | nil => simp [allOpened_cons, opened] at h
    | cons v items =>
      have htokens : tokens = allOpened frames ++
          (.openList :: items.reverse.flatMap (fun w => w.tokens ++ [.comma]) ++ v.tokens) := by
        apply (List.append_left_inj [Token.comma]).mp
        simpa [allOpened_cons, opened] using h
      have hvalue := leadsTo_put hr
      rw [Value.tokens, List.reverse_cons, Value.tokensOfItems_concat] at hvalue
      rw [htokens]
      simpa using hvalue
  · rename_i fields frames
    cases fields with
    | nil => simp [allOpened_cons, opened] at h
    | cons field fields =>
      obtain ⟨key, v⟩ := field
      have htokens : tokens = allOpened frames ++ (.openObject :: fields.reverse.flatMap
          (fun f => .text f.1 :: .colon :: f.2.tokens ++ [.comma]) ++
            .text key :: .colon :: v.tokens) := by
        apply (List.append_left_inj [Token.comma]).mp
        simpa [allOpened_cons, opened] using h
      have hvalue := leadsTo_put hr
      rw [Value.tokens, List.reverse_cons, Value.tokensOfFields_concat] at hvalue
      rw [htokens]
      simpa using hvalue
  · simp at hr

theorem leadsTo_step (hn : r.step t = some n) (h : LeadsTo r tokens) :
    LeadsTo n (tokens ++ [t]) := by
  obtain ⟨frames, expect, result⟩ := r
  cases expect with
  | value =>
    obtain ⟨-, rfl⟩ := h
    exact leadsTo_startValue hn
  | key =>
    obtain ⟨-, rfl⟩ := h
    exact leadsTo_startKey hn
  | itemOrClose =>
    obtain ⟨-, rfl, outer, hframes⟩ := h
    obtain rfl : frames = .list [] :: outer := hframes
    by_cases ht : t = .closeList
    · subst ht
      have hvalue := leadsTo_put (v := .list []) hn
      simpa [allOpened_cons, opened, Value.tokens, tokensOfItems] using hvalue
    · simp only [step, ht, if_false] at hn
      exact leadsTo_startValue hn
  | keyOrClose =>
    obtain ⟨-, rfl, outer, hframes⟩ := h
    obtain rfl : frames = .object [] :: outer := hframes
    by_cases ht : t = .closeObject
    · subst ht
      have hvalue := leadsTo_put (v := .object []) hn
      simpa [allOpened_cons, opened, Value.tokens, tokensOfFields] using hvalue
    · simp only [step, ht, if_false] at hn
      exact leadsTo_startKey hn
  | colon =>
    obtain ⟨hresult, htokens⟩ := h
    by_cases ht : t = .colon
    · simp only [step, ht, if_true, Option.some.injEq] at hn
      subst hn
      rw [ht]
      exact ⟨hresult, htokens⟩
    · simp [step, ht] at hn
  | afterValue =>
    rcases h with ⟨hframes, v, -, -⟩ | ⟨hresult, htokens⟩
    · obtain rfl : frames = [] := hframes
      by_cases ht : t = .comma <;> simp [step, ht, close] at hn
    · by_cases ht : t = .comma
      · subst ht
        simp only [step, if_true] at hn
        split at hn
        · simp at hn
        · obtain rfl := Option.some.inj hn
          exact ⟨hresult, htokens⟩
        · obtain rfl := Option.some.inj hn
          exact ⟨hresult, htokens⟩
      · simp only [step, ht, if_false] at hn
        exact leadsTo_close hn htokens

theorem leadsTo_run {more : List Token} (hn : r.run more = some n) (h : LeadsTo r tokens) :
    LeadsTo n (tokens ++ more) := by
  induction more generalizing r tokens with
  | nil =>
    obtain rfl := Option.some.inj hn
    rwa [List.append_nil]
  | cons t more ih =>
    obtain ⟨next, hnext, hrest⟩ := Option.bind_eq_some_iff.mp hn
    have hmore := ih hrest (leadsTo_step hnext h)
    rwa [List.append_assoc, List.singleton_append] at hmore

end Reading

namespace Value

variable {tokens : List Token} {v : Value} {text : String}

/-- A value is read from its tokens, and from no others. -/
theorem ofTokens?_eq_some_iff : ofTokens? tokens = some v ↔ tokens = v.tokens := by
  constructor
  · intro h
    unfold ofTokens? at h
    split at h
    · rename_i expect w hrun
      obtain rfl := Option.some.inj h
      have hread := Reading.leadsTo_run hrun ⟨rfl, rfl⟩
      cases expect with
      | afterValue =>
        rcases hread with ⟨-, v, hv, htokens⟩ | ⟨hnone, -⟩
        · obtain rfl := Option.some.inj hv
          exact htokens
        · simp at hnone
      | _ => simp [Reading.LeadsTo] at hread
    · simp at h
  · rintro rfl
    have hrun := Reading.run_tokens [] [] v
    rw [List.append_nil] at hrun
    rw [ofTokens?, Reading.initial, hrun]
    rfl

/-- JSON is read as its grammar says: a text gives a value exactly if it spells the value. -/
theorem ofText?_eq_some_iff : ofText? text = some v ↔ v.Spells text := by
  unfold ofText?
  rw [Option.bind_eq_some_iff]
  constructor
  · rintro ⟨tokens, htokens, hv⟩
    obtain rfl := ofTokens?_eq_some_iff.mp hv
    exact tokens?_eq_some_iff.mp htokens
  · intro h
    exact ⟨v.tokens, tokens?_eq_some_iff.mpr h, ofTokens?_eq_some_iff.mpr rfl⟩

def Spellable (v : Value) : Prop := ∃ text, v.Spells text

theorem spellable_iff : v.Spellable ↔ ∀ t ∈ v.tokens, t.Spellable := by
  constructor
  · rintro ⟨text, htext⟩ t ht
    exact htext.spellable ht
  · intro h
    obtain ⟨text, htext⟩ := exists_spelled h
    exact ⟨String.ofList (' ' :: text), by simpa [Spells] using htext⟩

theorem spellable_list_iff {items : List Value} :
    (list items).Spellable ↔ ∀ v ∈ items, v.Spellable := by
  have hopen : Token.openList.Spellable := ⟨_, .openList⟩
  have hclose : Token.closeList.Spellable := ⟨_, .closeList⟩
  have hcomma : Token.comma.Spellable := ⟨_, .comma⟩
  have hitems : (∀ t ∈ tokensOfItems items, t.Spellable) ↔ ∀ v ∈ items, v.Spellable := by
    induction items with
    | nil => simp [tokensOfItems]
    | cons item items ih =>
      rw [List.forall_mem_cons, spellable_iff, ← ih]
      cases items with
      | nil => simp [tokensOfItems]
      | cons next items =>
        rw [tokensOfItems, List.forall_mem_append, List.forall_mem_cons, and_iff_right hcomma]
  rw [spellable_iff, ← hitems, tokens, List.forall_mem_append, List.forall_mem_cons,
    List.forall_mem_singleton, and_iff_left hclose, and_iff_right hopen]

theorem spellable_object_iff {fields : List (Option String × Value)} :
    (object fields).Spellable ↔ ∀ f ∈ fields, (Token.text f.1).Spellable ∧ f.2.Spellable := by
  have hopen : Token.openObject.Spellable := ⟨_, .openObject⟩
  have hclose : Token.closeObject.Spellable := ⟨_, .closeObject⟩
  have hcomma : Token.comma.Spellable := ⟨_, .comma⟩
  have hcolon : Token.colon.Spellable := ⟨_, .colon⟩
  have hfields : (∀ t ∈ tokensOfFields fields, t.Spellable) ↔
      ∀ f ∈ fields, (Token.text f.1).Spellable ∧ f.2.Spellable := by
    induction fields with
    | nil => simp [tokensOfFields]
    | cons field fields ih =>
      rw [List.forall_mem_cons, spellable_iff, ← ih]
      cases fields with
      | nil =>
        obtain ⟨key, v⟩ := field
        simp [tokensOfFields, hcolon]
      | cons next fields =>
        rw [tokensOfFields, List.forall_mem_append, List.forall_mem_cons, List.forall_mem_cons,
          List.forall_mem_cons, and_iff_right hcolon, and_iff_right hcomma]
  rw [spellable_iff, ← hfields, tokens, List.forall_mem_append, List.forall_mem_cons,
    List.forall_mem_singleton, and_iff_left hclose, and_iff_right hopen]

end Value

end DeclForest.Json
