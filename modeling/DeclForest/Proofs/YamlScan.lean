import DeclForest.Proofs.YamlScalars
import DeclForest.Yaml.Scan

/-!
How the scan of written YAML goes from token to token. Each step first settles the scan: it moves to
the next token, and closes the blocks that are further in. Blocks are closed late, at the start of
the next line, so what a scan has read between two lines is said as if they were closed already.
-/

namespace DeclForest.Yaml.Scan

variable {s t u : Scan} {tokens : List Token} {indents : List Nat} {column : Nat}
  {text rest : List Char} {x : Char} {c : Cursor} {allowed : Bool}

/-- The scan at its next token, with all blocks closed that do not reach it. -/
def settle (s : Scan) : Option Scan :=
  s.toNext.dropStale.map fun s => s.unroll (s.cursor.column + 1)

theorem run_succ (n : Nat) (s : Scan) : s.run (n + 1) = s.settle.bind fun u =>
    if u.cursor.rest = [] then u.finish else u.token.bind fun t => t.run n := by
  rw [run, settle]
  cases s.toNext.dropStale <;> rfl

def LeadsTo (s t : Scan) : Prop := ∀ n, s.cursor.rest.length < n →
  ∃ m, t.cursor.rest.length < m ∧ run n s = run m t

theorem LeadsTo.refl (s : Scan) : LeadsTo s s := fun n hn => ⟨n, hn, rfl⟩

theorem LeadsTo.trans (h : LeadsTo s t) (h' : LeadsTo t u) : LeadsTo s u := by
  intro n hn
  obtain ⟨m, hm, hrun⟩ := h n hn
  obtain ⟨k, hk, hrun'⟩ := h' m hm
  exact ⟨k, hk, hrun.trans hrun'⟩

structure Settles (s u : Scan) : Prop where
  eq : s.settle = some u
  length_le : u.cursor.rest.length ≤ s.cursor.rest.length

theorem Settles.leadsTo (h : Settles s u) (htoken : u.token = some t)
    (hlength : t.cursor.rest.length < u.cursor.rest.length) : LeadsTo s t := by
  have hrest : u.cursor.rest ≠ [] := List.ne_nil_of_length_pos (by omega)
  have hle := h.length_le
  intro n hn
  cases n with
  | zero => omega
  | succ n =>
    refine ⟨n, by omega, ?_⟩
    rw [run_succ, h.eq, Option.bind_some, if_neg hrest, htoken, Option.bind_some]

/-- Outside of brackets and without a key in sight, with the tokens so far, the innermost first. -/
structure At (s : Scan) (tokens : List Token) (indents : List Nat) (column : Nat)
    (rest : List Char) (keyAllowed : Bool) : Prop where
  tokens_eq : s.tokens = tokens
  indents_eq : s.indents = indents
  column_eq : s.cursor.column = column
  rest_eq : s.cursor.rest = rest
  candidate_eq : s.candidate = none
  outer_eq : s.outer = []
  keyAllowed_eq : s.keyAllowed = keyAllowed

/-- Where the next line starts that is read. Once the blocks are closed down to the given ones, the
tokens are as given; the next line is indented less than any of the blocks to close. -/
structure Between (s : Scan) (tokens : List Token) (indents : List Nat) (text : List Char) :
    Prop where
  candidate_eq : s.candidate = none
  outer_eq : s.outer = []
  place : s.keyAllowed = false ∧ s.cursor.rest = '\n' :: text ∨
    s.keyAllowed = true ∧ s.cursor.rest = unindented text ∧ s.cursor.column = indentOf text
  inner : ∃ inner, s.indents = inner ++ indents ∧
    tokens = inner.map (fun _ => Token.blockEnd) ++ s.tokens ∧ ∀ d ∈ inner, indentOf text < d

theorem skipMark_eq (h : c.rest.head? ≠ some '\ufeff') : c.skipMark = c := by
  rw [Cursor.skipMark, if_neg fun hmark => h hmark.2]

theorem skipComment_eq (h : c.rest.head? ≠ some '#') : c.skipComment = c := by
  rw [Cursor.skipComment, if_neg h]

/-- Spaces in front of a token are passed over. -/
theorem gapFrom_blanks {n m : Nat} {flow : Bool} (hrest : c.rest = spaces m ++ rest)
    (hstart : ∀ x, rest.head? = some x → Starts x) :
    gapFrom flow (n + 1) c allowed = (c.skip m, allowed) := by
  have hmark : c.rest.head? ≠ some '\ufeff' := by
    rw [hrest]
    cases m with
    | zero => exact fun hx => absurd (hstart _ hx).ascii (by decide)
    | succ m => exact fun hx => absurd (Option.some.inj hx) (by decide)
  have hrun : c.run (fun x => x = ' ' || x = '\t' && (flow || !allowed)) =
      (spaces m, c.skip m) := by
    refine Cursor.run_spaces rfl hrest fun x hx => ?_
    have htab : x ≠ '\t' := ne_of_isAscii (hstart x hx).ascii rfl
    simp [(hstart x hx).space, htab]
  have hskip : (c.skip m).rest = rest := by simp [hrest, spaces]
  have hbreak : (c.skip m).rest.head?.any isBreak = false := by
    rw [hskip]
    cases hx : rest.head? with
    | none => rfl
    | some x => exact isBreak_of_isAscii (hstart x hx).ascii
  have hcomment : (c.skip m).skipComment = c.skip m := by
    refine skipComment_eq ?_
    rw [hskip]
    exact fun hx => (hstart _ hx).hash rfl
  rw [gapFrom, skipMark_eq hmark, hrun]
  simp only [hcomment, hbreak, Bool.false_eq_true, if_false]

/-- So is the end of a line with the indentation of the next one. -/
theorem gapFrom_line {n : Nat} (h : IsLine text) (hrest : c.rest = '\n' :: text) :
    gapFrom false (n + 2) c allowed = (c.toLine, true) := by
  have hrun : c.run (fun x => x = ' ' || x = '\t' && (false || !allowed)) = ([], c) := by
    rw [Cursor.run, hrest]
    rfl
  have hnext : gapFrom false (n + 1) c.nextLine true = (c.nextLine.skip (indentOf text), true) :=
    gapFrom_blanks (Cursor.nextLine_rest hrest) h.starts
  rw [gapFrom, skipMark_eq (by simp [hrest]), hrun]
  simp only [skipComment_eq (c := c) (by simp [hrest]), hrest, List.head?_cons, Option.any_some,
    isBreak, decide_true, Bool.true_or, if_true, Bool.not_false, Bool.or_true, hnext,
    Cursor.skip_nextLine hrest]

/-- The blocks that do not reach a column are closed, and no others. -/
theorem unroll_eq {inner : List Nat} (houter : s.outer = []) (h : s.indents = inner ++ indents)
    (hinner : ∀ d ∈ inner, column ≤ d) (hindents : ∀ d, indents.head? = some d → d < column) :
    s.unroll column =
      { s with tokens := inner.map (fun _ => Token.blockEnd) ++ s.tokens, indents } := by
  have hclosed : s.indents.takeWhile (fun d => column ≤ d) = inner := by
    rw [h, List.takeWhile_append_of_pos fun d hd => by simpa using hinner d hd]
    cases indents with
    | nil => simp
    | cons d indents =>
      have hlt := hindents d rfl
      rw [List.takeWhile_cons, if_neg (by simpa using hlt), List.append_nil]
  have hflow : s.inFlow = false := by simp [inFlow, houter]
  rw [unroll, hflow, hclosed, h]
  simp

theorem settle_eq {inner : List Nat}
    (h : gapFrom s.inFlow (s.cursor.rest.length + 1) s.cursor s.keyAllowed = (c, allowed))
    (hcandidate : refresh c s.candidate = some s.candidate) (houter : s.outer = [])
    (hind : s.indents = inner ++ indents) (hinner : ∀ d ∈ inner, c.column < d)
    (hindents : ∀ d, indents.head? = some d → d ≤ c.column) : s.settle =
      some { s with
        cursor := c, keyAllowed := allowed, indents
        tokens := inner.map (fun _ => Token.blockEnd) ++ s.tokens } := by
  have hrefresh : s.outer.mapM (refresh c) = some s.outer := by
    rw [houter]
    rfl
  rw [settle, toNext, h]
  simp only [dropStale, hcandidate, hrefresh, Option.bind_eq_bind, Option.bind_some,
    Option.pure_def, Option.map_some]
  exact congrArg some (unroll_eq houter hind hinner fun d hd => Nat.lt_succ_of_le (hindents d hd))

/-- Between two tokens of a line. -/
theorem At.settle {m : Nat}
    (h : At s tokens indents column (spaces m ++ x :: rest) allowed) (hx : Starts x)
    (hindents : ∀ d, indents.head? = some d → d ≤ column + m) :
    ∃ u, Settles s u ∧ At u tokens indents (column + m) (x :: rest) allowed := by
  obtain ⟨htokens, hind, hcolumn, hrest, hcandidate, houter, hallowed⟩ := h
  have hgap : gapFrom s.inFlow (s.cursor.rest.length + 1) s.cursor s.keyAllowed =
      (s.cursor.skip m, s.keyAllowed) :=
    gapFrom_blanks hrest fun y hy => Option.some.inj hy ▸ hx
  have hsettle := settle_eq hgap (by rw [hcandidate]; rfl) houter (List.nil_append _).symm
    (List.forall_mem_nil _) (by simpa [hcolumn, hind] using hindents)
  exact ⟨_, ⟨hsettle, by simp⟩, by simpa using htokens, hind, by simp [hcolumn],
    by simp [hrest, spaces], hcandidate, houter, hallowed⟩

/-- At the start of a line, where the blocks that are further in get closed. -/
theorem Between.settle (h : Between s tokens indents text) (htext : IsLine text)
    (hindents : ∀ d, indents.head? = some d → d ≤ indentOf text) :
    ∃ u, Settles s u ∧ At u tokens indents (indentOf text) (unindented text) true := by
  obtain ⟨hcandidate, houter, hplace, inner, hinner, htokens, hdeep⟩ := h
  have hflow : s.inFlow = false := by simp [inFlow, houter]
  obtain ⟨c, hgap, hrest, hcolumn⟩ : ∃ c, gapFrom s.inFlow (s.cursor.rest.length + 1) s.cursor
      s.keyAllowed = (c, true) ∧ c.rest = unindented text ∧ c.column = indentOf text := by
    rw [hflow]
    rcases hplace with ⟨-, hrest⟩ | ⟨hallowed, hrest, hcolumn⟩
    · refine ⟨s.cursor.toLine, ?_, Cursor.toLine_rest hrest, Cursor.toLine_column hrest⟩
      have hline : ∀ n, gapFrom false (n + 2) s.cursor s.keyAllowed = (s.cursor.toLine, true) :=
        fun n => gapFrom_line htext hrest
      have hlength : s.cursor.rest.length = text.length + 1 := by rw [hrest, List.length_cons]
      rw [hlength, hline]
    · refine ⟨s.cursor, ?_, hrest, hcolumn⟩
      rw [gapFrom_blanks (m := 0) hrest htext.starts, hallowed]
      rfl
  have hlength : c.rest.length ≤ s.cursor.rest.length := by
    have htext := congrArg List.length (spaces_append_unindented text)
    rw [List.length_append] at htext
    rcases hplace with ⟨-, hplace⟩ | ⟨-, hplace, -⟩
    · rw [hrest, hplace, List.length_cons]
      omega
    · exact Nat.le_of_eq (by rw [hrest, hplace])
  have hsettle := settle_eq hgap (by rw [hcandidate]; rfl) houter hinner (by rwa [hcolumn])
    (by rwa [hcolumn])
  exact ⟨_, ⟨hsettle, hlength⟩, htokens.symm, rfl, hcolumn, hrest, hcandidate, houter, rfl⟩

/-- What is read where no bracket, quote or property stands. -/
theorem token_eq {more : List Char} (hrest : s.cursor.rest = x :: more) (houter : s.outer = [])
    (hplace : 0 < s.cursor.column ∨ isKeyChar x = true ∨ gapAt more = true)
    (hx : x ∉ "[{]},*&!'\"%".toList) : s.token =
      if x = '-' ∧ gapAt more = true then s.mark .blockSequence .entry true
      else if x = '?' ∧ gapAt more = true then s.mark .blockMapping .key true
      else if x = ':' ∧ gapAt more = true then s.valueMark
      else if x = '|' then s.blockScalar true
      else if x = '>' then s.blockScalar false
      else if Plain.startsAt false (x :: more) = true then s.plain
      else none := by
  have hflow : s.inFlow = false := by simp [inFlow, houter]
  obtain ⟨hstart, hend⟩ := Bool.or_eq_false_iff.mp (Cursor.atAnyMarker_eq_false hrest hplace)
  have hdirective : s.cursor.startsWith "%" = false := by
    have hne : '%' ≠ x := fun h => hx (h ▸ by decide)
    simp [Cursor.startsWith, hrest, List.isPrefixOf, hne]
  rw [token]
  simp only [hdirective, hstart, hend, hrest, hflow, Bool.and_false, Bool.false_eq_true, if_false,
    List.head?_cons, List.drop_succ_cons, List.drop_zero]
  split
  all_goals rename_i heq; cases heq
  case h_11 => simp
  all_goals exact absurd (by decide) hx

theorem token_plain {more : List Char} (hrest : s.cursor.rest = x :: more) (houter : s.outer = [])
    (hplace : 0 < s.cursor.column ∨ isKeyChar x = true) (h : StartsPlain x more) :
    s.token = s.plain := by
  have hne : ∀ y ∈ indicators.toList, x ≠ y := fun y hy hxy => h.indicator (hxy ▸ hy)
  have hx : x ∉ "[{]},*&!'\"%".toList := by
    intro hx
    have hall : ("[{]},*&!'\"%".toList.all (· ∈ indicators.toList)) = true := by decide
    exact h.indicator (by simpa using List.all_eq_true.mp hall x hx)
  rw [token_eq hrest houter (hplace.imp_right .inl) hx, if_neg, if_neg, if_neg,
    if_neg (hne '|' (by decide)), if_neg (hne '>' (by decide)), if_pos h.startsAt]
  · simp +contextual [h.spaced]
  · simp +contextual [h.spaced]
  · simp +contextual [h.spaced]

inductive Opens (column : Nat) : List Token → List Nat → List Token → List Nat → Prop where
  | first {tokens : List Token} {indents : List Nat} :
      (∀ d, indents.head? = some d → d < column) →
      Opens column tokens indents (.blockMapping :: tokens) (column :: indents)
  | further {tokens : List Token} {outer : List Nat} :
      Opens column tokens (column :: outer) tokens (column :: outer)

def candidateAt (s : Scan) : KeyCandidate :=
  ⟨s.tokens.length, !s.inFlow && s.indents.head? = some s.cursor.column, s.cursor.index,
    s.cursor.line, s.cursor.column⟩

theorem saveCandidate_of_allowed (hallowed : s.keyAllowed = true)
    (hcandidate : s.candidate = none) :
    s.saveCandidate = some { s with candidate := some s.candidateAt } := by
  simp [saveCandidate, hallowed, dropCandidate, hcandidate, giveUp, candidateAt, inFlow]

theorem saveCandidate_of_not (hallowed : s.keyAllowed = false) : s.saveCandidate = some s := by
  simp [saveCandidate, hallowed]

theorem plain_eq {saved : Scan} {scalar : Plain.Result} (hsave : s.saveCandidate = some saved)
    (hscalar : Plain.read saved.inFlow saved.floor saved.cursor = some scalar) :
    s.plain = some { saved.push (.scalar true (String.ofList scalar.text)) with
      cursor := scalar.cursor, keyAllowed := scalar.brokeLine } := by
  rw [plain, hsave]
  simp only [Option.bind_eq_bind, Option.bind_some, hscalar]
  rfl

theorem At.inFlow (h : At s tokens indents column text allowed) : s.inFlow = false := by
  simp [Scan.inFlow, h.outer_eq]

def behindKey (s : Scan) (key : String) : Scan :=
  { s with
    candidate := some s.candidateAt, tokens := .scalar true key :: s.tokens
    cursor := s.cursor.skip key.toList.length, keyAllowed := false }

theorem At.token_key {key : String}
    (h : At s tokens indents column (key.toList ++ ':' :: rest) true)
    (hkey : IsKey key.toList) (hrest : gapAt rest = true) : s.token = some (s.behindKey key) := by
  obtain ⟨x, more, hx⟩ := List.exists_cons_of_ne_nil hkey.ne_nil
  have hchar := hkey.chars x (by rw [hx]; exact List.mem_cons_self)
  have hfirst : s.cursor.rest = x :: (more ++ ':' :: rest) := by rw [h.rest_eq, hx]; rfl
  have hscalar : Plain.read s.inFlow s.floor s.cursor =
      some ⟨key.toList, s.cursor.skip key.toList.length, false⟩ := by
    rw [h.inFlow, Plain.read_key hkey h.rest_eq hrest]
  rw [token_plain hfirst h.outer_eq (.inr hchar) (startsPlain_of_isKeyChar hchar _),
    plain_eq (saveCandidate_of_allowed h.keyAllowed_eq h.candidate_eq) hscalar]
  simp [behindKey, push]

theorem At.settles_behindKey {key : String}
    (h : At s tokens indents column (key.toList ++ ':' :: rest) true) (hkey : IsKey key.toList)
    (hindents : ∀ d, indents.head? = some d → d ≤ column) :
    Settles (s.behindKey key) (s.behindKey key) := by
  have hrest : (s.behindKey key).cursor.rest = spaces 0 ++ ':' :: rest := by
    simp [behindKey, h.rest_eq, spaces]
  have hstale : isStale (s.cursor.skip key.toList.length) s.candidateAt = false := by
    have hlength := hkey.length_le
    simp [isStale, candidateAt]
    omega
  have hsettle := settle_eq (s := s.behindKey key)
    (gapFrom_blanks hrest fun x hx => Option.some.inj hx ▸ ⟨rfl, by decide, by decide⟩)
    (by simp [refresh, behindKey, hstale]) h.outer_eq (List.nil_append _).symm
    (List.forall_mem_nil _) ?_
  · refine ⟨hsettle.trans ?_, Nat.le_refl _⟩
    simp [Cursor.skip]
  · intro d hd
    have hle := hindents d (h.indents_eq ▸ hd)
    simp [behindKey, h.column_eq]
    omega

theorem insertAt_append {later earlier : List Token} (h : s.tokens = later ++ earlier) (t : Token) :
    s.insertAt earlier.length t = { s with tokens := later ++ t :: earlier } := by
  simp [insertAt, h]

theorem floor_le (h : ∀ d, s.indents.head? = some d → d < column) : s.floor ≤ column := by
  rw [floor]
  cases hd : s.indents.head? with
  | none => exact Nat.zero_le column
  | some d => exact h d hd

theorem roll_of_floor_le (houter : s.outer = []) (hfloor : s.floor ≤ column) (position : Nat)
    (t : Token) : s.roll column position t =
      { s.insertAt position t with indents := column :: s.indents } := by
  simp [roll, inFlow, houter, hfloor]

theorem roll_of_lt_floor (hfloor : column < s.floor) (position : Nat) (t : Token) :
    s.roll column position t = s := by
  simp [roll, Nat.not_le.mpr hfloor]

theorem roll_opens {opened later : List Token} {within : List Nat}
    (hopens : Opens column tokens indents opened within) (hind : s.indents = indents)
    (houter : s.outer = []) (htokens : s.tokens = later ++ tokens) :
    s.roll column tokens.length .blockMapping =
      { s with tokens := later ++ opened, indents := within } := by
  cases hopens with
  | first hlt =>
    rw [roll_of_floor_le houter (floor_le (hind ▸ hlt)), insertAt_append htokens, hind]
  | further =>
    rw [roll_of_lt_floor (by simp [floor, hind])]
    simp [← htokens, ← hind]

/-- The colon behind a key puts the key mark in front of it, and the start of the mapping too if it
starts there. -/
theorem valueMark_eq {key : String} {opened : List Token} {within : List Nat} {k : KeyCandidate}
    (hcandidate : s.candidate = some k) (hposition : k.position = tokens.length)
    (hcolumn : k.column = column) (htokens : s.tokens = [.scalar true key] ++ tokens)
    (hind : s.indents = indents) (houter : s.outer = [])
    (hopens : Opens column tokens indents opened within) : s.valueMark =
      some { s with
        tokens := .value :: .scalar true key :: .key :: opened, indents := within
        cursor := s.cursor.skip 1, candidate := none, keyAllowed := false } := by
  have hroll (marked : Scan) (htokens : marked.tokens = [.scalar true key, .key] ++ tokens)
      (hind : marked.indents = indents) (houter : marked.outer = []) :
      marked.roll column tokens.length .blockMapping = _ :=
    roll_opens hopens hind houter htokens
  rw [valueMark, hcandidate]
  simp only [hposition, hcolumn, insertAt_append htokens .key]
  rw [hroll { s with tokens := [.scalar true key] ++ .key :: tokens } rfl hind houter]
  rfl

/-- A key and the colon behind it. The tokens in front of the key are put there afterwards. -/
theorem At.key {key : String} {opened : List Token} {within : List Nat}
    (h : At s tokens indents column (key.toList ++ ':' :: rest) true) (hs : Settles u s)
    (hkey : IsKey key.toList) (hrest : gapAt rest = true)
    (hopens : Opens column tokens indents opened within) :
    ∃ t, LeadsTo u t ∧ At t (.value :: .scalar true key :: .key :: opened) within
      (column + key.toList.length + 1) rest false := by
  have hcolon : (s.behindKey key).cursor.rest = ':' :: rest := by
    simp [behindKey, h.rest_eq]
  have hlength : 0 < key.toList.length := List.length_pos_iff.mpr hkey.ne_nil
  have hindents : ∀ d, indents.head? = some d → d ≤ column := by
    cases hopens with
    | first hlt => exact fun d hd => Nat.le_of_lt (hlt d hd)
    | further => simp
  have hmark := token_eq hcolon h.outer_eq (.inr (.inr hrest)) (by decide)
  have hvalue : (s.behindKey key).valueMark = _ :=
    valueMark_eq rfl (congrArg List.length h.tokens_eq) h.column_eq
      (congrArg (Token.scalar true key :: ·) h.tokens_eq) h.indents_eq h.outer_eq hopens
  rw [if_neg (by simp), if_neg (by simp), if_pos ⟨rfl, hrest⟩, hvalue] at hmark
  refine ⟨_, (hs.leadsTo (h.token_key hkey hrest) ?_).trans
    ((h.settles_behindKey hkey hindents).leadsTo hmark ?_), rfl, rfl, ?_, ?_, rfl, h.outer_eq, rfl⟩
  · rw [hcolon, h.rest_eq]
    simp
    omega
  · simp [hcolon]
  · simp [behindKey, h.column_eq, Nat.add_assoc]
  · simp [hcolon]

end DeclForest.Yaml.Scan
