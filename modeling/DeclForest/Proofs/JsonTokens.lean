import DeclForest.Proofs.JsonText

/-!
JSON texts and their tokens. The grammar says how a token may be spelled, and that white space may
stand anywhere around tokens; the scan accepts exactly the texts of this grammar. It is shown state
by state: each state of the scan has a grammar of its own for what may follow, which each character
leads into that of the next state.
-/

namespace DeclForest.Json

def hexValueFrom? (value : Nat) (digits : List Char) : Option Nat :=
  digits.foldlM (fun n c => (Text.hexDigit? c).map (16 * n + ·)) value

inductive Body : List Piece → List Char → Prop where
  | done : Body [] []
  | char {c : Char} {pieces : List Piece} {text : List Char} : c ≠ '"' → c ≠ '\\' →
      0x20 ≤ c.toNat → Body pieces text → Body (.char c :: pieces) (c :: text)
  | escape {letter c : Char} {pieces : List Piece} {text : List Char} :
      escaped? letter = some c → Body pieces text →
      Body (.char c :: pieces) ('\\' :: letter :: text)
  | code {digits : List Char} {n : Nat} {pieces : List Piece} {text : List Char} :
      digits.length = 4 → hexValueFrom? 0 digits = some n → Body pieces text →
      Body (.unit n :: pieces) ('\\' :: 'u' :: (digits ++ text))

inductive Lexeme : Token → List Char → Prop where
  | openList : Lexeme .openList ['[']
  | closeList : Lexeme .closeList [']']
  | openObject : Lexeme .openObject ['{']
  | closeObject : Lexeme .closeObject ['}']
  | comma : Lexeme .comma [',']
  | colon : Lexeme .colon [':']
  | bare {t : Token} {word : List Char} : (∀ c ∈ word, isBare c = true) →
      bareToken? word = some t → Lexeme t word
  | text {pieces : List Piece} {body : List Char} : Body pieces body →
      Lexeme (.text ((Piece.assemble pieces).map String.ofList)) ('"' :: body ++ ['"'])

def Token.Spellable (t : Token) : Prop := ∃ word, Lexeme t word

def Token.isBare : Token → Bool
  | null | boolean _ | number _ => true
  | _ => false

/-- Tokens with white space around them. A bare word goes as far as it can. -/
inductive Spelled : List Token → List Char → Prop where
  | done {blanks : List Char} : (∀ c ∈ blanks, isBlank c = true) → Spelled [] blanks
  | token {blanks word text : List Char} {t : Token} {tokens : List Token} :
      (∀ c ∈ blanks, isBlank c = true) → Lexeme t word →
      (t.isBare = true → ∀ c, text.head? = some c → isBare c = false) → Spelled tokens text →
      Spelled (t :: tokens) (blanks ++ word ++ text)

variable {c : Char} {text word blanks : List Char} {t : Token} {tokens : List Token}

theorem isBlank_of_isBare (h : isBare c = true) : isBlank c = false := by
  cases hblank : isBlank c with
  | false => rfl
  | true =>
    simp only [isBlank, Bool.or_eq_true, decide_eq_true_eq] at hblank
    rcases hblank with ((rfl | rfl) | rfl) | rfl <;> exact absurd h (by decide)

theorem isBare_of_bareToken? (h : bareToken? word = some t) : t.isBare = true := by
  unfold bareToken? at h
  split_ifs at h <;> cases h <;> rfl

theorem ne_nil_of_bareToken? (h : bareToken? word = some t) : word ≠ [] := by
  rintro rfl
  simp [bareToken?, isNumber] at h

namespace Scan

theorem run_blanks (h : ∀ c ∈ blanks, isBlank c = true) (text : List Char) :
    between.run (blanks ++ text) = between.run text := by
  induction blanks with
  | nil => rfl
  | cons c blanks ih =>
    have hc : between.step c = some ([], between) := by
      simp [step, start, h c List.mem_cons_self]
    rw [List.cons_append, run_cons_of_silent hc, ih fun x hx => h x (List.mem_cons_of_mem c hx)]

theorem run_bare (h : ∀ c ∈ word, isBare c = true) (chars text : List Char) :
    (bare chars).run (word ++ text) = (bare (word.reverse ++ chars)).run text := by
  induction word generalizing chars with
  | nil => rfl
  | cons c word ih =>
    have hc : (bare chars).step c = some ([], bare (c :: chars)) := by
      simp [step, h c List.mem_cons_self]
    rw [List.cons_append, run_cons_of_silent hc, ih fun x hx => h x (List.mem_cons_of_mem c hx)]
    simp

/-- A bare word is a token where it ends. -/
theorem run_bare_end {chars : List Char} (ht : bareToken? chars.reverse = some t)
    (hend : ∀ c, text.head? = some c → isBare c = false) :
    (bare chars).run text = (between.run text).map (t :: ·) := by
  cases text with
  | nil => simp [run, finish, ht]
  | cons c rest =>
    have hc := hend c rfl
    simp only [run, step, hc, ht, Bool.false_eq_true, if_false, Option.bind_eq_bind,
      Option.bind_some]
    cases start c with
    | none => rfl
    | some next =>
      obtain ⟨tokens, next⟩ := next
      cases h : next.run rest <;> simp [h]

theorem run_hexDigits {digits : List Char} {value n left : Nat} (pieces : List Piece)
    (hlength : digits.length = left + 1) (hn : hexValueFrom? value digits = some n)
    (text : List Char) :
    (code pieces left value).run (digits ++ text) = (string (.unit n :: pieces)).run text := by
  induction digits generalizing value left with
  | nil => simp at hlength
  | cons c digits ih =>
    obtain ⟨d, hd, hrest⟩ := Option.bind_eq_some_iff.mp hn
    obtain ⟨d, hc, rfl⟩ := Option.map_eq_some_iff.mp hd
    cases left with
    | zero =>
      obtain rfl : digits = [] := List.eq_nil_of_length_eq_zero (by simpa using hlength)
      obtain rfl := Option.some.inj hrest
      rw [List.cons_append, run_cons_of_silent (n := string (.unit (16 * value + d) :: pieces))
        (by simp [step, hc])]
      rfl
    | succ left =>
      rw [List.cons_append, run_cons_of_silent (n := code pieces left (16 * value + d))
        (by simp [step, hc]), ih (by simpa using hlength) hrest]

theorem run_body {written : List Piece} {body : List Char} (h : Body written body)
    (pieces : List Piece) (text : List Char) :
    (string pieces).run (body ++ text) = (string (written.reverse ++ pieces)).run text := by
  induction h generalizing pieces with
  | done => rfl
  | @char c _ _ hquote hslash hcontrol _ ih =>
    have hc : (string pieces).step c = some ([], string (.char c :: pieces)) := by
      simp [step, hquote, hslash, Nat.not_lt.mpr hcontrol]
    rw [List.cons_append, run_cons_of_silent hc, ih]
    simp
  | @escape letter c _ _ hletter _ ih =>
    have hu : letter ≠ 'u' := by
      rintro rfl
      simp [escaped?] at hletter
    rw [List.cons_append, List.cons_append, run_cons_of_silent (n := escape pieces) rfl,
      run_cons_of_silent (n := string (.char c :: pieces)) (by simp [step, hu, hletter]), ih]
    simp
  | @code digits n _ body hlength hn _ ih =>
    rw [List.cons_append, List.cons_append, List.append_assoc,
      run_cons_of_silent (n := escape pieces) rfl,
      run_cons_of_silent (n := code pieces 3 0) rfl, run_hexDigits pieces hlength hn, ih]
    simp

theorem run_lexeme (h : Lexeme t word)
    (hend : t.isBare = true → ∀ c, text.head? = some c → isBare c = false) :
    between.run (word ++ text) = (between.run text).map (t :: ·) := by
  cases h with
  | bare hword ht =>
    obtain ⟨c, more, rfl⟩ := List.exists_cons_of_ne_nil (ne_nil_of_bareToken? ht)
    have hbare := hword c List.mem_cons_self
    have hc : between.step c = some ([], bare [c]) := by
      simp [step, start, isBlank_of_isBare hbare, hbare]
    rw [List.cons_append, run_cons_of_silent hc,
      run_bare fun x hx => hword x (List.mem_cons_of_mem c hx),
      run_bare_end (by simpa using ht) (hend (isBare_of_bareToken? ht))]
  | @text pieces body hbody =>
    have hclose : (string pieces.reverse).step '"' =
        some ([.text ((Piece.assemble pieces).map String.ofList)], between) := by
      simp [step]
    rw [List.append_assoc, List.cons_append, run_cons_of_silent (n := string []) rfl,
      run_body hbody, List.append_nil, List.singleton_append, run_cons_of_step hclose]
    rfl
  | _ => exact (scans_char rfl : Scans [_] [_]) text

end Scan

/-- Whatever is spelled by the grammar is scanned as the tokens it spells. -/
theorem Spelled.tokens?_eq (h : Spelled tokens text) : tokens? text = some tokens := by
  induction h with
  | @done blanks hblanks =>
    have hrun := Scan.run_blanks hblanks []
    rw [List.append_nil] at hrun
    rw [tokens?, hrun, Scan.run, Scan.finish]
  | token hblanks hword hend _ ih =>
    rw [tokens?] at ih
    rw [tokens?, List.append_assoc, Scan.run_blanks hblanks, Scan.run_lexeme hword hend, ih]
    rfl

theorem Spelled.blank_cons (hc : isBlank c = true) (h : Spelled tokens text) :
    Spelled tokens (c :: text) := by
  cases h with
  | done hblanks => exact .done (List.forall_mem_cons.mpr ⟨hc, hblanks⟩)
  | token hblanks hword hend hrest =>
    have hspelled := Spelled.token (List.forall_mem_cons.mpr ⟨hc, hblanks⟩) hword hend hrest
    simpa using hspelled

theorem Spelled.cons (hword : Lexeme t word)
    (hend : t.isBare = true → ∀ c, text.head? = some c → isBare c = false)
    (h : Spelled tokens text) : Spelled (t :: tokens) (word ++ text) := by
  have hspelled := Spelled.token (List.forall_mem_nil _) hword hend h
  simpa using hspelled

theorem Spelled.spellable (h : Spelled tokens text) (ht : t ∈ tokens) : t.Spellable := by
  induction h with
  | done => simp at ht
  | @token _ word _ first _ _ hword _ _ ih =>
    rcases List.mem_cons.mp ht with rfl | ht
    · exact ⟨word, hword⟩
    · exact ih ht

/-- Tokens that can be spelled one by one can be spelled in a row, with a blank before each. -/
theorem exists_spelled (h : ∀ t ∈ tokens, t.Spellable) :
    ∃ text, Spelled tokens (' ' :: text) := by
  induction tokens with
  | nil => exact ⟨[], .done (List.forall_mem_singleton.mpr rfl)⟩
  | cons t tokens ih =>
    obtain ⟨⟨word, hword⟩, hrest⟩ := List.forall_mem_cons.mp h
    obtain ⟨text, htext⟩ := ih hrest
    refine ⟨word ++ ' ' :: text, Spelled.blank_cons rfl (Spelled.cons hword ?_ htext)⟩
    rintro - c hc
    obtain rfl := Option.some.inj hc
    rfl

namespace Scan

/-- What may follow in a state: the rest of the literal that was begun, then further tokens. -/
def Accepts : Scan → List Token → List Char → Prop
  | between, tokens, text => Spelled tokens text
  | bare chars, tokens, text => ∃ more rest t others, text = more ++ rest ∧
      (∀ c ∈ more, isBare c = true) ∧ (∀ c, rest.head? = some c → isBare c = false) ∧
      bareToken? (chars.reverse ++ more) = some t ∧ tokens = t :: others ∧ Spelled others rest
  | string pieces, tokens, text => ∃ written body, Body written body ∧
      Closes (pieces.reverse ++ written) body tokens text
  | escape pieces, tokens, text => ∃ written body, Body written ('\\' :: body) ∧
      Closes (pieces.reverse ++ written) body tokens text
  | code pieces left value, tokens, text => ∃ digits n written body,
      digits.length = left + 1 ∧ hexValueFrom? value digits = some n ∧ Body written body ∧
      Closes (pieces.reverse ++ .unit n :: written) (digits ++ body) tokens text
where
  /-- The rest of a string with the pieces, and what follows the string. -/
  Closes (pieces : List Piece) (body : List Char) (tokens : List Token) (text : List Char) : Prop :=
    ∃ rest others, text = body ++ '"' :: rest ∧
      tokens = .text ((Piece.assemble pieces).map String.ofList) :: others ∧ Spelled others rest

theorem spelled_of_start {next : Scan} {others : List Token} {rest : List Char}
    (h : start c = some (tokens, next)) (hnext : next.Accepts others rest) :
    Spelled (tokens ++ others) (c :: rest) := by
  have hmark : ∀ t, Lexeme t [c] → t.isBare = false → Spelled others rest →
      Spelled (t :: others) (c :: rest) := by
    intro t ht hbare hrest
    exact Spelled.cons ht (by simp [hbare]) hrest
  unfold start at h
  split_ifs at h with hblank hbare
  · obtain ⟨rfl, rfl⟩ := Prod.mk.inj (Option.some.inj h)
    exact Spelled.blank_cons hblank hnext
  · obtain ⟨rfl, rfl⟩ := Prod.mk.inj (Option.some.inj h)
    obtain ⟨more, rest, t, others, rfl, hmore, hend, ht, rfl, hrest⟩ := hnext
    exact Spelled.cons (.bare (List.forall_mem_cons.mpr ⟨hbare, hmore⟩) ht) (fun _ => hend) hrest
  · split at h
    all_goals cases h
    · exact hmark _ .openList rfl hnext
    · exact hmark _ .closeList rfl hnext
    · exact hmark _ .openObject rfl hnext
    · exact hmark _ .closeObject rfl hnext
    · exact hmark _ .comma rfl hnext
    · exact hmark _ .colon rfl hnext
    · obtain ⟨written, body, hbody, rest, others, rfl, rfl, hrest⟩ := hnext
      have hspelled := Spelled.cons (.text hbody) (by simp [Token.isBare]) hrest
      simpa using hspelled

/-- What a character leads into may follow it. -/
theorem accepts_cons {state next : Scan} {others : List Token} {rest : List Char}
    (h : state.step c = some (tokens, next)) (hnext : next.Accepts others rest) :
    state.Accepts (tokens ++ others) (c :: rest) := by
  cases state with
  | between => exact spelled_of_start h hnext
  | bare chars =>
    rw [step] at h
    split_ifs at h with hbare
    · cases h
      obtain ⟨more, rest, t, others, rfl, hmore, hend, ht, rfl, hrest⟩ := hnext
      exact ⟨c :: more, rest, t, others, rfl, List.forall_mem_cons.mpr ⟨hbare, hmore⟩, hend,
        by simpa using ht, rfl, hrest⟩
    · obtain ⟨t, ht, h⟩ := Option.bind_eq_some_iff.mp h
      obtain ⟨⟨tokens', next'⟩, hstart, h⟩ := Option.bind_eq_some_iff.mp h
      cases h
      refine ⟨[], c :: rest, t, tokens' ++ others, rfl, by simp, ?_, by simpa using ht, rfl,
        spelled_of_start hstart hnext⟩
      intro x hx
      obtain rfl := Option.some.inj hx
      simpa using hbare
  | string pieces =>
    rw [step] at h
    split_ifs at h with hquote hslash hcontrol
    · cases h
      exact ⟨[], [], .done, rest, others, by rw [hquote]; rfl, by simp, hnext⟩
    · cases h
      obtain ⟨written, body, hbody, rest, others, rfl, rfl, hrest⟩ := hnext
      exact ⟨written, '\\' :: body, hbody, rest, others, by rw [hslash]; rfl, rfl, hrest⟩
    · cases h
      obtain ⟨written, body, hbody, rest, others, rfl, rfl, hrest⟩ := hnext
      exact ⟨_, _, .char hquote hslash (Nat.le_of_not_lt hcontrol) hbody, rest, others, rfl,
        by simp, hrest⟩
  | escape pieces =>
    rw [step] at h
    split_ifs at h with hu
    · cases h
      obtain ⟨digits, n, written, body, hlength, hn, hbody, rest, others, rfl, rfl, hrest⟩ := hnext
      exact ⟨_, _, .code hlength hn hbody, rest, others, by rw [hu]; rfl, rfl, hrest⟩
    · obtain ⟨e, he, h⟩ := Option.map_eq_some_iff.mp h
      cases h
      obtain ⟨written, body, hbody, rest, others, rfl, rfl, hrest⟩ := hnext
      exact ⟨_, _, .escape he hbody, rest, others, rfl, by simp, hrest⟩
  | code pieces left value =>
    obtain ⟨d, hd, h⟩ := Option.map_eq_some_iff.mp h
    cases left with
    | zero =>
      cases h
      obtain ⟨written, body, hbody, rest, others, rfl, rfl, hrest⟩ := hnext
      refine ⟨[c], 16 * value + d, written, body, rfl, ?_, hbody, rest, others, rfl, by simp, hrest⟩
      simp [hexValueFrom?, hd]
    | succ left =>
      cases h
      obtain ⟨digits, n, written, body, hlength, hn, hbody, rest, others, rfl, rfl, hrest⟩ := hnext
      refine ⟨c :: digits, n, written, body, by simp [hlength], ?_, hbody, rest, others, rfl, rfl,
        hrest⟩
      rw [hexValueFrom?, List.foldlM_cons, hd]
      exact hn

theorem accepts_of_run {state : Scan} (h : state.run text = some tokens) :
    state.Accepts tokens text := by
  induction text generalizing state tokens with
  | nil =>
    cases state with
    | between =>
      obtain rfl := Option.some.inj h
      exact .done (by simp)
    | bare chars =>
      obtain ⟨t, ht, rfl⟩ := Option.map_eq_some_iff.mp h
      exact ⟨[], [], t, [], rfl, by simp, by simp, by simpa using ht, rfl, .done (by simp)⟩
    | _ => simp [run, finish] at h
  | cons c rest ih =>
    obtain ⟨⟨found, next⟩, hstep, h⟩ := Option.bind_eq_some_iff.mp h
    obtain ⟨others, hrest, h⟩ := Option.bind_eq_some_iff.mp h
    obtain rfl := Option.some.inj h
    exact accepts_cons hstep (ih hrest)

end Scan

/-- The scan accepts the texts of the grammar, and reads in each the tokens that it spells. -/
theorem tokens?_eq_some_iff : tokens? text = some tokens ↔ Spelled tokens text :=
  ⟨fun h => Scan.accepts_of_run h, Spelled.tokens?_eq⟩

theorem spellable_text (s : String) : (Token.text (some s)).Spellable := by
  have hquoted : tokens? (quoted s) = some [.text (some s)] := by
    have hscan := scans_quoted s []
    rwa [List.append_nil] at hscan
  exact (tokens?_eq_some_iff.mp hquoted).spellable List.mem_cons_self

end DeclForest.Json
