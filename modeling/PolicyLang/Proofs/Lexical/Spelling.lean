import PolicyLang.Proofs.Lexical.Segmentation
import PolicyLang.Proofs.Number.Whole
import PolicyLang.Proofs.Tree.Spans
import PolicyLang.Proofs.Tree.WellFormed

/-!
# Texts that are cut as they are meant

`Cuts` goes from a text to what is left of it behind some lexemes. A text is `Spelled` if it is cut into
its words in front of everything that a word or a number stops at.
-/

namespace PolicyLang

open Lexical

namespace Lexical

/-- `Cuts cs ws rest`: the text `cs` is made of gaps and of lexemes that say `ws`, and then `rest`. -/
inductive Cuts : List Char → List (TokenKind × String) → List Char → Prop
  | nil {rest} : Cuts rest [] rest
  | gap {g cs ws rest} : GapPiece g cs → Cuts cs ws rest → Cuts (g ++ cs) ws rest
  | lexeme {l cs k text ws rest} : Lexeme l cs k text → Cuts cs ws rest →
      Cuts (l ++ cs) ((k, text) :: ws) rest

theorem Cuts.append {cs ds es : List Char} {ws ws' : List (TokenKind × String)}
    (h : Cuts cs ws ds) (h' : Cuts ds ws' es) : Cuts cs (ws ++ ws') es := by
  induction h with
  | nil => exact h'
  | gap hg _ ih => exact .gap hg (ih h')
  | lexeme hl _ ih => exact .lexeme hl (ih h')

/-- The tokens of pieces come first, and then those of the text behind them. -/
theorem Cuts.scan {cs rest : List Char} {ws : List (TokenKind × String)} (h : Cuts cs ws rest) :
    ∃ u, cs = u ++ rest ∧ ∀ p, ∃ ts, ts.map Token.word = ws ∧ (∀ t ∈ ts, t.kind ≠ .eof) ∧
      scan p cs = (scan (p.after u) rest).map (ts ++ ·) := by
  induction h with
  | @nil rest =>
    refine ⟨[], rfl, fun p => ⟨[], rfl, by simp, ?_⟩⟩
    rw [Pos.after_nil]
    cases PolicyLang.scan p rest <;> rfl
  | @gap g cs ws rest hg _ ih =>
    obtain ⟨u, rfl, hu⟩ := ih
    refine ⟨g ++ u, (List.append_assoc ..).symm, fun p => ?_⟩
    obtain ⟨ts, hw, hts, hs⟩ := hu (p.after g)
    exact ⟨ts, hw, hts, by rw [scan_gapPiece hg, hs, Pos.after_append]⟩
  | @lexeme l cs k text ws rest hl _ ih =>
    obtain ⟨u, rfl, hu⟩ := ih
    refine ⟨l ++ u, (List.append_assoc ..).symm, fun p => ?_⟩
    obtain ⟨ts, hw, hts, hs⟩ := hu (p.after l)
    refine ⟨⟨k, text, .between p (p.after l)⟩ :: ts, by rw [List.map_cons, hw]; rfl, ?_, ?_⟩
    · simpa using ⟨hl.ne_eof, hts⟩
    · rw [scan_lexeme hl, hs, Pos.after_append]
      cases PolicyLang.scan ((p.after l).after u) rest <;> rfl

end Lexical

theorem exists_tokenize_of_cuts {source : String} {ws : List (TokenKind × String)}
    (h : Cuts source.toList ws []) : ∃ us e, tokenize source = .ok (us ++ [e]) ∧
      us.map Token.word = ws ∧ (∀ t ∈ us, t.kind ≠ .eof) ∧ e.kind = .eof := by
  obtain ⟨u, -, hscan⟩ := h.scan
  obtain ⟨us, hw, hus, hs⟩ := hscan {}
  rw [scan_nil] at hs
  exact ⟨us, _, hs, hw, hus, rfl⟩

namespace Lexical

/-- Neither a word nor a number goes on with this text. -/
def Stops (rest : List Char) : Prop :=
  NotBefore rest WordChar ∧ ∀ cs, rest = '.' :: cs → NotBefore cs Digit

theorem stops_cons {c : Char} (cs : List Char) (hc : ¬ WordChar c) (hd : c ≠ '.') : Stops (c :: cs) :=
  ⟨by simpa [NotBefore] using hc, by simp [hd]⟩

theorem stops_dot {cs : List Char} (h : NotBefore cs Digit) : Stops ('.' :: cs) :=
  ⟨by simpa [NotBefore] using (by decide : ¬ WordChar '.'), by simpa using h⟩

theorem Stops.digit {rest : List Char} (h : Stops rest) : NotBefore rest Digit :=
  fun c hc hd => h.1 c hc (.inr hd)

/-- The text is cut into `ws` wherever a word or a number could end behind it. -/
def Spelled (cs : List Char) (ws : List (TokenKind × String)) : Prop :=
  ∀ ⦃rest⦄, Stops rest → Cuts (cs ++ rest) ws rest

section
variable {cs ds : List Char} {ws ws' : List (TokenKind × String)} {c : Char}

theorem spelled_nil : Spelled [] [] := fun _ _ => .nil

theorem Spelled.append (h : Spelled cs ws) (hds : ∀ rest, Stops rest → Stops (ds ++ rest))
    (h' : Spelled ds ws') : Spelled (cs ++ ds) (ws ++ ws') := by
  intro rest hr
  rw [List.append_assoc]
  exact (h (hds rest hr)).append (h' hr)

theorem Spelled.append_cons (h : Spelled cs ws) (hc : ¬ WordChar c) (hd : c ≠ '.')
    (h' : Spelled (c :: ds) ws') : Spelled (cs ++ c :: ds) (ws ++ ws') :=
  h.append (fun _ _ => stops_cons _ hc hd) h'

theorem spelled_blank (hc : isBlank c = true) (h : Spelled cs ws) : Spelled (c :: cs) ws :=
  fun _ hr => .gap (g := [c]) (.blank (isBlank_iff.mp hc)) (h hr)

theorem Spelled.spaced (h : Spelled cs ws) (h' : Spelled ds ws') :
    Spelled (cs ++ ' ' :: ds) (ws ++ ws') :=
  h.append_cons (by decide) (by decide) (spelled_blank rfl h')

theorem spelled_symbol {s : String} {k : TokenKind} (h : (s, k) ∈ symbols)
    (hs : s = "<" ∨ s = ">" → ∀ rest, Stops rest → NotBefore (cs ++ rest) (· = '='))
    (h' : Spelled cs ws) : Spelled (s.toList ++ cs) ((k, s) :: ws) := by
  intro rest hr
  rw [List.append_assoc]
  exact .lexeme (.symbol h fun hl => hs hl rest hr) (h' hr)

/-- A mark of one character that no longer one begins with. -/
theorem spelled_mark {s : String} {k : TokenKind} (hs : s.toList = [c]) (h : (s, k) ∈ symbols)
    (hl : c ≠ '<' ∧ c ≠ '>') (h' : Spelled cs ws) : Spelled (c :: cs) ((k, s) :: ws) := by
  have hne : ¬ (s = "<" ∨ s = ">") := by
    rintro (rfl | rfl)
    · exact absurd (List.cons.inj hs).1.symm hl.1
    · exact absurd (List.cons.inj hs).1.symm hl.2
  have := spelled_symbol h (fun hs' => absurd hs' hne) h'
  rwa [hs] at this

theorem spelled_parens (h : Spelled cs ws) :
    Spelled ('(' :: (cs ++ [')'])) ((.lparen, "(") :: (ws ++ [(.rparen, ")")])) :=
  spelled_mark rfl (by simp [symbols]) (by decide) (h.append_cons (by decide) (by decide)
    (spelled_mark rfl (by simp [symbols]) (by decide) spelled_nil))

end

/-- The text is cut into `ws` whatever stands behind it. -/
def Closed (cs : List Char) (ws : List (TokenKind × String)) : Prop :=
  ∀ rest, Cuts (cs ++ rest) ws rest

section
variable {cs ds : List Char} {ws ws' : List (TokenKind × String)}

theorem Spelled.closed (h : Spelled cs ws) : Closed (cs ++ ['\n']) ws := by
  intro rest
  have hfeed : Cuts ('\n' :: rest) [] rest := .gap (g := ['\n']) (.blank (by simp)) .nil
  have := (h (stops_cons rest (c := '\n') (by decide) (by decide))).append hfeed
  simpa using this

theorem Closed.append (h : Closed cs ws) (h' : Closed ds ws') : Closed (cs ++ ds) (ws ++ ws') := by
  intro rest
  rw [List.append_assoc]
  exact (h _).append (h' rest)

theorem closed_blanks (hds : ∀ c ∈ ds, isBlank c = true) (h : Closed cs ws) : Closed (ds ++ cs) ws := by
  induction ds with
  | nil => exact h
  | cons d ds ih =>
    rw [List.forall_mem_cons] at hds
    exact fun rest => .gap (g := [d]) (.blank (isBlank_iff.mp hds.1)) (ih hds.2 rest)

theorem closed_flatMap {α : Type} {text : α → List Char} {words : α → List (TokenKind × String)}
    {as : List α} (h : ∀ a ∈ as, Closed (text a) (words a)) :
    Closed (as.flatMap text) (as.flatMap words) := by
  induction as with
  | nil => exact fun _ => .nil
  | cons a as ih =>
    rw [List.forall_mem_cons] at h
    exact h.1.append (ih h.2)

end

/-! ## Words -/

theorem spelled_word {s : String} (h : IsWord s) : Spelled s.toList [(.ofWord s, s)] := by
  obtain ⟨c, cs, hs, hc, hcs⟩ := h
  intro rest hr
  have hk : WordKind (c :: cs) (.ofWord s) := by
    rw [← ofWord_eq_iff, ← hs, String.ofList_toList]
  have hl := Lexeme.word hc hcs hr.1 hk
  rw [← hs, String.ofList_toList] at hl
  exact .lexeme hl .nil

theorem isWord_of_all {s : String} {c : Char} {cs : List Char} (hs : s.toList = c :: cs)
    (hc : isLetter c = true) (hcs : cs.all isWordChar = true) : IsWord s :=
  ⟨c, cs, hs, (isLetter_iff c).mp hc, fun d hd =>
    (isWordChar_iff d).mp (List.all_eq_true.mp hcs d hd)⟩

theorem describe_isWord {k : TokenKind} (hk : k.isKeyword = true) : IsWord k.describe := by
  cases k with
  | verb v => cases v <;> exact isWord_of_all rfl rfl rfl
  | category c => cases c <;> exact isWord_of_all rfl rfl rfl
  | boolean b => cases b <;> exact isWord_of_all rfl rfl rfl
  | kwPolicy | kwRule | kwImport | kwPriority | kwWhen | kwThen | kwTo | kwAnd | kwOr | kwNot =>
    exact isWord_of_all rfl rfl rfl
  | _ => cases hk

theorem spelled_keyword (k : TokenKind) {s : String} (hk : k.isKeyword = true) (hs : k.describe = s) :
    Spelled s.toList [(k, s)] := by
  subst hs
  have h := spelled_word (describe_isWord hk)
  rwa [TokenKind.ofWord, ofWord?_describe hk, Option.getD_some] at h

theorem spelled_name {s : String} (h : IsName s) : Spelled s.toList [(.ident, s)] := by
  have hk : TokenKind.ofWord s = .ident := by
    rw [← String.ofList_toList (s := s)]
    exact ofWord_eq_iff.mpr (.name h.2)
  have := spelled_word h.1
  rwa [hk] at this

/-! ## Numbers and strings -/

theorem spelled_integer {n : Int} (h : Unsigned n) : Spelled n.repr.toList [(.number, n.repr)] := by
  obtain ⟨cs, hcs, hd, -⟩ := exists_repr_of_unsigned h
  intro rest hr
  rw [hcs, String.toList_ofList]
  exact .lexeme (.whole hd.1 hd.2 hr.digit hr.2) .nil

theorem spelled_double {x : Binary64} (h : x.Unsigned) :
    Spelled (Literal.float x).render.toList [(.number, (Literal.float x).render)] := by
  obtain ⟨whole, fraction, hp, hw, hf, -⟩ := Literal.exists_render_float h
  intro rest hr
  rw [hp, String.toList_ofList]
  exact .lexeme (.fraction hw.1 hw.2 hf.1 hf.2 hr.digit) .nil

theorem quotation_escape (cs : List Char) : Quotation '"' (cs.flatMap Quoted.escape) cs := by
  induction cs with
  | nil => exact .nil
  | cons c cs ih =>
    rw [List.flatMap_cons]
    unfold Quoted.escape
    split
    -- six characters have a short form, and any other stands for itself
    iterate 6 exact .escape (by decide) ih
    rename_i hquote hslash hline _ _ _
    exact .char hline hquote hslash ih

theorem lexeme_write (s : String) (rest : List Char) :
    Lexeme (Quoted.write s.toList) rest .string s := by
  have h : Lexeme (Quoted.write s.toList) rest .string (.ofList s.toList) :=
    .string (.inl rfl) (quotation_escape s.toList)
  rwa [String.ofList_toList] at h

theorem spelled_quoted (s : String) : Spelled (Quoted.write s.toList) [(.string, s)] :=
  fun rest _ => .lexeme (lexeme_write s rest) .nil

end Lexical

end PolicyLang
