import PolicyLang.Proofs.Lexical.Runs

/-!
# Gaps and lexemes are what is cut

A piece is cut off the front of a text if and only if it is a gap or a lexeme of the lexical language
there.
-/

namespace PolicyLang.Lexical

/-! ## Operators and punctuation -/

def Piece.IsLexeme (piece : Piece) : Prop :=
  ∃ k text, piece.token = some (k, text) ∧ Lexeme piece.source piece.rest k text

theorem isLexeme_plain {k : TokenKind} {cs rest : List Char} (h : (String.ofList cs, k) ∈ symbols)
    (hf : cs = ['<'] ∨ cs = ['>'] → NotBefore rest (· = '=')) :
    Piece.IsLexeme (.plain k cs rest) := by
  have hs : ∀ c, String.ofList cs = String.ofList [c] → cs = [c] := fun c hc => by
    rw [← String.toList_ofList (l := cs), hc, String.toList_ofList]
  have := Lexeme.symbol h fun hlt => hf (hlt.imp (hs '<') (hs '>'))
  rw [String.toList_ofList] at this
  exact ⟨k, _, rfl, this⟩

theorem notBefore_eq_of_ne {cs : List Char} (h : ∀ ds, cs = '=' :: ds → False) :
    NotBefore cs (· = '=') := by
  rintro d hd rfl
  cases cs with
  | nil => cases hd
  | cons c cs =>
    obtain rfl : c = '=' := by simpa using hd
    exact h cs rfl

theorem cutSymbol_lexeme {cs : List Char} {piece : Piece} (h : cutSymbol cs = some piece) :
    Piece.IsLexeme piece := by
  unfold cutSymbol at h
  split at h <;> cases h
  case h_5 hne => exact isLexeme_plain (by decide) fun _ => notBefore_eq_of_ne hne
  case h_6 hne => exact isLexeme_plain (by decide) fun _ => notBefore_eq_of_ne hne
  all_goals exact isLexeme_plain (by decide) (by simp)

theorem cutSymbol_angle {rest : List Char} (h : NotBefore rest (· = '=')) :
    cutSymbol ('<' :: rest) = some (.plain (.compare .lt) ['<'] rest) ∧
      cutSymbol ('>' :: rest) = some (.plain (.compare .gt) ['>'] rest) := by
  cases rest with
  | nil => exact ⟨rfl, rfl⟩
  | cons c cs =>
    have hc : c ≠ '=' := h c rfl
    constructor <;> simp [cutSymbol, hc]

theorem cutSymbol_symbol {s : String} {k : TokenKind} {rest : List Char} (h : (s, k) ∈ symbols)
    (hf : s = "<" ∨ s = ">" → NotBefore rest (· = '=')) :
    cutSymbol (s.toList ++ rest) = some (.plain k s.toList rest) := by
  simp only [symbols, List.mem_cons, Prod.mk.injEq, List.not_mem_nil, or_false] at h
  rcases h with ⟨rfl, rfl⟩ | ⟨rfl, rfl⟩ | ⟨rfl, rfl⟩ | ⟨rfl, rfl⟩ | ⟨rfl, rfl⟩ | ⟨rfl, rfl⟩ |
    ⟨rfl, rfl⟩ | ⟨rfl, rfl⟩ | ⟨rfl, rfl⟩ | ⟨rfl, rfl⟩ | ⟨rfl, rfl⟩ | ⟨rfl, rfl⟩ | ⟨rfl, rfl⟩
  case inr.inr.inr.inr.inl => exact (cutSymbol_angle (hf (.inl rfl))).1
  case inr.inr.inr.inr.inr.inl => exact (cutSymbol_angle (hf (.inr rfl))).2
  all_goals rfl

/-! ## Strings -/

theorem unescape_eq_some_iff {e v : Char} : Quoted.unescape e = some v ↔ (e, v) ∈ escapes := by
  constructor
  · intro h
    unfold Quoted.unescape at h
    split at h <;> cases h <;> decide
  · intro h
    simp only [escapes, List.mem_cons, Prod.mk.injEq, List.not_mem_nil, or_false] at h
    rcases h with ⟨rfl, rfl⟩ | ⟨rfl, rfl⟩ | ⟨rfl, rfl⟩ | ⟨rfl, rfl⟩ | ⟨rfl, rfl⟩ | ⟨rfl, rfl⟩ |
      ⟨rfl, rfl⟩ <;> rfl

theorem quotation_of_read {q : Char} {cs value source rest : List Char}
    (h : Quoted.read q cs = .closed value source rest) :
    ∃ body, source = body ++ [q] ∧ Quotation q body value := by
  fun_induction Quoted.read q cs generalizing value source rest with
  | case3 cs hq =>
    cases h
    exact ⟨[], rfl, .nil⟩
  | case7 e tail _ v hv _ _ ih =>
    obtain ⟨vs, s, hr, rfl, rfl⟩ := Quoted.Reading.cons_eq_closed h
    obtain ⟨body, rfl, hb⟩ := ih hr
    exact ⟨'\\' :: e :: body, rfl, .escape (unescape_eq_some_iff.mp hv) hb⟩
  | case8 c cs hn hc hb ih =>
    obtain ⟨vs, s, hr, rfl, rfl⟩ := Quoted.Reading.cons_eq_closed h
    obtain ⟨body, rfl, hbody⟩ := ih hr
    exact ⟨c :: body, rfl, .char hn hc hb hbody⟩
  | _ => cases h

theorem not_newline_of_mem_escapes {e v : Char} (h : (e, v) ∈ escapes) : e ≠ '\n' := by
  rw [← unescape_eq_some_iff] at h
  intro heq
  subst heq
  cases h

/-- A reading behind the quotation `cs`, whose contents are `vs`. -/
def Reading.behind (cs vs : List Char) : Quoted.Reading → Quoted.Reading
  | .closed value source rest => .closed (vs ++ value) (cs ++ source) rest
  | .unclosed => .unclosed
  | .badEscape c before => .badEscape c (cs ++ before)

theorem Reading.behind_nil (r : Quoted.Reading) : Reading.behind [] [] r = r := by
  cases r <;> rfl

theorem Reading.behind_cons (v : Char) (front cs vs : List Char) (r : Quoted.Reading) :
    (Reading.behind cs vs r).cons v front = Reading.behind (front ++ cs) (v :: vs) r := by
  cases r <;> simp [Reading.behind, Quoted.Reading.cons]

theorem Quotation.read_append {q : Char} {cs vs : List Char} (hq : q = '"' ∨ q = '\x27')
    (h : Quotation q cs vs) (tail : List Char) :
    Quoted.read q (cs ++ tail) = Reading.behind cs vs (Quoted.read q tail) := by
  have hqb : '\\' ≠ q := by rcases hq with rfl | rfl <;> decide
  induction h with
  | nil => rw [Reading.behind_nil, List.nil_append]
  | char hn hc hb _ ih =>
    rw [List.cons_append, Quoted.read.eq_def]
    simp only [if_neg hn, if_neg hc, if_neg hb, ih, Reading.behind_cons, List.singleton_append]
  | escape he _ ih =>
    rw [List.cons_append, List.cons_append, Quoted.read.eq_def]
    simp only [if_neg hqb, if_neg (not_newline_of_mem_escapes he), unescape_eq_some_iff.mpr he, ih,
      Reading.behind_cons]
    rfl

theorem read_of_quotation {q : Char} {body value rest : List Char} (hq : q = '"' ∨ q = '\x27')
    (h : Quotation q body value) :
    Quoted.read q (body ++ q :: rest) = .closed value (body ++ [q]) rest := by
  have hqn : q ≠ '\n' := by rcases hq with rfl | rfl <;> decide
  rw [h.read_append hq, Quoted.read.eq_def]
  simp [hqn, Reading.behind]

/-! ## Any piece -/

theorem not_newline_iff (c : Char) : (c != '\n') = true ↔ c ≠ '\n' := bne_iff_ne

/-- What is cut off the front of a text: a gap or a lexeme. -/
theorem cut_sound {c : Char} {cs : List Char} {piece : Piece} (h : cut c cs = .ok piece) :
    (piece.token = none ∧ GapPiece piece.source piece.rest) ∨ Piece.IsLexeme piece := by
  unfold cut at h
  split at h
  · rename_i hb
    cases h
    exact .inl ⟨rfl, .blank (isBlank_iff.mp hb)⟩
  split at h
  · rename_i hc
    cases h
    refine .inl ⟨rfl, hc ▸ .comment ?_ (notBefore_dropWhile not_newline_iff cs)⟩
    exact fun hn => of_mem_takeWhile not_newline_iff _ hn rfl
  split at h
  · rename_i hl
    cases h
    exact .inr ⟨_, _, rfl, .word ((isLetter_iff c).mp hl) (of_mem_takeWhile isWordChar_iff)
      (notBefore_dropWhile isWordChar_iff cs) (ofWord_eq_iff.mp rfl)⟩
  split at h
  · rename_i hd
    cases h
    exact .inr ⟨_, _, rfl, splitNumber_lexeme ((isDigit_iff c).mp hd)⟩
  split at h
  · rename_i hq
    split at h
    · rename_i hr
      cases h
      obtain ⟨body, rfl, hbody⟩ := quotation_of_read hr
      exact .inr ⟨_, _, rfl, .string hq hbody⟩
    · cases h
    · cases h
  · split at h
    · rename_i hs
      cases h
      exact .inr (cutSymbol_lexeme hs)
    · cases h

theorem cut_gap {g rest : List Char} (h : GapPiece g rest) :
    ∃ c cs, g ++ rest = c :: cs ∧ cut c cs = .ok ⟨none, g, rest⟩ := by
  cases h with
  | blank hc =>
    refine ⟨_, _, rfl, ?_⟩
    unfold cut
    rw [if_pos (isBlank_iff.mpr hc)]
    rfl
  | @comment cs _ hcs hrest =>
    have hline : ∀ c ∈ cs, c ≠ '\n' := fun c hc hn => hcs (hn ▸ hc)
    obtain ⟨ht, hd⟩ := takeWhile_append not_newline_iff hline hrest
    refine ⟨'#', cs ++ rest, rfl, ?_⟩
    unfold cut
    rw [if_neg (by decide), if_pos rfl, ht, hd]

theorem cut_of_letter {c : Char} {cs : List Char} (hc : Letter c) :
    cut c cs = .ok (.plain (.ofWord (.ofList (c :: cs.takeWhile isWordChar)))
      (c :: cs.takeWhile isWordChar) (cs.dropWhile isWordChar)) := by
  have hh : c ≠ '#' := by
    intro heq
    subst heq
    revert hc
    decide
  unfold cut
  rw [WordChar.not_blank (.inl hc), if_neg Bool.false_ne_true, if_neg hh,
    if_pos ((isLetter_iff c).mpr hc)]

theorem cut_of_digit {c : Char} {cs : List Char} (hc : Digit c) :
    cut c cs = .ok (.plain .number (splitNumber (c :: cs)).1 (splitNumber (c :: cs)).2) := by
  have hh : c ≠ '#' := by
    intro heq
    subst heq
    revert hc
    decide
  unfold cut
  rw [WordChar.not_blank (.inr hc), if_neg Bool.false_ne_true, if_neg hh, hc.not_letter,
    if_neg Bool.false_ne_true, if_pos ((isDigit_iff c).mpr hc)]

theorem cut_of_number {cs rest : List Char} (hne : cs ≠ []) (hcs : ∀ c ∈ cs.head?, Digit c)
    (h : splitNumber (cs ++ rest) = (cs, rest)) :
    ∃ d ds, cs ++ rest = d :: ds ∧ cut d ds = .ok (.plain .number cs rest) := by
  obtain ⟨c, cs, rfl⟩ := List.exists_cons_of_ne_nil hne
  refine ⟨c, cs ++ rest, rfl, ?_⟩
  rw [cut_of_digit (hcs c rfl), ← List.cons_append, h]

/-- What is cut off where `q` is followed by this reading. -/
def Reading.piece (q : Char) : Quoted.Reading → Except CutError Piece
  | .closed value source rest => .ok ⟨some (.string, .ofList value), q :: source, rest⟩
  | .unclosed => .error ⟨.unclosedString, []⟩
  | .badEscape e before => .error ⟨.badEscape e, q :: before⟩

theorem cut_quote {q : Char} (hq : q = '"' ∨ q = '\x27') (cs : List Char) :
    cut q cs = Reading.piece q (Quoted.read q cs) := by
  have hc : isBlank q = false ∧ q ≠ '#' ∧ isLetter q = false ∧ q.isDigit = false := by
    rcases hq with rfl | rfl <;> decide
  obtain ⟨hb, hh, hl, hd⟩ := hc
  unfold cut
  rw [hb, hl, hd, if_neg Bool.false_ne_true, if_neg hh, if_neg Bool.false_ne_true,
    if_neg Bool.false_ne_true, if_pos hq]
  cases Quoted.read q cs <;> rfl

theorem cut_of_symbol {c : Char} {cs : List Char} {piece : Piece}
    (h : cutSymbol (c :: cs) = some piece) : cut c cs = .ok piece := by
  have hc : isBlank c = false ∧ c ≠ '#' ∧ isLetter c = false ∧ c.isDigit = false ∧
      ¬ (c = '"' ∨ c = '\x27') := by
    unfold cutSymbol at h
    split at h
    case h_14 => cases h
    all_goals
      rename_i heq
      cases heq
      decide
  obtain ⟨hb, hh, hl, hd, hq⟩ := hc
  unfold cut
  rw [hb, hl, hd, if_neg Bool.false_ne_true, if_neg hh, if_neg Bool.false_ne_true,
    if_neg Bool.false_ne_true, if_neg hq, h]

theorem cut_lexeme {cs rest : List Char} {k : TokenKind} {text : String}
    (h : Lexeme cs rest k text) :
    ∃ d ds, cs ++ rest = d :: ds ∧ cut d ds = .ok ⟨some (k, text), cs, rest⟩ := by
  cases h with
  | @word c cs rest k hc hcs hrest hk =>
    obtain ⟨ht, hd⟩ := takeWhile_append isWordChar_iff hcs hrest
    refine ⟨c, cs ++ rest, rfl, ?_⟩
    rw [cut_of_letter hc, ht, hd, ofWord_eq_iff.mpr hk]
    rfl
  | whole hne hds hrest hdot =>
    exact cut_of_number hne (fun c hc => hds c (List.mem_of_mem_head? hc))
      (splitNumber_whole hds hrest hdot)
  | @fraction ds fs _ hne hds hnf hfs hrest =>
    refine cut_of_number (by simp) (fun c hc => ?_) (splitNumber_fraction hds hnf hfs hrest)
    obtain ⟨d, ds, rfl⟩ := List.exists_cons_of_ne_nil hne
    obtain rfl : d = c := by simpa using hc
    exact hds d (by simp)
  | @string q cs vs rest hq hcs =>
    refine ⟨q, cs ++ q :: rest, by simp, ?_⟩
    rw [cut_quote hq, read_of_quotation hq hcs, Reading.piece]
  | symbol hs hf =>
    have hcut := cutSymbol_symbol hs hf
    cases hcs : text.toList ++ rest with
    | nil => rw [hcs] at hcut; cases hcut
    | cons d ds =>
      rw [hcs] at hcut
      refine ⟨d, ds, rfl, ?_⟩
      rw [cut_of_symbol hcut, Piece.plain, String.ofList_toList]

end PolicyLang.Lexical
