import PolicyLang.Proofs.Lexical.Faults

/-!
# Line ends

A source may end its lines with a carriage return and a line feed instead of a line feed alone. Only
the byte ranges of its tokens know about it, and the errors in one place: behind a backslash in a
string, a carriage return is a bad escape where a line feed is the end of the line.
-/

namespace PolicyLang

open Lexical

/-! ## Carriage returns -/

namespace Lexical

/-- A carriage return in front of each line feed. -/
def crlf (cs : List Char) : List Char := cs.flatMap fun c => if c = '\n' then ['\r', '\n'] else [c]

@[simp] theorem crlf_nil : crlf [] = [] := rfl

theorem crlf_append (cs ds : List Char) : crlf (cs ++ ds) = crlf cs ++ crlf ds := List.flatMap_append

@[simp] theorem crlf_lineFeed (cs : List Char) : crlf ('\n' :: cs) = '\r' :: '\n' :: crlf cs := rfl

theorem crlf_cons {c : Char} (hc : c ≠ '\n') (cs : List Char) : crlf (c :: cs) = c :: crlf cs := by
  simp [crlf, hc]

theorem crlf_of_no_lineFeed {cs : List Char} (h : '\n' ∉ cs) : crlf cs = cs := by
  induction cs with
  | nil => rfl
  | cons c cs ih =>
    rw [List.mem_cons, not_or] at h
    rw [crlf_cons (Ne.symm h.1), ih h.2]

theorem NotBefore.crlf {P : Char → Prop} {rest : List Char} (h : NotBefore rest P) (hP : ¬ P '\r') :
    NotBefore (crlf rest) P := by
  cases rest with
  | nil => exact h
  | cons c rest =>
    by_cases hc : c = '\n'
    · subst hc
      simpa [NotBefore] using hP
    · rw [crlf_cons hc]
      exact h

/-- A lexeme in front of a line feed is as long in front of a carriage return. -/
theorem endsBefore_crlf (rest : List Char) : EndsBefore rest (crlf rest) where
  word h := h.crlf (by decide)
  digit h := h.crlf (by decide)
  equals h := h.crlf (by decide)
  fraction hdot cs hcs := by
    cases rest with
    | nil => cases hcs
    | cons c rest =>
      by_cases hc : c = '\n'
      · subst hc
        cases hcs
      · rw [crlf_cons hc] at hcs
        obtain ⟨rfl, rfl⟩ := List.cons.inj hcs
        exact (hdot rest rfl).crlf (by decide)

end Lexical

/-! ## Places -/

/-- A span without its byte range. -/
def Span.spot (s : Span) : Span := ⟨s.line, s.column, 0, 0⟩

namespace Pos

/-- The same line and column, maybe at another byte. -/
def SameSpot (p q : Pos) : Prop := p.line = q.line ∧ p.column = q.column

theorem SameSpot.next {p q : Pos} (h : p.SameSpot q) (c : Char) : (p.next c).SameSpot (q.next c) := by
  unfold Pos.next
  by_cases hc : c = '\n'
  · rw [if_pos hc, if_pos hc]
    exact ⟨congrArg (· + 1) h.1, rfl⟩
  · rw [if_neg hc, if_neg hc]
    exact ⟨h.1, congrArg (· + 1) h.2⟩

theorem SameSpot.after {p q : Pos} (h : p.SameSpot q) (cs : List Char) :
    (p.after cs).SameSpot (q.after cs) := by
  induction cs generalizing p q with
  | nil => exact h
  | cons c cs ih => exact ih (h.next c)

/-- A carriage return moves to the next column, and the line feed behind it to the next line. -/
theorem SameSpot.after_crlf {p q : Pos} (h : p.SameSpot q) (cs : List Char) :
    (p.after cs).SameSpot (q.after (crlf cs)) := by
  induction cs generalizing p q with
  | nil => exact h
  | cons c cs ih =>
    by_cases hc : c = '\n'
    · subst hc
      exact ih ⟨congrArg (· + 1) h.1, rfl⟩
    · rw [crlf_cons hc]
      exact ih (h.next c)

theorem SameSpot.at_eq {p q : Pos} (h : p.SameSpot q) (e : CutError) : e.at p = e.at q := by
  obtain ⟨hline, hcolumn⟩ := h.after e.before
  simp only [CutError.at, hline, hcolumn]

end Pos

/-! ## Pieces -/

theorem scan_crlf_gap {g cs : List Char} (h : GapPiece g cs) (p : Pos) :
    scan p (crlf (g ++ cs)) = scan (p.after (crlf g)) (crlf cs) := by
  have hreturn (p : Pos) (cs : List Char) : scan p ('\r' :: cs) = scan (p.after ['\r']) cs :=
    scan_gapPiece (g := ['\r']) (.blank (by simp)) p
  rw [crlf_append]
  cases h with
  | @blank c _ hc =>
    by_cases hn : c = '\n'
    · subst hn
      rw [crlf_lineFeed, crlf_nil, List.cons_append, hreturn]
      exact scan_gapPiece (g := ['\n']) (.blank (by simp)) _
    · rw [crlf_cons hn, crlf_nil]
      exact scan_gapPiece (.blank hc) p
  | @comment ds _ hds hrest =>
    have hno : crlf ('#' :: ds) = '#' :: ds := crlf_of_no_lineFeed (by simpa using hds)
    rw [hno]
    cases cs with
    | nil => exact scan_gapPiece (.comment hds (by simp [NotBefore])) p
    | cons c cs =>
      -- the comment goes on up to the line feed, and so takes the carriage return
      obtain rfl : c = '\n' := by simpa [NotBefore] using hrest
      have hlong : '\n' ∉ ds ++ ['\r'] := by simpa using hds
      have hcomment : GapPiece ('#' :: (ds ++ ['\r'])) ('\n' :: crlf cs) :=
        .comment hlong (by simp [NotBefore])
      rw [crlf_lineFeed, hreturn, ← Pos.after_append]
      simpa using scan_gapPiece hcomment p

/-- Behind the same pieces the two scans have the same tokens and are at the same spot. -/
theorem Lexical.Cuts.scan_crlf {cs rest : List Char} {ws : List (TokenKind × String)}
    (h : Cuts cs ws rest) {p q : Pos} (hpq : p.SameSpot q) :
    ∃ u ts us, cs = u ++ rest ∧ us.map (Token.mapSpan Span.spot) = ts.map (Token.mapSpan Span.spot) ∧
      PolicyLang.scan p cs = (PolicyLang.scan (p.after u) rest).map (ts ++ ·) ∧
      PolicyLang.scan q (crlf cs) =
        (PolicyLang.scan (q.after (crlf u)) (crlf rest)).map (us ++ ·) := by
  have hnil (o : Except LexError (List Token)) : o.map ([] ++ ·) = o := by cases o <;> rfl
  induction h generalizing p q with
  | nil => exact ⟨[], [], [], rfl, rfl, (hnil _).symm, (hnil _).symm⟩
  | @gap g cs ws rest hg _ ih =>
    obtain ⟨u, ts, us, rfl, hsame, hp, hq⟩ := ih (hpq.after_crlf g)
    refine ⟨g ++ u, ts, us, (List.append_assoc ..).symm, hsame, ?_, ?_⟩
    · rw [scan_gapPiece hg, hp, Pos.after_append]
    · rw [scan_crlf_gap hg, hq, crlf_append, Pos.after_append]
  | @lexeme l cs k text ws rest hl _ ih =>
    have hno : crlf l = l := crlf_of_no_lineFeed hl.no_lineFeed
    obtain ⟨u, ts, us, rfl, hsame, hp, hq⟩ := ih (hpq.after_crlf l)
    rw [hno] at hq
    have hl' : Lexeme l (crlf (u ++ rest)) k text := hl.before (endsBefore_crlf _)
    refine ⟨l ++ u, ⟨k, text, .between p (p.after l)⟩ :: ts, ⟨k, text, .between q (q.after l)⟩ :: us,
      (List.append_assoc ..).symm, ?_, ?_, ?_⟩
    · rw [List.map_cons, List.map_cons, hsame]
      simp only [Token.mapSpan, Span.spot, Span.between, hpq.1, hpq.2]
    · rw [scan_lexeme hl, hp, Pos.after_append]
      cases PolicyLang.scan ((p.after l).after u) rest <;> rfl
    · rw [crlf_append, hno, scan_lexeme hl', hq, crlf_append, hno, Pos.after_append]
      cases PolicyLang.scan ((q.after l).after (crlf u)) (crlf rest) <;> rfl

/-- A text is cut up to its end, or up to the first place where nothing can be cut off. -/
theorem exists_cuts (cs : List Char) : ∃ rest ws, Cuts cs ws rest ∧
    (rest = [] ∨ ∃ c ds f, rest = c :: ds ∧ cut c ds = .error f) := by
  induction cs using pieces_induction with
  | nil => exact ⟨[], [], .nil, .inl rfl⟩
  | cons c cs ih =>
    cases hcut : cut c cs with
    | error f => exact ⟨c :: cs, [], .nil, .inr ⟨c, cs, f, rfl, hcut⟩⟩
    | ok piece =>
      obtain ⟨rest, ws, hcuts, hrest⟩ := ih piece hcut
      rw [← (append_of_cut_eq_ok hcut).1]
      rcases cut_sound hcut with ⟨-, hg⟩ | ⟨k, text, -, hl⟩
      · exact ⟨rest, ws, .gap hg hcuts, hrest⟩
      · exact ⟨rest, _, .lexeme hl hcuts, hrest⟩

/-! ## Errors -/

namespace Lexical

theorem Quotation.append_char {q c : Char} {cs vs : List Char} (h : Quotation q cs vs)
    (hn : c ≠ '\n') (hq : c ≠ q) (hb : c ≠ '\\') : Quotation q (cs ++ [c]) (vs ++ [c]) := by
  induction h with
  | nil => exact .char hn hq hb .nil
  | char hn hq hb _ ih => exact .char hn hq hb ih
  | escape he _ ih => exact .escape he ih

theorem Unfinished.no_lineFeed {cs : List Char} {fault : LexFault} (h : Unfinished cs fault) :
    '\n' ∉ cs := by
  have hquote {q : Char} (hq : q = '"' ∨ q = '\x27') : '\n' ≠ q := by
    rcases hq with rfl | rfl <;> decide
  cases h with
  | lone hc => rcases hc with rfl | rfl <;> decide
  | string hq hcs => simp [hquote hq, hcs.no_lineFeed]
  | slash hq hcs => simp [hquote hq, hcs.no_lineFeed]

/-- What is refused is refused with carriage returns too, unless it is a line feed behind a backslash. -/
theorem Refused.crlf {seen before : List Char} {fault : LexFault} (h : Refused seen fault before)
    (rest : List Char) :
    (∃ seen' rest', crlf (seen ++ rest) = seen' ++ rest' ∧ Refused seen' fault before) ∨
      ∃ q body vs, seen = q :: (body ++ ['\\', '\n']) ∧ (q = '"' ∨ q = '\x27') ∧ Quotation q body vs := by
  have hquote {q : Char} (hq : q = '"' ∨ q = '\x27') : '\n' ≠ q ∧ '\r' ≠ q := by
    rcases hq with rfl | rfl <;> decide
  have hsame {seen : List Char} (hno : '\n' ∉ seen) : Lexical.crlf (seen ++ rest) =
      seen ++ Lexical.crlf rest := by rw [crlf_append, crlf_of_no_lineFeed hno]
  cases h with
  | @stray c hs =>
    have hc : '\n' ∉ [c] := by
      rw [List.mem_singleton]
      rintro rfl
      exact hs (.inl ⟨[], [], .blank (by simp)⟩)
    exact .inl ⟨_, _, hsame hc, .stray hs⟩
  | @lone c d hc hd =>
    have hcn : c ≠ '\n' := by rcases hc with rfl | rfl <;> decide
    by_cases hdn : d = '\n'
    · subst hdn
      refine .inl ⟨[c, '\r'], '\n' :: Lexical.crlf rest, ?_, .lone hc (by decide)⟩
      rw [List.cons_append, crlf_cons hcn]
      rfl
    · exact .inl ⟨_, _, hsame (by simp [hcn.symm, Ne.symm hdn]), .lone hc hd⟩
  | @line q body vs hq hbody =>
    have hlong := hbody.append_char (by decide) (hquote hq).2 (by decide)
    refine .inl ⟨q :: (body ++ ['\r'] ++ ['\n']), Lexical.crlf rest, ?_, .line hq hlong⟩
    rw [crlf_append, crlf_cons (hquote hq).1.symm, crlf_append, crlf_of_no_lineFeed hbody.no_lineFeed]
    simp
  | slashLine hq hbody => exact .inr ⟨_, _, _, rfl, hq, hbody⟩
  | @escape q body vs c hq hbody hc hu =>
    refine .inl ⟨_, _, hsame ?_, .escape hq hbody hc hu⟩
    simp [(hquote hq).1, hbody.no_lineFeed, hc.symm]

end Lexical

theorem ne_lineFeed_of_cut_eq_error {c : Char} {ds : List Char} {f : CutError}
    (h : cut c ds = .error f) : c ≠ '\n' := by
  rintro rfl
  have hgap : GapPiece ['\n'] ds := .blank (by simp)
  obtain ⟨d, es, hd, hcut⟩ := cut_gap hgap
  obtain ⟨rfl, rfl⟩ := List.cons.inj hd
  cases h.symm.trans hcut

/-- Where nothing can be cut off, nothing can with carriage returns, or a string breaks off behind a
backslash. -/
theorem cut_crlf_eq_error {c : Char} {ds : List Char} {f : CutError} (h : cut c ds = .error f) :
    cut c (crlf ds) = .error f ∨ ∃ body vs rest, ds = body ++ '\\' :: '\n' :: rest ∧
      (c = '"' ∨ c = '\x27') ∧ Quotation c body vs := by
  have hc := ne_lineFeed_of_cut_eq_error h
  rcases cut_eq_error h with ⟨hend, -⟩ | ⟨seen, rest, hseen, href⟩
  · have hno := hend.no_lineFeed
    rw [List.mem_cons, not_or] at hno
    rw [crlf_of_no_lineFeed hno.2]
    exact .inl h
  · rcases href.crlf rest with ⟨seen', rest', hcrlf, href'⟩ | ⟨q, body, vs, rfl, hq, hbody⟩
    · obtain ⟨d, cs, rfl, hcut⟩ := href'.cut_eq
      rw [← hseen, crlf_cons hc] at hcrlf
      obtain ⟨rfl, hds⟩ := List.cons.inj hcrlf
      rw [hds]
      exact .inl (hcut rest')
    · obtain ⟨rfl, rfl⟩ := List.cons.inj hseen
      exact .inr ⟨body, vs, rest, by simp, hq, hbody⟩

/-! ## Sources -/

/-- The source with a carriage return in front of each line feed. -/
def withReturns (source : String) : String := .ofList (crlf source.toList)

/-- Behind `u` the source goes on with a string that is not closed: it reads `cs`, from the quote on,
and then a backslash with a line feed right behind it. -/
def BreaksOff (source : String) (u cs : List Char) : Prop :=
  ∃ q body vs rest ws, cs = q :: body ∧ (q = '"' ∨ q = '\x27') ∧ Quotation q body vs ∧
    source.toList = u ++ (cs ++ '\\' :: '\n' :: rest) ∧
    Cuts source.toList ws (cs ++ '\\' :: '\n' :: rest)

theorem tokenize_of_breaksOff {source : String} {u cs : List Char} (h : BreaksOff source u cs) :
    tokenize source = .error (CutError.at ⟨.unclosedString, []⟩ (({} : Pos).after u)) ∧
      tokenize (withReturns source) =
        .error (CutError.at ⟨.badEscape '\r', cs⟩ (({} : Pos).after u)) := by
  obtain ⟨q, body, vs, rest, ws, rfl, hq, hbody, hsource, hcuts⟩ := h
  have hqn : q ≠ '\n' := by rcases hq with rfl | rfl <;> decide
  have hcut : cut q (body ++ '\\' :: '\n' :: rest) = .error ⟨.unclosedString, []⟩ :=
    cut_of_halt hq hbody .slashLine
  have hcut' : cut q (body ++ '\\' :: '\r' :: '\n' :: crlf rest) =
      .error ⟨.badEscape '\r', q :: (body ++ [])⟩ :=
    cut_of_halt hq hbody (.escape (by decide) (by simp [escapes]))
  have hcrlf : crlf (q :: body ++ '\\' :: '\n' :: rest) =
      q :: (body ++ '\\' :: '\r' :: '\n' :: crlf rest) := by
    rw [List.cons_append, crlf_cons hqn, crlf_append, crlf_of_no_lineFeed hbody.no_lineFeed]
    rfl
  have hstart : ({} : Pos).SameSpot {} := ⟨rfl, rfl⟩
  obtain ⟨u', ts, us, hu, -, hp, hp'⟩ := hcuts.scan_crlf hstart
  obtain rfl : u = u' := List.append_cancel_right (hsource.symm.trans hu)
  constructor
  · rw [tokenize, hp, List.cons_append, scan_cons, hcut]
    rfl
  · rw [tokenize, withReturns, String.toList_ofList, hp', hcrlf, scan_cons, hcut', List.append_nil,
      (hstart.after_crlf u).at_eq]
    rfl

/-- Both sources are cut to their ends, into tokens with the same words at the same spots, or have the
same error, unless a string breaks off behind a backslash. -/
theorem tokenize_withReturns (source : String) :
    (∃ ts us, tokenize source = .ok ts ∧ tokenize (withReturns source) = .ok us ∧
      us.map (Token.mapSpan Span.spot) = ts.map (Token.mapSpan Span.spot)) ∨
    (∃ e, tokenize source = .error e ∧ tokenize (withReturns source) = .error e) ∨
    ∃ u cs, BreaksOff source u cs := by
  obtain ⟨rest, ws, hcuts, hrest⟩ := exists_cuts source.toList
  have hstart : ({} : Pos).SameSpot {} := ⟨rfl, rfl⟩
  obtain ⟨u, ts, us, hu, hsame, hp, hp'⟩ := hcuts.scan_crlf hstart
  have hspot := hstart.after_crlf u
  unfold tokenize withReturns
  rw [String.toList_ofList, hp, hp']
  rcases hrest with rfl | ⟨c, ds, f, rfl, hf⟩
  · refine .inl ⟨_, _, by rw [scan_nil]; rfl, by rw [crlf_nil, scan_nil]; rfl, ?_⟩
    simp only [List.map_append, List.map_singleton, hsame, Token.mapSpan, Token.eof, Span.spot,
      Span.between, hspot.1, hspot.2]
  · have hc := ne_lineFeed_of_cut_eq_error hf
    rcases cut_crlf_eq_error hf with hf' | ⟨body, vs, rest, rfl, hq, hbody⟩
    · refine .inr (.inl ⟨f.at (({} : Pos).after u), by rw [scan_cons, hf]; rfl, ?_⟩)
      rw [crlf_cons hc, scan_cons, hf', hspot.at_eq]
      rfl
    · exact .inr (.inr ⟨u, c :: body, c, body, vs, rest, ws, rfl, hq, hbody, hu, hcuts⟩)

end PolicyLang
