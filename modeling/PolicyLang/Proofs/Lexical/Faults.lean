import PolicyLang.Proofs.Lexical.Layout
import PolicyLang.Proofs.Lexical.Positions

/-!
# Texts that cannot be cut

The first error of a text stands behind a text that is cut to its end. It is decided by a character,
and then nothing behind that character matters, or by the end of the text.
-/

namespace PolicyLang

open Lexical

namespace Lexical

/-! ## What is refused -/

/-- Some gap or lexeme begins with the character. -/
def Starts (c : Char) : Prop :=
  (∃ g rest, GapPiece (c :: g) rest) ∨ ∃ l rest k text, Lexeme (c :: l) rest k text

/-- `Refused cs fault before`: the last character of `cs` decides that nothing can be cut off where
`cs` begins. The place to blame is the one behind `before`. -/
inductive Refused : List Char → LexFault → List Char → Prop
  | stray {c} : ¬ Starts c → Refused [c] (.strayChar c) []
  | lone {c d} : c = '=' ∨ c = '!' → d ≠ '=' → Refused [c, d] (.strayChar c) []
  | line {q cs vs} : q = '"' ∨ q = '\x27' → Quotation q cs vs →
      Refused (q :: (cs ++ ['\n'])) .unclosedString []
  | slashLine {q cs vs} : q = '"' ∨ q = '\x27' → Quotation q cs vs →
      Refused (q :: (cs ++ ['\\', '\n'])) .unclosedString []
  | escape {q cs vs c} : q = '"' ∨ q = '\x27' → Quotation q cs vs → c ≠ '\n' →
      (∀ v, (c, v) ∉ escapes) → Refused (q :: (cs ++ ['\\', c])) (.badEscape c) (q :: cs)

/-- `Unfinished cs fault`: nothing can be cut off the text `cs` because it ends there. The place to
blame is its first character. -/
inductive Unfinished : List Char → LexFault → Prop
  | lone {c} : c = '=' ∨ c = '!' → Unfinished [c] (.strayChar c)
  | string {q cs vs} : q = '"' ∨ q = '\x27' → Quotation q cs vs → Unfinished (q :: cs) .unclosedString
  | slash {q cs vs} : q = '"' ∨ q = '\x27' → Quotation q cs vs →
      Unfinished (q :: (cs ++ ['\\'])) .unclosedString

/-! ## Strings -/

/-- Where a quotation cannot be longer, and what is read there. -/
inductive Halt (q : Char) : List Char → Quoted.Reading → Prop
  | nil : Halt q [] .unclosed
  | line {rest} : Halt q ('\n' :: rest) .unclosed
  | quote {rest} : Halt q (q :: rest) (.closed [] [q] rest)
  | slash : Halt q ['\\'] .unclosed
  | slashLine {rest} : Halt q ('\\' :: '\n' :: rest) .unclosed
  | escape {c rest} : c ≠ '\n' → (∀ v, (c, v) ∉ escapes) → Halt q ('\\' :: c :: rest) (.badEscape c [])

theorem unescape_eq_none_iff {c : Char} : Quoted.unescape c = none ↔ ∀ v, (c, v) ∉ escapes := by
  rw [Option.eq_none_iff_forall_ne_some]
  exact forall_congr' fun v => not_congr unescape_eq_some_iff

theorem exists_halt (q : Char) (cs : List Char) :
    ∃ body vs tail r, cs = body ++ tail ∧ Quotation q body vs ∧ Halt q tail r := by
  induction cs using Quoted.read.induct q with
  | case1 => exact ⟨[], [], _, _, rfl, .nil, .nil⟩
  | case2 cs => exact ⟨[], [], _, _, rfl, .nil, .line⟩
  | case3 cs _ => exact ⟨[], [], _, _, rfl, .nil, .quote⟩
  | case4 => exact ⟨[], [], _, _, rfl, .nil, .slash⟩
  | case5 => exact ⟨[], [], _, _, rfl, .nil, .slashLine⟩
  | case6 c tail hc hu _ _ =>
    exact ⟨[], [], _, _, rfl, .nil, .escape hc (unescape_eq_none_iff.mp hu)⟩
  | case7 e tail _ v hv _ _ ih =>
    obtain ⟨body, vs, rest, r, rfl, hbody, hr⟩ := ih
    exact ⟨_, _, rest, r, rfl, .escape (unescape_eq_some_iff.mp hv) hbody, hr⟩
  | case8 c cs hn hq hb ih =>
    obtain ⟨body, vs, rest, r, rfl, hbody, hr⟩ := ih
    exact ⟨_, _, rest, r, rfl, .char hn hq hb hbody, hr⟩

section
variable {q : Char} (hq : q = '"' ∨ q = '\x27')
include hq

theorem Halt.read_eq {tail : List Char} {r : Quoted.Reading} (h : Halt q tail r) :
    Quoted.read q tail = r := by
  have hqn : q ≠ '\n' := by rcases hq with rfl | rfl <;> decide
  have hqb : '\\' ≠ q := by rcases hq with rfl | rfl <;> decide
  unfold Quoted.read
  cases h with
  | escape hc hu => simp [hqb, hc, unescape_eq_none_iff.mpr hu]
  | _ => simp [hqn, hqb]

theorem cut_of_halt {cs vs tail : List Char} {r : Quoted.Reading} (h : Quotation q cs vs)
    (hr : Halt q tail r) : cut q (cs ++ tail) = Reading.piece q (Reading.behind cs vs r) := by
  rw [cut_quote hq, h.read_append hq, hr.read_eq hq]

end

/-! ## Any text -/

theorem starts_iff {c : Char} : Starts c ↔ ∃ cs piece, cut c cs = .ok piece := by
  constructor
  · intro h
    rcases h with ⟨g, rest, hg⟩ | ⟨l, rest, k, text, hl⟩
    · obtain ⟨d, ds, hd, hcut⟩ := cut_gap hg
      obtain ⟨rfl, rfl⟩ := List.cons.inj hd
      exact ⟨_, _, hcut⟩
    · obtain ⟨d, ds, hd, hcut⟩ := cut_lexeme hl
      obtain ⟨rfl, rfl⟩ := List.cons.inj hd
      exact ⟨_, _, hcut⟩
  · intro h
    obtain ⟨cs, piece, hcut⟩ := h
    obtain ⟨hsource, hne⟩ := append_of_cut_eq_ok hcut
    obtain ⟨d, source, hd⟩ := List.exists_cons_of_ne_nil hne
    rw [hd] at hsource
    obtain ⟨rfl, -⟩ := List.cons.inj hsource
    rcases cut_sound hcut with ⟨-, hg⟩ | ⟨k, text, -, hl⟩
    · exact .inl ⟨source, _, hd ▸ hg⟩
    · exact .inr ⟨source, _, k, text, hd ▸ hl⟩

theorem lone_of_cutSymbol {c : Char} {cs ds : List Char} {piece : Piece}
    (h : cutSymbol (c :: ds) = some piece) (hn : cutSymbol (c :: cs) = none) :
    (c = '=' ∨ c = '!') ∧ NotBefore cs (· = '=') := by
  unfold cutSymbol at h
  split at h
  case h_14 => cases h
  all_goals
    rename_i heq
    cases heq
  case h_1 => exact ⟨.inl rfl, notBefore_eq_of_ne fun ds hds => by subst hds; cases hn⟩
  case h_2 => exact ⟨.inr rfl, notBefore_eq_of_ne fun ds hds => by subst hds; cases hn⟩
  all_goals
    cases cs with
    | nil => cases hn
    | cons d cs =>
      by_cases hd : d = '='
      · subst hd
        cases hn
      · simp [cutSymbol, hd] at hn

/-- Where a text is refused and no string begins, its first character is looked up among the symbols,
and so it is in any other text. -/
theorem cut_eq_of_error {c : Char} {cs : List Char} {e : CutError} (h : cut c cs = .error e)
    (hq : ¬ (c = '"' ∨ c = '\x27')) (ds : List Char) :
    cut c ds = (cutSymbol (c :: ds)).elim (.error ⟨.strayChar c, []⟩) .ok := by
  unfold cut at h
  split at h
  · cases h
  split at h
  · cases h
  split at h
  · cases h
  split at h
  · cases h
  rename_i hb hh hl hd
  unfold cut
  rw [if_neg hb, if_neg hh, if_neg hl, if_neg hd, if_neg hq]
  cases cutSymbol (c :: ds) <;> rfl

theorem cut_of_not_starts {c : Char} (h : ¬ Starts c) (cs : List Char) :
    cut c cs = .error ⟨.strayChar c, []⟩ := by
  have hno (ds : List Char) (piece : Piece) : cut c ds ≠ .ok piece :=
    fun hcut => h (starts_iff.mpr ⟨ds, piece, hcut⟩)
  have hq : ¬ (c = '"' ∨ c = '\x27') := by
    intro hq
    refine hno [c] ⟨some (.string, ""), [c, c], []⟩ ?_
    rw [cut_quote hq, ← List.nil_append [c], read_of_quotation hq .nil]
    rfl
  cases hcut : cut c cs with
  | ok piece => exact absurd hcut (hno cs piece)
  | error e =>
    have hsymbol := cut_eq_of_error hcut hq cs
    cases hs : cutSymbol (c :: cs) with
    | some piece =>
      rw [hs] at hsymbol
      exact absurd hsymbol (hno cs piece)
    | none => rw [← hcut, hsymbol, hs, Option.elim]

theorem cut_of_lone {c : Char} {cs : List Char} (hc : c = '=' ∨ c = '!')
    (hcs : NotBefore cs (· = '=')) : cut c cs = .error ⟨.strayChar c, []⟩ := by
  have hn : cutSymbol (c :: cs) = none := by
    cases cs with
    | nil => rcases hc with rfl | rfl <;> rfl
    | cons d cs =>
      have hd : d ≠ '=' := hcs d rfl
      rcases hc with rfl | rfl <;> simp [cutSymbol, hd]
  rcases hc with rfl | rfl <;> simp [cut, isBlank, isLetter, hn]

/-- A text that cannot be cut is refused at some character, or its end comes too early. -/
theorem cut_eq_error {c : Char} {cs : List Char} {e : CutError} (h : cut c cs = .error e) :
    (Unfinished (c :: cs) e.fault ∧ e.before = []) ∨
      ∃ seen rest, c :: cs = seen ++ rest ∧ Refused seen e.fault e.before := by
  by_cases hq : c = '"' ∨ c = '\x27'
  · obtain ⟨body, vs, tail, r, rfl, hbody, hr⟩ := exists_halt c cs
    rw [cut_of_halt hq hbody hr] at h
    cases hr with
    | quote => cases h
    | nil =>
      cases h
      rw [List.append_nil]
      exact .inl ⟨.string hq hbody, rfl⟩
    | slash =>
      cases h
      exact .inl ⟨.slash hq hbody, rfl⟩
    | @line rest =>
      cases h
      exact .inr ⟨_, rest, by simp, .line hq hbody⟩
    | @slashLine rest =>
      cases h
      exact .inr ⟨_, rest, by simp, .slashLine hq hbody⟩
    | @escape d rest hd hu =>
      cases h
      refine .inr ⟨c :: (body ++ ['\\', d]), rest, by simp, ?_⟩
      rw [List.append_nil]
      exact .escape hq hbody hd hu
  by_cases hs : Starts c
  · obtain ⟨ds, piece, hok⟩ := starts_iff.mp hs
    have herr := cut_eq_of_error h hq cs
    rw [h] at herr
    rw [cut_eq_of_error h hq] at hok
    cases hn : cutSymbol (c :: cs) with
    | some piece =>
      rw [hn] at herr
      cases herr
    | none =>
      rw [hn] at herr
      cases herr
      cases hsome : cutSymbol (c :: ds) with
      | none =>
        rw [hsome] at hok
        cases hok
      | some piece =>
        obtain ⟨hc, hcs⟩ := lone_of_cutSymbol hsome hn
        cases cs with
        | nil => exact .inl ⟨.lone hc, rfl⟩
        | cons d cs => exact .inr ⟨[c, d], cs, rfl, .lone hc (hcs d rfl)⟩
  · rw [cut_of_not_starts hs] at h
    cases h
    exact .inr ⟨[c], cs, rfl, .stray hs⟩

theorem Refused.cut_eq {seen before : List Char} {fault : LexFault}
    (h : Refused seen fault before) :
    ∃ c cs, seen = c :: cs ∧ ∀ rest, cut c (cs ++ rest) = .error ⟨fault, before⟩ := by
  cases h with
  | stray hs => exact ⟨_, [], rfl, cut_of_not_starts hs⟩
  | @lone c d hc hd =>
    exact ⟨c, [d], rfl, fun rest => cut_of_lone hc (by simpa [NotBefore] using hd)⟩
  | @line q body vs hq hbody =>
    refine ⟨q, body ++ ['\n'], rfl, fun rest => ?_⟩
    rw [List.append_assoc]
    exact (cut_of_halt hq hbody .line).trans rfl
  | @slashLine q body vs hq hbody =>
    refine ⟨q, body ++ ['\\', '\n'], rfl, fun rest => ?_⟩
    rw [List.append_assoc]
    exact (cut_of_halt hq hbody .slashLine).trans rfl
  | @escape q body vs c hq hbody hc hu =>
    refine ⟨q, body ++ ['\\', c], rfl, fun rest => ?_⟩
    rw [List.append_assoc]
    refine (cut_of_halt hq hbody (.escape hc hu)).trans ?_
    simp [Reading.behind, Reading.piece]

/-! ## Behind other pieces -/

theorem NotBefore.append_congr {P : Char → Prop} {rest rest' : List Char}
    (h : NotBefore rest P → NotBefore rest' P) (cs : List Char) (hcs : NotBefore (cs ++ rest) P) :
    NotBefore (cs ++ rest') P := by
  cases cs with
  | nil => exact h hcs
  | cons c cs => exact hcs

theorem EndsBefore.append {rest rest' : List Char} (h : EndsBefore rest rest') (cs : List Char) :
    EndsBefore (cs ++ rest) (cs ++ rest') where
  word := NotBefore.append_congr h.word cs
  digit := NotBefore.append_congr h.digit cs
  equals := NotBefore.append_congr h.equals cs
  fraction hdot ds hds := by
    cases cs with
    | nil => exact h.fraction hdot ds hds
    | cons c cs =>
      obtain ⟨rfl, rfl⟩ := List.cons.inj hds
      exact NotBefore.append_congr h.digit cs (hdot (cs ++ rest) rfl)

theorem endsBefore_head {c : Char} (hc : c ≠ '.') (cs ds : List Char) :
    EndsBefore (c :: cs) (c :: ds) :=
  ⟨id, id, fun _ _ hds => absurd (List.cons.inj hds).1 hc, id⟩

/-- Pieces are cut off the same in front of another text, where none of them goes on. -/
theorem Cuts.before {cs rest rest' : List Char} {ws : List (TokenKind × String)}
    (h : Cuts cs ws rest) (hr : EndsBefore rest rest')
    (hline : NotBefore rest (· ≠ '\n') → NotBefore rest' (· ≠ '\n')) :
    ∃ u, cs = u ++ rest ∧ Cuts (u ++ rest') ws rest' := by
  induction h with
  | nil => exact ⟨[], rfl, .nil⟩
  | @gap g cs ws rest hg _ ih =>
    obtain ⟨u, rfl, hu⟩ := ih hr hline
    refine ⟨g ++ u, (List.append_assoc ..).symm, ?_⟩
    rw [List.append_assoc]
    cases hg with
    | blank hc => exact .gap (.blank hc) hu
    | comment hcs hrest => exact .gap (.comment hcs (NotBefore.append_congr hline u hrest)) hu
  | @lexeme l cs k text ws rest hl _ ih =>
    obtain ⟨u, rfl, hu⟩ := ih hr hline
    refine ⟨l ++ u, (List.append_assoc ..).symm, ?_⟩
    rw [List.append_assoc]
    exact .lexeme (hl.before (hr.append u)) hu

end Lexical

theorem exists_cuts_of_scan_eq_error {p : Pos} {cs : List Char} {e : LexError}
    (h : scan p cs = .error e) : ∃ u c ds ws f, cs = u ++ c :: ds ∧ Cuts cs ws (c :: ds) ∧
      cut c ds = .error f ∧ e = f.at (p.after u) := by
  induction cs using pieces_induction generalizing p with
  | nil =>
    rw [scan_nil] at h
    cases h
  | cons c cs ih =>
    rw [scan_cons] at h
    cases hcut : cut c cs with
    | error f =>
      rw [hcut] at h
      cases h
      exact ⟨[], c, cs, [], f, rfl, .nil, hcut, rfl⟩
    | ok piece =>
      rw [hcut] at h
      cases hs : scan (p.after piece.source) piece.rest with
      | ok ts =>
        simp only [hs] at h
        cases h
      | error e' =>
        simp only [hs] at h
        cases h
        obtain ⟨u, d, ds, ws, f, hrest, hcuts, hf, rfl⟩ := ih piece hcut hs
        have hsource := (append_of_cut_eq_ok hcut).1
        refine ⟨piece.source ++ u, d, ds, ?_⟩
        rw [← hsource, Pos.after_append]
        rcases cut_sound hcut with ⟨-, hg⟩ | ⟨k, text, -, hl⟩
        · exact ⟨ws, f, by rw [hrest, List.append_assoc], .gap hg hcuts, hf, rfl⟩
        · exact ⟨_, f, by rw [hrest, List.append_assoc], .lexeme hl hcuts, hf, rfl⟩

theorem exists_tokenize_of_cuts_append {u rest : List Char} {ws : List (TokenKind × String)}
    (h : Cuts (u ++ rest) ws rest) : ∃ ts, tokenize (.ofList u) = .ok ts := by
  obtain ⟨u', hu, hcuts⟩ := h.before (endsBefore_nil rest) (fun _ => by simp [NotBefore])
  obtain rfl := List.append_cancel_right hu
  rw [List.append_nil, ← String.toList_ofList (l := u)] at hcuts
  obtain ⟨us, e, htokens, -⟩ := exists_tokenize_of_cuts hcuts
  exact ⟨us ++ [e], htokens⟩

theorem scan_eq_error_of_cuts {u cs ds : List Char} {c : Char} {ws : List (TokenKind × String)}
    {f : CutError} (h : Cuts (u ++ c :: cs) ws (c :: cs)) (hf : cut c cs = .error f)
    (hf' : cut c ds = .error f) (p : Pos) :
    scan p (u ++ c :: ds) = .error (f.at (p.after u)) := by
  have hdot : c ≠ '.' := by
    intro hc
    subst hc
    cases hf.symm.trans (cut_of_symbol rfl)
  obtain ⟨u', hu, hcuts⟩ := h.before (endsBefore_head hdot cs ds) id
  obtain rfl := List.append_cancel_right hu
  obtain ⟨u', hu, hscan⟩ := hcuts.scan
  obtain rfl := List.append_cancel_right hu
  obtain ⟨ts, -, -, hscan⟩ := hscan p
  rw [hscan, scan_cons, hf']
  rfl

/-- **First lexical error.** An error stands behind a text `u` that is tokenized, at the first place
where nothing can be cut off. If it is decided by a character and not by the end of the text, every
text that is the same up to this character has the same error. -/
theorem tokenize_error_first {source : String} {e : LexError} (h : tokenize source = .error e) :
    ∃ (u v : String) (ts : List Token) (before : List Char), source = u ++ v ∧
      tokenize u = .ok ts ∧
      e.line = 1 + (u.toList ++ before).count '\n' ∧
      e.column = 1 + ((u.toList ++ before).rtakeWhile (· ≠ '\n')).length ∧
      (Unfinished v.toList e.fault ∧ before = [] ∨
        ∃ seen rest, v.toList = seen ++ rest ∧ Refused seen e.fault before ∧
          ∀ source' : String, u.toList ++ seen <+: source'.toList → tokenize source' = .error e) := by
  obtain ⟨u, c, cs, ws, f, hu, hcuts, hcut, rfl⟩ := exists_cuts_of_scan_eq_error h
  rw [hu] at hcuts
  obtain ⟨ts, hts⟩ := exists_tokenize_of_cuts_append hcuts
  refine ⟨.ofList u, .ofList (c :: cs), ts, f.before, ?_, hts, ?_⟩
  · rw [← String.ofList_append, ← hu, String.ofList_toList]
  have hplace : (({} : Pos).after u).after f.before = .behind (u ++ f.before) := by
    rw [← Pos.after_append, Pos.after_start]
  rw [String.toList_ofList, String.toList_ofList, CutError.at, hplace]
  refine ⟨rfl, rfl, ?_⟩
  rcases cut_eq_error hcut with hend | ⟨seen, rest, hseen, hrefused⟩
  · exact .inl hend
  · refine .inr ⟨seen, rest, hseen, hrefused, fun source' hs => ?_⟩
    obtain ⟨rest', hs⟩ := hs
    obtain ⟨d, ds, rfl, hcut'⟩ := hrefused.cut_eq
    obtain ⟨rfl, rfl⟩ := List.cons.inj hseen
    obtain rfl : source' = .ofList (u ++ c :: (ds ++ rest')) := by
      rw [← String.ofList_toList (s := source'), ← hs]
      simp
    rw [tokenize, String.toList_ofList, scan_eq_error_of_cuts hcuts hcut (hcut' rest'), CutError.at,
      hplace]

/-- A string on the second line, with a backslash before a letter that has no escape. -/
theorem tokenize_error_first_escape :
    tokenize "to\n 'é\\qb" = .error ⟨.badEscape 'q', 2, 4⟩ ∧
    ∃ (u v : String) (ts : List Token) (before : List Char), "to\n 'é\\qb" = u ++ v ∧
      tokenize u = .ok ts ∧ 2 = 1 + (u.toList ++ before).count '\n' ∧
      4 = 1 + ((u.toList ++ before).rtakeWhile (· ≠ '\n')).length ∧
      (Unfinished v.toList (.badEscape 'q') ∧ before = [] ∨
        ∃ seen rest, v.toList = seen ++ rest ∧ Refused seen (.badEscape 'q') before ∧
          ∀ source' : String, u.toList ++ seen <+: source'.toList →
            tokenize source' = .error ⟨.badEscape 'q', 2, 4⟩) := by
  have h : tokenize "to\n 'é\\qb" = .error ⟨.badEscape 'q', 2, 4⟩ := by decide +kernel
  exact ⟨h, tokenize_error_first h⟩

end PolicyLang
