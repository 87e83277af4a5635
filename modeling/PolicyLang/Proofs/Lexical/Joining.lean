import PolicyLang.Proofs.Lexical.Positions
import PolicyLang.Proofs.Tree.Spans

/-!
# Texts behind one another

A line feed ends whatever stands before it, so a text is cut the same with further lines behind it.
The tokens of these lines are those of the lines alone, moved down.
-/

namespace PolicyLang

open Lexical

namespace Lexical

/-! ## What may follow -/

/-- No lexeme that ends in front of `rest` goes on in `rest'`. -/
structure EndsBefore (rest rest' : List Char) : Prop where
  word : NotBefore rest WordChar → NotBefore rest' WordChar
  digit : NotBefore rest Digit → NotBefore rest' Digit
  fraction : (∀ cs, rest = '.' :: cs → NotBefore cs Digit) →
    ∀ cs, rest' = '.' :: cs → NotBefore cs Digit
  equals : NotBefore rest (· = '=') → NotBefore rest' (· = '=')

theorem Lexeme.before {cs rest rest' : List Char} {k : TokenKind} {text : String}
    (h : Lexeme cs rest k text) (hr : EndsBefore rest rest') : Lexeme cs rest' k text := by
  cases h with
  | word hc hcs hrest hk => exact .word hc hcs (hr.word hrest) hk
  | whole hne hds hrest hdot => exact .whole hne hds (hr.digit hrest) (hr.fraction hdot)
  | fraction hne hds hnf hfs hrest => exact .fraction hne hds hnf hfs (hr.digit hrest)
  | string hq hcs => exact .string hq hcs
  | symbol hs hf => exact .symbol hs fun hlt => hr.equals (hf hlt)

theorem NotBefore.append_lineFeed {P : Char → Prop} {rest : List Char} (h : NotBefore rest P)
    (hP : ¬ P '\n') (ds : List Char) : NotBefore (rest ++ '\n' :: ds) P := by
  cases rest with
  | nil => simpa [NotBefore] using hP
  | cons c rest => simpa [NotBefore] using h

theorem endsBefore_lineFeed (rest ds : List Char) : EndsBefore rest (rest ++ '\n' :: ds) := by
  refine ⟨fun h => h.append_lineFeed (by decide) ds, fun h => h.append_lineFeed (by decide) ds,
    fun h cs hcs => ?_, fun h => h.append_lineFeed (by decide) ds⟩
  cases rest with
  | nil => cases hcs
  | cons c rest =>
    cases hcs
    exact (h rest rfl).append_lineFeed (by decide) ds

theorem GapPiece.append_lineFeed {g rest : List Char} (h : GapPiece g rest) (ds : List Char) :
    GapPiece g (rest ++ '\n' :: ds) := by
  cases h with
  | blank hc => exact .blank hc
  | comment hcs hrest => exact .comment hcs (hrest.append_lineFeed (by simp) ds)

end Lexical

theorem cut_append_lineFeed {c : Char} {cs : List Char} {piece : Piece} (h : cut c cs = .ok piece)
    (ds : List Char) :
    cut c (cs ++ '\n' :: ds) = .ok { piece with rest := piece.rest ++ '\n' :: ds } := by
  obtain ⟨token, source, rest⟩ := piece
  have hsource : source ++ (rest ++ '\n' :: ds) = c :: (cs ++ '\n' :: ds) := by
    rw [← List.append_assoc, (append_of_cut_eq_ok h).1, List.cons_append]
  rcases cut_sound h with ⟨rfl, hgap⟩ | ⟨k, text, rfl, hl⟩
  · obtain ⟨d, es, hd, hcut⟩ := cut_gap (hgap.append_lineFeed ds)
    obtain ⟨rfl, rfl⟩ := List.cons.inj (hd.symm.trans hsource)
    exact hcut
  · obtain ⟨d, es, hd, hcut⟩ := cut_lexeme (hl.before (endsBefore_lineFeed rest ds))
    obtain ⟨rfl, rfl⟩ := List.cons.inj (hd.symm.trans hsource)
    exact hcut

/-- The tokens of a text come first, without its end mark, and then those of the lines behind it. -/
theorem scan_append_lineFeed {p : Pos} {cs : List Char} {us : List Token} {e : Token}
    (h : scan p cs = .ok (us ++ [e])) (ds : List Char) :
    scan p (cs ++ '\n' :: ds) = (scan (p.after (cs ++ ['\n'])) ds).map (us ++ ·) := by
  have hfeed (p : Pos) : scan p ('\n' :: ds) = scan (p.after ['\n']) ds :=
    scan_gapPiece (g := ['\n']) (.blank (by simp)) p
  induction cs using pieces_induction generalizing p us with
  | nil =>
    rw [scan_nil] at h
    obtain ⟨rfl, -⟩ : us = [] ∧ _ := by
      cases us with
      | nil => exact ⟨rfl, trivial⟩
      | cons u us => simp at h
    rw [List.nil_append, List.nil_append, hfeed]
    cases scan (p.after ['\n']) ds <;> rfl
  | cons c cs ih =>
    obtain ⟨piece, ts, hcut, hts, hus⟩ := scan_cons_eq_ok h
    -- the end mark stands behind the rest of the text, so the piece gives tokens of `us` only
    obtain ⟨vs, e', rfl, -⟩ := (segmented_of_scan hts).end_mark
    rw [← List.append_assoc] at hus
    obtain ⟨rfl, he⟩ := List.append_inj' hus rfl
    obtain rfl := List.singleton_inj.mp he
    have hpos : (p.after piece.source).after (piece.rest ++ ['\n']) = p.after (c :: cs ++ ['\n']) := by
      rw [← Pos.after_append, ← List.append_assoc, (append_of_cut_eq_ok hcut).1]
    rw [List.cons_append, scan_cons, cut_append_lineFeed hcut ds]
    dsimp only
    rw [ih piece hcut hts, hpos]
    cases scan (p.after (c :: cs ++ ['\n'])) ds with
    | error f => rfl
    | ok us => exact congrArg Except.ok (List.append_assoc ..).symm

/-! ## Moving down -/

section
variable (lines bytes : Nat)

/-- The same place in a text with so many more lines and bytes in front. -/
def Pos.below (p : Pos) : Pos := ⟨p.line + lines, p.column, p.offset + bytes⟩

def Span.below (s : Span) : Span := ⟨s.line + lines, s.column, s.start + bytes, s.stop + bytes⟩

def LexError.below (e : LexError) : LexError := { e with line := e.line + lines }

theorem Pos.after_below (p : Pos) (cs : List Char) :
    (p.below lines bytes).after cs = (p.after cs).below lines bytes := by
  induction cs generalizing p with
  | nil => rfl
  | cons c cs ih =>
    have hnext : (p.below lines bytes).next c = (p.next c).below lines bytes := by
      unfold next
      split <;> simp [below, Nat.add_right_comm]
    rw [after_cons, after_cons, hnext, ih]

theorem Span.to_below (s t : Span) :
    (s.to t).below lines bytes = (s.below lines bytes).to (t.below lines bytes) := by
  simp only [below, Span.to, Nat.add_max_add_right]

theorem Piece.tokens_below (piece : Piece) (p : Pos) : piece.tokens (p.below lines bytes) =
    (piece.tokens p).map (Token.mapSpan (Span.below lines bytes)) := by
  unfold tokens
  rw [Pos.after_below]
  cases piece.token <;> rfl

theorem CutError.at_below (e : CutError) (p : Pos) :
    e.at (p.below lines bytes) = (e.at p).below lines := by
  unfold CutError.at
  rw [Pos.after_below]
  rfl

theorem scan_below (p : Pos) (cs : List Char) : scan (p.below lines bytes) cs =
    match scan p cs with
    | .ok ts => .ok (ts.map (Token.mapSpan (Span.below lines bytes)))
    | .error e => .error (e.below lines) := by
  induction cs using pieces_induction generalizing p with
  | nil =>
    rw [scan_nil, scan_nil]
    rfl
  | cons c cs ih =>
    rw [scan_cons, scan_cons]
    cases hcut : cut c cs with
    | error e => exact congrArg Except.error (CutError.at_below lines bytes e p)
    | ok piece =>
      dsimp only
      rw [Pos.after_below, ih piece hcut, Piece.tokens_below]
      cases scan (p.after piece.source) piece.rest with
      | error e => rfl
      | ok ts => exact congrArg Except.ok List.map_append.symm

end

/-- Behind a line feed, the column is the first one again. -/
theorem Pos.after_lineFeed (cs : List Char) : ({} : Pos).after (cs ++ ['\n']) =
    ({} : Pos).below (1 + cs.count '\n') (1 + bytes cs) := by
  have hfeed : ('\n').utf8Size = 1 := rfl
  rw [after_start]
  simp [behind, below, hfeed]
  omega

end PolicyLang
