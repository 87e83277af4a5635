import Mathlib.Data.String.Basic
import PolicyLang.Proofs.Lexical.Joining
import PolicyLang.Proofs.Lexical.Spelling

/-!
# Layout

The lexemes of a source may be written down again with any blanks and comments between them. Each of
them is then cut as before, whatever stood behind it, so the tokens differ in their places only.
-/

namespace PolicyLang

open Lexical

/-- The part of the source that the span says. -/
def Span.slice (source : String) (s : Span) : String :=
  String.Pos.Raw.extract source ⟨s.start⟩ ⟨s.stop⟩

/-- What the source has in the place of a token. -/
def Token.lexeme (source : String) (t : Token) : List Char :=
  (String.Pos.Raw.extract source ⟨t.span.start⟩ ⟨t.span.stop⟩).toList

namespace Lexical

/-- Blanks and comments, the line feed behind each comment included. -/
inductive Layout : List Char → Prop
  | nil : Layout []
  | blank {c cs} : c = ' ' ∨ c = '\t' ∨ c = '\r' ∨ c = '\n' → Layout cs → Layout (c :: cs)
  | comment {ds cs} : '\n' ∉ ds → Layout cs → Layout ('#' :: (ds ++ '\n' :: cs))

/-- The texts `ls` in this order, with layout behind each, and some of it between any two of them. -/
inductive Spread : List (List Char) → List Char → Prop
  | nil : Spread [] []
  | cons {l g ls cs} : Layout g → (ls ≠ [] → g ≠ []) → Spread ls cs →
      Spread (l :: ls) (l ++ (g ++ cs))

end Lexical

/-- The text `source'` is written with the lexemes of `source`, whose tokens are `ts`. -/
def Relaid (source : String) (ts : List Token) (source' : String) : Prop :=
  ∃ g cs, Layout g ∧ Spread ((ts.filter (·.kind ≠ .eof)).map (Token.lexeme source)) cs ∧
    source'.toList = g ++ cs

/-! ## Lexemes in their places -/

namespace Lexical

theorem bytes_eq_utf8Len (cs : List Char) : bytes cs = String.utf8Len cs := by
  induction cs with
  | nil => rfl
  | cons c cs ih => rw [bytes_cons, ih, String.utf8Len_cons, Nat.add_comm]

theorem slice_eq {source : String} {pre cs rest : List Char} {s : Span}
    (h : source.toList = pre ++ (cs ++ rest)) (hstart : s.start = bytes pre)
    (hstop : s.stop = bytes pre + bytes cs) : s.slice source = .ofList cs := by
  obtain rfl : source = .ofList (pre ++ cs ++ rest) := by
    rw [List.append_assoc, ← h, String.ofList_toList]
  rw [Span.slice, hstop, hstart, bytes_eq_utf8Len, bytes_eq_utf8Len, String.extract_of_valid]

theorem lexeme_eq {source : String} {pre cs rest : List Char} {t : Token}
    (h : source.toList = pre ++ cs ++ rest) (hstart : t.span.start = bytes pre)
    (hstop : t.span.stop = t.span.start + bytes cs) : t.lexeme source = cs := by
  rw [List.append_assoc] at h
  rw [hstart] at hstop
  have hslice : (t.span.slice source).toList = (String.ofList cs).toList :=
    congrArg String.toList (slice_eq h hstart hstop)
  rwa [String.toList_ofList] at hslice

theorem Segmented.lexeme_of_mem {source : String} {ts : List Token}
    (h : Segmented 0 source.toList ts) {t : Token} (ht : t ∈ ts) (hk : t.kind ≠ .eof) :
    ∃ rest, Lexeme (t.lexeme source) rest t.kind t.text := by
  obtain ⟨pre, l, rest, hcs, hl, hstart, hstop⟩ := h.exists_lexeme ht hk
  rw [lexeme_eq hcs (hstart.trans (Nat.zero_add _)) hstop]
  exact ⟨rest, hl⟩

/-! ## Between lexemes -/

theorem endsBefore_nil (rest : List Char) : EndsBefore rest [] := by
  constructor <;> simp [NotBefore]

theorem endsBefore_cons (rest cs : List Char) {c : Char} (hw : ¬ WordChar c) (hd : c ≠ '.')
    (he : c ≠ '=') : EndsBefore rest (c :: cs) where
  word _ := by simpa [NotBefore] using hw
  digit _ := by simpa [NotBefore] using fun h => hw (.inr h)
  fraction _ ds hds := absurd (List.cons.inj hds).1 hd
  equals _ := by simpa [NotBefore] using he

/-- Every lexeme ends in front of layout. -/
theorem Layout.endsBefore {g cs : List Char} (h : Layout g) (hne : g ≠ []) (rest : List Char) :
    EndsBefore rest (g ++ cs) := by
  cases h with
  | nil => exact absurd rfl hne
  | blank hc => rcases hc with rfl | rfl | rfl | rfl <;>
      exact endsBefore_cons rest _ (by decide) (by decide) (by decide)
  | comment => exact endsBefore_cons rest _ (by decide) (by decide) (by decide)

theorem Layout.cuts {g cs rest : List Char} {ws : List (TokenKind × String)} (h : Layout g)
    (hcs : Cuts cs ws rest) : Cuts (g ++ cs) ws rest := by
  induction h with
  | nil => exact hcs
  | @blank c g hc _ ih => exact .gap (g := [c]) (.blank hc) ih
  | @comment ds g hds _ ih =>
    -- a comment ends in front of its line feed, which is a blank
    have hfeed : Cuts ('\n' :: (g ++ cs)) ws rest := .gap (g := ['\n']) (.blank (by simp)) ih
    have hcomment : GapPiece ('#' :: ds) ('\n' :: (g ++ cs)) :=
      .comment hds (by simp [NotBefore])
    simpa using Cuts.gap hcomment hfeed

theorem Spread.cuts {source : String} {us : List Token} {cs : List Char}
    (h : Spread (us.map (Token.lexeme source)) cs)
    (hus : ∀ t ∈ us, ∃ rest, Lexeme (t.lexeme source) rest t.kind t.text) :
    Cuts cs (us.map Token.word) [] := by
  induction us generalizing cs with
  | nil =>
    cases h
    exact .nil
  | cons u us ih =>
    rw [List.forall_mem_cons] at hus
    obtain ⟨⟨rest, hl⟩, hus⟩ := hus
    cases h with
    | @cons _ g _ cs hg hne h =>
      refine .lexeme (hl.before ?_) (hg.cuts (ih h hus))
      -- with nothing between them, this lexeme is the last one and ends the text
      by_cases hnil : g = []
      · have hlast : us.map (Token.lexeme source) = [] :=
          Classical.byContradiction fun hls => hne hls hnil
        rw [hlast] at h
        cases h
        rw [hnil]
        exact endsBefore_nil rest
      · exact hg.endsBefore hnil rest

end Lexical

theorem tokenize_of_relaid {source source' : String} {ts : List Token} (h : tokenize source = .ok ts)
    (hr : Relaid source ts source') :
    ∃ ts', tokenize source' = .ok ts' ∧ ts'.map Token.word = ts.map Token.word := by
  obtain ⟨g, cs, hg, hspread, hsource⟩ := hr
  have hlexeme (t : Token) (ht : t ∈ ts.filter (·.kind ≠ .eof)) :
      ∃ rest, Lexeme (t.lexeme source) rest t.kind t.text := by
    rw [List.mem_filter, decide_eq_true_eq] at ht
    exact Segmented.lexeme_of_mem (segmented_of_scan h) ht.1 ht.2
  have hcuts := hg.cuts (hspread.cuts hlexeme)
  rw [← hsource] at hcuts
  obtain ⟨us', e', hscan, hw, -⟩ := exists_tokenize_of_cuts hcuts
  refine ⟨us' ++ [e'], hscan, ?_⟩
  obtain ⟨us, e, rfl, hus, he, htext, -⟩ := exists_eof_of_tokenize h
  obtain ⟨vs, f, hvs, -, hf, hftext, -⟩ := exists_eof_of_tokenize hscan
  obtain ⟨rfl, hend⟩ := List.append_inj' hvs rfl
  obtain rfl := List.singleton_inj.mp hend
  have hfilter : (us ++ [e]).filter (·.kind ≠ .eof) = us := by
    rw [List.filter_append, List.filter_eq_self.mpr (by simpa using hus),
      List.filter_singleton]
    simp [he]
  have hword : e'.word = e.word := by
    rw [Token.word, Token.word, hf, hftext, he, htext]
  rw [List.map_append, List.map_append, hw, hfilter, List.map_singleton, List.map_singleton, hword]

end PolicyLang
