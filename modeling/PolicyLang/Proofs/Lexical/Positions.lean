import Mathlib.Data.List.DropRight
import PolicyLang.Proofs.Lexical.Segmentation

/-!
# Where tokens stand

Lines and columns are carried along while a text is cut. Here they are counted from the text that
stands before a token, and the tokens of a text follow one another.
-/

namespace PolicyLang

open Lexical

/-- The place behind a text: a line more than it has line feeds, and a column more than it has
characters behind the last of them. -/
def Pos.behind (cs : List Char) : Pos :=
  ⟨1 + cs.count '\n', 1 + (cs.rtakeWhile (· ≠ '\n')).length, bytes cs⟩

/-- `s` ends before `t` begins, and begins on an earlier line or further to the left. -/
def Span.Precedes (s t : Span) : Prop :=
  s.stop ≤ t.start ∧ (s.line < t.line ∨ s.line = t.line ∧ s.column < t.column)

/-! ## Counting -/

namespace Pos

/-- Reading along a text and counting in it lead to the same place. -/
theorem after_start (cs : List Char) : ({} : Pos).after cs = behind cs := by
  induction cs using List.reverseRecOn with
  | nil => rfl
  | append_singleton cs c ih =>
    rw [after_append, ih, after_cons, after_nil]
    by_cases hc : c = '\n'
    · subst hc
      simp [behind, next, Nat.add_assoc]
    · simp [behind, next, hc, Nat.add_assoc]

theorem after_of_no_lineFeed {cs : List Char} (h : '\n' ∉ cs) (p : Pos) :
    p.after cs = ⟨p.line, p.column + cs.length, p.offset + bytes cs⟩ := by
  induction cs generalizing p with
  | nil => rfl
  | cons c cs ih =>
    rw [List.mem_cons, not_or] at h
    rw [after_cons, ih h.2, next, if_neg (Ne.symm h.1)]
    simp only [List.length_cons, bytes_cons, Nat.add_assoc, Nat.add_comm 1]

/-- `p` is on an earlier line than `q`, or further to the left. -/
def Before (p q : Pos) : Prop := p.line < q.line ∨ p.line = q.line ∧ p.column < q.column

theorem Before.trans {p q r : Pos} (h : p.Before q) (h' : q.Before r) : p.Before r := by
  unfold Before at *
  omega

theorem before_next (p : Pos) (c : Char) : p.Before (p.next c) := by
  unfold next
  by_cases hc : c = '\n'
  · rw [if_pos hc]
    exact .inl (Nat.lt_succ_self _)
  · rw [if_neg hc]
    exact .inr ⟨rfl, Nat.lt_succ_self _⟩

theorem before_after (p : Pos) {cs : List Char} (h : cs ≠ []) : p.Before (p.after cs) := by
  induction cs generalizing p with
  | nil => exact absurd rfl h
  | cons c cs ih =>
    by_cases hcs : cs = []
    · subst hcs
      exact before_next p c
    · exact (before_next p c).trans (ih (p.next c) hcs)

end Pos

/-! ## Lexemes stand on one line -/

namespace Lexical

theorem Quotation.no_lineFeed {q : Char} {cs vs : List Char} (h : Quotation q cs vs) : '\n' ∉ cs := by
  induction h with
  | nil => simp
  | char hn _ _ _ ih => simp [ih, hn.symm]
  | escape he _ ih => simp [ih, (not_newline_of_mem_escapes he).symm]

theorem no_lineFeed_of_digits {ds : List Char} (h : ∀ d ∈ ds, Digit d) : '\n' ∉ ds :=
  fun hn => absurd (h _ hn) (by decide)

theorem no_lineFeed_of_symbols : ∀ x ∈ symbols, '\n' ∉ x.1.toList := by decide

theorem Lexeme.no_lineFeed {cs rest : List Char} {k : TokenKind} {text : String}
    (h : Lexeme cs rest k text) : '\n' ∉ cs := by
  cases h with
  | word hc hcs =>
    have hword : ∀ d ∈ _ :: _, WordChar d := List.forall_mem_cons.mpr ⟨.inl hc, hcs⟩
    exact fun hn => absurd (hword _ hn) (by decide)
  | whole _ hds => exact no_lineFeed_of_digits hds
  | fraction _ hds _ hfs =>
    simp [no_lineFeed_of_digits hds, no_lineFeed_of_digits hfs]
  | @string q _ _ _ hq hcs =>
    have hqn : '\n' ≠ q := by rcases hq with rfl | rfl <;> decide
    simp [hcs.no_lineFeed, hqn]
  | symbol hs => exact no_lineFeed_of_symbols _ hs

end Lexical

/-! ## Tokens in their places -/

/-- Each token stands between two places of the text, on one line, and only the end mark is empty. -/
theorem exists_between_of_scan {p : Pos} {cs : List Char} {ts : List Token} (h : scan p cs = .ok ts)
    {t : Token} (ht : t ∈ ts) : ∃ pre mid post, cs = pre ++ mid ++ post ∧
      t.span = .between (p.after pre) (p.after (pre ++ mid)) ∧ '\n' ∉ mid ∧
      (t.kind ≠ .eof → mid ≠ []) := by
  induction cs using pieces_induction generalizing p ts with
  | nil =>
    rw [scan_nil] at h
    cases h
    obtain rfl := List.mem_singleton.mp ht
    exact ⟨[], [], [], rfl, rfl, by simp, fun hk => absurd rfl hk⟩
  | cons c cs ih =>
    obtain ⟨piece, us, hcut, hus, rfl⟩ := scan_cons_eq_ok h
    obtain ⟨hsource, hne⟩ := append_of_cut_eq_ok hcut
    rcases List.mem_append.mp ht with ht | ht
    · rcases cut_sound hcut with ⟨hnone, -⟩ | ⟨k, text, hsome, hl⟩
      · simp [Piece.tokens, hnone] at ht
      · simp only [Piece.tokens, hsome, List.mem_singleton] at ht
        subst ht
        exact ⟨[], piece.source, piece.rest, hsource.symm, rfl, hl.no_lineFeed, fun _ => hne⟩
    · obtain ⟨pre, mid, post, hrest, hspan, hline, hk⟩ := ih piece hcut hus ht
      refine ⟨piece.source ++ pre, mid, post, ?_, ?_, hline, hk⟩
      · rw [← hsource, hrest]
        simp
      · rw [hspan, Pos.after_append, Pos.after_append, List.append_assoc, Pos.after_append,
          Pos.after_append]

theorem precedes_of_scan {p : Pos} {cs : List Char} {ts : List Token} (h : scan p cs = .ok ts) :
    ts.Pairwise fun a b => a.span.Precedes b.span := by
  induction cs using pieces_induction generalizing p ts with
  | nil =>
    rw [scan_nil] at h
    cases h
    exact List.pairwise_singleton _ _
  | cons c cs ih =>
    obtain ⟨piece, us, hcut, hus, rfl⟩ := scan_cons_eq_ok h
    have hne := (append_of_cut_eq_ok hcut).2
    unfold Piece.tokens
    cases piece.token with
    | none => exact ih piece hcut hus
    | some w =>
      refine List.pairwise_cons.mpr ⟨fun b hb => ?_, ih piece hcut hus⟩
      obtain ⟨pre, mid, -, -, hspan, -⟩ := exists_between_of_scan hus hb
      rw [hspan, ← Pos.after_append]
      refine ⟨?_, p.before_after (by simp [hne])⟩
      simp only [Span.between, offset_after, bytes_append]
      omega

/-- **Positions.** Each token stands for a part of the source that is on one line. The line and column
of the token are those behind the text before it, and the token begins and ends with the bytes of its
part. Of two tokens, the first one ends before the other one begins. -/
theorem tokenize_places {source : String} {ts : List Token} (h : tokenize source = .ok ts) :
    (∀ t ∈ ts, ∃ pre mid post : String, source = pre ++ mid ++ post ∧
      t.span.start = pre.utf8ByteSize ∧ t.span.stop = (pre ++ mid).utf8ByteSize ∧
      t.span.line = 1 + pre.toList.count '\n' ∧
      t.span.column = 1 + (pre.toList.rtakeWhile (· ≠ '\n')).length ∧ '\n' ∉ mid.toList) ∧
    ts.Pairwise fun a b => a.span.Precedes b.span := by
  refine ⟨fun t ht => ?_, precedes_of_scan h⟩
  obtain ⟨pre, mid, post, hsource, hspan, hline, -⟩ := exists_between_of_scan h ht
  rw [Pos.after_start, Pos.after_start] at hspan
  refine ⟨.ofList pre, .ofList mid, .ofList post, ?_, ?_⟩
  · rw [← String.ofList_append, ← String.ofList_append, ← hsource, String.ofList_toList]
  · rw [← bytes_toList, ← bytes_toList, hspan, ← String.ofList_append]
    simp only [String.toList_ofList, Span.between, Pos.behind]
    exact ⟨trivial, trivial, trivial, trivial, hline⟩

/-- A string with a letter of two bytes, a comment, and a word behind a tab on the second line. -/
theorem tokenize_places_import :
    tokenize "'é' # x\r\n\tto" = .ok [⟨.string, "é", ⟨1, 1, 0, 4⟩⟩, ⟨.kwTo, "to", ⟨2, 2, 11, 13⟩⟩,
      .eof ⟨2, 4, 13, 13⟩] ∧
    (∃ pre mid post : String, "'é' # x\r\n\tto" = pre ++ mid ++ post ∧ 11 = pre.utf8ByteSize ∧
      13 = (pre ++ mid).utf8ByteSize ∧ 2 = 1 + pre.toList.count '\n' ∧
      2 = 1 + (pre.toList.rtakeWhile (· ≠ '\n')).length) ∧
    (⟨1, 1, 0, 4⟩ : Span).Precedes ⟨2, 2, 11, 13⟩ := by
  have h : tokenize "'é' # x\r\n\tto" = .ok [⟨.string, "é", ⟨1, 1, 0, 4⟩⟩,
      ⟨.kwTo, "to", ⟨2, 2, 11, 13⟩⟩, .eof ⟨2, 4, 13, 13⟩] := by decide +kernel
  obtain ⟨hplaces, hpairs⟩ := tokenize_places h
  let word : Token := ⟨.kwTo, "to", ⟨2, 2, 11, 13⟩⟩
  obtain ⟨pre, mid, post, hsource, hstart, hstop, hline, hcolumn, -⟩ := hplaces word (by simp [word])
  exact ⟨h, ⟨pre, mid, post, hsource, hstart, hstop, hline, hcolumn⟩,
    (List.pairwise_cons.mp hpairs).1 word (by simp [word])⟩

end PolicyLang
