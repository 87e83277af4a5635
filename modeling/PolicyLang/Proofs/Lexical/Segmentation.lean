import PolicyLang.Proofs.Lexical.Cutting

/-!
# Texts are cut into the lexical language

A text is tokenized if and only if it is made of gaps and lexemes, and into just these lexemes. The
places of the tokens are the byte ranges of the lexemes.
-/

namespace PolicyLang

open Lexical

namespace Lexical

@[simp] theorem bytes_nil : bytes [] = 0 := rfl

@[simp] theorem bytes_cons (c : Char) (cs : List Char) : bytes (c :: cs) = c.utf8Size + bytes cs := rfl

@[simp] theorem bytes_append (cs ds : List Char) : bytes (cs ++ ds) = bytes cs + bytes ds := by
  induction cs with
  | nil => simp
  | cons c cs ih => simp [ih, Nat.add_assoc]

theorem bytes_toList (s : String) : bytes s.toList = s.utf8ByteSize := by
  obtain ⟨cs, rfl⟩ : ∃ cs, s = String.ofList cs := ⟨_, String.ofList_toList.symm⟩
  rw [String.toList_ofList]
  induction cs with
  | nil => rfl
  | cons c cs ih =>
    have hc : String.ofList (c :: cs) = String.singleton c ++ String.ofList cs := by simp
    rw [hc, String.utf8ByteSize_append, bytes_cons, ih]
    simp

theorem offset_after (p : Pos) (cs : List Char) : (p.after cs).offset = p.offset + bytes cs := by
  induction cs generalizing p with
  | nil => rfl
  | cons c cs ih =>
    have hc : (p.next c).offset = p.offset + c.utf8Size := by
      unfold Pos.next
      split <;> rfl
    rw [Pos.after_cons, ih, hc, bytes_cons, Nat.add_assoc]

theorem Lexeme.ne_eof {cs rest : List Char} {k : TokenKind} {text : String}
    (h : Lexeme cs rest k text) : k ≠ .eof := by
  cases h with
  | word _ _ _ hk =>
    cases hk with
    | keyword hk =>
      intro heq
      subst heq
      exact absurd hk.1 (by decide)
    | name => simp
  | symbol hs =>
    intro heq
    subst heq
    revert hs
    simp [symbols]
  | _ => simp

/-- The last token of a text is its only end mark, and stands behind its last byte. -/
theorem Segmented.end_mark {off : Nat} {cs : List Char} {ts : List Token} (h : Segmented off cs ts) :
    ∃ us e, ts = us ++ [e] ∧ (∀ t ∈ us, t.kind ≠ .eof) ∧ e.kind = .eof ∧ e.text = "" ∧
      e.span.start = off + bytes cs ∧ e.span.stop = off + bytes cs := by
  induction h with
  | @done off g t _ hk ht hstart hstop =>
    exact ⟨[], t, rfl, by simp, hk, ht, hstart, hstop.trans hstart⟩
  | @lexeme off g cs rest t ts _ hl hstart hstop _ ih =>
    obtain ⟨us, e, rfl, hus, hk, ht, hs, he⟩ := ih
    have hlen : t.span.stop + bytes rest = off + bytes (g ++ (cs ++ rest)) := by
      simp only [bytes_append]
      omega
    exact ⟨t :: us, e, rfl, by simpa using ⟨hl.ne_eof, hus⟩, hk, ht, hs.trans hlen, he.trans hlen⟩

/-- Each token but the end mark stands for a lexeme of the text, whose bytes are its range. -/
theorem Segmented.exists_lexeme {off : Nat} {cs : List Char} {ts : List Token}
    (h : Segmented off cs ts) {t : Token} (ht : t ∈ ts) (hk : t.kind ≠ .eof) :
    ∃ pre l rest, cs = pre ++ l ++ rest ∧ Lexeme l rest t.kind t.text ∧
      t.span.start = off + bytes pre ∧ t.span.stop = t.span.start + bytes l := by
  induction h with
  | done _ he =>
    obtain rfl := List.mem_singleton.mp ht
    exact absurd he hk
  | @lexeme off g cs rest u us _ hl hstart hstop _ ih =>
    rcases List.mem_cons.mp ht with rfl | ht
    · exact ⟨g, cs, rest, (List.append_assoc ..).symm, hl, hstart, hstop⟩
    · obtain ⟨pre, l, rest', rfl, hl', hs, he⟩ := ih ht
      refine ⟨g ++ (cs ++ pre), l, rest', by simp, hl', ?_, he⟩
      rw [hs, hstop, hstart]
      simp only [bytes_append]
      omega

end Lexical

def Token.place (t : Token) : TokenKind × String × Nat × Nat :=
  (t.kind, t.text, t.span.start, t.span.stop)

theorem Token.place_eq_iff {t u : Token} : t.place = u.place ↔ t.kind = u.kind ∧ t.text = u.text ∧
    t.span.start = u.span.start ∧ t.span.stop = u.span.stop := by
  simp only [Token.place, Prod.mk.injEq]

/-- Whether tokens stand where a text is cut does not depend on their lines and columns. -/
theorem Lexical.Segmented.congr {off : Nat} {cs : List Char} {ts us : List Token}
    (h : Segmented off cs ts) (hu : us.map Token.place = ts.map Token.place) : Segmented off cs us := by
  induction h generalizing us with
  | done hg hk ht hstart hstop =>
    obtain ⟨u, rfl, hplace⟩ := List.map_eq_singleton_iff.mp hu
    obtain ⟨hk', ht', hs', he'⟩ := Token.place_eq_iff.mp hplace
    exact .done hg (hk'.trans hk) (ht'.trans ht) (hs'.trans hstart) (by rw [he', hs', hstop])
  | lexeme hg hl hstart hstop _ ih =>
    obtain ⟨u, us, rfl, hplace, hus⟩ := List.map_eq_cons_iff.mp hu
    obtain ⟨hk', ht', hs', he'⟩ := Token.place_eq_iff.mp hplace
    refine .lexeme hg (hk' ▸ ht' ▸ hl) (hs'.trans hstart) (by rw [he', hs', hstop]) ?_
    rw [he']
    exact ih hus

theorem Lexical.Segmented.gap {off : Nat} {g cs : List Char} {ts : List Token} (hg : GapPiece g cs)
    (h : Segmented (off + bytes g) cs ts) : Segmented off (g ++ cs) ts := by
  cases h with
  | done hgs hk ht hstart hstop =>
    refine .done (.cons (by simpa using hg) hgs) hk ht ?_ hstop
    rw [hstart, bytes_append, Nat.add_assoc]
  | @lexeme _ gs cs rest t ts hgs hl hstart hstop h =>
    rw [← List.append_assoc]
    refine .lexeme (.cons hg hgs) hl ?_ hstop h
    rw [hstart, bytes_append, Nat.add_assoc]

theorem scan_gap {g rest : List Char} (h : Gap g rest) (p : Pos) :
    scan p (g ++ rest) = scan (p.after g) rest := by
  induction h generalizing p with
  | nil => rfl
  | @cons g gs rest hg _ ih =>
    obtain ⟨c, cs, hcs, hcut⟩ := cut_gap hg
    rw [List.append_assoc, hcs, scan_cons, hcut, Pos.after_append, ← ih]
    simp only [Piece.tokens]
    cases scan (p.after g) (gs ++ rest) <;> rfl

theorem scan_gapPiece {g rest : List Char} (h : GapPiece g rest) (p : Pos) :
    scan p (g ++ rest) = scan (p.after g) rest := by
  have hg : Gap (g ++ []) rest := .cons (by simpa using h) .nil
  simpa using scan_gap hg p

theorem scan_lexeme {cs rest : List Char} {k : TokenKind} {text : String}
    (h : Lexeme cs rest k text) (p : Pos) :
    scan p (cs ++ rest) = (scan (p.after cs) rest).map (⟨k, text, .between p (p.after cs)⟩ :: ·) := by
  obtain ⟨d, ds, hds, hcut⟩ := cut_lexeme h
  rw [hds, scan_cons, hcut]
  rfl

theorem exists_scan_of_segmented {off : Nat} {cs : List Char} {ts : List Token}
    (h : Segmented off cs ts) {p : Pos} (hp : p.offset = off) :
    ∃ us, scan p cs = .ok us ∧ us.map Token.place = ts.map Token.place := by
  induction h generalizing p with
  | @done off g t hg hk ht hstart hstop =>
    have hscan := scan_gap hg p
    rw [List.append_nil, scan_nil] at hscan
    refine ⟨_, hscan, ?_⟩
    have ho := offset_after p g
    simp only [List.map_cons, List.map_nil, Token.place, Token.eof, Span.between, hk, ht, hstart, hstop,
      ho, hp]
  | @lexeme off g cs rest t ts hg hl hstart hstop h ih =>
    have hs : (p.after g).offset = t.span.start := by rw [offset_after, hp, hstart]
    have he : ((p.after g).after cs).offset = t.span.stop := by rw [offset_after, hs, hstop]
    obtain ⟨us, hus, hplace⟩ := ih he
    refine ⟨⟨t.kind, t.text, .between (p.after g) ((p.after g).after cs)⟩ :: us, ?_, ?_⟩
    · rw [scan_gap hg, scan_lexeme hl, hus]
      rfl
    · simp only [List.map_cons, hplace, Token.place, Span.between, hs, he]

theorem pieces_induction {motive : List Char → Prop} (nil : motive [])
    (cons : ∀ c cs, (∀ piece, cut c cs = .ok piece → motive piece.rest) → motive (c :: cs))
    (cs : List Char) : motive cs := by
  induction hn : cs.length using Nat.strongRecOn generalizing cs with
  | _ n ih =>
  cases cs with
  | nil => exact nil
  | cons c cs =>
    refine cons c cs fun piece hcut => ih _ ?_ piece.rest rfl
    exact hn ▸ length_rest_lt_of_cut_eq_ok hcut

theorem scan_cons_eq_ok {p : Pos} {c : Char} {cs : List Char} {ts : List Token}
    (h : scan p (c :: cs) = .ok ts) : ∃ piece us, cut c cs = .ok piece ∧
      scan (p.after piece.source) piece.rest = .ok us ∧ ts = piece.tokens p ++ us := by
  rw [scan_cons] at h
  cases hcut : cut c cs with
  | error e => rw [hcut] at h; cases h
  | ok piece =>
    rw [hcut] at h
    dsimp only at h
    cases hs : scan (p.after piece.source) piece.rest with
    | error e => rw [hs] at h; cases h
    | ok us =>
      rw [hs] at h
      cases h
      exact ⟨piece, us, rfl, hs, rfl⟩

theorem segmented_of_scan {p : Pos} {cs : List Char} {ts : List Token} (h : scan p cs = .ok ts) :
    Segmented p.offset cs ts := by
  induction cs using pieces_induction generalizing p ts with
  | nil =>
    rw [scan_nil] at h
    cases h
    exact .done .nil rfl rfl rfl rfl
  | cons c cs ih =>
    obtain ⟨piece, us, hcut, hus, rfl⟩ := scan_cons_eq_ok h
    have hrest := ih piece hcut hus
    rw [← (append_of_cut_eq_ok hcut).1]
    rcases cut_sound hcut with ⟨hnone, hgap⟩ | ⟨k, text, hsome, hl⟩
    · simp only [Piece.tokens, hnone, List.nil_append]
      exact .gap hgap (offset_after p _ ▸ hrest)
    · simp only [Piece.tokens, hsome]
      exact .lexeme .nil hl rfl (offset_after p piece.source) hrest

/-- Tokens of a source end with the only end mark, behind its last byte. -/
theorem exists_eof_of_tokenize {source : String} {ts : List Token} (h : tokenize source = .ok ts) :
    ∃ us e, ts = us ++ [e] ∧ (∀ t ∈ us, t.kind ≠ .eof) ∧ e.kind = .eof ∧ e.text = "" ∧
      e.span.start = source.utf8ByteSize ∧ e.span.stop = source.utf8ByteSize := by
  have := (segmented_of_scan h).end_mark
  simpa only [bytes_toList, Nat.zero_add] using this

/-- **Segmentation.** A source is tokenized, with these kinds, texts and byte ranges, if and only if
it is made of gaps and of these lexemes, each of them the longest one in its place. -/
theorem tokenize_eq_ok_iff_segmented (source : String) (ts : List Token) :
    (∃ us, tokenize source = .ok us ∧ us.map Token.place = ts.map Token.place) ↔
      Segmented 0 source.toList ts := by
  constructor
  · rintro ⟨us, hus, hplace⟩
    exact (segmented_of_scan hus).congr hplace.symm
  · intro h
    exact exists_scan_of_segmented h rfl

end PolicyLang
