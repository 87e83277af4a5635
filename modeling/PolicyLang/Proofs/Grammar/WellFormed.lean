import PolicyLang.Compile
import PolicyLang.Proofs.Grammar.Acceptance
import PolicyLang.Proofs.Lexical.Segmentation
import PolicyLang.Proofs.Tree.WellFormed

/-!
# Compiled trees are well-formed

The texts of tokens that were cut from a source are names, words and numbers according to their
kinds, so the trees of phrases made of such tokens are well-formed.
-/

namespace PolicyLang

open Lexical

/-! ## Tokens of a source -/

/-- Kind and text of a token are those of some lexeme. -/
def Token.Lexed (t : Token) : Prop := ∃ cs rest, Lexeme cs rest t.kind t.text

theorem Lexical.Segmented.lexed {off : Nat} {cs : List Char} {ts : List Token}
    (h : Segmented off cs ts) (t : Token) (ht : t ∈ ts) (hk : t.kind ≠ .eof) : t.Lexed := by
  obtain ⟨-, l, rest, -, hl, -⟩ := h.exists_lexeme ht hk
  exact ⟨l, rest, hl⟩

theorem not_keyword_of_mem_symbols : ∀ x ∈ symbols, x.2.isKeyword = false := by
  simp [symbols, TokenKind.isKeyword]

namespace Token.Lexed

variable {t : Token}

theorem isName (h : t.Lexed) (hk : t.kind = .ident) : IsName t.text := by
  obtain ⟨cs, rest, h⟩ := h
  rw [hk] at h
  generalize t.text = text at h
  cases h with
  | @word c cs _ _ hc hcs _ hword =>
    have htext : (String.ofList (c :: cs)).toList = c :: cs := String.toList_ofList
    cases hword with
    | keyword hs => exact absurd hs.1 (by decide)
    | name hn => exact ⟨⟨c, cs, htext, hc, hcs⟩, by rwa [htext]⟩
  | symbol hs => simp [symbols] at hs

theorem isWord (h : t.Lexed) (hk : t.kind = .ident ∨ t.kind.isKeyword = true) : IsWord t.text := by
  rcases hk with hk | hk
  · exact (h.isName hk).1
  obtain ⟨cs, rest, h⟩ := h
  generalize t.kind = k at h hk
  generalize t.text = text at h
  cases h with
  | @word c cs _ _ hc hcs => exact ⟨c, cs, String.toList_ofList, hc, hcs⟩
  | symbol hs =>
    have hno := not_keyword_of_mem_symbols _ hs
    rw [hno] at hk
    cases hk
  | _ => cases hk

theorem digits (h : t.Lexed) (hk : t.kind = .number) :
    (∃ cs, t.text = .ofList cs ∧ Digits cs) ∨
    ∃ whole fraction, t.text = .ofList (whole ++ '.' :: fraction) ∧ Digits whole ∧ Digits fraction := by
  obtain ⟨cs, rest, h⟩ := h
  rw [hk] at h
  generalize t.text = text at h
  cases h with
  | word _ _ _ hword =>
    cases hword with
    | keyword hs => exact absurd hs.1 (by decide)
  | whole hne hds => exact .inl ⟨_, rfl, hne, hds⟩
  | fraction hne hds hnf hfs => exact .inr ⟨_, _, rfl, ⟨hne, hds⟩, hnf, hfs⟩
  | symbol hs => simp [symbols] at hs

end Token.Lexed

namespace Grammar

/-! ## Conditions -/

theorem NumberLiteral.wellFormed {t : Token} {l : Literal} (ht : t.Lexed) (hk : t.kind = .number)
    (h : NumberLiteral t.text l) : l.WellFormed := by
  generalize htext : t.text = text at h
  rcases ht.digits hk with ⟨cs, hcs, hd⟩ | ⟨whole, fraction, hcs, hw, hf⟩
  · rw [htext] at hcs
    subst hcs
    cases h with
    | int _ hn => exact readInt?_of_digits hd hn
    | float hdot =>
      rw [String.toList_ofList] at hdot
      exact absurd hdot hd.not_dot_mem
  · rw [htext] at hcs
    subst hcs
    cases h with
    | int hdot =>
      rw [String.toList_ofList] at hdot
      exact absurd (by simp) hdot
    | float _ hx hfin => exact Binary64.unsigned_of_read? hw hf hx hfin

abbrev AllLexed (ts : List Token) : Prop := ∀ t ∈ ts, t.Lexed

theorem allLexed_cons {t : Token} {ts : List Token} :
    AllLexed (t :: ts) ↔ t.Lexed ∧ AllLexed ts := List.forall_mem_cons

theorem allLexed_append {us vs : List Token} :
    AllLexed (us ++ vs) ↔ AllLexed us ∧ AllLexed vs := List.forall_mem_append

mutual

theorem OrPhrase.wellFormed : ∀ {us e}, OrPhrase us e → AllLexed us → e.WellFormed
  | _, _, .mk he hfs, h => by
    obtain ⟨hu, hv⟩ := allLexed_append.mp h
    exact hfs.wellFormed hv (he.wellFormed hu)

theorem OrTail.wellFormed : ∀ {e us g}, OrTail e us g → AllLexed us → e.WellFormed → g.WellFormed
  | _, _, _, .nil, _, he => he
  | _, _, _, .cons _ hf hfs, h, he => by
    obtain ⟨hu, hv⟩ := allLexed_append.mp (allLexed_cons.mp h).2
    exact hfs.wellFormed hv ⟨he, hf.wellFormed hu⟩

theorem AndPhrase.wellFormed : ∀ {us e}, AndPhrase us e → AllLexed us → e.WellFormed
  | _, _, .mk he hfs, h => by
    obtain ⟨hu, hv⟩ := allLexed_append.mp h
    exact hfs.wellFormed hv (he.wellFormed hu)

theorem AndTail.wellFormed : ∀ {e us g}, AndTail e us g → AllLexed us → e.WellFormed → g.WellFormed
  | _, _, _, .nil, _, he => he
  | _, _, _, .cons _ hf hfs, h, he => by
    obtain ⟨hu, hv⟩ := allLexed_append.mp (allLexed_cons.mp h).2
    exact hfs.wellFormed hv ⟨he, hf.wellFormed hu⟩

theorem NotPhrase.wellFormed : ∀ {us e}, NotPhrase us e → AllLexed us → e.WellFormed
  | _, _, .not _ he, h => he.wellFormed (allLexed_cons.mp h).2
  | _, _, .plain he, h => he.wellFormed h

theorem ComparisonPhrase.wellFormed :
    ∀ {us e}, ComparisonPhrase us e → AllLexed us → e.WellFormed
  | _, _, .value he, h => he.wellFormed h
  | _, _, .compare he _ hf, h => by
    obtain ⟨hu, hv⟩ := allLexed_append.mp h
    exact ⟨he.wellFormed hu, hf.wellFormed (allLexed_cons.mp hv).2⟩

theorem ValuePhrase.wellFormed : ∀ {us e}, ValuePhrase us e → AllLexed us → e.WellFormed
  | _, _, .number ht hl, h => hl.wellFormed (h _ (by simp)) ht
  | _, _, .string _, _ => trivial
  | _, _, .boolean _, _ => trivial
  | _, _, .parens _ he _, h => he.wellFormed (allLexed_append.mp (allLexed_cons.mp h).2).1
  | _, _, .chain (t := t) ht hc hls, h => by
    obtain ⟨htl, h⟩ := allLexed_cons.mp h
    obtain ⟨hu, hv⟩ := allLexed_append.mp h
    have hid : (Expr.ident t.text t.span).WellFormed := htl.isName ht
    obtain ⟨hf, ho⟩ := hc.wellFormed hu hid trivial
    exact hls.wellFormed hv hf ho

theorem CallPhrase.wellFormed : ∀ {e us g}, CallPhrase e us g → AllLexed us → e.WellFormed →
    e.IsCallee → g.WellFormed ∧ g.IsObject
  | _, _, _, .none, _, he, hcallee => ⟨he, hcallee.isObject⟩
  | _, _, _, .empty _ _, _, he, hcallee => ⟨⟨he, hcallee, trivial⟩, trivial⟩
  | _, _, _, .args _ hf hfs _, h, he, hcallee => by
    obtain ⟨hu, hv⟩ := allLexed_append.mp (allLexed_cons.mp h).2
    have hargs := hfs.wellFormed (allLexed_append.mp hv).1
    exact ⟨⟨he, hcallee, hf.wellFormed hu, hargs⟩, trivial⟩

theorem ArgTail.wellFormed : ∀ {us fs}, ArgTail us fs → AllLexed us → Expr.AllWellFormed fs
  | _, _, .nil, _ => trivial
  | _, _, .cons _ hf hfs, h => by
    obtain ⟨hu, hv⟩ := allLexed_append.mp (allLexed_cons.mp h).2
    exact ⟨hf.wellFormed hu, hfs.wellFormed hv⟩

theorem LinkTail.wellFormed : ∀ {e us g}, LinkTail e us g → AllLexed us → e.WellFormed →
    e.IsObject → g.WellFormed
  | _, _, _, .nil, _, he, _ => he
  | _, _, _, .cons _ hn hc hls, h, he, ho => by
    obtain ⟨hnl, h⟩ := allLexed_cons.mp (allLexed_cons.mp h).2
    obtain ⟨hu, hv⟩ := allLexed_append.mp h
    obtain ⟨hf, hfo⟩ := hc.wellFormed hu ⟨he, ho, hnl.isWord hn⟩ trivial
    exact hls.wellFormed hv hf hfo

end

/-! ## Clauses -/

theorem ActionPhrase.wellFormed {us : List Token} {a : Action} :
    ActionPhrase us a → AllLexed us → a.WellFormed
  | .deny _, _ | .allow _, _ | .escalate _, _ => trivial
  | .route _ _ hn, h => (h _ (by simp)).isName hn

theorem ClausePhrase.wellFormed : ∀ {us c}, ClausePhrase us c → AllLexed us → c.WellFormed
  | _, _, .priority (.mk _ hn hdot hv), h => by
    rcases (h _ (by simp)).digits hn with ⟨cs, hcs, hd⟩ | ⟨whole, fraction, hcs, -, -⟩
    · rw [hcs] at hv
      exact readInt?_of_digits hd hv
    · rw [hcs, String.toList_ofList] at hdot
      exact absurd (by simp) hdot
  | _, _, .guard (.mk _ he _ ha), h => by
    obtain ⟨hu, hv⟩ := allLexed_append.mp (allLexed_cons.mp h).2
    exact ⟨he.wellFormed hu, ha.wellFormed (allLexed_cons.mp hv).2⟩
  | _, _, .action ha, h => ha.wellFormed h

/-! ## Declarations -/

theorem Many.wellFormed {α : Type} {D : List Token → α → Prop} {W : α → Prop}
    {us : List Token} {as : List α} (h : Many D us as) (hl : AllLexed us)
    (hD : ∀ us a, D us a → AllLexed us → W a) : ∀ a ∈ as, W a := by
  induction h with
  | nil => simp
  | cons ha _ ih =>
    obtain ⟨hu, hv⟩ := allLexed_append.mp hl
    exact List.forall_mem_cons.mpr ⟨hD _ _ ha hu, ih hv⟩

theorem RulePhrase.wellFormed {us : List Token} {r : Rule} :
    RulePhrase us r → AllLexed us → r.WellFormed
  | .mk _ hn _ _ _ hbody _, h => by
    simp only [allLexed_cons, allLexed_append] at h
    obtain ⟨-, hname, -, -, -, hus, -⟩ := h
    exact ⟨hname.isName hn, hbody.wellFormed hus fun _ _ => ClausePhrase.wellFormed⟩

theorem ItemPhrase.wellFormed : ∀ {us i}, ItemPhrase us i → AllLexed us → i.WellFormed
  | _, _, .ref _ hn, h => (h _ (by simp)).isName hn
  | _, _, .rule hr, h => hr.wellFormed h
  | _, _, .clause hc, h => hc.wellFormed h

theorem StatementPhrase.wellFormed : ∀ {us s}, StatementPhrase us s → AllLexed us → s.WellFormed
  | _, _, .policy (.mk _ hn _ _ _ hbody _), h => by
    simp only [allLexed_cons, allLexed_append] at h
    obtain ⟨-, hname, -, -, -, hus, -⟩ := h
    exact ⟨hname.isName hn, hbody.wellFormed hus fun _ _ => ItemPhrase.wellFormed⟩
  | _, _, .rule hr, h => hr.wellFormed h
  | _, _, .imports _, _ => trivial

end Grammar

/-! ## Programs -/

theorem Program.wellFormed_of_parse {source : String} {limit : Nat} {ts : List Token} {p : Program}
    (ht : tokenize source = .ok ts) (hp : parse limit ts = .ok p) : p.WellFormed := by
  obtain ⟨us, e, rfl, hus, he, -⟩ := exists_eof_of_tokenize ht
  rw [parse_append_eof limit hus he, parseBody_eq_ok_iff] at hp
  obtain ⟨vs, hvs, hdoc⟩ := Grammar.sound_document limit hp.1
  rw [List.append_nil] at hvs
  subst hvs
  have hlexed : Grammar.AllLexed us := fun t h =>
    (segmented_of_scan ht).lexed t (by simp [h]) (hus t h)
  exact hdoc.wellFormed hlexed fun _ _ => Grammar.StatementPhrase.wellFormed

/-- The trees of sources are well-formed. -/
theorem wellFormed_of_compile {source : String} {p : Program} (h : compile source = .ok p) :
    p.WellFormed := by
  obtain ⟨ts, ht, hp⟩ := compileWithin_eq_ok_iff.mp h
  exact Program.wellFormed_of_parse ht hp

end PolicyLang
