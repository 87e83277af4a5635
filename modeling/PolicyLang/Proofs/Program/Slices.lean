import PolicyLang.Proofs.Lexical.Slices
import PolicyLang.Proofs.Program.Places
import PolicyLang.Proofs.Program.Spans
import PolicyLang.Proofs.Render.ProgramText

/-!
# Conditions on their own

A probe is a rule with a given text for its condition. The text in the span of a condition, put into a
probe, gives this condition again if its parentheses are balanced, and nothing if they are not.
-/

namespace PolicyLang

open PolicyLang.Grammar PolicyLang.Parser PolicyLang.Lexical

/-- A rule with this text for its condition. -/
def probe (condition : String) : String :=
  "rule r : custom \x7b when " ++ condition ++ " then deny \x7d"

/-- What a probe is read as where its text is read as `e`, without the places. -/
def probed (e : Expr) : Program :=
  ⟨[.rule ⟨"r", .custom, [.guard ⟨e, ⟨.deny, {}⟩, {}⟩], {}⟩], {}⟩

def probeTokens (us : List Token) : List Token :=
  blockTokens (.bare .kwRule "rule") (.bare .ident "r") .custom
    (.bare .kwWhen "when" :: (us ++ [.bare .kwThen "then", .bare (.verb .deny) "deny"]))

/-! ## Texts -/

theorem isName_r : IsName "r" := by
  refine ⟨isWord_of_all rfl rfl rfl, fun k hk => ?_⟩
  have := ofWord?_eq_some_iff.mpr hk
  rw [String.ofList_toList] at this
  cases this

theorem toList_probe (cs : List Char) : (probe (.ofList cs)).toList =
    headerLine "rule" "r" .custom ++ ' ' :: ("when".toList ++ ' ' :: (cs ++ ' ' ::
      ("then".toList ++ ' ' :: ("deny".toList ++ ' ' :: ['\x7d'])))) := by
  have hfront : "rule r : custom \x7b when ".toList =
      headerLine "rule" "r" .custom ++ ' ' :: ("when".toList ++ [' ']) := by decide +kernel
  have hend : " then deny \x7d".toList =
      ' ' :: ("then".toList ++ ' ' :: ("deny".toList ++ ' ' :: ['\x7d'])) := by decide +kernel
  unfold probe
  simp only [String.toList_append, String.toList_ofList, hfront, hend, List.append_assoc,
    List.cons_append, List.nil_append]

theorem cuts_probe {mid rest : List Char} {us : List Token}
    (h : ∀ rest', EndsBefore rest rest' → Cuts (mid ++ rest') (us.map Token.word) rest') :
    Cuts (probe (.ofList mid)).toList ((probeTokens us).map Token.word) [] := by
  have hblank : ¬ WordChar ' ' ∧ ' ' ≠ '.' ∧ ' ' ≠ '=' := by decide
  have hbrace : Spelled ['\x7d'] [(.rbrace, "\x7d")] :=
    spelled_mark rfl (by simp [symbols]) (by decide) spelled_nil
  have hthen := (spelled_keyword .kwThen rfl (Eq.refl "then")).spaced
    ((spelled_keyword (.verb .deny) rfl (Eq.refl "deny")).spaced hbrace)
  have hwhen := (spelled_headerLine .kwRule .custom rfl (Eq.refl "rule") isName_r).spaced
    (spelled_keyword .kwWhen rfl (Eq.refl "when"))
  have hend : Cuts (' ' :: _) _ [] := spelled_blank rfl hthen (by simp [Stops, NotBefore])
  have hcondition := (h _ (endsBefore_cons rest _ hblank.1 hblank.2.1 hblank.2.2)).append hend
  have hfront := (hwhen (stops_cons _ hblank.1 hblank.2.1)).append
    (Cuts.gap (g := [' ']) (.blank (.inl rfl)) hcondition)
  rw [toList_probe]
  simpa [probeTokens, blockTokens, TokenKind.describe] using hfront

/-! ## Reading -/

theorem Balanced.iff_of_words {us vs : List Token} (h : us.map Token.word = vs.map Token.word) :
    Balanced us ↔ Balanced vs := by
  have hkinds := congrArg (List.map Prod.fst) h
  rw [List.map_map, List.map_map] at hkinds
  exact congr hkinds

theorem reads_probe {us : List Token} {e : Expr} {d : Nat} (h : ReadsOr us e d) :
    ReadsDocument (probeTokens us) (probed e).statements (d + 1) := by
  have hclause := readsClause_guard (w := .bare .kwWhen "when") (t := .bare .kwThen "then") rfl h rfl
    (ActionPhrase.deny (t := .bare (.verb .deny) "deny") rfl)
  have hbody := reads_items_cons hclause.ruleItem
    (reads_items_nil behind_rbrace (fun _ _ ht => if_pos ht))
  have hrule := readsRule_mk (w := .bare .kwRule "rule") (n := .bare .ident "r")
    (o := .bare .colon ":") (k := .bare (.category .custom) "custom") (b := .bare .lbrace "\x7b")
    (e := .bare .rbrace "\x7d") rfl rfl rfl rfl rfl hbody rfl
  have : ReadsDocument _ _ _ := reads_items_cons hrule.statement
    (reads_items_nil (G := fun _ => False) (fun _ => False.elim) fun _ _ => False.elim)
  have hspan : ({} : Span).to {} = {} := rfl
  have hname : Category.custom.name = "custom" := rfl
  simpa [probeTokens, blockTokens, probed, hspan, hname] using this

theorem balanced_probeTokens_iff {us : List Token} : Balanced (probeTokens us) ↔ Balanced us := by
  have hfront : Balanced [.bare .kwRule "rule", .bare .ident "r", .bare .colon ":",
      .bare (.category .custom) "custom", .bare .lbrace "\x7b", .bare .kwWhen "when"] := by
    decide
  have hend : ∀ t ∈ [Token.bare .kwThen "then", .bare (.verb .deny) "deny", .bare .rbrace "\x7d"],
      Neutral t.kind := by
    simp [Neutral]
  have htail : Balanced (us ++ [.bare .kwThen "then", .bare (.verb .deny) "deny",
      .bare .rbrace "\x7d"]) ↔ Balanced us := Balanced.append_neutral_iff hend
  have htokens := hfront.append_iff.trans htail
  simpa [probeTokens, blockTokens, Category.name] using htokens

section
variable {mid rest : List Char} {us : List Token}
  (h : ∀ rest', EndsBefore rest rest' → Cuts (mid ++ rest') (us.map Token.word) rest')
include h

theorem compile_probe {e : Expr} {d : Nat} (he : ReadsOr us e d) (hd : d < Program.defaultLimit) :
    ∃ q, compile (probe (.ofList mid)) = .ok q ∧ q.erase = (probed e).erase := by
  obtain ⟨vs, f, htokens, hw, hvs, hf⟩ := exists_tokenize_of_cuts (cuts_probe h)
  have hrun := (reads_probe he).ok hd (heads_nil _)
  rw [List.append_nil] at hrun
  have hprobe : Program.parseBody Program.defaultLimit (probeTokens us) f =
      .ok ⟨(probed e).statements, ⟨1, 1, 0, f.span.stop⟩⟩ := by
    rw [Program.parseBody_eq_ok_iff]
    exact ⟨hrun, rfl⟩
  unfold compile
  rw [compileWithin_of_tokenize htokens, Program.parse_append_eof _ hvs hf]
  rcases Program.parseBody_words Program.defaultLimit hw (Eq.refl f.word) with
    ⟨q, p, hq, hp, herase⟩ | ⟨c, t, t', -, hp, -⟩
  · rw [hprobe] at hp
    cases hp
    exact ⟨q, by rw [hq]; rfl, herase⟩
  · rw [hprobe] at hp
    cases hp

theorem balanced_of_compile_probe {q : Program} (hq : compile (probe (.ofList mid)) = .ok q) :
    Balanced us := by
  obtain ⟨vs, f, htokens, hw, hvs, hf⟩ := exists_tokenize_of_cuts (cuts_probe h)
  obtain ⟨ts, hts, hp⟩ := compileWithin_eq_ok_iff.mp hq
  cases htokens.symm.trans hts
  rw [Program.parse_append_eof _ hvs hf, Program.parseBody_eq_ok_iff] at hp
  obtain ⟨ws, hws, hdoc⟩ := sound_document _ hp.1
  rw [List.append_nil] at hws
  subst hws
  exact balanced_probeTokens_iff.mp ((Balanced.iff_of_words hw).mp hdoc.balanced)

end

/-! ## Conditions of a program -/

/-- The slice of a condition is cut into the tokens that the condition is charted over. -/
theorem exists_slice_of_compile {source : String} {p : Program} (h : compile source = .ok p)
    {depth : Nat} {e : Expr} (he : (depth, Node.expr e) ∈ (Node.program p).preorder 0) :
    ∃ us mid rest, e.span.slice source = .ofList mid ∧ Fits Program.defaultLimit us e ∧
      ∀ rest', EndsBefore rest rest' → Cuts (mid ++ rest') (us.map Token.word) rest' := by
  obtain ⟨ts, f, htokens, hts, -, hlaid⟩ := exists_laid_of_compile h
  rw [Node.preorder_eq] at he
  have he := (List.mem_cons.mp he).resolve_left (by simp)
  obtain ⟨us, hus, hcharted⟩ := hlaid.exists_of_mem 1 _ he
  obtain ⟨a, b, ha, hb, hspan⟩ := hcharted.across ((ordered_of_tokenize htokens hts).part hus)
  have hspan : e.span = .across a b := hspan
  have hstart : e.span.start = a.span.start := by rw [hspan]; rfl
  have hstop : e.span.stop = b.span.stop := by rw [hspan]; rfl
  obtain ⟨-, hfits, -⟩ := hcharted
  obtain ⟨xs, ys, rfl⟩ := hus
  simp only [List.append_assoc] at htokens
  obtain ⟨mid, rest, hslice, hcuts⟩ := exists_slice htokens (by simp) ha hb hstart hstop
  exact ⟨us, mid, rest, hslice, hfits e rfl, hcuts⟩

/-- **Slices.** The text in the span of a condition has tokens. With balanced parentheses, a rule with
this text for its condition is read, and its condition is the same apart from the places; without, no
such rule is read. -/
theorem compile_slice {source : String} {p : Program} (h : compile source = .ok p) {depth : Nat}
    {e : Expr} (he : (depth, Node.expr e) ∈ (Node.program p).preorder 0) :
    ∃ ts, tokenize (e.span.slice source) = .ok ts ∧
      ((∃ q, compile (probe (e.span.slice source)) = .ok q) ↔ Balanced ts) ∧
      ∀ q, compile (probe (e.span.slice source)) = .ok q → q.erase = (probed e).erase := by
  obtain ⟨us, mid, rest, hslice, hfits, hcuts⟩ := exists_slice_of_compile h he
  rw [hslice]
  -- on its own, the slice ends where its last lexeme does
  have hown := hcuts [] (endsBefore_nil rest)
  rw [List.append_nil, ← String.toList_ofList (l := mid)] at hown
  obtain ⟨vs, f, htokens, hw, -, hf⟩ := exists_tokenize_of_cuts hown
  have hbalanced : Balanced (vs ++ [f]) ↔ Balanced us := by
    rw [Balanced.append_neutral_iff (by simp [hf, Neutral]), Balanced.iff_of_words hw]
  have hread (hb : Balanced us) :
      ∃ q, compile (probe (.ofList mid)) = .ok q ∧ q.erase = (probed e).erase := by
    obtain ⟨d, hd, hor⟩ := hfits hb
    exact compile_probe hcuts hor hd
  refine ⟨vs ++ [f], htokens, ⟨fun hq => ?_, fun hb => ?_⟩, fun q hq => ?_⟩
  · obtain ⟨q, hq⟩ := hq
    exact hbalanced.mpr (balanced_of_compile_probe hcuts hq)
  · obtain ⟨q, hq, -⟩ := hread (hbalanced.mp hb)
    exact ⟨q, hq⟩
  · obtain ⟨q', hq', herase⟩ := hread (balanced_of_compile_probe hcuts hq)
    cases hq.symm.trans hq'
    exact herase

/-! ## Parentheses

The parentheses around a condition are not in its span, so those around the first operand of a condition
leave one in the slice of the whole: the slice of `(a or b) and c` is `a or b) and c`. -/

def groupedOr : Expr :=
  .binary .or (.ident "a" ⟨1, 25, 24, 25⟩) (.ident "b" ⟨1, 30, 29, 30⟩) ⟨1, 25, 24, 30⟩

def groupedAnd : Expr :=
  .binary .and groupedOr (.ident "c" ⟨1, 37, 36, 37⟩) ⟨1, 25, 24, 37⟩

def groupedGuard : Guard := ⟨groupedAnd, ⟨.deny, ⟨1, 44, 43, 47⟩⟩, ⟨1, 19, 18, 47⟩⟩

def grouped : Program :=
  ⟨[.rule ⟨"r", .custom, [.guard groupedGuard], ⟨1, 1, 0, 49⟩⟩], ⟨1, 1, 0, 49⟩⟩

theorem compile_grouped : compile (probe "(a or b) and c") = .ok grouped := by
  decide +kernel

theorem groupedAnd_mem : (3, Node.expr groupedAnd) ∈ (Node.program grouped).preorder 0 := by
  refine Node.mem_preorder_of_condition (g := groupedGuard) List.mem_cons_self List.mem_cons_self ?_
  exact Node.self_mem_preorder ..

theorem groupedOr_mem : (4, Node.expr groupedOr) ∈ (Node.program grouped).preorder 0 := by
  refine Node.mem_preorder_of_condition (g := groupedGuard) List.mem_cons_self List.mem_cons_self ?_
  exact Node.mem_preorder_of_child List.mem_cons_self (Node.self_mem_preorder ..)

/-- The operand on its own is read again. -/
theorem compile_slice_operand : compile (probe "(a or b) and c") = .ok grouped ∧
    (4, Node.expr groupedOr) ∈ (Node.program grouped).preorder 0 ∧
    groupedOr.span.slice (probe "(a or b) and c") = "a or b" ∧
    ∃ q, compile (probe "a or b") = .ok q ∧ q.erase = (probed groupedOr).erase := by
  have hslice : groupedOr.span.slice (probe "(a or b) and c") = "a or b" := by decide +kernel
  have htokens : tokenize "a or b" = .ok [⟨.ident, "a", ⟨1, 1, 0, 1⟩⟩, ⟨.kwOr, "or", ⟨1, 3, 2, 4⟩⟩,
      ⟨.ident, "b", ⟨1, 6, 5, 6⟩⟩, .eof ⟨1, 7, 6, 6⟩] := by
    decide +kernel
  obtain ⟨ts, hts, hread, hsame⟩ := compile_slice compile_grouped groupedOr_mem
  rw [hslice] at hts hread hsame
  cases htokens.symm.trans hts
  obtain ⟨q, hq⟩ := hread.mpr (by decide)
  exact ⟨compile_grouped, groupedOr_mem, hslice, q, hq, hsame q hq⟩

/-- The whole condition is not. -/
theorem compile_slice_grouped : compile (probe "(a or b) and c") = .ok grouped ∧
    (3, Node.expr groupedAnd) ∈ (Node.program grouped).preorder 0 ∧
    groupedAnd.span.slice (probe "(a or b) and c") = "a or b) and c" ∧
    ∀ q, compile (probe "a or b) and c") ≠ .ok q := by
  refine ⟨compile_grouped, groupedAnd_mem, by decide +kernel, fun q hq => ?_⟩
  have hok : (compile (probe "a or b) and c")).isOk = false := by decide +kernel
  rw [hq] at hok
  cases hok

end PolicyLang
