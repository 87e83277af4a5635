import PolicyLang.Compile
import PolicyLang.Proofs.Grammar.Acceptance
import PolicyLang.Proofs.Grammar.Charting
import PolicyLang.Proofs.Lexical.Positions

/-!
# Spans of a program

The nodes of a program begin and end where tokens of its source do. Children stand inside of their
parents, one behind the other.
-/

namespace PolicyLang

open Lexical

/-- `s` does not stick out of `t`. -/
def Span.Within (s t : Span) : Prop := t.start ≤ s.start ∧ s.stop ≤ t.stop

/-- `s` begins where a token begins, and ends where this token or one behind it ends. -/
def Span.Aligned (ts : List Token) (s : Span) : Prop :=
  ∃ (i j : Nat) (a b : Token), i ≤ j ∧ ts[i]? = some a ∧ ts[j]? = some b ∧ s = .across a b

/-! ## Tokens in order -/

namespace Ordered

variable {us vs : List Token} {a b : Token}

theorem head_le (h : Ordered us) (ha : us.head? = some a) :
    ∀ t ∈ us, a.span.start ≤ t.span.start := by
  obtain ⟨us, rfl⟩ := List.head?_eq_some_iff.mp ha
  intro t ht
  rcases List.mem_cons.mp ht with rfl | ht
  · exact Nat.le_refl _
  · have hapart := (List.pairwise_cons.mp h.apart).1 t ht
    have hfilled := h.filled a List.mem_cons_self
    omega

theorem le_last (h : Ordered us) (hb : us.getLast? = some b) :
    ∀ t ∈ us, t.span.stop ≤ b.span.stop := by
  obtain ⟨us, rfl⟩ := List.getLast?_eq_some_iff.mp hb
  intro t ht
  rcases List.mem_append.mp ht with ht | ht
  · have hapart := (List.pairwise_append.mp h.apart).2.2 t ht b (List.mem_singleton.mpr rfl)
    have hfilled := h.filled b (List.mem_append_right _ (List.mem_singleton.mpr rfl))
    omega
  · rw [List.mem_singleton.mp ht]

end Ordered

/-! ## Nodes in order -/

section
variable {P : List Token → Expr → Prop} {us vs : List Token} {n m : Node}

theorem Charted.across (h : Charted P us n) (ho : Ordered us) :
    ∃ a b, us.head? = some a ∧ us.getLast? = some b ∧ n.span = .across a b := by
  obtain ⟨⟨a, b, ha, hb, hs⟩, -, -⟩ := h
  exact ⟨a, b, ha, hb, hs ho⟩

theorem Charted.start_lt_stop (h : Charted P us n) (ho : Ordered us) : n.span.start < n.span.stop := by
  obtain ⟨a, b, ha, hb, hs⟩ := h.across ho
  have hle := ho.head_le ha b (List.mem_of_getLast? hb)
  have hfilled := ho.filled b (List.mem_of_getLast? hb)
  simp only [hs, Span.across]
  omega

theorem Charted.within (h : Charted P us n) (ho : Ordered us) (h' : Charted P vs m)
    (hvs : vs <:+: us) : m.span.Within n.span := by
  obtain ⟨a, b, ha, hb, hs⟩ := h.across ho
  obtain ⟨c, d, hc, hd, hs'⟩ := h'.across (ho.part hvs)
  rw [hs, hs']
  exact ⟨ho.head_le ha c (hvs.subset (List.mem_of_head? hc)),
    ho.le_last hb d (hvs.subset (List.mem_of_getLast? hd))⟩

theorem Charted.stop_le_start {xs ys : List Token} (h : Charted P xs n) (h' : Charted P ys m)
    (hxs : xs <:+: us) (hys : ys <:+: vs) (ho : Ordered (us ++ vs)) :
    n.span.stop ≤ m.span.start := by
  have hus := ho.part (List.prefix_append us vs).isInfix
  have hvs := ho.part (List.suffix_append us vs).isInfix
  obtain ⟨a, b, -, hb, hs⟩ := h.across (hus.part hxs)
  obtain ⟨c, d, hc, -, hs'⟩ := h'.across (hvs.part hys)
  rw [hs, hs']
  exact (List.pairwise_append.mp ho.apart).2.2 b (hxs.subset (List.mem_of_getLast? hb)) c
    (hys.subset (List.mem_of_head? hc))

theorem Charted.aligned (h : Charted P us n) (ho : Ordered us) {ts : List Token} (hus : us <:+: ts) :
    n.span.Aligned ts := by
  obtain ⟨a, b, ha, hb, hs⟩ := h.across ho
  obtain ⟨xs, ys, rfl⟩ := hus
  have hne : 0 < us.length := List.length_pos_of_mem (List.mem_of_head? ha)
  rw [List.head?_eq_getElem?] at ha
  rw [List.getLast?_eq_getElem?] at hb
  refine ⟨xs.length, xs.length + (us.length - 1), a, b, Nat.le_add_right .., ?_, ?_, hs⟩
  · rw [List.append_assoc, List.getElem?_append_right (Nat.le_refl _), Nat.sub_self,
      List.getElem?_append_left hne, ha]
  · rw [List.append_assoc, List.getElem?_append_right (Nat.le_add_right ..), Nat.add_sub_cancel_left,
      List.getElem?_append_left (by omega), hb]

theorem Laid.exists_of_mem_nodes {ns : List Node} (h : Laid P us ns) :
    ∀ n ∈ ns, ∃ vs, vs <:+: us ∧ Charted P vs n := by
  intro n hn
  exact h.exists_of_mem 0 (0, n) (List.mem_flatMap.mpr ⟨n, hn, n.self_mem_preorder 0⟩)

end

section
variable {P : List Token → Expr → Prop}

theorem Laid.apart : ∀ {us ns}, Laid P us ns → Ordered us →
    ns.Pairwise fun a b => a.span.stop ≤ b.span.start
  | _, _, .nil, _ => .nil
  | _, _, .cons hn hns, ho => by
    have ho := ho.part (List.suffix_append ..).isInfix
    refine .cons (fun m hm => ?_) (hns.apart (ho.part (List.suffix_append ..).isInfix))
    obtain ⟨ys, hys, hm⟩ := hns.exists_of_mem_nodes m hm
    exact hn.stop_le_start hm List.infix_rfl hys ho

theorem Charted.children {us : List Token} {n : Node} (h : Charted P us n) (ho : Ordered us) :
    (∀ c ∈ n.children, c.span.Within n.span) ∧
      n.children.Pairwise fun a b => a.span.stop ≤ b.span.start := by
  have hn := h
  obtain ⟨-, -, hc⟩ := h
  refine ⟨fun c hcn => ?_, hc.apart ho⟩
  obtain ⟨ys, hys, hc⟩ := hc.exists_of_mem_nodes c hcn
  exact hn.within ho hc hys

mutual

theorem Charted.preorder_le : ∀ {us n}, Charted P us n → Ordered us → ∀ k,
    (n.preorder k).Pairwise fun x y => x.2.span.start ≤ y.2.span.start
  | us, n, .mk hs hp hc, ho, k => by
    rw [Node.preorder_eq]
    refine .cons (fun x hx => ?_) (hc.preorder_le ho (k + 1))
    obtain ⟨ys, hys, hx⟩ := hc.exists_of_mem (k + 1) x hx
    have hn : Charted P us n := .mk hs hp hc
    exact (hn.within ho hx hys).1

theorem Laid.preorder_le : ∀ {us ns}, Laid P us ns → Ordered us → ∀ k,
    (ns.flatMap (Node.preorder k)).Pairwise fun x y => x.2.span.start ≤ y.2.span.start
  | _, _, .nil, _, _ => .nil
  | _, _, .cons hn hns, ho, k => by
    have ho := ho.part (List.suffix_append ..).isInfix
    have hus := ho.part (List.prefix_append ..).isInfix
    have hvs := ho.part (List.suffix_append ..).isInfix
    rw [List.flatMap_cons]
    refine List.pairwise_append.mpr ⟨hn.preorder_le hus k, hns.preorder_le hvs k, ?_⟩
    intro x hx y hy
    obtain ⟨xs, hxs, hx⟩ := hn.exists_of_mem k x hx
    obtain ⟨ys, hys, hy⟩ := hns.exists_of_mem k y hy
    have hlt := hx.start_lt_stop (hus.part hxs)
    have hle := hx.stop_le_start hy hxs hys ho
    omega

end

end

/-! ## Programs -/

theorem ordered_of_tokenize {source : String} {us : List Token} {e : Token}
    (h : tokenize source = .ok (us ++ [e])) (hus : ∀ t ∈ us, t.kind ≠ .eof) : Ordered us := by
  constructor
  · have hpairs := (List.pairwise_append.mp (precedes_of_scan h)).1
    exact hpairs.imp fun hab => hab.1
  · intro t ht
    obtain ⟨pre, mid, -, -, hspan, -, hne⟩ := exists_between_of_scan h (List.mem_append_left _ ht)
    obtain ⟨c, mid, rfl⟩ := List.exists_cons_of_ne_nil (hne (hus t ht))
    have hc := c.utf8Size_pos
    simp only [hspan, Span.between, offset_after, bytes_append, bytes_cons]
    omega

theorem stop_le_of_tokenize {source : String} {ts : List Token} (h : tokenize source = .ok ts) :
    ∀ t ∈ ts, t.span.stop ≤ source.utf8ByteSize := by
  intro t ht
  obtain ⟨pre, mid, post, hsource, hspan, -⟩ := exists_between_of_scan h ht
  rw [← bytes_toList, hsource]
  simp only [hspan, Span.between, offset_after, bytes_append]
  omega

/-- The statements of a program are charted over the tokens of its source, and all conditions in it are
within the limit. -/
theorem exists_laid_of_compile {source : String} {p : Program} (h : compile source = .ok p) :
    ∃ us e, tokenize source = .ok (us ++ [e]) ∧ (∀ t ∈ us, t.kind ≠ .eof) ∧
      p.span = ⟨1, 1, 0, source.utf8ByteSize⟩ ∧
      Laid (Grammar.Fits Program.defaultLimit) us (p.statements.map Node.ofStatement) := by
  obtain ⟨ts, hts, hp⟩ := compileWithin_eq_ok_iff.mp h
  obtain ⟨us, e, rfl, hus, he, -, -, hstop⟩ := exists_eof_of_tokenize hts
  rw [Program.parse_append_eof _ hus he, Program.parseBody_eq_ok_iff, hstop] at hp
  obtain ⟨hrun, hspan⟩ := hp
  obtain ⟨vs, hvs, hdoc⟩ := Grammar.sound_document _ hrun
  rw [List.append_nil] at hvs
  subst hvs
  obtain ⟨d, hread, hlaid⟩ := Grammar.laid_document hdoc
  rw [← List.append_nil us] at hrun
  have hd := hread.le_of_run_eq_ok hrun
  exact ⟨us, e, hts, hus, hspan, hlaid.imp (Grammar.Fits.mono hd)⟩

/-- **Spans.** The program takes up its whole source. Every other node is not empty and begins and ends
where tokens do; no node sticks out of its parent, and siblings follow one another. So a traversal that
visits parents before children never goes back in the source. -/
theorem compile_spans {source : String} {p : Program} (h : compile source = .ok p) :
    p.span = ⟨1, 1, 0, source.utf8ByteSize⟩ ∧ ∃ ts, tokenize source = .ok ts ∧
      (∀ d n, (d, n) ∈ (Node.program p).preorder 0 →
        (0 < d → n.span.Aligned ts ∧ n.span.start < n.span.stop) ∧
        (∀ c ∈ n.children, c.span.Within n.span) ∧
        n.children.Pairwise fun a b => a.span.stop ≤ b.span.start) ∧
      ((Node.program p).preorder 0).Pairwise fun x y => x.2.span.start ≤ y.2.span.start := by
  obtain ⟨us, e, hts, hus, hspan, hlaid⟩ := exists_laid_of_compile h
  have ho := ordered_of_tokenize hts hus
  refine ⟨hspan, us ++ [e], hts, fun d n hx => ?_, ?_⟩
  · rw [Node.preorder_eq] at hx
    rcases List.mem_cons.mp hx with hroot | hx
    · cases hroot
      refine ⟨fun hd => absurd hd (Nat.lt_irrefl 0), fun c hc => ?_, hlaid.apart ho⟩
      obtain ⟨ys, hys, hc⟩ := hlaid.exists_of_mem_nodes c hc
      obtain ⟨a, b, -, hb, hs⟩ := hc.across (ho.part hys)
      have hstop := stop_le_of_tokenize hts b
        (List.mem_append_left _ (hys.subset (List.mem_of_getLast? hb)))
      have hprogram : (Node.program p).span = ⟨1, 1, 0, source.utf8ByteSize⟩ := hspan
      rw [hs, hprogram]
      exact ⟨Nat.zero_le _, hstop⟩
    · obtain ⟨ys, hys, hn⟩ := hlaid.exists_of_mem 1 _ hx
      have hoys := ho.part hys
      obtain ⟨hwithin, hapart⟩ := hn.children hoys
      have hts : ys <:+: us ++ [e] := hys.trans (List.prefix_append ..).isInfix
      exact ⟨fun _ => ⟨hn.aligned hoys hts, hn.start_lt_stop hoys⟩, hwithin, hapart⟩
  · rw [Node.preorder_eq]
    refine .cons (fun x _ => ?_) (hlaid.preorder_le ho 1)
    have hprogram : (Node.program p).span = ⟨1, 1, 0, source.utf8ByteSize⟩ := hspan
    rw [hprogram]
    exact Nat.zero_le _

/-- A condition on the second line: `not` and the call behind it. -/
theorem compile_spans_negated_call :
    let call := Expr.call (.ident "f" ⟨2, 11, 27, 28⟩) [.ident "a" ⟨2, 13, 29, 30⟩] ⟨2, 11, 27, 31⟩
    compile "rule r: custom \x7b\n when not f(a) then deny \x7d" =
      .ok ⟨[.rule ⟨"r", .custom, [.guard ⟨.negate call ⟨2, 7, 23, 31⟩, ⟨.deny, ⟨2, 21, 37, 41⟩⟩,
        ⟨2, 2, 18, 41⟩⟩], ⟨1, 1, 0, 43⟩⟩], ⟨1, 1, 0, 43⟩⟩ ∧
    (∃ ts, tokenize "rule r: custom \x7b\n when not f(a) then deny \x7d" = .ok ts ∧
      (⟨2, 7, 23, 31⟩ : Span).Aligned ts) ∧
    (⟨2, 11, 27, 31⟩ : Span).Within ⟨2, 7, 23, 31⟩ := by
  intro call
  have h : compile "rule r: custom \x7b\n when not f(a) then deny \x7d" =
      .ok ⟨[.rule ⟨"r", .custom, [.guard ⟨.negate call ⟨2, 7, 23, 31⟩, ⟨.deny, ⟨2, 21, 37, 41⟩⟩,
        ⟨2, 2, 18, 41⟩⟩], ⟨1, 1, 0, 43⟩⟩], ⟨1, 1, 0, 43⟩⟩ := by
    decide +kernel
  obtain ⟨-, ts, hts, hnodes, -⟩ := compile_spans h
  obtain ⟨halign, hwithin, -⟩ := hnodes 3 _
    (Node.mem_preorder_of_condition List.mem_cons_self List.mem_cons_self (Node.self_mem_preorder ..))
  exact ⟨h, ⟨ts, hts, (halign (by decide)).1⟩, hwithin (.expr call) List.mem_cons_self⟩

end PolicyLang
